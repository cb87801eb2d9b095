import IoScheduling.Policy.Basic
import IoScheduling.Proofs.Scans
import IoScheduling.Proofs.Structure

/-! # What others do while a policy is at work

A policy calls the caller's code, which may call back, and it sleeps while others call. A host is
orderly if nothing else happens to the core meanwhile. Then whatever the callers do, the indexes
stay in step, and the policy may rely on what it finds when it comes back to them. -/
namespace IoScheduling

/-- One thing that others may do to a core: a call, or taking notice of a signal. -/
inductive Core.Called : Core → Core → Prop where
  | act (s : System) (x : Action) : Called s.core (s.act x).core
  | force (c : Core) (k : PolicyKind) : Called c (c.force k)
  | noticed (c : Core) (work ack : Bool) :
      Called c { c with workSignal := work, ackSignal := ack }

abbrev Core.Calls : Core → Core → Prop := Relation.ReflTransGen Core.Called

theorem Core.Called.inStep {c c' : Core} (h : Called c c') (inStep : c.InStep) : c'.InStep := by
  cases h with
  | act s x => exact System.act_inStep inStep x
  | force k => exact inStep
  | noticed work ack => exact inStep

theorem Core.Calls.inStep {c c' : Core} (h : Calls c c') (inStep : c.InStep) : c'.InStep := by
  induction h with
  | refl => exact inStep
  | tail _ call ih => exact call.inStep ih

variable {ω : Type}

namespace Session

theorem core_shouldYield (host : Host ω) (deadline : Nat) (s : Session ω) :
    (s.shouldYield host deadline).2.core = s.core := by
  unfold shouldYield
  split <;> rfl

theorem handOver_keeps {P : Session ω → Prop} {host : Host ω} (requests : List Request)
    {s : Session ω} (keeps : ∀ h s, P s → P (host.handOver h s)) (hs : P s) :
    P (s.handOver host requests) := by
  unfold handOver
  induction s.core.setup.callbacks.handovers requests generalizing s with
  | nil => exact hs
  | cons h rest ih => exact ih (keeps h s hs)

theorem deliver_keeps {P : Session ω → Prop} {host : Host ω} (requests : List Request)
    (k : PolicyKind) {s : Session ω} (keeps : ∀ h s, P s → P (host.handOver h s))
    (waits : ∀ s, P s → P (host.awaitRelease s)) (hs : P s) : P (s.deliver host requests k) := by
  have handed : P (s.handOver host requests) := handOver_keeps requests keeps hs
  unfold deliver
  split
  · exact hs
  · dsimp only
    split
    · exact waits _ handed
    · exact handed

end Session

theorem visitFrom_keeps {α : Type} {P : α × Session ω → Prop}
    {visit : Nat → α × Session ω → α × Session ω} (keeps : ∀ i acc, P acc → P (visit i acc))
    (first left step : Nat) {acc : α × Session ω} (h : P acc) :
    P (visitFrom first visit left step acc) := by
  induction left generalizing step acc with
  | zero => exact h
  | succ left ih =>
    unfold visitFrom
    split
    · exact h
    · exact ih _ (keeps _ _ h)

/-- The host changes the core by calls only. -/
structure Host.Orderly (host : Host ω) : Prop where
  handOver : ∀ h s, Core.Calls s.core (host.handOver h s).core
  awaitRelease : ∀ s, Core.Calls s.core (host.awaitRelease s).core

theorem Host.Orderly.deliver {host : Host ω} (h : host.Orderly) (requests : List Request)
    (k : PolicyKind) (s : Session ω) : Core.Calls s.core (s.deliver host requests k).core := by
  have keeps : ∀ call (t : Session ω), Core.Calls s.core t.core →
      Core.Calls s.core (host.handOver call t).core := fun call t before =>
    before.trans (h.handOver call t)
  have waits : ∀ t : Session ω, Core.Calls s.core t.core →
      Core.Calls s.core (host.awaitRelease t).core := fun t before =>
    before.trans (h.awaitRelease t)
  exact Session.deliver_keeps (P := fun t => Core.Calls s.core t.core) requests k keeps waits .refl

namespace Host

def acknowledge (s : Session Unit) (r : Request) : Session Unit :=
  { s with core := (s.core.complete 0 r.address).1 }

/-- A host whose time stands still and whose callers acknowledge each request when they get it. -/
def prompt : Host Unit where
  clock w := (0, w)
  handOver h s := h.requests.foldl acknowledge s
  awaitRelease s := s
  awaitWork _ s := s
  busy _ _ := false
  roll w := (0, w)

theorem foldl_acknowledge {R : Core → Core → Prop}
    (complete : ∀ c a, R c (c.complete 0 a).1) (rs : List Request) (s : Session Unit) :
    Relation.ReflTransGen R s.core (rs.foldl acknowledge s).core := by
  induction rs generalizing s with
  | nil => exact .refl
  | cons r rest ih => exact .head (complete s.core r.address) (ih (acknowledge s r))

theorem orderly_prompt : prompt.Orderly where
  handOver h s := foldl_acknowledge (fun c a =>
    .act ⟨c, [], [], [], [], [], []⟩ (.complete 0 a)) h.requests s
  awaitRelease := fun _ => .refl

end Host

end IoScheduling
