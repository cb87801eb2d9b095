import IoScheduling.Proofs.Hosts
import IoScheduling.Proofs.Starvation

/-! # What the scanning policies do in a call

A call of the multi-level feedback is made of visits to lanes, a call of aIOLi of selections, turns
and dispatches. In between the caller's code gets to work. So if that does nothing but operations,
neither does the call, and what is known of all runs holds after every call. -/
namespace IoScheduling

namespace System

variable {s : System} {c c' : Core} {P : Operation → Prop}

/-- Operations that satisfy `P` lead from the system to the core `c`. -/
def Leads (P : Operation → Prop) (s : System) (c : Core) : Prop :=
  ∃ ops : List Operation, (∀ op ∈ ops, P op) ∧ (s.performAll ops).core = c

theorem Leads.refl (P : Operation → Prop) (s : System) : s.Leads P s.core := ⟨[], by simp, rfl⟩

theorem Leads.trans (h : s.Leads P c) (next : ∀ t : System, t.core = c → t.Leads P c') :
    s.Leads P c' := by
  obtain ⟨ops, only, reached⟩ := h
  obtain ⟨more, also, arrived⟩ := next _ reached
  refine ⟨ops ++ more, fun op hop => (List.mem_append.mp hop).elim (only op) (also op), ?_⟩
  rw [performAll, List.foldl_append]
  exact arrived

theorem Leads.step (h : s.Leads P c) (op : Operation) (allowed : P op)
    (next : ∀ t : System, t.core = c → (t.perform op).core = c') : s.Leads P c' :=
  h.trans fun t ht => ⟨[op], fun _ ho => List.mem_singleton.mp ho ▸ allowed, next t ht⟩

end System

/-- Operations that the caller's code may do. -/
structure Host.Performs {ω : Type} (host : Host ω) (P : Operation → Prop) : Prop where
  handOver : ∀ h (s : Session ω) (t : System), t.core = s.core → t.Leads P (host.handOver h s).core
  awaitRelease : ∀ (s : Session ω) (t : System), t.core = s.core →
    t.Leads P (host.awaitRelease s).core

/-- The operations of which calls of the policies are made. -/
inductive Operation.Scheduled : Operation → Prop where
  | visit {ω : Type} (host : Host ω) (world : ω) (quantum now : Nat) (file : String)
      (d : Direction) : Scheduled (.visit host world quantum now file d)
  | select (quantumBytes now : Nat) : Scheduled (.select quantumBytes now)
  | turn (q : QuantumBounds) (k : Burst.Candidate) (now dispatched consumed : Nat) :
      Scheduled (.turn q k now dispatched consumed)
  | dispatch (now : Nat) (file : String) (d : Direction) :
      Scheduled (.act (.dispatch now file d 0 .aioli true))

section

variable {ω : Type} {host : Host ω} {P : Operation → Prop} {t : System} {s : Session ω}

theorem Host.Performs.deliver (performs : host.Performs P) (h : t.Leads P s.core)
    (requests : List Request) (k : PolicyKind) : t.Leads P (s.deliver host requests k).core :=
  Session.deliver_keeps (P := fun s => t.Leads P s.core) requests k
    (fun call s before => before.trans (performs.handOver call s))
    (fun s before => before.trans (performs.awaitRelease s)) h

theorem Host.Performs.deliverAll (performs : host.Performs P) (h : t.Leads P s.core)
    (ready : List (List Request)) (k : PolicyKind) :
    t.Leads P (ready.foldl (fun s requests => s.deliver host requests k) s).core :=
  List.foldlRecOn (motive := fun s : Session ω => t.Leads P s.core) ready _ h
    fun _ before requests _ => performs.deliver before requests k

namespace Feedback

theorem round_leads (performs : host.Performs P) (allowed : ∀ op, op.Scheduled → P op)
    (p : Feedback) (h : t.Leads P s.core) : t.Leads P (p.round host s).2.core := by
  unfold round
  refine visitFrom_keeps (P := fun acc : Outcome × Session ω => t.Leads P acc.2.core) ?_
    p.cursor _ 0 h
  intro i acc before
  dsimp only
  refine performs.deliverAll (before.trans fun u hu => ?_) _ .feedback
  obtain ⟨ops, only, reached⟩ :=
    scanBucket_performs host p.quantum (acc.2.now host).1 i (acc.2.now host).2 u hu
  refine ⟨ops, fun op hop => ?_, reached⟩
  obtain ⟨world, file, d, rfl⟩ := only op hop
  exact allowed _ (.visit host world p.quantum _ file d)

theorem loop_leads (performs : host.Performs P) (allowed : ∀ op, op.Scheduled → P op)
    (deadline rounds : Nat) {dispatched : Nat} (p : Feedback) (h : t.Leads P s.core) :
    t.Leads P (loop host deadline rounds dispatched p s).2.session.core := by
  induction rounds generalizing dispatched p s with
  | zero => exact h
  | succ rounds ih =>
    have yields := s.core_shouldYield host deadline
    unfold loop
    split
    · rename_i s' hs
      rw [hs] at yields
      exact yields ▸ h
    · rename_i s' hs
      rw [hs] at yields
      have went := round_leads performs allowed p (s := s') (yields ▸ h)
      dsimp only
      split
      · exact went
      · exact ih _ went

end Feedback

namespace Burst

theorem serve_leads (performs : host.Performs P) (allowed : ∀ op, op.Scheduled → P op)
    (q : QuantumBounds) (k : Candidate) (rounds dispatched consumed : Nat)
    (h : t.Leads P s.core) :
    t.Leads P (serve host q k rounds dispatched consumed s).session.core := by
  induction rounds generalizing dispatched consumed s with
  | zero => exact h
  | succ rounds ih =>
    unfold serve
    split
    · exact h
    · dsimp only
      have turned : t.Leads P (turn q k (s.now host).1 dispatched consumed s.core).2 := by
        refine h.step _ (allowed _ (.turn q k (s.now host).1 dispatched consumed)) fun u hu => ?_
        rw [← hu]
        rfl
      change t.Leads P (turn q k (s.now host).1 dispatched consumed (s.now host).2.core).2 at turned
      split
      · rename_i wait core ht
        rw [ht] at turned
        exact turned
      · rename_i core ht
        rw [ht] at turned
        split
        · exact turned
        · rename_i requests s' hd
          obtain ⟨⟨rs, c⟩, went, same⟩ := Option.map_eq_some_iff.mp hd
          obtain ⟨rfl, rfl⟩ := Prod.mk.inj same
          have out : t.Leads P c := by
            refine turned.step _ (allowed _ (.dispatch (host.clock (s.now host).2.world).1 k.file
              k.direction)) fun u hu => ?_
            have taken : u.core.dispatch? (host.clock (s.now host).2.world).1 k.file k.direction 0
                .aioli true = some (rs, c) := hu ▸ went
            change (u.dispatched (u.core.dispatch? _ _ _ _ _ _)).core = c
            rw [taken]
            rfl
          exact ih _ _ (performs.deliver out rs .aioli)

theorem loop_leads (performs : host.Performs P) (allowed : ∀ op, op.Scheduled → P op)
    (q : QuantumBounds) (limit deadline rounds : Nat) {dispatched : Nat} (h : t.Leads P s.core) :
    t.Leads P (loop host q limit deadline rounds dispatched s).session.core := by
  induction rounds generalizing dispatched s with
  | zero => exact h
  | succ rounds ih =>
    have yields := s.core_shouldYield host deadline
    unfold loop
    split
    · rename_i s' hs
      rw [hs] at yields
      exact yields ▸ h
    · rename_i s' hs
      rw [hs] at yields
      dsimp only
      have selected : t.Leads P { s'.core with
          index := (select q.quantumBytes (s'.now host).1 s'.core.index).2.2 } := by
        refine (yields ▸ h : t.Leads P s'.core).step _
          (allowed _ (.select q.quantumBytes (s'.now host).1)) fun u hu => ?_
        rw [← hu]
        rfl
      change t.Leads P { s'.core with
        index := (select q.quantumBytes (s'.now host).1 (s'.now host).2.core.index).2.2 } at selected
      split
      · rename_i wait index found
        rw [found] at selected
        split
        · exact selected
        · exact ih selected
      · rename_i k wait index found
        rw [found] at selected
        have served := serve_leads performs allowed q k limit 0 0
          (s := (s'.now host).2.mapCore fun c => { c with index := index }) selected
        split
        · exact served
        · split
          · exact served
          · exact ih served

end Burst

/-- A call of the multi-level feedback or of aIOLi does nothing but operations. -/
theorem Policy.schedule_leads (performs : host.Performs P) (allowed : ∀ op, op.Scheduled → P op)
    (p : Policy) (scans : p.kind = .feedback ∨ p.kind = .aioli) (limit : Nat)
    (h : t.Leads P s.core) : t.Leads P (p.schedule host limit s).2.session.core := by
  have read : t.Leads P (s.now host).2.core := h
  cases p with
  | aioli q => exact Burst.loop_leads performs allowed q limit _ limit read
  | feedback state => exact Feedback.loop_leads performs allowed _ limit state read
  | shortestJob | shortestRemaining | timeOrder | timeOrderMerging | timeWindow | passThrough =>
    rcases scans with scans | scans <;> cases scans

end

namespace Host

theorem prompt_performs {P : Operation → Prop} (allowed : ∀ a, P (.act (.complete 0 a))) :
    prompt.Performs P where
  handOver := by
    intro h s t same
    have start : t.Leads P s.core := same ▸ .refl P t
    refine List.foldlRecOn (motive := fun s : Session Unit => t.Leads P s.core) h.requests _ start ?_
    intro s before r _
    refine before.step _ (allowed r.address) fun u hu => ?_
    exact congrArg (fun c : Core => (c.complete 0 r.address).1) hu
  awaitRelease := fun s t same => same ▸ .refl P t

end Host

end IoScheduling
