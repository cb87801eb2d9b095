import IoScheduling.Proofs.Migration

/-! # Runs

A run is any sequence of calls of a core, by callers, policies and the caller's code alike. A system
keeps the history of a run next to its core: what was accepted, withdrawn and handed out, and which
calls of the caller's code were made. -/
namespace IoScheduling

/-- What a policy notes about a file between dispatches. -/
inductive Steering where
  | promote (d : Direction) (i : Nat)
  | cool (waitingUntil waitedSeq : Option Nat)
  | grant (d : Direction) (g : Grant)
  deriving DecidableEq, Repr

def FileState.steer (f : FileState) : Steering → FileState
  | .promote d i => f.modifyLane d (Lane.promoteAt i)
  | .cool waitingUntil waitedSeq => { f with waitingUntil := waitingUntil, waitedSeq := waitedSeq }
  | .grant d g => f.modifyLane d fun l => { l with grant := g }

def Core.steer (c : Core) (file : String) (s : Steering) : Core :=
  match c.index.file? file with
  | none => c
  | some f => { c with index := c.index.setFile (f.steer s) }

inductive Action where
  | submit (now : Nat) (call : Submission)
  /-- The call that passed a request through returns, and its release is noted. -/
  | settle (i : Nat)
  | complete (now : Nat) (a : Address)
  | cancel (a : Address)
  | migrate (k : PolicyKind)
  | dispatch (now : Nat) (file : String) (d : Direction) (i : Nat) (k : PolicyKind)
      (inQuantum : Bool)
  | dispatchHead (now : Nat) (k : PolicyKind)
  /-- One of the calls that are due is made. -/
  | handOver (i : Nat)
  | steer (file : String) (s : Steering)
  | stop
  | reset
  deriving DecidableEq, Repr

/-- A core with its history. -/
structure System where
  core : Core
  /-- The accepted submissions and their times, in the order of their sequence numbers. -/
  accepted : List (Nat × Submission)
  withdrawn : List Request
  /-- The requests handed out, one list for each dispatch and each pass-through. -/
  handedOut : List (List Request)
  made : List Handover
  due : List Handover
  /-- Requests passed through whose release has not been noted. -/
  passing : List Request

namespace System

def start (setup : Setup) : System := ⟨.start setup, [], [], [], [], [], []⟩

def handOut (s : System) (requests : List Request) : System :=
  { s with
    handedOut := s.handedOut ++ [requests]
    due := s.due ++ s.core.setup.callbacks.handovers requests }

def submit (s : System) (now : Nat) (call : Submission) : System :=
  let (core, admission) := s.core.submit now call
  match admission with
  | .refused _ => { s with core := core }
  | .queued => { s with core := core, accepted := s.accepted ++ [(now, call)] }
  | .passThrough r =>
    { s with
      core := core
      accepted := s.accepted ++ [(now, call)]
      passing := s.passing ++ [r] }.handOut [r]

def settle (s : System) (i : Nat) : System :=
  match s.passing[i]? with
  | none => s
  | some r => { s with core := s.core.noteRelease r.length, passing := s.passing.eraseIdx i }

def cancel (s : System) (a : Address) : System :=
  let core := (s.core.cancel a).1
  match s.core.dequeue a with
  | .ok (r, _) => { s with core := core, withdrawn := s.withdrawn ++ [r] }
  | .error _ => { s with core := core }

def dispatched (s : System) : Option (List Request × Core) → System
  | none => s
  | some (requests, core) => { s with core := core }.handOut requests

def handOver (s : System) (i : Nat) : System :=
  match s.due[i]? with
  | none => s
  | some h => { s with made := s.made ++ [h], due := s.due.eraseIdx i }

def act (s : System) : Action → System
  | .submit now call => s.submit now call
  | .settle i => s.settle i
  | .complete now a => { s with core := (s.core.complete now a).1 }
  | .cancel a => s.cancel a
  | .migrate k => { s with core := s.core.migrate k }
  | .dispatch now file d i k inQuantum => s.dispatched (s.core.dispatch? now file d i k inQuantum)
  | .dispatchHead now k => s.dispatched (s.core.dispatchHead? now k)
  | .handOver i => s.handOver i
  | .steer file t => { s with core := s.core.steer file t }
  | .stop => { s with core := s.core.requestStop }
  | .reset => { s with core := s.core.resetStatistics }

theorem core_submit (s : System) (now : Nat) (call : Submission) :
    (s.submit now call).core = (s.core.submit now call).1 := by
  unfold submit
  dsimp only
  split <;> rfl

theorem core_cancel (s : System) (a : Address) : (s.cancel a).core = (s.core.cancel a).1 := by
  unfold cancel
  dsimp only
  split <;> rfl

def run (setup : Setup) (actions : List Action) : System := actions.foldl act (start setup)

theorem run_concat (setup : Setup) (actions : List Action) (x : Action) :
    run setup (actions ++ [x]) = (run setup actions).act x := List.foldl_concat ..

/-- What holds at the start and is kept by every action holds after every run. -/
theorem run_invariant {P : System → Prop} (setup : Setup) (base : P (start setup))
    (step : ∀ s a, P s → P (s.act a)) (actions : List Action) : P (run setup actions) := by
  -- The induction is on the actions, for any system to start from.
  have whole : ∀ s, P s → P (actions.foldl act s) := by
    induction actions with
    | nil => exact fun s h => h
    | cons a actions ih => exact fun s h => ih (s.act a) (step s a h)
  exact whole _ base

end System

theorem FileState.alike_steer (f : FileState) (s : Steering) : f.Alike (f.steer s) := by
  cases s with
  | promote d i =>
    exact alike_refactored (Lane.refactored_promoteAt _ i)
  | cool waitingUntil waitedSeq => exact ⟨rfl, rfl, rfl, rfl, rfl, fun _ h => ⟨h.lane⟩⟩
  | grant d next =>
    exact alike_modifyLane f d (g := fun l => { l with grant := next }) fun _ => ⟨rfl, rfl, rfl, rfl⟩

namespace Core

variable {c : Core}

theorem steer_effect (h : c.InStep) (file : String) (s : Steering) :
    ∃ x, c.steer file s = { c with index := x } ∧ (c.steer file s).InStep ∧
      (c.steer file s).pending = c.pending ∧ (c.steer file s).held = c.held := by
  unfold steer
  split
  · exact ⟨c.index, rfl, h, rfl, rfl⟩
  · rename_i f hf
    have alike := FileState.alike_steer f s
    rw [← Index.fileOf_eq hf] at alike ⊢
    obtain ⟨sound, counted, contents, -, held, timeline⟩ := Index.alike_effect h.index alike
    exact ⟨_, rfl, h.replace sound counted contents timeline, congrArg (· + _) contents, held⟩

end Core

structure Books where
  nextSeq : Nat
  received : Nat
  dispatched : Nat
  released : Nat
  cancelled : Nat
  outstanding : Nat

def Core.books (c : Core) : Books where
  nextSeq := c.nextSeq
  received := c.ledger.received
  dispatched := c.ledger.dispatchedRequests
  released := c.ledger.released
  cancelled := c.ledger.cancelled
  outstanding := c.outstanding

namespace System

/-- The ways in which an action can change a system and the books of its core. -/
inductive Change (s : System) : System → Prop where
  | quiet {c : Core} : c.InStep → c.setup = s.core.setup → c.pending = s.core.pending →
      c.held = s.core.held → c.books = s.core.books → Change s { s with core := c }
  | queued {c : Core} (now : Nat) (call : Submission) : c.InStep → c.setup = s.core.setup →
      c.pending = s.core.stamp now call ::ₘ s.core.pending → c.held = s.core.held →
      c.books = { s.core.books with
        nextSeq := s.core.nextSeq + 1, received := s.core.ledger.received + 1 } →
      Change s { s with core := c, accepted := s.accepted ++ [(now, call)] }
  | passed {c : Core} (now : Nat) (call : Submission) : c.InStep → c.setup = s.core.setup →
      c.pending = s.core.pending → c.held = s.core.held →
      c.books = { s.core.books with
        nextSeq := s.core.nextSeq + 1
        received := s.core.ledger.received + 1
        dispatched := s.core.ledger.dispatchedRequests + 1 } →
      Change s ({ s with
        core := c
        accepted := s.accepted ++ [(now, call)]
        passing := s.passing ++ [s.core.stamp now call] }.handOut [s.core.stamp now call])
  | settled {c : Core} {i : Nat} {r : Request} : s.passing[i]? = some r → c.InStep →
      c.setup = s.core.setup → c.pending = s.core.pending → c.held = s.core.held →
      c.books = { s.core.books with released := s.core.ledger.released + 1 } →
      Change s { s with core := c, passing := s.passing.eraseIdx i }
  | released {c : Core} {h : HandedOut} : c.InStep → c.setup = s.core.setup →
      c.pending = s.core.pending → s.core.held = h ::ₘ c.held →
      c.books = { s.core.books with
        released := s.core.ledger.released + 1
        outstanding := if h.synchronous then s.core.outstanding - 1 else s.core.outstanding } →
      Change s { s with core := c }
  | withdrawn {c : Core} {r : Request} : c.InStep → c.setup = s.core.setup →
      s.core.pending = r.bare ::ₘ c.pending → c.held = s.core.held →
      c.books = { s.core.books with cancelled := s.core.ledger.cancelled + 1 } →
      Change s { s with core := c, withdrawn := s.withdrawn ++ [r] }
  | dispatched {c : Core} {requests : List Request} (now : Nat) (inQuantum synchronous : Bool) :
      c.InStep → c.setup = s.core.setup → s.core.pending = bareBag requests + c.pending →
      c.held = s.core.held + records requests now inQuantum synchronous →
      c.books = { s.core.books with
        dispatched := s.core.ledger.dispatchedRequests + requests.length
        outstanding := if synchronous then s.core.outstanding + requests.length
          else s.core.outstanding } →
      Change s ({ s with core := c }.handOut requests)
  | handedOver {i : Nat} {h : Handover} : s.due[i]? = some h →
      Change s { s with made := s.made ++ [h], due := s.due.eraseIdx i }

variable {s s' : System}

theorem Change.of_dispatched {now : Nat} {requests : List Request} {k : PolicyKind}
    {inQuantum : Bool} {c : Core} (h : Core.Dispatched s.core c now requests k inQuantum) :
    Change s ({ s with core := c }.handOut requests) := by
  obtain ⟨⟨x, t, rfl⟩, step, pending, held⟩ := h
  exact .dispatched now inQuantum k.profile.synchronous step rfl pending held rfl

theorem act_change (h : s.core.InStep) {a : Action} (ha : a ≠ .reset) : Change s (s.act a) := by
  cases a with
  | submit now call =>
    have step := Core.submit_effect h now call
    change Change s (s.submit now call)
    unfold submit
    generalize s.core.submit now call = outcome at step
    cases step with
    | refused => exact .quiet h rfl rfl rfl rfl
    | passed => exact .passed now call h rfl rfl rfl rfl
    | queued merged form inStep pending held =>
      subst form
      exact .queued now call inStep rfl pending held rfl
  | settle i =>
    change Change s (s.settle i)
    unfold settle
    split
    · exact .quiet h rfl rfl rfl rfl
    · rename_i r hr
      exact .settled hr h rfl rfl rfl rfl
  | complete now a =>
    have step := Core.complete_effect h now a
    change Change s { s with core := (s.core.complete now a).1 }
    generalize (s.core.complete now a).1 = c at step
    cases step with
    | released signal form inStep pending held =>
      subst form
      exact .released inStep rfl pending held rfl
    | unknown ledger same =>
      rcases same with rfl | rfl <;> exact .quiet h rfl rfl rfl rfl
  | cancel a =>
    change Change s (s.cancel a)
    unfold cancel Core.cancel
    cases hd : s.core.dequeue a with
    | error fault => exact .quiet h rfl rfl rfl rfl
    | ok result =>
      obtain ⟨r, c⟩ := result
      obtain ⟨x, t, rfl, step, pending, held⟩ := Core.dequeue_effect h hd
      exact .withdrawn step rfl pending held rfl
  | migrate k =>
    obtain ⟨⟨x, t, form⟩, step, pending, held⟩ := Core.migrate_effect h k
    change Change s { s with core := s.core.migrate k }
    exact .quiet step (by rw [form]) pending held (by rw [form]; rfl)
  | dispatch now file d i k inQuantum =>
    change Change s (s.dispatched (s.core.dispatch? now file d i k inQuantum))
    cases hd : s.core.dispatch? now file d i k inQuantum with
    | none => exact .quiet h rfl rfl rfl rfl
    | some result => exact .of_dispatched (Core.dispatch?_effect h hd)
  | dispatchHead now k =>
    change Change s (s.dispatched (s.core.dispatchHead? now k))
    cases hd : s.core.dispatchHead? now k with
    | none => exact .quiet h rfl rfl rfl rfl
    | some result => exact .of_dispatched (Core.dispatchHead?_effect h hd)
  | handOver i =>
    change Change s (s.handOver i)
    unfold handOver
    split
    · exact .quiet h rfl rfl rfl rfl
    · rename_i due hdue
      exact .handedOver hdue
  | steer file t =>
    obtain ⟨x, form, step, pending, held⟩ := Core.steer_effect h file t
    change Change s { s with core := s.core.steer file t }
    exact .quiet step (by rw [form]) pending held (by rw [form]; rfl)
  | stop => exact .quiet h rfl rfl rfl rfl
  | reset => exact absurd rfl ha

theorem Change.inStep (h : Change s s') (hs : s.core.InStep) : s'.core.InStep := by
  cases h <;> assumption

theorem act_inStep (h : s.core.InStep) (a : Action) : (s.act a).core.InStep := by
  by_cases ha : a = .reset
  · subst ha
    exact (Core.resetStatistics_effect h).1
  · exact (act_change h ha).inStep h

theorem run_inStep (setup : Setup) (actions : List Action) : (run setup actions).core.InStep :=
  run_invariant (P := fun s => s.core.InStep) setup (Core.inStep_start setup)
    (fun _ a h => act_inStep h a) actions

end System

end IoScheduling
