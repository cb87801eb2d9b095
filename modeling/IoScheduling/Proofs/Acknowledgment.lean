import IoScheduling.Proofs.Conservation
import IoScheduling.Proofs.Records
import IoScheduling.Service.Checksum

/-! # What has been handed out can be acknowledged

Every dispatch leaves a record for each of its requests, whatever the policy, and an acknowledgment
takes one. A request passed through leaves none: the acknowledgment that finds no record is
accepted as long as the pass-through policy is active. -/
namespace IoScheduling

open Index (SameRecords)

namespace Core

variable {c c' : Core} {now : Nat} {a : Address} {r : Request} {requests : List Request}

theorem dispatch?_heldAt {file : String} {d : Direction} {i : Nat} {k : PolicyKind}
    {inQuantum : Bool} (h : c.InStep)
    (hd : c.dispatch? now file d i k inQuantum = some (requests, c')) (a : Address) :
    c'.index.heldAt a = c.index.heldAt a + addressed a requests := by
  obtain ⟨⟨e, index⟩, he, same⟩ := Option.map_eq_some_iff.mp hd
  obtain ⟨rfl, rfl⟩ := Prod.mk.inj same
  obtain ⟨f, counts, -, hf, -⟩ := Index.detach?_some he
  obtain ⟨l, hl, -, -⟩ := FileState.detach?_some hf
  have lane := (h.index.file file).lane d
  rw [Index.file_fileOf] at lane
  have sound := lane.queue.entries e (List.mem_of_getElem? (Lane.detach?_some hl).1)
  have same : SameRecords c.index index := Index.detach?_keeps Lane.blind_handedOut he
  rw [← same.heldAt a]
  exact Index.recordDispatch_heldAt sound index now inQuantum k.profile.synchronous a

theorem dispatchHead?_heldAt {k : PolicyKind} (h : c.InStep)
    (hd : c.dispatchHead? now k = some (requests, c')) (a : Address) :
    c'.index.heldAt a = c.index.heldAt a + addressed a requests := by
  obtain ⟨⟨e, timeline⟩, he, same⟩ := Option.map_eq_some_iff.mp hd
  obtain ⟨rfl, rfl⟩ := Prod.mk.inj same
  obtain ⟨-, sound, -⟩ := Timeline.sound_pop? h.timeline he
  have same : SameRecords c.index (c.index.noteTimelineRemove e.file e.count) :=
    Index.noteTimelineRemove_keeps Lane.handedOut c.index e.file e.count
  rw [← same.heldAt a]
  exact Index.recordDispatch_heldAt sound _ now false k.profile.synchronous a

theorem complete_heldAt (c : Core) (now : Nat) (a b : Address) :
    (c.complete now a).1.index.heldAt b + (if b = a ∧ (c.index.release a).isOk then 1 else 0) =
      c.index.heldAt b := by
  obtain ⟨r, x, signal, hr, form⟩ | ⟨fault, hr, form⟩ := c.complete_cases now a
  · have found : (c.index.release a).isOk := by rw [hr]; rfl
    have same : SameRecords x (c.settledIndex now a r x) :=
      settledIndex_keeps Lane.blind_handedOut c now a r x
    rw [form, ← Index.release_heldAt hr b, ← same.heldAt b]
    simp only [found, and_true]
  · have none : ¬ (b = a ∧ (c.index.release a).isOk) := by
      rw [hr]
      rintro ⟨-, found⟩
      cases found
    have same : (c.complete now a).1.index = c.index := by
      rw [form]
      split <;> rfl
    rw [if_neg none, add_zero, same]

theorem complete_ok_iff :
    (c.complete now a).2 = .ok () ↔ c.active = .passThrough ∨ 0 < c.index.heldAt a := by
  obtain ⟨r, x, signal, hr, form⟩ | ⟨fault, hr, form⟩ := c.complete_cases now a
  · have held := Index.release_heldAt hr a
    rw [if_pos rfl] at held
    rw [form]
    exact ⟨fun _ => .inr (by omega), fun _ => rfl⟩
  · have none : ¬ 0 < c.index.heldAt a := by
      intro held
      obtain ⟨r, y, released⟩ := Index.release_of_heldAt held
      rw [released] at hr
      cases hr
    rw [form]
    by_cases active : c.active = .passThrough
    · rw [if_pos active]
      exact ⟨fun _ => .inl active, fun _ => rfl⟩
    · rw [if_neg active]
      constructor
      · intro accepted
        cases accepted
      · rintro (same | held)
        · exact absurd same active
        · exact absurd held none

end Core

def Action.acknowledges (a : Address) : Action → Bool
  | .complete _ b => b = a
  | _ => false

def acknowledgments (a : Address) (actions : List Action) : Nat :=
  actions.countP (Action.acknowledges a)

namespace System

def takesBack (a : Address) (s : System) : Action → Bool
  | .complete _ b => b = a && (s.core.index.release b).isOk
  | _ => false

/-- Whether the action passes a request of the address through. -/
def passes (a : Address) (s : System) : Action → Bool
  | .submit now call =>
    match (s.core.submit now call).2 with
    | .passThrough r => r.address = a
    | _ => false
  | _ => false

def tally (does : System → Action → Bool) : System → List Action → Nat
  | _, [] => 0
  | s, x :: rest => (does s x).toNat + tally does (s.act x) rest

/-- All requests handed out, `n` of the address aside, have a record. -/
def Recorded (a : Address) (n : Nat) (s : System) : Prop :=
  s.core.index.heldAt a + n = addressed a s.out

variable {setup : Setup} {a : Address} {n : Nat} {s : System}

theorem tally_le {does : System → Action → Bool} {p : Action → Bool}
    (only : ∀ s x, does s x → p x) (s : System) (actions : List Action) :
    tally does s actions ≤ actions.countP p := by
  induction actions generalizing s with
  | nil => exact Nat.le_refl 0
  | cons x actions ih =>
    have rest := ih (s.act x)
    have first : (does s x).toNat ≤ if p x then 1 else 0 := by
      cases h : does s x with
      | false => exact Nat.zero_le _
      | true => rw [if_pos (only s x h)]; rfl
    rw [tally, List.countP_cons]
    omega

theorem addressed_append (a : Address) (rs qs : List Request) :
    addressed a (rs ++ qs) = addressed a rs + addressed a qs := List.countP_append

theorem addressed_singleton (a : Address) (r : Request) :
    addressed a [r] = (decide (r.address = a)).toNat := by
  by_cases same : r.address = a <;> simp [addressed, same]

theorem Recorded.quiet (h : s.Recorded a n) {c : Core} (same : SameRecords s.core.index c.index) :
    c.index.heldAt a + n = addressed a s.out := by
  rw [same.heldAt a]
  exact h

theorem Recorded.dispatched (h : s.Recorded a n) {outcome : Option (List Request × Core)}
    (held : ∀ requests c, outcome = some (requests, c) →
      c.index.heldAt a = s.core.index.heldAt a + addressed a requests) :
    (s.dispatched outcome).Recorded a n := by
  cases outcome with
  | none => exact h
  | some result =>
    obtain ⟨requests, c⟩ := result
    change c.index.heldAt a + n = addressed a (({ s with core := c } : System).handOut requests).out
    rw [out_handOut, addressed_append, held requests c rfl, Nat.add_right_comm]
    exact congrArg (· + _) h

theorem submit_recorded (h : s.Recorded a n) (now : Nat) (call : Submission) :
    (s.submit now call).Recorded a (n + (s.passes a (.submit now call)).toNat) := by
  obtain refused | ⟨l, passed⟩ | ⟨l, queued⟩ := s.core.submit_cases now call
  · rw [submit, passes, refused]
    exact h
  · rw [submit, passes, passed]
    unfold Recorded
    rw [out_handOut, addressed_append, addressed_singleton, ← Nat.add_assoc]
    exact congrArg (· + _) h
  · rw [submit, passes, queued]
    have keeps := Core.submit_keeps Lane.blind_handedOut s.core now call
    rw [queued] at keeps
    exact h.quiet keeps

theorem act_recorded (h : s.Recorded a n) (inStep : s.core.InStep) (x : Action) :
    (s.act x).Recorded a (n + (s.takesBack a x).toNat + (s.passes a x).toNat) := by
  cases x with
  | submit now call => exact submit_recorded h now call
  | settle i =>
    change (s.settle i).Recorded a n
    unfold settle
    split <;> exact h
  | complete now b =>
    have taken := s.core.complete_heldAt now b a
    have one : (s.takesBack a (.complete now b)).toNat =
        if a = b ∧ (s.core.index.release b).isOk then 1 else 0 := by
      by_cases same : a = b <;> cases found : (s.core.index.release b).isOk <;>
        simp [takesBack, same, found, eq_comm]
    have before : s.core.index.heldAt a + n = addressed a s.out := h
    rw [one]
    change (s.core.complete now b).1.index.heldAt a + (n + _ + 0) = addressed a s.out
    omega
  | cancel b =>
    change (s.cancel b).Recorded a n
    unfold cancel Core.cancel
    cases hd : s.core.dequeue b with
    | error fault => exact h
    | ok result =>
      have same : SameRecords s.core.index result.2.index :=
        Core.dequeue_keeps Lane.blind_handedOut hd
      exact h.quiet same
  | migrate k => exact h.quiet (Core.migrate_keeps Lane.blind_handedOut inStep k)
  | dispatch now file d i k inQuantum =>
    exact h.dispatched fun _ _ hd => Core.dispatch?_heldAt inStep hd a
  | dispatchHead now k => exact h.dispatched fun _ _ hd => Core.dispatchHead?_heldAt inStep hd a
  | handOver i =>
    change (s.handOver i).Recorded a n
    unfold handOver
    split <;> exact h
  | steer file t => exact h.quiet (Core.steer_keeps Lane.blind_handedOut s.core file t)
  | stop => exact h
  | reset => exact h.quiet s.core.reset_sameRecords

theorem recorded_start : (start setup).Recorded a 0 := by
  have none : (start setup).core.index.heldAt a = 0 := Index.heldAt_withHash _ _ a
  rw [Recorded, none]
  rfl

theorem foldl_recorded (h : s.Recorded a n) (inStep : s.core.InStep) (actions : List Action) :
    (actions.foldl act s).Recorded a
      (n + tally (takesBack a) s actions + tally (passes a) s actions) := by
  induction actions generalizing s n with
  | nil => exact h
  | cons x actions ih =>
    have rest := ih (act_recorded h inStep x) (act_inStep inStep x)
    rw [tally, tally]
    unfold Recorded at rest ⊢
    rw [List.foldl_cons]
    omega

/-- What an acknowledgment of an address meets after a run. It is accepted exactly if a request of
the address was handed out by a dispatch and not taken back, or under the pass-through policy. -/
structure Acknowledged (setup : Setup) (actions : List Action) (now : Nat) (a : Address) : Prop where
  accepted_iff : ((run setup actions).core.complete now a).2 = .ok () ↔
    (run setup actions).core.active = .passThrough ∨
      tally (takesBack a) (start setup) actions + tally (passes a) (start setup) actions <
        addressed a (run setup actions).out
  enough : acknowledgments a actions + tally (passes a) (start setup) actions <
      addressed a (run setup actions).given →
    ((run setup actions).core.complete now a).2 = .ok ()

/-- What was dispatched can be acknowledged under any policy, and what was passed through as long as
requests are passed through. -/
theorem run_acknowledges (setup : Setup) (actions : List Action) (now : Nat) (a : Address) :
    Acknowledged setup actions now a := by
  have recorded : (run setup actions).core.index.heldAt a +
      (0 + tally (takesBack a) (start setup) actions + tally (passes a) (start setup) actions) =
        addressed a (run setup actions).out :=
    foldl_recorded recorded_start (Core.inStep_start setup) actions
  have accepted_iff : ((run setup actions).core.complete now a).2 = .ok () ↔
      (run setup actions).core.active = .passThrough ∨
        tally (takesBack a) (start setup) actions + tally (passes a) (start setup) actions <
          addressed a (run setup actions).out := by
    rw [Core.complete_ok_iff]
    apply or_congr_right
    omega
  constructor
  case accepted_iff => exact accepted_iff
  case enough =>
    intro fewer
    have delivered : addressed a (run setup actions).out =
        addressed a (run setup actions).given + addressed a (run setup actions).owed :=
      ((run_kept setup actions).delivery.countP_eq _).trans List.countP_append
    have taken : tally (takesBack a) (start setup) actions ≤ acknowledgments a actions := by
      apply tally_le
      intro s x takes
      cases x with
      | complete now b => exact (Bool.and_eq_true_iff.mp takes).1
      | _ => cases takes
    exact accepted_iff.mpr (.inr (by omega))

/-- A dispatched request is acknowledged after one of the same address was passed through. -/
theorem acknowledged_after_passing :
    let a : Address := ⟨"a", .read, 0, 8⟩
    let setup : Setup := .of .defaults .one 1
    let actions : List Action :=
      [.submit 0 ⟨"a", .read, 0, 8, 0, 0⟩, .dispatch 1 "a" .read 0 .aioli true, .handOver 0,
        .migrate .passThrough, .submit 2 ⟨"a", .read, 0, 8, 1, 0⟩, .handOver 0,
        .migrate .shortestJob]
    acknowledgments a actions + tally (passes a) (start setup) actions <
        addressed a (run setup actions).given ∧
      ((run setup actions).core.complete 3 a).2 = .ok () :=
  ⟨by decide +kernel, (run_acknowledges _ _ 3 _).enough (by decide +kernel)⟩

/-- A request passed through has no record: under any other policy its acknowledgment fails. -/
theorem passed_through_not_acknowledged :
    let a : Address := ⟨"a", .read, 0, 8⟩
    let actions : List Action :=
      [.migrate .passThrough, .submit 0 ⟨"a", .read, 0, 8, 0, 0⟩, .handOver 0, .settle 0,
        .migrate .shortestJob]
    let s := run (.of .defaults .one 1) actions
    s.core.stopping = false ∧ acknowledgments a actions < addressed a s.given ∧
      (s.core.complete 1 a).2 = .error (.notFound a) := by
  decide +kernel

end System

end IoScheduling
