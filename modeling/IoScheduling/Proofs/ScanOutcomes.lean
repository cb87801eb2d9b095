import IoScheduling.Proofs.Alterations
import IoScheduling.Proofs.ScanProgress
import IoScheduling.Proofs.Starvation
import Mathlib.Data.List.Forall2

/-! # What a scan does

A scan of the multi-level feedback comes to the files of a bucket in order, and to the reads of a
file before its writes. What it does with a lane depends on the state in which it finds the file, so
the cooldown that it arms for the reads of a file keeps it away from the writes. -/
namespace IoScheduling

theorem shorterWait_none (a : Option Nat) : shorterWait a none = a := by
  cases a <;> rfl

theorem none_shorterWait (a : Option Nat) : shorterWait none a = a := by
  cases a <;> rfl

theorem shorterWait_assoc (a b c : Option Nat) :
    shorterWait (shorterWait a b) c = shorterWait a (shorterWait b c) := by
  cases a <;> cases b <;> cases c <;> simp [shorterWait, Nat.min_assoc]

theorem min?_append (xs ys : List Nat) : (xs ++ ys).min? = shorterWait xs.min? ys.min? := by
  induction xs with
  | nil => exact (none_shorterWait _).symm
  | cons x xs ih =>
    have cons (zs : List Nat) : (x :: zs).min? = shorterWait (some x) zs.min? := by
      rw [List.min?_cons]
      cases zs.min? <;> rfl
    rw [List.cons_append, cons, cons, ih, shorterWait_assoc]

structure FirstEligible (quantum : Nat) (queue : List Entry) (i : Nat) (e : Entry) : Prop where
  found : queue[i]? = some e
  eligible : e.eligible quantum
  first : ∀ j < i, ∀ o, queue[j]? = some o → ¬ o.eligible quantum

def FileState.passed (f : FileState) (now : Nat) (d : Direction) : FileState :=
  (f.expire now).modifyLane d fun l => { l with entries := l.entries.map Entry.promote }

/-- What a scan makes of a file when it comes to one of its lanes, the requests that go out, and the
waits that it meets or arms. -/
inductive Scanned (setup : Setup) (quantum now : Nat) (d : Direction) (f : FileState) :
    FileState → List (List Request) → List Nat → Prop where
  | empty : (f.lane d).entries = [] → Scanned setup quantum now d f f [] []
  | cooling {left : Nat} : (f.lane d).entries ≠ [] → f.cooldown? now = some left →
      Scanned setup quantum now d f f [] [left]
  | early : (f.lane d).entries ≠ [] → f.cooldown? now = none →
      (∀ e ∈ (f.lane d).entries, ¬ e.promote.eligible quantum) →
      Scanned setup quantum now d f (f.passed now d) [] []
  | held {i wait : Nat} {e : Entry} : (f.lane d).entries ≠ [] → f.cooldown? now = none →
      FirstEligible quantum ((f.lane d).entries.map Entry.promote) i e →
      (f.passed now d).holdback? setup d i now = some (e, wait) →
      Scanned setup quantum now d f ((f.passed now d).arm e wait now) [] [wait]
  | dispatched {i t : Nat} {e : Entry} : (f.lane d).entries ≠ [] → f.cooldown? now = none →
      FirstEligible quantum ((f.lane d).entries.map Entry.promote) i e →
      (f.passed now d).holdback? setup d i now = none →
      Scanned setup quantum now d f
        ((f.passed now d).modifyLane d (·.sent i e t false false)) [e.requests] []

variable {setup : Setup} {quantum now : Nat} {d : Direction} {f g : FileState} {file : String}
  {ready : List (List Request)} {waits : List Nat}

namespace FileState

@[simp] theorem file_passed (f : FileState) (now : Nat) (d : Direction) :
    (f.passed now d).file = f.file := file_modifyLane _ _ _

@[simp] theorem entries_passed (f : FileState) (now : Nat) (d : Direction) :
    ((f.passed now d).lane d).entries = (f.lane d).entries.map Entry.promote := by
  rw [passed, lane_modifyLane, lane_expire]

end FileState

theorem Scanned.file_eq (h : Scanned setup quantum now d f g ready waits) : g.file = f.file := by
  cases h with
  | empty | cooling => rfl
  | early => exact f.file_passed now d
  | held => exact f.file_passed now d
  | dispatched => exact (FileState.file_modifyLane _ d _).trans (f.file_passed now d)

namespace Feedback

variable {ω : Type} {host : Host ω} {scan scan' scan'' : Scan ω}

structure Advances (scan scan' : Scan ω) (file : String) (g : FileState)
    (ready : List (List Request)) (waits : List Nat) : Prop where
  inStep : scan'.session.core.InStep
  alters : scan.session.core.Alters scan'.session.core file g
  ready_eq : scan'.ready = scan.ready ++ ready
  wait_eq : scan'.wait = shorterWait scan.wait waits.min?

theorem Advances.refl (h : scan.session.core.InStep)
    (hf : scan.session.core.index.file? file = some f) : Advances scan scan file f [] [] :=
  ⟨h, .refl hf, (List.append_nil _).symm, (shorterWait_none _).symm⟩

theorem Advances.trans {ready' : List (List Request)} {waits' : List Nat}
    (h : Advances scan scan' file f ready waits) (k : Advances scan' scan'' file g ready' waits') :
    Advances scan scan'' file g (ready ++ ready') (waits ++ waits') where
  inStep := k.inStep
  alters := h.alters.trans k.alters
  ready_eq := by rw [k.ready_eq, h.ready_eq, List.append_assoc]
  wait_eq := by rw [k.wait_eq, h.wait_eq, min?_append, shorterWait_assoc]

theorem firstEligible_of_findIdx? {queue : List Entry} {i : Nat}
    (h : queue.findIdx? (·.eligible quantum) = some i) :
    ∃ e, FirstEligible quantum queue i e := by
  obtain ⟨hi, eligible, others⟩ := List.findIdx?_eq_some_iff_getElem.mp h
  refine ⟨queue[i], List.getElem?_eq_getElem hi, eligible, fun j lt o ho => ?_⟩
  obtain ⟨hj, rfl⟩ := List.getElem?_eq_some_iff.mp ho
  exact others j lt

theorem promoteLane_eq (quantum now : Nat) (f : FileState) (d : Direction) (c : Core) :
    promoteLane quantum now f d c = ({ c with index := c.index.setFile (f.passed now d) },
      ((f.lane d).entries.map Entry.promote).findIdx? (·.eligible quantum)) := by
  have same : (f.expire now).modifyLane d (fun l =>
      { l with entries := (f.lane d).entries.map Entry.promote }) = f.passed now d := by
    cases d <;> rfl
  rw [promoteLane, same]

theorem visit_scanned (host : Host ω) (quantum now : Nat) (scan : Scan ω)
    (h : scan.session.core.InStep) (hf : scan.session.core.index.file? file = some f)
    (d : Direction) :
    ∃ g ready waits, Scanned scan.session.core.setup quantum now d f g ready waits ∧
      Advances scan (visit host quantum now scan (file, d)) file g ready waits := by
  by_cases empty : (f.lane d).entries = []
  · refine ⟨f, [], [], .empty empty, ?_⟩
    rw [visit_empty (by rw [Core.lane, Index.fileOf_eq hf, empty])]
    exact .refl h hf
  have used : (f.lane d).entries.isEmpty = false := List.isEmpty_eq_false_iff.mpr empty
  unfold visit
  dsimp only
  rw [hf]
  dsimp only
  rw [used, if_neg Bool.false_ne_true]
  cases cooling : f.cooldown? now with
  | some left =>
    exact ⟨f, [], [left], .cooling empty cooling, h, .refl hf, (List.append_nil _).symm, rfl⟩
  | none =>
    dsimp only
    have promotes := Core.promoteLane_promotes h hf quantum now d
    have name : (f.passed now d).file = file := (f.file_passed now d).trans (Index.file_of_file? hf)
    have passed := Core.setFile_alters scan.session.core name
    rw [promoteLane_eq] at promotes ⊢
    cases first : ((f.lane d).entries.map Entry.promote).findIdx? (·.eligible quantum) with
    | none =>
      have early : ∀ e ∈ (f.lane d).entries, ¬ e.promote.eligible quantum := by
        intro e he eligible
        have late := List.findIdx?_eq_none_iff.mp first _ (List.mem_map_of_mem he)
        rw [late] at eligible
        cases eligible
      exact ⟨f.passed now d, [], [], .early empty cooling early, promotes.inStep, passed,
        (List.append_nil _).symm, (shorterWait_none _).symm⟩
    | some i =>
      obtain ⟨e, chosen⟩ := firstEligible_of_findIdx? first
      have there : ((f.passed now d).lane d).entries[i]? = some e := by
        rw [FileState.entries_passed]
        exact chosen.found
      dsimp only
      have held := Core.holdBack_promotes promotes.inStep file d i now
      rcases Core.holdBack_alters passed.here d i now with
        ⟨no_reason, same⟩ | ⟨e', wait, c', reason, same, arms⟩
      · rw [same]
        dsimp only
        obtain ⟨c', went, sends⟩ := Core.dispatch?_alters promotes.inStep passed.here there
          (host.clock scan.session.world).1 .feedback false
        have inStep := (Core.dispatch?_effect promotes.inStep went).inStep
        refine ⟨_, [e.requests], [],
          .dispatched (t := (host.clock scan.session.world).1) empty cooling chosen no_reason, ?_⟩
        rw [Session.dispatch?]
        dsimp only [Session.now]
        rw [went]
        exact ⟨inStep, passed.trans sends, rfl, (shorterWait_none _).symm⟩
      · rw [same] at held ⊢
        obtain ⟨-, -, found⟩ := FileState.holdback?_some reason
        obtain rfl : e = e' := Option.some.inj (there.symm.trans found)
        exact ⟨_, [], [wait], .held empty cooling chosen reason, held.inStep, passed.trans arms,
          (List.append_nil _).symm, rfl⟩

/-- What a scan makes of a file, the requests that go out, and the waits that it meets or arms. -/
structure Found where
  state : FileState
  ready : List (List Request)
  waits : List Nat

def FileScanned (setup : Setup) (quantum now : Nat) (f : FileState) (found : Found) : Prop :=
  ∃ g ready ready' waits waits', Scanned setup quantum now .read f g ready waits ∧
    Scanned setup quantum now .write g found.state ready' waits' ∧
    found.ready = ready ++ ready' ∧ found.waits = waits ++ waits'

theorem FileScanned.file_eq {found : Found} (h : FileScanned setup quantum now f found) :
    found.state.file = f.file := by
  obtain ⟨g, ready, ready', waits, waits', reads, writes, -, -⟩ := h
  exact writes.file_eq.trans reads.file_eq

end Feedback

namespace System

end System

end IoScheduling
