import IoScheduling.Proofs.BusyPeriods
import Mathlib.Order.Bounds.Image

/-! # The largest recent size

A lane holds entries back for an aggregate as large as its recent ones. How large these were is kept
in one number, which a dispatch replaces or makes smaller by one. After any number of dispatches it
is the largest of their sizes, each taken one less for every dispatch since. -/
namespace IoScheduling

/-- The sizes in the order of their dispatches, each less by the number of dispatches since. -/
def aged (sizes : List Nat) : Set ℤ :=
  {v | ∃ (before : List Nat) (n : Nat) (after : List Nat),
    sizes = before ++ n :: after ∧ v = n - after.length}

theorem aged_concat (sizes : List Nat) (n : Nat) :
    aged (sizes ++ [n]) = insert (n : ℤ) ((· - 1) '' aged sizes) := by
  ext v
  constructor
  · rintro ⟨before, m, after, split, rfl⟩
    rcases concat_split split with ⟨-, rfl, rfl⟩ | ⟨since, rfl, earlier⟩
    · exact .inl (by simp)
    · refine .inr ⟨m - since.length, ⟨before, m, since, earlier, rfl⟩, ?_⟩
      simp only [List.length_append, List.length_singleton]
      omega
  · rintro (rfl | ⟨w, ⟨before, m, after, rfl, rfl⟩, rfl⟩)
    · exact ⟨sizes, n, [], rfl, by simp⟩
    · refine ⟨before, m, after ++ [n], by simp, ?_⟩
      simp only [List.length_append, List.length_singleton]
      omega

namespace AggregationTally

inductive Note where
  | dispatch (size : Nat)
  | reset
  deriving DecidableEq, Repr

def Note.size? : Note → Option Nat
  | dispatch size => some size
  | reset => none

def note (t : AggregationTally) : Note → AggregationTally
  | .dispatch size => t.record size
  | .reset => t.reset

def noted (notes : List Note) : AggregationTally := notes.foldl note .zero

def sizes (notes : List Note) : List Nat := notes.filterMap Note.size?

/-- What a tally of dispatches of these sizes says of the recent ones. -/
structure Recent (sizes : List Nat) (t : AggregationTally) : Prop where
  unused : sizes = [] → t.best = 0 ∧ t.last = 0
  best : sizes ≠ [] → IsGreatest (aged sizes) t.best
  last : ∀ n, sizes.getLast? = some n → t.last = n ∧ n ≤ t.best
  /-- A smaller dispatch takes one off, and there is one to take off. -/
  decrement : ∀ n < t.best, ((t.record n).best : ℤ) = t.best - 1

variable {t : AggregationTally} {ns : List Nat} {n : Nat}

/-- Replacing and taking one off come to the same: the larger of the new size and what is left of
the old one. -/
theorem best_record (t : AggregationTally) (n : Nat) :
    ((t.record n).best : ℤ) = max (n : ℤ) (t.best - 1) := by
  change ((if t.best ≤ n then n else t.best - 1 : Nat) : ℤ) = _
  split <;> omega

theorem best_record_of_lt (h : n < t.best) : ((t.record n).best : ℤ) = t.best - 1 := by
  rw [best_record]
  omega

theorem recent_zero : Recent [] .zero where
  unused := fun _ => ⟨rfl, rfl⟩
  best := fun some_out => absurd rfl some_out
  last := fun _ none => absurd none.symm (Option.some_ne_none _)
  decrement := fun _ => best_record_of_lt

theorem Recent.record (h : Recent ns t) (n : Nat) : Recent (ns ++ [n]) (t.record n) := by
  have greatest : IsGreatest (aged (ns ++ [n])) ((t.record n).best : ℤ) := by
    rw [aged_concat, best_record]
    by_cases first : ns = []
    · -- Before the first dispatch there is nothing to take one off, and any size is larger.
      subst first
      have none : aged [] = ∅ := Set.eq_empty_of_forall_notMem fun v ⟨_, _, _, split, _⟩ =>
        List.cons_ne_nil _ _ (List.append_eq_nil_iff.mp split.symm).2
      rw [none, (h.unused rfl).1, Set.image_empty, insert_empty_eq]
      rw [max_eq_left (by omega)]
      exact isGreatest_singleton
    · have decayed : Monotone fun v : ℤ => v - 1 := fun v w le => Int.sub_le_sub_right le 1
      exact (decayed.map_isGreatest (h.best first)).insert (n : ℤ)
  constructor
  case unused => exact fun none => absurd none (by simp)
  case best => exact fun _ => greatest
  case last =>
    intro m hm
    obtain rfl : n = m := by simpa using hm
    refine ⟨rfl, ?_⟩
    have le := best_record t n
    omega
  case decrement => exact fun _ => best_record_of_lt

theorem Recent.reset (h : Recent ns t) : Recent ns t.reset :=
  ⟨h.unused, h.best, h.last, fun _ => best_record_of_lt⟩

theorem noted_concat (notes : List Note) (x : Note) : noted (notes ++ [x]) = (noted notes).note x :=
  List.foldl_concat ..

theorem recent_noted (notes : List Note) : Recent (sizes notes) (noted notes) := by
  induction notes using List.reverseRecOn with
  | nil => exact recent_zero
  | append_singleton notes x ih =>
    rw [noted_concat, sizes, List.filterMap_append]
    cases x with
    | dispatch size => exact ih.record size
    | reset =>
      change Recent (sizes notes ++ []) _
      rw [List.append_nil]
      exact ih.reset

end AggregationTally

open AggregationTally (Note noted sizes Recent)

namespace System

/-- What an action notes in the tally of a lane. -/
def note? (s : System) (file : String) (d : Direction) : Action → Option Note
  | .reset => some .reset
  | a => ((s.core.leaving? a).filter fun e => e.file = file ∧ e.direction = d).map fun e =>
      .dispatch e.count

def notes (s : System) (file : String) (d : Direction) : List Action → List Note
  | [] => []
  | a :: actions => (s.note? file d a).toList ++ (s.act a).notes file d actions

variable {s : System} {file : String} {d : Direction} {a : Action}

theorem notes_concat (s : System) (file : String) (d : Direction) (actions : List Action)
    (a : Action) : s.notes file d (actions ++ [a]) =
      s.notes file d actions ++ ((actions.foldl act s).note? file d a).toList := by
  induction actions generalizing s with
  | nil => exact List.append_nil _
  | cons b actions ih =>
    change (s.note? file d b).toList ++ (s.act b).notes file d (actions ++ [a]) = _
    rw [ih (s.act b)]
    exact (List.append_assoc _ _ _).symm

theorem note?_of_ne_reset (s : System) (file : String) (d : Direction) (other : a ≠ .reset) :
    s.note? file d a =
      ((s.core.leaving? a).filter fun e => e.file = file ∧ e.direction = d).map fun e =>
        .dispatch e.count := by
  cases a with
  | reset => exact absurd rfl other
  | _ => rfl

theorem size_pos {n : Nat} (h : s.note? file d a = some (.dispatch n)) : 0 < n := by
  by_cases other : a = .reset
  · subst other
    cases h
  · rw [note?_of_ne_reset s file d other] at h
    obtain ⟨e, -, same⟩ := Option.map_eq_some_iff.mp h
    obtain rfl := Note.dispatch.inj same
    exact e.count_pos

theorem act_tally (h : s.core.InStep) (file : String) (d : Direction) (a : Action) :
    ((s.act a).core.index.lane file d).tally =
      (s.note? file d a).toList.foldl AggregationTally.note (s.core.index.lane file d).tally := by
  by_cases other : a = .reset
  · subst other
    change ((s.core.index.resetTallies.fileOf file).lane d).tally = _
    have reset : s.core.index.resetTallies.fileOf file =
        (s.core.index.fileOf file).resetTallies :=
      Index.fileOf_mapAll (g := FileState.resetTallies) (q := Bucket.pending) s.core.index
        (fun _ => rfl) rfl (fun _ => rfl) file
    rw [reset]
    cases d <;> rfl
  rw [note?_of_ne_reset s file d other]
  cases out : s.core.leaving? a with
  | none =>
    exact act_keeps Lane.blind_tally (fun _ _ => rfl) h out (fun is => absurd is other) file d
  | some e =>
    obtain ⟨y, now, inQuantum, synchronous, keeps, form⟩ := act_records Lane.blind_tally h out
    have tally := Index.reading_recordDispatch Lane.tally y e.file e now inQuantum synchronous file d
    rw [form]
    change Lane.tally ((Index.fileOf _ file).lane d) = _
    by_cases there : file = e.file ∧ d = e.direction
    · obtain ⟨rfl, rfl⟩ := there
      have mine : (some e).filter (fun o => o.file = e.file ∧ o.direction = e.direction) = some e := by
        simp
      rw [tally, if_pos ⟨rfl, rfl⟩, mine]
      change ((y.fileOf e.file).lane e.direction).tally.record e.count = _
      rw [keeps e.file e.direction]
      rfl
    · have none : (some e).filter (fun o => o.file = file ∧ o.direction = d) = none := by
        refine Option.filter_eq_none_iff.mpr fun o ho both => there ?_
        obtain rfl := Option.some.inj ho
        obtain ⟨rfl, rfl⟩ := of_decide_eq_true both
        exact ⟨rfl, rfl⟩
      rw [tally, if_neg there, none]
      exact keeps file d

theorem run_tally (setup : Setup) (actions : List Action) (file : String) (d : Direction) :
    ((run setup actions).core.index.lane file d).tally =
      noted ((start setup).notes file d actions) := by
  induction actions using List.reverseRecOn with
  | nil => cases d <;> rfl
  | append_singleton actions a ih =>
    rw [run_concat, act_tally (run_inStep setup actions), ih, notes_concat, noted, noted,
      List.foldl_append]
    rfl

theorem run_sizes_pos (setup : Setup) (actions : List Action) (file : String) (d : Direction) :
    ∀ n ∈ sizes ((start setup).notes file d actions), 0 < n := by
  induction actions using List.reverseRecOn with
  | nil => exact fun n hn => absurd hn List.not_mem_nil
  | append_singleton actions a ih =>
    intro n hn
    rw [notes_concat, sizes, List.filterMap_append] at hn
    rcases List.mem_append.mp hn with hn | hn
    · exact ih n hn
    · obtain ⟨x, hx, size⟩ := List.mem_filterMap.mp hn
      cases x with
      | dispatch m =>
        obtain rfl := Option.some.inj size
        exact size_pos (Option.mem_toList.mp hx)
      | reset => cases size

/-- Whatever dispatches and resets are noted, the best size of a tally is the largest of the sizes,
each less by the number of dispatches since. The tally of every lane is one of the entries that went
out of it. -/
theorem run_recalls_sizes :
    (∀ notes : List Note, Recent (sizes notes) (noted notes)) ∧
      ∀ (setup : Setup) (actions : List Action) (file : String) (d : Direction),
        let notes := (start setup).notes file d actions
        (∀ n ∈ sizes notes, 0 < n) ∧
          ((run setup actions).core.index.lane file d).tally = noted notes ∧
          Recent (sizes notes) ((run setup actions).core.index.lane file d).tally := by
  refine ⟨AggregationTally.recent_noted, fun setup actions file d => ?_⟩
  refine ⟨run_sizes_pos setup actions file d, run_tally setup actions file d, ?_⟩
  rw [run_tally]
  exact AggregationTally.recent_noted _

end System

end IoScheduling
