import IoScheduling.Adaptive.Bandwidth
import Mathlib.Data.List.Basic
import Mathlib.Data.List.Induction
import Mathlib.Order.Nat

/-! # Dropped samples are not missed

A tracker of bandwidth drops samples that have expired, but only the oldest ones of a policy, and
only when that policy is measured again. As time goes on an expired sample stays expired, so the
tracker answers like one that keeps every sample for ever. -/
namespace IoScheduling

structure Measurement where
  kind : PolicyKind
  bytes : Nat
  elapsed : Nat
  now : Nat
  deriving DecidableEq, Repr

namespace Measurement

def sample (m : Measurement) : Sample := ⟨m.bytes, m.elapsed, m.now⟩

def record (b : Bandwidth) (m : Measurement) : Bandwidth :=
  b.record m.kind m.bytes m.elapsed m.now

end Measurement

/-- A tracker that drops nothing: each sample with its policy, in the order in which they came. -/
structure Archive where
  samples : List (PolicyKind × Sample)

namespace Archive

def empty : Archive := ⟨[]⟩

def record (a : Archive) (m : Measurement) : Archive :=
  if m.elapsed = 0 then a else ⟨a.samples ++ [(m.kind, m.sample)]⟩

def samplesOf (a : Archive) (k : PolicyKind) : List Sample :=
  (a.samples.filter fun (j, _) => j = k).map Prod.snd

/-- The samples of the policy that are no older than the window. -/
def valid (a : Archive) (validity : Nat) (k : PolicyKind) (now : Nat) : List Sample :=
  (a.samplesOf k).filter fun s => now - s.takenAt ≤ validity

def measured (a : Archive) (validity : Nat) (k : PolicyKind) (now : Nat) : Option Float :=
  let valid := a.valid validity k now
  if valid = [] then none
  else some (wordToFloat (min (sumOf Sample.bytes valid) maxWord) * 1e9 /
    wordToFloat (min (sumOf Sample.elapsed valid) maxWord))

def hasMeasurement (a : Archive) (validity : Nat) (k : PolicyKind) (now : Nat) : Bool :=
  (a.measured validity k now).isSome

variable {a : Archive} {m : Measurement} {k : PolicyKind}

theorem samplesOf_record (a : Archive) (m : Measurement) (k : PolicyKind) :
    (a.record m).samplesOf k =
      if m.elapsed ≠ 0 ∧ m.kind = k then a.samplesOf k ++ [m.sample] else a.samplesOf k := by
  by_cases empty : m.elapsed = 0
  · rw [record, if_pos empty, if_neg fun both => both.1 empty]
  · rw [record, if_neg empty]
    by_cases own : m.kind = k <;> simp [samplesOf, own, empty]

theorem mem_samplesOf {ms : List Measurement} {s : Sample} :
    s ∈ (ms.foldl record empty).samplesOf k ↔
      ∃ m ∈ ms, m.kind = k ∧ m.elapsed ≠ 0 ∧ m.sample = s := by
  induction ms using List.reverseRecOn with
  | nil => simp [samplesOf, empty]
  | append_singleton ms m ih =>
    rw [List.foldl_concat, samplesOf_record]
    by_cases added : m.elapsed ≠ 0 ∧ m.kind = k
    · rw [if_pos added, List.mem_append, ih]
      constructor
      · rintro (⟨o, ho, facts⟩ | last)
        · exact ⟨o, List.mem_append_left _ ho, facts⟩
        · exact ⟨m, by simp, added.2, added.1, (List.mem_singleton.mp last).symm⟩
      · rintro ⟨o, ho, facts⟩
        rcases List.mem_append.mp ho with ho | ho
        · exact .inl ⟨o, ho, facts⟩
        · obtain rfl := List.mem_singleton.mp ho
          exact .inr (List.mem_singleton.mpr facts.2.2.symm)
    · rw [if_neg added, ih]
      constructor
      · rintro ⟨o, ho, facts⟩
        exact ⟨o, List.mem_append_left _ ho, facts⟩
      · rintro ⟨o, ho, own, lasted, same⟩
        rcases List.mem_append.mp ho with ho | ho
        · exact ⟨o, ho, own, lasted, same⟩
        · obtain rfl := List.mem_singleton.mp ho
          exact absurd ⟨lasted, own⟩ added

end Archive

theorem foldl_satAdd {α : Type} (f : α → Nat) (xs : List α) {n : Nat} (word : n ≤ maxWord) :
    xs.foldl (fun n a => satAdd n (f a)) n = min (n + sumOf f xs) maxWord := by
  induction xs generalizing n with
  | nil => exact (Nat.min_eq_left word).symm
  | cons a xs ih =>
    rw [List.foldl_cons, ih (satAdd_le_maxWord n (f a))]
    change min (min (n + f a) maxWord + sumOf f xs) maxWord =
      min (n + (f a + sumOf f xs)) maxWord
    omega

theorem sumOf_pos {α : Type} {f : α → Nat} {xs : List α} (some_item : xs ≠ [])
    (pos : ∀ a ∈ xs, 0 < f a) : 0 < sumOf f xs := by
  obtain ⟨a, rest, rfl⟩ := List.exists_cons_of_ne_nil some_item
  have first : 0 < f a := pos a List.mem_cons_self
  exact first.trans_le (Nat.le_add_right _ _)

theorem filter_dropWhile {α : Type} {p q : α → Bool} {xs : List α}
    (h : ∀ a ∈ xs, q a → p a = false) : (xs.dropWhile q).filter p = xs.filter p := by
  induction xs with
  | nil => rfl
  | cons a xs ih =>
    have rest := ih fun b hb => h b (List.mem_cons_of_mem a hb)
    by_cases dropped : q a
    · have out : ¬ p a := by rw [h a List.mem_cons_self dropped]; exact Bool.false_ne_true
      rw [List.dropWhile_cons_of_pos dropped, rest, List.filter_cons_of_neg out]
    · rw [List.dropWhile_cons_of_neg dropped]

theorem Sample.isValid_mono {s : Sample} {validity earlier later : Nat}
    (le : earlier ≤ later) (h : s.isValid validity later) : s.isValid validity earlier := by
  have young : later - s.takenAt ≤ validity := of_decide_eq_true h
  exact decide_eq_true ((Nat.sub_le_sub_right le s.takenAt).trans young)

namespace Bandwidth

variable {b : Bandwidth} {ms : List Measurement} {k : PolicyKind} {now : Nat}

theorem samples_record (b : Bandwidth) {elapsed : Nat} (lasted : 0 < elapsed)
    (j k : PolicyKind) (bytes now : Nat) :
    (b.record j bytes elapsed now).samples.get k =
      let sample : Sample := ⟨bytes, elapsed, now⟩
      if j = k then (b.samples.get k ++ [sample]).dropWhile fun s => !s.isValid b.validity now
      else b.samples.get k := by
  rw [record, if_neg lasted.ne']
  exact PerPolicy.get_modify b.samples j k _

theorem validity_record (b : Bandwidth) (m : Measurement) : (m.record b).validity = b.validity := by
  unfold Measurement.record record
  split <;> rfl

theorem validity_records (validity : Nat) (ms : List Measurement) :
    (ms.foldl Measurement.record (empty validity)).validity = validity := by
  induction ms using List.reverseRecOn with
  | nil => rfl
  | append_singleton ms m ih => rw [List.foldl_concat, validity_record, ih]

/-- Whenever the tracker is asked, it has kept all samples that count. -/
theorem valid_samples (validity : Nat) (k : PolicyKind) (later : ∀ m ∈ ms, m.now ≤ now) :
    ((ms.foldl Measurement.record (empty validity)).samples.get k).filter
        (·.isValid validity now) = (ms.foldl Archive.record .empty).valid validity k now := by
  induction ms using List.reverseRecOn with
  | nil =>
    change ((PerPolicy.replicate []).get k).filter _ = []
    rw [PerPolicy.get_replicate, List.filter_nil]
  | append_singleton ms m ih =>
    have before := ih fun o ho => later o (List.mem_append_left _ ho)
    have last : m.now ≤ now := later m (by simp)
    rw [List.foldl_concat, List.foldl_concat, Archive.valid, Archive.samplesOf_record]
    by_cases lasted : m.elapsed = 0
    · rw [Measurement.record, record, if_pos lasted, if_neg fun both => both.1 lasted]
      exact before
    rw [Measurement.record, samples_record _ (Nat.pos_of_ne_zero lasted), validity_records]
    by_cases own : m.kind = k
    · -- What is dropped has expired when the period ends, and so it has when the tracker is asked.
      have expired : ∀ s ∈ (ms.foldl Measurement.record (empty validity)).samples.get k ++
          [m.sample], (!s.isValid validity m.now) → s.isValid validity now = false := by
        intro s _ dropped
        rw [← Bool.not_eq_true]
        intro holds
        rw [Sample.isValid_mono last holds] at dropped
        cases dropped
      rw [if_pos own, if_pos ⟨lasted, own⟩, List.filter_append, ← Archive.valid, ← before]
      exact (filter_dropWhile expired).trans (List.filter_append _ _)
    · rw [if_neg own, if_neg fun both => own both.2]
      exact before

/-- Whatever has been measured, and whenever the tracker is asked after that, it answers like the
archive; and it has an answer if a period of the policy that lasted is no older than the window. -/
theorem answers_like_archive (validity : Nat) (k : PolicyKind) (later : ∀ m ∈ ms, m.now ≤ now) :
    let b := ms.foldl Measurement.record (empty validity)
    let a := ms.foldl Archive.record .empty
    b.measured k now = a.measured validity k now ∧
      b.hasMeasurement k now = a.hasMeasurement validity k now ∧
      (b.hasMeasurement k now = true ↔
        ∃ m ∈ ms, m.kind = k ∧ m.elapsed ≠ 0 ∧ now - m.now ≤ validity) := by
  intro b a
  have kept : (b.samples.get k).filter (·.isValid b.validity now) = a.valid validity k now := by
    rw [validity_records]
    exact valid_samples validity k later
  have lasted : ∀ s ∈ a.valid validity k now, 0 < s.elapsed := by
    intro s hs
    obtain ⟨m, -, -, lasted, rfl⟩ := Archive.mem_samplesOf.mp (List.mem_filter.mp hs).1
    exact Nat.pos_of_ne_zero lasted
  have same : b.measured k now = a.measured validity k now := by
    unfold measured bandwidthOf Archive.measured
    dsimp only
    rw [kept, foldl_satAdd _ _ (Nat.zero_le _), foldl_satAdd _ _ (Nat.zero_le _), Nat.zero_add,
      Nat.zero_add]
    by_cases none_valid : a.valid validity k now = []
    · rw [none_valid]
      rfl
    · have some_time := sumOf_pos none_valid lasted
      rw [if_neg none_valid, if_neg]
      exact (Nat.lt_min.mpr ⟨some_time, by decide⟩).ne'
  refine ⟨same, congrArg Option.isSome same, ?_⟩
  rw [hasMeasurement, same, Archive.measured]
  constructor
  · intro answered
    have some_valid : a.valid validity k now ≠ [] := by
      intro none_valid
      rw [if_pos none_valid] at answered
      cases answered
    obtain ⟨s, hs⟩ := List.exists_mem_of_ne_nil _ some_valid
    obtain ⟨stored, young⟩ := List.mem_filter.mp hs
    obtain ⟨m, hm, own, lasted, rfl⟩ := Archive.mem_samplesOf.mp stored
    exact ⟨m, hm, own, lasted, of_decide_eq_true young⟩
  · rintro ⟨m, hm, own, lasted, young⟩
    have stored : m.sample ∈ a.valid validity k now :=
      List.mem_filter.mpr ⟨Archive.mem_samplesOf.mpr ⟨m, hm, own, lasted, rfl⟩, decide_eq_true young⟩
    rw [if_neg (List.ne_nil_of_mem stored)]
    rfl

/-- The first sample has been dropped at time 1000, when it had expired long since. -/
theorem expired_sample_not_missed :
    let ms : List Measurement :=
      [⟨.feedback, 1000, 10, 0⟩, ⟨.shortestJob, 7, 30, 20⟩, ⟨.feedback, 500, 0, 40⟩,
        ⟨.feedback, 10, 10, 1000⟩]
    let b := ms.foldl Measurement.record (empty 100)
    let a := ms.foldl Archive.record .empty
    (∀ m ∈ ms, m.now ≤ 1050) ∧ b.samples.get .feedback = [⟨10, 10, 1000⟩] ∧
      a.samplesOf .feedback = [⟨1000, 10, 0⟩, ⟨10, 10, 1000⟩] ∧
      b.measured .feedback 1050 = a.measured 100 .feedback 1050 ∧
      b.hasMeasurement .feedback 1050 = a.hasMeasurement 100 .feedback 1050 ∧
      (b.hasMeasurement .feedback 1050 = true ↔
        ∃ m ∈ ms, m.kind = .feedback ∧ m.elapsed ≠ 0 ∧ 1050 - m.now ≤ 100) :=
  ⟨by decide, by decide, by decide, answers_like_archive 100 .feedback (by decide)⟩

end Bandwidth

end IoScheduling
