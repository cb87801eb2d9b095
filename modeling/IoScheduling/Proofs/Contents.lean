import IoScheduling.Pending.OffsetQueue
import Mathlib.Algebra.BigOperators.Group.Multiset.Basic

/-! # What entries hold

Merging and splitting move requests between entries and change nothing but their factors. The
contents of a list of entries are therefore taken as a multiset of requests without factors. -/
namespace IoScheduling

/-- The request as it was accepted: a factor grows only while a request waits. -/
def Request.bare (r : Request) : Request := { r with factor := 0 }

namespace Request

@[simp] theorem length_bare (r : Request) : r.bare.length = r.length := rfl

@[simp] theorem bare_with_factor (r : Request) (n : Nat) :
    ({ r with factor := n } : Request).bare = r.bare := rfl

end Request

def bareBag (requests : List Request) : Multiset Request := (requests.map Request.bare : List Request)

/-- The requests of the entries, without their factors. -/
def contents (entries : List Entry) : Multiset Request := bareBag (entries.flatMap Entry.requests)

def Entry.contents (e : Entry) : Multiset Request := bareBag e.requests

@[simp] theorem bareBag_nil : bareBag [] = 0 := rfl

@[simp] theorem bareBag_cons (r : Request) (rs : List Request) :
    bareBag (r :: rs) = r.bare ::ₘ bareBag rs := rfl

@[simp] theorem bareBag_append (rs ss : List Request) :
    bareBag (rs ++ ss) = bareBag rs + bareBag ss := by
  simp [bareBag]

theorem bareBag_perm {rs ss : List Request} (h : rs.Perm ss) : bareBag rs = bareBag ss :=
  Multiset.coe_eq_coe.mpr (h.map _)

@[simp] theorem card_bareBag (rs : List Request) : (bareBag rs).card = rs.length := by
  simp [bareBag]

theorem sum_length_bareBag (rs : List Request) :
    ((bareBag rs).map Request.length).sum = sumOf Request.length rs := by
  induction rs with
  | nil => rfl
  | cons r rs ih =>
    rw [bareBag_cons, Multiset.map_cons, Multiset.sum_cons, ih]
    rfl

theorem countP_bareBag {p : Request → Prop} [DecidablePred p] (h : ∀ r, p r.bare ↔ p r)
    (rs : List Request) : (bareBag rs).countP p = rs.countP fun r => p r := by
  rw [bareBag, Multiset.coe_countP, List.countP_map]
  exact List.countP_congr fun r _ => by simp [h]

@[simp] theorem contents_nil : contents [] = 0 := rfl

@[simp] theorem contents_cons (e : Entry) (es : List Entry) :
    contents (e :: es) = e.contents + contents es := by
  simp [contents, Entry.contents]

@[simp] theorem contents_append (es fs : List Entry) :
    contents (es ++ fs) = contents es + contents fs := by
  simp [contents]

theorem contents_perm {es fs : List Entry} (h : es.Perm fs) : contents es = contents fs :=
  bareBag_perm (h.flatMap_right _)

theorem contents_flatMap {α : Type} (g : α → List Entry) (xs : List α) :
    contents (xs.flatMap g) = (xs.map fun a => contents (g a)).sum := by
  induction xs with
  | nil => rfl
  | cons a xs ih => simp [ih]

@[simp] theorem card_contents_entry (e : Entry) : e.contents.card = e.count := by
  simp [Entry.contents]

theorem mem_contents {es : List Entry} {r : Request} :
    r ∈ contents es ↔ ∃ e ∈ es, ∃ q ∈ e.requests, q.bare = r := by
  simp [contents, bareBag]
  constructor
  · rintro ⟨q, ⟨e, he, hq⟩, rfl⟩
    exact ⟨e, he, q, hq, rfl⟩
  · rintro ⟨e, he, q, hq, rfl⟩
    exact ⟨q, ⟨e, he, hq⟩, rfl⟩

theorem bytes_eq_contents (e : Entry) :
    e.bytes = wrapWord (e.contents.map Request.length).sum :=
  congrArg wrapWord (sum_length_bareBag e.requests).symm

@[simp] theorem contents_withFactor (e : Entry) (n : Nat) :
    (e.withFactor n).contents = e.contents := by
  cases e <;> rfl

def countOf (name : String) (bag : Multiset Request) : Nat := bag.countP fun r => r.file = name

@[simp] theorem countOf_zero (name : String) : countOf name 0 = 0 := rfl

@[simp] theorem countOf_add (name : String) (a b : Multiset Request) :
    countOf name (a + b) = countOf name a + countOf name b :=
  Multiset.countP_add _ a b

theorem countOf_eq {file : String} {bag : Multiset Request} (h : ∀ r ∈ bag, r.file = file)
    (name : String) : countOf name bag = if name = file then bag.card else 0 := by
  by_cases same : name = file
  · rw [if_pos same]
    exact Multiset.countP_eq_card.mpr fun r hr => (h r hr).trans same.symm
  · rw [if_neg same]
    exact Multiset.countP_eq_zero.mpr fun r hr eq => same (eq.symm.trans (h r hr))

theorem insert_perm (m : Members) (r : Request) : (m.insert r).toList.Perm (r :: m.toList) := by
  rw [Members.insert, Members.toList_insertAt]
  exact List.perm_insertIdx _ _ (partitionPoint_le_length _ _)

theorem foldl_insert_perm (m : Members) (rs : List Request) :
    (rs.foldl Members.insert m).toList.Perm (m.toList ++ rs) := by
  induction rs generalizing m with
  | nil => simp
  | cons r rs ih =>
    have step := (insert_perm m r).append_right rs
    exact (ih (m.insert r)).trans (step.trans List.perm_middle.symm)

theorem requests_absorb_perm (target other : Entry) :
    (target.absorb other).requests.Perm (target.requests ++ other.requests) := by
  have h := foldl_insert_perm target.members other.requests
  rwa [Entry.toList_members] at h

@[simp] theorem contents_absorb (target other : Entry) :
    (target.absorb other).contents = target.contents + other.contents := by
  simp [Entry.contents, bareBag_perm (requests_absorb_perm target other)]

@[simp] theorem count_absorb (target other : Entry) :
    (target.absorb other).count = target.count + other.count := by
  simpa using (requests_absorb_perm target other).length_eq

theorem requests_ofRun (factor : Nat) (run : Members) :
    (Entry.ofRun factor run).requests.map Request.bare = run.toList.map Request.bare := by
  obtain ⟨first, rest⟩ := run
  cases rest <;> rfl

theorem requests_regroupFrom (factor : Nat) (run : Members) (reach : Nat) (rest : List Request) :
    ((regroupFrom factor run reach rest).flatMap Entry.requests).map Request.bare =
      (run.toList ++ rest).map Request.bare := by
  induction rest generalizing run reach with
  | nil => simp [regroupFrom, requests_ofRun]
  | cons r rest ih =>
    unfold regroupFrom
    split
    · simp only [List.flatMap_cons, List.map_append, requests_ofRun, ih]
      simp [Members.toList]
    · simp [ih]

theorem requests_regroup (factor : Nat) (rs : List Request) :
    ((regroup factor rs).flatMap Entry.requests).map Request.bare = rs.map Request.bare := by
  cases rs with
  | nil => rfl
  | cons r rest => exact requests_regroupFrom factor ⟨r, []⟩ r.stop rest

theorem contents_regroup (factor : Nat) (rs : List Request) :
    contents (regroup factor rs) = bareBag rs :=
  congrArg _ (requests_regroup factor rs)

theorem factor_regroup {factor : Nat} {rs : List Request} {e : Entry} (he : e ∈ regroup factor rs) :
    e.factor = factor := by
  have run (m : Members) : (Entry.ofRun factor m).factor = factor := by
    obtain ⟨first, rest⟩ := m
    cases rest <;> rfl
  have from_run (rest : List Request) : ∀ (m : Members) (reach : Nat),
      ∀ e ∈ regroupFrom factor m reach rest, e.factor = factor := by
    induction rest with
    | nil =>
      intro m reach e he
      rw [regroupFrom, List.mem_singleton] at he
      rw [he, run]
    | cons r rest ih =>
      intro m reach e he
      unfold regroupFrom at he
      split at he
      · rcases List.mem_cons.mp he with rfl | he
        · exact run m
        · exact ih _ _ e he
      · exact ih _ _ e he
  cases rs with
  | nil => exact absurd he List.not_mem_nil
  | cons r rest => exact from_run rest _ _ e he

theorem extract_some {e : Entry} {i : Nat} {r : Request} {runs : List Entry}
    (h : e.extract i = some (r, runs)) :
    ∃ q, e.requests[i]? = some q ∧ r = { q with factor := max q.factor e.factor } ∧
      runs = regroup e.factor (e.requests.eraseIdx i) := by
  obtain ⟨q, hq, h⟩ := Option.map_eq_some_iff.mp h
  obtain ⟨rfl, rfl⟩ := Prod.mk.inj h
  exact ⟨q, hq, rfl, rfl⟩

theorem contents_extract {e : Entry} {i : Nat} {r : Request} {runs : List Entry}
    (h : e.extract i = some (r, runs)) : e.contents = r.bare ::ₘ contents runs := by
  obtain ⟨q, hq, rfl, rfl⟩ := extract_some h
  obtain ⟨hi, rfl⟩ := List.getElem?_eq_some_iff.mp hq
  rw [contents_regroup, Request.bare_with_factor, ← bareBag_cons]
  exact bareBag_perm (List.getElem_cons_eraseIdx_perm hi).symm

end IoScheduling
