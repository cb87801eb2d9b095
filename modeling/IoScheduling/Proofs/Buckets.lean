import IoScheduling.Pending.Index
import IoScheduling.Proofs.Files
import Mathlib.Algebra.BigOperators.Group.Finset.Basic
import Mathlib.Algebra.Order.BigOperators.Group.List
import Mathlib.Data.String.Basic

/-! # The index as a map

Buckets and the order of names are how an index stores files. What it stores is a state for every
name, the fresh one for a name it does not know, and an operation on a file exchanges one of these
states. Sums over the files are sums over the names. -/
namespace IoScheduling

namespace Keyed

variable {α κ : Type} [LinearOrder κ] {key : α → κ} {xs : List α}

def InOrder (key : α → κ) (xs : List α) : Prop := xs.Pairwise fun a b => key a < key b

theorem mem_put {a b : α} (h : b ∈ put key xs a) : b = a ∨ b ∈ xs := by
  induction xs with
  | nil => exact Or.inl (List.mem_singleton.mp h)
  | cons x rest ih =>
    unfold put at h
    by_cases same : key x = key a
    · rw [if_pos same] at h
      exact (List.mem_cons.mp h).imp_right (List.mem_cons_of_mem x)
    rw [if_neg same] at h
    by_cases before : key a < key x
    · rw [if_pos before] at h
      exact List.mem_cons.mp h
    · rw [if_neg before] at h
      rcases List.mem_cons.mp h with rfl | h
      · exact Or.inr List.mem_cons_self
      · exact (ih h).imp_right (List.mem_cons_of_mem x)

theorem inOrder_put (h : InOrder key xs) (a : α) : InOrder key (put key xs a) := by
  induction xs with
  | nil => exact List.pairwise_singleton _ a
  | cons x rest ih =>
    obtain ⟨first, order⟩ := List.pairwise_cons.mp h
    unfold put
    by_cases same : key x = key a
    · rw [if_pos same]
      exact List.pairwise_cons.mpr ⟨fun b hb => same ▸ first b hb, order⟩
    rw [if_neg same]
    by_cases before : key a < key x
    · rw [if_pos before]
      refine List.pairwise_cons.mpr ⟨?_, h⟩
      intro b hb
      rcases List.mem_cons.mp hb with rfl | hb
      · exact before
      · exact before.trans (first b hb)
    · rw [if_neg before]
      have after : key x < key a := lt_of_le_of_ne (not_lt.mp before) same
      refine List.pairwise_cons.mpr ⟨?_, ih order⟩
      intro b hb
      rcases mem_put hb with rfl | hb
      · exact after
      · exact first b hb

theorem find?_of_mem (h : InOrder key xs) {a : α} (ha : a ∈ xs) :
    xs.find? (fun b => key b == key a) = some a := by
  obtain ⟨front, back, rfl⟩ := List.append_of_mem ha
  have before : ∀ b ∈ front, ¬ (key b == key a) = true := by
    intro b hb
    have lt := (List.pairwise_append.mp h).2.2 b hb a List.mem_cons_self
    simp [lt.ne]
  rw [List.find?_append, List.find?_eq_none.mpr before]
  simp

theorem mem_of_find? {a : α} {k : κ} (h : xs.find? (fun b => key b == k) = some a) :
    a ∈ xs ∧ key a = k :=
  ⟨List.mem_of_find?_eq_some h, by simpa using List.find?_some h⟩

theorem sum_put {M : Type*} [AddCommMonoid M] (h : InOrder key xs) (a : α) (μ : α → M) :
    ((put key xs a).map μ).sum + (xs.find? fun b => key b == key a).elim 0 μ =
      (xs.map μ).sum + μ a := by
  induction xs with
  | nil => simp [put, add_comm]
  | cons x rest ih =>
    obtain ⟨first, order⟩ := List.pairwise_cons.mp h
    unfold put
    by_cases same : key x = key a
    · rw [if_pos same]
      simp only [List.map_cons, List.sum_cons, List.find?_cons, same, beq_self_eq_true,
        Option.elim_some]
      abel
    rw [if_neg same]
    by_cases before : key a < key x
    · rw [if_pos before]
      -- All keys from here on are larger, so there is nothing to replace.
      have absent : (x :: rest).find? (fun b => key b == key a) = none := by
        apply List.find?_eq_none.mpr
        intro b hb
        rcases List.mem_cons.mp hb with rfl | hb
        · simp [before.ne']
        · simp [(before.trans (first b hb)).ne']
      rw [absent]
      simp [add_comm]
    · rw [if_neg before]
      simp only [List.map_cons, List.sum_cons, List.find?_cons, beq_false_of_ne same]
      rw [add_assoc, ih order, add_assoc]

end Keyed

namespace Bucket

variable {M : Type*} [AddCommMonoid M]

def total (μ : FileState → M) (b : Bucket) : M := (b.files.map μ).sum

theorem file_fileOrFresh (b : Bucket) (name : String) : (b.fileOrFresh name).file = name := by
  unfold fileOrFresh
  cases h : b.file? name with
  | none => rfl
  | some f => exact (Keyed.mem_of_find? h).2

theorem file?_set (b : Bucket) (f : FileState) (name : String) :
    (b.set f).file? name = if name = f.file then some f else b.file? name :=
  Keyed.find?_put FileState.file b.files f name

theorem total_set {b : Bucket} (h : Keyed.InOrder FileState.file b.files) (f : FileState)
    {μ : FileState → M} (hμ : ∀ n, μ (.fresh n) = 0) :
    (b.set f).total μ + μ (b.fileOrFresh f.file) = b.total μ + μ f := by
  have step := Keyed.sum_put h f μ
  have old : μ (b.fileOrFresh f.file) = (b.file? f.file).elim 0 μ := by
    unfold fileOrFresh
    cases b.file? f.file with
    | none => exact hμ _
    | some g => rfl
  rw [old]
  exact step

end Bucket

namespace Index

/-- The state of a file, the fresh one if the index does not know it. -/
def fileOf (x : Index) (name : String) : FileState := (x.bucketOf name).fileOrFresh name

/-- Exchanges the state of a file and the count of its bucket. -/
def update (x : Index) (name : String) (f : FileState) (pending : Nat) : Index :=
  x.setBucketOf name { (x.bucketOf name).set f with pending := pending }

/-- Every file stands in its bucket, and the files of a bucket are in order. -/
structure Placed (x : Index) : Prop where
  numbers : Keyed.InOrder Prod.fst x.buckets
  names : ∀ a ∈ x.buckets, Keyed.InOrder FileState.file a.2.files
  slot : ∀ a ∈ x.buckets, ∀ f ∈ a.2.files, x.slotOf f.file = a.1

variable {x : Index} {f : FileState} {name : String} {p : Nat}

theorem placed_withHash (hash : String → Nat) (size : Nat) : (withHash hash size).Placed :=
  ⟨List.Pairwise.nil, by simp [withHash], by simp [withHash]⟩

theorem bucket_of_mem (h : x.Placed) {a : Nat × Bucket} (ha : a ∈ x.buckets) :
    x.bucket a.1 = a.2 := by
  rw [bucket, Keyed.find?_of_mem h.numbers ha]
  rfl

theorem bucket_cases (x : Index) (i : Nat) : (i, x.bucket i) ∈ x.buckets ∨ x.bucket i = .empty := by
  unfold bucket
  cases h : x.buckets.find? (·.1 == i) with
  | none => exact Or.inr rfl
  | some a =>
    obtain ⟨ha, rfl⟩ := Keyed.mem_of_find? h
    exact Or.inl ha

theorem Placed.names_bucket (h : x.Placed) (i : Nat) :
    Keyed.InOrder FileState.file (x.bucket i).files := by
  rcases bucket_cases x i with hb | hb
  · exact h.names _ hb
  · rw [hb]
    exact List.Pairwise.nil

theorem Placed.slot_bucket (h : x.Placed) {i : Nat} (hf : f ∈ (x.bucket i).files) :
    x.slotOf f.file = i := by
  rcases bucket_cases x i with hb | hb
  · exact h.slot _ hb f hf
  · rw [hb] at hf
    exact absurd hf List.not_mem_nil

theorem mem_files_iff_bucket (h : x.Placed) : f ∈ x.files ↔ f ∈ (x.bucketOf f.file).files := by
  unfold files
  rw [List.mem_flatMap]
  constructor
  · rintro ⟨a, ha, hf⟩
    rw [bucketOf, h.slot a ha f hf, bucket_of_mem h ha]
    exact hf
  · intro hf
    rcases bucket_cases x (x.slotOf f.file) with hb | hb
    · exact ⟨_, hb, hf⟩
    · rw [bucketOf, hb] at hf
      exact absurd hf List.not_mem_nil

theorem mem_files (h : x.Placed) : f ∈ x.files ↔ x.file? f.file = some f := by
  rw [mem_files_iff_bucket h]
  constructor
  · exact Keyed.find?_of_mem (h.names_bucket _)
  · exact fun hf => (Keyed.mem_of_find? hf).1

@[simp] theorem file_fileOf (x : Index) (name : String) : (x.fileOf name).file = name :=
  Bucket.file_fileOrFresh _ _

theorem fileOf_eq (h : x.file? name = some f) : x.fileOf name = f :=
  congrArg (Option.getD · _) h

theorem fileOf_eq_fresh (h : x.file? name = none) : x.fileOf name = .fresh name :=
  congrArg (Option.getD · _) h

theorem fileOf_of_mem (h : x.Placed) (hf : f ∈ x.files) : x.fileOf f.file = f :=
  fileOf_eq ((mem_files h).mp hf)

theorem fileOf_cases (h : x.Placed) (name : String) :
    x.fileOf name ∈ x.files ∨ x.fileOf name = .fresh name := by
  cases hf : x.file? name with
  | none => exact Or.inr (fileOf_eq_fresh hf)
  | some f =>
    rw [fileOf_eq hf]
    have same := (Keyed.mem_of_find? hf).2
    exact Or.inl ((mem_files h).mpr (same ▸ hf))

@[simp] theorem bucket_setCounts (x : Index) (c : PendingCounts) (i : Nat) :
    (x.setCounts c).bucket i = x.bucket i := rfl

theorem Placed.setCounts (h : x.Placed) (c : PendingCounts) : (x.setCounts c).Placed :=
  ⟨h.numbers, h.names, h.slot⟩

theorem bucketOf_update (x : Index) (name : String) (f : FileState) (p : Nat) (n : String) :
    (x.update name f p).bucketOf n = if x.slotOf n = x.slotOf name then
      { (x.bucketOf name).set f with pending := p } else x.bucketOf n :=
  bucket_setBucketOf x name _ (x.slotOf n)

theorem file?_update (x : Index) (p : Nat) (hf : f.file = name) (n : String) :
    (x.update name f p).file? n = if n = name then some f else x.file? n := by
  have set := Bucket.file?_set (x.bucketOf name) f n
  rw [hf] at set
  unfold file?
  rw [bucketOf_update]
  by_cases slot : x.slotOf n = x.slotOf name
  · have there : x.bucketOf n = x.bucketOf name := congrArg x.bucket slot
    rw [if_pos slot, there]
    exact set
  · have other : n ≠ name := fun same => slot (congrArg x.slotOf same)
    rw [if_neg slot, if_neg other]

theorem fileOf_update (x : Index) (p : Nat) (hf : f.file = name) (n : String) :
    (x.update name f p).fileOf n = if n = name then f else x.fileOf n := by
  have found := file?_update x p hf n
  by_cases here : n = name
  · rw [if_pos here] at found ⊢
    exact fileOf_eq found
  · rw [if_neg here] at found ⊢
    exact congrArg (Option.getD · (FileState.fresh n)) found

theorem reads_update {β : Type} (ρ : FileState → β) {x : Index} (p : Nat) (hf : f.file = name)
    (same : ρ f = ρ (x.fileOf name)) (n : String) :
    ρ ((x.update name f p).fileOf n) = ρ (x.fileOf n) := by
  rw [fileOf_update x p hf]
  split
  · rename_i here
    rw [here, same]
  · rfl

theorem fileOf_setFile (x : Index) (hf : f.file = name) (n : String) :
    (x.setFile f).fileOf n = if n = name then f else x.fileOf n := by
  subst hf
  exact fileOf_update x _ rfl n

theorem placed_update (h : x.Placed) (hf : f.file = name) : (x.update name f p).Placed where
  numbers := Keyed.inOrder_put h.numbers _
  names := by
    intro a ha
    rcases Keyed.mem_put ha with rfl | ha
    · exact Keyed.inOrder_put (h.names_bucket _) f
    · exact h.names a ha
  slot := by
    intro a ha g hg
    rcases Keyed.mem_put ha with rfl | ha
    · rcases Keyed.mem_put hg with rfl | hg
      · exact congrArg x.slotOf hf
      · exact h.slot_bucket hg
    · exact h.slot a ha g hg

section

variable {M : Type*} [AddCommMonoid M]

def total (μ : FileState → M) (x : Index) : M := (x.files.map μ).sum

theorem nodup_names (h : x.Placed) : (x.files.map FileState.file).Nodup := by
  unfold files
  rw [List.map_flatMap]
  refine List.nodup_flatMap.mpr ⟨fun a ha => ?_, ?_⟩
  · exact (List.pairwise_map.mpr (h.names a ha)).imp ne_of_lt
  · refine h.numbers.imp_of_mem fun {a b} ha hb lt => ?_
    intro n hna hnb
    obtain ⟨f, hf, rfl⟩ := List.mem_map.mp hna
    obtain ⟨g, hg, same⟩ := List.mem_map.mp hnb
    have := h.slot a ha f hf
    have := h.slot b hb g hg
    rw [same] at this
    omega

/-- A quantity that a fresh file has none of may be added up over any names that cover the files. -/
theorem total_eq_sum (h : x.Placed) {μ : FileState → M} (hμ : ∀ n, μ (.fresh n) = 0)
    {names : Finset String} (cover : ∀ f ∈ x.files, f.file ∈ names) :
    x.total μ = ∑ n ∈ names, μ (x.fileOf n) := by
  have values : x.files.map μ = (x.files.map FileState.file).map fun n => μ (x.fileOf n) := by
    rw [List.map_map]
    refine List.map_congr_left fun f hf => ?_
    exact congrArg μ (fileOf_of_mem h hf).symm
  rw [total, values, ← List.sum_toFinset _ (nodup_names h)]
  refine Finset.sum_subset (fun n hn => ?_) fun n _ hn => ?_
  · obtain ⟨f, hf, rfl⟩ := List.mem_map.mp (List.mem_toFinset.mp hn)
    exact cover f hf
  · rcases fileOf_cases h n with hf | hf
    · refine absurd (List.mem_toFinset.mpr (List.mem_map.mpr ⟨_, hf, ?_⟩)) hn
      exact file_fileOf x n
    · rw [hf, hμ]

theorem total_congr {y : Index} (hx : x.Placed) (hy : y.Placed) {μ ν : FileState → M}
    (hμ : ∀ n, μ (.fresh n) = 0) (hν : ∀ n, ν (.fresh n) = 0)
    (same : ∀ n, ν (y.fileOf n) = μ (x.fileOf n)) : y.total ν = x.total μ := by
  classical
  -- The two indexes may know different files, so the sums are taken over the names of both.
  let names := (x.files.map FileState.file).toFinset ∪ (y.files.map FileState.file).toFinset
  have coverX : ∀ f ∈ x.files, f.file ∈ names := fun f hf =>
    Finset.mem_union_left _ (List.mem_toFinset.mpr (List.mem_map_of_mem hf))
  have coverY : ∀ f ∈ y.files, f.file ∈ names := fun f hf =>
    Finset.mem_union_right _ (List.mem_toFinset.mpr (List.mem_map_of_mem hf))
  rw [total_eq_sum hx hμ coverX, total_eq_sum hy hν coverY]
  exact Finset.sum_congr rfl fun n _ => same n

theorem total_eq_buckets (μ : FileState → M) (x : Index) :
    x.total μ = (x.buckets.map fun a => a.2.total μ).sum := by
  unfold total files
  induction x.buckets with
  | nil => rfl
  | cons a rest ih =>
    rw [List.flatMap_cons, List.map_append, List.sum_append, ih]
    rfl

theorem total_update [IsRightCancelAdd M] (h : x.Placed) (hf : f.file = name) (p : Nat)
    {μ : FileState → M} (hμ : ∀ n, μ (.fresh n) = 0) :
    (x.update name f p).total μ + μ (x.fileOf name) = x.total μ + μ f := by
  let b : Bucket := { (x.bucketOf name).set f with pending := p }
  have outer := Keyed.sum_put h.numbers (x.slotOf name, b) fun a => a.2.total μ
  have old : ((x.buckets.find? fun a => a.1 == x.slotOf name).elim 0 fun a => a.2.total μ) =
      (x.bucketOf name).total μ := by
    unfold bucketOf bucket
    cases x.buckets.find? fun a => a.1 == x.slotOf name <;> rfl
  have inner : b.total μ + μ (x.fileOf name) = (x.bucketOf name).total μ + μ f := by
    have step := Bucket.total_set (h.names_bucket (x.slotOf name)) f hμ
    rwa [hf] at step
  rw [old, ← total_eq_buckets] at outer
  have whole : (x.update name f p).total μ + (x.bucketOf name).total μ = x.total μ + b.total μ := by
    rw [total_eq_buckets]
    exact outer
  refine add_right_cancel (b := (x.bucketOf name).total μ) ?_
  calc (x.update name f p).total μ + μ (x.fileOf name) + (x.bucketOf name).total μ
      = x.total μ + b.total μ + μ (x.fileOf name) := by rw [add_right_comm, whole]
    _ = x.total μ + ((x.bucketOf name).total μ + μ f) := by rw [add_assoc, inner]
    _ = x.total μ + μ f + (x.bucketOf name).total μ := by abel

end

def mapAll (x : Index) (g : FileState → FileState) (p : Bucket → Nat) : Index :=
  x.mapBuckets fun b => ⟨b.files.map g, p b⟩

section

variable {g : FileState → FileState} {q : Bucket → Nat}

theorem files_mapAll (x : Index) : (x.mapAll g q).files = x.files.map g := by
  unfold files mapAll mapBuckets
  rw [List.flatMap_map, List.map_flatMap]

theorem placed_mapAll (h : x.Placed) (hg : ∀ f, (g f).file = f.file) : (x.mapAll g q).Placed where
  numbers := List.pairwise_map.mpr h.numbers
  names := by
    intro a ha
    obtain ⟨b, hb, rfl⟩ := List.mem_map.mp ha
    refine List.pairwise_map.mpr ((h.names b hb).imp fun lt => ?_)
    rwa [hg, hg]
  slot := by
    intro a ha f hf
    obtain ⟨b, hb, rfl⟩ := List.mem_map.mp ha
    obtain ⟨f', hf', rfl⟩ := List.mem_map.mp hf
    rw [hg]
    exact h.slot b hb f' hf'

theorem bucket_mapAll (x : Index) (hq : q .empty = 0) (i : Nat) :
    (x.mapAll g q).bucket i = ⟨(x.bucket i).files.map g, q (x.bucket i)⟩ := by
  unfold bucket mapAll mapBuckets
  rw [List.find?_map]
  change (((x.buckets.find? fun a => a.1 == i).map _).map _).getD _ = _
  cases x.buckets.find? fun a => a.1 == i with
  | none =>
    simp only [Option.map_none, Option.getD_none, hq]
    rfl
  | some a => rfl

theorem file?_mapAll (x : Index) (hg : ∀ f, (g f).file = f.file) (hq : q .empty = 0)
    (name : String) : (x.mapAll g q).file? name = (x.file? name).map g := by
  have same : ((fun f : FileState => f.file == name) ∘ g) = fun f => f.file == name :=
    funext fun f => by simp [hg]
  have there : (x.mapAll g q).bucketOf name = _ := bucket_mapAll x hq (x.slotOf name)
  unfold file? Bucket.file?
  rw [there, List.find?_map, same]
  rfl

theorem fileOf_mapAll (x : Index) (hg : ∀ f, (g f).file = f.file) (hq : q .empty = 0)
    (fresh : ∀ n, g (.fresh n) = .fresh n) (name : String) :
    (x.mapAll g q).fileOf name = g (x.fileOf name) := by
  have found := file?_mapAll x hg hq name
  cases h : x.file? name with
  | none =>
    rw [h] at found
    rw [fileOf_eq_fresh h, fileOf_eq_fresh found, fresh]
  | some f =>
    rw [h] at found
    rw [fileOf_eq h, fileOf_eq found]

end

theorem le_total {μ : FileState → Nat} (h : x.Placed) (hμ : ∀ n, μ (.fresh n) = 0)
    (name : String) : μ (x.fileOf name) ≤ x.total μ := by
  rcases fileOf_cases h name with hf | hf
  · exact List.le_sum_of_mem (List.mem_map_of_mem hf)
  · rw [hf, hμ]
    exact Nat.zero_le _

end Index

end IoScheduling
