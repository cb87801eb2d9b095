import IoScheduling.Core.Migration
import IoScheduling.Proofs.Buckets
import Mathlib.Algebra.BigOperators.Group.Finset.Piecewise

/-! # The bucketed index

An operation on the index rewrites the state of one file. It follows what becomes of the requests
in the lanes, of those handed out, and of the counters that are kept beside them. -/
namespace IoScheduling

open FileState (Follows)

namespace Index

def contents (x : Index) : Multiset Request := x.total FileState.contents

def entries (x : Index) : List Entry := x.files.flatMap fun f => f.reads.entries ++ f.writes.entries

theorem contents_entries (x : Index) : IoScheduling.contents x.entries = x.contents := by
  refine (contents_flatMap _ x.files).trans ?_
  simp only [contents_append]
  rfl

def held (x : Index) : Multiset HandedOut := x.total FileState.held

/-- How many requests of a file the index believes to be on the timeline. -/
def onTimeline (x : Index) (name : String) : Nat := (x.fileOf name).onTimeline

/-- Files and buckets are where they belong, lanes are sound, and buckets count their lanes. -/
structure Sound (bound : Nat) (x : Index) : Prop where
  placed : x.Placed
  file : ∀ name, (x.fileOf name).Sound bound
  pending : ∀ i, (x.bucket i).pending = (x.bucket i).total FileState.inLanes

structure Counted (x : Index) : Prop where
  requests : x.counts.requests = x.total FileState.pending
  files : x.counts.files = x.total FileState.live

variable {bound limit now n : Nat} {x y : Index} {f : FileState} {name : String} {e : Entry}

theorem sound_withHash (hash : String → Nat) (size : Nat) : (withHash hash size).Sound bound :=
  ⟨placed_withHash hash size, fun name => FileState.sound_fresh name, fun _ => rfl⟩

theorem counted_withHash (hash : String → Nat) (size : Nat) : (withHash hash size).Counted :=
  ⟨rfl, rfl⟩

theorem known_of_onTimeline (h : 0 < x.onTimeline name) : (x.file? name).isSome := by
  cases hf : x.file? name with
  | some f => rfl
  | none =>
    rw [onTimeline, fileOf_eq_fresh hf] at h
    exact absurd h (lt_irrefl 0)

theorem Counted.pending_le (h : x.Counted) (hx : x.Placed) (name : String) :
    (x.fileOf name).pending ≤ x.counts.requests :=
  h.requests ▸ le_total hx FileState.pending_fresh name

theorem Counted.live_le (h : x.Counted) (hx : x.Placed) (name : String) :
    (x.fileOf name).live ≤ x.counts.files :=
  h.files ▸ le_total hx FileState.live_fresh name

theorem Sound.inLanes_le (h : x.Sound bound) (name : String) :
    (x.fileOf name).inLanes ≤ (x.bucketOf name).pending := by
  have sum := h.pending (x.slotOf name)
  cases hf : x.file? name with
  | none =>
    rw [fileOf_eq_fresh hf]
    exact Nat.zero_le _
  | some f =>
    rw [fileOf_eq hf, bucketOf, sum]
    exact List.le_sum_of_mem (List.mem_map_of_mem (Keyed.mem_of_find? hf).1)

theorem Sound.stored (h : x.Sound bound) (hf : f ∈ x.files) : f.Sound bound :=
  fileOf_of_mem h.placed hf ▸ h.file f.file

/-- The state of one file becomes `f`, and the count of its bucket changes with it. -/
structure Rewrites (x y : Index) (name : String) (f : FileState) : Prop where
  file : f.file = name
  form : ∃ p c, y = (x.update name f p).setCounts c ∧
    p + (x.fileOf name).inLanes = (x.bucketOf name).pending + f.inLanes

namespace Rewrites

theorem fileOf (h : Rewrites x y name f) (n : String) :
    y.fileOf n = if n = name then f else x.fileOf n := by
  obtain ⟨hf, p, c, rfl, -⟩ := h
  exact fileOf_update x p hf n

theorem reads {β : Type} (h : Rewrites x y name f) (ρ : FileState → β)
    (same : ρ f = ρ (x.fileOf name)) (n : String) : ρ (y.fileOf n) = ρ (x.fileOf n) := by
  obtain ⟨hf, p, c, rfl, -⟩ := h
  exact reads_update ρ p hf same n

theorem file? (h : Rewrites x y name f) (n : String) :
    y.file? n = if n = name then some f else x.file? n := by
  obtain ⟨hf, p, c, rfl, -⟩ := h
  exact file?_update x p hf n

theorem placed (h : Rewrites x y name f) (hx : x.Placed) : y.Placed := by
  obtain ⟨hf, p, c, rfl, -⟩ := h
  exact (placed_update hx hf).setCounts c

theorem sound (h : Rewrites x y name f) (hx : x.Sound bound) (hf : f.Sound bound) :
    y.Sound bound where
  placed := h.placed hx.placed
  file := by
    intro n
    rw [h.fileOf]
    split
    · exact hf
    · exact hx.file n
  pending := by
    intro i
    obtain ⟨hn, p, c, rfl, hp⟩ := h
    rw [bucket_setCounts, update, bucket_setBucketOf]
    split
    · have step := Bucket.total_set (hx.placed.names_bucket (x.slotOf name)) f
        FileState.inLanes_fresh
      have sum := hx.pending (x.slotOf name)
      rw [hn] at step
      change ((x.bucketOf name).set f).total FileState.inLanes + (x.fileOf name).inLanes =
        (x.bucketOf name).total FileState.inLanes + f.inLanes at step
      change (x.bucketOf name).pending = (x.bucketOf name).total FileState.inLanes at sum
      change p = ((x.bucketOf name).set f).total FileState.inLanes
      omega
    · exact hx.pending i

theorem counted (h : Rewrites x y name f) (hx : x.Counted) (hp : x.Placed)
    (hc : Follows x.counts y.counts (x.fileOf name) f) : y.Counted := by
  obtain ⟨hf, p, c, rfl, -⟩ := h
  have requests := total_update hp hf p FileState.pending_fresh
  have files := total_update hp hf p FileState.live_fresh
  obtain ⟨hr, hl⟩ := hc
  constructor
  · have := hx.requests
    change c.requests + _ = _ at hr
    change c.requests = (x.update name f p).total _
    omega
  · have := hx.files
    change c.files + _ = _ at hl
    change c.files = (x.update name f p).total _
    omega

theorem onTimeline (h : Rewrites x y name f) (n : String) :
    y.onTimeline n = if n = name then f.onTimeline else x.onTimeline n := by
  unfold Index.onTimeline
  rw [h.fileOf]
  split <;> rfl

theorem onTimeline_move (h : Rewrites x y name f) (move : Nat → Nat)
    (moved : f.onTimeline = move (x.onTimeline name)) (n : String) :
    y.onTimeline n = if n = name then move (x.onTimeline n) else x.onTimeline n := by
  rw [h.onTimeline]
  by_cases here : n = name
  · rw [if_pos here, if_pos here, moved, here]
  · rw [if_neg here, if_neg here]

theorem onTimeline_same (h : Rewrites x y name f) (same : f.onTimeline = x.onTimeline name)
    (n : String) : y.onTimeline n = x.onTimeline n :=
  (h.onTimeline_move id same n).trans (ite_self _)

section

variable {M : Type*} [AddCommMonoid M] [IsRightCancelAdd M] {μ : FileState → M} {a : M}

theorem total (h : Rewrites x y name f) (hx : x.Placed) (hμ : ∀ n, μ (.fresh n) = 0) :
    y.total μ + μ (x.fileOf name) = x.total μ + μ f := by
  obtain ⟨hf, p, c, rfl, -⟩ := h
  exact total_update hx hf p hμ

theorem total_eq (h : Rewrites x y name f) (hx : x.Placed) (hμ : ∀ n, μ (.fresh n) = 0)
    (same : μ f = μ (x.fileOf name)) : y.total μ = x.total μ :=
  add_right_cancel (same ▸ h.total hx hμ)

theorem total_add (h : Rewrites x y name f) (hx : x.Placed) (hμ : ∀ n, μ (.fresh n) = 0)
    (more : μ f = μ (x.fileOf name) + a) : y.total μ = x.total μ + a := by
  have sum := h.total hx hμ
  rw [more, add_left_comm, add_comm (μ _)] at sum
  exact add_right_cancel sum

theorem total_sub (h : Rewrites x y name f) (hx : x.Placed) (hμ : ∀ n, μ (.fresh n) = 0)
    (less : μ (x.fileOf name) = a + μ f) : x.total μ = a + y.total μ := by
  have sum := h.total hx hμ
  rw [less, ← add_assoc, add_comm (y.total μ)] at sum
  exact (add_right_cancel sum).symm

end

end Rewrites

theorem insert_rewrites (x : Index) (e : Entry) (limit now : Nat) :
    Rewrites x (x.insert e limit now).1 e.file
      ((x.fileOf e.file).insert e limit now x.counts).1 := by
  obtain ⟨file, -, -, lanes, -⟩ := (x.fileOf e.file).insert_frame e limit now x.counts
  refine ⟨file.trans (file_fileOf x e.file), (x.bucketOf e.file).pending + e.count, _, rfl, ?_⟩
  rw [lanes]
  omega

theorem insert_effect (h : x.Sound bound) (he : e.Sound bound e.file e.direction)
    (hl : limit ≤ bound) (now : Nat) :
    let y := (x.insert e limit now).1
    y.Sound bound ∧ (x.Counted → y.Counted) ∧ y.contents = x.contents + e.contents ∧
      y.held = x.held ∧ ∀ n, y.onTimeline n = x.onTimeline n := by
  have step := insert_rewrites x e limit now
  obtain ⟨-, contents, held, -, timeline⟩ := (x.fileOf e.file).insert_frame e limit now x.counts
  have sound : e.Sound bound (x.fileOf e.file).file e.direction := (file_fileOf x e.file).symm ▸ he
  refine ⟨step.sound h (FileState.sound_insert (h.file _) sound hl now x.counts), fun hc => ?_,
    step.total_add h.placed FileState.contents_fresh contents,
    step.total_eq h.placed FileState.held_fresh held, step.onTimeline_same timeline⟩
  exact step.counted hc h.placed (FileState.follows_insert _ e limit now x.counts)

theorem noteTimelineAdd_rewrites (x : Index) (name : String) (n now : Nat) :
    Rewrites x (x.noteTimelineAdd name n now) name
      ((x.fileOf name).noteTimelineAdd n now x.counts).1 := by
  have same := (x.fileOf name).alike_activate n now x.counts
  refine ⟨same.file.trans (file_fileOf x name), (x.bucketOf name).pending, _, rfl, ?_⟩
  exact congrArg _ same.inLanes.symm

theorem noteTimelineAdd_effect (h : x.Sound bound) (name : String) (hn : 0 < n) (now : Nat) :
    let y := x.noteTimelineAdd name n now
    y.Sound bound ∧ (x.Counted → y.Counted) ∧ y.contents = x.contents ∧ y.held = x.held ∧
      ∀ m, y.onTimeline m = if m = name then x.onTimeline m + n else x.onTimeline m := by
  have step := noteTimelineAdd_rewrites x name n now
  have same := (x.fileOf name).alike_activate n now x.counts
  refine ⟨step.sound h ⟨(same.sound bound (h.file name)).lane⟩, fun hc => ?_,
    step.total_eq h.placed FileState.contents_fresh same.contents,
    step.total_eq h.placed FileState.held_fresh same.held, step.onTimeline_move (· + n) ?_⟩
  · exact step.counted hc h.placed (FileState.follows_noteTimelineAdd _ now x.counts hn)
  · rw [FileState.noteTimelineAdd_fst]
    rfl

theorem noteTimelineRemove_rewrites (x : Index) (name : String) (n : Nat) :
    Rewrites x (x.noteTimelineRemove name n) name
      ((x.fileOf name).noteTimelineRemove n x.counts).1 :=
  ⟨file_fileOf x name, (x.bucketOf name).pending, _, rfl, rfl⟩

theorem noteTimelineRemove_effect (h : x.Sound bound) (name : String) (hn : 0 < n)
    (hm : n ≤ x.onTimeline name) :
    let y := x.noteTimelineRemove name n
    y.Sound bound ∧ (x.Counted → y.Counted) ∧ y.contents = x.contents ∧ y.held = x.held ∧
      ∀ m, y.onTimeline m = if m = name then x.onTimeline m - n else x.onTimeline m := by
  have step := noteTimelineRemove_rewrites x name n
  refine ⟨step.sound h ⟨(h.file name).lane⟩, fun hc => ?_,
    step.total_eq h.placed FileState.contents_fresh rfl,
    step.total_eq h.placed FileState.held_fresh rfl, step.onTimeline_move (· - n) rfl⟩
  exact step.counted hc h.placed (FileState.follows_noteTimelineRemove hn hm
    (hc.pending_le h.placed name) (hc.live_le h.placed name))

theorem detach?_some {d : Direction} {i : Nat} (h : x.detach? name d i = some (e, y)) :
    ∃ f c, x.file? name = some (x.fileOf name) ∧
      (x.fileOf name).detach? d i x.counts = some (e, f, c) ∧
      y = (x.update name f ((x.bucketOf name).pending - e.count)).setCounts c := by
  simp only [detach?, Bucket.detach?, Option.bind_eq_bind, Option.map_eq_some_iff,
    Option.bind_eq_some_iff, Option.pure_def, Option.some.injEq, Prod.mk.injEq, Prod.exists] at h
  obtain ⟨_, _, _, ⟨g, hg, _, f, c, hf, rfl, rfl, rfl⟩, rfl, rfl⟩ := h
  have same : x.fileOf name = g := fileOf_eq hg
  exact ⟨f, c, same.symm ▸ hg, same.symm ▸ hf, rfl⟩

theorem withdraw_ok {a : Address} {r : Request} (h : x.withdraw a = .ok (r, y)) :
    ∃ f c, (x.fileOf a.file).withdraw? a x.counts = some (r, f, c) ∧
      y = (x.update a.file f ((x.bucketOf a.file).pending - 1)).setCounts c := by
  unfold withdraw at h
  split at h
  · rename_i r' b c hw
    obtain ⟨rfl, rfl⟩ := Prod.mk.inj (Except.ok.inj h)
    simp only [Bucket.withdraw?, Option.bind_eq_bind, Option.bind_eq_some_iff, Option.pure_def,
      Option.some.injEq, Prod.mk.injEq, Prod.exists] at hw
    obtain ⟨g, hg, _, f, c', hf, rfl, rfl, rfl⟩ := hw
    have same : x.fileOf a.file = g := fileOf_eq hg
    exact ⟨f, c', same.symm ▸ hf, rfl⟩
  · cases h

theorem taken_effect {d : Direction} {l : Lane} {taken : Multiset Request}
    (h : x.Sound bound) (hl : l.Sound bound name d)
    (hc : ((x.fileOf name).lane d).contents = taken + l.contents)
    (hh : l.handedOut = ((x.fileOf name).lane d).handedOut) (pos : 0 < taken.card) :
    let f := (x.fileOf name).setLane d l
    let y := (x.update name f ((x.bucketOf name).pending - taken.card)).setCounts
      (f.deactivate taken.card x.counts)
    y.Sound bound ∧ (x.Counted → y.Counted) ∧ x.contents = taken + y.contents ∧
      y.held = x.held ∧ ∀ n, y.onTimeline n = x.onTimeline n := by
  intro f y
  obtain ⟨sound, contents, held, lanes⟩ : f.Sound bound ∧
      (x.fileOf name).contents = taken + f.contents ∧ f.held = (x.fileOf name).held ∧
      (x.fileOf name).inLanes = taken.card + f.inLanes :=
    FileState.taken_setLane (h.file name) (by rwa [file_fileOf]) hc hh
  have timeline : f.onTimeline = (x.fileOf name).onTimeline := FileState.onTimeline_setLane _ d l
  have room := h.inLanes_le name
  have step : Rewrites x y name f := by
    refine ⟨(FileState.file_setLane _ d l).trans (file_fileOf x name), _, _, rfl, ?_⟩
    omega
  refine ⟨step.sound h sound, fun hx => ?_,
    step.total_sub h.placed FileState.contents_fresh contents,
    step.total_eq h.placed FileState.held_fresh held, step.onTimeline_same timeline⟩
  refine step.counted hx h.placed (FileState.follows_deactivate pos ?_
    (hx.pending_le h.placed name) (hx.live_le h.placed name))
  rw [FileState.pending_eq, FileState.pending_eq]
  omega

theorem detach?_effect {d : Direction} {i : Nat} (h : x.Sound bound)
    (hd : x.detach? name d i = some (e, y)) :
    y.Sound bound ∧ (x.Counted → y.Counted) ∧ x.contents = e.contents + y.contents ∧
      y.held = x.held ∧ ∀ n, y.onTimeline n = x.onTimeline n := by
  obtain ⟨f, c, -, hf, rfl⟩ := detach?_some hd
  obtain ⟨l, hl, rfl, rfl⟩ := FileState.detach?_some hf
  have lane := (h.file name).lane d
  rw [file_fileOf] at lane
  obtain ⟨-, same⟩ := Lane.detach?_some hl
  have effect := taken_effect h (Lane.sound_detach? lane hl).1 (Lane.contents_detach? hl)
    (by rw [same]) (by rw [card_contents_entry]; exact e.count_pos)
  rwa [card_contents_entry] at effect

theorem withdraw_effect {a : Address} {r : Request} (h : x.Sound bound)
    (hw : x.withdraw a = .ok (r, y)) :
    y.Sound bound ∧ (x.Counted → y.Counted) ∧ x.contents = r.bare ::ₘ y.contents ∧
      y.held = x.held ∧ ∀ n, y.onTimeline n = x.onTimeline n := by
  obtain ⟨f, c, hf, rfl⟩ := withdraw_ok hw
  obtain ⟨l, hl, rfl, rfl⟩ := FileState.withdraw?_some hf
  have lane := (h.file a.file).lane a.direction
  rw [file_fileOf] at lane
  obtain ⟨entries, -, same⟩ := Lane.withdraw?_some hl
  have left : ((x.fileOf a.file).lane a.direction).contents = {r.bare} + l.contents :=
    Lane.contents_withdraw? hl
  exact taken_effect h (Lane.sound_withdraw? lane hl).1 left (by rw [same]) Nat.one_pos

theorem setFile_rewrites (hf : f.file = name) (hl : f.inLanes = (x.fileOf name).inLanes) :
    Rewrites x (x.setFile f) name f := by
  subst hf
  exact ⟨rfl, (x.bucketOf f.file).pending, x.counts, rfl, by rw [hl]⟩

theorem setFile_effect (h : x.Sound bound) (hs : f.Sound bound) (hf : f.file = name)
    (hc : f.contents = (x.fileOf name).contents) (hl : f.inLanes = (x.fileOf name).inLanes)
    (ht : f.onTimeline = (x.fileOf name).onTimeline) :
    let y := x.setFile f
    y.Sound bound ∧ (x.Counted → y.Counted) ∧ y.contents = x.contents ∧
      y.counts = x.counts ∧ ∀ n, y.onTimeline n = x.onTimeline n := by
  have step := setFile_rewrites hf hl
  have pending : f.pending = (x.fileOf name).pending := by
    rw [FileState.pending_eq, FileState.pending_eq, hl, ht]
  refine ⟨step.sound h hs, fun hx => step.counted hx h.placed ⟨?_, ?_⟩,
    step.total_eq h.placed FileState.contents_fresh hc, rfl, step.onTimeline_same ht⟩
  · rw [pending]
    rfl
  · unfold FileState.live
    rw [pending]
    rfl

theorem recordDispatch_effect (h : x.Sound bound) (name : String) (e : Entry)
    (now : Nat) (inQuantum synchronous : Bool) :
    let y := x.setFile ((x.fileOf name).recordDispatch e now inQuantum synchronous)
    y.Sound bound ∧ (x.Counted → y.Counted) ∧ y.contents = x.contents ∧
      y.counts = x.counts ∧ y.held = x.held + records e.requests now inQuantum synchronous ∧
      ∀ n, y.onTimeline n = x.onTimeline n := by
  obtain ⟨hf, hc, hl, ht, hs⟩ := (x.fileOf name).recordDispatch_frame e now inQuantum synchronous
  have file := hf.trans (file_fileOf x name)
  obtain ⟨sound, counted, contents, counts, timeline⟩ :=
    setFile_effect h (hs (h.file name)) file hc hl ht
  refine ⟨sound, counted, contents, counts, ?_, timeline⟩
  exact (setFile_rewrites file hl).total_add h.placed FileState.held_fresh
    (FileState.held_recordDispatch _ e now inQuantum synchronous)

theorem alike_effect (h : x.Sound bound) (hf : (x.fileOf name).Alike f) :
    let y := x.setFile f
    y.Sound bound ∧ (x.Counted → y.Counted) ∧ y.contents = x.contents ∧
      y.counts = x.counts ∧ y.held = x.held ∧ ∀ n, y.onTimeline n = x.onTimeline n := by
  have file := hf.file.trans (file_fileOf x name)
  obtain ⟨sound, counted, contents, counts, timeline⟩ :=
    setFile_effect h (hf.sound bound (h.file name)) file hf.contents hf.inLanes hf.onTimeline
  exact ⟨sound, counted, contents, counts,
    (setFile_rewrites file hf.inLanes).total_eq h.placed FileState.held_fresh hf.held, timeline⟩

theorem release_ok {a : Address} {r : HandedOut} (h : x.release a = .ok (r, y)) :
    ∃ f, (x.fileOf a.file).release? a = some (r, f) ∧
      y = x.update a.file f (x.bucketOf a.file).pending := by
  unfold release at h
  split at h
  · rename_i r' b hr
    obtain ⟨rfl, rfl⟩ := Prod.mk.inj (Except.ok.inj h)
    simp only [Bucket.release?, Option.bind_eq_bind, Option.bind_eq_some_iff, Option.pure_def,
      Option.some.injEq, Prod.mk.injEq, Prod.exists] at hr
    obtain ⟨g, hg, _, f, hf, rfl, rfl⟩ := hr
    have same : x.fileOf a.file = g := fileOf_eq hg
    exact ⟨f, same.symm ▸ hf, rfl⟩
  · cases h

theorem release_effect {a : Address} {r : HandedOut} (h : x.Sound bound)
    (hr : x.release a = .ok (r, y)) :
    y.Sound bound ∧ (x.Counted → y.Counted) ∧ y.contents = x.contents ∧
      y.counts = x.counts ∧ x.held = r ::ₘ y.held ∧ ∀ n, y.onTimeline n = x.onTimeline n := by
  obtain ⟨f, hf, rfl⟩ := release_ok hr
  obtain ⟨-, held, file, contents, lanes, timeline, sound⟩ := FileState.release?_some hf
  have here := file.trans (file_fileOf x a.file)
  have form : x.update a.file f (x.bucketOf a.file).pending = x.setFile f := by
    rw [← here]
    rfl
  have more : (x.fileOf a.file).held = {r} + f.held := held
  rw [form]
  obtain ⟨hs, hc, contents, counts, timeline⟩ :=
    setFile_effect h (sound (h.file a.file)) here contents lanes timeline
  exact ⟨hs, hc, contents, counts,
    (setFile_rewrites here lanes).total_sub h.placed FileState.held_fresh more, timeline⟩

theorem Counted.congr (h : x.Counted) (hx : x.Placed) (hy : y.Placed) (hc : y.counts = x.counts)
    (same : ∀ n, (y.fileOf n).pending = (x.fileOf n).pending) : y.Counted := by
  have live : ∀ n, (y.fileOf n).live = (x.fileOf n).live := by
    intro n
    unfold FileState.live
    rw [same]
  constructor
  · rw [hc, h.requests]
    exact (total_congr hx hy FileState.pending_fresh FileState.pending_fresh same).symm
  · rw [hc, h.files]
    exact (total_congr hx hy FileState.live_fresh FileState.live_fresh live).symm

theorem countOf_contents (h : x.Sound bound) (name : String) :
    countOf name x.contents = (x.fileOf name).inLanes := by
  have split : ∀ fs : List FileState, countOf name (fs.map FileState.contents).sum =
      (fs.map fun f => countOf name f.contents).sum := by
    intro fs
    induction fs with
    | nil => rfl
    | cons f fs ih => simp [ih]
  have fresh : ∀ n, countOf name (FileState.fresh n).contents = 0 := fun _ => rfl
  let names := Insert.insert name (x.files.map FileState.file).toFinset
  have cover : ∀ f ∈ x.files, f.file ∈ names := fun f hf =>
    Finset.mem_insert_of_mem (List.mem_toFinset.mpr (List.mem_map_of_mem hf))
  have each : ∀ n, countOf name (x.fileOf n).contents =
      if name = n then (x.fileOf n).inLanes else 0 := by
    intro n
    rw [countOf_eq (h.file n).file_eq, file_fileOf, (h.file n).inLanes_eq]
  calc countOf name x.contents
      = x.total fun f => countOf name f.contents := split x.files
    _ = ∑ n ∈ names, countOf name (x.fileOf n).contents := total_eq_sum h.placed fresh cover
    _ = ∑ n ∈ names, if name = n then (x.fileOf n).inLanes else 0 :=
        Finset.sum_congr rfl fun n _ => each n
    _ = (x.fileOf name).inLanes :=
        (Finset.sum_ite_eq names name _).trans (if_pos (Finset.mem_insert_self _ _))

theorem moveTimelineCount_rewrites (known : (x.file? name).isSome) (move : Nat → Nat) :
    Rewrites x (x.moveTimelineCount name move) name
      { x.fileOf name with onTimeline := move (x.onTimeline name) } := by
  obtain ⟨f, hf⟩ := Option.isSome_iff_exists.mp known
  have here := fileOf_eq hf
  have form : x.moveTimelineCount name move =
      x.setFile { x.fileOf name with onTimeline := move (x.onTimeline name) } := by
    unfold moveTimelineCount onTimeline
    rw [hf, here]
  rw [form]
  exact setFile_rewrites (file_fileOf x name) rfl

theorem counts_moveTimelineCount (x : Index) (name : String) (move : Nat → Nat) :
    (x.moveTimelineCount name move).counts = x.counts := by
  unfold moveTimelineCount
  split <;> rfl

theorem moveTimelineCount_effect (h : x.Sound bound) (known : (x.file? name).isSome)
    (move : Nat → Nat) :
    let y := x.moveTimelineCount name move
    y.Sound bound ∧ y.contents = x.contents ∧ y.held = x.held ∧ y.counts = x.counts ∧
      (∀ n, (y.file? n).isSome = (x.file? n).isSome) ∧
      ∀ n, y.onTimeline n = if n = name then move (x.onTimeline n) else x.onTimeline n := by
  have step := moveTimelineCount_rewrites known move
  refine ⟨step.sound h ⟨(h.file name).lane⟩, step.total_eq h.placed FileState.contents_fresh rfl,
    step.total_eq h.placed FileState.held_fresh rfl, counts_moveTimelineCount x name move,
    fun n => ?_, step.onTimeline_move move rfl⟩
  rw [step.file?]
  by_cases same : n = name
  · rw [if_pos same, same, known]
    rfl
  · rw [if_neg same]

theorem adopt_rewrites (x : Index) (e : Entry) (limit : Nat) :
    Rewrites x (x.adopt e limit).1 e.file ((x.fileOf e.file).adopt e limit).1 := by
  refine ⟨(FileState.file_adopt _ e limit).trans (file_fileOf x e.file),
    (x.bucketOf e.file).pending + e.count, x.counts, rfl, ?_⟩
  rw [FileState.inLanes_adopt]
  omega

theorem adopt_effect (h : x.Sound bound) (he : e.Sound bound e.file e.direction)
    (hl : limit ≤ bound) :
    let y := (x.adopt e limit).1
    y.Sound bound ∧ y.contents = x.contents + e.contents ∧ y.held = x.held ∧
      y.counts = x.counts ∧ ∀ n, y.onTimeline n = x.onTimeline n := by
  have sound : e.Sound bound (x.fileOf e.file).file e.direction := (file_fileOf x e.file).symm ▸ he
  have step := adopt_rewrites x e limit
  exact ⟨step.sound h (FileState.sound_adopt (h.file _) sound hl),
    step.total_add h.placed FileState.contents_fresh (FileState.contents_adopt _ e limit),
    step.total_eq h.placed FileState.held_fresh (FileState.held_adopt _ e limit), rfl,
    step.onTimeline_same (FileState.onTimeline_adopt _ e limit)⟩

theorem drain_effect (h : x.Sound bound) :
    let y := x.drain.2
    y.Sound bound ∧ y.contents = 0 ∧ y.held = x.held ∧ y.counts = x.counts ∧
      (∀ n, (y.file? n).isSome = (x.file? n).isSome) ∧ ∀ n, y.onTimeline n = x.onTimeline n := by
  have files : x.drain.2.files = x.files.map fun f => f.drain.2 := files_mapAll x
  have fileOf : ∀ n, x.drain.2.fileOf n = (x.fileOf n).drain.2 :=
    fileOf_mapAll x (fun _ => rfl) rfl fun _ => rfl
  have bucket : ∀ i, x.drain.2.bucket i = ⟨(x.bucket i).files.map fun f => f.drain.2, 0⟩ :=
    bucket_mapAll x rfl
  have nothing (M : Type) [AddCommMonoid M] (μ : FileState → M)
      (hμ : ∀ f : FileState, μ f.drain.2 = 0) (fs : List FileState) :
      ((fs.map fun f => f.drain.2).map μ).sum = 0 := by
    induction fs with
    | nil => rfl
    | cons f fs ih => rw [List.map_cons, List.map_cons, List.sum_cons, hμ, ih, zero_add]
  have placed : x.drain.2.Placed :=
    placed_mapAll (g := fun f => f.drain.2) (q := fun _ => 0) h.placed fun _ => rfl
  have found : ∀ n, x.drain.2.file? n = (x.file? n).map fun f => f.drain.2 :=
    file?_mapAll x (fun _ => rfl) rfl
  refine ⟨⟨placed, fun n => ?_, fun i => ?_⟩, ?_, ?_, rfl,
    fun n => ?_, fun n => ?_⟩
  · rw [fileOf]
    exact FileState.sound_drain _
  · rw [bucket]
    exact (nothing Nat _ FileState.inLanes_drain _).symm
  · rw [contents, total, files]
    exact nothing _ _ FileState.contents_drain _
  · rw [held, total, files, List.map_map]
    rfl
  · rw [found, Option.isSome_map]
  · rw [onTimeline, fileOf]
    rfl

theorem contents_drained (x : Index) : IoScheduling.contents x.drain.1 = x.contents := by
  unfold drain Bucket.drain
  simp only [contents_flatMap, FileState.contents_drained]
  exact (total_eq_buckets FileState.contents x).symm

theorem sound_of_mem_drained (h : x.Sound bound) (he : e ∈ x.drain.1) :
    e.Sound bound e.file e.direction ∧ (x.file? e.file).isSome := by
  obtain ⟨a, ha, he⟩ := List.mem_flatMap.mp he
  obtain ⟨f, hf, he⟩ := List.mem_flatMap.mp he
  have stored : f ∈ x.files := List.mem_flatMap.mpr ⟨a, ha, hf⟩
  have found := (mem_files h.placed).mp stored
  obtain ⟨hs, own⟩ := FileState.sound_of_mem_drained (h.stored stored) he
  exact ⟨hs, by rw [own, found]; rfl⟩

theorem mapAll_effect {g : FileState → FileState} (h : x.Sound bound) (alike : ∀ f : FileState, f.Alike (g f))
    (fresh : ∀ n, g (.fresh n) = .fresh n) :
    let y := x.mapAll g Bucket.pending
    y.Sound bound ∧ (x.Counted → y.Counted) ∧ y.contents = x.contents ∧
      y.counts = x.counts ∧ y.held = x.held ∧ ∀ n, y.onTimeline n = x.onTimeline n := by
  have files := files_mapAll (g := g) (q := Bucket.pending) x
  have fileOf := fileOf_mapAll (q := Bucket.pending) x (fun f => (alike f).file) rfl fresh
  have placed := placed_mapAll (q := Bucket.pending) h.placed fun f => (alike f).file
  have total (M : Type) [AddCommMonoid M] (μ : FileState → M) (same : ∀ f, μ (g f) = μ f) :
      (x.mapAll g Bucket.pending).total μ = x.total μ := by
    rw [Index.total, Index.total, files, List.map_map]
    exact congrArg List.sum (List.map_congr_left fun f _ => same f)
  refine ⟨⟨placed, fun n => ?_, fun i => ?_⟩, fun hc => ?_,
    total _ _ fun f => (alike f).contents, rfl, total _ _ fun f => (alike f).held, fun n => ?_⟩
  · rw [fileOf]
    exact (alike _).sound bound (h.file n)
  · rw [bucket_mapAll x rfl, Bucket.total, List.map_map]
    refine (h.pending i).trans (congrArg List.sum (List.map_congr_left fun f _ => ?_))
    exact (alike f).inLanes.symm
  · exact hc.congr h.placed placed rfl fun n => by rw [fileOf, (alike _).pending]
  · rw [onTimeline, fileOf]
    exact (alike _).onTimeline

end Index

end IoScheduling
