import IoScheduling.Proofs.Runs

/-! # Entries that merge

Where an entry waits is the business of the indexes. What becomes of the entries themselves is said
of all of them as a multiset: insertion and migration join entries pairwise, and nothing but a
withdrawal takes one apart. -/
namespace IoScheduling

/-- Two entries become one. -/
inductive Fuse : Multiset Entry → Multiset Entry → Prop where
  | step (target other : Entry) (rest : Multiset Entry) :
      Fuse (target ::ₘ other ::ₘ rest) (target.absorb other ::ₘ rest)

abbrev Fuses : Multiset Entry → Multiset Entry → Prop := Relation.ReflTransGen Fuse

/-- The requests of the entries, with their factors. -/
def requestBag (es : Multiset Entry) : Multiset Request :=
  es.bind fun e => (e.requests : Multiset Request)

/-- An entry lives on in another: with all its requests, and with no smaller factor. -/
structure Entry.Within (e e' : Entry) : Prop where
  requests : (e.requests : Multiset Request) ≤ e'.requests
  factor : e.factor ≤ e'.factor

theorem Entry.Within.refl (e : Entry) : e.Within e := ⟨le_refl _, le_refl _⟩

theorem Entry.Within.trans {a b c : Entry} (h : a.Within b) (k : b.Within c) : a.Within c :=
  ⟨h.requests.trans k.requests, h.factor.trans k.factor⟩

theorem coe_requests_absorb (target other : Entry) :
    ((target.absorb other).requests : Multiset Request) = target.requests + other.requests :=
  (Multiset.coe_eq_coe.mpr (requests_absorb_perm target other)).trans (Multiset.coe_add _ _).symm

theorem factor_absorb (target other : Entry) :
    (target.absorb other).factor = max target.factor other.factor := rfl

theorem within_absorb_left (target other : Entry) : target.Within (target.absorb other) where
  requests := by
    rw [coe_requests_absorb]
    exact Multiset.le_add_right _ _
  factor := Nat.le_max_left _ _

theorem within_absorb_right (target other : Entry) : other.Within (target.absorb other) where
  requests := by
    rw [coe_requests_absorb]
    exact Multiset.le_add_left _ _
  factor := Nat.le_max_right _ _

theorem mem_requestBag {es : Multiset Entry} {r : Request} :
    r ∈ requestBag es ↔ ∃ e ∈ es, r ∈ e.requests := Multiset.mem_bind

@[simp] theorem requestBag_zero : requestBag 0 = 0 := rfl

@[simp] theorem requestBag_add (es fs : Multiset Entry) :
    requestBag (es + fs) = requestBag es + requestBag fs := Multiset.add_bind _ _ _

@[simp] theorem requestBag_cons (e : Entry) (es : Multiset Entry) :
    requestBag (e ::ₘ es) = e.requests + requestBag es := Multiset.cons_bind _ _ _

theorem requestBag_coe (es : List Entry) :
    requestBag es = (es.flatMap Entry.requests : List Request) := Multiset.coe_bind _ _

variable {A B C : Multiset Entry} {e : Entry}

namespace Fuses

theorem add_right (h : Fuses A B) (C : Multiset Entry) : Fuses (A + C) (B + C) := by
  induction h with
  | refl => exact .refl
  | tail _ step ih =>
    cases step with
    | step target other rest =>
      refine .tail ih ?_
      rw [Multiset.cons_add, Multiset.cons_add, Multiset.cons_add]
      exact .step target other (rest + C)

theorem add_left (h : Fuses A B) (C : Multiset Entry) : Fuses (C + A) (C + B) := by
  rw [add_comm C, add_comm C]
  exact h.add_right C

theorem requestBag_eq (h : Fuses A B) : requestBag B = requestBag A := by
  induction h with
  | refl => rfl
  | tail _ step ih =>
    cases step with
    | step target other rest =>
      rw [← ih, requestBag_cons, requestBag_cons, requestBag_cons, coe_requests_absorb, add_assoc]

theorem within (h : Fuses A B) (he : e ∈ A) : ∃ e' ∈ B, e.Within e' := by
  induction h with
  | refl => exact ⟨e, he, .refl e⟩
  | tail _ step ih =>
    obtain ⟨o, ho, within⟩ := ih
    cases step with
    | step target other rest =>
      have grown : target.absorb other ∈ target.absorb other ::ₘ rest :=
        Multiset.mem_cons_self _ _
      rcases Multiset.mem_cons.mp ho with rfl | ho
      · exact ⟨_, grown, within.trans (within_absorb_left _ _)⟩
      rcases Multiset.mem_cons.mp ho with rfl | ho
      · exact ⟨_, grown, within.trans (within_absorb_right _ _)⟩
      · exact ⟨o, Multiset.mem_cons_of_mem ho, within⟩

theorem origin (h : Fuses A B) (he : e ∈ B) {r : Request} (hr : r ∈ e.requests) :
    ∃ o ∈ A, r ∈ o.requests ∧ o.factor ≤ e.factor := by
  induction h generalizing e with
  | refl => exact ⟨e, he, hr, le_refl _⟩
  | tail _ step ih =>
    cases step with
    | step target other rest =>
      rcases Multiset.mem_cons.mp he with rfl | he
      · rcases List.mem_append.mp ((requests_absorb_perm target other).mem_iff.mp hr) with hr | hr
        · obtain ⟨o, ho, mem, le⟩ := ih (Multiset.mem_cons_self _ _) hr
          exact ⟨o, ho, mem, le.trans (Nat.le_max_left _ _)⟩
        · obtain ⟨o, ho, mem, le⟩ :=
            ih (Multiset.mem_cons_of_mem (Multiset.mem_cons_self _ _)) hr
          exact ⟨o, ho, mem, le.trans (Nat.le_max_right _ _)⟩
      · exact ih (Multiset.mem_cons_of_mem (Multiset.mem_cons_of_mem he)) hr

theorem factor_origin (h : Fuses A B) (he : e ∈ B) : ∃ o ∈ A, e.factor = o.factor := by
  induction h generalizing e with
  | refl => exact ⟨e, he, rfl⟩
  | tail _ step ih =>
    cases step with
    | step target other rest =>
      rcases Multiset.mem_cons.mp he with rfl | he
      · rw [factor_absorb]
        rcases Nat.le_total target.factor other.factor with le | le
        · rw [Nat.max_eq_right le]
          exact ih (Multiset.mem_cons_of_mem (Multiset.mem_cons_self _ _))
        · rw [Nat.max_eq_left le]
          exact ih (Multiset.mem_cons_self _ _)
      · exact ih (Multiset.mem_cons_of_mem (Multiset.mem_cons_of_mem he))

end Fuses

theorem coe_insert_between (front back : List Entry) (e : Entry) :
    ((front ++ e :: back : List Entry) : Multiset Entry) = e ::ₘ ↑(front ++ back) :=
  Multiset.coe_eq_coe.mpr List.perm_middle

namespace OffsetQueue

variable {node : Entry} {limit : Nat} {front back queue : List Entry}

theorem insertion_fuses {result : List Entry × Placement}
    (h : Insertion node limit front back result) :
    Fuses (node ::ₘ ↑(front ++ back)) result.1 := by
  cases h with
  | @both front back before after =>
    have all : node ::ₘ ((front ++ [before] ++ after :: back : List Entry) : Multiset Entry) =
        before ::ₘ after ::ₘ node ::ₘ ↑(front ++ back) := by
      simp only [← Multiset.coe_add, ← Multiset.cons_coe, ← Multiset.singleton_add]
      abel
    rw [all, coe_insert_between]
    refine .head (.step before after _) (.single ?_)
    exact .step (before.absorb after) node _
  | @before front back e =>
    have all : node ::ₘ ((front ++ [e] ++ back : List Entry) : Multiset Entry) =
        e ::ₘ node ::ₘ ↑(front ++ back) := by
      simp only [← Multiset.coe_add, ← Multiset.cons_coe, ← Multiset.singleton_add]
      abel
    rw [all, coe_insert_between]
    exact .single (.step e node _)
  | @after front back e =>
    rw [coe_insert_between, coe_insert_between, Multiset.cons_swap]
    exact .single (.step e node _)
  | alone =>
    rw [coe_insert_between]

theorem insert_fuses (queue : List Entry) (node : Entry) (limit : Nat) :
    Fuses (node ::ₘ ↑queue) (insert queue node limit).1 := by
  have h := insertion_fuses (insertion queue node limit)
  rwa [List.take_append_drop] at h

end OffsetQueue

namespace Timeline

theorem merges_fuses {limit : Nat} {es fs : List Entry} (h : Merges limit es fs) :
    Fuses es fs := by
  induction h with
  | refl => exact .refl
  | tail _ step ih =>
    refine ih.trans (.single ?_)
    cases step with
    | @step front middle back early late _ =>
      have all : ((front ++ early :: (middle ++ late :: back) : List Entry) : Multiset Entry) =
          early ::ₘ late ::ₘ ↑(front ++ (middle ++ back)) := by
        simp only [← Multiset.coe_add, ← Multiset.cons_coe, ← Multiset.singleton_add]
        abel
      rw [all, coe_insert_between]
      exact .step early late _

theorem add_fuses (t : Timeline) (node : Entry) :
    Fuses (node ::ₘ ↑t.entries) (t.add node).1.entries := by
  obtain ⟨i, hi, merges⟩ := add_merges t node
  have placed : ((t.entries.insertIdx i node : List Entry) : Multiset Entry) =
      node ::ₘ ↑t.entries := Multiset.coe_eq_coe.mpr (List.perm_insertIdx _ _ hi)
  rw [← placed]
  exact merges_fuses merges

end Timeline

namespace FileState

def entryBag (f : FileState) : Multiset Entry := f.lanes fun l => (l.entries : Multiset Entry)

variable {f : FileState} {d : Direction} {l : Lane}

@[simp] theorem entryBag_fresh (file : String) : (fresh file).entryBag = 0 := rfl

theorem entryBag_setLane (f : FileState) (d : Direction) (l : Lane) :
    ∃ rest, f.entryBag = (f.lane d).entries + rest ∧
      (f.setLane d l).entryBag = l.entries + rest := by
  cases d with
  | read => exact ⟨f.writes.entries, rfl, rfl⟩
  | write => exact ⟨f.reads.entries, add_comm _ _, add_comm _ _⟩

theorem entryBag_setLane_eq (h : l.entries = (f.lane d).entries) :
    (f.setLane d l).entryBag = f.entryBag := lanes_setLane_eq (congrArg _ h)

theorem entryBag_activate (f : FileState) (n now : Nat) (c : PendingCounts) :
    (f.activate n now c).1.entryBag = f.entryBag := by
  unfold activate
  split <;> rfl

theorem adopt_fuses (f : FileState) (e : Entry) (limit : Nat) :
    Fuses (e ::ₘ f.entryBag) (f.adopt e limit).1.entryBag := by
  obtain ⟨rest, before, after⟩ :=
    entryBag_setLane f e.direction ((f.lane e.direction).insert e limit).1
  have step := (OffsetQueue.insert_fuses (f.lane e.direction).entries e limit).add_right rest
  rw [Multiset.cons_add, ← before] at step
  exact after ▸ step

end FileState

namespace Index

def entryBag (x : Index) : Multiset Entry := x.total FileState.entryBag

variable {x y : Index} {f : FileState} {name : String} {e : Entry} {limit now : Nat}

theorem coe_entries (x : Index) : (x.entries : Multiset Entry) = x.entryBag := by
  unfold entryBag total entries
  induction x.files with
  | nil => rfl
  | cons f fs ih =>
    rw [List.map_cons, List.sum_cons, ← ih, List.flatMap_cons, ← Multiset.coe_add,
      ← Multiset.coe_add]
    rfl

section

variable {M : Type*} [AddCommMonoid M] {μ : FileState → M}

theorem total_split (h : x.Placed) (hμ : ∀ n, μ (.fresh n) = 0) (name : String) :
    ∃ rest, x.total μ = μ (x.fileOf name) + rest := by
  rcases fileOf_cases h name with stored | fresh
  · obtain ⟨front, back, split⟩ := List.append_of_mem stored
    refine ⟨(front.map μ).sum + (back.map μ).sum, ?_⟩
    rw [total, split, List.map_append, List.map_cons, List.sum_append, List.sum_cons]
    exact add_left_comm _ _ _
  · exact ⟨x.total μ, by rw [fresh, hμ, zero_add]⟩

theorem total_exchange [IsRightCancelAdd M] (h : x.Placed) (hμ : ∀ n, μ (.fresh n) = 0) (hf : f.file = name) (p : Nat)
    (c : PendingCounts) : ∃ rest, x.total μ = μ (x.fileOf name) + rest ∧
      ((x.update name f p).setCounts c).total μ = μ f + rest := by
  obtain ⟨rest, split⟩ := total_split h hμ name
  refine ⟨rest, split, add_right_cancel (b := μ (x.fileOf name)) ?_⟩
  have sum := total_update h hf p hμ
  rw [split] at sum
  exact sum.trans (by abel)

end

theorem entryBag_exchange (h : x.Placed) (name : String) (d : Direction) (l : Lane) (p : Nat)
    (c : PendingCounts) : ∃ rest, x.entryBag = ((x.fileOf name).lane d).entries + rest ∧
      ((x.update name ((x.fileOf name).setLane d l) p).setCounts c).entryBag =
        l.entries + rest := by
  have file := (FileState.file_setLane (x.fileOf name) d l).trans (file_fileOf x name)
  obtain ⟨others, before, after⟩ := total_exchange h FileState.entryBag_fresh file p c
  obtain ⟨rest, old, new⟩ := FileState.entryBag_setLane (x.fileOf name) d l
  refine ⟨rest + others, ?_, ?_⟩
  · rw [← add_assoc, ← old]
    exact before
  · rw [← add_assoc, ← new]
    exact after

theorem Rewrites.entryBag_eq (step : Rewrites x y name f) (h : x.Placed)
    (same : f.entryBag = (x.fileOf name).entryBag) : y.entryBag = x.entryBag :=
  step.total_eq h FileState.entryBag_fresh same

theorem Rewrites.fuses (step : Rewrites x y name f) (h : x.Placed)
    (fuses : Fuses (e ::ₘ (x.fileOf name).entryBag) f.entryBag) :
    Fuses (e ::ₘ x.entryBag) y.entryBag := by
  obtain ⟨file, p, c, rfl, -⟩ := step
  obtain ⟨rest, before, after⟩ := total_exchange h FileState.entryBag_fresh file p c
  have step := fuses.add_right rest
  rw [Multiset.cons_add, ← before, ← after] at step
  exact step

theorem insert_fuses (h : x.Placed) (e : Entry) (limit now : Nat) :
    Fuses (e ::ₘ x.entryBag) (x.insert e limit now).1.entryBag := by
  refine (insert_rewrites x e limit now).fuses h ?_
  rw [FileState.insert_fst, ← FileState.entryBag_activate (x.fileOf e.file) e.count now x.counts]
  exact FileState.adopt_fuses _ e limit

theorem detach?_entryBag {d : Direction} {i : Nat} (h : x.Placed)
    (hd : x.detach? name d i = some (e, y)) : x.entryBag = e ::ₘ y.entryBag := by
  obtain ⟨f, c, -, hf, rfl⟩ := detach?_some hd
  obtain ⟨l, hl, rfl, -⟩ := FileState.detach?_some hf
  obtain ⟨found, rfl⟩ := Lane.detach?_some hl
  obtain ⟨hi, rfl⟩ := List.getElem?_eq_some_iff.mp found
  obtain ⟨rest, before, after⟩ := entryBag_exchange h name d
    { (x.fileOf name).lane d with
      entries := ((x.fileOf name).lane d).entries.eraseIdx i
      bytes := _
      requests := _ } _ c
  have taken := Multiset.coe_eq_coe.mpr
    (List.getElem_cons_eraseIdx_perm hi).symm
  rw [before, after, ← Multiset.cons_add, Multiset.cons_coe, taken]

theorem withdraw_entryBag {a : Address} {r : Request} (h : x.Placed)
    (hw : x.withdraw a = .ok (r, y)) :
    ∃ (k : Nat) (o : Entry) (runs : List Entry) (rest : Multiset Entry),
      o.extract k = some (r, runs) ∧ x.entryBag = o ::ₘ rest ∧ y.entryBag = ↑runs + rest := by
  obtain ⟨f, c, hf, rfl⟩ := withdraw_ok hw
  obtain ⟨l, hl, rfl, -⟩ := FileState.withdraw?_some hf
  obtain ⟨entries, hq, rfl⟩ := Lane.withdraw?_some hl
  obtain ⟨i, k, o, runs, found, -, hx, rfl⟩ := OffsetQueue.withdraw_some hq
  obtain ⟨hi, rfl⟩ := List.getElem?_eq_some_iff.mp found
  obtain ⟨others, before, after⟩ := entryBag_exchange h a.file a.direction
    { (x.fileOf a.file).lane a.direction with
      entries := runs.foldl OffsetQueue.reinsert
        (((x.fileOf a.file).lane a.direction).entries.eraseIdx i)
      bytes := _
      requests := _ } _ c
  refine ⟨k, _, runs, ↑(((x.fileOf a.file).lane a.direction).entries.eraseIdx i) + others, hx, ?_, ?_⟩
  · have taken := Multiset.coe_eq_coe.mpr (List.getElem_cons_eraseIdx_perm hi).symm
    rw [before, taken, ← Multiset.cons_coe, Multiset.cons_add]
  · have placed := Multiset.coe_eq_coe.mpr (OffsetQueue.foldl_reinsert_perm
      (((x.fileOf a.file).lane a.direction).entries.eraseIdx i) runs)
    rw [after, placed, ← Multiset.coe_add, add_assoc]

theorem noteTimelineAdd_entryBag (h : x.Placed) (name : String) (n now : Nat) :
    (x.noteTimelineAdd name n now).entryBag = x.entryBag := by
  refine (noteTimelineAdd_rewrites x name n now).entryBag_eq h ?_
  rw [FileState.noteTimelineAdd_fst]
  exact FileState.entryBag_activate (x.fileOf name) n now x.counts

theorem noteTimelineRemove_entryBag (h : x.Placed) (name : String) (n : Nat) :
    (x.noteTimelineRemove name n).entryBag = x.entryBag :=
  (noteTimelineRemove_rewrites x name n).entryBag_eq h rfl

theorem moveTimelineCount_entryBag (h : x.Placed) (name : String) (move : Nat → Nat) :
    (x.moveTimelineCount name move).Placed ∧
      (x.moveTimelineCount name move).entryBag = x.entryBag := by
  by_cases known : (x.file? name).isSome
  · have step := moveTimelineCount_rewrites known move
    exact ⟨step.placed h, step.entryBag_eq h rfl⟩
  · have unknown : x.file? name = none := Option.not_isSome_iff_eq_none.mp known
    unfold moveTimelineCount
    rw [unknown]
    exact ⟨h, rfl⟩

theorem setFile_entryBag (h : x.Placed) (hf : f.file = name)
    (same : f.entryBag = (x.fileOf name).entryBag) : (x.setFile f).entryBag = x.entryBag := by
  subst hf
  obtain ⟨rest, before, after⟩ :=
    total_exchange h FileState.entryBag_fresh rfl (x.bucketOf f.file).pending x.counts
  exact after.trans (by rw [same]; exact before.symm)

theorem setLane_entryBag (h : x.Placed) {d : Direction} {l : Lane}
    (hl : l.entries = ((x.fileOf name).lane d).entries) :
    (x.setFile ((x.fileOf name).setLane d l)).entryBag = x.entryBag := by
  refine setFile_entryBag h ?_ (FileState.entryBag_setLane_eq hl)
  exact (FileState.file_setLane _ d l).trans (file_fileOf x name)

theorem release_entryBag {a : Address} {r : HandedOut} (h : x.Placed)
    (hr : x.release a = .ok (r, y)) : y.entryBag = x.entryBag := by
  obtain ⟨f, hf, rfl⟩ := release_ok hr
  obtain ⟨l, hl, rfl⟩ := FileState.release?_lane hf
  obtain ⟨i, -, -, rfl⟩ := Lane.release?_some hl
  obtain ⟨rest, before, after⟩ := entryBag_exchange h a.file a.direction
    { (x.fileOf a.file).lane a.direction with
      handedOut := ((x.fileOf a.file).lane a.direction).handedOut.eraseIdx i }
    (x.bucketOf a.file).pending x.counts
  rw [before]
  exact after

theorem adopt_fuses (h : x.Placed) (e : Entry) (limit : Nat) :
    Fuses (e ::ₘ x.entryBag) (x.adopt e limit).1.entryBag :=
  (adopt_rewrites x e limit).fuses h (FileState.adopt_fuses _ e limit)

theorem drained_eq (x : Index) : x.drain.1 = x.entries := List.flatMap_assoc.symm

theorem drain_entryBag (x : Index) : x.drain.2.entryBag = 0 := by
  have files : x.drain.2.files = x.files.map fun f => f.drain.2 := files_mapAll x
  unfold entryBag total
  rw [files, List.map_map]
  apply List.sum_eq_zero
  intro bag hb
  obtain ⟨f, -, rfl⟩ := List.mem_map.mp hb
  rfl

theorem resetTallies_entryBag (x : Index) : x.resetTallies.entryBag = x.entryBag := by
  have files : x.resetTallies.files = x.files.map FileState.resetTallies := files_mapAll x
  unfold entryBag total
  rw [files, List.map_map]
  rfl

end Index

namespace Core

def entryBag (c : Core) : Multiset Entry := c.index.entryBag + c.timeline.entries

variable {c c' : Core} {r : Request} {a : Address} {now : Nat}

theorem requestBag_entryBag (c : Core) :
    requestBag c.entryBag = (c.inLanes ++ c.onTimeline : List Request) := by
  rw [entryBag, requestBag_add, ← Index.coe_entries, requestBag_coe, requestBag_coe,
    Multiset.coe_add]
  rfl

theorem enqueue_fuses (h : c.InStep) (now : Nat) (r : Request) :
    Fuses (.single r ::ₘ c.entryBag) (c.enqueue now r).1.entryBag := by
  unfold enqueue
  by_cases bucketed : c.active.profile.bucketed
  · rw [if_pos bucketed]
    have step := Index.insert_fuses h.index.placed (.single r) (c.setup.limit c.active) now
    have whole := step.add_right c.timeline.entries
    rwa [Multiset.cons_add] at whole
  · rw [if_neg bucketed]
    have step := (Timeline.add_fuses c.timeline (.single r)).add_left c.index.entryBag
    rw [Multiset.add_cons] at step
    change Fuses _ ((c.index.noteTimelineAdd r.file 1 now).entryBag +
      ((c.timeline.add (.single r)).1.entries : Multiset Entry))
    rwa [Index.noteTimelineAdd_entryBag h.index.placed]

theorem dequeue_entryBag (h : c.InStep) (hd : c.dequeue a = .ok (r, c')) :
    ∃ (k : Nat) (o : Entry) (runs : List Entry) (rest : Multiset Entry),
      o.extract k = some (r, runs) ∧ c.entryBag = o ::ₘ rest ∧ c'.entryBag = ↑runs + rest := by
  obtain ⟨-, x, hw, rfl⟩ | ⟨-, t, hw, rfl⟩ := dequeue_ok hd
  · obtain ⟨k, o, runs, rest, hx, before, after⟩ := Index.withdraw_entryBag h.index.placed hw
    refine ⟨k, o, runs, rest + c.timeline.entries, hx, ?_, ?_⟩
    · rw [entryBag, before, Multiset.cons_add]
    · rw [← add_assoc, ← after]
      rfl
  · obtain ⟨front, o, back, k, runs, split, -, -, hx, after, -, -⟩ := Timeline.withdraw_some hw
    have same : (if (c.index.file? a.file).isSome then c.index.noteTimelineRemove a.file 1
        else c.index).entryBag = c.index.entryBag := by
      split
      · exact Index.noteTimelineRemove_entryBag h.index.placed a.file 1
      · rfl
    refine ⟨k, o, runs, c.index.entryBag + ↑(front ++ back), hx, ?_, ?_⟩
    · rw [entryBag, split, coe_insert_between, Multiset.add_cons]
    · rw [entryBag, same, after, ← Multiset.coe_add, ← Multiset.coe_add, ← Multiset.coe_add]
      abel

theorem recordDispatch_entryBag (h : c.index.Placed) (now : Nat) (file : String) (e : Entry)
    (k : PolicyKind) (inQuantum : Bool) :
    (c.recordDispatch now file e k inQuantum).entryBag = c.entryBag := by
  exact congrArg (· + _) (Index.setLane_entryBag h rfl)

theorem dispatch?_entryBag {file : String} {d : Direction} {i : Nat} {k : PolicyKind}
    {inQuantum : Bool} {requests : List Request} (h : c.InStep)
    (hd : c.dispatch? now file d i k inQuantum = some (requests, c')) :
    ∃ e, e.requests = requests ∧ c.entryBag = e ::ₘ c'.entryBag := by
  obtain ⟨⟨e, index⟩, he, same⟩ := Option.map_eq_some_iff.mp hd
  obtain ⟨rfl, rfl⟩ := Prod.mk.inj same
  obtain ⟨step, -⟩ := IoScheduling.InStep.detach? h he
  refine ⟨e, rfl, ?_⟩
  rw [recordDispatch_entryBag step.index.placed, entryBag, entryBag,
    Index.detach?_entryBag h.index.placed he, Multiset.cons_add]

theorem dispatchHead?_entryBag {k : PolicyKind} {requests : List Request} (h : c.InStep)
    (hd : c.dispatchHead? now k = some (requests, c')) :
    ∃ e, e.requests = requests ∧ c.entryBag = e ::ₘ c'.entryBag := by
  obtain ⟨⟨e, timeline⟩, he, same⟩ := Option.map_eq_some_iff.mp hd
  obtain ⟨rfl, rfl⟩ := Prod.mk.inj same
  obtain ⟨step, -⟩ := IoScheduling.InStep.pop? h he
  refine ⟨e, rfl, ?_⟩
  rw [recordDispatch_entryBag step.index.placed, entryBag, entryBag,
    Index.noteTimelineRemove_entryBag h.index.placed, (Timeline.pop?_some he).1,
    ← Multiset.cons_coe, Multiset.add_cons]

theorem noteGrantRelease_entryBag (h : c.index.Placed) (now : Nat) (a : Address) :
    (c.noteGrantRelease now a).index.entryBag = c.index.entryBag := by
  unfold noteGrantRelease
  split
  · rfl
  · rename_i f hf
    rw [← Index.fileOf_eq hf]
    exact Index.setLane_entryBag h rfl

theorem complete_entryBag (h : c.InStep) (now : Nat) (a : Address) :
    (c.complete now a).1.entryBag = c.entryBag := by
  obtain ⟨r, x, signal, hr, form⟩ | ⟨fault, -, form⟩ := c.complete_cases now a
  · have released := Index.release_entryBag h.index.placed hr
    have placed := (Index.release_effect h.index hr).1.placed
    have same : (c.settledIndex now a r x).entryBag = c.index.entryBag := by
      unfold settledIndex
      split
      · exact (noteGrantRelease_entryBag (c := { c with index := x }) placed now a).trans released
      · exact released
    rw [form]
    exact congrArg (· + _) same
  · rw [form]
    split <;> rfl

end Core

end IoScheduling
