import IoScheduling.Proofs.Lanes
import Mathlib.Tactic.Abel

/-! # Files

A file is measured by adding up a quantity of its two lanes. An operation works on one lane, so a
measure changes by what happens in that lane. The counts of pending requests follow a file if they
change with it. -/
namespace IoScheduling

def records (requests : List Request) (now : Nat) (inQuantum synchronous : Bool) :
    Multiset HandedOut :=
  (requests.map fun r => (⟨r, now, inQuantum, synchronous⟩ : HandedOut) : List HandedOut)

namespace FileState

variable {M : Type*} [AddCommMonoid M]

def lanes (ν : Lane → M) (f : FileState) : M := ν f.reads + ν f.writes

def contents (f : FileState) : Multiset Request := f.lanes Lane.contents

def inLanes (f : FileState) : Nat := f.lanes Lane.requests

def held (f : FileState) : Multiset HandedOut := f.lanes fun l => (l.handedOut : Multiset HandedOut)

/-- What the file adds to the number of files with pending requests. -/
def live (f : FileState) : Nat := if f.pending = 0 then 0 else 1

structure Sound (bound : Nat) (f : FileState) : Prop where
  lane : ∀ d, (f.lane d).Sound bound f.file d

variable {bound limit : Nat} {f : FileState} {e : Entry} {d : Direction} {l : Lane}

@[simp] theorem lane_setLane (f : FileState) (d : Direction) (l : Lane) :
    (f.setLane d l).lane d = l := by
  cases d <;> rfl

theorem lane_setLane_of_ne (f : FileState) {d d' : Direction} (l : Lane) (h : d' ≠ d) :
    (f.setLane d l).lane d' = f.lane d' := by
  cases d <;> cases d' <;> first | rfl | exact absurd rfl h

theorem lane_activate (f : FileState) (n now : Nat) (c : PendingCounts) (d : Direction) :
    (f.activate n now c).1.lane d = f.lane d := by
  unfold activate
  split
  · cases d <;> rfl
  · rfl

@[simp] theorem file_setLane (f : FileState) (d : Direction) (l : Lane) :
    (f.setLane d l).file = f.file := by
  cases d <;> rfl

@[simp] theorem onTimeline_setLane (f : FileState) (d : Direction) (l : Lane) :
    (f.setLane d l).onTimeline = f.onTimeline := by
  cases d <;> rfl

theorem lanes_setLane (ν : Lane → M) (f : FileState) (d : Direction) (l : Lane) :
    (f.setLane d l).lanes ν + ν (f.lane d) = f.lanes ν + ν l := by
  cases d with
  | read =>
    change ν l + ν f.writes + ν f.reads = ν f.reads + ν f.writes + ν l
    abel
  | write => exact add_right_comm _ _ _

theorem lanes_setLane_eq {ν : Lane → M} (h : ν l = ν (f.lane d)) :
    (f.setLane d l).lanes ν = f.lanes ν := by
  cases d <;> simp_all [lanes, setLane, lane]

theorem pending_eq (f : FileState) : f.pending = f.inLanes + f.onTimeline := rfl

theorem live_eq_zero (h : f.pending = 0) : f.live = 0 := if_pos h

theorem live_eq_one (h : f.pending ≠ 0) : f.live = 1 := if_neg h

@[simp] theorem contents_fresh (file : String) : (fresh file).contents = 0 := rfl

@[simp] theorem held_fresh (file : String) : (fresh file).held = 0 := rfl

@[simp] theorem pending_fresh (file : String) : (fresh file).pending = 0 := rfl

@[simp] theorem inLanes_fresh (file : String) : (fresh file).inLanes = 0 := rfl

@[simp] theorem live_fresh (file : String) : (fresh file).live = 0 := rfl

theorem sound_fresh (file : String) : (fresh file).Sound bound :=
  ⟨fun d => by cases d <;> exact Lane.sound_empty⟩

theorem Sound.inLanes_eq (h : f.Sound bound) : f.inLanes = f.contents.card := by
  have hr : f.reads.requests = f.reads.contents.card := (h.lane .read).requests_eq
  have hw : f.writes.requests = f.writes.contents.card := (h.lane .write).requests_eq
  simp [inLanes, contents, lanes, hr, hw]

theorem Sound.file_eq (h : f.Sound bound) : ∀ r ∈ f.contents, r.file = f.file := by
  have lane : ∀ d, ∀ r ∈ (f.lane d).contents, r.file = f.file := by
    intro d r hr
    obtain ⟨e, he, q, hq, rfl⟩ := mem_contents.mp hr
    exact (((h.lane d).queue.entries e he).belongs q hq).1
  intro r hr
  rcases Multiset.mem_add.mp hr with hr | hr
  · exact lane .read r hr
  · exact lane .write r hr

theorem sound_setLane (h : f.Sound bound) (hl : l.Sound bound f.file d) :
    (f.setLane d l).Sound bound := by
  refine ⟨fun d' => ?_⟩
  rw [file_setLane]
  by_cases hd : d' = d
  · subst hd
    rwa [lane_setLane]
  · rw [lane_setLane_of_ne f l hd]
    exact h.lane d'

/-- Two states of a file that differ neither in what is pending nor in what is handed out. -/
structure Alike (f g : FileState) : Prop where
  file : g.file = f.file
  contents : g.contents = f.contents
  held : g.held = f.held
  inLanes : g.inLanes = f.inLanes
  onTimeline : g.onTimeline = f.onTimeline
  sound : ∀ bound, f.Sound bound → g.Sound bound

theorem Alike.pending {g : FileState} (h : f.Alike g) : g.pending = f.pending := by
  rw [pending_eq, pending_eq, h.inLanes, h.onTimeline]

theorem Alike.trans {g h : FileState} (a : f.Alike g) (b : g.Alike h) : f.Alike h where
  file := b.file.trans a.file
  contents := b.contents.trans a.contents
  held := b.held.trans a.held
  inLanes := b.inLanes.trans a.inLanes
  onTimeline := b.onTimeline.trans a.onTimeline
  sound := fun bound hf => b.sound bound (a.sound bound hf)

theorem alike_setLane (hc : l.contents = (f.lane d).contents)
    (hr : l.requests = (f.lane d).requests) (hh : l.handedOut = (f.lane d).handedOut)
    (hs : ∀ bound file, (f.lane d).Sound bound file d → l.Sound bound file d) :
    f.Alike (f.setLane d l) where
  file := file_setLane f d l
  contents := lanes_setLane_eq hc
  held := lanes_setLane_eq (congrArg _ hh)
  inLanes := lanes_setLane_eq hr
  onTimeline := onTimeline_setLane f d l
  sound := fun _ h => sound_setLane h (hs _ _ (h.lane d))

theorem alike_modifyLane (f : FileState) (d : Direction) {g : Lane → Lane}
    (hg : ∀ l, (g l).entries = l.entries ∧ (g l).requests = l.requests ∧
      (g l).bytes = l.bytes ∧ (g l).handedOut = l.handedOut) : f.Alike (f.modifyLane d g) := by
  obtain ⟨he, hr, hb, hh⟩ := hg (f.lane d)
  exact alike_setLane (congrArg IoScheduling.contents he) hr hh fun _ _ h => h.congr he hr hb

theorem alike_refactored {fs : List Entry} (h : Lane.Refactored (f.lane d).entries fs) :
    f.Alike (f.modifyLane d fun l => { l with entries := fs }) :=
  alike_setLane (Lane.contents_refactored h) rfl rfl fun _ _ hl => Lane.sound_refactored hl h

theorem alike_activate (f : FileState) (n now : Nat) (c : PendingCounts) :
    f.Alike (f.activate n now c).1 := by
  unfold activate
  split
  · exact ⟨rfl, rfl, rfl, rfl, rfl, fun _ h => ⟨h.lane⟩⟩
  · exact ⟨rfl, rfl, rfl, rfl, rfl, fun _ h => h⟩

@[simp] theorem file_adopt (f : FileState) (e : Entry) (limit : Nat) :
    (f.adopt e limit).1.file = f.file := file_setLane _ _ _

@[simp] theorem onTimeline_adopt (f : FileState) (e : Entry) (limit : Nat) :
    (f.adopt e limit).1.onTimeline = f.onTimeline := onTimeline_setLane _ _ _

@[simp] theorem held_adopt (f : FileState) (e : Entry) (limit : Nat) :
    (f.adopt e limit).1.held = f.held := lanes_setLane_eq rfl

@[simp] theorem contents_adopt (f : FileState) (e : Entry) (limit : Nat) :
    (f.adopt e limit).1.contents = f.contents + e.contents := by
  have h := lanes_setLane Lane.contents f e.direction ((f.lane e.direction).insert e limit).1
  rw [Lane.contents_insert, add_left_comm, add_comm] at h
  exact add_left_cancel h

@[simp] theorem inLanes_adopt (f : FileState) (e : Entry) (limit : Nat) :
    (f.adopt e limit).1.inLanes = f.inLanes + e.count := by
  have h := lanes_setLane Lane.requests f e.direction ((f.lane e.direction).insert e limit).1
  have step : ((f.lane e.direction).insert e limit).1.requests =
      e.count + (f.lane e.direction).requests := Nat.add_comm _ _
  rw [step, ← add_assoc] at h
  exact Nat.add_right_cancel h

theorem sound_adopt (h : f.Sound bound) (he : e.Sound bound f.file e.direction)
    (hl : limit ≤ bound) : (f.adopt e limit).1.Sound bound :=
  sound_setLane h (Lane.sound_insert (h.lane _) he hl)

theorem insert_fst (f : FileState) (e : Entry) (limit now : Nat) (c : PendingCounts) :
    (f.insert e limit now c).1 = ((f.activate e.count now c).1.adopt e limit).1 := rfl

theorem insert_frame (f : FileState) (e : Entry) (limit now : Nat) (c : PendingCounts) :
    let g := (f.insert e limit now c).1
    g.file = f.file ∧ g.contents = f.contents + e.contents ∧ g.held = f.held ∧
      g.inLanes = f.inLanes + e.count ∧ g.onTimeline = f.onTimeline := by
  have same := alike_activate f e.count now c
  dsimp only
  rw [insert_fst, file_adopt, contents_adopt, held_adopt, inLanes_adopt, onTimeline_adopt]
  exact ⟨same.file, by rw [same.contents], same.held, by rw [same.inLanes], same.onTimeline⟩

theorem sound_insert (h : f.Sound bound) (he : e.Sound bound f.file e.direction)
    (hl : limit ≤ bound) (now : Nat) (c : PendingCounts) :
    (f.insert e limit now c).1.Sound bound := by
  have same := alike_activate f e.count now c
  exact sound_adopt (same.sound bound h) (same.file.symm ▸ he) hl

/-- The counts change as the file does. -/
structure Follows (c c' : PendingCounts) (f g : FileState) : Prop where
  requests : c'.requests + f.pending = c.requests + g.pending
  files : c'.files + f.live = c.files + g.live

variable {g : FileState} {n now : Nat} {c c' : PendingCounts}

theorem follows_activate (hn : 0 < n) (hg : g.pending = f.pending + n) :
    Follows c (f.activate n now c).2 f g := by
  have after : g.live = 1 := live_eq_one (by omega)
  unfold activate
  by_cases idle : f.pending = 0
  · have before := live_eq_zero idle
    rw [if_pos idle]
    constructor <;> dsimp only <;> omega
  · have before := live_eq_one idle
    rw [if_neg idle]
    constructor <;> dsimp only <;> omega

theorem follows_deactivate (hn : 0 < n) (hg : g.pending + n = f.pending)
    (hr : f.pending ≤ c.requests) (hf : f.live ≤ c.files) :
    Follows c (g.deactivate n c) f g := by
  have before : f.live = 1 := live_eq_one (by omega)
  unfold deactivate
  by_cases idle : g.pending = 0
  · have after := live_eq_zero idle
    rw [if_pos idle]
    constructor <;> dsimp only <;> omega
  · have after := live_eq_one idle
    rw [if_neg idle]
    constructor <;> dsimp only <;> omega

theorem follows_insert (f : FileState) (e : Entry) (limit now : Nat) (c : PendingCounts) :
    Follows c (f.insert e limit now c).2.1 f (f.insert e limit now c).1 := by
  obtain ⟨-, -, -, lanes, timeline⟩ := insert_frame f e limit now c
  refine follows_activate e.count_pos ?_
  rw [pending_eq, pending_eq, lanes, timeline, Nat.add_right_comm]

theorem noteTimelineAdd_fst (f : FileState) (n now : Nat) (c : PendingCounts) :
    (f.noteTimelineAdd n now c).1 =
      { (f.activate n now c).1 with onTimeline := f.onTimeline + n } := by
  have same := (alike_activate f n now c).onTimeline
  unfold noteTimelineAdd
  simp only [same]

theorem follows_noteTimelineAdd (f : FileState) (now : Nat) (c : PendingCounts) (hn : 0 < n) :
    Follows c (f.noteTimelineAdd n now c).2 f (f.noteTimelineAdd n now c).1 := by
  refine follows_activate hn ?_
  have same := (alike_activate f n now c).inLanes
  rw [noteTimelineAdd_fst, pending_eq, pending_eq]
  change inLanes (f.activate n now c).1 + (f.onTimeline + n) = _
  omega

theorem follows_noteTimelineRemove (hn : 0 < n) (hf : n ≤ f.onTimeline)
    (hr : f.pending ≤ c.requests) (hl : f.live ≤ c.files) :
    Follows c (f.noteTimelineRemove n c).2 f (f.noteTimelineRemove n c).1 := by
  refine follows_deactivate hn ?_ hr hl
  rw [pending_eq, pending_eq]
  change f.inLanes + (f.onTimeline - n) + n = _
  omega

theorem taken_setLane {taken : Multiset Request} (h : f.Sound bound)
    (hl : l.Sound bound f.file d) (hc : (f.lane d).contents = taken + l.contents)
    (hh : l.handedOut = (f.lane d).handedOut) :
    (f.setLane d l).Sound bound ∧ f.contents = taken + (f.setLane d l).contents ∧
      (f.setLane d l).held = f.held ∧ f.inLanes = taken.card + (f.setLane d l).inLanes := by
  have sound := sound_setLane h hl
  have contents : f.contents = taken + (f.setLane d l).contents := by
    have step := lanes_setLane Lane.contents f d l
    rw [hc, ← add_assoc] at step
    exact (add_right_cancel step).symm.trans (add_comm _ _)
  refine ⟨sound, contents, lanes_setLane_eq (congrArg _ hh), ?_⟩
  rw [h.inLanes_eq, sound.inLanes_eq, contents, Multiset.card_add]

theorem detach?_some {i : Nat} (h : f.detach? d i c = some (e, g, c')) :
    ∃ l, (f.lane d).detach? i = some (e, l) ∧ g = f.setLane d l ∧ c' = g.deactivate e.count c := by
  simp only [detach?, Option.map_eq_some_iff, Prod.mk.injEq, Prod.exists] at h
  obtain ⟨_, l, hl, rfl, rfl, rfl⟩ := h
  exact ⟨l, hl, rfl, rfl⟩

theorem withdraw?_some {a : Address} {r : Request} (h : f.withdraw? a c = some (r, g, c')) :
    ∃ l, (f.lane a.direction).withdraw? a = some (r, l) ∧ g = f.setLane a.direction l ∧
      c' = g.deactivate 1 c := by
  simp only [withdraw?, Option.map_eq_some_iff, Prod.mk.injEq, Prod.exists] at h
  obtain ⟨_, l, hl, rfl, rfl, rfl⟩ := h
  exact ⟨l, hl, rfl, rfl⟩

@[simp] theorem contents_drain (f : FileState) : f.drain.2.contents = 0 := rfl

@[simp] theorem inLanes_drain (f : FileState) : f.drain.2.inLanes = 0 := rfl

theorem contents_drained (f : FileState) : IoScheduling.contents f.drain.1 = f.contents :=
  contents_append _ _

theorem sound_drain (f : FileState) : f.drain.2.Sound bound :=
  ⟨fun d => by cases d <;> exact Lane.sound_drain _⟩

theorem sound_of_mem_drained (h : f.Sound bound) (he : e ∈ f.drain.1) :
    e.Sound bound e.file e.direction ∧ e.file = f.file := by
  rcases List.mem_append.mp he with he | he
  · have sound := (h.lane .read).queue.entries e he
    exact ⟨sound.alone, sound.own.1⟩
  · have sound := (h.lane .write).queue.entries e he
    exact ⟨sound.alone, sound.own.1⟩

theorem alike_resetTallies (f : FileState) : f.Alike f.resetTallies :=
  ⟨rfl, rfl, rfl, rfl, rfl, fun _ h => ⟨fun d => by
    cases d
    · exact (h.lane .read).congr rfl rfl rfl
    · exact (h.lane .write).congr rfl rfl rfl⟩⟩

theorem held_recordDispatch (f : FileState) (e : Entry) (now : Nat) (inQuantum synchronous : Bool) :
    (f.recordDispatch e now inQuantum synchronous).held =
      f.held + records e.requests now inQuantum synchronous := by
  have h := lanes_setLane (fun l => (l.handedOut : Multiset HandedOut)) f e.direction
    ((f.lane e.direction).recordDispatch e now inQuantum synchronous)
  have step : (((f.lane e.direction).recordDispatch e now inQuantum synchronous).handedOut :
      Multiset HandedOut) = (f.lane e.direction).handedOut + records e.requests now inQuantum synchronous :=
    (Multiset.coe_add _ _).symm
  rw [step, add_left_comm, add_comm] at h
  exact add_left_cancel h

theorem recordDispatch_frame (f : FileState) (e : Entry) (now : Nat)
    (inQuantum synchronous : Bool) :
    let g := f.recordDispatch e now inQuantum synchronous
    g.file = f.file ∧ g.contents = f.contents ∧ g.inLanes = f.inLanes ∧
      g.onTimeline = f.onTimeline ∧ (f.Sound bound → g.Sound bound) :=
  ⟨file_setLane _ _ _, lanes_setLane_eq rfl, lanes_setLane_eq rfl, onTimeline_setLane _ _ _,
    fun h => sound_setLane h ((h.lane e.direction).congr rfl rfl rfl)⟩

theorem release?_lane {a : Address} {h : HandedOut} (hr : f.release? a = some (h, g)) :
    ∃ l, (f.lane a.direction).release? a = some (h, l) ∧ g = f.setLane a.direction l := by
  obtain ⟨⟨h', l⟩, hl, hr⟩ := Option.map_eq_some_iff.mp hr
  obtain ⟨rfl, rfl⟩ := Prod.mk.inj hr
  exact ⟨l, hl, rfl⟩

theorem release?_some {a : Address} {h : HandedOut} (hr : f.release? a = some (h, g)) :
    h.request.matchesRange a ∧ f.held = h ::ₘ g.held ∧ g.file = f.file ∧
      g.contents = f.contents ∧ g.inLanes = f.inLanes ∧ g.onTimeline = f.onTimeline ∧
      (f.Sound bound → g.Sound bound) := by
  obtain ⟨l, hl, rfl⟩ := release?_lane hr
  obtain ⟨i, hi, range, rfl⟩ := Lane.release?_some hl
  obtain ⟨lt, rfl⟩ := List.getElem?_eq_some_iff.mp hi
  refine ⟨range, ?_, file_setLane _ _ _, lanes_setLane_eq rfl, lanes_setLane_eq rfl,
    onTimeline_setLane _ _ _, fun hf => sound_setLane hf ((hf.lane _).congr rfl rfl rfl)⟩
  have step := lanes_setLane (fun l => (l.handedOut : Multiset HandedOut)) f a.direction
    { f.lane a.direction with handedOut := (f.lane a.direction).handedOut.eraseIdx i }
  have perm : ((f.lane a.direction).handedOut : Multiset HandedOut) =
      (f.lane a.direction).handedOut[i] ::ₘ ((f.lane a.direction).handedOut.eraseIdx i) :=
    (Multiset.coe_eq_coe.mpr (List.getElem_cons_eraseIdx_perm lt)).symm
  dsimp only at step
  rw [perm, Multiset.add_cons, ← Multiset.cons_add] at step
  exact (add_right_cancel step).symm

end FileState

end IoScheduling
