import IoScheduling.Proofs.Relocation
import IoScheduling.Proofs.Runs

/-! # What files and lanes remember

Besides its pending entries a file keeps what it has learned: what its lanes have handed out, how
large their dispatches were, where the last one ended, for which entry it has waited. Requests come
and go, policies take turns and grants are given without any of it being touched. This is shown
once, for whatever is read off a file without looking at what is pending or granted, and so for
whatever is read off a lane. -/
namespace IoScheduling

/-- A reading of files that does not show what is pending. -/
structure FileState.Unpending {β : Type} (ρ : FileState → β) : Prop where
  counted : ∀ (f : FileState) (first : Option Nat) (n : Nat),
    ρ { f with firstArrival := first, onTimeline := n } = ρ f
  waiting : ∀ (f : FileState) (d : Direction) (entries : List Entry) (bytes requests : Nat),
    ρ (f.setLane d { f.lane d with entries := entries, bytes := bytes, requests := requests }) = ρ f

structure FileState.Blind {β : Type} (ρ : FileState → β) : Prop extends Unpending ρ where
  granted : ∀ (f : FileState) (d : Direction) (g : Grant),
    ρ (f.setLane d { f.lane d with grant := g }) = ρ f

def FileState.Unreleased {β : Type} (ρ : FileState → β) : Prop :=
  ∀ (f : FileState) (d : Direction) (now : Nat),
    ρ (f.setLane d { f.lane d with grant := (f.lane d).grant.noteRelease now }) = ρ f

/-- A reading of files that does not show what is pending, handed out or counted. -/
structure FileState.Steady {β : Type} (ρ : FileState → β) : Prop extends Unpending ρ where
  unreleased : Unreleased ρ
  unrecorded : ∀ (f : FileState) (d : Direction) (hs : List HandedOut),
    ρ (f.setLane d { f.lane d with handedOut := hs }) = ρ f
  sent : ∀ (f : FileState) (e : Entry) (now : Nat) (inQuantum synchronous : Bool),
    ρ (f.recordDispatch e now inQuantum synchronous) = ρ f
  reset : ∀ f : FileState, ρ f.resetTallies = ρ f

/-- A reading of lanes that shows neither the pending entries nor the grant. -/
structure Lane.Blind {β : Type} (π : Lane → β) : Prop where
  waiting : ∀ (l : Lane) (entries : List Entry) (bytes requests : Nat),
    π { l with entries := entries, bytes := bytes, requests := requests } = π l
  granted : ∀ (l : Lane) (g : Grant), π { l with grant := g } = π l

theorem Lane.blind_handedOut : Lane.Blind Lane.handedOut := ⟨fun _ _ _ _ => rfl, fun _ _ => rfl⟩

theorem Lane.blind_tally : Lane.Blind Lane.tally := ⟨fun _ _ _ _ => rfl, fun _ _ => rfl⟩

section

variable {β : Type} {ρ : FileState → β} {π : Lane → β}

namespace FileState

variable {f : FileState} {d : Direction} {l : Lane}

def through (π : Lane → β) (f : FileState) (d : Direction) : β := π (f.lane d)

theorem reading_setLane (π : Lane → β) (f : FileState) (d : Direction) (l : Lane) (d' : Direction) :
    π ((f.setLane d l).lane d') = if d' = d then π l else π (f.lane d') := by
  by_cases here : d' = d
  · subst here
    rw [lane_setLane, if_pos rfl]
  · rw [lane_setLane_of_ne f l here, if_neg here]

theorem through_setLane_eq (h : π l = π (f.lane d)) :
    (f.setLane d l).through π = f.through π := by
  funext d'
  unfold through
  rw [reading_setLane π]
  split
  · rename_i here
    rw [here, h]
  · rfl

theorem counted_through (π : Lane → β) (f : FileState) (first : Option Nat) (n : Nat) :
    through π { f with firstArrival := first, onTimeline := n } = f.through π := by
  funext d
  cases d <;> rfl

theorem unpending_through (waiting : ∀ (l : Lane) (entries : List Entry) (bytes requests : Nat),
    π { l with entries := entries, bytes := bytes, requests := requests } = π l) :
    Unpending (through π) where
  counted := counted_through π
  waiting := fun _ _ _ _ _ => through_setLane_eq (waiting _ _ _ _)

theorem blind_through (blind : Lane.Blind π) : Blind (through π) where
  toUnpending := unpending_through blind.waiting
  granted := fun _ _ _ => through_setLane_eq (blind.granted _ _)

theorem reading_activate (counted : ∀ f first n,
    ρ { f with firstArrival := first, onTimeline := n } = ρ f) (f : FileState) (n now : Nat)
    (c : PendingCounts) : ρ (f.activate n now c).1 = ρ f := by
  unfold activate
  split
  · exact counted f _ f.onTimeline
  · rfl

theorem Unpending.insert (h : Unpending ρ) (f : FileState) (e : Entry) (limit now : Nat)
    (c : PendingCounts) : ρ (f.insert e limit now c).1 = ρ f := by
  have active := reading_activate h.counted f e.count now c
  rw [insert_fst]
  exact (h.waiting _ e.direction _ _ _).trans active

theorem Unpending.notes (h : Unpending ρ) (f : FileState) : ρ f.notes = ρ f := by
  let reads := f.setLane .read f.reads.drain.2
  let writes := reads.setLane .write f.writes.drain.2
  have first : ρ reads = ρ f := h.waiting f .read [] 0 0
  have second : ρ writes = ρ reads := h.waiting reads .write [] 0 0
  exact (h.counted writes writes.firstArrival 0).trans (second.trans first)

theorem Blind.unreleased (blind : Blind ρ) : Unreleased ρ := fun f d _ => blind.granted f d _

theorem Blind.steer (blind : Blind ρ) (f : FileState) {s : Steering}
    (cooled : ∀ w q, s = .cool w q → ρ (f.steer s) = ρ f) : ρ (f.steer s) = ρ f := by
  cases s with
  | promote d i => exact blind.waiting f d _ _ _
  | cool waitingUntil waitedSeq => exact cooled waitingUntil waitedSeq rfl
  | grant d next => exact blind.granted f d next

end FileState

namespace Index

/-- Whatever was read off the files of `x` can be read off those of `y`. -/
def Reads (ρ : FileState → β) (x y : Index) : Prop := ∀ n, ρ (y.fileOf n) = ρ (x.fileOf n)

/-- Whatever was read off the lanes of `x` can be read off those of `y`. -/
def Keeps (π : Lane → β) (x y : Index) : Prop :=
  ∀ n d, π ((y.fileOf n).lane d) = π ((x.fileOf n).lane d)

variable {x y z : Index} {f : FileState} {name : String} {e : Entry} {a : Address}

theorem Reads.refl (ρ : FileState → β) (x : Index) : Reads ρ x x := fun _ => rfl

theorem Reads.trans (h : Reads ρ x y) (k : Reads ρ y z) : Reads ρ x z :=
  fun n => (k n).trans (h n)

theorem Reads.keeps (h : Reads (FileState.through π) x y) : Keeps π x y :=
  fun n => congrFun (h n)

theorem Keeps.refl (π : Lane → β) (x : Index) : Keeps π x x := fun _ _ => rfl

theorem setFile_reads (hf : f.file = name) (same : ρ f = ρ (x.fileOf name)) :
    Reads ρ x (x.setFile f) := by
  subst hf
  exact reads_update ρ _ rfl same

theorem known_reads {g : FileState} (hf : x.file? name = some f) (file : g.file = f.file)
    (same : ρ g = ρ f) : Reads ρ x (x.setFile g) := by
  rw [← fileOf_eq hf] at file same
  exact setFile_reads (file.trans (file_fileOf x name)) same

theorem setLane_reads {d : Direction} {l : Lane} {p : Nat} {c : PendingCounts}
    (same : ρ ((x.fileOf name).setLane d l) = ρ (x.fileOf name)) :
    Reads ρ x ((x.update name ((x.fileOf name).setLane d l) p).setCounts c) :=
  reads_update ρ p ((FileState.file_setLane _ d l).trans (file_fileOf x name)) same

theorem mapAll_reads {g : FileState → FileState} (x : Index)
    (file : ∀ f, (g f).file = f.file) (fresh : ∀ n, g (.fresh n) = .fresh n)
    (same : ∀ f, ρ (g f) = ρ f) : Reads ρ x (x.mapAll g Bucket.pending) := by
  intro n
  rw [fileOf_mapAll x file rfl fresh, same]

theorem reading_recordDispatch (π : Lane → β) (x : Index) (name : String) (e : Entry) (now : Nat)
    (inQuantum synchronous : Bool) (n : String) (d : Direction) :
    π (((x.setFile ((x.fileOf name).recordDispatch e now inQuantum synchronous)).fileOf n).lane d) =
      if n = name ∧ d = e.direction then
        π (((x.fileOf name).lane e.direction).recordDispatch e now inQuantum synchronous)
      else π ((x.fileOf n).lane d) := by
  have file : ((x.fileOf name).recordDispatch e now inQuantum synchronous).file = name :=
    (FileState.file_setLane _ _ _).trans (file_fileOf x name)
  rw [fileOf_setFile x file]
  by_cases here : n = name
  · subst here
    rw [if_pos rfl, FileState.recordDispatch, FileState.modifyLane, FileState.reading_setLane π]
    simp only [true_and]
  · rw [if_neg here, if_neg fun both => here both.1]

theorem recordDispatch_reads (sent : ∀ (f : FileState) (e : Entry) (now : Nat)
    (inQuantum synchronous : Bool), ρ (f.recordDispatch e now inQuantum synchronous) = ρ f)
    (x : Index) (name : String) (e : Entry) (now : Nat) (inQuantum synchronous : Bool) :
    Reads ρ x (x.setFile ((x.fileOf name).recordDispatch e now inQuantum synchronous)) :=
  setFile_reads ((FileState.file_setLane _ _ _).trans (file_fileOf x name)) (sent _ e now _ _)

theorem insert_reads (unpending : FileState.Unpending ρ) (x : Index) (e : Entry) (limit now : Nat) :
    Reads ρ x (x.insert e limit now).1 :=
  (insert_rewrites x e limit now).reads ρ (unpending.insert _ e limit now x.counts)

theorem noteTimelineAdd_reads
    (counted : ∀ f first n, ρ { f with firstArrival := first, onTimeline := n } = ρ f) (x : Index)
    (name : String) (n now : Nat) : Reads ρ x (x.noteTimelineAdd name n now) := by
  apply (noteTimelineAdd_rewrites x name n now).reads ρ
  rw [FileState.noteTimelineAdd_fst]
  have active := FileState.reading_activate counted (x.fileOf name) n now x.counts
  exact (counted _ _ _).trans active

theorem noteTimelineRemove_reads
    (counted : ∀ f first n, ρ { f with firstArrival := first, onTimeline := n } = ρ f) (x : Index)
    (name : String) (n : Nat) : Reads ρ x (x.noteTimelineRemove name n) :=
  (noteTimelineRemove_rewrites x name n).reads ρ (counted _ _ _)

theorem withdraw_reads (unpending : FileState.Unpending ρ) {r : Request} (h : x.withdraw a = .ok (r, y)) :
    Reads ρ x y := by
  obtain ⟨f, c, hf, rfl⟩ := withdraw_ok h
  obtain ⟨l, hl, rfl, -⟩ := FileState.withdraw?_some hf
  obtain ⟨entries, -, rfl⟩ := Lane.withdraw?_some hl
  exact setLane_reads (unpending.waiting _ _ _ _ _)

theorem detach?_reads (unpending : FileState.Unpending ρ) {d : Direction} {i : Nat}
    (h : x.detach? name d i = some (e, y)) : Reads ρ x y := by
  obtain ⟨f, c, -, hf, rfl⟩ := detach?_some h
  obtain ⟨l, hl, rfl, -⟩ := FileState.detach?_some hf
  obtain ⟨-, rfl⟩ := Lane.detach?_some hl
  exact setLane_reads (unpending.waiting _ _ _ _ _)

theorem release_reads (unrecorded : ∀ (f : FileState) (d : Direction) (hs : List HandedOut),
    ρ (f.setLane d { f.lane d with handedOut := hs }) = ρ f) {r : HandedOut}
    (h : x.release a = .ok (r, y)) : Reads ρ x y := by
  obtain ⟨f, hf, rfl⟩ := release_ok h
  obtain ⟨l, hl, rfl⟩ := FileState.release?_lane hf
  obtain ⟨i, -, -, rfl⟩ := Lane.release?_some hl
  exact setLane_reads (unrecorded _ _ _) (c := x.counts)

theorem noteTimelineAdd_keeps (π : Lane → β) (x : Index) (name : String) (n now : Nat) :
    Keeps π x (x.noteTimelineAdd name n now) :=
  (noteTimelineAdd_reads (FileState.counted_through π) x name n now).keeps

theorem noteTimelineRemove_keeps (π : Lane → β) (x : Index) (name : String) (n : Nat) :
    Keeps π x (x.noteTimelineRemove name n) :=
  (noteTimelineRemove_reads (FileState.counted_through π) x name n).keeps

theorem detach?_keeps (blind : Lane.Blind π) {d : Direction} {i : Nat}
    (h : x.detach? name d i = some (e, y)) : Keeps π x y :=
  (detach?_reads (FileState.unpending_through blind.waiting) h).keeps

end Index

namespace Core

open Index (Reads Keeps)

variable {c c' : Core} {now : Nat} {a : Address} {r : Request}

theorem enqueue_reads (unpending : FileState.Unpending ρ) (c : Core) (now : Nat) (r : Request) :
    Reads ρ c.index (c.enqueue now r).1.index := by
  unfold enqueue
  split
  · exact Index.insert_reads unpending c.index (.single r) _ now
  · exact Index.noteTimelineAdd_reads unpending.counted c.index r.file 1 now

theorem submit_reads (unpending : FileState.Unpending ρ) (c : Core) (now : Nat) (call : Submission) :
    Reads ρ c.index (c.submit now call).1.index := by
  obtain form | ⟨l, form⟩ | ⟨l, form⟩ := c.submit_cases now call
  · rw [form]
    exact .refl ρ c.index
  · rw [form]
    exact .refl ρ c.index
  · rw [form]
    exact enqueue_reads unpending { c with nextSeq := c.nextSeq + 1 } now _

theorem dequeue_reads (unpending : FileState.Unpending ρ) (h : c.dequeue a = .ok (r, c')) :
    Reads ρ c.index c'.index := by
  obtain ⟨-, x, hw, rfl⟩ | ⟨-, t, -, rfl⟩ := dequeue_ok h
  · exact Index.withdraw_reads unpending hw
  · dsimp only
    split
    · exact Index.noteTimelineRemove_reads unpending.counted c.index a.file 1
    · exact .refl ρ c.index

theorem cancel_reads (unpending : FileState.Unpending ρ) (c : Core) (a : Address) :
    Reads ρ c.index (c.cancel a).1.index := by
  unfold cancel
  cases hd : c.dequeue a with
  | ok result =>
    have left : Reads ρ c.index result.2.index := dequeue_reads unpending hd
    exact left
  | error fault => exact .refl ρ c.index

theorem migrate_reads (unpending : FileState.Unpending ρ) (h : c.InStep) (k : PolicyKind) :
    Reads ρ c.index (c.migrate k).index := by
  intro n
  have notes := (transfer_passage h.index.placed k).notes n
  exact (unpending.notes _).symm.trans ((congrArg ρ notes).trans (unpending.notes _))

theorem steer_reads (blind : FileState.Blind ρ) (c : Core) (file : String) {s : Steering}
    (cooled : ∀ f w q, s = .cool w q → ρ (f.steer s) = ρ f) :
    Reads ρ c.index (c.steer file s).index := by
  unfold steer
  split
  · exact .refl ρ c.index
  · rename_i f hf
    exact Index.known_reads hf (FileState.alike_steer f s).file (blind.steer f (cooled f))

theorem noteGrantRelease_reads (unreleased : FileState.Unreleased ρ) (c : Core) (now : Nat)
    (a : Address) : Reads ρ c.index (c.noteGrantRelease now a).index := by
  unfold noteGrantRelease
  split
  · exact .refl ρ c.index
  · rename_i f hf
    exact Index.known_reads hf (FileState.file_setLane f a.direction _) (unreleased f a.direction now)

theorem settledIndex_reads (unreleased : FileState.Unreleased ρ) (c : Core) (now : Nat)
    (a : Address) (h : HandedOut) (x : Index) : Reads ρ x (c.settledIndex now a h x) := by
  unfold settledIndex
  split
  · exact noteGrantRelease_reads unreleased { c with index := x } now a
  · exact .refl ρ x

theorem complete_reads (unreleased : FileState.Unreleased ρ)
    (unrecorded : ∀ (f : FileState) (d : Direction) (hs : List HandedOut),
      ρ (f.setLane d { f.lane d with handedOut := hs }) = ρ f) (c : Core)
    (now : Nat) (a : Address) : Reads ρ c.index (c.complete now a).1.index := by
  obtain ⟨r, x, signal, hr, form⟩ | ⟨fault, -, form⟩ := c.complete_cases now a
  · rw [form]
    exact (Index.release_reads unrecorded hr).trans (settledIndex_reads unreleased c now a r x)
  · rw [form]
    split <;> exact .refl ρ c.index

theorem submit_keeps (blind : Lane.Blind π) (c : Core) (now : Nat) (call : Submission) :
    Keeps π c.index (c.submit now call).1.index :=
  (submit_reads (FileState.unpending_through blind.waiting) c now call).keeps

theorem dequeue_keeps (blind : Lane.Blind π) (h : c.dequeue a = .ok (r, c')) :
    Keeps π c.index c'.index :=
  (dequeue_reads (FileState.unpending_through blind.waiting) h).keeps

theorem migrate_keeps (blind : Lane.Blind π) (h : c.InStep) (k : PolicyKind) :
    Keeps π c.index (c.migrate k).index :=
  (migrate_reads (FileState.unpending_through blind.waiting) h k).keeps

theorem steer_keeps (blind : Lane.Blind π) (c : Core) (file : String) (s : Steering) :
    Keeps π c.index (c.steer file s).index := by
  refine (steer_reads (FileState.blind_through blind) c file fun f w q same => ?_).keeps
  funext d
  subst same
  cases d <;> rfl

theorem complete_keeps (blind : Lane.Blind π) (unrecorded : ∀ (l : Lane) (hs : List HandedOut),
    π { l with handedOut := hs } = π l) (c : Core) (now : Nat) (a : Address) :
    Keeps π c.index (c.complete now a).1.index :=
  (complete_reads (FileState.blind_through blind).unreleased
    (fun _ _ _ => FileState.through_setLane_eq (unrecorded _ _)) c now a).keeps

theorem settledIndex_keeps (blind : Lane.Blind π) (c : Core) (now : Nat) (a : Address)
    (h : HandedOut) (x : Index) : Keeps π x (c.settledIndex now a h x) :=
  (settledIndex_reads (FileState.blind_through blind).unreleased c now a h x).keeps

theorem reset_reads (c : Core) (same : ∀ f : FileState, ρ f.resetTallies = ρ f) :
    Reads ρ c.index c.resetStatistics.index :=
  Index.mapAll_reads c.index (fun _ => rfl) (fun _ => rfl) same

theorem dispatch?_reads (steady : FileState.Steady ρ) {file : String} {d : Direction} {i : Nat}
    {k : PolicyKind} {inQuantum : Bool} {requests : List Request}
    (h : c.dispatch? now file d i k inQuantum = some (requests, c')) :
    Reads ρ c.index c'.index := by
  obtain ⟨⟨e, x⟩, he, same⟩ := Option.map_eq_some_iff.mp h
  obtain ⟨-, rfl⟩ := Prod.mk.inj same
  exact (Index.detach?_reads steady.toUnpending he).trans
    (Index.recordDispatch_reads steady.sent x file e now _ _)

theorem dispatchHead?_reads (steady : FileState.Steady ρ) {k : PolicyKind}
    {requests : List Request} (h : c.dispatchHead? now k = some (requests, c')) :
    Reads ρ c.index c'.index := by
  obtain ⟨⟨e, t⟩, -, same⟩ := Option.map_eq_some_iff.mp h
  obtain ⟨-, rfl⟩ := Prod.mk.inj same
  exact (Index.noteTimelineRemove_reads steady.counted c.index e.file e.count).trans
    (Index.recordDispatch_reads steady.sent _ e.file e now _ _)

end Core

theorem System.act_reads (steady : FileState.Steady ρ) {s : System} (h : s.core.InStep)
    (a : Action) (steered : ∀ file t, a = .steer file t → ∀ f : FileState, ρ (f.steer t) = ρ f) :
    Index.Reads ρ s.core.index (s.act a).core.index := by
  cases a with
  | submit now call =>
    rw [act, core_submit]
    exact Core.submit_reads steady.toUnpending s.core now call
  | settle i =>
    change Index.Reads ρ _ (s.settle i).core.index
    unfold settle
    split <;> exact .refl ρ _
  | complete now a => exact Core.complete_reads steady.unreleased steady.unrecorded s.core now a
  | cancel a =>
    rw [act, core_cancel]
    exact Core.cancel_reads steady.toUnpending s.core a
  | migrate k => exact Core.migrate_reads steady.toUnpending h k
  | dispatch now file d i k inQuantum =>
    rw [act]
    cases hd : s.core.dispatch? now file d i k inQuantum with
    | none => exact .refl ρ _
    | some result => exact Core.dispatch?_reads steady hd
  | dispatchHead now k =>
    rw [act]
    cases hd : s.core.dispatchHead? now k with
    | none => exact .refl ρ _
    | some result => exact Core.dispatchHead?_reads steady hd
  | handOver i =>
    change Index.Reads ρ _ (s.handOver i).core.index
    unfold handOver
    split <;> exact .refl ρ _
  | steer file t =>
    change Index.Reads ρ _ (s.core.steer file t).index
    unfold Core.steer
    split
    · exact .refl ρ _
    · rename_i f hf
      exact Index.known_reads hf (FileState.alike_steer f t).file (steered file t rfl f)
  | stop => exact .refl ρ _
  | reset => exact Core.reset_reads s.core steady.reset

end

end IoScheduling
