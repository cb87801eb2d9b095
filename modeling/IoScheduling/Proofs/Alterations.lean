import IoScheduling.Proofs.Progress

/-! # Steps about one file

Between two calls of the caller's code a policy works on one file at a time: it passes entries of a
lane, holds the file back, opens and closes grants, and sends an entry out. Each such step exchanges
the state of that file for another one and leaves all other files alone. -/
namespace IoScheduling

namespace Lane

/-- The entry `e` at place `i` of the lane has gone out. -/
def sent (l : Lane) (i : Nat) (e : Entry) (now : Nat) (inQuantum synchronous : Bool) : Lane :=
  { l with
    entries := l.entries.eraseIdx i
    bytes := wrapSub l.bytes e.bytes
    requests := l.requests - e.count }.recordDispatch e now inQuantum synchronous

variable (l : Lane) (i : Nat) (e : Entry) (now : Nat) (inQuantum synchronous : Bool)

@[simp] theorem entries_sent :
    (l.sent i e now inQuantum synchronous).entries = l.entries.eraseIdx i := rfl

@[simp] theorem handedOut_sent : (l.sent i e now inQuantum synchronous).handedOut =
    l.handedOut ++ e.requests.map fun r => ⟨r, now, inQuantum, synchronous⟩ := rfl

@[simp] theorem grant_sent : (l.sent i e now inQuantum synchronous).grant = l.grant := rfl

end Lane

namespace FileState

@[simp] theorem file_modifyLane (f : FileState) (d : Direction) (g : Lane → Lane) :
    (f.modifyLane d g).file = f.file := file_setLane _ _ _

@[simp] theorem lane_modifyLane (f : FileState) (d : Direction) (g : Lane → Lane) :
    (f.modifyLane d g).lane d = g (f.lane d) := lane_setLane _ _ _

theorem lane_modifyLane_of_ne (f : FileState) {d d' : Direction} (g : Lane → Lane)
    (other : d' ≠ d) : (f.modifyLane d g).lane d' = f.lane d' := lane_setLane_of_ne f _ other

theorem modifyLane_modifyLane (f : FileState) (d : Direction) (g g' : Lane → Lane) :
    (f.modifyLane d g).modifyLane d g' = f.modifyLane d fun l => g' (g l) := by
  cases d <;> rfl

@[simp] theorem lane_arm (f : FileState) (e : Entry) (wait now : Nat) (d : Direction) :
    (f.arm e wait now).lane d = f.lane d := by
  cases d <;> rfl

end FileState

theorem Index.file?_setFile (x : Index) {f : FileState} {name : String} (hf : f.file = name)
    (n : String) : (x.setFile f).file? n = if n = name then some f else x.file? n := by
  subst hf
  exact file?_update x _ rfl n

theorem Index.file_of_file? {x : Index} {f : FileState} {name : String}
    (h : x.file? name = some f) : f.file = name := (Keyed.mem_of_find? h).2

namespace Core

/-- The state of the file has become `f`. All other files, the setup and the request to stop are as
they were. -/
structure Alters (c c' : Core) (name : String) (f : FileState) : Prop where
  here : c'.index.file? name = some f
  elsewhere : ∀ n, n ≠ name → c'.index.file? n = c.index.file? n
  setup : c'.setup = c.setup
  stopping : c'.stopping = c.stopping

variable {c c' c'' : Core} {name : String} {f g : FileState} {d : Direction} {i now : Nat}

theorem Alters.refl (hf : c.index.file? name = some f) : Alters c c name f :=
  ⟨hf, fun _ _ => rfl, rfl, rfl⟩

theorem Alters.trans (h : Alters c c' name f) (k : Alters c' c'' name g) :
    Alters c c'' name g where
  here := k.here
  elsewhere := fun n other => (k.elsewhere n other).trans (h.elsewhere n other)
  setup := k.setup.trans h.setup
  stopping := k.stopping.trans h.stopping

theorem Alters.fileOf (h : Alters c c' name f) (n : String) :
    c'.index.fileOf n = if n = name then f else c.index.fileOf n := by
  by_cases same : n = name
  · rw [if_pos same, same, Index.fileOf_eq h.here]
  · rw [if_neg same]
    exact congrArg (Option.getD · (FileState.fresh n)) (h.elsewhere n same)

theorem setFile_alters (c : Core) (hf : f.file = name) :
    Alters c { c with index := c.index.setFile f } name f where
  here := by rw [Index.file?_setFile c.index hf, if_pos rfl]
  elsewhere := fun n other => by rw [Index.file?_setFile c.index hf, if_neg other]
  setup := rfl
  stopping := rfl

theorem modifyLane_alters {k : Burst.Candidate} (hf : c.index.file? k.file = some f)
    (g : Lane → Lane) :
    Alters c (Burst.modifyLane c k g) k.file (f.modifyLane k.direction g) := by
  unfold Burst.modifyLane
  rw [hf]
  exact setFile_alters c ((f.file_modifyLane _ g).trans (Index.file_of_file? hf))

theorem holdBack_alters (hf : c.index.file? name = some f) (d : Direction) (i now : Nat) :
    (f.holdback? c.setup d i now = none ∧ c.holdBack name d i now = (c, none)) ∨
      ∃ e wait c', f.holdback? c.setup d i now = some (e, wait) ∧
        c.holdBack name d i now = (c', some wait) ∧ Alters c c' name (f.arm e wait now) := by
  unfold holdBack
  rw [hf]
  dsimp only
  split
  · rename_i none
    exact .inl ⟨none, rfl⟩
  · rename_i e wait reason
    have own : f.file = name := Index.file_of_file? hf
    have step := setFile_alters c (f := f.arm e wait now) own
    exact .inr ⟨e, wait, _, reason, rfl, step.here, step.elsewhere, rfl, rfl⟩

theorem dispatch?_alters (h : c.InStep) (hf : c.index.file? name = some f) {e : Entry}
    (found : (f.lane d).entries[i]? = some e) (now : Nat) (k : PolicyKind) (inQuantum : Bool) :
    ∃ c', c.dispatch? now name d i k inQuantum = some (e.requests, c') ∧
      Alters c c' name (f.modifyLane d (·.sent i e now inQuantum k.profile.synchronous)) := by
  have here : c.index.fileOf name = f := Index.fileOf_eq hf
  have own : e.direction = d := by
    have mem : e ∈ ((c.index.fileOf name).lane d).entries := by
      rw [here]
      exact List.mem_of_getElem? found
    exact (h.lane_mem mem).2.2
  have there : (c.lane name d)[i]? = some e := by
    rw [lane, here]
    exact found
  have some_out := Core.dispatch?_isSome there now k inQuantum
  obtain ⟨⟨requests, c'⟩, went⟩ := Option.isSome_iff_exists.mp some_out
  obtain ⟨⟨e', x⟩, taken, same⟩ := Option.map_eq_some_iff.mp went
  obtain ⟨rfl, rfl⟩ := Prod.mk.inj same
  obtain ⟨f', counts, -, detached, rfl⟩ := Index.detach?_some taken
  rw [here] at detached
  obtain ⟨l, hl, rfl, -⟩ := FileState.detach?_some detached
  obtain ⟨there, rfl⟩ := Lane.detach?_some hl
  obtain rfl : e = e' := Option.some.inj (found.symm.trans there)
  refine ⟨_, went, ?_⟩
  -- The entry has been taken out of its lane and is now recorded there.
  let left : FileState := f.modifyLane d fun l => { l with
    entries := l.entries.eraseIdx i
    bytes := wrapSub l.bytes e.bytes
    requests := l.requests - e.count }
  let x := (c.index.update name left ((c.index.bucketOf name).pending - e.count)).setCounts counts
  have name_left : left.file = name := (f.file_modifyLane d _).trans (Index.file_of_file? hf)
  have step : Alters c { c with index := x } name left := by
    refine ⟨?_, fun n other => ?_, rfl, rfl⟩
    · exact (Index.file?_update c.index _ name_left name).trans (if_pos rfl)
    · exact (Index.file?_update c.index _ name_left n).trans (if_neg other)
  have recorded : (x.fileOf name).recordDispatch e now inQuantum k.profile.synchronous =
      f.modifyLane d (·.sent i e now inQuantum k.profile.synchronous) := by
    rw [Index.fileOf_eq step.here, FileState.recordDispatch, own]
    exact f.modifyLane_modifyLane d _ _
  have name_sent : (f.modifyLane d (·.sent i e now inQuantum k.profile.synchronous)).file = name :=
    (f.file_modifyLane _ _).trans (Index.file_of_file? hf)
  have last := setFile_alters { c with index := x } name_sent
  rw [← recorded] at last ⊢
  exact step.trans ⟨last.here, last.elsewhere, rfl, rfl⟩

end Core

end IoScheduling
