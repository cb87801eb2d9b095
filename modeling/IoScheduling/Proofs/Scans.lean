import IoScheduling.Policy.Burst
import IoScheduling.Policy.Feedback
import IoScheduling.Proofs.Counting
import IoScheduling.Proofs.Entries

/-! # What scans do

Between two dispatches a policy promotes entries, arms cooldowns and sets grants. Of this only the
promotions show in what is pending, and they change nothing but factors. -/
namespace IoScheduling

/-- The entries of `ps` are promoted, and the others stay as they are. -/
def Promoted (ps : List Entry) (before after : Multiset Entry) : Prop :=
  ∃ rest, before = ↑ps + rest ∧ after = ↑(ps.map Entry.promote) + rest

variable {ps qs : List Entry} {A B C D : Multiset Entry}

theorem Promoted.refl (A : Multiset Entry) : Promoted [] A A := ⟨A, (zero_add A).symm, (zero_add A).symm⟩

theorem Promoted.eq_of_nil (h : Promoted [] A B) : B = A := by
  obtain ⟨rest, rfl, rfl⟩ := h
  rfl

theorem Promoted.add (h : Promoted ps A B) (k : Promoted qs C D) :
    Promoted (ps ++ qs) (A + C) (B + D) := by
  obtain ⟨rest, rfl, rfl⟩ := h
  obtain ⟨others, rfl, rfl⟩ := k
  refine ⟨rest + others, ?_, ?_⟩
  · rw [← Multiset.coe_add, add_add_add_comm]
  · rw [List.map_append, ← Multiset.coe_add, add_add_add_comm]

theorem Promoted.add_right (h : Promoted ps A B) (C : Multiset Entry) :
    Promoted ps (A + C) (B + C) := by
  have step := h.add (.refl C)
  rwa [List.append_nil] at step

theorem promoted_all (es : List Entry) : Promoted es es (es.map Entry.promote) :=
  ⟨0, (add_zero _).symm, (add_zero _).symm⟩

theorem promoted_at (es : List Entry) (i : Nat) :
    Promoted es[i]?.toList es (es.modify i Entry.promote) := by
  cases found : es[i]? with
  | none =>
    have same : es.modify i Entry.promote = es :=
      List.modify_eq_self (List.getElem?_eq_none_iff.mp found)
    rw [same]
    exact .refl _
  | some e =>
    obtain ⟨front, back, rfl, rfl⟩ := exists_split found
    refine ⟨↑(front ++ back), coe_insert_between front back e, ?_⟩
    rw [modify_length_append, coe_insert_between]
    rfl

namespace FileState

variable {f : FileState} {d : Direction}

theorem promoted_modifyLane {g : Lane → Lane}
    (h : Promoted ps (f.lane d).entries (g (f.lane d)).entries) :
    Promoted ps f.entryBag (f.modifyLane d g).entryBag := by
  obtain ⟨rest, before, after⟩ := entryBag_setLane f d (g (f.lane d))
  rw [before, modifyLane, after]
  exact h.add_right rest

theorem alike_expire (f : FileState) (now : Nat) : f.Alike (f.expire now) :=
  ⟨rfl, rfl, rfl, rfl, rfl, fun _ h => ⟨h.lane⟩⟩

@[simp] theorem lane_expire (f : FileState) (now : Nat) (d : Direction) :
    (f.expire now).lane d = f.lane d := by
  cases d <;> rfl

theorem holdback?_some {setup : Setup} {i now wait : Nat} {e : Entry}
    (h : f.holdback? setup d i now = some (e, wait)) :
    f.waitedSeq ≠ some e.firstSeq ∧ 0 < wait ∧ (f.lane d).entries[i]? = some e := by
  obtain ⟨o, found, h⟩ := Option.bind_eq_some_iff.mp h
  split at h
  · cases h
  · rename_i unnoted
    obtain ⟨⟨reason, v⟩, -, h⟩ := Option.bind_eq_some_iff.mp h
    dsimp only at h
    split at h
    · cases h
    · rename_i pos
      obtain ⟨rfl, rfl⟩ := Prod.mk.inj (Option.some.inj h)
      exact ⟨unnoted, Nat.pos_of_ne_zero pos, found⟩

theorem alike_arm (f : FileState) (e : Entry) (wait now : Nat) : f.Alike (f.arm e wait now) :=
  ⟨rfl, rfl, rfl, rfl, rfl, fun _ h => ⟨h.lane⟩⟩

theorem promoteLane_effect (f : FileState) (now : Nat) (d : Direction) :
    let g := (f.expire now).modifyLane d fun l =>
      { l with entries := (f.lane d).entries.map Entry.promote }
    f.Alike g ∧ Promoted (f.lane d).entries f.entryBag g.entryBag := by
  rw [← lane_expire f now d]
  constructor
  · exact (f.alike_expire now).trans (alike_refactored (Lane.refactored_promoteAll _))
  · exact promoted_modifyLane (f := f.expire now) (promoted_all ((f.expire now).lane d).entries)

def heads (f : FileState) : List Entry := f.reads.entries[0]?.toList ++ f.writes.entries[0]?.toList

end FileState

namespace Core

/-- A core differs from another in nothing that counts but that the entries of `ps` are promoted. -/
structure Promotes (ps : List Entry) (c c' : Core) : Prop where
  inStep : c'.InStep
  setup : c'.setup = c.setup
  pending : c'.pending = c.pending
  held : c'.held = c.held
  books : c'.books = c.books
  entries : Promoted ps c.entryBag c'.entryBag

variable {c c' c'' : Core} {f : FileState} {name : String} {d : Direction}

theorem Promotes.refl (h : c.InStep) : Promotes [] c c := ⟨h, rfl, rfl, rfl, rfl, .refl _⟩

theorem Promotes.noted (h : Promotes ps c c') (k : Promotes [] c' c'') : Promotes ps c c'' where
  inStep := k.inStep
  setup := k.setup.trans h.setup
  pending := k.pending.trans h.pending
  held := k.held.trans h.held
  books := k.books.trans h.books
  entries := k.entries.eq_of_nil ▸ h.entries

theorem setFile_promotes (h : c.InStep) (name : String) (alike : (c.index.fileOf name).Alike f)
    (entries : Promoted ps (c.index.fileOf name).entryBag f.entryBag) :
    Promotes ps c { c with index := c.index.setFile f } := by
  obtain ⟨sound, counted, contents, -, held, timeline⟩ := Index.alike_effect h.index alike
  refine ⟨h.replace sound counted contents timeline, rfl, congrArg (· + _) contents, held, rfl, ?_⟩
  have file := alike.file.trans (Index.file_fileOf c.index name)
  obtain ⟨others, before, after⟩ := Index.total_exchange h.index.placed FileState.entryBag_fresh file
    (c.index.bucketOf name).pending c.index.counts
  have whole : (c.index.setFile f).entryBag = f.entryBag + others := by
    subst file
    exact after
  have split : c.index.entryBag = (c.index.fileOf name).entryBag + others := before
  rw [entryBag, entryBag, whole, split]
  exact (entries.add_right others).add_right _

theorem modifyLane_promotes (h : c.InStep) (name : String) (d : Direction) {g : Lane → Lane}
    (hg : ∀ l, (g l).entries = l.entries ∧ (g l).requests = l.requests ∧
      (g l).bytes = l.bytes ∧ (g l).handedOut = l.handedOut) :
    Promotes [] c { c with index := c.index.setFile ((c.index.fileOf name).modifyLane d g) } := by
  refine setFile_promotes h name (FileState.alike_modifyLane _ d hg) ?_
  refine FileState.promoted_modifyLane ?_
  rw [(hg _).1]
  exact .refl _

theorem promoteAt_promotes (h : c.InStep) (name : String) (d : Direction) (i : Nat) :
    Promotes ((c.index.fileOf name).lane d).entries[i]?.toList c { c with
      index := c.index.setFile ((c.index.fileOf name).modifyLane d (Lane.promoteAt i)) } :=
  setFile_promotes h name (FileState.alike_refactored (Lane.refactored_promoteAt _ i))
    (FileState.promoted_modifyLane (promoted_at _ i))

def steered (c : Core) (file : String) : Steering → List Entry
  | .promote d i => ((c.index.fileOf file).lane d).entries[i]?.toList
  | _ => []

theorem steer_promotes (h : c.InStep) (file : String) (s : Steering) :
    Promotes (c.steered file s) c (c.steer file s) := by
  unfold steer
  split
  · rename_i unknown
    have none : c.steered file s = [] := by
      cases s with
      | promote d i =>
        rw [steered, Index.fileOf_eq_fresh unknown]
        cases d <;> rfl
      | cool | grant => rfl
    rw [none]
    exact .refl h
  · rename_i f hf
    have here := Index.fileOf_eq hf
    subst here
    cases s with
    | promote d i => exact promoteAt_promotes h file d i
    | cool waitingUntil waitedSeq =>
      exact setFile_promotes h file (FileState.alike_steer _ (.cool waitingUntil waitedSeq)) (.refl _)
    | grant d g => exact modifyLane_promotes h file d fun _ => ⟨rfl, rfl, rfl, rfl⟩

theorem holdBack_promotes (h : c.InStep) (file : String) (d : Direction) (i now : Nat) :
    Promotes [] c (c.holdBack file d i now).1 := by
  unfold holdBack
  split
  · exact .refl h
  · rename_i f hf
    split
    · exact .refl h
    · rename_i e wait _
      have here := Index.fileOf_eq hf
      subst here
      have step := setFile_promotes h file (FileState.alike_arm _ e wait now) (.refl _)
      exact ⟨step.inStep, rfl, step.pending, step.held, rfl, step.entries⟩

theorem promoteLane_promotes (h : c.InStep) (hf : c.index.file? name = some f)
    (quantum now : Nat) (d : Direction) :
    Promotes (f.lane d).entries c (Feedback.promoteLane quantum now f d c).1 := by
  have here := Index.fileOf_eq hf
  subst here
  obtain ⟨alike, promoted⟩ := (c.index.fileOf name).promoteLane_effect now d
  exact setFile_promotes h name alike promoted

/-- The entries that a visit to a lane promotes: none while the file cools down. -/
def visited (c : Core) (now : Nat) (file : String) (d : Direction) : List Entry :=
  if ((c.index.fileOf file).cooldown? now).isSome then []
  else ((c.index.fileOf file).lane d).entries

/-- How a visit can end: nothing goes out, or the requests of one entry do. -/
inductive Visit (c : Core) (now : Nat) (file : String) (d : Direction) :
    Core → List (List Request) → Prop where
  | kept {c' : Core} : Promotes (c.visited now file d) c c' → Visit c now file d c' []
  | dispatched {c₁ c' : Core} {t i : Nat} {requests : List Request} :
      Promotes (c.visited now file d) c c₁ →
      c₁.dispatch? t file d i .feedback false = some (requests, c') →
      Visit c now file d c' [requests]

theorem visit_ends {ω : Type} (host : Host ω) (quantum now : Nat) (scan : Feedback.Scan ω)
    (h : scan.session.core.InStep) (file : String) (d : Direction) :
    ∃ ready, (Feedback.visit host quantum now scan (file, d)).ready = scan.ready ++ ready ∧
      Visit scan.session.core now file d
        (Feedback.visit host quantum now scan (file, d)).session.core ready := by
  have nothing (ends : scan.session.core.visited now file d = []) :
      Visit scan.session.core now file d scan.session.core [] := .kept (ends ▸ .refl h)
  unfold Feedback.visit
  dsimp only
  split
  · rename_i unknown
    refine ⟨[], (List.append_nil _).symm, nothing ?_⟩
    rw [visited, Index.fileOf_eq_fresh unknown]
    cases d <;> rfl
  rename_i f hf
  have here := Index.fileOf_eq hf
  split
  · rename_i empty
    refine ⟨[], (List.append_nil _).symm, nothing ?_⟩
    rw [visited, here, List.isEmpty_iff.mp empty, ite_self]
  split
  · rename_i left hleft
    refine ⟨[], (List.append_nil _).symm, nothing ?_⟩
    rw [visited, here, hleft]
    rfl
  rename_i awake
  have promoted := promoteLane_promotes h hf quantum now d
  have all : scan.session.core.visited now file d = (f.lane d).entries := by
    rw [visited, here, awake]
    rfl
  rw [← all] at promoted
  split
  · rename_i core hc
    rw [hc] at promoted
    exact ⟨[], (List.append_nil _).symm, .kept promoted⟩
  rename_i core i hc
  rw [hc] at promoted
  have held := holdBack_promotes promoted.inStep file d i now
  split
  · rename_i core wait hw
    rw [hw] at held
    exact ⟨[], (List.append_nil _).symm, .kept (promoted.noted held)⟩
  rename_i core hw
  rw [hw] at held
  have noted := promoted.noted held
  split
  · exact ⟨[], (List.append_nil _).symm, .kept noted⟩
  · rename_i requests s hd
    obtain ⟨⟨rs, c⟩, went, same⟩ := Option.map_eq_some_iff.mp hd
    obtain ⟨rfl, rfl⟩ := Prod.mk.inj same
    exact ⟨[rs], rfl, .dispatched noted went⟩

theorem note_promotes (h : c.InStep) (k : Burst.Candidate) {g : Lane → Lane}
    (hg : ∀ l, (g l).entries = l.entries ∧ (g l).requests = l.requests ∧
      (g l).bytes = l.bytes ∧ (g l).handedOut = l.handedOut) :
    Promotes [] c (Burst.modifyLane c k g) := by
  unfold Burst.modifyLane
  split
  · rename_i f hf
    have here := Index.fileOf_eq hf
    subst here
    exact modifyLane_promotes h k.file k.direction hg
  · exact .refl h

theorem closeGrant_promotes (h : c.InStep) (q : QuantumBounds) (k : Burst.Candidate) :
    Promotes [] c (Burst.modifyLane c k (Burst.closeGrant q)) :=
  note_promotes h k fun _ => ⟨rfl, rfl, rfl, rfl⟩

theorem firstTurn_promotes (h : c.InStep) (q : QuantumBounds) (k : Burst.Candidate) (now : Nat) :
    Promotes [] c (Burst.firstTurn q k now c).2 := by
  have held := holdBack_promotes h k.file k.direction 0 now
  unfold Burst.firstTurn
  split
  · rename_i c₁ wait hc
    rw [hc] at held
    exact held
  · rename_i c₁ hc
    rw [hc] at held
    exact held.noted (note_promotes held.inStep k fun _ => ⟨rfl, rfl, rfl, rfl⟩)

theorem laterTurn_promotes (h : c.InStep) (q : QuantumBounds) (k : Burst.Candidate)
    (now consumed : Nat) (hf : c.index.file? k.file = some f) :
    Promotes (f.lane k.direction).entries[0]?.toList c
      (Burst.laterTurn q k now consumed (f.lane k.direction) c).2 := by
  have here := Index.fileOf_eq hf
  have promoted : Promotes (f.lane k.direction).entries[0]?.toList c
      (Burst.modifyLane c k fun _ => Burst.promoteHead (f.lane k.direction)) := by
    unfold Burst.modifyLane
    rw [hf]
    subst here
    exact promoteAt_promotes h k.file k.direction 0
  unfold Burst.laterTurn
  dsimp only
  split
  · exact promoted.noted (closeGrant_promotes promoted.inStep q k)
  · have held := holdBack_promotes promoted.inStep k.file k.direction 0 now
    split
    · rename_i c₁ wait hc
      rw [hc] at held
      exact (promoted.noted held).noted (closeGrant_promotes held.inStep q k)
    · rename_i c₁ hc
      rw [hc] at held
      exact promoted.noted held

def turned (c : Core) (k : Burst.Candidate) (dispatched : Nat) : List Entry :=
  if dispatched = 0 then [] else ((c.index.fileOf k.file).lane k.direction).entries[0]?.toList

theorem turn_promotes (h : c.InStep) (q : QuantumBounds) (k : Burst.Candidate)
    (now dispatched consumed : Nat) :
    Promotes (c.turned k dispatched) c (Burst.turn q k now dispatched consumed c).2 := by
  unfold Burst.turn
  split
  · rename_i unknown
    have none : c.turned k dispatched = [] := by
      rw [turned, Index.fileOf_eq_fresh unknown]
      cases k.direction <;> exact ite_self _
    rw [none]
    exact .refl h
  · rename_i f hf
    have head : c.turned k dispatched =
        if dispatched = 0 then [] else (f.lane k.direction).entries[0]?.toList := by
      rw [turned, Index.fileOf_eq hf]
    by_cases first : dispatched = 0
    · rw [head, if_pos first, if_pos first]
      dsimp only
      rw [if_pos first]
      split
      · exact .refl h
      · exact firstTurn_promotes h q k now
    · rw [head, if_neg first, if_neg first]
      dsimp only
      rw [if_neg first]
      split
      · rename_i empty
        rw [List.isEmpty_iff.mp empty]
        exact closeGrant_promotes h q k
      · exact laterTurn_promotes h q k now consumed hf

end Core

namespace Feedback

variable {ω : Type}

/-- A visit finds what it would find if it were the first one, and adds to what earlier visits have
found. -/
theorem visit_first (host : Host ω) (quantum now : Nat) (scan : Scan ω) (lane : String × Direction) :
    let first := visit host quantum now ⟨scan.session, [], none⟩ lane
    (visit host quantum now scan lane).session = first.session ∧
      (visit host quantum now scan lane).ready = scan.ready ++ first.ready := by
  have nothing : scan.ready = scan.ready ++ [] := (List.append_nil _).symm
  unfold visit
  dsimp only
  split
  · exact ⟨rfl, nothing⟩
  split
  · exact ⟨rfl, nothing⟩
  split
  · exact ⟨rfl, nothing⟩
  split
  · exact ⟨rfl, nothing⟩
  split
  · exact ⟨rfl, nothing⟩
  split
  · exact ⟨rfl, nothing⟩
  · exact ⟨rfl, rfl⟩

/-- A visit at most reads the clock. -/
theorem visit_world {P : ω → Prop} {host : Host ω} (quantum now : Nat) (scan : Scan ω)
    (lane : String × Direction) (clock : ∀ w, P w → P (host.clock w).2)
    (h : P scan.session.world) : P (visit host quantum now scan lane).session.world := by
  unfold visit
  dsimp only
  split
  · exact h
  split
  · exact h
  split
  · exact h
  split
  · exact h
  split
  · exact h
  split
  · exact h
  · rename_i out
    obtain ⟨_, -, same⟩ := Option.map_eq_some_iff.mp out
    rw [← (Prod.mk.inj same).2]
    exact clock _ h

end Feedback

namespace Burst

theorem alike_scanFile (now : Nat) (f : FileState) : f.Alike (scanFile now f) := by
  unfold scanFile
  split
  · have reads := FileState.alike_refactored (f := f.expire now) (d := .read)
      (Lane.refactored_promoteAt _ 0)
    have writes := FileState.alike_refactored (f := (f.expire now).modifyLane .read promoteHead)
      (d := .write) (Lane.refactored_promoteAt _ 0)
    exact ((f.alike_expire now).trans reads).trans writes
  · exact ⟨rfl, rfl, rfl, rfl, rfl, fun _ h => h⟩

def scannedHeads (now : Nat) (fs : List FileState) : List Entry :=
  (fs.filter (isScanned now)).flatMap FileState.heads

theorem scanFiles_promoted (now : Nat) (fs : List FileState) :
    Promoted (scannedHeads now fs) (fs.map FileState.entryBag).sum
      ((fs.map (scanFile now)).map FileState.entryBag).sum := by
  induction fs with
  | nil => exact .refl _
  | cons f fs ih =>
    simp only [List.map_cons, List.sum_cons]
    unfold scannedHeads
    by_cases scanned : isScanned now f
    · rw [List.filter_cons_of_pos scanned, List.flatMap_cons, scanFile, if_pos scanned]
      exact ((promoted_at _ 0).add (promoted_at _ 0)).add ih
    · rw [List.filter_cons_of_neg scanned, scanFile, if_neg scanned]
      have both := (Promoted.refl f.entryBag).add ih
      exact both

variable {x : Index} {f : FileState} {bound : Nat}

theorem scanFile_idle (h : f.Sound bound) (idle : f.inLanes = 0) (now : Nat) :
    scanFile now f = f := by
  have lane : ∀ d, (f.lane d).entries = [] := by
    intro d
    have contents := h.inLanes_eq
    rw [idle] at contents
    have both := add_eq_zero.mp (Multiset.card_eq_zero.mp contents.symm)
    cases d with
    | read => exact entries_eq_nil both.1
    | write => exact entries_eq_nil both.2
  have unscanned : isScanned now f = false := by
    have reads : f.reads.entries = [] := lane .read
    have writes : f.writes.entries = [] := lane .write
    simp [isScanned, FileState.isIdle, reads, writes]
  rw [scanFile, unscanned]
  rfl

theorem scanIndex_eq (h : x.Sound bound) (now : Nat) :
    scanIndex now x = x.mapAll (scanFile now) Bucket.pending := by
  unfold scanIndex Index.mapAll Index.mapBuckets
  congr 1
  refine List.map_congr_left fun a ha => ?_
  obtain ⟨i, b⟩ := a
  dsimp only
  split
  · rename_i idle
    have sum := h.pending i
    rw [Index.bucket_of_mem h.placed ha, idle] at sum
    have still : b.files.map (scanFile now) = b.files := by
      refine (List.map_congr_left fun f hf => ?_).trans (List.map_id _)
      have stored : f ∈ x.files := List.mem_flatMap.mpr ⟨_, ha, hf⟩
      have le := List.le_sum_of_mem (List.mem_map_of_mem (f := FileState.inLanes) hf)
      exact scanFile_idle (h.stored stored) (Nat.le_zero.mp (le.trans sum.symm.le)) now
    rw [still]
  · rfl

end Burst

namespace Core

variable {c : Core}

theorem select_promotes (h : c.InStep) (quantumBytes now : Nat) :
    Promotes (Burst.scannedHeads now c.index.files) c
      { c with index := (Burst.select quantumBytes now c.index).2.2 } := by
  obtain ⟨sound, counted, contents, counts, held, timeline⟩ :=
    Index.mapAll_effect (g := Burst.scanFile now) h.index (Burst.alike_scanFile now) fun n => rfl
  change Promotes _ c { c with index := Burst.scanIndex now c.index }
  rw [Burst.scanIndex_eq h.index]
  refine ⟨h.replace sound counted contents timeline, rfl, congrArg (· + _) contents, held, rfl, ?_⟩
  refine Promoted.add_right ?_ _
  change Promoted _ _ (Index.total FileState.entryBag _)
  rw [Index.total, Index.files_mapAll]
  exact Burst.scanFiles_promoted now c.index.files

end Core

end IoScheduling
