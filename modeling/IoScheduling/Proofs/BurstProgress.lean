import IoScheduling.Proofs.Progress

/-! # Bursts come to an end

A selection finds a lane to serve or a cooldown, or it has passed heads that are all too early. A
burst dispatches something or keeps its first head back, and it takes no more rounds than there are
requests. -/
namespace IoScheduling

variable {ω : Type}

namespace Burst

variable {around : Surroundings ω} {deadline now : Nat} {host : Host ω}
  {c c' : Core} {conduct : Conduct} {q : QuantumBounds} {k : Candidate}

theorem lane_scanFile {f : FileState} (scanned : isScanned now f) (d : Direction) :
    ((scanFile now f).lane d).entries = (f.lane d).entries.modify 0 Entry.promote := by
  rw [scanFile, if_pos scanned]
  cases d <;> rfl

theorem stage_modifyLane (c : Core) (k : Candidate) (g : Lane → Lane) :
    (modifyLane c k g).stage = c.stage := by
  unfold modifyLane
  split <;> rfl

theorem lane_modifyLane {f : FileState} (hf : c.index.file? k.file = some f) (g : Lane → Lane) :
    (modifyLane c k g).lane k.file k.direction = (g (f.lane k.direction)).entries := by
  have name : (f.modifyLane k.direction g).file = k.file :=
    (FileState.file_setLane _ _ _).trans (Keyed.mem_of_find? hf).2
  unfold modifyLane
  rw [hf]
  change ((Index.fileOf (c.index.setFile _) k.file).lane k.direction).entries = _
  rw [Index.fileOf_setFile c.index name, if_pos rfl]
  exact congrArg Lane.entries (FileState.lane_setLane _ _ _)

/-- How the decision on a head can end: the lane has one that goes out, or the burst is over. The
first head of a burst is kept back only for some time. -/
inductive Decides (c : Core) (k : Candidate) (dispatched : Nat) : Turn × Core → Prop where
  | dispatch {c' : Core} {e : Entry} : c'.stage = c.stage →
      (c'.lane k.file k.direction)[0]? = some e → Decides c k dispatched (.dispatch, c')
  | stop {c' : Core} {wait : Option Nat} : c'.stage = c.stage → (∀ w, wait = some w → 0 < w) →
      (dispatched = 0 → c.lane k.file k.direction ≠ [] → wait.isSome) →
      Decides c k dispatched (.stop wait, c')

theorem firstTurn_decides {f : FileState} {dispatched : Nat} (q : QuantumBounds) (now : Nat)
    (hf : c.index.file? k.file = some f) {e : Entry}
    (head : (f.lane k.direction).entries[0]? = some e) :
    Decides c k dispatched (firstTurn q k now c) := by
  have still := Core.stage_holdBack c k.file k.direction 0 now
  unfold firstTurn
  split
  · rename_i c₁ wait hw
    rw [hw] at still
    exact .stop still (fun w hw' => Option.some.inj hw' ▸ Core.holdBack_pos hw) fun _ _ => rfl
  · rename_i c₁ hw
    obtain rfl := Core.holdBack_none hw
    refine .dispatch (stage_modifyLane c₁ k _) (e := e) ?_
    rw [lane_modifyLane hf]
    exact head

theorem laterTurn_decides {f : FileState} {dispatched : Nat} (q : QuantumBounds)
    (now consumed : Nat) (later : dispatched ≠ 0) (hf : c.index.file? k.file = some f) {e : Entry}
    (head : (f.lane k.direction).entries[0]? = some e) :
    Decides c k dispatched (laterTurn q k now consumed (f.lane k.direction) c) := by
  have stage := stage_modifyLane c k fun _ => promoteHead (f.lane k.direction)
  have found : ((modifyLane c k fun _ => promoteHead (f.lane k.direction)).lane k.file
      k.direction)[0]? = some e.promote := by
    rw [lane_modifyLane hf]
    change ((f.lane k.direction).entries.modify 0 Entry.promote)[0]? = _
    rw [List.getElem?_modify_eq, head]
    rfl
  unfold laterTurn
  dsimp only
  split
  · exact .stop ((stage_modifyLane _ k _).trans stage) waits_none
      fun first => absurd first later
  · have still := Core.stage_holdBack
      (modifyLane c k fun _ => promoteHead (f.lane k.direction)) k.file k.direction 0 now
    split
    · rename_i c₁ wait hw
      rw [hw] at still
      exact .stop ((stage_modifyLane c₁ k _).trans (still.trans stage))
        (fun w hw' => Option.some.inj hw' ▸ Core.holdBack_pos hw) fun first => absurd first later
    · rename_i c₁ hw
      obtain rfl := Core.holdBack_none hw
      exact .dispatch stage found

theorem turn_decides (q : QuantumBounds) (k : Candidate) (now dispatched consumed : Nat)
    (c : Core) : Decides c k dispatched (turn q k now dispatched consumed c) := by
  unfold turn
  split
  · rename_i unknown
    exact .stop rfl waits_none fun _ used =>
      absurd (Core.lane_unknown unknown) used
  · rename_i f hf
    dsimp only
    split
    · rename_i empty
      refine .stop ?_ waits_none fun _ used => ?_
      · split
        · rfl
        · exact stage_modifyLane c k _
      · rw [Core.lane, Index.fileOf_eq hf] at used
        exact absurd (List.isEmpty_iff.mp empty) used
    · rename_i used
      obtain ⟨e, rest, head⟩ := List.exists_cons_of_ne_nil (mt List.isEmpty_iff.mpr used)
      have head : (f.lane k.direction).entries[0]? = some e := by
        rw [head]
        rfl
      split
      · exact firstTurn_decides q now hf head
      · rename_i later
        exact laterTurn_decides q now consumed later hf head

/-- A burst comes to an end. It has dispatched something or kept its first head back for some time,
if there was a head and the scheduler had not been stopped. -/
theorem serve_ends (quiet : host.Quiet deadline around) (q : QuantumBounds) (k : Candidate)
    {rounds : Nat} (dispatched consumed : Nat) {longest : Nat} {s : Session ω}
    (fit : s.Fit around longest) (enough : s.core.counts.requests < rounds) :
    ∃ o s', serve host q k rounds dispatched consumed s =
        ⟨⟨dispatched + o.dispatched, o.wait⟩, s', true⟩ ∧ Yields around longest s o s' ∧
      (dispatched = 0 → s.core.stopping = false → s.core.lane k.file k.direction ≠ [] →
        o.dispatched ≠ 0 ∨ o.wait.isSome) := by
  induction rounds generalizing dispatched consumed s with
  | zero => exact absurd enough (Nat.not_lt_zero _)
  | succ rounds ih =>
    have read : s.Nears around longest (s.now host).2 := (Session.Nears.refl fit).read quiet
    have promotes := Core.turn_promotes read.fit.core.inStep q k (s.now host).1 dispatched consumed
    have decides := turn_decides q k (s.now host).1 dispatched consumed (s.now host).2.core
    rw [serve]
    split
    · rename_i stopping
      exact ⟨.zero, s, rfl, .nothing (.refl fit),
        fun _ running => absurd (running.symm.trans stopping) Bool.false_ne_true⟩
    dsimp only
    generalize turn q k (s.now host).1 dispatched consumed (s.now host).2.core = result
      at promotes decides
    cases decides with
    | @stop c' wait stage pos first =>
      have noted := read.fit.note promotes stage
      exact ⟨⟨0, wait⟩, _, rfl, ⟨read.trans noted, pos, fun some_out => absurd rfl some_out⟩,
        fun start _ used => .inr (first start used)⟩
    | @dispatch c' e stage found =>
      have noted := read.trans (read.fit.note promotes stage)
      dsimp only
      split
      · rename_i none
        have some_out := Core.dispatch?_isSome found (host.clock (s.now host).2.world).1 .aioli true
        rw [Option.map_eq_none_iff.mp none] at some_out
        cases some_out
      · rename_i requests s'' hd
        obtain ⟨went, less⟩ := noted.fit.dispatch? quiet hd
        have delivered := (Session.Nears.refl went.fit).deliver quiet requests .aioli
        have fewer := (Core.counts_le delivered.effort_le.2).trans_lt
          (less.trans_le (Core.counts_le noted.effort_le.2))
        have whole := noted.trans (went.trans delivered)
        obtain ⟨o, s', same, yields, -⟩ := ih (dispatched + 1)
          (satAdd consumed (s''.core.setup.accessTime (bytesOf requests) k.direction))
          delivered.fit (by omega)
        refine ⟨⟨o.dispatched + 1, o.wait⟩, s', ?_, ?_, fun _ _ _ => .inl (Nat.succ_ne_zero _)⟩
        · rw [same, Nat.add_assoc, Nat.add_comm 1]
        · have less := whole.effort_lt fewer
          exact ⟨whole.trans yields.toNears, yields.waits,
            fun _ => yields.effort_le.trans_lt less⟩

theorem serve_stable (q : QuantumBounds) (k : Candidate) {rounds : Nat} (more : Nat)
    {dispatched consumed : Nat} {s : Session ω}
    (closed : (serve host q k rounds dispatched consumed s).finished = true) :
    serve host q k (rounds + more) dispatched consumed s =
      serve host q k rounds dispatched consumed s := by
  induction rounds generalizing dispatched consumed s with
  | zero => cases closed
  | succ rounds ih =>
    rw [Nat.succ_add]
    rw [serve] at closed
    rw [serve, serve]
    split
    · rfl
    · rename_i running
      rw [if_neg running] at closed
      dsimp only at closed ⊢
      split
      · rfl
      · rename_i c hc
        rw [hc] at closed
        dsimp only at closed
        split
        · rfl
        · rename_i requests s'' hd
          rw [hd] at closed
          exact ih closed

/-- Serving takes no more rounds than there are requests, so a larger limit does not show. -/
theorem serve_settles (quiet : host.Quiet deadline around) (q : QuantumBounds) (k : Candidate)
    {longest : Nat} {s : Session ω} (fit : s.Fit around longest)
    (running : s.core.stopping = false) (used : s.core.lane k.file k.direction ≠ []) :
    ∃ o s' least, (∀ limit ≥ least, serve host q k limit 0 0 s = ⟨o, s', true⟩) ∧
      Yields around longest s o s' ∧ (o.dispatched ≠ 0 ∨ o.wait.isSome) := by
  obtain ⟨o, s', served, yields, fruitful⟩ :=
    serve_ends quiet q k 0 0 fit (Nat.lt_succ_self _)
  rw [Nat.zero_add] at served
  refine ⟨o, s', s.core.counts.requests + 1, fun limit large => ?_, yields,
    fruitful rfl running used⟩
  obtain ⟨more, rfl⟩ := Nat.exists_eq_add_of_le large
  rw [serve_stable q k more (by rw [served]), served]

theorem select_pos {quantumBytes : Nat} {x : Index} {w : Nat}
    (h : (select quantumBytes now x).2.1 = some w) : 0 < w := by
  obtain ⟨f, -, hf⟩ := List.mem_filterMap.mp (List.min?_mem h)
  exact FileState.cooldown?_pos hf

theorem select_lane (h : c.InStep) {quantumBytes : Nat}
    (hk : (select quantumBytes now c.index).1 = some k) :
    Core.lane { c with index := (select quantumBytes now c.index).2.2 } k.file k.direction ≠
      [] := by
  obtain ⟨⟨g, d⟩, hg, offer⟩ := List.mem_filterMap.mp (firstLeast_mem hk)
  obtain ⟨f, hf, rfl⟩ := List.mem_map.mp (mem_lanesOf.mp hg)
  obtain ⟨e, head, rfl⟩ := Option.map_eq_some_iff.mp offer
  have stored := Index.mem_files_of_active (List.mem_filter.mp hf).1
  have head := (Option.filter_eq_some_iff.mp head).1
  change ((Index.fileOf (scanIndex now c.index) (scanFile now f).file).lane d).entries ≠ []
  rw [scanIndex_eq h.index, (alike_scanFile now f).file,
    Index.fileOf_mapAll c.index (fun f => (alike_scanFile now f).file) rfl (fun _ => rfl),
    Index.fileOf_of_mem h.index.placed stored]
  exact List.ne_nil_of_mem (List.mem_of_mem_head? head)

theorem select_early {longest : Nat} (fit : c.Fit conduct longest) (waiting : c.counts.requests ≠ 0)
    {quantumBytes : Nat} (no_candidate : (select quantumBytes now c.index).1 = none)
    (no_wait : (select quantumBytes now c.index).2.1 = none) :
    ∃ e ∈ scannedHeads now c.index.files, ¬ e.promote.eligible quantumBytes := by
  obtain ⟨a, ha, some_wait⟩ := fit.inStep.exists_bucket fit.bucketed waiting
  obtain ⟨f, hf, d, used⟩ := fit.inStep.exists_lane ha some_wait
  have active : f ∈ c.index.activeFiles :=
    List.mem_flatMap.mpr ⟨a, List.mem_filter.mpr ⟨ha, by simpa using some_wait⟩, hf⟩
  obtain ⟨e, rest, head⟩ := List.exists_cons_of_ne_nil used
  have busy : f.isIdle = false := by
    cases d <;> simp_all [FileState.isIdle, FileState.lane]
  have awake : f.cooldown? now = none := by
    cases cooling : f.cooldown? now with
    | none => rfl
    | some left =>
      have there : left ∈ (c.index.activeFiles.filter fun f => !f.isIdle).filterMap
          (·.cooldown? now) :=
        List.mem_filterMap.mpr ⟨f, List.mem_filter.mpr ⟨active, by simp [busy]⟩, cooling⟩
      rw [List.min?_eq_none_iff.mp no_wait] at there
      exact absurd there List.not_mem_nil
  have scanned : isScanned now f := by simp [isScanned, busy, awake]
  refine ⟨e, ?_, fun eligible => ?_⟩
  · refine List.mem_flatMap.mpr ⟨f, List.mem_filter.mpr
      ⟨Index.mem_files_of_active active, scanned⟩, ?_⟩
    cases d <;> simp_all [FileState.heads, FileState.lane]
  · have offer : offer? quantumBytes (scanFile now f, d) =
        some ⟨e.promote.earliestArrival, (scanFile now f).file, d⟩ := by
      simp [offer?, lane_scanFile scanned, head, eligible]
    have there := List.mem_filterMap.mpr ⟨(scanFile now f, d), mem_lanesOf.mpr
      (List.mem_map_of_mem (List.mem_filter.mpr ⟨active, scanned⟩)), offer⟩
    obtain ⟨k, hk, -⟩ := exists_firstLeast (f := Candidate.arrival) there
    rw [select] at no_candidate
    dsimp only at no_candidate
    rw [hk] at no_candidate
    cases no_candidate

/-- How a selection can end: it finds a lane to serve, or a cooldown, or it makes the effort
smaller. -/
inductive Selects (c : Core) : Option Candidate × Option Nat × Index → Prop where
  | found {k : Candidate} {wait : Option Nat} {x : Index} :
      Core.lane { c with index := x } k.file k.direction ≠ [] → Selects c (some k, wait, x)
  | cools {w : Nat} {x : Index} : 0 < w → Selects c (none, some w, x)
  | promotes {x : Index} : Core.effort { c with index := x } < c.effort → Selects c (none, none, x)

theorem select_selects {quantumBytes : Nat} (fit : c.Fit conduct (coverage quantumBytes))
    (waiting : c.counts.requests ≠ 0) (now : Nat) :
    Selects c (select quantumBytes now c.index) := by
  have lane {k : Candidate} (hk : (select quantumBytes now c.index).1 = some k) :=
    select_lane fit.inStep hk
  have pos {w : Nat} (hw : (select quantumBytes now c.index).2.1 = some w) := select_pos hw
  have promotes := Core.select_promotes fit.inStep quantumBytes now
  have early (no_candidate : (select quantumBytes now c.index).1 = none)
      (no_wait : (select quantumBytes now c.index).2.1 = none) :=
    select_early fit waiting no_candidate no_wait
  generalize select quantumBytes now c.index = selected at lane pos promotes early
  obtain ⟨candidate, wait, x⟩ := selected
  cases candidate with
  | some k => exact .found (lane rfl)
  | none =>
    cases wait with
    | some w => exact .cools (pos rfl)
    | none =>
      obtain ⟨e, he, early⟩ := early rfl rfl
      exact .promotes (fit.effort_promotes_lt promotes he early)

section Rounds

variable {s s₁ s' : Session ω} {x : Index} (limit rounds dispatched : Nat)
  (next : s.shouldYield host deadline = (false, s₁))

include next

theorem loop_of_cools {w : Nat}
    (selected : select q.quantumBytes (s₁.now host).1 (s₁.now host).2.core.index =
      (none, some w, x)) :
    loop host q limit deadline (rounds + 1) dispatched s =
      ⟨⟨dispatched, some w⟩, (s₁.now host).2.mapCore fun c => { c with index := x }, true⟩ := by
  rw [loop, next]
  dsimp only
  rw [selected]
  rfl

theorem loop_of_promotes
    (selected : select q.quantumBytes (s₁.now host).1 (s₁.now host).2.core.index =
      (none, none, x)) :
    loop host q limit deadline (rounds + 1) dispatched s =
      loop host q limit deadline rounds dispatched
        ((s₁.now host).2.mapCore fun c => { c with index := x }) := by
  rw [loop, next]
  dsimp only
  rw [selected]
  rfl

theorem loop_of_found {wait : Option Nat} {o : Outcome}
    (selected : select q.quantumBytes (s₁.now host).1 (s₁.now host).2.core.index =
      (some k, wait, x))
    (served : serve host q k limit 0 0 ((s₁.now host).2.mapCore fun c => { c with index := x }) =
      ⟨o, s', true⟩) :
    loop host q limit deadline (rounds + 1) dispatched s =
      if o.dispatched = 0 ∧ o.wait.isSome then ⟨⟨dispatched + o.dispatched, o.wait⟩, s', true⟩
      else loop host q limit deadline rounds (dispatched + o.dispatched) s' := by
  rw [loop, next]
  dsimp only
  rw [selected]
  dsimp only
  rw [served]
  rfl

end Rounds

theorem loop_ends (quiet : host.Quiet deadline around) (q : QuantumBounds) {s : Session ω}
    (fit : s.Fit around (coverage q.quantumBytes)) (dispatched : Nat) :
    ∃ least, ∀ limit ≥ least, ∀ rounds ≥ least,
      Ended around.toConduct (loop host q limit deadline rounds dispatched s) := by
  -- The induction is on the effort, which every round makes smaller that does not end the loop.
  induction he : s.effort around using WellFoundedLT.induction generalizing s dispatched with
  | _ effort ih =>
  by_cases done : s.core.isDone = true
  · refine ⟨1, fun limit _ rounds enough => ?_⟩
    obtain ⟨rounds, rfl⟩ := Nat.exists_eq_add_of_le' enough
    rw [loop, Session.shouldYield_done host deadline done]
    exact ⟨rfl, (fit.core.done done).imp_right .inr⟩
  have undone : s.core.isDone = false := Bool.not_eq_true _ ▸ done
  obtain ⟨running, waiting⟩ := Core.waiting_of_undone undone
  have next := Session.shouldYield_undone undone (quiet.clock s.world fit.possible).1
  have read := ((Session.Nears.refl fit).read quiet).read quiet
  have promotes := Core.select_promotes read.fit.core.inStep q.quantumBytes
    ((s.now host).2.now host).1
  have noted := read.fit.note promotes rfl
  have selects := select_selects read.fit.core waiting ((s.now host).2.now host).1
  generalize selected : select q.quantumBytes ((s.now host).2.now host).1
    ((s.now host).2.now host).2.core.index = result at noted selects
  cases selects with
  | @cools w x pos =>
    refine ⟨1, fun limit _ rounds enough => ?_⟩
    obtain ⟨rounds, rfl⟩ := Nat.exists_eq_add_of_le' enough
    rw [loop_of_cools limit rounds dispatched next selected]
    exact ⟨rfl, .inr (.inl ⟨w, rfl, pos⟩)⟩
  | @promotes x less =>
    have less : Session.effort around { ((s.now host).2.now host).2 with
        core := { ((s.now host).2.now host).2.core with index := x } } < s.effort around :=
      lt_of_lt_of_le (Prod.mk_lt_mk.mpr (.inr ⟨le_rfl, less⟩)) read.effort_le
    obtain ⟨least, h⟩ := ih _ (he ▸ less) noted.fit dispatched rfl
    refine ⟨least + 1, fun limit large rounds enough => ?_⟩
    obtain ⟨rounds, rfl⟩ := Nat.exists_eq_add_of_le' (Nat.le_of_add_left_le enough)
    rw [loop_of_promotes limit rounds dispatched next selected]
    exact h limit (by omega) rounds (by omega)
  | @found k wait x used =>
    obtain ⟨o, s', least, served, yields, fruitful⟩ :=
      serve_settles quiet q k noted.fit running used
    by_cases ends : o.dispatched = 0 ∧ o.wait.isSome
    · refine ⟨least + 1, fun limit large rounds enough => ?_⟩
      obtain ⟨rounds, rfl⟩ := Nat.exists_eq_add_of_le' (Nat.le_of_add_left_le enough)
      obtain ⟨w, hw⟩ := Option.isSome_iff_exists.mp ends.2
      have served := served limit (by omega)
      rw [loop_of_found limit rounds dispatched next selected served, if_pos ends]
      exact ⟨rfl, .inr (.inl ⟨w, hw, yields.waits w hw⟩)⟩
    · have less : s'.effort around < s.effort around := by
        refine (yields.spent fun none_out => ?_).trans_le (noted.effort_le.trans read.effort_le)
        exact ends ⟨none_out, fruitful.resolve_left (absurd none_out)⟩
      obtain ⟨later, h⟩ := ih _ (he ▸ less) yields.fit (dispatched + o.dispatched) rfl
      refine ⟨max least later + 1, fun limit large rounds enough => ?_⟩
      obtain ⟨rounds, rfl⟩ := Nat.exists_eq_add_of_le' (Nat.le_of_add_left_le enough)
      have served := served limit (by omega)
      rw [loop_of_found limit rounds dispatched next selected served, if_neg ends]
      exact h limit (by omega) rounds (by omega)

end Burst

end IoScheduling
