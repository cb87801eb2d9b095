import IoScheduling.Proofs.ShortestFirst
import IoScheduling.Proofs.Termination
import IoScheduling.Service.Checksum

/-! # Draining

The policies that promote nothing go on until nothing is pending. What was pending when such a
policy was called is at any time made up of the entries handed over so far, those about to be handed
over, and those that still wait; the caller's code neither adds to it nor takes from it. -/
namespace IoScheduling

namespace Index

variable {x y : Index}

theorem hash_detach? {name : String} {d : Direction} {i : Nat} {e : Entry}
    (h : x.detach? name d i = some (e, y)) : y.hash = x.hash := by
  obtain ⟨⟨o, b, c⟩, -, same⟩ := Option.map_eq_some_iff.mp h
  rw [← (Prod.mk.inj same).2]
  rfl

theorem hash_release {a : Address} {r : HandedOut} (h : x.release a = .ok (r, y)) :
    y.hash = x.hash := by
  unfold release at h
  split at h
  · rw [← (Prod.mk.inj (Except.ok.inj h)).2]
    rfl
  · cases h

end Index

namespace Core

structure Framed (stops : Prop) (c c' : Core) : Prop where
  setup : c'.setup = c.setup
  active : c'.active = c.active
  size : c'.index.size = c.index.size
  hash : c'.index.hash = c.index.hash
  running : ¬ stops → c'.stopping = c.stopping

variable {stops : Prop} {c c' c'' : Core} {now : Nat} {k : PolicyKind} {requests : List Request}
  {file : String} {d : Direction} {i : Nat}

theorem Framed.refl (c : Core) : Framed stops c c := ⟨rfl, rfl, rfl, rfl, fun _ => rfl⟩

theorem Framed.trans (h : Framed stops c c') (h' : Framed stops c' c'') : Framed stops c c'' where
  setup := h'.setup.trans h.setup
  active := h'.active.trans h.active
  size := h'.size.trans h.size
  hash := h'.hash.trans h.hash
  running never := (h'.running never).trans (h.running never)

theorem Framed.slotOf (h : Framed stops c c') (file : String) :
    c'.index.slotOf file = c.index.slotOf file := by
  rw [Index.slotOf, Index.slotOf, h.size, h.hash]

theorem hash_complete (c : Core) (now : Nat) (a : Address) :
    (c.complete now a).1.index.hash = c.index.hash := by
  obtain ⟨r, x, signal, hr, form⟩ | ⟨fault, -, form⟩ := c.complete_cases now a
  · rw [form, ← Index.hash_release hr]
    change (c.settledIndex now a r x).hash = x.hash
    unfold settledIndex noteGrantRelease
    split
    · split <;> rfl
    · rfl
  · rw [form]
    split <;> rfl

theorem complete_framed (h : c.InStep) (now : Nat) (a : Address) :
    Framed stops c (c.complete now a).1 := by
  have stage := stage_complete c now a
  have hash := hash_complete c now a
  have completed := complete_effect h now a
  generalize (c.complete now a).1 = c' at stage hash completed
  have setup : c'.setup = c.setup := by
    cases completed with
    | released signal form => rw [form]
    | unknown ledger => rfl
  exact ⟨setup, congrArg Stage.active stage, congrArg Stage.buckets stage, hash,
    fun _ => congrArg Stage.stopping stage⟩

theorem Quiet.leaves (call : Quiet ⟨False, stops⟩ c c') (h : c.InStep) :
    c'.InStep ∧ Framed stops c c' ∧ c'.entryBag = c.entryBag := by
  cases call with
  | settle | force | noticed => exact ⟨h, ⟨rfl, rfl, rfl, rfl, fun _ => rfl⟩, rfl⟩
  | complete now a =>
    refine ⟨?_, complete_framed h now a, complete_entryBag h now a⟩
    have completed := complete_effect h now a
    generalize (c.complete now a).1 = c' at completed
    cases completed with
    | released signal form inStep => exact inStep
    | unknown ledger => exact h
  | cancel withdraws => exact withdraws.elim
  | stop stops => exact ⟨h, ⟨rfl, rfl, rfl, rfl, absurd stops⟩, rfl⟩
  | reset =>
    exact ⟨(resetStatistics_effect h).1, ⟨rfl, rfl, rfl, rfl, fun _ => rfl⟩,
      congrArg (· + _) (Index.resetTallies_entryBag _)⟩

theorem quiet_leaves (calls : Relation.ReflTransGen (Quiet ⟨False, stops⟩) c c') (h : c.InStep) :
    c'.InStep ∧ Framed stops c c' ∧ c'.entryBag = c.entryBag := by
  induction calls with
  | refl => exact ⟨h, .refl c, rfl⟩
  | tail _ call ih =>
    obtain ⟨inStep, framed, entries⟩ := ih
    obtain ⟨inStep', framed', entries'⟩ := call.leaves inStep
    exact ⟨inStep', framed.trans framed', entries'.trans entries⟩

theorem dispatch?_framed {inQuantum : Bool} (h : c.InStep)
    (hd : c.dispatch? now file d i k inQuantum = some (requests, c')) : Framed stops c c' := by
  have stage := stage_dispatch? hd
  have setup : c'.setup = c.setup := by
    obtain ⟨x, t, form⟩ := (dispatch?_effect h hd).frame
    rw [form]
  obtain ⟨⟨e, x⟩, hx, same⟩ := Option.map_eq_some_iff.mp hd
  have hash : c'.index.hash = c.index.hash := by
    rw [← Index.hash_detach? hx, ← (Prod.mk.inj same).2]
    rfl
  exact ⟨setup, congrArg Stage.active stage, congrArg Stage.buckets stage, hash,
    fun _ => congrArg Stage.stopping stage⟩

theorem dispatchHead?_framed (hd : c.dispatchHead? now k = some (requests, c')) :
    Framed stops c c' := by
  obtain ⟨e, -, same⟩ := Option.map_eq_some_iff.mp hd
  rw [← (Prod.mk.inj same).2]
  exact ⟨rfl, rfl, rfl, rfl, fun _ => rfl⟩

theorem InStep.nothing_left (h : c.InStep) (none : c.counts.requests = 0) : c.entryBag = 0 := by
  rw [h.counts_eq, Multiset.card_eq_zero] at none
  refine Multiset.eq_zero_of_forall_notMem fun e he => ?_
  have first : e.first.bare ∈ c.pending := by
    refine mem_pending he (List.mem_map.mpr ⟨e.first, ?_, rfl⟩)
    cases e <;> exact List.mem_cons_self
  rw [none] at first
  exact Multiset.notMem_zero _ first

theorem InStep.counts_zero (h : c.InStep) (none : c.entryBag = 0) : c.counts = ⟨0, 0⟩ := by
  have requests : c.counts.requests = 0 := by
    rw [h.counts_eq, pending, ← bareBag_inLanes, ← bareBag_onTimeline, ← bareBag_append, card_bareBag,
      ← Multiset.coe_card, ← requestBag_entryBag, none]
    rfl
  have total : c.index.total FileState.pending = 0 := h.counted.requests.symm.trans requests
  have live : c.index.total FileState.live = 0 := by
    refine List.sum_eq_zero fun n hn => ?_
    obtain ⟨f, hf, rfl⟩ := List.mem_map.mp hn
    exact FileState.live_eq_zero (List.sum_eq_zero_iff.mp total _ (List.mem_map_of_mem hf))
  calc c.counts = ⟨c.counts.requests, c.counts.files⟩ := rfl
    _ = ⟨0, 0⟩ := by rw [requests, show c.counts.files = 0 from h.counted.files.trans live]

theorem InStep.mem_lane_of_bucketed (h : c.InStep) (bucketed : c.active.profile.bucketed) {e : Entry}
    (he : e ∈ c.entryBag) : e ∈ c.lane e.file e.direction := by
  have unused := h.unused
  rw [if_pos bucketed] at unused
  have empty : c.timeline.entries = [] := entries_eq_nil unused
  rw [entryBag, empty, Multiset.coe_nil, add_zero, ← Index.coe_entries] at he
  exact h.mem_lane he

theorem dispatch?_lanes {inQuantum : Bool}
    (hd : c.dispatch? now file d i k inQuantum = some (requests, c')) :
    c'.lane file d = (c.lane file d).eraseIdx i ∧
      ∀ file' d', (file', d') ≠ (file, d) → c'.lane file' d' = c.lane file' d' := by
  obtain ⟨⟨e, x⟩, hx, same⟩ := Option.map_eq_some_iff.mp hd
  obtain ⟨-, rfl⟩ := Prod.mk.inj same
  obtain ⟨l, hl, exchanges⟩ := Index.detach?_exchanges hx
  have recorded : ∀ file' d', Core.lane
      (({ c with index := x } : Core).recordDispatch now file e k inQuantum) file' d' =
        (x.lane file' d').entries := by
    intro file' d'
    let g := (x.fileOf file).recordDispatch e now inQuantum k.profile.synchronous
    have name : g.file = file := (FileState.file_setLane _ _ _).trans (Index.file_fileOf x file)
    have entries : (g.lane d').entries = (x.lane file d').entries := by
      by_cases own : d' = e.direction
      · rw [own]
        change (((x.fileOf file).modifyLane e.direction _).lane e.direction).entries = _
        rw [FileState.modifyLane, FileState.lane_setLane]
        rfl
      · exact congrArg Lane.entries (FileState.lane_setLane_of_ne _ _ own)
    change (((x.setFile g).fileOf file').lane d').entries = _
    rw [Index.fileOf_setFile x name]
    split
    · rename_i here
      rw [here, entries]
    · rfl
  constructor
  · rw [recorded, exchanges.here, (Lane.detach?_some hl).2]
    rfl
  · intro file' d' other
    rw [recorded, exchanges.elsewhere file' d' other]
    rfl

end Core

theorem Index.slotOf_lt {x : Index} (h : 0 < x.size) (file : String) : x.slotOf file < x.size :=
  Nat.mod_lt _ h

theorem Index.stepOf_zero {x : Index} {i : Nat} (h : i < x.size) : x.stepOf 0 i = i := by
  rw [stepOf, Nat.sub_zero, Nat.add_mod_right, Nat.mod_eq_of_lt h]

/-- The buckets to which a round from bucket 0 on may come next. -/
def Index.ahead (x : Index) (step : Nat) : List Nat :=
  (x.buckets.filter fun (i, b) => b.pending != 0 && step ≤ x.stepOf 0 i).map (·.1)

theorem Core.InStep.ahead {c : Core} (h : c.InStep) (bucketed : c.active.profile.bucketed)
    (buckets : 0 < c.index.size) {e : Entry} (he : e ∈ c.entryBag) {step : Nat}
    (later : step ≤ c.index.slotOf e.file) : c.index.slotOf e.file ∈ c.index.ahead step := by
  have waits := h.mem_lane_of_bucketed bucketed he
  obtain ⟨b, hb, -, active⟩ := h.bucket_of_lane (List.ne_nil_of_mem waits)
  refine List.mem_map.mpr ⟨_, List.mem_filter.mpr ⟨hb, ?_⟩, rfl⟩
  rw [← Index.stepOf_zero (Index.slotOf_lt buckets e.file)] at later
  simpa [active] using later

theorem Core.InStep.of_ahead {c : Core} (h : c.InStep) (buckets : 0 < c.index.size)
    {i step : Nat} (hi : i ∈ c.index.ahead step) :
    (c.index.bucket i).pending ≠ 0 ∧ c.index.stepOf 0 i = i := by
  obtain ⟨⟨j, b⟩, hb, rfl⟩ := List.mem_map.mp hi
  obtain ⟨hb, active⟩ := List.mem_filter.mp hb
  have bucket := Index.bucket_of_mem h.index.placed hb
  have some_pending : b.pending ≠ 0 := by simpa using (Bool.and_eq_true_iff.mp active).1
  obtain ⟨f, hf, -⟩ := h.exists_lane hb some_pending
  have number : c.index.slotOf f.file = j := h.index.placed.slot _ hb f hf
  refine ⟨by rwa [bucket], Index.stepOf_zero ?_⟩
  rw [← number]
  exact Index.slotOf_lt buckets f.file

variable {ω : Type}

/-- The same host, with a list of all that the caller's code has been handed. -/
def Host.recorded (host : Host ω) : Host (ω × List Handover) where
  clock w := ((host.clock w.1).1, (host.clock w.1).2, w.2)
  handOver h s :=
    let t := host.handOver h ⟨s.core, s.world.1⟩
    ⟨t.core, t.world, s.world.2 ++ [h]⟩
  awaitRelease s :=
    let t := host.awaitRelease ⟨s.core, s.world.1⟩
    ⟨t.core, t.world, s.world.2⟩
  awaitWork n s :=
    let t := host.awaitWork n ⟨s.core, s.world.1⟩
    ⟨t.core, t.world, s.world.2⟩
  busy w := host.busy w.1
  roll w := ((host.roll w.1).1, (host.roll w.1).2, w.2)

/-- As long as the world is possible, the clock stays below the deadline, and the caller's code
neither submits nor withdraws; nor does it migrate or dispatch. -/
structure Host.Passive (host : Host ω) (deadline : Nat) (stops : Prop) (possible : ω → Prop) :
    Prop where
  clock : ∀ w, possible w → (host.clock w).1 < deadline ∧ possible (host.clock w).2
  handOver : ∀ h s, possible s.world → possible (host.handOver h s).world ∧
    Relation.ReflTransGen (Core.Quiet ⟨False, stops⟩) s.core (host.handOver h s).core

theorem Host.passive_meanwhile {f : Core → Core} {deadline : Nat} {stops : Prop}
    (early : 0 < deadline) (call : ∀ c, Core.Quiet ⟨False, stops⟩ c (f c)) :
    (meanwhile f).Passive deadline stops fun _ => True where
  clock _ _ := ⟨early, trivial⟩
  handOver h s _ := ⟨trivial, ((quiet_meanwhile early call).handOver h s trivial).calls⟩

/-- Since the start at `c`, the entries `out` have been handed over one after another; `ready` have
been dispatched and are about to be handed over. -/
structure Drains (stops : Prop) (possible : ω → Prop) (c : Core) (out ready : List Entry)
    (s : Session (ω × List Handover)) : Prop where
  inStep : s.core.InStep
  framed : Core.Framed stops c s.core
  entries : c.entryBag = ↑(out ++ ready) + s.core.entryBag
  log : s.world.2 = out.flatMap fun e => c.setup.callbacks.handovers e.requests
  possible : possible s.world.1

namespace Drains

variable {stops : Prop} {possible : ω → Prop} {c : Core} {out ready : List Entry}
  {s s' : Session (ω × List Handover)} {host : Host ω} {deadline : Nat} {k : PolicyKind}
  {requests : List Request}

theorem start {w : ω} (h : c.InStep) (hw : possible w) :
    Drains stops possible c [] [] ⟨c, w, []⟩ :=
  ⟨h, .refl c, (zero_add _).symm, rfl, hw⟩

theorem read (h : Drains stops possible c out ready s)
    (passive : host.Passive deadline stops possible) :
    Drains stops possible c out ready (s.now host.recorded).2 :=
  { h with possible := (passive.clock _ h.possible).2 }

theorem take (h : Drains stops possible c out ready s) {c' : Core} {e : Entry}
    (inStep : c'.InStep) (framed : Core.Framed stops s.core c')
    (left : s.core.entryBag = e ::ₘ c'.entryBag) :
    Drains stops possible c out (ready ++ [e]) { s with core := c' } where
  inStep := inStep
  framed := h.framed.trans framed
  entries := by
    rw [h.entries, left, ← List.append_assoc, ← Multiset.coe_add _ [e], add_assoc,
      Multiset.coe_singleton, Multiset.singleton_add]
  log := h.log
  possible := h.possible

theorem dispatch (h : Drains stops possible c out ready s)
    (passive : host.Passive deadline stops possible) {file : String} {d : Direction} {i : Nat}
    {inQuantum : Bool}
    (hd : s.dispatch? host.recorded file d i k inQuantum = some (requests, s')) :
    ∃ e, e.requests = requests ∧ Drains stops possible c out (ready ++ [e]) s' ∧
      s'.core.lane file d = (s.core.lane file d).eraseIdx i ∧
      ∀ file' d', (file', d') ≠ (file, d) → s'.core.lane file' d' = s.core.lane file' d' := by
  obtain ⟨⟨rs, c'⟩, went, same⟩ := Option.map_eq_some_iff.mp hd
  obtain ⟨rfl, rfl⟩ := Prod.mk.inj same
  obtain ⟨e, own, left⟩ := Core.dispatch?_entryBag h.inStep went
  exact ⟨e, own, (h.read passive).take (Core.dispatch?_effect h.inStep went).inStep
    (Core.dispatch?_framed h.inStep went) left, Core.dispatch?_lanes went⟩

theorem dispatchHead (h : Drains stops possible c out ready s)
    (passive : host.Passive deadline stops possible)
    (hd : s.dispatchHead? host.recorded k = some (requests, s')) :
    ∃ e, e.requests = requests ∧ Drains stops possible c out (ready ++ [e]) s' := by
  obtain ⟨⟨rs, c'⟩, went, same⟩ := Option.map_eq_some_iff.mp hd
  obtain ⟨rfl, rfl⟩ := Prod.mk.inj same
  obtain ⟨e, own, left⟩ := Core.dispatchHead?_entryBag h.inStep went
  exact ⟨e, own, (h.read passive).take (Core.dispatchHead?_effect h.inStep went).inStep
    (Core.dispatchHead?_framed went) left⟩

theorem foldl_handOver (passive : host.Passive deadline stops possible) (hs : List Handover)
    (possible_s : possible s.world.1) :
    let t := hs.foldl (fun s h => host.recorded.handOver h s) s
    possible t.world.1 ∧ t.world.2 = s.world.2 ++ hs ∧
      Relation.ReflTransGen (Core.Quiet ⟨False, stops⟩) s.core t.core := by
  induction hs generalizing s with
  | nil => exact ⟨possible_s, (List.append_nil _).symm, .refl⟩
  | cons h rest ih =>
    obtain ⟨possible_t, calls⟩ := passive.handOver h ⟨s.core, s.world.1⟩ possible_s
    obtain ⟨possible_u, log, later⟩ := ih (s := host.recorded.handOver h s) possible_t
    refine ⟨possible_u, log.trans ?_, calls.trans later⟩
    exact List.append_assoc _ _ _

theorem deliver {e : Entry} (h : Drains stops possible c out (e :: ready) s)
    (passive : host.Passive deadline stops possible) (alone : k.profile.synchronous = false) :
    Drains stops possible c (out ++ [e]) ready (s.deliver host.recorded e.requests k) := by
  have some_requests : e.requests.isEmpty = false := by cases e <;> rfl
  have form : s.deliver host.recorded e.requests k = s.handOver host.recorded e.requests := by
    unfold Session.deliver
    rw [some_requests, alone]
    rfl
  obtain ⟨possible', log, calls⟩ := foldl_handOver passive
    (s.core.setup.callbacks.handovers e.requests) h.possible
  obtain ⟨inStep, framed, entries⟩ := Core.quiet_leaves calls h.inStep
  rw [form, Session.handOver]
  refine ⟨inStep, h.framed.trans framed, ?_, log.trans ?_, possible'⟩
  · rw [entries, List.append_assoc]
    exact h.entries
  · rw [h.log, h.framed.setup, List.flatMap_append]
    exact congrArg _ (List.append_nil _).symm

theorem deliverAll (h : Drains stops possible c out ready s)
    (passive : host.Passive deadline stops possible) (alone : k.profile.synchronous = false) :
    Drains stops possible c (out ++ ready) []
      ((ready.map Entry.requests).foldl (fun s requests => s.deliver host.recorded requests k) s) := by
  induction ready generalizing out s with
  | nil => rwa [List.append_nil]
  | cons e rest ih =>
    have next := ih (h.deliver passive alone)
    rwa [List.append_assoc] at next

theorem card_eq (h : Drains stops possible c out [] s) :
    out.length + s.core.entryBag.card = c.entryBag.card := by
  rw [h.entries, Multiset.card_add, List.append_nil, Multiset.coe_card]

theorem left_of_later {more : List Entry} (h : Drains stops possible c out [] s)
    (later : Drains stops possible c (out ++ more) [] s') :
    s.core.entryBag = ↑more + s'.core.entryBag := by
  have both := h.entries.symm.trans later.entries
  rw [List.append_nil, List.append_nil, ← Multiset.coe_add, add_assoc] at both
  exact add_left_cancel both

theorem bucketed (h : Drains stops possible c out ready s) (used : c.active.profile.bucketed) :
    s.core.active.profile.bucketed := by
  rw [h.framed.active]
  exact used

end Drains

/-- The policy has come to its end and named no time to wait. Of what was pending at `c` it has
handed over the entries `out`, and they are all, unless the scheduler has been stopped. -/
def Exhausts (stops : Prop) (possible : ω → Prop) (c : Core)
    (r : Scheduled (ω × List Handover)) : Prop :=
  r.finished = true ∧ ∃ out, r.outcome = ⟨out.length, none⟩ ∧
    Drains stops possible c out [] r.session ∧
    (r.session.core.entryBag = 0 ∨ r.session.core.stopping = true)

theorem Core.InStep.done {c : Core} (h : c.InStep) (done : c.isDone = true) :
    c.entryBag = 0 ∨ c.stopping = true := by
  rcases Bool.or_eq_true_iff.mp done with stopping | empty
  · exact .inr stopping
  · exact .inl (h.nothing_left (beq_iff_eq.mp empty))

variable {stops : Prop} {possible : ω → Prop} {c : Core} {out ready : List Entry}
  {s : Session (ω × List Handover)} {host : Host ω} {deadline : Nat} {k : PolicyKind}

namespace Shortest

theorem select_waiting {c : Core} (h : c.InStep) (used : c.active.profile.bucketed)
    (waiting : c.counts.requests ≠ 0) :
    ∃ choice, select c.index = some choice ∧ 0 < choice.entries ∧
      c.lane choice.file choice.direction ≠ [] := by
  obtain ⟨f, hf, some_wait⟩ := h.exists_file used waiting
  obtain ⟨d, waits⟩ := FileState.exists_lane (h.index.stored hf) some_wait
  have choices := selects h
  cases choose : select c.index with
  | none =>
    have empty := choices.idle.mp choose f.file d
    rw [Index.lane, Index.fileOf_of_mem h.index.placed hf] at empty
    exact absurd empty waits
  | some choice =>
    obtain ⟨offered, -⟩ := (choices.chosen choice).mp choose
    refine ⟨choice, rfl, ?_, offered.waits⟩
    rw [offered.entries]
    exact List.length_pos_iff.mpr offered.waits

theorem serve_drains (passive : host.Passive deadline stops possible)
    (alone : k.profile.synchronous = false) (choice : Choice) (batch n : Nat)
    (h : Drains stops possible c out [] s) :
    let r := serve host.recorded k choice batch n s
    ∃ more, r.1 = n + more.length ∧ Drains stops possible c (out ++ more) [] r.2 ∧
      (0 < batch → s.core.lane choice.file choice.direction ≠ [] → more ≠ []) := by
  induction batch generalizing n out s with
  | zero => exact ⟨[], rfl, by rwa [List.append_nil], fun some => absurd some (lt_irrefl 0)⟩
  | succ batch ih =>
    cases head : (s.core.lane choice.file choice.direction).head? with
    | none =>
      have empty := List.head?_eq_none_iff.mp head
      rw [serve_empty host.recorded k _ n empty]
      exact ⟨[], rfl, by rwa [List.append_nil], fun _ => absurd empty⟩
    | some e =>
      obtain ⟨t, hd, -, form⟩ := serve_head host.recorded k h.inStep batch n head
      obtain ⟨o, own, taken, -⟩ := h.dispatch passive hd
      have handed := taken.deliver passive alone
      rw [form, ← own]
      split
      · exact ⟨[o], rfl, handed, fun _ _ => List.cons_ne_nil o []⟩
      · obtain ⟨more, count, drains, -⟩ := ih (n + 1) handed
        refine ⟨o :: more, ?_, ?_, fun _ _ => List.cons_ne_nil o more⟩
        · rw [count, List.length_cons]
          omega
        · rwa [List.append_assoc] at drains

theorem loop_exhausts (passive : host.Passive deadline stops possible)
    (alone : k.profile.synchronous = false) (used : c.active.profile.bucketed) (rounds : Nat)
    (h : Drains stops possible c out [] s) (enough : s.core.entryBag.card < rounds) :
    Exhausts stops possible c (loop host.recorded k deadline rounds out.length s) := by
  induction rounds generalizing out s with
  | zero => exact absurd enough (Nat.not_lt_zero _)
  | succ rounds ih =>
    cases done : s.core.isDone with
    | true =>
      rw [loop, Session.shouldYield_done _ _ done]
      exact ⟨rfl, out, rfl, h, h.inStep.done done⟩
    | false =>
      obtain ⟨-, waiting⟩ := Core.waiting_of_undone done
      have early : (host.recorded.clock s.world).1 < deadline := (passive.clock _ h.possible).1
      have next := h.read passive
      obtain ⟨choice, chosen, some_wait, waits⟩ :=
        select_waiting h.inStep (h.bucketed used) waiting
      have chosen' : select (s.now host.recorded).2.core.index = some choice := chosen
      let batch := if k = .shortestRemaining then 1 else choice.entries
      have pos : 0 < batch := by
        change 0 < ite _ _ _
        split
        · exact Nat.one_pos
        · exact some_wait
      obtain ⟨more, count, drains, served⟩ :=
        serve_drains passive alone choice batch out.length next
      have fewer := next.card_eq
      have fewer' := drains.card_eq
      have some_more := List.length_pos_iff.mpr (served pos waits)
      rw [List.length_append] at fewer'
      have now_same : (s.now host.recorded).2.core.entryBag = s.core.entryBag := rfl
      rw [now_same] at fewer
      have rest := ih drains (by omega)
      rw [List.length_append, ← count] at rest
      rw [loop, Session.shouldYield_undone done early]
      dsimp only
      rw [chosen']
      exact rest

end Shortest

namespace InOrder

theorem front_waiting {c : Core} (h : c.InStep) (unused : c.active.profile.bucketed = false)
    (waiting : c.counts.requests ≠ 0) (now : Nat) (k : PolicyKind) :
    (c.dispatchHead? now k).isSome := by
  have lanes := h.unused
  rw [if_neg (by rw [unused]; decide)] at lanes
  have waits : c.timeline.slots ≠ [] := by
    intro none
    refine waiting (h.counts_eq.trans ?_)
    have timeline : c.timeline.contents = 0 := by
      rw [Timeline.contents, Timeline.entries, none]
      rfl
    rw [Core.pending, lanes, timeline]
    rfl
  obtain ⟨slot, rest, found⟩ := List.exists_cons_of_ne_nil waits
  simp [Core.dispatchHead?, Timeline.pop?, found]

theorem loop_exhausts (passive : host.Passive deadline stops possible)
    (alone : k.profile.synchronous = false) (unused : c.active.profile.bucketed = false)
    (rounds : Nat) (h : Drains stops possible c out [] s)
    (enough : s.core.entryBag.card < rounds) :
    Exhausts stops possible c (loop host.recorded k deadline rounds out.length s) := by
  induction rounds generalizing out s with
  | zero => exact absurd enough (Nat.not_lt_zero _)
  | succ rounds ih =>
    cases done : s.core.isDone with
    | true =>
      rw [loop, Session.shouldYield_done _ _ done]
      exact ⟨rfl, out, rfl, h, h.inStep.done done⟩
    | false =>
      obtain ⟨-, waiting⟩ := Core.waiting_of_undone done
      have early : (host.recorded.clock s.world).1 < deadline := (passive.clock _ h.possible).1
      have next := h.read passive
      have same_unused : s.core.active.profile.bucketed = false := h.framed.active ▸ unused
      have front := front_waiting h.inStep same_unused waiting
        ((s.now host.recorded).2.now host.recorded).1 k
      obtain ⟨⟨requests, c'⟩, went⟩ := Option.isSome_iff_exists.mp front
      let s' : Session (ω × List Handover) :=
        ⟨c', ((s.now host.recorded).2.now host.recorded).2.world⟩
      have hd : (s.now host.recorded).2.dispatchHead? host.recorded k = some (requests, s') :=
        congrArg (Option.map _) went
      obtain ⟨e, rfl, taken⟩ := next.dispatchHead passive hd
      have handed := taken.deliver passive alone
      have fewer := h.card_eq
      have fewer' := handed.card_eq
      rw [List.length_append, List.length_singleton] at fewer'
      have rest := ih handed (by omega)
      rw [List.length_append, List.length_singleton] at rest
      rw [loop, Session.shouldYield_undone done early]
      dsimp only
      rw [hd]
      exact rest

end InOrder

namespace PassThrough

theorem drainLane_drains (passive : host.Passive deadline stops possible) (file : String)
    (d : Direction) (n : Nat) (h : Drains stops possible c out ready s) :
    ∃ more s', drainLane host.recorded file d n (ready.map Entry.requests, s) =
        ((ready ++ more).map Entry.requests, s') ∧
      Drains stops possible c out (ready ++ more) s' ∧
      s'.core.lane file d = (s.core.lane file d).drop n ∧
      ∀ file' d', (file', d') ≠ (file, d) → s'.core.lane file' d' = s.core.lane file' d' := by
  induction n generalizing ready s with
  | zero => exact ⟨[], s, by rw [List.append_nil]; rfl, by rwa [List.append_nil], rfl, fun _ _ _ => rfl⟩
  | succ n ih =>
    cases hd : s.dispatch? host.recorded file d 0 .passThrough false with
    | none =>
      have empty : s.core.lane file d = [] := by
        by_contra waits
        obtain ⟨e, rest, found⟩ := List.exists_cons_of_ne_nil waits
        have went := Core.dispatch?_isSome (c := s.core) (i := 0) (by rw [found]; rfl)
          (s.now host.recorded).1 .passThrough false
        have stuck : s.core.dispatch? (s.now host.recorded).1 file d 0 .passThrough false = none :=
          Option.map_eq_none_iff.mp hd
        rw [stuck] at went
        exact absurd went Bool.false_ne_true
      refine ⟨[], s, ?_, by rwa [List.append_nil], by rw [empty, List.drop_nil], fun _ _ _ => rfl⟩
      rw [drainLane, hd, List.append_nil]
    | some result =>
      obtain ⟨requests, t⟩ := result
      obtain ⟨e, rfl, taken, own, others⟩ := h.dispatch passive hd
      obtain ⟨more, s', form, drains, own', others'⟩ := ih taken
      refine ⟨e :: more, s', ?_, ?_, ?_, fun file' d' other => ?_⟩
      · rw [drainLane, hd]
        dsimp only
        rw [List.map_append, List.map_singleton] at form
        rw [form, List.append_assoc]
        rfl
      · rwa [List.append_assoc] at drains
      · rw [own', own, List.eraseIdx_zero, List.drop_tail]
      · exact (others' file' d' other).trans (others file' d' other)

/-- A lane is as it was or it is empty; the lanes named are empty. -/
structure Emptied (lanes : List (FileState × Direction)) (c c' : Core) : Prop where
  named : ∀ l ∈ lanes, c'.lane l.1.file l.2 = []
  others : ∀ file d, c'.lane file d = c.lane file d ∨ c'.lane file d = []

theorem drainLanes_drains (passive : host.Passive deadline stops possible)
    (lanes : List (FileState × Direction)) (h : Drains stops possible c out ready s)
    (whole : ∀ l ∈ lanes, (s.core.lane l.1.file l.2).length ≤ (l.1.lane l.2).entries.length) :
    ∃ more s', lanes.foldl (fun acc (f, d) =>
        drainLane host.recorded f.file d (f.lane d).entries.length acc)
          (ready.map Entry.requests, s) = ((ready ++ more).map Entry.requests, s') ∧
      Drains stops possible c out (ready ++ more) s' ∧ Emptied lanes s.core s'.core := by
  induction lanes generalizing ready s with
  | nil =>
    refine ⟨[], s, ?_, by rwa [List.append_nil], by simp, fun _ _ => .inl rfl⟩
    rw [List.append_nil]
    rfl
  | cons l rest ih =>
    obtain ⟨f, d⟩ := l
    obtain ⟨more, t, form, drains, own, others⟩ :=
      drainLane_drains passive f.file d (f.lane d).entries.length h
    have emptied : t.core.lane f.file d = [] := by
      rw [own]
      exact List.drop_eq_nil_of_le (whole (f, d) List.mem_cons_self)
    have each : ∀ file' d', t.core.lane file' d' = s.core.lane file' d' ∨
        t.core.lane file' d' = [] := by
      intro file' d'
      by_cases here : (file', d') = (f.file, d)
      · obtain ⟨rfl, rfl⟩ := Prod.mk.inj here
        exact .inr emptied
      · exact .inl (others file' d' here)
    have whole' : ∀ l ∈ rest, (t.core.lane l.1.file l.2).length ≤ (l.1.lane l.2).entries.length := by
      intro l hl
      rcases each l.1.file l.2 with same | none
      · rw [same]
        exact whole l (List.mem_cons_of_mem _ hl)
      · rw [none]
        exact Nat.zero_le _
    obtain ⟨more', s', form', drains', gone⟩ := ih drains whole'
    refine ⟨more ++ more', s', ?_, ?_, fun l hl => ?_, fun file' d' => ?_⟩
    · rw [List.foldl_cons]
      dsimp only
      rw [form, form', List.append_assoc]
    · rwa [List.append_assoc] at drains'
    · rcases List.mem_cons.mp hl with rfl | hl
      · rcases gone.others f.file d with same | none
        · exact same.trans emptied
        · exact none
      · exact gone.named l hl
    · rcases gone.others file' d' with same | none
      · rw [same]
        exact each file' d'
      · exact .inr none

theorem drainBucket_drains (passive : host.Passive deadline stops possible)
    (used : c.active.profile.bucketed) (i : Nat) (h : Drains stops possible c out [] s)
    (active : (s.core.index.bucket i).pending ≠ 0) :
    let r := drainBucket host.recorded i s
    ∃ more, r.1 = more.length ∧ Drains stops possible c (out ++ more) [] r.2 ∧
      ∀ e ∈ r.2.core.entryBag, s.core.index.slotOf e.file ≠ i := by
  have placed := h.inStep.index.placed
  let files := (s.core.index.bucket i).files
  have stored : ∀ f ∈ files, s.core.index.fileOf f.file = f := by
    intro f hf
    have slot := placed.slot_bucket hf
    refine Index.fileOf_of_mem placed ((Index.mem_files_iff_bucket placed).mpr ?_)
    rw [Index.bucketOf, slot]
    exact hf
  obtain ⟨more, t, form, drains, gone⟩ := drainLanes_drains passive (lanesOf files) h fun l hl => by
    rw [Core.lane, stored l.1 (mem_lanesOf.mp hl)]
  have handed := drains.deliverAll (k := .passThrough) passive rfl
  have result : drainBucket host.recorded i s = (more.length,
      (more.map Entry.requests).foldl
        (fun s requests => s.deliver host.recorded requests .passThrough) t) := by
    unfold drainBucket
    dsimp only
    rw [if_neg active]
    have form : (lanesOf (s.core.index.bucket i).files).foldl (fun acc (f, d) =>
        drainLane host.recorded f.file d (f.lane d).entries.length acc) ([], s) =
          (more.map Entry.requests, t) := form
    rw [form, List.length_map]
  rw [result]
  refine ⟨more, rfl, handed, fun e he here => ?_⟩
  -- What still waits after the deliveries waited before them, and then in a lane of its own file.
  have left : t.core.entryBag = (((more.map Entry.requests).foldl
      (fun s requests => s.deliver host.recorded requests .passThrough) t)).core.entryBag := by
    have both := drains.entries.symm.trans handed.entries
    rw [List.append_nil] at both
    exact add_left_cancel both
  have waits := drains.inStep.mem_lane_of_bucketed (drains.bucketed used) (left ▸ he)
  have before : e ∈ s.core.lane e.file e.direction := by
    rcases gone.others e.file e.direction with same | none
    · exact same ▸ waits
    · rw [none] at waits
      exact absurd waits List.not_mem_nil
  obtain ⟨b, hb, inside, -⟩ := h.inStep.bucket_of_lane (List.ne_nil_of_mem before)
  have bucket := Index.bucket_of_mem placed hb
  rw [here] at bucket
  have listed : (s.core.index.fileOf e.file, e.direction) ∈ lanesOf files := by
    refine mem_lanesOf.mpr ?_
    change _ ∈ (s.core.index.bucket i).files
    rw [bucket]
    exact inside
  have empty := gone.named _ listed
  rw [Index.file_fileOf] at empty
  rw [empty] at waits
  exact List.not_mem_nil waits

theorem visitFrom_drains (passive : host.Passive deadline stops possible)
    (used : c.active.profile.bucketed) (left step : Nat) (h : Drains stops possible c out [] s)
    (buckets : 0 < s.core.index.size)
    (ahead : ∀ e ∈ s.core.entryBag, step ≤ s.core.index.slotOf e.file)
    (enough : s.core.index.size ≤ left + step) :
    let r := visitFrom 0 (fun i (n, s) =>
      let (m, s) := drainBucket host.recorded i s
      (n + m, s)) left step (out.length, s)
    ∃ out', r.1 = out'.length ∧ Drains stops possible c out' [] r.2 ∧ r.2.core.entryBag = 0 := by
  induction left generalizing step out s with
  | zero =>
    refine ⟨out, rfl, h, Multiset.eq_zero_of_forall_notMem fun e he => ?_⟩
    have later := ahead e he
    have inside := Index.slotOf_lt buckets e.file
    omega
  | succ left ih =>
    have found (e : Entry) (he : e ∈ s.core.entryBag) :
        s.core.index.slotOf e.file ∈ s.core.index.ahead step :=
      h.inStep.ahead (h.bucketed used) buckets he (ahead e he)
    rw [visitFrom]
    cases next : s.core.index.nextActive? 0 step with
    | none =>
      refine ⟨out, rfl, h, Multiset.eq_zero_of_forall_notMem fun e he => ?_⟩
      obtain ⟨i, least, -⟩ := exists_firstLeast (f := s.core.index.stepOf 0) (found e he)
      exact Option.some_ne_none i (least.symm.trans next)
    | some i =>
      obtain ⟨active, same⟩ := h.inStep.of_ahead buckets (firstLeast_mem next)
      have least (e : Entry) (he : e ∈ s.core.entryBag) : i ≤ s.core.index.slotOf e.file := by
        have le := firstLeast_le next (found e he)
        rwa [same, Index.stepOf_zero (Index.slotOf_lt buckets e.file)] at le
      have low : step ≤ i := by
        obtain ⟨⟨j, b⟩, hb, rfl⟩ := List.mem_map.mp (firstLeast_mem next)
        have later := (Bool.and_eq_true_iff.mp (List.mem_filter.mp hb).2).2
        exact (of_decide_eq_true later).trans same.le
      obtain ⟨more, count, drains, gone⟩ := drainBucket_drains passive used i h active
      have size : (drainBucket host.recorded i s).2.core.index.size = s.core.index.size :=
        drains.framed.size.trans h.framed.size.symm
      have slot (file : String) : (drainBucket host.recorded i s).2.core.index.slotOf file =
          s.core.index.slotOf file :=
        (drains.framed.slotOf file).trans (h.framed.slotOf file).symm
      have result := ih (i + 1) drains (size ▸ buckets) (fun e he => ?_) (by omega)
      · dsimp only
        rw [same, count, ← List.length_append]
        exact result
      · have before : e ∈ s.core.entryBag := by
          rw [h.left_of_later drains]
          exact Multiset.mem_add.mpr (.inr he)
        rw [slot]
        exact Nat.lt_of_le_of_ne (least e before) fun here => gone e he here.symm

end PassThrough

def delivered (log : List Handover) : List Request := log.flatMap Handover.requests

theorem delivered_entries (callbacks : Callbacks) (es : List Entry) :
    (delivered (es.flatMap fun e => callbacks.handovers e.requests) : Multiset Request) =
      requestBag es := by
  rw [requestBag_coe, delivered, List.flatMap_assoc]
  simp only [handovers_requests]

namespace System

variable {setup : Setup} {actions : List Action}

theorem exhausts_schedule (p : Policy) (plain : p.quantum? = none)
    (active : (run setup actions).core.active = p.kind) {world : ω} (ok : possible world)
    (passive : host.Passive ((run setup actions).core.refreshDeadline (host.clock world).1) stops
      possible) {limit : Nat} (large : (run setup actions).core.entryBag.card < limit) :
    Exhausts stops possible (run setup actions).core
        (p.schedule host.recorded limit ⟨(run setup actions).core, world, []⟩).2 ∧
      (p = .passThrough → (p.schedule host.recorded limit
        ⟨(run setup actions).core, world, []⟩).2.session.core.entryBag = 0) := by
  have start : Drains stops possible (run setup actions).core [] []
      ⟨(run setup actions).core, world, []⟩ := .start (run_inStep setup actions) ok
  have begun := start.read passive
  cases p with
  | aioli | feedback => cases plain
  | shortestJob | shortestRemaining =>
    have used : (run setup actions).core.active.profile.bucketed := by rw [active]; rfl
    exact ⟨Shortest.loop_exhausts passive rfl used limit begun large, nofun⟩
  | timeOrder | timeOrderMerging | timeWindow =>
    have unused : (run setup actions).core.active.profile.bucketed = false := by rw [active]; rfl
    exact ⟨InOrder.loop_exhausts passive rfl unused limit begun large, nofun⟩
  | passThrough =>
    have used : (run setup actions).core.active.profile.bucketed := by rw [active]; rfl
    obtain ⟨out, count, drains, empty⟩ := PassThrough.visitFrom_drains passive used _ 0 start
      (run_buckets setup actions) (fun _ _ => Nat.zero_le _) le_rfl
    exact ⟨⟨rfl, out, congrArg (Outcome.mk · none) count, drains, .inl empty⟩, fun _ => empty⟩

/-- Under the policies that promote nothing one call serves all that is pending, whatever has
happened before: each entry goes out once, its requests together, and the count returned is the
number of entries. The caller's code neither submits nor withdraws, and it neither migrates nor
dispatches by itself, though it may ask for a policy; the clock stays below the refresh deadline. If
the caller's code stops the scheduler meanwhile, the other policies end with the rest still pending,
but pass-through serves all even so. -/
theorem run_schedule_drains (setup : Setup) (actions : List Action) (p : Policy)
    (plain : p.quantum? = none) (active : (run setup actions).core.active = p.kind)
    (running : (run setup actions).core.stopping = false)
    (host : Host ω) (stops : Prop) (possible : ω → Prop) (world : ω) (ok : possible world)
    (passive : host.Passive ((run setup actions).core.refreshDeadline (host.clock world).1) stops
      possible)
    (limit : Nat) (large : (run setup actions).core.entryBag.card < limit) :
    let c := (run setup actions).core
    let r := (p.schedule host.recorded limit ⟨c, world, []⟩).2
    let log := r.session.world.2
    r.finished = true ∧ ∃ out : List Entry, r.outcome = ⟨out.length, none⟩ ∧
      c.entryBag = out + r.session.core.entryBag ∧
      log = out.flatMap (fun e => setup.callbacks.handovers e.requests) ∧
      (r.session.core.counts = ⟨0, 0⟩ ∧ c.entryBag = out ∧
          (delivered log : Multiset Request) = c.inLanes ++ c.onTimeline ∨
        stops ∧ p ≠ .passThrough ∧ r.session.core.stopping = true) := by
  intro c r log
  obtain ⟨⟨finished, out, outcome, drains, ended⟩, whole⟩ :=
    exhausts_schedule p plain active ok passive large
  have entries : c.entryBag = out + r.session.core.entryBag := by
    have both := drains.entries
    rwa [List.append_nil] at both
  have record : log = out.flatMap (fun e => setup.callbacks.handovers e.requests) := by
    rw [← (run_kept setup actions).setup_eq]
    exact drains.log
  refine ⟨finished, out, outcome, entries, record, ?_⟩
  by_cases empty : r.session.core.entryBag = 0
  · refine .inl ⟨drains.inStep.counts_zero empty, ?_, ?_⟩
    · rw [entries, empty, add_zero]
    · rw [record, delivered_entries, ← c.requestBag_entryBag, entries, empty, add_zero]
  · have stopped := ended.resolve_left empty
    refine .inr ⟨?_, fun same => empty (whole same), stopped⟩
    by_contra never
    have still := drains.framed.running never
    rw [running] at still
    exact Bool.false_ne_true (still.symm.trans stopped)

/-- Two requests have merged and another one waits on its own. The caller's code acknowledges what
it gets and asks for another policy. -/
theorem merged_entries_drained :
    let c := (run (.of .defaults .both 1) [.migrate .shortestJob,
      .submit 0 ⟨"f", .read, 0, 8, 0, 0⟩, .submit 0 ⟨"f", .read, 8, 8, 0, 0⟩,
      .submit 0 ⟨"g", .write, 0, 8, 0, 0⟩]).core
    let host := Host.meanwhile (·.force .feedback)
    let r := (Policy.shortestJob.schedule host.recorded 3 ⟨c, (), []⟩).2
    r.session.world.2.length = 2 ∧ r.finished = true ∧ ∃ out : List Entry,
      r.outcome = ⟨out.length, none⟩ ∧ c.entryBag = out + r.session.core.entryBag ∧
        r.session.world.2 = out.flatMap (fun e => Callbacks.both.handovers e.requests) ∧
        (r.session.core.counts = ⟨0, 0⟩ ∧ c.entryBag = out ∧
            (delivered r.session.world.2 : Multiset Request) = c.inLanes ++ c.onTimeline ∨
          False ∧ Policy.shortestJob ≠ .passThrough ∧ r.session.core.stopping = true) :=
  ⟨by decide +kernel, run_schedule_drains _ _ .shortestJob rfl (by decide +kernel)
    (by decide +kernel) _ False (fun _ => True) () trivial
    (Host.passive_meanwhile (by decide +kernel) fun _ => .force _) 3 (by decide +kernel)⟩

/-- The caller's code stops the scheduler when it is handed the first of two entries, and the other
one is still pending at the end. -/
theorem schedule_stopped :
    let c := (run (.of .defaults .one 1) [.migrate .shortestJob,
      .submit 0 ⟨"f", .read, 0, 8, 0, 0⟩, .submit 0 ⟨"g", .read, 0, 8, 0, 0⟩]).core
    let host := Host.meanwhile Core.requestStop
    let r := (Policy.shortestJob.schedule host.recorded 3 ⟨c, (), []⟩).2
    c.active = .shortestJob ∧ c.stopping = false ∧
      host.Passive (c.refreshDeadline 0) True (fun _ => True) ∧ c.entryBag.card < 3 ∧
      r.finished = true ∧ r.outcome.dispatched = 1 ∧ r.session.core.counts = ⟨1, 1⟩ :=
  ⟨by decide +kernel, by decide +kernel,
    Host.passive_meanwhile (by decide +kernel) fun _ => .stop trivial, by decide +kernel,
    by decide +kernel, by decide +kernel, by decide +kernel⟩

end System

end IoScheduling
