import IoScheduling.Proofs.BurstProgress
import IoScheduling.Proofs.ScanProgress
import IoScheduling.Service.Checksum

/-! # The end of scheduling

Under the two policies that promote entries scheduling ends by itself. This rests on its conditions:
a scan goes round until the deadline if somebody else holds all buckets, and if all entries are
longer than the largest factor covers. A withdrawal can bring about the latter, since an aggregate
at the end of the words is shorter than one of its requests. -/
namespace IoScheduling

variable {ω : Type} {host : Host ω} {deadline : Nat}

/-- The bytes that make an entry eligible a scan, under the policies that promote entries. -/
def Policy.quantum? : Policy → Option Nat
  | .aioli q => some q.quantumBytes
  | .feedback p => some p.quantum
  | _ => none

namespace System

variable {setup : Setup} {actions : List Action} {p : Policy} {quantum : Nat} {conduct : Conduct}

theorem run_fit (promotes : p.quantum? = some quantum)
    (active : (run setup actions).core.active = p.kind)
    (running : (run setup actions).core.stopping = false)
    (entries : ∀ e ∈ (run setup actions).core.entryBag, e.length ≤ coverage quantum)
    (requests : conduct.withdraws →
      ∀ r ∈ (run setup actions).core.pending, r.length ≤ coverage quantum) :
    (run setup actions).core.Fit conduct (coverage quantum) where
  inStep := run_inStep setup actions
  bucketed := by
    change (run setup actions).core.active.profile.bucketed = true
    rw [active]
    cases p <;> first | rfl | cases promotes
  running _ := running
  buckets := run_buckets setup actions
  entries := entries
  requests := requests

/-- Under multi-level feedback and under aIOLi scheduling ends by itself, whatever has happened
before, if no entry is longer than the largest factor covers. The caller's code admits nothing, nor
does it migrate or dispatch by itself; it may ask for a policy, which is taken up after the call. If
it withdraws requests, none of them may be longer either. Multi-level feedback passes over a bucket
that somebody else holds, so that must not go on for ever. -/
theorem run_schedule_ends (setup : Setup) (actions : List Action) (p : Policy) (quantum : Nat)
    (promotes : p.quantum? = some quantum)
    (active : (run setup actions).core.active = p.kind)
    (running : (run setup actions).core.stopping = false)
    (entries : ∀ e ∈ (run setup actions).core.entryBag, e.length ≤ coverage quantum)
    (host : Host ω) (around : Surroundings ω) (world : ω) (possible : around.possible world)
    (quiet : host.Quiet ((run setup actions).core.refreshDeadline (host.clock world).1) around)
    (requests : around.withdraws →
      ∀ r ∈ (run setup actions).core.pending, r.length ≤ coverage quantum)
    (fair : p.kind = .feedback → host.Fair around) :
    ∃ least, ∀ limit ≥ least,
      Ended around.toConduct (p.schedule host limit ⟨(run setup actions).core, world⟩).2 := by
  have fit : Session.Fit around (coverage quantum) ⟨(run setup actions).core, world⟩ :=
    ⟨run_fit promotes active running entries requests, possible⟩
  have start := (Session.Nears.refl fit).read quiet
  cases p with
  | aioli q =>
    obtain rfl := Option.some.inj promotes
    obtain ⟨least, ends⟩ := Burst.loop_ends quiet q start.fit 0
    exact ⟨least, fun limit large => ends limit large limit large⟩
  | feedback p =>
    exact Feedback.loop_ends quiet (fair rfl) start.fit p (Option.some.inj promotes) 0
  | shortestJob | shortestRemaining | timeOrder | timeOrderMerging | timeWindow | passThrough =>
    cases promotes

/-- A request that a hundred quanta would not cover waits next to small ones, of which the caller's
code withdraws one. -/
theorem schedule_ends_for_large_request :
    let c := (run (.of .defaults .one 1) [.migrate .feedback,
      .submit 0 ⟨"f", .read, 0, 1000, 0, 0⟩, .submit 0 ⟨"f", .write, 0, 8, 0, 0⟩,
      .submit 0 ⟨"g", .read, 64, 8, 0, 0⟩]).core
    let host := Host.meanwhile fun c => (c.cancel ⟨"g", .read, 64, 8⟩).1
    (∀ e ∈ c.entryBag, e.length ≤ coverage 8) ∧
      ∃ least, ∀ limit ≥ least,
        Ended ⟨True, False⟩ ((Policy.feedback ⟨8, 0⟩).schedule host limit ⟨c, ()⟩).2 := by
  refine ⟨by decide +kernel, ?_⟩
  exact run_schedule_ends _ _ (.feedback ⟨8, 0⟩) 8 rfl (by decide +kernel) (by decide +kernel)
    (by decide +kernel) _ (.calm ⟨True, False⟩) () trivial
    (Host.quiet_meanwhile (by decide +kernel) fun _ => .cancel trivial _)
    (fun _ => by decide +kernel) (fun _ => Host.fair_meanwhile _ _)

end System

namespace Feedback

/-- A look at a bucket finds nothing to do and keeps `P`. -/
def Barren (host : Host ω) (p : Feedback) (P : Session ω → Prop) : Prop :=
  ∀ i s, P s → ∃ s', P s' ∧ ∀ o, look host p i (o, s) = (o, s')

theorem round_barren {p : Feedback} {P : Session ω → Prop} (barren : Barren host p P)
    {s : Session ω} (hs : P s) : (p.round host s).1 = .zero ∧ P (p.round host s).2 := by
  rw [round_eq]
  refine visitFrom_keeps (P := fun acc : Outcome × Session ω => acc.1 = .zero ∧ P acc.2)
    (fun i acc h => ?_) p.cursor _ 0 ⟨rfl, hs⟩
  obtain ⟨s', hs', same⟩ := barren i acc.2 h.2
  rw [same acc.1]
  exact ⟨h.1, hs'⟩

theorem loop_barren {P : Session ω → Prop} (early : ∀ w, (host.clock w).1 < deadline)
    (undone : ∀ s, P s → s.core.isDone = false) (read : ∀ s, P s → P (s.now host).2)
    {quantum : Nat} (barren : ∀ cursor, Barren host ⟨quantum, cursor⟩ P)
    (rounds dispatched cursor : Nat) {s : Session ω} (hs : P s) :
    (loop host deadline rounds dispatched ⟨quantum, cursor⟩ s).2.finished = false := by
  induction rounds generalizing dispatched cursor s with
  | zero => rfl
  | succ rounds ih =>
    have next := Session.shouldYield_undone (undone s hs) (early s.world)
    obtain ⟨nothing, kept⟩ := round_barren (barren cursor) (read s hs)
    rw [loop, next]
    dsimp only
    rw [nothing, if_neg (by decide)]
    exact ih _ _ kept

theorem loop_held (early : ∀ w, (host.clock w).1 < deadline) (held : ∀ w i, host.busy w i)
    (p : Feedback) {s : Session ω} (undone : s.core.isDone = false) (rounds dispatched : Nat) :
    (loop host deadline rounds dispatched p s).2.finished = false := by
  refine loop_barren (P := fun t => t.core.isDone = false) early (fun _ h => h) (fun _ h => h)
    (fun cursor i t ht => ?_) rounds dispatched p.cursor undone
  refine ⟨(t.now host).2, ht, fun o => ?_⟩
  have passed : scanBucket host p.quantum (t.now host).1 i (t.now host).2 =
      ⟨(t.now host).2, [], none⟩ := by
    unfold scanBucket
    dsimp only
    rw [held, Bool.true_or, if_pos rfl]
  unfold look
  dsimp only
  rw [passed]
  exact congrArg (·, (t.now host).2) o.add_zero

/-- Something is pending, all of it is longer than the largest factor covers, and no file is
cooling down. -/
structure OutOfReach (quantum : Nat) (c : Core) : Prop where
  inStep : c.InStep
  undone : c.isDone = false
  awake : ∀ name, (c.index.fileOf name).waitingUntil = none
  long : ∀ e ∈ c.entryBag, coverage quantum < e.length

variable {quantum now : Nat} {c : Core} {file : String} {d : Direction}

theorem eligible_promote_of_long {e : Entry} (long : coverage quantum < e.length) :
    e.promote.eligible quantum = false := by
  refine decide_eq_false (Nat.not_le.mpr ?_)
  have factor : e.promote.factor ≤ maxFactor := e.factor_promote ▸ Entry.nextFactor_le _
  have reach : satMul e.promote.factor quantum ≤ coverage quantum :=
    Nat.le_min.mpr ⟨(Nat.min_le_left _ _).trans (Nat.mul_le_mul_right quantum factor),
      Nat.min_le_right _ _⟩
  exact reach.trans_lt (long.trans_eq (Entry.length_withFactor e _).symm)

theorem OutOfReach.promoteLane (h : OutOfReach quantum c) {f : FileState}
    (hf : c.index.file? file = some f) (now : Nat) (d : Direction) :
    (promoteLane quantum now f d c).2 = none ∧
      OutOfReach quantum (promoteLane quantum now f d c).1 := by
  have promotes := Core.promoteLane_promotes h.inStep hf quantum now d
  have name : f.file = file := (Keyed.mem_of_find? hf).2
  constructor
  · refine List.findIdx?_eq_none_iff.mpr fun e he => ?_
    obtain ⟨o, ho, rfl⟩ := List.mem_map.mp he
    have there : o ∈ c.lane file d := by
      rw [Core.lane, Index.fileOf_eq hf]
      exact ho
    exact eligible_promote_of_long (h.long o (Core.mem_entryBag_of_lane h.inStep there))
  constructor
  case inStep => exact promotes.inStep
  case undone =>
    have counts : (Feedback.promoteLane quantum now f d c).1.counts = c.counts := rfl
    have undone := h.undone
    unfold Core.isDone at undone ⊢
    rw [counts]
    exact undone
  case long =>
    intro e he
    obtain ⟨o, ho, same⟩ := promotes.entries.exists_length he
    exact same ▸ h.long o ho
  case awake =>
    intro n
    let g := (f.expire now).modifyLane d fun l =>
      { l with entries := (f.lane d).entries.map Entry.promote }
    have own : g.file = file := (FileState.file_setLane _ _ _).trans name
    have still := h.awake file
    rw [Index.fileOf_eq hf] at still
    change ((c.index.setFile g).fileOf n).waitingUntil = none
    rw [Index.fileOf_setFile c.index own]
    split
    · change (FileState.setLane _ d _).waitingUntil = none
      cases d <;> exact congrArg (Option.filter (now < ·)) still
    · exact h.awake n

theorem visit_outOfReach {s : Session ω} (h : OutOfReach quantum s.core) (file : String)
    (d : Direction) : ∃ s', OutOfReach quantum s'.core ∧
      visit host quantum now ⟨s, [], none⟩ (file, d) = ⟨s', [], none⟩ := by
  unfold visit
  dsimp only
  split
  · exact ⟨s, h, rfl⟩
  rename_i f hf
  split
  · exact ⟨s, h, rfl⟩
  have awake : f.cooldown? now = none := by
    have still := h.awake file
    rw [Index.fileOf_eq hf] at still
    rw [FileState.cooldown?, still]
    rfl
  obtain ⟨nothing, kept⟩ := h.promoteLane hf now d
  generalize promoteLane quantum now f d s.core = promoted at nothing kept
  obtain ⟨core, first⟩ := promoted
  obtain rfl : first = none := nothing
  rw [awake]
  exact ⟨{ s with core := core }, kept, rfl⟩

theorem scanBucket_outOfReach (host : Host ω) (now i : Nat) {s : Session ω}
    (h : OutOfReach quantum s.core) :
    ∃ s', OutOfReach quantum s'.core ∧ scanBucket host quantum now i s = ⟨s', [], none⟩ := by
  unfold scanBucket
  dsimp only
  split
  · exact ⟨s, h, rfl⟩
  · refine List.foldlRecOn (motive := fun scan : Scan ω =>
      ∃ s', OutOfReach quantum s'.core ∧ scan = ⟨s', [], none⟩) _ _ ⟨s, h, rfl⟩ ?_
    rintro _ ⟨s', kept, rfl⟩ ⟨file, d⟩ -
    exact visit_outOfReach kept file d

theorem loop_outOfReach (early : ∀ w, (host.clock w).1 < deadline) (p : Feedback)
    {s : Session ω} (h : OutOfReach p.quantum s.core) (rounds dispatched : Nat) :
    (loop host deadline rounds dispatched p s).2.finished = false := by
  refine loop_barren (P := fun t => OutOfReach p.quantum t.core) early (fun _ h => h.undone)
    (fun _ h => h) (fun cursor i t ht => ?_) rounds dispatched p.cursor h
  have read : OutOfReach p.quantum (t.now host).2.core := ht
  obtain ⟨s', kept, passed⟩ := scanBucket_outOfReach host (t.now host).1 i read
  refine ⟨s', kept, fun o => ?_⟩
  unfold look
  dsimp only
  rw [passed]
  exact congrArg (·, s') o.add_zero

end Feedback

namespace System

/-- Two requests at the end of the words, which merge, and a small one elsewhere. -/
def saturated : System :=
  run (.of .defaults .one 1) [.migrate .feedback,
    .submit 0 ⟨"f", .read, maxWord - 20000, 10000, 0, 0⟩,
    .submit 0 ⟨"f", .read, maxWord - 10000, 0x8000000000000000, 0, 0⟩,
    .submit 0 ⟨"f", .write, 0, 8, 0, 0⟩]

theorem saturated_early : 0 < saturated.core.refreshDeadline 0 := by decide +kernel

theorem saturated_undone : saturated.core.isDone = false := by decide +kernel

def lower : Address := ⟨"f", .read, maxWord - 20000, 10000⟩

def withdrawing : Host Unit := .meanwhile fun c => (c.cancel lower).1

def crowded : Host Unit := { Host.prompt with busy := fun _ _ => true }

def afterRound : Outcome × Session Unit :=
  (Feedback.ofConfig .defaults).round withdrawing ⟨saturated.core, ()⟩

theorem outOfReach_afterRound : Feedback.OutOfReach 8192 afterRound.2.core := by
  have called (c : Core) : Core.Called c (c.cancel lower).1 := by
    have call := Core.Called.act ⟨c, [], [], [], [], [], []⟩ (.cancel lower)
    rwa [act, core_cancel] at call
  have inStep : afterRound.2.core.InStep :=
    (Feedback.round_serves (Host.orderly_meanwhile called) (.ofConfig .defaults)
      (.start (run_inStep _ _))).inStep
  have awake : ∀ f ∈ afterRound.2.core.index.files, f.waitingUntil = none := by decide +kernel
  refine ⟨inStep, by decide +kernel, fun name => ?_, by decide +kernel⟩
  rcases Index.fileOf_cases inStep.index.placed name with stored | fresh
  · exact awake _ stored
  · rw [fresh]
    rfl

theorem withdrawing_goes_round (limit : Nat) :
    ((Policy.feedback (.ofConfig .defaults)).schedule withdrawing limit
      ⟨saturated.core, ()⟩).2.finished = false := by
  change (Feedback.loop withdrawing (saturated.core.refreshDeadline 0) limit 0
    (.ofConfig .defaults) ⟨saturated.core, ()⟩).2.finished = false
  cases limit with
  | zero => rfl
  | succ limit =>
    have next : Session.shouldYield withdrawing (saturated.core.refreshDeadline 0)
        ⟨saturated.core, ()⟩ = (false, ⟨saturated.core, ()⟩) :=
      Session.shouldYield_undone saturated_undone saturated_early
    have some_out : ¬ (afterRound.1.dispatched = 0 ∧ afterRound.1.wait.isSome) := by
      decide +kernel
    rw [Feedback.loop, next]
    dsimp only
    rw [← afterRound, if_neg some_out]
    exact Feedback.loop_outOfReach (fun _ => saturated_early) _ outOfReach_afterRound limit _

/-- All entries are within reach, and the clock stands still. If the caller's code withdraws a
request, or if somebody else holds every bucket, scheduling never ends. If it stops the scheduler,
scheduling ends while requests are pending that need not wait. -/
theorem schedule_disturbed :
    let c := saturated.core
    let deadline := c.refreshDeadline 0
    let p := Policy.feedback (.ofConfig .defaults)
    let schedule (host : Host Unit) (limit : Nat) := (p.schedule host limit ⟨c, ()⟩).2
    c.active = .feedback ∧ c.stopping = false ∧ (∀ e ∈ c.entryBag, e.length ≤ coverage 8192) ∧
      (withdrawing.Quiet deadline (.calm ⟨True, False⟩) ∧
        ∀ limit, (schedule withdrawing limit).finished = false) ∧
      (crowded.Quiet deadline (.calm ⟨False, False⟩) ∧
        ∀ limit, (schedule crowded limit).finished = false) ∧
      (Host.Quiet (.meanwhile Core.requestStop) deadline (.calm ⟨False, True⟩) ∧
        (schedule (.meanwhile Core.requestStop) 2).finished = true ∧
        (schedule (.meanwhile Core.requestStop) 2).outcome.wait = none ∧
        (schedule (.meanwhile Core.requestStop) 2).session.core.counts.requests = 2) := by
  refine ⟨by decide +kernel, by decide +kernel, by decide +kernel, ⟨?_, withdrawing_goes_round⟩,
    ⟨?_, fun limit => ?_⟩, ?_, ?_⟩
  · exact Host.quiet_meanwhile saturated_early fun _ => .cancel trivial _
  · have prompt := Host.quiet_prompt ⟨False, False⟩ saturated_early
    exact ⟨prompt.clock, prompt.handOver, prompt.awaitRelease⟩
  · exact Feedback.loop_held (fun _ => saturated_early) (fun _ _ => rfl) (.ofConfig .defaults)
      saturated_undone limit 0
  · exact Host.quiet_meanwhile saturated_early fun _ => .stop trivial
  · decide +kernel

end System

end IoScheduling
