import IoScheduling.Proofs.OffsetOrder
import IoScheduling.Proofs.Starvation
import Mathlib.Data.Prod.Lex

/-! # What is left to do

A scan that dispatches nothing promotes entries, and a factor grows only so far. So as long as no
request comes in, what is left to do is bounded: requests can leave, and between two departures the
factors have a limited slack. No step of a policy adds to this effort, and neither does a call of
others that admits nothing. -/
namespace IoScheduling

def coverage (quantum : Nat) : Nat := satMul maxFactor quantum

namespace Entry

variable {e : Entry} {quantum : Nat}

/-- By how much the factor can still grow. -/
def slack (e : Entry) : Nat := maxFactor - e.factor

theorem slack_promote_le (e : Entry) : e.promote.slack ≤ e.slack := by
  unfold slack
  rw [factor_promote]
  rcases Nat.le_total e.factor maxFactor with low | high
  · have := le_nextFactor low
    omega
  · have full : nextFactor maxFactor = maxFactor := by decide
    have := nextFactor_mono high
    omega

theorem lt_nextFactor {n : Nat} (h : nextFactor n < maxFactor) : n < nextFactor n := by
  have word : maxFactor ≤ maxWord := by decide
  unfold nextFactor satMul at h ⊢
  split at h <;> split <;> omega

theorem slack_promote_lt (covered : e.length ≤ coverage quantum)
    (early : ¬ e.promote.eligible quantum) : e.promote.slack < e.slack := by
  have short : satMul (nextFactor e.factor) quantum < e.length := by
    have := of_decide_eq_false (Bool.not_eq_true _ ▸ early)
    rwa [factor_promote, promote, length_withFactor, Nat.not_le] at this
  have below : nextFactor e.factor < maxFactor := by
    by_contra full
    have grown : satMul maxFactor quantum ≤ satMul (nextFactor e.factor) quantum :=
      Nat.le_min.mpr ⟨(Nat.min_le_left _ _).trans (Nat.mul_le_mul_right _ (Nat.not_lt.mp full)),
        Nat.min_le_right _ _⟩
    exact absurd (covered.trans grown) (Nat.not_le.mpr short)
  have := lt_nextFactor below
  unfold slack
  rw [factor_promote]
  omega

end Entry

def slackOf (es : Multiset Entry) : Nat := (es.map Entry.slack).sum

theorem slackOf_add (A B : Multiset Entry) : slackOf (A + B) = slackOf A + slackOf B := by
  rw [slackOf, Multiset.map_add, Multiset.sum_add]
  rfl

theorem slackOf_coe (es : List Entry) : slackOf es = (es.map Entry.slack).sum := rfl

namespace Promoted

variable {ps : List Entry} {A B : Multiset Entry}

theorem slackOf_le (h : Promoted ps A B) : slackOf B ≤ slackOf A := by
  obtain ⟨rest, rfl, rfl⟩ := h
  rw [slackOf_add, slackOf_add, slackOf_coe, slackOf_coe, List.map_map]
  refine Nat.add_le_add_right ?_ _
  exact List.sum_le_sum fun e _ => e.slack_promote_le

theorem slackOf_lt (h : Promoted ps A B) {e : Entry} (he : e ∈ ps)
    (grown : e.promote.slack < e.slack) : slackOf B < slackOf A := by
  obtain ⟨rest, rfl, rfl⟩ := h
  rw [slackOf_add, slackOf_add, slackOf_coe, slackOf_coe, List.map_map]
  refine Nat.add_lt_add_right ?_ _
  exact List.sum_lt_sum _ _ (fun e _ => e.slack_promote_le) ⟨e, he, grown⟩

theorem exists_length (h : Promoted ps A B) {e : Entry} (he : e ∈ B) :
    ∃ o ∈ A, o.length = e.length := by
  obtain ⟨rest, rfl, rfl⟩ := h
  rcases Multiset.mem_add.mp he with he | he
  · obtain ⟨o, ho, rfl⟩ := List.mem_map.mp (Multiset.mem_coe.mp he)
    exact ⟨o, Multiset.mem_add.mpr (.inl ho), (Entry.length_withFactor o _).symm⟩
  · exact ⟨e, Multiset.mem_add.mpr (.inr he), rfl⟩

end Promoted

theorem length_extract {e run : Entry} {bound k longest : Nat} {file : String} {d : Direction}
    {r : Request} {runs : List Entry} (sound : e.Sound bound file d)
    (hx : e.extract k = some (r, runs)) (short : e.length ≤ longest)
    (requests : ∀ q ∈ e.contents, q.length ≤ longest) (hrun : run ∈ runs) :
    run.length ≤ longest := by
  have origin (q : Request) (hq : q ∈ run.requests) : q.bare ∈ e.contents := by
    rw [contents_extract hx]
    exact Multiset.mem_cons_of_mem (mem_contents.mpr ⟨run, hrun, q, hq, rfl⟩)
  cases run with
  | single q => exact requests q.bare (origin q List.mem_cons_self)
  | aggregate head m =>
    have headed := (Entry.sound_extract sound hx _ hrun).headed
    obtain ⟨low, hlow, offset⟩ := m.exists_least Request.offset
    obtain ⟨high, hhigh, stop⟩ := m.exists_greatest Request.stop
    have from_start : e.offset ≤ low.offset := by
      obtain ⟨p, hp, same⟩ := List.mem_map.mp (Multiset.mem_coe.mp (origin low hlow))
      have least := e.members.least_le Request.offset (e.toList_members ▸ hp)
      have same := congrArg Request.offset same
      exact (sound.headed.offset_eq.trans_le least).trans same.le
    have to_end : high.stop ≤ e.stop := by
      obtain ⟨p, hp, same⟩ := List.mem_map.mp (Multiset.mem_coe.mp (origin high hhigh))
      have greatest := e.members.le_greatest Request.stop (e.toList_members ▸ hp)
      have same := congrArg Request.stop same
      exact same.ge.trans (greatest.trans sound.headed.stop_eq.ge)
    have span : head.length = high.stop - low.offset := by
      rw [stop, offset]
      exact congrArg Head.length headed.1
    have within : e.stop ≤ e.offset + e.length := Nat.min_le_left _ _
    change head.length ≤ longest
    omega

namespace Index

variable {x y : Index}

theorem size_detach? {name : String} {d : Direction} {i : Nat} {e : Entry}
    (h : x.detach? name d i = some (e, y)) : y.size = x.size := by
  obtain ⟨⟨o, b, c⟩, -, same⟩ := Option.map_eq_some_iff.mp h
  rw [← (Prod.mk.inj same).2]
  rfl

theorem size_withdraw {a : Address} {r : Request} (h : x.withdraw a = .ok (r, y)) :
    y.size = x.size := by
  unfold withdraw at h
  split at h
  · rw [← (Prod.mk.inj (Except.ok.inj h)).2]
    rfl
  · cases h

theorem size_release {a : Address} {r : HandedOut} (h : x.release a = .ok (r, y)) :
    y.size = x.size := by
  unfold release at h
  split at h
  · rw [← (Prod.mk.inj (Except.ok.inj h)).2]
    rfl
  · cases h

theorem size_moveTimelineCount (x : Index) (name : String) (move : Nat → Nat) :
    (x.moveTimelineCount name move).size = x.size := by
  unfold moveTimelineCount
  split <;> rfl

end Index

/-- What the caller's code does besides acknowledging what it is handed. -/
structure Conduct where
  withdraws : Prop
  stops : Prop

/-- What neither a policy nor a call changes, unless it stops the scheduler or migrates. -/
structure Stage where
  active : PolicyKind
  stopping : Bool
  buckets : Nat

namespace Core

def stage (c : Core) : Stage := ⟨c.active, c.stopping, c.index.size⟩

variable {c c' : Core} {file : String} {d : Direction} {i now : Nat} {k : PolicyKind}

theorem stage_complete (c : Core) (now : Nat) (a : Address) :
    (c.complete now a).1.stage = c.stage := by
  obtain ⟨r, x, signal, hr, form⟩ | ⟨fault, -, form⟩ := c.complete_cases now a
  · have size : (c.settledIndex now a r x).size = c.index.size := by
      rw [← Index.size_release hr]
      unfold settledIndex noteGrantRelease
      split
      · split <;> rfl
      · rfl
    rw [form]
    exact congrArg (Stage.mk c.active c.stopping) size
  · rw [form]
    split <;> rfl

theorem stage_dequeue {a : Address} {r : Request} (h : c.dequeue a = .ok (r, c')) :
    c'.stage = c.stage := by
  obtain ⟨-, x, hw, rfl⟩ | ⟨-, t, -, rfl⟩ := dequeue_ok h
  · exact congrArg (Stage.mk c.active c.stopping) (Index.size_withdraw hw)
  · refine congrArg (Stage.mk c.active c.stopping) ?_
    dsimp only
    split <;> rfl

theorem stage_cancel (c : Core) (a : Address) : (c.cancel a).1.stage = c.stage := by
  unfold cancel
  split
  · rename_i hd
    have same := stage_dequeue hd
    exact same
  · rfl

theorem stage_dispatch? {inQuantum : Bool} {requests : List Request}
    (h : c.dispatch? now file d i k inQuantum = some (requests, c')) : c'.stage = c.stage := by
  obtain ⟨⟨e, x⟩, hx, same⟩ := Option.map_eq_some_iff.mp h
  rw [← (Prod.mk.inj same).2]
  have size := Index.size_detach? hx
  exact congrArg (Stage.mk c.active c.stopping) size

theorem stage_holdBack (c : Core) (file : String) (d : Direction) (i now : Nat) :
    (c.holdBack file d i now).1.stage = c.stage := by
  unfold holdBack
  split
  · rfl
  · split <;> rfl

/-- A core in which everything that waits can be served: the policy works on the buckets, nobody
stops the scheduler unless this is in their conduct, and no entry is longer than `longest`. Once
requests are withdrawn, their lengths count as well, since one can be left on its own. -/
structure Fit (conduct : Conduct) (longest : Nat) (c : Core) : Prop where
  inStep : c.InStep
  bucketed : c.stage.active.profile.bucketed
  running : ¬ conduct.stops → c.stage.stopping = false
  buckets : 0 < c.stage.buckets
  entries : ∀ e ∈ c.entryBag, e.length ≤ longest
  requests : conduct.withdraws → ∀ r ∈ c.pending, r.length ≤ longest

/-- The requests that have to leave, and the slack until then. -/
def effort (c : Core) : ℕ ×ₗ ℕ := toLex (c.counts.requests, slackOf c.entryBag)

theorem InStep.counts_eq (h : c.InStep) : c.counts.requests = c.pending.card := h.requests_eq

theorem InStep.entry_sound (h : c.InStep) {e : Entry} (he : e ∈ c.entryBag) :
    e.Sound c.setup.entryBound e.file e.direction := by
  rcases Multiset.mem_add.mp he with he | he
  · rw [← Index.coe_entries] at he
    exact (((h.index.file e.file).lane e.direction).queue.entries e (h.mem_lane he)).alone
  · exact h.timeline.entries e he

theorem mem_pending {e : Entry} (he : e ∈ c.entryBag) {r : Request} (hr : r ∈ e.contents) :
    r ∈ c.pending := by
  obtain ⟨q, hq, rfl⟩ := List.mem_map.mp (Multiset.mem_coe.mp hr)
  have there : q ∈ requestBag c.entryBag := mem_requestBag.mpr ⟨e, he, hq⟩
  rw [requestBag_entryBag] at there
  rw [pending, ← bareBag_inLanes, ← bareBag_onTimeline, ← bareBag_append]
  exact Multiset.mem_coe.mpr (List.mem_map_of_mem (Multiset.mem_coe.mp there))

variable {conduct : Conduct} {longest : Nat} {ps : List Entry}

theorem Fit.onStage (h : c.Fit conduct longest) (stage : c'.stage = c.stage) (inStep : c'.InStep)
    (entries : ∀ e ∈ c'.entryBag, e.length ≤ longest)
    (requests : ∀ r ∈ c'.pending, r ∈ c.pending) : c'.Fit conduct longest where
  inStep := inStep
  bucketed := stage ▸ h.bucketed
  running := stage ▸ h.running
  buckets := stage ▸ h.buckets
  entries := entries
  requests withdraws r hr := h.requests withdraws r (requests r hr)

theorem Fit.promotes (h : c.Fit conduct longest) (promotes : Promotes ps c c')
    (stage : c'.stage = c.stage) : c'.Fit conduct longest := by
  refine h.onStage stage promotes.inStep (fun e he => ?_) fun r hr => promotes.pending ▸ hr
  obtain ⟨o, ho, same⟩ := promotes.entries.exists_length he
  exact same ▸ h.entries o ho

theorem Fit.counts_promotes (h : c.Fit conduct longest) (promotes : Promotes ps c c') :
    c'.counts.requests = c.counts.requests := by
  rw [promotes.inStep.counts_eq, h.inStep.counts_eq, promotes.pending]

theorem Fit.effort_promotes (h : c.Fit conduct longest) (promotes : Promotes ps c c') :
    c'.effort ≤ c.effort :=
  Prod.Lex.toLex_le_toLex.mpr (.inr ⟨h.counts_promotes promotes, promotes.entries.slackOf_le⟩)

theorem Fit.effort_promotes_lt {quantum : Nat} (h : c.Fit conduct (coverage quantum))
    (promotes : Promotes ps c c') {e : Entry} (he : e ∈ ps)
    (early : ¬ e.promote.eligible quantum) : c'.effort < c.effort := by
  have there : e ∈ c.entryBag := by
    obtain ⟨rest, before, -⟩ := promotes.entries
    rw [before]
    exact Multiset.mem_add.mpr (.inl he)
  have grown := Entry.slack_promote_lt (h.entries e there) early
  exact Prod.Lex.toLex_lt_toLex.mpr
    (.inr ⟨h.counts_promotes promotes, promotes.entries.slackOf_lt he grown⟩)

theorem effort_lt (h : c'.counts.requests < c.counts.requests) : c'.effort < c.effort :=
  Prod.Lex.toLex_lt_toLex.mpr (.inl h)

theorem counts_le (h : c'.effort ≤ c.effort) : c'.counts.requests ≤ c.counts.requests := by
  rcases Prod.Lex.toLex_le_toLex.mp h with less | ⟨same, -⟩
  · exact Nat.le_of_lt less
  · exact Nat.le_of_eq same

theorem counts_left {gone : Multiset Request} (h : c.InStep) (h' : c'.InStep)
    (left : c.pending = gone + c'.pending) (some_gone : 0 < gone.card) :
    c'.counts.requests < c.counts.requests := by
  rw [h.counts_eq, h'.counts_eq, left, Multiset.card_add]
  omega

theorem Fit.dispatch? {inQuantum : Bool} {requests : List Request} (h : c.Fit conduct longest)
    (hd : c.dispatch? now file d i k inQuantum = some (requests, c')) :
    c'.Fit conduct longest ∧ c'.counts.requests < c.counts.requests := by
  obtain ⟨-, inStep, pending, -⟩ := dispatch?_effect h.inStep hd
  obtain ⟨e, rfl, entries⟩ := dispatch?_entryBag h.inStep hd
  constructor
  · exact h.onStage (stage_dispatch? hd) inStep
      (fun o ho => h.entries o (entries ▸ Multiset.mem_cons_of_mem ho))
      fun r hr => pending ▸ Multiset.mem_add.mpr (.inr hr)
  · refine counts_left h.inStep inStep pending ?_
    rw [card_bareBag, Entry.length_requests]
    exact e.count_pos

/-- A call that admits no request and is in the conduct, or taking notice of a signal. A migration or
a dispatch is none: both are left to the scheduling loop. -/
inductive Quiet (conduct : Conduct) (c : Core) : Core → Prop where
  | settle (length : Nat) : Quiet conduct c (c.noteRelease length)
  | complete (now : Nat) (a : Address) : Quiet conduct c (c.complete now a).1
  | cancel (withdraws : conduct.withdraws) (a : Address) : Quiet conduct c (c.cancel a).1
  | force (k : PolicyKind) : Quiet conduct c (c.force k)
  | stop (stops : conduct.stops) : Quiet conduct c c.requestStop
  | reset : Quiet conduct c c.resetStatistics
  | noticed (work ack : Bool) : Quiet conduct c { c with workSignal := work, ackSignal := ack }

theorem Fit.same (h : c.Fit conduct longest) (inStep : c'.InStep) (stage : c'.stage = c.stage)
    (entries : c'.entryBag = c.entryBag) (pending : c'.pending = c.pending) :
    c'.Fit conduct longest ∧ c'.effort ≤ c.effort := by
  constructor
  · exact h.onStage stage inStep (entries ▸ h.entries) fun r hr => pending ▸ hr
  · unfold effort
    rw [inStep.counts_eq, h.inStep.counts_eq, entries, pending]

theorem Fit.cancel (h : c.Fit conduct longest) (withdraws : conduct.withdraws) (a : Address) :
    (c.cancel a).1.Fit conduct longest ∧ (c.cancel a).1.effort ≤ c.effort := by
  unfold Core.cancel
  split
  · rename_i r c' hd
    obtain ⟨x, t, form, inStep, pending, -⟩ := dequeue_effect h.inStep hd
    obtain ⟨n, o, runs, rest, hx, before, after⟩ := dequeue_entryBag h.inStep hd
    have stage := stage_dequeue hd
    have inStep : c'.InStep := by
      rw [form]
      exact inStep
    have pending : c.pending = {r.bare} + c'.pending := by
      rw [pending, form]
      rfl
    have there : o ∈ c.entryBag := before ▸ Multiset.mem_cons_self o rest
    constructor
    · refine h.onStage stage inStep (fun e he => ?_)
        fun q hq => pending ▸ Multiset.mem_add.mpr (.inr hq)
      have he : e ∈ ↑runs + rest := after ▸ he
      rcases Multiset.mem_add.mp he with he | he
      · exact length_extract (h.inStep.entry_sound there) hx (h.entries o there)
          (fun q hq => h.requests withdraws q (mem_pending there hq)) (Multiset.mem_coe.mp he)
      · exact h.entries e (before ▸ Multiset.mem_cons_of_mem he)
    · exact (effort_lt (counts_left h.inStep inStep pending Nat.one_pos)).le
  · exact h.same h.inStep rfl rfl rfl

theorem Quiet.keeps (call : Quiet conduct c c') (h : c.Fit conduct longest) :
    c'.Fit conduct longest ∧ c'.effort ≤ c.effort := by
  cases call with
  | settle | force | noticed => exact h.same h.inStep rfl rfl rfl
  | complete now a =>
    have stage := stage_complete c now a
    have entries := complete_entryBag h.inStep now a
    have completed := complete_effect h.inStep now a
    generalize (c.complete now a).1 = c' at stage entries completed
    cases completed with
    | released signal form inStep pending held => exact h.same inStep stage entries pending
    | unknown ledger same => exact h.same h.inStep stage entries rfl
  | cancel withdraws a => exact h.cancel withdraws a
  | stop stops =>
    exact ⟨⟨h.inStep, h.bucketed, absurd stops, h.buckets, h.entries, h.requests⟩, le_rfl⟩
  | reset =>
    obtain ⟨inStep, pending, -⟩ := resetStatistics_effect h.inStep
    refine h.same inStep rfl ?_ pending
    exact congrArg (· + _) (Index.resetTallies_entryBag _)

theorem Fit.quiet (h : c.Fit conduct longest)
    (calls : Relation.ReflTransGen (Quiet conduct) c c') :
    c'.Fit conduct longest ∧ c'.effort ≤ c.effort := by
  induction calls with
  | refl => exact ⟨h, le_rfl⟩
  | tail _ call ih =>
    obtain ⟨fit, less⟩ := call.keeps ih.1
    exact ⟨fit, less.trans ih.2⟩

end Core

namespace Core

theorem size_submit (c : Core) (now : Nat) (call : Submission) :
    (c.submit now call).1.index.size = c.index.size := by
  unfold submit enqueue
  split
  · rfl
  · dsimp only
    split
    · rfl
    · split <;> rfl

theorem size_migrate (c : Core) (k : PolicyKind) : (c.migrate k).index.size = c.index.size := by
  have shelved (es : List Entry) : ∀ c : Core, (es.foldl shelve c).index.size = c.index.size := by
    induction es with
    | nil => exact fun _ => rfl
    | cons e es ih => exact fun c => (ih _).trans (Index.size_moveTimelineCount _ _ _)
  have adopted (limit : Nat) (es : List Entry) :
      ∀ c : Core, (es.foldl (adopt limit) c).index.size = c.index.size := by
    induction es with
    | nil => exact fun _ => rfl
    | cons e es ih => exact fun c => (ih _).trans (Index.size_moveTimelineCount _ _ _)
  change (c.transfer k).index.size = c.index.size
  unfold transfer
  dsimp only
  split
  · rfl
  · exact shelved _ _
  · exact adopted _ _ _
  · split <;> rfl

theorem size_steer (c : Core) (file : String) (t : Steering) :
    (c.steer file t).index.size = c.index.size := by
  unfold steer
  split <;> rfl

end Core

namespace System

theorem size_act (s : System) (a : Action) : (s.act a).core.index.size = s.core.index.size := by
  cases a with
  | submit now call =>
    rw [act, core_submit]
    exact s.core.size_submit now call
  | settle i =>
    rw [act, settle]
    split <;> rfl
  | complete now a => exact congrArg Stage.buckets (s.core.stage_complete now a)
  | cancel a =>
    rw [act, core_cancel]
    exact congrArg Stage.buckets (s.core.stage_cancel a)
  | migrate k => exact s.core.size_migrate k
  | dispatch now file d i k inQuantum =>
    rw [act]
    cases hd : s.core.dispatch? now file d i k inQuantum with
    | none => rfl
    | some result => exact congrArg Stage.buckets (Core.stage_dispatch? hd)
  | dispatchHead now k =>
    rw [act]
    cases hd : s.core.dispatchHead? now k with
    | none => rfl
    | some result =>
      obtain ⟨e, -, rfl⟩ := Option.map_eq_some_iff.mp hd
      rfl
  | handOver i =>
    rw [act, handOver]
    split <;> rfl
  | steer file t => exact s.core.size_steer file t
  | stop | reset => rfl

theorem run_buckets (setup : Setup) (actions : List Action) :
    0 < (run setup actions).core.index.size :=
  run_invariant (P := fun s => 0 < s.core.index.size) setup (Nat.le_max_right _ 1)
    (fun s a h => (size_act s a).symm ▸ h) actions

end System

end IoScheduling
