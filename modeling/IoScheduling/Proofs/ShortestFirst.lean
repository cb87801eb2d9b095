import IoScheduling.Proofs.Isolation
import IoScheduling.Proofs.OffsetOrder
import IoScheduling.Proofs.Selections
import IoScheduling.Service.Checksum

/-! # The shortest lane is served first

A choice among the lanes finds the one with the least expected to remain. It is made before the
requests of the lane are handed over, and the caller's code may change any lane meanwhile; so the
lane chosen is looked up again by its name for each entry. What a call does falls into batches, one
for each choice. -/
namespace IoScheduling

namespace Shortest

variable {x : Index} {c : Core} {k : Choice}

structure Offered (x : Index) (k : Choice) : Prop where
  waits : (x.lane k.file k.direction).entries ≠ []
  score : k.score = (x.lane k.file k.direction).predictedRemaining
  entries : k.entries = (x.lane k.file k.direction).entries.length

/-- One lane is preferred to another: less remains in it, or as much and it comes first. -/
def Preferred (x : Index) (k k' : Choice) : Prop :=
  k.score < k'.score ∨
    k.score = k'.score ∧ x.LaneBefore (k.file, k.direction) (k'.file, k'.direction)

def Chosen (x : Index) (k : Choice) : Prop :=
  Offered x k ∧ ∀ k', Offered x k' → k' = k ∨ Preferred x k k'

structure Selects (x : Index) : Prop where
  idle : select x = none ↔ ∀ file d, (x.lane file d).entries = []
  chosen : ∀ k, select x = some k ↔ Chosen x k

def offers (x : Index) : List Choice := (lanesOf x.activeFiles).filterMap offer?

theorem offer?_eq_some {f : FileState} {d : Direction} : offer? (f, d) = some k ↔
    (f.lane d).entries ≠ [] ∧
      k = ⟨(f.lane d).predictedRemaining, f.file, d, (f.lane d).entries.length⟩ := by
  unfold offer?
  dsimp only
  by_cases empty : (f.lane d).entries = []
  · rw [empty]
    exact ⟨nofun, fun h => absurd rfl h.1⟩
  · rw [if_neg (by rwa [List.isEmpty_iff]), Option.some_inj]
    exact ⟨fun same => ⟨empty, same.symm⟩, fun h => h.2.symm⟩

theorem Offered.eq (h : Offered x k) : k = ⟨(x.lane k.file k.direction).predictedRemaining, k.file,
    k.direction, (x.lane k.file k.direction).entries.length⟩ := by
  rw [← h.score, ← h.entries]

theorem mem_offers (h : c.InStep) : k ∈ offers c.index ↔ Offered c.index k := by
  unfold offers
  rw [List.mem_filterMap]
  constructor
  · rintro ⟨⟨f, d⟩, hf, offer⟩
    obtain ⟨waits, rfl⟩ := offer?_eq_some.mp offer
    have stored := Index.mem_files_of_active (mem_lanesOf.mp hf)
    have here : c.index.lane f.file d = f.lane d := by
      rw [Index.lane, Index.fileOf_of_mem h.index.placed stored]
    exact ⟨by rwa [here], by rw [here], by rw [here]⟩
  · intro offered
    refine ⟨(c.index.fileOf k.file, k.direction),
      mem_lanesOf.mpr (Burst.active_of_lane h offered.waits), offer?_eq_some.mpr ⟨offered.waits, ?_⟩⟩
    rw [Index.file_fileOf]
    exact offered.eq

theorem offered_lane {file : String} {d : Direction} (waits : (x.lane file d).entries ≠ []) :
    Offered x ⟨(x.lane file d).predictedRemaining, file, d, (x.lane file d).entries.length⟩ :=
  ⟨waits, rfl, rfl⟩

theorem offers_before (h : x.Placed) : (offers x).Pairwise fun k k' =>
    x.LaneBefore (k.file, k.direction) (k'.file, k'.direction) := by
  refine List.pairwise_filterMap.mpr ((Index.lanesOf_before h.active_before).imp ?_)
  intro l l' before k hk k' hk'
  obtain ⟨-, rfl⟩ := offer?_eq_some.mp hk
  obtain ⟨-, rfl⟩ := offer?_eq_some.mp hk'
  exact before

theorem selects (h : c.InStep) : Selects c.index where
  idle := by
    change firstLeast Choice.score (offers c.index) = none ↔ _
    rw [firstLeast_eq_none, List.eq_nil_iff_forall_not_mem]
    constructor
    · intro none file d
      by_contra waits
      exact none _ ((mem_offers h).mpr (offered_lane waits))
    · intro empty k offered
      exact ((mem_offers h).mp offered).waits (empty _ _)
  chosen k := by
    change firstLeast Choice.score (offers c.index) = some k ↔ _
    rw [firstLeast_eq_some_iff (offers_before h.index.placed) Index.LaneBefore.asymm]
    simp only [mem_offers h]
    rfl

variable {ω : Type} {host : Host ω} {kind : PolicyKind} {choice : Choice} {file : String}
  {d : Direction} {e : Entry} {s t : Session ω}

/-- What a choice among the lanes leads to. -/
structure Batch where
  choice : Choice
  before : Core
  out : List Dispatch
  after : Core

def Batch.waiting (b : Batch) : List Entry := b.before.lane b.choice.file b.choice.direction

def Batch.left (b : Batch) : List Entry := b.after.lane b.choice.file b.choice.direction

/-- The head of a lane is dispatched and handed over, and then the next one; the dispatches are
listed. -/
inductive Serving (host : Host ω) (kind : PolicyKind) (file : String) (d : Direction) :
    Session ω → List Dispatch → Session ω → Prop where
  | done (s : Session ω) : Serving host kind file d s [] s
  | next {s t u : Session ω} {e : Entry} {out : List Dispatch} :
      (s.core.lane file d).head? = some e →
      s.dispatch? host file d 0 kind false = some (e.requests, t) →
      Serving host kind file d (t.deliver host e.requests kind) out u →
      Serving host kind file d s (⟨s.core, e⟩ :: out) u

/-- A loop comes from one session to another by these batches; the flag tells whether it has come
to its end or has been cut off. -/
inductive Course (host : Host ω) (kind : PolicyKind) (deadline : Nat) :
    Session ω → List Batch → Session ω → Bool → Prop where
  | halted (s : Session ω) : Course host kind deadline s [] s false
  | yields {s t : Session ω} : s.shouldYield host deadline = (true, t) →
      Course host kind deadline s [] t true
  | idle {s t : Session ω} : s.shouldYield host deadline = (false, t) →
      select t.core.index = none → Course host kind deadline s [] t true
  | batch {s t u v : Session ω} {choice : Choice} {out : List Dispatch} {batches : List Batch}
      {finished : Bool} : s.shouldYield host deadline = (false, t) →
      select t.core.index = some choice →
      Serving host kind choice.file choice.direction t out u →
      Course host kind deadline u batches v finished →
      Course host kind deadline s (⟨choice, t.core, out, u.core⟩ :: batches) v finished

/-- The batch goes to a lane that was preferred when it began, and takes heads of it. -/
structure Batch.Fair (kind : PolicyKind) (b : Batch) : Prop where
  chosen : Chosen b.before.index b.choice
  prompt : b.out.head?.map Dispatch.before = some b.before
  heads : ∀ x ∈ b.out, (x.before.lane b.choice.file b.choice.direction).head? = some x.entry
  bounded : b.out.length ≤ b.waiting.length
  /-- Shortest job first leaves the lane early only if nothing waits there any more, or the
  scheduler has been stopped. -/
  early : kind ≠ .shortestRemaining → b.out.length < b.waiting.length →
    b.left = [] ∨ b.after.stopping = true
  single : kind = .shortestRemaining → ∃ x, b.out = [x] ∧ Chosen x.before.index b.choice

theorem serve_empty (host : Host ω) (kind : PolicyKind) (batch n : Nat)
    (empty : s.core.lane choice.file choice.direction = []) :
    serve host kind choice batch n s = (n, s) := by
  cases batch with
  | zero => rfl
  | succ batch =>
    unfold serve
    split
    · rfl
    · rename_i requests t hd
      obtain ⟨⟨rs, c⟩, went, -⟩ := Option.map_eq_some_iff.mp hd
      obtain ⟨e, found, -⟩ := Core.dispatch?_lane went
      rw [empty] at found
      cases found

theorem serve_head (host : Host ω) (kind : PolicyKind) (h : s.core.InStep) (batch n : Nat)
    (head : (s.core.lane choice.file choice.direction).head? = some e) :
    ∃ t, s.dispatch? host choice.file choice.direction 0 kind false = some (e.requests, t) ∧
      t.core.InStep ∧
      serve host kind choice (batch + 1) n s =
        if (t.deliver host e.requests kind).core.stopping then
          (n + 1, t.deliver host e.requests kind)
        else serve host kind choice batch (n + 1) (t.deliver host e.requests kind) := by
  have found : (s.core.lane choice.file choice.direction)[0]? = some e :=
    List.head?_eq_getElem?.symm.trans head
  obtain ⟨⟨requests, c⟩, went⟩ :=
    Option.isSome_iff_exists.mp (Core.dispatch?_isSome found (s.now host).1 kind false)
  obtain ⟨o, here, rfl⟩ := Core.dispatch?_lane went
  obtain rfl := Option.some.inj (here.symm.trans found)
  have hd : s.dispatch? host choice.file choice.direction 0 kind false =
      some (o.requests, ⟨c, (s.now host).2.world⟩) := Option.map_eq_some_iff.mpr ⟨_, went, rfl⟩
  refine ⟨_, hd, (Core.dispatch?_effect h went).inStep, ?_⟩
  rw [serve, hd]

theorem Serving.heads {out : List Dispatch} (h : Serving host kind file d s out t) :
    ∀ x ∈ out, (x.before.lane file d).head? = some x.entry := by
  induction h with
  | done => simp
  | next head _ _ ih => exact List.forall_mem_cons.mpr ⟨head, ih⟩

theorem Serving.prompt {out : List Dispatch} (h : Serving host kind file d s out t)
    (some_out : out ≠ []) : out.head?.map Dispatch.before = some s.core := by
  cases h with
  | done => exact absurd rfl some_out
  | next => rfl

theorem serve_serving (orderly : host.Orderly) (kind : PolicyKind) (batch n : Nat)
    (h : s.core.InStep) :
    let r := serve host kind choice batch n s
    ∃ out, Serving host kind choice.file choice.direction s out r.2 ∧ r.1 = n + out.length ∧
      r.2.core.InStep ∧ out.length ≤ batch ∧
      (out.length < batch →
        r.2.core.lane choice.file choice.direction = [] ∨ r.2.core.stopping = true) ∧
      (0 < batch → s.core.lane choice.file choice.direction ≠ [] → out ≠ []) := by
  induction batch generalizing n s with
  | zero => exact ⟨[], .done s, rfl, h, le_rfl, nofun, nofun⟩
  | succ batch ih =>
    cases head : (s.core.lane choice.file choice.direction).head? with
    | none =>
      have empty := List.head?_eq_none_iff.mp head
      rw [serve_empty host kind _ n empty]
      exact ⟨[], .done s, rfl, h, Nat.zero_le _, fun _ => .inl empty, fun _ => absurd empty⟩
    | some e =>
      obtain ⟨t, hd, inStep, form⟩ := serve_head host kind h batch n head
      have handed := (orderly.deliver e.requests kind t).inStep inStep
      rw [form]
      split
      · rename_i stopping
        exact ⟨[⟨s.core, e⟩], .next head hd (.done _), rfl, handed, by simp, fun _ => .inr stopping,
          nofun⟩
      · obtain ⟨out, serving, count, kept, bounded, early, -⟩ := ih (n + 1) handed
        refine ⟨⟨s.core, e⟩ :: out, .next head hd serving, ?_, kept, ?_, fun less => early ?_, nofun⟩
        · rw [count, List.length_cons]
          omega
        · exact Nat.succ_le_succ bounded
        · exact Nat.lt_of_succ_lt_succ less

theorem serve_fair (orderly : host.Orderly) (kind : PolicyKind) (n : Nat) (h : s.core.InStep)
    (choose : select s.core.index = some choice) :
    let r := serve host kind choice (if kind = .shortestRemaining then 1 else choice.entries) n s
    ∃ out, Serving host kind choice.file choice.direction s out r.2 ∧ r.1 = n + out.length ∧
      r.2.core.InStep ∧ Batch.Fair kind ⟨choice, s.core, out, r.2.core⟩ := by
  intro r
  have chosen : Chosen s.core.index choice := ((selects h).chosen choice).mp choose
  have waits : s.core.lane choice.file choice.direction ≠ [] := chosen.1.waits
  have entries : choice.entries = (s.core.lane choice.file choice.direction).length :=
    chosen.1.entries
  have some_wait : 0 < (s.core.lane choice.file choice.direction).length :=
    List.length_pos_iff.mpr waits
  obtain ⟨out, serving, count, kept, bounded, early, served⟩ :=
    serve_serving orderly kind (if kind = .shortestRemaining then 1 else choice.entries) n h
  have some_out : out ≠ [] := by
    refine served ?_ waits
    split <;> omega
  have prompt := serving.prompt some_out
  refine ⟨out, serving, count, kept, ⟨chosen, prompt, serving.heads, ?_, ?_, ?_⟩⟩
  · change out.length ≤ (s.core.lane choice.file choice.direction).length
    split at bounded <;> omega
  · intro batched less
    refine early ?_
    rw [if_neg batched, entries]
    exact less
  · intro each
    rw [if_pos each] at bounded
    obtain ⟨x, rest, rfl⟩ := List.exists_cons_of_ne_nil some_out
    obtain rfl : rest = [] := List.eq_nil_of_length_eq_zero (by simpa using bounded)
    have at_once : x.before = s.core := Option.some.inj prompt
    exact ⟨x, rfl, at_once ▸ chosen⟩

theorem loop_course (orderly : host.Orderly) (kind : PolicyKind) (deadline rounds n : Nat)
    (h : s.core.InStep) :
    let r := loop host kind deadline rounds n s
    ∃ batches, Course host kind deadline s batches r.session r.finished ∧
      (r.finished = false → batches.length = rounds) ∧
      r.outcome = ⟨n + (batches.flatMap Batch.out).length, none⟩ ∧ ∀ b ∈ batches, b.Fair kind := by
  induction rounds generalizing n s with
  | zero => exact ⟨[], .halted s, fun _ => rfl, rfl, by simp⟩
  | succ rounds ih =>
    unfold loop
    split
    · rename_i t yields
      exact ⟨[], .yields yields, nofun, rfl, by simp⟩
    · rename_i t goes_on
      have same : t.core = s.core := by
        have core := Session.core_shouldYield host deadline s
        rwa [goes_on] at core
      have inStep : t.core.InStep := same ▸ h
      split
      · rename_i none
        exact ⟨[], .idle goes_on none, nofun, rfl, by simp⟩
      · rename_i choice choose
        obtain ⟨out, serving, count, kept, fair⟩ := serve_fair orderly kind n inStep choose
        obtain ⟨batches, course, halted, outcome, fairs⟩ := ih (n + out.length) kept
        dsimp only
        rw [count]
        refine ⟨_, .batch goes_on choose serving course, fun unfinished => ?_, ?_,
          List.forall_mem_cons.mpr ⟨fair, fairs⟩⟩
        · rw [List.length_cons, halted unfinished]
        · rw [outcome, List.flatMap_cons, List.length_append, Nat.add_assoc]

end Shortest

namespace System

open Shortest

variable {ω : Type}

/-- After any calls and steps of the policies, a choice finds the lane with the least expected to
remain, if anything waits in a lane; and a call of one of the two policies serves lanes chosen so,
whatever the callers do meanwhile. It goes on to its end, or to as many batches as the limit
allows. -/
theorem run_serves_shortest (setup : Setup) (ops : List Operation) (host : Host ω)
    (orderly : host.Orderly) (world : ω) (kind : PolicyKind) (limit : Nat) :
    let s : Session ω := ⟨((start setup).performAll ops).core, world⟩
    let r := schedule host kind limit s
    Selects s.core.index ∧ ∃ batches,
      Course host kind (s.core.refreshDeadline (s.now host).1) (s.now host).2 batches
        r.session r.finished ∧
      (r.finished = false → batches.length = limit) ∧
      r.outcome = ⟨(batches.flatMap Batch.out).length, none⟩ ∧ ∀ b ∈ batches, b.Fair kind := by
  intro s r
  have inStep : s.core.InStep := (performAll_aging (aging_start setup) ops).kept.inStep
  have start : (s.now host).2.core.InStep := inStep
  obtain ⟨batches, course, halted, outcome, fair⟩ := loop_course orderly kind
    (s.core.refreshDeadline (s.now host).1) limit 0 start
  rw [Nat.zero_add] at outcome
  exact ⟨selects inStep, batches, course, halted, outcome, fair⟩

/-- Less remains in `f`, which is chosen with three entries. Whenever the caller's code is handed
requests, it withdraws the third of them; so two are served, and then that of `g`. -/
theorem withdrawn_entry_not_served :
    let host := Host.meanwhile fun c =>
      ((⟨c, [], [], [], [], [], []⟩ : System).act (.cancel ⟨"f", .read, 32, 8⟩)).core
    let s : Session Unit := ⟨((start (.of .defaults .one 1)).performAll
      [.act (.migrate .shortestJob), .act (.submit 0 ⟨"f", .read, 0, 8, 0, 0⟩),
        .act (.submit 0 ⟨"f", .read, 16, 8, 0, 0⟩), .act (.submit 0 ⟨"f", .read, 32, 8, 0, 0⟩),
        .act (.submit 0 ⟨"g", .write, 0, 64, 0, 0⟩)]).core, ()⟩
    let r := schedule host .shortestJob 3 s
    select s.core.index = some ⟨48, "f", .read, 3⟩ ∧ r.finished = true ∧ r.outcome.dispatched = 3 ∧
      Selects s.core.index ∧ ∃ batches,
        Course host .shortestJob (s.core.refreshDeadline (s.now host).1) (s.now host).2 batches
          r.session r.finished ∧
        (r.finished = false → batches.length = 3) ∧
        r.outcome = ⟨(batches.flatMap Batch.out).length, none⟩ ∧
        ∀ b ∈ batches, b.Fair .shortestJob :=
  ⟨by decide +kernel, by decide +kernel, by decide +kernel, run_serves_shortest _ _ _
    (Host.orderly_meanwhile fun c => .act ⟨c, [], [], [], [], [], []⟩ _) () .shortestJob 3⟩

end System

end IoScheduling
