import IoScheduling.Proofs.Acknowledgment
import IoScheduling.Proofs.Priorities
import IoScheduling.Proofs.Withdrawal
import IoScheduling.Service.Checksum

/-! # Orders that come to arrival order

Three policies keep their entries on the timeline. When merging is held to one request, or when
there is only one stream, their orders differ in how a place is looked for and not in which place is
found: every arrival goes to the end. This is shown against a line that serves requests first in,
first out. Streams are left out of the comparison; a line knows none. -/
namespace IoScheduling

open Index (Keeps)

def TimelineOrder.keyAt (order : TimelineOrder) (now : Nat) : Nat :=
  match order with
  | .timeWindow window streams => satMul (now / max window 1) (max streams 1)
  | _ => 0

namespace TimelineOrder

theorem keyAt_mono (order : TimelineOrder) {a b : Nat} (h : a ≤ b) :
    order.keyAt a ≤ order.keyAt b := by
  cases order with
  | fifo => exact Nat.le_refl 0
  | fifoAggregate => exact Nat.le_refl 0
  | timeWindow window streams =>
    have earlier : a / max window 1 ≤ b / max window 1 := Nat.div_le_div_right h
    exact min_le_min_right maxWord (Nat.mul_le_mul_right _ earlier)

theorem priority_single {order : TimelineOrder} (windows : order.isPriority) {r : Request}
    (lowest : r.stream = 0) : order.priority (.single r) = order.keyAt r.arrival := by
  cases order with
  | fifo => cases windows
  | fifoAggregate => cases windows
  | timeWindow window streams =>
    change satAdd (satMul (r.arrival / max window 1) (max streams 1)) r.stream = _
    rw [lowest]
    exact satAdd_eq (satMul_le_maxWord _ _)

end TimelineOrder

namespace Timeline

/-- From `now` on every arrival of the lowest stream goes to the end: nothing can merge, and no entry
has a priority that is still to come. -/
structure AtEnd (t : Timeline) (now : Nat) : Prop where
  apart : t.order = .fifoAggregate → t.limit ≤ 1
  sorted : t.order.isPriority → t.InOrder
  passed : t.order.isPriority → ∀ s ∈ t.slots, s.priority ≤ t.order.keyAt now

variable {t t' : Timeline} {now : Nat} {r : Request} {a : Address}

theorem partner?_eq_none {limit : Nat} (h : limit ≤ 1) (slots : List Slot) (skip : Option Nat)
    (node : Entry) : partner? limit slots skip node = none := by
  cases hp : partner? limit slots skip node with
  | none => rfl
  | some i =>
    obtain ⟨s, -, -, both⟩ := partner?_some hp
    obtain ⟨-, -, -, fits⟩ := partners_iff.mp both
    have := s.entry.count_pos
    have := node.count_pos
    omega

theorem AtEnd.later (h : t.AtEnd now) {later : Nat} (le : now ≤ later) : t.AtEnd later where
  apart := h.apart
  sorted := h.sorted
  passed := by
    intro windows s hs
    exact (h.passed windows s hs).trans (t.order.keyAt_mono le)

theorem AtEnd.sublist (h : t.AtEnd now) (order : t'.order = t.order) (limit : t'.limit = t.limit)
    (fewer : t'.slots.Sublist t.slots) : t'.AtEnd now where
  apart := by
    rw [order, limit]
    exact h.apart
  sorted := by
    rw [order]
    exact fun windows => (h.sorted windows).sublist fewer
  passed := by
    rw [order]
    exact fun windows s hs => h.passed windows s (fewer.subset hs)

theorem AtEnd.add (h : t.AtEnd now) (le : now ≤ r.arrival)
    (lowest : t.order.isPriority → r.stream = 0) :
    (t.add (.single r)).1.entries = t.entries ++ [.single r] ∧
      (t.add (.single r)).1.AtEnd r.arrival := by
  have here := h.later le
  have order := order_add t (.single r)
  have limit := limit_add t (.single r)
  have slots : (t.add (.single r)).1.slots = t.slots ++ [t.slotOf (.single r)] := by
    unfold Timeline.add
    dsimp only
    split
    · rfl
    · rename_i merging
      rw [addMerging, partner?_eq_none (h.apart merging)]
      rfl
    · rename_i window streams windowed
      have windows : t.order.isPriority := by rw [windowed]; rfl
      have every : ∀ s ∈ t.slots, decide (s.priority ≤ t.order.priority (.single r)) = true := by
        intro s hs
        rw [TimelineOrder.priority_single windows (lowest windows)]
        exact decide_eq_true (here.passed windows s hs)
      -- No entry has a larger priority, so the boundary lies behind the last one.
      have last : t.store.boundary (fun s => s.priority ≤ t.order.priority (.single r)) =
          t.slots.length := by
        obtain ⟨halving, count⟩ := boundary_eq (h.sorted windows) (t.order.priority (.single r))
        rw [halving, count]
        exact List.countP_eq_length.mpr every
      change t.slots.insertIdx (t.store.boundary fun s =>
        s.priority ≤ t.order.priority (.single r)) (t.slotOf (.single r)) = _
      rw [last, List.insertIdx_length_self]
  have entries : (t.add (.single r)).1.entries = t.entries ++ [.single r] := by
    rw [Timeline.entries, slots, List.map_append]
    rfl
  refine ⟨entries, ?_⟩
  constructor
  case apart =>
    rw [order, limit]
    exact h.apart
  case sorted =>
    rw [order]
    exact fun windows => inOrder_add (h.sorted windows) windows _
  case passed =>
    rw [order]
    intro windows s hs
    rw [slots] at hs
    rcases List.mem_append.mp hs with hs | hs
    · exact here.passed windows s hs
    · rw [List.mem_singleton.mp hs]
      exact (TimelineOrder.priority_single windows (lowest windows)).le

theorem AtEnd.pop? {e : Entry} (h : t.AtEnd now) (hp : t.pop? = some (e, t')) : t'.AtEnd now := by
  obtain ⟨s, split, -, form⟩ := pop?_slots hp
  apply h.sublist
  · rw [form]
  · rw [form]
  · rw [split]
    exact List.sublist_cons_self s t'.slots

theorem AtEnd.withdraw (h : t.AtEnd now) (singles : ∀ e ∈ t.entries, ∃ q, e = .single q)
    (hw : t.withdraw a = some (r, t')) : t'.AtEnd now := by
  obtain ⟨front, s, back, k, runs, -, split, hx, after, form⟩ := withdraw_slots hw
  have stored : s.entry ∈ t.entries := List.mem_map_of_mem (split ▸ by simp)
  obtain ⟨q, lone⟩ := singles s.entry stored
  rw [lone] at hx
  obtain ⟨p, hp, -, runs_eq⟩ := extract_some hx
  have first : k = 0 := by
    have lt := (List.getElem?_eq_some_iff.mp hp).1
    simp only [Entry.requests, List.length_singleton] at lt
    omega
  subst first
  have none : runs = [] := runs_eq
  subst none
  apply h.sublist
  · rw [form]
  · rw [form]
  · rw [after, split]
    simp

end Timeline

def Request.streamless (r : Request) : Request := { r with stream := 0 }

def Handover.streamless : Handover → Handover
  | .one r => .one r.streamless
  | .many rs => .many (rs.map Request.streamless)

def Admission.streamless : Admission → Admission
  | .passThrough r => .passThrough r.streamless
  | other => other

namespace Fifo

inductive Call where
  | submit (now : Nat) (s : Submission)
  | cancel (a : Address)
  | complete (now : Nat) (a : Address)
  | dispatch (now : Nat)
  deriving DecidableEq, Repr

def Call.reading : Call → Option Nat
  | submit now _ => some now
  | cancel _ => none
  | complete now _ => some now
  | dispatch now => some now

/-- The clock never goes back from one call to the next. -/
def InTurn (calls : List Call) : Prop := (calls.filterMap Call.reading).Pairwise (· ≤ ·)

instance (calls : List Call) : Decidable (InTurn calls) :=
  inferInstanceAs (Decidable (List.Pairwise _ _))

inductive Answer where
  | admission (outcome : Admission)
  | settled (outcome : Except Fault Unit)
  | delivered (handovers : List Handover)

def Answer.streamless : Answer → Answer
  | admission outcome => .admission outcome.streamless
  | settled outcome => .settled outcome
  | delivered handovers => .delivered (handovers.map Handover.streamless)

/-- What is seen of a call, streams aside: its answer, and the requests that are pending after it,
entry by entry in the order of the timeline, and in the lanes. -/
structure View where
  answer : Answer
  timeline : List (List Request)
  lanes : List Request

/-- A line that serves first in, first out. -/
structure Line where
  nextSeq : Nat
  waiting : List Request
  /-- How many requests of the address were handed out and are not yet acknowledged. -/
  held : Address → Nat

namespace Line

def start : Line := ⟨0, [], fun _ => 0⟩

def arrive (q : Line) (now : Nat) (s : Submission) : Line :=
  let r : Request := ⟨s.file, s.direction, s.offset, s.length, now, q.nextSeq, s.token, 0, 0⟩
  { q with nextSeq := q.nextSeq + 1, waiting := q.waiting ++ [r] }

def serve (callbacks : Callbacks) (q : Line) : Call → Line × Answer
  | .submit now s => (q.arrive now s, .admission .queued)
  | .cancel a =>
    if q.waiting.any fun r => r.address = a then
      ({ q with waiting := q.waiting.eraseP fun r => r.address = a }, .settled (.ok ()))
    else (q, .settled (.error (.notFound a)))
  | .complete _ a =>
    if 0 < q.held a then
      ({ q with held := fun b => q.held b - if b = a then 1 else 0 }, .settled (.ok ()))
    else (q, .settled (.error (.notFound a)))
  | .dispatch _ =>
    match q.waiting with
    | [] => (q, .delivered [])
    | r :: rest =>
      ({ q with waiting := rest, held := fun b => q.held b + if r.address = b then 1 else 0 },
        .delivered (callbacks.handovers [r]))

def view (q : Line) (answer : Answer) : View := ⟨answer, q.waiting.map fun r => [r], []⟩

def trace (callbacks : Callbacks) : Line → List Call → List View
  | _, [] => []
  | q, x :: calls =>
    let (q', answer) := q.serve callbacks x
    q'.view answer :: q'.trace callbacks calls

end Line

end Fifo

namespace Core

open Fifo (Call InTurn Answer View Line)

def serve (c : Core) : Call → Core × Answer
  | .submit now s =>
    let (c, outcome) := c.submit now s
    (c, .admission outcome)
  | .cancel a =>
    let (c, outcome) := c.cancel a
    (c, .settled outcome)
  | .complete now a =>
    let (c, outcome) := c.complete now a
    (c, .settled outcome)
  | .dispatch now =>
    match c.dispatchHead? now c.active with
    | none => (c, .delivered [])
    | some (requests, c) => (c, .delivered (c.setup.callbacks.handovers requests))

def view (c : Core) (answer : Answer) : View where
  answer := answer.streamless
  timeline := c.timeline.entries.map fun e => e.requests.map Request.streamless
  lanes := c.inLanes.map Request.streamless

def trace : Core → List Call → List View
  | _, [] => []
  | c, x :: calls =>
    let (c', answer) := c.serve x
    c'.view answer :: c'.trace calls

/-- The core has what the line has, and will go on doing what the line does. -/
structure Follows (now : Nat) (callbacks : Callbacks) (c : Core) (q : Line) : Prop where
  inStep : c.InStep
  callbacks : c.setup.callbacks = callbacks
  unbucketed : c.active.profile.bucketed = false
  running : c.stopping = false
  nextSeq : c.nextSeq = q.nextSeq
  waiting : ∃ rs : List Request, c.timeline.entries = rs.map Entry.single ∧
    rs.map Request.streamless = q.waiting
  held : ∀ a, c.index.heldAt a = q.held a
  atEnd : c.timeline.AtEnd now
  streams : c.timeline.order.isPriority → c.setup.maxStream ≤ 1

variable {c : Core} {q : Line} {now : Nat} {callbacks : Callbacks} {a : Address}

theorem Follows.not_passing (h : c.Follows now callbacks q) : c.active ≠ .passThrough := by
  intro passing
  have unbucketed := h.unbucketed
  rw [passing] at unbucketed
  cases unbucketed

theorem Follows.view_eq (h : c.Follows now callbacks q) {answer answer' : Answer}
    (same : answer.streamless = answer') : c.view answer = q.view answer' := by
  obtain ⟨rs, entries, waiting⟩ := h.waiting
  have unused := h.inStep.unused
  rw [if_neg (by rw [h.unbucketed]; decide)] at unused
  have empty : c.index.entries = [] := entries_eq_nil (c.index.contents_entries.trans unused)
  have lanes : c.inLanes = [] := by rw [inLanes, empty]; rfl
  rw [view, Line.view, same, lanes, entries, ← waiting]
  simp [Entry.requests]

theorem Follows.later (h : c.Follows now callbacks q) {later : Nat} (le : now ≤ later) :
    c.Follows later callbacks q where
  inStep := h.inStep
  callbacks := h.callbacks
  unbucketed := h.unbucketed
  running := h.running
  nextSeq := h.nextSeq
  waiting := h.waiting
  held := h.held
  atEnd := h.atEnd.later le
  streams := h.streams

theorem Follows.ledger (h : c.Follows now callbacks q) (l : Ledger) :
    Follows now callbacks { c with ledger := l } q where
  inStep := h.inStep
  callbacks := h.callbacks
  unbucketed := h.unbucketed
  running := h.running
  nextSeq := h.nextSeq
  waiting := h.waiting
  held := h.held
  atEnd := h.atEnd
  streams := h.streams

/-- After the call the core follows the line, and the answers are the same but for streams. -/
def FollowsOn (now : Nat) (callbacks : Callbacks) (c : Core) (q : Line) (x : Call) : Prop :=
  (c.serve x).1.Follows now callbacks (q.serve callbacks x).1 ∧
    (c.serve x).2.streamless = (q.serve callbacks x).2

theorem Follows.submit_eq (h : c.Follows now callbacks q) (s : Submission) :
    ∃ l, c.submit now s = ({ c with
      nextSeq := c.nextSeq + 1
      index := c.index.noteTimelineAdd s.file 1 now
      timeline := (c.timeline.add (.single (c.stamp now s))).1
      ledger := l
      workSignal := true }, .queued) := by
  unfold submit
  rw [if_neg (by rw [h.running]; decide)]
  dsimp only
  rw [if_neg h.not_passing]
  unfold enqueue
  dsimp only
  rw [if_neg (by rw [h.unbucketed]; decide)]
  exact ⟨_, rfl⟩

theorem follows_submit (h : c.Follows now callbacks q) (s : Submission) :
    c.FollowsOn now callbacks q (.submit now s) := by
  have inStep := submit_inStep h.inStep now s
  obtain ⟨l, form⟩ := h.submit_eq s
  obtain ⟨rs, entries, waiting⟩ := h.waiting
  have lowest : c.timeline.order.isPriority → (c.stamp now s).stream = 0 := by
    intro windows
    have := h.streams windows
    change min s.stream (c.setup.maxStream - 1) = 0
    omega
  obtain ⟨last, atEnd⟩ := h.atEnd.add (r := c.stamp now s) (Nat.le_refl now) lowest
  have keeps : Index.SameRecords c.index (c.index.noteTimelineAdd s.file 1 now) :=
    Index.noteTimelineAdd_keeps Lane.handedOut c.index s.file 1 now
  have order := Timeline.order_add c.timeline (.single (c.stamp now s))
  have stamped : (c.stamp now s).streamless =
      ⟨s.file, s.direction, s.offset, s.length, now, q.nextSeq, s.token, 0, 0⟩ := by
    rw [← h.nextSeq]
    rfl
  rw [form] at inStep
  rw [FollowsOn, serve, form]
  refine ⟨?_, rfl⟩
  constructor
  case inStep => exact inStep
  case callbacks => exact h.callbacks
  case unbucketed => exact h.unbucketed
  case running => exact h.running
  case nextSeq => exact congrArg (· + 1) h.nextSeq
  case waiting =>
    refine ⟨rs ++ [c.stamp now s], ?_, ?_⟩
    · rw [last, entries, List.map_append]
      rfl
    · rw [List.map_append, waiting]
      exact congrArg (q.waiting ++ [·]) stamped
  case held => exact fun a => (keeps.heldAt a).trans (h.held a)
  case atEnd => exact atEnd
  case streams =>
    intro windows
    rw [order] at windows
    exact h.streams windows

theorem address_streamless (r : Request) : r.streamless.address = r.address := rfl

theorem eraseP_first {front back : List Request} {r : Request} (here : r.address = a)
    (others : ∀ o ∈ front, o.address ≠ a) :
    (front ++ r :: back).eraseP (fun o => o.address = a) = front ++ back := by
  rw [List.eraseP_append_right]
  · simp [here]
  · intro o ho
    simpa using others o ho

theorem follows_cancel (h : c.Follows now callbacks q) (a : Address) :
    c.FollowsOn now callbacks q (.cancel a) := by
  have unbucketed : ¬ c.active.profile.bucketed := by
    rw [h.unbucketed]
    decide
  obtain ⟨rs, entries, waiting⟩ := h.waiting
  have files : ∀ e ∈ c.timeline.entries, ∀ r ∈ e.requests, r.file = e.file := by
    intro e he r hr
    exact ((h.inStep.timeline.entries e he).belongs r hr).1
  have singles : ∀ e ∈ c.timeline.entries, ∃ p, e = .single p := by
    intro e he
    rw [entries] at he
    obtain ⟨p, -, rfl⟩ := List.mem_map.mp he
    exact ⟨p, rfl⟩
  obtain ⟨absent, unheld⟩ | ⟨front, e, back, before, r, after, t, first, taken, left⟩ :=
    c.timeline.withdraw_cases a files
  · have none : ¬ q.waiting.any fun r => r.address = a := by
      intro found
      obtain ⟨p, hp, same⟩ := List.any_eq_true.mp found
      rw [← waiting] at hp
      obtain ⟨o, ho, rfl⟩ := List.mem_map.mp hp
      exact unheld ⟨.single o, entries ▸ List.mem_map_of_mem ho, o, List.mem_singleton_self o,
        of_decide_eq_true same⟩
    have refused : c.dequeue a = .error (.notFound a) := by
      unfold dequeue
      rw [if_neg unbucketed, absent]
    rw [FollowsOn, serve, cancel, refused, Line.serve, if_neg none]
    exact ⟨h.ledger _, rfl⟩
  · -- The entry that holds the first request of the address holds that one only.
    obtain ⟨p, rfl⟩ := singles e (by rw [first.line_eq]; simp)
    obtain ⟨rfl, rfl, rfl⟩ : before = [] ∧ p = r ∧ after = [] := by
      have whole := first.requests_eq
      cases before with
      | nil => simpa [Entry.requests, and_comm, eq_comm] using whole
      | cons o before => simp [Entry.requests] at whole
    obtain ⟨low, high, rfl, rfl, rfl⟩ : ∃ low high : List Request, rs = low ++ p :: high ∧
        front = low.map Entry.single ∧ back = high.map Entry.single := by
      have split := entries.symm.trans first.line_eq
      obtain ⟨low, rest, rfl, rfl, tail⟩ := List.map_eq_append_iff.mp split
      obtain ⟨o, high, rfl, same, rfl⟩ := List.map_eq_cons_iff.mp tail
      obtain rfl := Entry.single.inj same
      exact ⟨low, high, rfl, rfl, rfl⟩
    have others : ∀ o ∈ low.map Request.streamless, o.address ≠ a := by
      intro o ho
      obtain ⟨r, hr, rfl⟩ := List.mem_map.mp ho
      exact first.entries_before (.single r) (List.mem_map_of_mem hr) r (List.mem_singleton_self r)
    have here : p.streamless.address = a := first.address_eq
    rw [List.map_append, List.map_cons] at waiting
    have found : q.waiting.any fun r => r.address = a := by
      rw [← waiting]
      simp [here]
    have taken_out : q.waiting.eraseP (fun r => r.address = a) =
        low.map Request.streamless ++ high.map Request.streamless := by
      rw [← waiting, eraseP_first here others]
    have dequeued : c.dequeue a = .ok (p.leaving (.single p), { c with
        index := if (c.index.file? a.file).isSome then c.index.noteTimelineRemove a.file 1
          else c.index
        timeline := t }) := by
      unfold dequeue
      rw [if_neg unbucketed, taken]
    obtain ⟨x, u, form, inStep, -⟩ := dequeue_effect h.inStep dequeued
    have keeps : Index.SameRecords c.index _ := dequeue_keeps Lane.blind_handedOut dequeued
    have order : t.order = c.timeline.order := by
      obtain ⟨-, -, -, -, -, -, -, -, -, same⟩ := Timeline.withdraw_slots taken
      rw [same]
    rw [FollowsOn, serve, cancel, dequeued, Line.serve, if_pos found, taken_out]
    refine ⟨?_, rfl⟩
    constructor
    case inStep =>
      rw [form]
      exact inStep
    case callbacks => exact h.callbacks
    case unbucketed => exact h.unbucketed
    case running => exact h.running
    case nextSeq => exact h.nextSeq
    case waiting =>
      refine ⟨low ++ high, ?_, List.map_append⟩
      rw [List.map_append]
      exact left.trans (by simp [regroup])
    case held => exact fun b => (keeps.heldAt b).trans (h.held b)
    case atEnd => exact h.atEnd.withdraw singles taken
    case streams =>
      change t.order.isPriority → _
      rw [order]
      exact h.streams

theorem release_error {x : Index} {fault : Fault} (h : x.release a = .error fault) :
    fault = .notFound a := by
  unfold Index.release at h
  split at h
  · cases h
  · exact (Except.error.inj h).symm

theorem follows_complete (h : c.Follows now callbacks q) (a : Address) :
    c.FollowsOn now callbacks q (.complete now a) := by
  have inStep := complete_inStep h.inStep now a
  have accepted : (c.complete now a).2 = .ok () ↔ _ := complete_ok_iff
  have held := c.complete_heldAt now a
  rw [h.held a] at accepted
  rw [FollowsOn, serve, Line.serve]
  obtain ⟨r, x, signal, hr, form⟩ | ⟨fault, hr, form⟩ := c.complete_cases now a
  · have some_held : 0 < q.held a := by
      rw [form] at accepted
      exact (accepted.mp rfl).resolve_left h.not_passing
    have found : (c.index.release a).isOk := by rw [hr]; rfl
    rw [if_pos some_held]
    rw [form] at inStep held ⊢
    refine ⟨?_, rfl⟩
    constructor
    case inStep => exact inStep
    case callbacks => exact h.callbacks
    case unbucketed => exact h.unbucketed
    case running => exact h.running
    case nextSeq => exact h.nextSeq
    case waiting => exact h.waiting
    case held =>
      intro b
      have taken := held b
      rw [h.held b] at taken
      simp only [found, and_true] at taken
      change (c.settledIndex now a r x).heldAt b + _ = q.held b at taken
      change (c.settledIndex now a r x).heldAt b = q.held b - if b = a then 1 else 0
      omega
    case atEnd => exact h.atEnd
    case streams => exact h.streams
  · obtain rfl := release_error hr
    rw [form, if_neg h.not_passing] at accepted
    have none_held : ¬ 0 < q.held a := by
      intro some_held
      cases accepted.mpr (.inr some_held)
    rw [if_neg none_held, form, if_neg h.not_passing]
    exact ⟨h.ledger _, rfl⟩

theorem handovers_streamless (callbacks : Callbacks) (r : Request) :
    (callbacks.handovers [r]).map Handover.streamless = callbacks.handovers [r.streamless] := by
  cases callbacks <;> rfl

theorem follows_dispatch (h : c.Follows now callbacks q) :
    c.FollowsOn now callbacks q (.dispatch now) := by
  obtain rfl := h.callbacks
  obtain ⟨rs, entries, waiting⟩ := h.waiting
  rw [FollowsOn, serve, Line.serve]
  cases rs with
  | nil =>
    have empty : c.dispatchHead? now c.active = none := by
      have slots : c.timeline.slots = [] := Timeline.slots_eq_nil entries
      rw [dispatchHead?, Timeline.pop?, slots]
      rfl
    rw [empty, ← waiting]
    exact ⟨h, rfl⟩
  | cons r rs =>
    obtain ⟨t, popped⟩ : ∃ t, c.timeline.pop? = some (.single r, t) := by
      obtain ⟨s, slots, stored, lone, -⟩ := List.map_eq_cons_iff.mp entries
      have first : c.timeline.slots.head? = some s := by rw [stored]; rfl
      cases hp : c.timeline.pop? with
      | none =>
        rw [Timeline.pop?, first] at hp
        cases hp
      | some head =>
        rw [Timeline.pop?, first, Option.map_some, lone] at hp
        obtain rfl := Option.some.inj hp
        exact ⟨_, rfl⟩
    have dispatched : c.dispatchHead? now c.active = some ([r], ({ c with
        index := c.index.noteTimelineRemove r.file 1
        timeline := t } : Core).recordDispatch now r.file (.single r) c.active false) := by
      rw [dispatchHead?, popped]
      rfl
    have effect := dispatchHead?_effect h.inStep dispatched
    have recorded := dispatchHead?_heldAt h.inStep dispatched
    have order : t.order = c.timeline.order := by
      obtain ⟨-, -, -, same⟩ := Timeline.pop?_slots popped
      rw [same]
    rw [dispatched, ← waiting, List.map_cons]
    refine ⟨?_, congrArg Answer.delivered (handovers_streamless _ r)⟩
    constructor
    case inStep => exact effect.inStep
    case callbacks => exact h.callbacks
    case unbucketed => exact h.unbucketed
    case running => exact h.running
    case nextSeq => exact h.nextSeq
    case waiting =>
      have rest := (Timeline.pop?_some popped).1
      rw [entries] at rest
      exact ⟨rs, (List.cons.inj rest).2.symm, rfl⟩
    case held =>
      intro b
      refine (recorded b).trans ?_
      rw [h.held b]
      change q.held b + addressed b [r] = q.held b + if r.streamless.address = b then 1 else 0
      by_cases same : r.address = b <;> simp [addressed, address_streamless, same]
    case atEnd => exact h.atEnd.pop? popped
    case streams =>
      change t.order.isPriority → _
      rw [order]
      exact h.streams

theorem follows_serve (h : c.Follows now callbacks q) (x : Call)
    (later : ∀ t ∈ x.reading, now ≤ t) : c.FollowsOn (x.reading.getD now) callbacks q x := by
  cases x with
  | submit t s => exact follows_submit (h.later (later t rfl)) s
  | cancel a => exact follows_cancel h a
  | complete t a => exact follows_complete (h.later (later t rfl)) a
  | dispatch t => exact follows_dispatch (h.later (later t rfl))

theorem Follows.trace_eq (h : c.Follows now callbacks q) {calls : List Call}
    (sorted : InTurn calls) (later : ∀ t ∈ calls.filterMap Call.reading, now ≤ t) :
    c.trace calls = q.trace callbacks calls := by
  induction calls generalizing c q now with
  | nil => rfl
  | cons x calls ih =>
    obtain ⟨here, above, sorted⟩ : (∀ t ∈ x.reading, now ≤ t) ∧
        (∀ t ∈ calls.filterMap Call.reading, x.reading.getD now ≤ t) ∧ InTurn calls := by
      unfold InTurn at sorted
      cases hx : x.reading with
      | none =>
        rw [List.filterMap_cons_none hx] at sorted later
        exact ⟨nofun, later, sorted⟩
      | some read =>
        rw [List.filterMap_cons_some hx] at sorted later
        obtain ⟨above, sorted⟩ := List.pairwise_cons.mp sorted
        refine ⟨?_, above, sorted⟩
        rintro t ⟨⟩
        exact later _ List.mem_cons_self
    obtain ⟨follows, same⟩ := follows_serve h x here
    change (c.serve x).1.view (c.serve x).2 :: (c.serve x).1.trace calls = _
    rw [follows.view_eq same, ih follows sorted above]
    rfl

theorem follows_start {setup : Setup} (unbucketed : setup.config.initialKind.profile.bucketed = false)
    (apart : setup.order setup.config.initialKind = .fifoAggregate →
      setup.limit setup.config.initialKind ≤ 1)
    (streams : (setup.order setup.config.initialKind).isPriority → setup.maxStream ≤ 1) :
    (start setup).Follows 0 setup.callbacks Line.start where
  inStep := inStep_start setup
  callbacks := rfl
  unbucketed := unbucketed
  running := rfl
  nextSeq := rfl
  waiting := ⟨[], rfl, rfl⟩
  held := Index.heldAt_withHash _ _
  atEnd := by
    constructor
    case apart =>
      intro merging
      exact max_le (apart merging) (Nat.le_refl 1)
    case sorted => exact fun _ => List.Pairwise.nil
    case passed => exact fun _ s hs => absurd hs List.not_mem_nil
  streams := streams

variable {plain merging windowed : Setup} {calls : List Call}

/-- Held to one request, the order that merges is arrival order, and so is the order that goes by
windows if there is only one stream: nobody who calls the three cores can tell them apart, from
each other or from a line. -/
theorem degenerate_orders_agree (hp : plain.config.initialKind = .timeOrder)
    (hm : merging.config.initialKind = .timeOrderMerging)
    (hw : windowed.config.initialKind = .timeWindow)
    (unmerged : merging.config.maxAggregationSize = 1) (lone : windowed.maxStream = 1)
    (callbacks : merging.callbacks = plain.callbacks ∧ windowed.callbacks = plain.callbacks)
    (sorted : InTurn calls) :
    (start merging).trace calls = (start plain).trace calls ∧
      (start windowed).trace calls = (start plain).trace calls ∧
      (start plain).trace calls = Line.start.trace plain.callbacks calls := by
  have first : (start plain).Follows 0 plain.callbacks Line.start := by
    apply follows_start
    · rw [hp]
      rfl
    · rw [hp]
      nofun
    · rw [hp]
      nofun
  have second : (start merging).Follows 0 merging.callbacks Line.start := by
    apply follows_start
    · rw [hm]
      rfl
    · intro _
      rw [hm, Setup.limit, Config.aggregationLimit, unmerged]
      decide
    · rw [hm]
      nofun
  have third : (start windowed).Follows 0 windowed.callbacks Line.start := by
    apply follows_start
    · rw [hw]
      rfl
    · rw [hw]
      nofun
    · exact fun _ => lone.le
  rw [callbacks.1] at second
  rw [callbacks.2] at third
  have zero : ∀ t ∈ calls.filterMap Call.reading, 0 ≤ t := fun t _ => t.zero_le
  have plainly := first.trace_eq sorted zero
  exact ⟨(second.trace_eq sorted zero).trans plainly.symm,
    (third.trace_eq sorted zero).trans plainly.symm, plainly⟩

/-- Requests that touch, a duplicate, streams out of range, a withdrawal in the middle and one that
fails, a second acknowledgment: the three cores hold and hand over the same throughout. -/
theorem degenerate_orders_agree_on_neighbours :
    let config (name : String) : Config := { Config.defaults with defaultPolicy := name }
    let plain : Setup := .of (config "TO") .both 4
    let merging : Setup := .of { config "TO_AGG" with maxAggregationSize := 1 } .both 4
    let windowed : Setup := .of { config "TW" with timeWindowNs := 7 } .both 1
    let calls : List Call :=
      [.submit 1 ⟨"a", .read, 8, 8, 0, 3⟩, .submit 1 ⟨"a", .read, 0, 8, 1, 0⟩,
        .submit 5 ⟨"b", .write, 0, 4, 2, 9⟩, .submit 9 ⟨"a", .read, 0, 8, 3, 1⟩,
        .submit 9 ⟨"a", .read, 16, 8, 4, 0⟩, .cancel ⟨"a", .read, 0, 8⟩, .dispatch 12,
        .cancel ⟨"a", .read, 8, 8⟩, .complete 13 ⟨"a", .read, 8, 8⟩,
        .complete 13 ⟨"a", .read, 8, 8⟩, .dispatch 20, .dispatch 20]
    ((start plain).trace calls).map (fun v => v.timeline.map fun e => e.map Request.token) =
        [[[0]], [[0], [1]], [[0], [1], [2]], [[0], [1], [2], [3]], [[0], [1], [2], [3], [4]],
          [[0], [2], [3], [4]], [[2], [3], [4]], [[2], [3], [4]], [[2], [3], [4]],
          [[2], [3], [4]], [[3], [4]], [[4]]] ∧
      (start merging).trace calls = (start plain).trace calls ∧
      (start windowed).trace calls = (start plain).trace calls := by
  intro config plain merging windowed calls
  have first : plain.config.initialKind = .timeOrder := by decide +kernel
  have second : merging.config.initialKind = .timeOrderMerging := by decide +kernel
  have third : windowed.config.initialKind = .timeWindow := by decide +kernel
  have sorted : InTurn calls := by decide
  obtain ⟨merged, grouped, -⟩ :=
    degenerate_orders_agree first second third rfl rfl ⟨rfl, rfl⟩ sorted
  exact ⟨by decide +kernel, merged, grouped⟩

end Core

end IoScheduling
