import IoScheduling.Proofs.Acknowledgment
import IoScheduling.Proofs.Alterations
import IoScheduling.Proofs.Balance
import IoScheduling.Proofs.Hosts
import IoScheduling.Service.Checksum
import Mathlib.Algebra.BigOperators.Group.Finset.Basic

/-! # Which acknowledgments are waited for

What goes out under a synchronous policy has to be acknowledged before anything else is selected.
An acknowledgment names an address and takes the oldest record of it. So where a request of the same
address went out earlier and is still unacknowledged, it takes the acknowledgment of the later one,
and the scheduler goes on waiting although the caller's code has acknowledged all it was handed. -/
namespace IoScheduling

namespace Core

open Index (SameRecords)

/-- A call that neither dispatches nor acknowledges, or taking notice of a signal. -/
inductive SideCall (c : Core) : Core → Prop where
  | submit (now : Nat) (call : Submission) : SideCall c (c.submit now call).1
  | settle (length : Nat) : SideCall c (c.noteRelease length)
  | cancel (a : Address) : SideCall c (c.cancel a).1
  | force (k : PolicyKind) : SideCall c (c.force k)
  | stop : SideCall c c.requestStop
  | reset : SideCall c c.resetStatistics
  | noticed (work ack : Bool) : SideCall c { c with workSignal := work, ackSignal := ack }

/-- The addresses are acknowledged one after another, and side calls may come in between. -/
inductive Confirms : List Address → Core → Core → Prop where
  | done (c : Core) : Confirms [] c c
  | side {as : List Address} {c c' c'' : Core} : SideCall c c' → Confirms as c' c'' →
      Confirms as c c''
  | complete {a : Address} {as : List Address} {c c' : Core} (now : Nat) :
      Confirms as (c.complete now a).1 c' → Confirms (a :: as) c c'

variable {c c' c'' : Core} {as bs : List Address} {a : Address} {file : String} {d : Direction}
  {requests : List Request} {old new : List HandedOut}

theorem Confirms.append (first : Confirms as c c') (rest : Confirms bs c' c'') :
    Confirms (as ++ bs) c c'' := by
  induction first with
  | done => exact rest
  | side call _ ih => exact .side call (ih rest)
  | complete now _ ih => exact .complete now (ih rest)

theorem outstanding_submit (c : Core) (now : Nat) (call : Submission) :
    (c.submit now call).1.outstanding = c.outstanding := by
  obtain ⟨_, _, _, _, _, form⟩ := c.submit_frame now call
  rw [form]

theorem outstanding_cancel (c : Core) (a : Address) :
    (c.cancel a).1.outstanding = c.outstanding := by
  unfold cancel
  split
  · rename_i hd
    obtain ⟨-, x, -, rfl⟩ | ⟨-, t, -, rfl⟩ := dequeue_ok hd <;> rfl
  · rfl

theorem SideCall.leaves (call : SideCall c c') :
    SameRecords c.index c'.index ∧ c'.outstanding = c.outstanding := by
  cases call with
  | submit now call =>
    exact ⟨submit_keeps Lane.blind_handedOut c now call, outstanding_submit c now call⟩
  | cancel a =>
    refine ⟨?_, outstanding_cancel c a⟩
    unfold Core.cancel
    split
    · rename_i hd
      have keeps : SameRecords c.index _ := dequeue_keeps Lane.blind_handedOut hd
      exact keeps
    · exact fun _ _ => rfl
  | reset => exact ⟨c.reset_sameRecords, rfl⟩
  | settle | force | stop | noticed => exact ⟨fun _ _ => rfl, rfl⟩

/-- Of the records in a lane, the `new` ones are waited for, and nothing else is. They are of some
of the requests. The `old` records were there before. -/
structure Awaits (file : String) (d : Direction) (requests : List Request)
    (old new : List HandedOut) (c : Core) : Prop where
  records : c.index.recordsOf file d = old ++ new
  before : ∀ h ∈ old, h.synchronous = false
  after : ∀ h ∈ new, h.synchronous = true ∧ h.request ∈ requests
  outstanding : c.outstanding = new.length

theorem Awaits.side (h : Awaits file d requests old new c) (call : SideCall c c') :
    Awaits file d requests old new c' where
  records := (call.leaves.1 file d).trans h.records
  before := h.before
  after := h.after
  outstanding := call.leaves.2.trans h.outstanding

theorem complete_takes (c : Core) (now : Nat) {a : Address} (held : c.index.heldAt a ≠ 0) :
    ∃ r, (c.index.recordsOf a.file a.direction).find? (·.request.matchesRange a) = some r ∧
      (c.complete now a).1.index.recordsOf a.file a.direction =
        withoutOldest a (c.index.recordsOf a.file a.direction) ∧
      (c.complete now a).1.outstanding =
        if r.synchronous then c.outstanding - 1 else c.outstanding := by
  obtain ⟨r, x, signal, hr, form⟩ | ⟨fault, hr, -⟩ := c.complete_cases now a
  · obtain ⟨found, taken⟩ := Index.release_oldest hr
    have same : SameRecords x (c.settledIndex now a r x) :=
      settledIndex_keeps Lane.blind_handedOut c now a r x
    refine ⟨r, found, ?_, by rw [form]⟩
    rw [form, same, taken, if_pos ⟨rfl, rfl⟩]
  · obtain ⟨r, y, released⟩ := Index.release_of_heldAt (Nat.pos_of_ne_zero held)
    rw [released] at hr
    cases hr

theorem complete_misses (c : Core) (now : Nat) {a : Address} (none : c.index.heldAt a = 0) :
    (c.complete now a).1.index = c.index ∧ (c.complete now a).1.outstanding = c.outstanding := by
  obtain ⟨r, x, signal, hr, -⟩ | ⟨fault, -, form⟩ := c.complete_cases now a
  · have found := (Index.release_oldest hr).1
    have range := List.find?_some found
    have held : 0 < c.index.heldAt a :=
      List.countP_pos_iff.mpr ⟨r, List.mem_of_find?_eq_some found, range⟩
    exact absurd none held.ne'
  · rw [form]
    split <;> exact ⟨rfl, rfl⟩

theorem Awaits.complete (h : Awaits file d requests old new c) (now : Nat) (hf : a.file = file)
    (hd : a.direction = d) :
    if recordsAt a old = 0 then
      Awaits file d requests old (withoutOldest a new) (c.complete now a).1
    else Awaits file d requests (withoutOldest a old) new (c.complete now a).1 := by
  subst hf hd
  have split : c.index.heldAt a = recordsAt a old + recordsAt a new := by
    rw [Index.heldAt, h.records, List.countP_append]
    rfl
  by_cases none : c.index.heldAt a = 0
  · obtain ⟨index, outstanding⟩ := complete_misses c now none
    obtain ⟨no_old, no_new⟩ := Nat.add_eq_zero_iff.mp (split.symm.trans none)
    rw [if_pos no_old, withoutOldest_none no_new]
    exact ⟨by rw [index, h.records], h.before, h.after, outstanding.trans h.outstanding⟩
  obtain ⟨r, found, left, outstanding⟩ := complete_takes c now none
  have range := List.find?_some found
  rw [h.records, List.find?_append] at found
  rw [h.records, withoutOldest_append] at left
  by_cases no_old : recordsAt a old = 0
  · rw [if_pos no_old] at left ⊢
    have not_old : old.find? (·.request.matchesRange a) = .none :=
      List.find?_eq_none.mpr (List.countP_eq_zero.mp no_old)
    rw [not_old, Option.none_or] at found
    have newer : r ∈ new := List.mem_of_find?_eq_some found
    have some_new : recordsAt a new ≠ 0 := (List.countP_pos_iff.mpr ⟨r, newer, range⟩).ne'
    refine ⟨left, h.before, fun o ho => h.after o (mem_of_mem_withoutOldest ho), ?_⟩
    rw [outstanding, if_pos (h.after r newer).1, length_withoutOldest some_new, h.outstanding]
  · rw [if_neg no_old] at left ⊢
    obtain ⟨o, mem, hits⟩ := List.countP_pos_iff.mp (Nat.pos_of_ne_zero no_old)
    have some_old : (old.find? (·.request.matchesRange a)).isSome :=
      List.find?_isSome.mpr ⟨o, mem, hits⟩
    rw [Option.or_of_isSome some_old] at found
    have async := h.before r (List.mem_of_find?_eq_some found)
    refine ⟨left, fun o ho => h.before o (mem_of_mem_withoutOldest ho), h.after, ?_⟩
    rw [outstanding, async, if_neg Bool.false_ne_true, h.outstanding]

theorem Awaits.acknowledge {b : Address} (h : Awaits file d requests old new c) (now : Nat)
    (hf : b.file = file) (hd : b.direction = d) :
    ∃ old' new', Awaits file d requests old' new' (c.complete now b).1 ∧
      ∀ a : Address, a.file = file → ∀ n, recordsAt a new' - (n - recordsAt a old') =
        recordsAt a new - ((n + if a = b then 1 else 0) - recordsAt a old) := by
  have taken := h.complete now hf hd
  split at taken
  · rename_i none
    refine ⟨old, withoutOldest b new, taken, fun a ha n => ?_⟩
    rw [recordsAt_withoutOldest (ha.trans hf.symm)]
    by_cases same : a = b
    · rw [if_pos same, same]
      omega
    · rw [if_neg same]
      omega
  · rename_i some_old
    refine ⟨withoutOldest b old, new, taken, fun a ha n => ?_⟩
    rw [recordsAt_withoutOldest (ha.trans hf.symm)]
    by_cases same : a = b
    · rw [if_pos same, same]
      omega
    · rw [if_neg same]
      omega

theorem Confirms.awaits (calls : Confirms as c c') (h : Awaits file d requests old new c)
    (here : ∀ a ∈ as, a.file = file ∧ a.direction = d) :
    ∃ old' new', Awaits file d requests old' new' c' ∧ ∀ a : Address, a.file = file →
      recordsAt a new' = recordsAt a new - (as.count a - recordsAt a old) := by
  induction calls generalizing old new with
  | done => exact ⟨old, new, h, fun a _ => by rw [List.count_nil, Nat.zero_sub, Nat.sub_zero]⟩
  | side call _ ih => exact ih (h.side call) here
  | @complete b as c c' now _ ih =>
    obtain ⟨hf, hd⟩ := here b List.mem_cons_self
    obtain ⟨old₁, new₁, first, step⟩ := h.acknowledge now hf hd
    obtain ⟨old', new', last, left⟩ := ih first fun a ha => here a (List.mem_cons_of_mem b ha)
    have count (a : Address) : (b :: as).count a = as.count a + if a = b then 1 else 0 := by
      rw [List.count_cons, BEq.comm]
      simp only [beq_iff_eq]
    exact ⟨old', new', last, fun a ha => by rw [left a ha, step a ha, count]⟩

theorem addressed_eq_count (a : Address) (requests : List Request) :
    addressed a requests = (requests.map Request.address).count a := by
  rw [List.count, List.countP_map]
  exact List.countP_congr fun r _ => by simp

theorem recordsAt_eq_addressed {records : List HandedOut}
    (here : ∀ h ∈ records, h.request.file = a.file) :
    recordsAt a records = addressed a (records.map HandedOut.request) := by
  rw [recordsAt, addressed, List.countP_map]
  exact List.countP_congr fun h hh => by simp [Request.matchesRange_iff (here h hh)]

/-- When each request has been acknowledged, as many of an address are still waited for as there
were old records of it. -/
theorem Awaits.confirmed (h' : Awaits file d requests old new c)
    (same : new.map HandedOut.request = requests)
    (own : ∀ r ∈ requests, r.file = file ∧ r.direction = d) (calls : Confirms as c c')
    (once : as.Perm (requests.map Request.address)) :
    c'.outstanding = ∑ a ∈ (requests.map Request.address).toFinset,
      min (recordsAt a old) (addressed a requests) := by
  have here : ∀ a ∈ as, a.file = file ∧ a.direction = d := by
    intro a ha
    obtain ⟨r, hr, rfl⟩ := List.mem_map.mp (once.mem_iff.mp ha)
    exact own r hr
  obtain ⟨old', new', awaits, left⟩ := calls.awaits h' here
  have files : ∀ a ∈ (requests.map Request.address).toFinset, a.file = file := by
    intro a ha
    obtain ⟨r, hr, rfl⟩ := List.mem_map.mp (List.mem_toFinset.mp ha)
    exact (own r hr).1
  have counted : ∀ (records : List HandedOut), (∀ h ∈ records, h.request ∈ requests) →
      ∀ a : Address, a.file = file →
        recordsAt a records = addressed a (records.map HandedOut.request) :=
    fun records mem a ha =>
      recordsAt_eq_addressed fun h hh => (own _ (mem h hh)).1.trans ha.symm
  have within : ∀ a ∈ (new'.map HandedOut.request).map Request.address,
      a ∈ (requests.map Request.address).toFinset := by
    intro a ha
    obtain ⟨r, hr, rfl⟩ := List.mem_map.mp ha
    obtain ⟨h, hh, rfl⟩ := List.mem_map.mp hr
    exact List.mem_toFinset.mpr (List.mem_map_of_mem (awaits.after h hh).2)
  have total : ∑ a ∈ (requests.map Request.address).toFinset,
      Multiset.count a ((new'.map HandedOut.request).map Request.address : List Address) = _ :=
    Multiset.sum_count_eq_card fun a ha => within a (Multiset.mem_coe.mp ha)
  rw [Multiset.coe_card, List.length_map, List.length_map, ← awaits.outstanding] at total
  rw [← total]
  refine Finset.sum_congr rfl fun a ha => ?_
  have file := files a ha
  have before : recordsAt a new = addressed a requests := by
    rw [counted new (fun h hh => (h'.after h hh).2) a file, same]
  have after : recordsAt a new' = addressed a requests -
      (addressed a requests - recordsAt a old) := by
    rw [left a file, before, once.count_eq, addressed_eq_count]
  rw [Multiset.coe_count, ← addressed_eq_count,
    ← counted new' (fun h hh => (awaits.after h hh).2) a file, after]
  omega

theorem awaits_dispatch {i now : Nat} {k : PolicyKind} {inQuantum : Bool} (h : c.InStep)
    (quiet : c.index.records.countP (·.synchronous) = 0) (nothing : c.outstanding = 0)
    (sync : k.profile.synchronous = true)
    (hd : c.dispatch? now file d i k inQuantum = some (requests, c')) :
    ∃ new, Awaits file d requests (c.index.recordsOf file d) new c' ∧
      new.map HandedOut.request = requests ∧ ∀ r ∈ requests, r.file = file ∧ r.direction = d := by
  obtain ⟨⟨e, x⟩, taken, same⟩ := Option.map_eq_some_iff.mp hd
  obtain ⟨rfl, -⟩ := Prod.mk.inj same
  obtain ⟨f, counts, hf, detached, -⟩ := Index.detach?_some taken
  obtain ⟨l, hl, -, -⟩ := FileState.detach?_some detached
  have found := (Lane.detach?_some hl).1
  have lane := (h.index.file file).lane d
  rw [Index.file_fileOf] at lane
  have sound := lane.queue.entries e (List.mem_of_getElem? found)
  obtain ⟨c₁, went, alters⟩ := dispatch?_alters h hf found now k inQuantum
  obtain rfl : c₁ = c' := (Prod.mk.inj (Option.some.inj (went.symm.trans hd))).2
  have books := (dispatch?_effect h hd).frame
  refine ⟨e.requests.map fun r => ⟨r, now, inQuantum, k.profile.synchronous⟩, ?_, ?_, ?_⟩
  · constructor
    case records =>
      rw [Index.recordsOf, Index.fileOf_eq alters.here, FileState.lane_modifyLane,
        Lane.handedOut_sent]
      rfl
    case before =>
      intro o ho
      have stored : c.index.fileOf file ∈ c.index.files :=
        (Index.mem_files h.index.placed).mpr (by rw [Index.file_fileOf]; exact hf)
      have there : o ∈ c.index.records := by
        refine List.mem_flatMap.mpr ⟨_, stored, List.mem_append.mpr ?_⟩
        cases d with
        | read => exact .inl ho
        | write => exact .inr ho
      exact Bool.not_eq_true _ ▸ List.countP_eq_zero.mp quiet o there
    case after =>
      intro o ho
      obtain ⟨r, hr, rfl⟩ := List.mem_map.mp ho
      exact ⟨sync, hr⟩
    case outstanding =>
      obtain ⟨_, _, form⟩ := books
      rw [form, List.length_map]
      exact (if_pos sync).trans (by rw [nothing, Nat.zero_add])
  · rw [List.map_map]
    exact List.map_id _
  · exact sound.belongs

end Core

/-- When the caller's code is handed requests, it acknowledges each of them once before it
returns. -/
structure Host.Confirms {ω : Type} (host : Host ω) : Prop where
  handOver : ∀ h s, ∃ as : List Address, as.Perm (h.requests.map Request.address) ∧
    Core.Confirms as s.core (host.handOver h s).core

theorem Host.prompt_confirms : prompt.Confirms where
  handOver h s := by
    refine ⟨h.requests.map Request.address, .refl _, ?_⟩
    change Core.Confirms _ s.core (h.requests.foldl acknowledge s).core
    induction h.requests generalizing s with
    | nil => exact .done s.core
    | cons r rest ih => exact .complete 0 (ih (acknowledge s r))

namespace Session

variable {ω : Type} {host : Host ω}

theorem handOver_confirms (confirms : host.Confirms) (requests : List Request) (s : Session ω) :
    ∃ as : List Address, as.Perm (requests.map Request.address) ∧
      Core.Confirms as s.core (s.handOver host requests).core := by
  have whole (calls : List Handover) : ∀ s : Session ω, ∃ as : List Address,
      as.Perm ((calls.flatMap Handover.requests).map Request.address) ∧
        Core.Confirms as s.core (calls.foldl (fun s h => host.handOver h s) s).core := by
    induction calls with
    | nil => exact fun s => ⟨[], .refl _, .done s.core⟩
    | cons call calls ih =>
      intro s
      obtain ⟨as, perm, first⟩ := confirms.handOver call s
      obtain ⟨bs, perm', rest⟩ := ih (host.handOver call s)
      refine ⟨as ++ bs, ?_, first.append rest⟩
      rw [List.flatMap_cons, List.map_append]
      exact perm.append perm'
  have all := whole (s.core.setup.callbacks.handovers requests) s
  rw [handovers_requests] at all
  exact all

/-- How a synchronous delivery ends that finds the records of `x`. -/
structure Delivered (x : Index) (host : Host ω) (requests : List Request) (s : Session ω) :
    Prop where
  /-- Of each address as many acknowledgments are missing as there were older records of it. -/
  outstanding : (s.handOver host requests).core.outstanding =
    ∑ a ∈ (requests.map Request.address).toFinset, min (x.heldAt a) (addressed a requests)
  released_iff : (s.handOver host requests).core.outstanding = 0 ↔
    ∀ r ∈ requests, x.heldAt r.address = 0
  goes_on : (∀ r ∈ requests, x.heldAt r.address = 0) →
    s.deliver host requests .aioli = s.handOver host requests
  waits : (∃ r ∈ requests, 0 < x.heldAt r.address) →
    (s.handOver host requests).core.stopping = false →
    s.deliver host requests .aioli = host.awaitRelease (s.handOver host requests)

theorem deliver_aioli {requests : List Request} (some_requests : requests ≠ []) (s : Session ω) :
    s.deliver host requests .aioli =
      if (s.handOver host requests).core.outstanding ≠ 0 ∧
        (s.handOver host requests).core.stopping = false
      then host.awaitRelease (s.handOver host requests) else s.handOver host requests := by
  unfold deliver
  rw [if_neg (by simpa using some_requests)]
  simp [PolicyKind.profile]

theorem delivered_of {x : Index} {requests : List Request} {s : Session ω}
    (some_requests : requests ≠ []) (left : (s.handOver host requests).core.outstanding =
      ∑ a ∈ (requests.map Request.address).toFinset, min (x.heldAt a) (addressed a requests)) :
    Delivered x host requests s := by
  have released_iff : (s.handOver host requests).core.outstanding = 0 ↔
      ∀ r ∈ requests, x.heldAt r.address = 0 := by
    rw [left, Finset.sum_eq_zero_iff]
    constructor
    · intro none r hr
      have zero := none r.address (List.mem_toFinset.mpr (List.mem_map_of_mem hr))
      have handed : 0 < addressed r.address requests :=
        List.countP_pos_iff.mpr ⟨r, hr, decide_eq_true rfl⟩
      omega
    · intro none a ha
      obtain ⟨r, hr, rfl⟩ := List.mem_map.mp (List.mem_toFinset.mp ha)
      rw [none r hr, Nat.zero_min]
  refine ⟨left, released_iff, fun none => ?_, fun ⟨r, hr, held⟩ running => ?_⟩
  · rw [deliver_aioli some_requests, if_neg fun waits => waits.1 (released_iff.mpr none)]
  · have some_left : (s.handOver host requests).core.outstanding ≠ 0 :=
      fun zero => held.ne' (released_iff.mp zero r hr)
    rw [deliver_aioli some_requests, if_pos ⟨some_left, running⟩]

end Session

namespace System

open Session (Delivered)

/-- Let nothing be waited for after a run, and an entry be dispatched synchronously. If the caller's
code acknowledges each request that it is handed once, then nothing is waited for any more unless
one of the requests has the address of an older one that is still unacknowledged. -/
theorem run_waits_for_older (setup : Setup) (actions : List Action) {ω : Type} {host : Host ω}
    (confirms : host.Confirms) (world : ω) {now i : Nat} {file : String} {d : Direction}
    {inQuantum : Bool} {requests : List Request} {c : Core}
    (nothing : (run setup actions).core.outstanding = 0)
    (dispatched : (run setup actions).core.dispatch? now file d i .aioli inQuantum =
      some (requests, c)) :
    Delivered (run setup actions).core.index host requests ⟨c, world⟩ := by
  have counting := run_counting setup actions
  have quiet : (run setup actions).core.index.records.countP (·.synchronous) = 0 :=
    counting.awaited.outstanding.symm.trans nothing
  obtain ⟨new, awaits, same, own⟩ :=
    Core.awaits_dispatch counting.inStep quiet nothing rfl dispatched
  obtain ⟨as, once, calls⟩ := Session.handOver_confirms confirms requests ⟨c, world⟩
  have left := awaits.confirmed same own calls once
  refine Session.delivered_of (Core.dispatch?_ne_nil dispatched)
    (left.trans (Finset.sum_congr rfl fun a ha => ?_))
  obtain ⟨r, hr, rfl⟩ := List.mem_map.mp (List.mem_toFinset.mp ha)
  obtain ⟨rfl, rfl⟩ := own r hr
  rfl

/-- A read is dispatched while another one is unacknowledged. -/
theorem waits_for_none_older :
    let setup : Setup := .of .defaults .one 1
    let actions : List Action := [.migrate .shortestJob, .submit 0 ⟨"a", .read, 0, 8, 0, 0⟩,
      .dispatch 1 "a" .read 0 .shortestJob false, .handOver 0, .migrate .aioli,
      .submit 2 ⟨"a", .read, 64, 8, 1, 0⟩]
    let s := (run setup actions).core
    ∃ requests c, s.outstanding = 0 ∧ s.dispatch? 3 "a" .read 0 .aioli true = some (requests, c) ∧
      Delivered s.index Host.prompt requests ⟨c, ()⟩ := by
  intro setup actions s
  have nothing : s.outstanding = 0 := by decide +kernel
  have goes : (s.dispatch? 3 "a" .read 0 .aioli true).isSome := by decide +kernel
  obtain ⟨⟨requests, c⟩, dispatched⟩ := Option.isSome_iff_exists.mp goes
  exact ⟨requests, c, nothing, dispatched,
    run_waits_for_older setup actions Host.prompt_confirms () nothing dispatched⟩

/-- The older of two reads of the same address takes the acknowledgment of the later one, so that
the scheduler goes on waiting although it is not told to stop and each request that was handed over
has been acknowledged. -/
theorem waits_after_acknowledgment :
    let setup : Setup := .of .defaults .one 1
    let actions : List Action := [.migrate .shortestJob, .submit 0 ⟨"a", .read, 0, 8, 0, 0⟩,
      .dispatch 1 "a" .read 0 .shortestJob false, .handOver 0, .migrate .aioli,
      .submit 2 ⟨"a", .read, 0, 8, 1, 0⟩]
    let s := (run setup actions).core
    s.outstanding = 0 ∧ s.stopping = false ∧ Host.prompt.Confirms ∧
      ((s.dispatch? 3 "a" .read 0 .aioli true).map fun (requests, c) =>
        let t := (⟨c, ()⟩ : Session Unit).handOver Host.prompt requests
        (requests.length, t.core.outstanding, t.core.stopping)) = some (1, 1, false) :=
  ⟨by decide +kernel, by decide +kernel, Host.prompt_confirms, by decide +kernel⟩

end System

end IoScheduling
