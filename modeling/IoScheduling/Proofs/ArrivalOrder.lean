import IoScheduling.Proofs.Starvation
import IoScheduling.Proofs.WindowOrder
import IoScheduling.Service.Checksum
import Mathlib.Data.Prod.Lex

/-! # The order of the timeline is canonical

As long as no entry is taken apart, each order of the timeline is a strict order of the entries: by
the numbers of their oldest requests, or by windows, streams and those numbers. An arrival has the
largest number of all, a merged entry keeps the number of its earlier part, and a change of order
sorts stably. So the order does not depend on the changes that there were. -/
namespace IoScheduling

theorem filter_mergeSort {α : Type} {le : α → α → Bool} {p : α → Bool}
    (trans : ∀ a b c, le a b → le b c → le a c) (total : ∀ a b, (le a b || le b a) = true)
    (alike : ∀ a b, p a → p b → le a b) (xs : List α) :
    (xs.mergeSort le).filter p = xs.filter p := by
  have ordered : (xs.filter p).Pairwise fun a b => le a b :=
    List.pairwise_of_forall_mem_list fun a ha b hb =>
      alike a b (List.of_mem_filter ha) (List.of_mem_filter hb)
  have sub : (xs.filter p).Sublist (xs.mergeSort le) :=
    List.sublist_mergeSort trans total ordered List.filter_sublist
  have filtered : (xs.filter p).Sublist ((xs.mergeSort le).filter p) := by
    have again := sub.filter p
    rwa [List.filter_filter, show (fun a => p a && p a) = p by simp] at again
  have size := ((List.mergeSort_perm xs le).filter p).length_eq
  exact (filtered.eq_of_length size.symm).symm

namespace TimelineOrder

/-- Entries of equal priority are told apart by their oldest requests. -/
def rank (order : TimelineOrder) (e : Entry) : Nat ×ₗ Nat := toLex (order.priority e, e.firstSeq)

variable {order : TimelineOrder} {a b : Entry}

theorem rank_lt_iff : order.rank a < order.rank b ↔ order.priority a < order.priority b ∨
    order.priority a = order.priority b ∧ a.firstSeq < b.firstSeq := Prod.Lex.toLex_lt_toLex

theorem rank_lt_iff_firstSeq (h : ¬ order.isPriority) :
    order.rank a < order.rank b ↔ a.firstSeq < b.firstSeq := by
  rw [rank_lt_iff, priority_eq h, priority_eq h]
  omega

end TimelineOrder

namespace Entry

variable {bound : Nat} {e o : Entry}

theorem Headed.firstSeq_eq (h : e.Headed bound) : e.firstSeq = e.members.least Request.seq := by
  cases e with
  | single => rfl
  | aggregate head m => exact congrArg Head.firstSeq h.1

theorem Headed.oldest (h : e.Headed bound) :
    (∃ r ∈ e.requests, r.seq = e.firstSeq) ∧ ∀ r ∈ e.requests, e.firstSeq ≤ r.seq := by
  rw [h.firstSeq_eq, ← toList_members]
  exact ⟨e.members.exists_least Request.seq, fun r hr => Members.least_le Request.seq hr⟩

theorem firstSeq_absorb (he : e.Headed bound) (ho : o.Headed bound) :
    (e.absorb o).firstSeq = min e.firstSeq o.firstSeq := by
  rw [he.firstSeq_eq, ho.firstSeq_eq]
  exact Members.least_append Request.seq (members_absorb_perm e o)

end Entry

theorem Numbered.distinct {next : Nat} {es : List Entry} (h : Numbered next es) :
    es.Pairwise fun a b => ∀ r ∈ a.requests, ∀ q ∈ b.requests, r.seq ≠ q.seq := by
  induction es with
  | nil => exact .nil
  | cons e es ih =>
    have split : requestBag ((e :: es : List Entry) : Multiset Entry) =
        e.requests + requestBag es := requestBag_cons e es
    refine List.pairwise_cons.mpr ⟨?_, ih ⟨fun n => ?_, fun r hr => ?_⟩⟩
    · intro o ho r hr q hq same
      have once := h.once r.seq
      rw [split, Multiset.countP_add] at once
      have first : 0 < (e.requests : Multiset Request).countP fun s => s.seq = r.seq :=
        Multiset.countP_pos.mpr ⟨r, hr, rfl⟩
      have second : 0 < (requestBag es).countP fun s => s.seq = r.seq :=
        Multiset.countP_pos.mpr ⟨q, mem_requestBag.mpr ⟨o, ho, hq⟩, same.symm⟩
      omega
    · have once := h.once n
      rw [split, Multiset.countP_add] at once
      exact (Nat.le_add_left _ _).trans once
    · exact h.below r (split ▸ Multiset.mem_add.mpr (Or.inr hr))

namespace Timeline

variable {t t' : Timeline} {e node : Entry} {a : Address} {r : Request} {bound limit : Nat}

/-- The entries stand strictly in the order of their ranks. -/
def Canonical (t : Timeline) : Prop :=
  t.entries.Pairwise fun a b => t.order.rank a < t.order.rank b

theorem canonical_iff (h : ¬ t.order.isPriority) :
    t.Canonical ↔ t.entries.Pairwise fun a b => a.firstSeq < b.firstSeq := by
  constructor
  · exact fun canonical => canonical.imp (TimelineOrder.rank_lt_iff_firstSeq h).mp
  · exact fun arrivals => arrivals.imp (TimelineOrder.rank_lt_iff_firstSeq h).mpr

theorem Canonical.inOrder (h : t.Canonical) (priced : t.Priced) : t.InOrder := by
  refine (List.pairwise_map.mp h).imp_of_mem fun hs ho lt => ?_
  rw [priced _ hs, priced _ ho]
  rcases TimelineOrder.rank_lt_iff.mp lt with less | ⟨same, -⟩
  · exact less.le
  · exact same.le

theorem arrivals_append {es : List Entry} (h : es.Pairwise fun a b => a.firstSeq < b.firstSeq)
    (youngest : ∀ e ∈ es, e.firstSeq < node.firstSeq) :
    (es ++ [node]).Pairwise fun a b => a.firstSeq < b.firstSeq := by
  refine List.pairwise_append.mpr ⟨h, List.pairwise_singleton _ node, fun e he o ho => ?_⟩
  rw [List.mem_singleton.mp ho]
  exact youngest e he

theorem arrivals_merge {es fs : List Entry} (h : Merge limit es fs)
    (headed : ∀ e ∈ es, e.Headed bound)
    (arrivals : es.Pairwise fun a b => a.firstSeq < b.firstSeq) :
    fs.Pairwise fun a b => a.firstSeq < b.firstSeq := by
  cases h with
  | @step front middle back early late _ =>
    obtain ⟨-, rest, -⟩ := List.pairwise_append.mp arrivals
    have older := (List.pairwise_cons.mp rest).1 late (by simp)
    have kept : (early.absorb late).firstSeq = early.firstSeq := by
      rw [Entry.firstSeq_absorb (headed early (by simp)) (headed late (by simp))]
      exact Nat.min_eq_left older.le
    have without : (front ++ early :: (middle ++ back)).Sublist
        (front ++ early :: (middle ++ late :: back)) := by simp
    have before := List.pairwise_map.mpr (arrivals.sublist without)
    refine List.pairwise_map (f := Entry.firstSeq) (R := (· < ·)) |>.mp ?_
    rw [List.map_append, List.map_cons] at before ⊢
    rwa [kept]

theorem arrivals_merges {es fs : List Entry} (h : Merges limit es fs) (le : limit ≤ bound)
    (sound : ∀ e ∈ es, e.Sound bound e.file e.direction)
    (arrivals : es.Pairwise fun a b => a.firstSeq < b.firstSeq) :
    fs.Pairwise fun a b => a.firstSeq < b.firstSeq := by
  induction h with
  | refl => exact arrivals
  | tail before step ih =>
    exact arrivals_merge step (fun e he => (sound_merges before le sound e he).headed) ih

theorem canonical_insert (h : t.Canonical) (priced : t.Priced)
    (youngest : ∀ e ∈ t.entries, e.firstSeq < node.firstSeq) :
    (t.entries.insertIdx (t.store.boundary fun s => s.priority ≤ (t.slotOf node).priority)
      node).Pairwise fun a b => t.order.rank a < t.order.rank b := by
  have inOrder := h.inOrder priced
  obtain ⟨front, back, split, low, high, place⟩ :=
    exists_slot Slot.priority (t.slotOf node).priority inOrder
  have parts : t.entries = front.map Slot.entry ++ back.map Slot.entry := by
    rw [entries, split, List.map_append]
  rw [(boundary_eq inOrder _).1, place, parts, ← List.length_map (f := Slot.entry),
    Ring.insertIdx_length_append]
  rw [Canonical, parts] at h
  obtain ⟨before, after, cross⟩ := List.pairwise_append.mp h
  refine List.pairwise_append.mpr ⟨before, List.pairwise_cons.mpr ⟨?_, after⟩, ?_⟩
  · intro o ho
    obtain ⟨s, hs, rfl⟩ := List.mem_map.mp ho
    have larger := high s hs
    rw [priced s (split ▸ List.mem_append_right _ hs)] at larger
    exact TimelineOrder.rank_lt_iff.mpr (Or.inl larger)
  · intro e he o ho
    rcases List.mem_cons.mp ho with rfl | ho
    · obtain ⟨s, hs, rfl⟩ := List.mem_map.mp he
      have smaller := low s hs
      rw [priced s (split ▸ List.mem_append_left _ hs)] at smaller
      have older := youngest s.entry (parts ▸ List.mem_append_left _ he)
      rcases smaller.lt_or_eq with less | same
      · exact TimelineOrder.rank_lt_iff.mpr (Or.inl less)
      · exact TimelineOrder.rank_lt_iff.mpr (Or.inr ⟨same, older⟩)
    · exact cross e he o ho

/-- An entry younger than all others finds its place in the order. -/
theorem canonical_add (h : t.Canonical) (priced : t.Priced) (sound : t.Sound bound)
    (new : node.Sound bound node.file node.direction)
    (youngest : ∀ e ∈ t.entries, e.firstSeq < node.firstSeq) : (t.add node).1.Canonical := by
  rw [Canonical, order_add]
  have last (plain : ¬ t.order.isPriority) :
      (t.entries ++ [node]).Pairwise fun a b => a.firstSeq < b.firstSeq :=
    arrivals_append ((canonical_iff plain).mp h) youngest
  unfold add
  dsimp only
  split
  · rename_i fifo
    have plain : ¬ t.order.isPriority := by simp [fifo, TimelineOrder.isPriority]
    refine List.Pairwise.imp (TimelineOrder.rank_lt_iff_firstSeq plain).mpr ?_
    change List.Pairwise _ ((t.store.push (t.slotOf node)).items.map Slot.entry)
    rw [entries_push]
    exact last plain
  · rename_i merging
    have plain : ¬ t.order.isPriority := by simp [merging, TimelineOrder.isPriority]
    refine List.Pairwise.imp (TimelineOrder.rank_lt_iff_firstSeq plain).mpr ?_
    refine arrivals_merges (addMerging_merges _ node) sound.limit_le (fun e he => ?_) (last plain)
    rcases List.mem_append.mp he with he | he
    · exact sound.entries e he
    · rw [List.mem_singleton.mp he]
      exact new
  · have placed := canonical_insert h priced youngest
    dsimp only [entries, slots] at placed ⊢
    rwa [Ring.items_insertIdx, List.map_insertIdx]

theorem canonical_pop? (h : t.Canonical) (hp : t.pop? = some (e, t')) : t'.Canonical := by
  obtain ⟨-, -, -, form⟩ := pop?_slots hp
  have order : t'.order = t.order := by rw [form]
  rw [Canonical, (pop?_some hp).1] at h
  rw [Canonical, order]
  exact h.of_cons

/-- Whether a withdrawal takes an aggregate apart. -/
def splits (t : Timeline) (a : Address) : Bool :=
  (t.locate a).any fun (i, _) => t.entries[i]?.any Entry.isAggregate

theorem canonical_withdraw (h : t.Canonical) (hw : t.withdraw a = some (r, t'))
    (alone : t.splits a = false) : t'.Canonical := by
  obtain ⟨front, s, back, k, runs, located, split, hx, after, form⟩ := withdraw_slots hw
  have order : t'.order = t.order := by rw [form]
  have parts : t.entries = front.map Slot.entry ++ s.entry :: back.map Slot.entry := by
    rw [entries, split, List.map_append, List.map_cons]
  have here : t.entries[front.length]? = some s.entry := by
    rw [parts, List.getElem?_append_right (by simp), List.length_map, Nat.sub_self]
    rfl
  have single : s.entry.isAggregate = false := by simpa [splits, located, here] using alone
  have none : runs = [] := by
    obtain ⟨q, hq, -, rfl⟩ := extract_some hx
    cases he : s.entry with
    | single request =>
      rw [he] at hq
      have first : k = 0 := by simpa [Entry.requests] using (List.getElem?_eq_some_iff.mp hq).1
      rw [first]
      rfl
    | aggregate head m =>
      rw [he] at single
      cases single
  rw [Canonical, order, entries, after, none]
  rw [Canonical, parts] at h
  refine h.sublist ?_
  simp

theorem canonical_reorder (h : t.entries.Pairwise fun a b =>
    t.order.priority a = t.order.priority b → a.firstSeq < b.firstSeq) : t.reorder.Canonical := by
  have stable : t.reorder.slots.Pairwise fun a b =>
      a.priority = b.priority → a.entry.firstSeq < b.entry.firstSeq := by
    refine List.pairwise_iff_forall_sublist.mpr fun {a b} pair same => ?_
    have kept := pair.filter fun s => s.priority == b.priority
    change (List.filter _ _).Sublist (List.filter _ (List.mergeSort _ _)) at kept
    rw [filter_mergeSort sortable_slots.1 sortable_slots.2] at kept
    · have before : [a, b].Sublist (t.entries.map t.slotOf) := by
        simpa [same] using kept.trans List.filter_sublist
      have olderFirst : (t.entries.map t.slotOf).Pairwise fun a b =>
          a.priority = b.priority → a.entry.firstSeq < b.entry.firstSeq := List.pairwise_map.mpr h
      exact List.pairwise_iff_forall_sublist.mp olderFirst before same
    · intro s o hs ho
      exact decide_eq_true ((beq_iff_eq.mp hs).trans (beq_iff_eq.mp ho).symm).le
  refine List.pairwise_map.mpr ((t.inOrder_reorder.and stable).imp_of_mem fun hs ho both => ?_)
  have hs := congrArg Slot.priority (t.priced_reorder _ hs)
  have ho := congrArg Slot.priority (t.priced_reorder _ ho)
  rw [hs, ho] at both
  rcases both.1.lt_or_eq with less | same
  · exact TimelineOrder.rank_lt_iff.mpr (Or.inl less)
  · exact TimelineOrder.rank_lt_iff.mpr (Or.inr ⟨same, both.2 same⟩)

end Timeline

theorem Numbered.of_add {next : Nat} {A B : Multiset Entry} (h : Numbered next (A + B)) :
    Numbered next B where
  once := by
    intro n
    have once := h.once n
    rw [requestBag_add, Multiset.countP_add] at once
    exact (Nat.le_add_left _ _).trans once
  below := fun r hr => h.below r (requestBag_add A B ▸ Multiset.mem_add.mpr (Or.inr hr))

namespace Core

variable {c : Core}

theorem oldest (h : c.InStep) {e : Entry} (he : e ∈ c.timeline.entries) :
    (∃ r ∈ e.requests, r.seq = e.firstSeq) ∧ ∀ r ∈ e.requests, e.firstSeq ≤ r.seq :=
  (h.timeline.entries e he).headed.oldest

theorem firstSeq_lt_nextSeq (h : c.InStep) (numbered : Numbered c.nextSeq c.entryBag) {e : Entry}
    (he : e ∈ c.timeline.entries) : e.firstSeq < c.nextSeq := by
  obtain ⟨⟨r, hr, same⟩, -⟩ := oldest h he
  rw [← same]
  exact numbered.of_add.below r (mem_requestBag.mpr ⟨e, he, hr⟩)

theorem firstSeq_distinct (h : c.InStep) (numbered : Numbered c.nextSeq c.entryBag) :
    c.timeline.entries.Pairwise fun a b => a.firstSeq ≠ b.firstSeq := by
  refine numbered.of_add.distinct.imp_of_mem fun ha hb distinct => ?_
  obtain ⟨⟨r, hr, first⟩, -⟩ := oldest h ha
  obtain ⟨⟨q, hq, second⟩, -⟩ := oldest h hb
  rw [← first, ← second]
  exact distinct r hr q hq

theorem older_in_front (h : c.InStep) (priced : c.Priced)
    (numbered : Numbered c.nextSeq c.entryBag) (canonical : c.timeline.Canonical)
    (k : PolicyKind) : c.timeline.entries.Pairwise fun a b =>
      (c.setup.order k).priority a = (c.setup.order k).priority b → a.firstSeq < b.firstSeq := by
  by_cases windows : c.timeline.order.isPriority
  · by_cases still : (c.setup.order k).isPriority
    · have same : c.setup.order k = c.timeline.order := by
        rw [priced.order] at windows ⊢
        rw [(c.setup.isPriority_order _).mp windows, (c.setup.isPriority_order _).mp still]
      refine List.Pairwise.imp (fun {a b} lt equal => ?_) canonical
      rw [same] at equal
      rcases TimelineOrder.rank_lt_iff.mp lt with less | ⟨-, older⟩
      · omega
      · exact older
    · -- No two entries have equal numbers.
      refine (firstSeq_distinct h numbered).imp fun {a b} distinct equal => ?_
      rw [TimelineOrder.priority_eq still, TimelineOrder.priority_eq still] at equal
      exact absurd equal distinct
  · refine List.Pairwise.imp (fun {a b} older _ => ?_)
      ((Timeline.canonical_iff windows).mp canonical)
    exact older

theorem transfer_canonical (h : c.InStep) (priced : c.Priced)
    (numbered : Numbered c.nextSeq c.entryBag) (canonical : c.timeline.Canonical)
    {k : PolicyKind} (old : ¬ c.active.profile.bucketed) (new : ¬ k.profile.bucketed) :
    (c.transfer k).timeline.Canonical := by
  let t := c.timeline.configure (c.setup.order k) (c.setup.limit k)
  unfold transfer
  dsimp only
  rw [Bool.eq_false_iff.mpr old, Bool.eq_false_iff.mpr new]
  dsimp only
  split
  · exact Timeline.canonical_reorder (t := t) (older_in_front h priced numbered canonical k)
  · rename_i plain
    rw [Bool.or_eq_true, not_or, ← priced.order] at plain
    exact (Timeline.canonical_iff (t := t) plain.2).mpr
      ((Timeline.canonical_iff plain.1).mp canonical)

theorem transfer_entries {k : PolicyKind} (old : ¬ c.active.profile.bucketed)
    (new : ¬ k.profile.bucketed) :
    (c.transfer k).timeline.entries.Perm c.timeline.entries := by
  unfold transfer
  dsimp only
  rw [Bool.eq_false_iff.mpr old, Bool.eq_false_iff.mpr new]
  dsimp only
  split
  · exact Timeline.reorder_perm _
  · exact .refl _

end Core

namespace System

variable {s : System} {setup : Setup}

def steady (s : System) : Action → Bool
  | .migrate k => !k.profile.bucketed
  | .cancel a => !s.core.timeline.splits a
  | _ => true

theorem act_canonical (h : s.Kept setup) (priced : s.core.Priced)
    (plain : ¬ s.core.active.profile.bucketed) (canonical : s.core.timeline.Canonical)
    {x : Action} (steady : s.steady x) :
    ¬ (s.act x).core.active.profile.bucketed ∧ (s.act x).core.timeline.Canonical := by
  have numbered := h.numbered_entries
  have step := act_touched h.inStep x
  generalize (s.act x).core = c at step
  cases step with
  | still setup active timeline =>
    rw [active, timeline]
    exact ⟨plain, canonical⟩
  | added now call setup active timeline =>
    rw [active, timeline]
    exact ⟨plain, Timeline.canonical_add canonical priced.stored h.inStep.timeline
      (Entry.sound_single rfl rfl) fun e he => Core.firstSeq_lt_nextSeq h.inStep numbered he⟩
  | popped e setup active popped =>
    rw [active]
    exact ⟨plain, Timeline.canonical_pop? canonical popped⟩
  | withdrawn a r same setup active withdrawn =>
    subst same
    rw [active]
    have alone : s.core.timeline.splits a = false := by simpa [System.steady] using steady
    exact ⟨plain, Timeline.canonical_withdraw canonical withdrawn alone⟩
  | migrated k same =>
    subst same
    have new : ¬ k.profile.bucketed := by simpa [System.steady] using steady
    exact ⟨new, Core.transfer_canonical h.inStep priced numbered canonical plain new⟩

/-- The run starts with a policy of the timeline and keeps to those, and no aggregate is taken
apart. -/
def Unbroken (setup : Setup) (actions : List Action) : Prop :=
  ¬ setup.config.initialKind.profile.bucketed ∧
    ∀ i < actions.length, actions[i]?.all (run setup (actions.take i)).steady

instance (setup : Setup) (actions : List Action) : Decidable (Unbroken setup actions) :=
  inferInstanceAs (Decidable (¬ _ ∧ ∀ i < actions.length, _))

theorem Unbroken.of_concat {actions : List Action} {x : Action}
    (h : Unbroken setup (actions ++ [x])) :
    Unbroken setup actions ∧ (run setup actions).steady x := by
  obtain ⟨start, each⟩ := h
  refine ⟨⟨start, fun i hi => ?_⟩, ?_⟩
  · have whole := each i (by rw [List.length_append]; omega)
    rwa [List.getElem?_append_left hi, List.take_append_of_le_length hi.le] at whole
  · simpa using each actions.length (by simp)

theorem run_canonical {actions : List Action} (h : Unbroken setup actions) :
    ¬ (run setup actions).core.active.profile.bucketed ∧
      (run setup actions).core.timeline.Canonical := by
  induction actions using List.reverseRecOn with
  | nil => exact ⟨h.1, .nil⟩
  | append_singleton actions x ih =>
    obtain ⟨before, steady⟩ := h.of_concat
    obtain ⟨plain, canonical⟩ := ih before
    rw [run_concat]
    exact act_canonical (run_kept setup actions) (run_priced setup actions) plain canonical steady

end System

namespace Setup

variable {s : Setup} {a b e : Entry}

def window (s : Setup) (e : Entry) : Nat := e.earliestArrival / max s.config.timeWindowNs 1

/-- Windows come in the order of time, in a window the streams, and in a stream the oldest
requests. -/
def windowKey (s : Setup) (e : Entry) : Nat ×ₗ Nat ×ₗ Nat :=
  toLex (s.window e, toLex (e.stream, e.firstSeq))

/-- Window and stream can be told from the priority, since a word holds both. -/
structure Fits (s : Setup) (e : Entry) : Prop where
  stream : e.stream < max s.maxStream 1
  word : s.window e * max s.maxStream 1 + e.stream ≤ maxWord

theorem Fits.priority_eq (h : s.Fits e) :
    (s.order .timeWindow).priority e = s.window e * max s.maxStream 1 + e.stream := by
  have product : satMul (s.window e) (max s.maxStream 1) = s.window e * max s.maxStream 1 :=
    satMul_eq ((Nat.le_add_right _ _).trans h.word)
  change satAdd (satMul (_ / max (max _ 1) 1) (max (max _ 1) 1)) _ = _
  rw [max_eq_left (le_max_right s.config.timeWindowNs 1), max_eq_left (le_max_right s.maxStream 1)]
  exact (congrArg (satAdd · e.stream) product).trans (satAdd_eq h.word)

theorem windowKey_lt_iff : s.windowKey a < s.windowKey b ↔ s.window a < s.window b ∨
    s.window a = s.window b ∧
      (a.stream < b.stream ∨ a.stream = b.stream ∧ a.firstSeq < b.firstSeq) := by
  rw [windowKey, windowKey, Prod.Lex.toLex_lt_toLex, Prod.Lex.toLex_lt_toLex]

theorem windowKey_lt_of_rank_lt (ha : s.Fits a) (hb : s.Fits b)
    (h : (s.order .timeWindow).rank a < (s.order .timeWindow).rank b) :
    s.windowKey a < s.windowKey b := by
  rw [TimelineOrder.rank_lt_iff, ha.priority_eq, hb.priority_eq] at h
  have first := ha.stream
  have second := hb.stream
  rw [windowKey_lt_iff]
  rcases Nat.lt_trichotomy (s.window a) (s.window b) with less | same | more
  · exact Or.inl less
  · rw [same] at h
    omega
  · have gap := Nat.mul_le_mul_right (max s.maxStream 1) (Nat.succ_le_of_lt more)
    rw [Nat.succ_mul] at gap
    omega

end Setup

/-- The entries wait in an order that does not depend on how they came to the timeline. -/
structure Core.InCanonicalOrder (c : Core) : Prop where
  policy : c.active = .timeOrder ∨ c.active = .timeOrderMerging ∨ c.active = .timeWindow
  oldest : ∀ e ∈ c.timeline.entries,
    (∃ r ∈ e.requests, r.seq = e.firstSeq) ∧ ∀ r ∈ e.requests, e.firstSeq ≤ r.seq
  arrivals : c.active ≠ .timeWindow →
    c.timeline.entries.Pairwise fun a b => a.firstSeq < b.firstSeq
  windows : c.active = .timeWindow →
    (∀ e ∈ c.timeline.entries,
      c.setup.window e * max c.setup.maxStream 1 + e.stream ≤ maxWord) →
    c.timeline.entries.Pairwise fun a b => c.setup.windowKey a < c.setup.windowKey b
  leave : ∀ e rest, c.timeline.entries = e :: rest → ∀ now k, ∃ c',
    c.dispatchHead? now k = some (e.requests, c') ∧ c'.timeline.entries = rest

namespace System

variable {s : System} {setup : Setup}

theorem Kept.stream_lt (h : s.Kept setup) {e : Entry} (he : e ∈ s.core.timeline.entries) :
    e.stream < max s.core.setup.maxStream 1 := by
  have there : e.first ∈ s.core.onTimeline := List.mem_flatMap.mpr ⟨e, he, e.first_mem⟩
  obtain ⟨a, -, same⟩ := h.conserved.genuine e.first (Or.inr (Or.inl there))
  have stream : e.stream = min a.2.stream (setup.maxStream - 1) := congrArg Request.stream same
  rw [h.setup_eq, stream]
  omega

theorem Kept.inCanonicalOrder (h : s.Kept setup) (priced : s.core.Priced)
    (plain : ¬ s.core.active.profile.bucketed) (canonical : s.core.timeline.Canonical) :
    s.core.InCanonicalOrder where
  policy := by
    revert plain
    cases s.core.active <;> simp [PolicyKind.profile]
  oldest := fun _ he => Core.oldest h.inStep he
  arrivals := by
    intro other
    refine (Timeline.canonical_iff ?_).mp canonical
    rw [priced.order, Setup.isPriority_order]
    exact other
  windows := by
    intro active fits
    refine List.Pairwise.imp_of_mem (fun {a b} ha hb lt => ?_) canonical
    rw [priced.order, active] at lt
    have first : s.core.setup.Fits a := ⟨h.stream_lt ha, fits a ha⟩
    have second : s.core.setup.Fits b := ⟨h.stream_lt hb, fits b hb⟩
    exact Setup.windowKey_lt_of_rank_lt first second lt
  leave := by
    intro e rest split now k
    cases slots : s.core.timeline.slots with
    | nil =>
      rw [Timeline.entries, slots] at split
      cases split
    | cons first others =>
      rw [Timeline.entries, slots] at split
      obtain ⟨rfl, rfl⟩ := List.cons.inj split
      rw [Core.dispatchHead?, Timeline.pop?, slots]
      refine ⟨_, rfl, ?_⟩
      change (s.core.timeline.slots.eraseIdx 0).map Slot.entry = _
      rw [slots]
      rfl

/-- Whatever the migrations among the policies of the timeline, the entries wait in the order of
the policy at work. -/
theorem run_keeps_canonical_order (setup : Setup) (actions : List Action)
    (h : Unbroken setup actions) : (run setup actions).core.InCanonicalOrder := by
  obtain ⟨plain, canonical⟩ := run_canonical h
  exact (run_kept setup actions).inCanonicalOrder (run_priced setup actions) plain canonical

/-- After a history of merging, an order without merging and a withdrawal, the entries are sorted by
windows, streams and numbers. -/
theorem canonical_after_migrations :
    let setup : Setup := .of { Config.defaults with defaultPolicy := "TO_AGG" } .one 4
    let before : List Action :=
      [.submit 0 ⟨"f", .read, 0, 8, 0, 3⟩, .submit 0 ⟨"g", .read, 0, 8, 0, 1⟩,
        .submit 1500000 ⟨"f", .read, 8, 8, 0, 0⟩, .migrate .timeOrder,
        .submit 0 ⟨"h", .read, 0, 8, 0, 9⟩, .cancel ⟨"g", .read, 0, 8⟩,
        .submit 100 ⟨"h", .read, 8, 8, 0, 2⟩, .submit 1000000 ⟨"g", .write, 0, 8, 0, 0⟩]
    let c := (run setup (before ++ [.migrate .timeWindow])).core
    Unbroken setup (before ++ [.migrate .timeWindow]) ∧ c.InCanonicalOrder ∧
      c.timeline.entries.Pairwise fun a b => c.setup.windowKey a < c.setup.windowKey b := by
  intro setup before c
  have unbroken : Unbroken setup (before ++ [.migrate .timeWindow]) := by decide +kernel
  have order : c.InCanonicalOrder := run_keeps_canonical_order _ _ unbroken
  have fit : ∀ e ∈ (run setup before).core.timeline.entries,
      setup.window e * max setup.maxStream 1 + e.stream ≤ maxWord := by decide +kernel
  have sorted (s : System) (plain : ¬ s.core.active.profile.bucketed) :
      (s.act (.migrate .timeWindow)).core.timeline.entries.Perm s.core.timeline.entries :=
    Core.transfer_entries plain (by decide)
  have same := sorted (run setup before) (by decide +kernel)
  rw [← run_concat] at same
  have held : c.setup = setup := (run_kept setup _).setup_eq
  refine ⟨unbroken, order, order.windows (by decide +kernel) fun e he => ?_⟩
  rw [held]
  exact fit e (same.mem_iff.mp he)

end System

end IoScheduling
