import IoScheduling.Proofs.WindowOrder

/-! # Stored priorities are never stale

What the priority of an entry means depends on the order that the timeline serves, and to set up
another order touches no entry. Still no entry keeps a priority of an earlier order: where the
meaning changes, the timeline is empty or is put in order anew, and what merges or splits an entry
stores its priority again. So a search for a place never compares values of different kinds. -/
namespace IoScheduling

section

variable {α : Type} {p q : α → Bool} {xs : List α}

theorem narrow_congr (h : ∀ x ∈ xs, p x = q x) (base size : Nat) :
    narrow p xs base size = narrow q xs base size := by
  have same (i : Nat) : (xs[i]?).any p = (xs[i]?).any q := by
    cases found : xs[i]? with
    | none => rfl
    | some x => exact h x (List.mem_of_getElem? found)
  fun_induction narrow p xs base size with
  | case1 base size small holds => rw [narrow, if_pos small, ← same, if_pos holds]
  | case2 base size small fails => rw [narrow, if_pos small, ← same, if_neg fails]
  | case3 base size large middle ih =>
    rw [dite_eq_ite] at ih
    rw [ih, same]
    conv_rhs => rw [narrow, if_neg large]

theorem Ring.boundary_congr {r : Ring α} (h : ∀ x ∈ r.items, p x = q x) :
    r.boundary p = r.boundary q := by
  have back : ∀ x ∈ r.items.drop (r.capacity - r.start), p x = q x := fun x hx =>
    h x (List.mem_of_mem_drop hx)
  have front : ∀ x ∈ r.items.take (r.capacity - r.start), p x = q x := fun x hx =>
    h x (List.mem_of_mem_take hx)
  have first : (r.items.drop (r.capacity - r.start)).head?.any p =
      (r.items.drop (r.capacity - r.start)).head?.any q := by
    cases found : (r.items.drop (r.capacity - r.start)).head? with
    | none => rfl
    | some x => exact back x (List.mem_of_mem_head? found)
  simp only [boundary, List.splitAt_eq, partitionPoint]
  rw [first, narrow_congr back, narrow_congr front]

end

namespace Timeline

/-- What is stored with an entry is what the order served makes of the entry as it is. -/
structure Current (t : Timeline) : Prop where
  arrival : ¬ t.order.isPriority → ∀ s ∈ t.slots, s.priority = s.entry.firstSeq
  windows : ∀ window streams, t.order = .timeWindow window streams → ∀ s ∈ t.slots,
    s.priority =
      satAdd (satMul (s.entry.earliestArrival / max window 1) (max streams 1)) s.entry.stream
  /-- The search for the place of an entry compares stored priorities, as if it computed them. -/
  search : ∀ node, t.store.boundary (fun s => s.priority ≤ (t.slotOf node).priority) =
    t.store.boundary fun s => t.order.priority s.entry ≤ t.order.priority node

variable {t : Timeline}

theorem Priced.current (h : t.Priced) : t.Current := by
  have stored : ∀ s ∈ t.slots, s.priority = t.order.priority s.entry := fun s hs =>
    congrArg Slot.priority (h s hs)
  constructor
  case arrival =>
    intro plain s hs
    rw [stored s hs, TimelineOrder.priority_eq plain]
  case windows =>
    intro window streams order s hs
    rw [stored s hs, order]
    rfl
  case search =>
    intro node
    refine Ring.boundary_congr fun s hs => ?_
    rw [stored s hs]
    rfl

theorem slots_reorder (t : Timeline) :
    t.reorder.slots =
      (t.entries.mergeSort fun a b => t.order.priority a ≤ t.order.priority b).map t.slotOf :=
  (List.map_mergeSort (f := t.slotOf) fun _ _ _ _ => rfl).symm

end Timeline

namespace Core

/-- The timeline serves the order of the active policy, and neither now nor in the course of a
migration are stale priorities compared. -/
structure Current (c : Core) : Prop where
  order : c.timeline.order = c.setup.order c.active
  stored : c.timeline.Current
  moving : c.active.profile.bucketed → ∀ (k : PolicyKind) (part : List Entry),
    part <+: c.index.drain.1 →
      let moved := part.foldl shelve { c with
        index := c.index.drain.2
        timeline := c.timeline.configure (c.setup.order k) (c.setup.limit k) }
      moved.timeline.order = c.setup.order k ∧ moved.timeline.Current
  sorting : ∀ k : PolicyKind,
    let t := c.timeline.configure (c.setup.order k) (c.setup.limit k)
    t.reorder.Current ∧ t.reorder.slots = (t.entries.mergeSort fun a b =>
      (c.setup.order k).priority a ≤ (c.setup.order k).priority b).map t.slotOf

variable {c : Core}

theorem Priced.current (priced : c.Priced) (h : c.InStep) : c.Current := by
  constructor
  case order => exact priced.order
  case stored => exact priced.stored.current
  case moving =>
    intro bucketed k part _
    let t := c.timeline.configure (c.setup.order k) (c.setup.limit k)
    have empty : t.entries = [] := timeline_empty h bucketed
    obtain ⟨order, stored, -⟩ :=
      Timeline.foldl_add part (Timeline.priced_nil empty) (Timeline.ordered_nil empty)
    dsimp only
    rw [timeline_foldl_shelve]
    exact ⟨order, stored.current⟩
  case sorting =>
    intro k
    let t := c.timeline.configure (c.setup.order k) (c.setup.limit k)
    exact ⟨t.priced_reorder.current, t.slots_reorder⟩

end Core

namespace System

/-- After every run each entry of the timeline is stored with its priority under the order of the
active policy, and whatever is compared with it is a priority under that order. -/
theorem run_never_stale (setup : Setup) (actions : List Action) :
    (run setup actions).core.Current :=
  (run_priced setup actions).current (run_inStep setup actions)

end System

end IoScheduling
