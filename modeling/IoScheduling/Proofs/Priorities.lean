import IoScheduling.Proofs.Timeline

/-! # Priorities on the timeline

An entry is stored with the priority it had when it was placed. That priority never goes stale: what
changes an entry stores its priority anew. Under time windows the entries stand in the order of
their priorities, and the search for the place of an arrival relies on it. -/
namespace IoScheduling

theorem TimelineOrder.priority_eq {order : TimelineOrder} (h : ¬ order.isPriority) (e : Entry) :
    order.priority e = e.firstSeq := by
  cases order with
  | fifo => rfl
  | fifoAggregate => rfl
  | timeWindow window streams => exact absurd rfl h

namespace Timeline

/-- Every entry is stored with the priority it has under the current order. -/
def Priced (t : Timeline) : Prop := ∀ s ∈ t.slots, s = t.slotOf s.entry

/-- The stored priorities do not decrease. -/
def InOrder (t : Timeline) : Prop := t.slots.Pairwise fun a b => a.priority ≤ b.priority

variable {t t' : Timeline} {e node : Entry} {a : Address} {r : Request}

theorem order_add (t : Timeline) (node : Entry) : (t.add node).1.order = t.order := by
  unfold add addMerging
  dsimp only
  split
  · rfl
  · split <;> rfl
  · rfl

theorem slots_eq_nil (h : t.entries = []) : t.slots = [] := List.map_eq_nil_iff.mp h

theorem priced_nil (h : t.entries = []) : t.Priced := by
  intro s hs
  rw [slots_eq_nil h] at hs
  cases hs

/-- As `Priced`, but for the slot at one place. -/
def PricedBut (i : Nat) (slotOf : Entry → Slot) (slots : List Slot) : Prop :=
  ∀ j s, j ≠ i → slots[j]? = some s → s = slotOf s.entry

theorem PricedBut.modify {i : Nat} {slotOf : Entry → Slot} {slots : List Slot} (f : Slot → Slot)
    (h : PricedBut i slotOf slots) : PricedBut i slotOf (slots.modify i f) := by
  intro j s hj hs
  rw [List.getElem?_modify_ne f slots hj.symm] at hs
  exact h j s hj hs

theorem PricedBut.join {i k : Nat} {slotOf : Entry → Slot} {slots : List Slot}
    (h : PricedBut i slotOf slots) :
    PricedBut (min i k) slotOf (slots.eraseIdx (max i k)) := by
  intro j s hj hs
  rw [List.getElem?_eraseIdx] at hs
  by_cases before : j < max i k
  · rw [if_pos before] at hs
    exact h j s (by omega) hs
  · rw [if_neg before] at hs
    exact h (j + 1) s (by omega) hs

theorem bridge_pricedBut (limit rounds : Nat) {store : Ring Slot} {i : Nat} {slotOf : Entry → Slot}
    (h : PricedBut i slotOf store.items) :
    PricedBut (bridge limit rounds store i).2 slotOf (bridge limit rounds store i).1.items := by
  induction rounds generalizing store i with
  | zero => exact h
  | succ rounds ih =>
    unfold bridge
    split
    · exact h
    · split
      · exact h
      · dsimp only
        split
        · exact h
        · exact ih (h.join.modify _)

theorem priced_push (h : t.Priced) (node : Entry) :
    ({ t with store := t.store.push (t.slotOf node) } : Timeline).Priced := by
  intro s hs
  rcases List.mem_append.mp hs with hs | hs
  · exact h s hs
  · rw [List.mem_singleton.mp hs]
    rfl

theorem priced_addMerging (h : t.Priced) (node : Entry) : (t.addMerging node).1.Priced := by
  unfold addMerging
  split
  · exact priced_push h node
  · rename_i i hi
    have others : PricedBut i t.slotOf t.store.items := fun j s _ hs => h s (List.mem_of_getElem? hs)
    let grown := t.store.modify i fun s => { s with entry := s.entry.absorb node }
    have bridged : PricedBut (bridge t.limit grown.items.length grown i).2 t.slotOf
        (bridge t.limit grown.items.length grown i).1.items :=
      bridge_pricedBut t.limit grown.items.length (others.modify _)
    intro s hs
    obtain ⟨j, hj⟩ := List.mem_iff_getElem?.mp hs
    by_cases here : j = (bridge t.limit grown.items.length grown i).2
    · subst here
      change (List.modify _ _ _)[_]? = _ at hj
      rw [List.getElem?_modify_eq] at hj
      obtain ⟨old, -, rfl⟩ := Option.map_eq_some_iff.mp hj
      rfl
    · exact bridged.modify _ j s here hj

theorem priced_add (h : t.Priced) (node : Entry) : (t.add node).1.Priced := by
  unfold add
  dsimp only
  split
  · exact priced_push (t := { t with requests := t.requests + node.count }) h node
  · exact priced_addMerging (t := { t with requests := t.requests + node.count }) h node
  · intro s hs
    rcases List.eq_or_mem_of_mem_insertIdx hs with rfl | hs
    · rfl
    · exact h s hs

theorem boundary_eq (h : t.InOrder) (p : Nat) :
    t.store.boundary (fun s => s.priority ≤ p) =
        partitionPoint (fun s => s.priority ≤ p) t.slots ∧
      partitionPoint (fun s => s.priority ≤ p) t.slots =
        t.slots.countP fun s => s.priority ≤ p := by
  obtain ⟨front, back, split, low, high, place⟩ := exists_slot Slot.priority p h
  have before : ∀ s ∈ front, decide (s.priority ≤ p) = true := fun s hs =>
    decide_eq_true (low s hs)
  have after : ∀ s ∈ back, decide (s.priority ≤ p) = false := fun s hs =>
    decide_eq_false (Nat.not_le_of_lt (high s hs))
  constructor
  · exact Ring.boundary_eq_partitionPoint split before after
  · have none : back.countP (fun s => s.priority ≤ p) = 0 :=
      List.countP_eq_zero.mpr fun s hs => by simp [after s hs]
    rw [place, split, List.countP_append, List.countP_eq_length.mpr before, none, Nat.add_zero]

theorem inOrder_add (h : t.InOrder) (windows : t.order.isPriority) (node : Entry) :
    (t.add node).1.InOrder := by
  unfold add
  dsimp only
  split
  · rename_i fifo
    rw [fifo] at windows
    cases windows
  · rename_i merging
    rw [merging] at windows
    cases windows
  · have placed := pairwise_insert_slot Slot.priority (t.slotOf node) h
    rw [← (boundary_eq h _).1] at placed
    exact placed

theorem priced_pop? (h : t.Priced) (hp : t.pop? = some (e, t')) : t'.Priced := by
  obtain ⟨first, split, -, form⟩ := pop?_slots hp
  have order : t'.order = t.order := by rw [form]
  intro s hs
  rw [slotOf, order]
  exact h s (split ▸ List.mem_cons_of_mem first hs)

theorem inOrder_pop? (h : t.InOrder) (hp : t.pop? = some (e, t')) : t'.InOrder := by
  obtain ⟨first, split, -, -⟩ := pop?_slots hp
  rw [InOrder, split] at h
  exact h.of_cons

/-- Whether a withdrawal takes an entry apart into runs that do not all keep its priority. -/
def displaces (t : Timeline) (a : Address) : Bool :=
  (t.locate a).any fun (i, k) => t.slots[i]?.any fun s => (s.entry.extract k).any fun (_, runs) =>
    runs.any fun run => t.order.priority run ≠ t.order.priority s.entry

theorem priced_withdraw (h : t.Priced) (hw : t.withdraw a = some (r, t')) : t'.Priced := by
  obtain ⟨front, s, back, k, runs, -, split, -, after, form⟩ := withdraw_slots hw
  have order : t'.order = t.order := by rw [form]
  intro o ho
  rw [slotOf, order]
  rw [after] at ho
  rcases List.mem_append.mp ho with ho | ho
  · rcases List.mem_append.mp ho with ho | ho
    · exact h o (by simp [split, ho])
    · obtain ⟨run, -, rfl⟩ := List.mem_map.mp ho
      rfl
  · exact h o (by simp [split, ho])

theorem inOrder_withdraw (h : t.InOrder) (priced : t.Priced) (hw : t.withdraw a = some (r, t'))
    (calm : t.displaces a = false) : t'.InOrder := by
  obtain ⟨front, s, back, k, runs, located, split, hx, after, -⟩ := withdraw_slots hw
  have here : t.slots[front.length]? = some s := by
    rw [split, List.getElem?_append_right (Nat.le_refl _), Nat.sub_self]
    rfl
  have same : ∀ o ∈ runs.map t.slotOf, o.priority = s.priority := by
    intro o ho
    obtain ⟨run, hrun, rfl⟩ := List.mem_map.mp ho
    rw [priced s (split ▸ by simp)]
    have kept : ∀ run ∈ runs, t.order.priority run = t.order.priority s.entry := by
      simpa [displaces, located, here, hx] using calm
    exact kept run hrun
  rw [InOrder, split] at h
  obtain ⟨hf, hb, cross⟩ := List.pairwise_append.mp h
  obtain ⟨first, hb⟩ := List.pairwise_cons.mp hb
  rw [InOrder, after, List.append_assoc]
  apply List.pairwise_append.mpr
  refine ⟨hf, List.pairwise_append.mpr ⟨List.pairwise_of_forall_mem_list ?_, hb, ?_⟩, ?_⟩
  · intro o ho q hq
    rw [same o ho, same q hq]
  · intro o ho b hb
    rw [same o ho]
    exact first b hb
  · intro x hx y hy
    rcases List.mem_append.mp hy with hy | hy
    · rw [same y hy]
      exact cross x hx s List.mem_cons_self
    · exact cross x hx y (List.mem_cons_of_mem s hy)

theorem priced_reorder (t : Timeline) : t.reorder.Priced := by
  intro s hs
  obtain ⟨e, -, rfl⟩ := List.mem_map.mp (List.mem_mergeSort.mp hs)
  rfl

theorem sortable_slots : (∀ a b c : Slot, decide (a.priority ≤ b.priority) →
      decide (b.priority ≤ c.priority) → decide (a.priority ≤ c.priority)) ∧
    ∀ a b : Slot, (decide (a.priority ≤ b.priority) || decide (b.priority ≤ a.priority)) = true := by
  constructor
  · intro a b c ab bc
    exact decide_eq_true ((of_decide_eq_true ab).trans (of_decide_eq_true bc))
  · intro a b
    rw [Bool.or_eq_true]
    exact (Nat.le_total a.priority b.priority).imp decide_eq_true decide_eq_true

theorem inOrder_reorder (t : Timeline) : t.reorder.InOrder :=
  (List.pairwise_mergeSort sortable_slots.1 sortable_slots.2 _).imp of_decide_eq_true

end Timeline

end IoScheduling
