import IoScheduling.Proofs.Timeline

/-! # Merging until nothing touches

Under the order that merges, an arrival joins the first entry it may join, and what has grown that
way may touch entries that the arrival did not. The rounds that follow take one entry out each, so
they come to an end, and at the end the grown entry has no partner left. It stands in the place of
the first entry that went into it; those that did not go into it never move. -/
namespace IoScheduling

namespace Timeline

def Mergeable (limit : Nat) (a b : Entry) : Prop :=
  a.file = b.file ∧ a.direction = b.direction ∧ a.touches b.offset b.stop ∧
    a.count + b.count ≤ limit

/-- Of the slots of `old` those of `front` and `back` are as they were. The others, of which there
is at least one and the first stood right behind `front`, have become `e` together with `node`. -/
structure Gathered (limit : Nat) (node : Entry) (old front : List Slot) (e : Entry)
    (back : List Slot) : Prop where
  described : e.Described
  room : e.count ≤ limit
  parts : ∃ first rest gone, old = front ++ first :: rest ∧ back.Sublist rest ∧
    rest.Perm (gone ++ back) ∧
    e.requests.Perm ((first :: gone).flatMap (fun s => s.entry.requests) ++ node.requests)

/-- Where an arrival ends up among the slots of `t`. -/
inductive Arrival (t : Timeline) (node : Entry) : List Slot → Placement → Prop where
  | alone : (∀ s ∈ t.slots, ¬ Mergeable t.limit s.entry node) →
      Arrival t node (t.slots ++ [t.slotOf node]) .alone
  | merged {front back : List Slot} {e : Entry} : Gathered t.limit node t.slots front e back →
      (∀ s ∈ front ++ back, ¬ Mergeable t.limit s.entry e) →
      Arrival t node (front ++ t.slotOf e :: back) (.merged e.count)

/-- No two entries could be one. -/
def Exhausted (limit : Nat) (slots : List Slot) : Prop :=
  slots.Pairwise fun a b => ¬ Mergeable limit a.entry b.entry

/-- The arrival of `node` on the timeline `t`, with the result `result`. -/
structure Arrived (t : Timeline) (node : Entry) (result : Timeline × Placement) : Prop where
  requests : (result.1.entries.flatMap Entry.requests).Perm
    (t.entries.flatMap Entry.requests ++ node.requests)
  arrival : Arrival t node result.1.slots result.2
  exhausted : Exhausted t.limit t.slots → Exhausted t.limit result.1.slots
  /-- The rounds that merge end by themselves: more of them change nothing. -/
  ends : ∀ i, partner? t.limit t.slots none node = some i → ∀ more,
    let grown := t.store.modify i fun s => { s with entry := s.entry.absorb node }
    bridge t.limit (t.slots.length + more) grown i = bridge t.limit t.slots.length grown i

variable {limit : Nat} {old front back : List Slot} {s : Slot} {e node : Entry} {t : Timeline}

theorem mergeable_symm {a b : Entry} (h : Mergeable limit a b) : Mergeable limit b a :=
  partners_iff.mp (partners_symm (partners_iff.mpr h))

theorem partner?_none {slots : List Slot} {skip : Option Nat}
    (h : partner? limit slots skip node = none) {i : Nat} (hi : slots[i]? = some s)
    (other : some i ≠ skip) : ¬ Mergeable limit s.entry node := by
  intro mergeable
  have fails := List.findSome?_eq_none_iff.mp h (s, i) (List.mem_zipIdx_iff_getElem?.mpr hi)
  dsimp only at fails
  rw [if_pos ⟨other, partners_iff.mpr mergeable⟩] at fails
  cases fails

theorem apart_of_settled {store : Ring Slot} (split : store.items = front ++ s :: back)
    (h : Settled limit store front.length) :
    ∀ o ∈ front ++ back, ¬ Mergeable limit o.entry s.entry := by
  have here : store.items[front.length]? = some s := by
    rw [split, getElem?_length_append]
  have none := h s here
  rw [split] at none
  intro o ho
  rcases List.mem_append.mp ho with ho | ho
  · obtain ⟨i, hi, rfl⟩ := List.getElem_of_mem ho
    have there : (front ++ s :: back)[i]? = some front[i] := by
      rw [List.getElem?_append_left hi, List.getElem?_eq_getElem hi]
    exact partner?_none none there fun same => hi.ne (Option.some.inj same)
  · obtain ⟨i, hi, rfl⟩ := List.getElem_of_mem ho
    have there : (front ++ s :: back)[front.length + (i + 1)]? = some back[i] := by
      rw [List.getElem?_append_right (Nat.le_add_right _ _), Nat.add_sub_cancel_left,
        List.getElem?_cons_succ, List.getElem?_eq_getElem hi]
    refine partner?_none none there fun same => ?_
    have := Option.some.inj same
    omega

namespace Gathered

theorem later {middle : List Slot} {b : Slot} (h : Gathered limit node old front e (middle ++ b :: back))
    (both : partners limit e b.entry) :
    Gathered limit node old front (e.absorb b.entry) (middle ++ back) where
  described := Entry.described_absorb _ _
  room := by
    rw [count_absorb]
    exact (partners_iff.mp both).2.2.2
  parts := by
    obtain ⟨first, rest, gone, split, sub, perm, requests⟩ := h.parts
    refine ⟨first, rest, b :: gone, split, ?_, ?_, ?_⟩
    · exact ((List.sublist_cons_self b back).append_left middle).trans sub
    · refine perm.trans ?_
      rw [← List.append_assoc]
      exact List.perm_middle.trans (by simp)
    · refine (requests_absorb_perm e b.entry).trans ((requests.append_right _).trans ?_)
      apply List.perm_iff_count.mpr
      intro r
      simp only [List.flatMap_cons, List.count_append]
      omega

theorem earlier {middle : List Slot} {a : Slot}
    (h : Gathered limit node old (front ++ a :: middle) e back)
    (both : partners limit a.entry e) :
    Gathered limit node old front (a.entry.absorb e) (middle ++ back) where
  described := Entry.described_absorb _ _
  room := by
    rw [count_absorb]
    exact (partners_iff.mp both).2.2.2
  parts := by
    obtain ⟨first, rest, gone, split, sub, perm, requests⟩ := h.parts
    refine ⟨a, middle ++ first :: rest, first :: gone, by simp [split], ?_, ?_, ?_⟩
    · exact (sub.cons first).append_left middle
    · have inner := (perm.cons first).append_left middle
      refine inner.trans ?_
      have sides : (middle ++ first :: gone).Perm (first :: gone ++ middle) := List.perm_append_comm
      have swap := sides.append_right back
      rw [List.append_assoc, List.append_assoc] at swap
      exact swap
    · refine (requests_absorb_perm a.entry e).trans ((requests.append_left _).trans ?_)
      apply List.perm_iff_count.mpr
      intro r
      simp only [List.flatMap_cons, List.count_append]
      omega

theorem sublist (h : Gathered limit node old front e back) : (front ++ back).Sublist old := by
  obtain ⟨first, rest, gone, rfl, sub, -⟩ := h.parts
  exact (sub.cons first).append_left front

theorem requests (h : Gathered limit node old front e back) (s : Slot) (here : s.entry = e) :
    ((front ++ s :: back).flatMap fun s => s.entry.requests).Perm
      ((old.flatMap fun s => s.entry.requests) ++ node.requests) := by
  obtain ⟨first, rest, gone, rfl, -, perm, requests⟩ := h.parts
  apply List.perm_iff_count.mpr
  intro r
  have others := (perm.flatMap_right fun s => s.entry.requests).count_eq r
  have own := requests.count_eq r
  rw [← here] at own
  simp only [List.flatMap_cons, List.flatMap_append, List.count_append] at others own ⊢
  omega

theorem exhausted (h : Gathered limit node old front e back)
    (apart : ∀ o ∈ front ++ back, ¬ Mergeable limit o.entry e) (before : Exhausted limit old)
    (s : Slot) (here : s.entry = e) : Exhausted limit (front ++ s :: back) := by
  have symm : ∀ {a b : Slot}, ¬ Mergeable limit a.entry b.entry →
      ¬ Mergeable limit b.entry a.entry := fun apart mergeable => apart (mergeable_symm mergeable)
  refine (List.pairwise_middle symm).mpr (List.pairwise_cons.mpr ⟨?_, before.sublist h.sublist⟩)
  intro o ho mergeable
  rw [here] at mergeable
  exact apart o ho (mergeable_symm mergeable)

end Gathered

/-- The induction is on the rounds, of which there are at least as many as slots that could still be
merged; a round leaves one slot less. -/
theorem bridge_gathers {rounds : Nat} {store : Ring Slot}
    (split : store.items = front ++ s :: back) (h : Gathered limit node old front s.entry back)
    (enough : (front ++ back).length ≤ rounds) :
    ∃ front' s' back', (bridge limit rounds store front.length).1.items = front' ++ s' :: back' ∧
      (bridge limit rounds store front.length).2 = front'.length ∧
      Gathered limit node old front' s'.entry back' ∧
      Settled limit (bridge limit rounds store front.length).1 front'.length := by
  induction rounds generalizing store front s back with
  | zero =>
    have alone : front = [] ∧ back = [] := by simpa using enough
    obtain ⟨rfl, rfl⟩ := alone
    have settled : Settled limit store 0 := by
      intro here _
      by_contra some_partner
      obtain ⟨j, hj⟩ := Option.ne_none_iff_exists'.mp some_partner
      obtain ⟨o, ho, ne, -⟩ := partner?_some hj
      have lt := (List.getElem?_eq_some_iff.mp ho).1
      rw [split] at lt
      exact ne (congrArg some (Nat.lt_one_iff.mp lt))
    exact ⟨[], s, [], split, rfl, h, settled⟩
  | succ rounds ih =>
    by_cases settled : Settled limit store front.length
    · rw [bridge_settled settled]
      exact ⟨front, s, back, split, rfl, h, settled⟩
    · obtain ⟨here, hi, some_partner⟩ := by simpa [Settled] using settled
      obtain ⟨j, hj⟩ := Option.ne_none_iff_exists'.mp some_partner
      obtain ⟨front', a, middle, b, back', split', place, both, store', items, next⟩ :=
        bridge_succ hi hj
      rw [split] at split'
      rw [next]
      rcases place with place | place
      · obtain ⟨rfl, tails⟩ := List.append_inj split' place
        obtain ⟨rfl, rfl⟩ := List.cons.inj tails
        refine ih items (h.later both) ?_
        simp only [List.length_append, List.length_cons] at enough ⊢
        omega
      · have whole : front ++ s :: back = (front' ++ a :: middle) ++ b :: back' := by
          rw [split', List.append_assoc, List.cons_append]
        obtain ⟨rfl, tails⟩ := List.append_inj whole place
        obtain ⟨rfl, rfl⟩ := List.cons.inj tails
        refine ih items (h.earlier both) ?_
        simp only [List.length_append, List.length_cons] at enough ⊢
        omega

theorem bridge_stable (limit rounds : Nat) (store : Ring Slot) (i : Nat)
    (h : Settled limit (bridge limit rounds store i).1 (bridge limit rounds store i).2)
    (more : Nat) : bridge limit (rounds + more) store i = bridge limit rounds store i := by
  induction rounds generalizing store i with
  | zero => exact bridge_settled h _
  | succ rounds ih =>
    by_cases settled : Settled limit store i
    · rw [bridge_settled settled, bridge_settled settled]
    · obtain ⟨here, hi, some_partner⟩ := by simpa [Settled] using settled
      obtain ⟨j, hj⟩ := Option.ne_none_iff_exists'.mp some_partner
      obtain ⟨front, a, middle, b, back, -, -, -, store', -, next⟩ := bridge_succ hi hj
      rw [next] at h ⊢
      rw [Nat.add_right_comm, next]
      exact ih store' front.length h

theorem gathered_start (split : t.slots = front ++ s :: back)
    (both : partners limit s.entry node) :
    Gathered limit node t.slots front (s.entry.absorb node) back where
  described := Entry.described_absorb _ _
  room := by
    rw [count_absorb]
    exact (partners_iff.mp both).2.2.2
  parts := by
    refine ⟨s, back, [], split, .refl _, .refl _, ?_⟩
    simpa using requests_absorb_perm s.entry node

theorem arrived_alone (h : partner? t.limit t.slots none node = none) (n : Nat) :
    Arrived t node ({ t with store := t.store.push (t.slotOf node), requests := n }, .alone) := by
  have apart : ∀ s ∈ t.slots, ¬ Mergeable t.limit s.entry node := by
    intro s hs
    obtain ⟨i, hi⟩ := List.mem_iff_getElem?.mp hs
    exact partner?_none h hi (Option.some_ne_none i)
  constructor
  case requests =>
    rw [entries, slots, entries_push, List.flatMap_append]
    exact List.perm_append_left_iff _ |>.mpr (by simp [slotOf])
  case arrival => exact .alone apart
  case exhausted =>
    intro before
    refine List.pairwise_append.mpr ⟨before, List.pairwise_singleton _ _, ?_⟩
    intro s hs o ho
    rw [List.mem_singleton.mp ho]
    exact apart s hs
  case ends =>
    intro i some_partner
    rw [h] at some_partner
    cases some_partner

theorem arrived_merged {i : Nat} (h : partner? t.limit t.slots none node = some i) (n : Nat) :
    Arrived t node (addMerging { t with requests := n } node) := by
  obtain ⟨s, hs, -, both⟩ := partner?_some h
  obtain ⟨front, back, split, rfl⟩ := exists_split hs
  let grown := t.store.modify front.length fun s => { s with entry := s.entry.absorb node }
  have items : grown.items = front ++ { s with entry := s.entry.absorb node } :: back := by
    change t.slots.modify _ _ = _
    rw [split, modify_length_append]
  have size : grown.items.length = t.slots.length := List.length_modify _ _ _
  have enough : (front ++ back).length ≤ grown.items.length := by simp [items]
  have gathers := bridge_gathers items (gathered_start split both) enough
  have form : addMerging { t with requests := n } node =
      let last := bridge t.limit grown.items.length grown front.length
      let store := last.1.modify last.2 fun s => t.slotOf s.entry
      ({ t with store := store, requests := n },
        .merged ((store.items[last.2]?.map (·.entry.count)).getD 0)) := by
    have found : partner? t.limit ({ t with requests := n } : Timeline).slots none node =
        some front.length := h
    rw [addMerging, found]
    rfl
  have stable (more : Nat) : bridge t.limit (grown.items.length + more) grown front.length =
      bridge t.limit grown.items.length grown front.length := by
    obtain ⟨_, _, _, -, place, -, settled⟩ := gathers
    exact bridge_stable _ _ _ _ (place ▸ settled) more
  rw [form]
  generalize bridge t.limit grown.items.length grown front.length = outcome at gathers
  obtain ⟨store, i⟩ := outcome
  obtain ⟨front', s', back', items', rfl, gathered, settled⟩ := gathers
  have apart := apart_of_settled items' settled
  have slots' : (store.modify front'.length fun s => t.slotOf s.entry).items =
      front' ++ t.slotOf s'.entry :: back' := by
    rw [Ring.items_modify, items', modify_length_append]
  constructor
  case requests =>
    change (((store.modify front'.length _).items.map Slot.entry).flatMap Entry.requests).Perm
      ((t.slots.map Slot.entry).flatMap Entry.requests ++ node.requests)
    rw [slots', List.flatMap_map, List.flatMap_map]
    exact gathered.requests _ rfl
  case arrival =>
    have here := getElem?_length_append front' back' (t.slotOf s'.entry)
    change Arrival t node (store.modify front'.length _).items (.merged _)
    rw [slots', here]
    exact .merged gathered apart
  case exhausted =>
    intro before
    change Exhausted t.limit (store.modify front'.length _).items
    rw [slots']
    exact gathered.exhausted apart before _ rfl
  case ends =>
    intro i some_partner more
    obtain rfl := Option.some.inj (h.symm.trans some_partner)
    rw [← size]
    exact stable more

/-- Whatever stands on the timeline and whatever arrives, merging comes to an end, and then the entry
of the arrival can be merged with none of the others. -/
theorem add_settles (t : Timeline) (node : Entry) (merging : t.order = .fifoAggregate) :
    Arrived t node (t.add node) := by
  have form : t.add node = addMerging { t with requests := t.requests + node.count } node := by
    rw [add]
    dsimp only
    rw [merging]
  rw [form]
  cases h : partner? t.limit t.slots none node with
  | none =>
    have none : partner? t.limit ({ t with requests := t.requests + node.count } : Timeline).slots
        none node = none := h
    rw [addMerging, none]
    exact arrived_alone h _
  | some i => exact arrived_merged h _

/-- Entries that came in under the order of arrival, which does not merge those that touch. -/
def wall : Timeline :=
  let arrivals : List Request := [.reading "f" 40 10, .reading "g" 0 10, .reading "f" 20 20,
    .reading "f" 0 10, .reading "f" 50 10]
  (arrivals.foldl (fun t r => (t.add (.single r)).1) empty).configure .fifoAggregate 4

/-- The arrival joins the third entry, moves with it to the first, and takes the fourth in as well;
for the last there is no room. -/
theorem wall_settles : wall.order = .fifoAggregate ∧
    (wall.add (.single (.reading "f" 10 10))).1.entries.map Entry.count = [4, 1, 1] ∧
    Arrived wall (.single (.reading "f" 10 10)) (wall.add (.single (.reading "f" 10 10))) :=
  ⟨rfl, by decide +kernel, add_settles wall _ rfl⟩

end Timeline

end IoScheduling
