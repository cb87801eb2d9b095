import IoScheduling.Pending.Timeline
import IoScheduling.Proofs.Splitting
import Mathlib.Logic.Relation
import Mathlib.Tactic.Abel

/-! # The timeline

Whatever the order, a new entry is put somewhere and then pairs of partners are merged. Where an
entry is put does not matter to what the timeline holds, and neither do the priorities. -/
namespace IoScheduling

theorem exists_split {α : Type} {xs : List α} {i : Nat} {a : α} (h : xs[i]? = some a) :
    ∃ front back, xs = front ++ a :: back ∧ front.length = i := by
  obtain ⟨hi, rfl⟩ := List.getElem?_eq_some_iff.mp h
  refine ⟨xs.take i, xs.drop (i + 1), ?_, List.length_take_of_le hi.le⟩
  rw [List.cons_getElem_drop_succ, List.take_append_drop]

theorem exists_split_pair {α : Type} {xs : List α} {i j : Nat} {a b : α} (ha : xs[i]? = some a)
    (hb : xs[j]? = some b) (lt : i < j) : ∃ front middle back,
      xs = front ++ a :: (middle ++ b :: back) ∧ front.length = i ∧
      (front ++ a :: middle).length = j := by
  obtain ⟨front, rest, rfl, rfl⟩ := exists_split ha
  obtain ⟨d, rfl⟩ := Nat.exists_eq_add_of_lt lt
  rw [List.getElem?_append_right (by omega)] at hb
  have there : rest[d]? = some b := by
    rwa [show front.length + d + 1 - front.length = d + 1 by omega] at hb
  obtain ⟨middle, back, rfl, rfl⟩ := exists_split there
  refine ⟨front, middle, back, rfl, rfl, ?_⟩
  rw [List.length_append, List.length_cons]
  omega

theorem getElem?_length_append {α : Type} (front back : List α) (x : α) :
    (front ++ x :: back)[front.length]? = some x := by
  rw [List.getElem?_append_right le_rfl, Nat.sub_self]
  rfl

theorem eraseIdx_length_append {α : Type} (front back : List α) (x : α) :
    (front ++ x :: back).eraseIdx front.length = front ++ back := by
  rw [List.eraseIdx_append_of_length_le le_rfl, Nat.sub_self]
  rfl

theorem modify_length_append {α : Type} (front back : List α) (a : α) (f : α → α) :
    (front ++ a :: back).modify front.length f = front ++ f a :: back := by
  induction front with
  | nil => rfl
  | cons b front ih => exact congrArg (b :: ·) ih

namespace Timeline

/-- Two partners become one entry in the place of the earlier one. -/
inductive Merge (limit : Nat) : List Entry → List Entry → Prop where
  | step {front middle back : List Entry} {early late : Entry} : partners limit early late →
      Merge limit (front ++ early :: (middle ++ late :: back))
        (front ++ early.absorb late :: (middle ++ back))

abbrev Merges (limit : Nat) : List Entry → List Entry → Prop := Relation.ReflTransGen (Merge limit)

variable {limit bound : Nat} {es fs : List Entry} {e node : Entry} {t : Timeline}

theorem partners_iff : partners limit e node ↔ e.file = node.file ∧ e.direction = node.direction ∧
    e.touches node.offset node.stop ∧ e.count + node.count ≤ limit := by
  simp [partners, and_assoc]

theorem partners_symm (h : partners limit e node) : partners limit node e := by
  obtain ⟨file, direction, touches, fits⟩ := partners_iff.mp h
  refine partners_iff.mpr ⟨file.symm, direction.symm, ?_, by omega⟩
  simpa [Entry.touches, and_comm] using touches

theorem contents_merge (h : Merge limit es fs) : contents fs = contents es := by
  cases h
  simp only [contents_append, contents_cons, contents_absorb]
  abel

theorem contents_merges (h : Merges limit es fs) : contents fs = contents es := by
  induction h with
  | refl => rfl
  | tail _ step ih => exact (contents_merge step).trans ih

theorem sound_merge (h : Merge limit es fs) (hl : limit ≤ bound)
    (hs : ∀ e ∈ es, e.Sound bound e.file e.direction) :
    ∀ e ∈ fs, e.Sound bound e.file e.direction := by
  cases h with
  | @step front middle back early late hp =>
    obtain ⟨file, direction, touches, fits⟩ := partners_iff.mp hp
    have first := hs early (by simp)
    have second := hs late (by simp)
    rw [← file, ← direction] at second
    have grown := (Entry.sound_absorb first second touches (fits.trans hl)).alone
    intro e he
    simp only [List.mem_append, List.mem_cons] at he
    rcases he with he | rfl | he | he
    · exact hs e (by simp [he])
    · exact grown
    · exact hs e (by simp [he])
    · exact hs e (by simp [he])

theorem sound_merges (h : Merges limit es fs) (hl : limit ≤ bound)
    (hs : ∀ e ∈ es, e.Sound bound e.file e.direction) :
    ∀ e ∈ fs, e.Sound bound e.file e.direction := by
  induction h with
  | refl => exact hs
  | tail _ step ih => exact sound_merge step hl ih

theorem partner?_some {slots : List Slot} {skip : Option Nat} {i : Nat}
    (h : partner? limit slots skip node = some i) :
    ∃ s, slots[i]? = some s ∧ some i ≠ skip ∧ partners limit s.entry node := by
  obtain ⟨⟨s, j⟩, hs, h⟩ := List.exists_of_findSome?_eq_some h
  dsimp only at h
  split at h
  · rename_i hp
    obtain rfl := Option.some.inj h
    exact ⟨s, List.mem_zipIdx_iff_getElem?.mp hs, hp⟩
  · cases h

theorem bridge_succ {store : Ring Slot} {i j : Nat} {here : Slot} (hi : store.items[i]? = some here)
    (hj : partner? limit store.items (some i) here.entry = some j) :
    ∃ front a middle b back, store.items = front ++ a :: (middle ++ b :: back) ∧
      (i = front.length ∨ i = (front ++ a :: middle).length) ∧ partners limit a.entry b.entry ∧
      ∃ store' : Ring Slot,
        store'.items = front ++ { a with entry := a.entry.absorb b.entry } :: (middle ++ back) ∧
        ∀ rounds, bridge limit (rounds + 1) store i = bridge limit rounds store' front.length := by
  obtain ⟨s, hs, ne, hp⟩ := partner?_some hj
  -- Which of the two places is the earlier one does not matter from here on.
  have pair : ∃ a b, store.items[min i j]? = some a ∧ store.items[max i j]? = some b ∧
      min i j < max i j ∧ (i = min i j ∨ i = max i j) ∧ partners limit a.entry b.entry := by
    rcases Nat.lt_or_gt_of_ne (fun same : i = j => ne (congrArg some same.symm)) with lt | gt
    · rw [Nat.min_eq_left lt.le, Nat.max_eq_right lt.le]
      exact ⟨here, s, hi, hs, lt, .inl rfl, partners_symm hp⟩
    · rw [Nat.min_eq_right gt.le, Nat.max_eq_left gt.le]
      exact ⟨s, here, hs, hi, gt, .inr rfl, hp⟩
  obtain ⟨a, b, ha, hb, lt, place, both⟩ := pair
  obtain ⟨front, middle, back, split, low, high⟩ := exists_split_pair ha hb lt
  refine ⟨front, a, middle, b, back, split, ?_, both,
    (store.eraseIdx (max i j)).modify (min i j) fun k =>
      { k with entry := k.entry.absorb b.entry }, ?_, ?_⟩
  · rwa [low, high]
  · have erased := eraseIdx_length_append (front ++ a :: middle) back b
    rw [List.append_assoc, List.append_assoc, List.cons_append, List.cons_append, high] at erased
    rw [Ring.items_modify, Ring.items_eraseIdx, split, erased, ← low, modify_length_append]
  · intro rounds
    rw [bridge, hi]
    dsimp only
    rw [hj]
    dsimp only
    rw [hb, low]

def Settled (limit : Nat) (store : Ring Slot) (i : Nat) : Prop :=
  ∀ here, store.items[i]? = some here → partner? limit store.items (some i) here.entry = none

theorem bridge_settled {store : Ring Slot} {i : Nat} (h : Settled limit store i) (rounds : Nat) :
    bridge limit rounds store i = (store, i) := by
  cases rounds with
  | zero => rfl
  | succ rounds =>
    rw [bridge]
    cases hi : store.items[i]? with
    | none => rfl
    | some here =>
      dsimp only
      rw [h here hi]

theorem bridge_merges (limit rounds : Nat) (store : Ring Slot) (i : Nat) :
    Merges limit (store.items.map Slot.entry)
      ((bridge limit rounds store i).1.items.map Slot.entry) := by
  induction rounds generalizing store i with
  | zero => exact .refl
  | succ rounds ih =>
    by_cases settled : Settled limit store i
    · rw [bridge_settled settled]
    · obtain ⟨here, hi, some_partner⟩ := by simpa [Settled] using settled
      obtain ⟨j, hj⟩ := Option.ne_none_iff_exists'.mp some_partner
      obtain ⟨front, a, middle, b, back, split, -, both, store', items, next⟩ := bridge_succ hi hj
      have rest := ih store' front.length
      rw [next, split]
      rw [items] at rest
      simp only [List.map_append, List.map_cons] at rest ⊢
      exact .head (.step both) rest

theorem merge_arrival {slots : List Slot} {i : Nat} {s : Slot} (hs : slots[i]? = some s)
    (hp : partners limit s.entry node) :
    Merge limit (slots.map Slot.entry ++ [node]) ((slots.modify i fun s =>
      { s with entry := s.entry.absorb node }).map Slot.entry) := by
  obtain ⟨front, back, rfl, rfl⟩ := exists_split hs
  have step : Merge limit (front.map Slot.entry ++ s.entry :: (back.map Slot.entry ++ [node]))
    (front.map Slot.entry ++ s.entry.absorb node :: (back.map Slot.entry ++ [])) := .step hp
  rw [modify_length_append]
  simpa using step

theorem entries_modify {f : Slot → Slot} (hf : ∀ s, (f s).entry = s.entry) (slots : List Slot)
    (i : Nat) : (slots.modify i f).map Slot.entry = slots.map Slot.entry := by
  induction slots generalizing i with
  | nil => rw [List.modify_nil]
  | cons s slots ih =>
    cases i with
    | zero => rw [List.modify_zero_cons, List.map_cons, List.map_cons, hf]
    | succ i => rw [List.modify_succ_cons, List.map_cons, List.map_cons, ih]

theorem entries_push (store : Ring Slot) (s : Slot) :
    (store.push s).items.map Slot.entry = store.items.map Slot.entry ++ [s.entry] := by
  rw [Ring.items_push, List.map_append]
  rfl

theorem addMerging_merges (t : Timeline) (node : Entry) :
    Merges t.limit (t.entries ++ [node]) (t.addMerging node).1.entries := by
  unfold addMerging
  split
  · have stood := entries_push t.store (t.slotOf node)
    exact stood ▸ .refl
  · rename_i i hi
    obtain ⟨s, hs, -, hp⟩ := partner?_some hi
    have first := merge_arrival hs hp
    let grown := t.store.modify i fun s => { s with entry := s.entry.absorb node }
    have rest := bridge_merges t.limit grown.items.length grown i
    have same := entries_modify (f := fun s => t.slotOf s.entry) (fun _ => rfl)
      (bridge t.limit grown.items.length grown i).1.items
      (bridge t.limit grown.items.length grown i).2
    exact .head first (rest.trans (same ▸ .refl))

theorem add_merges (t : Timeline) (node : Entry) :
    ∃ i ≤ t.entries.length,
      Merges t.limit (t.entries.insertIdx i node) (t.add node).1.entries := by
  have last : t.entries.insertIdx t.entries.length node = t.entries ++ [node] :=
    List.insertIdx_length_self
  unfold add
  dsimp only
  split
  · refine ⟨t.entries.length, Nat.le_refl _, ?_⟩
    have stood := entries_push t.store (t.slotOf node)
    rw [last]
    exact stood ▸ .refl
  · refine ⟨t.entries.length, Nat.le_refl _, ?_⟩
    rw [last]
    exact addMerging_merges { t with requests := t.requests + node.count } node
  · refine ⟨t.store.boundary fun s => s.priority ≤ (t.slotOf node).priority, ?_, ?_⟩
    · rw [entries, List.length_map]
      exact Ring.boundary_le_length _ _
    · dsimp only [entries, slots]
      rw [Ring.items_insertIdx, List.map_insertIdx]
      exact .refl

def contents (t : Timeline) : Multiset Request := IoScheduling.contents t.entries

/-- Every entry is sound by itself, later merges will keep to the bound, and the counter is exact. -/
structure Sound (bound : Nat) (t : Timeline) : Prop where
  entries : ∀ e ∈ t.entries, e.Sound bound e.file e.direction
  limit_le : t.limit ≤ bound
  requests_eq : t.requests = t.contents.card

theorem sound_empty (hb : 1 ≤ bound) : empty.Sound bound := ⟨by simp [entries, slots, empty], hb, rfl⟩

theorem sound_configure (h : t.Sound bound) (order : TimelineOrder) (hl : max limit 1 ≤ bound) :
    (t.configure order limit).Sound bound := ⟨h.entries, hl, h.requests_eq⟩

theorem limit_add (t : Timeline) (node : Entry) : (t.add node).1.limit = t.limit := by
  unfold add addMerging
  dsimp only
  split
  · rfl
  · split <;> rfl
  · rfl

theorem requests_add (t : Timeline) (node : Entry) :
    (t.add node).1.requests = t.requests + node.count := by
  unfold add addMerging
  dsimp only
  split
  · rfl
  · split <;> rfl
  · rfl

theorem contents_add (t : Timeline) (node : Entry) :
    (t.add node).1.contents = node.contents + t.contents := by
  obtain ⟨i, hi, merges⟩ := add_merges t node
  rw [contents, contents_merges merges, contents_perm (List.perm_insertIdx _ _ hi), contents_cons]
  rfl

theorem sound_add (h : t.Sound bound) (hn : node.Sound bound node.file node.direction) :
    (t.add node).1.Sound bound := by
  obtain ⟨i, hi, merges⟩ := add_merges t node
  refine ⟨sound_merges merges h.limit_le fun e he => ?_, ?_, ?_⟩
  · rcases List.mem_cons.mp ((List.perm_insertIdx _ _ hi).mem_iff.mp he) with rfl | he
    · exact hn
    · exact h.entries e he
  · rw [limit_add]
    exact h.limit_le
  · rw [requests_add, contents_add, Multiset.card_add, card_contents_entry, h.requests_eq,
      Nat.add_comm]

theorem pop?_slots {t' : Timeline} (h : t.pop? = some (e, t')) :
    ∃ s, t.slots = s :: t'.slots ∧ s.entry = e ∧
      t' = { t with store := t'.store, requests := t.requests - e.count } := by
  obtain ⟨s, hs, h⟩ := Option.map_eq_some_iff.mp h
  obtain ⟨rfl, rfl⟩ := Prod.mk.inj h
  have first : t.slots = s :: t.slots.tail := List.eq_cons_of_mem_head? hs
  refine ⟨s, first.trans (congrArg _ ?_), rfl, rfl⟩
  rw [← List.eraseIdx_zero]
  rfl

theorem pop?_some {t' : Timeline} (h : t.pop? = some (e, t')) :
    t.entries = e :: t'.entries ∧ t'.limit = t.limit ∧ t'.requests = t.requests - e.count := by
  obtain ⟨s, split, rfl, form⟩ := pop?_slots h
  refine ⟨?_, by rw [form], by rw [form]⟩
  rw [entries, split]
  rfl

theorem contents_pop? {t' : Timeline} (h : t.pop? = some (e, t')) :
    t.contents = e.contents + t'.contents := by
  rw [contents, (pop?_some h).1, contents_cons]
  rfl

theorem sound_pop? {t' : Timeline} (h : t.Sound bound) (hp : t.pop? = some (e, t')) :
    t'.Sound bound ∧ e.Sound bound e.file e.direction ∧ t.requests = e.count + t'.requests := by
  obtain ⟨split, hl, hr⟩ := pop?_some hp
  have size := h.requests_eq
  rw [contents_pop? hp, Multiset.card_add, card_contents_entry] at size
  refine ⟨⟨fun e he => h.entries e (split ▸ List.mem_cons_of_mem _ he), hl ▸ h.limit_le, by omega⟩,
    h.entries e (split ▸ List.mem_cons_self), by omega⟩

theorem locate_some {a : Address} {i k : Nat} (h : t.locate a = some (i, k)) :
    ∃ e, t.entries[i]? = some e ∧ e.file = a.file ∧ e.position a = some k := by
  obtain ⟨⟨e, j⟩, he, hj⟩ := List.exists_of_findSome?_eq_some h
  dsimp only at hj
  split at hj
  · rename_i file
    obtain ⟨k', hk, same⟩ := Option.map_eq_some_iff.mp hj
    obtain ⟨rfl, rfl⟩ := Prod.mk.inj same
    exact ⟨e, List.mem_zipIdx_iff_getElem?.mp he, file, hk⟩
  · cases hj

theorem withdraw_slots {a : Address} {r : Request} {t' : Timeline}
    (h : t.withdraw a = some (r, t')) :
    ∃ front s back k runs, t.locate a = some (front.length, k) ∧
      t.slots = front ++ s :: back ∧ s.entry.extract k = some (r, runs) ∧
      t'.slots = front ++ runs.map t.slotOf ++ back ∧
      t' = { t with store := t'.store, requests := t.requests - 1 } := by
  simp only [withdraw, Option.bind_eq_bind, Option.bind_eq_some_iff, Option.pure_def,
    Option.some.injEq, Prod.mk.injEq, Prod.exists] at h
  obtain ⟨i, k, located, s, hs, _, runs, hx, rfl, rfl⟩ := h
  obtain ⟨front, back, split, rfl⟩ := exists_split hs
  refine ⟨front, s, back, k, runs, located, split, hx, Ring.items_insertAll _ ?_, rfl⟩
  rw [Ring.items_eraseIdx, show t.store.items = front ++ s :: back from split]
  exact eraseIdx_length_append front back s

theorem withdraw_some {a : Address} {r : Request} {t' : Timeline}
    (h : t.withdraw a = some (r, t')) :
    ∃ front e back k runs, t.entries = front ++ e :: back ∧ e.file = a.file ∧
      e.position a = some k ∧ e.extract k = some (r, runs) ∧
      t'.entries = front ++ runs ++ back ∧ t'.limit = t.limit ∧
      t'.requests = t.requests - 1 := by
  obtain ⟨front, s, back, k, runs, located, split, hx, after, form⟩ := withdraw_slots h
  obtain ⟨e, found, file, position⟩ := locate_some located
  have here : s.entry = e := by
    rw [entries, split, List.map_append, List.map_cons, ← List.length_map (f := Slot.entry),
      List.getElem?_append_right (Nat.le_refl _), Nat.sub_self] at found
    exact Option.some.inj found
  have placed : runs.map (Slot.entry ∘ t.slotOf) = runs := List.map_id'' (fun _ => rfl) runs
  refine ⟨front.map Slot.entry, s.entry, back.map Slot.entry, k, runs, ?_, here ▸ file,
    here ▸ position, hx, ?_, by rw [form], by rw [form]⟩
  · rw [entries, split, List.map_append, List.map_cons]
  · rw [entries, after, List.map_append, List.map_append, List.map_map, placed]

theorem contents_withdraw {a : Address} {r : Request} {t' : Timeline}
    (h : t.withdraw a = some (r, t')) : t.contents = r.bare ::ₘ t'.contents := by
  obtain ⟨front, e, back, k, runs, split, -, -, hx, after, -, -⟩ := withdraw_some h
  rw [contents, contents, split, after]
  simp only [contents_append, contents_cons, contents_extract hx, Multiset.cons_add,
    Multiset.add_cons]
  rw [add_assoc]

theorem sound_withdraw {a : Address} {r : Request} {t' : Timeline} (h : t.Sound bound)
    (hw : t.withdraw a = some (r, t')) :
    t'.Sound bound ∧ r.file = a.file ∧ t.requests = 1 + t'.requests := by
  obtain ⟨front, e, back, k, runs, split, file, -, hx, after, limit, requests⟩ := withdraw_some hw
  have sound := h.entries e (by simp [split])
  obtain ⟨q, hq, rfl, -⟩ := extract_some hx
  have size := h.requests_eq
  rw [contents_withdraw hw, Multiset.card_cons] at size
  refine ⟨⟨fun o ho => ?_, limit ▸ h.limit_le, by omega⟩,
    (sound.belongs q (List.mem_of_getElem? hq)).1.trans file, by omega⟩
  rw [after] at ho
  rcases List.mem_append.mp ho with ho | ho
  · rcases List.mem_append.mp ho with ho | ho
    · exact h.entries o (by simp [split, ho])
    · exact (Entry.sound_extract sound hx o ho).alone
  · exact h.entries o (by simp [split, ho])

theorem reorder_perm (t : Timeline) : t.reorder.entries.Perm t.entries := by
  have sorted := List.mergeSort_perm (t.entries.map t.slotOf) fun a b => a.priority ≤ b.priority
  have same : (t.entries.map t.slotOf).map Slot.entry = t.entries := by
    rw [List.map_map]
    exact List.map_id'' (fun _ => rfl) _
  exact same ▸ sorted.map Slot.entry

theorem contents_reorder (t : Timeline) : t.reorder.contents = t.contents :=
  contents_perm (reorder_perm t)

theorem sound_reorder (h : t.Sound bound) : t.reorder.Sound bound where
  entries := fun e he => h.entries e ((reorder_perm t).mem_iff.mp he)
  limit_le := h.limit_le
  requests_eq := h.requests_eq.trans (congrArg _ (contents_reorder t).symm)

@[simp] theorem contents_drain (t : Timeline) : t.drain.2.contents = 0 := rfl

theorem sound_drain (h : t.Sound bound) : t.drain.2.Sound bound :=
  ⟨fun _ he => absurd he List.not_mem_nil, h.limit_le, rfl⟩

end Timeline

end IoScheduling
