import IoScheduling.Pending.Search

/-!
# A queue in a ring of cells

The items lie in consecutive cells, from cell `start` on, and the cells close into a ring: past the
last cell comes the first. The seam between those two divides the items into two runs, and the
boundary search looks into one run only. On items in order the seam makes no difference; on items
out of order it decides the answer, so each operation says where the items come to lie.
-/
namespace IoScheduling

structure Ring (α : Type) where
  items : List α
  capacity : Nat
  start : Nat
  deriving DecidableEq, Repr

namespace Ring

variable {α : Type}

def empty : Ring α := ⟨[], 0, 0⟩

def ofList (xs : List α) : Ring α := ⟨xs, if xs.isEmpty then 0 else max 4 xs.length, 0⟩

def clear (r : Ring α) : Ring α := { r with items := [], start := 0 }

/-- Makes a free cell. A full ring doubles: if the run past the seam is the shorter one it moves
into the new cells, otherwise the run before the seam moves to their end. -/
def reserve (r : Ring α) : Ring α :=
  if r.items.length < r.capacity then r else
    let capacity := max 4 (2 * r.capacity)
    if r.start = 0 ∨ 2 * r.start < r.capacity then { r with capacity := capacity }
    else { r with capacity := capacity, start := r.start + (capacity - r.capacity) }

def push (r : Ring α) (a : α) : Ring α := { r.reserve with items := r.items ++ [a] }

/-- Inserts an item at place `i`. The shorter side makes way: the items after it move on by a cell,
or else those before it move back by one. -/
def insertIdx (r : Ring α) (i : Nat) (a : α) : Ring α :=
  let { capacity, start, .. } := r.reserve
  ⟨r.items.insertIdx i a, capacity,
    if r.items.length < 2 * i then start else (start + capacity - 1) % capacity⟩

def eraseIdx (r : Ring α) (i : Nat) : Ring α :=
  ⟨r.items.eraseIdx i, r.capacity,
    if r.items.length ≤ 2 * i then r.start else (r.start + 1) % r.capacity⟩

def insertAll (r : Ring α) (i : Nat) : List α → Ring α
  | [] => r
  | a :: rest => (r.insertIdx i a).insertAll (i + 1) rest

def modify (r : Ring α) (i : Nat) (f : α → α) : Ring α := { r with items := r.items.modify i f }

/-- The place at which `p` stops holding, looked for past the seam if `p` holds of the first item
there, and before the seam otherwise. -/
def boundary (p : α → Bool) (r : Ring α) : Nat :=
  let (front, back) := r.items.splitAt (r.capacity - r.start)
  if back.head?.any p then front.length + partitionPoint p back else partitionPoint p front

@[simp] theorem items_empty : (empty : Ring α).items = [] := rfl

@[simp] theorem items_ofList (xs : List α) : (ofList xs).items = xs := rfl

@[simp] theorem items_clear (r : Ring α) : r.clear.items = [] := rfl

@[simp] theorem items_reserve (r : Ring α) : r.reserve.items = r.items := by
  unfold reserve
  split
  · rfl
  · dsimp only
    split <;> rfl

@[simp] theorem items_push (r : Ring α) (a : α) : (r.push a).items = r.items ++ [a] := rfl

@[simp] theorem items_insertIdx (r : Ring α) (i : Nat) (a : α) :
    (r.insertIdx i a).items = r.items.insertIdx i a := rfl

@[simp] theorem items_eraseIdx (r : Ring α) (i : Nat) :
    (r.eraseIdx i).items = r.items.eraseIdx i := rfl

@[simp] theorem items_modify (r : Ring α) (i : Nat) (f : α → α) :
    (r.modify i f).items = r.items.modify i f := rfl

theorem insertIdx_length_append (front back : List α) (a : α) :
    (front ++ back).insertIdx front.length a = front ++ a :: back := by
  induction front with
  | nil => simp
  | cons b front ih => simp [ih]

theorem items_insertAll {r : Ring α} {front back : List α} (xs : List α)
    (h : r.items = front ++ back) :
    (r.insertAll front.length xs).items = front ++ xs ++ back := by
  induction xs generalizing r front with
  | nil => simp [insertAll, h]
  | cons a rest ih =>
    have step : (r.insertIdx front.length a).items = (front ++ [a]) ++ back := by
      simp [h, insertIdx_length_append]
    have tail := ih step
    simp only [List.length_append, List.length_singleton] at tail
    simp [insertAll, tail]

theorem boundary_le_length (p : α → Bool) (r : Ring α) : r.boundary p ≤ r.items.length := by
  have hf := partitionPoint_le_length p (r.items.take (r.capacity - r.start))
  have hb := partitionPoint_le_length p (r.items.drop (r.capacity - r.start))
  simp only [boundary, List.splitAt_eq]
  simp only [List.length_take, List.length_drop] at hf hb ⊢
  split <;> omega

/-- On items of which those that satisfy `p` come first the seam makes no difference. -/
theorem boundary_eq_partitionPoint {p : α → Bool} {r : Ring α} {front back : List α}
    (h : r.items = front ++ back) (hf : ∀ x ∈ front, p x) (hb : ∀ x ∈ back, p x = false) :
    r.boundary p = partitionPoint p r.items := by
  rw [h, partitionPoint_append hf hb]
  simp only [boundary, h, List.splitAt_eq]
  generalize r.capacity - r.start = n
  by_cases hn : n < front.length
  · have before : (front ++ back).drop n = front.drop n ++ back :=
      List.drop_append_of_le_length (Nat.le_of_lt hn)
    have holds : ((front ++ back).drop n).head?.any p := by
      rw [List.head?_drop, List.getElem?_append_left hn, List.getElem?_eq_getElem hn]
      exact hf _ (List.getElem_mem hn)
    rw [if_pos holds, before,
      partitionPoint_append (fun x hx => hf x (List.mem_of_mem_drop hx)) hb]
    simp
    omega
  · have kept : (front ++ back).take n = front ++ back.take (n - front.length) := by
      rw [List.take_append, List.take_of_length_le (Nat.le_of_not_lt hn)]
    have fails : ((front ++ back).drop n).head?.any p = false := by
      rw [List.head?_drop, List.getElem?_append_right (Nat.le_of_not_lt hn)]
      cases e : back[n - front.length]? with
      | none => rfl
      | some x => exact hb x (List.mem_of_getElem? e)
    rw [if_neg (by rw [fails]; decide), kept,
      partitionPoint_append hf fun x hx => hb x (List.mem_of_mem_take hx)]

end Ring

end IoScheduling
