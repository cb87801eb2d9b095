/-!
# Binary search for a boundary

`partitionPoint p xs` looks for the position at which `p` stops holding. On a list whose elements
satisfying `p` all come first it is the number of those elements. On any other list the answer is
fixed by the halving below, which looks at one element a round and at one more at the end.
-/
namespace IoScheduling

def narrow (p : α → Bool) (xs : List α) (base size : Nat) : Nat :=
  if size ≤ 1 then
    if (xs[base]?).any p then base + 1 else base
  else
    let middle := base + size / 2
    narrow p xs (if (xs[middle]?).any p then middle else base) (size - size / 2)
termination_by size
decreasing_by omega

/-- The position of the first element that fails `p`, found by halving. -/
def partitionPoint (p : α → Bool) (xs : List α) : Nat := narrow p xs 0 xs.length

theorem narrow_le (p : α → Bool) (xs : List α) (base size : Nat) (h : base + size ≤ xs.length) :
    narrow p xs base size ≤ xs.length := by
  fun_induction narrow p xs base size with
  | case1 base size hs hp =>
    by_cases hb : base < xs.length
    · omega
    · simp [List.getElem?_eq_none (Nat.le_of_not_lt hb)] at hp
  | case2 => omega
  | case3 base size hs middle ih =>
    apply ih
    split <;> omega

theorem partitionPoint_le_length (p : α → Bool) (xs : List α) :
    partitionPoint p xs ≤ xs.length := narrow_le p xs 0 xs.length (by omega)

theorem narrow_eq (p : α → Bool) (xs : List α) (base size place : Nat)
    (hp : ∀ i, (xs[i]?).any p = decide (i < place)) (low : base ≤ place)
    (high : place ≤ base + size) : narrow p xs base size = place := by
  fun_induction narrow p xs base size with
  | case1 base size hs h =>
    have := hp base
    simp_all
    omega
  | case2 base size hs h =>
    have := hp base
    simp_all
    omega
  | case3 base size hs middle ih =>
    have := hp middle
    apply ih <;> split <;> simp_all <;> omega

theorem partitionPoint_append {p : α → Bool} {front back : List α} (hf : ∀ x ∈ front, p x)
    (hb : ∀ x ∈ back, p x = false) : partitionPoint p (front ++ back) = front.length := by
  apply narrow_eq
  · intro i
    by_cases h : i < front.length
    · rw [List.getElem?_append_left h, List.getElem?_eq_getElem h]
      simp [h, hf _ (List.getElem_mem h)]
    · have out : ∀ j : Nat, (back[j]?).any p = false := by
        intro j
        cases e : back[j]? with
        | none => rfl
        | some x => exact hb x (List.mem_of_getElem? e)
      rw [List.getElem?_append_right (Nat.le_of_not_lt h), out]
      simp [h]
  · omega
  · simp

end IoScheduling
