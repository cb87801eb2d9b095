/-!
# Lists in the order of a key

Where things are looked up by a key, they stand in the order of their keys, and there is one for
each key at most.
-/
namespace IoScheduling

namespace Keyed

variable {α κ : Type} [DecidableEq κ] [LT κ] [DecidableLT κ]

def put (key : α → κ) (xs : List α) (a : α) : List α :=
  match xs with
  | [] => [a]
  | x :: rest =>
    if key x = key a then a :: rest
    else if key a < key x then a :: x :: rest
    else x :: put key rest a

theorem find?_put (key : α → κ) (xs : List α) (a : α) (k : κ) :
    (put key xs a).find? (fun x => key x == k) =
      if k = key a then some a else xs.find? fun x => key x == k := by
  induction xs with
  | nil =>
    by_cases h : k = key a
    · simp [put, h]
    · simp [put, h, Ne.symm h]
  | cons x rest ih =>
    unfold put
    by_cases h : k = key a
    · subst h
      split
      · simp
      · rename_i other
        split
        · simp
        · simp [ih, beq_false_of_ne other]
    · split
      · rename_i same
        simp [Ne.symm h, same]
      · split
        · simp [List.find?_cons, Ne.symm h]
        · simp [List.find?_cons, ih, h]

end Keyed

end IoScheduling
