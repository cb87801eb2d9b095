/-!
# 64-bit arithmetic

Offsets, lengths, times and counts are natural numbers below `wordCount`. The ends of byte ranges,
times and factors stop at `maxWord`; sums of bytes and the counters of the ledger wrap around.
-/
namespace IoScheduling

def wordCount : Nat := 0x10000000000000000

def maxWord : Nat := wordCount - 1

def satAdd (a b : Nat) : Nat := min (a + b) maxWord

def satMul (a b : Nat) : Nat := min (a * b) maxWord

/-- What a 64-bit register shows after counting to `n`. -/
def wrapWord (n : Nat) : Nat := n % wordCount

def wrapAdd (a b : Nat) : Nat := wrapWord (a + b)

def wrapSub (a b : Nat) : Nat := wrapWord (a + (wordCount - wrapWord b))

def nsOfMs (ms : Nat) : Nat := satMul ms 1000000

def wordToFloat (n : Nat) : Float := (UInt64.ofNat n).toFloat

/-- The integral part of a float as a word: out of range it stops at the ends, not-a-number is 0. -/
def floatToWord (x : Float) : Nat := x.toUInt64.toNat

def sumOf {α : Type} (f : α → Nat) (xs : List α) : Nat := xs.foldr (fun a n => f a + n) 0

theorem satAdd_le_maxWord (a b : Nat) : satAdd a b ≤ maxWord := Nat.min_le_right _ _

theorem satMul_le_maxWord (a b : Nat) : satMul a b ≤ maxWord := Nat.min_le_right _ _

theorem satAdd_eq {a b : Nat} (h : a + b ≤ maxWord) : satAdd a b = a + b := Nat.min_eq_left h

theorem satMul_eq {a b : Nat} (h : a * b ≤ maxWord) : satMul a b = a * b := Nat.min_eq_left h

theorem le_satAdd {a b : Nat} (h : a ≤ maxWord) : a ≤ satAdd a b :=
  Nat.le_min.2 ⟨Nat.le_add_right a b, h⟩

theorem wrapWord_eq {n : Nat} (h : n < wordCount) : wrapWord n = n := Nat.mod_eq_of_lt h

theorem wrapWord_le (n : Nat) : wrapWord n ≤ n := Nat.mod_le n wordCount

theorem wrapAdd_wrapWord (a b : Nat) : wrapAdd (wrapWord a) (wrapWord b) = wrapWord (a + b) :=
  (Nat.add_mod a b wordCount).symm

theorem wrapAdd_wrapWord_left (a b : Nat) : wrapAdd (wrapWord a) b = wrapWord (a + b) :=
  Nat.mod_add_mod a wordCount b

theorem wrapSub_add (a b : Nat) : wrapSub (wrapWord (b + a)) b = wrapWord a := by
  simp only [wrapSub, wrapWord, wordCount]
  omega

theorem wrapSub_wrapWord (a b : Nat) : wrapSub a (wrapWord b) = wrapSub a b := by
  simp only [wrapSub, wrapWord, Nat.mod_mod]

end IoScheduling
