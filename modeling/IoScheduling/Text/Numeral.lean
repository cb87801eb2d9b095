import IoScheduling.Number.Word

/-!
# Decimal numerals

A numeral is a decimal number as it is written: sign, digits, fraction and exponent. It reads as a
word only if it is written as a plain natural number. As a float it is read in two steps: its
leading digits are gathered in a 64-bit significand, and that is scaled by a power of ten in
binary64 arithmetic. Numerals of at most 15 digits and small exponents come out correctly rounded.
-/
namespace IoScheduling.Text

structure Numeral where
  negative : Bool
  whole : List Nat
  fraction : Option (List Nat)
  exponent : Option (Bool × List Nat)
  deriving DecidableEq, Repr

def ofDigits (ds : List Nat) : Nat := ds.foldl (fun n d => n * 10 + d) 0

/-- A significand gathered from digits. Once a digit does not fit it is `full`. -/
structure Significand where
  value : Nat
  scale : Int
  full : Bool
  deriving DecidableEq, Repr

namespace Significand

def takeWhole (s : Significand) (d : Nat) : Significand :=
  if s.full then { s with scale := s.scale + 1 }
  else if maxWord < s.value * 10 + d then { s with scale := s.scale + 1, full := true }
  else { s with value := s.value * 10 + d }

/-- Takes a digit behind the point; the first that does not fit and all after it are dropped. -/
def takeFraction (s : Significand) (d : Nat) : Significand :=
  if s.full then s
  else if maxWord < s.value * 10 + d then { s with full := true }
  else { s with value := s.value * 10 + d, scale := s.scale - 1 }

end Significand

/-- Divides by `10 ^ n`, in steps of at most `10 ^ 308`. -/
def scaleDown (x : Float) (n : Nat) : Float :=
  if n ≤ 308 then x / Float.ofScientific 1 false n
  else if x == 0.0 then x
  else scaleDown (x / Float.ofScientific 1 false 308) (n - 308)
termination_by n
decreasing_by omega

def scaleByTen (x : Float) (e : Int) : Option Float :=
  if e < 0 then some (scaleDown x e.natAbs)
  else if e ≤ 308 then
    let y := x * Float.ofScientific 1 false e.natAbs
    if y.isInf then none else some y
  else if x == 0.0 then some x
  else none

namespace Numeral

def ofNat (n : Nat) : Numeral where
  negative := false
  whole := (Nat.toDigits 10 n).map fun c => c.toNat - '0'.toNat
  fraction := none
  exponent := none

def toWord? (n : Numeral) : Option Nat :=
  if n.negative ∨ n.fraction.isSome ∨ n.exponent.isSome then none
  else if ofDigits n.whole ≤ maxWord then some (ofDigits n.whole)
  else none

def toFloat? (n : Numeral) : Option Float :=
  let whole := n.whole.foldl Significand.takeWhole ⟨0, 0, false⟩
  let s := (n.fraction.getD []).foldl Significand.takeFraction { whole with full := false }
  let shift : Int := match n.exponent with
    | none => 0
    | some (true, ds) => -(ofDigits ds : Int)
    | some (false, ds) => ofDigits ds
  (scaleByTen (wordToFloat s.value) (s.scale + shift)).map fun x =>
    if n.negative then -x else x

end Numeral

end IoScheduling.Text
