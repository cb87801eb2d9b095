import IoScheduling.Number.Word
import IoScheduling.Policy.Kind

/-!
# Measured bandwidth

Every period between two selections gives a sample: the bytes released and the length of the
period. A policy's bandwidth is the average over its samples that are still valid.
-/
namespace IoScheduling

structure Sample where
  bytes : Nat
  elapsed : Nat
  takenAt : Nat
  deriving DecidableEq, Repr

def Sample.isValid (s : Sample) (validity now : Nat) : Bool := now - s.takenAt ≤ validity

def bandwidthOf (samples : List Sample) (validity now : Nat) : Option Float :=
  let valid := samples.filter (·.isValid validity now)
  let bytes := valid.foldl (fun n s => satAdd n s.bytes) 0
  let elapsed := valid.foldl (fun n s => satAdd n s.elapsed) 0
  if elapsed = 0 then none else some (wordToFloat bytes * 1e9 / wordToFloat elapsed)

structure Bandwidth where
  validity : Nat
  samples : PerPolicy (List Sample)

namespace Bandwidth

def empty (validity : Nat) : Bandwidth := ⟨validity, .replicate []⟩

/-- Adds a sample and drops the policy's oldest samples as far as they have become invalid. An
empty period gives no sample. -/
def record (b : Bandwidth) (k : PolicyKind) (bytes elapsed now : Nat) : Bandwidth :=
  if elapsed = 0 then b
  else
    let sample : Sample := ⟨bytes, elapsed, now⟩
    { b with samples := b.samples.modify k fun samples =>
      (samples ++ [sample]).dropWhile fun s => !s.isValid b.validity now }

def measured (b : Bandwidth) (k : PolicyKind) (now : Nat) : Option Float :=
  bandwidthOf (b.samples.get k) b.validity now

def hasMeasurement (b : Bandwidth) (k : PolicyKind) (now : Nat) : Bool :=
  (b.measured k now).isSome

end Bandwidth

end IoScheduling
