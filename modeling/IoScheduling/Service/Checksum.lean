import IoScheduling.Core.State

/-!
# The hash of file names

File names are spread over the buckets by the cyclic redundancy check of ISO 3309 and ITU-T V.42, in
the reflected form: the register starts at all ones, takes the bits of each byte from the lowest up,
and is complemented at the end. Nothing but the number of a bucket depends on it.
-/
namespace IoScheduling

namespace Crc32

def polynomial : UInt32 := 0xEDB88320

def bitStep (register : UInt32) : UInt32 :=
  if register &&& 1 = 1 then (register >>> 1) ^^^ polynomial else register >>> 1

def byteStep (register : UInt32) (byte : UInt8) : UInt32 :=
  (List.range 8).foldl (fun r _ => bitStep r) (register ^^^ byte.toUInt32)

def checksum (bytes : List UInt8) : UInt32 := ~~~ bytes.foldl byteStep 0xFFFFFFFF

/-- The check value of the standard: the checksum of the digits 1 to 9. -/
example : checksum [49, 50, 51, 52, 53, 54, 55, 56, 57] = 0xCBF43926 := by decide +kernel

end Crc32

def fileHash (file : String) : Nat := (Crc32.checksum file.toUTF8.toList).toNat

def Index.empty (size : Nat) : Index := withHash fileHash size

def Setup.of (config : Config) (callbacks : Callbacks) (maxStream : Nat) : Setup :=
  withHash fileHash config callbacks maxStream

end IoScheduling
