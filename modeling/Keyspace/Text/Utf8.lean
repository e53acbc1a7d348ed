import Keyspace.Bytes

/-!
# Malformed UTF-8

Finds the first place at which a byte string stops being UTF-8, and tells a
sequence that goes wrong from one that the end of the string cuts short.
Surrogates, overlong forms and code points above U+10FFFF are ruled out by the
range of the second byte.
-/

namespace Keyspace.Utf8

/-- Where and how a byte string stops being UTF-8. -/
inductive Defect where
  /-- The first `length` bytes from `index` begin no character. -/
  | invalid (length index : Nat)
  /-- The string ends within the character that begins at `index`. -/
  | truncated (index : Nat)
  deriving DecidableEq, Repr

/-- A defect in words. -/
def Defect.message : Defect → String
  | .invalid length index =>
    "invalid utf-8 sequence of " ++ toString length ++ " bytes from index " ++ toString index
  | .truncated index => "incomplete utf-8 byte sequence from index " ++ toString index

/-- The bytes that a character still needs, and the range of the next one. -/
structure Need where
  count : Nat
  low : UInt8 := 0x80
  high : UInt8 := 0xbf
  deriving DecidableEq, Repr

/-- What has to follow a first byte above the ASCII range, if that can begin a
character. -/
def need? (byte : UInt8) : Option Need :=
  if 0xc2 ≤ byte ∧ byte ≤ 0xdf then some { count := 1 }
  else if byte = 0xe0 then some { count := 2, low := 0xa0 }
  else if byte = 0xed then some { count := 2, high := 0x9f }
  else if 0xe1 ≤ byte ∧ byte ≤ 0xef then some { count := 2 }
  else if byte = 0xf0 then some { count := 3, low := 0x90 }
  else if byte = 0xf4 then some { count := 3, high := 0x8f }
  else if 0xf1 ≤ byte ∧ byte ≤ 0xf3 then some { count := 3 }
  else none

/-- Goes on from within the character that begins at `start`, of which `seen`
bytes have been read; nothing is needed between characters. -/
def scan (start seen : Nat) (need : Need) : Bytes → Option Defect
  | [] => if need.count = 0 then none else some (.truncated start)
  | byte :: rest =>
    if need.count = 0 then
      if byte < 0x80 then scan (start + 1) 0 need rest
      else match need? byte with
        | none => some (.invalid 1 start)
        | some need => scan start 1 need rest
    else if need.low ≤ byte ∧ byte ≤ need.high then
      if need.count = 1 then scan (start + seen + 1) 0 { count := 0 } rest
      else scan start (seen + 1) { count := need.count - 1 } rest
    else some (.invalid seen start)

/-- The first defect of a byte string, if it has one. -/
def defect? (bytes : Bytes) : Option Defect :=
  scan 0 0 { count := 0 } bytes

end Keyspace.Utf8
