import Keyspace.Bytes

/-!
# Decimal numerals

The one numeral grammar of the store: an optional sign, then one or more ASCII
digits, and nothing else.  Leading zeros are allowed and a value that does not
fit its type is no numeral of that type.  A signed numeral may start with `+`
or `-`, an unsigned one only with `+`.

`Decimal.ofInt` writes the canonical numeral, without a plus sign and without
leading zeros.
-/

namespace Keyspace.Decimal

/-- The value of an ASCII digit. -/
def digit? (byte : UInt8) : Option Nat :=
  if 48 ≤ byte ∧ byte ≤ 57 then some (byte.toNat - 48) else none

/-- Reads digits from the left onto the value read so far. -/
def readDigits (value : Nat) : Bytes → Option Nat
  | [] => some value
  | byte :: rest =>
    match digit? byte with
    | none => none
    | some digit => readDigits (10 * value + digit) rest

/-- The value of one or more digits. -/
def nat? : Bytes → Option Nat
  | [] => none
  | bytes => readDigits 0 bytes

/-- The value of a numeral with an optional sign. -/
def int? : Bytes → Option Int
  | 43 :: digits => (nat? digits).map Int.ofNat
  | 45 :: digits => (nat? digits).map fun value => -Int.ofNat value
  | digits => (nat? digits).map Int.ofNat

/-- The value of a signed numeral that fits a 64-bit word. -/
def int64? (bytes : Bytes) : Option Int64 :=
  match int? bytes with
  | none => none
  | some value =>
    if Int64.minValue.toInt ≤ value ∧ value ≤ Int64.maxValue.toInt then
      some (Int64.ofInt value)
    else none

/-- The value of an unsigned numeral that fits a 64-bit word. -/
def word? (bytes : Bytes) : Option Nat :=
  let digits := match bytes with
    | 43 :: digits => digits
    | digits => digits
  match nat? digits with
  | none => none
  | some value => if value < UInt64.size then some value else none

/-- The canonical numeral of a natural number. -/
def ofNat (value : Nat) : Bytes :=
  (Nat.toDigits 10 value).map fun digit => digit.toNat.toUInt8

/-- The canonical numeral of an integer. -/
def ofInt : Int → Bytes
  | .ofNat value => ofNat value
  | .negSucc value => 45 :: ofNat (value + 1)

end Keyspace.Decimal
