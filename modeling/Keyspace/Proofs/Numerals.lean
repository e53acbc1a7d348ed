import Keyspace.Decimal

/-!
# Numerals

A counter is kept as a numeral and read again for the next count.  Nothing is lost on
the way: a word that is written is read back (`int64?_ofInt`).  What is written is the
canonical numeral, without a plus sign and without a leading zero (`canonical_ofInt`).
-/

namespace Keyspace.Decimal

/-! ## Digits -/

theorem toNat_of_isDigit {digit : Char} (h : digit.isDigit = true) :
    48 ≤ digit.toNat ∧ digit.toNat ≤ 57 := by
  simp only [Char.isDigit, Bool.and_eq_true, decide_eq_true_eq, ge_iff_le, UInt32.le_iff_toNat_le]
    at h
  exact h

/-- The byte of a digit. -/
theorem toNat_byte {digit : Char} (h : digit.isDigit = true) :
    digit.toNat.toUInt8.toNat = digit.toNat := by
  have hrange := toNat_of_isDigit h
  exact UInt8.toNat_ofNat_of_lt' (show digit.toNat < 256 by omega)

theorem digit?_byte {digit : Char} (h : digit.isDigit = true) :
    digit? digit.toNat.toUInt8 = some (digit.toNat - 48) := by
  have hbyte := toNat_byte h
  have hrange := toNat_of_isDigit h
  have hdigit : 48 ≤ digit.toNat.toUInt8 ∧ digit.toNat.toUInt8 ≤ 57 := by
    rw [UInt8.le_iff_toNat_le, UInt8.le_iff_toNat_le, hbyte]
    exact hrange
  rw [digit?, if_pos hdigit, hbyte]

/-- Digits are read as the number that they stand for. -/
theorem readDigits_map {digits : List Char} (h : ∀ digit ∈ digits, digit.isDigit = true)
    (value : Nat) :
    readDigits value (digits.map fun digit => digit.toNat.toUInt8) =
      some (Nat.ofDigitChars 10 digits value) := by
  induction digits generalizing value with
  | nil => rfl
  | cons digit rest ih =>
    have hfirst := h digit List.mem_cons_self
    have hrest := ih fun other hother => h other (List.mem_cons_of_mem digit hother)
    rw [List.map_cons, readDigits, digit?_byte hfirst, Nat.ofDigitChars_cons]
    exact hrest _

/-! ## Numbers -/

theorem isDigit_of_mem_toDigits {value : Nat} :
    ∀ digit ∈ Nat.toDigits 10 value, digit.isDigit = true :=
  fun _ hdigit => Nat.isDigit_of_mem_toDigits (by decide) (by decide) hdigit

/-- A number starts with a digit, and not with a zero unless it is 0. -/
theorem exists_ofNat_eq_cons (value : Nat) : ∃ first rest, ofNat value = first :: rest ∧
    first ≤ 57 ∧ (value = 0 ∧ first = 48 ∧ rest = [] ∨ value ≠ 0 ∧ 49 ≤ first) := by
  induction value using Nat.strongRecOn with
  | ind value ih =>
    by_cases hsmall : value < 10
    · have hdigit := Nat.toNat_digitChar_of_lt_ten hsmall
      have hbyte : (48 + value).toUInt8.toNat = 48 + value :=
        UInt8.toNat_ofNat_of_lt' (show 48 + value < 256 by omega)
      refine ⟨(48 + value).toUInt8, [], ?_, ?_, ?_⟩
      · rw [ofNat, Nat.toDigits_of_lt_base hsmall, List.map_singleton, hdigit]
      · rw [UInt8.le_iff_toNat_le, hbyte]
        show 48 + value ≤ 57
        omega
      · by_cases hzero : value = 0
        · exact .inl ⟨hzero, by rw [hzero]; rfl, rfl⟩
        · refine .inr ⟨hzero, ?_⟩
          rw [UInt8.le_iff_toNat_le, hbyte]
          show 49 ≤ 48 + value
          omega
    · obtain ⟨first, rest, hnumeral, hdigit, hzero | hnonzero⟩ := ih (value / 10) (by omega)
      · omega
      · refine ⟨first, rest ++ [(value % 10).digitChar.toNat.toUInt8], ?_, hdigit,
          .inr ⟨by omega, hnonzero.2⟩⟩
        rw [ofNat, Nat.toDigits_of_base_le (by decide) (by omega), List.map_append, ← ofNat,
          hnumeral]
        rfl

theorem nat?_ofNat (value : Nat) : nat? (ofNat value) = some value := by
  obtain ⟨first, rest, hnumeral, _⟩ := exists_ofNat_eq_cons value
  have hread : readDigits 0 (ofNat value) = some value := by
    rw [ofNat, readDigits_map isDigit_of_mem_toDigits, Nat.ofDigitChars_ten_toDigits]
  rw [hnumeral] at hread ⊢
  exact hread

theorem int?_ofInt (value : Int) : int? (ofInt value) = some value := by
  cases value with
  | ofNat value =>
    obtain ⟨first, rest, hnumeral, _, hfirst⟩ := exists_ofNat_eq_cons value
    have hleast : 48 ≤ first := by
      rcases hfirst with ⟨_, rfl, _⟩ | ⟨_, hfirst⟩
      · exact UInt8.le_refl 48
      · exact UInt8.le_trans (by decide) hfirst
    have hread := nat?_ofNat value
    rw [ofInt]
    rw [hnumeral] at hread ⊢
    -- no digit is a sign
    rw [int?]
    · rw [hread]
      rfl
    · rintro digits ⟨⟩
      exact absurd hleast (by decide)
    · rintro digits ⟨⟩
      exact absurd hleast (by decide)
  | negSucc value =>
    show (nat? (ofNat (value + 1))).map _ = _
    rw [nat?_ofNat]
    rfl

/-- A word that is written is read back. -/
theorem int64?_ofInt (value : Int64) : int64? (ofInt value.toInt) = some value := by
  rw [int64?, int?_ofInt]
  exact (if_pos ⟨value.minValue_le_toInt, value.toInt_le⟩).trans
    (congrArg some (Int64.ofInt_toInt value))

/-! ## The canonical numeral -/

/-- Whether a numeral has no plus sign and no zero in front. -/
def Canonical (text : Bytes) : Prop :=
  text = [48] ∨ ∃ sign first rest, text = sign ++ first :: rest ∧
    (sign = [] ∨ sign = [45]) ∧ 49 ≤ first ∧ first ≤ 57

theorem canonical_ofInt (value : Int) : Canonical (ofInt value) := by
  cases value with
  | ofNat value =>
    obtain ⟨first, rest, hnumeral, hdigit, ⟨_, rfl, rfl⟩ | ⟨_, hfirst⟩⟩ :=
      exists_ofNat_eq_cons value
    · exact .inl hnumeral
    · exact .inr ⟨[], first, rest, hnumeral, .inl rfl, hfirst, hdigit⟩
  | negSucc value =>
    obtain ⟨first, rest, hnumeral, hdigit, ⟨hzero, _⟩ | ⟨_, hfirst⟩⟩ :=
      exists_ofNat_eq_cons (value + 1)
    · cases hzero
    · exact .inr ⟨[45], first, rest, congrArg (45 :: ·) hnumeral, .inr rfl, hfirst, hdigit⟩

end Keyspace.Decimal
