import Keyspace.Proofs.Numerals
import Keyspace.Ranking.Range
import Mathlib.Data.List.TakeWhile

/-!
# Bounds of scores

A bound is a text that stands for a score.  This module says which texts do, as a grammar
that knows nothing of how a text is read: blanks, then a word that is an infinity or a
numeral, then blanks again (`Bound.Reads`).  `scoreBound?_eq_some` says that reading follows
the grammar.

* Bytes.  A text of ASCII characters is its characters, byte by byte (`Bytes.ofText_ascii`).
* Numerals.  `Decimal.Numeral` is the grammar of signed numerals of any size, and
  `Decimal.int?_ofText` says that they are read as the number that they stand for.
* Blanks.  `Text.Pads` puts blanks around a word, and trimming takes them away
  (`Text.trim_of_pads`).
-/

namespace Keyspace

/-! ## Bytes -/

/-- The bytes of ASCII characters are their code points. -/
theorem Bytes.ofText_ascii {chars : List Char} (h : ∀ c ∈ chars, c.toNat < 128) :
    ofText (.ofList chars) = chars.map fun c => c.toNat.toUInt8 := by
  have hbytes : ofText (.ofList chars) = chars.flatMap String.utf8EncodeChar := by
    rw [ofText, String.toUTF8_eq_toByteArray, String.toByteArray_ofList, List.utf8Encode,
      List.toList_data_toByteArray]
  rw [hbytes]
  clear hbytes
  induction chars with
  | nil => rfl
  | cons c rest ih =>
    obtain ⟨hfirst, hrest⟩ := List.forall_mem_cons.mp h
    have hval : c.val ≤ 127 := UInt32.le_iff_toNat_le.mpr (Nat.le_of_lt_succ hfirst)
    have hbyte : String.utf8EncodeChar c = [c.toNat.toUInt8] :=
      String.utf8EncodeChar_eq_singleton (Char.utf8Size_eq_one_iff.mpr hval)
    rw [List.flatMap_cons, hbyte, ih hrest]
    rfl

/-! ## Numerals -/

namespace Decimal

/-- The characters of a digit in a numeral. -/
abbrev Digits (chars : List Char) : Prop :=
  chars ≠ [] ∧ ∀ digit ∈ chars, digit.isDigit = true

/-- The numerals: a sign or none, and then one or more digits. -/
inductive Numeral : List Char → Int → Prop where
  | plain {digits : List Char} (h : Digits digits) :
      Numeral digits (Nat.ofDigitChars 10 digits 0)
  | plus {digits : List Char} (h : Digits digits) :
      Numeral ('+' :: digits) (Nat.ofDigitChars 10 digits 0)
  | minus {digits : List Char} (h : Digits digits) :
      Numeral ('-' :: digits) (-Nat.ofDigitChars 10 digits 0)

variable {chars : List Char} {bytes : Bytes} {value : Nat} {number : Int}

theorem isAscii_of_isDigit {digit : Char} (h : digit.isDigit = true) : digit.toNat < 128 := by
  have hrange := toNat_of_isDigit h
  omega

/-- A byte with the value of a digit is that digit. -/
theorem exists_of_digit? {byte : UInt8} (h : digit? byte = some value) :
    ∃ digit : Char, digit.isDigit = true ∧ digit.toNat.toUInt8 = byte := by
  unfold digit? at h
  split at h
  · rename_i hrange
    have hbyte : 48 ≤ byte.toNat ∧ byte.toNat ≤ 57 := by
      simpa [UInt8.le_iff_toNat_le] using hrange
    have hvalid : byte.toNat.isValidChar := .inl (by omega)
    have hchar : (Char.ofNat byte.toNat).toNat = byte.toNat := by
      rw [Char.ofNat, dif_pos hvalid]
      rfl
    refine ⟨Char.ofNat byte.toNat, ?_, ?_⟩
    · rw [Char.isDigit_iff_toNat, hchar]
      exact hbyte
    · rw [hchar]
      exact UInt8.ofNat_toNat
  · cases h

/-- What is read as digits consists of digits. -/
theorem exists_of_readDigits {result : Nat} (h : readDigits value bytes = some result) :
    ∃ digits : List Char, (∀ digit ∈ digits, digit.isDigit = true) ∧
      bytes = digits.map fun digit => digit.toNat.toUInt8 := by
  induction bytes generalizing value with
  | nil => exact ⟨[], nofun, rfl⟩
  | cons byte rest ih =>
    rw [readDigits] at h
    split at h
    · cases h
    · rename_i hbyte
      obtain ⟨digit, hdigit, rfl⟩ := exists_of_digit? hbyte
      obtain ⟨digits, hdigits, rfl⟩ := ih h
      exact ⟨digit :: digits, List.forall_mem_cons.mpr ⟨hdigit, hdigits⟩, rfl⟩

theorem nat?_eq_some :
    nat? bytes = some value ↔ ∃ digits, Digits digits ∧
      bytes = (digits.map fun digit => digit.toNat.toUInt8) ∧
      Nat.ofDigitChars 10 digits 0 = value := by
  constructor
  · intro h
    cases bytes with
    | nil => cases h
    | cons byte rest =>
      obtain ⟨digits, hdigits, hbytes⟩ := exists_of_readDigits h
      refine ⟨digits, ⟨?_, hdigits⟩, hbytes, ?_⟩
      · rintro rfl
        cases hbytes
      · have hread : readDigits 0 (byte :: rest) = some value := h
        rw [hbytes, readDigits_map hdigits] at hread
        exact Option.some.inj hread
  · rintro ⟨digits, ⟨hsome, hdigits⟩, rfl, rfl⟩
    cases digits with
    | nil => exact absurd rfl hsome
    | cons digit rest => exact readDigits_map hdigits 0

theorem isAscii_of_numeral (h : Numeral chars number) : ∀ c ∈ chars, c.toNat < 128 := by
  have hdigits : ∀ {digits : List Char}, Digits digits → ∀ c ∈ digits, c.toNat < 128 :=
    fun hdigits c hc => isAscii_of_isDigit (hdigits.2 c hc)
  cases h with
  | plain h => exact hdigits h
  | plus h => exact List.forall_mem_cons.mpr ⟨by decide, hdigits h⟩
  | minus h => exact List.forall_mem_cons.mpr ⟨by decide, hdigits h⟩

/-- A numeral is read as the number that it stands for, and nothing else is a numeral. -/
theorem int?_eq_some :
    int? bytes = some number ↔ ∃ chars, Numeral chars number ∧
      bytes = chars.map fun c => c.toNat.toUInt8 := by
  constructor
  · intro h
    unfold int? at h
    split at h
    all_goals
      obtain ⟨value, hvalue, rfl⟩ := Option.map_eq_some_iff.mp h
      obtain ⟨digits, hdigits, hbytes, rfl⟩ := nat?_eq_some.mp hvalue
    · exact ⟨'+' :: digits, .plus hdigits, congrArg (43 :: ·) hbytes⟩
    · exact ⟨'-' :: digits, .minus hdigits, congrArg (45 :: ·) hbytes⟩
    · exact ⟨digits, .plain hdigits, hbytes⟩
  · rintro ⟨chars, hchars, rfl⟩
    have hread : ∀ {digits : List Char}, Digits digits →
        nat? (digits.map fun c => c.toNat.toUInt8) = some (Nat.ofDigitChars 10 digits 0) :=
      fun hdigits => nat?_eq_some.mpr ⟨_, hdigits, rfl, rfl⟩
    cases hchars with
    | plus h =>
      show (nat? _).map _ = _
      rw [hread h]
      rfl
    | minus h =>
      show (nat? _).map _ = _
      rw [hread h]
      rfl
    | plain h =>
      have hsign : ∀ {byte : UInt8} {rest : Bytes},
          (chars.map fun c => c.toNat.toUInt8) = byte :: rest → 48 ≤ byte.toNat := by
        intro byte rest hbytes
        obtain ⟨digit, others, rfl, rfl, _⟩ := List.map_eq_cons_iff.mp hbytes
        have hdigit := h.2 digit List.mem_cons_self
        rw [toNat_byte hdigit]
        exact (toNat_of_isDigit hdigit).1
      rw [int?]
      · rw [hread h]
        rfl
      · exact fun digits hplus => absurd (hsign hplus) (by decide)
      · exact fun digits hminus => absurd (hsign hminus) (by decide)

/-- A text is a numeral exactly if it is read as a number. -/
theorem int?_ofText {text : String} :
    int? (.ofText text) = some number ↔ Numeral text.toList number := by
  rw [int?_eq_some]
  constructor
  · rintro ⟨chars, hchars, hbytes⟩
    rw [← Bytes.ofText_ascii (isAscii_of_numeral hchars), Bytes.ofText_inj] at hbytes
    rw [hbytes, String.toList_ofList]
    exact hchars
  · intro h
    refine ⟨text.toList, h, ?_⟩
    rw [← Bytes.ofText_ascii (isAscii_of_numeral h), String.ofList_toList]

theorem int64?_eq_some {word : Int64} :
    int64? bytes = some word ↔ int? bytes = some word.toInt := by
  unfold int64?
  cases hread : int? bytes with
  | none => exact iff_of_false nofun nofun
  | some number =>
    dsimp only
    rw [Option.some.injEq]
    constructor
    · intro h
      split at h
      · rename_i hrange
        cases h
        exact (Int64.toInt_ofInt_of_le hrange.1 (Int.lt_add_one_iff.mpr hrange.2)).symm
      · cases h
    · rintro rfl
      rw [if_pos ⟨word.minValue_le_toInt, word.toInt_le⟩, Int64.ofInt_toInt]

end Decimal

/-! ## Blanks -/

namespace Text

/-- Whether a text is a word with blanks before and after it, or without. -/
def Pads (word : List Char) (text : String) : Prop :=
  ∃ before after, text.toList = before ++ word ++ after ∧
    (∀ c ∈ before, isBlank c = true) ∧ ∀ c ∈ after, isBlank c = true

theorem blank_of_mem_takeWhile {c : Char} {chars : List Char} (h : c ∈ chars.takeWhile isBlank) :
    isBlank c = true :=
  List.all_eq_true.mp List.all_takeWhile c h

/-- What is left of a text after trimming had blanks around it. -/
theorem pads_trim (text : String) : Pads (trim text).toList text := by
  let tail := text.toList.dropWhile isBlank
  have hrest : tail = (tail.reverse.dropWhile isBlank).reverse ++
      (tail.reverse.takeWhile isBlank).reverse := by
    rw [← List.reverse_append, List.takeWhile_append_dropWhile, List.reverse_reverse]
  refine ⟨text.toList.takeWhile isBlank, (tail.reverse.takeWhile isBlank).reverse, ?_,
    fun _ hc => blank_of_mem_takeWhile hc,
    fun _ hc => blank_of_mem_takeWhile (List.mem_reverse.mp hc)⟩
  rw [trim, String.toList_ofList, trimChars, List.append_assoc, ← hrest,
    List.takeWhile_append_dropWhile]

/-- Trimming takes the blanks around a word away. -/
theorem trim_of_pads {word : List Char} {text : String} (h : Pads word text)
    (hword : ∀ c ∈ word, isBlank c = false) : trim text = .ofList word := by
  obtain ⟨before, after, htext, hbefore, hafter⟩ := h
  have hreversed : ∀ c ∈ after.reverse, isBlank c = true :=
    fun c hc => hafter c (List.mem_reverse.mp hc)
  have htail : ((word ++ after).dropWhile isBlank).reverse.dropWhile isBlank = word.reverse := by
    cases word with
    | nil =>
      rw [List.nil_append, List.dropWhile_eq_nil_iff.mpr hafter]
      rfl
    | cons c rest =>
      have hfirst := Bool.eq_false_iff.mp (hword c List.mem_cons_self)
      rw [List.cons_append, List.dropWhile_cons_of_neg hfirst, ← List.cons_append,
        List.reverse_append, List.dropWhile_append_of_pos hreversed,
        List.dropWhile_eq_self_iff]
      intro hlength
      exact Bool.eq_false_iff.mp (hword _ (List.mem_reverse.mp (List.getElem_mem hlength)))
  rw [trim, htext, trimChars, List.append_assoc, List.dropWhile_append_of_pos hbefore, htail,
    List.reverse_reverse]

/-- A character below the letters is in lower case. -/
theorem toLower_of_not_upper {c : Char} (h : ¬ (65 ≤ c.toNat ∧ c.toNat ≤ 90)) : c.toLower = c := by
  have hupper : ¬ (c.val ≥ 'A'.val ∧ c.val ≤ 'Z'.val) := by
    rintro ⟨hleast, hmost⟩
    exact h ⟨UInt32.le_iff_toNat_le.mp hleast, UInt32.le_iff_toNat_le.mp hmost⟩
  exact dif_neg hupper

theorem toLower_of_isBlank {c : Char} (h : isBlank c = true) : c.toLower = c := by
  refine toLower_of_not_upper ?_
  simp only [isBlank, Bool.or_eq_true, Bool.and_eq_true, decide_eq_true_eq, beq_iff_eq] at h
  omega

theorem toLower_of_isDigit {c : Char} (h : c.isDigit = true) : c.toLower = c := by
  have hrange := Decimal.toNat_of_isDigit h
  exact toLower_of_not_upper (by omega)

theorem isBlank_of_isDigit {c : Char} (h : c.isDigit = true) : isBlank c = false := by
  have hrange := Decimal.toNat_of_isDigit h
  rw [Bool.eq_false_iff]
  intro hblank
  simp only [isBlank, Bool.or_eq_true, Bool.and_eq_true, decide_eq_true_eq, beq_iff_eq] at hblank
  omega

end Text

/-! ## Bounds -/

namespace Bound

/-- The words that stand for a score: an infinity in any case is the last score on its
side, and a numeral is the score that it is the number of. -/
inductive Word : List Char → Int64 → Prop where
  | least {word : List Char} (h : word.map Char.toLower = ['-', 'i', 'n', 'f']) :
      Word word Int64.minValue
  | greatest {word : List Char} (h : word.map Char.toLower = ['+', 'i', 'n', 'f'] ∨
      word.map Char.toLower = ['i', 'n', 'f']) : Word word Int64.maxValue
  | numeral {word : List Char} {score : Int64} (h : Decimal.Numeral word score.toInt) :
      Word word score

/-- Whether a bound stands for a score: such a word, with blanks around it or without. -/
def Reads (bound : String) (score : Int64) : Prop :=
  ∃ word, Text.Pads word bound ∧ Word word score

/-- The characters of a numeral are no blanks and no letters. -/
theorem forall_of_numeral {word : List Char} {number : Int} (h : Decimal.Numeral word number) :
    ∀ c ∈ word, Text.isBlank c = false ∧ c.toLower ≠ 'f' := by
  have hdigits : ∀ {digits : List Char}, Decimal.Digits digits →
      ∀ c ∈ digits, Text.isBlank c = false ∧ c.toLower ≠ 'f' := by
    intro digits hdigits c hc
    have hdigit := hdigits.2 c hc
    refine ⟨Text.isBlank_of_isDigit hdigit, ?_⟩
    rw [Text.toLower_of_isDigit hdigit]
    rintro rfl
    exact absurd hdigit (by decide)
  cases h with
  | plain h => exact hdigits h
  | plus h => exact List.forall_mem_cons.mpr ⟨by decide, hdigits h⟩
  | minus h => exact List.forall_mem_cons.mpr ⟨by decide, hdigits h⟩

/-- No infinity is a numeral. -/
theorem isWord_of_numeral {word : List Char} {number : Int} (h : Decimal.Numeral word number)
    {infinity : String} (hf : 'f' ∈ infinity.toList) :
    Text.isWord infinity (.ofList word) = false := by
  rw [Text.isWord, String.toList_ofList, beq_eq_false_iff_ne]
  rintro hsame
  rw [← hsame] at hf
  obtain ⟨c, hc, hlower⟩ := List.mem_map.mp hf
  exact (forall_of_numeral h c hc).2 hlower

/-- There are no blanks within a word. -/
theorem isBlank_of_mem {word : List Char} {score : Int64} (h : Word word score) :
    ∀ c ∈ word, Text.isBlank c = false := by
  have hinfinity : ∀ {lower : List Char}, word.map Char.toLower = lower →
      (lower.all fun c => !Text.isBlank c) = true → ∀ c ∈ word, Text.isBlank c = false := by
    rintro _ rfl hlower c hc
    rw [Bool.eq_false_iff]
    intro hblank
    have hother := List.all_eq_true.mp hlower c.toLower (List.mem_map_of_mem hc)
    rw [Text.toLower_of_isBlank hblank, hblank] at hother
    cases hother
  cases h with
  | least h => exact hinfinity h rfl
  | greatest h => exact h.elim (hinfinity · rfl) (hinfinity · rfl)
  | numeral h => exact fun c hc => (forall_of_numeral h c hc).1

end Bound

/-- The score that a bound is read as is the one that it stands for. -/
theorem scoreBound?_eq_some {bound : String} {score : Int64} :
    scoreBound? bound = some score ↔ Bound.Reads bound score := by
  constructor
  · intro h
    refine ⟨_, Text.pads_trim bound, ?_⟩
    unfold scoreBound? at h
    dsimp only at h
    split at h
    · rename_i hleast
      cases h
      exact .least (beq_iff_eq.mp hleast)
    · split at h
      · rename_i hgreatest
        cases h
        rw [Bool.or_eq_true] at hgreatest
        exact .greatest (hgreatest.imp beq_iff_eq.mp beq_iff_eq.mp)
      · exact .numeral (Decimal.int?_ofText.mp (Decimal.int64?_eq_some.mp h))
  · rintro ⟨word, hpads, hword⟩
    unfold scoreBound?
    dsimp only
    rw [Text.trim_of_pads hpads (Bound.isBlank_of_mem hword)]
    cases hword with
    | least h =>
      rw [if_pos]
      rw [Text.isWord, String.toList_ofList, h]
      rfl
    | greatest h =>
      have hleast : Text.isWord "-inf" (.ofList word) = false := by
        rw [Text.isWord, String.toList_ofList]
        rcases h with h | h <;> rw [h] <;> rfl
      have hgreatest : (Text.isWord "+inf" (.ofList word) || Text.isWord "inf" (.ofList word)) =
          true := by
        rw [Text.isWord, Text.isWord, String.toList_ofList]
        rcases h with h | h <;> rw [h] <;> rfl
      rw [if_neg (Bool.eq_false_iff.mp hleast), if_pos hgreatest]
    | numeral h =>
      rw [Bound.isWord_of_numeral h (by decide), Bound.isWord_of_numeral h (by decide),
        Bound.isWord_of_numeral h (by decide)]
      refine Decimal.int64?_eq_some.mpr (Decimal.int?_ofText.mpr ?_)
      rw [String.toList_ofList]
      exact h

end Keyspace
