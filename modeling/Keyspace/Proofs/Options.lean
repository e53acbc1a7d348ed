import Keyspace.Proofs.Batch
import Keyspace.Proofs.Bounds

/-!
# Options in words

The options of a string write come as words.  This module says which lists of words are
options, as a grammar that knows nothing of how they are read: no word at all, or a unit and
a number, and then a demand or none (`SetOptions.Reads`).  `SetOptions.ofTokens?_eq_some` says
that reading follows the grammar.

* Words.  Letters count in either case (`Text.isWord_pair`), and a number is a numeral without
  a minus sign that fits a word (`Decimal.word?_ofText`).
* The last word.  A list that ends in a demand is read as if it were not there, and no other
  list is read otherwise: a number is no demand, and neither is a unit, which never is last.
* The write.  `Strings.setWith_grammar` says that words out of the grammar are refused before
  a call is made, and that all others lead to a write with the terms that they stand for.
-/

namespace Keyspace

/-! ## Words -/

namespace Text

variable {c capital letter : Char}

theorem toNat_toLower (h : 65 ≤ c.toNat ∧ c.toNat ≤ 90) : c.toLower.toNat = c.toNat + 32 := by
  have hupper : c.val ≥ 'A'.val ∧ c.val ≤ 'Z'.val :=
    ⟨UInt32.le_iff_toNat_le.mpr h.1, UInt32.le_iff_toNat_le.mpr h.2⟩
  have hlower : c.toLower.val = c.val + 32 := congrArg Char.val (dif_pos hupper)
  have hsum : c.toLower.toNat = (c.toNat + 32) % 2 ^ 32 := congrArg UInt32.toNat hlower
  rw [hsum]
  exact Nat.mod_eq_of_lt (by omega)

/-- A letter in lower case has been that letter or its capital. -/
theorem toLower_eq_iff (hcapital : 65 ≤ capital.toNat ∧ capital.toNat ≤ 90)
    (hletter : letter.toNat = capital.toNat + 32) :
    c.toLower = letter ↔ c = capital ∨ c = letter := by
  by_cases h : 65 ≤ c.toNat ∧ c.toNat ≤ 90
  · have hc := toNat_toLower h
    rw [← Char.toNat_inj, ← Char.toNat_inj, ← Char.toNat_inj, hc]
    omega
  · rw [toLower_of_not_upper h]
    have hne : c ≠ capital := by
      rintro rfl
      exact h hcapital
    exact (or_iff_right hne).symm

/-- The ways to write a word of two letters. -/
theorem isWord_pair (A B : Char) {a b : Char} (hA : 65 ≤ A.toNat ∧ A.toNat ≤ 90)
    (hB : 65 ≤ B.toNat ∧ B.toNat ≤ 90) (ha : a.toNat = A.toNat + 32) (hb : b.toNat = B.toNat + 32)
    {token : String} :
    isWord (.ofList [a, b]) token = true ↔
      token ∈ [.ofList [A, B], .ofList [A, b], .ofList [a, B], .ofList [a, b]] := by
  have hlower : isWord (.ofList [a, b]) token = true ↔
      ∃ first second, token = .ofList [first, second] ∧ (first = A ∨ first = a) ∧
        (second = B ∨ second = b) := by
    rw [isWord, beq_iff_eq, String.toList_ofList]
    constructor
    · intro h
      obtain ⟨first, rest, htoken, hfirst, hrest⟩ := List.map_eq_cons_iff.mp h
      obtain ⟨second, _, rfl, hsecond, hnil⟩ := List.map_eq_cons_iff.mp hrest
      rw [List.map_eq_nil_iff.mp hnil] at htoken
      refine ⟨first, second, ?_, (toLower_eq_iff hA ha).mp hfirst,
        (toLower_eq_iff hB hb).mp hsecond⟩
      rw [← htoken, String.ofList_toList]
    · rintro ⟨first, second, rfl, hfirst, hsecond⟩
      rw [String.toList_ofList, List.map_cons, List.map_cons, (toLower_eq_iff hA ha).mpr hfirst,
        (toLower_eq_iff hB hb).mpr hsecond]
      rfl
  rw [hlower]
  constructor
  · rintro ⟨first, second, rfl, rfl | rfl, rfl | rfl⟩ <;> simp
  · intro h
    simp only [List.mem_cons, List.not_mem_nil, or_false] at h
    rcases h with rfl | rfl | rfl | rfl
    · exact ⟨A, B, rfl, .inl rfl, .inl rfl⟩
    · exact ⟨A, b, rfl, .inl rfl, .inr rfl⟩
    · exact ⟨a, B, rfl, .inr rfl, .inl rfl⟩
    · exact ⟨a, b, rfl, .inr rfl, .inr rfl⟩

/-- A text is at most one of two words. -/
theorem ite_isWord_eq_some {α : Type} {first second token : String} (hne : first ≠ second)
    {choice other found : α} :
    (if isWord first token then some choice else if isWord second token then some other
      else none) = some found ↔
      isWord first token = true ∧ choice = found ∨ isWord second token = true ∧ other = found := by
  by_cases hfirst : isWord first token = true
  · have hsecond : ¬ isWord second token = true := fun hsecond =>
      hne (String.toList_inj.mp ((beq_iff_eq.mp hfirst).symm.trans (beq_iff_eq.mp hsecond)))
    simp [hfirst, hsecond]
  · simp [hfirst]

end Text

namespace Decimal

/-- The numerals of an unsigned word: digits, with a plus sign before them or without, of a
number that fits. -/
def Unsigned (chars : List Char) (value : Nat) : Prop :=
  value < UInt64.size ∧ ∃ digits, Digits digits ∧ (chars = digits ∨ chars = '+' :: digits) ∧
    Nat.ofDigitChars 10 digits 0 = value

variable {bytes : Bytes} {value : Nat}

theorem filter_nat?_eq_some :
    (nat? bytes).filter (· < UInt64.size) = some value ↔
      value < UInt64.size ∧ nat? bytes = some value := by
  rw [Option.filter_eq_some_iff, decide_eq_true_eq, and_comm]

theorem word?_plus (digits : Bytes) :
    word? (43 :: digits) = (nat? digits).filter (· < UInt64.size) := by
  unfold word?
  split
  · rename_i hsame
    cases hsame
    dsimp only
    cases nat? digits with
    | none => rfl
    | some value => simp [Option.filter]
  · rename_i hother
    exact absurd rfl (hother digits)

theorem word?_of_ne (h : ∀ digits, bytes ≠ 43 :: digits) :
    word? bytes = (nat? bytes).filter (· < UInt64.size) := by
  unfold word?
  split
  · exact absurd rfl (h _)
  · dsimp only
    cases nat? bytes with
    | none => rfl
    | some value => simp [Option.filter]

theorem word?_eq_some :
    word? bytes = some value ↔ value < UInt64.size ∧
      ∃ digits, nat? digits = some value ∧ (bytes = digits ∨ bytes = 43 :: digits) := by
  by_cases hsign : ∃ digits, bytes = 43 :: digits
  · obtain ⟨digits, rfl⟩ := hsign
    rw [word?_plus, filter_nat?_eq_some]
    refine and_congr_right fun _ => ⟨fun h => ⟨digits, h, .inr rfl⟩, ?_⟩
    rintro ⟨others, h, rfl | hsame⟩
    · -- a plus sign is no digit
      cases h
    · cases hsame
      exact h
  · rw [word?_of_ne (not_exists.mp hsign), filter_nat?_eq_some]
    refine and_congr_right fun _ => ⟨fun h => ⟨bytes, h, .inl rfl⟩, ?_⟩
    rintro ⟨digits, h, rfl | hplus⟩
    · exact h
    · exact absurd ⟨digits, hplus⟩ hsign

/-- A text is a numeral of an unsigned word exactly if it is read as a number. -/
theorem word?_ofText {text : String} :
    word? (.ofText text) = some value ↔ Unsigned text.toList value := by
  have hbyte : ∀ {chars : List Char}, (∀ c ∈ chars, c.toNat < 128) →
      (Bytes.ofText text = chars.map (fun c => c.toNat.toUInt8) ↔ text.toList = chars) := by
    intro chars hchars
    rw [← Bytes.ofText_ascii hchars, Bytes.ofText_inj]
    constructor
    · rintro rfl
      exact String.toList_ofList
    · rintro rfl
      exact String.ofList_toList.symm
  have hascii : ∀ {digits : List Char}, Digits digits → ∀ c ∈ digits, c.toNat < 128 :=
    fun hdigits c hc => isAscii_of_isDigit (hdigits.2 c hc)
  have hplus : ∀ {digits : List Char}, Digits digits → ∀ c ∈ '+' :: digits, c.toNat < 128 :=
    fun hdigits => List.forall_mem_cons.mpr ⟨by decide, hascii hdigits⟩
  rw [word?_eq_some]
  refine and_congr_right fun _ => ?_
  constructor
  · rintro ⟨_, hnumber, hbytes⟩
    obtain ⟨digits, hdigits, rfl, hvalue⟩ := nat?_eq_some.mp hnumber
    exact ⟨digits, hdigits, hbytes.imp (hbyte (hascii hdigits)).mp (hbyte (hplus hdigits)).mp,
      hvalue⟩
  · rintro ⟨digits, hdigits, hchars, hvalue⟩
    exact ⟨_, nat?_eq_some.mpr ⟨digits, hdigits, rfl, hvalue⟩,
      hchars.imp (hbyte (hascii hdigits)).mpr (hbyte (hplus hdigits)).mpr⟩

end Decimal

/-! ## The grammar -/

namespace SetOptions

/-- The words for a demand. -/
inductive Demand : String → Presence → Prop where
  | absent {token : String} (h : token ∈ ["NX", "Nx", "nX", "nx"]) : Demand token .absent
  | present {token : String} (h : token ∈ ["XX", "Xx", "xX", "xx"]) : Demand token .present

/-- The words for a unit. -/
inductive Measure : String → TtlUnit → Prop where
  | seconds {token : String} (h : token ∈ ["EX", "Ex", "eX", "ex"]) : Measure token .seconds
  | millis {token : String} (h : token ∈ ["PX", "Px", "pX", "px"]) : Measure token .millis

/-- The words for a time to live or for none. -/
inductive Lifetime : List String → Option (Nat × TtlUnit) → Prop where
  | ever : Lifetime [] none
  | limited {token number : String} {unit : TtlUnit} {ttl : Nat} (hunit : Measure token unit)
      (hnumber : Decimal.Unsigned number.toList ttl) : Lifetime [token, number] (some (ttl, unit))

/-- The words for options. -/
inductive Reads : List String → SetOptions → Prop where
  | plain {tokens : List String} {ttl : Option (Nat × TtlUnit)} (h : Lifetime tokens ttl) :
      Reads tokens ⟨ttl, .any⟩
  | demanding {tokens : List String} {ttl : Option (Nat × TtlUnit)} {token : String}
      {presence : Presence} (h : Lifetime tokens ttl) (hlast : Demand token presence) :
      Reads (tokens ++ [token]) ⟨ttl, presence⟩

variable {token : String} {tokens : List String} {presence : Presence} {unit : TtlUnit}
  {ttl : Option (Nat × TtlUnit)} {options : SetOptions}

theorem presence?_eq_some : presence? token = some presence ↔ Demand token presence := by
  have habsent : Text.isWord "nx" token = true ↔ token ∈ ["NX", "Nx", "nX", "nx"] :=
    Text.isWord_pair 'N' 'X' (by decide) (by decide) (by decide) (by decide)
  have hpresent : Text.isWord "xx" token = true ↔ token ∈ ["XX", "Xx", "xX", "xx"] :=
    Text.isWord_pair 'X' 'X' (by decide) (by decide) (by decide) (by decide)
  rw [presence?, Text.ite_isWord_eq_some (by decide), habsent, hpresent]
  constructor
  · rintro (⟨h, rfl⟩ | ⟨h, rfl⟩)
    · exact .absent h
    · exact .present h
  · rintro (h | h)
    · exact .inl ⟨h, rfl⟩
    · exact .inr ⟨h, rfl⟩

theorem unit?_eq_some : unit? token = some unit ↔ Measure token unit := by
  have hseconds : Text.isWord "ex" token = true ↔ token ∈ ["EX", "Ex", "eX", "ex"] :=
    Text.isWord_pair 'E' 'X' (by decide) (by decide) (by decide) (by decide)
  have hmillis : Text.isWord "px" token = true ↔ token ∈ ["PX", "Px", "pX", "px"] :=
    Text.isWord_pair 'P' 'X' (by decide) (by decide) (by decide) (by decide)
  rw [unit?, Text.ite_isWord_eq_some (by decide), hseconds, hmillis]
  constructor
  · rintro (⟨h, rfl⟩ | ⟨h, rfl⟩)
    · exact .seconds h
    · exact .millis h
  · rintro (h | h)
    · exact .inl ⟨h, rfl⟩
    · exact .inr ⟨h, rfl⟩

theorem ttl?_eq_some : ttl? tokens = some ttl ↔ Lifetime tokens ttl := by
  constructor
  · intro h
    unfold ttl? at h
    split at h
    · cases h
      exact .ever
    · obtain ⟨unit, hunit, hrest⟩ := Option.bind_eq_some_iff.mp h
      obtain ⟨number, hnumber, hpair⟩ := Option.bind_eq_some_iff.mp hrest
      cases hpair
      exact .limited (unit?_eq_some.mp hunit) (Decimal.word?_ofText.mp hnumber)
    · cases h
  · intro h
    cases h with
    | ever => rfl
    | limited hunit hnumber =>
      rw [ttl?, unit?_eq_some.mpr hunit, Option.bind_eq_bind, Option.bind_some,
        Decimal.word?_ofText.mpr hnumber]
      rfl

/-- No demand ends the words for a time to live. -/
theorem not_lifetime (h : Demand token presence) : ¬ Lifetime (tokens ++ [token]) ttl := by
  have hnumber : ∀ value, ¬ Decimal.Unsigned token.toList value := by
    intro value hvalue
    have hread := Decimal.word?_ofText.mpr hvalue
    have hnone : Decimal.word? (.ofText token) = none := by
      cases h with
      | absent h | present h =>
        simp only [List.mem_cons, List.not_mem_nil, or_false] at h
        rcases h with rfl | rfl | rfl | rfl <;> rfl
    rw [hnone] at hread
    cases hread
  -- a time to live has its number at the end
  intro hlifetime
  generalize hall : tokens ++ [token] = all at hlifetime
  cases hlifetime with
  | ever => simp at hall
  | @limited first number _ _ _ hlast =>
    have hsplit : tokens ++ [token] = [first] ++ [number] := hall
    obtain ⟨_, hsame⟩ := List.append_inj' hsplit rfl
    cases hsame
    exact hnumber _ hlast

theorem splitPresence_concat (h : Demand token presence) :
    splitPresence (tokens ++ [token]) = (tokens, presence) := by
  rw [splitPresence, List.getLast?_concat, List.dropLast_concat, Option.bind_some,
    presence?_eq_some.mpr h]

/-- A demand at the end is split off, and nothing else is. -/
theorem splitPresence_cases (tokens : List String) :
    (∃ rest token presence, Demand token presence ∧ tokens = rest ++ [token]) ∨
      splitPresence tokens = (tokens, .any) := by
  rcases List.eq_nil_or_concat tokens with rfl | ⟨rest, token, htokens⟩
  · exact .inr rfl
  · rw [List.concat_eq_append] at htokens
    cases hlast : presence? token with
    | some presence => exact .inl ⟨rest, token, presence, presence?_eq_some.mp hlast, htokens⟩
    | none =>
      right
      rw [htokens, splitPresence, List.getLast?_concat, Option.bind_some, hlast]

theorem ofTokens?_of_split {rest : List String} (h : splitPresence tokens = (rest, presence)) :
    ofTokens? tokens = (ttl? rest).map fun ttl => ⟨ttl, presence⟩ := by
  rw [ofTokens?, h]

/-- The options that words are read as are the ones that they stand for. -/
theorem ofTokens?_eq_some : ofTokens? tokens = some options ↔ Reads tokens options := by
  constructor
  · intro h
    rcases splitPresence_cases tokens with ⟨rest, token, presence, hlast, rfl⟩ | hsplit
    · rw [ofTokens?_of_split (splitPresence_concat hlast)] at h
      obtain ⟨ttl, httl, rfl⟩ := Option.map_eq_some_iff.mp h
      exact .demanding (ttl?_eq_some.mp httl) hlast
    · rw [ofTokens?_of_split hsplit] at h
      obtain ⟨ttl, httl, rfl⟩ := Option.map_eq_some_iff.mp h
      exact .plain (ttl?_eq_some.mp httl)
  · rintro (⟨h⟩ | ⟨h, hlast⟩)
    · -- without a demand in the grammar none is split off
      rcases splitPresence_cases tokens with ⟨rest, token, presence, hlast, rfl⟩ | hsplit
      · exact absurd h (not_lifetime hlast)
      · rw [ofTokens?_of_split hsplit, ttl?_eq_some.mpr h]
        rfl
    · rw [ofTokens?_of_split (splitPresence_concat hlast), ttl?_eq_some.mpr h]
      rfl

theorem ofTokens?_eq_none : ofTokens? tokens = none ↔ ∀ options, ¬ Reads tokens options := by
  rw [Option.eq_none_iff_forall_ne_some]
  exact forall_congr' fun options => not_congr ofTokens?_eq_some

end SetOptions

/-! ## The write -/

namespace Strings

variable {context : Context} {key : Bytes} {item : Item} {terms : Terms} {mode : WriteMode}
  {tokens : List String} {options : SetOptions} {now : Millis} {store : Store}

theorem set_of_ne (hversion : item.version ≠ 0) :
    set key item terms mode = Strings.store key item terms mode := by
  rw [set, requireVersion_of_ne hversion]
  rfl

/-- Words that are no options are refused before any call is made. -/
theorem setWith_of_none (hversion : item.version ≠ 0) (h : SetOptions.ofTokens? tokens = none) :
    setWith context key item terms tokens = .refuse .wrongArgCount := by
  rw [setWith, requireVersion_of_ne hversion, h]
  rfl

/-- The terms of a write with options. -/
def withOptions (context : Context) (terms : Terms) (version : Version) (options : SetOptions) :
    Terms :=
  { terms with
    expireTime := match options.ttl with
      | none => 0
      | some (ttl, unit) => context.deadline ttl unit version }

/-- How a write with options is made. -/
def modeOf (options : SetOptions) : WriteMode :=
  { onlyIfAbsent := options.presence = .absent, appliesDeadline := true }

/-- Words that are options lead to the write that they stand for, perhaps after a look at the
key. -/
theorem setWith_of_some (hversion : item.version ≠ 0)
    (h : SetOptions.ofTokens? tokens = some options) :
    let write := set key item (withOptions context terms item.version options) (modeOf options)
    setWith context key item terms tokens =
      if options.presence = .present then (requireRecord key).bind fun _ => write else write := by
  intro write
  have hwrite : write = _ := set_of_ne hversion
  rw [hwrite, setWith, requireVersion_of_ne hversion, h]
  show (if options.presence = .present then (discard (requireRecord key)).bind fun _ => _
    else _ : Script Status Unit) = _
  rw [Script.discard_eq, Script.bind_assoc]
  rfl

/-- A store that does not answer refuses a write. -/
theorem on_set_of_error (hversion : item.version ≠ 0) {failure : Failure}
    (h : store.record now key = .error failure) :
    (set key item terms mode).on now store = (.error failure.status, store) := by
  rw [set_of_ne hversion, Strings.store, Script.bind_eq, Script.on_bind, on_checkTerms, h]

/-- A write with options is the write that they stand for, unless it demands a key that is
not there. -/
theorem on_setWith (hversion : item.version ≠ 0) (h : SetOptions.ofTokens? tokens = some options) :
    (setWith context key item terms tokens).on now store =
      if options.presence = .present ∧ store.closed = false ∧ store.live? now key = none then
        (.error .notExist, store)
      else (set key item (withOptions context terms item.version options)
        (modeOf options)).on now store := by
  rw [setWith_of_some hversion h]
  by_cases hpresent : options.presence = .present
  · rw [if_pos hpresent, Script.on_bind, on_requireRecord]
    -- a closed store refuses the look at the key, and it would refuse the write likewise
    rcases hrecord : store.record now key with failure | (_ | record)
    · have hclosed : store.closed ≠ false := by
        intro hopen
        rw [Store.record_open hopen] at hrecord
        cases hrecord
      rw [if_neg fun h => hclosed h.2.1, on_set_of_error hversion hrecord]
    · obtain ⟨hopen, hlive⟩ := Store.record_eq_ok.mp hrecord
      rw [if_pos ⟨hpresent, hopen, Option.map_eq_none_iff.mp hlive⟩]
    · obtain ⟨_, hlive⟩ := Store.record_eq_ok.mp hrecord
      have hsome : store.live? now key ≠ none := by
        intro hnone
        rw [hnone] at hlive
        cases hlive
      rw [if_neg fun h => hsome h.2.2]
  · rw [if_neg hpresent, if_neg fun h => hpresent h.1]

theorem verdict_ne (mode : WriteMode) (current : Option Version) (offered : Version) :
    mode.verdict current offered ≠ .wrongArgCount := by
  cases current with
  | none => exact fun h => nomatch h
  | some version =>
    rw [WriteMode.verdict]
    split
    · decide
    · split <;> decide

/-- A write is not refused for its words. -/
theorem status_set_ne (key : Bytes) (item : Item) (terms : Terms) (mode : WriteMode) :
    ((Command.set key item terms mode).run context store).1.status ≠ .wrongArgCount := by
  have hrun : (single context terms mode (key, item)).run store = _ := run_single (key, item)
  show ((single context terms mode (key, item)).run store).1.status ≠ _
  rw [hrun]
  show judgement terms mode (store.record context.now key) item.version ≠ .wrongArgCount
  unfold judgement
  split
  · decide
  · split
    · rename_i failure _
      cases failure <;> decide
    · split
      · exact verdict_ne mode _ _
      · decide

/-- Words out of the grammar are refused, and nobody is asked anything. -/
theorem runBy_setWith (hversion : item.version ≠ 0)
    (h : ∀ options, ¬ SetOptions.Reads tokens options) {σ : Type}
    (answer : σ → (c : Call) → Except Failure c.Answer × σ) (context : Context) (state : σ) :
    (Command.setWith key item terms tokens).runBy answer context state =
      (⟨.wrongArgCount, .nothing⟩, state) := by
  have hnone := SetOptions.ofTokens?_eq_none.mpr h
  rw [Command.runBy_of_reply (by rfl), setWith_of_none hversion hnone]
  rfl

/-- Words of the grammar lead to the write that they stand for. -/
theorem run_setWith (hversion : item.version ≠ 0) (h : SetOptions.Reads tokens options)
    (context : Context) (store : Store) :
    (Command.setWith key item terms tokens).run context store =
      if options.presence = .present ∧ store.closed = false ∧
          store.live? context.now key = none then (⟨.notExist, .nothing⟩, store)
      else (Command.set key item (withOptions context terms item.version options)
        (modeOf options)).run context store := by
  have hsome := SetOptions.ofTokens?_eq_some.mpr h
  have hset : (Command.set key item (withOptions context terms item.version options)
      (modeOf options)).run context store = _ := Command.run_of_reply (by rfl) store
  rw [hset, Command.run_of_reply (by rfl), on_setWith hversion hsome]
  by_cases hmissing : options.presence = .present ∧ store.closed = false ∧
      store.live? context.now key = none
  · rw [if_pos hmissing, if_pos hmissing]
    rfl
  · rw [if_neg hmissing, if_neg hmissing]
    rfl

/-- The words of a write with options are read by one grammar.  Words out of it are refused,
and no call is made for them, whoever answers.  All others lead to the write that they stand
for: its deadline is that of its time to live, or none, it wants the key absent if that is
demanded, and it is refused if the key is absent and must not be. -/
theorem setWith_grammar (hversion : item.version ≠ 0) (context : Context) (key : Bytes)
    (terms : Terms) (tokens : List String) :
    let setWith := Command.setWith key item terms tokens
    (∀ store, (setWith.run context store).1.status = .wrongArgCount ↔
      ∀ options, ¬ SetOptions.Reads tokens options) ∧
    ((∀ options, ¬ SetOptions.Reads tokens options) →
      ∀ {σ : Type} (answer : σ → (c : Call) → Except Failure c.Answer × σ) (state : σ),
        setWith.runBy answer context state = (⟨.wrongArgCount, .nothing⟩, state)) ∧
    ∀ ttl presence, SetOptions.Reads tokens ⟨ttl, presence⟩ → ∀ store,
      let expireTime := match ttl with
        | none => 0
        | some (amount, unit) => context.deadline amount unit item.version
      let mode := { onlyIfAbsent := presence = .absent, appliesDeadline := true }
      setWith.run context store =
        if presence = .present ∧ store.closed = false ∧ store.live? context.now key = none then
          (⟨.notExist, .nothing⟩, store)
        else (Command.set key item { terms with expireTime } mode).run context store := by
  intro setWith
  refine ⟨fun store => ⟨fun hstatus options hoptions => ?_, fun h => ?_⟩,
    fun h _ answer state => runBy_setWith hversion h answer context state,
    fun ttl presence hoptions store => run_setWith hversion hoptions context store⟩
  · rw [run_setWith hversion hoptions context store] at hstatus
    split at hstatus
    · cases hstatus
    · exact status_set_ne key item _ _ hstatus
  · have hrun : setWith.run context store = (⟨.wrongArgCount, .nothing⟩, store) :=
      runBy_setWith hversion h _ context store
    rw [hrun]

/-- A write that demands the key, of which it says so in letters of either case: it is refused
on an empty store and made on a store that has the key; and without the demand its number
would be of no use. -/
theorem setWith_grammar_present :
    let context : Context := ⟨⟨5000000⟩, .absolute⟩
    let item : Item := ⟨[97], 7⟩
    let tokens := ["px", "+250", "Xx"]
    let store := (Store.empty.perform 0 (.put [107] ⟨[98], 3⟩ none)).2
    let write := Command.setWith [107] item {} tokens
    item.version ≠ 0 ∧
      SetOptions.Reads tokens ⟨some (250, .millis), .present⟩ ∧
      write.run context .empty = (⟨.notExist, .nothing⟩, .empty) ∧
      write.run context store =
        (Command.set [107] item ⟨none, 5250⟩ ⟨false, true⟩).run context store ∧
      ((Command.setWith [107] item {} ["+250", "Xx"]).run context store).1.status =
        .wrongArgCount := by
  intro context item tokens store write
  have hversion : item.version ≠ 0 := by decide
  have hreads : SetOptions.Reads tokens ⟨some (250, .millis), .present⟩ :=
    SetOptions.ofTokens?_eq_some.mp rfl
  obtain ⟨_, _, hrun⟩ := setWith_grammar hversion context [107] {} tokens
  obtain ⟨hstatus, _, _⟩ := setWith_grammar hversion context [107] {} ["+250", "Xx"]
  refine ⟨hversion, hreads, ?_, ?_, ?_⟩
  · exact (hrun _ _ hreads .empty).trans (if_pos ⟨rfl, rfl, rfl⟩)
  · have hpresent : store.live? context.now [107] ≠ none := nofun
    have hdeadline : context.deadline 250 .millis item.version = 5250 := by decide +kernel
    rw [hrun _ _ hreads store, if_neg fun habsent => hpresent habsent.2.2]
    show (Command.set [107] item ⟨none, context.deadline 250 .millis item.version⟩
      ⟨false, true⟩).run context store = _
    rw [hdeadline]
  · exact (hstatus store).mpr (SetOptions.ofTokens?_eq_none.mp rfl)

end Strings

end Keyspace
