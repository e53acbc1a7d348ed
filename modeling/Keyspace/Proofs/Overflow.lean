import Keyspace.Proofs.Expectation
import Keyspace.Proofs.Tally

/-!
# Overflow

A count that is admitted to its counter either tells the exact sum and stores it, or it
reports an overflow and changes nothing.  It should report one exactly if the exact sum is
no word.  An amount that is counted down is negated first, and the least word has no
negation: to take it away is an overflow whatever the counter holds, also where the exact
difference is a word because the counter is negative.

There are three groups.

* Words.  `addWithin_eq` says when a sum has a value.
* Counters.  `Counter.Admits` says which counts are admitted, `Counter.reach` what slot
  a counter is in at a total, and `Counter.Exact` what a count should come to.
* Counts.  There is one lemma for each of the three kinds of counters, and
  `Command.count_exact_iff` says of every command that counts when it comes to that.
-/

namespace Keyspace

variable {now : Millis} {store after : Store} {key name : Bytes} {version : Version}
  {terms : Terms} {delta current total : Int64}

/-! ## Words -/

/-- Whether a number is a signed 64-bit word. -/
def IsWord (value : Int) : Prop :=
  Int64.minValue.toInt ≤ value ∧ value ≤ Int64.maxValue.toInt

instance (value : Int) : Decidable (IsWord value) :=
  inferInstanceAs (Decidable (_ ∧ _))

theorem toInt_ofInt_of_isWord {value : Int} (h : IsWord value) :
    (Int64.ofInt value).toInt = value := by
  obtain ⟨hleast, hmost⟩ := h
  rw [Int64.toInt_minValue] at hleast
  rw [Int64.toInt_maxValue] at hmost
  exact Int64.toInt_ofInt_of_le (by omega) (by omega)

/-- A sum has a value exactly if the exact sum is a word. -/
theorem addWithin_eq (a b : Int64) :
    addWithin a b =
      if IsWord (a.toInt + b.toInt) then some (Int64.ofInt (a.toInt + b.toInt)) else none := rfl

theorem negWithin_eq_none {a : Int64} : negWithin a = none ↔ a = Int64.minValue := by
  unfold negWithin
  split <;> simp_all

/-- To take the least word away leaves a word exactly if it is taken from a negative
one. -/
theorem isWord_sub_least (current : Int64) :
    IsWord (current.toInt + -Int64.minValue.toInt) ↔ current.toInt < 0 := by
  have hmost := current.toInt_le
  have hleast := current.minValue_le_toInt
  rw [Int64.toInt_maxValue] at hmost
  rw [Int64.toInt_minValue] at hleast
  rw [IsWord, Int64.toInt_maxValue, Int64.toInt_minValue]
  omega

/-! ## Counters -/

namespace Counter

/-- Whether a count is admitted to its counter: the key is as the terms of the count expect
and holds the kind of value that is counted on, and the version is newer than that of the
counter. -/
structure Admits (counter : Counter) (now : Millis) (terms : Terms) (version : Version)
    (store : Store) : Prop where
  isOpen : store.closed = false
  ne_zero : version ≠ 0
  permitted : terms.permit ((store.live? now counter.key).map Slot.record) = true
  kind : ∀ slot ∈ store.live? now counter.key, slot.content.kind = counter.place.kind
  newer : ((counter.read? now store).map Part.version).any (version ≤ ·) = false

/-- The slot that a counter is in once it has been brought to a total: the rest of the
value and the deadline of the key are as before. -/
def reach (counter : Counter) (total : Int64) (version : Version) (slot? : Option Slot) : Slot :=
  let old := slot?.getD ⟨.blank counter.place.kind, 0, none⟩
  ⟨(counter.update total version).enter old.content, max old.version version, old.deadline⟩

/-- The reply to a count that has come to an end. -/
def told : Except Status Int64 → Reply
  | .ok total => ⟨.ok, .number total⟩
  | .error status => ⟨status, .number 0⟩

/-- What a count should come to that finds its counter at a number and makes it `exact`: the
sum is told and stored if it is a word, and otherwise an overflow is reported and nothing
changes. -/
def Exact (counter : Counter) (now : Millis) (version : Version) (exact : Int) (store : Store)
    (outcome : Reply × Store) : Prop :=
  if IsWord exact then
    ∃ total : Int64, total.toInt = exact ∧ outcome.1 = ⟨.ok, .number total⟩ ∧
      (counter.read? now outcome.2).bind Part.number? = some total ∧
      outcome.2.slots[counter.key]? =
        some (counter.reach total version (store.live? now counter.key)) ∧
      ∀ other ≠ counter.key, outcome.2.slots[other]? = store.slots[other]?
  else outcome = (⟨.overflow, .number 0⟩, store)

/-- The call that brings a counter to a total.  A string is put with its deadline. -/
def write (counter : Counter) (total : Int64) (version : Version) (deadline : Option Millis) :
    Call :=
  match counter with
  | string key => .put key ⟨Decimal.ofInt total.toInt, version⟩ deadline
  | field key name => .putField key name ⟨Decimal.ofInt total.toInt, version⟩
  | score key member => .putScore key member total version

theorem effect_write {slot? : Option Slot} (counter : Counter)
    (h : ∀ slot ∈ slot?, slot.content.kind = counter.place.kind) (total : Int64)
    (version : Version) :
    (counter.write total version (slot?.bind Slot.deadline)).effect slot? =
      some (counter.reach total version slot?) := by
  cases slot? with
  | none =>
    have hmax : max 0 version = version := by grind
    cases counter <;> simp only [reach, Option.getD_none, hmax] <;> rfl
  | some slot =>
    obtain ⟨content, stamp, deadline⟩ := slot
    have hkind := h _ rfl
    cases counter with
    | string =>
      show some (⟨.string _, max version stamp, deadline⟩ : Slot) = _
      rw [Version.max_comm]
      rfl
    | field => cases content <;> cases hkind; rfl
    | score => cases content <;> cases hkind; rfl

/-- A call that brings a counter to a total is answered. -/
theorem answer_write (counter : Counter) (hopen : store.closed = false)
    (h : ∀ slot ∈ store.live? now counter.key, slot.content.kind = counter.place.kind)
    (total : Int64) (version : Version) (deadline : Option Millis) :
    ∃ answer, (store.perform now (counter.write total version deadline)).1 = .ok answer := by
  cases counter with
  | string key => exact ⟨(), Store.fst_perform_put hopen key _ _⟩
  | field key name => exact Store.Holds.answer_ok ⟨hopen, h⟩ rfl rfl
  | score key member => exact Store.Holds.answer_ok ⟨hopen, h⟩ rfl rfl

theorem getElem?_write (counter : Counter) (hopen : store.closed = false)
    (h : ∀ slot ∈ store.live? now counter.key, slot.content.kind = counter.place.kind)
    (total : Int64) (version : Version) :
    (store.perform now (counter.write total version
      ((store.live? now counter.key).bind Slot.deadline))).2.slots[counter.key]? =
        some (counter.reach total version (store.live? now counter.key)) := by
  rw [← effect_write counter h]
  cases counter <;> exact Store.getElem?_revise_self hopen

/-- A counter that has been brought to a total is read at it. -/
theorem number?_reach {slot? : Option Slot} (counter : Counter)
    (h : ∀ slot ∈ slot?, slot.content.kind = counter.place.kind) (total : Int64)
    (version : Version) :
    (counter.reach total version slot?).content.kind = counter.place.kind ∧
      ((counter.reach total version slot?).part? counter.place).bind Part.number? =
        some total := by
  have hnumeral := Decimal.int64?_ofInt total
  have hold : (slot?.getD ⟨.blank counter.place.kind, 0, none⟩).content.kind =
      counter.place.kind := by
    cases slot? with
    | none => cases counter <;> rfl
    | some slot => exact h slot rfl
  rw [reach]
  generalize slot?.getD ⟨.blank counter.place.kind, 0, none⟩ = old at hold
  obtain ⟨content, stamp, deadline⟩ := old
  cases counter with
  | string => exact ⟨rfl, hnumeral⟩
  | field key name =>
    cases content <;> cases hold
    rename_i fields
    refine ⟨rfl, ?_⟩
    show ((fields.insert name ⟨Decimal.ofInt total.toInt, version⟩)[name]?.map Part.field).bind
      Part.number? = some total
    rw [Std.ExtTreeMap.getElem?_insert_self]
    exact hnumeral
  | score key member =>
    cases content <;> cases hold
    rename_i ranking
    refine ⟨rfl, ?_⟩
    show ((ranking.insert member total version).byMember[member]?.map Part.score).bind
      Part.number? = some total
    rw [Ranking.getElem?_insert, if_pos rfl]
    rfl

/-- A counter that has been brought to a total is live. -/
theorem live?_reach (counter : Counter) (now : Millis) (store : Store) (total : Int64)
    (version : Version) :
    Slot.live? now (some (counter.reach total version (store.live? now counter.key))) =
      some (counter.reach total version (store.live? now counter.key)) := by
  refine Slot.live?_eq_some.mpr ⟨rfl, ?_⟩
  cases hslot : store.live? now counter.key with
  | none => rfl
  | some slot => exact (Store.live?_eq_some.mp hslot).2

theorem key?_write (counter : Counter) (total : Int64) (version : Version)
    (deadline : Option Millis) :
    (counter.write total version deadline).key? = some counter.key := by
  cases counter <;> rfl

/-- What a count comes to that has found its counter at `current`. -/
def outcome (counter : Counter) (now : Millis) (version : Version) (delta current : Int64)
    (store : Store) : Except Status Int64 × Store :=
  match addWithin current delta with
  | none => (.error .overflow, store)
  | some total =>
    (.ok total, (store.perform now (counter.write total version
      ((store.live? now counter.key).bind Slot.deadline))).2)

end Counter

theorem requireNewer_of_newer {stored : Option Version} (h : stored.any (version ≤ ·) = false) :
    requireNewer stored version = .done () :=
  if_neg (Bool.eq_false_iff.mp h)

namespace Counter.Admits

variable {counter : Counter} (h : counter.Admits now terms version store)

include h

theorem on_checkKind : (checkKind counter.key terms counter.place.kind).on now store =
    (.ok ((store.live? now counter.key).map Slot.record), store) := by
  rw [on_checkKind_of_kind terms h.isOpen h.kind, if_pos h.permitted]

theorem read?_eq :
    counter.read? now store = (store.live? now counter.key).bind (Slot.part? counter.place) :=
  read?_of_kind h.kind

/-- A count ends with the sum and the write. -/
theorem on_sum (delta current : Int64) :
    ((Script.ofOption .overflow (addWithin current delta)).bind fun total =>
      (query (counter.write total version ((store.live? now counter.key).bind Slot.deadline))).bind
        fun _ => .done total).on now store = counter.outcome now version delta current store := by
  unfold Counter.outcome
  cases addWithin current delta with
  | none => rfl
  | some total =>
    obtain ⟨answer, hanswer⟩ := counter.answer_write h.isOpen h.kind total version
      ((store.live? now counter.key).bind Slot.deadline)
    show ((query (counter.write total version _)).bind fun _ => .done total).on now store = _
    rw [Script.on_bind, Script.on_query, hanswer]
    rfl

end Counter.Admits

theorem Strings.on_add (h : (Counter.string key).Admits now terms version store)
    (hnumber : ((Counter.string key).read? now store).elim (some 0) Part.number? = some current) :
    (add key version delta terms).on now store =
      (Counter.string key).outcome now version delta current store := by
  have hcheck : (checkKind key terms .string).on now store =
      (.ok ((store.live? now key).map Slot.record), store) := h.on_checkKind
  have hsum := h.on_sum delta current
  dsimp only [Counter.key] at hsum
  have hfound : (Counter.string key).read? now store = (store.live? now key).map .whole := by
    rw [h.read?_eq]
    show (store.live? now key).bind (Slot.part? .whole) = _
    cases store.live? now key <;> rfl
  have hnewer : (((store.live? now key).map Slot.record).map Record.version).any
      (version ≤ ·) = false := by
    have hnewer := h.newer
    rw [hfound, Option.map_map] at hnewer
    rw [Option.map_map]
    exact hnewer
  have hdeadline : ((store.live? now key).map Slot.record).bind Record.deadline =
      (store.live? now key).bind Slot.deadline := by
    rw [Option.bind_map]
    rfl
  rw [hfound] at hnumber
  rw [add, requireVersion_of_ne h.ne_zero]
  show ((checkKind key terms .string).bind _).on now store = _
  rw [Script.on_bind_ok hcheck]
  dsimp only
  rw [requireNewer_of_newer hnewer, hdeadline]
  show ((query (.get key)).bind _).on now store = _
  rw [Script.on_bind, Script.on_query, Store.perform, Store.view_open h.isOpen]
  cases hslot : store.live? now key with
  | none =>
    rw [hslot] at hnumber hsum
    cases hnumber
    exact hsum
  | some slot =>
    have hkind := h.kind slot hslot
    obtain ⟨content, stamp, deadline⟩ := slot
    cases content with
    | string item =>
      have hvalue : Decimal.int64? item.value = some current := by
        rw [hslot] at hnumber
        exact hnumber
      rw [hslot] at hsum
      show ((Script.ofOption Status.notANumber (Decimal.int64? item.value)).bind _).on now store = _
      rw [hvalue]
      exact hsum
    | _ => cases hkind

/-- A count on a part of a collection reads the part, and then it ends like every other. -/
theorem Counter.Admits.on_part {counter : Counter} (h : counter.Admits now terms version store)
    {read : Call} {answer : read.Answer} (hread : store.perform now read = (.ok answer, store))
    (stored : read.Answer → Option Version)
    (hnewer : (stored answer).any (version ≤ ·) = false)
    {rest : read.Answer → Script Status Int64}
    (hrest : rest answer = (Script.ofOption .overflow (addWithin current delta)).bind fun total =>
      (discard (query (counter.write total version
        ((store.live? now counter.key).bind Slot.deadline)))).bind fun _ => .done total) :
    ((requireVersion version).bind fun _ =>
      (discard (checkKind counter.key terms counter.place.kind)).bind fun _ =>
      (query read).bind fun found => (requireNewer (stored found) version).bind fun _ =>
        rest found).on now store = counter.outcome now version delta current store := by
  rw [requireVersion_of_ne h.ne_zero]
  show ((discard (checkKind counter.key terms counter.place.kind)).bind _).on now store = _
  rw [Script.discard_eq, Script.bind_assoc, Script.on_bind_ok h.on_checkKind]
  show ((query read).bind _).on now store = _
  rw [Script.on_bind, Script.on_query, hread]
  show ((requireNewer (stored answer) version).bind _).on now store = _
  rw [requireNewer_of_newer hnewer]
  show (rest answer).on now store = _
  rw [hrest, ← h.on_sum]
  simp only [Script.discard_eq, Script.bind_assoc]
  rfl

theorem Hashes.on_add (hsound : store.Sound)
    (h : (Counter.field key name).Admits now terms version store)
    (hnumber : ((Counter.field key name).read? now store).elim (some 0) Part.number? =
      some current) :
    (add key name version delta terms).on now store =
      (Counter.field key name).outcome now version delta current store := by
  have hready : store.Ready now key .hash := ready_of_checkKind hsound h.on_checkKind
  obtain ⟨answer, hread, hfound⟩ := part_field h.isOpen hready.takes name
  have hpart : (Counter.field key name).read? now store = answer.map .field :=
    h.read?_eq.trans hfound
  have hnewer := h.newer
  rw [hpart, Option.map_map] at hnewer
  rw [hpart] at hnumber
  refine h.on_part hread (Option.map Item.version) hnewer ?_
  cases answer with
  | none =>
    cases hnumber
    rfl
  | some item =>
    have hvalue : Decimal.int64? item.value = some current := hnumber
    show (Script.ofOption Status.notANumber (Decimal.int64? item.value)).bind _ = _
    rw [hvalue]
    rfl

theorem Rankings.on_add (hsound : store.Sound)
    (h : (Counter.score key name).Admits now terms version store)
    (hnumber : ((Counter.score key name).read? now store).elim (some 0) Part.number? =
      some current) :
    (add key name version delta terms).on now store =
      (Counter.score key name).outcome now version delta current store := by
  have hready : store.Ready now key .zset := ready_of_checkKind hsound h.on_checkKind
  obtain ⟨answer, hread, hfound⟩ := part_mark h.isOpen hready.takes name
  have hpart : (Counter.score key name).read? now store = answer.map .score :=
    h.read?_eq.trans hfound
  have hnewer := h.newer
  rw [hpart, Option.map_map] at hnewer
  rw [hpart] at hnumber
  refine h.on_part hread (Option.map Mark.version) hnewer ?_
  cases answer with
  | none =>
    cases hnumber
    rfl
  | some mark =>
    cases hnumber
    rfl

/-- An admitted count comes to what it should. -/
theorem Counter.Admits.exact_outcome {counter : Counter}
    (h : counter.Admits now terms version store) (delta current : Int64) :
    counter.Exact now version (current.toInt + delta.toInt) store
      (told (counter.outcome now version delta current store).1,
        (counter.outcome now version delta current store).2) := by
  unfold Counter.outcome Counter.Exact
  rw [addWithin_eq]
  by_cases hword : IsWord (current.toInt + delta.toInt)
  · have htotal := toInt_ofInt_of_isWord hword
    generalize Int64.ofInt (current.toInt + delta.toInt) = total at htotal
    simp only [if_pos hword]
    have hkept := counter.getElem?_write h.isOpen h.kind total version
    obtain ⟨hkind, hnumber⟩ := counter.number?_reach h.kind total version
    refine ⟨total, htotal, rfl, ?_, hkept, fun other hother => ?_⟩
    · rw [read?, Store.live?_eq, hkept, counter.live?_reach]
      show (if _ then _ else _ : Option Part).bind Part.number? = _
      rw [if_pos hkind, hnumber]
    · refine Store.getElem?_perform_of_ne ?_ ?_
      · intro hclose
        cases counter <;> cases hclose
      · rw [key?_write, ne_eq, Option.some.injEq]
        exact hother.symm
  · simp only [if_neg hword]
    rfl

namespace Command

variable {command : Command} {count : Count} {context : Context}

/-- Whether a command takes the least word away, which has no negation. -/
def takesLeast : Command → Bool
  | decrBy _ _ delta _ => delta = Int64.minValue
  | _ => false

theorem blank_of_count? (hcount : command.count? = some count) (status : Status) :
    command.blank status = .number 0 := by
  cases command <;> cases hcount <;> rfl

/-- A command that counts runs a script that brings its counter to what it comes to, unless
it takes the least word away: then the script reports an overflow. -/
theorem script_of_admits (hsound : store.Sound) (hcount : command.count? = some count)
    (hguard : command.guard? = some (count.counter.key, terms))
    (hadmits : count.counter.Admits context.now terms count.version store)
    (hnumber : (count.counter.read? context.now store).elim (some 0) Part.number? =
      some current) :
    ∃ script : Script Status Int64, command.script context = reply script .number ∧
      (command.takesLeast = true ∧ count.amount = -Int64.minValue.toInt ∧
          script.on context.now store = (.error .overflow, store) ∨
        command.takesLeast = false ∧ ∃ delta : Int64, delta.toInt = count.amount ∧
          script.on context.now store =
            count.counter.outcome context.now count.version delta current store) := by
  cases command with
  | incrBy key version delta terms =>
    cases hcount
    cases hguard
    exact ⟨_, rfl, .inr ⟨rfl, delta, rfl, Strings.on_add hadmits hnumber⟩⟩
  | decrBy key version delta terms =>
    cases hcount
    cases hguard
    refine ⟨_, rfl, ?_⟩
    cases hnegated : negWithin delta with
    | none =>
      obtain rfl := negWithin_eq_none.mp hnegated
      exact .inl ⟨rfl, rfl, rfl⟩
    | some negated =>
      have hleast : ¬ delta = Int64.minValue := by
        rw [← negWithin_eq_none, hnegated]
        nofun
      refine .inr ⟨decide_eq_false hleast, negated, toInt_of_negWithin hnegated, ?_⟩
      rw [Strings.subtract, hnegated]
      exact Strings.on_add hadmits hnumber
  | hincrBy key name version delta terms =>
    cases hcount
    cases hguard
    exact ⟨_, rfl, .inr ⟨rfl, delta, rfl, Hashes.on_add hsound hadmits hnumber⟩⟩
  | zincrBy key member version delta terms =>
    cases hcount
    cases hguard
    exact ⟨_, rfl, .inr ⟨rfl, delta, rfl, Rankings.on_add hsound hadmits hnumber⟩⟩
  | _ => cases hcount

/-- An admitted count tells the exact sum and stores it if the sum is a word, and otherwise
reports an overflow and changes nothing, exactly unless it takes the least word away from
a counter that is negative.  Taking the least word away is reported as an overflow always. -/
theorem count_exact_iff (hreachable : store.Reachable) (hcount : command.count? = some count)
    (hguard : command.guard? = some (count.counter.key, terms))
    (hadmits : count.counter.Admits context.now terms count.version store)
    (hnumber : (count.counter.read? context.now store).elim (some 0) Part.number? =
      some current) :
    (count.counter.Exact context.now count.version (current.toInt + count.amount) store
        (command.run context store) ↔
      ¬ (command.takesLeast = true ∧ current.toInt < 0)) ∧
    (command.takesLeast = true →
      command.run context store = (⟨.overflow, .number 0⟩, store)) := by
  obtain ⟨script, hscript, hrun⟩ :=
    script_of_admits hreachable.sound hcount hguard hadmits hnumber
  rw [run_of_reply hscript]
  rcases hrun with ⟨hleast, hamount, hrun⟩ | ⟨hleast, delta, hamount, hrun⟩
  · rw [hrun, hamount]
    simp only [blank_of_count? hcount, hleast, true_and, forall_const, and_true]
    rw [← isWord_sub_least]
    by_cases hword : IsWord (current.toInt + -Int64.minValue.toInt)
    · refine iff_of_false ?_ (not_not_intro hword)
      rw [Counter.Exact, if_pos hword]
      rintro ⟨total, _, hreply, _⟩
      cases hreply
    · refine iff_of_true ?_ hword
      rw [Counter.Exact, if_neg hword]
  · have hexact := hadmits.exact_outcome delta current
    rw [hrun, ← hamount]
    simp only [blank_of_count? hcount, hleast, Bool.false_eq_true, false_and, not_false_eq_true,
      iff_true, false_implies, and_true]
    generalize count.counter.outcome context.now count.version delta current store = outcome
      at hexact
    obtain ⟨total | status, after⟩ := outcome <;> exact hexact

/-- A string that holds 7 and has a deadline is counted down by 10, and it is left as it is
where the least word is to be taken away. -/
theorem count_exact_iff_seven :
    let context : Context := ⟨⟨5000⟩, .absolute⟩
    let store := (Store.empty.perform 0 (.put [107] ⟨[55], 1⟩ (some 9))).2
    let counter : Counter := .string [107]
    store.Reachable ∧ counter.Admits context.now {} 2 store ∧
      (counter.read? context.now store).elim (some 0) Part.number? = some 7 ∧
      counter.Exact context.now 2 (-3) store ((decrBy [107] 2 10 {}).run context store) ∧
      (decrBy [107] 2 Int64.minValue {}).run context store = (⟨.overflow, .number 0⟩, store) := by
  intro context store counter
  have hreachable : store.Reachable := Store.Reachable.empty.perform 0 _
  have hslot : store.live? context.now [107] = some ⟨.string ⟨[55], 1⟩, 1, some 9⟩ := by
    have hnow : context.now = 5 := by decide
    rw [hnow]
    rfl
  have hadmits : counter.Admits context.now {} 2 store := by
    refine ⟨rfl, by decide, rfl, fun slot hheld => ?_, by decide⟩
    rw [Option.mem_def, show counter.key = [107] from rfl, hslot] at hheld
    cases hheld
    rfl
  have hnumber : (counter.read? context.now store).elim (some 0) Part.number? = some 7 := by
    decide
  have hten : (decrBy [107] 2 10 {}).count? = some ⟨counter, 2, -10⟩ := rfl
  have hleast : (decrBy [107] 2 Int64.minValue {}).count? =
      some ⟨counter, 2, -Int64.minValue.toInt⟩ := rfl
  refine ⟨hreachable, hadmits, hnumber, ?_, ?_⟩
  · exact (count_exact_iff hreachable hten rfl hadmits hnumber).1.mpr (by decide)
  · exact (count_exact_iff hreachable hleast rfl hadmits hnumber).2 rfl

/-- To take the least word away from -1 leaves the greatest word, but it is reported as an
overflow. -/
theorem count_not_exact :
    ¬ ∀ (store : Store) (context : Context) (command : Command) (count : Count) (terms : Terms)
        (current : Int64), store.Reachable → command.count? = some count →
      command.guard? = some (count.counter.key, terms) →
      count.counter.Admits context.now terms count.version store →
      (count.counter.read? context.now store).elim (some 0) Part.number? = some current →
      count.counter.Exact context.now count.version (current.toInt + count.amount) store
        (command.run context store) := by
  intro hexact
  have hreachable : (Store.empty.perform 0 (.put [107] ⟨[45, 49], 1⟩ none)).2.Reachable :=
    Store.Reachable.empty.perform 0 _
  have hadmits : (Counter.string [107]).Admits 5 {} 2
      (Store.empty.perform 0 (.put [107] ⟨[45, 49], 1⟩ none)).2 := by
    refine ⟨rfl, by decide, rfl, ?_, rfl⟩
    rintro _ ⟨⟩
    rfl
  obtain ⟨total, _, hreply, _⟩ := hexact _ ⟨⟨5000⟩, .absolute⟩
    (decrBy [107] 2 Int64.minValue {}) ⟨.string [107], 2, -Int64.minValue.toInt⟩ {} (-1)
    hreachable rfl rfl hadmits (by decide)
  cases hreply

end Command

end Keyspace
