import Keyspace.Proofs.Independence
import Keyspace.Proofs.Numerals
import Keyspace.Proofs.Retry

/-!
# Tallies

A counter is a string, a field or the score of a member.  It starts out absent, and as
long as nothing but counts comes near its key it holds the sum of the counts that have
succeeded.  A count can be refused at any time, for its version, for its terms or because
the sum would leave its range, and then it leaves no trace.

There are four groups.

* Counters.  Where they are, what they hold at a total, and which commands count on them.
* Counts.  `Counter.Advances` says what a count does that succeeds: it adds to the number
  that it finds and writes the sum.  There is one lemma for each of the three kinds.
* Steps.  `Counter.Holds` says what a counter holds whenever it is looked at.  A step
  advances it or leaves it alone (`Counter.Holds.step`).
* Runs.  `Counter.Holds.runAll` is the induction over the steps.
-/

namespace Keyspace

variable {now : Millis} {store after : Store} {version : Version} {terms : Terms}
  {delta result : Int64} {amount : Int}

/-! ## Counters -/

/-- A cell that can be counted on. -/
inductive Counter where
  | string (key : Bytes)
  | field (key name : Bytes)
  | score (key member : Bytes)
  deriving DecidableEq, Repr

/-- A request to count. -/
structure Count where
  counter : Counter
  version : Version
  amount : Int
  deriving DecidableEq, Repr

namespace Counter

/-- The key under which a counter is kept. -/
def key : Counter → Bytes
  | string key => key
  | field key _ => key
  | score key _ => key

/-- The part of its key that a counter is. -/
def place : Counter → Place
  | string _ => .whole
  | field _ name => .field name
  | score _ member => .score member

/-- What a counter is at a total: strings and fields hold the numeral.  A string is all
that its key holds, and it has no deadline. -/
def part (counter : Counter) (total : Int64) (version : Version) : Part :=
  let numeral : Item := ⟨Decimal.ofInt total.toInt, version⟩
  match counter with
  | string _ => .whole ⟨.string numeral, version, none⟩
  | field _ _ => .field numeral
  | score _ _ => .score ⟨total, version⟩

/-- The write that brings a counter to a total. -/
def update (counter : Counter) (total : Int64) (version : Version) : Update :=
  let numeral : Item := ⟨Decimal.ofInt total.toInt, version⟩
  match counter with
  | string _ => .string numeral {} {}
  | field _ name => .field name numeral {}
  | score _ member => .score ⟨member, total, version⟩ {}

/-- What is found in a counter, which is nothing if it is absent or its key holds a value
of another kind. -/
def read? (counter : Counter) (now : Millis) (store : Store) : Option Part :=
  (store.live? now counter.key).bind fun slot =>
    if slot.content.kind = counter.place.kind then slot.part? counter.place else none

end Counter

/-- The request that a command makes if it is a command that counts.  What is counted
down counts as negative. -/
def Command.count? : Command → Option Count
  | incrBy key version delta _ => some ⟨.string key, version, delta.toInt⟩
  | decrBy key version delta _ => some ⟨.string key, version, -delta.toInt⟩
  | hincrBy key name version delta _ => some ⟨.field key name, version, delta.toInt⟩
  | zincrBy key member version delta _ => some ⟨.score key member, version, delta.toInt⟩
  | _ => none

/-- The number that a part stands for. -/
def Part.number? : Part → Option Int64
  | .whole slot =>
    match slot.content with
    | .string item => Decimal.int64? item.value
    | _ => none
  | .field item => Decimal.int64? item.value
  | .member _ => none
  | .score mark => some mark.score

namespace Counter

variable {counter : Counter} {total : Int64}

theorem place_update (counter : Counter) (total : Int64) (version : Version) :
    (counter.update total version).place = counter.place := by
  cases counter <;> rfl

theorem version_update (counter : Counter) (total : Int64) (version : Version) :
    (counter.update total version).version = version := by
  cases counter <;> rfl

theorem written_update (counter : Counter) (total : Int64) (version : Version) :
    (counter.update total version).written = counter.part total version := by
  cases counter <;> rfl

theorem read?_of_kind
    (h : ∀ slot ∈ store.live? now counter.key, slot.content.kind = counter.place.kind) :
    counter.read? now store = (store.live? now counter.key).bind (Slot.part? counter.place) := by
  unfold read?
  cases hslot : store.live? now counter.key with
  | none => rfl
  | some slot => exact if_pos (h slot hslot)

/-- A numeral that has been written is read as the number again. -/
theorem number?_part (counter : Counter) (total : Int64) (version : Version) :
    (counter.part total version).number? = some total := by
  cases counter with
  | score => rfl
  | _ => exact Decimal.int64?_ofInt total

end Counter

/-! ## Counts -/

section Counts

variable {key name : Bytes}

theorem toInt_of_addWithin {a b sum : Int64} (h : addWithin a b = some sum) :
    sum.toInt = a.toInt + b.toInt := by
  unfold addWithin at h
  dsimp only at h
  split at h
  · rename_i hrange
    cases h
    have hmost := Int64.toInt_maxValue
    have hleast := Int64.toInt_minValue
    exact Int64.toInt_ofInt_of_le (by omega) (by omega)
  · cases h

theorem toInt_of_negWithin {a negated : Int64} (h : negWithin a = some negated) :
    negated.toInt = -a.toInt := by
  unfold negWithin at h
  split at h
  · cases h
  · rename_i hleast
    cases h
    have hrange := a.le_toInt
    have hmost := a.toInt_lt
    have hne : a.toInt ≠ -2 ^ 63 := fun hsame => hleast (Int64.toInt.inj hsame)
    rw [Int64.toInt_neg]
    exact Int.bmod_eq_of_le (by omega) (by omega)

namespace Counter

/-- What a count does that succeeds: it adds to the number that it finds, or to 0 if the
counter is absent, and writes the sum over something older. -/
structure Advances (counter : Counter) (now : Millis) (amount : Int) (version : Version)
    (result : Int64) (store after : Store) : Prop where
  isOpen : store.closed = false
  takes : ∀ slot ∈ store.live? now counter.key, slot.content.Takes counter.place.kind
  newer : (counter.update result version).stale (store.live? now counter.key) = false
  sum : ∃ current, (counter.read? now store).elim (some 0) Part.number? = some current ∧
    result.toInt = current.toInt + amount
  kept : (store.perform now ((counter.update result version).call counter.key)).2 = after

/-- It is enough to know what the part of the counter held before the count. -/
theorem Advances.of_found {α : Type} {counter : Counter} {found : Option α} {asPart : α → Part}
    {current : Int64} (hready : store.Ready now counter.key counter.place.kind)
    (hkind : ∀ slot ∈ store.live? now counter.key, slot.content.kind = counter.place.kind)
    (hfound : (store.live? now counter.key).bind (Slot.part? counter.place) = found.map asPart)
    (hnewer : (found.map fun held => (asPart held).version).any (version ≤ ·) = false)
    (hnumber : found.elim (some 0) (fun held => (asPart held).number?) = some current)
    (hsum : addWithin current delta = some result)
    (hkept : (store.perform now ((counter.update result version).call counter.key)).2 = after) :
    counter.Advances now delta.toInt version result store after := by
  refine ⟨hready.isOpen, hready.takes, ?_, ⟨current, ?_, toInt_of_addWithin hsum⟩, hkept⟩
  · have hstale : (counter.update result version).found (store.live? now counter.key) =
        found.map asPart := by
      rw [Update.found, place_update, hfound]
    rw [Update.stale_eq _ rfl, hstale, Option.map_map, version_update]
    exact hnewer
  · rw [read?_of_kind hkind, hfound, Option.elim_map]
    exact hnumber

end Counter

theorem Strings.advances_of_add
    (hlasts : ∀ slot ∈ store.live? now key, slot.deadline = none)
    (h : (add key version delta terms).on now store = (.ok result, after)) :
    (Counter.string key).Advances now delta.toInt version result store after := by
  obtain ⟨_, hopen, hkind, hnewer, ⟨item?, current, hget, hnumber, hsum⟩, hput⟩ := added h
  have hfound : (store.live? now key).bind (Slot.part? .whole) =
      (store.live? now key).map .whole := by
    cases store.live? now key <;> rfl
  have hheld : (store.live? now key).elim (some 0) (fun slot => (Part.whole slot).number?) =
      some current := by
    rw [Store.perform, Store.view_open hopen] at hget
    cases hslot : store.live? now key with
    | none =>
      rw [hslot] at hget
      cases hget
      exact hnumber
    | some slot =>
      obtain ⟨content, stamp, deadline⟩ := slot
      rw [hslot] at hget
      cases content with
      | string item =>
        cases hget
        exact hnumber
      | _ => cases hget
  have hdeadline : (store.live? now key).bind Slot.deadline = none := by
    cases hslot : store.live? now key with
    | none => rfl
    | some slot => exact hlasts slot hslot
  rw [hdeadline] at hput
  exact .of_found ⟨hopen, fun slot _ => .string _⟩ hkind hfound hnewer hheld hsum
    (congrArg Prod.snd hput)

theorem Hashes.advances_of_add (hsound : store.Sound)
    (h : (add key name version delta terms).on now store = (.ok result, after)) :
    (Counter.field key name).Advances now delta.toInt version result store after := by
  obtain ⟨_, hready⟩ := ready_of_admitted hsound h
  obtain ⟨answer, hread, hfound⟩ := part_field hready.isOpen hready.takes name
  obtain ⟨stored, hstored, hnewer, hrest⟩ := of_read rfl h
  rw [hread] at hstored
  cases hstored
  have hkind : ∀ slot ∈ store.live? now key, slot.content.kind = .hash :=
    fun slot hslot => (hready.takes slot hslot).kind_eq nofun
  cases answer with
  | none =>
    obtain ⟨hsum, hkept⟩ := of_write hrest
    exact .of_found hready hkind hfound rfl rfl hsum hkept
  | some item =>
    obtain ⟨current, hnumber, hrest⟩ := Script.Calls.on_bind_eq_ok (.ofOption _) hrest
    obtain ⟨hsum, hkept⟩ := of_write hrest
    exact .of_found hready hkind hfound hnewer (value_of_ofOption hnumber) hsum hkept

theorem Rankings.advances_of_add (hsound : store.Sound)
    (h : (add key name version delta terms).on now store = (.ok result, after)) :
    (Counter.score key name).Advances now delta.toInt version result store after := by
  obtain ⟨_, hready⟩ := ready_of_admitted hsound h
  obtain ⟨answer, hread, hfound⟩ := part_mark hready.isOpen hready.takes name
  obtain ⟨stored, hstored, hnewer, hrest⟩ := of_read rfl h
  rw [hread] at hstored
  cases hstored
  obtain ⟨hsum, hkept⟩ := of_write hrest
  have hkind : ∀ slot ∈ store.live? now key, slot.content.kind = .zset :=
    fun slot hslot => (hready.takes slot hslot).kind_eq nofun
  cases answer with
  | none => exact .of_found hready hkind hfound rfl rfl hsum hkept
  | some mark => exact .of_found hready hkind hfound hnewer rfl hsum hkept

end Counts

namespace Command

variable {command : Command} {count : Count} {context : Context}

/-- A command that counts names the key of the counter and no other. -/
theorem keys_of_count? (h : command.count? = some count) :
    command.keys = [count.counter.key] := by
  cases command <;> cases h <;> rfl

/-- A command that counts replies with the result of a script that makes one call or none,
and that advances the counter if it succeeds. -/
theorem script_of_count? (hsound : store.Sound) (h : command.count? = some count)
    (hlasts : ∀ slot ∈ store.live? context.now count.counter.key, slot.deadline = none) :
    ∃ script : Script Status Int64, command.script context = reply script .number ∧
      script.Commits (fun _ => True) (· ≠ .ok) ∧
      ∀ result after, script.on context.now store = (.ok result, after) →
        count.counter.Advances context.now count.amount count.version result store after := by
  cases command with
  | incrBy key version delta terms =>
    cases h
    exact ⟨_, rfl, Strings.commits_add (fun _ _ => trivial) delta,
      fun _ _ hadd => Strings.advances_of_add hlasts hadd⟩
  | decrBy key version delta terms =>
    cases h
    refine ⟨_, rfl, Strings.commits_subtract (fun _ _ => trivial) delta, fun _ _ hsubtract => ?_⟩
    obtain ⟨negated, hnegated, hadd⟩ := Script.Calls.on_bind_eq_ok (.ofOption _) hsubtract
    rw [← toInt_of_negWithin (value_of_ofOption hnegated)]
    exact Strings.advances_of_add hlasts hadd
  | hincrBy key name version delta terms =>
    cases h
    exact ⟨_, rfl, Hashes.commits_add (fun _ => trivial) delta,
      fun _ _ hadd => Hashes.advances_of_add hsound hadd⟩
  | zincrBy key member version delta terms =>
    cases h
    exact ⟨_, rfl, Rankings.commits_add (fun _ => trivial) delta,
      fun _ _ hadd => Rankings.advances_of_add hsound hadd⟩
  | _ => cases h

/-- A count replies with the sum and advances its counter, or it is refused and leaves the
store as it is. -/
theorem run_of_count? (hsound : store.Sound) (h : command.count? = some count)
    (hlasts : ∀ slot ∈ store.live? context.now count.counter.key, slot.deadline = none) :
    (∃ result, (command.run context store).1 = ⟨.ok, .number result⟩ ∧
      count.counter.Advances context.now count.amount count.version result store
        (command.run context store).2) ∨
    (command.run context store).1.status ≠ .ok ∧ (command.run context store).2 = store := by
  obtain ⟨script, hscript, hcommits, hadvances⟩ := script_of_count? hsound h hlasts
  rw [run_of_reply hscript]
  cases hrun : script.on context.now store with
  | mk ending after =>
    cases ending with
    | ok result => exact .inl ⟨result, rfl, hadvances result after hrun⟩
    | error status => exact .inr ⟨hcommits.run_error hrun, hcommits.snd_of_error hrun⟩

end Command

/-! ## Steps -/

namespace Counter

variable {counter : Counter} {moments : Millis → Prop} {slot? : Option Slot}

/-- A total, and the version at which it was reached. -/
structure Total where
  value : Int64
  version : Version

/-- Whether a counter is at a total, or absent, whenever it is looked at, and its key has no
deadline. -/
structure Holds (counter : Counter) (moments : Millis → Prop) (total? : Option Total)
    (store : Store) : Prop where
  read : ∀ now, moments now →
    counter.read? now store = total?.map fun total => counter.part total.value total.version
  lasts : ∀ now, moments now → ∀ slot ∈ store.live? now counter.key, slot.deadline = none

/-- The value of a counter, which is 0 if it is absent. -/
def valueOf (total? : Option Total) : Int :=
  total?.elim 0 fun total => total.value.toInt

/-- Whether a step leaves a counter to those who count on it: it counts on it at one of the
moments, or it is about other keys. -/
def Minds (counter : Counter) (moments : Millis → Prop) (step : Step) : Prop :=
  step.command.count?.map Count.counter = some counter ∧ moments step.now ∨
    step.command ≠ .finalize ∧ counter.key ∉ step.command.keys

/-- The count that a step has made on a counter and what it was told, if it has succeeded. -/
def counted? (counter : Counter) (step : Step) (reply : Reply) : Option (Count × Data) :=
  step.command.count?.bind fun count =>
    if count.counter = counter ∧ reply.status = .ok then some (count, reply.data) else none

/-- The counts on a counter that have succeeded, with their replies. -/
def counted (counter : Counter) (steps : List Step) (replies : List Reply) :
    List (Count × Data) :=
  (steps.zip replies).filterMap fun (step, reply) => counter.counted? step reply

variable {total? : Option Total}

/-- The sum of what has been counted. -/
def sumOf : List (Count × Data) → Int
  | [] => 0
  | (count, _) :: rest => count.amount + sumOf rest

theorem Holds.of_slots (h : counter.Holds moments total? store)
    (hsame : after.slots[counter.key]? = store.slots[counter.key]?) :
    counter.Holds moments total? after := by
  have hlive : ∀ now, after.live? now counter.key = store.live? now counter.key :=
    fun now => Store.live?_congr hsame
  refine ⟨fun now hnow => ?_, fun now hnow => ?_⟩
  · rw [read?, hlive]
    exact h.read now hnow
  · rw [hlive]
    exact h.lasts now hnow

/-- The write to a counter sets no deadline. -/
theorem deadline_put (counter : Counter) (h : ∀ slot ∈ slot?, slot.deadline = none)
    (total : Int64) (version : Version) :
    ((counter.update total version).put slot?).deadline = none := by
  cases slot? with
  | none => cases counter <;> rfl
  | some slot =>
    cases counter with
    | string => rfl
    | field => exact h slot rfl
    | score => exact h slot rfl

/-- The write to a counter leaves a value of its kind. -/
theorem kind_put {total : Int64}
    (h : ∀ slot ∈ slot?, slot.content.Takes (counter.update total version).kind) :
    ((counter.update total version).put slot?).content.kind = counter.place.kind := by
  cases counter with
  | string => cases slot? <;> rfl
  | field => exact (Update.takes_put h).kind_eq nofun
  | score => exact (Update.takes_put h).kind_eq nofun

/-- The number that is found in a counter is its value. -/
theorem Holds.toInt_of_read (h : counter.Holds moments total? store) (hnow : moments now)
    {current : Int64}
    (hread : (counter.read? now store).elim (some 0) Part.number? = some current) :
    current.toInt = valueOf total? := by
  rw [h.read now hnow] at hread
  cases total? with
  | none =>
    cases hread
    rfl
  | some total =>
    have hnumber : (counter.part total.value total.version).number? = some current := hread
    rw [number?_part, Option.some.injEq] at hnumber
    exact congrArg Int64.toInt hnumber.symm

/-- A count that succeeds adds to the value of the counter, which holds the sum from then
on. -/
theorem Holds.advance (h : counter.Holds moments total? store) (hnow : moments now)
    (hadvances : counter.Advances now amount version result store after) :
    result.toInt = valueOf total? + amount ∧
      counter.Holds moments (some ⟨result, version⟩) after := by
  obtain ⟨hopen, htakes, hnewer, ⟨current, hread, hsum⟩, rfl⟩ := hadvances
  have hplace := place_update counter result version
  have htakes' : ∀ slot ∈ store.live? now counter.key,
      slot.content.Takes (counter.update result version).kind := by
    rw [Update.kind, hplace]
    exact htakes
  have hkept := Update.getElem?_call hopen htakes'
  have hdeadline := deadline_put counter (h.lasts now hnow) result version
  have hpart := Update.part?_put htakes' hnewer
  rw [hplace, written_update] at hpart
  have hlive : ∀ later, (store.perform now ((counter.update result version).call
      counter.key)).2.live? later counter.key =
        some ((counter.update result version).put (store.live? now counter.key)) := by
    intro later
    rw [Store.live?_eq, hkept, Slot.live?_some, Slot.isExpired, hdeadline]
    rfl
  refine ⟨h.toInt_of_read hnow hread ▸ hsum, fun later _ => ?_, fun later _ slot hslot => ?_⟩
  · rw [read?, hlive later]
    exact (if_pos (kind_put htakes')).trans hpart
  · rw [hlive later] at hslot
    cases hslot
    exact hdeadline

/-- A step advances the counter and is told the sum, or it has counted nothing there and the
counter is at the same total. -/
theorem Holds.step {step : Step} (h : counter.Holds moments total? store) (hsound : store.Sound)
    (hminds : counter.Minds moments step) :
    (∃ count result, counter.counted? step (step.run store).1 = some (count, .number result) ∧
      result.toInt = valueOf total? + count.amount ∧
      counter.Holds moments (some ⟨result, count.version⟩) (step.run store).2) ∨
    counter.counted? step (step.run store).1 = none ∧
      counter.Holds moments total? (step.run store).2 := by
  rcases hminds with ⟨hcounts, hnow⟩ | ⟨hfinalize, hkey⟩
  · obtain ⟨count, hcount, rfl⟩ := Option.map_eq_some_iff.mp hcounts
    rcases Command.run_of_count? hsound hcount (h.lasts step.now hnow) with
      ⟨result, hreply, hadvances⟩ | ⟨hrefused, hsame⟩
    · obtain ⟨hsum, hholds⟩ := h.advance hnow hadvances
      refine .inl ⟨count, result, ?_, hsum, hholds⟩
      have hreply : (step.run store).1 = ⟨.ok, .number result⟩ := hreply
      rw [counted?, hcount, hreply]
      exact if_pos ⟨rfl, rfl⟩
    · refine .inr ⟨?_, ?_⟩
      · rw [counted?, hcount]
        exact if_neg fun hboth => hrefused hboth.2
      · have hsame : (step.run store).2 = store := hsame
        rwa [hsame]
  · refine .inr ⟨?_, h.of_slots (Command.getElem?_run_of_not_mem hfinalize hkey)⟩
    cases hcount : step.command.count? with
    | none => rw [counted?, hcount]; rfl
    | some count =>
      rw [counted?, hcount]
      refine if_neg fun hboth => hkey ?_
      rw [Command.keys_of_count? hcount, ← hboth.1]
      exact List.mem_singleton_self _

/-! ## Runs -/

/-- Steps that mind a counter take it from one total to another one.  The counts that
succeed are told the running total, and the last one of them leaves its version. -/
theorem Holds.run {steps : List Step} (h : counter.Holds moments total? store)
    (hreachable : store.Reachable)
    (hsteps : ∀ step ∈ steps, counter.Minds moments step) :
    let counted := counter.counted steps (runAll steps store).1
    (∀ j (hj : j < counted.length), ∃ result : Int64, counted[j].2 = .number result ∧
      result.toInt = valueOf total? + sumOf (counted.take (j + 1))) ∧
    ∃ final? : Option Total, counter.Holds moments final? (runAll steps store).2 ∧
      valueOf final? = valueOf total? + sumOf counted ∧
      final?.map Total.version =
        (counted.getLast?.map fun entry => entry.1.version).or (total?.map Total.version) := by
  induction steps generalizing store total? with
  | nil =>
    refine ⟨fun j hj => absurd hj (Nat.not_lt_zero j), total?, h, ?_, rfl⟩
    exact (Int.add_zero _).symm
  | cons step rest ih =>
    have hminds := hsteps step List.mem_cons_self
    have hrest := fun other hother => hsteps other (List.mem_cons_of_mem step hother)
    have hreachable' := hreachable.run step.context step.command
    rw [runAll_cons]
    rcases h.step hreachable.sound hminds with
      ⟨count, result, hcounted, hsum, hholds⟩ | ⟨hcounted, hholds⟩
    · obtain ⟨hreplies, final?, hfinal, hvalue, hversion⟩ := ih hholds hreachable' hrest
      have hcons : counter.counted (step :: rest)
          ((step.run store).1 :: (runAll rest (step.run store).2).1) =
          (count, .number result) :: counter.counted rest (runAll rest (step.run store).2).1 :=
        List.filterMap_cons_some hcounted
      have hbetween : valueOf (some ⟨result, count.version⟩) = valueOf total? + count.amount := hsum
      rw [hbetween] at hreplies hvalue
      rw [hcons]
      refine ⟨fun j hj => ?_, final?, hfinal, ?_, ?_⟩
      · cases j with
        | zero =>
          refine ⟨result, rfl, ?_⟩
          rw [List.take_succ_cons, List.take_zero, sumOf, sumOf, Int.add_zero, hsum]
        | succ j =>
          obtain ⟨told, htold, hrunning⟩ := hreplies j (Nat.lt_of_succ_lt_succ hj)
          refine ⟨told, htold, ?_⟩
          rw [List.take_succ_cons, sumOf, hrunning, Int.add_assoc]
      · rw [hvalue, sumOf, Int.add_assoc]
      · rw [hversion, List.getLast?_cons]
        cases (counter.counted rest (runAll rest (step.run store).2).1).getLast? <;> rfl
    · have hcons : counter.counted (step :: rest)
          ((step.run store).1 :: (runAll rest (step.run store).2).1) =
          counter.counted rest (runAll rest (step.run store).2).1 :=
        List.filterMap_cons_none hcounted
      rw [hcons]
      exact ih hholds hreachable' hrest

/-- A counter that starts out absent holds the sum of the counts that have succeeded, at the
version of the last one, or is still absent if there is none; and each of them was told the
sum of those up to it.  The clock may go any way, as long as the counter is absent and its key
is without a deadline at all the moments in question. -/
theorem counts_add_up (hreachable : store.Reachable) (counter : Counter)
    (moments : Millis → Prop)
    (habsent : ∀ now, moments now → counter.read? now store = none)
    (hlasts : ∀ now, moments now → ∀ slot ∈ store.live? now counter.key, slot.deadline = none)
    {steps : List Step} (hsteps : ∀ step ∈ steps, counter.Minds moments step) :
    let counted := counter.counted steps (runAll steps store).1
    (∀ j (hj : j < counted.length), ∃ total : Int64, counted[j].2 = .number total ∧
      total.toInt = sumOf (counted.take (j + 1))) ∧
    match counted.getLast? with
    | none => ∀ now, moments now → counter.read? now (runAll steps store).2 = none
    | some last => ∃ total : Int64, total.toInt = sumOf counted ∧
        ∀ now, moments now →
          counter.read? now (runAll steps store).2 = some (counter.part total last.1.version) := by
  have hstart : counter.Holds moments none store := ⟨habsent, hlasts⟩
  obtain ⟨hreplies, final?, hfinal, hvalue, hversion⟩ := hstart.run hreachable hsteps
  have hzero : valueOf none = 0 := rfl
  simp only [hzero, Int.zero_add] at hreplies hvalue
  refine ⟨hreplies, ?_⟩
  cases hlast : (counter.counted steps (runAll steps store).1).getLast? with
  | none =>
    rw [hlast] at hversion
    obtain rfl := Option.map_eq_none_iff.mp hversion
    exact hfinal.read
  | some entry =>
    rw [hlast] at hversion
    obtain ⟨total, rfl, hlatest⟩ := Option.map_eq_some_iff.mp hversion
    have hlatest : total.version = entry.1.version := hlatest
    refine ⟨total.value, hvalue, fun now hnow => ?_⟩
    rw [hfinal.read now hnow, ← hlatest]
    rfl

/-- A counter that is counted up and then down, with a refusal and another key in between. -/
theorem counts_add_up_twice :
    let counter : Counter := .string [107]
    let steps : List Step :=
      [⟨⟨⟨9000⟩, .absolute⟩, .incr [107] 1 {}⟩, ⟨⟨⟨50⟩, .absolute⟩, .set [108] ⟨[120], 1⟩ {} {}⟩,
        ⟨⟨⟨20⟩, .absolute⟩, .decrBy [107] 1 5 {}⟩, ⟨⟨⟨7000⟩, .absolute⟩, .decrBy [107] 3 5 {}⟩]
    (∀ step ∈ steps, counter.Minds (fun _ => True) step) ∧
      (∀ now, counter.read? now .empty = none) ∧
      (counter.counted steps (runAll steps .empty).1).map Prod.snd = [.number 1, .number (-4)] ∧
      ∀ now, counter.read? now (runAll steps .empty).2 = some (counter.part (-4) 3) := by
  intro counter steps
  have hminds : ∀ step ∈ steps, counter.Minds (fun _ => True) step := by
    simp only [steps, List.forall_mem_cons]
    exact ⟨.inl ⟨rfl, trivial⟩, .inr ⟨nofun, by decide⟩, .inl ⟨rfl, trivial⟩,
      .inl ⟨rfl, trivial⟩, List.forall_mem_nil _⟩
  have hlive : ∀ now, Store.empty.live? now counter.key = none := fun now => rfl
  have habsent : ∀ now, counter.read? now .empty = none := fun now => by rw [read?, hlive]; rfl
  have hlasts : ∀ now, ∀ slot ∈ Store.empty.live? now counter.key, slot.deadline = none := by
    intro now slot hslot
    rw [hlive] at hslot
    cases hslot
  have hlast : (counter.counted steps (runAll steps .empty).1).getLast? =
      some (⟨counter, 3, -5⟩, .number (-4)) := by
    decide
  have hsum : sumOf (counter.counted steps (runAll steps .empty).1) = -4 := by
    decide
  obtain ⟨_, hfinal⟩ := counts_add_up Store.Reachable.empty counter (fun _ => True)
    (fun now _ => habsent now) (fun now _ => hlasts now) hminds
  rw [hlast, hsum] at hfinal
  obtain ⟨total, htotal, hread⟩ := hfinal
  obtain rfl : total = -4 := Int64.toInt.inj htotal
  exact ⟨hminds, habsent, by decide, fun now => hread now trivial⟩

end Counter

end Keyspace
