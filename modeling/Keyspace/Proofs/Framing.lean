import Keyspace.Proofs.Finality
import Keyspace.Proofs.Versions

/-!
# What a command leaves of a key

A command that a key survives has left its deadline and its kind as they were, but
for a few commands that are there to change them.  More than one mechanism sees to
that: a counter is put as a whole, with a deadline that has been read before; the parts
of a collection are changed in place; and a key that has gone is made anew without a
deadline, so a command that takes keys away must not make them again.

There are four groups.

* The exceptions.  `Command.redated` lists the keys to which a command may give
  another deadline, and `Command.retyped` those to which it may give another kind.
* Runs.  What every call of a command keeps of the live slot of a key, the command
  keeps (`Command.live?_run_of_effect`).  Commands that only add to a collection never
  find it gone (`Command.framed_of_grows`); the others make no key anew
  (`Command.Footprint.stamp?_eq_none`).
* Strings.  A counter is put with the deadline that it has (`Strings.framed_add`), and
  an exchange ends early where there is something other than a string
  (`Strings.kind_exchange`).
* The frame.  `Command.framed_run` is the assembly.
-/

namespace Keyspace

/-! ## The exceptions -/

namespace Command

/-- The keys to which a command may give another deadline. -/
def redated : Command → List Bytes
  | set key .. | setEx key .. | setWith key .. | getSet key .. | expire key .. | persist key _ =>
    [key]
  | mset items .. => items.map Prod.fst
  | rename _ target .. => [target]
  | _ => []

/-- The keys to which a command may give a value of another kind. -/
def retyped : Command → List Bytes
  | set key .. | setEx key .. | setWith key .. => [key]
  | mset items .. => items.map Prod.fst
  | rename _ target .. => [target]
  | _ => []

end Command

/-! ## Runs -/

variable {store : Store} {now : Millis} {key : Bytes}

/-- What every call of a command keeps of what is live under a key, the command
keeps. -/
theorem Command.live?_run_of_effect {S : Option Slot → Prop} {command : Command}
    {context : Context} (hcommand : command ≠ .finalize)
    (hstart : S (store.live? context.now key))
    (hstep : ∀ c, command.Footprint c → c.key? = some key → ∀ slot?,
      S slot? → S (Slot.live? context.now (c.effect slot?))) :
    S ((command.run context store).2.live? context.now key) := by
  have hcall : ∀ c, command.Footprint c → ∀ other : Store, S (other.live? context.now key) →
      S ((other.perform context.now c).2.live? context.now key) := by
    intro c hc other hother
    cases hclosed : other.closed with
    | true =>
      rw [Store.perform_closed hclosed]
      exact hother
    | false =>
      have hclose : c ≠ .close := fun hsame => hcommand (Footprint.eq_finalize (hsame ▸ hc))
      rw [Store.live?_perform hclosed hclose]
      split
      · rename_i hkey
        exact hstep c hc hkey _ hother
      · exact hother
  exact Script.Calls.preserves_on hcall (script_calls context command) hstart

/-- Whether two slots have the same deadline and values of the same kind. -/
structure Slot.Framed (old new : Slot) : Prop where
  deadline : new.deadline = old.deadline
  kind : new.content.kind = old.content.kind

theorem Slot.Framed.amends {old slot next : Slot} {version : Version} (h : old.Framed slot)
    (hamends : Amends version slot next) : old.Framed next :=
  ⟨hamends.deadline.trans h.deadline, hamends.kind.trans h.kind⟩

theorem Slot.Framed.refl {slot : Slot} : slot.Framed slot :=
  ⟨rfl, rfl⟩

namespace Command

variable {command : Command} {context : Context} {old new : Slot} {c : Call}

/-- A command that adds to collections keeps the frame of a live key, for it never
takes the key away and so never makes it anew. -/
theorem framed_of_grows (hgrows : command.grows = true)
    (hold : store.live? context.now key = some old)
    (hnew : (command.run context store).2.live? context.now key = some new) : old.Framed new := by
  have hcommand : command ≠ .finalize := by
    rintro rfl
    cases hgrows
  let S (slot? : Option Slot) : Prop :=
    ∃ slot, slot? = some slot ∧ slot.isExpired context.now = false ∧ old.Framed slot
  have hstart : S (store.live? context.now key) :=
    ⟨old, hold, (Store.live?_eq_some.mp hold).2, .refl⟩
  obtain ⟨slot, hslot, -, hframed⟩ :
      S ((command.run context store).2.live? context.now key) := by
    refine live?_run_of_effect hcommand hstart ?_
    rintro c hc - _ ⟨slot, rfl, hlive, hframed⟩
    obtain ⟨next, hnext, hlive⟩ := hc.keeps hgrows slot hlive
    have hsets : c.setsDeadline = false := by
      rcases hc.reads_or_grows hgrows with hreads | hgrows
      · exact Call.setsDeadline_of_reads hreads
      · exact Call.setsDeadline_of_grows hgrows
    exact ⟨next, Slot.live?_eq_some.mpr ⟨hnext, hlive⟩, hlive,
      hframed.amends (Call.amends_of_effect hsets hnext)⟩
  rw [hnew] at hslot
  cases hslot
  exact hframed

/-- What a command keeps of a slot that it does not make anew. -/
theorem kept_of_effect {p : Slot → Prop} (hcommand : command ≠ .finalize)
    (hold : ∀ slot, store.live? context.now key = some slot → p slot)
    (hstamp : ∀ c, command.Footprint c → c.key? = some key → c.stamp? = none)
    (hstep : ∀ c, command.Footprint c → c.key? = some key → ∀ slot next,
      p slot → c.effect (some slot) = some next → p next)
    (hnew : (command.run context store).2.live? context.now key = some new) : p new := by
  let S (slot? : Option Slot) : Prop := ∀ slot, slot? = some slot → p slot
  have hkept : S ((command.run context store).2.live? context.now key) := by
    refine live?_run_of_effect hcommand hold fun c hc hkey slot? hslot next hnext => ?_
    obtain ⟨heffect, -⟩ := Slot.live?_eq_some.mp hnext
    cases slot? with
    | none =>
      have hmade := Call.stamp?_of_effect_none heffect
      rw [hstamp c hc hkey] at hmade
      cases hmade
    | some slot => exact hstep c hc hkey slot next (hslot slot rfl) heffect
  exact hkept new hnew

/-- The key of a counter that a command rewrites. -/
def rewrites? : Command → Option Bytes
  | incrBy key .. | decrBy key .. => key
  | _ => none

/-- Any other command makes a key anew or sets its deadline only if that deadline is
its to give. -/
theorem Footprint.stamp?_eq_none (h : command.Footprint c) (hkey : c.key? = some key)
    (hredated : key ∉ command.redated) (hgrows : command.grows = false)
    (hrewrites : command.rewrites? ≠ some key) : c.setsDeadline = false ∧ c.stamp? = none := by
  cases command with
  | rename source target version onlyIfAbsent =>
    have htarget : key ≠ target := fun hsame => hredated (List.mem_singleton.mpr hsame)
    rcases h with hsource | htargets
    · rcases hsource with rfl | rfl | rfl | rfl | rfl | ⟨_, _, rfl⟩ | rfl <;> exact ⟨rfl, rfl⟩
    · rcases htargets with rfl | rfl | ⟨_, _, rfl⟩ | ⟨_, _, rfl⟩ | ⟨_, _, rfl⟩ | ⟨_, _, _, rfl⟩ |
        ⟨_, rfl⟩ <;> exact absurd (Option.some.inj hkey).symm htarget
  | _ =>
    simp only [Footprint, redated, grows, rewrites?] at *
    grind [Call.key?, Call.setsDeadline, Call.stamp?]

end Command

/-! ## Strings -/

namespace Strings

variable {old new : Slot} {item : Item} {deadline : Option Millis} {version : Version}
  {terms : Terms}

/-- A script that puts one string under a live key leaves the slot that was there or
the string with its deadline. -/
theorem live?_of_commits {α : Type} {Q : Status → Prop} {script : Script Status α}
    (h : script.Commits (· = .put key item deadline) Q) (hopen : store.closed = false)
    (hold : store.live? now key = some old)
    (hnew : (script.on now store).2.live? now key = some new) :
    new = old ∨ new.content.kind = .string ∧ new.deadline = deadline := by
  rcases h.run_eq now store with hnothing | ⟨_, rfl, hput⟩
  · rw [hnothing, hold] at hnew
    exact .inl (Option.some.inj hnew).symm
  · rw [hput, Store.live?_perform_self hopen rfl] at hnew
    obtain ⟨heffect, -⟩ := Slot.live?_eq_some.mp hnew
    cases heffect
    exact .inr ⟨rfl, rfl⟩

/-- A counter keeps the deadline that it has. -/
theorem framed_add {delta : Int64} (hold : store.live? now key = some old)
    (hnew : ((add key version delta terms).on now store).2.live? now key = some new) :
    old.Framed new := by
  let p (run : Except Status Int64 × Store) : Prop :=
    run.2.live? now key = some new → old.Framed new
  have hrefused : ∀ reason : Status, reason ≠ .ok → p (.error reason, store) := by
    intro reason _ hsame
    rw [hold] at hsame
    cases hsame
    exact .refl
  suffices hrun : p ((add key version delta terms).on now store) from hrun hnew
  -- whatever is refused before the string is put leaves the slot that was there
  refine (asks_requireVersion common_ne_ok.error).on_bind hrefused fun _ _ => ?_
  refine (asks_checkKind common_ne_ok .string).on_bind hrefused fun found hfound => ?_
  obtain ⟨hrecord, -, hkind⟩ := record_of_checkKind hfound
  obtain ⟨hopen, hfound⟩ := Store.record_eq_ok.mp hrecord
  rw [hold] at hfound
  subst hfound
  refine (asks_requireNewer common_ne_ok.versionMismatch _).on_bind hrefused fun _ _ => ?_
  refine (Script.Asks.query common_ne_ok.failure rfl).on_bind hrefused fun item? _ => ?_
  have hput : ∀ current, p ((do
      let next ← Script.ofOption .overflow (addWithin current delta)
      query (.put key ⟨Decimal.ofInt next.toInt, version⟩ old.deadline)
      return next : Script Status Int64).on now store) := by
    intro current
    refine (Script.Asks.ofOption (by decide) _).on_bind hrefused fun next _ hnew => ?_
    have hquery : (query (.put key ⟨Decimal.ofInt next.toInt, version⟩ old.deadline)).Commits
        (· = .put key ⟨Decimal.ofInt next.toInt, version⟩ old.deadline) (· ≠ .ok) :=
      .query common_ne_ok.failure rfl
    rcases live?_of_commits (hquery.map fun _ => next) hopen hold hnew with rfl | ⟨hstring, hkept⟩
    · exact .refl
    · exact ⟨hkept, hstring.trans (of_decide_eq_true hkind).symm⟩
  cases item? with
  | none => exact hput 0
  | some item =>
    exact (Script.Asks.ofOption (by decide) _).on_bind hrefused fun current _ => hput current

theorem framed_subtract {delta : Int64} (hold : store.live? now key = some old)
    (hnew : ((subtract key version delta terms).on now store).2.live? now key = some new) :
    old.Framed new := by
  cases hneg : negWithin delta with
  | none =>
    rw [subtract, hneg] at hnew
    change store.live? now key = some new at hnew
    rw [hold] at hnew
    cases hnew
    exact .refl
  | some negated =>
    rw [subtract, hneg] at hnew
    exact framed_add hold hnew

/-- An exchange that goes on has found a string or nothing. -/
theorem kind_exchange (hold : store.live? now key = some old)
    (hnew : ((exchange key item terms).on now store).2.live? now key = some new) :
    new.content.kind = old.content.kind := by
  let p (run : Except Status Item × Store) : Prop :=
    run.2.live? now key = some new → new.content.kind = old.content.kind
  have hrefused : ∀ reason : Status, reason ≠ .ok → p (.error reason, store) := by
    intro reason _ hsame
    rw [hold] at hsame
    cases hsame
    rfl
  suffices hrun : p ((exchange key item terms).on now store) from hrun hnew
  refine (asks_requireVersion common_ne_ok.error).on_bind hrefused fun _ _ => ?_
  refine (Script.Asks.query common_ne_ok.failure rfl).on_bind hrefused fun found hfound hnew => ?_
  have hget : store.view now key none (fun slot => some <$> slot.string) = .ok found :=
    congrArg Prod.fst (Script.on_query_eq_ok hfound)
  cases hclosed : store.closed with
  | true =>
    rw [Store.view_closed hclosed] at hget
    cases hget
  | false =>
    rw [Store.view_open hclosed, hold] at hget
    change some <$> old.string = .ok found at hget
    have hstring : old.content.kind = .string := by
      cases hcontent : old.content with
      | string => rfl
      | _ =>
        rw [Slot.string, hcontent] at hget
        cases hget
    have hstore : (Strings.store key item terms {}).Commits (· = .put key item none) (· ≠ .ok) :=
      commits_store rfl
    rcases live?_of_commits (hstore.map fun _ => found.getD .empty) hclosed hold hnew with
      rfl | ⟨hkind, -⟩
    · rfl
    · rw [hkind, hstring]

end Strings

/-! ## The frame -/

namespace Command

variable {command : Command} {context : Context} {old new : Slot}

/-- Closing takes all keys away. -/
theorem framed_finalize (hold : store.live? context.now key = some old)
    (hnew : (finalize.run context store).2.live? context.now key = some new) :
    old.Framed new := by
  cases hclosed : store.closed with
  | true =>
    rw [run_closed hclosed, hold] at hnew
    cases hnew
    exact .refl
  | false =>
    rw [run_finalize hclosed] at hnew
    cases hnew

/-- A command leaves the deadline and the kind of a key to which it gives no other
deadline, or it takes the key away. -/
theorem framed_of_not_mem (hredated : key ∉ command.redated)
    (hold : store.live? context.now key = some old)
    (hnew : (command.run context store).2.live? context.now key = some new) : old.Framed new := by
  by_cases hfinal : command = .finalize
  · subst hfinal
    exact framed_finalize hold hnew
  by_cases hrewrites : command.rewrites? = some key
  · -- the string is put with a deadline, so the calls alone do not show that it is the old one
    cases command with
    | incrBy key version delta terms =>
      cases hrewrites
      rw [run_of_reply (by rfl)] at hnew
      exact Strings.framed_add hold hnew
    | decrBy key version delta terms =>
      cases hrewrites
      rw [run_of_reply (by rfl)] at hnew
      exact Strings.framed_subtract hold hnew
    | _ => cases hrewrites
  cases hgrows : command.grows with
  | true => exact framed_of_grows hgrows hold hnew
  | false =>
    have hcalls : ∀ c, command.Footprint c → c.key? = some key →
        c.setsDeadline = false ∧ c.stamp? = none :=
      fun c hc hkey => hc.stamp?_eq_none hkey hredated hgrows hrewrites
    refine kept_of_effect hfinal ?_ (fun c hc hkey => (hcalls c hc hkey).2) ?_ hnew
    · intro slot hslot
      rw [hold] at hslot
      cases hslot
      exact .refl
    · intro c hc hkey slot next hframed hnext
      exact hframed.amends (Call.amends_of_effect (hcalls c hc hkey).1 hnext)

/-- Calls that make no key anew and put no string keep the kind of a key. -/
theorem kind_of_calls (hfinal : command ≠ .finalize)
    (hold : store.live? context.now key = some old)
    (hnew : (command.run context store).2.live? context.now key = some new)
    (hcalls : ∀ c, command.Footprint c → c.stamp? = none) :
    new.content.kind = old.content.kind := by
  let p (slot : Slot) : Prop := slot.content.kind = old.content.kind
  refine kept_of_effect (p := p) hfinal ?_ (fun c hc _ => hcalls c hc) ?_ hnew
  · intro slot hslot
    rw [hold] at hslot
    cases hslot
    rfl
  · intro c hc _ slot next hkind hnext
    cases hsets : c.setsDeadline with
    | false => exact (Call.amends_of_effect hsets hnext).kind.trans hkind
    | true =>
      have hstamp := hcalls c hc
      cases c with
      | setDeadline key deadline version =>
        cases hnext
        exact (Slot.kind_reschedule slot deadline version).trans hkind
      | put => cases hstamp
      | _ => cases hsets

/-- A command leaves the kind of a key to which it gives no value of another kind, or
it takes the key away. -/
theorem kind_of_not_mem (hretyped : key ∉ command.retyped)
    (hold : store.live? context.now key = some old)
    (hnew : (command.run context store).2.live? context.now key = some new) :
    new.content.kind = old.content.kind := by
  by_cases hredated : key ∈ command.redated
  · have hfinal : command ≠ .finalize := by
      rintro rfl
      cases hredated
    cases command with
    | getSet other item terms =>
      cases List.mem_singleton.mp hredated
      rw [run_of_reply (by rfl)] at hnew
      exact Strings.kind_exchange hold hnew
    | expire other ttl unit version =>
      refine kind_of_calls hfinal hold hnew fun c hc => ?_
      rcases hc with rfl | ⟨_, rfl⟩ <;> rfl
    | persist other version =>
      refine kind_of_calls hfinal hold hnew fun c hc => ?_
      rcases hc with rfl | rfl <;> rfl
    | _ => exact absurd hredated hretyped
  · exact (framed_of_not_mem hredated hold hnew).kind

/-- Only some commands can move the deadline of a key that lives before and after
them or change its kind, and only where they name the key for that.  All others, the
counters and what writes to a part of a collection or removes one, keep both. -/
theorem framed_run (hold : store.live? context.now key = some old)
    (hnew : (command.run context store).2.live? context.now key = some new) :
    (new.deadline ≠ old.deadline → key ∈ command.redated) ∧
    (new.content.kind ≠ old.content.kind → key ∈ command.retyped) ∧
    (key ∉ command.redated →
      new.deadline = old.deadline ∧ new.content.kind = old.content.kind) := by
  refine ⟨fun hmoved => ?_, fun hchanged => ?_, fun hredated => ?_⟩
  · exact Decidable.byContradiction fun hredated =>
      hmoved (framed_of_not_mem hredated hold hnew).deadline
  · exact Decidable.byContradiction fun hretyped =>
      hchanged (kind_of_not_mem hretyped hold hnew)
  · have hframed := framed_of_not_mem hredated hold hnew
    exact ⟨hframed.deadline, hframed.kind⟩

/-- A member is put into a set that has a deadline and taken out of it again. -/
theorem framed_run_set :
    let context : Context := ⟨⟨9000⟩, .absolute⟩
    let key : Bytes := [115]
    let store := ((Store.empty.perform 0 (.addMember key [97] 1)).2.perform 0
      (.setDeadline key (some 20) 1)).2
    let added := ((Command.sadd key [⟨[98], 2⟩] {}).run context store).2
    let command : Command := .srem key [⟨[97], 3⟩, ⟨[97], 4⟩] {}
    ∃ old new, added.live? context.now key = some old ∧
      (command.run context added).2.live? context.now key = some new ∧
      old.deadline = some 20 ∧ key ∉ command.redated ∧
      new.deadline = old.deadline ∧ new.content.kind = old.content.kind := by
  intro context key store added command
  obtain ⟨old, hold⟩ := Option.isSome_iff_exists.mp
    (show (added.live? context.now key).isSome by decide)
  obtain ⟨new, hnew⟩ := Option.isSome_iff_exists.mp
    (show ((command.run context added).2.live? context.now key).isSome by decide)
  have hdeadline : (added.live? context.now key).map Slot.deadline = some (some 20) := by decide
  rw [hold] at hdeadline
  obtain ⟨-, -, hkept⟩ := framed_run hold hnew
  exact ⟨old, new, hold, hnew, Option.some.inj hdeadline, List.not_mem_nil,
    hkept List.not_mem_nil⟩

end Command

end Keyspace
