import Keyspace.Proofs.Agenda
import Keyspace.Proofs.Leftovers

/-!
# Independence

Commands that name different keys do not get in each other's way.  This module
proves that two of them may run in either order: each gets the same reply, and
the store ends up the same, agenda included.

There are four groups.

* Agreement.  `Store.AgreeOn` relates two stores with the same slots under some
  keys, expired slots included.  A call that names one of the keys gets the same
  answer from both (`Store.AgreeOn.answer`), and the stores still agree after it
  (`Store.AgreeOn.perform`).
* Scripts.  A script that calls on these keys only ends alike on both stores
  (`Script.Calls.agree`).
* Commands.  All commands but two do their business with the keys that they name
  (`Command.keyed`).  Of what the store holds such a command reads its own keys
  only (`Command.run_agree`); that it writes no others is the frame rule.
* The assembly.  A key is named by one of the two commands at most, so its slot
  can be followed through both orders.  The agenda needs no thought of its own: it
  is a function of the slots (`Store.Consistent.eq_of_slots`).
-/

namespace Keyspace

/-! ## Agreement -/

namespace Store

/-- Whether two stores hold the same under `keys`. -/
structure AgreeOn (keys : List Bytes) (a b : Store) : Prop where
  closed : a.closed = b.closed
  slots : ∀ key ∈ keys, a.slots[key]? = b.slots[key]?

variable {now : Millis} {a b : Store} {key : Bytes} {c : Call} {keys : List Bytes}

theorem live?_congr (hslot : a.slots[key]? = b.slots[key]?) :
    a.live? now key = b.live? now key := by
  rw [live?_eq, live?_eq, hslot]

theorem getElem?_revise_congr {α : Type} (hclosed : a.closed = b.closed)
    (hslot : a.slots[key]? = b.slots[key]?)
    (change : Option Slot → Except Failure (α × Option Slot)) :
    (a.revise now key change).2.slots[key]? = (b.revise now key change).2.slots[key]? := by
  cases ha : a.closed with
  | true =>
    rw [revise_closed ha, revise_closed (hclosed ▸ ha)]
    exact hslot
  | false =>
    have hlive : a.live? now key = b.live? now key := live?_congr hslot
    rw [getElem?_revise_self ha, getElem?_revise_self (hclosed ▸ ha), hlive]

/-- What a call leaves under its key is a matter of what it found there. -/
theorem getElem?_perform_congr (hclosed : a.closed = b.closed) (hkey : c.key? = some key)
    (hslot : a.slots[key]? = b.slots[key]?) :
    (a.perform now c).2.slots[key]? = (b.perform now c).2.slots[key]? := by
  cases hreads : c.reads with
  | true => rw [perform_of_reads hreads, perform_of_reads hreads, hslot]
  | false =>
    cases c with
    | close => cases hkey
    | delete =>
      cases hkey
      rw [perform, perform, delete, delete, hclosed]
      split
      · exact hslot
      · rw [getElem?_replace_self, getElem?_replace_self]
    | dropByScore =>
      cases hkey
      rw [perform, perform]
      split
      · exact hslot
      · exact getElem?_revise_congr hclosed hslot _
    | setDeadline => cases hkey; exact getElem?_revise_congr hclosed hslot _
    | put => cases hkey; exact getElem?_revise_congr hclosed hslot _
    | putField => cases hkey; exact getElem?_revise_congr hclosed hslot _
    | dropField => cases hkey; exact getElem?_revise_congr hclosed hslot _
    | addMember => cases hkey; exact getElem?_revise_congr hclosed hslot _
    | dropMember => cases hkey; exact getElem?_revise_congr hclosed hslot _
    | putScore => cases hkey; exact getElem?_revise_congr hclosed hslot _
    | dropScore => cases hkey; exact getElem?_revise_congr hclosed hslot _
    | _ => cases hreads

namespace AgreeOn

/-- Stores that agree on the key of a call give it the same answer. -/
theorem answer (h : AgreeOn keys a b) (hkey : c.key? = some key) (hmem : key ∈ keys) :
    (a.perform now c).1 = (b.perform now c).1 := by
  have hslot : a.slots[key]? = b.slots[key]? := h.slots key hmem
  cases hc : c.seesLive with
  | true =>
    refine answer_congr h.closed (fun other hother => ?_) hc
    rw [hkey] at hother
    cases hother
    exact live?_congr hslot
  | false =>
    -- a deletion also counts a slot that nobody sees
    cases c with
    | delete =>
      cases hkey
      have hcontains : a.slots.contains key = b.slots.contains key := by
        rw [Std.ExtTreeMap.contains_eq_isSome_getElem?, hslot,
          Std.ExtTreeMap.contains_eq_isSome_getElem?]
      rw [Store.perform, Store.perform, delete, delete, h.closed, hcontains]
      split <;> rfl
    | expired => cases hkey
    | _ => cases hc

/-- A call on one of the keys leaves them agreeing on all. -/
theorem perform (h : AgreeOn keys a b) (hkey : c.key? = some key) :
    AgreeOn keys (a.perform now c).2 (b.perform now c).2 := by
  have hclose : c ≠ .close := by
    rintro rfl
    cases hkey
  refine ⟨?_, fun other hother => ?_⟩
  · rw [closed_perform hclose, closed_perform hclose, h.closed]
  · by_cases hsame : c.key? = some other
    · exact getElem?_perform_congr h.closed hsame (h.slots other hother)
    · rw [getElem?_perform_of_ne hclose hsame, getElem?_perform_of_ne hclose hsame,
        h.slots other hother]

end AgreeOn

end Store

/-! ## Scripts -/

/-- A script that calls on some keys only ends alike on stores that agree on
them. -/
theorem Script.Calls.agree {ε α : Type} {keys : List Bytes} {script : Script ε α}
    (hcalls : script.Calls fun c => ∃ key ∈ keys, c.key? = some key) (now : Millis)
    {a b : Store} (h : Store.AgreeOn keys a b) :
    (script.on now a).1 = (script.on now b).1 ∧
      Store.AgreeOn keys (script.on now a).2 (script.on now b).2 := by
  induction hcalls generalizing a b with
  | done result => exact ⟨rfl, h⟩
  | refuse reason => exact ⟨rfl, h⟩
  | call hcall _ ih =>
    obtain ⟨key, hmem, hkey⟩ := hcall
    rw [on_call, on_call, h.answer hkey hmem]
    exact ih _ (h.perform hkey)

/-! ## Commands -/

theorem Call.key?_eq_none {c : Call} (h : c.key? = none) :
    c = .close ∨ ∃ instant limit, c = .expired instant limit := by
  cases c with
  | close => exact .inl rfl
  | expired instant limit => exact .inr ⟨instant, limit, rfl⟩
  | _ => cases h

namespace Command

/-- Whether the business of a command is with the keys that it names. -/
def keyed : Command → Bool
  | finalize | fetchExpired .. => false
  | _ => true

variable {command : Command} {context : Context} {a b : Store}

/-- Only one command lists what is overdue. -/
theorem Footprint.eq_fetchExpired {instant : Millis} {limit : Nat}
    (h : command.Footprint (.expired instant limit)) : command = .fetchExpired instant limit := by
  cases command with
  | fetchExpired =>
    cases h
    rfl
  | _ =>
    simp only [Footprint] at h
    grind

theorem Footprint.exists_key {c : Call} (hcommand : command.keyed = true)
    (h : command.Footprint c) : ∃ key ∈ command.keys, c.key? = some key := by
  cases hkey : c.key? with
  | some key => exact ⟨key, h.key_mem hkey, rfl⟩
  | none =>
    rcases Call.key?_eq_none hkey with rfl | ⟨instant, limit, rfl⟩
    · rw [h.eq_finalize] at hcommand
      cases hcommand
    · rw [h.eq_fetchExpired] at hcommand
      cases hcommand

theorem ne_finalize_of_keyed (hcommand : command.keyed = true) : command ≠ .finalize := by
  rintro rfl
  cases hcommand

/-- Of what the store holds a command reads its own keys only. -/
theorem run_agree (hcommand : command.keyed = true) (h : Store.AgreeOn command.keys a b) :
    (command.run context a).1 = (command.run context b).1 ∧
      Store.AgreeOn command.keys (command.run context a).2 (command.run context b).2 := by
  have hcalls : (command.script context).Calls fun c => ∃ key ∈ command.keys, c.key? = some key :=
    (script_calls context command).mono fun c hc => hc.exists_key hcommand
  obtain ⟨hending, hagree⟩ := hcalls.agree context.now h
  rw [run_eq, run_eq, hending]
  exact ⟨rfl, hagree⟩

theorem closed_run (hcommand : command.keyed = true) (context : Context) (store : Store) :
    (command.run context store).2.closed = store.closed := by
  have hcalls : (command.script context).Calls (· ≠ .close) :=
    (script_calls context command).mono fun c hc hsame =>
      ne_finalize_of_keyed hcommand (Footprint.eq_finalize (hsame ▸ hc))
  exact hcalls.closed_on context.now store

end Command

/-! ## Two commands in either order -/

/-- The agenda follows from the slots. -/
theorem Store.Consistent.eq_of_slots {a b : Store} (ha : a.Consistent) (hb : b.Consistent)
    (hclosed : a.closed = b.closed)
    (hslots : ∀ key : Bytes, a.slots[key]? = b.slots[key]?) : a = b := by
  have hsame : a.slots = b.slots := Std.ExtTreeMap.ext_getElem? hslots
  have hagenda : a.agenda = b.agenda := by
    apply Std.ExtTreeSet.ext_mem
    rintro ⟨deadline, key⟩
    rw [ha.mem_agenda, hb.mem_agenda, hsame]
  obtain ⟨slots, agenda, closed⟩ := a
  cases hsame
  cases hagenda
  cases hclosed
  rfl

namespace Step

variable {store : Store} {first second : Step}

theorem getElem?_run_of_not_mem {step : Step} (hstep : step.command ≠ .finalize) (store : Store)
    {key : Bytes} (hkey : key ∉ step.command.keys) :
    (step.run store).2.slots[key]? = store.slots[key]? :=
  Command.getElem?_run_of_not_mem hstep hkey

theorem closed_run {step : Step} (hstep : step.command.keyed = true) (store : Store) :
    (step.run store).2.closed = store.closed :=
  Command.closed_run hstep step.context store

/-- What a step that names other keys has done makes no difference to the next
step. -/
theorem run_after (hfirst : first.command.keyed = true) (hsecond : second.command.keyed = true)
    (hdisjoint : ∀ key ∈ first.command.keys, key ∉ second.command.keys) (store : Store) :
    (second.run (first.run store).2).1 = (second.run store).1 ∧
      Store.AgreeOn second.command.keys (second.run (first.run store).2).2
        (second.run store).2 := by
  refine Command.run_agree hsecond ⟨closed_run hfirst store, fun key hkey => ?_⟩
  exact getElem?_run_of_not_mem (Command.ne_finalize_of_keyed hfirst) store
    fun hmem => hdisjoint key hmem hkey

/-- Commands on disjoint keys commute: in either order each gets the reply that
it gets alone, and the store ends up the same.  No command changes the slot of a
key that it does not name. -/
theorem run_comm (h : store.Reachable) (hfirst : first.command.keyed = true)
    (hsecond : second.command.keyed = true)
    (hdisjoint : ∀ key ∈ first.command.keys, key ∉ second.command.keys) :
    (first.run (second.run store).2).1 = (first.run store).1 ∧
    (second.run (first.run store).2).1 = (second.run store).1 ∧
    (second.run (first.run store).2).2 = (first.run (second.run store).2).2 ∧
    ∀ step : Step, step.command ≠ .finalize → ∀ key, key ∉ step.command.keys →
      (step.run store).2.slots[key]? = store.slots[key]? := by
  have hdisjoint' : ∀ key ∈ second.command.keys, key ∉ first.command.keys :=
    fun key hkey hmem => hdisjoint key hmem hkey
  obtain ⟨hsecond_reply, hsecond_agree⟩ := run_after hfirst hsecond hdisjoint store
  obtain ⟨hfirst_reply, hfirst_agree⟩ := run_after hsecond hfirst hdisjoint' store
  refine ⟨hfirst_reply, hsecond_reply, ?_, fun step hstep key hkey =>
    getElem?_run_of_not_mem hstep store hkey⟩
  have hreachable : ((second.run (first.run store).2).2).Reachable := (h.run _ _).run _ _
  have hreachable' : ((first.run (second.run store).2).2).Reachable := (h.run _ _).run _ _
  have hfirst_frame := getElem?_run_of_not_mem (Command.ne_finalize_of_keyed hfirst)
  have hsecond_frame := getElem?_run_of_not_mem (Command.ne_finalize_of_keyed hsecond)
  refine hreachable.consistent.eq_of_slots hreachable'.consistent ?_ fun key => ?_
  · rw [hsecond_agree.closed, hfirst_agree.closed, closed_run hfirst, closed_run hsecond]
  · by_cases hkey : key ∈ first.command.keys
    · rw [hsecond_frame _ (hdisjoint key hkey), hfirst_agree.slots key hkey]
    · by_cases hother : key ∈ second.command.keys
      · rw [hsecond_agree.slots key hother, hfirst_frame _ hkey]
      · rw [hsecond_frame _ hother, hfirst_frame _ hkey, hfirst_frame _ hkey,
          hsecond_frame _ hother]

theorem run_comm_rename :
    let context : Context := ⟨⟨5000⟩, .absolute⟩
    let store := (runAll [⟨context, .setEx [97] ⟨[49], 3⟩ 7⟩] .empty).2
    let first : Step := ⟨context, .rename [97] [98] 4 false⟩
    let second : Step := ⟨context, .mset [([99], ⟨[50], 5⟩), ([100], ⟨[51], 6⟩)]
      ⟨none, 8000⟩ ⟨false, true⟩⟩
    (first.run (second.run store).2).1 = ⟨.ok, .nothing⟩ ∧
      (second.run (first.run store).2).1 = ⟨.ok, .statuses [.ok, .ok]⟩ ∧
      (second.run (first.run store).2).2 = (first.run (second.run store).2).2 ∧
      (first.run (second.run store).2).2.agenda.size = 3 := by
  intro context store first second
  have hreachable : store.Reachable := Store.Reachable.empty.runAll _
  have hdisjoint : ∀ key ∈ first.command.keys, key ∉ second.command.keys := by decide
  obtain ⟨hfirst, hsecond, hsame, -⟩ := run_comm hreachable rfl rfl hdisjoint
  rw [hfirst, hsecond]
  exact ⟨by decide, by decide, hsame, by decide⟩

end Step

end Keyspace
