import Keyspace.Proofs.Admission
import Keyspace.Proofs.Commit
import Keyspace.Proofs.Floors

/-!
# What a renamed key holds

A rename fills the new name part by part, with versions that may be old ones,
and gives it its deadline and its version last.  So nothing is known of the
version of the new name halfway.  This module shows that the last step is always
reached, and what follows for both names (`rename_cases`).

The reason is that filling cannot fail: once the old value is gone, the name is
absent or holds the kind that it is filled with (`Store.Holds.fill`).  What a
rename checks beforehand is in `Keys.on_rename`.
-/

namespace Keyspace

variable {ε α β ι : Type} {now : Millis} {key : Bytes} {kind : Kind} {version : Version}
  {store after : Store} {c : Call}

/-! ## Filling a name -/

/-- The kind of the collection that a call adds to. -/
def Call.fills : Call → Option Kind
  | .putField .. => some .hash
  | .addMember .. => some .set
  | .putScore .. => some .zset
  | _ => none

theorem Call.setsDeadline_of_fills (hc : c.fills = some kind) : c.setsDeadline = false := by
  cases c <;> cases hc <;> rfl

/-- Whether a store is open and a key, if it is live, holds a certain kind. -/
structure Store.Holds (now : Millis) (key : Bytes) (kind : Kind) (store : Store) : Prop where
  isOpen : store.closed = false
  kind : ∀ slot, store.live? now key = some slot → slot.content.kind = kind

theorem Slot.hash_of_kind {slot : Slot} (h : slot.content.kind = .hash) :
    ∃ fields, slot.hash = .ok fields := by
  cases hcontent : slot.content with
  | hash fields => exact ⟨fields, by rw [Slot.hash, hcontent]⟩
  | _ => rw [hcontent] at h; cases h

theorem Slot.set_of_kind {slot : Slot} (h : slot.content.kind = .set) :
    ∃ members, slot.set = .ok members := by
  cases hcontent : slot.content with
  | set members => exact ⟨members, by rw [Slot.set, hcontent]⟩
  | _ => rw [hcontent] at h; cases h

theorem Slot.zset_of_kind {slot : Slot} (h : slot.content.kind = .zset) :
    ∃ ranking, slot.zset = .ok ranking := by
  cases hcontent : slot.content with
  | zset ranking => exact ⟨ranking, by rw [Slot.zset, hcontent]⟩
  | _ => rw [hcontent] at h; cases h

namespace Store

/-- Filling a name with parts of one kind succeeds. -/
theorem Holds.answer_ok (h : store.Holds now key kind) (hc : c.fills = some kind)
    (hkey : c.key? = some key) : ∃ answer, (store.perform now c).1 = .ok answer := by
  cases c with
  | putField other name item =>
    cases hkey
    cases hc
    have hanswer : (store.perform now (.putField key name item)).1 = _ := fst_revise h.isOpen
    rw [hanswer]
    cases hlive : store.live? now key with
    | none => exact ⟨_, rfl⟩
    | some slot =>
      obtain ⟨fields, hfields⟩ := Slot.hash_of_kind (h.kind slot hlive)
      rw [Slot.putField, hfields]
      exact ⟨_, rfl⟩
  | addMember other name version =>
    cases hkey
    cases hc
    have hanswer : (store.perform now (.addMember key name version)).1 = _ := fst_revise h.isOpen
    rw [hanswer]
    cases hlive : store.live? now key with
    | none => exact ⟨_, rfl⟩
    | some slot =>
      obtain ⟨members, hmembers⟩ := Slot.set_of_kind (h.kind slot hlive)
      rw [Slot.addMember, hmembers]
      exact ⟨_, rfl⟩
  | putScore other name score version =>
    cases hkey
    cases hc
    have hanswer : (store.perform now (.putScore key name score version)).1 = _ :=
      fst_revise h.isOpen
    rw [hanswer]
    cases hlive : store.live? now key with
    | none => exact ⟨_, rfl⟩
    | some slot =>
      obtain ⟨ranking, hranking⟩ := Slot.zset_of_kind (h.kind slot hlive)
      rw [Slot.putScore, hranking]
      exact ⟨_, rfl⟩
  | _ => cases hc

/-- A name that is filled with parts of one kind holds that kind. -/
theorem Holds.fill (h : store.Holds now key kind) (hc : c.fills = some kind)
    (hkey : c.key? = some key) : (store.perform now c).2.Holds now key kind := by
  have hclose : c ≠ .close := by
    rintro rfl
    cases hc
  refine ⟨by rw [closed_perform hclose, h.isOpen], fun slot hslot => ?_⟩
  rw [live?_perform_self h.isOpen hkey] at hslot
  obtain ⟨heffect, _⟩ := Slot.live?_eq_some.mp hslot
  cases hlive : store.live? now key with
  | none =>
    rw [hlive] at heffect
    cases c with
    | putField => cases hc; cases heffect; rfl
    | addMember => cases hc; cases heffect; rfl
    | putScore => cases hc; cases heffect; rfl
    | _ => cases hc
  | some old =>
    rw [hlive] at heffect
    rw [(Call.amends_of_effect (Call.setsDeadline_of_fills hc) heffect).kind, h.kind old hlive]

/-- An open store takes every new deadline, for a live key or not. -/
theorem answer_setDeadline (hopen : store.closed = false) (now : Millis) (key : Bytes)
    (deadline : Option Millis) (version : Version) :
    ∃ answer, (store.perform now (.setDeadline key deadline version)).1 = .ok answer := by
  rw [perform, fst_revise hopen]
  cases store.live? now key <;> exact ⟨_, rfl⟩

/-- A new deadline raises the key to the version that comes with it. -/
theorem floor_setDeadline (hopen : store.closed = false) (key : Bytes)
    (deadline : Option Millis) (version : Version) :
    (store.perform now (.setDeadline key deadline version)).2.Floor now key version := by
  intro slot hslot
  rw [live?_perform_self hopen rfl] at hslot
  obtain ⟨heffect, _⟩ := Slot.live?_eq_some.mp hslot
  cases hlive : store.live? now key with
  | none =>
    rw [hlive] at heffect
    cases heffect
  | some old =>
    rw [hlive] at heffect
    cases heffect
    exact Version.le_max_right _ _

end Store

namespace Script

@[simp] theorem on_discard_ask (c : Call) :
    (discard (ask c) : Script Failure Unit).on now store =
      ((store.perform now c).1.map fun _ => (), (store.perform now c).2) :=
  run_discard_ask _ _ c

/-- A loop whose steps succeed and keep an invariant succeeds and keeps it. -/
theorem on_forM_ok {step : ι → Script ε PUnit} {inv : Store → Prop}
    (hstep : ∀ item store, inv store →
      ∃ after, (step item).on now store = (.ok ⟨⟩, after) ∧ inv after)
    (items : List ι) (h : inv store) :
    ∃ after, (items.forM step).on now store = (.ok ⟨⟩, after) ∧ inv after := by
  induction items generalizing store with
  | nil => exact ⟨store, rfl, h⟩
  | cons item rest ih =>
    obtain ⟨between, hfirst, hbetween⟩ := hstep item store h
    obtain ⟨after, hrest, hafter⟩ := ih hbetween
    refine ⟨after, ?_, hafter⟩
    change ((step item).bind fun _ => rest.forM step).on now store = _
    rw [on_bind_ok hfirst, hrest]

end Script

namespace Keys

variable {source target : Bytes}

/-- Whatever is put under a name part by part has the version of the rename at
the end. -/
theorem floor_refill (hopen : store.closed = false) (deadline : Option Millis)
    (version : Version) {call : ι → Call} (hkey : ∀ part, (call part).key? = some target)
    (hfills : ∀ part, (call part).fills = some kind) (parts : List ι) :
    ∃ after, ((discard (ask (.delete target)) : Script Failure Unit).bind fun _ =>
        (parts.forM fun part => discard (ask (call part))).bind fun _ =>
          discard (ask (.setDeadline target deadline version))).on now store = (.ok (), after) ∧
      after.closed = false ∧ after.Floor now target version := by
  have hdelete : (discard (ask (.delete target)) : Script Failure Unit).on now store =
      (.ok (), store.replace target none) := by
    rw [Script.on_discard_ask, Store.perform, Store.delete, hopen]
    rfl
  have hholds : (store.replace target none).Holds now target kind := by
    refine ⟨hopen, fun slot hslot => ?_⟩
    rw [Store.live?_replace, if_pos rfl] at hslot
    cases hslot
  have hstep : ∀ part (store : Store), store.Holds now target kind →
      ∃ after, (discard (ask (call part)) : Script Failure Unit).on now store = (.ok (), after) ∧
        after.Holds now target kind := by
    intro part store hstore
    obtain ⟨answer, hanswer⟩ := hstore.answer_ok (hfills part) (hkey part)
    refine ⟨_, ?_, hstore.fill (hfills part) (hkey part)⟩
    rw [Script.on_discard_ask, hanswer]
    rfl
  obtain ⟨after, hfilled, hafter⟩ := Script.on_forM_ok hstep parts hholds
  obtain ⟨answer, hanswer⟩ :=
    Store.answer_setDeadline hafter.isOpen now target deadline version
  refine ⟨(after.perform now (.setDeadline target deadline version)).2, ?_, ?_, ?_⟩
  · rw [Script.on_bind_ok hdelete, Script.on_bind_ok hfilled, Script.on_discard_ask, hanswer]
    rfl
  · rw [Store.closed_perform (by simp), hafter.isOpen]
  · exact Store.floor_setDeadline hafter.isOpen target deadline version

/-- A copy is refused and changes nothing, or it succeeds and leaves its target at the
version of the rename. -/
theorem floor_copy (hopen : store.closed = false) (source target : Bytes) (record : Record)
    (version : Version) :
    (∃ failure, (copy source target record version).on now store = (.error failure, store)) ∨
      ∃ after, (copy source target record version).on now store = (.ok (), after) ∧
        after.closed = false ∧ after.Floor now target version := by
  let p (run : Except Failure Unit × Store) : Prop :=
    (∃ failure, run = (.error failure, store)) ∨
      ∃ after, run = (.ok (), after) ∧ after.closed = false ∧ after.Floor now target version
  have hrefused : ∀ failure, True → p (.error failure, store) :=
    fun failure _ => .inl ⟨failure, rfl⟩
  have hask {c : Call} (hc : c.reads = true) : (ask c).Asks fun _ => True :=
    .ask (fun _ => trivial) hc
  change p _
  unfold copy
  cases record.kind with
  | string =>
    refine (hask rfl).on_bind hrefused fun item _ => .inr ?_
    have hput : store.perform now (.put target ⟨(item.getD .empty).value, version⟩
        record.deadline) = (.ok (), _) := Prod.ext (Store.fst_perform_put hopen _ _ _) rfl
    rw [Script.on_ask, hput]
    refine ⟨_, rfl, ?_, Store.Floor.of_raises rfl rfl rfl hput⟩
    rw [Store.closed_perform (by simp), hopen]
  | hash =>
    refine (hask rfl).on_bind hrefused fun fields _ => .inr ?_
    exact floor_refill hopen record.deadline version (fun _ => rfl) (fun _ => rfl) fields
  | set =>
    refine (hask rfl).on_bind hrefused fun members _ => .inr ?_
    exact floor_refill hopen record.deadline version (fun _ => rfl) (fun _ => rfl) members
  | zset =>
    refine (hask rfl).on_bind hrefused fun size _ => ?_
    have hrest : ∀ entries : List Ranked,
        p (((discard (ask (.delete target)) : Script Failure Unit).bind fun _ =>
          (entries.forM fun entry =>
            discard (ask (.putScore target entry.member entry.score entry.version))).bind fun _ =>
          discard (ask (.setDeadline target record.deadline version))).on now store) := by
      intro entries
      right
      exact floor_refill hopen record.deadline version (fun _ => rfl) (fun _ => rfl) entries
    dsimp only
    split
    · exact hrest []
    · exact (hask rfl).on_bind hrefused fun entries _ => hrest entries

/-- A rename that is granted goes on to move its source, over nothing or over something
older that may be replaced. -/
theorem on_rename (hne : source ≠ target) (version : Version) (onlyIfAbsent : Bool)
    (store : Store) :
    (∃ status, status ≠ .ok ∧
      (rename source target version onlyIfAbsent).on now store = (.error status, store)) ∨
      version ≠ 0 ∧ store.closed = false ∧
      (∀ slot, store.live? now target = some slot →
        onlyIfAbsent = false ∧ slot.version < version) ∧
      ∃ slot, store.live? now source = some slot ∧
        (rename source target version onlyIfAbsent).on now store =
          ((move source target slot.record version).mapRefusal Failure.status).on now store := by
  let p (run : Except Status Unit × Store) : Prop :=
    (∃ status, status ≠ .ok ∧ run = (.error status, store)) ∨
    version ≠ 0 ∧ store.closed = false ∧
    (∀ slot, store.live? now target = some slot →
      onlyIfAbsent = false ∧ slot.version < version) ∧
    ∃ slot, store.live? now source = some slot ∧
      run = ((move source target slot.record version).mapRefusal Failure.status).on now store
  have hrefused : ∀ status, status ≠ .ok → p (.error status, store) :=
    fun status hstatus => .inl ⟨status, hstatus, rfl⟩
  change p _
  unfold rename
  refine (asks_requireVersion common_ne_ok.error).on_bind hrefused fun _ hversion => ?_
  refine (asks_requireRecord common_ne_ok (by decide)).on_bind hrefused fun record hrecord => ?_
  rw [if_neg hne]
  refine (Script.Asks.query common_ne_ok.failure rfl).on_bind hrefused fun found hfound => ?_
  obtain ⟨hopen, hsource⟩ := Store.record_eq_ok.mp (record_of_requireRecord hrecord)
  obtain ⟨_, htarget⟩ := Store.record_eq_ok.mp (record_of_query hfound)
  obtain ⟨slot, hslot, rfl⟩ := Option.map_eq_some_iff.mp hsource
  split
  · rename_i hverdict
    refine .inr ⟨ne_zero_of_requireVersion hversion, hopen, fun old hold => ?_, slot, hslot, rfl⟩
    rw [hold] at htarget
    subst htarget
    exact ⟨WriteMode.onlyIfAbsent_of_verdict hverdict, WriteMode.lt_of_verdict hverdict⟩
  · rename_i hverdict
    exact hrefused _ hverdict

/-- A move is refused and changes nothing, or it succeeds, leaves its target at the
version of the rename and takes its source away. -/
theorem on_move (hne : source ≠ target) (hopen : store.closed = false) (record : Record)
    (version : Version) :
    (∃ failure, (move source target record version).on now store = (.error failure, store)) ∨
      ∃ after, (move source target record version).on now store = (.ok (), after) ∧
        after.Floor now target version ∧ after.live? now source = none := by
  rcases floor_copy hopen source target record version with
    ⟨failure, hcopy⟩ | ⟨between, hcopy, hopen', hfloor⟩
  · exact .inl ⟨failure, Script.on_bind_error hcopy _⟩
  · have hdelete : between.perform now (.delete source) =
        (.ok (between.slots.contains source), between.replace source none) := by
      rw [Store.perform, Store.delete, hopen']
      rfl
    refine .inr ⟨between.replace source none, ?_, ?_, ?_⟩
    · rw [move, Script.bind_eq, Script.on_bind_ok hcopy, Script.on_discard_ask, hdelete]
      rfl
    · have hkept := hfloor.perform (c := .delete source)
        fun hkey => absurd (Option.some.inj hkey) hne
      rwa [hdelete] at hkept
    · rw [Store.live?_replace, if_pos rfl]
      rfl

/-- A rename is refused and changes nothing, or it finds under its target a lower
version than its own, leaves at least its own there and takes its source away. -/
theorem rename_cases (hne : source ≠ target) (version : Version) (onlyIfAbsent : Bool)
    (store : Store) :
    (∃ status, status ≠ .ok ∧
      (rename source target version onlyIfAbsent).on now store = (.error status, store)) ∨
      (∀ slot, store.live? now target = some slot → slot.version < version) ∧
        ∃ after, (rename source target version onlyIfAbsent).on now store = (.ok (), after) ∧
          after.Floor now target version ∧ after.live? now source = none := by
  rcases on_rename hne version onlyIfAbsent store with
    hrefused | ⟨_, hopen, hgranted, slot, _, hrun⟩
  · exact .inl hrefused
  · have hlower : ∀ slot, store.live? now target = some slot → slot.version < version :=
      fun slot hslot => (hgranted slot hslot).2
    rw [hrun, Script.on_mapRefusal]
    rcases on_move hne hopen slot.record version with ⟨failure, hmove⟩ | ⟨after, hmove, hafter⟩
    · rw [hmove]
      exact .inl ⟨failure.status, common_ne_ok.failure failure, rfl⟩
    · rw [hmove]
      exact .inr ⟨hlower, after, rfl, hafter⟩

/-- A rename is refused with its target as it was, or it finds there a lower
version than its own and leaves at least its own. -/
theorem rename_target (hne : source ≠ target) (version : Version) (onlyIfAbsent : Bool)
    (store : Store) :
    (∃ status, status ≠ .ok ∧
      (rename source target version onlyIfAbsent).on now store = (.error status, store)) ∨
      (∀ slot, store.live? now target = some slot → slot.version < version) ∧
        ((rename source target version onlyIfAbsent).on now store).2.Floor now target version := by
  refine (rename_cases hne version onlyIfAbsent store).imp_right ?_
  rintro ⟨hlower, after, hrun, hfloor, _⟩
  exact ⟨hlower, hrun ▸ hfloor⟩

end Keys

end Keyspace
