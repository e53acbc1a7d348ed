import Keyspace.Console.Request
import Keyspace.Proofs.Batch
import Keyspace.Proofs.Deadlines
import Keyspace.Proofs.Deletion

/-!
# Requests of a console

A console keeps nothing but strings, and it makes each write at a version that has been
minted for it, which is above all versions minted before.  On such a store no request is
refused for the sake of a version or of a kind, so what a request does can be said
without them.

There are three groups.

* Stores of strings.  `Store.Minted` says that a store holds nothing but strings, at
  versions that have been minted, and `Store.Minted.perform` that the calls of a
  console keep it so.
* Scripts.  A write at a later version is granted (`Store.Minted.on_set`), and so is
  another deadline (`Store.Minted.on_requireChangeable`).
* Requests.  `Request.Told` is what each of them is told, `Request.apply` what it leaves
  of the value under a key, and `Request.carried` puts the two together.
-/

namespace Keyspace

variable {store : Store} {now : Millis} {key other : Bytes} {minted version : Version}
  {context : Context}

/-! ## Stores of strings -/

/-- The bytes of a string. -/
def Slot.value? (slot : Slot) : Option Bytes :=
  match slot.content with
  | .string item => some item.value
  | _ => none

/-- The string that can be seen under a key. -/
def Store.value? (store : Store) (now : Millis) (key : Bytes) : Option Bytes :=
  (store.live? now key).bind Slot.value?

/-- The calls by which a console works on its store, with all writes at one version. -/
inductive Call.Minted (version : Version) : Call → Prop where
  | record (key : Bytes) : Minted version (.record key)
  | get (key : Bytes) : Minted version (.get key)
  | put (key value : Bytes) (deadline : Option Millis) :
      Minted version (.put key ⟨value, version⟩ deadline)
  | setDeadline (key : Bytes) (deadline : Option Millis) :
      Minted version (.setDeadline key deadline version)
  | delete (key : Bytes) : Minted version (.delete key)

/-- An open store of strings whose versions have all been minted when the counter of
the mint stands at `minted`. -/
structure Store.Minted (minted : Version) (store : Store) : Prop where
  consistent : store.Consistent
  isOpen : store.closed = false
  slots : ∀ (key : Bytes) slot, store.slots[key]? = some slot →
    slot.content.kind = .string ∧ slot.version ≤ minted

theorem Slot.value?_of_string {slot : Slot} (h : slot.content.kind = .string) :
    ∃ item, slot.content = .string item ∧ slot.value? = some item.value := by
  obtain ⟨content, version, deadline⟩ := slot
  cases content with
  | string item => exact ⟨item, rfl, rfl⟩
  | _ => cases h

namespace Store.Minted

theorem empty : Store.empty.Minted minted where
  consistent := .empty
  isOpen := rfl
  slots key slot hslot := by simp [Store.empty] at hslot

theorem mono (h : store.Minted minted) (hle : minted ≤ version) : store.Minted version where
  consistent := h.consistent
  isOpen := h.isOpen
  slots key slot hslot := by
    obtain ⟨hkind, hversion⟩ := h.slots key slot hslot
    exact ⟨hkind, UInt64.le_trans hversion hle⟩

theorem live (h : store.Minted minted) {slot : Slot} (hslot : store.live? now key = some slot) :
    slot.content.kind = .string ∧ slot.version ≤ minted :=
  h.slots key slot (live?_eq_some.mp hslot).1

/-- The calls of a console keep its store one of strings at minted versions. -/
theorem perform (h : store.Minted version) {c : Call} (hc : c.Minted version) :
    (store.perform now c).2.Minted version where
  consistent := h.consistent.perform now c
  isOpen := (closed_perform (by cases hc <;> nofun)).trans h.isOpen
  slots := by
    refine forall_slot_perform h.slots fun other _ next hnext => ?_
    cases hc with
    | record | get => exact h.live hnext
    | delete => cases hnext
    | put key value deadline =>
      cases hnext
      refine ⟨rfl, ?_⟩
      rw [Slot.version_putItem deadline fun slot hslot => (h.live hslot).2]
      exact UInt64.le_refl _
    | setDeadline key deadline =>
      obtain ⟨slot, hslot, rfl⟩ := Option.map_eq_some_iff.mp hnext
      obtain ⟨hkind, hversion⟩ := h.live hslot
      refine ⟨(Slot.kind_reschedule slot deadline version).trans hkind, ?_⟩
      show max slot.version version ≤ version
      grind

end Store.Minted

/-! ## Scripts -/

namespace Store.Minted

variable (h : store.Minted minted) (hlater : minted < version)
include h hlater

theorem judgement_eq_ok {terms : Terms} {mode : WriteMode} (hexpected : terms.expected = none)
    (hmode : mode.onlyIfAbsent = false) (key : Bytes) :
    Strings.judgement terms mode (store.record now key) version = .ok := by
  have hversion : version ≠ 0 := by
    rintro rfl
    exact UInt64.not_lt_zero hlater
  have hpermit : terms.permit ((store.live? now key).map Slot.record) = true := by
    rw [Terms.permit, hexpected]
  rw [record_open h.isOpen]
  refine (if_neg hversion).trans ((if_pos hpermit).trans ?_)
  cases hslot : store.live? now key with
  | none => rfl
  | some slot =>
    have hlt : slot.version < version := UInt64.lt_of_le_of_lt (h.live hslot).2 hlater
    have habsent : ¬ mode.onlyIfAbsent = true := Bool.eq_false_iff.mp hmode
    exact (if_neg habsent).trans (if_neg (UInt64.not_le.mpr hlt))

/-- A write at a later version is granted. -/
theorem on_set {terms : Terms} {mode : WriteMode} (hexpected : terms.expected = none)
    (hmode : mode.onlyIfAbsent = false) (value : Bytes) :
    (Strings.set key ⟨value, version⟩ terms mode).on now store =
      (.ok (), Strings.written now store ⟨key, ⟨value, version⟩, mode.deadline terms⟩) := by
  rw [Strings.on_set, if_pos (h.judgement_eq_ok hlater hexpected hmode key), Script.on_query,
    Strings.perform_put h.isOpen ⟨key, ⟨value, version⟩, mode.deadline terms⟩]
  rfl

theorem on_requireChangeable :
    (Keys.requireChangeable key version).on now store =
      (match store.live? now key with
        | none => .error .notExist
        | some slot => .ok slot.record,
        store) := by
  rw [Keys.requireChangeable, Script.bind_eq, Script.on_bind, on_requireRecord,
    record_open h.isOpen]
  cases hslot : store.live? now key with
  | none => rfl
  | some slot =>
    have hlt : slot.version < version := UInt64.lt_of_le_of_lt (h.live hslot).2 hlater
    have hcurrent : ¬ (version ≠ 0 ∧ version < slot.record.version) :=
      fun hold => UInt64.lt_asymm hlt hold.2
    simp only [Option.map_some, if_neg hcurrent]
    rfl

end Store.Minted

namespace Store

/-- A string that is put can be seen, unless its deadline has passed. -/
theorem value?_written (hopen : store.closed = false) {write : Write}
    (hdeadline : write.deadline.any (· ≤ now) = false) :
    (Strings.written now store write).value? now other =
      if write.key = other then some write.item.value else store.value? now other := by
  rw [value?, Strings.written, perform, live?_revise hopen]
  split
  · have hput : Slot.live? now (some (Slot.putItem write.item write.deadline
        (store.live? now write.key))) = some _ := Slot.live?_eq_some.mpr ⟨rfl, hdeadline⟩
    rw [Slot.kept, hput]
    rfl
  · rfl

/-- Another deadline changes no string, unless the deadline has passed. -/
theorem value?_setDeadline (hopen : store.closed = false) {deadline : Option Millis}
    (hdeadline : deadline.any (· ≤ now) = false) :
    (store.perform now (.setDeadline key deadline version)).2.value? now other =
      store.value? now other := by
  rw [value?, perform, live?_revise hopen]
  split
  · rename_i hkey
    rw [value?, ← hkey, Slot.kept]
    cases store.live? now key with
    | none => rfl
    | some slot =>
      have hset : Slot.live? now (some (slot.reschedule deadline version)) = some _ :=
        Slot.live?_eq_some.mpr ⟨rfl, hdeadline⟩
      dsimp only
      rw [hset]
      obtain ⟨content, _, _⟩ := slot
      cases content <;> rfl
  · rfl

theorem on_reschedule (hopen : store.closed = false) {slot : Slot}
    (hslot : store.live? now key = some slot) (deadline : Option Millis) (version : Version) :
    (Keys.reschedule key deadline version).on now store =
      (.ok (), (store.perform now (.setDeadline key deadline version)).2) := by
  rw [Keys.reschedule, Script.bind_eq, Script.on_bind, Script.on_query,
    fst_setDeadline hopen hslot]
  rfl

end Store

/-! ## Requests -/

namespace Console.Request

variable {clock : Clock}

/-- The key and the value that a request sets. -/
def set? : Request → Option (Bytes × Bytes)
  | set key value | setFor key value _ => some (key, value)
  | _ => none

/-- The keys that a request deletes. -/
def gone : Request → List Bytes
  | del keys => keys
  | _ => []

/-- What a request leaves of the value under a key in a plain map. -/
def apply (request : Request) (key : Bytes) (value? : Option Bytes) : Option Bytes :=
  if request.gone.contains key then none
  else match request.set? with
    | some (other, value) => if other = key then some value else value?
    | none => value?

/-- What a request is told, given the values that can be seen. -/
def Told (value? : Bytes → Option Bytes) (reply : Reply) : Request → Prop
  | set .. | setFor .. => reply = ⟨.ok, .nothing⟩
  | get key =>
    match value? key with
    | some value => ∃ version, reply = ⟨.ok, .item ⟨value, version⟩⟩
    | none => reply = ⟨.notExist, .item .empty⟩
  | del _ => ∃ statuses, reply = ⟨.ok, .statuses statuses⟩
  | expire key _ =>
    reply = ⟨.ok, .nothing⟩ ∨ reply = ⟨.notExist, .nothing⟩ ∧ value? key = none
  | persist key =>
    reply = ⟨.ok, .nothing⟩ ∨ reply = ⟨.noExpireSet, .nothing⟩ ∨
      reply = ⟨.notExist, .nothing⟩ ∧ value? key = none
  | ttl _ =>
    (∃ seconds, reply = ⟨.ok, .count seconds⟩) ∨ reply = ⟨.noExpireSet, .count 0⟩ ∨
      reply = ⟨.notExist, .count 0⟩
  | keyExists _ => reply = ⟨.ok, .nothing⟩ ∨ reply = ⟨.notExist, .nothing⟩
  | keyType _ => (∃ kind, reply = ⟨.ok, .kind (some kind)⟩) ∨ reply = ⟨.notExist, .kind none⟩

/-- How a request is carried out: what it is told and what it leaves.  A store keeps
what it is given for a while only short of the last instant that there is. -/
structure Carried (now : Millis) (store : Store) (request : Request) (reply : Reply)
    (after : Store) : Prop where
  told : request.Told (store.value? now) reply
  value : now < horizon → ∀ key, after.value? now key = request.apply key (store.value? now key)

theorem Carried.unchanged {request : Request} {reply : Reply} (hset : request.set? = none)
    (hgone : request.gone = []) (htold : request.Told (store.value? now) reply) :
    Carried now store request reply store where
  told := htold
  value _ key := by
    rw [apply, hgone, List.contains_nil, if_neg Bool.false_ne_true, hset]

section Writes

variable (h : store.Minted minted) (hlater : minted < version)
include h hlater

theorem carried_set (key value : Bytes) :
    let done := ((set key value).command version).run context store
    Carried context.now store (set key value) done.1 done.2 := by
  intro done
  have hdone : done = (⟨.ok, .nothing⟩,
      Strings.written context.now store ⟨key, ⟨value, version⟩, none⟩) := by
    show (Command.set key ⟨value, version⟩ {} {}).run context store = _
    rw [Command.run_of_reply (by rfl), h.on_set hlater rfl rfl]
    rfl
  rw [hdone]
  refine ⟨rfl, fun _ other => ?_⟩
  rw [Store.value?_written h.isOpen rfl]
  rfl

theorem carried_setFor (key value : Bytes) (seconds : Nat) :
    let done := ((setFor key value seconds).command version).run context store
    Carried context.now store (setFor key value seconds) done.1 done.2 := by
  intro done
  let terms : Terms := { expireTime := context.deadline seconds .seconds version }
  have hdone : done = (⟨.ok, .nothing⟩,
      Strings.written context.now store ⟨key, ⟨value, version⟩, terms.deadline⟩) := by
    show (Command.setEx key ⟨value, version⟩ seconds).run context store = _
    have hset : Strings.setFor context key ⟨value, version⟩ seconds =
        Strings.set key ⟨value, version⟩ terms { appliesDeadline := true } := rfl
    rw [Command.run_of_reply (by rfl), hset, h.on_set hlater rfl rfl]
    rfl
  rw [hdone]
  refine ⟨rfl, fun hnow other => ?_⟩
  have hdeadline : terms.deadline.any (· ≤ context.now) = false := by
    rw [Terms.deadline]
    split
    · rfl
    · exact decide_eq_false (Nat.not_le.mpr (Context.lt_deadline hnow seconds .seconds version))
  rw [Store.value?_written h.isOpen hdeadline]
  rfl

theorem carried_expire (key : Bytes) (seconds : Nat) :
    let done := ((expire key seconds).command version).run context store
    Carried context.now store (expire key seconds) done.1 done.2 := by
  intro done
  have hchange : (Keys.requireChangeable key version).on context.now store = _ :=
    h.on_requireChangeable hlater
  cases hslot : store.live? context.now key with
  | none =>
    rw [hslot] at hchange
    have hdone : done = (⟨.notExist, .nothing⟩, store) := by
      show (Command.expire key seconds .seconds version).run context store = _
      rw [Command.run_of_reply (by rfl), Keys.expire, Script.bind_eq, Script.discard_eq,
        Script.bind_assoc, Script.on_bind_error hchange]
      rfl
    rw [hdone]
    refine .unchanged rfl rfl (.inr ⟨rfl, ?_⟩)
    rw [Store.value?, hslot]
    rfl
  | some slot =>
    rw [hslot] at hchange
    have hdone : done = (⟨.ok, .nothing⟩, (store.perform context.now (.setDeadline key
        (some (context.deadline seconds .seconds version)) version)).2) := by
      show (Command.expire key seconds .seconds version).run context store = _
      have hreschedule := Store.on_reschedule h.isOpen hslot
        (some (context.deadline seconds .seconds version)) version
      rw [Command.run_of_reply (by rfl), Keys.expire, Script.bind_eq, Script.discard_eq,
        Script.bind_assoc, Script.on_bind_ok hchange, Script.bind, hreschedule]
    rw [hdone]
    refine ⟨.inl rfl, fun hnow other => ?_⟩
    have hdeadline : (some (context.deadline seconds .seconds version)).any
        (· ≤ context.now) = false :=
      decide_eq_false (Nat.not_le.mpr (Context.lt_deadline hnow seconds .seconds version))
    rw [Store.value?_setDeadline h.isOpen hdeadline]
    rfl

theorem carried_persist (key : Bytes) :
    let done := ((persist key).command version).run context store
    Carried context.now store (persist key) done.1 done.2 := by
  intro done
  have hchange : (Keys.requireChangeable key version).on context.now store = _ :=
    h.on_requireChangeable hlater
  cases hslot : store.live? context.now key with
  | none =>
    rw [hslot] at hchange
    have hdone : done = (⟨.notExist, .nothing⟩, store) := by
      show (Command.persist key version).run context store = _
      rw [Command.run_of_reply (by rfl), Keys.persist, Script.bind_eq,
        Script.on_bind_error hchange]
      rfl
    rw [hdone]
    refine .unchanged rfl rfl (.inr (.inr ⟨rfl, ?_⟩))
    rw [Store.value?, hslot]
    rfl
  | some slot =>
    rw [hslot] at hchange
    cases hdeadline : slot.deadline with
    | none =>
      have hdone : done = (⟨.noExpireSet, .nothing⟩, store) := by
        show (Command.persist key version).run context store = _
        rw [Command.run_of_reply (by rfl), Keys.persist, Script.bind_eq,
          Script.on_bind_ok hchange, Slot.record, hdeadline]
        rfl
      rw [hdone]
      exact .unchanged rfl rfl (.inr (.inl rfl))
    | some deadline =>
      have hdone : done =
          (⟨.ok, .nothing⟩, (store.perform context.now (.setDeadline key none version)).2) := by
        show (Command.persist key version).run context store = _
        rw [Command.run_of_reply (by rfl), Keys.persist, Script.bind_eq,
          Script.on_bind_ok hchange, Slot.record, hdeadline, Option.isNone_some,
          if_neg Bool.false_ne_true, Store.on_reschedule h.isOpen hslot none version]
      rw [hdone]
      refine ⟨.inl rfl, fun _ other => ?_⟩
      rw [Store.value?_setDeadline h.isOpen rfl]
      rfl

end Writes

section Reads

variable (h : store.Minted minted)
include h

theorem on_requireRecord :
    (requireRecord key).on now store =
      (match store.live? now key with
        | none => .error .notExist
        | some slot => .ok slot.record,
        store) := by
  rw [Keyspace.on_requireRecord, Store.record_open h.isOpen]
  cases store.live? now key <;> rfl

theorem carried_get (key : Bytes) :
    let done := ((get key).command version).run context store
    Carried context.now store (get key) done.1 done.2 := by
  intro done
  have hget : (query (.get key)).on context.now store =
      ((store.view context.now key none fun slot => some <$> slot.string).mapError Failure.status,
        store) := Script.on_query _
  have hdone : done = (match store.live? context.now key with
      | none => ⟨.notExist, .item .empty⟩
      | some slot => match slot.string with
        | .ok item => ⟨.ok, .item item⟩
        | .error failure => ⟨failure.status, .item .empty⟩, store) := by
    show (Command.get key).run context store = _
    rw [Command.run_of_reply (by rfl), Strings.get, Script.bind_eq, Script.on_bind, hget,
      Store.view_open h.isOpen]
    cases store.live? context.now key with
    | none => rfl
    | some slot =>
      dsimp only
      cases slot.string <;> rfl
  rw [hdone]
  refine .unchanged rfl rfl ?_
  rw [Told, Store.value?]
  cases hslot : store.live? context.now key with
  | none => rfl
  | some slot =>
    obtain ⟨item, hcontent, hvalue⟩ := Slot.value?_of_string (h.live hslot).1
    have hstring : slot.string = .ok item := by rw [Slot.string, hcontent]
    rw [Option.bind_some, hvalue]
    dsimp only
    rw [hstring]
    exact ⟨item.version, rfl⟩

theorem carried_ttl (key : Bytes) :
    let done := ((ttl key).command version).run context store
    Carried context.now store (ttl key) done.1 done.2 := by
  intro done
  have hdone : done = ((store.live? context.now key).elim ⟨.notExist, .count 0⟩ fun slot =>
      slot.deadline.elim ⟨.noExpireSet, .count 0⟩ fun deadline =>
        ⟨.ok, .count ((context.clock.remaining deadline + 999) / 1000)⟩, store) := by
    show (Command.ttl key).run context store = _
    rw [Command.run_of_reply (by rfl), Keys.secondsLeft, Keys.millisLeft, Script.bind_eq,
      Script.bind_eq, Script.bind_assoc, Script.on_bind, on_requireRecord h]
    cases store.live? context.now key with
    | none => rfl
    | some slot =>
      obtain ⟨content, version, deadline⟩ := slot
      cases deadline <;> rfl
  rw [hdone]
  refine .unchanged rfl rfl ?_
  cases store.live? context.now key with
  | none => exact .inr (.inr rfl)
  | some slot =>
    rw [Option.elim_some]
    cases slot.deadline with
    | none => exact .inr (.inl rfl)
    | some deadline => exact .inl ⟨_, rfl⟩

theorem carried_keyExists (key : Bytes) :
    let done := ((keyExists key).command version).run context store
    Carried context.now store (keyExists key) done.1 done.2 := by
  intro done
  have hdone : done = (match store.live? context.now key with
      | none => ⟨.notExist, .nothing⟩
      | some _ => ⟨.ok, .nothing⟩, store) := by
    show (Command.keyExists key).run context store = _
    rw [Command.run_of_reply (by rfl), Keys.present, Script.discard_eq, Script.on_bind,
      on_requireRecord h]
    cases store.live? context.now key <;> rfl
  rw [hdone]
  refine .unchanged rfl rfl ?_
  cases store.live? context.now key with
  | none => exact .inr rfl
  | some slot => exact .inl rfl

theorem carried_keyType (key : Bytes) :
    let done := ((keyType key).command version).run context store
    Carried context.now store (keyType key) done.1 done.2 := by
  intro done
  have hdone : done = (match store.live? context.now key with
      | none => ⟨.notExist, .kind none⟩
      | some slot => ⟨.ok, .kind (some slot.content.kind)⟩, store) := by
    show (Command.keyType key).run context store = _
    rw [Command.run_of_reply (by rfl), Keys.kind, Script.bind_eq, Script.on_bind,
      on_requireRecord h]
    cases store.live? context.now key <;> rfl
  rw [hdone]
  refine .unchanged rfl rfl ?_
  cases store.live? context.now key with
  | none => exact .inr rfl
  | some slot => exact .inl ⟨_, rfl⟩

theorem carried_del (keys : List Bytes) :
    let done := ((del keys).command version).run context store
    Carried context.now store (del keys) done.1 done.2 := by
  intro done
  have hlength : keys.length = (keys.map fun _ => (0 : Version)).length := (List.length_map _).symm
  obtain ⟨after, hdelete, hslots⟩ := Keys.on_delete context.now h.isOpen hlength {}
  obtain ⟨statuses, hdone⟩ : ∃ statuses, done = (⟨.ok, .statuses statuses⟩, after) := by
    show ∃ _, (Command.del keys (keys.map fun _ => 0) {}).run context store = _
    rw [Command.run_of_reply (by rfl), hdelete]
    exact ⟨_, rfl⟩
  rw [hdone]
  refine ⟨⟨statuses, rfl⟩, fun _ other => ?_⟩
  have hdoomed : other ∈ Keys.doomed {} context.now store (keys.zip (keys.map fun _ => 0)) ↔
      other ∈ keys := by
    rw [Keys.mem_doomed_at, and_iff_left_iff_imp]
    intro _
    -- version 0 deletes whatever is there
    rw [Keys.verdictOn]
    cases store.live? context.now other <;> rfl
  rw [Store.value?, Store.live?_eq, hslots, apply, gone]
  by_cases hkey : other ∈ keys
  · rw [if_pos (hdoomed.mpr hkey), if_pos (List.contains_iff_mem.mpr hkey)]
    rfl
  · rw [if_neg fun hgone => hkey (hdoomed.mp hgone),
      if_neg fun hgone => hkey (List.contains_iff_mem.mp hgone)]
    rfl

end Reads

/-- Every request is carried out, at a version minted for it if it writes. -/
theorem carried (h : store.Minted minted) (request : Request)
    (hlater : request.mints = true → minted < version) :
    let done := (request.command version).run context store
    Carried context.now store request done.1 done.2 := by
  cases request with
  | set key value => exact carried_set h (hlater rfl) key value
  | setFor key value seconds => exact carried_setFor h (hlater rfl) key value seconds
  | get key => exact carried_get h key
  | del keys => exact carried_del h keys
  | expire key seconds => exact carried_expire h (hlater rfl) key seconds
  | ttl key => exact carried_ttl h key
  | persist key => exact carried_persist h (hlater rfl) key
  | keyExists key => exact carried_keyExists h key
  | keyType key => exact carried_keyType h key

/-- A request makes no other calls than those of a console. -/
theorem calls_command (request : Request) (version : Version) :
    ((request.command version).script context).Calls (Call.Minted version) := by
  refine (Command.script_calls context _).mono fun c hc => ?_
  cases request with
  | set key value =>
    rcases hc with rfl | rfl
    · exact .record key
    · exact .put key value _
  | setFor key value seconds =>
    rcases hc with rfl | ⟨deadline, rfl⟩
    · exact .record key
    · exact .put key value deadline
  | get key =>
    cases hc
    exact .get key
  | del keys =>
    obtain ⟨key, _, rfl | rfl⟩ := hc
    · exact .record key
    · exact .delete key
  | expire key seconds =>
    rcases hc with rfl | ⟨deadline, rfl⟩
    · exact .record key
    · exact .setDeadline key _
  | persist key =>
    rcases hc with rfl | rfl
    · exact .record key
    · exact .setDeadline key none
  | ttl key | keyExists key | keyType key =>
    cases hc
    exact .record key

end Console.Request

end Keyspace
