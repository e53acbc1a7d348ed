import Keyspace.Proofs.Admission
import Keyspace.Proofs.Coherence

/-!
# Counts

The commands that count the entries of a collection do not ask whether its key
exists.  They take a count of 0 for the answer (`countOf`), and that is right only
because no collection is kept without entries: whatever takes the last entry out, one
by one or in a range, takes the key with it.

There are two groups.

* Entries.  What is kept has entries (`Content.Sound.entries_pos`).
* Replies.  On an open store a counter replies with the number of entries, which is
  positive, or that the key does not exist (`Command.run_counter`).
-/

namespace Keyspace

variable {store : Store} {now : Millis} {key : Bytes} {kind : Kind}

/-! ## Entries -/

/-- The number of entries of a collection.  A string has none. -/
def Content.entries : Content → Nat
  | string _ => 0
  | hash fields => fields.size
  | set members => members.size
  | zset ranking => ranking.size

/-- A collection that is kept has entries. -/
theorem Content.Sound.entries_pos {content : Content} (h : content.Sound)
    (hkind : content.kind ≠ .string) : 0 < content.entries := by
  have hsize : ∀ {α : Type} (entries : Std.ExtTreeMap Bytes α), entries.isEmpty = false →
      0 < entries.size := by
    intro α entries hfilled
    rw [Std.ExtTreeMap.isEmpty_eq_size_beq_zero, beq_eq_false_iff_ne] at hfilled
    exact Nat.pos_of_ne_zero hfilled
  cases content with
  | string item => exact absurd rfl hkind
  | hash fields => exact hsize fields h.filled
  | set members => exact hsize members h.filled
  | zset ranking => exact hsize ranking.byMember h.filled

/-! ## Replies -/

/-- The command that counts the entries of a collection of some kind. -/
def Kind.counter? (key : Bytes) : Kind → Option Command
  | string => none
  | hash => some (.hlen key)
  | set => some (.scard key)
  | zset => some (.zcard key)

/-- The number of entries under a key; none under one that cannot be seen. -/
def Store.entries (store : Store) (now : Millis) (key : Bytes) : Nat :=
  (store.live? now key).elim 0 fun slot => slot.content.entries

/-- A question about values of one kind that is answered with the number of entries. -/
theorem Store.view_entries (hopen : store.closed = false)
    (hkind : ∀ slot, store.live? now key = some slot → slot.content.kind = kind)
    {question : Slot → Except Failure Nat}
    (hquestion : ∀ slot, slot.content.kind = kind → question slot = .ok slot.content.entries) :
    store.view now key 0 question = .ok (store.entries now key) := by
  rw [view_open hopen, entries]
  cases hslot : store.live? now key with
  | none => rfl
  | some slot => exact hquestion slot (hkind slot hslot)

namespace Command

variable {context : Context} {command : Command}

theorem run_of_count {count : Script Status Nat} {n : Nat}
    (hscript : command.script context = reply (countOf count) .count)
    (hcount : count.on context.now store = (.ok n, store)) :
    (command.run context store).1 =
      if n = 0 then ⟨.notExist, command.blank .notExist⟩ else ⟨.ok, .count n⟩ := by
  rw [run_of_reply hscript, countOf, Script.bind_eq, Script.on_bind_ok hcount]
  by_cases hzero : n = 0
  · rw [if_pos hzero, if_pos hzero]
    rfl
  · rw [if_neg hzero, if_neg hzero]
    rfl

/-- An open store replies to a counter with the number of entries, unless that is 0. -/
theorem run_counter (hopen : store.closed = false) (hcounter : kind.counter? key = some command)
    (hkind : ∀ slot, store.live? context.now key = some slot → slot.content.kind = kind) :
    (command.run context store).1 =
      if store.entries context.now key = 0 then ⟨.notExist, .count 0⟩
      else ⟨.ok, .count (store.entries context.now key)⟩ := by
  cases kind with
  | string => cases hcounter
  | hash =>
    cases hcounter
    have hquestion : ∀ slot : Slot, slot.content.kind = .hash →
        (·.size) <$> slot.hash = .ok slot.content.entries := by
      rintro ⟨content, version, deadline⟩ hcontent
      cases content with
      | hash => rfl
      | _ => cases hcontent
    have hsize : (query (.fieldCount key)).on context.now store =
        (.ok (store.entries context.now key), store) := by
      rw [Script.on_query, Store.perform, Store.view_entries hopen hkind hquestion]
      rfl
    exact run_of_count (by rfl) hsize
  | set =>
    cases hcounter
    have hquestion : ∀ slot : Slot, slot.content.kind = .set →
        (·.size) <$> slot.set = .ok slot.content.entries := by
      rintro ⟨content, version, deadline⟩ hcontent
      cases content with
      | set => rfl
      | _ => cases hcontent
    have hsize : (query (.memberCount key)).on context.now store =
        (.ok (store.entries context.now key), store) := by
      rw [Script.on_query, Store.perform, Store.view_entries hopen hkind hquestion]
      rfl
    exact run_of_count (by rfl) hsize
  | zset =>
    cases hcounter
    have hquestion : ∀ slot : Slot, slot.content.kind = .zset →
        (·.size) <$> slot.zset = .ok slot.content.entries := by
      rintro ⟨content, version, deadline⟩ hcontent
      cases content with
      | zset => rfl
      | _ => cases hcontent
    have hsize : (query (.rankedCount key)).on context.now store =
        (.ok (store.entries context.now key), store) := by
      rw [Script.on_query, Store.perform, Store.view_entries hopen hkind hquestion]
      rfl
    exact run_of_count (by rfl) hsize

/-- A key exists exactly if it can be seen. -/
theorem run_keyExists (hopen : store.closed = false) :
    ((keyExists key).run context store).1 =
      ⟨if (store.live? context.now key).isSome then .ok else .notExist, .nothing⟩ := by
  rw [run_of_reply (by rfl), Keys.present, Script.discard_eq, Script.on_bind, on_requireRecord,
    Store.record_open hopen]
  cases store.live? context.now key <;> rfl

end Command

namespace Store

/-- A key of a kind of collection has no entries exactly if it cannot be seen. -/
theorem entries_eq_zero_iff (hsound : store.Sound) (hcollection : kind ≠ .string)
    (hkind : ∀ slot, store.live? now key = some slot → slot.content.kind = kind) :
    store.entries now key = 0 ↔ store.live? now key = none := by
  rw [entries]
  cases hslot : store.live? now key with
  | none => exact iff_of_true rfl rfl
  | some slot =>
    have hpos : 0 < slot.content.entries :=
      (hsound key slot (live?_eq_some.mp hslot).1).entries_pos (hkind slot hslot ▸ hcollection)
    exact iff_of_false (Nat.ne_of_gt hpos) (Option.some_ne_none slot)

/-- No collection is kept without entries.  Hence a counter of an open store finds a
key absent exactly if the key does not exist, and counts at least one entry otherwise. -/
theorem counts_positive (h : store.Reachable) :
    (∀ (key : Bytes) (slot : Slot), store.slots[key]? = some slot →
      (∀ fields, slot.content = .hash fields → 0 < fields.size) ∧
      (∀ members, slot.content = .set members → 0 < members.size) ∧
      ∀ ranking, slot.content = .zset ranking →
        0 < ranking.byMember.size ∧ 0 < ranking.byScore.size) ∧
    (store.closed = false → ∀ (context : Context) (key : Bytes) (kind : Kind) (command : Command),
      kind.counter? key = some command →
      (∀ slot, store.live? context.now key = some slot → slot.content.kind = kind) →
      let counted := (command.run context store).1
      let asked := ((Command.keyExists key).run context store).1
      (counted.status = .notExist ↔ asked.status = .notExist) ∧
      (counted.status ≠ .notExist → ∃ n, 0 < n ∧ counted = ⟨.ok, .count n⟩)) := by
  constructor
  · intro key slot hslot
    have hsound := h.sound key slot hslot
    have hpos : slot.content.kind ≠ .string → 0 < slot.content.entries := hsound.entries_pos
    refine ⟨fun fields hfields => ?_, fun members hmembers => ?_, fun ranking hranking => ?_⟩
    · rw [hfields] at hpos
      exact hpos (by simp [Content.kind])
    · rw [hmembers] at hpos
      exact hpos (by simp [Content.kind])
    · rw [hranking] at hpos
      have hlength := (hsound.coherent ranking hranking).length_standings
      rw [Ranking.standings, Std.ExtTreeSet.length_toList] at hlength
      rw [hlength]
      have hmembers : 0 < ranking.byMember.size := hpos (by simp [Content.kind])
      exact ⟨hmembers, hmembers⟩
  · intro hopen context key kind command hcounter hkind counted asked
    have hcollection : kind ≠ .string := by
      rintro rfl
      cases hcounter
    have hzero := entries_eq_zero_iff h.sound hcollection hkind
    have hcounted : counted = if store.entries context.now key = 0 then ⟨.notExist, .count 0⟩
        else ⟨.ok, .count (store.entries context.now key)⟩ :=
      Command.run_counter hopen hcounter hkind
    have hasked : asked = _ := Command.run_keyExists hopen
    by_cases hnone : store.live? context.now key = none
    · rw [hcounted, if_pos (hzero.mpr hnone), hasked, hnone]
      exact ⟨iff_of_true rfl rfl, fun hne => absurd rfl hne⟩
    · have hsome := Option.isSome_iff_ne_none.mpr hnone
      have hentries : store.entries context.now key ≠ 0 := fun hnothing => hnone (hzero.mp hnothing)
      rw [hcounted, if_neg hentries, hasked, if_pos hsome]
      exact ⟨iff_of_false (by simp) (by simp), fun _ => ⟨_, Nat.pos_of_ne_zero hentries, rfl⟩⟩

/-- A set that loses its last member is gone; a hash that keeps a field is not. -/
theorem counts_positive_popped :
    let store := ((((Store.empty.perform 0 (.addMember [115] [97] 1)).2.perform 0
      (.putField [104] [97] ⟨[49], 1⟩)).2.perform 0 (.putField [104] [98] ⟨[50], 1⟩)).2.perform 0
      (.dropField [104] [97] 2)).2
    let store := (store.perform 0 (.dropMember [115] [97] 2)).2
    let context : Context := ⟨⟨9000⟩, .absolute⟩
    store.Reachable ∧
      (Command.run context (.scard [115]) store).1 = ⟨.notExist, .count 0⟩ ∧
      (Command.run context (.keyExists [115]) store).1.status = .notExist ∧
      ∃ n, 0 < n ∧ (Command.run context (.hlen [104]) store).1 = ⟨.ok, .count n⟩ := by
  intro earlier store context
  have hreachable : store.Reachable :=
    ((((Store.Reachable.empty.perform 0 _).perform 0 _).perform 0 _).perform 0 _).perform 0 _
  obtain ⟨-, hcounters⟩ := counts_positive hreachable
  have hset := hcounters rfl context [115] .set (.scard [115]) rfl nofun
  have hhash := hcounters rfl context [104] .hash (.hlen [104]) rfl fun slot hslot => by
    cases hslot
    rfl
  have hgone : (Command.run context (.scard [115]) store).1 = ⟨.notExist, .count 0⟩ := by decide
  refine ⟨hreachable, hgone, hset.1.mp (by rw [hgone]), hhash.2 (by decide)⟩

end Store

end Keyspace
