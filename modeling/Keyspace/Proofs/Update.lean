import Keyspace.Proofs.Coherence
import Keyspace.Proofs.History

/-!
# Updates

An `Update` is a write to one part of a key that carries a version of its own and
demands nothing of the key.  It is granted if it is newer than what the part holds.
This module says what updates make of the slot of their key, and that any two of
them commute.

There are three groups.

* Updates.  The parts of a key, what they hold, and the commands and calls that
  write them.
* Contents.  `Update.enter` puts the part into a value.  A second write to a part
  covers the first one (`enter_enter`), and writes to two parts commute
  (`enter_comm`).
* Slots.  `Update.absorb` is what an update makes of the live slot.  Of two updates
  of a part the newer one wins, whichever comes first (`absorb_absorb_of_lt`,
  `absorb_of_lt`), so any two updates commute (`absorb_comm`).
-/

namespace Keyspace

/-! ## Updates -/

/-- A part of a key.  A string takes the place of whatever the key holds, so to a
write of a string the part is the whole of it. -/
inductive Place where
  | whole
  | field (name : Bytes)
  | member (name : Bytes)
  | score (name : Bytes)

/-- The kind of value that has such a part. -/
def Place.kind : Place → Kind
  | .whole => .string
  | .field _ => .hash
  | .member _ => .set
  | .score _ => .zset

/-- What a part of a key holds. -/
inductive Part where
  | whole (slot : Slot)
  | field (item : Item)
  | member (version : Version)
  | score (mark : Mark)

/-- The version that a write to a part has to exceed. -/
def Part.version : Part → Version
  | .whole slot => slot.version
  | .field item => item.version
  | .member stamp => stamp
  | .score mark => mark.version

/-- What a collection holds in one of its parts. -/
def Content.part? (place : Place) (content : Content) : Option Part :=
  match place, content with
  | .field name, .hash fields => fields[name]?.map .field
  | .member name, .set members => members[name]?.map .member
  | .score name, .zset ranking => ranking.byMember[name]?.map .score
  | _, _ => none

/-- What a slot holds in one of its parts. -/
def Slot.part? (place : Place) (slot : Slot) : Option Part :=
  match place with
  | .whole => some (.whole slot)
  | place => slot.content.part? place

/-- A write to one part of a key: its string, a field, a member or the score of a
member. -/
inductive Update where
  | string (item : Item) (terms : Terms) (mode : WriteMode)
  | field (name : Bytes) (item : Item) (terms : Terms)
  | member (item : Item) (terms : Terms)
  | score (item : Scored) (terms : Terms)

namespace Update

/-- The part that an update writes. -/
def place : Update → Place
  | string .. => .whole
  | field name .. => .field name
  | member item _ => .member item.value
  | score item _ => .score item.member

/-- The kind of value that an update writes to. -/
def kind (update : Update) : Kind :=
  update.place.kind

/-- The version that an update carries. -/
def version : Update → Version
  | string item .. => item.version
  | field _ item _ => item.version
  | member item _ => item.version
  | score item _ => item.version

/-- The terms of an update. -/
def terms : Update → Terms
  | string _ terms _ => terms
  | field _ _ terms => terms
  | member _ terms => terms
  | score _ terms => terms

/-- The mode of an update; only strings have one. -/
def mode : Update → WriteMode
  | string _ _ mode => mode
  | _ => {}

/-- What an update writes to its part. -/
def written : Update → Part
  | string item terms mode => .whole ⟨.string item, item.version, mode.deadline terms⟩
  | field _ item _ => .field item
  | member item _ => .member item.version
  | score item _ => .score ⟨item.score, item.version⟩

/-- The command that makes an update. -/
def command (key : Bytes) : Update → Command
  | string item terms mode => .set key item terms mode
  | field name item terms => .hset key name item terms
  | member item terms => .sadd key [item] terms
  | score item terms => .zadd key [item] terms

/-- An update as a step of a history. -/
def step (context : Context) (key : Bytes) (update : Update) : Step :=
  ⟨context, update.command key⟩

/-- The call that makes an update once it is granted. -/
def call (key : Bytes) : Update → Call
  | string item terms mode => .put key item (mode.deadline terms)
  | field name item _ => .putField key name item
  | member item _ => .addMember key item.value item.version
  | score item _ => .putScore key item.member item.score item.version

/-- Whether an update has a version and demands nothing of its key, and does not
store a deadline that has passed. -/
structure Plain (now : Millis) (update : Update) : Prop where
  version : update.version ≠ 0
  expected : update.terms.expected = none
  anywhere : update.mode.onlyIfAbsent = false
  lasts : update.mode.appliesDeadline = true →
    update.terms.expireTime = 0 ∨ now < update.terms.expireTime

/-- Whether two updates write different parts or have different versions. -/
def Apart (a b : Update) : Prop :=
  a.place = b.place → a.version ≠ b.version

theorem Apart.symm {a b : Update} (h : a.Apart b) : b.Apart a :=
  fun hplace hversion => h hplace.symm hversion.symm

/-- Only collections have more than one part. -/
theorem place_ne_whole {a b : Update} (hkind : a.kind = b.kind) (hplace : a.place ≠ b.place) :
    b.place ≠ .whole := by
  intro hwhole
  cases b <;> cases hwhole
  cases a <;> cases hkind
  exact hplace rfl

theorem version_written (update : Update) : update.written.version = update.version := by
  cases update <;> rfl

end Update

variable {a b update : Update} {kind : Kind} {content : Content} {slot? : Option Slot}

/-! ## Contents -/

/-- The values to which updates of a kind can be made. -/
inductive Content.Takes : Kind → Content → Prop where
  | string (content : Content) : Takes .string content
  | hash (fields : Fields) : Takes .hash (.hash fields)
  | set (members : Members) : Takes .set (.set members)
  | zset {ranking : Ranking} (h : ranking.Coherent) : Takes .zset (.zset ranking)

/-- A sound value takes updates of its own kind, and strings. -/
theorem Content.Sound.takes (h : content.Sound)
    (hkind : kind = .string ∨ content.kind = kind) : content.Takes kind := by
  rcases hkind with rfl | rfl
  · exact .string content
  · cases content with
    | string => exact .string _
    | hash fields => exact .hash fields
    | set members => exact .set members
    | zset ranking => exact .zset (h.coherent ranking rfl)

theorem Content.Takes.kind_eq (h : content.Takes kind) (hkind : kind ≠ .string) :
    content.kind = kind := by
  cases h with
  | string => exact absurd rfl hkind
  | _ => rfl

/-- A value without parts. -/
def Content.blank : Kind → Content
  | .string => .string .empty
  | .hash => .hash ∅
  | .set => .set ∅
  | .zset => .zset .empty

theorem Content.takes_blank (kind : Kind) : Takes kind (blank kind) := by
  cases kind with
  | string => exact .string _
  | hash => exact .hash _
  | set => exact .set _
  | zset => exact .zset Ranking.coherent_empty

theorem Content.part?_blank (kind : Kind) (place : Place) : (blank kind).part? place = none := by
  cases kind <;> cases place <;> simp [blank, part?, Ranking.empty]

/-- The later of two entries under one name covers the earlier one. -/
theorem insert_insert {α : Type} {x y : Bytes} (h : x = y) (map : Std.ExtTreeMap Bytes α)
    (old new : α) : (map.insert x old).insert y new = map.insert y new := by
  subst h
  apply Std.ExtTreeMap.ext_getElem?
  intro other
  simp only [Std.ExtTreeMap.getElem?_insert]
  split <;> rfl

/-- Entries under two names may change places. -/
theorem insert_comm {α : Type} {x y : Bytes} (h : x ≠ y) (map : Std.ExtTreeMap Bytes α)
    (first second : α) :
    (map.insert x first).insert y second = (map.insert y second).insert x first := by
  apply Std.ExtTreeMap.ext_getElem?
  intro other
  simp only [Std.ExtTreeMap.getElem?_insert, Std.LawfulEqOrd.compare_eq_iff_eq]
  by_cases hx : x = other
  · have hy : y ≠ other := fun hy => h (hx.trans hy.symm)
    simp [hx, hy]
  · simp [hx]

namespace Update

/-- Puts the part that an update writes into a value. -/
def enter (update : Update) (content : Content) : Content :=
  match update, content with
  | string item .., _ => .string item
  | field name item _, .hash fields => .hash (fields.insert name item)
  | member item _, .set members => .set (members.insert item.value item.version)
  | score item _, .zset ranking => .zset (ranking.insert item.member item.score item.version)
  | _, content => content

theorem takes_enter (h : content.Takes update.kind) :
    (update.enter content).Takes update.kind := by
  cases update with
  | string => exact .string _
  | field => cases h; exact .hash _
  | member => cases h; exact .set _
  | score =>
    cases h with
    | zset hranking => exact .zset (hranking.insert _ _ _)

theorem part?_enter (hplace : update.place ≠ .whole) (h : content.Takes update.kind) :
    (update.enter content).part? update.place = some update.written := by
  cases update with
  | string => exact absurd rfl hplace
  | field => cases h; simp [enter, place, Content.part?, written]
  | member => cases h; simp [enter, place, Content.part?, written]
  | score => cases h; simp [enter, place, Content.part?, written, Ranking.getElem?_insert]

theorem part?_enter_of_ne (hkind : a.kind = b.kind) (hplace : a.place ≠ b.place)
    (h : content.Takes a.kind) : (a.enter content).part? b.place = content.part? b.place := by
  cases a <;> cases b <;> cases hkind <;> cases h
  case string => exact absurd rfl hplace
  case field =>
    have hname := mt (congrArg Place.field) hplace
    simp [enter, place, Content.part?, Std.ExtTreeMap.getElem?_insert, hname]
  case member =>
    have hname := mt (congrArg Place.member) hplace
    simp [enter, place, Content.part?, Std.ExtTreeMap.getElem?_insert, hname]
  case score =>
    have hname := mt (congrArg Place.score) hplace
    simp [enter, place, Content.part?, Ranking.getElem?_insert, hname]

/-- The later of two writes to one part covers the earlier one. -/
theorem enter_enter (hplace : a.place = b.place) (h : content.Takes a.kind) :
    b.enter (a.enter content) = b.enter content := by
  have hkind : a.kind = b.kind := congrArg Place.kind hplace
  -- of the sixteen pairs of updates the four of one kind are left
  cases a <;> cases b <;> cases hkind <;> cases h
  case string => rfl
  case field => exact congrArg Content.hash (insert_insert (Place.field.inj hplace) _ _ _)
  case member => exact congrArg Content.set (insert_insert (Place.member.inj hplace) _ _ _)
  case score hranking =>
    -- the first score leaves no standing behind, so it is enough to compare the marks
    apply congrArg Content.zset
    apply ((hranking.insert _ _ _).insert _ _ _).ext (hranking.insert _ _ _)
    exact insert_insert (Place.score.inj hplace) _ _ _

/-- Writes to two parts may change places. -/
theorem enter_comm (hkind : a.kind = b.kind) (hplace : a.place ≠ b.place)
    (h : content.Takes a.kind) : b.enter (a.enter content) = a.enter (b.enter content) := by
  cases a <;> cases b <;> cases hkind <;> cases h
  case string => exact absurd rfl hplace
  case field =>
    have hname := mt (congrArg Place.field) hplace
    exact congrArg Content.hash (insert_comm hname _ _ _)
  case member =>
    have hname := mt (congrArg Place.member) hplace
    exact congrArg Content.set (insert_comm hname _ _ _)
  case score hranking =>
    have hname := mt (congrArg Place.score) hplace
    apply congrArg Content.zset
    apply ((hranking.insert _ _ _).insert _ _ _).ext ((hranking.insert _ _ _).insert _ _ _)
    exact insert_comm hname _ _ _

end Update

/-! ## Slots -/

namespace Update

/-- The deadline that a slot has after an update. -/
def due (update : Update) (old : Option Millis) : Option Millis :=
  match update with
  | string _ terms mode => mode.deadline terms
  | _ => old

/-- What a granted update makes of the live slot of its key. -/
def put (update : Update) : Option Slot → Slot
  | none => ⟨update.enter (.blank update.kind), update.version, update.due none⟩
  | some slot =>
    ⟨update.enter slot.content, max slot.version update.version, update.due slot.deadline⟩

/-- What is live in the part that an update writes. -/
def found (update : Update) (slot? : Option Slot) : Option Part :=
  slot?.bind (Slot.part? update.place)

/-- Whether the part that an update writes is as new as the update. -/
def stale (update : Update) (slot? : Option Slot) : Bool :=
  (update.found slot?).any fun part => update.version ≤ part.version

/-- What an update makes of the live slot of its key, granted or not. -/
def absorb (update : Update) (slot? : Option Slot) : Option Slot :=
  if update.stale slot? then slot? else some (update.put slot?)

theorem takes_put (h : ∀ slot ∈ slot?, slot.content.Takes update.kind) :
    (update.put slot?).content.Takes update.kind := by
  cases slot? with
  | none => exact takes_enter (Content.takes_blank _)
  | some slot => exact takes_enter (h slot rfl)

theorem takes_absorb (h : ∀ slot ∈ slot?, slot.content.Takes update.kind) :
    ∀ slot ∈ update.absorb slot?, slot.content.Takes update.kind := by
  intro slot hslot
  unfold absorb at hslot
  split at hslot
  · exact h slot hslot
  · cases hslot
    exact takes_put h

/-- The call of an update makes of a slot what the update makes of it. -/
theorem effect_call (h : ∀ slot ∈ slot?, slot.content.Takes update.kind) (key : Bytes) :
    (update.call key).effect slot? = some (update.put slot?) := by
  cases slot? with
  | none => cases update <;> rfl
  | some slot =>
    have htakes := h slot rfl
    obtain ⟨content, version, deadline⟩ := slot
    cases update with
    | string item terms mode =>
      show some (⟨.string item, max item.version version, mode.deadline terms⟩ : Slot) = _
      rw [Version.max_comm]
      rfl
    | field => cases htakes; rfl
    | member => cases htakes; rfl
    | score => cases htakes; rfl

/-! ### What the parts hold -/

theorem part?_of_place_ne_whole {place : Place} (h : place ≠ .whole) (slot : Slot) :
    slot.part? place = slot.content.part? place := by
  cases place with
  | whole => exact absurd rfl h
  | _ => rfl

/-- A granted update of a collection is in its part. -/
theorem part?_put_of_ne_whole (hplace : update.place ≠ .whole)
    (h : ∀ slot ∈ slot?, slot.content.Takes update.kind) :
    (update.put slot?).part? update.place = some update.written := by
  rw [part?_of_place_ne_whole hplace]
  cases slot? with
  | none => exact part?_enter hplace (Content.takes_blank _)
  | some slot => exact part?_enter hplace (h slot rfl)

/-- A granted update is in its part.  The version of a string is that of its key,
so there it matters that the update is newer. -/
theorem part?_put (h : ∀ slot ∈ slot?, slot.content.Takes update.kind)
    (hnewer : update.stale slot? = false) :
    (update.put slot?).part? update.place = some update.written := by
  by_cases hplace : update.place = .whole
  · cases update <;> cases hplace
    rename_i item terms mode
    cases slot? with
    | none => rfl
    | some slot =>
      have hlt : ¬ item.version ≤ slot.version := of_decide_eq_false hnewer
      have hmax : max slot.version item.version = item.version := by grind
      show some (Part.whole ⟨.string item, max slot.version item.version, mode.deadline terms⟩) = _
      rw [hmax]
      rfl
  · exact part?_put_of_ne_whole hplace h

/-- A granted update leaves the other parts as they are. -/
theorem part?_put_of_ne (hkind : a.kind = b.kind) (hplace : a.place ≠ b.place)
    (h : ∀ slot ∈ slot?, slot.content.Takes a.kind) :
    (a.put slot?).part? b.place = b.found slot? := by
  have hparts := place_ne_whole hkind hplace
  rw [part?_of_place_ne_whole hparts]
  cases slot? with
  | none =>
    have hnone := Content.part?_blank a.kind b.place
    exact (part?_enter_of_ne hkind hplace (Content.takes_blank _)).trans hnone
  | some slot =>
    have hsame : b.found (some slot) = slot.content.part? b.place :=
      part?_of_place_ne_whole hparts slot
    rw [hsame]
    exact part?_enter_of_ne hkind hplace (h slot rfl)

/-- An older update of a part is stale wherever a newer one is. -/
theorem stale_of_le (hplace : a.place = b.place) (hle : a.version ≤ b.version)
    (h : b.stale slot? = true) : a.stale slot? = true := by
  simp only [stale, found, Option.any_eq_true, decide_eq_true_eq] at h ⊢
  obtain ⟨part, hpart, hversion⟩ := h
  exact ⟨part, hplace ▸ hpart, UInt64.le_trans hle hversion⟩

/-- What an update leaves is as new as the update. -/
theorem stale_absorb (h : ∀ slot ∈ slot?, slot.content.Takes update.kind) :
    update.stale (update.absorb slot?) = true := by
  unfold absorb
  split
  · rename_i hstale
    exact hstale
  · rename_i hnewer
    have hpart := part?_put h (Bool.eq_false_iff.mpr hnewer)
    have hfound : update.found (some (update.put slot?)) = some update.written := hpart
    rw [stale, hfound, Option.any_some, version_written]
    exact decide_eq_true (UInt64.le_refl _)

/-- The part of an update after it. -/
theorem found_absorb (h : ∀ slot ∈ slot?, slot.content.Takes update.kind) :
    update.found (update.absorb slot?) =
      if update.stale slot? then update.found slot? else some update.written := by
  unfold absorb
  split
  · rfl
  · rename_i hnewer
    exact part?_put h (Bool.eq_false_iff.mpr hnewer)

/-- An update leaves the other parts as they are. -/
theorem found_absorb_of_ne (hkind : a.kind = b.kind) (hplace : a.place ≠ b.place)
    (h : ∀ slot ∈ slot?, slot.content.Takes a.kind) :
    b.found (a.absorb slot?) = b.found slot? := by
  unfold absorb
  split
  · rfl
  · exact part?_put_of_ne hkind hplace h

/-! ### Two updates -/

/-- A second update of a part covers the first one. -/
theorem put_put (hplace : a.place = b.place) (hle : a.version ≤ b.version)
    (h : ∀ slot ∈ slot?, slot.content.Takes a.kind) :
    b.put (some (a.put slot?)) = b.put slot? := by
  have hkind : a.kind = b.kind := congrArg Place.kind hplace
  have hdue : ∀ old, b.due (a.due old) = b.due old := by
    intro old
    cases a <;> cases b <;> cases hkind <;> rfl
  cases slot? with
  | none =>
    have hcontent := enter_enter hplace (Content.takes_blank a.kind)
    have hmax : max a.version b.version = b.version := by grind
    simp only [put, ← hkind, hcontent, hmax, hdue]
  | some slot =>
    have hcontent := enter_enter hplace (h slot rfl)
    have hmax : max (max slot.version a.version) b.version = max slot.version b.version := by
      grind
    simp only [put, hcontent, hmax, hdue]

/-- Updates of two parts may change places. -/
theorem put_comm (hkind : a.kind = b.kind) (hplace : a.place ≠ b.place)
    (h : ∀ slot ∈ slot?, slot.content.Takes a.kind) :
    b.put (some (a.put slot?)) = a.put (some (b.put slot?)) := by
  have hdue : ∀ old, b.due (a.due old) = a.due (b.due old) := by
    intro old
    cases a <;> cases b <;> cases hkind
    case string => exact absurd rfl hplace
    all_goals rfl
  cases slot? with
  | none =>
    have hcontent := enter_comm hkind hplace (Content.takes_blank a.kind)
    have hmax := Version.max_comm a.version b.version
    simp only [put, ← hkind, hcontent, hmax, hdue]
  | some slot =>
    have hcontent := enter_comm hkind hplace (h slot rfl)
    have hmax : max (max slot.version a.version) b.version =
        max (max slot.version b.version) a.version := by grind
    simp only [put, hcontent, hmax, hdue]

/-- Of two updates of a part the newer one wins, if it comes last. -/
theorem absorb_absorb_of_lt (hplace : a.place = b.place) (hlt : a.version < b.version)
    (h : ∀ slot ∈ slot?, slot.content.Takes a.kind) :
    b.absorb (a.absorb slot?) = b.absorb slot? := by
  have hle := UInt64.le_of_lt hlt
  cases hstale : a.stale slot? with
  | true =>
    have hsame : a.absorb slot? = slot? := if_pos hstale
    rw [hsame]
  | false =>
    have hput : a.absorb slot? = some (a.put slot?) := if_neg (Bool.eq_false_iff.mp hstale)
    have hfound : b.found (some (a.put slot?)) = some a.written := by
      have hpart := part?_put h hstale
      rw [hplace] at hpart
      exact hpart
    have hnewer : ¬ b.stale (some (a.put slot?)) = true := by
      rw [stale, hfound, Option.any_some, version_written, decide_eq_true_eq]
      exact UInt64.not_le.mpr hlt
    have hfirst : ¬ b.stale slot? = true := by
      intro hb
      rw [stale_of_le hplace hle hb] at hstale
      cases hstale
    rw [hput, absorb, if_neg hnewer, absorb, if_neg hfirst, put_put hplace hle h]

/-- Of two updates of a part the newer one wins, if it comes first. -/
theorem absorb_of_lt (hplace : a.place = b.place) (hlt : a.version < b.version)
    (h : ∀ slot ∈ slot?, slot.content.Takes b.kind) :
    a.absorb (b.absorb slot?) = b.absorb slot? := by
  have hstale := stale_of_le hplace (UInt64.le_of_lt hlt) (stale_absorb h)
  rw [absorb, if_pos hstale]

/-- Updates of two parts commute. -/
theorem absorb_comm_of_ne (hkind : a.kind = b.kind) (hplace : a.place ≠ b.place)
    (h : ∀ slot ∈ slot?, slot.content.Takes a.kind) :
    b.absorb (a.absorb slot?) = a.absorb (b.absorb slot?) := by
  have hb : b.stale (a.absorb slot?) = b.stale slot? := by
    rw [stale, stale, found_absorb_of_ne hkind hplace h]
  have ha : a.stale (b.absorb slot?) = a.stale slot? := by
    rw [stale, stale, found_absorb_of_ne hkind.symm hplace.symm (hkind ▸ h)]
  have hleft : b.absorb (a.absorb slot?) =
      if b.stale slot? then a.absorb slot? else some (b.put (a.absorb slot?)) := by
    rw [← hb]
    rfl
  have hright : a.absorb (b.absorb slot?) =
      if a.stale slot? then b.absorb slot? else some (a.put (b.absorb slot?)) := by
    rw [← ha]
    rfl
  rw [hleft, hright]
  unfold absorb
  cases a.stale slot? <;> cases b.stale slot?
  · exact congrArg some (put_comm hkind hplace h)
  · rfl
  · rfl
  · rfl

/-- Any two updates commute. -/
theorem absorb_comm (hkind : a.kind = b.kind) (hapart : a.Apart b)
    (h : ∀ slot ∈ slot?, slot.content.Takes a.kind) :
    b.absorb (a.absorb slot?) = a.absorb (b.absorb slot?) := by
  by_cases hplace : a.place = b.place
  · have hb : ∀ slot ∈ slot?, slot.content.Takes b.kind := hkind ▸ h
    rcases UInt64.lt_or_lt_of_ne (hapart hplace) with hlt | hlt
    · rw [absorb_absorb_of_lt hplace hlt h, absorb_of_lt hplace hlt hb]
    · rw [absorb_absorb_of_lt hplace.symm hlt hb, absorb_of_lt hplace.symm hlt h]
  · exact absorb_comm_of_ne hkind hplace h

end Update

end Keyspace
