import Keyspace.Proofs.Counts
import Keyspace.Proofs.Independence
import Keyspace.Proofs.Settled

/-!
# What a rename moves

A rename rebuilds its source under the new name: a string with one call, a collection
entry by entry, in a slot that is made anew.  This module shows that the new name then
holds what the source held and nothing that stood there before, and that no other key is
touched.

There are three groups.

* Collections.  A collection is made up of the updates of its entries
  (`Content.updates`), and making them one after the other gives it back
  (`Content.Sound.foldl_enter`).
* Filling.  What the calls of these updates leave under a name (`Keys.on_fill`), and
  what is there once the deadline has been set (`Keys.on_refill`).  While this goes on,
  the store differs from the one before in that name only (`Store.Rewritten`).
* Renaming.  `Slot.moved` is what becomes of the slot of the source, and a copy leaves
  it under the target (`Keys.on_copy`).  `Command.rename_moves` says when a rename is
  granted and what it does.
-/

namespace Keyspace

variable {store : Store} {now : Millis} {source target key : Bytes} {version : Version}
  {content : Content} {slot : Slot} {kind : Kind} {α : Type}

/-! ## Collections -/

/-- What a key is mapped to after entries have been put into a map one by one, if they
agree on it. -/
theorem getElem?_foldl_insert {map : Std.ExtTreeMap Bytes α} {entries : List (Bytes × α)}
    {result : Option α} (hentries : ∀ value, (key, value) ∈ entries → some value = result)
    (h : map[key]? = result ∨ ∃ value, (key, value) ∈ entries) :
    (entries.foldl (fun map entry => map.insert entry.1 entry.2) map)[key]? = result := by
  induction entries generalizing map with
  | nil => exact h.resolve_right (by simp)
  | cons entry rest ih =>
    obtain ⟨name, value⟩ := entry
    refine ih (fun other hother => hentries other (List.mem_cons_of_mem _ hother)) ?_
    rw [Std.ExtTreeMap.getElem?_insert]
    by_cases hname : name = key
    · subst hname
      left
      simpa using hentries value List.mem_cons_self
    · simp only [Std.LawfulEqOrd.compare_eq_iff_eq, hname, if_false]
      refine h.imp_right fun ⟨other, hother⟩ => ⟨other, ?_⟩
      exact (List.mem_cons.mp hother).resolve_left fun hsame => hname (congrArg Prod.fst hsame).symm

/-- A map is made up of its entries. -/
theorem foldl_insert_eq {map : Std.ExtTreeMap Bytes α} {entries : List (Bytes × α)}
    (h : ∀ key value, (key, value) ∈ entries ↔ map[key]? = some value) :
    entries.foldl (fun map entry => map.insert entry.1 entry.2) ∅ = map := by
  apply Std.ExtTreeMap.ext_getElem?
  intro key
  refine getElem?_foldl_insert (fun value hvalue => ((h key value).mp hvalue).symm) ?_
  cases hkey : map[key]? with
  | none => exact .inl (by simp)
  | some value => exact .inr ⟨value, (h key value).mpr hkey⟩

/-- A ranking is made up of its entries. -/
theorem Ranking.Coherent.foldl_insert {ranking : Ranking} (h : ranking.Coherent) :
    ranking.entries.foldl
      (fun rest entry => rest.insert entry.member entry.score entry.version) .empty = ranking := by
  have hcoherent : ∀ (entries : List Ranked) (start : Ranking), start.Coherent →
      (entries.foldl (fun rest entry => rest.insert entry.member entry.score entry.version)
        start).Coherent := by
    intro entries
    induction entries with
    | nil => exact fun _ hstart => hstart
    | cons entry rest ih => exact fun _ hstart => ih _ (hstart.insert _ _ _)
  have hmember : ∀ (member : Bytes) (mark : Mark),
      (member, mark) ∈ ranking.entries.map
          (fun entry => (entry.member, ⟨entry.score, entry.version⟩)) ↔
        ranking.byMember[member]? = some mark := by
    intro member mark
    rw [List.mem_map]
    constructor
    · rintro ⟨entry, hentry, heq⟩
      cases heq
      exact h.mem_entries.mp hentry
    · exact fun hmark =>
        ⟨⟨member, mark.score, mark.version⟩, h.mem_entries.mpr hmark, rfl⟩
  refine (hcoherent _ _ coherent_empty).ext h ?_
  rw [← foldl_insert_eq hmember, List.foldl_map]
  exact (List.foldl_hom Ranking.byMember fun _ _ => rfl).symm

namespace Content

/-- The updates that make up a collection. -/
def updates : Content → List Update
  | string _ => []
  | hash fields => fields.toList.map fun (name, item) => .field name item {}
  | set members => members.toList.map fun (name, version) => .member ⟨name, version⟩ {}
  | zset ranking => ranking.entries.map fun entry =>
      .score ⟨entry.member, entry.score, entry.version⟩ {}

/-- The versions of the entries of a collection. -/
def versions : Content → List Version
  | string _ => []
  | hash fields => fields.toList.map fun (_, item) => item.version
  | set members => members.toList.map fun (_, version) => version
  | zset ranking => ranking.entries.map Ranked.version

theorem map_version_updates (content : Content) :
    content.updates.map Update.version = content.versions := by
  cases content with
  | string => rfl
  | hash | set | zset => exact List.map_map

theorem kind_of_mem_updates {update : Update} (h : update ∈ content.updates) :
    update.kind = content.kind := by
  cases content with
  | string => cases h
  | hash | set | zset =>
    obtain ⟨entry, _, rfl⟩ := List.mem_map.mp h
    rfl

/-- A collection is what the updates of its entries make. -/
theorem Sound.foldl_enter (h : content.Sound) (hkind : content.kind ≠ .string) :
    content.updates.foldl (fun content update => update.enter content) (blank content.kind) =
      content := by
  cases content with
  | string => exact absurd rfl hkind
  | hash fields =>
    have hfields := foldl_insert_eq fun name item =>
      Std.ExtTreeMap.mem_toList_iff_getElem?_eq_some (t := fields) (k := name) (v := item)
    rw [updates, List.foldl_map]
    refine (List.foldl_hom Content.hash fun _ _ => rfl).trans (congrArg Content.hash hfields)
  | set members =>
    have hmembers := foldl_insert_eq fun name version =>
      Std.ExtTreeMap.mem_toList_iff_getElem?_eq_some (t := members) (k := name) (v := version)
    rw [updates, List.foldl_map]
    refine (List.foldl_hom Content.set fun _ _ => rfl).trans (congrArg Content.set hmembers)
  | zset ranking =>
    have hranking := (h.coherent ranking rfl).foldl_insert
    rw [updates, List.foldl_map]
    exact (List.foldl_hom Content.zset fun _ _ => rfl).trans (congrArg Content.zset hranking)

end Content

/-! ## Filling -/

/-- What updates, made one after the other, make of the live slot of their key. -/
def Update.fill (updates : List Update) (slot? : Option Slot) : Option Slot :=
  updates.foldl (fun slot? update => some (update.put slot?)) slot?

theorem Update.fill_cons (update : Update) (rest : List Update) (slot? : Option Slot) :
    fill (update :: rest) slot? = fill rest (some (update.put slot?)) := rfl

/-- What updates of a collection make of a slot that is there. -/
theorem Update.fill_some {updates : List Update} (h : ∀ update ∈ updates, update.kind ≠ .string)
    (slot : Slot) :
    fill updates (some slot) =
      some ⟨updates.foldl (fun content update => update.enter content) slot.content,
        (updates.map Update.version).foldl max slot.version, slot.deadline⟩ := by
  induction updates generalizing slot with
  | nil => rfl
  | cons update rest ih =>
    have hdue : update.due slot.deadline = slot.deadline := by
      cases update with
      | string => exact absurd rfl (h _ List.mem_cons_self)
      | _ => rfl
    rw [fill_cons, ih fun other hother => h other (List.mem_cons_of_mem _ hother)]
    simp only [put, hdue, List.foldl_cons, List.map_cons]

/-- The highest of some versions may be taken in any order. -/
theorem Version.max_foldl_max (first version : Version) (rest : List Version) :
    max (rest.foldl max first) version = (first :: rest).foldl max version := by
  have hassoc : Std.Associative (max : Version → Version → Version) := ⟨by grind⟩
  rw [List.foldl_cons, List.foldl_assoc, Version.max_comm]

/-- A slot that is filled with the entries of a collection and then given a deadline holds
the collection. -/
theorem Content.Sound.fill_updates (h : content.Sound) (hkind : content.kind ≠ .string)
    (deadline : Option Millis) (version : Version) :
    (Update.fill content.updates none).map (·.reschedule deadline version) =
      some ⟨content, content.versions.foldl max version, deadline⟩ := by
  have hmade := h.foldl_enter hkind
  have hkinds : ∀ update ∈ content.updates, update.kind = content.kind :=
    fun _ hmem => kind_of_mem_updates hmem
  rw [← map_version_updates]
  cases hupdates : content.updates with
  | nil =>
    -- a collection that is kept has entries
    have hempty : (blank content.kind).isEmpty = true := by
      cases content with
      | string => exact absurd rfl hkind
      | hash | set | zset => simp [blank, Content.kind, isEmpty, Ranking.empty]
    rw [hupdates, List.foldl_nil] at hmade
    rw [hmade, h.filled] at hempty
    cases hempty
  | cons first rest =>
    rw [hupdates] at hmade hkinds
    have hfirst : first.kind = content.kind := hkinds first List.mem_cons_self
    have hrest : ∀ update ∈ rest, update.kind ≠ .string :=
      fun update hmem => (hkinds update (List.mem_cons_of_mem _ hmem)).trans_ne hkind
    rw [List.foldl_cons] at hmade
    rw [Update.fill_cons, Update.fill_some hrest, Option.map_some]
    simp only [Update.put, hfirst, hmade, Slot.reschedule, Version.max_foldl_max, List.map_cons]
    cases content with
    | string => exact absurd rfl hkind
    | hash | set | zset => rfl

/-- Whether a consistent store is what another one is if something else is live under one
key. -/
structure Store.Rewritten (now : Millis) (key : Bytes) (slot? : Option Slot)
    (before after : Store) : Prop where
  isOpen : after.closed = false
  consistent : after.Consistent
  live : after.live? now key = slot?
  others : ∀ other, key ≠ other → after.slots[other]? = before.slots[other]?

namespace Store.Rewritten

variable {before : Store} {slot? : Option Slot}

theorem refl (hopen : store.closed = false) (hconsistent : store.Consistent) (now : Millis)
    (key : Bytes) : Rewritten now key (store.live? now key) store store :=
  ⟨hopen, hconsistent, rfl, fun _ _ => rfl⟩

theorem perform (h : Rewritten now key slot? before store) {c : Call} (hkey : c.key? = some key) :
    Rewritten now key (Slot.live? now (c.effect slot?)) before (store.perform now c).2 := by
  have hclose : c ≠ .close := by
    rintro rfl
    cases hkey
  refine ⟨(closed_perform hclose).trans h.isOpen, h.consistent.perform now c, ?_,
    fun other hother => ?_⟩
  · rw [live?_perform_self h.isOpen hkey, h.live]
  · have hne : c.key? ≠ some other := hkey ▸ fun hsame => hother (Option.some.inj hsame)
    rw [getElem?_perform_of_ne hclose hne, h.others other hother]

/-- A live slot that is there in the end has been put there. -/
theorem eq_replace (h : Rewritten now key (some slot) before store)
    (hopen : before.closed = false) (hconsistent : before.Consistent) :
    store = before.replace key (some slot) := by
  refine h.consistent.eq_of_slots (hconsistent.replace hopen key (some slot)) ?_ fun other => ?_
  · rw [h.isOpen, closed_replace, hopen]
  · rw [getElem?_replace]
    split
    · rename_i hkey
      subst hkey
      exact (live?_eq_some.mp h.live).1
    · rename_i hkey
      exact h.others other hkey

end Store.Rewritten

namespace Keys

/-- A key that is absent or holds a collection can be filled with entries of that kind. -/
theorem on_fill {before : Store} {slot? : Option Slot} {updates : List Update}
    (hstring : kind ≠ .string) (hkinds : ∀ update ∈ updates, update.kind = kind)
    (htakes : ∀ slot ∈ slot?, slot.content.Takes kind)
    (h : Store.Rewritten now key slot? before store) :
    ∃ after, (updates.forM fun update =>
        (discard (ask (update.call key)) : Script Failure Unit)).on now store = (.ok (), after) ∧
      Store.Rewritten now key (Update.fill updates slot?) before after := by
  induction updates generalizing store slot? with
  | nil => exact ⟨store, rfl, h⟩
  | cons update rest ih =>
    have hkind : update.kind = kind := hkinds update List.mem_cons_self
    have hkey : (update.call key).key? = some key := by cases update <;> rfl
    have hready : store.Ready now key update.kind := ⟨h.isOpen, by rwa [h.live, hkind]⟩
    have hlive := Update.live?_call (hkind.trans_ne hstring) hready
    have hnext := h.perform hkey
    have hholds : store.Holds now key kind := by
      refine ⟨h.isOpen, fun slot hslot => ?_⟩
      rw [h.live] at hslot
      exact (htakes slot hslot).kind_eq hstring
    have hfills : (update.call key).fills = some kind := by
      cases update with
      | string => exact absurd hkind.symm hstring
      | _ => exact congrArg some hkind
    obtain ⟨answer, hanswer⟩ := hholds.answer_ok hfills hkey
    rw [← hnext.live, hlive, h.live] at hnext
    have hfirst : (discard (ask (update.call key)) : Script Failure Unit).on now store =
        (.ok (), (store.perform now (update.call key)).2) := by
      rw [Script.on_discard_ask, hanswer]
      rfl
    have hput : ∀ slot ∈ some (update.put slot?), slot.content.Takes kind := by
      rintro slot ⟨⟩
      exact hkind ▸ Update.takes_put (hkind ▸ htakes)
    obtain ⟨after, hrest, hafter⟩ :=
      ih (fun other hother => hkinds other (List.mem_cons_of_mem _ hother)) hput hnext
    refine ⟨after, ?_, hafter⟩
    rw [List.forM_eq_forM, List.forM_cons, Script.bind_eq, Script.on_bind_ok hfirst]
    exact hrest

/-- What is under a name once it has been cleared, filled and given a deadline. -/
theorem on_refill (hopen : store.closed = false) (hconsistent : store.Consistent)
    {updates : List Update} (hstring : kind ≠ .string)
    (hkinds : ∀ update ∈ updates, update.kind = kind) (target : Bytes)
    (deadline : Option Millis) (version : Version) :
    ∃ after, ((discard (ask (.delete target)) : Script Failure Unit).bind fun _ =>
        (updates.forM fun update => discard (ask (update.call target))).bind fun _ =>
          discard (ask (.setDeadline target deadline version))).on now store = (.ok (), after) ∧
      Store.Rewritten now target
        (Slot.live? now ((Update.fill updates none).map (·.reschedule deadline version)))
        store after := by
  have hdelete : (discard (ask (.delete target)) : Script Failure Unit).on now store =
      (.ok (), (store.perform now (.delete target)).2) := by
    rw [Script.on_discard_ask, Store.perform, Store.delete, hopen]
    rfl
  have hcleared : Store.Rewritten now target none store (store.perform now (.delete target)).2 :=
    (Store.Rewritten.refl hopen hconsistent now target).perform (c := .delete target) rfl
  have hnone : ∀ slot ∈ (none : Option Slot), slot.content.Takes kind := by
    rintro slot ⟨⟩
  obtain ⟨between, hfill, hfilled⟩ := on_fill hstring hkinds hnone hcleared
  obtain ⟨answer, hanswer⟩ := Store.answer_setDeadline hfilled.isOpen now target deadline version
  refine ⟨(between.perform now (.setDeadline target deadline version)).2, ?_,
    hfilled.perform (c := .setDeadline target deadline version) rfl⟩
  rw [Script.on_bind_ok hdelete, Script.on_bind_ok hfill, Script.on_discard_ask, hanswer]
  rfl

end Keys

/-! ## Renaming -/

/-- What becomes of the slot of a key that is renamed at a version.  The item of a string
takes that version, and the entries of a collection keep their own. -/
def Slot.moved (version : Version) (slot : Slot) : Slot where
  content := match slot.content with
    | .string item => .string { item with version }
    | content => content
  version := slot.content.versions.foldl max version
  deadline := slot.deadline

/-- Whether the entries of a sorted set can be counted in a 64-bit word. -/
def Slot.Bounded (slot : Slot) : Prop :=
  slot.content.kind = .zset → slot.content.entries < UInt64.size

/-- A string that is put over nothing or over something older has moved. -/
theorem Slot.putItem_eq_moved (item : Item) (old : Version) (deadline : Option Millis)
    {slot? : Option Slot} (hlower : ∀ slot, slot? = some slot → slot.version < version) :
    putItem ⟨item.value, version⟩ deadline slot? =
      moved version ⟨.string item, old, deadline⟩ := by
  have hversion : (putItem ⟨item.value, version⟩ deadline slot?).version = version :=
    version_putItem deadline fun slot hslot => UInt64.le_of_lt (hlower slot hslot)
  rw [Slot.mk.injEq]
  exact ⟨rfl, hversion, rfl⟩

/-- A live collection that is rebuilt has moved. -/
theorem Slot.live?_rebuilt (hlive : slot.isExpired now = false) (hsound : slot.content.Sound)
    (hkind : slot.content.kind ≠ .string) (version : Version) :
    Slot.live? now ((Update.fill slot.content.updates none).map
      (·.reschedule slot.deadline version)) = some (slot.moved version) := by
  have hmoved : (⟨slot.content, slot.content.versions.foldl max version, slot.deadline⟩ : Slot) =
      slot.moved version := by
    obtain ⟨content, _, _⟩ := slot
    cases content with
    | string => exact absurd rfl hkind
    | hash | set | zset => rfl
  have hunexpired : (slot.moved version).isExpired now = false := hlive
  rw [hsound.fill_updates hkind, hmoved, Slot.live?_some, if_neg (Bool.eq_false_iff.mp hunexpired)]

namespace Keys

variable {onlyIfAbsent : Bool}

/-- The entries of a live sorted set are read by rank, and these are all if they can be
counted. -/
theorem on_read_ranking {ranking : Ranking} (hopen : store.closed = false)
    (hslot : store.live? now source = some slot) (hzset : slot.content = .zset ranking)
    (hsound : slot.content.Sound) (rest : List Ranked → Script Failure α) :
    ∃ entries, ((ask (.rankedCount source)).bind fun size =>
        if size = 0 then rest []
        else (ask (.byRank source 0 (.ofNat (size - 1)))).bind rest).on now store =
          (rest entries).on now store ∧
      (slot.Bounded → entries = ranking.entries) := by
  have hcoherent := hsound.coherent ranking hzset
  have hcount : (ask (.rankedCount source)).on now store = (.ok ranking.size, store) := by
    rw [Script.on_ask]
    exact Prod.ext (Store.answer_rankedCount hopen hslot hzset) rfl
  have hread : (ask (.byRank source 0 (.ofNat (ranking.size - 1)))).on now store =
      (.ok ((ranking.rankWindow 0 (.ofNat (ranking.size - 1))).map ranking.entry), store) := by
    rw [Script.on_ask]
    exact Prod.ext (Store.answer_byRank hopen hslot hzset (by simp))
      (Store.perform_of_reads rfl)
  rw [Script.on_bind_ok hcount]
  split
  · rename_i hsize
    refine ⟨[], rfl, fun _ => ?_⟩
    rw [← hcoherent.length_entries] at hsize
    exact (List.length_eq_zero_iff.mp hsize).symm
  · rename_i hsize
    refine ⟨_, Script.on_bind_ok hread rest, fun hbounded => ?_⟩
    have hcounted : ranking.size < UInt64.size := by
      rw [Slot.Bounded, hzset] at hbounded
      exact hbounded rfl
    have hstandings : ranking.standings.length = (UInt64.ofNat ranking.size).toNat := by
      rw [hcoherent.length_standings, UInt64.toNat_ofNat_of_lt' hcounted]
    have hlast : UInt64.ofNat (ranking.size - 1) = UInt64.ofNat ranking.size - 1 :=
      UInt64.ofNat_sub (Nat.one_le_iff_ne_zero.mpr hsize)
    rw [hlast, Ranking.rankWindow_all hstandings, Ranking.entries]

/-- A copy over nothing or over something older leaves the moved slot under its target. -/
theorem on_copy (hopen : store.closed = false) (hconsistent : store.Consistent)
    (hslot : store.live? now source = some slot) (hsound : slot.content.Sound)
    (hlower : ∀ old, store.live? now target = some old → old.version < version) :
    ∃ after slot?, (copy source target slot.record version).on now store = (.ok (), after) ∧
      Store.Rewritten now target slot? store after ∧
      (slot.Bounded → slot? = some (slot.moved version)) := by
  have hlive := (Store.live?_eq_some.mp hslot).2
  have hrebuilt := Slot.live?_rebuilt hlive hsound
  have hread {α : Type} (absent : α) (question : Slot → Except Failure α) :
      store.view now source absent question = question slot := by
    rw [Store.view_open hopen, hslot]
  have hupdates : ∀ update ∈ slot.content.updates, update.kind = slot.content.kind :=
    fun _ hmem => Content.kind_of_mem_updates hmem
  obtain ⟨content, old, deadline⟩ := slot
  cases content with
  | string item =>
    have hget : (ask (.get source)).on now store = (.ok (some item), store) := by
      rw [Script.on_ask, Store.perform, hread]
      rfl
    have hput : (store.perform now (.put target ⟨item.value, version⟩ deadline)).1 = .ok () :=
      Store.fst_perform_put hopen _ _ _
    have hafter := (Store.Rewritten.refl hopen hconsistent now target).perform
      (c := .put target ⟨item.value, version⟩ deadline) rfl
    refine ⟨_, _, ?_, hafter, fun _ => ?_⟩
    · exact (Script.on_bind_ok hget _).trans ((Script.on_ask _).trans (Prod.ext hput rfl))
    · rw [Call.effect, Slot.putItem_eq_moved item old deadline hlower, Slot.live?_some]
      exact if_neg (Bool.eq_false_iff.mp hlive)
  | hash fields =>
    have hhash : Kind.hash ≠ .string := by decide
    have hfields : (ask (.fields source)).on now store = (.ok fields.toList, store) := by
      rw [Script.on_ask, Store.perform, hread]
      rfl
    obtain ⟨after, hrun, hafter⟩ :=
      on_refill hopen hconsistent hhash hupdates target deadline version
    refine ⟨after, _, ?_, hafter, fun _ => hrebuilt hhash version⟩
    rw [← hrun, Content.updates, List.forM_eq_forM, List.forM_map]
    exact Script.on_bind_ok hfields _
  | set members =>
    have hset : Kind.set ≠ .string := by decide
    have hmembers : (ask (.members source)).on now store = (.ok members.toList, store) := by
      rw [Script.on_ask, Store.perform, hread]
      rfl
    obtain ⟨after, hrun, hafter⟩ :=
      on_refill hopen hconsistent hset hupdates target deadline version
    refine ⟨after, _, ?_, hafter, fun _ => hrebuilt hset version⟩
    rw [← hrun, Content.updates, List.forM_eq_forM, List.forM_map]
    exact Script.on_bind_ok hmembers _
  | zset ranking =>
    have hzset : Kind.zset ≠ .string := by decide
    obtain ⟨entries, hread, hall⟩ := on_read_ranking hopen hslot rfl hsound fun entries =>
      (discard (ask (.delete target)) : Script Failure Unit).bind fun _ =>
        (entries.forM fun entry =>
          discard (ask (.putScore target entry.member entry.score entry.version))).bind fun _ =>
            discard (ask (.setDeadline target deadline version))
    let updates := entries.map fun entry =>
      Update.score ⟨entry.member, entry.score, entry.version⟩ {}
    have hkinds : ∀ update ∈ updates, update.kind = .zset := by
      intro update hmem
      obtain ⟨entry, _, rfl⟩ := List.mem_map.mp hmem
      rfl
    obtain ⟨after, hrun, hafter⟩ :=
      on_refill hopen hconsistent hzset hkinds target deadline version
    refine ⟨after, _, ?_, hafter, fun hbounded => ?_⟩
    · rw [List.forM_eq_forM, List.forM_map] at hrun
      exact hread.trans hrun
    · rw [← hrebuilt hzset version, Content.updates, ← hall hbounded]

/-- A rename is granted if there is something to rename and nothing that stands in its way. -/
theorem on_rename_of_granted (hne : source ≠ target) (hopen : store.closed = false)
    (hversion : version ≠ 0) (hslot : store.live? now source = some slot)
    (hgranted : ∀ old, store.live? now target = some old →
      onlyIfAbsent = false ∧ old.version < version) :
    (rename source target version onlyIfAbsent).on now store =
      ((move source target slot.record version).mapRefusal Failure.status).on now store := by
  have hrecord : (requireRecord source).on now store = (.ok slot.record, store) := by
    rw [on_requireRecord, Store.record_open hopen, hslot]
    rfl
  have hfound : (query (.record target)).on now store =
      (.ok ((store.live? now target).map Slot.record), store) := by
    rw [on_query_record, Store.record_open hopen]
    rfl
  have hverdict : WriteMode.verdict { onlyIfAbsent }
      (((store.live? now target).map Slot.record).map Record.version) version = .ok := by
    cases htarget : store.live? now target with
    | none => rfl
    | some old =>
      obtain ⟨hfree, hlt⟩ := hgranted old htarget
      rw [hfree]
      exact if_neg (UInt64.not_le.mpr hlt)
  rw [rename, requireVersion_of_ne hversion]
  refine (Script.on_bind_ok hrecord _).trans ?_
  rw [if_neg hne]
  refine (Script.on_bind_ok hfound _).trans ?_
  rw [hverdict]

/-- A rename that is granted puts the moved slot under its target and takes the source away. -/
theorem on_rename_ok (h : store.Reachable) (hne : source ≠ target) (hversion : version ≠ 0)
    (hslot : store.live? now source = some slot)
    (hgranted : ∀ old, store.live? now target = some old →
      onlyIfAbsent = false ∧ old.version < version) :
    ∃ between slot?, (rename source target version onlyIfAbsent).on now store =
        (.ok (), between.replace source none) ∧
      Store.Rewritten now target slot? store between ∧
      (slot.Bounded → slot? = some (slot.moved version)) := by
  have hopen := h.open_of_live hslot
  have hsound := h.sound source slot (Store.live?_eq_some.mp hslot).1
  obtain ⟨between, slot?, hcopy, hbetween, hmoved⟩ :=
    on_copy hopen h.consistent hslot hsound fun old hold => (hgranted old hold).2
  have hmove : (move source target slot.record version).on now store =
      (.ok (), between.replace source none) := by
    rw [move, Script.bind_eq, Script.on_bind_ok hcopy, Script.on_discard_ask, Store.perform,
      Store.delete, hbetween.isOpen]
    rfl
  refine ⟨between, slot?, ?_, hbetween, hmoved⟩
  rw [on_rename_of_granted hne hopen hversion hslot hgranted, Script.on_mapRefusal, hmove]
  rfl

end Keys

namespace Command

variable {context : Context} {onlyIfAbsent : Bool} {reply : Reply} {after : Store}

/-- A rename to another name is granted exactly if it has a version, there is something
to rename, and what is live under the new name, if anything, is older and may be
replaced.  Then the whole key moves and nothing else changes: no slot is left under the
old name, the new one holds the moved slot whatever was there before, and the agenda
lists its deadline there.  A sorted set is read by rank, and ranks are 64-bit words, so
it moves as a whole if its entries can be counted in one. -/
theorem rename_moves (h : store.Reachable) (hne : source ≠ target)
    (hrun : (rename source target version onlyIfAbsent).run context store = (reply, after)) :
    (reply.status = .ok ↔
      version ≠ 0 ∧ (∃ slot, store.live? context.now source = some slot) ∧
        ∀ old, store.live? context.now target = some old →
          onlyIfAbsent = false ∧ old.version < version) ∧
    ∀ slot, store.live? context.now source = some slot → reply.status = .ok →
      after.slots[source]? = none ∧
      (∀ key, key ≠ source → key ≠ target → after.slots[key]? = store.slots[key]?) ∧
      (slot.Bounded →
        after.live? context.now target = some (slot.moved version) ∧
        after = (store.replace target (some (slot.moved version))).replace source none) := by
  rw [run_of_reply (by rfl)] at hrun
  have hgranted_of_ok : reply.status = .ok → version ≠ 0 ∧
      (∃ slot, store.live? context.now source = some slot) ∧
        ∀ old, store.live? context.now target = some old →
          onlyIfAbsent = false ∧ old.version < version := by
    intro hok
    rcases Keys.on_rename hne version onlyIfAbsent store with
      ⟨status, hstatus, hrefused⟩ | ⟨hversion, _, hgranted, slot, hslot, _⟩
    · rw [hrefused] at hrun
      cases hrun
      exact absurd hok hstatus
    · exact ⟨hversion, ⟨slot, hslot⟩, hgranted⟩
  refine ⟨⟨hgranted_of_ok, ?_⟩, fun slot hslot hok => ?_⟩
  · rintro ⟨hversion, ⟨slot, hslot⟩, hgranted⟩
    obtain ⟨between, slot?, hmove, _⟩ := Keys.on_rename_ok h hne hversion hslot hgranted
    rw [hmove] at hrun
    cases hrun
    rfl
  · obtain ⟨hversion, _, hgranted⟩ := hgranted_of_ok hok
    obtain ⟨between, slot?, hmove, hbetween, hmoved⟩ :=
      Keys.on_rename_ok h hne hversion hslot hgranted
    rw [hmove] at hrun
    cases hrun
    refine ⟨Store.getElem?_replace_self _ _ _, fun key hsource htarget => ?_, fun hbounded => ?_⟩
    · rw [Store.getElem?_replace, if_neg (Ne.symm hsource), hbetween.others key (Ne.symm htarget)]
    · rw [hmoved hbounded] at hbetween
      refine ⟨?_, ?_⟩
      · rw [Store.live?_replace, if_neg hne, hbetween.live]
      · rw [hbetween.eq_replace (h.open_of_live hslot) h.consistent]

/-- A sorted set of two members, one of them newer than the rename, takes the place of a
string with a later deadline. -/
theorem rename_moves_ranking :
    let context : Context := ⟨⟨9000⟩, .absolute⟩
    let store := (runAll [⟨context, .zadd [107] [⟨[97], 10, 6⟩, ⟨[98], -3, 2⟩] {}⟩,
      ⟨context, .expire [107] 7 .millis 6⟩, ⟨context, .setEx [108] ⟨[51], 4⟩ 50⟩] .empty).2
    let done := (rename [107] [108] 5 false).run context store
    done.1.status = .ok ∧ done.2.slots[([107] : Bytes)]? = none ∧
      ∃ slot, store.live? context.now [107] = some slot ∧
        done.2.live? context.now [108] = some (slot.moved 5) ∧
        done.2 = (store.replace [108] (some (slot.moved 5))).replace [107] none ∧
        (slot.moved 5).version = 6 ∧ (slot.moved 5).deadline = some 16 := by
  intro context store done
  have hreachable : store.Reachable := Store.Reachable.empty.runAll _
  have hne : ([107] : Bytes) ≠ [108] := by decide
  have hok : done.1.status = .ok := by decide
  have hshape : (store.live? context.now [107]).map
      (fun slot => (slot.content.entries, (slot.moved 5).version, slot.deadline)) =
        some (2, 6, some 16) := by decide
  obtain ⟨slot, hslot, hfields⟩ := Option.map_eq_some_iff.mp hshape
  have hsize : slot.content.entries = 2 := congrArg (·.1) hfields
  have hbounded : slot.Bounded := fun _ => by rw [hsize]; decide
  obtain ⟨_, hmoved⟩ := rename_moves hreachable hne (Prod.eta done).symm
  obtain ⟨hgone, _, hthere⟩ := hmoved slot hslot hok
  obtain ⟨hlive, hstore⟩ := hthere hbounded
  exact ⟨hok, hgone, slot, hslot, hlive, hstore, congrArg (·.2.1) hfields,
    congrArg (·.2.2) hfields⟩

end Command

end Keyspace
