import Keyspace.Proofs.Applied
import Keyspace.Proofs.Convergence
import Keyspace.Proofs.Idempotence
import Keyspace.Proofs.Stamps

/-!
# Settled batches

A batch to a collection gives each of its items a turn.  An item that has had its
turn is settled: the part that it adds is as new as the item, or the part that it
removes is gone or newer.  The turns of the other items keep it settled, and at a
settled item there is nothing left to do.  So a batch that is made again changes
nothing, whatever names are repeated in it.

There are four groups.

* Loops.  `Script.snd_on_mapM_again` is the argument for any loop, from what one
  turn brings about and keeps.
* Additions.  An item is settled if its update is stale (`Update.stale`), and
  updates of other parts or older ones keep it stale (`Update.stale_absorb_of_stale`).
* Removals.  `Content.without` is what a removal makes of a collection, and it is
  the part itself that goes (`Place.found_clear_self`).
* Batches.  The checks of a batch see to it that its key takes the items
  (`ready_of_checkKind`), and `snd_on_batch_again` puts the loop behind them.
-/

namespace Keyspace

variable {now : Millis} {store : Store} {key : Bytes} {kind : Kind} {slot? : Option Slot}
  {version : Version} {place other : Place} {content : Content} {part : Part}

/-! ## Loops -/

section Loops

variable {ε ι α : Type} {step : ι → Script ε α}

/-- Every turn of a loop settles its item, and the turns after it keep the item
settled. -/
theorem Script.settled_mapM (inv : Store → Prop) (settled : ι → Store → Prop)
    (hturn : ∀ item store, inv store → ∃ result after,
      (step item).on now store = (.ok result, after) ∧ inv after ∧ settled item after)
    (hkeep : ∀ item other store, inv store → settled item store →
      settled item ((step other).on now store).2) (items : List ι) (h : inv store) :
    inv ((items.mapM step).on now store).2 ∧
      ∀ item ∈ items, settled item ((items.mapM step).on now store).2 := by
  induction items generalizing store with
  | nil => exact ⟨h, nofun⟩
  | cons item rest ih =>
    obtain ⟨result, between, hfirst, hbetween, hitem⟩ := hturn item store h
    have htotal : ∀ other before, inv before ∧ settled item before →
        inv ((step other).on now before).2 ∧ settled item ((step other).on now before).2 := by
      rintro other before ⟨hbefore, hsettled⟩
      obtain ⟨_, after, hother, hafter, _⟩ := hturn other before hbefore
      exact ⟨hother ▸ hafter, hkeep item other before hbefore hsettled⟩
    have hrest : settled item ((rest.mapM step).on now between).2 :=
      (Script.on_mapM_keeps (fun store => inv store ∧ settled item store)
        (fun other _ => htotal other) ⟨hbetween, hitem⟩).2
    have hafter : (((item :: rest).mapM step).on now store).2 =
        ((rest.mapM step).on now between).2 := by
      rw [List.mapM_cons, bind_eq, on_bind_ok hfirst, bind_eq, on_bind]
      rcases (rest.mapM step).on now between with ⟨_ | _, _⟩ <;> rfl
    obtain ⟨hinv, hothers⟩ := ih hbetween
    rw [hafter]
    refine ⟨hinv, fun other hother => ?_⟩
    rcases List.mem_cons.mp hother with rfl | hother
    · exact hrest
    · exact hothers other hother

/-- A loop that is run again changes nothing, if a turn does nothing at an item that is
settled, and settles it otherwise. -/
theorem Script.snd_on_mapM_again (inv : Store → Prop) (settled : ι → Store → Prop)
    [∀ item store, Decidable (settled item store)] (next : ι → Store → Store)
    (htotal : ∀ item store, ∃ result after, (step item).on now store = (.ok result, after))
    (hstep : ∀ item store, inv store →
      ((step item).on now store).2 = if settled item store then store else next item store)
    (hnext : ∀ item store, inv store → inv (next item store) ∧ settled item (next item store))
    (hkeep : ∀ item other store, inv store → settled item store → ¬ settled other store →
      settled item (next other store)) (items : List ι) (h : inv store) :
    ((items.mapM step).on now ((items.mapM step).on now store).2).2 =
      ((items.mapM step).on now store).2 := by
  have hturn : ∀ item store, inv store → ∃ result after,
      (step item).on now store = (.ok result, after) ∧ inv after ∧ settled item after := by
    intro item store hstore
    obtain ⟨result, after, hrun⟩ := htotal item store
    have hafter : after = if settled item store then store else next item store := by
      rw [← hstep item store hstore, hrun]
    refine ⟨result, after, hrun, ?_⟩
    rw [hafter]
    split
    · rename_i hsettled
      exact ⟨hstore, hsettled⟩
    · exact hnext item store hstore
  have hothers : ∀ item other store, inv store → settled item store →
      settled item ((step other).on now store).2 := by
    intro item other store hstore hsettled
    rw [hstep other store hstore]
    split
    · exact hsettled
    · rename_i hother
      exact hkeep item other store hstore hsettled hother
  obtain ⟨hinv, hsettled⟩ := Script.settled_mapM inv settled hturn hothers items h
  generalize ((items.mapM step).on now store).2 = after at hinv hsettled
  refine Script.on_mapM_keeps (fun store => store = after) ?_ rfl
  rintro item hitem _ rfl
  rw [hstep item _ hinv, if_pos (hsettled item hitem)]

end Loops

/-! ## Additions -/

/-- Whether a store is open and a key, if it is live, takes updates of a kind. -/
structure Store.Ready (now : Millis) (key : Bytes) (kind : Kind) (store : Store) : Prop where
  isOpen : store.closed = false
  takes : ∀ slot ∈ store.live? now key, slot.content.Takes kind

namespace Update

variable {a b update : Update}

/-- An update that finds nothing to do finds nothing to do after another one. -/
theorem stale_absorb_of_stale (hkind : a.kind = b.kind)
    (h : ∀ slot ∈ slot?, slot.content.Takes a.kind) (hstale : b.stale slot? = true) :
    b.stale (a.absorb slot?) = true := by
  by_cases hplace : a.place = b.place
  · have hfound := found_absorb h
    split at hfound
    · rename_i hsame
      rwa [absorb, if_pos hsame]
    · rename_i hnewer
      -- the part was as new as `b` and older than `a`, which is there now
      have hle : b.version ≤ a.version := by
        simp only [stale, found, Option.any_eq_true, decide_eq_true_eq, not_exists, not_and]
          at hstale hnewer
        obtain ⟨part, hpart, hversion⟩ := hstale
        have hlt := hnewer part (hplace ▸ hpart)
        exact UInt64.le_trans hversion (UInt64.le_of_lt (UInt64.not_le.mp hlt))
      exact stale_of_le hplace.symm hle (stale_absorb h)
  · rw [stale, found_absorb_of_ne hkind hplace h]
    exact hstale

/-- What is live under the key of an update after its call. -/
theorem live?_call (hstring : update.kind ≠ .string) (h : store.Ready now key update.kind) :
    (store.perform now (update.call key)).2.live? now key =
      some (update.put (store.live? now key)) := by
  have hkey : (update.call key).key? = some key := by cases update <;> rfl
  have hc : (update.call key).setsDeadline = false := by
    cases update with
    | string => exact absurd rfl hstring
    | _ => rfl
  have hlive : Slot.live? now (store.live? now key) = store.live? now key := by
    rw [Store.live?_eq, Slot.live?_live?]
  have heffect := effect_call h.takes key
  rw [Store.live?_perform_self h.isOpen hkey, heffect, Slot.live?_some,
    Call.isExpired_of_effect hc hlive heffect, if_neg Bool.false_ne_true]

/-- A key that takes an update still takes updates of that kind after its call. -/
theorem ready_call (hstring : update.kind ≠ .string) (h : store.Ready now key update.kind) :
    (store.perform now (update.call key)).2.Ready now key update.kind := by
  refine ⟨?_, fun slot hslot => ?_⟩
  · rw [Store.closed_perform (by cases update <;> nofun), h.isOpen]
  · rw [live?_call hstring h] at hslot
    cases hslot
    exact takes_put h.takes

/-- An update that has been made finds nothing to do the next time. -/
theorem stale_call (hstring : update.kind ≠ .string) (h : store.Ready now key update.kind) :
    update.stale ((store.perform now (update.call key)).2.live? now key) = true := by
  have hplace : update.place ≠ .whole := fun hwhole => hstring (congrArg Place.kind hwhole)
  have hfound : update.found (some (update.put (store.live? now key))) = some update.written :=
    part?_put_of_ne_whole hplace h.takes
  rw [live?_call hstring h, stale, hfound, Option.any_some, version_written]
  exact decide_eq_true (UInt64.le_refl _)

/-- A loop of updates that is run again changes nothing, if every update is made
unless it has no version or is stale. -/
theorem snd_on_mapM_again {ι α : Type} {step : ι → Script Status α} (update : ι → Update)
    (hkind : ∀ item, (update item).kind = kind) (hstring : kind ≠ .string)
    (htotal : ∀ item store, ∃ result after, (step item).on now store = (.ok result, after))
    (hstep : ∀ item store, store.Ready now key kind → ((step item).on now store).2 =
      if (update item).version = 0 ∨ (update item).stale (store.live? now key) = true then store
      else (store.perform now ((update item).call key)).2)
    (items : List ι) (h : store.Ready now key kind) :
    ((items.mapM step).on now ((items.mapM step).on now store).2).2 =
      ((items.mapM step).on now store).2 := by
  have hready : ∀ item (store : Store), store.Ready now key kind →
      store.Ready now key (update item).kind :=
    fun item store hstore => hkind item ▸ hstore
  have hitem : ∀ item, (update item).kind ≠ .string := fun item => (hkind item).trans_ne hstring
  refine Script.snd_on_mapM_again (Store.Ready now key kind) _ _ htotal hstep
    (fun item store hstore => ?_) (fun item other store hstore hsettled hother => ?_) items h
  · refine ⟨hkind item ▸ ready_call (hitem item) (hready item store hstore), .inr ?_⟩
    exact stale_call (hitem item) (hready item store hstore)
  · refine hsettled.imp_right fun hstale => ?_
    have hafter : (store.perform now ((update other).call key)).2.live? now key =
        (update other).absorb (store.live? now key) := by
      rw [live?_call (hitem other) (hready other store hstore), absorb, if_neg (not_or.mp hother).2]
    rw [hafter]
    exact stale_absorb_of_stale ((hkind other).trans (hkind item).symm)
      (hready other store hstore).takes hstale

end Update

/-! ## Removals -/

/-- A collection without one of its parts. -/
def Content.without (place : Place) (content : Content) : Content :=
  match place, content with
  | .field name, .hash fields => .hash (fields.erase name)
  | .member name, .set members => .set (members.erase name)
  | .score name, .zset ranking => .zset (ranking.erase name)
  | _, content => content

/-- The call that removes a part. -/
def Place.drop (key : Bytes) (version : Version) : Place → Call
  | .whole => .delete key
  | .field name => .dropField key name version
  | .member name => .dropMember key name version
  | .score name => .dropScore key name version

namespace Content

theorem part?_without_self (place : Place) (content : Content) :
    (content.without place).part? place = none := by
  cases place <;> cases content <;> simp [without, part?, Ranking.getElem?_erase]

/-- A removal leaves no part that was not there. -/
theorem part?_of_without (h : (content.without place).part? other = some part) :
    content.part? other = some part := by
  cases place with
  | whole => exact h
  | field =>
    cases content with
    | hash => exact part?_hash_erase h
    | _ => exact h
  | member =>
    cases content with
    | set => exact part?_set_erase h
    | _ => exact h
  | score =>
    cases content with
    | zset => exact part?_zset_erase h
    | _ => exact h

theorem takes_without (h : content.Takes place.kind) : (content.without place).Takes place.kind := by
  cases place with
  | whole => exact .string _
  | field => cases h; exact .hash _
  | member => cases h; exact .set _
  | score =>
    cases h with
    | zset hranking => exact .zset (hranking.erase _)

end Content

namespace Place

/-- What a removal makes of the live slot of its key. -/
def clear (place : Place) (version : Version) (slot : Slot) : Option Slot :=
  (Slot.raise { slot with content := slot.content.without place } version).unlessEmpty

/-- What one part of a key holds. -/
def found (place : Place) (slot? : Option Slot) : Option Part :=
  slot?.bind fun slot => slot.content.part? place

theorem effect_drop (hplace : place.kind ≠ .string)
    (h : ∀ slot ∈ slot?, slot.content.Takes place.kind) (key : Bytes) (version : Version) :
    (place.drop key version).effect slot? = slot?.bind (place.clear version) := by
  cases slot? with
  | none =>
    cases place with
    | whole => exact absurd rfl hplace
    | _ => rfl
  | some slot =>
    have htakes := h slot rfl
    obtain ⟨content, old, deadline⟩ := slot
    cases place with
    | whole => exact absurd rfl hplace
    | field => cases htakes; rfl
    | member => cases htakes; rfl
    | score => cases htakes; rfl

/-- What is kept under the key of a removal after its call. -/
theorem getElem?_drop (hplace : place.kind ≠ .string) (h : store.Ready now key place.kind)
    (version : Version) :
    (store.perform now (place.drop key version)).2.slots[key]? =
      (store.live? now key).bind (place.clear version) := by
  have hkept : (store.perform now (place.drop key version)).2.slots[key]? =
      (place.drop key version).effect (store.live? now key) := by
    cases place with
    | whole => exact absurd rfl hplace
    | _ => exact Store.getElem?_revise_self h.isOpen
  rw [hkept, effect_drop hplace h.takes]

/-- What is live under the key of a removal after its call. -/
theorem live?_drop (hplace : place.kind ≠ .string) (h : store.Ready now key place.kind)
    (version : Version) :
    (store.perform now (place.drop key version)).2.live? now key =
      (store.live? now key).bind (place.clear version) := by
  have hkey : (place.drop key version).key? = some key := by cases place <;> rfl
  have hc : (place.drop key version).setsDeadline = false := by cases place <;> rfl
  have hlive : Slot.live? now (store.live? now key) = store.live? now key := by
    rw [Store.live?_eq, Slot.live?_live?]
  have heffect := effect_drop hplace h.takes key version
  rw [Store.live?_perform_self h.isOpen hkey, heffect]
  cases hnext : (store.live? now key).bind (place.clear version) with
  | none => rfl
  | some next =>
    rw [Slot.live?_some, Call.isExpired_of_effect hc hlive (heffect.trans hnext),
      if_neg Bool.false_ne_true]

/-- A slot that is left by a removal is the slot before it without the part. -/
theorem of_mem_clear {slot : Slot} (h : slot ∈ slot?.bind (place.clear version)) :
    ∃ old ∈ slot?, slot.content = old.content.without place := by
  obtain ⟨old, hold, hslot⟩ := Option.bind_eq_some_iff.mp h
  exact ⟨old, hold, by rw [Slot.unlessEmpty_eq_some hslot]; rfl⟩

/-- A key that takes a removal still takes removals of that kind after its call. -/
theorem ready_drop (hplace : place.kind ≠ .string) (h : store.Ready now key place.kind)
    (version : Version) :
    (store.perform now (place.drop key version)).2.Ready now key place.kind := by
  refine ⟨?_, fun slot hslot => ?_⟩
  · rw [Store.closed_perform (by cases place <;> nofun), h.isOpen]
  · rw [live?_drop hplace h] at hslot
    obtain ⟨old, hold, hcontent⟩ := of_mem_clear hslot
    rw [hcontent]
    exact Content.takes_without (h.takes old hold)

theorem found_clear_self (place : Place) (version : Version) (slot? : Option Slot) :
    place.found (slot?.bind (place.clear version)) = none := by
  rw [found, Option.bind_eq_none_iff]
  intro slot hslot
  obtain ⟨old, _, hcontent⟩ := of_mem_clear hslot
  rw [hcontent, Content.part?_without_self]

theorem found_of_clear (h : part ∈ other.found (slot?.bind (place.clear version))) :
    part ∈ other.found slot? := by
  obtain ⟨slot, hslot, hpart⟩ := Option.bind_eq_some_iff.mp h
  obtain ⟨old, hold, hcontent⟩ := of_mem_clear hslot
  rw [hcontent] at hpart
  exact Option.bind_eq_some_iff.mpr ⟨old, hold, Content.part?_of_without hpart⟩

/-- Whether a removal finds nothing that is as old as it is read off the version of
the part. -/
theorem newer_eq (place : Place) {version? : Option Version}
    (h : (place.found slot?).map Part.version = version?) :
    (place.found slot?).all (version < ·.version) = version?.all (version < ·) := by
  rw [← h, Option.all_map]

/-- A loop of removals that is run again changes nothing, if every removal is made
unless it has no version or finds nothing that is as old as it. -/
theorem snd_on_mapM_again {ι α : Type} {step : ι → Script Status α} (place : ι → Place)
    (version : ι → Version) (hkind : ∀ item, (place item).kind = kind) (hstring : kind ≠ .string)
    (htotal : ∀ item store, ∃ result after, (step item).on now store = (.ok result, after))
    (hstep : ∀ item store, store.Ready now key kind → ((step item).on now store).2 =
      if version item = 0 ∨ ((place item).found (store.live? now key)).all
          (version item < ·.version) = true then store
      else (store.perform now ((place item).drop key (version item))).2)
    (items : List ι) (h : store.Ready now key kind) :
    ((items.mapM step).on now ((items.mapM step).on now store).2).2 =
      ((items.mapM step).on now store).2 := by
  have hready : ∀ item (store : Store), store.Ready now key kind →
      store.Ready now key (place item).kind :=
    fun item store hstore => hkind item ▸ hstore
  have hitem : ∀ item, (place item).kind ≠ .string := fun item => (hkind item).trans_ne hstring
  refine Script.snd_on_mapM_again (Store.Ready now key kind) _ _ htotal hstep
    (fun item store hstore => ?_) (fun item other store hstore hsettled _ => ?_) items h
  · refine ⟨hkind item ▸ ready_drop (hitem item) (hready item store hstore) _, .inr ?_⟩
    rw [live?_drop (hitem item) (hready item store hstore), found_clear_self]
    rfl
  · refine hsettled.imp_right fun hnewer => ?_
    rw [live?_drop (hitem other) (hready other store hstore), Option.all_eq_true]
    intro part hpart
    exact (Option.all_eq_true ..).mp hnewer part (found_of_clear hpart)

end Place

/-! ## Batches -/

section Batches

variable {terms : Terms}

/-- A key that has passed the check takes updates of the kind. -/
theorem ready_of_checkKind (hsound : store.Sound) {found : Option Record} {after : Store}
    (h : (checkKind key terms kind).on now store = (.ok found, after)) :
    store.Ready now key kind := by
  obtain ⟨hfound, _, hkind⟩ := record_of_checkKind h
  obtain ⟨hopen, rfl⟩ := Store.record_eq_ok.mp hfound
  refine ⟨hopen, fun slot hslot => ?_⟩
  rw [Option.mem_def.mp hslot] at hkind
  exact (hsound key slot (Store.live?_eq_some.mp hslot).1).takes (.inr (of_decide_eq_true hkind))

theorem ready_of_checkExisting (hsound : store.Sound) {record : Record} {after : Store}
    (h : (checkExisting key terms kind).on now store = (.ok record, after)) :
    store.Ready now key kind := by
  obtain ⟨found, hkind, _⟩ := Script.Calls.on_bind_eq_ok (calls_checkKind (by rfl) kind) h
  exact ready_of_checkKind hsound hkind

/-- A batch that is made again changes nothing if its loop changes nothing. -/
theorem snd_on_batch_again {ι α β : Type} {check : Script Status β} {step : ι → Script Status α}
    {items : List ι} (hcheck : check.Asks (· ≠ .ok))
    (htotal : ∀ item store, ∃ result after, (step item).on now store = (.ok result, after))
    (hloop : ∀ found, check.on now store = (.ok found, store) →
      ((items.mapM step).on now ((items.mapM step).on now store).2).2 =
        ((items.mapM step).on now store).2) :
    let script : Script Status (List α) :=
      (requireSome items).bind fun _ => (discard check).bind fun _ => items.mapM step
    (script.on now (script.on now store).2).2 = (script.on now store).2 := by
  intro script
  rcases Command.batch_cases hcheck htotal store with
    ⟨status, _, hrefused⟩ | ⟨found, results, after, hfound, hrun, hbatch⟩
  · have hsame : script.on now store = _ := hrefused
    rw [hsame, hsame]
  · have hsame : script.on now store = _ := hbatch
    have hagain := hloop found hfound
    rw [hrun] at hagain
    rw [hsame]
    rcases Command.batch_cases hcheck htotal after with
      ⟨status, _, hrefused⟩ | ⟨_, _, final, _, hrerun, hbatch⟩
    · have hlast : script.on now after = _ := hrefused
      rw [hlast]
    · have hlast : script.on now after = _ := hbatch
      rw [hrerun] at hagain
      rw [hlast]
      exact hagain

/-- A removal that is checked against what it removes is made if it is not older. -/
theorem snd_on_requireCurrent {read write : Call} {answer : read.Answer} {β : Type}
    (stored : read.Answer → Option β) {stamp : β → Version}
    (hread : store.perform now read = (.ok answer, store)) :
    (((query read).bind fun found => (Script.ofOption .notExist (stored found)).bind fun value =>
        (requireCurrent (stamp value) version).bind fun _ =>
          (discard (query write)).bind fun _ => .done Status.ok).on now store).2 =
      if ((stored answer).map stamp).all (version < ·) then store
      else (store.perform now write).2 := by
  rw [Script.on_bind, Script.on_query, hread]
  show (((Script.ofOption .notExist (stored answer)).bind fun value =>
    (requireCurrent (stamp value) version).bind fun _ =>
      (discard (query write)).bind fun _ => .done Status.ok).on now store).2 = _
  cases stored answer with
  | none => rfl
  | some value =>
    show (((requireCurrent (stamp value) version).bind fun _ =>
      (discard (query write)).bind fun _ => .done Status.ok).on now store).2 = _
    unfold requireCurrent
    by_cases hlt : version < stamp value
    · simp only [Option.map_some, Option.all_some, hlt, decide_true, if_true]
      rfl
    · simp only [Option.map_some, Option.all_some, hlt, decide_false, if_false, Bool.false_eq_true]
      show (((discard (query write)).bind fun _ => .done Status.ok).on now store).2 = _
      rw [Script.snd_on_map, Script.discard_eq, Script.snd_on_map, Script.on_query]

end Batches

/-! ### Hashes -/

namespace Hashes

theorem snd_on_putOne (h : store.Ready now key .hash) (name : Bytes) (item : Item) :
    ((putOne key name item).on now store).2 =
      if item.version = 0 ∨ (Update.field name item {}).stale (store.live? now key) = true then
        store
      else (store.perform now (.putField key name item)).2 := by
  rw [putOne, Script.on_settle]
  refine snd_on_requireVersion fun _ => ?_
  exact (Script.snd_on_map _ _).trans (Update.snd_on_store h.isOpen h.takes {})

theorem snd_on_dropOne (h : store.Ready now key .hash) (name : Bytes) (version : Version) :
    ((dropOne key name version).on now store).2 =
      if version = 0 ∨ ((Place.field name).found (store.live? now key)).all
          (version < ·.version) = true then store
      else (store.perform now (.dropField key name version)).2 := by
  obtain ⟨answer, hread, hfound⟩ := answer_field h.isOpen h.takes name
  rw [dropOne, Script.on_settle, Place.newer_eq (.field name) hfound]
  refine snd_on_requireVersion fun _ => ?_
  rw [get, Script.bind_eq, Script.bind_eq, Script.bind_assoc]
  exact snd_on_requireCurrent id hread

theorem putMany_again (hsound : store.Sound) (values : List (Bytes × Item)) (terms : Terms) :
    ((putMany key values terms).on now ((putMany key values terms).on now store).2).2 =
      ((putMany key values terms).on now store).2 := by
  have htotal : ∀ (value : Bytes × Item) (store : Store), ∃ result after,
      ((putOne key value.1 value.2).bind fun status => Script.done (value.1, status)).on now store =
        (.ok result, after) :=
    fun value store => ⟨_, _, Script.on_bind_ok (Script.on_settle _) _⟩
  refine snd_on_batch_again (asks_checkKind common_ne_ok .hash) htotal fun found hfound => ?_
  refine Update.snd_on_mapM_again (fun value => .field value.1 value.2 {})
    (fun _ => rfl) (by decide) htotal (fun value store hstore => ?_) values
    (ready_of_checkKind hsound hfound)
  exact (Script.snd_on_map _ _).trans (snd_on_putOne hstore value.1 value.2)

theorem dropMany_again (hsound : store.Sound) (fields : List (Bytes × Version)) (terms : Terms) :
    ((dropMany key fields terms).on now ((dropMany key fields terms).on now store).2).2 =
      ((dropMany key fields terms).on now store).2 := by
  have htotal : ∀ (field : Bytes × Version) (store : Store), ∃ result after,
      ((dropOne key field.1 field.2).bind fun status => Script.done (field.1, status)).on now store =
        (.ok result, after) :=
    fun field store => ⟨_, _, Script.on_bind_ok (Script.on_settle _) _⟩
  refine snd_on_batch_again (asks_checkExisting common_ne_ok (by decide) .hash) htotal
    fun record hrecord => ?_
  refine Place.snd_on_mapM_again (fun field => .field field.1) Prod.snd
    (fun _ => rfl) (by decide) htotal (fun field store hstore => ?_) fields
    (ready_of_checkExisting hsound hrecord)
  exact (Script.snd_on_map _ _).trans (snd_on_dropOne hstore field.1 field.2)

end Hashes

/-! ### Sets -/

namespace Sets

theorem snd_on_dropOne (h : store.Ready now key .set) (item : Item) :
    ((dropOne key item).on now store).2 =
      if item.version = 0 ∨ ((Place.member item.value).found (store.live? now key)).all
          (item.version < ·.version) = true then store
      else (store.perform now (.dropMember key item.value item.version)).2 := by
  obtain ⟨answer, hread, hfound⟩ := answer_member h.isOpen h.takes item.value
  rw [dropOne, Script.on_settle,
    Place.newer_eq (.member item.value) (hfound.trans Option.map_id'.symm)]
  refine snd_on_requireVersion fun _ => ?_
  exact snd_on_requireCurrent id hread

theorem addMany_again (hsound : store.Sound) (members : List Item) (terms : Terms) :
    ((addMany key members terms).on now ((addMany key members terms).on now store).2).2 =
      ((addMany key members terms).on now store).2 := by
  have htotal : ∀ (item : Item) (store : Store), ∃ result after,
      (addOne key item).on now store = (.ok result, after) :=
    fun item store => ⟨_, _, Script.on_settle _⟩
  refine snd_on_batch_again (asks_checkKind common_ne_ok .set) htotal fun found hfound => ?_
  refine Update.snd_on_mapM_again (fun item => .member item {})
    (fun _ => rfl) (by decide) htotal (fun item store hstore => ?_) members
    (ready_of_checkKind hsound hfound)
  exact Update.snd_on_addMember hstore.isOpen hstore.takes {}

theorem dropMany_again (hsound : store.Sound) (members : List Item) (terms : Terms) :
    ((dropMany key members terms).on now ((dropMany key members terms).on now store).2).2 =
      ((dropMany key members terms).on now store).2 := by
  have htotal : ∀ (item : Item) (store : Store), ∃ result after,
      (dropOne key item).on now store = (.ok result, after) :=
    fun item store => ⟨_, _, Script.on_settle _⟩
  refine snd_on_batch_again (asks_checkExisting common_ne_ok (by decide) .set) htotal
    fun record hrecord => ?_
  exact Place.snd_on_mapM_again (fun item => .member item.value) Item.version
    (fun _ => rfl) (by decide) htotal
    (fun item store hstore => snd_on_dropOne hstore item) members
    (ready_of_checkExisting hsound hrecord)

end Sets

/-! ### Sorted sets -/

namespace Rankings

theorem snd_on_dropOne (h : store.Ready now key .zset) (item : Item) :
    ((dropOne key item).on now store).2 =
      if item.version = 0 ∨ ((Place.score item.value).found (store.live? now key)).all
          (item.version < ·.version) = true then store
      else (store.perform now (.dropScore key item.value item.version)).2 := by
  obtain ⟨answer, hread, hfound⟩ := answer_mark h.isOpen h.takes item.value
  rw [dropOne, Script.on_settle, Place.newer_eq (.score item.value) hfound]
  refine snd_on_requireVersion fun _ => ?_
  exact snd_on_requireCurrent id hread

theorem addMany_again (hsound : store.Sound) (items : List Scored) (terms : Terms) :
    ((addMany key items terms).on now ((addMany key items terms).on now store).2).2 =
      ((addMany key items terms).on now store).2 := by
  have htotal : ∀ (item : Scored) (store : Store), ∃ result after,
      (addOne key item).on now store = (.ok result, after) :=
    fun item store => ⟨_, _, Script.on_settle _⟩
  refine snd_on_batch_again (asks_checkKind common_ne_ok .zset) htotal fun found hfound => ?_
  refine Update.snd_on_mapM_again (fun item => .score item {})
    (fun _ => rfl) (by decide) htotal (fun item store hstore => ?_) items
    (ready_of_checkKind hsound hfound)
  exact Update.snd_on_addScore hstore.isOpen hstore.takes {}

theorem dropMany_again (hsound : store.Sound) (members : List Item) (terms : Terms) :
    ((dropMany key members terms).on now ((dropMany key members terms).on now store).2).2 =
      ((dropMany key members terms).on now store).2 := by
  have htotal : ∀ (item : Item) (store : Store), ∃ result after,
      (dropOne key item).on now store = (.ok result, after) :=
    fun item store => ⟨_, _, Script.on_settle _⟩
  refine snd_on_batch_again (asks_checkExisting common_ne_ok (by decide) .zset) htotal
    fun record hrecord => ?_
  exact Place.snd_on_mapM_again (fun item => .score item.value) Item.version
    (fun _ => rfl) (by decide) htotal
    (fun item store hstore => snd_on_dropOne hstore item) members
    (ready_of_checkExisting hsound hrecord)

end Rankings

end Keyspace
