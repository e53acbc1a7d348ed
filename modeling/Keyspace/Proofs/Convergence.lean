import Keyspace.Proofs.Batch
import Keyspace.Proofs.Update

/-!
# Convergence

Writes that carry versions of their own may arrive in any order: the key ends up
the same.  Which of them are granted depends on the order, but a granted write is
newer than the part of the key that it replaces, so each part ends up with its
newest write, and the version of the key with the highest one that any part got.

There are three groups.

* Lists of updates.  `absorbAll_perm` is the induction over a permutation, and
  `found_absorbAll_of_newest` says what a part holds after all updates.
* Runs of one update.  `Update.snd_run` says when a command makes its call, and
  `Update.getElem?_run` brings the command down to `Update.absorb`.
* Runs of updates.  `Update.getElem?_runAll` is the induction over the list, and
  `Update.runAll_converges` puts the groups together.
-/

namespace Keyspace

variable {update : Update} {updates order : List Update} {kind : Kind} {slot? : Option Slot}
  {now : Millis} {key : Bytes} {store : Store} {context : Context}

namespace Update

/-! ## Lists of updates -/

/-- What updates make of the live slot of their key, one after the other. -/
def absorbAll : List Update → Option Slot → Option Slot
  | [], slot? => slot?
  | update :: rest, slot? => absorbAll rest (update.absorb slot?)

/-- The order of updates does not matter. -/
theorem absorbAll_perm (horder : order.Perm updates)
    (hkind : ∀ update ∈ order, update.kind = kind) (hapart : order.Pairwise Apart)
    (h : ∀ slot ∈ slot?, slot.content.Takes kind) :
    absorbAll order slot? = absorbAll updates slot? := by
  -- updates commute only on slots that take them, so the induction carries that along
  induction horder generalizing slot? with
  | nil => rfl
  | cons first _ ih =>
    have hfirst := hkind first List.mem_cons_self
    apply ih (fun other hother => hkind other (List.mem_cons_of_mem first hother))
      (List.pairwise_cons.mp hapart).2
    rw [← hfirst] at h ⊢
    exact takes_absorb h
  | swap first second rest =>
    have hsecond := hkind second List.mem_cons_self
    have hfirst := hkind first (List.mem_cons_of_mem _ List.mem_cons_self)
    have happart := (List.pairwise_cons.mp hapart).1 first List.mem_cons_self
    have hswap := absorb_comm (hsecond.trans hfirst.symm) happart (hsecond ▸ h)
    exact congrArg (absorbAll rest) hswap
  | trans hleft _ ihleft ihright =>
    rw [ihleft hkind hapart h]
    apply ihright _ _ h
    · exact fun other hother => hkind other (hleft.mem_iff.mpr hother)
    · exact (hleft.pairwise_iff Apart.symm).mp hapart

/-- A part that is as new as all updates of it stays as it is. -/
theorem found_absorbAll (hstale : update.stale slot? = true)
    (hkind : ∀ other ∈ updates, other.kind = update.kind)
    (hnewest : ∀ other ∈ updates, other.place = update.place → other.version ≤ update.version)
    (h : ∀ slot ∈ slot?, slot.content.Takes update.kind) :
    update.found (absorbAll updates slot?) = update.found slot? := by
  induction updates generalizing slot? with
  | nil => rfl
  | cons first rest ih =>
    have hfirst := hkind first List.mem_cons_self
    have hothers : ∀ other ∈ rest, other.kind = update.kind :=
      fun other hother => hkind other (List.mem_cons_of_mem first hother)
    have hnewer : ∀ other ∈ rest, other.place = update.place → other.version ≤ update.version :=
      fun other hother => hnewest other (List.mem_cons_of_mem first hother)
    rw [absorbAll]
    by_cases hplace : first.place = update.place
    · have hle := hnewest first List.mem_cons_self hplace
      have hsame : first.absorb slot? = slot? := if_pos (stale_of_le hplace hle hstale)
      rw [hsame]
      exact ih hstale hothers hnewer h
    · have hsame := found_absorb_of_ne hfirst hplace (hfirst ▸ h)
      have hkept : update.stale (first.absorb slot?) = true := by
        rw [stale, hsame]
        exact hstale
      have htakes : ∀ slot ∈ first.absorb slot?, slot.content.Takes first.kind :=
        takes_absorb (hfirst ▸ h)
      rw [ih hkept hothers hnewer (hfirst ▸ htakes), hsame]

/-- After all updates a part holds the newest of those that write it, unless it was
as new before. -/
theorem found_absorbAll_of_newest (hmem : update ∈ updates)
    (hkind : ∀ other ∈ updates, other.kind = kind) (hapart : updates.Pairwise Apart)
    (hnewest : ∀ other ∈ updates, other.place = update.place → other.version ≤ update.version)
    (h : ∀ slot ∈ slot?, slot.content.Takes kind) :
    update.found (absorbAll updates slot?) =
      if update.stale slot? then update.found slot? else some update.written := by
  have hupdate := hkind update hmem
  subst hupdate
  obtain ⟨before, after, hsplit⟩ := List.append_of_mem hmem
  have horder : updates.Perm (update :: (before ++ after)) := hsplit ▸ List.perm_middle
  have hrest : ∀ other ∈ before ++ after, other ∈ updates := by
    intro other hother
    exact horder.mem_iff.mpr (List.mem_cons_of_mem update hother)
  rw [absorbAll_perm horder hkind hapart h, absorbAll,
    found_absorbAll (stale_absorb h) (fun other hother => hkind other (hrest other hother))
      (fun other hother => hnewest other (hrest other hother)) (takes_absorb h),
    found_absorb h]

end Update

/-! ## Runs of one update -/

/-- What a check of the terms and the kind comes to for a key of that kind. -/
theorem on_checkKind_of_kind (terms : Terms) (hopen : store.closed = false)
    (h : ∀ slot ∈ store.live? now key, slot.content.kind = kind) :
    (checkKind key terms kind).on now store =
      (if terms.permit ((store.live? now key).map Slot.record) then
        .ok ((store.live? now key).map Slot.record) else .error .versionMismatch, store) := by
  have hall : ((store.live? now key).map Slot.record).all (·.kind = kind) = true := by
    cases hslot : store.live? now key with
    | none => rfl
    | some slot => exact decide_eq_true (h slot hslot)
  rw [checkKind, Script.bind_eq, Script.on_bind, on_checkTerms, Store.record_open hopen]
  dsimp only
  cases terms.permit ((store.live? now key).map Slot.record) with
  | false => rfl
  | true =>
    simp only [hall, if_true]
    rfl

/-- A key that takes updates of a kind passes the check if nothing else is
demanded. -/
theorem on_checkKind_of_takes {terms : Terms} (hopen : store.closed = false)
    (hexpected : terms.expected = none) (hkind : kind ≠ .string)
    (h : ∀ slot ∈ store.live? now key, slot.content.Takes kind) :
    (checkKind key terms kind).on now store =
      (.ok ((store.live? now key).map Slot.record), store) := by
  have hpermit : terms.permit ((store.live? now key).map Slot.record) = true := by
    rw [Terms.permit, hexpected]
  rw [on_checkKind_of_kind terms hopen fun slot hslot => (h slot hslot).kind_eq hkind, hpermit,
    if_pos rfl]

/-- A write of version 0 is refused before the store is called. -/
theorem snd_on_requireVersion {α : Type} {version : Version} {rest : Script Status α}
    {done : Prop} [Decidable done]
    {after : Store} (hrest : version ≠ 0 → (rest.on now store).2 = if done then store else after) :
    (((requireVersion version).bind fun _ => rest).on now store).2 =
      if version = 0 ∨ done then store else after := by
  by_cases hversion : version = 0
  · rw [if_pos (.inl hversion), requireVersion, if_pos hversion]
    rfl
  · simp only [hversion, false_or]
    rw [requireVersion_of_ne hversion]
    exact hrest hversion

/-- A write that is checked against what it replaces is made if it is newer. -/
theorem snd_on_requireNewer {α : Type} {read write : Call} {answer : read.Answer}
    {stored : read.Answer → Option Version} {version : Version}
    {rest : write.Answer → Script Status α}
    (hread : store.perform now read = (.ok answer, store))
    (hrest : ∀ result, ∃ final, rest result = .done final) :
    (((query read).bind fun found => (requireNewer (stored found) version).bind fun _ =>
        (query write).bind rest).on now store).2 =
      if (stored answer).any (version ≤ ·) then store else (store.perform now write).2 := by
  rw [Script.on_bind, Script.on_query, hread]
  show (((requireNewer (stored answer) version).bind fun _ =>
    (query write).bind rest).on now store).2 = _
  unfold requireNewer
  split
  · rfl
  · rw [Script.bind, Script.on_bind, Script.on_query]
    cases hwrite : store.perform now write with
    | mk result after =>
      cases result with
      | error failure => rfl
      | ok result =>
        obtain ⟨final, hfinal⟩ := hrest result
        show ((rest result).on now after).2 = after
        rw [hfinal]
        rfl

/-- A batch of one item that passes its check changes what the item changes. -/
theorem snd_on_batch_one {ι α β : Type} {check : Script Status β} {found : β}
    (hcheck : check.on now store = (.ok found, store)) (step : ι → Script Status α) (item : ι) :
    (((requireSome [item]).bind fun _ => (discard check).bind fun _ =>
        [item].mapM step).on now store).2 = ((step item).on now store).2 := by
  show (((discard check).bind fun _ => [item].mapM step).on now store).2 = _
  rw [Script.discard_eq, Script.on_bind_ok (Script.on_bind_ok hcheck _), List.mapM_cons,
    Script.bind_eq, Script.on_bind]
  cases (step item).on now store with
  | mk ending after => cases ending <;> rfl

/-! ### What the parts hold -/

section Reading

variable (hopen : store.closed = false)

include hopen

/-- A key that holds a hash or nothing tells what is in a field. -/
theorem part_field (h : ∀ slot ∈ store.live? now key, slot.content.Takes .hash) (name : Bytes) :
    ∃ answer : Option Item, store.perform now (.field key name) = (.ok answer, store) ∧
      (store.live? now key).bind (Slot.part? (.field name)) = answer.map .field := by
  rw [Store.perform, Store.view_open hopen]
  cases hslot : store.live? now key with
  | none => exact ⟨none, rfl, rfl⟩
  | some slot =>
    obtain ⟨content, version, deadline⟩ := slot
    cases h _ hslot with
    | hash fields => exact ⟨fields[name]?, rfl, rfl⟩

/-- A key that holds a hash or nothing tells the version of a field. -/
theorem answer_field (h : ∀ slot ∈ store.live? now key, slot.content.Takes .hash) (name : Bytes) :
    ∃ answer : Option Item, store.perform now (.field key name) = (.ok answer, store) ∧
      ((store.live? now key).bind (Slot.part? (.field name))).map Part.version =
        answer.map Item.version := by
  obtain ⟨answer, hread, hpart⟩ := part_field hopen h name
  exact ⟨answer, hread, by rw [hpart, Option.map_map]; rfl⟩

/-- A key that holds a set or nothing tells the stamp of a member. -/
theorem answer_member (h : ∀ slot ∈ store.live? now key, slot.content.Takes .set) (name : Bytes) :
    ∃ answer : Option Version, store.perform now (.member key name) = (.ok answer, store) ∧
      ((store.live? now key).bind (Slot.part? (.member name))).map Part.version = answer := by
  rw [Store.perform, Store.view_open hopen]
  cases hslot : store.live? now key with
  | none => exact ⟨none, rfl, rfl⟩
  | some slot =>
    obtain ⟨content, version, deadline⟩ := slot
    cases h _ hslot with
    | set members =>
      exact ⟨members[name]?, rfl, (Option.map_map ..).trans (Option.map_id' ..)⟩

/-- A key that holds a sorted set or nothing tells the mark of a member. -/
theorem part_mark (h : ∀ slot ∈ store.live? now key, slot.content.Takes .zset) (name : Bytes) :
    ∃ answer : Option Mark, store.perform now (.mark key name) = (.ok answer, store) ∧
      (store.live? now key).bind (Slot.part? (.score name)) = answer.map .score := by
  rw [Store.perform, Store.view_open hopen]
  cases hslot : store.live? now key with
  | none => exact ⟨none, rfl, rfl⟩
  | some slot =>
    obtain ⟨content, version, deadline⟩ := slot
    cases h _ hslot with
    | @zset ranking => exact ⟨ranking.byMember[name]?, rfl, rfl⟩

/-- A key that holds a sorted set or nothing tells the version of a mark. -/
theorem answer_mark (h : ∀ slot ∈ store.live? now key, slot.content.Takes .zset) (name : Bytes) :
    ∃ answer : Option Mark, store.perform now (.mark key name) = (.ok answer, store) ∧
      ((store.live? now key).bind (Slot.part? (.score name))).map Part.version =
        answer.map Mark.version := by
  obtain ⟨answer, hread, hpart⟩ := part_mark hopen h name
  exact ⟨answer, hread, by rw [hpart, Option.map_map]; rfl⟩

end Reading

namespace Update

/-- Whether an update is stale is read off the version of its part. -/
theorem stale_eq (update : Update) {version? : Option Version}
    (h : (update.found slot?).map Part.version = version?) :
    update.stale slot? = version?.any (update.version ≤ ·) := by
  rw [← h, Option.any_map]
  rfl

section Runs

variable (hopen : store.closed = false)

include hopen

theorem snd_run_string {item : Item} {terms : Terms} {mode : WriteMode}
    (hplain : (string item terms mode).Plain context.now) :
    (((string item terms mode).step context key).run store).2 =
      if (string item terms mode).stale (store.live? context.now key) then store
      else (store.perform context.now (.put key item (mode.deadline terms))).2 := by
  have hversion : item.version ≠ 0 := hplain.version
  have hpermit : ∀ found, terms.permit found = true := by
    intro found
    have hexpected : terms.expected = none := hplain.expected
    rw [Terms.permit, hexpected]
  have hstatus : Strings.judgement terms mode (store.record context.now key) item.version =
      if (string item terms mode).stale (store.live? context.now key) then .versionMismatch
      else .ok := by
    rw [Store.record_open hopen, Strings.judgement, if_neg hversion]
    simp only [hpermit, if_true]
    cases store.live? context.now key with
    | none => rfl
    | some slot =>
      have hanywhere : ¬ mode.onlyIfAbsent = true := Bool.eq_false_iff.mp hplain.anywhere
      show mode.verdict (some slot.version) item.version =
        if decide (item.version ≤ slot.version) = true then .versionMismatch else .ok
      simp only [WriteMode.verdict, if_neg hanywhere, decide_eq_true_eq]
  have hrun : ((string item terms mode).step context key).run store = _ :=
    Strings.run_single (key, item)
  rw [hrun]
  show (if Strings.judgement terms mode (store.record context.now key) item.version = .ok then
    Strings.written context.now store ⟨key, item, mode.deadline terms⟩ else store) = _
  rw [hstatus]
  cases (string item terms mode).stale (store.live? context.now key) <;> rfl

theorem snd_on_store {name : Bytes} {item : Item}
    (h : ∀ slot ∈ store.live? now key, slot.content.Takes .hash) (terms : Terms) :
    ((Hashes.store key name item).on now store).2 =
      if (field name item terms).stale (store.live? now key) then store
      else (store.perform now (.putField key name item)).2 := by
  obtain ⟨answer, hread, hfound⟩ := answer_field hopen h name
  rw [stale_eq (field name item terms) hfound]
  exact snd_on_requireNewer hread fun result => ⟨(), rfl⟩

theorem snd_on_addMember {item : Item}
    (h : ∀ slot ∈ store.live? now key, slot.content.Takes .set) (terms : Terms) :
    ((Sets.addOne key item).on now store).2 =
      if item.version = 0 ∨ (member item terms).stale (store.live? now key) = true then store
      else (store.perform now (.addMember key item.value item.version)).2 := by
  obtain ⟨answer, hread, hfound⟩ := answer_member hopen h item.value
  rw [stale_eq (member item terms) hfound, Sets.addOne, Script.on_settle]
  refine snd_on_requireVersion fun _ => ?_
  exact snd_on_requireNewer hread fun result => ⟨_, rfl⟩

theorem snd_on_addScore {item : Scored}
    (h : ∀ slot ∈ store.live? now key, slot.content.Takes .zset) (terms : Terms) :
    ((Rankings.addOne key item).on now store).2 =
      if item.version = 0 ∨ (score item terms).stale (store.live? now key) = true then store
      else (store.perform now (.putScore key item.member item.score item.version)).2 := by
  obtain ⟨answer, hread, hfound⟩ := answer_mark hopen h item.member
  rw [stale_eq (score item terms) hfound, Rankings.addOne, Script.on_settle]
  refine snd_on_requireVersion fun _ => ?_
  exact snd_on_requireNewer hread fun result => ⟨_, rfl⟩

theorem snd_run_field {name : Bytes} {item : Item} {terms : Terms}
    (hplain : (field name item terms).Plain context.now)
    (h : ∀ slot ∈ store.live? context.now key, slot.content.Takes .hash) :
    (((field name item terms).step context key).run store).2 =
      if (field name item terms).stale (store.live? context.now key) then store
      else (store.perform context.now (.putField key name item)).2 := by
  have hversion : item.version ≠ 0 := hplain.version
  have hcheck : (checkKind key terms .hash).on context.now store = _ :=
    on_checkKind_of_takes hopen hplain.expected (by decide) h
  have hscript : (Hashes.put key name item terms).on context.now store =
      (Hashes.store key name item).on context.now store := by
    rw [Hashes.put, requireVersion_of_ne hversion]
    show ((discard (checkKind key terms .hash)).bind fun _ =>
      Hashes.store key name item).on context.now store = _
    rw [Script.discard_eq, Script.on_bind_ok (Script.on_bind_ok hcheck _)]
  have hrun : (((field name item terms).step context key).run store).2 =
      ((Hashes.put key name item terms).on context.now store).2 :=
    congrArg Prod.snd (Command.run_of_reply (by rfl) store)
  rw [hrun, hscript, snd_on_store hopen h terms]

theorem snd_run_member {item : Item} {terms : Terms}
    (hplain : (member item terms).Plain context.now)
    (h : ∀ slot ∈ store.live? context.now key, slot.content.Takes .set) :
    (((member item terms).step context key).run store).2 =
      if (member item terms).stale (store.live? context.now key) then store
      else (store.perform context.now (.addMember key item.value item.version)).2 := by
  have hversion : item.version ≠ 0 := hplain.version
  have hcheck : (checkKind key terms .set).on context.now store = _ :=
    on_checkKind_of_takes hopen hplain.expected (by decide) h
  have hscript : ((Sets.addMany key [item] terms).on context.now store).2 =
      ((Sets.addOne key item).on context.now store).2 :=
    snd_on_batch_one hcheck (Sets.addOne key) item
  have hrun : (((member item terms).step context key).run store).2 =
      ((Sets.addMany key [item] terms).on context.now store).2 :=
    congrArg Prod.snd (Command.run_of_reply (by rfl) store)
  rw [hrun, hscript, snd_on_addMember hopen h terms]
  simp only [hversion, false_or]

theorem snd_run_score {item : Scored} {terms : Terms}
    (hplain : (score item terms).Plain context.now)
    (h : ∀ slot ∈ store.live? context.now key, slot.content.Takes .zset) :
    (((score item terms).step context key).run store).2 =
      if (score item terms).stale (store.live? context.now key) then store
      else (store.perform context.now
        (.putScore key item.member item.score item.version)).2 := by
  have hversion : item.version ≠ 0 := hplain.version
  have hcheck : (checkKind key terms .zset).on context.now store = _ :=
    on_checkKind_of_takes hopen hplain.expected (by decide) h
  have hscript : ((Rankings.addMany key [item] terms).on context.now store).2 =
      ((Rankings.addOne key item).on context.now store).2 :=
    snd_on_batch_one hcheck (Rankings.addOne key) item
  have hrun : (((score item terms).step context key).run store).2 =
      ((Rankings.addMany key [item] terms).on context.now store).2 :=
    congrArg Prod.snd (Command.run_of_reply (by rfl) store)
  rw [hrun, hscript, snd_on_addScore hopen h terms]
  simp only [hversion, false_or]

/-- An update is made unless its part is as new as it is. -/
theorem snd_run (hplain : update.Plain context.now)
    (h : ∀ slot ∈ store.live? context.now key, slot.content.Takes update.kind) :
    ((update.step context key).run store).2 =
      if update.stale (store.live? context.now key) then store
      else (store.perform context.now (update.call key)).2 := by
  cases update with
  | string => exact snd_run_string hopen hplain
  | field => exact snd_run_field hopen hplain h
  | member => exact snd_run_member hopen hplain h
  | score => exact snd_run_score hopen hplain h

end Runs

/-- A deadline that an update stores is yet to come. -/
theorem Plain.lt_deadline {item : Item} {terms : Terms} {mode : WriteMode} {deadline : Millis}
    (h : (string item terms mode).Plain now) (hdeadline : mode.deadline terms = some deadline) :
    now < deadline := by
  unfold WriteMode.deadline at hdeadline
  split at hdeadline
  · rename_i happlies
    unfold Terms.deadline at hdeadline
    split at hdeadline
    · cases hdeadline
    · rename_i hzero
      cases hdeadline
      exact (h.lasts happlies).resolve_left hzero
  · cases hdeadline

theorem isExpired_put (hplain : update.Plain now)
    (hlive : ∀ slot ∈ slot?, slot.isExpired now = false) :
    (update.put slot?).isExpired now = false := by
  cases update with
  | string item terms mode =>
    have hdue : ((string item terms mode).put slot?).deadline = mode.deadline terms := by
      cases slot? <;> rfl
    rw [Slot.isExpired, hdue, Option.any_eq_false]
    intro deadline hdeadline
    exact decide_eq_false (Nat.not_le.mpr (hplain.lt_deadline hdeadline))
  | _ =>
    cases slot? with
    | none => rfl
    | some slot => exact hlive slot rfl

/-- What an update leaves is live. -/
theorem live?_absorb (hplain : update.Plain now)
    (hlive : ∀ slot ∈ slot?, slot.isExpired now = false) :
    Slot.live? now (update.absorb slot?) = update.absorb slot? := by
  unfold absorb
  split
  · cases slot? with
    | none => rfl
    | some slot => rw [Slot.live?_some, hlive slot rfl, if_neg Bool.false_ne_true]
  · rw [Slot.live?_some, isExpired_put hplain hlive, if_neg Bool.false_ne_true]

section Runs

variable (hopen : store.closed = false)

include hopen

theorem closed_run (hplain : update.Plain context.now)
    (h : ∀ slot ∈ store.live? context.now key, slot.content.Takes update.kind) :
    ((update.step context key).run store).2.closed = false := by
  rw [snd_run hopen hplain h]
  split
  · exact hopen
  · rw [Store.closed_perform (by cases update <;> nofun), hopen]

/-- What is kept under a key after the call of an update. -/
theorem getElem?_call (h : ∀ slot ∈ store.live? now key, slot.content.Takes update.kind) :
    (store.perform now (update.call key)).2.slots[key]? =
      some (update.put (store.live? now key)) := by
  have hkept : (store.perform now (update.call key)).2.slots[key]? =
      (update.call key).effect (store.live? now key) := by
    cases update <;> exact Store.getElem?_revise_self hopen
  rw [hkept, effect_call h]

/-- What is kept under a key after an update of it, whether or not the update was
granted: a key that refuses an update holds no leftover. -/
theorem getElem?_run (hplain : update.Plain context.now)
    (h : ∀ slot ∈ store.live? context.now key, slot.content.Takes update.kind) :
    ((update.step context key).run store).2.slots[key]? =
      update.absorb (store.live? context.now key) := by
  rw [snd_run hopen hplain h, absorb]
  split
  · rename_i hstale
    cases hslot : store.live? context.now key with
    | none =>
      rw [hslot] at hstale
      cases hstale
    | some slot => exact (Store.live?_eq_some.mp hslot).1
  · exact getElem?_call hopen h

theorem live?_run (hplain : update.Plain context.now)
    (h : ∀ slot ∈ store.live? context.now key, slot.content.Takes update.kind) :
    ((update.step context key).run store).2.live? context.now key =
      update.absorb (store.live? context.now key) := by
  have hlive : ∀ slot ∈ store.live? context.now key, slot.isExpired context.now = false :=
    fun slot hslot => (Store.live?_eq_some.mp hslot).2
  rw [Store.live?_eq, getElem?_run hopen hplain h, live?_absorb hplain hlive]

end Runs

end Update

/-! ## Runs of updates -/

namespace Update

/-- What is kept under a key after some updates of it. -/
theorem getElem?_runAll (hopen : store.closed = false) (hsome : updates ≠ [])
    (hplain : ∀ update ∈ updates, update.Plain context.now)
    (hkind : ∀ update ∈ updates, update.kind = kind)
    (h : ∀ slot ∈ store.live? context.now key, slot.content.Takes kind) :
    (runAll (updates.map (step context key)) store).2.slots[key]? =
      absorbAll updates (store.live? context.now key) := by
  induction updates generalizing store with
  | nil => exact absurd rfl hsome
  | cons first rest ih =>
    have hfirst := hplain first List.mem_cons_self
    have hsame := hkind first List.mem_cons_self
    have htakes : ∀ slot ∈ store.live? context.now key, slot.content.Takes first.kind := hsame ▸ h
    rw [List.map_cons, runAll_cons, absorbAll]
    by_cases hrest : rest = []
    · subst hrest
      exact getElem?_run hopen hfirst htakes
    · have hlive := live?_run hopen hfirst htakes
      rw [← hlive]
      apply ih (closed_run hopen hfirst htakes) hrest
      · exact fun update hupdate => hplain update (List.mem_cons_of_mem first hupdate)
      · exact fun update hupdate => hkind update (List.mem_cons_of_mem first hupdate)
      · rw [hlive, ← hsame]
        exact takes_absorb htakes

/-- Updates of one kind converge whatever order they arrive in: the key ends up with
the same slot.  Each part that is written holds the newest of the updates that
write it, or what it held before if that was as new.  The version that a string
write is compared with is that of the key.  A closed store fails every call, so what
the parts end up with is said of open ones. -/
theorem runAll_converges (hreachable : store.Reachable)
    (hkey : ∀ slot, store.live? context.now key = some slot →
      kind = .string ∨ slot.content.kind = kind)
    (hplain : ∀ update ∈ updates, update.Plain context.now)
    (hkind : ∀ update ∈ updates, update.kind = kind) (hapart : updates.Pairwise Apart) :
    let after := (runAll (updates.map (step context key)) store).2
    (∀ order : List Update, order.Perm updates →
      (runAll (order.map (step context key)) store).2.slots[key]? = after.slots[key]?) ∧
    (store.closed = false → ∀ update ∈ updates,
      (∀ other ∈ updates, other.place = update.place → other.version ≤ update.version) →
      let before := (store.live? context.now key).bind (Slot.part? update.place)
      after.slots[key]?.bind (Slot.part? update.place) =
        if before.any (update.version ≤ ·.version) then before else some update.written) := by
  intro after
  have htakes : ∀ slot ∈ store.live? context.now key, slot.content.Takes kind := by
    intro slot hslot
    have hsound := hreachable.sound key slot (Store.live?_eq_some.mp hslot).1
    exact hsound.takes (hkey slot hslot)
  constructor
  · intro order horder
    cases hclosed : store.closed with
    | true => rw [runAll_closed hclosed, show after = store from runAll_closed hclosed _]
    | false =>
      by_cases hsome : updates = []
      · subst hsome
        rw [horder.eq_nil]
      · have hmem : ∀ update ∈ order, update ∈ updates := fun _ => horder.mem_iff.mp
        have horderkind : ∀ update ∈ order, update.kind = kind :=
          fun update hupdate => hkind update (hmem update hupdate)
        have hordersome : order ≠ [] := fun hnone => hsome (hnone ▸ horder).nil_eq.symm
        have hright : after.slots[key]? = absorbAll updates (store.live? context.now key) :=
          getElem?_runAll hclosed hsome hplain hkind htakes
        rw [hright, getElem?_runAll hclosed hordersome
          (fun update hupdate => hplain update (hmem update hupdate)) horderkind htakes]
        exact absorbAll_perm horder horderkind ((horder.pairwise_iff Apart.symm).mpr hapart) htakes
  · intro hopen update hmem hnewest before
    have hafter : after.slots[key]? = absorbAll updates (store.live? context.now key) :=
      getElem?_runAll hopen (List.ne_nil_of_mem hmem) hplain hkind htakes
    rw [hafter]
    exact found_absorbAll_of_newest hmem hkind hapart hnewest htakes

/-- One member ends up with the newest of its two updates, the other one keeps a
score that is newer than its update. -/
theorem runAll_converges_scores :
    let key : Bytes := [122]
    let context : Context := ⟨⟨9000⟩, .absolute⟩
    let store := ((Store.empty.perform 0 (.putScore key [97] 10 5)).2.perform 0
      (.putScore key [98] 11 8)).2
    let newest : Update := .score ⟨[97], 1, 9⟩ {}
    let older : Update := .score ⟨[97], 2, 7⟩ {}
    let late : Update := .score ⟨[98], 3, 4⟩ {}
    let after := (runAll ([newest, older, late].map (step context key)) store).2
    store.Reachable ∧
      (runAll ([late, older, newest].map (step context key)) store).2.slots[key]? =
        after.slots[key]? ∧
      after.slots[key]?.bind (Slot.part? (.score [97])) = some (.score ⟨1, 9⟩) ∧
      after.slots[key]?.bind (Slot.part? (.score [98])) = some (.score ⟨11, 8⟩) := by
  intro key context store newest older late after
  have hreachable : store.Reachable := (Store.Reachable.empty.perform 0 _).perform 0 _
  have hkey : ∀ slot, store.live? context.now key = some slot →
      Kind.zset = .string ∨ slot.content.kind = .zset := by
    intro slot hslot
    cases hslot
    exact .inr rfl
  have hplain : ∀ update ∈ [newest, older, late], update.Plain context.now := by
    intro update hupdate
    simp only [List.mem_cons, List.not_mem_nil, or_false] at hupdate
    rcases hupdate with rfl | rfl | rfl <;> exact ⟨by decide, rfl, rfl, nofun⟩
  have hkind : ∀ update ∈ [newest, older, late], update.kind = .zset := by
    intro update hupdate
    simp only [List.mem_cons, List.not_mem_nil, or_false] at hupdate
    rcases hupdate with rfl | rfl | rfl <;> rfl
  have hapart : [newest, older, late].Pairwise Apart := by
    simp [Apart, newest, older, late, place, version]
  obtain ⟨horder, hparts⟩ := runAll_converges hreachable hkey hplain hkind hapart
  refine ⟨hreachable, horder _ (List.reverse_perm [newest, older, late]), ?_, ?_⟩
  · exact hparts rfl newest (by simp) (by simp [newest, older, late, place, version])
  · exact hparts rfl late (by simp) (by simp [newest, older, late, place, version])

end Update

end Keyspace
