import Keyspace.Proofs.Independence
import Keyspace.Proofs.Settled

/-!
# Batches in any order

The fields of a batch come in whatever order they happen to be visited.  Nothing
depends on it as long as no field comes twice: what becomes of a field is a matter of
what that field held, and the turns of two fields may change places.

There are four groups.

* Loops.  `Script.on_mapM_perm` is the induction over a permutation, for any loop whose
  turns may change places.
* Turns.  A turn reads one part of its key and makes one call or none.  What it reads
  is not touched by the turns of other parts, so two turns may change places if their
  calls may (`Store.Ready.on_mapM_perm`).
* Fields.  Two fields may be written or removed in either order.  A hash goes with its
  last field, so that is where the order could matter (`Place.clear_comm`).
* Batches.  `on_batch_perm` puts the loop behind the checks of a batch.
-/

namespace Keyspace

variable {now : Millis} {store : Store} {key : Bytes} {kind : Kind} {slot? : Option Slot}

/-! ## Loops -/

/-- A loop over the same items in another order ends with the same results in that order,
if its turns may change places: a turn does the same after the turn of another item, and
two turns do the same in either order. -/
theorem Script.on_mapM_perm {ε ι α : Type} {step : ι → Script ε α} (inv : Store → Prop)
    (apart : ι → ι → Prop)
    (hturn : ∀ item store, inv store → ∃ result after,
      (step item).on now store = (.ok result, after) ∧ inv after)
    (hafter : ∀ a b store, apart a b → inv store →
      ((step b).on now ((step a).on now store).2).1 = ((step b).on now store).1)
    (hcomm : ∀ a b store, apart a b → inv store →
      ((step b).on now ((step a).on now store).2).2 =
        ((step a).on now ((step b).on now store).2).2)
    (hsymm : ∀ a b, apart a b → apart b a) {order items : List ι} (horder : order.Perm items)
    (hapart : order.Pairwise apart) (h : inv store) :
    ∃ results listed after, (order.mapM step).on now store = (.ok results, after) ∧
      (items.mapM step).on now store = (.ok listed, after) ∧ results.Perm listed := by
  -- the turns change places only where the invariant holds, so the induction carries it
  induction horder generalizing store with
  | nil => exact ⟨[], [], store, rfl, rfl, .nil⟩
  | cons first _ ih =>
    obtain ⟨result, between, hfirst, hbetween⟩ := hturn first store h
    obtain ⟨results, listed, after, hleft, hright, hsame⟩ :=
      ih (List.pairwise_cons.mp hapart).2 hbetween
    refine ⟨result :: results, result :: listed, after, ?_, ?_, hsame.cons result⟩
    · rw [List.mapM_cons, bind_eq, on_bind_ok hfirst, bind_eq, on_bind_ok hleft]
      rfl
    · rw [List.mapM_cons, bind_eq, on_bind_ok hfirst, bind_eq, on_bind_ok hright]
      rfl
  | swap first second rest =>
    have htwo : apart second first :=
      (List.pairwise_cons.mp hapart).1 first List.mem_cons_self
    obtain ⟨a, left, hleft, hinvleft⟩ := hturn second store h
    obtain ⟨b, right, hright, hinvright⟩ := hturn first store h
    obtain ⟨b', between, hthen, hbetween⟩ := hturn first left hinvleft
    obtain ⟨a', between', hthen', _⟩ := hturn second right hinvright
    have hsame := hcomm second first store htwo h
    have hfirst := hafter second first store htwo h
    have hsecond := hafter first second store (hsymm second first htwo) h
    rw [hleft, hthen, hright, hthen'] at hsame
    rw [hleft, hthen, hright] at hfirst
    rw [hleft, hright, hthen'] at hsecond
    cases hsame
    cases hfirst
    cases hsecond
    obtain ⟨results, after, hrest, _⟩ := Script.run_mapM (R := fun _ _ => True) (Store.perform now)
      (fun item state hstate => by
        obtain ⟨result, next, hitem, hnext⟩ := hturn item state hstate
        exact ⟨result, next, hitem, hnext, trivial⟩) rest hbetween
    have hrest : (rest.mapM step).on now between = (.ok results, after) := hrest
    refine ⟨a :: b :: results, b :: a :: results, after, ?_, ?_, .swap b a results⟩
    · rw [List.mapM_cons, List.mapM_cons, bind_eq, on_bind_ok hleft, bind_eq, bind_eq, bind_assoc,
        on_bind_ok hthen, bind_eq, bind_assoc, on_bind_ok hrest]
      rfl
    · rw [List.mapM_cons, List.mapM_cons, bind_eq, on_bind_ok hright, bind_eq, bind_eq, bind_assoc,
        on_bind_ok hthen', bind_eq, bind_assoc, on_bind_ok hrest]
      rfl
  | trans hleft _ ihleft ihright =>
    obtain ⟨results, between, after, hfirst, hsecond, hsame⟩ := ihleft hapart h
    have hapart' := (hleft.pairwise_iff fun {a b} => hsymm a b).mp hapart
    obtain ⟨between', listed, after', hsecond', hthird, hsame'⟩ := ihright hapart' h
    rw [hsecond] at hsecond'
    cases hsecond'
    exact ⟨results, listed, after, hfirst, hthird, hsame.trans hsame'⟩

/-- A loop whose turns name their items names them in order. -/
theorem Script.map_fst_of_on_mapM {ε ι α β : Type} {tag : ι → β} {turn : ι → Script ε α}
    {items : List ι} {results : List (β × α)} {after : Store}
    (h : (items.mapM fun item => (turn item).bind fun result => done (tag item, result)).on now
      store = (.ok results, after)) : results.map Prod.fst = items.map tag := by
  induction items generalizing store results with
  | nil =>
    cases h
    rfl
  | cons item rest ih =>
    rw [List.mapM_cons] at h
    obtain ⟨first, between, hfirst, h⟩ := on_bind_eq_ok h
    obtain ⟨others, final, hrest, h⟩ := on_bind_eq_ok h
    obtain ⟨result, _, _, hdone⟩ := on_bind_eq_ok hfirst
    cases h
    cases hdone
    exact congrArg (tag item :: ·) (ih hrest)

/-! ## Turns -/

/-- Two calls on one key may change places if they leave the same under it. -/
theorem Store.Consistent.perform_comm {c d : Call} (h : store.Consistent)
    (hc : c.key? = some key) (hd : d.key? = some key)
    (hkept : ((store.perform now c).2.perform now d).2.slots[key]? =
      ((store.perform now d).2.perform now c).2.slots[key]?) :
    ((store.perform now c).2.perform now d).2 = ((store.perform now d).2.perform now c).2 := by
  have hcclose : c ≠ .close := by
    rintro rfl
    cases hc
  have hdclose : d ≠ .close := by
    rintro rfl
    cases hd
  refine ((h.perform now c).perform now d).eq_of_slots ((h.perform now d).perform now c) ?_
    fun other => ?_
  · simp only [closed_perform hcclose, closed_perform hdclose]
  · by_cases hother : key = other
    · exact hother ▸ hkept
    · have hcother : c.key? ≠ some other := by simpa [hc] using hother
      have hdother : d.key? ≠ some other := by simpa [hd] using hother
      simp only [getElem?_perform_of_ne hcclose hcother, getElem?_perform_of_ne hdclose hdother]

/-- A batch whose turns each look at one part of the key and then make one call or none
may visit its items in any order, if the calls may be made in any order and none touches
the part of another one. -/
theorem Store.Ready.on_mapM_perm {ι α : Type} {step : ι → Script Status α} {place : ι → Place}
    {verdict : ι → Option Part → Status} {report : ι → Status → α} {call : ι → Call}
    (hstep : ∀ item (store : Store), store.Ready now key kind → (step item).on now store =
      (.ok (report item (verdict item ((place item).found (store.live? now key)))),
        if verdict item ((place item).found (store.live? now key)) = .ok then
          (store.perform now (call item)).2
        else store))
    (hready : ∀ item (store : Store), store.Ready now key kind →
      (store.perform now (call item)).2.Ready now key kind)
    (hfound : ∀ a b (store : Store), place a ≠ place b → store.Ready now key kind →
      (place b).found ((store.perform now (call a)).2.live? now key) =
        (place b).found (store.live? now key))
    (hcomm : ∀ a b (store : Store), place a ≠ place b → store.Ready now key kind →
      store.Consistent →
      ((store.perform now (call a)).2.perform now (call b)).2 =
        ((store.perform now (call b)).2.perform now (call a)).2)
    {order items : List ι} (horder : order.Perm items) (hplaces : (order.map place).Nodup)
    (h : store.Ready now key kind) (hconsistent : store.Consistent) :
    ∃ results listed after, (order.mapM step).on now store = (.ok results, after) ∧
      (items.mapM step).on now store = (.ok listed, after) ∧ results.Perm listed := by
  refine Script.on_mapM_perm (fun store => store.Ready now key kind ∧ store.Consistent)
    (fun a b => place a ≠ place b) ?_ ?_ ?_ (fun _ _ => Ne.symm) horder
    (List.pairwise_map.mp hplaces) ⟨h, hconsistent⟩
  · rintro item store ⟨hstore, hkept⟩
    refine ⟨_, _, hstep item store hstore, ?_⟩
    split
    · exact ⟨hready item store hstore, hkept.perform now _⟩
    · exact ⟨hstore, hkept⟩
  · rintro a b store hapart ⟨hstore, _⟩
    rw [hstep a store hstore, hstep b store hstore]
    dsimp only
    split
    · rw [hstep b _ (hready a store hstore), hfound a b store hapart hstore]
    · rw [hstep b store hstore]
  · rintro a b store hapart ⟨hstore, hkept⟩
    rw [hstep a store hstore, hstep b store hstore]
    dsimp only
    split <;> split
    · rename_i ha hb
      rw [hstep b _ (hready a store hstore), hstep a _ (hready b store hstore),
        hfound a b store hapart hstore, hfound b a store (Ne.symm hapart) hstore]
      rw [if_pos ha, if_pos hb]
      exact hcomm a b store hapart hstore hkept
    · rename_i ha hb
      rw [hstep b _ (hready a store hstore), hstep a store hstore,
        hfound a b store hapart hstore]
      rw [if_pos ha, if_neg hb]
    · rename_i ha hb
      rw [hstep a _ (hready b store hstore), hstep b store hstore,
        hfound b a store (Ne.symm hapart) hstore]
      rw [if_neg ha, if_pos hb]
    · rename_i ha hb
      rw [hstep a store hstore, hstep b store hstore, if_neg ha, if_neg hb]

/-! ## Fields -/

section Removals

variable {a b : Bytes} {content : Content}

theorem Content.part?_of_isEmpty (h : content.isEmpty = true) (place : Place) :
    content.part? place = none := by
  cases content with
  | string => cases h
  | hash fields =>
    have hempty : fields = ∅ := Std.ExtTreeMap.isEmpty_iff.mp h
    cases place <;> simp [part?, hempty]
  | set members =>
    have hempty : members = ∅ := Std.ExtTreeMap.isEmpty_iff.mp h
    cases place <;> simp [part?, hempty]
  | zset ranking =>
    have hempty : ranking.byMember = ∅ := Std.ExtTreeMap.isEmpty_iff.mp h
    cases place <;> simp [part?, hempty]

/-- A hash without fields has none to lose. -/
theorem Content.isEmpty_without (h : content.isEmpty = true) :
    (content.without (.field a)).isEmpty = true := by
  cases content with
  | hash fields =>
    have hempty : fields = ∅ := Std.ExtTreeMap.isEmpty_iff.mp h
    simp [without, isEmpty, hempty]
  | _ => exact h

theorem Content.without_comm (content : Content) (a b : Bytes) :
    (content.without (.field a)).without (.field b) =
      (content.without (.field b)).without (.field a) := by
  cases content with
  | hash fields =>
    refine congrArg Content.hash (Std.ExtTreeMap.ext_getElem? fun other => ?_)
    simp only [Std.ExtTreeMap.getElem?_erase]
    split <;> split <;> rfl
  | _ => rfl

theorem Content.part?_without_of_ne (h : a ≠ b) (content : Content) :
    (content.without (.field a)).part? (.field b) = content.part? (.field b) := by
  cases content with
  | hash fields => simp [without, part?, Std.ExtTreeMap.getElem?_erase, h]
  | _ => rfl

namespace Place

/-- The removal of one field leaves the other ones, and a hash that goes with its last
field had no others. -/
theorem found_clear_of_ne (h : a ≠ b) (version : Version) (slot? : Option Slot) :
    (Place.field b).found (slot?.bind ((Place.field a).clear version)) =
      (Place.field b).found slot? := by
  cases slot? with
  | none => rfl
  | some slot =>
    show (Slot.unlessEmpty _).bind (fun slot => slot.content.part? (.field b)) =
      slot.content.part? (.field b)
    have hother := Content.part?_without_of_ne h slot.content
    unfold Slot.unlessEmpty
    split
    · rename_i hempty
      rw [← hother]
      exact (Content.part?_of_isEmpty hempty _).symm
    · exact hother

/-- A hash that goes with one field is gone after the other one, too. -/
theorem clear_clear (slot : Slot) (v w : Version) :
    ((Place.field a).clear v slot).bind ((Place.field b).clear w) =
      Slot.unlessEmpty ⟨(slot.content.without (.field a)).without (.field b),
        max (max slot.version v) w, slot.deadline⟩ := by
  unfold clear Slot.unlessEmpty
  by_cases hempty : (slot.content.without (.field a)).isEmpty = true
  · have hgone := Content.isEmpty_without (a := b) hempty
    simp only [Slot.raise, hempty, hgone, if_true, Option.bind_none]
  · simp only [Slot.raise, hempty, Bool.false_eq_true, if_false, Option.bind_some]
    rfl

/-- Two fields may be removed in either order. -/
theorem clear_comm (slot? : Option Slot) (v w : Version) :
    (slot?.bind ((Place.field a).clear v)).bind ((Place.field b).clear w) =
      (slot?.bind ((Place.field b).clear w)).bind ((Place.field a).clear v) := by
  cases slot? with
  | none => rfl
  | some slot =>
    have hversion : max (max slot.version v) w = max (max slot.version w) v := by grind
    rw [Option.bind_some, Option.bind_some, clear_clear, clear_clear, Content.without_comm,
      hversion]

end Place

end Removals

namespace Part

/-- The status of a write to a part, given what the part holds. -/
def putVerdict (version : Version) (found : Option Part) : Status :=
  if version = 0 then .error
  else if found.any (version ≤ ·.version) then .versionMismatch
  else .ok

/-- The status of the removal of a part, given what the part holds. -/
def dropVerdict (version : Version) (found : Option Part) : Status :=
  if version = 0 then .error
  else match found with
    | none => .notExist
    | some part => if version < part.version then .versionMismatch else .ok

end Part

namespace Hashes

variable {name : Bytes} {version : Version}

/-- A write that a key takes is answered. -/
theorem exists_putField (h : store.Ready now key .hash) (name : Bytes) (item : Item) :
    ∃ isNew, store.perform now (.putField key name item) =
      (.ok isNew, (store.perform now (.putField key name item)).2) := by
  have hanswer : (store.perform now (.putField key name item)).1 =
      (Slot.putField name item (store.live? now key)).map Prod.fst :=
    Store.fst_revise h.isOpen
  cases hslot : store.live? now key with
  | none =>
    rw [hslot] at hanswer
    exact ⟨true, Prod.ext hanswer rfl⟩
  | some slot =>
    obtain ⟨content, stamp, deadline⟩ := slot
    cases h.takes _ hslot with
    | hash fields =>
      rw [hslot] at hanswer
      exact ⟨!fields.contains name, Prod.ext hanswer rfl⟩

/-- A removal from a key that takes it is answered. -/
theorem exists_dropField (h : store.Ready now key .hash) (name : Bytes) (version : Version) :
    ∃ wasThere, store.perform now (.dropField key name version) =
      (.ok wasThere, (store.perform now (.dropField key name version)).2) := by
  have hanswer : (store.perform now (.dropField key name version)).1 =
      (Slot.dropField name version (store.live? now key)).map Prod.fst :=
    Store.fst_revise h.isOpen
  cases hslot : store.live? now key with
  | none =>
    rw [hslot] at hanswer
    exact ⟨false, Prod.ext hanswer rfl⟩
  | some slot =>
    obtain ⟨content, stamp, deadline⟩ := slot
    cases h.takes _ hslot with
    | hash fields =>
      rw [hslot] at hanswer
      exact ⟨fields.contains name, Prod.ext hanswer rfl⟩

/-- A field of a key that takes fields is written or not, as its verdict says. -/
theorem on_putOne (h : store.Ready now key .hash) (name : Bytes) (item : Item) :
    (putOne key name item).on now store =
      (.ok (Part.putVerdict item.version ((Place.field name).found (store.live? now key))),
        if Part.putVerdict item.version ((Place.field name).found (store.live? now key)) = .ok then
          (store.perform now (.putField key name item)).2
        else store) := by
  by_cases hversion : item.version = 0
  · rw [putOne, requireVersion, if_pos hversion, Part.putVerdict, if_pos hversion]
    rfl
  · obtain ⟨answer, hread, hfound⟩ := answer_field h.isOpen h.takes name
    obtain ⟨isNew, hwrite⟩ := exists_putField h name item
    have hany : ((Place.field name).found (store.live? now key)).any (item.version ≤ ·.version) =
        (answer.map Item.version).any (item.version ≤ ·) := by
      rw [← hfound, Option.any_map]
      rfl
    have hask : (query (.field key name)).on now store = (.ok answer, store) := by
      rw [Script.on_query, hread]
      rfl
    have hstore : (Hashes.store key name item).on now store =
        if (answer.map Item.version).any (item.version ≤ ·) then (.error .versionMismatch, store)
        else (.ok (), (store.perform now (.putField key name item)).2) := by
      rw [Hashes.store, Script.bind_eq, Script.on_bind_ok hask, Script.bind_eq, requireNewer]
      split
      · rfl
      · show ((query _).bind fun _ => Script.done ()).on now store = _
        rw [Script.on_bind, Script.on_query, hwrite]
        rfl
    have hone : putOne key name item =
        Script.settle ((Hashes.store key name item).bind fun _ => .done .ok) := by
      rw [putOne, requireVersion_of_ne hversion]
      rfl
    rw [hone, Script.on_settle, Script.on_bind, hstore, Part.putVerdict, if_neg hversion, hany]
    cases (answer.map Item.version).any (item.version ≤ ·) <;> rfl

/-- A field of a key that takes removals of fields is removed or not, as its verdict
says. -/
theorem on_dropOne (h : store.Ready now key .hash) (name : Bytes) (version : Version) :
    (dropOne key name version).on now store =
      (.ok (Part.dropVerdict version ((Place.field name).found (store.live? now key))),
        if Part.dropVerdict version ((Place.field name).found (store.live? now key)) = .ok then
          (store.perform now (.dropField key name version)).2
        else store) := by
  by_cases hversion : version = 0
  · rw [dropOne, requireVersion, if_pos hversion, Part.dropVerdict.eq_def, if_pos hversion]
    rfl
  · obtain ⟨answer, hread, hfound⟩ := answer_field h.isOpen h.takes name
    obtain ⟨wasThere, hwrite⟩ := exists_dropField h name version
    have hask : (query (.field key name)).on now store = (.ok answer, store) := by
      rw [Script.on_query, hread]
      rfl
    have hone : dropOne key name version =
        Script.settle ((query (.field key name)).bind fun found =>
        (Script.ofOption .notExist found).bind fun stored =>
          (requireCurrent stored.version version).bind fun _ =>
            (discard (query (.dropField key name version))).bind fun _ => .done .ok) := by
      rw [dropOne, requireVersion_of_ne hversion, get]
      exact congrArg Script.settle (Script.bind_assoc _ _ _)
    have hanswer : answer.map Item.version =
        ((Place.field name).found (store.live? now key)).map Part.version := hfound.symm
    rw [hone, Script.on_settle, Script.on_bind_ok hask, Part.dropVerdict.eq_def, if_neg hversion]
    cases hpart : (Place.field name).found (store.live? now key) with
    | none =>
      rw [hpart] at hanswer
      obtain rfl := Option.map_eq_none_iff.mp hanswer
      rfl
    | some part =>
      rw [hpart] at hanswer
      obtain ⟨stored, rfl, hstored⟩ := Option.map_eq_some_iff.mp hanswer
      have hrest : ((Script.ofOption .notExist (some stored)).bind fun stored =>
          (requireCurrent stored.version version).bind fun _ =>
            (discard (query (.dropField key name version))).bind fun _ =>
              Script.done Status.ok).on now store =
          if version < part.version then (.error .versionMismatch, store)
          else (.ok .ok, (store.perform now (.dropField key name version)).2) := by
        rw [← hstored]
        show ((requireCurrent stored.version version).bind _).on now store = _
        unfold requireCurrent
        split
        · rfl
        · show ((discard (query (.dropField key name version))).bind _).on now store = _
          rw [Script.discard_eq, Script.on_bind, Script.on_bind, Script.on_query, hwrite]
          rfl
      rw [hrest]
      by_cases holder : version < part.version
      · simp only [if_pos holder]
        rfl
      · simp only [if_neg holder, if_true]

variable {a b : Bytes}

/-- Two fields may be written in either order. -/
theorem putField_comm (hconsistent : store.Consistent) (h : store.Ready now key .hash)
    (hname : a ≠ b) (first second : Item) :
    ((store.perform now (.putField key a first)).2.perform now (.putField key b second)).2 =
      ((store.perform now (.putField key b second)).2.perform now (.putField key a first)).2 := by
  have hkept : ∀ (one other : Bytes) (old new : Item),
      ((store.perform now (.putField key one old)).2.perform now
        (.putField key other new)).2.slots[key]? =
        some ((Update.field other new {}).put
          (some ((Update.field one old {}).put (store.live? now key)))) := by
    intro one other old new
    have htakes : store.Ready now key (Update.field one old {}).kind := h
    have hstring : (Update.field one old {}).kind ≠ .string := Kind.noConfusion
    have hready : (store.perform now (.putField key one old)).2.Ready now key
        (Update.field other new {}).kind := Update.ready_call hstring htakes
    have hlive : (store.perform now (.putField key one old)).2.live? now key =
        some ((Update.field one old {}).put (store.live? now key)) :=
      Update.live?_call hstring htakes
    rw [← hlive]
    exact Update.getElem?_call hready.isOpen hready.takes
  refine hconsistent.perform_comm rfl rfl ?_
  rw [hkept, hkept]
  exact congrArg some (Update.put_comm (a := .field a first {}) (b := .field b second {}) rfl
    (mt Place.field.inj hname) h.takes)

/-- Two fields may be removed in either order. -/
theorem dropField_comm (hconsistent : store.Consistent) (h : store.Ready now key .hash)
    (v w : Version) :
    ((store.perform now (.dropField key a v)).2.perform now (.dropField key b w)).2 =
      ((store.perform now (.dropField key b w)).2.perform now (.dropField key a v)).2 := by
  have hkept : ∀ (one other : Bytes) (old new : Version),
      ((store.perform now (.dropField key one old)).2.perform now
        (.dropField key other new)).2.slots[key]? =
        ((store.live? now key).bind ((Place.field one).clear old)).bind
          ((Place.field other).clear new) := by
    intro one other old new
    have htakes : store.Ready now key (Place.field one).kind := h
    have hstring : ∀ name, (Place.field name).kind ≠ .string := fun _ => Kind.noConfusion
    have hready : (store.perform now (.dropField key one old)).2.Ready now key
        (Place.field other).kind := Place.ready_drop (hstring one) htakes old
    have hlive : (store.perform now (.dropField key one old)).2.live? now key =
        (store.live? now key).bind ((Place.field one).clear old) :=
      Place.live?_drop (hstring one) htakes old
    rw [← hlive]
    exact Place.getElem?_drop (hstring other) hready new
  refine hconsistent.perform_comm rfl rfl ?_
  rw [hkept, hkept, Place.clear_comm]

/-! ## Batches -/

/-- The writes of a batch may be made in any order. -/
theorem on_putAll_perm {order values : List (Bytes × Item)} (horder : order.Perm values)
    (hnames : (order.map Prod.fst).Nodup) (h : store.Ready now key .hash)
    (hconsistent : store.Consistent) :
    let step : Bytes × Item → Script Status (Bytes × Status) :=
      fun value => (putOne key value.1 value.2).bind fun status => .done (value.1, status)
    ∃ results listed after, (order.mapM step).on now store = (.ok results, after) ∧
      (values.mapM step).on now store = (.ok listed, after) ∧ results.Perm listed := by
  intro step
  have hplaces : (order.map fun value => Place.field value.1).Nodup := by
    rw [List.Nodup, List.pairwise_map] at hnames ⊢
    exact hnames.imp fun hne => mt Place.field.inj hne
  have hstring : ∀ value : Bytes × Item, (Update.field value.1 value.2 {}).kind ≠ .string :=
    fun _ => Kind.noConfusion
  refine Store.Ready.on_mapM_perm (fun value store hstore => Script.on_bind_ok
    (on_putOne hstore value.1 value.2) _) ?_ ?_ ?_ horder hplaces h hconsistent
  · intro value store hstore
    exact Update.ready_call (hstring value) hstore
  · intro first second store hplace hstore
    have hlive : (store.perform now (.putField key first.1 first.2)).2.live? now key =
        some ((Update.field first.1 first.2 {}).put (store.live? now key)) :=
      Update.live?_call (hstring first) hstore
    rw [hlive]
    exact Update.part?_put_of_ne (a := .field first.1 first.2 {}) (b := .field second.1 second.2 {})
      rfl hplace hstore.takes
  · intro first second store hplace hstore hkept
    exact putField_comm hkept hstore (fun hname => hplace (congrArg Place.field hname)) _ _

/-- The removals of a batch may be made in any order. -/
theorem on_dropAll_perm {order fields : List (Bytes × Version)} (horder : order.Perm fields)
    (hnames : (order.map Prod.fst).Nodup) (h : store.Ready now key .hash)
    (hconsistent : store.Consistent) :
    let step : Bytes × Version → Script Status (Bytes × Status) :=
      fun field => (dropOne key field.1 field.2).bind fun status => .done (field.1, status)
    ∃ results listed after, (order.mapM step).on now store = (.ok results, after) ∧
      (fields.mapM step).on now store = (.ok listed, after) ∧ results.Perm listed := by
  intro step
  have hplaces : (order.map fun field => Place.field field.1).Nodup := by
    rw [List.Nodup, List.pairwise_map] at hnames ⊢
    exact hnames.imp fun hne => mt Place.field.inj hne
  have hstring : ∀ field : Bytes × Version, (Place.field field.1).kind ≠ .string :=
    fun _ => Kind.noConfusion
  refine Store.Ready.on_mapM_perm (fun field store hstore => Script.on_bind_ok
    (on_dropOne hstore field.1 field.2) _) ?_ ?_ ?_ horder hplaces h hconsistent
  · intro field store hstore
    exact Place.ready_drop (hstring field) hstore field.2
  · intro first second store hplace hstore
    have hlive : (store.perform now (.dropField key first.1 first.2)).2.live? now key =
        (store.live? now key).bind ((Place.field first.1).clear first.2) :=
      Place.live?_drop (hstring first) hstore first.2
    rw [hlive]
    exact Place.found_clear_of_ne (fun hname => hplace (congrArg Place.field hname)) _ _
  · intro first second store _ hstore hkept
    exact dropField_comm hkept hstore _ _

end Hashes

/-- A batch in another order is refused under the same status, or its turns are. -/
theorem on_batch_perm {ι α β : Type} {check : Script Status β} {step : ι → Script Status α}
    {order items : List ι} (hcheck : check.Asks (· ≠ .ok)) (horder : order.Perm items)
    (hloop : ∀ found, check.on now store = (.ok found, store) →
      ∃ results listed after, (order.mapM step).on now store = (.ok results, after) ∧
        (items.mapM step).on now store = (.ok listed, after) ∧ results.Perm listed) :
    let script : List ι → Script Status (List α) := fun items =>
      (requireSome items).bind fun _ => (discard check).bind fun _ => items.mapM step
    (∃ status, (script order).on now store = (.error status, store) ∧
        (script items).on now store = (.error status, store)) ∨
      ∃ results listed after, (script order).on now store = (.ok results, after) ∧
        (script items).on now store = (.ok listed, after) ∧ results.Perm listed := by
  intro script
  have hempty : order.isEmpty = items.isEmpty := by
    rw [Bool.eq_iff_iff, List.isEmpty_iff, List.isEmpty_iff]
    exact ⟨fun h => by simpa [h] using horder.symm, fun h => by simpa [h] using horder⟩
  cases hbatch : items.isEmpty with
  | true =>
    have hrefused : ∀ batch : List ι, batch.isEmpty = true →
        (script batch).on now store = (.error .wrongArgCount, store) := by
      intro batch hnone
      show ((requireSome batch).bind _).on now store = _
      rw [requireSome, if_pos hnone]
      rfl
    exact .inl ⟨.wrongArgCount, hrefused order (hempty.trans hbatch), hrefused items hbatch⟩
  | false =>
    have hscript : ∀ batch : List ι, batch.isEmpty = false → (script batch).on now store =
        ((discard check).bind fun _ => batch.mapM step).on now store := by
      intro batch hsome
      show ((requireSome batch).bind _).on now store = _
      rw [requireSome, if_neg (Bool.eq_false_iff.mp hsome)]
      rfl
    rw [hscript order (hempty.trans hbatch), hscript items hbatch, Script.discard_eq]
    rcases hcheck.run_cases now store with ⟨found, hfound⟩ | ⟨status, _, hrefused⟩
    · have hpassed := Script.on_bind_ok hfound fun _ => Script.done ()
      rw [Script.on_bind_ok hpassed, Script.on_bind_ok hpassed]
      exact .inr (hloop found hfound)
    · have hfailed := Script.on_bind_error hrefused fun _ => Script.done ()
      exact .inl ⟨status, Script.on_bind_error hfailed _, Script.on_bind_error hfailed _⟩

/-- A batch that is not refused answers for its items in order. -/
theorem map_fst_of_on_batch {ι α β γ : Type} {check : Script Status β} {tag : ι → γ}
    {turn : ι → Script Status α} {items : List ι} {results : List (γ × α)} {after : Store}
    (h : ((requireSome items).bind fun _ => (discard check).bind fun _ =>
      items.mapM fun item => (turn item).bind fun result => .done (tag item, result)).on now
        store = (.ok results, after)) : results.map Prod.fst = items.map tag := by
  obtain ⟨_, _, _, h⟩ := Script.on_bind_eq_ok h
  obtain ⟨_, _, _, h⟩ := Script.on_bind_eq_ok h
  exact Script.map_fst_of_on_mapM h

namespace Command

variable {context : Context} {left right : Command}

/-- Whether two batches report the same status, the same status for each of the named
fields, and leave the same store. -/
def SameOutcome (context : Context) (store : Store) (names : List Bytes) (left right : Command) :
    Prop :=
  ∃ status reported listed after,
    left.run context store = (⟨status, .fieldStatuses reported⟩, after) ∧
    right.run context store = (⟨status, .fieldStatuses listed⟩, after) ∧
    listed.map Prod.fst = names ∧ reported.Perm listed

/-- Batches whose loops run alike have the same outcome: a refusal puts its status down
for each of the fields. -/
theorem sameOutcome_of_perm {names : List Bytes}
    {leftScript rightScript : Script Status (List (Bytes × Status))}
    (hleft : left.script context = reply leftScript .fieldStatuses)
    (hright : right.script context = reply rightScript .fieldStatuses)
    (hblank : ∀ status, ∃ reported listed,
      left.blank status = .fieldStatuses reported ∧ right.blank status = .fieldStatuses listed ∧
      listed.map Prod.fst = names ∧ reported.Perm listed)
    (hnames : ∀ listed after, rightScript.on context.now store = (.ok listed, after) →
      listed.map Prod.fst = names)
    (h : (∃ status, leftScript.on context.now store = (.error status, store) ∧
        rightScript.on context.now store = (.error status, store)) ∨
      ∃ results listed after, leftScript.on context.now store = (.ok results, after) ∧
        rightScript.on context.now store = (.ok listed, after) ∧ results.Perm listed) :
    SameOutcome context store names left right := by
  have hrunLeft := run_of_reply hleft store
  have hrunRight := run_of_reply hright store
  rcases h with ⟨status, hfirst, hsecond⟩ | ⟨results, listed, after, hfirst, hsecond, hsame⟩
  · obtain ⟨reported, listed, hreported, hlisted, hsame⟩ := hblank status
    rw [hfirst] at hrunLeft
    rw [hsecond] at hrunRight
    refine ⟨status, reported, listed, store, ?_, ?_, hsame⟩
    · rw [hrunLeft, ← hreported]
    · rw [hrunRight, ← hlisted]
  · rw [hfirst] at hrunLeft
    rw [hsecond] at hrunRight
    exact ⟨.ok, results, listed, after, hrunLeft, hrunRight, hnames listed after hsecond, hsame⟩

/-- The order in which the fields of a batch are visited makes no difference: with every
field named once, the batch reports the same status, the same status for each field, and
leaves the same store. -/
theorem hash_batches_reordered (h : store.Reachable) (context : Context) (key : Bytes)
    (terms : Terms) :
    (∀ order values : List (Bytes × Item), (values.map Prod.fst).Nodup → order.Perm values →
      SameOutcome context store (values.map Prod.fst)
        (.hmset key order terms) (.hmset key values terms)) ∧
    ∀ order fields : List (Bytes × Version), (fields.map Prod.fst).Nodup → order.Perm fields →
      SameOutcome context store (fields.map Prod.fst)
        (.hdel key order terms) (.hdel key fields terms) := by
  refine ⟨fun order values hnames horder => ?_, fun order fields hnames horder => ?_⟩
  · have hnames' := (horder.map Prod.fst).nodup_iff.mpr hnames
    refine sameOutcome_of_perm (by rfl) (by rfl) (fun status => ⟨_, _, rfl, rfl, ?_, horder.map _⟩)
      (fun listed after hlisted => map_fst_of_on_batch hlisted)
      (on_batch_perm (asks_checkKind common_ne_ok .hash) horder fun found hfound =>
        Hashes.on_putAll_perm horder hnames' (ready_of_checkKind h.sound hfound) h.consistent)
    rw [List.map_map]
    rfl
  · have hnames' := (horder.map Prod.fst).nodup_iff.mpr hnames
    refine sameOutcome_of_perm (by rfl) (by rfl) (fun status => ⟨_, _, rfl, rfl, ?_, horder.map _⟩)
      (fun listed after hlisted => map_fst_of_on_batch hlisted)
      (on_batch_perm (asks_checkExisting common_ne_ok (by decide) .hash) horder fun found hfound =>
        Hashes.on_dropAll_perm horder hnames' (ready_of_checkExisting h.sound hfound) h.consistent)
    rw [List.map_map]
    rfl

/-- A write that comes too late for one of two fields, and a removal of both, with which
the hash goes. -/
theorem hash_batches_reordered_two :
    let context : Context := ⟨⟨5000⟩, .absolute⟩
    let store := ((Store.empty.perform 0 (.putField [104] [97] ⟨[49], 1⟩)).2.perform 0
      (.putField [104] [98] ⟨[50], 2⟩)).2
    let values : List (Bytes × Item) := [([97], ⟨[51], 4⟩), ([98], ⟨[52], 2⟩)]
    let fields : List (Bytes × Version) := [([97], 1), ([98], 3)]
    store.Reachable ∧
      SameOutcome context store [[97], [98]]
        (.hmset [104] values.reverse {}) (.hmset [104] values {}) ∧
      ((Command.hmset [104] values {}).run context store).1 =
        ⟨.ok, .fieldStatuses [([97], .ok), ([98], .versionMismatch)]⟩ ∧
      SameOutcome context store [[97], [98]]
        (.hdel [104] fields.reverse {}) (.hdel [104] fields {}) ∧
      ((Command.hdel [104] fields {}).run context store).2.keptCount = 0 := by
  intro context store values fields
  have hreachable : store.Reachable := (Store.Reachable.empty.perform 0 _).perform 0 _
  have hboth := hash_batches_reordered hreachable context [104] {}
  exact ⟨hreachable, hboth.1 _ values (by decide) values.reverse_perm, by decide,
    hboth.2 _ fields (by decide) fields.reverse_perm, by decide⟩

end Command

end Keyspace
