import Keyspace.Proofs.Admission
import Keyspace.Proofs.Agenda
import Keyspace.Proofs.Script

/-!
# Deletion

What `del` does, in one statement (`Keys.on_delete`): every key gets the verdict
on its record, and the slots that go are those of the doomed keys.
-/

namespace Keyspace

variable {now : Millis} {store : Store} {key : Bytes} {version : Version} {terms : Terms}

/-- A list beside its own image is the list of its pairs. -/
theorem zip_map_self {α β : Type} (items : List α) (f : α → β) :
    items.zip (items.map f) = items.map fun item => (item, f item) := by
  rw [← List.zip_map', List.map_id']

/-- A list beside an image of its pairs with another one. -/
theorem zip_map_zip {α β γ : Type} {left : List α} {right : List β}
    (hlength : left.length = right.length) (f : α × β → γ) :
    left.zip ((left.zip right).map f) = (left.zip right).map fun pair => (pair.1, f pair) :=
  calc left.zip ((left.zip right).map f)
    _ = ((left.zip right).map Prod.fst).zip ((left.zip right).map f) := by
      rw [List.map_fst_zip (Nat.le_of_eq hlength)]
    _ = _ := List.zip_map'

/-- Deleting keys one by one takes their slots and leaves the others. -/
theorem on_deleteAll (hopen : store.closed = false) (keys : List Bytes) :
    ∃ answers after, (deleteAll keys).on now store = (.ok answers, after) ∧
      ∀ other, after.slots[other]? = if other ∈ keys then none else store.slots[other]? := by
  induction keys generalizing store with
  | nil => exact ⟨[], store, rfl, fun other => by simp⟩
  | cons key rest ih =>
    have hdelete : store.perform now (.delete key) =
        (.ok (store.slots.contains key), store.replace key none) := by
      rw [Store.perform, Store.delete, hopen]
      rfl
    have hask : (ask (.delete key)).on now store =
        (.ok (store.slots.contains key), store.replace key none) := by
      rw [Script.on_ask, hdelete]
    obtain ⟨answers, after, hrest, hslots⟩ := ih ((Store.closed_replace store key none).trans hopen)
    refine ⟨store.slots.contains key :: answers, after, ?_, fun other => ?_⟩
    · unfold deleteAll at hrest ⊢
      rw [List.mapM_cons, Script.bind_eq, Script.on_bind_ok hask, Script.bind_eq,
        Script.on_bind_ok hrest]
      rfl
    · rw [hslots, Store.getElem?_replace]
      by_cases hother : key = other
      · subst hother
        simp
      · simp [hother, Ne.symm hother]

namespace Keys

/-- The verdict on a key, from what can be seen of it. -/
def verdictOn (terms : Terms) (now : Millis) (store : Store) (entry : Bytes × Version) : Verdict :=
  verdict entry.2 terms ((store.live? now entry.1).map Slot.record)

theorem on_judge (hopen : store.closed = false) :
    (judge key version terms).on now store =
      (.ok (verdictOn terms now store (key, version)), store) := by
  rw [judge, Script.bind_eq, Script.on_bind, Script.on_outcome, Script.on_query,
    Store.perform_record, Store.record_open hopen]
  rfl

/-- The keys of a deletion whose slots are to go. -/
def doomed (terms : Terms) (now : Millis) (store : Store) (entries : List (Bytes × Version)) :
    List Bytes :=
  (entries.filter fun entry => (verdictOn terms now store entry).doomed).map Prod.fst

theorem mem_doomed {entries : List (Bytes × Version)} :
    key ∈ doomed terms now store entries ↔
      ∃ version, (key, version) ∈ entries ∧
        (verdictOn terms now store (key, version)).doomed = true := by
  simp [doomed]

/-- As `mem_doomed`, for keys that are all to be deleted at one version. -/
theorem mem_doomed_at {keys : List Bytes} :
    key ∈ doomed terms now store (keys.zip (keys.map fun _ => version)) ↔
      key ∈ keys ∧ (verdictOn terms now store (key, version)).doomed = true := by
  rw [mem_doomed, zip_map_self]
  constructor
  · rintro ⟨given, hmem, hdoomed⟩
    obtain ⟨other, hother, heq⟩ := List.mem_map.mp hmem
    cases heq
    exact ⟨hother, hdoomed⟩
  · rintro ⟨hkey, hdoomed⟩
    exact ⟨version, List.mem_map.mpr ⟨key, hkey, rfl⟩, hdoomed⟩

/-- An open store gives every key its verdict and deletes the doomed ones. -/
theorem on_delete (now : Millis) (hopen : store.closed = false) {keys : List Bytes}
    {versions : List Version} (hlength : keys.length = versions.length) (terms : Terms) :
    ∃ after, (delete keys versions terms).on now store =
        (.ok ((keys.zip versions).map fun entry => (verdictOn terms now store entry).status),
          after) ∧
      ∀ other, after.slots[other]? =
        if other ∈ doomed terms now store (keys.zip versions) then none
        else store.slots[other]? := by
  have hjudge : ((keys.zip versions).mapM fun (key, version) => judge key version terms).on now
      store = (.ok ((keys.zip versions).map (verdictOn terms now store)), store) :=
    Script.on_mapM_eq_map (fun _ => on_judge hopen) _
  have hdoomed : ((keys.zip ((keys.zip versions).map (verdictOn terms now store))).filter
      (·.2.doomed)).map Prod.fst = doomed terms now store (keys.zip versions) := by
    rw [zip_map_zip hlength, List.filter_map, List.map_map]
    rfl
  obtain ⟨answers, after, hrun, hslots⟩ :=
    on_deleteAll hopen (doomed terms now store (keys.zip versions))
  refine ⟨after, ?_, hslots⟩
  rw [delete, if_neg (fun h => h hlength), Script.bind_eq, Script.on_bind_ok hjudge]
  dsimp only
  rw [hdoomed, Script.bind_eq, Script.on_bind, Script.on_outcome, hrun]
  simp

end Keys

end Keyspace
