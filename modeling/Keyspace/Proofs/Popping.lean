import Keyspace.Proofs.Refusal
import Keyspace.Proofs.Stamps

/-!
# Popping a set empty

A pop takes a member out of a set, and the clock picks which one.  This module follows a set
without a deadline through a sequence of pops, among which commands on other keys may run.

* Members.  A clock picks a member of every set that has one (`Clock.picked_eq_none`).  The
  pops of a sequence draw members one after the other, each from those that the ones before
  have left (`drawn`): nobody twice, and everybody if there are enough of them
  (`drawn_spec`).
* Slots.  `Store.HoldsSet` says that a key holds a set, or nothing if the set has no members.
  A pop replies with the member that the clock picks and leaves the others
  (`Store.HoldsSet.pop`); all other steps leave everybody (`Store.HoldsSet.leaves`).
* The whole course.  The members that are left at any time are those that have not been drawn
  (`Store.HoldsSet.runAll`).
-/

namespace Keyspace

variable {key name : Bytes} {members : Members} {version stored : Version} {context : Context}
  {now : Millis} {store : Store} {step : Step} {steps : List Step} {clock : Clock}

/-! ## Members -/

namespace Members

/-- The members that are left when some have gone. -/
def without (members : Members) (gone : List Bytes) : Members :=
  gone.foldl (·.erase ·) members

theorem getElem?_without (members : Members) (gone : List Bytes) (name : Bytes) :
    (members.without gone)[name]? = if name ∈ gone then none else members[name]? := by
  induction gone generalizing members with
  | nil => rfl
  | cons first rest ih =>
    rw [without, List.foldl_cons, ← without, ih, Std.ExtTreeMap.getElem?_erase]
    by_cases hsame : first = name
    · simp [hsame]
    · simp [hsame, Ne.symm hsame]

theorem size_erase (hname : name ∈ members) : (members.erase name).size + 1 = members.size := by
  have hcontains : members.contains name = true := Std.ExtTreeMap.contains_iff_mem.mpr hname
  have hfilled : members.size ≠ 0 := by
    intro hzero
    rw [Std.ExtTreeMap.eq_empty_iff_size_eq_zero.mpr hzero] at hname
    exact Std.ExtTreeMap.not_mem_empty hname
  rw [Std.ExtTreeMap.size_erase, if_pos hcontains]
  omega

theorem mem_erase {other : Bytes} :
    other ∈ members.erase name ↔ name ≠ other ∧ other ∈ members := by
  rw [Std.ExtTreeMap.mem_erase, ne_eq, Std.LawfulEqOrd.compare_eq_iff_eq]

theorem size_without {gone : List Bytes} (hnodup : gone.Nodup)
    (hgone : ∀ name ∈ gone, name ∈ members) :
    (members.without gone).size + gone.length = members.size := by
  induction gone generalizing members with
  | nil => rfl
  | cons first rest ih =>
    obtain ⟨hfirst, hrest⟩ := List.forall_mem_cons.mp hgone
    obtain ⟨hother, hnodup⟩ := List.nodup_cons.mp hnodup
    have hleft : ∀ name ∈ rest, name ∈ members.erase first := by
      intro name hname
      refine mem_erase.mpr ⟨?_, hrest name hname⟩
      rintro rfl
      exact hother hname
    rw [without, List.foldl_cons, ← without, List.length_cons, ← Nat.add_assoc, ih hnodup hleft,
      size_erase hfirst]

end Members

/-- The member that a reading of the clock picks, if there is one. -/
def Clock.picked (clock : Clock) (members : Members) : Option Bytes :=
  (members.toList[clock.micros % members.toList.length]?).map Prod.fst

namespace Clock

/-- The place that a clock picks is one of those that there are. -/
theorem picked_eq_none : clock.picked members = none ↔ members.size = 0 := by
  rw [picked, Option.map_eq_none_iff, List.getElem?_eq_none_iff, Std.ExtTreeMap.length_toList]
  constructor
  · intro h
    by_contra hfilled
    exact Nat.not_lt.mpr h (Nat.mod_lt _ (Nat.pos_of_ne_zero hfilled))
  · intro h
    rw [h]
    exact Nat.zero_le _

theorem size_ne_zero_of_picked (h : clock.picked members = some name) : members.size ≠ 0 := by
  intro hnobody
  rw [picked_eq_none.mpr hnobody] at h
  cases h

theorem mem_of_picked (h : clock.picked members = some name) : name ∈ members := by
  obtain ⟨⟨_, version⟩, hentry, rfl⟩ := Option.map_eq_some_iff.mp h
  have hmember := Std.ExtTreeMap.mem_toList_iff_getElem?_eq_some.mp (List.mem_of_getElem? hentry)
  rw [Std.ExtTreeMap.mem_iff_isSome_getElem?, hmember]
  rfl

end Clock

/-! ## Draws -/

/-- The version of a step that pops a member of a key and demands no version of it. -/
def Step.pop? (key : Bytes) (step : Step) : Option Version :=
  match step.command with
  | .spop other version terms => if other = key ∧ terms = {} then some version else none
  | _ => none

theorem Step.pop?_eq_some (h : step.pop? key = some version) :
    step.command = .spop key version {} := by
  unfold pop? at h
  split at h
  · rename_i other version' terms hcommand
    split at h
    · rename_i hsame
      obtain ⟨rfl, rfl⟩ := hsame
      cases h
      exact hcommand
    · cases h
  · cases h

/-- The member that a step draws from a set, if it draws one. -/
def Step.draws? (key : Bytes) (members : Members) (step : Step) : Option Bytes :=
  (step.pop? key).bind fun _ => step.context.clock.picked members

theorem Step.draws?_of_none (h : step.pop? key = none) (members : Members) :
    step.draws? key members = none := by
  rw [draws?, h, Option.bind_none]

theorem Step.draws?_of_some (h : step.pop? key = some version) (members : Members) :
    step.draws? key members = step.context.clock.picked members := by
  rw [draws?, h, Option.bind_some]

/-- The members that some steps draw from a set, in order. -/
def drawn (key : Bytes) (members : Members) : List Step → List Bytes
  | [] => []
  | step :: rest =>
    match step.draws? key members with
    | none => drawn key members rest
    | some name => name :: drawn key (members.erase name) rest

/-- How many pops there are among some steps. -/
def pops (key : Bytes) (steps : List Step) : Nat :=
  (steps.filterMap (Step.pop? key)).length

theorem drawn_cons_none (h : step.draws? key members = none) (rest : List Step) :
    drawn key members (step :: rest) = drawn key members rest := by
  rw [drawn, h]

theorem drawn_cons_some (h : step.draws? key members = some name) (rest : List Step) :
    drawn key members (step :: rest) = name :: drawn key (members.erase name) rest := by
  rw [drawn, h]

theorem drawn_append (key : Bytes) (members : Members) (before after : List Step) :
    drawn key members (before ++ after) =
      drawn key members before ++ drawn key (members.without (drawn key members before)) after := by
  induction before generalizing members with
  | nil => rfl
  | cons step rest ih =>
    cases hdraws : step.draws? key members with
    | none => rw [List.cons_append, drawn_cons_none hdraws, drawn_cons_none hdraws, ih]
    | some name =>
      rw [List.cons_append, drawn_cons_some hdraws, drawn_cons_some hdraws, ih]
      rfl

theorem pops_cons_none (h : step.pop? key = none) (rest : List Step) :
    pops key (step :: rest) = pops key rest := by
  rw [pops, List.filterMap_cons_none h, pops]

theorem pops_cons_some (h : step.pop? key = some version) (rest : List Step) :
    pops key (step :: rest) = pops key rest + 1 := by
  rw [pops, List.filterMap_cons_some h, List.length_cons, pops]

/-- Nobody is drawn twice, and as many are drawn as there are pops and members. -/
theorem drawn_spec (key : Bytes) (members : Members) (steps : List Step) :
    (drawn key members steps).Nodup ∧ (∀ name ∈ drawn key members steps, name ∈ members) ∧
      (drawn key members steps).length = min (pops key steps) members.size := by
  induction steps generalizing members with
  | nil => exact ⟨List.nodup_nil, nofun, (Nat.zero_min _).symm⟩
  | cons step rest ih =>
    cases hpop : step.pop? key with
    | none =>
      have hdraws := Step.draws?_of_none hpop members
      rw [drawn_cons_none hdraws, pops_cons_none hpop]
      exact ih members
    | some version =>
      have hdraws := Step.draws?_of_some hpop members
      rw [pops_cons_some hpop]
      cases hpicked : step.context.clock.picked members with
      | none =>
        obtain ⟨hnodup, hmem, hlength⟩ := ih members
        rw [drawn_cons_none (hdraws.trans hpicked)]
        -- a clock picks nobody only if there is nobody, and then neither count matters
        refine ⟨hnodup, hmem, ?_⟩
        rw [hlength, Clock.picked_eq_none.mp hpicked, Nat.min_zero, Nat.min_zero]
      | some name =>
        obtain ⟨hnodup, hmem, hlength⟩ := ih (members.erase name)
        have hname : name ∈ members := Clock.mem_of_picked hpicked
        rw [drawn_cons_some (hdraws.trans hpicked)]
        refine ⟨List.nodup_cons.mpr ⟨fun htwice => ?_, hnodup⟩,
          List.forall_mem_cons.mpr ⟨hname, fun other hother => ?_⟩, ?_⟩
        · -- the rest draws from a set that has lost this member
          exact (Members.mem_erase.mp (hmem name htwice)).1 rfl
        · exact (Members.mem_erase.mp (hmem other hother)).2
        · rw [List.length_cons, hlength, ← Members.size_erase hname, Nat.succ_min_succ]

section Drawn

variable (key : Bytes) (members : Members) (steps : List Step)

/-- The members that are left when some have been drawn, and those that have been drawn, are
as many as there were. -/
theorem size_without_drawn :
    (members.without (drawn key members steps)).size + min (pops key steps) members.size =
      members.size := by
  obtain ⟨hnodup, hmem, hlength⟩ := drawn_spec key members steps
  rw [← hlength, Members.size_without hnodup hmem]

/-- Everybody is drawn if there are pops enough. -/
theorem mem_drawn_iff (hcount : members.size ≤ pops key steps) :
    name ∈ drawn key members steps ↔ name ∈ members := by
  refine ⟨(drawn_spec key members steps).2.1 name, fun hname => ?_⟩
  have hsize := size_without_drawn key members steps
  rw [Nat.min_eq_right hcount] at hsize
  have hempty := Std.ExtTreeMap.eq_empty_iff_size_eq_zero.mpr (Nat.add_eq_right.mp hsize)
  have hgone := members.getElem?_without (drawn key members steps) name
  by_contra hleft
  rw [if_neg hleft, hempty, Std.ExtTreeMap.getElem?_empty] at hgone
  rw [Std.ExtTreeMap.mem_iff_isSome_getElem?, ← hgone] at hname
  cases hname

/-- What has been drawn at some time has been drawn first. -/
theorem drawn_take (i : Nat) :
    drawn key members (steps.take i) =
      (drawn key members steps).take (pops key (steps.take i)) := by
  have hsplit := drawn_append key members (steps.take i) (steps.drop i)
  rw [List.take_append_drop] at hsplit
  have hprefix : drawn key members (steps.take i) <+: drawn key members steps := ⟨_, hsplit.symm⟩
  obtain ⟨_, _, hlength⟩ := drawn_spec key members (steps.take i)
  have hmost : (drawn key members steps).length ≤ members.size := by
    rw [(drawn_spec key members steps).2.2]
    exact Nat.min_le_right _ _
  calc drawn key members (steps.take i)
    _ = (drawn key members steps).take (drawn key members (steps.take i)).length :=
      List.prefix_iff_eq_take.mp hprefix
    _ = ((drawn key members steps).take members.size).take (pops key (steps.take i)) := by
      rw [hlength, List.take_take]
    _ = (drawn key members steps).take (pops key (steps.take i)) := by
      rw [List.take_of_length_le hmost]

/-- A pop draws whoever is next, until there is nobody. -/
theorem getElem?_drawn {i : Nat} (hstep : steps[i]? = some step)
    (hpop : step.pop? key = some version) :
    (drawn key members steps)[pops key (steps.take i)]? =
      step.context.clock.picked (members.without (drawn key members (steps.take i))) := by
  obtain ⟨hi, rfl⟩ := List.getElem?_eq_some_iff.mp hstep
  -- the draws so far, this one if there is one, and the draws to come
  have hsplit := drawn_append key members (steps.take i) (steps[i] :: steps.drop (i + 1))
  have hsize := size_without_drawn key members (steps.take i)
  obtain ⟨_, _, hlength⟩ := drawn_spec key members (steps.take i)
  obtain ⟨_, _, hall⟩ := drawn_spec key members steps
  rw [← List.drop_eq_getElem_cons hi, List.take_append_drop, List.drop_eq_getElem_cons hi] at hsplit
  generalize hleft : members.without (drawn key members (steps.take i)) = left at hsplit hsize ⊢
  have hdraws := Step.draws?_of_some hpop left
  cases hpicked : steps[i].context.clock.picked left with
  | none =>
    have hnobody := Clock.picked_eq_none.mp hpicked
    exact List.getElem?_eq_none (by omega)
  | some name =>
    have hsomebody := Clock.size_ne_zero_of_picked hpicked
    have hbefore : (drawn key members (steps.take i)).length = pops key (steps.take i) := by omega
    rw [hsplit, drawn_cons_some (hdraws.trans hpicked), ← hbefore,
      List.getElem?_append_right (Nat.le_refl _), Nat.sub_self]
    rfl

end Drawn

/-! ## Slots -/

/-- Whether a key holds a set without a deadline, or nothing if that has no members. -/
structure Store.HoldsSet (store : Store) (key : Bytes) (members : Members) (version : Version) :
    Prop where
  isOpen : store.closed = false
  slot : store.slots[key]? = Slot.unlessEmpty ⟨.set members, version, none⟩

theorem Slot.unlessEmpty_set (members : Members) (version : Version) (deadline : Option Millis) :
    Slot.unlessEmpty ⟨.set members, version, deadline⟩ =
      if members.size = 0 then none else some ⟨.set members, version, deadline⟩ := by
  refine if_congr ?_ rfl rfl
  show members.isEmpty = true ↔ _
  rw [Std.ExtTreeMap.isEmpty_iff, Std.ExtTreeMap.eq_empty_iff_size_eq_zero]

namespace Store

variable {slot : Slot}

/-- A live set that loses a member. -/
theorem perform_dropMember (hopen : store.closed = false) (hslot : store.live? now key = some slot)
    (hset : slot.content = .set members) (name : Bytes) (version : Version) :
    store.perform now (.dropMember key name version) =
      (.ok (members.contains name), store.replace key
        (Slot.unlessEmpty
          ⟨.set (members.erase name), max slot.version version, slot.deadline⟩)) := by
  have hchange : Slot.dropMember name version (some slot) = .ok (members.contains name,
      Slot.unlessEmpty ⟨.set (members.erase name), max slot.version version, slot.deadline⟩) := by
    rw [Slot.dropMember, Slot.set, hset]
    rfl
  rw [perform, revise_open hopen, hslot, hchange, sweep_of_live hslot]

end Store

namespace Sets

variable {slot : Slot}

theorem on_pop_absent (hopen : store.closed = false)
    (hslot : store.live? context.now key = none) (hnonzero : version ≠ 0) :
    (pop context key version {}).on context.now store = (.error .notExist, store) := by
  have hcheck : (checkCurrent key {} .set version).on context.now store =
      (.error .notExist, store) := on_checkCurrent_of_absent hopen hslot rfl
  rw [pop, requireVersion_of_ne hnonzero]
  show ((discard (checkCurrent key {} .set version)).bind _).on context.now store = _
  rw [Script.discard_eq, Script.bind_assoc, Script.on_bind_error hcheck]

/-- A pop of a live set takes out the member that the clock picks. -/
theorem on_pop (hopen : store.closed = false) (hslot : store.live? context.now key = some slot)
    (hset : slot.content = .set members) (hnonzero : version ≠ 0)
    (hversion : slot.version ≤ version)
    (hpicked : context.clock.picked members = some name) :
    (pop context key version {}).on context.now store =
      (.ok ⟨name, version⟩, store.replace key (Slot.unlessEmpty
        ⟨.set (members.erase name), max slot.version version, slot.deadline⟩)) := by
  have hkind : slot.content.kind = .set := congrArg Content.kind hset
  have hpermit : ({} : Terms).permit (some slot.record) = true := rfl
  have hcheck := on_checkCurrent hopen hslot hkind hpermit hversion
  have hmembers : (query (.members key)).on context.now store = (.ok members.toList, store) := by
    have hfound : slot.set = .ok members := by rw [Slot.set, hset]
    rw [Script.on_query, Store.perform, Store.view_part hopen hslot hfound [] (·.toList)]
    rfl
  obtain ⟨⟨_, stamp⟩, hentry, rfl⟩ := Option.map_eq_some_iff.mp hpicked
  rw [pop, requireVersion_of_ne hnonzero]
  show ((discard (checkCurrent key {} .set version)).bind _).on context.now store = _
  rw [Script.discard_eq, Script.bind_assoc, Script.on_bind_ok hcheck]
  show ((query (.members key)).bind _).on context.now store = _
  rw [Script.on_bind_ok hmembers, hentry]
  show ((discard (query (.dropMember key _ version))).bind _).on context.now store = _
  rw [Script.discard_eq, Script.bind_assoc, Script.on_bind, Script.on_query,
    Store.perform_dropMember hopen hslot hset]
  rfl

end Sets

namespace Store

namespace HoldsSet

variable (h : store.HoldsSet key members stored)

include h

/-- Without a deadline a key is seen at any time. -/
theorem live?_eq (now : Millis) :
    store.live? now key =
      if members.size = 0 then none else some ⟨.set members, stored, none⟩ := by
  rw [Store.live?_eq, h.slot, Slot.unlessEmpty_set]
  split <;> rfl

/-- Steps that are about other keys leave the set as it is. -/
theorem leaves (hfinalize : step.command ≠ .finalize) (hkey : key ∉ step.command.keys) :
    (step.run store).2.HoldsSet key members stored where
  isOpen := by
    have hcalls : (step.command.script step.context).Calls (· ≠ .close) :=
      (Command.script_calls step.context step.command).mono fun c hc hsame =>
        hfinalize (Command.Footprint.eq_finalize (hsame ▸ hc))
    exact (hcalls.closed_on step.context.now store).trans h.isOpen
  slot := (Command.getElem?_run_of_not_mem hfinalize hkey).trans h.slot

/-- A pop replies with the member that the clock picks and leaves the others, or it finds
nobody. -/
theorem run_pop (hnonzero : version ≠ 0) (hversion : stored ≤ version) (context : Context) :
    let run := (Command.spop key version {}).run context store
    context.clock.picked members = none ∧ run = (⟨.notExist, .item .empty⟩, store) ∨
      ∃ name, context.clock.picked members = some name ∧ run.1 = ⟨.ok, .item ⟨name, version⟩⟩ ∧
        run.2.HoldsSet key (members.erase name) version := by
  intro run
  have hrun : run = _ := Command.run_of_reply (by rfl) store
  have hlive := h.live?_eq context.now
  cases hpicked : context.clock.picked members with
  | none =>
    have hnobody := Clock.picked_eq_none.mp hpicked
    rw [if_pos hnobody] at hlive
    rw [hrun, Sets.on_pop_absent h.isOpen hlive hnonzero]
    exact .inl ⟨rfl, rfl⟩
  | some name =>
    have hmax : max stored version = version := by grind
    rw [if_neg (Clock.size_ne_zero_of_picked hpicked)] at hlive
    rw [hrun, Sets.on_pop h.isOpen hlive rfl hnonzero hversion hpicked]
    refine .inr ⟨name, rfl, rfl, h.isOpen, ?_⟩
    rw [getElem?_replace_self, hmax]

end HoldsSet

end Store

/-! ## The whole course -/

/-- Whether a step pops a member of a key, or leaves the key alone. -/
def Step.PopsOrLeaves (key : Bytes) (step : Step) : Prop :=
  (step.pop? key).isSome = true ∨ step.command ≠ .finalize ∧ key ∉ step.command.keys

/-- After some pops at versions that do not go down, the members that have not been drawn are
left, and the key has the version that it had or that of a pop. -/
theorem Store.HoldsSet.runAll (h : store.HoldsSet key members stored) (hnonzero : stored ≠ 0)
    (hsteps : ∀ step ∈ steps, step.PopsOrLeaves key)
    (hversions : (stored :: steps.filterMap (Step.pop? key)).Pairwise (· ≤ ·)) :
    ∃ last ∈ stored :: steps.filterMap (Step.pop? key),
      (runAll steps store).2.HoldsSet key (members.without (drawn key members steps)) last := by
  -- the steps that remain start from a set that may have lost a member and risen in version
  induction steps generalizing store members stored with
  | nil => exact ⟨stored, List.mem_cons_self, h⟩
  | cons step rest ih =>
    obtain ⟨hstep, hrest⟩ := List.forall_mem_cons.mp hsteps
    rw [runAll_cons]
    cases hpop : step.pop? key with
    | none =>
      have hdraws := Step.draws?_of_none hpop members
      obtain ⟨hfinalize, hkey⟩ : step.command ≠ .finalize ∧ key ∉ step.command.keys := by
        rcases hstep with hsome | hleaves
        · rw [hpop] at hsome
          cases hsome
        · exact hleaves
      rw [List.filterMap_cons_none hpop] at hversions ⊢
      rw [drawn_cons_none hdraws]
      exact ih (h.leaves hfinalize hkey) hnonzero hrest hversions
    | some version =>
      have hdraws := Step.draws?_of_some hpop members
      rw [List.filterMap_cons_some hpop] at hversions ⊢
      obtain ⟨hleast, hlater⟩ := List.pairwise_cons.mp hversions
      have hversion : stored ≤ version := hleast version List.mem_cons_self
      have hpositive : version ≠ 0 := by grind
      have hrun : step.run store = (Command.spop key version {}).run step.context store := by
        rw [Step.run, Step.pop?_eq_some hpop]
      rw [hrun]
      rcases h.run_pop hpositive hversion step.context with
        ⟨hpicked, hnobody⟩ | ⟨name, hpicked, _, hleft⟩
      · -- the version of this pop has not been written
        have hrest' : (stored :: rest.filterMap (Step.pop? key)).Pairwise (· ≤ ·) :=
          hversions.sublist ((List.sublist_cons_self _ _).cons_cons _)
        obtain ⟨last, hlast, hholds⟩ := ih h hnonzero hrest hrest'
        rw [hnobody, drawn_cons_none (hdraws.trans hpicked)]
        have hlast' := (List.mem_cons.mp hlast).imp_right (List.mem_cons_of_mem version)
        exact ⟨last, List.mem_cons.mpr hlast', hholds⟩
      · obtain ⟨last, hlast, hholds⟩ := ih hleft hpositive hrest hlater
        rw [drawn_cons_some (hdraws.trans hpicked)]
        exact ⟨last, List.mem_cons_of_mem _ hlast, hholds⟩

namespace Store.HoldsSet

variable (h : store.HoldsSet key members stored) (hnonzero : stored ≠ 0)
  (hsteps : ∀ step ∈ steps, step.PopsOrLeaves key)
  (hversions : (stored :: steps.filterMap (Step.pop? key)).Pairwise (· ≤ ·))

include h hnonzero hsteps hversions

/-- At any time the members are left that have not been drawn before, and no pop to come is
older than the key. -/
theorem runAll_take (i : Nat) :
    ∃ last, (∀ version ∈ (steps.drop i).filterMap (Step.pop? key), version ≠ 0 ∧ last ≤ version) ∧
      (Keyspace.runAll (steps.take i) store).2.HoldsSet key
        (members.without (drawn key members (steps.take i))) last := by
  have hsplit : stored :: steps.filterMap (Step.pop? key) =
      (stored :: (steps.take i).filterMap (Step.pop? key)) ++
        (steps.drop i).filterMap (Step.pop? key) := by
    rw [List.cons_append, ← List.filterMap_append, List.take_append_drop]
  rw [hsplit] at hversions
  obtain ⟨hbefore, _, hafter⟩ := List.pairwise_append.mp hversions
  obtain ⟨last, hlast, hleft⟩ := h.runAll hnonzero
    (fun step hstep => hsteps step (List.mem_of_mem_take hstep)) hbefore
  refine ⟨last, fun version hversion => ⟨?_, hafter last hlast version hversion⟩, hleft⟩
  have hleast := hafter stored List.mem_cons_self version hversion
  grind

/-- A pop replies with the member that it draws, or that there is nobody. -/
theorem reply_pop {i : Nat} (hstep : steps[i]? = some step) (hpop : step.pop? key = some version) :
    (Keyspace.runAll steps store).1[i]? =
      some ((drawn key members steps)[pops key (steps.take i)]?.elim ⟨.notExist, .item .empty⟩
        fun name => ⟨.ok, .item ⟨name, version⟩⟩) := by
  obtain ⟨last, hlater, hleft⟩ := h.runAll_take hnonzero hsteps hversions i
  have hnext : version ∈ (steps.drop i).filterMap (Step.pop? key) := by
    have hfirst : (steps.drop i)[0]? = some step := List.getElem?_drop.trans hstep
    exact List.mem_filterMap.mpr ⟨step, List.mem_of_getElem? hfirst, hpop⟩
  obtain ⟨hpositive, hversion⟩ := hlater version hnext
  rw [getElem?_fst_runAll, hstep, Option.map_some, Step.run, Step.pop?_eq_some hpop,
    getElem?_drawn key members steps hstep hpop]
  rcases hleft.run_pop hpositive hversion step.context with
    ⟨hpicked, hrun⟩ | ⟨name, hpicked, hreply, _⟩
  · rw [hpicked, hrun]
    rfl
  · rw [hpicked, hreply]
    rfl

end Store.HoldsSet

/-- A set is popped empty, each member once.  On a key without a deadline, and at versions that
do not go down, the first pops reply with the members, one each, at the version of the pop, and
in the order that the clock picks, whatever it reads.  Who has been popped is no member any
more, everybody else still is, at the same version, and the key is gone with the last one; from
then on pops find nobody.  Meanwhile commands that do not name the key may run. -/
theorem pops_drain_set {history steps : List Step}
    (hslot : (runAll history .empty).2.live? now key = some ⟨.set members, stored, none⟩)
    (hsteps : ∀ step ∈ steps, (step.pop? key).isSome = true ∨
      step.command ≠ .finalize ∧ key ∉ step.command.keys)
    (hcount : members.size ≤ (steps.filterMap (Step.pop? key)).length)
    (hversions : (stored :: steps.filterMap (Step.pop? key)).Pairwise (· ≤ ·)) :
    let store := (runAll history .empty).2
    let replies := (runAll steps store).1
    ∃ names : List Bytes, names.length = members.size ∧ names.Nodup ∧
      (∀ name, name ∈ names ↔ name ∈ members) ∧
      ∀ i : Nat,
        let before := (runAll (steps.take i) store).2
        let popped := ((steps.take i).filterMap (Step.pop? key)).length
        (popped < members.size → ∃ left version,
          (∀ now, before.live? now key = some ⟨.set left, version, none⟩) ∧
          ∀ name : Bytes, left[name]? = if name ∈ names.take popped then none else members[name]?) ∧
        (members.size ≤ popped → ∀ now, before.live? now key = none) ∧
        ∀ step version, steps[i]? = some step → step.pop? key = some version →
          (∀ name, names[popped]? = some name →
            replies[i]? = some ⟨.ok, .item ⟨name, version⟩⟩) ∧
          (members.size ≤ popped → replies[i]? = some ⟨.notExist, .item .empty⟩) := by
  intro store replies
  have hreachable : store.Reachable := Store.Reachable.empty.runAll history
  have hstamped : store.Stamped := runAll_stamped history .empty Store.stamped_empty
  have hstored := (Store.live?_eq_some.mp hslot).1
  -- what has been written has a version, and a set that is there has members
  have hnonzero : stored ≠ 0 := (hstamped key _ hstored).ne_zero
  have hfilled : members.size ≠ 0 := by
    intro hnobody
    have hempty := (hreachable.sound key _ hstored).filled
    rw [Std.ExtTreeMap.eq_empty_iff_size_eq_zero.mpr hnobody] at hempty
    cases hempty
  have hholds : store.HoldsSet key members stored := by
    refine ⟨hreachable.open_of_live hslot, ?_⟩
    rw [Slot.unlessEmpty_set, if_neg hfilled]
    exact hstored
  obtain ⟨hnodup, _, hlength⟩ := drawn_spec key members steps
  refine ⟨drawn key members steps, hlength.trans (Nat.min_eq_right hcount), hnodup,
    fun name => mem_drawn_iff key members steps hcount, fun i => ?_⟩
  intro before popped
  obtain ⟨last, _, hleft⟩ := hholds.runAll_take hnonzero hsteps hversions i
  have hsize : _ + min popped members.size = members.size :=
    size_without_drawn key members (steps.take i)
  refine ⟨fun hmore => ?_, fun hnobody now => ?_, fun step version hstep hpop => ?_⟩
  · refine ⟨members.without (drawn key members (steps.take i)), last, fun now => ?_, fun name => ?_⟩
    · rw [hleft.live?_eq, if_neg (by omega)]
    · rw [Members.getElem?_without, drawn_take]
      rfl
  · rw [hleft.live?_eq, if_pos (by omega)]
  · have hreply : replies[i]? = some ((drawn key members steps)[popped]?.elim
        ⟨.notExist, .item .empty⟩ fun name => ⟨.ok, .item ⟨name, version⟩⟩) :=
      hholds.reply_pop hnonzero hsteps hversions hstep hpop
    refine ⟨fun name hname => ?_, fun hnobody => ?_⟩
    · rw [hreply, hname, Option.elim_some]
    · rw [hreply, List.getElem?_eq_none (by omega), Option.elim_none]

/-- Three members at versions of their own, and four pops, while another key is written: the
third pop empties the set, although it comes at the version of the second, and the fourth finds
nobody. -/
theorem pops_drain_set_three :
    let context : Int → Context := fun micros => ⟨⟨micros⟩, .absolute⟩
    let members : Members :=
      ((Std.ExtTreeMap.empty.insert [97] 5).insert [98] 3).insert [99] 6
    let store := (runAll [⟨context 0, .sadd [115] [⟨[97], 5⟩, ⟨[98], 3⟩, ⟨[99], 6⟩] {}⟩] .empty).2
    let steps : List Step := [⟨context 4, .spop [115] 6 {}⟩,
      ⟨context 3, .set [107] ⟨[49], 1⟩ {} {}⟩, ⟨context 2, .spop [115] 7 {}⟩,
      ⟨context 9, .spop [115] 7 {}⟩, ⟨context (-1), .spop [115] 8 {}⟩]
    let replies := (runAll steps store).1
    store.live? 0 [115] = some ⟨.set members, 6, none⟩ ∧
      (∃ names : List Bytes, names.length = 3 ∧ names.Nodup ∧
        (∀ name, name ∈ names ↔ name ∈ members) ∧
        ∀ name, names[2]? = some name → replies[3]? = some ⟨.ok, .item ⟨name, 7⟩⟩) ∧
      replies[4]? = some ⟨.notExist, .item .empty⟩ ∧
      ∀ now, (runAll steps store).2.live? now [115] = none := by
  intro context members store steps replies
  have hslot : store.live? 0 [115] = some ⟨.set members, 6, none⟩ := by rfl
  have hsteps : ∀ step ∈ steps, (step.pop? [115]).isSome = true ∨
      step.command ≠ .finalize ∧ ([115] : Bytes) ∉ step.command.keys := by
    simp only [steps, List.forall_mem_cons]
    exact ⟨.inl rfl, .inr ⟨nofun, by decide⟩, .inl rfl, .inl rfl, .inl rfl, nofun⟩
  have hcount : members.size ≤ (steps.filterMap (Step.pop? [115])).length := by decide
  have hversions : ((6 : Version) :: steps.filterMap (Step.pop? [115])).Pairwise (· ≤ ·) := by
    decide
  obtain ⟨names, hlength, hnodup, hmem, hcourse⟩ := pops_drain_set hslot hsteps hcount hversions
  have hsize : members.size = 3 := by decide
  refine ⟨hslot, ⟨names, hlength.trans hsize, hnodup, hmem, ?_⟩, ?_, ?_⟩
  · exact ((hcourse 3).2.2 _ _ rfl rfl).1
  · exact ((hcourse 4).2.2 _ _ rfl rfl).2 (by decide)
  · exact (hcourse 5).2.1 (by decide)

end Keyspace
