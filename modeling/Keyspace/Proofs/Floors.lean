import Keyspace.Proofs.Effect

/-!
# Bounds on versions

The version of a key only rises while the key lives.  This module says for
single calls what keeps a bound on it.

* `Store.Bound` bounds the version of a key if it is live.  It survives every
  call whose own version respects it (`Store.Bound.perform`).  `Store.Floor` is
  the case of a lower bound: only a call that makes the key anew can break it
  (`Store.Floor.perform`).
* `Store.Stands` also says that the key is live.  It survives every call that
  keeps the key live (`Store.Stands.perform`).
* A write that succeeds leaves a floor at the version that it carries
  (`Store.Floor.of_raises`), and one that adds to a collection leaves the key
  standing (`Store.Stands.of_grows`).
-/

namespace Keyspace

variable {now : Millis} {key : Bytes} {version : Version} {store : Store} {c : Call}

/-! ## Bounds that calls keep -/

/-- Whether `p` holds of the version of a key, if the key is live. -/
def Store.Bound (now : Millis) (key : Bytes) (p : Version → Prop) (store : Store) : Prop :=
  ∀ slot, store.live? now key = some slot → p slot.version

/-- Whether a key, if it is live, has at least this version. -/
abbrev Store.Floor (now : Millis) (key : Bytes) (version : Version) (store : Store) : Prop :=
  store.Bound now key (version ≤ ·)

/-- Whether a key is live and has at least this version. -/
def Store.Stands (now : Millis) (key : Bytes) (version : Version) (store : Store) : Prop :=
  ∃ slot, store.live? now key = some slot ∧ version ≤ slot.version

namespace Store

theorem Stands.floor (h : store.Stands now key version) : store.Floor now key version := by
  obtain ⟨slot, hslot, hle⟩ := h
  intro other hother
  rw [hslot] at hother
  cases hother
  exact hle

/-- A bound survives a call if it survives a raise to the version of the call and
holds of the version at which the call may make the key anew. -/
theorem Bound.perform {p : Version → Prop} (h : store.Bound now key p)
    (hraise : c.key? = some key → ∀ old, p old → p (max old (c.version?.getD 0)))
    (hstamp : c.key? = some key → ∀ stamp, c.stamp? = some stamp → p stamp) :
    (store.perform now c).2.Bound now key p := by
  cases hclosed : store.closed with
  | true => rw [perform_closed hclosed]; exact h
  | false =>
    by_cases hc : c = .close
    · subst hc
      rw [Store.perform, close, hclosed]
      intro slot hslot
      cases hslot
    · intro slot hslot
      rw [live?_perform hclosed hc] at hslot
      split at hslot
      · rename_i hkey
        obtain ⟨heffect, _⟩ := Slot.live?_eq_some.mp hslot
        cases hlive : store.live? now key with
        | none =>
          rw [hlive] at heffect
          exact hstamp hkey _ (Call.stamp?_of_effect_none heffect)
        | some old =>
          rw [hlive] at heffect
          rcases Call.version_of_effect heffect with hsame | hraised
          · rw [hsame]
            exact h old hlive
          · rw [hraised]
            exact hraise hkey _ (h old hlive)
      · exact h slot hslot

/-- A raise cannot break a lower bound. -/
theorem Floor.perform (h : store.Floor now key version)
    (hstamp : c.key? = some key → ∀ stamp, c.stamp? = some stamp → version ≤ stamp) :
    (store.perform now c).2.Floor now key version :=
  Bound.perform h (fun _ _ hold => UInt64.le_trans hold (Version.le_max_left _ _)) hstamp

/-- A string that has expired as soon as it is put breaks no bound. -/
theorem Bound.put_expired {p : Version → Prop} {deadline : Option Millis}
    (h : store.Bound now key p) (hdeadline : deadline.any (· ≤ now) = true) (other : Bytes)
    (item : Item) : (store.perform now (.put other item deadline)).2.Bound now key p := by
  cases hclosed : store.closed with
  | true => rw [perform_closed hclosed]; exact h
  | false =>
    intro slot hslot
    rw [live?_perform hclosed (by simp)] at hslot
    split at hslot
    · obtain ⟨heffect, hlive⟩ := Slot.live?_eq_some.mp hslot
      cases heffect
      exact absurd (hdeadline.symm.trans hlive) (by simp)
    · exact h slot hslot

/-- A key stands as long as calls keep it live. -/
theorem Stands.perform (h : store.Stands now key version) (hc : c ≠ .close)
    (hkeeps : c.key? = some key → c.Keeps now) :
    (store.perform now c).2.Stands now key version := by
  obtain ⟨slot, hslot, hle⟩ := h
  cases hclosed : store.closed with
  | true => rw [perform_closed hclosed]; exact ⟨slot, hslot, hle⟩
  | false =>
    by_cases hkey : c.key? = some key
    · obtain ⟨next, hnext, hlive⟩ := hkeeps hkey slot (live?_eq_some.mp hslot).2
      refine ⟨next, ?_, UInt64.le_trans hle (Call.version_le_of_effect hnext)⟩
      rw [live?_perform hclosed hc, if_pos hkey, hslot, hnext]
      exact Slot.live?_eq_some.mpr ⟨rfl, hlive⟩
    · refine ⟨slot, ?_, hle⟩
      rw [live?_perform hclosed hc, if_neg hkey, hslot]

/-- A single call does not lower the version of a key that stays live. -/
theorem version_le_perform {slot next : Slot} (hbefore : store.live? now key = some slot)
    (hafter : (store.perform now c).2.live? now key = some next) :
    slot.version ≤ next.version := by
  have hfloor : store.Floor now key slot.version := by
    intro other hother
    rw [hbefore] at hother
    cases hother
    exact UInt64.le_refl _
  cases hclosed : store.closed with
  | true =>
    rw [perform_closed hclosed] at hafter
    exact hfloor next hafter
  | false =>
    by_cases hc : c = .close
    · subst hc
      rw [Store.perform, close, hclosed] at hafter
      cases hafter
    · rw [live?_perform hclosed hc] at hafter
      split at hafter
      · obtain ⟨heffect, _⟩ := Slot.live?_eq_some.mp hafter
        rw [hbefore] at heffect
        exact Call.version_le_of_effect heffect
      · exact hfloor next hafter

end Store

/-! ## Successful writes -/

namespace Slot

variable {slot? : Option Slot} {slot next : Slot} {name : Bytes} {α β : Type}

/-- Every write to a part reads the part first.  It raises the version if its
second half does. -/
theorem le_version_of_ok {change : Option Slot → Except Failure (α × Option Slot)}
    {part : Except Failure β} {answer : β → α} {rest : β → Option Slot} {result : α}
    (hchange : change (some slot) = part >>= fun value => pure (answer value, rest value))
    (hrest : ∀ value, answer value = result → rest value = some next → version ≤ next.version)
    (h : change (some slot) = .ok (result, some next)) : version ≤ next.version := by
  rw [hchange] at h
  cases part with
  | error failure => cases h
  | ok value =>
    have hpair := Except.ok.inj h
    exact hrest value (congrArg Prod.fst hpair) (congrArg Prod.snd hpair)

theorem le_version_putField {item : Item} {isNew : Bool}
    (h : putField name item slot? = .ok (isNew, some next)) : item.version ≤ next.version := by
  cases slot? with
  | none => cases h; exact UInt64.le_refl _
  | some slot =>
    refine le_version_of_ok (by rfl) (fun fields _ hnext => ?_) h
    cases hnext
    exact Version.le_max_right _ _

theorem le_version_dropField {was : Bool}
    (h : dropField name version slot? = .ok (was, some next)) : version ≤ next.version := by
  cases slot? with
  | none => cases h
  | some slot =>
    refine le_version_of_ok (by rfl) (fun fields _ hnext => ?_) h
    cases unlessEmpty_eq_some hnext
    exact Version.le_max_right _ _

theorem le_version_addMember {isNew : Bool}
    (h : addMember name version slot? = .ok (isNew, some next)) : version ≤ next.version := by
  cases slot? with
  | none => cases h; exact UInt64.le_refl _
  | some slot =>
    refine le_version_of_ok (by rfl) (fun members _ hnext => ?_) h
    cases hnext
    exact Version.le_max_right _ _

theorem le_version_dropMember {was : Bool}
    (h : dropMember name version slot? = .ok (was, some next)) : version ≤ next.version := by
  cases slot? with
  | none => cases h
  | some slot =>
    refine le_version_of_ok (by rfl) (fun members _ hnext => ?_) h
    cases unlessEmpty_eq_some hnext
    exact Version.le_max_right _ _

theorem le_version_putScore {score : Int64} {isNew : Bool}
    (h : putScore name score version slot? = .ok (isNew, some next)) :
    version ≤ next.version := by
  cases slot? with
  | none => cases h; exact UInt64.le_refl _
  | some slot =>
    refine le_version_of_ok (by rfl) (fun ranking _ hnext => ?_) h
    cases hnext
    exact Version.le_max_right _ _

theorem le_version_dropScore {was : Bool}
    (h : dropScore name version slot? = .ok (was, some next)) : version ≤ next.version := by
  cases slot? with
  | none => cases h
  | some slot =>
    refine le_version_of_ok (by rfl) (fun ranking _ hnext => ?_) h
    cases unlessEmpty_eq_some hnext
    exact Version.le_max_right _ _

theorem le_version_dropByScore {low high : Int64} {removed : Nat}
    (h : dropByScore low high version slot? = .ok (removed, some next)) (hremoved : removed ≠ 0) :
    version ≤ next.version := by
  cases slot? with
  | none => cases h
  | some slot =>
    refine le_version_of_ok (by rfl) (fun ranking hlength hnext => ?_) h
    have hdoomed : (ranking.scoreWindow low high).isEmpty = false := by
      rw [List.isEmpty_eq_false_iff, ← List.length_pos_iff]
      omega
    rw [hdoomed] at hnext
    cases unlessEmpty_eq_some hnext
    exact Version.le_max_right _ _

end Slot

namespace Store

variable {after : Store} {α : Type}

/-- What is live after a change that succeeds is what the change has made. -/
theorem change_of_revise {change : Option Slot → Except Failure (α × Option Slot)} {answer : α}
    (h : store.revise now key change = (.ok answer, after)) {slot : Slot}
    (hslot : after.live? now key = some slot) :
    change (store.live? now key) = .ok (answer, some slot) := by
  cases hclosed : store.closed with
  | true =>
    rw [revise_closed hclosed] at h
    cases h
  | false =>
    rw [revise_open hclosed] at h
    cases hchange : change (store.live? now key) with
    | error failure =>
      rw [hchange] at h
      cases h
    | ok result =>
      obtain ⟨answer', slot?⟩ := result
      rw [hchange] at h
      cases h
      rw [live?_replace, if_pos rfl] at hslot
      rw [(Slot.live?_eq_some.mp hslot).1]

end Store

/-- Whether every success of a call raises the key to the version that it
carries. -/
def Call.raises : Call → Bool
  | .put .. | .putField .. | .dropField .. | .addMember .. | .dropMember .. | .putScore ..
  | .dropScore .. => true
  | _ => false

namespace Store

variable {after : Store}

/-- A key that a call has raised is not below the version of the call. -/
theorem Floor.of_raises (hc : c.raises = true) (hkey : c.key? = some key)
    (hversion : c.version? = some version) {answer : c.Answer}
    (h : store.perform now c = (.ok answer, after)) : after.Floor now key version := by
  intro slot hslot
  cases c with
  | put other item deadline =>
    cases hkey
    cases hversion
    have hrevise : store.revise now key
        (fun old? => .ok ((), some (Slot.putItem item deadline old?))) = (.ok answer, after) := h
    have hslot' := change_of_revise hrevise hslot
    simp only [Except.ok.injEq, Prod.mk.injEq, Option.some.injEq] at hslot'
    rw [← hslot'.2, Slot.putItem.eq_def]
    cases store.live? now key with
    | none => exact UInt64.le_refl _
    | some old => exact Version.le_max_left _ _
  | putField =>
    cases hkey
    cases hversion
    exact Slot.le_version_putField (change_of_revise h hslot)
  | dropField =>
    cases hkey
    cases hversion
    exact Slot.le_version_dropField (change_of_revise h hslot)
  | addMember =>
    cases hkey
    cases hversion
    exact Slot.le_version_addMember (change_of_revise h hslot)
  | dropMember =>
    cases hkey
    cases hversion
    exact Slot.le_version_dropMember (change_of_revise h hslot)
  | putScore =>
    cases hkey
    cases hversion
    exact Slot.le_version_putScore (change_of_revise h hslot)
  | dropScore =>
    cases hkey
    cases hversion
    exact Slot.le_version_dropScore (change_of_revise h hslot)
  | _ => cases hc

/-- A removal by score raises the key only if it removes something. -/
theorem Floor.of_dropByScore {low high : Int64} {removed : Nat}
    (h : store.perform now (.dropByScore key low high version) = (.ok removed, after))
    (hremoved : removed ≠ 0) : after.Floor now key version := by
  intro slot hslot
  rw [Store.perform] at h
  split at h
  · cases h
    exact absurd rfl hremoved
  · exact Slot.le_version_dropByScore (change_of_revise h hslot) hremoved

/-- A call that adds a part leaves its key live. -/
theorem exists_live_of_grows (hopen : store.closed = false) (hc : c.grows = true)
    (hkey : c.key? = some key) : ∃ slot, (store.perform now c).2.live? now key = some slot := by
  rw [live?_perform_self hopen hkey]
  cases hlive : store.live? now key with
  | none =>
    cases c with
    | putField => exact ⟨_, rfl⟩
    | addMember => exact ⟨_, rfl⟩
    | putScore => exact ⟨_, rfl⟩
    | _ => cases hc
  | some slot =>
    obtain ⟨next, hnext, hexpired⟩ :=
      Call.keeps_of_grows hc now slot (live?_eq_some.mp hlive).2
    exact ⟨next, Slot.live?_eq_some.mpr ⟨hnext, hexpired⟩⟩

/-- A key that a call has added to stands at the version of the call. -/
theorem Stands.of_grows (hc : c.grows = true) (hkey : c.key? = some key)
    (hversion : c.version? = some version) {answer : c.Answer}
    (h : store.perform now c = (.ok answer, after)) : after.Stands now key version := by
  have hopen : store.closed = false := by
    cases hclosed : store.closed with
    | false => rfl
    | true =>
      cases c with
      | putField => rw [Store.perform, revise_closed hclosed] at h; cases h
      | addMember => rw [Store.perform, revise_closed hclosed] at h; cases h
      | putScore => rw [Store.perform, revise_closed hclosed] at h; cases h
      | _ => cases hc
  have hraises : c.raises = true := by cases c <;> cases hc <;> rfl
  obtain ⟨slot, hslot⟩ := exists_live_of_grows hopen hc hkey
  rw [h] at hslot
  exact ⟨slot, hslot, Floor.of_raises hraises hkey hversion h slot hslot⟩

end Store

end Keyspace
