import Keyspace.Proofs.Live

/-!
# Effects of calls

`Call.effect` is what a call makes of the live slot of its key.  One equation,
`Store.live?_perform`, says for every call what is live afterwards, and
`Store.getElem?_perform_of_ne` that the slots of other keys stay in place.

Two facts about effects carry every argument about versions: a call keeps the
version of a live slot or raises it to the one that it carries
(`Call.version_of_effect`), and a slot that a call makes anew has the version
that the call carries (`Call.stamp?_of_effect_none`).
-/

namespace Keyspace

namespace Call

/-- What a call makes of the live slot of its key. -/
def effect : Call → Option Slot → Option Slot
  | .setDeadline _ deadline version, slot? => slot?.map (·.reschedule deadline version)
  | .delete _, _ => none
  | .put _ item deadline, slot? => some (Slot.putItem item deadline slot?)
  | .putField _ name item, slot? => Slot.kept (Slot.putField name item) slot?
  | .dropField _ name version, slot? => Slot.kept (Slot.dropField name version) slot?
  | .addMember _ name version, slot? => Slot.kept (Slot.addMember name version) slot?
  | .dropMember _ name version, slot? => Slot.kept (Slot.dropMember name version) slot?
  | .putScore _ name score version, slot? => Slot.kept (Slot.putScore name score version) slot?
  | .dropScore _ name version, slot? => Slot.kept (Slot.dropScore name version) slot?
  | .dropByScore _ min max version, slot? =>
    if max < min then slot? else Slot.kept (Slot.dropByScore min max version) slot?
  | _, slot? => slot?

/-- The version at which a call may make a slot where there is none. -/
def stamp? : Call → Option Version
  | .put _ item _ => item.version
  | .putField _ _ item => item.version
  | .addMember _ _ version => version
  | .putScore _ _ _ version => version
  | _ => none

/-- The version that a writing call carries. -/
def version? : Call → Option Version
  | .setDeadline _ _ version => version
  | .put _ item _ => item.version
  | .putField _ _ item => item.version
  | .dropField _ _ version => version
  | .addMember _ _ version => version
  | .dropMember _ _ version => version
  | .putScore _ _ _ version => version
  | .dropScore _ _ version => version
  | .dropByScore _ _ _ version => version
  | _ => none

/-- Whether a call can give a key another deadline. -/
def setsDeadline : Call → Bool
  | .setDeadline .. | .put .. => true
  | _ => false

/-- Whether a call only reads. -/
def reads : Call → Bool
  | .close | .setDeadline .. | .delete _ | .put .. | .putField .. | .dropField ..
  | .addMember .. | .dropMember .. | .putScore .. | .dropScore .. | .dropByScore .. => false
  | _ => true

end Call

namespace Store

variable {store : Store} {now : Millis} {key : Bytes} {c : Call}

theorem perform_closed (hclosed : store.closed = true) (c : Call) :
    (store.perform now c).2 = store := by
  cases c with
  | close => rw [perform, close, if_pos hclosed]
  | delete key => rw [perform, delete, if_pos hclosed]
  | setDeadline => rw [perform, revise_closed hclosed]
  | put => rw [perform, revise_closed hclosed]
  | putField => rw [perform, revise_closed hclosed]
  | dropField => rw [perform, revise_closed hclosed]
  | addMember => rw [perform, revise_closed hclosed]
  | dropMember => rw [perform, revise_closed hclosed]
  | putScore => rw [perform, revise_closed hclosed]
  | dropScore => rw [perform, revise_closed hclosed]
  | dropByScore =>
    rw [perform]
    split
    · rfl
    · rw [revise_closed hclosed]
  | byRank => rw [perform]; split <;> rfl
  | byScore => rw [perform]; split <;> rfl
  | countByScore => rw [perform]; split <;> rfl
  | _ => rfl

/-- A reading call leaves the store as it is. -/
theorem perform_of_reads (hc : c.reads = true) : (store.perform now c).2 = store := by
  cases c with
  | byRank => rw [perform]; split <;> rfl
  | byScore => rw [perform]; split <;> rfl
  | countByScore => rw [perform]; split <;> rfl
  | record => rfl
  | get => rfl
  | field => rfl
  | fields => rfl
  | fieldCount => rfl
  | member => rfl
  | members => rfl
  | memberCount => rfl
  | mark => rfl
  | rankedCount => rfl
  | rank => rfl
  | expired => rfl
  | _ => cases hc

theorem closed_delete (store : Store) (key : Bytes) :
    (store.delete key).2.closed = store.closed := by
  unfold delete
  split <;> rfl

theorem live?_delete (hopen : store.closed = false) (key other : Bytes) :
    (store.delete key).2.live? now other =
      if key = other then none else store.live? now other := by
  rw [delete, hopen]
  exact live?_replace store now key other none

/-- An open store takes every string. -/
theorem fst_perform_put (hopen : store.closed = false) (key : Bytes) (item : Item)
    (deadline : Option Millis) :
    (store.perform now (.put key item deadline)).1 = .ok () :=
  fst_revise hopen

/-- The deadline of a live key can be replaced. -/
theorem fst_setDeadline (hopen : store.closed = false) {slot : Slot}
    (hslot : store.live? now key = some slot) (deadline : Option Millis) (version : Version) :
    (store.perform now (.setDeadline key deadline version)).1 = .ok true := by
  rw [perform, fst_revise hopen, hslot]
  rfl

/-- No call but `close` closes a store or opens one. -/
theorem closed_perform (hc : c ≠ .close) : (store.perform now c).2.closed = store.closed := by
  cases c with
  | close => exact absurd rfl hc
  | delete key => exact closed_delete store key
  | setDeadline => exact closed_revise
  | put => exact closed_revise
  | putField => exact closed_revise
  | dropField => exact closed_revise
  | addMember => exact closed_revise
  | dropMember => exact closed_revise
  | putScore => exact closed_revise
  | dropScore => exact closed_revise
  | dropByScore =>
    rw [perform]
    split
    · rfl
    · exact closed_revise
  | byRank => rw [perform]; split <;> rfl
  | byScore => rw [perform]; split <;> rfl
  | countByScore => rw [perform]; split <;> rfl
  | _ => rfl

/-- A call leaves the slots of other keys as they are, live or not. -/
theorem getElem?_perform_of_ne (hc : c ≠ .close) (hkey : c.key? ≠ some key) :
    (store.perform now c).2.slots[key]? = store.slots[key]? := by
  have hne : ∀ other, c.key? = some other → other ≠ key :=
    fun other hother hsame => hkey (hsame ▸ hother)
  cases c with
  | close => exact absurd rfl hc
  | delete other =>
    rw [perform, delete]
    split
    · rfl
    · rw [getElem?_replace, if_neg (hne other rfl)]
  | setDeadline other => exact getElem?_revise_of_ne (hne other rfl)
  | put other => exact getElem?_revise_of_ne (hne other rfl)
  | putField other => exact getElem?_revise_of_ne (hne other rfl)
  | dropField other => exact getElem?_revise_of_ne (hne other rfl)
  | addMember other => exact getElem?_revise_of_ne (hne other rfl)
  | dropMember other => exact getElem?_revise_of_ne (hne other rfl)
  | putScore other => exact getElem?_revise_of_ne (hne other rfl)
  | dropScore other => exact getElem?_revise_of_ne (hne other rfl)
  | dropByScore other =>
    rw [perform]
    split
    · rfl
    · exact getElem?_revise_of_ne (hne other rfl)
  | byRank => rw [perform]; split <;> rfl
  | byScore => rw [perform]; split <;> rfl
  | countByScore => rw [perform]; split <;> rfl
  | _ => rfl

/-- What is live under the key of a call after it. -/
theorem live?_perform_self (hopen : store.closed = false) (hkey : c.key? = some key) :
    (store.perform now c).2.live? now key =
      Slot.live? now (c.effect (store.live? now key)) := by
  have hread : store.live? now key = Slot.live? now (store.live? now key) := by
    rw [live?_eq, Slot.live?_live?]
  cases c with
  | close => cases hkey
  | expired => cases hkey
  | delete =>
    cases hkey
    rw [perform, live?_delete hopen, if_pos rfl, Call.effect, Slot.live?_none]
  | setDeadline =>
    cases hkey
    rw [perform, live?_revise hopen, if_pos rfl, Call.effect, Slot.kept]
    cases store.live? now key <;> rfl
  | put => cases hkey; rw [perform, live?_revise hopen, if_pos rfl]; rfl
  | putField => cases hkey; rw [perform, live?_revise hopen, if_pos rfl]; rfl
  | dropField => cases hkey; rw [perform, live?_revise hopen, if_pos rfl]; rfl
  | addMember => cases hkey; rw [perform, live?_revise hopen, if_pos rfl]; rfl
  | dropMember => cases hkey; rw [perform, live?_revise hopen, if_pos rfl]; rfl
  | putScore => cases hkey; rw [perform, live?_revise hopen, if_pos rfl]; rfl
  | dropScore => cases hkey; rw [perform, live?_revise hopen, if_pos rfl]; rfl
  | dropByScore =>
    cases hkey
    rw [perform, Call.effect]
    split
    · exact hread
    · rw [live?_revise hopen, if_pos rfl]
  | byRank => cases hkey; rw [perform]; split <;> exact hread
  | byScore => cases hkey; rw [perform]; split <;> exact hread
  | countByScore => cases hkey; rw [perform]; split <;> exact hread
  | _ => cases hkey; exact hread

/-- What is live under any key after a call, in one equation. -/
theorem live?_perform (hopen : store.closed = false) (hc : c ≠ .close) (key : Bytes) :
    (store.perform now c).2.live? now key =
      if c.key? = some key then Slot.live? now (c.effect (store.live? now key))
      else store.live? now key := by
  split
  · rename_i hkey
    exact live?_perform_self hopen hkey
  · rename_i hkey
    rw [live?_eq, getElem?_perform_of_ne hc hkey, live?_eq]

/-- A call leaves the slot of its key as it was, expired or not, or puts in its
place what it makes of the live slot. -/
theorem getElem?_perform_self (hopen : store.closed = false) (hkey : c.key? = some key) :
    (store.perform now c).2.slots[key]? = store.slots[key]? ∨
      (store.perform now c).2.slots[key]? = c.effect (store.live? now key) := by
  cases hreads : c.reads with
  | true => exact .inl (by rw [perform_of_reads hreads])
  | false =>
    cases c with
    | close => cases hkey
    | delete =>
      cases hkey
      rw [perform, delete, hopen]
      exact .inr (getElem?_replace_self store key none)
    | setDeadline =>
      cases hkey
      rw [perform, getElem?_revise_self hopen]
      cases store.live? now key <;> exact .inr rfl
    | dropByScore =>
      cases hkey
      rw [perform, Call.effect]
      split
      · exact .inl rfl
      · exact .inr (getElem?_revise_self hopen)
    | put => cases hkey; exact .inr (getElem?_revise_self hopen)
    | putField => cases hkey; exact .inr (getElem?_revise_self hopen)
    | dropField => cases hkey; exact .inr (getElem?_revise_self hopen)
    | addMember => cases hkey; exact .inr (getElem?_revise_self hopen)
    | dropMember => cases hkey; exact .inr (getElem?_revise_self hopen)
    | putScore => cases hkey; exact .inr (getElem?_revise_self hopen)
    | dropScore => cases hkey; exact .inr (getElem?_revise_self hopen)
    | _ => cases hreads

/-- What is true of every slot stays true if it is true of what a call makes. -/
theorem forall_slot_perform {p : Slot → Prop}
    (h : ∀ (key : Bytes) slot, store.slots[key]? = some slot → p slot)
    (heffect : ∀ key, c.key? = some key →
      ∀ next, c.effect (store.live? now key) = some next → p next) :
    ∀ (key : Bytes) slot, (store.perform now c).2.slots[key]? = some slot → p slot := by
  intro key slot hslot
  cases hclosed : store.closed with
  | true =>
    rw [perform_closed hclosed] at hslot
    exact h key slot hslot
  | false =>
    by_cases hc : c = .close
    · subst hc
      rw [perform, close, hclosed] at hslot
      simp at hslot
    · by_cases hkey : c.key? = some key
      · rcases getElem?_perform_self hclosed hkey with hsame | hmade
        · exact h key slot (hsame ▸ hslot)
        · exact heffect key hkey slot (hmade ▸ hslot)
      · exact h key slot (getElem?_perform_of_ne hc hkey ▸ hslot)

end Store

/-! ## Effects on versions -/

namespace Version

/-- The higher of two versions, as a case distinction. -/
@[grind =] theorem max_def (a b : Version) : max a b = if a ≤ b then b else a := rfl

theorem max_comm (a b : Version) : max a b = max b a := by grind

theorem le_max_left (a b : Version) : a ≤ max a b := by grind

theorem le_max_right (a b : Version) : b ≤ max a b := by grind

end Version

namespace Slot

/-- What a write to a part of a slot leaves as it is, and what becomes of the
version. -/
structure Amends (version : Version) (slot next : Slot) : Prop where
  kind : next.content.kind = slot.content.kind
  deadline : next.deadline = slot.deadline
  version : next.version = slot.version ∨ next.version = max slot.version version

variable {slot next : Slot} {version : Version} {name : Bytes} {α β : Type}

/-- A string that is no older than what it takes the place of gives the key its
own version. -/
theorem version_putItem {item : Item} {slot? : Option Slot} (deadline : Option Millis)
    (hnewer : ∀ slot, slot? = some slot → slot.version ≤ item.version) :
    (putItem item deadline slot?).version = item.version := by
  cases slot? with
  | none => rfl
  | some slot =>
    have hle := hnewer slot rfl
    show max item.version slot.version = item.version
    grind

theorem kind_reschedule (slot : Slot) (deadline : Option Millis) (version : Version) :
    (slot.reschedule deadline version).content.kind = slot.content.kind := by
  obtain ⟨content, _, _⟩ := slot
  cases content <;> rfl

theorem Amends.refl : Amends version slot slot :=
  ⟨rfl, rfl, .inl rfl⟩

theorem Amends.isExpired_eq (h : Amends version slot next) (now : Millis) :
    next.isExpired now = slot.isExpired now := by
  rw [isExpired, isExpired, h.deadline]

theorem hash_eq_ok {fields : Fields} (h : slot.hash = .ok fields) :
    slot.content = .hash fields := by
  unfold hash at h
  split at h
  · rename_i hcontent
    cases h
    exact hcontent
  · cases h

theorem set_eq_ok {members : Members} (h : slot.set = .ok members) :
    slot.content = .set members := by
  unfold set at h
  split at h
  · rename_i hcontent
    cases h
    exact hcontent
  · cases h

theorem zset_eq_ok {ranking : Ranking} (h : slot.zset = .ok ranking) :
    slot.content = .zset ranking := by
  unfold zset at h
  split at h
  · rename_i hcontent
    cases h
    exact hcontent
  · cases h

theorem unlessEmpty_eq_some (h : slot.unlessEmpty = some next) : next = slot := by
  unfold unlessEmpty at h
  split at h
  · cases h
  · cases h
    rfl

/-- Every write to a part reads the part first and then puts the slot together
again.  It keeps the slot where it finds no such part, so what is true of the slot
is true of what is kept if putting it together preserves it. -/
theorem kept_of {p : Slot → Prop}
    {change : Option Slot → Except Failure (α × Option Slot)}
    {part : Except Failure β} {answer : β → α} {rest : β → Option Slot}
    (hchange : change (some slot) = part >>= fun value => pure (answer value, rest value))
    (hslot : p slot) (hrest : ∀ value, part = .ok value → rest value = some next → p next)
    (h : kept change (some slot) = some next) : p next := by
  rw [kept, hchange] at h
  cases hpart : part with
  | error failure =>
    rw [hpart] at h
    cases h
    exact hslot
  | ok value =>
    rw [hpart] at h
    exact hrest value hpart h

theorem amends_putField {item : Item}
    (h : kept (putField name item) (some slot) = some next) :
    Amends item.version slot next := by
  refine kept_of (by rfl) .refl (fun fields hfields hnext => ?_) h
  cases hnext
  exact ⟨by rw [hash_eq_ok hfields]; rfl, rfl, .inr rfl⟩

theorem amends_dropField (h : kept (dropField name version) (some slot) = some next) :
    Amends version slot next := by
  refine kept_of (by rfl) .refl (fun fields hfields hnext => ?_) h
  cases unlessEmpty_eq_some hnext
  exact ⟨by rw [hash_eq_ok hfields]; rfl, rfl, .inr rfl⟩

theorem amends_addMember (h : kept (addMember name version) (some slot) = some next) :
    Amends version slot next := by
  refine kept_of (by rfl) .refl (fun members hmembers hnext => ?_) h
  cases hnext
  exact ⟨by rw [set_eq_ok hmembers]; rfl, rfl, .inr rfl⟩

theorem amends_dropMember (h : kept (dropMember name version) (some slot) = some next) :
    Amends version slot next := by
  refine kept_of (by rfl) .refl (fun members hmembers hnext => ?_) h
  cases unlessEmpty_eq_some hnext
  exact ⟨by rw [set_eq_ok hmembers]; rfl, rfl, .inr rfl⟩

theorem amends_putScore {score : Int64}
    (h : kept (putScore name score version) (some slot) = some next) :
    Amends version slot next := by
  refine kept_of (by rfl) .refl (fun ranking hranking hnext => ?_) h
  cases hnext
  exact ⟨by rw [zset_eq_ok hranking]; rfl, rfl, .inr rfl⟩

theorem amends_dropScore (h : kept (dropScore name version) (some slot) = some next) :
    Amends version slot next := by
  refine kept_of (by rfl) .refl (fun ranking hranking hnext => ?_) h
  cases unlessEmpty_eq_some hnext
  exact ⟨by rw [zset_eq_ok hranking]; rfl, rfl, .inr rfl⟩

theorem amends_dropByScore {low high : Int64}
    (h : kept (dropByScore low high version) (some slot) = some next) :
    Amends version slot next := by
  refine kept_of (by rfl) .refl (fun ranking hranking hnext => ?_) h
  have hkind : Content.kind slot.content = .zset := by rw [zset_eq_ok hranking]; rfl
  cases unlessEmpty_eq_some hnext
  split
  · exact ⟨hkind.symm, rfl, .inl rfl⟩
  · exact ⟨hkind.symm, rfl, .inr rfl⟩

end Slot

namespace Call

variable {c : Call} {slot next : Slot}

/-- A call that sets no deadline amends the slot that it leaves. -/
theorem amends_of_effect (hc : c.setsDeadline = false) (h : c.effect (some slot) = some next) :
    Slot.Amends (c.version?.getD 0) slot next := by
  cases c with
  | setDeadline => cases hc
  | put => cases hc
  | delete => cases h
  | putField => exact Slot.amends_putField h
  | dropField => exact Slot.amends_dropField h
  | addMember => exact Slot.amends_addMember h
  | dropMember => exact Slot.amends_dropMember h
  | putScore => exact Slot.amends_putScore h
  | dropScore => exact Slot.amends_dropScore h
  | dropByScore =>
    rw [effect] at h
    split at h
    · cases h
      exact .refl
    · exact Slot.amends_dropByScore h
  | _ => cases h; exact .refl

/-- A call keeps the version of a live slot or raises it to the one that it
carries. -/
theorem version_of_effect (h : c.effect (some slot) = some next) :
    next.version = slot.version ∨ next.version = max slot.version (c.version?.getD 0) := by
  cases hc : c.setsDeadline with
  | false => exact (amends_of_effect hc h).version
  | true =>
    cases c with
    | setDeadline => cases h; exact .inr rfl
    | put => cases h; exact .inr (Version.max_comm _ _)
    | _ => cases hc

/-- No call lowers the version of a live slot. -/
theorem version_le_of_effect (h : c.effect (some slot) = some next) :
    slot.version ≤ next.version := by
  rcases version_of_effect h with heq | heq
  · exact heq ▸ UInt64.le_refl _
  · exact heq ▸ Version.le_max_left _ _

/-- Whether a call adds a part to a collection. -/
def grows : Call → Bool
  | .putField .. | .addMember .. | .putScore .. => true
  | _ => false

theorem setsDeadline_of_grows (hc : c.grows = true) : c.setsDeadline = false := by
  cases c <;> cases hc <;> rfl

theorem setsDeadline_of_reads (hc : c.reads = true) : c.setsDeadline = false := by
  cases c <;> cases hc <;> rfl

/-- A call that adds a part keeps the slot. -/
theorem exists_effect_of_grows (hc : c.grows = true) (slot : Slot) :
    ∃ next, c.effect (some slot) = some next := by
  cases c with
  | putField _ name item =>
    rw [effect, Slot.kept, Slot.putField]
    cases slot.hash <;> exact ⟨_, rfl⟩
  | addMember _ name version =>
    rw [effect, Slot.kept, Slot.addMember]
    cases slot.set <;> exact ⟨_, rfl⟩
  | putScore _ name score version =>
    rw [effect, Slot.kept, Slot.putScore]
    cases slot.zset <;> exact ⟨_, rfl⟩
  | _ => cases hc

/-- Whether a call leaves a live slot live. -/
def Keeps (now : Millis) (c : Call) : Prop :=
  ∀ slot, slot.isExpired now = false →
    ∃ next, c.effect (some slot) = some next ∧ next.isExpired now = false

theorem keeps_of_reads (hc : c.reads = true) (now : Millis) : c.Keeps now := by
  intro slot hslot
  refine ⟨slot, ?_, hslot⟩
  cases c <;> cases hc <;> rfl

theorem keeps_of_grows (hc : c.grows = true) (now : Millis) : c.Keeps now := by
  intro slot hslot
  obtain ⟨next, hnext⟩ := exists_effect_of_grows hc slot
  have hamends := amends_of_effect (setsDeadline_of_grows hc) hnext
  exact ⟨next, hnext, (hamends.isExpired_eq now).trans hslot⟩

theorem keeps_put {deadline : Option Millis} {now : Millis}
    (hdeadline : deadline.any (· ≤ now) = false) (key : Bytes) (item : Item) :
    (Call.put key item deadline).Keeps now :=
  fun _ _ => ⟨_, rfl, hdeadline⟩

/-- A slot that a call makes anew has the version that the call carries. -/
theorem stamp?_of_effect_none (h : c.effect none = some next) : c.stamp? = some next.version := by
  cases c with
  | put => cases h; rfl
  | putField => cases h; rfl
  | addMember => cases h; rfl
  | putScore => cases h; rfl
  | dropByScore =>
    rw [effect] at h
    split at h <;> cases h
  | _ => cases h

end Call

end Keyspace
