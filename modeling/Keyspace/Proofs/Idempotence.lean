import Keyspace.Proofs.Leftovers
import Keyspace.Proofs.Update

/-!
# Calls made twice

A call that is made twice at one moment leaves what it leaves once: nobody can
tell the two stores apart (`Store.perform_twice`).

There are three groups.

* Windows of scores.  Once the members of a window are gone, the window shows
  nobody (`Ranking.Coherent.scoreWindow_foldl_erase`).
* Slots.  What a call makes of a sound slot it leaves as it is the second time
  (`Call.effect_effect`).
* Stores.  Between the two calls the slot may have expired, if the call has given
  it a deadline that has passed (`Call.live?_effect`); then the second call makes
  such a slot again or finds nothing to change.
-/

namespace Keyspace

/-! ## Windows of scores -/

namespace Ranking

variable {ranking : Ranking} {low high : Int64} {member : Bytes}

/-- Once the members of a window are gone, the window shows nobody. -/
theorem Coherent.scoreWindow_foldl_erase (h : ranking.Coherent) (low high : Int64) :
    ((ranking.scoreWindow low high).foldl (fun rest standing => rest.erase standing.member)
      ranking).scoreWindow low high = [] := by
  rw [foldl_erase_eq, List.eq_nil_iff_forall_not_mem]
  intro standing hstanding
  obtain ⟨hrest, hrange⟩ := mem_scoreWindow.mp hstanding
  have hmark := ((h.without _) standing).mp hrest
  rw [getElem?_without] at hmark
  split at hmark
  · cases hmark
  · rename_i hkept
    refine hkept (List.mem_map_of_mem (mem_scoreWindow.mpr ⟨?_, hrange⟩))
    exact (h standing).mpr hmark

theorem erase_erase (ranking : Ranking) (member : Bytes) :
    (ranking.erase member).erase member = ranking.erase member := by
  have hgone : (ranking.erase member).byMember[member]? = none := by
    rw [getElem?_erase, if_pos rfl]
  generalize ranking.erase member = rest at hgone
  rw [erase]
  split
  · rfl
  · rename_i old hold
    rw [hgone] at hold
    cases hold

end Ranking

/-- An entry that is gone is not there to be erased again. -/
theorem erase_erase {α : Type} (map : Std.ExtTreeMap Bytes α) (name : Bytes) :
    (map.erase name).erase name = map.erase name := by
  apply Std.ExtTreeMap.ext_getElem?
  intro other
  simp only [Std.ExtTreeMap.getElem?_erase]
  split <;> rfl

/-! ## Slots -/

namespace Slot

variable {slot : Slot} {slot? : Option Slot} {now : Millis} {name : Bytes} {version : Version}
  {α : Type} {change : Option Slot → Except Failure (α × Option Slot)}

theorem reschedule_reschedule (slot : Slot) (deadline : Option Millis) (version : Version) :
    (slot.reschedule deadline version).reschedule deadline version =
      slot.reschedule deadline version := by
  have hmax : max (max slot.version version) version = max slot.version version := by grind
  obtain ⟨content, old, due⟩ := slot
  cases content <;> simp only [reschedule, hmax]

theorem putItem_putItem (item : Item) (deadline : Option Millis) (slot? : Option Slot) :
    putItem item deadline (some (putItem item deadline slot?)) = putItem item deadline slot? := by
  have hmax : max item.version (putItem item deadline slot?).version =
      (putItem item deadline slot?).version := by
    cases slot? with
    | none =>
      show max item.version item.version = item.version
      grind
    | some slot =>
      show max item.version (max item.version slot.version) = max item.version slot.version
      grind
  show (⟨.string item, max item.version (putItem item deadline slot?).version, deadline⟩ : Slot) = _
  rw [hmax]
  rfl

/-- A change that fails keeps the slot, and so it does the next time. -/
theorem kept_kept (h : ∀ answer kept?, change slot? = .ok (answer, kept?) →
    kept change kept? = kept?) : kept change (kept change slot?) = kept change slot? := by
  cases hchange : change slot? with
  | error failure =>
    have hkept : kept change slot? = slot? := by rw [kept, hchange]
    rw [hkept, hkept]
  | ok result =>
    have hkept : kept change slot? = result.2 := by rw [kept, hchange]
    rw [hkept]
    exact h result.1 result.2 hchange

/-- What a removal leaves it leaves as it is the second time: nothing, or a slot that
is not empty. -/
theorem kept_unlessEmpty (hnone : kept change none = none)
    (hsome : kept change (some slot) = slot.unlessEmpty) :
    kept change slot.unlessEmpty = slot.unlessEmpty := by
  cases hslot : slot.unlessEmpty with
  | none => exact hnone
  | some next =>
    cases unlessEmpty_eq_some hslot
    rw [hsome, hslot]

/-- A removal reads a part of the slot, takes something out of it and puts the slot
together again.  If there is nothing more to be taken out, it keeps what it has left. -/
theorem kept_kept_removal {β : Type} (part : Slot → Except Failure β) (wrap : β → Content)
    {remove : β → β} {had : β → α} {absent : α} (hnone : change none = .ok (absent, none))
    (hchange : ∀ slot, change (some slot) = part slot >>= fun value =>
      pure (had value, (raise { slot with content := wrap (remove value) } version).unlessEmpty))
    (hpart : ∀ slot value, slot.content = wrap value → part slot = .ok value)
    (hagain : ∀ value, remove (remove value) = remove value) (slot? : Option Slot) :
    kept change (kept change slot?) = kept change slot? := by
  have habsent : kept change none = none := by rw [kept, hnone]
  refine kept_kept fun answer kept? hkept => ?_
  cases slot? with
  | none =>
    rw [hnone] at hkept
    cases hkept
    exact habsent
  | some slot =>
    rw [hchange] at hkept
    cases hvalue : part slot with
    | error failure => rw [hvalue] at hkept; cases hkept
    | ok value =>
      rw [hvalue] at hkept
      cases hkept
      refine kept_unlessEmpty habsent ?_
      have hmax : max (max slot.version version) version = max slot.version version := by grind
      rw [kept, hchange, hpart _ (remove value) rfl]
      simp only [raise, bind, Except.bind, pure, Except.pure, hagain, hmax]

theorem kept_kept_dropByScore (h : ∀ slot ∈ slot?, slot.content.Sound) (low high : Int64)
    (version : Version) :
    kept (dropByScore low high version) (kept (dropByScore low high version) slot?) =
      kept (dropByScore low high version) slot? := by
  refine kept_kept fun answer kept? hkept => ?_
  cases slot? with
  | none =>
    cases hkept
    rfl
  | some slot =>
    cases hranking : slot.zset with
    | error failure => rw [dropByScore, hranking] at hkept; cases hkept
    | ok ranking =>
      have hcoherent := (h slot rfl).coherent ranking (zset_eq_ok hranking)
      have hnobody := hcoherent.scoreWindow_foldl_erase low high
      -- whether or not the version rises, the second removal finds nobody
      have hagain : ∀ next : Slot, next.content = .zset
          ((ranking.scoreWindow low high).foldl (fun rest standing => rest.erase standing.member)
            ranking) → kept (dropByScore low high version) (some next) = next.unlessEmpty := by
        rintro ⟨content, old, deadline⟩ rfl
        simp only [kept, dropByScore, zset, bind, Except.bind, pure, Except.pure, hnobody,
          List.foldl_nil, List.isEmpty_nil, if_pos]
      rw [dropByScore, hranking] at hkept
      cases hkept
      refine kept_unlessEmpty rfl (hagain _ ?_)
      split <;> rfl

end Slot

/-- An update of a slot that holds another kind leaves it as it is. -/
theorem Update.effect_call_of_kind_ne {update : Update} {slot : Slot}
    (hstring : update.kind ≠ .string) (hkind : slot.content.kind ≠ update.kind) (key : Bytes) :
    (update.call key).effect (some slot) = some slot := by
  obtain ⟨content, version, deadline⟩ := slot
  cases update with
  | string => exact absurd rfl hstring
  | _ =>
    cases content with
    | string | hash | set | zset => first | rfl | exact absurd rfl hkind

theorem Update.effect_call_twice {slot? : Option Slot} (update : Update) (key : Bytes)
    (h : ∀ slot ∈ slot?, slot.content.Sound) :
    (update.call key).effect ((update.call key).effect slot?) =
      (update.call key).effect slot? := by
  by_cases htakes : ∀ slot ∈ slot?, slot.content.Takes update.kind
  · have hput : ∀ slot ∈ some (update.put slot?), slot.content.Takes update.kind := by
      rintro _ ⟨⟩
      exact takes_put htakes
    rw [effect_call htakes, effect_call hput, put_put rfl (UInt64.le_refl _) htakes]
  · simp only [not_forall] at htakes
    obtain ⟨slot, hslot, hother⟩ := htakes
    have hsame : (update.call key).effect (some slot) = some slot :=
      effect_call_of_kind_ne (fun hkind => hother ((h slot hslot).takes (.inl hkind)))
        (fun hkind => hother ((h slot hslot).takes (.inr hkind))) key
    rw [Option.mem_def.mp hslot, hsame, hsame]

namespace Call

variable {c : Call} {slot next : Slot} {slot? : Option Slot} {now : Millis}

/-- What a call makes of a sound slot it leaves as it is the second time. -/
theorem effect_effect (c : Call) (h : ∀ slot ∈ slot?, slot.content.Sound) :
    c.effect (c.effect slot?) = c.effect slot? := by
  cases c with
  | setDeadline key deadline version =>
    cases slot? with
    | none => rfl
    | some slot => exact congrArg some (slot.reschedule_reschedule deadline version)
  | put key item deadline => exact congrArg some (Slot.putItem_putItem item deadline slot?)
  | putField key name item => exact Update.effect_call_twice (.field name item {}) key h
  | addMember key name version =>
    exact Update.effect_call_twice (.member ⟨name, version⟩ {}) key h
  | putScore key name score version =>
    exact Update.effect_call_twice (.score ⟨name, score, version⟩ {}) key h
  | dropField key name version =>
    refine Slot.kept_kept_removal Slot.hash .hash (by rfl) (fun _ => by rfl)
      (fun slot fields hfields => ?_) (fun fields => erase_erase fields name) slot?
    rw [Slot.hash, hfields]
  | dropMember key name version =>
    refine Slot.kept_kept_removal Slot.set .set (by rfl) (fun _ => by rfl)
      (fun slot members hmembers => ?_) (fun members => erase_erase members name) slot?
    rw [Slot.set, hmembers]
  | dropScore key name version =>
    refine Slot.kept_kept_removal Slot.zset .zset (by rfl) (fun _ => by rfl)
      (fun slot ranking hranking => ?_) (fun ranking => ranking.erase_erase name) slot?
    rw [Slot.zset, hranking]
  | dropByScore key low high version =>
    rw [effect, effect]
    split
    · rfl
    · exact Slot.kept_kept_dropByScore h low high version
  | _ => rfl

/-- A call that gives no deadline leaves a live slot live and makes a slot that never
expires. -/
theorem isExpired_of_effect (hc : c.setsDeadline = false) (hlive : Slot.live? now slot? = slot?)
    (hnext : c.effect slot? = some next) : next.isExpired now = false := by
  cases slot? with
  | none =>
    cases c with
    | putField => cases hnext; rfl
    | addMember => cases hnext; rfl
    | putScore => cases hnext; rfl
    | put => cases hc
    | dropByScore =>
      rw [effect] at hnext
      split at hnext <;> cases hnext
    | _ => cases hnext
  | some slot =>
    rw [(amends_of_effect hc hnext).isExpired_eq now]
    exact (Slot.live?_eq_some.mp hlive).2

/-- What a call makes of a live slot is live, unless the call has given it a deadline
that has passed.  Such a call finds the slot gone the second time and comes to the
same end. -/
theorem live?_effect (c : Call) (hlive : Slot.live? now slot? = slot?) :
    Slot.live? now (c.effect slot?) = c.effect slot? ∨
      Slot.live? now (c.effect slot?) = none ∧ Slot.live? now (c.effect none) = none := by
  cases hnext : c.effect slot? with
  | none => exact .inl rfl
  | some next =>
    rw [Slot.live?_some]
    cases hexpired : next.isExpired now with
    | false => exact .inl (if_neg Bool.false_ne_true)
    | true =>
      refine .inr ⟨if_pos rfl, ?_⟩
      cases hc : c.setsDeadline with
      | false =>
        rw [isExpired_of_effect hc hlive hnext] at hexpired
        cases hexpired
      | true =>
        cases c with
        | setDeadline => rfl
        | put =>
          cases hnext
          rw [effect, Slot.live?_some]
          exact if_pos hexpired
        | _ => cases hc

end Call

namespace Store

variable {store : Store} {now : Millis}

/-- A call that is made twice leaves what it leaves once. -/
theorem perform_twice (h : store.Sound) (now : Millis) (c : Call) :
    ((store.perform now c).2.perform now c).2.Alike now (store.perform now c).2 := by
  cases hclosed : (store.perform now c).2.closed with
  | true =>
    rw [perform_closed hclosed]
    exact ⟨rfl, fun _ => rfl⟩
  | false =>
    by_cases hc : c = .close
    · subst hc
      rw [perform, close] at hclosed
      split at hclosed
      · rename_i hbefore
        rw [hbefore] at hclosed
        cases hclosed
      · cases hclosed
    · have hopen : store.closed = false := (closed_perform hc).symm.trans hclosed
      refine ⟨closed_perform hc, fun key => ?_⟩
      rw [live?_perform hclosed hc, live?_perform hopen hc]
      by_cases hkey : c.key? = some key
      · have hlive : Slot.live? now (store.live? now key) = store.live? now key := by
          rw [live?_eq, Slot.live?_live?]
        have hsound : ∀ slot ∈ store.live? now key, slot.content.Sound :=
          fun slot hslot => h key slot (live?_eq_some.mp hslot).1
        rw [if_pos hkey, if_pos hkey]
        rcases c.live?_effect hlive with hstays | ⟨hgone, hagain⟩
        · rw [hstays, c.effect_effect hsound, hstays]
        · rw [hgone, hagain]
      · rw [if_neg hkey, if_neg hkey]

end Store

end Keyspace
