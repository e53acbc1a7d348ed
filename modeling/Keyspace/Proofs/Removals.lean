import Keyspace.Proofs.Faults
import Keyspace.Proofs.Remainders
import Keyspace.Proofs.Slices

/-!
# Removals of ranges

A range of members can be shown and it can be removed, and the two have little in common.  A
removal by score collects from the view in order and deletes through both views; a removal
by rank looks its members up and then takes them out one by one, while the ranks of the
others move and the key may go with the last one.  `Command.removal_matches_query` says that
a removal takes out those whom the request shows.

* Runs.  A removal by rank is a look-up (`Rankings.doomed`) and a loop
  (`Rankings.on_dropEach`); `Rankings.on_dropByScore` and `Rankings.on_dropByRank` are the
  runs as a whole.
* Faults.  `Store.Loses` counts the members that have gone.  One call in the loop counts
  rightly whatever strikes it (`Store.Answers.loses`), and so does the loop
  (`Rankings.run_dropEach`).
* Commands.  `Command.Matches` sets the two replies and the store after the removal side by
  side.
-/

namespace Keyspace

/-! ## Runs -/

namespace Rankings

variable {now : Millis} {store : Store} {key : Bytes} {slot : Slot} {ranking : Ranking}
  {version : Version} {low high : Int64} {min max : String}

/-- What a removal by rank does before it takes anybody out: it looks up whom to take. -/
def doomed (key : Bytes) (start stop : Int) (version : Version) (terms : Terms) :
    Script Status (List Ranked) := do
  requireVersion version
  discard (checkCurrent key terms .zset version)
  let size ← query (.rankedCount key)
  let ranks ← Script.ofOption .rangeEmpty (rankRange? start stop size)
  query (.byRank key (.ofNat ranks.1) (.ofNat ranks.2))

theorem dropByRank_eq (key : Bytes) (start stop : Int) (version : Version) (terms : Terms) :
    dropByRank key start stop version terms =
      (doomed key start stop version terms).bind (dropEach key version 0) := by
  simp only [doomed, Script.bind_eq, Script.bind_assoc]
  rfl

/-- Without faults every member that is there goes, one after the other, and the sorted set
goes with the last one. -/
theorem on_dropEach {doomed : List Ranked} (hopen : store.closed = false)
    (hslot : store.live? now key = some slot) (hzset : slot.content = .zset ranking)
    (hsome : doomed ≠ []) (hnodup : (doomed.map Ranked.member).Nodup)
    (hthere : ∀ entry ∈ doomed, entry.member ∈ ranking.byMember) (removed : Nat) :
    ∃ after, (dropEach key version removed doomed).on now store =
        (.ok (.ok, removed + doomed.length), after) ∧
      store.Becomes key (slot.without ranking (doomed.map Ranked.member) version) after := by
  induction doomed generalizing store slot ranking removed with
  | nil => exact absurd rfl hsome
  | cons entry rest ih =>
    obtain ⟨hentry, hrest⟩ := List.forall_mem_cons.mp hthere
    obtain ⟨hother, hnodup⟩ := List.nodup_cons.mp hnodup
    have hstep : (dropEach key version removed (entry :: rest)).on now store =
        (dropEach key version (removed + 1) rest).on now
          (store.replace key (slot.without ranking [entry.member] version)) := by
      have hcontains : ranking.byMember.contains entry.member = true :=
        Std.ExtTreeMap.contains_iff_mem.mpr hentry
      rw [dropEach, Script.bind_eq, Script.on_bind, Script.on_outcome, Script.on_query,
        Store.perform_dropScore hopen hslot hzset, hcontains]
      rfl
    -- the others are still there after the first one has gone
    have hleft : ∀ other ∈ rest, other.member ∈ (ranking.erase entry.member).byMember := by
      intro other hmem
      have hne : entry.member ≠ other.member := fun hsame =>
        hother (hsame ▸ List.mem_map_of_mem hmem)
      rw [Std.ExtTreeMap.mem_iff_isSome_getElem?, Ranking.getElem?_erase, if_neg hne,
        ← Std.ExtTreeMap.mem_iff_isSome_getElem?]
      exact hrest other hmem
    rw [hstep]
    cases rest with
    | nil => exact ⟨_, rfl, Store.becomes_replace hopen key _⟩
    | cons second others =>
      have hsize : (ranking.without [entry.member]).size ≠ 0 := by
        intro hzero
        have hempty := Std.ExtTreeMap.eq_empty_iff_size_eq_zero.mpr hzero
        have hmem : second.member ∈ (ranking.without [entry.member]).byMember :=
          hleft second List.mem_cons_self
        rw [hempty] at hmem
        exact Std.ExtTreeMap.not_mem_empty hmem
      obtain ⟨next, hnext, hcontent⟩ : ∃ next, slot.without ranking [entry.member] version =
          some next ∧ next.content = .zset (ranking.erase entry.member) := by
        rw [Slot.without_eq, if_neg hsize]
        exact ⟨_, rfl, rfl⟩
      have hkept : (store.replace key (some next)).closed = false := hopen
      have hlive := Store.live?_replace_without hslot hnext
      rw [hnext]
      obtain ⟨after, hrun, hbecomes⟩ :=
        ih hkept hlive hcontent (List.cons_ne_nil _ _) hnodup hleft (removed + 1)
      have hcount : removed + 1 + (second :: others).length =
          removed + (entry :: second :: others).length := by
        simp only [List.length_cons]
        omega
      refine ⟨after, hcount ▸ hrun, ?_⟩
      rw [List.map_cons, ← Slot.without_cons hnext]
      exact hbecomes.of_replace

section Live

variable (hopen : store.closed = false) (hslot : store.live? now key = some slot)
  (hzset : slot.content = .zset ranking) (hnonzero : version ≠ 0)
  (hversion : slot.version ≤ version)

include hopen hslot hzset hnonzero hversion

/-- A removal by score takes out the members between its bounds, or reports that there are
none. -/
theorem on_dropByScore (hsound : store.Sound) (hmin : Bound.Reads min low)
    (hmax : Bound.Reads max high) :
    (dropByScore key min max version {}).on now store =
        (.error .rangeEmpty, store) ∧ ranking.between low high = [] ∨
      ranking.between low high ≠ [] ∧
        ∃ after, (dropByScore key min max version {}).on now store =
            (.ok (ranking.between low high).length, after) ∧
          store.Becomes key (slot.without ranking
            ((ranking.between low high).map Ranked.member) version) after := by
  have hkind : slot.content.kind = .zset := congrArg Content.kind hzset
  have hpermit : ({} : Terms).permit (some slot.record) = true := rfl
  have hcheck := on_checkCurrent hopen hslot hkind hpermit hversion
  have hrun : (dropByScore key min max version {}).on now store =
      ((query (.dropByScore key low high version)).bind fun removed =>
        if removed = 0 then .refuse .rangeEmpty else .done removed).on now store := by
    rw [dropByScore, requireVersion_of_ne hnonzero, bounds_read hmin hmax]
    show ((discard (checkCurrent key {} .zset version)).bind _).on now store = _
    rw [Script.discard_eq, Script.bind_assoc, Script.on_bind_ok hcheck]
    rfl
  rw [hrun, Script.on_bind, Script.on_query]
  by_cases hnobody : ranking.between low high = []
  · rw [Store.perform_dropByScore_nobody hopen hslot hzset hsound hnobody]
    exact .inl ⟨rfl, hnobody⟩
  · have hcount : (ranking.between low high).length ≠ 0 := mt List.length_eq_zero_iff.mp hnobody
    rw [Store.perform_dropByScore hopen hslot hzset hnobody]
    refine .inr ⟨hnobody, _, ?_, Store.becomes_replace hopen key _⟩
    show (if (ranking.between low high).length = 0 then _ else _ : Script Status Nat).on now _ = _
    rw [if_neg hcount]
    rfl

/-- A removal by rank looks up the members that its indices cut out, or reports that there
is nobody. -/
theorem on_doomed (hcoherent : ranking.Coherent) (hsize : ranking.size ≤ Int64.maxValue.toInt)
    (start stop : Int) :
    (doomed key start stop version {}).on now store =
      (if slice start stop ranking.entries = [] then .error .rangeEmpty
        else .ok (slice start stop ranking.entries), store) := by
  have hkind : slot.content.kind = .zset := congrArg Content.kind hzset
  have hpermit : ({} : Terms).permit (some slot.record) = true := rfl
  have hcheck := on_checkCurrent hopen hslot hkind hpermit hversion
  rw [doomed, requireVersion_of_ne hnonzero]
  show ((discard (checkCurrent key {} .zset version)).bind _).on now store = _
  rw [Script.discard_eq, Script.bind_assoc, Script.on_bind_ok hcheck]
  show ((query (.rankedCount key)).bind _).on now store = _
  rw [Script.on_bind_ok (on_rankedCount hopen hslot hzset), ← hcoherent.length_entries]
  obtain ⟨hnone, hnobody⟩ | ⟨first, last, hsome, hrange, hlast, hshown, hslice⟩ :=
    slice_cases start stop ranking.entries
  · rw [hnone, if_pos hnobody]
    rfl
  · rw [hcoherent.length_entries] at hlast
    rw [hsome, if_neg hshown, hslice]
    show (query (.byRank key (.ofNat first) (.ofNat last))).on now store = _
    exact on_walk hopen hslot hzset hrange (by omega)

/-- A removal by rank takes out the members that its indices cut out, or reports that there
is nobody. -/
theorem on_dropByRank (hcoherent : ranking.Coherent) (hsize : ranking.size ≤ Int64.maxValue.toInt)
    (start stop : Int) :
    (dropByRank key start stop version {}).on now store = (.error .rangeEmpty, store) ∧
        slice start stop ranking.entries = [] ∨
      slice start stop ranking.entries ≠ [] ∧
        ∃ after, (dropByRank key start stop version {}).on now store =
            (.ok (.ok, (slice start stop ranking.entries).length), after) ∧
          store.Becomes key (slot.without ranking
            ((slice start stop ranking.entries).map Ranked.member) version) after := by
  have hdoomed := on_doomed hopen hslot hzset hnonzero hversion hcoherent hsize start stop
  have hsublist := slice_sublist start stop ranking.entries
  rw [dropByRank_eq]
  by_cases hnobody : slice start stop ranking.entries = []
  · rw [if_pos hnobody] at hdoomed
    exact .inl ⟨Script.on_bind_error hdoomed _, hnobody⟩
  · rw [if_neg hnobody] at hdoomed
    have hthere : ∀ entry ∈ slice start stop ranking.entries,
        entry.member ∈ ranking.byMember := by
      intro entry hentry
      rw [Std.ExtTreeMap.mem_iff_isSome_getElem?,
        hcoherent.mem_entries.mp (hsublist.subset hentry)]
      rfl
    obtain ⟨after, hafter, hbecomes⟩ := on_dropEach hopen hslot hzset hnobody
      ((hsublist.map Ranked.member).nodup hcoherent.nodup_members) hthere 0
    rw [Nat.zero_add] at hafter
    exact .inr ⟨hnobody, after, (Script.on_bind_ok hdoomed _).trans hafter, hbecomes⟩

end Live

/-- A range by rank shows the members that its indices cut out, or reports that there is
nobody. -/
theorem on_byRank_slice (hopen : store.closed = false) (hslot : store.live? now key = some slot)
    (hzset : slot.content = .zset ranking) (hcoherent : ranking.Coherent)
    (hsize : ranking.size ≤ Int64.maxValue.toInt) (start stop : Int) :
    (byRank key start stop false).on now store =
      (if slice start stop ranking.entries = [] then .error .rangeEmpty
        else .ok (slice start stop ranking.entries), store) := by
  rw [on_byRank hopen hslot hzset hsize, ← hcoherent.length_entries]
  obtain ⟨hnone, hnobody⟩ | ⟨first, last, hsome, _, _, hshown, hslice⟩ :=
    slice_cases start stop ranking.entries
  · rw [hnone, if_pos hnobody]
  · rw [hsome, if_neg hshown, hslice]
    rfl

end Rankings

/-! ## Faults -/

/-- The members of a sorted set in order; other values have none. -/
def Slot.ranked (slot : Slot) : List Ranked :=
  match slot.content with
  | .zset ranking => ranking.entries
  | _ => []

namespace Store

variable {store between after : Store} {now : Millis} {key : Bytes}

/-- The members of a live sorted set in order. -/
def ranked (store : Store) (now : Millis) (key : Bytes) : List Ranked :=
  (store.live? now key).elim [] Slot.ranked

/-- So many members of a sorted set are gone, and nobody has come or changed. -/
structure Loses (store : Store) (now : Millis) (key : Bytes) (count : Nat) (after : Store) :
    Prop where
  count : count + (after.ranked now key).length = (store.ranked now key).length
  sublist : (after.ranked now key).Sublist (store.ranked now key)

namespace Loses

theorem refl (store : Store) (now : Millis) (key : Bytes) : store.Loses now key 0 store :=
  ⟨Nat.zero_add _, List.Sublist.refl _⟩

theorem trans {first second : Nat} (h : store.Loses now key first between)
    (hnext : between.Loses now key second after) : store.Loses now key (first + second) after where
  count := by rw [← h.count, ← hnext.count, Nat.add_assoc]
  sublist := hnext.sublist.trans h.sublist

end Loses

theorem ranked_of_zset {slot : Slot} {ranking : Ranking} (hslot : store.live? now key = some slot)
    (hzset : slot.content = .zset ranking) : store.ranked now key = ranking.entries := by
  rw [ranked, hslot, Option.elim_some, Slot.ranked, hzset]

theorem ranked_of_none (hslot : store.live? now key = none) : store.ranked now key = [] := by
  rw [ranked, hslot, Option.elim_none]

/-- Whether the sorted set stays or goes with its last member, it shows who is left. -/
theorem ranked_replace_without {slot : Slot} {ranking : Ranking} (hcoherent : ranking.Coherent)
    (hslot : store.live? now key = some slot) (gone : List Bytes) (version : Version) :
    (store.replace key (slot.without ranking gone version)).ranked now key =
      (ranking.without gone).entries := by
  cases hnext : slot.without ranking gone version with
  | none =>
    have hsize : (ranking.without gone).size = 0 := by
      rw [Slot.without_eq] at hnext
      split at hnext
      · assumption
      · cases hnext
    rw [← (hcoherent.without gone).length_entries, List.length_eq_zero_iff] at hsize
    rw [hsize, ranked_of_none]
    rw [live?_replace, if_pos rfl, Slot.live?_none]
  | some next =>
    refine ranked_of_zset (live?_replace_without hslot hnext) ?_
    rw [Slot.without_eq] at hnext
    split at hnext
    · cases hnext
    · cases hnext
      rfl

/-- A member that is taken out is counted, and one that was not there is not. -/
theorem loses_dropScore (hsound : store.Sound) {member : Bytes} {version : Version} {was : Bool}
    (h : (store.perform now (.dropScore key member version)).1 = .ok was) :
    store.Loses now key was.toNat (store.perform now (.dropScore key member version)).2 := by
  cases hclosed : store.closed with
  | true =>
    rw [perform, revise_closed hclosed] at h
    cases h
  | false =>
    cases hslot : store.live? now key with
    | none =>
      have hafter : (store.perform now (.dropScore key member version)).2.live? now key = none := by
        rw [live?_perform_self hclosed rfl, hslot]
        rfl
      rw [perform, fst_revise hclosed, hslot] at h
      cases h
      constructor
      · rw [ranked_of_none hafter, ranked_of_none hslot]
        rfl
      · rw [ranked_of_none hafter]
        exact List.nil_sublist _
    | some slot =>
      cases hcontent : slot.content with
      | zset ranking =>
        have hcoherent := (hsound key slot (live?_eq_some.mp hslot).1).coherent ranking hcontent
        rw [perform_dropScore hclosed hslot hcontent] at h ⊢
        cases h
        constructor
        · rw [ranked_replace_without hcoherent hslot, ranked_of_zset hslot hcontent,
            (hcoherent.without _).length_entries, hcoherent.length_entries]
          exact ranking.size_erase member
        · rw [ranked_replace_without hcoherent hslot, ranked_of_zset hslot hcontent,
            hcoherent.entries_without]
          exact List.filter_sublist
      | _ =>
        rw [perform, fst_revise hclosed, hslot, Slot.dropScore, Slot.zset, hcontent] at h
        cases h

/-- A fault takes out nobody, and the call that it strikes does not count anybody. -/
theorem Answers.loses {member : Bytes} {version : Version} {was : Bool}
    (h : store.Answers now (.dropScore key member version) (.ok was) after)
    (hsound : store.Sound) : store.Loses now key was.toNat after ∧ after.Sound := by
  generalize hanswer : (Except.ok was : Except Failure
    (Call.dropScore key member version).Answer) = answer at h
  cases h with
  | passed => exact ⟨loses_dropScore hsound hanswer.symm, hsound.perform now _⟩
  | failed => cases hanswer
  | absent =>
    cases hanswer
    exact ⟨.refl store now key, hsound⟩

end Store

namespace Rankings

variable {now : Millis} {faulty : FaultyStore} {key : Bytes} {version : Version}

/-- Whatever the faults are, the members that a removal counts are those that went. -/
theorem run_dropEach (hsound : faulty.store.Sound) (doomed : List Ranked) (removed : Nat) :
    ∃ status gone after, (dropEach key version removed doomed).run (FaultyStore.perform now)
        faulty = (.ok (status, removed + gone), after) ∧
      faulty.store.Loses now key gone after.store := by
  induction doomed generalizing faulty removed with
  | nil => exact ⟨.ok, 0, faulty, rfl, .refl _ _ _⟩
  | cons entry rest ih =>
    have hanswers := faulty.answers now (.dropScore key entry.member version)
    rw [dropEach, Script.bind_eq, Script.run_bind, Script.run_outcome, Script.run_query]
    generalize faulty.perform now (.dropScore key entry.member version) = outcome at hanswers ⊢
    obtain ⟨answer, next⟩ := outcome
    cases answer with
    | error failure =>
      refine ⟨failure.status, 0, next, rfl, ?_⟩
      rw [hanswers.of_error]
      exact .refl _ _ _
    | ok was =>
      obtain ⟨hlost, hnext⟩ := hanswers.loses hsound
      obtain ⟨status, gone, after, hrun, hlater⟩ := ih hnext (removed + was.toNat)
      refine ⟨status, was.toNat + gone, after, ?_, hlost.trans hlater⟩
      rw [← Nat.add_assoc, ← hrun]
      cases was <;> rfl

/-- A removal by rank in spite of faults: it is refused and takes out nobody, or it counts
those whom it takes out. -/
theorem run_dropByRank (hsound : faulty.store.Sound) (now : Millis) (key : Bytes)
    (start stop : Int) (version : Version) (terms : Terms) :
    let outcome := (dropByRank key start stop version terms).run (FaultyStore.perform now) faulty
    (∃ status, outcome.1 = .error status ∧ outcome.2.store = faulty.store) ∨
      ∃ status gone, outcome.1 = .ok (status, gone) ∧
        faulty.store.Loses now key gone outcome.2.store := by
  have hasks : (doomed key start stop version terms).Asks (· ≠ .ok) := by
    refine .bind (asks_requireVersion (by decide)) fun _ => ?_
    refine .bind (.discard (asks_checkCurrent common_ne_ok (by decide) .zset)) fun _ => ?_
    refine .bind (.query common_ne_ok.failure rfl) fun size => ?_
    exact .bind (.ofOption (by decide) _) fun ranks => .query common_ne_ok.failure rfl
  let p (outcome : Except Status (Status × Nat) × FaultyStore) : Prop :=
    (∃ status, outcome.1 = .error status ∧ outcome.2.store = faulty.store) ∨
      ∃ status gone, outcome.1 = .ok (status, gone) ∧
        faulty.store.Loses now key gone outcome.2.store
  show p _
  rw [dropByRank_eq]
  refine hasks.finds.run_bind (fun status after hsame => .inl ⟨status, rfl, hsame⟩)
    fun entries between hsame _ _ => ?_
  have hbetween : between.store.Sound := hsame ▸ hsound
  obtain ⟨status, gone, after, hrun, hlost⟩ := run_dropEach hbetween entries 0
  rw [hrun, Nat.zero_add]
  rw [hsame] at hlost
  exact .inr ⟨status, gone, rfl, hlost⟩

end Rankings

/-! ## Commands -/

/-- A part of a sorted set, given by two bounds of scores or by two ranks. -/
inductive Span where
  | scores (min max : String)
  | ranks (start stop : Int)

namespace Span

/-- The request that shows a part. -/
def query (key : Bytes) : Span → Command
  | scores min max => .zrangeByScore key min max true false
  | ranks start stop => .zrange key start stop true false

/-- The removal of a part, on no terms. -/
def removal (key : Bytes) (version : Version) : Span → Command
  | scores min max => .zremRangeByScore key min max version {}
  | ranks start stop => .zremRangeByRank key start stop version {}

/-- Whether the bounds stand for scores. -/
def Readable : Span → Prop
  | scores min max => (∃ low, Bound.Reads min low) ∧ ∃ high, Bound.Reads max high
  | ranks .. => True

end Span

/-- What a removal does that takes those members out of a sorted set that are shown, at a
version: nothing if nobody is shown, and if everybody is, the key goes with its deadline.
Otherwise the key and its deadline stay, the version of the key rises to that of the
removal, and who is left keeps the mark and the order.  No other key changes. -/
structure Store.Removes (store : Store) (key : Bytes) (slot : Slot) (ranking : Ranking)
    (version : Version) (shown : List Ranked) (after : Store) : Prop where
  sublist : shown.Sublist ranking.entries
  nobody : shown = [] → after = store
  everybody : shown.length = ranking.size →
    after.slots[key]? = none ∧ ∀ deadline, ⟨deadline, key⟩ ∉ after.agenda
  somebody : shown ≠ [] → shown.length < ranking.size → ∃ rest : Ranking,
    after.slots[key]? = some ⟨.zset rest, max slot.version version, slot.deadline⟩ ∧
    (∀ member, rest.byMember[member]? =
      if member ∈ shown.map Ranked.member then none else ranking.byMember[member]?) ∧
    (rest.entries = ranking.entries.filter fun entry => entry ∉ shown) ∧
    shown.length + rest.size = ranking.size
  others : ∀ other ≠ key, after.slots[other]? = store.slots[other]?

namespace Store.Removes

variable {store after : Store} {now : Millis} {key : Bytes} {slot : Slot} {ranking : Ranking}
  {version : Version} {shown : List Ranked}

/-- Where nobody is shown there is nothing to do. -/
theorem of_nobody (hslot : store.live? now key = some slot) (hzset : slot.content = .zset ranking)
    (hsound : store.Sound) : store.Removes key slot ranking version [] store where
  sublist := List.nil_sublist _
  nobody _ := rfl
  everybody hsize := by
    have hcontent := hsound key slot (live?_eq_some.mp hslot).1
    have hcoherent := hcontent.coherent ranking hzset
    have hfilled := hcoherent.entries_ne_nil (hzset ▸ hcontent.filled)
    rw [List.length_nil, ← hcoherent.length_entries, eq_comm, List.length_eq_zero_iff] at hsize
    exact absurd hsize hfilled
  somebody hshown := absurd rfl hshown
  others _ _ := rfl

/-- What becomes of the slot when some or all of its members are taken out. -/
theorem of_becomes (hcoherent : ranking.Coherent) (hconsistent : after.Consistent)
    (hsublist : shown.Sublist ranking.entries) (hshown : shown ≠ [])
    (h : store.Becomes key (slot.without ranking (shown.map Ranked.member) version) after) :
    store.Removes key slot ranking version shown after where
  sublist := hsublist
  nobody hnobody := absurd hnobody hshown
  everybody hsize := by
    have hcount := hcoherent.size_without_shown hsublist
    have hself := h.self
    rw [Slot.without_eq, if_pos (by omega)] at hself
    refine ⟨hself, fun deadline hdue => ?_⟩
    rw [hconsistent.mem_agenda, hself] at hdue
    cases hdue
  somebody _ hsize := by
    have hcount := hcoherent.size_without_shown hsublist
    have hself := h.self
    rw [Slot.without_eq, if_neg (by omega)] at hself
    exact ⟨_, hself, ranking.getElem?_without _, hcoherent.entries_without_shown hsublist, hcount⟩
  others := h.others

end Store.Removes

namespace Command

variable {context : Context} {store : Store} {key : Bytes} {slot : Slot} {ranking : Ranking}
  {version : Version}

/-- A removal answers with the status of the request for the same part and with the number
of those that the request shows, and it takes these out. -/
structure Matches (context : Context) (store : Store) (key : Bytes) (slot : Slot)
    (ranking : Ranking) (version : Version) (span : Span) (status : Status)
    (shown : List Ranked) (after : Store) : Prop where
  query : (span.query key).run context store =
    (⟨status, .placed (shown.map (Ranked.place true))⟩, store)
  removal : (span.removal key version).run context store = (⟨status, .count shown.length⟩, after)
  ok : shown ≠ [] → status = .ok
  empty : span.Readable → (status = .rangeEmpty ↔ shown = [])
  removes : store.Removes key slot ranking version shown after

section Ends

variable {σ : Type} {answer : σ → (c : Call) → Except Failure c.Answer × σ} {state after : σ}
  {start stop : Int} {terms : Terms} {status : Status}

theorem runBy_of_dropByRank {removed : Nat}
    (h : (Rankings.dropByRank key start stop version terms).run answer state =
      (.ok (status, removed), after)) :
    (zremRangeByRank key start stop version terms).runBy answer context state =
      (⟨status, .count removed⟩, after) := by
  rw [runBy, script, Script.bind_eq, Script.run_bind, h]
  rfl

theorem runBy_of_dropByRank_refused
    (h : (Rankings.dropByRank key start stop version terms).run answer state =
      (.error status, after)) :
    (zremRangeByRank key start stop version terms).runBy answer context state =
      (⟨status, .count 0⟩, after) := by
  rw [runBy, script, Script.bind_eq, Script.run_bind, h]
  rfl

end Ends

section Live

variable (h : store.Reachable) (hslot : store.live? context.now key = some slot)
  (hzset : slot.content = .zset ranking)

include h hslot hzset

/-- Where the request shows some of the members or reports that there is nobody, and the
removal does the same and takes them out, the two match. -/
theorem matches_of_runs {span : Span} {shown : List Ranked}
    (hsublist : shown.Sublist ranking.entries)
    (hquery : (span.query key).run context store =
      (if shown = [] then ⟨.rangeEmpty, .placed []⟩
        else ⟨.ok, .placed (shown.map (Ranked.place true))⟩, store))
    (hremoval : (span.removal key version).run context store =
        (⟨.rangeEmpty, .count 0⟩, store) ∧ shown = [] ∨
      shown ≠ [] ∧ ∃ after,
        (span.removal key version).run context store = (⟨.ok, .count shown.length⟩, after) ∧
        store.Becomes key (slot.without ranking (shown.map Ranked.member) version) after) :
    ∃ status after, Matches context store key slot ranking version span status shown after := by
  have hcoherent := (h.sound key slot (Store.live?_eq_some.mp hslot).1).coherent ranking hzset
  rcases hremoval with ⟨hremoval, rfl⟩ | ⟨hshown, after, hremoval, hbecomes⟩
  · exact ⟨.rangeEmpty, store, hquery, hremoval, fun hshown => absurd rfl hshown,
      fun _ => iff_of_true rfl rfl, .of_nobody hslot hzset h.sound⟩
  · have hafter := h.run context (span.removal key version)
    rw [hremoval] at hafter
    rw [if_neg hshown] at hquery
    exact ⟨.ok, after, hquery, hremoval, fun _ => rfl, fun _ => iff_of_false nofun hshown,
      .of_becomes hcoherent hafter.consistent hsublist hshown hbecomes⟩

variable (hnonzero : version ≠ 0)

include hnonzero

/-- Bounds of which one stands for no score show nobody, and nobody is taken out. -/
theorem matches_unread {min max : String} (hunread : ¬ (Span.scores min max).Readable) :
    Matches context store key slot ranking version (.scores min max) .notANumber [] store := by
  have hbounds : (∀ score, ¬ Bound.Reads min score) ∨ ∀ score, ¬ Bound.Reads max score := by
    rw [Span.Readable, not_and_or, not_exists, not_exists] at hunread
    exact hunread
  refine ⟨(runBy_unread hbounds (Store.perform context.now) store true false).1, ?_,
    fun hshown => absurd rfl hshown, fun hread => absurd hread hunread,
    .of_nobody hslot hzset h.sound⟩
  rw [Span.removal, run_of_reply (by rfl), Rankings.dropByScore, requireVersion_of_ne hnonzero,
    Rankings.bounds_unread hbounds]
  rfl

variable (hversion : slot.version ≤ version)

include hversion

theorem matches_scores {min max : String} {low high : Int64} (hmin : Bound.Reads min low)
    (hmax : Bound.Reads max high) :
    ∃ status after, Matches context store key slot ranking version (.scores min max) status
      (ranking.between low high) after := by
  have hopen := h.open_of_live hslot
  refine matches_of_runs h hslot hzset List.filter_sublist ?_ ?_
  · rw [Span.query, run_of_reply (by rfl), Rankings.on_byScore hopen hslot hzset hmin hmax]
    by_cases hnobody : ranking.between low high = []
    · rw [if_pos hnobody, if_pos hnobody]
      rfl
    · rw [if_neg hnobody, if_neg hnobody]
      rfl
  · rw [Span.removal, run_of_reply (by rfl)]
    rcases Rankings.on_dropByScore hopen hslot hzset hnonzero hversion h.sound hmin hmax with
      ⟨hremoval, hnobody⟩ | ⟨hshown, after, hremoval, hbecomes⟩
    · rw [hremoval]
      exact .inl ⟨rfl, hnobody⟩
    · rw [hremoval]
      exact .inr ⟨hshown, after, rfl, hbecomes⟩

theorem matches_ranks (hsize : ranking.size ≤ Int64.maxValue.toInt) (start stop : Int) :
    ∃ status after, Matches context store key slot ranking version (.ranks start stop) status
      (slice start stop ranking.entries) after := by
  have hopen := h.open_of_live hslot
  have hcoherent := (h.sound key slot (Store.live?_eq_some.mp hslot).1).coherent ranking hzset
  refine matches_of_runs h hslot hzset (slice_sublist ..) ?_ ?_
  · rw [Span.query, run_of_reply (by rfl),
      Rankings.on_byRank_slice hopen hslot hzset hcoherent hsize]
    by_cases hnobody : slice start stop ranking.entries = []
    · rw [if_pos hnobody, if_pos hnobody]
      rfl
    · rw [if_neg hnobody, if_neg hnobody]
  · obtain ⟨hremoval, hnobody⟩ | ⟨hshown, after, hremoval, hbecomes⟩ :=
      Rankings.on_dropByRank hopen hslot hzset hnonzero hversion hcoherent hsize start stop
    · exact .inl ⟨runBy_of_dropByRank_refused hremoval, hnobody⟩
    · exact .inr ⟨hshown, after, runBy_of_dropByRank hremoval, hbecomes⟩

end Live

/-- Whatever faults are armed, the count of a removal by rank is the number of members that
have gone. -/
theorem counted_zremRangeByRank (h : store.Reachable) (faults : List Fault) (start stop : Int)
    (terms : Terms) :
    let outcome := (zremRangeByRank key start stop version terms).runFaulty context ⟨store, faults⟩
    ∃ removed, outcome.1.data = .count removed ∧
      store.Loses context.now key removed outcome.2.store := by
  intro outcome
  have hsound : (⟨store, faults⟩ : FaultyStore).store.Sound := h.sound
  obtain ⟨status, hrun, hsame⟩ | ⟨status, gone, hrun, hlost⟩ :=
    Rankings.run_dropByRank hsound context.now key start stop version terms
  · have houtcome : outcome = (⟨status, .count 0⟩, _) :=
      runBy_of_dropByRank_refused (Prod.ext hrun rfl)
    refine ⟨0, by rw [houtcome], ?_⟩
    rw [houtcome, hsame]
    exact .refl store context.now key
  · have houtcome : outcome = (⟨status, .count gone⟩, _) :=
      runBy_of_dropByRank (Prod.ext hrun rfl)
    refine ⟨gone, by rw [houtcome], ?_⟩
    rw [houtcome]
    exact hlost

/-- A removal of a range takes out exactly those that the request for the same range shows
just before: its count is their number, its status is that of the request, and nothing else
changes but the version of the key, which rises, and the key goes with its last member.
Version 0, which no write has, is refused.  Moreover, if faults strike the removal by rank
anywhere on its way, its count is still the number of members that are gone.  A signed word
can count the members: no memory holds more. -/
theorem removal_matches_query (h : store.Reachable) (context : Context) (key : Bytes) :
    (∀ (slot : Slot) (ranking : Ranking) (version : Version) (span : Span),
      store.live? context.now key = some slot → slot.content = .zset ranking →
      ranking.size ≤ Int64.maxValue.toInt → slot.version ≤ version →
      version = 0 ∧ (span.removal key version).run context store = (⟨.error, .count 0⟩, store) ∨
        version ≠ 0 ∧ ∃ status shown after,
          Matches context store key slot ranking version span status shown after) ∧
    ∀ (faults : List Fault) (start stop : Int) (version : Version) (terms : Terms),
      let outcome :=
        (zremRangeByRank key start stop version terms).runFaulty context ⟨store, faults⟩
      ∃ removed, outcome.1.data = .count removed ∧
        store.Loses context.now key removed outcome.2.store := by
  refine ⟨fun slot ranking version span hslot hzset hsize hversion => ?_,
    fun faults start stop version terms => counted_zremRangeByRank h faults start stop terms⟩
  by_cases hzero : version = 0
  · refine .inl ⟨hzero, ?_⟩
    subst hzero
    cases span <;> rfl
  · refine .inr ⟨hzero, ?_⟩
    cases span with
    | ranks start stop =>
      obtain ⟨status, after, hmatches⟩ :=
        matches_ranks h hslot hzset hzero hversion hsize start stop
      exact ⟨status, _, after, hmatches⟩
    | scores min max =>
      by_cases hread : (Span.scores min max).Readable
      · obtain ⟨⟨low, hmin⟩, high, hmax⟩ := hread
        obtain ⟨status, after, hmatches⟩ :=
          matches_scores h hslot hzset hzero hversion hmin hmax
        exact ⟨status, _, after, hmatches⟩
      · exact ⟨_, _, _, matches_unread h hslot hzset hzero hread⟩

/-- The upper two of three members go, the key keeps its deadline; and where the medium
fails at the second one, it has been one. -/
theorem removal_matches_query_two :
    let context : Context := ⟨⟨5000⟩, .absolute⟩
    let store := ((((Store.empty.perform 0 (.putScore [122] [97] 10 1)).2.perform 0
      (.putScore [122] [98] 5 2)).2.perform 0 (.putScore [122] [99] (-3) 4)).2.perform 0
      (.setDeadline [122] (some 9) 4)).2
    let ranking := ((Ranking.empty.insert [97] 10 1).insert [98] 5 2).insert [99] (-3) 4
    let removal := zremRangeByRank [122] 1 (-1) 7 {}
    let struck := removal.runFaulty context ⟨store, [⟨.dropScore, .failure .io, 1, 1⟩]⟩
    store.Reachable ∧ store.live? context.now [122] = some ⟨.zset ranking, 4, some 9⟩ ∧
      ranking.size ≤ Int64.maxValue.toInt ∧
      (∃ shown after, shown.length = 2 ∧
        (zrange [122] 1 (-1) true false).run context store =
          (⟨.ok, .placed (shown.map (Ranked.place true))⟩, store) ∧
        removal.run context store = (⟨.ok, .count 2⟩, after) ∧
        store.Removes [122] ⟨.zset ranking, 4, some 9⟩ ranking 7 shown after) ∧
      struck.1 = ⟨.error, .count 1⟩ ∧ store.Loses context.now [122] 1 struck.2.store := by
  intro context store ranking removal struck
  have hreachable : store.Reachable :=
    (((Store.Reachable.empty.perform 0 _).perform 0 _).perform 0 _).perform 0 _
  have hnow : context.now = 5 := by decide
  have hslot : store.live? context.now [122] = some ⟨.zset ranking, 4, some 9⟩ := by
    rw [hnow]
    rfl
  have hsize : ranking.size ≤ Int64.maxValue.toInt := by decide
  obtain ⟨hmatches, hcounted⟩ := removal_matches_query hreachable context [122]
  refine ⟨hreachable, hslot, hsize, ?_, ?_⟩
  · rcases hmatches _ ranking 7 (.ranks 1 (-1)) hslot rfl hsize (by decide) with
      ⟨hzero, _⟩ | ⟨_, status, shown, after, hmatch⟩
    · exact absurd hzero (by decide)
    · have hquery : ((zrange [122] 1 (-1) true false).run context store).1 =
          ⟨.ok, .placed [⟨[98], 2, some 5⟩, ⟨[97], 1, some 10⟩]⟩ := by
        rw [run, hnow]
        rfl
      have hshown : (⟨.ok, .placed [⟨[98], 2, some 5⟩, ⟨[97], 1, some 10⟩]⟩ : Reply) =
          ⟨status, .placed (shown.map (Ranked.place true))⟩ :=
        hquery.symm.trans (congrArg Prod.fst hmatch.query)
      obtain ⟨rfl, hplaced⟩ := Reply.mk.inj hshown
      have hlength : shown.length = 2 := by
        rw [← shown.length_map, ← Data.placed.inj hplaced]
        rfl
      exact ⟨shown, after, hlength, hmatch.query, hlength ▸ hmatch.removal, hmatch.removes⟩
  · have hreply : struck.1 = ⟨.error, .count 1⟩ := by
      show (removal.runFaulty context ⟨store, [⟨.dropScore, .failure .io, 1, 1⟩]⟩).1 = _
      rw [runFaulty, hnow]
      rfl
    obtain ⟨removed, hdata, hlost⟩ := hcounted [⟨.dropScore, .failure .io, 1, 1⟩] 1 (-1) 7 {}
    have hone : Data.count 1 = .count removed := (congrArg Reply.data hreply).symm.trans hdata
    cases hone
    exact ⟨hreply, hlost⟩

end Command

end Keyspace
