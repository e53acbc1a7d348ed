import Keyspace.Console.Session
import Keyspace.Proofs.Draining
import Keyspace.Proofs.Minting
import Keyspace.Proofs.Requests
import Mathlib.Data.List.Induction
import Mathlib.Data.List.Infix

/-!
# The console as a plain map

A console hides the versions.  Each write is made at a version minted for it, and as
long as the counter of the mint has not come to the end of its range that version is
above all versions in the store.  So no write is refused as an old one, whoever else
mints versions in between, and what a user sees is a map from keys to values.

There are four groups.

* Answers.  No answer to a request begins with a status that tells of a version, of
  another kind or of a failure (`Request.not_reports`).
* Lines.  `setting?` and `deleted` read off the words of a line what it does to a plain
  map, and `held` is what the map then holds; `held_eq_some` says which line has set it.
* Events.  A console agrees with the plain map (`Mirrors`) before and after each event
  (`Mirrors.next`).
* Sessions.  `answers_after` says what follows for the answer to the next line, and
  `absent_at_horizon` why it takes a clock that has not come to the last instant.
-/

namespace Keyspace

/-! ## Answers -/

/-- The text of a status is no beginning of the text of another one. -/
theorem Status.eq_of_isPrefix {first second : Status}
    (h : first.text.toList <+: second.text.toList) : first = second := by
  revert h
  cases first <;> cases second <;> decide

namespace Console

/-- Whether an answer begins with a status. -/
def Reports (status : Status) (answer : String) : Prop :=
  ∃ rest, answer = status.text ++ rest

theorem eq_of_reports {status other : Status} {rest : String}
    (h : Reports status (other.text ++ rest)) : status = other := by
  obtain ⟨rest', hanswer⟩ := h
  have hlist : other.text.toList ++ rest.toList = status.text.toList ++ rest'.toList := by
    rw [← String.toList_append, hanswer, String.toList_append]
  have hfirst : status.text.toList <+: other.text.toList ++ rest.toList := ⟨_, hlist.symm⟩
  rcases List.prefix_or_prefix_of_prefix hfirst (List.prefix_append _ _) with hshort | hlong
  · exact Status.eq_of_isPrefix hshort
  · exact (Status.eq_of_isPrefix hlong).symm

theorem eq_of_reports_text {status other : Status} (h : Reports status other.text) :
    status = other := by
  obtain ⟨rest, hanswer⟩ := h
  exact eq_of_reports ⟨rest, (String.append_empty).trans hanswer⟩

/-- The statuses of writes that come too late, meet another kind of value or fail. -/
def faults : List Status :=
  [.versionMismatch, .wrongType, .error]

theorem head?_of_reports {status : Status} (hfault : status ∈ faults) {answer : String}
    (h : Reports status answer) : answer.toList.head? = some 'E' := by
  obtain ⟨rest, rfl⟩ := h
  rw [String.toList_append]
  simp only [faults, List.mem_cons, List.not_mem_nil, or_false] at hfault
  rcases hfault with rfl | rfl | rfl <;> rfl

/-- What a request is told is no fault. -/
theorem Request.not_reports {request : Request} {value? : Bytes → Option Bytes} {reply : Reply}
    (h : request.Told value? reply) {status : Status} (hfault : status ∈ faults) :
    ¬ Reports status (request.render reply) := by
  have hother : ∀ other : Status, other ∉ faults → ∀ rest, ¬ Reports status (other.text ++ rest) :=
    fun other hother rest hreports => hother (eq_of_reports hreports ▸ hfault)
  have htext : ∀ other : Status, other ∉ faults → ¬ Reports status other.text :=
    fun other hother hreports => hother (eq_of_reports_text hreports ▸ hfault)
  have hhead : ∀ answer : String, answer.toList.head? ≠ some 'E' → ¬ Reports status answer :=
    fun answer hanswer hreports => hanswer (head?_of_reports hfault hreports)
  cases request with
  | set | setFor =>
    cases h
    exact htext .ok (by decide)
  | get key =>
    rw [Told] at h
    cases hvalue : value? key with
    | none =>
      rw [hvalue] at h
      cases h
      exact htext .notExist (by decide)
    | some value =>
      rw [hvalue] at h
      obtain ⟨version, rfl⟩ := h
      refine hhead _ ?_
      simp [render]
  | del =>
    obtain ⟨statuses, rfl⟩ := h
    show ¬ Reports status (Status.ok.text ++ " deleted=" ++ toString (statuses.count .ok))
    rw [String.append_assoc]
    exact hother .ok (by decide) _
  | expire => rcases h with rfl | ⟨rfl, _⟩ <;> exact htext _ (by decide)
  | persist => rcases h with rfl | rfl | ⟨rfl, _⟩ <;> exact htext _ (by decide)
  | ttl =>
    rcases h with ⟨seconds, rfl⟩ | rfl | rfl
    · refine hhead _ fun hfirst => ?_
      have hmem : 'E' ∈ (toString seconds ++ "s").toList := List.mem_of_head? hfirst
      rw [String.toList_append, List.mem_append] at hmem
      rcases hmem with hdigit | hunit
      · have hdigits : 'E' ∈ Nat.toDigits 10 seconds := Nat.toList_repr ▸ hdigit
        exact absurd (Nat.isDigit_of_mem_toDigits (by decide) (by decide) hdigits) (by decide)
      · exact absurd hunit (by decide)
    · exact htext .noExpireSet (by decide)
    · exact htext .notExist (by decide)
  | keyExists => rcases h with rfl | rfl <;> exact htext _ (by decide)
  | keyType =>
    rcases h with ⟨kind, rfl⟩ | rfl
    · refine hhead _ ?_
      show kind.name.toList.head? ≠ some 'E'
      cases kind <;> decide
    · exact htext .notExist (by decide)

/-! ## Lines -/

/-- The key and the value among the arguments of `set`: these two, and perhaps a number. -/
def pair? : List String → Option (String × String)
  | [key, value] => some (key, value)
  | [key, value, amount] =>
    if (Decimal.word? (.ofText amount)).isSome then some (key, value) else none
  | _ => none

/-- The key and the value of a line that sets a key. -/
def setting? (line : String) : Option (String × String) :=
  match Text.words line with
  | [] => none
  | name :: arguments => if Text.lower name = "set" then pair? arguments else none

/-- The keys that a line deletes. -/
def deleted (line : String) : List String :=
  match Text.words line with
  | [] => []
  | name :: arguments => if Text.lower name = "del" then arguments else []

/-- What a line leaves of the value under a key in a plain map. -/
def edit (key : String) (value? : Option String) (line : String) : Option String :=
  if key ∈ deleted line then none
  else match setting? line with
    | some (other, value) => if other = key then some value else value?
    | none => value?

/-- What a plain map holds under a key after some lines. -/
def held (key : String) (lines : List String) : Option String :=
  lines.foldl (edit key) none

/-- What words ask for sets what they set and deletes what they delete; words that ask
for nothing do neither. -/
theorem ofWords_cases (name : String) (arguments : List String) :
    let pair? := if name = "set" then pair? arguments else none
    let keys := if name = "del" then arguments else []
    match Request.ofWords name arguments with
    | .ok request =>
      request.set? = pair?.map (fun (key, value) => (.ofText key, .ofText value)) ∧
        request.gone = keys.map .ofText
    | .error status => pair? = none ∧ keys = [] ∧ status ∉ faults := by
  fun_cases Request.ofWords name arguments with
  | case2 key value amount =>
    rw [Request.seconds, if_pos rfl, Console.pair?]
    cases Decimal.word? (.ofText amount) with
    | none => exact ⟨rfl, rfl, by decide⟩
    | some seconds => exact ⟨rfl, rfl⟩
  | case5 key amount =>
    rw [Request.seconds]
    cases Decimal.word? (.ofText amount) with
    | none => exact ⟨rfl, rfl, by decide⟩
    | some seconds => exact ⟨rfl, rfl⟩
  | case10 name arguments hset hsetFor _ hdel =>
    refine ⟨?_, ?_, by decide⟩
    · split
      · rename_i hname
        unfold Console.pair?
        split
        · exact (hset _ _ hname rfl).elim
        · exact (hsetFor _ _ _ hname rfl).elim
        · rfl
      · rfl
    · split
      · rename_i hname
        cases arguments with
        | nil => rfl
        | cons key keys => exact (hdel _ _ hname rfl).elim
      · rfl
  | _ => exact ⟨rfl, rfl⟩

theorem execute_of_words {clock : Clock} {console : Console} {line name : String}
    {arguments : List String} {request : Request} (hwords : Text.words line = name :: arguments)
    (hrequest : Request.ofWords (Text.lower name) arguments = .ok request) :
    console.execute clock line = console.answer clock request := by
  rw [execute, hwords]
  dsimp only
  rw [hrequest]

/-- A line is carried out as a request, or it is refused and has no effect. -/
theorem execute_cases (clock : Clock) (console : Console) (line : String) :
    (∃ request, console.execute clock line = console.answer clock request ∧
      request.set? = (setting? line).map (fun (key, value) => (.ofText key, .ofText value)) ∧
      request.gone = (deleted line).map .ofText) ∨
    ∃ text, console.execute clock line = (text, console) ∧ setting? line = none ∧
      deleted line = [] ∧ ∀ status ∈ faults, ¬ Reports status text := by
  rw [execute, setting?, deleted]
  cases Text.words line with
  | nil =>
    refine .inr ⟨"", rfl, rfl, rfl, fun status hfault hreports => ?_⟩
    cases head?_of_reports hfault hreports
  | cons name arguments =>
    have hcases := ofWords_cases (Text.lower name) arguments
    dsimp only
    cases hwords : Request.ofWords (Text.lower name) arguments with
    | ok request =>
      rw [hwords] at hcases
      exact .inl ⟨request, rfl, hcases⟩
    | error status =>
      rw [hwords] at hcases
      obtain ⟨hset, hdel, hstatus⟩ := hcases
      refine .inr ⟨status.text, rfl, hset, hdel, fun other hfault hreports => ?_⟩
      exact hstatus (eq_of_reports_text hreports ▸ hfault)

/-- What a line does to a plain map of texts, its request does to the map of their bytes. -/
theorem apply_ofText {request : Request} {line : String}
    (hset : request.set? = (setting? line).map (fun (key, value) => (.ofText key, .ofText value)))
    (hgone : request.gone = (deleted line).map .ofText) (key : String) (value? : Option String) :
    request.apply (.ofText key) (value?.map .ofText) = (edit key value? line).map .ofText := by
  have hmem : request.gone.contains (.ofText key) = true ↔ key ∈ deleted line := by
    rw [List.contains_iff_mem, hgone, List.mem_map]
    exact ⟨fun ⟨other, hother, heq⟩ => Bytes.ofText_inj.mp heq ▸ hother, fun h => ⟨key, h, rfl⟩⟩
  rw [Request.apply, edit, hset]
  by_cases hkey : key ∈ deleted line
  · rw [if_pos (hmem.mpr hkey), if_pos hkey]
    rfl
  · rw [if_neg fun h => hkey (hmem.mp h), if_neg hkey]
    cases setting? line with
    | none => rfl
    | some pair =>
      obtain ⟨other, value⟩ := pair
      simp only [Option.map_some, Bytes.ofText_inj]
      split <;> rfl

theorem held_append (key : String) (before after : List String) :
    held key (before ++ after) = after.foldl (edit key) (held key before) :=
  List.foldl_append

/-- A line that sets a key deletes none. -/
theorem deleted_of_setting {line : String} {pair : String × String}
    (h : setting? line = some pair) : deleted line = [] := by
  rw [setting?] at h
  rw [deleted]
  cases hwords : Text.words line with
  | nil => rfl
  | cons name arguments =>
    rw [hwords] at h
    dsimp only at h ⊢
    split at h
    · rename_i hname
      rw [hname]
      rfl
    · cases h

/-- Whether a line neither sets nor deletes a key. -/
def Spares (key line : String) : Prop :=
  key ∉ deleted line ∧ ∀ value, setting? line ≠ some (key, value)

theorem Spares.edit_eq {key line : String} (h : Spares key line) (value? : Option String) :
    edit key value? line = value? := by
  rw [edit, if_neg h.1]
  cases hpair : setting? line with
  | none => rfl
  | some pair => exact if_neg fun hkey => h.2 pair.2 (by rw [hpair, ← hkey])

theorem foldl_edit {key : String} {after : List String} (value? : Option String)
    (h : ∀ later ∈ after, Spares key later) : after.foldl (edit key) value? = value? := by
  induction after with
  | nil => rfl
  | cons later rest ih =>
    rw [List.forall_mem_cons] at h
    rw [List.foldl_cons, h.1.edit_eq, ih h.2]

/-- What a plain map holds under a key is what the last line that sets the key gave it,
if no line after that one deletes it. -/
theorem held_eq_some {key value : String} {lines : List String} :
    held key lines = some value ↔
      ∃ before line after, lines = before ++ line :: after ∧
        setting? line = some (key, value) ∧ ∀ later ∈ after, Spares key later := by
  constructor
  · intro h
    induction lines using List.reverseRecOn with
    | nil => cases h
    | append_singleton lines last ih =>
      rw [held_append, List.foldl_cons, List.foldl_nil] at h
      by_cases hdel : key ∈ deleted last
      · rw [edit, if_pos hdel] at h
        cases h
      by_cases hset : ∃ other, setting? last = some (key, other)
      · obtain ⟨other, hother⟩ := hset
        have hvalue : other = value := by
          rw [edit, if_neg hdel, hother] at h
          exact Option.some.inj ((if_pos rfl).symm.trans h)
        exact ⟨lines, last, [], rfl, hvalue ▸ hother, by simp⟩
      · -- a line that leaves the key alone comes after the one that set it
        have hspares : Spares key last := ⟨hdel, fun other hother => hset ⟨other, hother⟩⟩
        rw [hspares.edit_eq] at h
        obtain ⟨before, line, after, rfl, hline, hafter⟩ := ih h
        refine ⟨before, line, after ++ [last], by simp, hline, fun later hlater => ?_⟩
        rcases List.mem_append.mp hlater with hmem | hmem
        · exact hafter later hmem
        · rw [List.mem_singleton.mp hmem]
          exact hspares
  · rintro ⟨before, line, after, rfl, hline, hafter⟩
    rw [held_append, List.foldl_cons, foldl_edit _ hafter, edit, deleted_of_setting hline,
      if_neg List.not_mem_nil, hline]
    exact if_pos rfl

end Console

/-! ## Events -/

theorem Store.Minted.without {store : Store} {minted : Version} (h : store.Minted minted)
    (gone : List Bytes) : (store.without gone).Minted minted where
  consistent := h.consistent.without gone
  isOpen := h.isOpen
  slots key slot hslot := by
    rw [getElem?_without] at hslot
    split at hslot
    · cases hslot
    · exact h.slots key slot hslot

namespace Console

/-- What happens to a console: a line comes in, or the reaper mints a version or runs a
whole round in the background. -/
inductive Event where
  | line (text : String)
  | mint
  | round (limit : Nat)

/-- The line that comes in. -/
def Event.line? : Event → Option String
  | line text => some text
  | _ => none

/-- The lines that have come in. -/
def lines (events : List Event) : List String :=
  events.filterMap Event.line?

/-- A console after an event. -/
def next (clock : Clock) (console : Console) : Event → Console
  | .line text => (console.execute clock text).2
  | .mint => { console with minted := clock.mint console.minted }
  | .round limit =>
    let round := Reaper.runRound clock limit console.minted console.store
    ⟨round.store, round.minted⟩

/-- A fresh console after some events at one time. -/
def after (clock : Clock) (events : List Event) : Console :=
  events.foldl (next clock) fresh

/-- Whether a console agrees with the plain map. -/
structure Mirrors (clock : Clock) (lines : List String) (console : Console) : Prop where
  minted : console.store.Minted console.minted
  value : clock.millis < horizon → ∀ key : String,
    console.store.value? clock.millis (.ofText key) = (held key lines).map .ofText

section Step

variable {clock : Clock} {console : Console} {before : List String}

/-- A console carries out a request and keeps its store one of strings at versions that
have been minted. -/
theorem carried_answer (clock : Clock) (h : console.store.Minted console.minted)
    (hcount : console.minted ≠ Version.highest) (request : Request) :
    ∃ reply, (console.answer clock request).1 = request.render reply ∧
      request.Carried clock.millis console.store reply (console.answer clock request).2.store ∧
      (console.answer clock request).2.store.Minted (console.answer clock request).2.minted := by
  let context : Context := ⟨clock, .absolute⟩
  let version := if request.mints then clock.mint console.minted else console.minted
  have hnext : console.minted < clock.mint console.minted := clock.lt_mint hcount
  have hlater : request.mints = true → console.minted < version := fun hmints => by
    rwa [show version = clock.mint console.minted from if_pos hmints]
  have hle : console.minted ≤ version := by
    cases hmints : request.mints with
    | true => exact UInt64.le_of_lt (hlater hmints)
    | false =>
      rw [show version = console.minted from if_neg (Bool.eq_false_iff.mp hmints)]
      exact UInt64.le_refl _
  let done := (request.command version).run context console.store
  have hcarried : Request.Carried context.now console.store request done.1 done.2 :=
    Request.carried h request hlater
  have hkept : done.2.Minted version :=
    (request.calls_command version).preserves_on (fun c hc _ hstore => hstore.perform hc)
      (h.mono hle)
  exact ⟨done.1, rfl, hcarried, hkept⟩

namespace Mirrors

theorem fresh : Mirrors clock [] Console.fresh where
  minted := .empty
  value _ key := by
    rw [Store.value?, Store.live?_eq]
    simp [Console.fresh, Store.empty, held]

variable (h : Mirrors clock before console) (hcount : console.minted ≠ Version.highest)
include h hcount

theorem line (text : String) :
    Mirrors clock (before ++ [text]) (console.execute clock text).2 := by
  rcases execute_cases clock console text with
    ⟨request, hexecute, hset, hgone⟩ | ⟨answer, hexecute, hset, hgone, _⟩
  · obtain ⟨reply, _, hcarried, hminted⟩ := carried_answer clock h.minted hcount request
    rw [hexecute]
    refine ⟨hminted, fun hclock key => ?_⟩
    rw [hcarried.value hclock, h.value hclock, apply_ofText hset hgone, held_append]
    rfl
  · rw [hexecute]
    refine ⟨h.minted, fun hclock key => ?_⟩
    rw [held_append, List.foldl_cons, List.foldl_nil, edit, hgone, if_neg List.not_mem_nil, hset]
    exact h.value hclock key

/-- A round finds nothing to delete that could be seen. -/
theorem round (limit : Nat) : Mirrors clock before (next clock console (.round limit)) := by
  have hle : console.minted ≤ clock.mint console.minted := UInt64.le_of_lt (clock.lt_mint hcount)
  rw [next, Reaper.runRound_eq h.minted.consistent h.minted.isOpen]
  refine ⟨(h.minted.without _).mono hle, fun hclock key => ?_⟩
  rw [← h.value hclock key]
  refine congrArg (Option.bind · Slot.value?) (Store.live?_without_hidden fun other hother => ?_)
  rw [List.map_take] at hother
  exact Store.live?_of_mem_overdue (List.mem_of_mem_take hother)

/-- Every event leaves the console in agreement with the plain map. -/
theorem next (event : Event) :
    Mirrors clock (before ++ event.line?.toList) (console.next clock event) := by
  cases event with
  | line text => exact h.line hcount text
  | mint =>
    have hle := UInt64.le_of_lt (clock.lt_mint hcount)
    show Mirrors clock (before ++ []) _
    rw [List.append_nil]
    exact ⟨h.minted.mono hle, h.value⟩
  | round limit =>
    show Mirrors clock (before ++ []) _
    rw [List.append_nil]
    exact h.round hcount limit

end Mirrors

end Step

/-- As long as the counter of the mint has not come to the end of its range, a console
agrees with the plain map. -/
theorem mirrors_after {clock : Clock} {events : List Event}
    (hcount : ∀ earlier, earlier <+: events → (after clock earlier).minted ≠ Version.highest) :
    Mirrors clock (lines events) (after clock events) := by
  induction events using List.reverseRecOn with
  | nil => exact .fresh
  | append_singleton events event ih =>
    have hevents := ih fun earlier hearlier =>
      hcount earlier (hearlier.trans (List.prefix_append _ _))
    have hlast := hcount events (List.prefix_append _ _)
    have hstep := hevents.next hlast event
    rw [lines, List.filterMap_append, after, List.foldl_append]
    cases event <;> exact hstep

/-! ## Sessions -/

/-- What the answer to a line says if the console is a plain map and these lines came
before.  Nobody looks at the versions: they are shown, and nothing depends on them.  What a
key holds is asked only while there are deadlines ahead of the clock. -/
structure Answers (clock : Clock) (before : List String) (line answer : String) : Prop where
  set : (setting? line).isSome → answer = Status.ok.text
  fault : ∀ status ∈ [Status.versionMismatch, .wrongType, .error], ¬ Reports status answer
  expire : ∀ name key amount, Text.words line = [name, key, amount] →
    Text.lower name = "expire" → (Decimal.word? (.ofText amount)).isSome →
      answer = Status.ok.text ∨
      answer = Status.notExist.text ∧ (clock.millis < horizon → held key before = none)
  persist : ∀ name key, Text.words line = [name, key] → Text.lower name = "persist" →
      answer = Status.ok.text ∨ answer = Status.noExpireSet.text ∨
      answer = Status.notExist.text ∧ (clock.millis < horizon → held key before = none)
  get : clock.millis < horizon →
    ∀ name key, Text.words line = [name, key] → Text.lower name = "get" →
      match held key before with
      | some value =>
        ∃ version : Version, answer = "\"" ++ value ++ "\" (version " ++ toString version ++ ")"
      | none => answer = Status.notExist.text

theorem Mirrors.answers {clock : Clock} {before : List String} {console : Console}
    (h : Mirrors clock before console) (hcount : console.minted ≠ Version.highest)
    (line : String) : Answers clock before line (console.execute clock line).1 := by
  have htold : ∀ request, console.execute clock line = console.answer clock request →
      ∃ reply, (console.execute clock line).1 = request.render reply ∧
        request.Told (console.store.value? clock.millis) reply := by
    intro request hexecute
    obtain ⟨reply, hanswer, hcarried, _⟩ := carried_answer clock h.minted hcount request
    exact ⟨reply, hexecute ▸ hanswer, hcarried.told⟩
  have hheld : ∀ key : String, console.store.value? clock.millis (.ofText key) = none →
      clock.millis < horizon → held key before = none := by
    intro key hnone hclock
    rw [h.value hclock] at hnone
    exact Option.map_eq_none_iff.mp hnone
  constructor
  · -- set
    intro hset
    rcases execute_cases clock console line with
      ⟨request, hexecute, hpair, _⟩ | ⟨_, _, hnone, _⟩
    · obtain ⟨reply, hanswer, hreply⟩ := htold request hexecute
      rw [hanswer]
      have hsets : request.set?.isSome := by rw [hpair, Option.isSome_map, hset]
      cases request with
      | set | setFor =>
        cases hreply
        rfl
      | _ => cases hsets
    · rw [hnone] at hset
      cases hset
  · -- fault
    intro status hfault
    rcases execute_cases clock console line with
      ⟨request, hexecute, _⟩ | ⟨text, hexecute, _, _, hclean⟩
    · obtain ⟨reply, hanswer, hreply⟩ := htold request hexecute
      rw [hanswer]
      exact Request.not_reports hreply hfault
    · rw [hexecute]
      exact hclean status hfault
  · -- expire
    intro name key amount hwords hname hamount
    obtain ⟨seconds, hseconds⟩ := Option.isSome_iff_exists.mp hamount
    have hrequest : Request.ofWords (Text.lower name) [key, amount] =
        .ok (.expire (.ofText key) seconds) := by
      rw [hname, Request.ofWords, Request.seconds, hseconds]
      rfl
    obtain ⟨reply, hanswer, hreply⟩ := htold _ (execute_of_words hwords hrequest)
    rw [hanswer]
    rcases hreply with rfl | ⟨rfl, hnone⟩
    · exact .inl rfl
    · exact .inr ⟨rfl, hheld key hnone⟩
  · -- persist
    intro name key hwords hname
    have hrequest : Request.ofWords (Text.lower name) [key] = .ok (.persist (.ofText key)) := by
      rw [hname, Request.ofWords]
    obtain ⟨reply, hanswer, hreply⟩ := htold _ (execute_of_words hwords hrequest)
    rw [hanswer]
    rcases hreply with rfl | rfl | ⟨rfl, hnone⟩
    · exact .inl rfl
    · exact .inr (.inl rfl)
    · exact .inr (.inr ⟨rfl, hheld key hnone⟩)
  · -- get
    intro hclock name key hwords hname
    have hrequest : Request.ofWords (Text.lower name) [key] = .ok (.get (.ofText key)) := by
      rw [hname, Request.ofWords]
    obtain ⟨reply, hanswer, hreply⟩ := htold _ (execute_of_words hwords hrequest)
    rw [hanswer]
    rw [Request.Told, h.value hclock] at hreply
    cases hvalue : held key before with
    | none =>
      rw [hvalue] at hreply
      cases hreply
      rfl
    | some value =>
      rw [hvalue] at hreply
      obtain ⟨version, rfl⟩ := hreply
      refine ⟨version, ?_⟩
      show "\"" ++ ((Bytes.ofText value).toText?).getD "" ++ _ ++ _ ++ _ = _
      rw [Bytes.toText?_ofText]
      rfl

/-- The console behaves as a plain map.  Whatever lines come in at one time, and whatever
versions and rounds of the reaper come in between, as long as the counter of the mint has
not come to the end of its range: a key that is set is set, no line is refused for the
sake of a version, of a kind or because the store fails, and what is got is what was set
last.  The last, and that only an absent key is said to be absent, holds at every reading
of the clock before the last instant that a deadline can name.  At that instant no deadline
lies ahead, and a key that is set for a while is gone at once. -/
theorem answers_after (clock : Clock) (events : List Event)
    (hcount : ∀ earlier, earlier <+: events → (after clock earlier).minted ≠ Version.highest)
    (line : String) :
    Answers clock (lines events) line ((after clock events).execute clock line).1 :=
  (mirrors_after hcount).answers (hcount events (List.prefix_refl _)) line

/-- A key is set for no time at all, survives a round of the reaper, is deleted and set
again, and shows the last value. -/
theorem answers_after_session :
    let clock : Clock := ⟨5000⟩
    let events : List Event := [.line "SET k 1 0", .mint, .line "expire k 0", .round 8,
      .line "del j k", .line "set k 2", .line "persist k"]
    (∀ earlier, earlier <+: events → (after clock earlier).minted ≠ Version.highest) ∧
      held "k" (lines events) = some "2" ∧
      ((after clock events).execute clock "get k").1 = "\"2\" (version 1280004)" ∧
      Answers clock (lines events) "get k" ((after clock events).execute clock "get k").1 := by
  intro clock events
  have hcount : ∀ earlier, earlier <+: events →
      (after clock earlier).minted ≠ Version.highest := by
    simp only [← List.mem_inits]
    decide
  exact ⟨hcount, by decide, by decide, answers_after clock events hcount "get k"⟩

/-- At the last instant that a deadline can name a key is set for five seconds and not
there. -/
theorem absent_at_horizon :
    let clock : Clock := ⟨1000 * horizon⟩
    let events : List Event := [.line "set k v 5"]
    clock.millis = horizon ∧
      (∀ earlier, earlier <+: events → (after clock earlier).minted ≠ Version.highest) ∧
      (fresh.execute clock "set k v 5").1 = Status.ok.text ∧
      held "k" (lines events) = some "v" ∧
      ∀ line ∈ ["get k", "expire k 5", "persist k"],
        ((after clock events).execute clock line).1 = Status.notExist.text := by
  intro clock events
  have hcount : ∀ earlier, earlier <+: events →
      (after clock earlier).minted ≠ Version.highest := by
    simp only [← List.mem_inits]
    decide
  exact ⟨by decide, hcount, by decide, by decide, by decide⟩

end Console

end Keyspace
