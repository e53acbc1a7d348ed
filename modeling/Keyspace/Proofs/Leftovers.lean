import Keyspace.Proofs.History

/-!
# Leftovers

A slot whose deadline has passed stays in the store until somebody writes to its
key or reclaims it.  This module shows that nobody can tell: a history runs from
a store as it runs from the same store without its leftovers.

There are four groups.

* Stores that look the same.  `Store.Alike` relates two stores with the same
  live slots.  It lasts as time goes by (`Store.Alike.of_le`), and a store is
  alike to the store that is left when it is purged (`Store.alike_purge`).
* Calls.  Two stores that are alike give the same answer to every call but two
  (`Store.Alike.answer`): `delete` tells whether there was a slot, and `expired`
  lists the leftovers.  They stay alike after every call
  (`Store.Alike.perform`).
* Scripts.  `Script.Coupled` relates two scripts that make the same calls and
  pay no attention to what `delete` answers.  Coupled scripts end alike
  (`Script.Coupled.run`), and every command but `fetchExpired` is coupled with
  itself (`Command.script_blind`).
* Histories.  `runAll_alike` is the induction over the steps.
-/

namespace Keyspace

/-! ## Stores that look the same -/

namespace Store

/-- Whether two stores have the same live slots. -/
structure Alike (now : Millis) (a b : Store) : Prop where
  closed : a.closed = b.closed
  live : ∀ key, a.live? now key = b.live? now key

namespace Alike

variable {now later : Millis} {a b : Store} {key : Bytes} {α : Type}

/-- What looks the same now looks the same later. -/
theorem of_le (h : Alike now a b) (hle : now ≤ later) : Alike later a b := by
  refine ⟨h.closed, fun key => ?_⟩
  rw [live?_of_le hle a, live?_of_le hle b, h.live]

theorem live_eq (h : Alike now a b) : a.live now = b.live now := by
  apply Std.ExtTreeMap.ext_getElem?
  intro key
  rw [getElem?_live, getElem?_live, h.live]

end Alike

/-- A store looks like itself without its leftovers. -/
theorem alike_purge (store : Store) (now : Millis) : Alike now store (store.purge now) := by
  refine ⟨rfl, fun key => ?_⟩
  have hslots : (store.purge now).slots[key]? = store.live? now key := getElem?_live store now key
  rw [live?_eq (store.purge now), hslots, live?_eq, Slot.live?_live?]

end Store

/-! ## Calls -/

/-- Whether the answer to a call depends on live slots only. -/
def Call.seesLive : Call → Bool
  | .delete _ | .expired .. => false
  | _ => true

namespace Store

variable {now : Millis} {a b : Store} {key : Bytes} {c : Call} {α : Type}

theorem view_congr (hclosed : a.closed = b.closed) (hlive : a.live? now key = b.live? now key)
    (absent : α) (question : Slot → Except Failure α) :
    a.view now key absent question = b.view now key absent question := by
  rw [view, view, hclosed, hlive]

theorem fst_revise_congr (hclosed : a.closed = b.closed)
    (hlive : a.live? now key = b.live? now key)
    (change : Option Slot → Except Failure (α × Option Slot)) :
    (a.revise now key change).1 = (b.revise now key change).1 := by
  cases ha : a.closed with
  | true => rw [revise_closed ha, revise_closed (hclosed ▸ ha)]
  | false => rw [fst_revise ha, fst_revise (hclosed ▸ ha), hlive]

/-- A call that sees live slots only asks for nothing but the live slot of its
key. -/
theorem answer_congr (hclosed : a.closed = b.closed)
    (hlive : ∀ key, c.key? = some key → a.live? now key = b.live? now key)
    (hc : c.seesLive = true) : (a.perform now c).1 = (b.perform now c).1 := by
  cases c with
  | delete => cases hc
  | expired => cases hc
  | close =>
    rw [perform, perform, close, close, hclosed]
    split <;> rfl
  | setDeadline key => exact fst_revise_congr hclosed (hlive key rfl) _
  | put key => exact fst_revise_congr hclosed (hlive key rfl) _
  | putField key => exact fst_revise_congr hclosed (hlive key rfl) _
  | dropField key => exact fst_revise_congr hclosed (hlive key rfl) _
  | addMember key => exact fst_revise_congr hclosed (hlive key rfl) _
  | dropMember key => exact fst_revise_congr hclosed (hlive key rfl) _
  | putScore key => exact fst_revise_congr hclosed (hlive key rfl) _
  | dropScore key => exact fst_revise_congr hclosed (hlive key rfl) _
  | dropByScore key =>
    rw [perform, perform]
    split
    · rfl
    · exact fst_revise_congr hclosed (hlive key rfl) _
  | byRank key =>
    rw [perform, perform]
    split
    · rfl
    · exact view_congr hclosed (hlive key rfl) _ _
  | byScore key =>
    rw [perform, perform]
    split
    · rfl
    · exact view_congr hclosed (hlive key rfl) _ _
  | countByScore key =>
    rw [perform, perform]
    split
    · rfl
    · exact view_congr hclosed (hlive key rfl) _ _
  | _ => exact view_congr hclosed (hlive _ rfl) _ _

end Store

namespace Store.Alike

variable {now : Millis} {a b : Store} {key : Bytes} {c : Call} {α : Type}

/-- Stores that are alike answer alike. -/
theorem answer (h : Alike now a b) (hc : c.seesLive = true) :
    (a.perform now c).1 = (b.perform now c).1 :=
  answer_congr h.closed (fun key _ => h.live key) hc

/-- Stores that are alike stay alike, whatever the call. -/
theorem perform (h : Alike now a b) (c : Call) :
    Alike now (a.perform now c).2 (b.perform now c).2 := by
  cases hclosed : a.closed with
  | true =>
    rw [perform_closed hclosed, perform_closed (h.closed ▸ hclosed)]
    exact h
  | false =>
    have hclosed' : b.closed = false := h.closed ▸ hclosed
    by_cases hc : c = .close
    · subst hc
      rw [Store.perform, Store.perform, Store.close, Store.close, hclosed, hclosed']
      exact ⟨rfl, fun _ => rfl⟩
    · refine ⟨?_, fun key => ?_⟩
      · rw [closed_perform hc, closed_perform hc, h.closed]
      · rw [live?_perform hclosed hc, live?_perform hclosed' hc, h.live]

/-- To a deletion they may answer differently, but it fails for both or for
neither. -/
theorem answer_delete (h : Alike now a b) (key : Bytes) :
    (a.perform now (.delete key)).1 = .error .closed ∧
        (b.perform now (.delete key)).1 = .error .closed ∨
      ∃ x y, (a.perform now (.delete key)).1 = .ok x ∧ (b.perform now (.delete key)).1 = .ok y := by
  simp only [Store.perform, Store.delete, ← h.closed]
  cases a.closed with
  | true => exact .inl ⟨rfl, rfl⟩
  | false => exact .inr ⟨_, _, rfl, rfl⟩

end Store.Alike

/-! ## Scripts -/

namespace Script

variable {ε ε' α β γ δ : Type}

/-- Two scripts that make the same calls whatever the answers are, and end with
results that `r` relates or with the same refusal.  Neither pays attention to
what `delete` answers. -/
inductive Coupled (r : α → β → Prop) : Script ε α → Script ε β → Prop where
  | done {a : α} {b : β} (h : r a b) : Coupled r (done a) (done b)
  | refuse (reason : ε) : Coupled r (refuse reason) (refuse reason)
  | call {c : Call} {next : Except Failure c.Answer → Script ε α}
      {next' : Except Failure c.Answer → Script ε β} (hc : c.seesLive = true)
      (hnext : ∀ answer, Coupled r (next answer) (next' answer)) :
      Coupled r (call c next) (call c next')
  | delete {key : Bytes} {next : Except Failure Bool → Script ε α}
      {next' : Except Failure Bool → Script ε β}
      (herror : ∀ failure, Coupled r (next (.error failure)) (next' (.error failure)))
      (hok : ∀ x y, Coupled r (next (.ok x)) (next' (.ok y))) :
      Coupled r (call (.delete key) next) (call (.delete key) next')

/-- Whether two endings are related results or the same refusal. -/
def SameEnding (r : α → β → Prop) : Except ε α → Except ε β → Prop
  | .ok a, .ok b => r a b
  | .error reason, .error reason' => reason = reason'
  | _, _ => False

/-- Whether a script pays no attention to leftovers. -/
def Blind (script : Script ε α) : Prop :=
  Coupled Eq script script

/-- A script that sees live slots only pays no attention to leftovers. -/
theorem Calls.blind {script : Script ε α} (h : script.Calls fun c => c.seesLive = true) :
    script.Blind := by
  induction h with
  | done _ => exact .done rfl
  | refuse _ => exact .refuse _
  | call hc _ ih => exact .call hc ih

namespace Coupled

variable {r : α → β → Prop} {q : γ → δ → Prop} {s : Script ε α} {t : Script ε β}

theorem bind {f : α → Script ε γ} {g : β → Script ε δ} (h : Coupled r s t)
    (hrest : ∀ a b, r a b → Coupled q (f a) (g b)) : Coupled q (s.bind f) (t.bind g) := by
  induction h with
  | done hab => exact hrest _ _ hab
  | refuse _ => exact .refuse _
  | call hc _ ih => exact .call hc ih
  | delete _ _ iherror ihok => exact .delete iherror ihok

theorem outcome (h : Coupled r s t) :
    Coupled (SameEnding r) (s.outcome : Script ε' (Except ε α)) (t.outcome) := by
  induction h with
  | done hab => exact .done hab
  | refuse _ => exact .done rfl
  | call hc _ ih => exact .call hc ih
  | delete _ _ iherror ihok => exact .delete iherror ihok

theorem mapRefusal {restate : ε → ε'} (h : Coupled r s t) :
    Coupled r (s.mapRefusal restate) (t.mapRefusal restate) := by
  induction h with
  | done hab => exact .done hab
  | refuse _ => exact .refuse _
  | call hc _ ih => exact .call hc ih
  | delete _ _ iherror ihok => exact .delete iherror ihok

theorem deleteAll (keys : List Bytes) :
    Coupled (fun _ _ => True) (deleteAll keys) (deleteAll keys) := by
  induction keys with
  | nil => exact .done trivial
  | cons key rest ih =>
    rw [Keyspace.deleteAll, List.mapM_cons]
    have hdelete : Coupled (fun _ _ => True) (ask (.delete key)) (ask (.delete key)) :=
      .delete (fun _ => .refuse _) fun _ _ => .done trivial
    refine bind hdelete fun _ _ _ => bind ih fun _ _ _ => .done trivial

/-- Coupled scripts end alike in stores that are alike. -/
theorem run {now : Millis} {a b : Store} (h : Coupled r s t) (halike : a.Alike now b) :
    SameEnding r (s.on now a).1 (t.on now b).1 ∧ (s.on now a).2.Alike now (t.on now b).2 := by
  induction h generalizing a b with
  | done hab => exact ⟨hab, halike⟩
  | refuse _ => exact ⟨rfl, halike⟩
  | call hc _ ih =>
    rw [on_call, on_call, halike.answer hc]
    exact ih _ (halike.perform _)
  | @delete key _ _ _ _ iherror ihok =>
    rw [on_call, on_call]
    rcases halike.answer_delete key with ⟨ha, hb⟩ | ⟨x, y, ha, hb⟩
    · rw [ha, hb]
      exact iherror _ (halike.perform _)
    · rw [ha, hb]
      exact ihok x y (halike.perform _)

end Coupled

namespace Blind

variable {script : Script ε α}

theorem bind {rest : α → Script ε β} (h : script.Blind) (hrest : ∀ result, (rest result).Blind) :
    (script.bind rest).Blind := by
  refine Coupled.bind h ?_
  rintro result _ rfl
  exact hrest result

/-- A deletion pays no attention to its answer if that is dropped. -/
theorem discard_delete (key : Bytes) :
    (discard (ask (.delete key)) : Script Failure Unit).Blind :=
  .delete (fun _ => .refuse _) fun _ _ => .done rfl

theorem ask {c : Call} (hc : c.seesLive = true) : (ask c).Blind :=
  Calls.blind (.ask hc)

theorem discard_ask {c : Call} (hc : c.seesLive = true) :
    (discard (Keyspace.ask c) : Script Failure Unit).Blind :=
  (ask hc).bind fun _ => .done rfl

end Blind

end Script

namespace Keys

open Script

theorem blind_delete (keys : List Bytes) (versions : List Version) (terms : Terms) :
    (delete keys versions terms).Blind := by
  unfold delete
  split
  · exact .refuse _
  · refine Blind.bind (Calls.blind (.mapM fun _ _ => calls_judge rfl)) fun verdicts => ?_
    refine Coupled.bind (Coupled.deleteAll _).outcome ?_
    rintro (_ | _) (_ | _) hending
    · cases hending
      exact .done rfl
    · cases hending
    · cases hending
    · exact .done rfl

theorem blind_copy (source target : Bytes) (record : Record) (version : Version) :
    (copy source target record version).Blind := by
  have hclear : (discard (ask (.delete target)) : Script Failure Unit).Blind :=
    .discard_delete target
  have hfinish : (discard (ask (.setDeadline target record.deadline version)) :
      Script Failure Unit).Blind := .discard_ask rfl
  unfold copy
  cases record.kind with
  | string => exact (Blind.ask rfl).bind fun item => .ask rfl
  | hash =>
    refine (Blind.ask rfl).bind fun fields => hclear.bind fun _ => ?_
    exact (Calls.blind (.forM fun entry _ => .discard (.ask (by rfl)))).bind fun _ => hfinish
  | set =>
    refine (Blind.ask rfl).bind fun members => hclear.bind fun _ => ?_
    exact (Calls.blind (.forM fun entry _ => .discard (.ask (by rfl)))).bind fun _ => hfinish
  | zset =>
    refine (Blind.ask rfl).bind fun size => ?_
    have hrest : ∀ entries : List Ranked, (do
        discard (ask (.delete target))
        entries.forM fun entry =>
          discard (ask (.putScore target entry.member entry.score entry.version))
        discard (ask (.setDeadline target record.deadline version)) :
        Script Failure Unit).Blind := by
      refine fun entries => hclear.bind fun _ => ?_
      exact (Calls.blind (.forM fun entry _ => .discard (.ask (by rfl)))).bind fun _ => hfinish
    dsimp only
    split
    · exact hrest _
    · exact (Blind.ask rfl).bind hrest

theorem blind_rename (source target : Bytes) (version : Version) (onlyIfAbsent : Bool) :
    (rename source target version onlyIfAbsent).Blind := by
  refine (Calls.blind calls_requireVersion).bind fun _ => ?_
  refine (Calls.blind (calls_requireRecord rfl)).bind fun record => ?_
  split
  · exact .done rfl
  · refine (Calls.blind (.query rfl)).bind fun found => ?_
    split
    · refine .mapRefusal ((blind_copy source target record version).bind fun _ => ?_)
      exact .discard_delete source
    · exact .refuse _

end Keys

namespace Command

open Script

/-- The calls of other commands see live slots only. -/
theorem Footprint.seesLive {command : Command} {c : Call} (h : command.Footprint c)
    (hdel : ∀ keys versions terms, command ≠ .del keys versions terms)
    (hrename : ∀ source target version onlyIfAbsent,
      command ≠ .rename source target version onlyIfAbsent)
    (hfetch : ∀ instant limit, command ≠ .fetchExpired instant limit) : c.seesLive = true := by
  cases command with
  | del => exact absurd rfl (hdel _ _ _)
  | rename => exact absurd rfl (hrename _ _ _ _)
  | fetchExpired => exact absurd rfl (hfetch _ _)
  | _ =>
    simp only [Footprint] at h
    grind [Call.seesLive]

/-- No command but `fetchExpired` pays attention to leftovers. -/
theorem script_blind (context : Context) {command : Command}
    (hfetch : ∀ instant limit, command ≠ .fetchExpired instant limit) :
    (command.script context).Blind := by
  cases command with
  | del keys versions terms =>
    exact (Keys.blind_delete keys versions terms).bind fun _ => .done rfl
  | rename source target version onlyIfAbsent =>
    exact (Keys.blind_rename source target version onlyIfAbsent).bind fun _ => .done rfl
  | fetchExpired instant limit => exact absurd rfl (hfetch instant limit)
  | _ =>
    refine Calls.blind ((script_calls context _).mono fun c hc => ?_)
    exact hc.seesLive (by simp) (by simp) (by simp)

variable {context : Context} {command : Command} {a b : Store}

/-- Stores that are alike stay alike, whatever the command. -/
theorem alike_run (command : Command) (h : a.Alike context.now b) :
    (command.run context a).2.Alike context.now (command.run context b).2 := by
  have hother : (∀ instant limit, command ≠ .fetchExpired instant limit) →
      (command.run context a).2.Alike context.now (command.run context b).2 :=
    fun hfetch => (Coupled.run (script_blind context hfetch) h).2
  cases command with
  | fetchExpired instant limit =>
    rw [run_fetchExpired, run_fetchExpired]
    exact h
  | _ => exact hother (by simp)

/-- Stores that are alike reply alike. -/
theorem reply_eq (hfetch : ∀ instant limit, command ≠ .fetchExpired instant limit)
    (h : a.Alike context.now b) :
    (command.run context a).1 = (command.run context b).1 := by
  obtain ⟨hending, _⟩ := (script_blind context hfetch).run h
  rw [run_eq, run_eq]
  generalize ((command.script context).on context.now a).1 = x at hending
  generalize ((command.script context).on context.now b).1 = y at hending
  cases x <;> cases y <;> cases hending <;> rfl

end Command

/-! ## Histories -/

/-- Stores that are alike when a history starts reply alike at each of its
steps, and are alike when it is over. -/
theorem runAll_alike {steps : List Step} {start final : Millis} {a b : Store}
    (hclock : (start :: (steps.map Step.now ++ [final])).Pairwise (· ≤ ·))
    (h : a.Alike start b) :
    (∀ (i : Nat) (step : Step), steps[i]? = some step →
      (∀ instant limit, step.command ≠ .fetchExpired instant limit) →
      (runAll steps a).1[i]? = (runAll steps b).1[i]?) ∧
    (runAll steps a).2.Alike final (runAll steps b).2 := by
  induction steps generalizing start a b with
  | nil =>
    refine ⟨fun i step hstep => by simp at hstep, h.of_le ?_⟩
    exact (List.pairwise_cons.mp hclock).1 final (by simp)
  | cons step rest ih =>
    obtain ⟨hstart, hrest⟩ := List.pairwise_cons.mp hclock
    have hnow : a.Alike step.now b := h.of_le (hstart step.now (by simp))
    obtain ⟨hreplies, hafter⟩ := ih hrest (step.command.alike_run hnow)
    refine ⟨fun i other hother hfetch => ?_, hafter⟩
    cases i with
    | zero =>
      cases hother
      exact congrArg some (Command.reply_eq hfetch hnow)
    | succ i => exact hreplies i other hother hfetch

/-- Leftovers cannot be observed.  A history that starts no earlier than `start`
gives the same replies with and without the slots whose deadlines have passed by
then, `fetchExpired` apart, and leaves the same live slots. -/
theorem runAll_purge (store : Store) (steps : List Step) {start final : Millis}
    (hclock : (start :: (steps.map Step.now ++ [final])).Pairwise (· ≤ ·)) :
    (∀ (i : Nat) (step : Step), steps[i]? = some step →
      (∀ instant limit, step.command ≠ .fetchExpired instant limit) →
      (runAll steps store).1[i]? = (runAll steps (store.purge start)).1[i]?) ∧
    (runAll steps store).2.live final = (runAll steps (store.purge start)).2.live final := by
  obtain ⟨hreplies, hafter⟩ := runAll_alike hclock (store.alike_purge start)
  exact ⟨hreplies, hafter.live_eq⟩

theorem runAll_purge_expired :
    let store := (Store.empty.perform 0 (.put [107] ⟨[97], 9⟩ (some 5))).2
    let step : Step := ⟨⟨⟨10000⟩, .absolute⟩, .set [107] ⟨[98], 1⟩ {} {}⟩
    (10 :: ([step].map Step.now ++ [20])).Pairwise (· ≤ ·) ∧
      (runAll [step] store).1[0]? = (runAll [step] (store.purge 10)).1[0]? ∧
      (runAll [step] store).2.live 20 = (runAll [step] (store.purge 10)).2.live 20 := by
  intro store step
  have hclock : (10 :: ([step].map Step.now ++ [20])).Pairwise (· ≤ ·) := by decide
  obtain ⟨hreplies, hlive⟩ := runAll_purge store [step] hclock
  exact ⟨hclock, hreplies 0 step rfl (by simp [step]), hlive⟩

end Keyspace
