import Keyspace.Admission
import Keyspace.Proofs.Effect

/-!
# Runs of scripts

Two ways to reason about the run of a script.

* By its steps: `on_bind` and the lemmas around it run a composed script part
  by part.  The ones whose names start with `run` hold whoever answers.
* By its calls: `Calls P` says that whatever the answers are, the script makes
  only calls of which `P` holds.  An invariant that all those calls keep is kept
  by the run (`Calls.preserves`), and calls that only read leave the store as it
  is (`Calls.unchanged`).
-/

namespace Keyspace

namespace Script

variable {ε ε' α β ι σ : Type} {P Q : Call → Prop} {now : Millis} {store : Store}

/-! ## Steps -/

@[simp] theorem discard_eq (script : Script ε α) :
    discard script = script.bind fun _ => done () := rfl

@[simp] theorem on_done (result : α) :
    (done result : Script ε α).on now store = (.ok result, store) := rfl

@[simp] theorem on_refuse (reason : ε) :
    (refuse reason : Script ε α).on now store = (.error reason, store) := rfl

theorem on_call (c : Call) (next : Except Failure c.Answer → Script ε α) :
    (call c next).on now store =
      (next (store.perform now c).1).on now (store.perform now c).2 := rfl

/-- A composed script runs its parts in turn; a refusal ends it. -/
theorem on_bind (script : Script ε α) (rest : α → Script ε β) :
    (script.bind rest).on now store =
      match script.on now store with
      | (.ok result, store) => (rest result).on now store
      | (.error reason, store) => (.error reason, store) := by
  simp only [on, run_bind]
  rcases script.run (Store.perform now) store with ⟨_ | _, _⟩ <;> rfl

theorem on_bind_ok {script : Script ε α} {result : α} {after : Store}
    (h : script.on now store = (.ok result, after)) (rest : α → Script ε β) :
    (script.bind rest).on now store = (rest result).on now after := by
  rw [on_bind, h]

theorem on_bind_error {script : Script ε α} {reason : ε} {after : Store}
    (h : script.on now store = (.error reason, after)) (rest : α → Script ε β) :
    (script.bind rest).on now store = (.error reason, after) := by
  rw [on_bind, h]

/-- A composed script that succeeds does so part by part. -/
theorem on_bind_eq_ok {script : Script ε α} {rest : α → Script ε β} {result : β}
    {after : Store} (h : (script.bind rest).on now store = (.ok result, after)) :
    ∃ value between, script.on now store = (.ok value, between) ∧
      (rest value).on now between = (.ok result, after) := by
  rw [on_bind] at h
  split at h
  · rename_i value between hscript
    exact ⟨value, between, hscript, h⟩
  · cases h

/-- What is done with the result of a script changes nothing. -/
theorem snd_on_map (script : Script ε α) (f : α → β) :
    ((script.bind fun result => done (f result)).on now store).2 = (script.on now store).2 := by
  rw [on_bind]
  rcases script.on now store with ⟨_ | _, _⟩ <;> rfl

section Answerer

variable (answer : σ → (c : Call) → Except Failure c.Answer × σ) (state : σ)

theorem run_outcome (script : Script ε α) :
    (script.outcome : Script ε' (Except ε α)).run answer state =
      (.ok (script.run answer state).1, (script.run answer state).2) := by
  induction script generalizing state with
  | done _ => rfl
  | refuse _ => rfl
  | call c next ih => exact ih _ _

theorem run_mapRefusal (restate : ε → ε') (script : Script ε α) :
    (script.mapRefusal restate).run answer state =
      ((script.run answer state).1.mapError restate, (script.run answer state).2) := by
  induction script generalizing state with
  | done _ => rfl
  | refuse _ => rfl
  | call c next ih => exact ih _ _

theorem run_settle (script : Script α α) :
    (script.settle : Script ε α).run answer state =
      (.ok (match (script.run answer state).1 with
        | .ok result => result
        | .error reason => reason), (script.run answer state).2) := by
  induction script generalizing state with
  | done _ => rfl
  | refuse _ => rfl
  | call c next ih => exact ih _ _

theorem run_ask (c : Call) : (ask c).run answer state = answer state c := by
  rw [ask, run]
  rcases answer state c with ⟨_ | _, after⟩ <;> rfl

theorem run_query (c : Call) :
    (query c).run answer state =
      ((answer state c).1.mapError Failure.status, (answer state c).2) := by
  rw [query, run_mapRefusal, run_ask]

theorem run_discard_ask (c : Call) :
    (discard (ask c) : Script Failure Unit).run answer state =
      ((answer state c).1.map fun _ => (), (answer state c).2) := by
  rw [discard_eq, run_bind, run_ask]
  rcases answer state c with ⟨_ | _, after⟩ <;> rfl

/-- A loop whose steps cannot be refused gives one result for each item.  What the
steps keep is kept, and what a step says of its result is true of it. -/
theorem run_mapM {step : ι → Script ε α} {inv : σ → Prop} {R : ι → α → Prop}
    (hstep : ∀ item state, inv state → ∃ result after,
      (step item).run answer state = (.ok result, after) ∧ inv after ∧ R item result)
    (items : List ι) {state : σ} (h : inv state) :
    ∃ results after, (items.mapM step).run answer state = (.ok results, after) ∧ inv after ∧
      results.length = items.length ∧
      ∀ item result, (item, result) ∈ items.zip results → R item result := by
  induction items generalizing state with
  | nil => exact ⟨[], state, rfl, h, rfl, nofun⟩
  | cons item rest ih =>
    obtain ⟨result, between, hfirst, hbetween, hresult⟩ := hstep item state h
    obtain ⟨results, after, hrest, hafter, hlength, hresults⟩ := ih hbetween
    refine ⟨result :: results, after, ?_, hafter, congrArg (· + 1) hlength, ?_⟩
    · rw [List.mapM_cons, bind_eq, run_bind, hfirst]
      dsimp only
      rw [bind_eq, run_bind, hrest]
      rfl
    · intro other found hmem
      rcases List.mem_cons.mp hmem with hsame | hmem
      · cases hsame
        exact hresult
      · exact hresults other found hmem

end Answerer

@[simp] theorem on_outcome (script : Script ε α) :
    (script.outcome : Script ε' (Except ε α)).on now store =
      (.ok (script.on now store).1, (script.on now store).2) :=
  run_outcome _ _ script

@[simp] theorem on_mapRefusal (restate : ε → ε') (script : Script ε α) :
    (script.mapRefusal restate).on now store =
      ((script.on now store).1.mapError restate, (script.on now store).2) :=
  run_mapRefusal _ _ restate script

@[simp] theorem on_settle (script : Script α α) :
    (script.settle : Script ε α).on now store =
      (.ok (match (script.on now store).1 with
        | .ok result => result
        | .error reason => reason), (script.on now store).2) :=
  run_settle _ _ script

@[simp] theorem on_ask (c : Call) :
    (ask c).on now store = store.perform now c :=
  run_ask _ _ c

@[simp] theorem on_query (c : Call) :
    (query c).on now store =
      ((store.perform now c).1.mapError Failure.status, (store.perform now c).2) :=
  run_query _ _ c

theorem on_query_ok {c : Call} {answer : c.Answer} {after : Store}
    (h : store.perform now c = (.ok answer, after)) :
    (query c).on now store = (.ok answer, after) := by
  rw [on_query, h]
  rfl

/-- A call that a script has come past has succeeded. -/
theorem on_query_eq_ok {c : Call} {answer : c.Answer} {after : Store}
    (h : (query c).on now store = (.ok answer, after)) :
    store.perform now c = (.ok answer, after) := by
  rw [on_query] at h
  cases hperform : store.perform now c with
  | mk result between =>
    rw [hperform] at h
    cases result with
    | error failure => cases h
    | ok result =>
      cases h
      rfl

/-- A loop whose steps change nothing collects their results. -/
theorem on_mapM_eq_map {step : ι → Script ε α} {f : ι → α}
    (hstep : ∀ item, (step item).on now store = (.ok (f item), store)) (items : List ι) :
    (items.mapM step).on now store = (.ok (items.map f), store) := by
  induction items with
  | nil => rfl
  | cons item rest ih =>
    rw [List.mapM_cons, bind_eq, on_bind_ok (hstep item), bind_eq, on_bind_ok ih]
    rfl

/-- A loop whose steps cannot be refused cannot be refused. -/
theorem on_mapM_total {step : ι → Script ε α}
    (hstep : ∀ item store, ∃ result after, (step item).on now store = (.ok result, after))
    (items : List ι) (store : Store) :
    ∃ results after, (items.mapM step).on now store = (.ok results, after) := by
  induction items generalizing store with
  | nil => exact ⟨[], store, rfl⟩
  | cons item rest ih =>
    obtain ⟨result, between, hfirst⟩ := hstep item store
    obtain ⟨results, after, hrest⟩ := ih between
    refine ⟨result :: results, after, ?_⟩
    rw [List.mapM_cons, bind_eq, on_bind_ok hfirst, bind_eq, on_bind_ok hrest]
    rfl

/-- What every step of a loop keeps is kept by the loop. -/
theorem on_mapM_keeps {step : ι → Script ε α} {items : List ι} (inv : Store → Prop)
    (hkeep : ∀ item ∈ items, ∀ before, inv before → inv ((step item).on now before).2)
    (h : inv store) : inv ((items.mapM step).on now store).2 := by
  induction items generalizing store with
  | nil => exact h
  | cons item rest ih =>
    have hitem := hkeep item List.mem_cons_self store h
    rw [List.mapM_cons, bind_eq, on_bind]
    split
    · rename_i result between hrun
      rw [hrun] at hitem
      have hrest := ih (fun other hother => hkeep other (List.mem_cons_of_mem item hother)) hitem
      rw [bind_eq, on_bind]
      split
      · rename_i results after hrun
        rw [hrun] at hrest
        exact hrest
      · rename_i reason after hrun
        rw [hrun] at hrest
        exact hrest
    · rename_i reason between hrun
      rw [hrun] at hitem
      exact hitem

/-- What a step of a loop brings about is there at the end if every other step
keeps it. -/
theorem on_mapM_eq_ok {step : ι → Script ε α} {items : List ι} {results : List α}
    {after : Store} {inv : ι → Store → Prop} {finished : α → Prop}
    (hstep : ∀ item ∈ items, ∀ before result between,
      (step item).on now before = (.ok result, between) → finished result → inv item between)
    (hkeep : ∀ item ∈ items, ∀ other ∈ items, ∀ before,
      inv item before → inv item ((step other).on now before).2)
    (h : (items.mapM step).on now store = (.ok results, after)) :
    ∀ pair ∈ items.zip results, finished pair.2 → inv pair.1 after := by
  induction items generalizing store results with
  | nil =>
    intro pair hpair
    rw [List.zip_nil_left] at hpair
    cases hpair
  | cons item rest ih =>
    rw [List.mapM_cons] at h
    obtain ⟨result, between, hfirst, h⟩ := on_bind_eq_ok h
    obtain ⟨others, final, hrest, h⟩ := on_bind_eq_ok h
    cases h
    intro pair hpair hfinished
    rw [List.zip_cons_cons, List.mem_cons] at hpair
    rcases hpair with rfl | hpair
    · have hinv := hstep item List.mem_cons_self store result between hfirst hfinished
      have hkept : inv item ((rest.mapM step).on now between).2 :=
        on_mapM_keeps (inv item) (fun other hother => hkeep item List.mem_cons_self other
          (List.mem_cons_of_mem item hother)) hinv
      rw [hrest] at hkept
      exact hkept
    · refine ih (fun other hother => hstep other (List.mem_cons_of_mem item hother))
        (fun other hother another hanother => hkeep other (List.mem_cons_of_mem item hother)
          another (List.mem_cons_of_mem item hanother)) hrest pair hpair hfinished

/-! ## Calls -/

/-- Whatever the answers are, the script makes only calls of which `P` holds. -/
inductive Calls (P : Call → Prop) : Script ε α → Prop where
  | done (result : α) : Calls P (done result)
  | refuse (reason : ε) : Calls P (refuse reason)
  | call {c : Call} {next : Except Failure c.Answer → Script ε α} (hcall : P c)
      (hnext : ∀ answer, Calls P (next answer)) : Calls P (call c next)

namespace Calls

theorem mono {script : Script ε α} (hcalls : script.Calls P) (h : ∀ c, P c → Q c) :
    script.Calls Q := by
  induction hcalls with
  | done result => exact .done result
  | refuse reason => exact .refuse reason
  | call hcall _ ih => exact .call (h _ hcall) ih

theorem bind {script : Script ε α} {rest : α → Script ε β} (hscript : script.Calls P)
    (hrest : ∀ result, (rest result).Calls P) : (script.bind rest).Calls P := by
  induction hscript with
  | done result => exact hrest result
  | refuse reason => exact .refuse reason
  | call hcall _ ih => exact .call hcall ih

theorem outcome {script : Script ε α} (h : script.Calls P) :
    (script.outcome : Script ε' (Except ε α)).Calls P := by
  induction h with
  | done result => exact .done _
  | refuse reason => exact .done _
  | call hcall _ ih => exact .call hcall ih

theorem mapRefusal {restate : ε → ε'} {script : Script ε α} (h : script.Calls P) :
    (script.mapRefusal restate).Calls P := by
  induction h with
  | done result => exact .done result
  | refuse reason => exact .refuse _
  | call hcall _ ih => exact .call hcall ih

theorem settle {script : Script α α} (h : script.Calls P) :
    (script.settle : Script ε α).Calls P := by
  induction h with
  | done result => exact .done result
  | refuse reason => exact .done reason
  | call hcall _ ih => exact .call hcall ih

/-- A result that is dropped takes no call with it. -/
theorem discard {script : Script ε α} (h : script.Calls P) :
    (Functor.discard script).Calls P :=
  bind h fun _ => .done ()

theorem ofOption {reason : ε} (value? : Option α) :
    (Script.ofOption reason value?).Calls P := by
  cases value? <;> constructor

theorem ask {c : Call} (h : P c) : (ask c).Calls P := by
  refine .call h fun answer => ?_
  cases answer <;> constructor

theorem query {c : Call} (h : P c) : (query c).Calls P :=
  mapRefusal (ask h)

theorem mapM {step : ι → Script ε α} {items : List ι}
    (h : ∀ item ∈ items, (step item).Calls P) : (items.mapM step).Calls P := by
  induction items with
  | nil => exact .done []
  | cons item rest ih =>
    rw [List.mapM_cons]
    refine bind (h item List.mem_cons_self) fun result => ?_
    refine bind (ih fun other hother => h other (List.mem_cons_of_mem item hother)) ?_
    exact fun results => .done _

theorem forM {step : ι → Script ε PUnit} {items : List ι}
    (h : ∀ item ∈ items, (step item).Calls P) : (items.forM step).Calls P := by
  induction items with
  | nil => exact .done ()
  | cons item rest ih =>
    change Script.Calls P ((step item).bind fun _ => rest.forM step)
    refine bind (h item List.mem_cons_self) fun _ => ?_
    exact ih fun other hother => h other (List.mem_cons_of_mem item hother)

/-- An invariant that every call keeps is kept by the run, whoever answers. -/
theorem preserves {answer : σ → (c : Call) → Except Failure c.Answer × σ}
    {inv : σ → Prop} (hstep : ∀ c, P c → ∀ state, inv state → inv (answer state c).2)
    {script : Script ε α} (hcalls : script.Calls P) {state : σ} (h : inv state) :
    inv (script.run answer state).2 := by
  induction hcalls generalizing state with
  | done _ => exact h
  | refuse _ => exact h
  | call hcall _ ih => exact ih _ (hstep _ hcall state h)

/-- As `preserves`, for the run against a store. -/
theorem preserves_on {inv : Store → Prop}
    (hstep : ∀ c, P c → ∀ store, inv store → inv (store.perform now c).2)
    {script : Script ε α} (hcalls : script.Calls P) (h : inv store) :
    inv (script.on now store).2 :=
  preserves hstep hcalls h

/-- A script that does not close the store leaves it as open or closed as it was. -/
theorem closed_on {script : Script ε α} (hcalls : script.Calls (· ≠ .close)) (now : Millis)
    (store : Store) : (script.on now store).2.closed = store.closed := by
  have hstep : ∀ c : Call, c ≠ .close → ∀ other : Store, other.closed = store.closed →
      (other.perform now c).2.closed = store.closed :=
    fun c hc other hother => (Store.closed_perform hc).trans hother
  exact preserves_on hstep hcalls rfl

/-- A script that only reads leaves the store as it is. -/
theorem unchanged {script : Script ε α} (hcalls : script.Calls fun c => c.reads = true)
    (now : Millis) (store : Store) : (script.on now store).2 = store := by
  have hstep : ∀ c : Call, c.reads = true → ∀ other, other = store →
      (other.perform now c).2 = store := by
    rintro c hc other rfl
    exact Store.perform_of_reads hc
  exact preserves_on hstep hcalls rfl

/-- A script that starts by reading and succeeds goes on from the same store. -/
theorem on_bind_eq_ok {script : Script ε α} {rest : α → Script ε β} {result : β} {after : Store}
    (hcalls : script.Calls fun c => c.reads = true)
    (h : (script.bind rest).on now store = (.ok result, after)) :
    ∃ value, script.on now store = (.ok value, store) ∧
      (rest value).on now store = (.ok result, after) := by
  obtain ⟨value, between, hscript, hrest⟩ := Script.on_bind_eq_ok h
  have hsame := hcalls.unchanged now store
  rw [hscript] at hsame
  cases hsame
  exact ⟨value, hscript, hrest⟩

end Calls

end Script

end Keyspace
