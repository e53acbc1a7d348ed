import Keyspace.Proofs.Refusal

/-!
# Faults that do not lie

A fault either fails the calls that it strikes or answers them as if the key were
absent.  This module is about what a script learns and does in spite of faults.

* Whatever the faults are, what a script finds by reading holds of the store
  below (`Script.Finds.run_bind`).
* If no fault lies (`FaultyStore.Honest`), a script that ends with the first
  failure of a call (`Script.Strict`) runs as it would without faults or not to the
  end (`FaultyStore.Honest.on_of_run`).
-/

namespace Keyspace

namespace FaultyStore

/-- No armed fault lies: the calls that are struck fail. -/
def Honest (faulty : FaultyStore) : Prop :=
  ∀ fault ∈ faulty.faults, fault.strike ≠ .absent

end FaultyStore

/-- Faults that do not lie strike no call with a lie, and the ones that stay armed
do not lie either. -/
theorem Fault.strike_consult {faults : List Fault} (h : ∀ fault ∈ faults, fault.strike ≠ .absent)
    (method : Method) :
    (consult method faults).1 ≠ some .absent ∧
      ∀ fault ∈ (consult method faults).2, fault.strike ≠ .absent := by
  induction faults with
  | nil => exact ⟨nofun, h⟩
  | cons fault later ih =>
    obtain ⟨hfault, hlater⟩ := List.forall_mem_cons.mp h
    obtain ⟨hstrike, hkept⟩ := ih hlater
    have hstruck : some fault.strike ≠ some .absent := fun hsame => hfault (Option.some.inj hsame)
    unfold consult
    split
    · split
      · exact ⟨nofun, List.forall_mem_cons.mpr ⟨hfault, hlater⟩⟩
      · split
        · exact ⟨hstruck, hlater⟩
        · exact ⟨hstruck, List.forall_mem_cons.mpr ⟨hfault, hlater⟩⟩
    · exact ⟨hstrike, List.forall_mem_cons.mpr ⟨hfault, hkept⟩⟩

namespace Script.Finds

variable {ε α β : Type} {now : Millis} {faulty : FaultyStore} {found : α → Prop}
  {script : Script ε α}

/-- What is found in spite of faults holds of the result of a run against them. -/
theorem run {store : Store} (h : script.Finds now store found) (hstore : faulty.store = store) :
    (script.run (FaultyStore.perform now) faulty).2.store = store ∧
      ∀ result, (script.run (FaultyStore.perform now) faulty).1 = .ok result → found result := by
  induction h generalizing faulty with
  | done hresult => exact ⟨hstore, fun _ hrun => Except.ok.inj hrun ▸ hresult⟩
  | refuse reason => exact ⟨hstore, nofun⟩
  | @read c next hc _ ih =>
    have hanswers := faulty.answers now c
    rw [hstore] at hanswers
    have hsame := hanswers.of_reads hc
    rw [hsame] at hanswers
    exact ih _ hanswers hsame

/-- A script that starts by reading is refused, or goes on from the same store with
what it has found. -/
theorem run_bind {p : Except ε β × FaultyStore → Prop} {rest : α → Script ε β}
    (h : script.Finds now faulty.store found)
    (hrefused : ∀ reason after, after.store = faulty.store → p (.error reason, after))
    (hrest : ∀ result between, between.store = faulty.store → found result →
      script.run (FaultyStore.perform now) faulty = (.ok result, between) →
      p ((rest result).run (FaultyStore.perform now) between)) :
    p ((script.bind rest).run (FaultyStore.perform now) faulty) := by
  obtain ⟨hstore, hfound⟩ := h.run rfl
  rw [Script.run_bind]
  cases hrun : script.run (FaultyStore.perform now) faulty with
  | mk ending between =>
    rw [hrun] at hstore hfound
    cases ending with
    | error reason => exact hrefused reason between hstore
    | ok result => exact hrest result between hstore (hfound result rfl) hrun

end Script.Finds

namespace Script

variable {ε ε' α β ι : Type}

/-- Every failure of a call ends the script. -/
inductive Strict : Script ε α → Prop where
  | done (result : α) : Strict (done result)
  | refuse (reason : ε) : Strict (refuse reason)
  | call {c : Call} {next : Except Failure c.Answer → Script ε α}
      (hfails : ∀ failure, ∃ reason, next (.error failure) = refuse reason)
      (hnext : ∀ answer, Strict (next (.ok answer))) : Strict (call c next)

namespace Strict

theorem bind {script : Script ε α} {rest : α → Script ε β} (h : script.Strict)
    (hrest : ∀ result, (rest result).Strict) : (script.bind rest).Strict := by
  induction h with
  | done result => exact hrest result
  | refuse reason => exact .refuse reason
  | @call c next hfails _ ih =>
    refine .call (fun failure => ?_) ih
    obtain ⟨reason, hrefuse⟩ := hfails failure
    exact ⟨reason, by rw [hrefuse]; rfl⟩

theorem mapRefusal {restate : ε → ε'} {script : Script ε α} (h : script.Strict) :
    (script.mapRefusal restate).Strict := by
  induction h with
  | done result => exact .done result
  | refuse reason => exact .refuse _
  | @call c next hfails _ ih =>
    refine .call (fun failure => ?_) ih
    obtain ⟨reason, hrefuse⟩ := hfails failure
    exact ⟨restate reason, by rw [hrefuse]; rfl⟩

theorem ask (c : Call) : (ask c).Strict :=
  .call (fun failure => ⟨failure, rfl⟩) fun answer => .done answer

theorem query (c : Call) : (query c).Strict :=
  (ask c).mapRefusal

theorem mapM {step : ι → Script ε α} (h : ∀ item, (step item).Strict) (items : List ι) :
    (items.mapM step).Strict := by
  induction items with
  | nil => exact .done []
  | cons item rest ih =>
    rw [List.mapM_cons]
    exact (h item).bind fun result => ih.bind fun results => .done _

theorem forM {step : ι → Script ε PUnit} (h : ∀ item, (step item).Strict) (items : List ι) :
    (items.forM step).Strict := by
  induction items with
  | nil => exact .done ()
  | cons item rest ih =>
    change Script.Strict ((step item).bind fun _ => rest.forM step)
    exact (h item).bind fun _ => ih

end Strict

end Script

namespace FaultyStore.Honest

variable {now : Millis} {faulty : FaultyStore} {ε α : Type}

/-- A call to an honest store passes or fails. -/
theorem perform (h : faulty.Honest) (now : Millis) (c : Call) :
    (faulty.perform now c).2.Honest ∧
      ((faulty.perform now c).1 = (faulty.store.perform now c).1 ∧
          (faulty.perform now c).2.store = (faulty.store.perform now c).2 ∨
        ∃ failure, (faulty.perform now c).1 = .error failure ∧
          (faulty.perform now c).2.store = faulty.store) := by
  obtain ⟨hstrike, hkept⟩ := Fault.strike_consult h c.method
  unfold FaultyStore.perform
  split
  · rename_i faults hconsult
    rw [hconsult] at hkept
    exact ⟨hkept, .inl ⟨rfl, rfl⟩⟩
  · rename_i failure faults hconsult
    rw [hconsult] at hkept
    exact ⟨hkept, .inr ⟨failure, rfl, rfl⟩⟩
  · rename_i faults hconsult
    rw [hconsult] at hstrike
    exact absurd rfl hstrike

/-- A store stays honest, whatever runs. -/
theorem run (h : faulty.Honest) (now : Millis) (script : Script ε α) :
    (script.run (FaultyStore.perform now) faulty).2.Honest := by
  induction script generalizing faulty with
  | done result => exact h
  | refuse reason => exact h
  | call c next ih => exact ih _ (h.perform now c).1

/-- The record that is asked of an honest store is the true one, unless there is
none. -/
theorem run_query_record (h : faulty.Honest) (now : Millis) (key : Bytes) :
    ∃ (answer : Except Failure (Option Record)) (after : FaultyStore),
      (query (.record key)).run (FaultyStore.perform now) faulty =
        (answer.mapError Failure.status, after) ∧
      (after.Honest ∧ after.store = faulty.store) ∧
      ∀ found, answer = .ok found → faulty.store.record now key = .ok found := by
  obtain ⟨hafter, hcases⟩ := h.perform now (.record key)
  refine ⟨_, _, Script.run_query _ _ _, ⟨hafter, ?_⟩, ?_⟩
  · exact (faulty.answers now (.record key)).of_reads rfl
  · intro found hfound
    rcases hcases with ⟨hanswer, _⟩ | ⟨failure, hanswer, _⟩
    · exact hanswer.symm.trans hfound
    · rw [hanswer] at hfound
      cases hfound

/-- A strict script that comes to a result on an honest store runs as it would
without faults. -/
theorem on_of_run (h : faulty.Honest) {script : Script ε α} (hstrict : script.Strict)
    {result : α} {after : FaultyStore}
    (hrun : script.run (FaultyStore.perform now) faulty = (.ok result, after)) :
    script.on now faulty.store = (.ok result, after.store) := by
  induction hstrict generalizing faulty with
  | done value =>
    cases hrun
    rfl
  | refuse reason => cases hrun
  | @call c next hfails _ ih =>
    obtain ⟨hafter, hcases⟩ := h.perform now c
    rw [Script.run] at hrun
    cases hanswer : (faulty.perform now c).1 with
    | error failure =>
      obtain ⟨reason, hrefuse⟩ := hfails failure
      rw [hanswer, hrefuse] at hrun
      cases hrun
    | ok answer =>
      rw [hanswer] at hrun hcases
      rcases hcases with ⟨hpassed, hstore⟩ | ⟨failure, hstruck, _⟩
      · rw [Script.on_call, ← hpassed, ← hstore]
        exact ih answer hafter hrun
      · cases hstruck

end FaultyStore.Honest

end Keyspace
