import Keyspace.Proofs.Footprint

/-!
# Histories

A step is a command together with the circumstances under which it runs, and a
history is a list of steps.  `runAll` runs a history and collects the replies.

`Store.Reachable` holds of the stores that calls can lead to from the empty one.
Whatever every call keeps is true of all of them, and no command leads out of
them (`Store.Reachable.run`).
-/

namespace Keyspace

/-- A command and the circumstances under which it runs. -/
structure Step where
  context : Context
  command : Command

namespace Step

/-- The reading of the clock in milliseconds. -/
def now (step : Step) : Millis :=
  step.context.now

/-- Runs one step. -/
def run (step : Step) (store : Store) : Reply × Store :=
  step.command.run step.context store

end Step

/-- Runs commands one after the other. -/
def runAll : List Step → Store → List Reply × Store
  | [], store => ([], store)
  | step :: rest, store =>
    let (reply, store) := step.run store
    let (replies, store) := runAll rest store
    (reply :: replies, store)

@[simp] theorem runAll_cons (step : Step) (rest : List Step) (store : Store) :
    runAll (step :: rest) store =
      ((step.run store).1 :: (runAll rest (step.run store).2).1,
        (runAll rest (step.run store).2).2) := rfl

/-- The reply to a step is what it replies on the store that the steps before it leave. -/
theorem getElem?_fst_runAll (steps : List Step) (store : Store) (i : Nat) :
    (runAll steps store).1[i]? =
      steps[i]?.map fun step => (step.run (runAll (steps.take i) store).2).1 := by
  induction steps generalizing store i with
  | nil => rfl
  | cons step rest ih =>
    cases i with
    | zero => rfl
    | succ i => exact ih _ i

/-- A closed store stays as it is, whatever runs. -/
theorem runAll_closed {store : Store} (hclosed : store.closed = true) (steps : List Step) :
    (runAll steps store).2 = store := by
  induction steps with
  | nil => rfl
  | cons step rest ih =>
    have hstep : ∀ c : Call, True → ∀ other, other = store →
        (other.perform step.context.now c).2 = store := by
      rintro c _ other rfl
      exact Store.perform_closed hclosed c
    have hcalls : (step.command.script step.context).Calls fun _ => True :=
      (Command.script_calls step.context step.command).mono fun _ _ => trivial
    have hrun : (step.run store).2 = store := by
      rw [Step.run, Command.run_eq]
      exact hcalls.preserves_on hstep rfl
    rw [runAll_cons, hrun]
    exact ih

namespace Store

/-- The stores that calls can lead to from the empty one. -/
inductive Reachable : Store → Prop where
  | empty : Reachable empty
  | perform {store : Store} (h : Reachable store) (now : Millis) (c : Call) :
    Reachable (store.perform now c).2

namespace Reachable

variable {store : Store}

/-- Whatever every call keeps is true of every reachable store. -/
theorem induct {inv : Store → Prop} (hempty : inv Store.empty)
    (hstep : ∀ now (c : Call) (store : Store), inv store → inv (store.perform now c).2)
    (h : Reachable store) : inv store := by
  induction h with
  | empty => exact hempty
  | perform _ now c ih => exact hstep now c _ ih

theorem run (h : Reachable store) (context : Context) (command : Command) :
    Reachable (command.run context store).2 :=
  Script.Calls.preserves_on (fun c _ _ hstore => hstore.perform context.now c)
    (Command.script_calls context command) h

theorem runAll (h : Reachable store) (steps : List Step) :
    Reachable (Keyspace.runAll steps store).2 := by
  induction steps generalizing store with
  | nil => exact h
  | cons step rest ih => exact ih (h.run step.context step.command)

end Reachable

end Store

end Keyspace
