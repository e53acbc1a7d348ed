import Keyspace.Store.Perform

/-!
# Scripts

A command is a script: it makes calls, decides on each answer what to do next,
and ends with a result or with a refusal.  A script knows nothing of the store
that answers it.  The same script runs against a store (`Script.on`) and against
a store with faults, and what it may change is read off the calls it makes.
-/

namespace Keyspace

/-- A script that ends with a result of type `α` or a refusal of type `ε`. -/
inductive Script (ε α : Type) where
  | done (result : α)
  | refuse (reason : ε)
  | call (call : Call) (next : Except Failure call.Answer → Script ε α)

namespace Script

variable {ε ε' α β σ : Type}

/-- Goes on with the result of a script. -/
def bind : Script ε α → (α → Script ε β) → Script ε β
  | done result, rest => rest result
  | refuse reason, _ => refuse reason
  | call c next, rest => call c fun answer => (next answer).bind rest

instance : Monad (Script ε) where
  pure := done
  bind := bind

/-- Makes both endings of a script its result. -/
def outcome : Script ε α → Script ε' (Except ε α)
  | done result => done (.ok result)
  | refuse reason => done (.error reason)
  | call c next => call c fun answer => (next answer).outcome

/-- Restates the refusal of a script. -/
def mapRefusal (restate : ε → ε') : Script ε α → Script ε' α
  | done result => done result
  | refuse reason => refuse (restate reason)
  | call c next => call c fun answer => (next answer).mapRefusal restate

/-- Takes a refusal as the result. -/
def settle : Script α α → Script ε α
  | done result => done result
  | refuse reason => done reason
  | call c next => call c fun answer => (next answer).settle

/-- The value, or a refusal for want of one. -/
def ofOption (reason : ε) : Option α → Script ε α
  | none => refuse reason
  | some value => done value

/-- Runs a script against whatever answers its calls. -/
def run (answer : σ → (c : Call) → Except Failure c.Answer × σ) :
    Script ε α → σ → Except ε α × σ
  | done result, state => (.ok result, state)
  | refuse reason, state => (.error reason, state)
  | call c next, state => (next (answer state c).1).run answer (answer state c).2

/-- Runs a script against a store. -/
def on (script : Script ε α) (now : Millis) (store : Store) : Except ε α × Store :=
  script.run (Store.perform now) store

/-! ## How scripts compose -/

@[simp] theorem pure_eq (result : α) : (pure result : Script ε α) = done result :=
  rfl

@[simp] theorem bind_eq (script : Script ε α) (rest : α → Script ε β) :
    script >>= rest = script.bind rest :=
  rfl

@[simp] theorem bind_done (script : Script ε α) : script.bind done = script := by
  induction script with
  | done _ => rfl
  | refuse _ => rfl
  | call c next ih => simp only [bind, ih]

theorem bind_assoc {γ : Type} (script : Script ε α) (f : α → Script ε β)
    (g : β → Script ε γ) :
    (script.bind f).bind g = script.bind fun result => (f result).bind g := by
  induction script with
  | done _ => rfl
  | refuse _ => rfl
  | call c next ih => simp only [bind, ih]

instance : LawfulMonad (Script ε) :=
  LawfulMonad.mk' (Script ε)
    (fun script => bind_done script)
    (fun _ _ => rfl)
    (fun script f g => bind_assoc script f g)

/-- A composed script runs its parts in turn; a refusal ends it. -/
theorem run_bind (answer : σ → (c : Call) → Except Failure c.Answer × σ)
    (script : Script ε α) (rest : α → Script ε β) (state : σ) :
    (script.bind rest).run answer state =
      match script.run answer state with
      | (.ok result, state) => (rest result).run answer state
      | (.error reason, state) => (.error reason, state) := by
  induction script generalizing state with
  | done _ => rfl
  | refuse _ => rfl
  | call c next ih => simp only [bind, run, ih]

end Script

/-! ## Single calls and runs of calls -/

/-- Makes one call. -/
def ask (call : Call) : Script Failure call.Answer :=
  .call call fun
    | .ok answer => .done answer
    | .error failure => .refuse failure

/-- Makes one call and reports its failure as a status. -/
def query (call : Call) : Script Status call.Answer :=
  (ask call).mapRefusal Failure.status

/-- The strings of several keys.  A key that holds another kind reads as if it
were absent. -/
def getAll (keys : List Bytes) : Script Failure (List (Option Item)) :=
  keys.mapM fun key => .call (.get key) fun
    | .ok item? => .done item?
    | .error .wrongType => .done none
    | .error failure => .refuse failure

/-- A string to be stored: its key, its item and its deadline. -/
structure Write where
  key : Bytes
  item : Item
  deadline : Option Millis
  deriving DecidableEq, Repr

/-- Stores strings in order, up to the first failure. -/
def putAll (writes : List Write) : Script Failure Unit :=
  writes.forM fun write => ask (.put write.key write.item write.deadline)

/-- Removes keys in order, up to the first failure.  The answers tell which of
them were there. -/
def deleteAll (keys : List Bytes) : Script Failure (List Bool) :=
  keys.mapM fun key => ask (.delete key)

end Keyspace
