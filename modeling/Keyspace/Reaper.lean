import Keyspace.Keys

/-!
# The reaper

Keys whose deadline has passed are out of sight but still kept.  The reaper
takes them out of the store in rounds.  A round mints a version, fetches a batch
of such keys and deletes them at that version, so that a key written anew in
between carries a newer version and survives.
-/

namespace Keyspace.Reaper

/-- One round at a minted version: fetches at most `limit` keys, deletes them
and answers with their number. -/
def round (version : Version) (instant : Millis) (limit : Nat) : Script Status Nat := do
  let keys ← (Keys.expired instant limit).mapRefusal Failure.status
  if keys.isEmpty then return 0
  else
    discard (Keys.delete keys (keys.map fun _ => version) {})
    return keys.length

/-- What a round leaves behind. -/
structure Round where
  /-- The number of keys that the round fetched. -/
  fetched : Nat
  /-- The version that the round minted. -/
  minted : Version
  store : Store

/-- Runs one round.  A failure to fetch counts as having fetched nothing. -/
def runRound (clock : Clock) (limit : Nat) (minted : Version) (store : Store) : Round :=
  let version := clock.mint minted
  match (round version clock.millis limit).on clock.millis store with
  | (.ok fetched, store) => ⟨fetched, version, store⟩
  | (.error _, store) => ⟨0, version, store⟩

/-- Runs rounds until one fetches nothing, at most `rounds` of them. -/
def runRounds (clock : Clock) (limit : Nat) :
    Nat → Version → Store → Version × Store
  | 0, minted, store => (minted, store)
  | rounds + 1, minted, store =>
    let last := runRound clock limit minted store
    if last.fetched = 0 then (last.minted, last.store)
    else runRounds clock limit rounds last.minted last.store

/-- Runs rounds until one fetches nothing.  Every round before it deletes at
least one key that has a deadline, so there are no more rounds than deadlines
and the last one. -/
def drain (clock : Clock) (limit : Nat) (minted : Version) (store : Store) :
    Version × Store :=
  runRounds clock limit (store.agenda.size + 1) minted store

end Keyspace.Reaper
