import Keyspace.Hashes
import Keyspace.Keys
import Keyspace.Rankings
import Keyspace.Sets
import Keyspace.Store.Fault

/-!
# Commands

The commands of the store as data, with the script of each (`Command.script`),
the keys that it names (`Command.keys`) and the reply that a caller gets
(`Command.run`).  A reply is a status and some data.  A command that is refused
replies with the status of the refusal and with data of the usual shape that
says nothing (`Command.blank`): empty, zero, or the same status for every item.
-/

namespace Keyspace

/-- A member of a sorted set in a reply, with its score if that was asked for. -/
structure Placed where
  member : Bytes
  version : Version
  score : Option Int64
  deriving DecidableEq, Repr

/-- What a reply shows of a member. -/
def Ranked.place (withScores : Bool) (entry : Ranked) : Placed :=
  ⟨entry.member, entry.version, if withScores then some entry.score else none⟩

/-- What comes with a status in a reply. -/
inductive Data where
  | nothing
  | item (item : Item)
  | items (items : List Item)
  | statuses (statuses : List Status)
  | fieldStatuses (statuses : List (Bytes × Status))
  | number (value : Int64)
  | count (value : Nat)
  | fields (fields : List (Bytes × Item))
  | names (names : List Bytes)
  | placed (members : List Placed)
  | kind (kind : Option Kind)
  | version (version : Version)
  | failure (failure : Failure)
  deriving DecidableEq, Repr

/-- The reply to a command. -/
structure Reply where
  status : Status
  data : Data
  deriving DecidableEq, Repr

/-- A command. -/
inductive Command where
  -- strings
  | get (key : Bytes)
  | getSet (key : Bytes) (item : Item) (terms : Terms)
  | set (key : Bytes) (item : Item) (terms : Terms) (mode : WriteMode)
  | setEx (key : Bytes) (item : Item) (seconds : Nat)
  | setWith (key : Bytes) (item : Item) (terms : Terms) (tokens : List String)
  | incrBy (key : Bytes) (version : Version) (delta : Int64) (terms : Terms)
  | decrBy (key : Bytes) (version : Version) (delta : Int64) (terms : Terms)
  | mset (items : List (Bytes × Item)) (terms : Terms) (mode : WriteMode)
  | mget (keys : List Bytes)
  -- hashes
  | hset (key field : Bytes) (item : Item) (terms : Terms)
  | hget (key field : Bytes)
  | hmset (key : Bytes) (values : List (Bytes × Item)) (terms : Terms)
  | hmget (key : Bytes) (fields : List Bytes)
  | hdel (key : Bytes) (fields : List (Bytes × Version)) (terms : Terms)
  | hincrBy (key field : Bytes) (version : Version) (delta : Int64) (terms : Terms)
  | hexists (key field : Bytes)
  | hlen (key : Bytes)
  | hgetall (key : Bytes)
  | hkeys (key : Bytes)
  | hvals (key : Bytes)
  -- sets
  | sadd (key : Bytes) (members : List Item) (terms : Terms)
  | srem (key : Bytes) (members : List Item) (terms : Terms)
  | spop (key : Bytes) (version : Version) (terms : Terms)
  | smembers (key : Bytes)
  | scard (key : Bytes)
  | sismember (key member : Bytes)
  -- sorted sets
  | zadd (key : Bytes) (items : List Scored) (terms : Terms)
  | zrem (key : Bytes) (members : List Item) (terms : Terms)
  | zincrBy (key member : Bytes) (version : Version) (delta : Int64) (terms : Terms)
  | zcard (key : Bytes)
  | zscore (key member : Bytes)
  | zcount (key : Bytes) (min max : String)
  | zrange (key : Bytes) (start stop : Int) (withScores reverse : Bool)
  | zrangeByScore (key : Bytes) (min max : String) (withScores reverse : Bool)
  | zremRangeByScore (key : Bytes) (min max : String) (version : Version) (terms : Terms)
  | zremRangeByRank (key : Bytes) (start stop : Int) (version : Version) (terms : Terms)
  | zrank (key member : Bytes) (reverse : Bool)
  -- keys
  | del (keys : List Bytes) (versions : List Version) (terms : Terms)
  | expire (key : Bytes) (ttl : Nat) (unit : TtlUnit) (version : Version)
  | persist (key : Bytes) (version : Version)
  | keyExists (key : Bytes)
  | ttl (key : Bytes)
  | pttl (key : Bytes)
  | keyType (key : Bytes)
  | keyVersion (key : Bytes)
  | rename (source target : Bytes) (version : Version) (onlyIfAbsent : Bool)
  -- administration
  | finalize
  | fetchExpired (instant : Millis) (limit : Nat)

namespace Command

/-- Counts up by one. -/
def incr (key : Bytes) (version : Version) (terms : Terms) : Command :=
  incrBy key version 1 terms

/-- Counts down by one. -/
def decr (key : Bytes) (version : Version) (terms : Terms) : Command :=
  incrBy key version (-1) terms

/-- The keys that a command names, in the order of its arguments. -/
def keys : Command → List Bytes
  | get key => [key]
  | getSet key .. => [key]
  | set key .. => [key]
  | setEx key .. => [key]
  | setWith key .. => [key]
  | incrBy key .. => [key]
  | decrBy key .. => [key]
  | mset items .. => items.map Prod.fst
  | mget keys => keys
  | hset key .. => [key]
  | hget key _ => [key]
  | hmset key .. => [key]
  | hmget key _ => [key]
  | hdel key .. => [key]
  | hincrBy key .. => [key]
  | hexists key _ => [key]
  | hlen key => [key]
  | hgetall key => [key]
  | hkeys key => [key]
  | hvals key => [key]
  | sadd key .. => [key]
  | srem key .. => [key]
  | spop key .. => [key]
  | smembers key => [key]
  | scard key => [key]
  | sismember key _ => [key]
  | zadd key .. => [key]
  | zrem key .. => [key]
  | zincrBy key .. => [key]
  | zcard key => [key]
  | zscore key _ => [key]
  | zcount key .. => [key]
  | zrange key .. => [key]
  | zrangeByScore key .. => [key]
  | zremRangeByScore key .. => [key]
  | zremRangeByRank key .. => [key]
  | zrank key .. => [key]
  | del keys .. => keys
  | expire key .. => [key]
  | persist key _ => [key]
  | keyExists key => [key]
  | ttl key => [key]
  | pttl key => [key]
  | keyType key => [key]
  | keyVersion key => [key]
  | rename source target .. => [source, target]
  | finalize => []
  | fetchExpired .. => []

/-- A successful reply with the result of a script as its data. -/
def reply {α : Type} (script : Script Status α) (data : α → Data) : Script Status Reply := do
  return ⟨.ok, data (← script)⟩

/-- The script of a command. -/
def script (context : Context) : Command → Script Status Reply
  | get key => reply (Strings.get key) .item
  | getSet key item terms => reply (Strings.exchange key item terms) .item
  | set key item terms mode => reply (Strings.set key item terms mode) fun _ => .nothing
  | setEx key item seconds => reply (Strings.setFor context key item seconds) fun _ => .nothing
  | setWith key item terms tokens =>
    reply (Strings.setWith context key item terms tokens) fun _ => .nothing
  | incrBy key version delta terms => reply (Strings.add key version delta terms) .number
  | decrBy key version delta terms => reply (Strings.subtract key version delta terms) .number
  | mset items terms mode => reply (Strings.setMany items terms mode) .statuses
  | mget keys => reply (Strings.getMany keys) .items
  | hset key field item terms => reply (Hashes.put key field item terms) fun _ => .nothing
  | hget key field => reply (Hashes.get key field) .item
  | hmset key values terms => reply (Hashes.putMany key values terms) .fieldStatuses
  | hmget key fields => do
    requireSome fields
    discard (requireKind key .hash)
    match ← (Hashes.getMany key fields).outcome with
    | .ok items => return ⟨.ok, .items items⟩
    | .error status => return ⟨status, .items []⟩
  | hdel key fields terms => reply (Hashes.dropMany key fields terms) .fieldStatuses
  | hincrBy key field version delta terms =>
    reply (Hashes.add key field version delta terms) .number
  | hexists key field => reply (Hashes.get key field) fun _ => .nothing
  | hlen key => reply (Hashes.size key) .count
  | hgetall key => reply (Hashes.toList key) .fields
  | hkeys key => reply (Hashes.toList key) fun fields => .names (fields.map Prod.fst)
  | hvals key => reply (Hashes.toList key) fun fields => .names (fields.map (·.2.value))
  | sadd key members terms => reply (Sets.addMany key members terms) .statuses
  | srem key members terms => reply (Sets.dropMany key members terms) .statuses
  | spop key version terms => reply (Sets.pop context key version terms) .item
  | smembers key => reply (Sets.toList key) .items
  | scard key => reply (Sets.size key) .count
  | sismember key member => reply (Sets.contains key member) fun _ => .nothing
  | zadd key items terms => reply (Rankings.addMany key items terms) .statuses
  | zrem key members terms => reply (Rankings.dropMany key members terms) .statuses
  | zincrBy key member version delta terms =>
    reply (Rankings.add key member version delta terms) .number
  | zcard key => reply (Rankings.size key) .count
  | zscore key member => reply (Rankings.score key member) .number
  | zcount key min max => reply (Rankings.count key min max) .count
  | zrange key start stop withScores reverse =>
    reply (Rankings.byRank key start stop reverse) fun entries =>
      .placed (entries.map (·.place withScores))
  | zrangeByScore key min max withScores reverse =>
    reply (Rankings.byScore key min max reverse) fun entries =>
      .placed (entries.map (·.place withScores))
  | zremRangeByScore key min max version terms =>
    reply (Rankings.dropByScore key min max version terms) .count
  | zremRangeByRank key start stop version terms => do
    let (status, removed) ← Rankings.dropByRank key start stop version terms
    return ⟨status, .count removed⟩
  | zrank key member reverse => reply (Rankings.rank key member reverse) .count
  | del keys versions terms => reply (Keys.delete keys versions terms) .statuses
  | expire key amount unit version =>
    reply (Keys.expire context key amount unit version) fun _ => .nothing
  | persist key version => reply (Keys.persist key version) fun _ => .nothing
  | keyExists key => reply (Keys.present key) fun _ => .nothing
  | ttl key => reply (Keys.secondsLeft context key) .count
  | pttl key => reply (Keys.millisLeft context key) .count
  | keyType key => reply (Keys.kind key) fun kind => .kind (some kind)
  | keyVersion key => reply (Keys.version key) .version
  | rename source target version onlyIfAbsent =>
    reply (Keys.rename source target version onlyIfAbsent) fun _ => .nothing
  | finalize => reply Keys.finalize fun _ => .nothing
  | fetchExpired instant limit => do
    match ← (Keys.expired instant limit).outcome with
    | .ok keys => return ⟨.ok, .names keys⟩
    | .error failure => return ⟨failure.status, .failure failure⟩

/-- The data in the reply to a command that is refused with `status`. -/
def blank (status : Status) : Command → Data
  | get _ | getSet .. | hget .. | spop .. => .item .empty
  | mget _ | smembers _ => .items []
  | hmget _ fields => .items (fields.map fun _ => .empty)
  | incrBy .. | decrBy .. | hincrBy .. | zincrBy .. | zscore .. => .number 0
  | mset .. | del .. => .statuses []
  | sadd _ members _ | srem _ members _ | zrem _ members _ =>
    .statuses (members.map fun _ => status)
  | zadd _ items _ => .statuses (items.map fun _ => status)
  | hmset _ values _ => .fieldStatuses (values.map fun (field, _) => (field, status))
  | hdel _ fields _ => .fieldStatuses (fields.map fun (field, _) => (field, status))
  | hlen _ | scard _ | zcard _ | zcount .. | zremRangeByScore .. | zremRangeByRank ..
  | zrank .. | ttl _ | pttl _ => .count 0
  | hgetall _ => .fields []
  | hkeys _ | hvals _ | fetchExpired .. => .names []
  | zrange .. | zrangeByScore .. => .placed []
  | keyType _ => .kind none
  | keyVersion _ => .version 0
  | set .. | setEx .. | setWith .. | hset .. | hexists .. | sismember .. | expire ..
  | persist .. | keyExists _ | rename .. | finalize => .nothing

/-- The reply to a command that has come to an end. -/
def conclude (command : Command) : Except Status Reply → Reply
  | .ok reply => reply
  | .error status => ⟨status, command.blank status⟩

/-- Runs a command against whatever answers its calls. -/
def runBy {σ : Type} (answer : σ → (c : Call) → Except Failure c.Answer × σ)
    (context : Context) (command : Command) (state : σ) : Reply × σ :=
  let (ending, state) := (command.script context).run answer state
  (command.conclude ending, state)

/-- Runs a command on a store.  The reading of the clock in the context serves all
calls of the command, as if the clock stood still until the command has ended; an
engine that reads its clock at every call may answer a later call at a later time. -/
def run (context : Context) (command : Command) (store : Store) : Reply × Store :=
  command.runBy (Store.perform context.now) context store

/-- Runs a command on a store with faults.  Here, too, one reading of the clock serves
all calls, though an engine may read its clock at every call. -/
def runFaulty (context : Context) (command : Command) (faulty : FaultyStore) :
    Reply × FaultyStore :=
  command.runBy (FaultyStore.perform context.now) context faulty

end Command

end Keyspace
