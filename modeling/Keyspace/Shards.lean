import Keyspace.Bytes

/-!
# Lock shards

Keys are guarded by a fixed number of locks.  The shard of a key is a checksum
of its bytes modulo that number; the checksum is CRC-32, unless a pool is given
another one.  Whoever locks several keys takes their shards in ascending order
and each of them once, so no two of them can wait for each other.
-/

namespace Keyspace

namespace Crc32

/-- Divides out one bit of the reflected polynomial. -/
def shift (crc : UInt32) : UInt32 :=
  if crc &&& 1 = 1 then (crc >>> 1) ^^^ 0xedb88320 else crc >>> 1

/-- Takes one byte into a checksum. -/
def step (crc : UInt32) (byte : UInt8) : UInt32 :=
  Nat.repeat shift 8 (crc ^^^ byte.toUInt32)

/-- The CRC-32 checksum of a byte string. -/
def checksum (bytes : Bytes) : UInt32 :=
  bytes.foldl step 0xffffffff ^^^ 0xffffffff

end Crc32

/-- A pool of lock shards. -/
structure Shards where
  count : Nat
  /-- What the bytes of a key are reduced to. -/
  checksum : Bytes → UInt32
  count_pos : 0 < count := by omega

namespace Shards

/-- A pool of the requested size, but of at least one shard. -/
def ofCount (count : Nat) (checksum : Bytes → UInt32 := Crc32.checksum) : Shards :=
  { count := max count 1, checksum }

/-- The shard of a key. -/
def shardOf (shards : Shards) (key : Bytes) : Nat :=
  (shards.checksum key).toNat % shards.count

/-- Keeps one of every run of equal numbers. -/
def keepOne : List Nat → List Nat
  | [] => []
  | [n] => [n]
  | n :: m :: rest => if n = m then keepOne (m :: rest) else n :: keepOne (m :: rest)

/-- The shards to lock for some keys, ascending and each of them once. -/
def lockOrder (shards : Shards) (keys : List Bytes) : List Nat :=
  keepOne (keys.map shards.shardOf).mergeSort

end Shards

end Keyspace
