import CedarGraph.Lib.FixedWidth

/-!
# Keys, descriptors and rows

The 32-byte `CedarKey`, the packed `Descriptor` and the rows. A key is kept with the values its
accessors return; the stored members are their byte swaps, and `timestamp_be_` that of
`UINT64_MAX - timestamp`. Members that the comparators read raw are recomputed by `bswap64` and
`bswap16`.
-/

namespace CedarGraph

open FixedWidth

inductive EntityType where
  | vertex
  | edgeOut
  | edgeIn
  deriving DecidableEq, Repr

/-- The byte stored in `entity_type_`. -/
def EntityType.toByte : EntityType → UInt8
  | .vertex => 0
  | .edgeOut => 1
  | .edgeIn => 2

/-- `entity_type()`; other bytes are not stored. -/
def EntityType.ofByte (byte : UInt8) : EntityType :=
  if byte = 1 then .edgeOut else if byte = 2 then .edgeIn else .vertex

@[simp]
theorem EntityType.ofByte_toByte (kind : EntityType) : EntityType.ofByte kind.toByte = kind := by
  cases kind <;> simp [toByte, ofByte]

inductive EntryKind where
  | inlineInt
  | inlineFloat
  | inlineShortStr
  | externalRef
  | edgeRef
  | tombstone
  | metadata
  deriving DecidableEq, Repr

/-- A descriptor is its raw 64-bit value. -/
structure Descriptor where
  value : UInt64
  deriving DecidableEq, Repr

namespace Descriptor

variable (desc : Descriptor)

/-- `Descriptor()`: the value zero with the kind set to `Tombstone`. -/
def default : Descriptor := ⟨5⟩

def getKind : EntryKind :=
  match desc.value.toNat % 16 with
  | 0 => .inlineInt
  | 1 => .inlineFloat
  | 2 => .inlineShortStr
  | 3 => .externalRef
  | 4 => .edgeRef
  | 5 => .tombstone
  | 6 => .metadata
  | _ => .tombstone

/-- Bits 4 to 15. -/
def getColumnId : UInt16 :=
  UInt16.ofNat (desc.value.toNat / 2 ^ 4 % 2 ^ 12)

/-- Bits 16 to 47. -/
def getPayload : Nat :=
  desc.value.toNat / 2 ^ 16 % 2 ^ 32

def isTombstone : Bool :=
  decide (desc.getKind = .tombstone)

/-- `Descriptor::Tombstone(column_id)`: kind 5, twelve bits of column, payload
and length zero. -/
def tombstone (col : UInt16) : Descriptor :=
  ⟨UInt64.ofNat (5 + col.toNat % 2 ^ 12 * 16)⟩

/-- The blob file an external reference points into: the top four bits of the
payload. -/
def blobFileId : Nat :=
  desc.getPayload / 2 ^ 28

end Descriptor

structure CedarKey where
  entityId : UInt64
  timestamp : UInt64
  targetId : UInt64
  columnId : UInt16
  sequence : UInt16
  entityType : UInt8
  flags : UInt8
  partId : UInt16
  deriving DecidableEq, Repr

def uint64Max : UInt64 := 0xFFFFFFFFFFFFFFFF

theorem le_uint64Max (value : UInt64) : value ≤ uint64Max := by
  rw [UInt64.le_iff_toNat_le]
  exact Nat.le_of_lt_succ value.toNat_lt

/-- `UINT16_MAX`, the column id that stands for every column. -/
def uint16Max : UInt16 := 0xFFFF

/-- `cedar_htobe64` on a little-endian host. -/
def bswap64 (value : UInt64) : UInt64 :=
  UInt64.ofNat (beValue (leBytes 8 value.toNat))

/-- `cedar_htobe16` on a little-endian host. -/
def bswap16 (value : UInt16) : UInt16 :=
  UInt16.ofNat (beValue (leBytes 2 value.toNat))

namespace CedarKey

/-- `CedarKey()`: every stored member is zero, so the decoded timestamp is
`UINT64_MAX`. -/
def default : CedarKey :=
  ⟨0, uint64Max, 0, 0, 0, 0, 0, 0⟩

/-- `Timestamp::EncodeForStorage`. -/
def timestampBe (key : CedarKey) : UInt64 :=
  bswap64 (uint64Max - key.timestamp)

/-- Bit 7 of the flags, `key_flags::kTombstone`. -/
def isTombstone (key : CedarKey) : Bool :=
  decide (128 ≤ key.flags.toNat)

def vertex (vertexId : UInt64) (column : UInt16) (ts : UInt64)
    (sequence : UInt16) (partId : UInt16) (targetId : UInt64) (flags : UInt8) : CedarKey :=
  ⟨vertexId, ts, targetId, column, sequence, EntityType.vertex.toByte, flags, partId⟩

def edgeOut (srcId dstId : UInt64) (edgeType : UInt16) (ts : UInt64)
    (sequence : UInt16) (partId : UInt16) (flags : UInt8) : CedarKey :=
  ⟨srcId, ts, dstId, edgeType, sequence, EntityType.edgeOut.toByte, flags, partId⟩

def edgeIn (dstId srcId : UInt64) (edgeType : UInt16) (ts : UInt64)
    (sequence : UInt16) (partId : UInt16) (flags : UInt8) : CedarKey :=
  ⟨dstId, ts, srcId, edgeType, sequence, EntityType.edgeIn.toByte, flags, partId⟩

/-- `CompareForSorting`: entity, type, column and target ascending, the raw
`timestamp_be_` descending, sequence ascending. -/
def compareForSorting (left right : CedarKey) : Ordering :=
  (compare left.entityId right.entityId).then <|
  (compare left.entityType right.entityType).then <|
  (compare left.columnId right.columnId).then <|
  (compare left.targetId right.targetId).then <|
  (compare right.timestampBe left.timestampBe).then <|
  compare left.sequence right.sequence

def lessForSorting (left right : CedarKey) : Bool :=
  left.compareForSorting right == .lt

/-- `Compare`, the order of `operator<`: the entity by its value, every other
member as it is stored. -/
def compareKeys (left right : CedarKey) : Ordering :=
  (compare left.entityId right.entityId).then <|
  (compare left.entityType right.entityType).then <|
  (compare (bswap16 left.columnId) (bswap16 right.columnId)).then <|
  (compare (bswap64 left.targetId) (bswap64 right.targetId)).then <|
  (compare left.timestampBe right.timestampBe).then <|
  (compare (bswap16 left.sequence) (bswap16 right.sequence)).then <|
  compare left.flags right.flags

end CedarKey

/-- The triple `(CedarKey, Descriptor, Timestamp)` that every layer stores. -/
structure Row where
  key : CedarKey
  descriptor : Descriptor
  txnVersion : UInt64
  deriving DecidableEq, Repr

/-- `outOfBounds` is no status of the source: it stands for an access outside a buffer, after
which nothing is specified. -/
inductive Status where
  | notFound (context msg : String)
  | corruption (context msg : String)
  | ioError (context msg : String)
  | invalidArgument (context msg : String)
  | conflict (context msg : String)
  | busy (context msg : String)
  | resourceExhausted (context msg : String)
  | unavailable (context msg : String)
  | outOfBounds
  deriving DecidableEq, Repr

def Status.isCorruption : Status → Bool
  | .corruption _ _ => true
  | _ => false

def Status.isNotFound : Status → Bool
  | .notFound _ _ => true
  | _ => false

/-- `ToString`; two of the codes have no name in the source. -/
def Status.toString : Status → String
  | .notFound context msg => "NotFound: " ++ text context msg
  | .corruption context msg => "Corruption: " ++ text context msg
  | .ioError context msg => "IO error: " ++ text context msg
  | .invalidArgument context msg => "Invalid argument: " ++ text context msg
  | .conflict context msg => "Conflict: " ++ text context msg
  | .busy context msg => "Unknown code(8): " ++ text context msg
  | .resourceExhausted context msg => "Unknown code(9): " ++ text context msg
  | .unavailable context msg => "Unavailable: " ++ text context msg
  | .outOfBounds => ""
where
  text (context msg : String) : String :=
    if msg = "" then context else context ++ ": " ++ msg

inductive DistributedTxnState where
  | started
  | preparing
  | prepared
  | committing
  | committed
  | aborting
  | aborted
  deriving DecidableEq, Repr

/-- An entry of `kByteExtensionTable`, from the reflected Castagnoli polynomial. -/
def crc32cTable (byte : UInt32) : UInt32 :=
  (List.range 8).foldl
    (fun value _ => if value % 2 = 1 then (value >>> 1) ^^^ 0x82f63b78 else value >>> 1) byte

def crc32c (bytes : Bytes) : UInt32 :=
  bytes.foldl (fun value byte => crc32cTable ((value &&& 0xff) ^^^ byte.toUInt32) ^^^ (value >>> 8))
    0xffffffff ^^^ 0xffffffff

end CedarGraph
