import CedarGraph.Lib.Scan
import CedarGraph.Types

/-!
# Records of the write-ahead log

A record is a 16-byte header, with the length and the checksum of the data, and an encoded batch
of operations. `ReadNextRecord` reports damage without stopping the reader.
-/

namespace CedarGraph

open FixedWidth List UInt32

namespace CedarKey

variable (key : CedarKey)

/-- The members of the packed structure, each in big-endian order. -/
def layout : List (Nat × Nat) :=
  [(8, key.entityId.toNat), (8, (uint64Max - key.timestamp).toNat), (8, key.targetId.toNat),
    (2, key.columnId.toNat), (2, key.sequence.toNat), (1, key.entityType.toNat),
    (1, key.flags.toNat), (2, key.partId.toNat)]

def encode : Bytes :=
  fields beBytes key.layout

/-- Decoding requires at least 32 bytes and ignores what follows them. -/
def decode (bytes : Bytes) : Option CedarKey :=
  if bytes.length < 32 then none
  else
    match readFields beValue [8, 8, 8, 2, 2, 1, 1, 2] bytes with
    | [id, stamp, targetId, col, sequence, entityType, flags, partId] =>
      some
        { entityId := UInt64.ofNat id
          timestamp := uint64Max - UInt64.ofNat stamp
          targetId := UInt64.ofNat targetId
          columnId := UInt16.ofNat col
          sequence := UInt16.ofNat sequence
          entityType := UInt8.ofNat entityType
          flags := UInt8.ofNat flags
          partId := UInt16.ofNat partId }
    | _ => none

theorem exists_decode {bytes : Bytes} (long : 32 ≤ bytes.length) :
    ∃ key, decode bytes = some key := by
  rw [decode, if_neg (Nat.not_lt.mpr long)]
  exact ⟨_, rfl⟩

@[simp]
theorem length_encode : key.encode.length = 32 := by
  rw [encode, length_fields length_beBytes]
  rfl

private theorem layout_bounds : ∀ field ∈ key.layout, field.2 < 256 ^ field.1 := by
  have entity := key.entityId.toNat_lt
  have stamp := (uint64Max - key.timestamp).toNat_lt
  have target := key.targetId.toNat_lt
  have column := key.columnId.toNat_lt
  have sequence := key.sequence.toNat_lt
  have kind := key.entityType.toNat_lt
  have flags := key.flags.toNat_lt
  have part := key.partId.toNat_lt
  simp only [layout, forall_mem_cons, not_mem_nil, IsEmpty.forall_iff, implies_true, and_true]
  omega

theorem decode_encode : decode key.encode = some key := by
  have values : readFields beValue [8, 8, 8, 2, 2, 1, 1, 2] key.encode =
      key.layout.map Prod.snd := by
    have whole := readFields_fields length_beBytes beValue_beBytes_of_lt key.layout_bounds []
    rwa [append_nil] at whole
  rw [decode, if_neg (by simp), values]
  simp [layout]

end CedarKey

namespace Descriptor

def encode (desc : Descriptor) : Bytes :=
  beBytes 8 desc.value.toNat

def decode (bytes : Bytes) : Option Descriptor :=
  if bytes.length < 8 then none else some ⟨UInt64.ofNat (beValue (bytes.take 8))⟩

@[simp]
theorem length_encode (desc : Descriptor) : desc.encode.length = 8 := by
  simp [encode]

theorem decode_encode (desc : Descriptor) : decode desc.encode = some desc := by
  have whole : desc.encode.take 8 = desc.encode := by
    rw [take_of_length_le (by simp)]
  rw [decode, if_neg (by simp), whole, encode,
    beValue_beBytes_of_lt desc.value.toNat_lt, UInt64.ofNat_toNat]

end Descriptor

/-- A byte outside the enumeration is kept as it is. -/
inductive WalRecordType where
  | invalid
  | put
  | delete
  | batch
  | commit
  | abort
  | unknown (byte : UInt8)
  deriving DecidableEq, Repr

namespace WalRecordType

def toByte : WalRecordType → UInt8
  | .invalid => 0
  | .put => 1
  | .delete => 2
  | .batch => 3
  | .commit => 4
  | .abort => 5
  | .unknown byte => byte

def ofByte (byte : UInt8) : WalRecordType :=
  match byte.toNat with
  | 0 => .invalid
  | 1 => .put
  | 2 => .delete
  | 3 => .batch
  | 4 => .commit
  | 5 => .abort
  | _ => .unknown byte

end WalRecordType

structure WalWriteOp where
  type : WalRecordType
  key : CedarKey
  descriptor : Descriptor
  txnVersion : UInt64
  deriving DecidableEq, Repr

namespace WalWriteOp

def encode (op : WalWriteOp) : Bytes :=
  op.type.toByte :: (leBytes 4 op.key.encode.length ++ (op.key.encode ++
    (op.descriptor.encode ++ leBytes 8 op.txnVersion.toNat)))

/-- A type that the encoding does not confuse with another one. -/
def Named (op : WalWriteOp) : Prop :=
  WalRecordType.ofByte op.type.toByte = op.type

@[simp]
theorem length_encode (op : WalWriteOp) : op.encode.length = 53 := by
  simp [encode]

end WalWriteOp

abbrev WalBatch := List WalWriteOp

namespace WalBatch

def encode (batch : WalBatch) : Bytes :=
  leBytes 4 batch.length ++ batch.flatMap WalWriteOp.encode

/-- The loop of `DecodeFrom`; the sum that the remaining size is compared with is computed in
32 bits.  When it wraps around, the key is read and passed over beyond the end of the data. -/
def decodeOps : Nat → Bytes → Except Status WalBatch
  | 0, _ => .ok []
  | count + 1, input =>
    match input with
    | typeByte :: afterType =>
      if afterType.length < 4 then .error (.corruption "WalBatch" "truncated op header")
      else
        let keyLen := leValue (afterType.take 4)
        let body := afterType.drop 4
        if body.length < (keyLen + 8 + 8) % 2 ^ 32 then
          .error (.corruption "WalBatch" "truncated op data")
        else if body.length < keyLen + 8 + 8 then .error .outOfBounds
        else
          match CedarKey.decode (body.take keyLen) with
          | none => .error (.corruption "WalBatch" "invalid key")
          | some key =>
            let afterKey := body.drop keyLen
            match Descriptor.decode (afterKey.take 8) with
            | none => .error (.corruption "WalBatch" "invalid descriptor")
            | some desc =>
              let afterDescriptor := afterKey.drop 8
              match decodeOps count (afterDescriptor.drop 8) with
              | .error status => .error status
              | .ok rest =>
                .ok (⟨.ofByte typeByte, key, desc,
                  UInt64.ofNat (leValue (afterDescriptor.take 8))⟩ :: rest)
    | [] => .error (.corruption "WalBatch" "truncated op header")

def decode (input : Bytes) : Except Status WalBatch :=
  if input.length < 4 then .error (.corruption "WalBatch" "truncated header")
  else decodeOps (leValue (input.take 4)) (input.drop 4)

/-- Some operation, behind whole ones with keys of at least 32 bytes, passes the check of its
length although its key and the 16 bytes behind it do not lie within the data. -/
def overrunsOps : Nat → Bytes → Bool
  | 0, _ => false
  | count + 1, input =>
    let keyLen := leValue ((input.drop 1).take 4)
    let body := input.drop 5
    if input.length < 5 ∨ body.length < (keyLen + 16) % 2 ^ 32 then false
    else if body.length < keyLen + 16 then true
    else decide (32 ≤ keyLen) && overrunsOps count (body.drop (keyLen + 16))

def overruns (input : Bytes) : Bool :=
  decide (4 ≤ input.length) && overrunsOps (leValue (input.take 4)) (input.drop 4)

theorem decodeOps_outOfBounds_iff (count : Nat) (input : Bytes) :
    decodeOps count input = .error .outOfBounds ↔ overrunsOps count input = true := by
  induction count generalizing input with
  | zero => simp [decodeOps, overrunsOps]
  | succ count ih =>
    cases input with
    | nil => simp [decodeOps, overrunsOps]
    | cons typeByte afterType =>
      rw [decodeOps, overrunsOps, length_cons, drop_one, tail_cons, drop_succ_cons]
      dsimp only
      generalize leValue (afterType.take 4) = keyLen
      generalize same : afterType.drop 4 = body
      rw [Nat.add_assoc keyLen 8 8]
      by_cases short : afterType.length < 4
      · simp [short]
      rw [if_neg short]
      by_cases truncated : body.length < (keyLen + 16) % 2 ^ 32
      · rw [if_pos truncated, if_pos (Or.inr truncated)]
        simp
      rw [if_neg truncated, if_neg (not_or.mpr ⟨by omega, truncated⟩)]
      by_cases outside : body.length < keyLen + 16
      · simp [outside]
      rw [if_neg outside, if_neg outside, Bool.and_eq_true, decide_eq_true_eq, ← ih]
      have keyLength : (body.take keyLen).length = keyLen := by
        rw [length_take]
        omega
      by_cases long : 32 ≤ keyLen
      · obtain ⟨key, decoded⟩ := CedarKey.exists_decode (keyLength.symm ▸ long)
        have someDescriptor : ¬ ((body.drop keyLen).take 8).length < 8 := by
          rw [length_take, length_drop]
          omega
        rw [decoded, Descriptor.decode, if_neg someDescriptor, drop_drop, drop_drop]
        dsimp only
        rw [Nat.add_assoc keyLen 8 8]
        cases decodeOps count (body.drop (keyLen + 16)) with
        | error status => simp [long]
        | ok rest => simp
      · rw [CedarKey.decode, if_pos (by omega)]
        simp [long]

theorem decode_outOfBounds_iff (input : Bytes) :
    decode input = .error .outOfBounds ↔ overruns input = true := by
  rw [decode, overruns, Bool.and_eq_true, decide_eq_true_eq, ← decodeOps_outOfBounds_iff]
  by_cases short : input.length < 4
  · simp [short]
  · simp [short, Nat.not_lt.mp short]

@[simp]
theorem length_encode (batch : WalBatch) : batch.encode.length = 4 + 53 * batch.length := by
  simp [encode, length_flatMap, Nat.mul_comm]

theorem decodeOps_encode {batch : WalBatch} (named : ∀ op ∈ batch, op.Named) :
    decodeOps batch.length (batch.flatMap WalWriteOp.encode) = .ok batch := by
  induction batch with
  | nil => rfl
  | cons op tail ih =>
    rw [forall_mem_cons] at named
    have opNamed : WalRecordType.ofByte op.type.toByte = op.type := named.1
    have keyLength : leValue (leBytes 4 op.key.encode.length) = 32 := by
      rw [leValue_leBytes_of_lt (by simp), CedarKey.length_encode]
    have ver : UInt64.ofNat (leValue (leBytes 8 op.txnVersion.toNat)) = op.txnVersion := by
      rw [leValue_leBytes_of_lt op.txnVersion.toNat_lt, UInt64.ofNat_toNat]
    rw [length_cons, flatMap_cons, WalWriteOp.encode, cons_append,
      append_assoc, append_assoc, append_assoc, decodeOps]
    dsimp only
    rw [if_neg (by simp), take_left' (length_leBytes 4 _), keyLength,
      drop_left' (length_leBytes 4 _), if_neg (by simp; omega), if_neg (by simp; omega),
      take_left' op.key.length_encode, CedarKey.decode_encode]
    dsimp only
    rw [drop_left' op.key.length_encode,
      take_left' op.descriptor.length_encode, Descriptor.decode_encode]
    dsimp only
    rw [drop_left' op.descriptor.length_encode,
      drop_left' (length_leBytes 8 _), take_left' (length_leBytes 8 _),
      ih named.2, opNamed, ver]

theorem decode_encode {batch : WalBatch} (named : ∀ op ∈ batch, op.Named)
    (fits : batch.encode.length < 2 ^ 32) : decode batch.encode = .ok batch := by
  have count : leValue (leBytes 4 batch.length) = batch.length := by
    apply leValue_leBytes_of_lt
    rw [length_encode] at fits
    omega
  rw [decode, if_neg (by simp), encode, take_left' (length_leBytes 4 _),
    drop_left' (length_leBytes 4 _), count, decodeOps_encode named]

end WalBatch

structure WalRecordHeader where
  crc32 : UInt32
  type : UInt16
  flags : UInt16
  dataLength : UInt32
  sequence : UInt32
  deriving DecidableEq, Repr

open WalRecordHeader

namespace WalRecordHeader

def encode (header : WalRecordHeader) : Bytes :=
  fields leBytes [(4, header.crc32.toNat), (2, header.type.toNat), (2, header.flags.toNat),
    (4, header.dataLength.toNat), (4, header.sequence.toNat)]

def decode (input : Bytes) : Except Status WalRecordHeader :=
  if input.length < 16 then .error (.corruption "WalRecordHeader" "truncated")
  else
    match readFields leValue [4, 2, 2, 4, 4] input with
    | [crc32, type, flags, dataLength, sequence] =>
      .ok ⟨ofNat crc32, UInt16.ofNat type, UInt16.ofNat flags, ofNat dataLength, ofNat sequence⟩
    | _ => .error (.corruption "WalRecordHeader" "truncated")

@[simp]
theorem length_encode (header : WalRecordHeader) : header.encode.length = 16 := by
  rw [encode, length_fields length_leBytes]
  rfl

theorem exists_decode {input : Bytes} (long : 16 ≤ input.length) :
    ∃ header, decode input = .ok header := by
  rw [decode, if_neg (Nat.not_lt.mpr long)]
  exact ⟨_, rfl⟩

theorem decode_encode (header : WalRecordHeader) : decode header.encode = .ok header := by
  have crc := header.crc32.toNat_lt
  have type := header.type.toNat_lt
  have flags := header.flags.toNat_lt
  have size := header.dataLength.toNat_lt
  have sequence := header.sequence.toNat_lt
  have bounds : ∀ field ∈ [(4, header.crc32.toNat), (2, header.type.toNat),
      (2, header.flags.toNat), (4, header.dataLength.toNat), (4, header.sequence.toNat)],
      field.2 < 256 ^ field.1 := by
    simp only [forall_mem_cons, not_mem_nil, IsEmpty.forall_iff, implies_true, and_true]
    omega
  have values := readFields_fields length_leBytes leValue_leBytes_of_lt bounds []
  rw [append_nil] at values
  rw [decode, if_neg (by simp), encode]
  simp only [map_cons, map_nil] at values
  rw [values]
  simp

end WalRecordHeader

/-- The header and the data that the writer appends for one batch. -/
def encodeRecord (sequence : Nat) (batch : WalBatch) : Bytes :=
  let data := batch.encode
  encode
    { crc32 := crc32c data
      type := WalRecordType.batch.toByte.toUInt16
      flags := 0
      dataLength := ofNat data.length
      sequence := ofNat sequence } ++ data

/-- `ReadNextRecord` on the bytes from the current offset to the end of the file. -/
def readNextRecord (bytes : Bytes) : Except Status WalBatch × Bytes :=
  if bytes.length < 16 then (.error (.notFound "WalReader" "end of file"), bytes)
  else
    match decode (bytes.take 16) with
    | .error _ => (.error (.corruption "WalReader" "invalid header"), bytes.drop 1)
    | .ok header =>
      let dataLength := header.dataLength.toNat
      let afterHeader := bytes.drop 16
      let rest := afterHeader.drop dataLength
      if afterHeader.length < dataLength then
        (.error (.corruption "WalReader" "truncated record"), rest)
      else
        let data := afterHeader.take dataLength
        if crc32c data ≠ header.crc32 then
          (.error (.corruption "WalReader" "CRC mismatch"), rest)
        else
          match WalBatch.decode data with
          | .error .outOfBounds => (.error .outOfBounds, rest)
          | .error _ => (.error (.corruption "WalReader" "batch decode failed"), rest)
          | .ok batch => (.ok batch, rest)

@[simp]
theorem length_encodeRecord (sequence : Nat) (batch : WalBatch) :
    (encodeRecord sequence batch).length = 20 + 53 * batch.length := by
  rw [encodeRecord]
  simp
  omega

theorem readNextRecord_encodeRecord
    (sequence : Nat) {batch : WalBatch} (named : ∀ op ∈ batch, op.Named)
    (fits : batch.encode.length < 2 ^ 32) (rest : Bytes) :
    readNextRecord (encodeRecord sequence batch ++ rest) = (.ok batch, rest) := by
  have size : (ofNat batch.encode.length).toNat = batch.encode.length := by
    rw [toNat_ofNat']
    exact Nat.mod_eq_of_lt fits
  have long : ¬ (encodeRecord sequence batch ++ rest).length < 16 := by
    rw [length_append, length_encodeRecord]
    omega
  rw [readNextRecord, if_neg long, encodeRecord]
  dsimp only
  rw [append_assoc, take_left' (length_encode _), decode_encode]
  dsimp only
  rw [drop_left' (length_encode _), size, drop_left' rfl,
    take_left' rfl, if_neg (by simp), if_neg (by simp),
    WalBatch.decode_encode named fits]

end CedarGraph
