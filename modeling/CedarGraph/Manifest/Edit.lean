import CedarGraph.Types

/-!
# Edits of the manifest

The manifest is a log of `ManifestEdit`s, but a record has fewer members than its edit: no level
of the edit and no sequence numbers for an added file, no level for a deleted one, the name and
not the number of a column family. `logged` is the edit that a reader gets.
-/

namespace CedarGraph

open FixedWidth List

/-- `level` is stored as the bits of an `int`. -/
structure FileMetaData where
  fileNumber : UInt64
  level : UInt32
  fileSize : UInt64
  smallestEntityId : UInt64
  largestEntityId : UInt64
  smallestTimestamp : UInt64
  largestTimestamp : UInt64
  numEntries : UInt64
  numDeletions : UInt64
  crc32Checksum : UInt32
  smallestSequence : UInt64
  largestSequence : UInt64
  deriving DecidableEq, Repr

namespace FileMetaData

variable (file : FileMetaData)

def default : FileMetaData := ⟨0, 0, 0, 0, 0, 0, 0, 0, 0, 0, 0, 0⟩

def layout : List (Nat × Nat) :=
  [(8, file.fileNumber.toNat), (4, file.level.toNat), (8, file.fileSize.toNat),
    (8, file.smallestEntityId.toNat), (8, file.largestEntityId.toNat),
    (8, file.smallestTimestamp.toNat), (8, file.largestTimestamp.toNat),
    (8, file.numEntries.toNat), (8, file.numDeletions.toNat), (4, file.crc32Checksum.toNat)]

def encodeTo : Bytes :=
  fields leBytes file.layout

/-- The test is for 68 bytes; the members take 72. -/
def decodeFrom (input : Bytes) : Except Status FileMetaData :=
  if input.length < 68 then .error (.corruption "FileMetaData" "truncated")
  else
    match readFields leValue [8, 4, 8, 8, 8, 8, 8, 8, 8, 4] input with
    | [fileNumber, level, fileSize, smallestEntityId, largestEntityId, smallestTimestamp,
        largestTimestamp, numEntries, numDeletions, crc32Checksum] =>
        .ok ⟨UInt64.ofNat fileNumber, UInt32.ofNat level, UInt64.ofNat fileSize,
          UInt64.ofNat smallestEntityId, UInt64.ofNat largestEntityId,
          UInt64.ofNat smallestTimestamp, UInt64.ofNat largestTimestamp,
          UInt64.ofNat numEntries, UInt64.ofNat numDeletions, UInt32.ofNat crc32Checksum, 0, 0⟩
    | _ => .error (.corruption "FileMetaData" "truncated")

def logged : FileMetaData :=
  { file with smallestSequence := 0, largestSequence := 0 }

theorem logged_eq_self {file : FileMetaData} (smallest : file.smallestSequence = 0)
    (largest : file.largestSequence = 0) : file.logged = file := by
  cases file
  simp only at smallest largest
  subst smallest largest
  rfl

@[simp] theorem length_encodeTo : file.encodeTo.length = 72 := by
  rw [encodeTo, length_fields length_leBytes]
  rfl

theorem decodeFrom_encodeTo : decodeFrom file.encodeTo = .ok file.logged := by
  have bounds : ∀ field ∈ file.layout, field.2 < 256 ^ field.1 := by
    simp only [layout, forall_mem_cons, not_mem_nil, IsEmpty.forall_iff, implies_true, and_true]
    exact ⟨file.fileNumber.toNat_lt, file.level.toNat_lt, file.fileSize.toNat_lt,
      file.smallestEntityId.toNat_lt, file.largestEntityId.toNat_lt,
      file.smallestTimestamp.toNat_lt, file.largestTimestamp.toNat_lt, file.numEntries.toNat_lt,
      file.numDeletions.toNat_lt, file.crc32Checksum.toNat_lt⟩
  have values := readFields_fields length_leBytes leValue_leBytes_of_lt bounds []
  rw [append_nil] at values
  rw [decodeFrom, if_neg (by simp), encodeTo]
  simp only [layout, map_cons, map_nil] at values
  simp only [layout, values, UInt64.ofNat_toNat, UInt32.ofNat_toNat, logged]

end FileMetaData

inductive ManifestEditType where
  | addFile
  | deleteFile
  | columnFamilyAdd
  | columnFamilyDrop
  | nextFileNumber
  | lastSequence
  | compactionPointer
  | logNumber
  deriving DecidableEq, Repr

def ManifestEditType.toByte : ManifestEditType → UInt8
  | .addFile => 1
  | .deleteFile => 2
  | .columnFamilyAdd => 3
  | .columnFamilyDrop => 4
  | .nextFileNumber => 5
  | .lastSequence => 6
  | .compactionPointer => 7
  | .logNumber => 8

structure ManifestEdit where
  type : ManifestEditType
  level : Nat
  fileMeta : FileMetaData
  columnFamilyId : UInt32
  columnFamilyName : Bytes
  number : UInt64
  deriving DecidableEq, Repr

namespace ManifestEdit

variable (type : ManifestEditType)

def ofType : ManifestEdit :=
  ⟨type, 0, .default, 0, [], 0⟩

def addFile (level : Nat) (file : FileMetaData) (columnFamilyId : UInt32) : ManifestEdit :=
  { ofType .addFile with level, fileMeta := file, columnFamilyId }

def deleteFile (level : Nat) (fileNumber : UInt64) (columnFamilyId : UInt32) : ManifestEdit :=
  { ofType .deleteFile with
    level, fileMeta := { FileMetaData.default with fileNumber }, columnFamilyId }

def addColumnFamily (name : Bytes) : ManifestEdit :=
  { ofType .columnFamilyAdd with columnFamilyName := name }

def nextFileNumber (number : UInt64) : ManifestEdit :=
  { ofType .nextFileNumber with number }

def lastSequence (number : UInt64) : ManifestEdit :=
  { ofType .lastSequence with number }

def logNumber (number : UInt64) : ManifestEdit :=
  { ofType .logNumber with number }

def encodeTo (edit : ManifestEdit) : Bytes :=
  edit.type.toByte :: match edit.type with
    | .addFile => leBytes 4 edit.columnFamilyId.toNat ++ edit.fileMeta.encodeTo
    | .deleteFile => leBytes 4 edit.columnFamilyId.toNat ++ leBytes 8 edit.fileMeta.fileNumber.toNat
    | .columnFamilyAdd | .columnFamilyDrop =>
      leBytes 4 edit.columnFamilyName.length ++ edit.columnFamilyName
    | .nextFileNumber | .lastSequence | .logNumber => leBytes 8 edit.number.toNat
    | .compactionPointer => []

def decodeName (input : Bytes) : Except Status ManifestEdit :=
  if input.length < 4 then .error (.corruption "ManifestEdit" "truncated name length")
  else if (input.drop 4).length < leValue (input.take 4) then
    .error (.corruption "ManifestEdit" "truncated name")
  else
    .ok { ofType type with columnFamilyName := (input.drop 4).take (leValue (input.take 4)) }

def decodeNumber (input : Bytes) : Except Status ManifestEdit :=
  if input.length < 8 then .error (.corruption "ManifestEdit" "truncated number")
  else .ok { ofType type with number := UInt64.ofNat (leValue (input.take 8)) }

def decodeAddFile (input : Bytes) : Except Status ManifestEdit :=
  if input.length < 4 then .error (.corruption "ManifestEdit" "truncated cf_id")
  else
    (FileMetaData.decodeFrom (input.drop 4)).map fun file =>
      { ofType .addFile with
        columnFamilyId := UInt32.ofNat (leValue (input.take 4)), fileMeta := file }

def decodeDeleteFile (input : Bytes) : Except Status ManifestEdit :=
  if input.length < 4 then .error (.corruption "ManifestEdit" "truncated cf_id")
  else if (input.drop 4).length < 8 then
    .error (.corruption "ManifestEdit" "truncated file_number")
  else
    .ok { ofType .deleteFile with
      columnFamilyId := UInt32.ofNat (leValue (input.take 4))
      fileMeta := { FileMetaData.default with
        fileNumber := UInt64.ofNat (leValue ((input.drop 4).take 8)) } }

def decodeFrom : Bytes → Except Status ManifestEdit
  | [] => .error (.corruption "ManifestEdit" "truncated type")
  | type :: input =>
    if type = 1 then decodeAddFile input
    else if type = 2 then decodeDeleteFile input
    else if type = 3 then decodeName .columnFamilyAdd input
    else if type = 4 then decodeName .columnFamilyDrop input
    else if type = 5 then decodeNumber .nextFileNumber input
    else if type = 6 then decodeNumber .lastSequence input
    else if type = 8 then decodeNumber .logNumber input
    else .error (.corruption "ManifestEdit" "unknown type")

/-- The edit that a reader of the record gets; there is none for a compaction pointer. -/
def logged (edit : ManifestEdit) : ManifestEdit :=
  match edit.type with
  | .addFile =>
    { ofType .addFile with
      columnFamilyId := edit.columnFamilyId, fileMeta := edit.fileMeta.logged }
  | .deleteFile =>
    { ofType .deleteFile with
      columnFamilyId := edit.columnFamilyId
      fileMeta := { FileMetaData.default with fileNumber := edit.fileMeta.fileNumber } }
  | .columnFamilyAdd | .columnFamilyDrop =>
    { ofType edit.type with columnFamilyName := edit.columnFamilyName }
  | .nextFileNumber | .lastSequence | .logNumber => { ofType edit.type with number := edit.number }
  | .compactionPointer => edit

theorem leValue_take_leBytes
    (width : Nat) {value : Nat} (bound : value < 256 ^ width) (rest : Bytes) :
    leValue ((leBytes width value ++ rest).take width) = value := by
  rw [take_left' (length_leBytes width value), leValue_leBytes_of_lt bound]

theorem decodeName_encode {name : Bytes} (fits : name.length < 2 ^ 32) :
    decodeName type (leBytes 4 name.length ++ name) =
      .ok { ofType type with columnFamilyName := name } := by
  have size := leValue_take_leBytes 4 fits name
  rw [decodeName, if_neg (by simp), drop_left' (length_leBytes 4 name.length), size,
    if_neg (Nat.lt_irrefl _), take_of_length_le (Nat.le_refl _)]

theorem decodeNumber_encode (number : UInt64) :
    decodeNumber type (leBytes 8 number.toNat) = .ok { ofType type with number } := by
  have value := leValue_take_leBytes 8 number.toNat_lt []
  rw [append_nil] at value
  rw [decodeNumber, if_neg (by simp), value, UInt64.ofNat_toNat]

theorem decodeFrom_encodeTo {edit : ManifestEdit} (fits : edit.encodeTo.length < 2 ^ 32)
    (known : edit.type ≠ .compactionPointer) : decodeFrom edit.encodeTo = .ok edit.logged := by
  have family := leValue_take_leBytes 4 edit.columnFamilyId.toNat_lt
  obtain ⟨type, level, file, columnFamilyId, columnFamilyName, number⟩ := edit
  cases type with
  | addFile =>
    change decodeAddFile (leBytes 4 columnFamilyId.toNat ++ file.encodeTo) = _
    rw [decodeAddFile, if_neg (by simp), drop_left' (length_leBytes 4 _), family,
      FileMetaData.decodeFrom_encodeTo, UInt32.ofNat_toNat]
    rfl
  | deleteFile =>
    have number := leValue_take_leBytes 8 file.fileNumber.toNat_lt []
    rw [append_nil] at number
    change decodeDeleteFile (leBytes 4 columnFamilyId.toNat ++ leBytes 8 file.fileNumber.toNat) = _
    rw [decodeDeleteFile, if_neg (by simp), drop_left' (length_leBytes 4 _),
      if_neg (by simp), family, number, UInt32.ofNat_toNat, UInt64.ofNat_toNat]
    rfl
  | columnFamilyAdd =>
    have nameFits : columnFamilyName.length < 2 ^ 32 := by
      simp only [encodeTo, length_cons, length_append] at fits
      omega
    exact decodeName_encode .columnFamilyAdd nameFits
  | columnFamilyDrop =>
    have nameFits : columnFamilyName.length < 2 ^ 32 := by
      simp only [encodeTo, length_cons, length_append] at fits
      omega
    exact decodeName_encode .columnFamilyDrop nameFits
  | nextFileNumber => exact decodeNumber_encode .nextFileNumber number
  | lastSequence => exact decodeNumber_encode .lastSequence number
  | compactionPointer => exact absurd rfl known
  | logNumber => exact decodeNumber_encode .logNumber number

end ManifestEdit

end CedarGraph
