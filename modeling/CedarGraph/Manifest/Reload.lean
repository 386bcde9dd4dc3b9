import CedarGraph.Lib.Runs
import CedarGraph.Manifest.Edit

/-!
# The version after a restart

`VersionSet` changes its version by the edits; `LoadCurrentVersion` rebuilds one from the
records of the manifest that `CURRENT` names, and `CompactManifest` writes a new manifest. The
two agree as long as the edits keep to the members of a record.
-/

namespace CedarGraph

open FixedWidth List Runs ManifestEdit

structure Version where
  files : List (List FileMetaData)
  columnFamilies : Std.ExtTreeMap UInt32 Bytes

variable (ver : Version)

namespace Version

def empty : Version := ⟨[], ∅⟩

def getFiles (level : Nat) : List FileMetaData :=
  ver.files.getD level []

/-- `files_.resize(level + 1)` where the level is not there yet. -/
def withLevel (level : Nat) : List (List FileMetaData) :=
  if ver.files.length ≤ level then
    ver.files ++ List.replicate (level + 1 - ver.files.length) []
  else ver.files

def applyEdit (edit : ManifestEdit) : Version :=
  match edit.type with
  | .addFile =>
    { ver with
      files := (ver.withLevel edit.level).modify edit.level (· ++ [edit.fileMeta]) }
  | .deleteFile =>
    { ver with
      files := ver.files.modify edit.level
        (List.filter fun file => file.fileNumber ≠ edit.fileMeta.fileNumber) }
  | .columnFamilyAdd =>
    { ver with
      columnFamilies :=
        ver.columnFamilies.insert edit.columnFamilyId edit.columnFamilyName }
  | .columnFamilyDrop =>
    { ver with columnFamilies := ver.columnFamilies.erase edit.columnFamilyId }
  | _ => ver

/-- The same files on the same levels and the same column families. -/
def Agrees (left right : Version) : Prop :=
  (∀ level, left.getFiles level = right.getFiles level) ∧ left.columnFamilies = right.columnFamilies

theorem getD_modify
    {entry : Type*} (entries : List entry) (change : entry → entry) (default : entry)
    {index : Nat} (lt : index < entries.length) (pos : Nat) :
    (entries.modify index change).getD pos default =
      if pos = index then change (entries.getD pos default)
      else entries.getD pos default := by
  simp only [getD_eq_getElem?_getD, getElem?_modify]
  by_cases same : pos = index
  · subst same
    simp [lt]
  · simp [same, Ne.symm same]

theorem getD_withLevel (level pos : Nat) :
    (ver.withLevel level).getD pos [] = ver.getFiles pos := by
  rw [withLevel]
  by_cases beyond : ver.files.length ≤ level
  · rw [if_pos beyond, getFiles]
    simp only [getD_eq_getElem?_getD, getElem?_append, getElem?_replicate]
    by_cases lt : pos < ver.files.length
    · simp [lt]
    · by_cases added : pos - ver.files.length < level + 1 - ver.files.length
      · simp [lt, added]
      · simp [lt, added]
  · rw [if_neg beyond, getFiles]

theorem length_withLevel (level : Nat) : level < (ver.withLevel level).length := by
  rw [withLevel]
  split
  · simp
    omega
  · omega

theorem getFiles_addFile
    {edit : ManifestEdit} (add : edit.type = .addFile) (ver : Version) (level : Nat) :
    (ver.applyEdit edit).getFiles level =
      if level = edit.level then ver.getFiles level ++ [edit.fileMeta]
      else ver.getFiles level := by
  simp only [applyEdit, add]
  rw [getFiles, getD_modify _ _ _ (ver.length_withLevel edit.level), getD_withLevel]

theorem getFiles_deleteFile
    {edit : ManifestEdit} (delete : edit.type = .deleteFile) (ver : Version) (level : Nat) :
    (ver.applyEdit edit).getFiles level =
      if level = edit.level then
        (ver.getFiles level).filter fun file => file.fileNumber ≠ edit.fileMeta.fileNumber
      else ver.getFiles level := by
  simp only [applyEdit, delete]
  by_cases lt : edit.level < ver.files.length
  · rw [getFiles, getD_modify _ _ _ lt]
    rfl
  · -- the level is not there: nothing is erased, and it has no file
    have missing : ver.getFiles edit.level = [] := by
      simp [getFiles, Nat.le_of_not_lt lt]
    rw [getFiles, modify_eq_self (Nat.le_of_not_lt lt)]
    by_cases same : level = edit.level
    · rw [if_pos same, same, missing, filter_nil]
      exact missing
    · rw [if_neg same]
      rfl

end Version

structure VersionSet where
  current : Version
  nextFileNumber : UInt64
  lastSequence : UInt64
  logNumber : UInt64

variable (versions : VersionSet)

namespace VersionSet

def new : VersionSet := ⟨.empty, 1, 0, 0⟩

def applyOne (edit : ManifestEdit) : VersionSet :=
  let versions := { versions with current := versions.current.applyEdit edit }
  match edit.type with
  | .nextFileNumber => { versions with nextFileNumber := edit.number }
  | .lastSequence => { versions with lastSequence := edit.number }
  | .logNumber => { versions with logNumber := edit.number }
  | _ => versions

def applyEdits (edits : List ManifestEdit) : VersionSet :=
  edits.foldl applyOne versions

end VersionSet

/-- The files of the directory: what `CURRENT` names and the manifests by number. -/
structure ManifestDirectory where
  current : Option UInt64
  manifests : UInt64 → Option Bytes

def ManifestDirectory.empty : ManifestDirectory := ⟨none, fun _ => none⟩

/-- `manifestFile` is the manifest that is open for appending. -/
structure ManifestManager where
  dbPath : String
  directory : ManifestDirectory
  manifestFile : Option UInt64

open ManifestManager

structure LoadedVersion where
  version : Version
  nextFileNumber : UInt64
  lastSequence : UInt64

variable (loaded : LoadedVersion)

namespace LoadedVersion

def new : LoadedVersion := ⟨.empty, 1, 0⟩

def apply (edit : ManifestEdit) : LoadedVersion :=
  let loaded := { loaded with version := loaded.version.applyEdit edit }
  match edit.type with
  | .nextFileNumber => { loaded with nextFileNumber := edit.number }
  | .lastSequence => { loaded with lastSequence := edit.number }
  | _ => loaded

/-- A record that cannot be decoded is skipped. -/
def loadRecord (rec : Bytes) : LoadedVersion :=
  match decodeFrom rec with
  | .ok edit => loaded.apply edit
  | .error _ => loaded

def maxRecordLength : Nat := 64 * 1024 * 1024

/-- The loop ends at a length that is cut off, zero or too large, and at a record that is cut
off.  `fuel` bounds the number of records. -/
def loadRecords : Nat → Bytes → LoadedVersion → LoadedVersion
  | 0, _, loaded => loaded
  | fuel + 1, input, loaded =>
    if input.length < 4 then loaded
    else if leValue (input.take 4) = 0 ∨ maxRecordLength < leValue (input.take 4) then loaded
    else if (input.drop 4).length < leValue (input.take 4) then loaded
    else
      loadRecords fuel ((input.drop 4).drop (leValue (input.take 4)))
        (loaded.loadRecord ((input.drop 4).take (leValue (input.take 4))))

end LoadedVersion

namespace ManifestManager

def header : Bytes := leBytes 4 0x464D4E00 ++ leBytes 4 1 ++ leBytes 4 0

def frame (edit : ManifestEdit) : Bytes :=
  leBytes 4 edit.encodeTo.length ++ edit.encodeTo

variable (manager : ManifestManager)

def manifestFilename (number : UInt64) : String :=
  manager.dbPath ++ "/MANIFEST-" ++ toString number.toNat

/-- The directory in which a manifest has been written and `CURRENT` names it. -/
def switchTo (directory : ManifestDirectory) (number : UInt64) (content : Bytes) :
    ManifestDirectory :=
  ⟨some number, Function.update directory.manifests number (some content)⟩

def createNewManifestFile (dbPath : String) (directory : ManifestDirectory) : ManifestManager :=
  ⟨dbPath, switchTo directory 1 header, some 1⟩

def initializeManager (dbPath : String) (directory : ManifestDirectory) (createIfMissing : Bool) :
    Except Status ManifestManager :=
  match directory.current with
  | some number => .ok ⟨dbPath, directory, some number⟩
  | none =>
    if createIfMissing then .ok (createNewManifestFile dbPath directory)
    else .error (.notFound "Manifest" "No CURRENT file")

def loadCurrentVersion : Except Status LoadedVersion :=
  match manager.manifestFile with
  | none => .ok .new
  | some number =>
    match manager.directory.manifests number with
    | none =>
      .error (.ioError "Manifest"
        ("Cannot open manifest file: " ++ manager.manifestFilename number))
    | some content =>
      if content.length < 12 then .error (.corruption "Manifest" "Cannot read header")
      else .ok (LoadedVersion.loadRecords content.length (content.drop 12) .new)

/-- `WriteEditToManifest` appends to the open manifest. -/
def logEdit (edit : ManifestEdit) : Except Status ManifestManager :=
  match manager.manifestFile with
  | none => .error (.ioError "Manifest" "not opened")
  | some number =>
    .ok { manager with
      directory.manifests := Function.update manager.directory.manifests number
        ((manager.directory.manifests number).map (· ++ frame edit)) }

/-- The records of a compacted manifest: the files of the first ten levels, then the numbers.
There is none for a column family. -/
def compactedEdits : List ManifestEdit :=
  ((List.range 10).flatMap fun level =>
    (versions.current.getFiles level).map fun file => .addFile level file 0) ++
  [.nextFileNumber versions.nextFileNumber, .lastSequence versions.lastSequence,
    .logNumber versions.logNumber]

/-- `GetNextFileNumber` takes a number, so the version set changes too. -/
def compactManifest (versions : VersionSet) : Except Status (ManifestManager × VersionSet) :=
  match manager.manifestFile with
  | none => .error (.ioError "CompactManifest" "manifest not opened")
  | some number =>
    .ok ({ manager with
        directory := switchTo manager.directory (number + 1)
          (header ++ (compactedEdits versions).flatMap frame)
        manifestFile := some (number + 1) },
      { versions with nextFileNumber := versions.nextFileNumber + 1 })

end ManifestManager

/-! ## Reading the records back -/

namespace ManifestEdit

/-- The record is not longer than the reader accepts. -/
def Fits (edit : ManifestEdit) : Prop :=
  edit.encodeTo.length ≤ LoadedVersion.maxRecordLength

instance (edit : ManifestEdit) : Decidable edit.Fits :=
  inferInstanceAs (Decidable (_ ≤ _))

end ManifestEdit

namespace LoadedVersion

theorem version_apply (edit : ManifestEdit) :
    (loaded.apply edit).version = loaded.version.applyEdit edit := by
  rw [apply]
  cases edit.type <;> rfl

theorem version_loadRecord {edit : ManifestEdit} (fits : edit.Fits) :
    (loaded.loadRecord edit.encodeTo).version = loaded.version.applyEdit edit.logged := by
  by_cases pointer : edit.type = .compactionPointer
  · have unknown : decodeFrom edit.encodeTo =
        .error (.corruption "ManifestEdit" "unknown type") := by
      simp [encodeTo, pointer, ManifestEditType.toByte, decodeFrom]
    rw [loadRecord, unknown]
    simp [logged, pointer, Version.applyEdit]
  · have short : edit.encodeTo.length < 2 ^ 32 := by
      have bound : edit.encodeTo.length ≤ 64 * 1024 * 1024 := fits
      omega
    rw [loadRecord, decodeFrom_encodeTo short pointer]
    exact version_apply loaded edit.logged

theorem loadRecords_frame {edit : ManifestEdit} (fits : edit.Fits) (rest : Bytes) (fuel : Nat)
    (loaded : LoadedVersion) :
    loadRecords (fuel + 1) (frame edit ++ rest) loaded =
      loadRecords fuel rest (loaded.loadRecord edit.encodeTo) := by
  have bound : edit.encodeTo.length ≤ 64 * 1024 * 1024 := fits
  have nonempty : edit.encodeTo.length ≠ 0 := by
    simp [encodeTo]
  have width := length_leBytes 4 edit.encodeTo.length
  have size : leValue ((frame edit ++ rest).take 4) = edit.encodeTo.length := by
    rw [frame, append_assoc]
    exact leValue_take_leBytes 4 (by omega) _
  have body : (frame edit ++ rest).drop 4 = edit.encodeTo ++ rest := by
    rw [frame, append_assoc, drop_left' width]
  rw [loadRecords, size, body, if_neg (by simp [frame]),
    if_neg (by rw [maxRecordLength]; omega), if_neg (by simp), drop_left' rfl,
    take_left' rfl]

/-- The version that the records of these edits give. -/
def replay (edits : List ManifestEdit) : Version :=
  edits.foldl (fun ver edit => ver.applyEdit edit.logged) ver

theorem version_loadRecords {edits : List ManifestEdit} (fits : ∀ edit ∈ edits, edit.Fits)
    {fuel : Nat} (enough : edits.length ≤ fuel) (loaded : LoadedVersion) :
    (loadRecords fuel (edits.flatMap frame) loaded).version = replay loaded.version edits := by
  induction edits generalizing fuel loaded with
  | nil =>
    cases fuel with
    | zero => rfl
    | succ fuel => rfl
  | cons edit rest ih =>
    rw [forall_mem_cons] at fits
    cases fuel with
    | zero => simp at enough
    | succ fuel =>
      rw [flatMap_cons, loadRecords_frame fits.1, ih fits.2 (Nat.le_of_succ_le_succ enough),
        version_loadRecord loaded fits.1]
      rfl

end LoadedVersion

/-! ## Edits that a record describes -/

namespace Version

/-- The members of the edit that change this version are in its record. -/
def Recordable (edit : ManifestEdit) : Prop :=
  match edit.type with
  | .addFile =>
    edit.level = 0 ∧ edit.fileMeta.smallestSequence = 0 ∧ edit.fileMeta.largestSequence = 0
  | .deleteFile =>
    edit.level = 0 ∨ ∀ file ∈ ver.getFiles 0, file.fileNumber ≠ edit.fileMeta.fileNumber
  | .columnFamilyAdd =>
    edit.columnFamilyId = 0 ∧ edit.columnFamilyName.length + 5 ≤ LoadedVersion.maxRecordLength
  | .columnFamilyDrop =>
    (edit.columnFamilyId = 0 ∨ ver.columnFamilies.isEmpty) ∧
      edit.columnFamilyName.length + 5 ≤ LoadedVersion.maxRecordLength
  | _ => True

instance (ver : Version) (edit : ManifestEdit) : Decidable (ver.Recordable edit) := by
  unfold Recordable
  cases edit.type <;> infer_instance

/-- What such edits can build. -/
structure Shallow (ver : Version) : Prop where
  deeper : ∀ level, level ≠ 0 → ver.getFiles level = []
  plain : ∀ file ∈ ver.getFiles 0, file.smallestSequence = 0 ∧ file.largestSequence = 0
  families : ∀ id : UInt32, id ≠ 0 → ver.columnFamilies[id]? = none

theorem shallow_empty : Shallow empty :=
  ⟨fun _ _ => rfl, by simp [empty, getFiles], by simp [empty]⟩

theorem fits_of_recordable
    {ver : Version} {edit : ManifestEdit} (recordable : ver.Recordable edit) : edit.Fits := by
  rw [Fits, encodeTo]
  cases type : edit.type <;> simp only [Recordable, type] at recordable
  case columnFamilyAdd =>
    simp only [length_cons, length_append, length_leBytes]
    omega
  case columnFamilyDrop =>
    simp only [length_cons, length_append, length_leBytes]
    omega
  all_goals simp [LoadedVersion.maxRecordLength]

variable {replayed ver : Version} {edit : ManifestEdit}

section

variable (agrees : replayed.Agrees ver) (recordable : ver.Recordable edit)
include agrees recordable

theorem agrees_addFile (add : edit.type = .addFile) :
    (replayed.applyEdit edit.logged).Agrees (ver.applyEdit edit) := by
  simp only [Recordable, add] at recordable
  obtain ⟨ground, smallest, largest⟩ := recordable
  have loggedAdd : edit.logged.type = .addFile := by
    simp [logged, add, ofType]
  have loggedLevel : edit.logged.level = edit.level := by
    simp [logged, add, ofType, ground]
  have loggedFile : edit.logged.fileMeta = edit.fileMeta := by
    simp [logged, add, FileMetaData.logged_eq_self smallest largest]
  constructor
  · intro level
    rw [getFiles_addFile loggedAdd, getFiles_addFile add, loggedLevel, loggedFile, agrees.1]
  · simp only [applyEdit, loggedAdd, add]
    exact agrees.2

theorem agrees_deleteFile (shallow : ver.Shallow) (delete : edit.type = .deleteFile) :
    (replayed.applyEdit edit.logged).Agrees (ver.applyEdit edit) := by
  simp only [Recordable, delete] at recordable
  have loggedDelete : edit.logged.type = .deleteFile := by
    simp [logged, delete, ofType]
  have loggedLevel : edit.logged.level = 0 := by
    simp [logged, delete, ofType]
  have loggedNumber : edit.logged.fileMeta.fileNumber = edit.fileMeta.fileNumber := by
    simp [logged, delete]
  constructor
  · intro level
    rw [getFiles_deleteFile loggedDelete, getFiles_deleteFile delete, loggedLevel, loggedNumber,
      agrees.1]
    rcases recordable with ground | absent
    · rw [ground]
    · -- neither deletion removes a file
      by_cases bottom : level = 0
      · have kept : (ver.getFiles level).filter
            (fun file => file.fileNumber ≠ edit.fileMeta.fileNumber) = ver.getFiles level := by
          rw [bottom, filter_eq_self]
          intro file mem
          simpa using absent file mem
        rw [if_pos bottom, kept, ite_self]
      · rw [if_neg bottom, shallow.deeper level bottom, filter_nil, ite_self]
  · simp only [applyEdit, loggedDelete, delete]
    exact agrees.2

theorem Agrees.applyEdit (shallow : ver.Shallow) :
    (replayed.applyEdit edit.logged).Agrees (ver.applyEdit edit) := by
  cases type : edit.type
  case addFile =>
    exact agrees_addFile agrees recordable type
  case deleteFile =>
    exact agrees_deleteFile agrees recordable shallow type
  case columnFamilyAdd =>
    simp only [Recordable, type] at recordable
    simp only [Version.applyEdit, logged, type, ofType]
    refine ⟨agrees.1, ?_⟩
    rw [agrees.2, recordable.1]
  case columnFamilyDrop =>
    simp only [Recordable, type] at recordable
    simp only [Version.applyEdit, logged, type, ofType]
    refine ⟨agrees.1, ?_⟩
    rcases recordable.1 with named | none
    · rw [agrees.2, named]
    · rw [agrees.2, Std.ExtTreeMap.isEmpty_iff.mp none]
      simp
  all_goals
    simp only [Version.applyEdit, logged, type, ofType]
    exact agrees

end

theorem Shallow.applyEdit (shallow : ver.Shallow) (recordable : ver.Recordable edit) :
    (ver.applyEdit edit).Shallow := by
  cases type : edit.type <;> simp only [Recordable, type] at recordable
  case addFile =>
    constructor
    · intro level above
      rw [getFiles_addFile type, if_neg (by omega)]
      exact shallow.deeper level above
    · intro file mem
      rw [getFiles_addFile type, if_pos recordable.1.symm, mem_append, mem_singleton] at mem
      rcases mem with old | rfl
      · exact shallow.plain file old
      · exact recordable.2
    · simp only [Version.applyEdit, type]
      exact shallow.families
  case deleteFile =>
    constructor
    · intro level above
      rw [getFiles_deleteFile type, shallow.deeper level above, filter_nil, ite_self]
    · intro file mem
      rw [getFiles_deleteFile type] at mem
      split at mem
      · exact shallow.plain file (mem_of_mem_filter mem)
      · exact shallow.plain file mem
    · simp only [Version.applyEdit, type]
      exact shallow.families
  case columnFamilyAdd =>
    have families : ∀ id : UInt32, id ≠ 0 →
        (ver.columnFamilies.insert edit.columnFamilyId edit.columnFamilyName)[id]? = none := by
      intro id other
      rw [recordable.1, Std.ExtTreeMap.getElem?_insert, if_neg (by simpa using other.symm)]
      exact shallow.families id other
    simp only [Version.applyEdit, type]
    exact ⟨shallow.deeper, shallow.plain, families⟩
  case columnFamilyDrop =>
    have families : ∀ id : UInt32, id ≠ 0 →
        (ver.columnFamilies.erase edit.columnFamilyId)[id]? = none := by
      intro id other
      rw [Std.ExtTreeMap.getElem?_erase, shallow.families id other, ite_self]
    simp only [Version.applyEdit, type]
    exact ⟨shallow.deeper, shallow.plain, families⟩
  all_goals
    simp only [Version.applyEdit, type]
    exact shallow

end Version

/-! ## A compacted manifest -/

namespace ManifestManager

theorem replay_addFiles {files : List FileMetaData}
    (plain : ∀ file ∈ files, file.smallestSequence = 0 ∧ file.largestSequence = 0) (ver : Version) :
    (∀ level, (LoadedVersion.replay ver (files.map fun file => .addFile 0 file 0)).getFiles level =
      if level = 0 then ver.getFiles level ++ files else ver.getFiles level) ∧
    (LoadedVersion.replay ver (files.map fun file => .addFile 0 file 0)).columnFamilies =
      ver.columnFamilies := by
  induction files generalizing ver with
  | nil => simp [LoadedVersion.replay]
  | cons file rest ih =>
    rw [forall_mem_cons] at plain
    have logged : (addFile 0 file 0).logged = .addFile 0 file 0 := by
      simp [logged, addFile, ofType, FileMetaData.logged_eq_self plain.1.1 plain.1.2]
    have first : ∀ level, (ver.applyEdit (.addFile 0 file 0)).getFiles level =
          if level = 0 then ver.getFiles level ++ [file] else ver.getFiles level :=
      Version.getFiles_addFile rfl ver
    have later := ih plain.2 (ver.applyEdit (.addFile 0 file 0))
    rw [map_cons, LoadedVersion.replay, foldl_cons, logged]
    constructor
    · intro level
      have files := later.1 level
      rw [LoadedVersion.replay] at files
      rw [files, first level]
      by_cases bottom : level = 0
      · simp [bottom]
      · simp [bottom]
    · exact later.2

theorem compactedEdits_of_shallow {versions : VersionSet} (shallow : versions.current.Shallow) :
    compactedEdits versions =
      ((versions.current.getFiles 0).map fun file => .addFile 0 file 0) ++
        [.nextFileNumber versions.nextFileNumber, .lastSequence versions.lastSequence,
          .logNumber versions.logNumber] := by
  have deeper : ((range 9).map Nat.succ).flatMap (fun level =>
      (versions.current.getFiles level).map fun file => addFile level file 0) = [] := by
    rw [flatMap_eq_nil_iff]
    intro level mem
    obtain ⟨below, _, rfl⟩ := mem_map.mp mem
    rw [shallow.deeper below.succ (Nat.succ_ne_zero below), map_nil]
  rw [compactedEdits, range_succ_eq_map, flatMap_cons, deeper, append_nil]

theorem fits_compactedEdits : ∀ edit ∈ compactedEdits versions, edit.Fits := by
  intro edit mem
  have files : ∀ level file, (addFile level file 0).Fits := by
    intro level file
    simp [Fits, encodeTo, addFile, ofType, LoadedVersion.maxRecordLength]
  simp only [compactedEdits, mem_append, mem_flatMap, mem_map, mem_cons,
    not_mem_nil, or_false] at mem
  rcases mem with ⟨level, _, file, _, rfl⟩ | rfl | rfl | rfl
  · exact files level file
  all_goals simp [Fits, encodeTo, nextFileNumber, lastSequence, logNumber, ofType,
      LoadedVersion.maxRecordLength]

/-- The new manifest has the files of the version and none of its column families. -/
theorem replay_compactedEdits {versions : VersionSet} (shallow : versions.current.Shallow)
    (none : versions.current.columnFamilies.isEmpty) :
    (LoadedVersion.replay .empty (compactedEdits versions)).Agrees versions.current := by
  have replayed := replay_addFiles shallow.plain .empty
  have numbers : LoadedVersion.replay .empty (compactedEdits versions) = LoadedVersion.replay .empty
        ((versions.current.getFiles 0).map fun file => .addFile 0 file 0) := by
    rw [compactedEdits_of_shallow shallow, LoadedVersion.replay, foldl_append]
    rfl
  rw [numbers]
  constructor
  · intro level
    rw [replayed.1 level]
    by_cases bottom : level = 0
    · rw [if_pos bottom, bottom]
      rfl
    · rw [if_neg bottom, shallow.deeper level bottom]
      rfl
  · rw [replayed.2, Std.ExtTreeMap.isEmpty_iff.mp none]
    rfl

end ManifestManager

/-- The version set of a database and the manager that logs for it. -/
structure ManifestSystem where
  versions : VersionSet
  manager : ManifestManager

inductive ManifestOperation where
  | edit (edit : ManifestEdit)
  | compact
  deriving DecidableEq, Repr

namespace ManifestSystem

/-- A new database: `Initialize` finds no `CURRENT`. -/
def start (dbPath : String) : ManifestSystem :=
  ⟨.new, .createNewManifestFile dbPath .empty⟩

variable (state : ManifestSystem)

def step : ManifestOperation → ManifestSystem
  | .edit edit =>
    { versions := state.versions.applyEdits [edit]
      manager := (state.manager.logEdit edit).toOption.getD state.manager }
  | .compact =>
    match state.manager.compactManifest state.versions with
    | .ok (manager, versions) => ⟨versions, manager⟩
    | .error _ => state

/-- `Initialize` and `LoadCurrentVersion` of a new manager on the same directory. -/
def restart : Except Status LoadedVersion :=
  (initializeManager state.manager.dbPath state.manager.directory false).bind loadCurrentVersion

def Reconstructs : Prop :=
  ∃ loaded, state.restart = .ok loaded ∧ loaded.version.Agrees state.versions.current

/-- Edits keep to the members of a record, and a manifest is compacted only while there is no
column family. -/
def Recordable : ManifestOperation → Prop
  | .edit edit => state.versions.current.Recordable edit
  | .compact => state.versions.current.columnFamilies.isEmpty

instance (state : ManifestSystem) (op : ManifestOperation) :
    Decidable (state.Recordable op) := by
  cases op <;> unfold Recordable <;> infer_instance

/-- The open manifest is the one that `CURRENT` names, and its records give the version. -/
structure Logged (state : ManifestSystem) : Prop where
  logs : ∃ number edits, state.manager.manifestFile = some number ∧
    state.manager.directory.current = some number ∧
    state.manager.directory.manifests number = some (header ++ edits.flatMap frame) ∧
    (∀ edit ∈ edits, edit.Fits) ∧
    (LoadedVersion.replay .empty edits).Agrees state.versions.current
  shallow : state.versions.current.Shallow

theorem logged_start (dbPath : String) : (start dbPath).Logged := by
  constructor
  · refine ⟨1, [], rfl, rfl, ?_, by simp, fun _ => rfl, rfl⟩
    simp [start, createNewManifestFile, switchTo]
  · exact Version.shallow_empty

theorem current_applyEdits (edit : ManifestEdit) :
    (versions.applyEdits [edit]).current = versions.current.applyEdit edit := by
  simp only [VersionSet.applyEdits, foldl_cons, foldl_nil, VersionSet.applyOne]
  cases edit.type <;> rfl

variable {state : ManifestSystem}

theorem Logged.edit (logged : state.Logged) {edit : ManifestEdit}
    (recordable : state.versions.current.Recordable edit) : (state.step (.edit edit)).Logged := by
  obtain ⟨number, edits, opened, cur, content, fits, agrees⟩ := logged.logs
  have appended : (state.step (.edit edit)).manager = { state.manager with
        directory.manifests := Function.update state.manager.directory.manifests number
          ((state.manager.directory.manifests number).map (· ++ frame edit)) } := by
    simp [step, logEdit, opened, Except.toOption]
  have ver : (state.step (.edit edit)).versions.current = state.versions.current.applyEdit edit :=
    current_applyEdits state.versions edit
  constructor
  · refine ⟨number, edits ++ [edit], ?_, ?_, ?_, ?_, ?_⟩
    · rw [appended]
      exact opened
    · rw [appended]
      exact cur
    · rw [appended]
      simp [content]
    · rw [forall_mem_append, forall_mem_singleton]
      exact ⟨fits, Version.fits_of_recordable recordable⟩
    · rw [ver, LoadedVersion.replay, foldl_append]
      exact agrees.applyEdit recordable logged.shallow
  · rw [ver]
    exact logged.shallow.applyEdit recordable

theorem Logged.compact
    (logged : state.Logged) (none : state.versions.current.columnFamilies.isEmpty) :
    (state.step .compact).Logged := by
  obtain ⟨number, edits, opened, cur, content, fits, agrees⟩ := logged.logs
  have compacted : state.step .compact =
      ⟨{ state.versions with nextFileNumber := state.versions.nextFileNumber + 1 },
        { state.manager with
          directory := switchTo state.manager.directory (number + 1) (header ++
              (compactedEdits state.versions).flatMap frame)
          manifestFile := some (number + 1) }⟩ := by
    simp [step, compactManifest, opened]
  rw [compacted]
  constructor
  · refine ⟨number + 1, compactedEdits state.versions, rfl, rfl, ?_,
      fits_compactedEdits state.versions,
      replay_compactedEdits logged.shallow none⟩
    simp [switchTo]
  · exact logged.shallow

theorem Logged.step (logged : state.Logged) {op : ManifestOperation}
    (recordable : state.Recordable op) : (state.step op).Logged := by
  cases op with
  | edit edit => exact logged.edit recordable
  | compact => exact logged.compact recordable

theorem length_le_length_frames (edits : List ManifestEdit) :
    edits.length ≤ (edits.flatMap frame).length := by
  induction edits with
  | nil => exact Nat.le_refl 0
  | cons edit rest ih =>
    simp only [flatMap_cons, length_append, length_cons, frame, length_leBytes]
    omega

theorem Logged.reconstructs (logged : state.Logged) : state.Reconstructs := by
  obtain ⟨number, edits, _, cur, content, fits, agrees⟩ := logged.logs
  have headerLength : header.length = 12 := rfl
  have enough : edits.length ≤ (header ++ edits.flatMap frame).length := by
    have recs := length_le_length_frames edits
    rw [length_append]
    omega
  refine ⟨LoadedVersion.loadRecords (header ++ edits.flatMap frame).length
    (edits.flatMap frame) .new, ?_, ?_⟩
  · simp only [restart, initializeManager, cur, Except.bind, loadCurrentVersion, content]
    rw [if_neg (by simp [headerLength]), drop_left' headerLength]
  · rw [LoadedVersion.version_loadRecords fits enough]
    exact agrees

/-- In every state that such operations reach, a restart finds the version. -/
theorem reconstructs_run (dbPath : String) (ops : List ManifestOperation)
    (recordable : Admissible step Recordable (start dbPath) ops) :
    (run step (start dbPath) ops).Reconstructs := by
  have logged : (run step (start dbPath) ops).Logged :=
    invariant_run (fun _ _ logged recordable => logged.step recordable)
      (logged_start dbPath) recordable
  exact logged.reconstructs

def exampleFile (fileNumber : UInt64) : FileMetaData :=
  { FileMetaData.default with fileNumber, largestEntityId := 9, numEntries := 3 }

/-- Two files, one of them deleted, a compaction and a column family. -/
def exampleOperations : List ManifestOperation :=
  [.edit (.addFile 0 (exampleFile 7) 0), .edit (.addFile 0 (exampleFile 8) 0),
    .edit (.deleteFile 0 7 0), .compact, .edit (.addColumnFamily [0x63, 0x66])]

theorem reconstructs_after_compaction :
    Admissible step Recordable (start "db") exampleOperations ∧
      (run step (start "db") exampleOperations).Reconstructs := by
  have recordable : Admissible step Recordable (start "db") exampleOperations := by
    decide +kernel
  exact ⟨recordable, reconstructs_run "db" exampleOperations recordable⟩

/-- A file that is added on level 1 is on level 0 after a restart: the record has no level. -/
theorem level_is_lost :
    ¬ (run step (start "db") [.edit (.addFile 1 (exampleFile 7) 0)]).Reconstructs := by
  rintro ⟨loaded, restarted, agrees⟩
  have reloaded : (run step (start "db") [.edit (.addFile 1 (exampleFile 7) 0)]).restart.map
      (fun loaded => loaded.version.getFiles 1) = .ok [] := by
    decide +kernel
  rw [restarted] at reloaded
  have missing : loaded.version.getFiles 1 = [] := Except.ok.inj reloaded
  rw [agrees.1 1] at missing
  revert missing
  decide

end ManifestSystem

end CedarGraph
