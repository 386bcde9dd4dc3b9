import CedarGraph.Sst.Reader

/-!
# The state of the size-tiered compaction engine

`SizeTieredCompactionEngine` keeps the metadata of the SST files by level, the numbers of the
files that are being compacted and the blob references. Members that no modelled function reads
(paths, sizes of blob files, statistics) are left out.
-/

namespace CedarGraph

open FixedWidth List

structure ZoneSstMeta where
  fileNumber : Nat
  fileSize : Nat
  numEntries : Nat
  level : Nat
  range : KeyRange
  columnId : UInt16
  entityType : UInt8
  blobFileNumber : Nat
  referencedBlobFiles : List Nat
  temporalFilter : Option Bytes
  deriving DecidableEq, Repr

/-- The comparison `total_size() > capacity_threshold * level_size_trigger_ratio`
is made in floating point; `overCapacity level size` stands for it.  Levels 0 and 1
are indexed without a check, so both exist. -/
structure SizeTieredConfig where
  l0MaxFiles : Nat
  maxLevels : Nat
  twoLevels : 2 ≤ maxLevels
  maxMergeWidth : Nat
  tombstoneCleanupLevel : Nat
  enableBackgroundCompaction : Bool
  overCapacity : Nat → Nat → Bool

/-- The default configuration: level capacity grows tenfold from 256 MB and is
exceeded at 1.2 times that. -/
def SizeTieredConfig.default : SizeTieredConfig where
  l0MaxFiles := 4
  maxLevels := 7
  twoLevels := by decide
  maxMergeWidth := 10
  tombstoneCleanupLevel := 3
  enableBackgroundCompaction := true
  overCapacity level size := decide (256 * 2 ^ 20 * 10 ^ level * 12 < size * 10)

abbrev Levels := List (List ZoneSstMeta)

namespace Levels

def files (levels : Levels) (level : Nat) : List ZoneSstMeta :=
  levels.getD level []

def setFiles (levels : Levels) (level : Nat) (files : List ZoneSstMeta) : Levels :=
  levels.set level files

def all (levels : Levels) : List ZoneSstMeta :=
  levels.flatten

variable {level : Nat} {levels : Levels}

theorem files_setFiles (lt : level < levels.length) (files : List ZoneSstMeta) (other : Nat) :
    (levels.setFiles level files).files other =
      if other = level then files else levels.files other := by
  rw [Levels.files, Levels.files, setFiles, getD_eq_getElem?_getD,
    getD_eq_getElem?_getD, getElem?_set]
  by_cases same : level = other
  · subst same
    simp [lt]
  · have ne : ¬ other = level := fun equal => same equal.symm
    simp [same, ne]

theorem mem_files_push (lt : level < levels.length) {file other : ZoneSstMeta} {place : Nat}
    (mem : other ∈ (levels.setFiles level (levels.files level ++ [file])).files place) :
    other ∈ levels.files place ∨ other = file ∧ place = level := by
  rw [files_setFiles lt] at mem
  split at mem
  · rename_i same
    rw [same]
    exact (mem_append.mp mem).imp_right fun new => ⟨mem_singleton.mp new, rfl⟩
  · exact Or.inl mem

theorem mem_all_iff {file : ZoneSstMeta} :
    file ∈ levels.all ↔ ∃ level < levels.length, file ∈ levels.files level := by
  rw [all, mem_flatten]
  constructor
  · rintro ⟨files, filesMember, mem⟩
    obtain ⟨level, lt, rfl⟩ := getElem_of_mem filesMember
    refine ⟨level, lt, ?_⟩
    rw [files, getD_eq_getElem?_getD, getElem?_eq_getElem lt]
    exact mem
  · rintro ⟨level, lt, mem⟩
    rw [files, getD_eq_getElem?_getD, getElem?_eq_getElem lt] at mem
    exact ⟨levels[level], getElem_mem lt, mem⟩

theorem files_eq_nil (outside : levels.length ≤ level) : levels.files level = [] := by
  rw [files, getD_eq_getElem?_getD, getElem?_eq_none outside]
  rfl

theorem mem_all_of_mem_files {file : ZoneSstMeta} (mem : file ∈ levels.files level) :
    file ∈ levels.all := by
  refine mem_all_iff.mpr ⟨level, ?_, mem⟩
  by_contra outside
  rw [files_eq_nil (Nat.le_of_not_lt outside)] at mem
  cases mem

theorem mem_all_push_iff (lt : level < levels.length) {file other : ZoneSstMeta} :
    other ∈ (levels.setFiles level (levels.files level ++ [file])).all ↔
      other ∈ levels.all ∨ other = file := by
  have sameLength : (levels.setFiles level (levels.files level ++ [file])).length =
      levels.length := length_set
  rw [mem_all_iff, mem_all_iff, sameLength]
  constructor
  · rintro ⟨place, inside, mem⟩
    exact (mem_files_push lt mem).imp (fun old => ⟨place, inside, old⟩) And.left
  · rintro (⟨place, inside, mem⟩ | rfl)
    · refine ⟨place, inside, ?_⟩
      rw [files_setFiles lt]
      split
      · rename_i same
        exact mem_append_left _ (same ▸ mem)
      · exact mem
    · refine ⟨level, lt, ?_⟩
      rw [files_setFiles lt, if_pos rfl]
      exact mem_append_right _ mem_cons_self

end Levels

/-- `BlobReferenceManager` as the set of pairs (blob file, referencing SST file). -/
abbrev BlobReferences := List (Nat × Nat)

namespace BlobReferences

variable (references : BlobReferences)

def addReference (blob sst : Nat) : BlobReferences :=
  references.insert (blob, sst)

def removeReference (blob sst : Nat) : BlobReferences :=
  references.filter fun pair => !decide (pair = (blob, sst))

def getReferenceCount (blob : Nat) : Nat :=
  (references.filter fun pair => decide (pair.1 = blob)).length

def canDeleteBlob (blob : Nat) : Bool :=
  decide (references.getReferenceCount blob = 0)

def register (file : ZoneSstMeta) : BlobReferences :=
  let own :=
    if file.blobFileNumber ≠ 0 then
      references.addReference file.blobFileNumber file.fileNumber
    else references
  file.referencedBlobFiles.foldl (fun cur blob => cur.addReference blob file.fileNumber) own

theorem canDeleteBlob_eq_false_iff {references : BlobReferences} {blob : Nat} :
    references.canDeleteBlob blob = false ↔ ∃ sst, (blob, sst) ∈ references := by
  rw [canDeleteBlob, getReferenceCount, decide_eq_false_iff_not, length_eq_zero_iff,
    filter_eq_nil_iff]
  simp only [decide_eq_true_eq, not_forall, not_not, Prod.exists, exists_prop]
  constructor
  · rintro ⟨_, sst, mem, rfl⟩
    exact ⟨sst, mem⟩
  · rintro ⟨sst, mem⟩
    exact ⟨blob, sst, mem, rfl⟩

private theorem mem_foldl_addReference
    (blobs : List Nat) (sst : Nat) (references : BlobReferences) {pair : Nat × Nat} :
    pair ∈ blobs.foldl (fun cur blob => cur.addReference blob sst) references ↔
      pair ∈ references ∨ (pair.1 ∈ blobs ∧ pair.2 = sst) := by
  induction blobs generalizing references with
  | nil => simp
  | cons head tail ih =>
    rw [foldl_cons, ih, addReference, mem_insert_iff]
    rcases pair with ⟨blob, file⟩
    simp only [Prod.mk.injEq, mem_cons]
    constructor
    · rintro ((⟨rfl, rfl⟩ | old) | ⟨inTail, rfl⟩)
      · exact Or.inr ⟨Or.inl rfl, rfl⟩
      · exact Or.inl old
      · exact Or.inr ⟨Or.inr inTail, rfl⟩
    · rintro (old | ⟨rfl | inTail, rfl⟩)
      · exact Or.inl (Or.inr old)
      · exact Or.inl (Or.inl ⟨rfl, rfl⟩)
      · exact Or.inr ⟨inTail, rfl⟩

theorem mem_register_iff {references : BlobReferences} {file : ZoneSstMeta} {pair : Nat × Nat} :
    pair ∈ references.register file ↔ pair ∈ references ∨
      (file.blobFileNumber ≠ 0 ∧ pair = (file.blobFileNumber, file.fileNumber)) ∨
      (pair.1 ∈ file.referencedBlobFiles ∧ pair.2 = file.fileNumber) := by
  rw [register, mem_foldl_addReference]
  by_cases own : file.blobFileNumber ≠ 0
  · rw [if_pos own, addReference, mem_insert_iff]
    tauto
  · rw [if_neg own]
    tauto

end BlobReferences

structure CompactionEngine where
  levels : Levels
  compacting : List Nat
  blobReferences : BlobReferences

namespace CompactionEngine

def init (config : SizeTieredConfig) : CompactionEngine :=
  ⟨List.replicate config.maxLevels [], [], []⟩

theorem all_levels_init (config : SizeTieredConfig) : (init config).levels.all = [] := by
  simp [init, Levels.all]

/-- `AddSSTFile` up to the scheduling decision: an invalid level is refused, a
file already listed in its level changes nothing. -/
def addSSTFile (eng : CompactionEngine) (config : SizeTieredConfig)
    (file : ZoneSstMeta) : CompactionEngine :=
  if config.maxLevels ≤ file.level then eng
  else if (eng.levels.files file.level).any
      (fun other => decide (other.fileNumber = file.fileNumber)) then eng
  else
    { eng with
      levels := eng.levels.setFiles file.level (eng.levels.files file.level ++ [file])
      blobReferences := eng.blobReferences.register file }

theorem addSSTFile_of_new
    {eng : CompactionEngine} {config : SizeTieredConfig} {file : ZoneSstMeta}
    (lt : file.level < config.maxLevels)
    (isNew : ∀ other ∈ eng.levels.files file.level, other.fileNumber ≠ file.fileNumber) :
    eng.addSSTFile config file =
      { eng with
        levels := eng.levels.setFiles file.level (eng.levels.files file.level ++ [file])
        blobReferences := eng.blobReferences.register file } := by
  have notListed : ¬ (eng.levels.files file.level).any
      (fun other => decide (other.fileNumber = file.fileNumber)) = true := by
    intro listed
    rcases any_eq_true.mp listed with ⟨other, mem, same⟩
    exact isNew other mem (of_decide_eq_true same)
  rw [addSSTFile, if_neg (Nat.not_le.mpr lt), if_neg notListed]

theorem mem_files_addSSTFile
    {eng : CompactionEngine} {config : SizeTieredConfig} {added file : ZoneSstMeta}
    {level : Nat} (mem : file ∈ eng.levels.files level) :
    file ∈ (eng.addSSTFile config added).levels.files level := by
  rw [addSSTFile]
  split
  · exact mem
  split
  · exact mem
  by_cases lt : added.level < eng.levels.length
  · rw [Levels.files_setFiles lt]
    split
    · rename_i same
      rw [same] at mem
      exact mem_append_left _ mem
    · exact mem
  · rw [Levels.setFiles, set_eq_of_length_le (Nat.le_of_not_lt lt)]
    exact mem

/-- `GetFilesForEntity`: column `UINT16_MAX` and type 0 of a file match every
query. -/
def fileMatches (id : UInt64) (col : UInt16) (kind : UInt8) (file : ZoneSstMeta) : Bool :=
  decide ((file.columnId = col ∨ file.columnId = uint16Max) ∧
    (file.entityType = kind ∨ file.entityType = 0) ∧
    file.range.minEntityId ≤ id ∧ id ≤ file.range.maxEntityId)

def getFilesForEntity (eng : CompactionEngine) (id : UInt64)
    (col : UInt16) (kind : UInt8) : List ZoneSstMeta :=
  eng.levels.all.filter (fileMatches id col kind)

end CompactionEngine

end CedarGraph
