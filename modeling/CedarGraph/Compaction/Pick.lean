import CedarGraph.Compaction.State

/-!
# Choosing a compaction task

`PickNextCompaction` looks at level 0 first. The level-0 branch marks its inputs but does not
look at the overlapping files of level 1; the branch for the other levels checks both and marks
nothing.
-/

namespace CedarGraph

open List

/-- The priority and the estimated size of a task are only reported. -/
structure CompactionTask where
  inputLevel : Nat
  outputLevel : Nat
  inputFiles : List ZoneSstMeta
  overlappingFiles : List ZoneSstMeta
  deriving DecidableEq, Repr

def CompactionTask.files (task : CompactionTask) : List ZoneSstMeta :=
  task.inputFiles ++ task.overlappingFiles

structure SizeSort where
  sort : List ZoneSstMeta → List ZoneSstMeta
  perm : ∀ files, (sort files).Perm files
  sorted : ∀ files, (sort files).Pairwise fun prev later =>
    ¬ later.fileSize < prev.fileSize

section InsertionSort

private def NotLarger (prev later : ZoneSstMeta) : Prop :=
  ¬ later.fileSize < prev.fileSize

private instance : DecidableRel NotLarger := fun _ _ => inferInstanceAs (Decidable (¬ _))

private instance : Std.Total NotLarger where
  total left right := by
    rw [NotLarger, NotLarger]
    omega

private instance : IsTrans ZoneSstMeta NotLarger where
  trans left middle right first second := by
    rw [NotLarger] at first second ⊢
    omega

def SizeSort.byInsertion : SizeSort where
  sort := List.insertionSort NotLarger
  perm := perm_insertionSort NotLarger
  sorted := pairwise_insertionSort NotLarger

end InsertionSort

namespace SizeTieredConfig

/-- `needs_compaction`: by size, and for level 0 also by the number of files. -/
def needsCompaction (config : SizeTieredConfig) (level : Nat) (files : List ZoneSstMeta) : Bool :=
  config.overCapacity level (files.map ZoneSstMeta.fileSize).sum ||
    (decide (level = 0) && decide (config.l0MaxFiles < files.length))

/-- `has_too_many_small_files` of level 0, with the threshold of 8 MB. -/
def hasTooManySmallFiles (config : SizeTieredConfig) (files : List ZoneSstMeta) : Bool :=
  decide (config.l0MaxFiles / 2 <
    (files.filter fun file => decide (file.fileSize < 8 * 1024 * 1024)).length)

end SizeTieredConfig

namespace KeyRange

def start : KeyRange :=
  ⟨uint64Max, 0, uint64Max, 0⟩

def union (left right : KeyRange) : KeyRange :=
  ⟨if right.minEntityId < left.minEntityId then right.minEntityId else left.minEntityId,
    if left.maxEntityId < right.maxEntityId then right.maxEntityId else left.maxEntityId,
    if right.minTimestamp < left.minTimestamp then right.minTimestamp else left.minTimestamp,
    if left.maxTimestamp < right.maxTimestamp then right.maxTimestamp else left.maxTimestamp⟩

def overlaps (left right : KeyRange) : Bool :=
  !decide (left.maxEntityId < right.minEntityId ∨ right.maxEntityId < left.minEntityId) &&
    !decide (left.maxTimestamp < right.minTimestamp ∨ right.maxTimestamp < left.minTimestamp)

def ofFiles (files : List ZoneSstMeta) : KeyRange :=
  files.foldl (fun range file => range.union file.range) start

theorem covers_union
    {left right : KeyRange} {key : CedarKey} (covered : left.Covers key ∨ right.Covers key) :
    (left.union right).Covers key := by
  rcases covered with ⟨minEntity, maxEntity, minTime, maxTime⟩ |
    ⟨minEntity, maxEntity, minTime, maxTime⟩
  all_goals
    rw [UInt64.le_iff_toNat_le] at minEntity maxEntity minTime maxTime
    constructor <;> simp only [union, UInt64.le_iff_toNat_le, UInt64.lt_iff_toNat_lt] <;>
      split <;> omega

theorem covers_ofFiles
    {files : List ZoneSstMeta} {file : ZoneSstMeta} (mem : file ∈ files) {key : CedarKey}
    (covered : file.range.Covers key) : (ofFiles files).Covers key := by
  exact Runs.foldl_of_mem (p := fun range : KeyRange => range.Covers key)
    (fun _ _ already => covers_union (Or.inl already))
    (fun _ => covers_union (Or.inr covered)) mem _

end KeyRange

def findOverlapping (files : List ZoneSstMeta) (range : KeyRange) : List ZoneSstMeta :=
  files.filter fun file => file.range.overlaps range

namespace CompactionEngine

section Pick

variable (config : SizeTieredConfig) (sizeSort : SizeSort) (eng : CompactionEngine)

def busy (file : ZoneSstMeta) : Bool :=
  decide (file.fileNumber ∈ eng.compacting)

/-- At most `max_merge_width` files, the smallest ones. -/
def limitWidth (files : List ZoneSstMeta) : List ZoneSstMeta :=
  if config.maxMergeWidth < files.length then (sizeSort.sort files).take config.maxMergeWidth
  else files

/-- The task that merges files of a level with the overlapping files below. -/
def taskOf (level : Nat) : CompactionTask :=
  let inputs := limitWidth config sizeSort (eng.levels.files level)
  { inputLevel := level
    outputLevel := level + 1
    inputFiles := inputs
    overlappingFiles :=
      findOverlapping (eng.levels.files (level + 1)) (KeyRange.ofFiles inputs) }

/-- The level-0 branch is taken when there is more than one file and none is busy. -/
def picksLevel0 : Bool :=
  decide (1 < (eng.levels.files 0).length) && !(eng.levels.files 0).any eng.busy

/-- The condition under which the loop over the other levels stops at a level. -/
def picksLevel (level : Nat) : Bool :=
  config.needsCompaction level (eng.levels.files level) && !(eng.levels.files level).any eng.busy &&
    !(eng.taskOf config sizeSort level).overlappingFiles.any eng.busy

def mark (files : List ZoneSstMeta) : CompactionEngine :=
  { eng with compacting := eng.compacting ++ files.map ZoneSstMeta.fileNumber }

def unmark (files : List ZoneSstMeta) : CompactionEngine :=
  { eng with
    compacting := eng.compacting.filter fun number =>
      !decide (number ∈ files.map ZoneSstMeta.fileNumber) }

def pickNextCompaction : CompactionEngine × Option CompactionTask :=
  if eng.picksLevel0 then
    let task := eng.taskOf config sizeSort 0
    (eng.mark task.inputFiles, some task)
  else
    match (List.range' 1 (config.maxLevels - 2)).find? (eng.picksLevel config sizeSort) with
    | none => (eng, none)
    | some level => (eng, some (eng.taskOf config sizeSort level))

/-- `ScheduleCompaction`: the task that is put into the queue. -/
def scheduleCompaction : CompactionEngine × Option CompactionTask :=
  if config.enableBackgroundCompaction then eng.pickNextCompaction config sizeSort
  else (eng, none)

/-- `AddSSTFile`: a new file of level 0 may cause a compaction to be scheduled. -/
def addSSTFileAndSchedule (file : ZoneSstMeta) : CompactionEngine × Option CompactionTask :=
  let added := eng.addSSTFile config file
  let isNew := decide (file.level < config.maxLevels) &&
    !(eng.levels.files file.level).any fun other =>
      decide (other.fileNumber = file.fileNumber)
  if isNew && decide (file.level = 0) && config.enableBackgroundCompaction &&
      (config.needsCompaction 0 (added.levels.files 0) ||
        config.hasTooManySmallFiles (added.levels.files 0)) then
    added.scheduleCompaction config sizeSort
  else (added, none)

end Pick

section Picked

variable {config : SizeTieredConfig} {sizeSort : SizeSort} {eng : CompactionEngine}

theorem mem_of_mem_limitWidth {files : List ZoneSstMeta} {file : ZoneSstMeta}
    (mem : file ∈ limitWidth config sizeSort files) : file ∈ files := by
  rw [limitWidth] at mem
  split at mem
  · exact (sizeSort.perm files).mem_iff.mp (mem_of_mem_take mem)
  · exact mem

/-- What a picked task says about the engine it was picked from. -/
structure Picked (config : SizeTieredConfig) (eng next : CompactionEngine)
    (task : CompactionTask) : Prop where
  levels : next.levels = eng.levels
  blobReferences : next.blobReferences = eng.blobReferences
  below : task.outputLevel = task.inputLevel + 1
  inside : task.outputLevel < config.maxLevels
  inputs : ∀ file ∈ task.inputFiles, file ∈ eng.levels.files task.inputLevel
  overlapping : ∀ file ∈ task.overlappingFiles, file ∈ eng.levels.files task.outputLevel
  inputsFree : ∀ file ∈ task.inputFiles, file.fileNumber ∉ eng.compacting
  overlappingFree : task.inputLevel ≠ 0 →
    ∀ file ∈ task.overlappingFiles, file.fileNumber ∉ eng.compacting

theorem Picked.mem_all {eng next : CompactionEngine} {task : CompactionTask}
    (picked : Picked config eng next task) {file : ZoneSstMeta} (mem : file ∈ task.files) :
    file ∈ eng.levels.all := by
  rcases mem_append.mp mem with isInput | isOverlap
  · exact Levels.mem_all_of_mem_files (picked.inputs file isInput)
  · exact Levels.mem_all_of_mem_files (picked.overlapping file isOverlap)

private theorem not_busy {files : List ZoneSstMeta} (free : (!files.any eng.busy) = true)
    {file : ZoneSstMeta} (mem : file ∈ files) : file.fileNumber ∉ eng.compacting := by
  intro marked
  have someBusy : files.any eng.busy = true :=
    any_eq_true.mpr ⟨file, mem, decide_eq_true marked⟩
  rw [someBusy] at free
  cases free

variable {next : CompactionEngine}

theorem picked_taskOf
    {level : Nat} (levels : next.levels = eng.levels)
    (blobReferences : next.blobReferences = eng.blobReferences)
    (lt : level + 1 < config.maxLevels)
    (free : (!(eng.levels.files level).any eng.busy) = true)
    (overlappingFree : level ≠ 0 →
      (!(eng.taskOf config sizeSort level).overlappingFiles.any eng.busy) = true) :
    Picked config eng next (eng.taskOf config sizeSort level) where
  levels := levels
  blobReferences := blobReferences
  below := rfl
  inside := lt
  inputs := fun _ mem => mem_of_mem_limitWidth mem
  overlapping := fun _ mem => mem_of_mem_filter mem
  inputsFree := fun _ mem => not_busy free (mem_of_mem_limitWidth mem)
  overlappingFree := fun notZero _ mem => not_busy (overlappingFree notZero) mem

theorem picked_of_pickNextCompaction {task : CompactionTask}
    (picks : eng.pickNextCompaction config sizeSort = (next, some task)) :
    Picked config eng next task := by
  rw [pickNextCompaction] at picks
  split at picks
  · rename_i level0
    rw [picksLevel0, Bool.and_eq_true] at level0
    injection picks with sameEngine sameTask
    injection sameTask with sameTask
    rw [← sameTask, ← sameEngine]
    exact picked_taskOf rfl rfl config.twoLevels level0.2 (fun impossible => absurd rfl impossible)
  · split at picks
    · cases picks
    rename_i level found
    have stops := List.find?_some found
    have inRange := mem_range'_1.mp (mem_of_find?_eq_some found)
    rw [picksLevel, Bool.and_eq_true, Bool.and_eq_true] at stops
    injection picks with sameEngine sameTask
    injection sameTask with sameTask
    rw [← sameTask, ← sameEngine]
    exact picked_taskOf rfl rfl (by omega) stops.1.2 (fun _ => stops.2)

theorem pickNextCompaction_none (picks : eng.pickNextCompaction config sizeSort = (next, none)) :
    next = eng := by
  rw [pickNextCompaction] at picks
  split at picks
  · cases picks
  · split at picks
    · injection picks with sameEngine
      exact sameEngine.symm
    · cases picks

theorem pickNextCompaction_cases (config : SizeTieredConfig) (sizeSort : SizeSort)
    (eng : CompactionEngine) :
    eng.pickNextCompaction config sizeSort = (eng, none) ∨
      ∃ next task, eng.pickNextCompaction config sizeSort = (next, some task) ∧
        Picked config eng next task := by
  cases choice : eng.pickNextCompaction config sizeSort with
  | mk next picked =>
    cases picked with
    | none => exact Or.inl (by rw [pickNextCompaction_none choice])
    | some task => exact Or.inr ⟨next, task, rfl, picked_of_pickNextCompaction choice⟩

theorem levels_pickNextCompaction :
    (eng.pickNextCompaction config sizeSort).1.levels = eng.levels := by
  rcases eng.pickNextCompaction_cases config sizeSort with idle | ⟨next, task, choice, picked⟩
  · rw [idle]
  · rw [choice]
    exact picked.levels

theorem levels_addSSTFileAndSchedule (file : ZoneSstMeta) :
    (eng.addSSTFileAndSchedule config sizeSort file).1.levels =
      (eng.addSSTFile config file).levels := by
  rw [addSSTFileAndSchedule]
  split
  · rw [scheduleCompaction]
    split
    · exact levels_pickNextCompaction
    · rfl
  · rfl

end Picked

end CompactionEngine

end CedarGraph
