import CedarGraph.Compaction.Store
import CedarGraph.Lib.Runs

/-!
# The set of listed files

Over runs of flushes, picks, compactions, manifest saves and restarts, every file number is
listed at most once, at the level at which it was first listed (its place), and its file is on
disk. Reopening breaks this: it adds every file of the directory to level 0.
-/

namespace CedarGraph

open Function List Levels CompactionTask ZoneSstMeta CompactionEngine

/-- Levels whose files are complete, distinct and at their places. -/
structure Levels.Placed (maxLevels : Nat) (place : Nat → Nat) (disk : Nat → DiskEntry)
    (levels : Levels) : Prop where
  length : levels.length = maxLevels
  distinct : levels.Distinct
  placed : ∀ level, ∀ file ∈ levels.files level, place file.fileNumber = level
  complete : ∀ file ∈ levels.all, ∃ sst, disk file.fileNumber = .complete sst

/-- A task whose files are at the places from which it was picked. -/
structure CompactionTask.Placed (maxLevels : Nat) (place : Nat → Nat) (next : Nat)
    (task : CompactionTask) : Prop where
  below : task.outputLevel = task.inputLevel + 1
  inside : task.outputLevel < maxLevels
  inputs : ∀ file ∈ task.inputFiles, place file.fileNumber = task.inputLevel
  overlapping : ∀ file ∈ task.overlappingFiles, place file.fileNumber = task.outputLevel
  counted : ∀ file ∈ task.files, file.fileNumber < next

namespace Levels

variable {maxLevels : Nat} {place : Nat → Nat} {disk : Nat → DiskEntry} {levels : Levels}

theorem Placed.unique (placed : levels.Placed maxLevels place disk) : levels.Unique := by
  refine ⟨placed.distinct, ?_⟩
  intro left right file mem other otherMember same
  rw [← placed.placed left file mem, ← placed.placed right other otherMember, same]

theorem Placed.of_same (placed : levels.Placed maxLevels place disk) {newPlace : Nat → Nat}
    {newDisk : Nat → DiskEntry}
    (samePlace : ∀ file ∈ levels.all, newPlace file.fileNumber = place file.fileNumber)
    (sameEntry : ∀ file ∈ levels.all, newDisk file.fileNumber = disk file.fileNumber) :
    levels.Placed maxLevels newPlace newDisk := by
  refine ⟨placed.length, placed.distinct, ?_, ?_⟩
  · intro level file mem
    rw [samePlace file (mem_all_of_mem_files mem)]
    exact placed.placed level file mem
  · intro file mem
    rw [sameEntry file mem]
    exact placed.complete file mem

theorem files_persisted (levels : Levels) (level : Nat) :
    levels.persisted.files level =
      (levels.files level).map fun file => { file with temporalFilter := none } := by
  rw [files, persisted, files, getD_eq_getElem?_getD, getD_eq_getElem?_getD, getElem?_map]
  cases levels[level]? with
  | none => rfl
  | some files => rfl

theorem mem_all_persisted_iff {file : ZoneSstMeta} :
    file ∈ levels.persisted.all ↔
      ∃ source ∈ levels.all, file = { source with temporalFilter := none } := by
  rw [all, persisted, ← map_flatten, mem_map]
  constructor
  · intro found
    obtain ⟨source, mem, same⟩ := found
    exact ⟨source, mem, same.symm⟩
  · intro found
    obtain ⟨source, mem, same⟩ := found
    exact ⟨source, mem, same.symm⟩

theorem Placed.persisted (placed : levels.Placed maxLevels place disk) :
    levels.persisted.Placed maxLevels place disk := by
  refine ⟨?_, ?_, ?_, ?_⟩
  · exact (length_map _).trans placed.length
  · intro level
    rw [files_persisted, map_map]
    exact placed.distinct level
  · intro level file mem
    rw [files_persisted] at mem
    obtain ⟨source, sourceMember, rfl⟩ := mem_map.mp mem
    exact placed.placed level source sourceMember
  · intro file mem
    obtain ⟨source, sourceMember, rfl⟩ := mem_all_persisted_iff.mp mem
    exact placed.complete source sourceMember

theorem placed_init (config : SizeTieredConfig) (place : Nat → Nat) (disk : Nat → DiskEntry) :
    (CompactionEngine.init config).levels.Placed config.maxLevels place disk := by
  have noFiles : ∀ level, (init config).levels.files level = [] := by
    intro level
    rw [init, files, getD_eq_getElem?_getD, getElem?_replicate]
    split
    · rfl
    · rfl
  refine ⟨length_replicate, ?_, ?_, ?_⟩
  · intro level
    rw [noFiles]
    exact nodup_nil
  · intro level file mem
    rw [noFiles] at mem
    cases mem
  · intro file mem
    rw [all_levels_init] at mem
    cases mem

end Levels

namespace CompactionStore

structure FilesPlaced (opts : CompactionOptions) (place : Nat → Nat)
    (store : CompactionStore) : Prop where
  levels : store.engine.levels.Placed opts.config.maxLevels place store.disk
  manifest : ∀ levels ∈ store.manifest, levels.Placed opts.config.maxLevels place store.disk
  tasks : ∀ task ∈ store.unfinished, task.Placed opts.config.maxLevels place store.nextFileNumber
  counter : ∀ number, store.nextFileNumber ≤ number → store.disk number = .absent

section Invariant

variable {opts : CompactionOptions} {place : Nat → Nat} {store : CompactionStore}

theorem filesPlaced_init (opts : CompactionOptions) (gcSafePoint : UInt64) (place : Nat → Nat) :
    (CompactionStore.init opts gcSafePoint).FilesPlaced opts place := by
  refine ⟨placed_init _ _ _, ?_, ?_, fun _ _ => rfl⟩
  · intro levels impossible
    cases impossible
  · intro task mem
    cases mem

variable {number : Nat} {eng : CompactionEngine}

section

variable (placed : store.FilesPlaced opts place)
include placed

theorem FilesPlaced.lt_next
    (complete : ∃ sst, store.disk number = .complete sst) : number < store.nextFileNumber := by
  obtain ⟨sst, entry⟩ := complete
  by_contra above
  rw [placed.counter number (Nat.le_of_not_lt above)] at entry
  cases entry

/-- Using up a file number leaves all files where they are; the place of the new
number is free to choose. -/
theorem FilesPlaced.abandoned (level : Nat) (entry : DiskEntry) :
    (store.abandoned entry).FilesPlaced opts (update place store.nextFileNumber level) := by
  have old : ∀ {number : Nat}, number < store.nextFileNumber →
      update place store.nextFileNumber level number = place number ∧
      update store.disk store.nextFileNumber entry number = store.disk number := by
    intro number below
    exact ⟨update_of_ne (Nat.ne_of_lt below) _ _, update_of_ne (Nat.ne_of_lt below) _ _⟩
  have kept : ∀ levels : Levels, levels.Placed opts.config.maxLevels place store.disk →
      levels.Placed opts.config.maxLevels (update place store.nextFileNumber level)
        (update store.disk store.nextFileNumber entry) := by
    intro levels levelsPlaced
    refine levelsPlaced.of_same ?_ ?_
    · intro file mem
      exact (old (placed.lt_next (levelsPlaced.complete file mem))).1
    · intro file mem
      exact (old (placed.lt_next (levelsPlaced.complete file mem))).2
  refine ⟨kept _ placed.levels, fun levels saved => kept levels (placed.manifest levels saved),
    ?_, ?_⟩
  · intro task mem
    have task := placed.tasks task mem
    refine ⟨task.below, task.inside, ?_, ?_, ?_⟩
    · intro file isInput
      rw [(old (task.counted file (mem_append_left _ isInput))).1]
      exact task.inputs file isInput
    · intro file isOverlap
      rw [(old (task.counted file (mem_append_right _ isOverlap))).1]
      exact task.overlapping file isOverlap
    · intro file inTask
      exact Nat.lt_succ_of_lt (task.counted file inTask)
  · intro number above
    have beyond : store.nextFileNumber + 1 ≤ number := above
    exact (update_of_ne (by omega) _ _).trans (placed.counter number (by omega))

theorem FilesPlaced.choose {choice : Option CompactionTask}
    (levels : eng.levels.Placed opts.config.maxLevels place store.disk)
    (task : ∀ task ∈ choice, task.Placed opts.config.maxLevels place store.nextFileNumber) :
    (store.choose (eng, choice)).FilesPlaced opts place := by
  refine ⟨levels, placed.manifest, ?_, placed.counter⟩
  rw [CompactionStore.choose, forall_mem_append]
  exact ⟨placed.tasks, fun other new => task other (Option.mem_toList.mp new)⟩

section

variable (levels : eng.levels.Placed opts.config.maxLevels place store.disk)
include levels

theorem FilesPlaced.pick :
    (store.choose (eng.pickNextCompaction opts.config opts.sizeSort)).FilesPlaced opts place := by
  rcases eng.pickNextCompaction_cases opts.config opts.sizeSort with
    idle | ⟨next, task, choice, picked⟩
  · rw [idle]
    exact placed.choose levels (by simp)
  · rw [choice]
    refine placed.choose (by rw [picked.levels]; exact levels) ?_
    intro other isTask
    injection isTask with same
    rw [← same]
    refine ⟨picked.below, picked.inside, ?_, ?_, ?_⟩
    · intro file mem
      exact levels.placed _ file (picked.inputs file mem)
    · intro file mem
      exact levels.placed _ file (picked.overlapping file mem)
    · intro file mem
      exact placed.lt_next (levels.complete file (picked.mem_all mem))

theorem FilesPlaced.schedule :
    (store.choose (eng.scheduleCompaction opts.config opts.sizeSort)).FilesPlaced opts place := by
  rw [CompactionEngine.scheduleCompaction]
  split
  · exact placed.pick levels
  · exact placed.choose levels (by simp)

end

end

theorem placed_addSSTFile {disk : Nat → DiskEntry}
    (placed : eng.levels.Placed opts.config.maxLevels place disk) {file : ZoneSstMeta}
    (atPlace : place file.fileNumber = file.level)
    (complete : ∃ sst, disk file.fileNumber = .complete sst) :
    (eng.addSSTFile opts.config file).levels.Placed opts.config.maxLevels place disk := by
  rw [CompactionEngine.addSSTFile]
  split
  · exact placed
  rename_i valid
  split
  · exact placed
  rename_i isNew
  have lt : file.level < eng.levels.length := by
    rw [placed.length]
    omega
  refine ⟨(length_set).trans placed.length, ?_, ?_, ?_⟩
  · intro level
    rw [files_setFiles lt]
    split
    · rw [map_append, map_singleton, ← concat_eq_append]
      refine List.Nodup.concat ?_ (placed.distinct file.level)
      intro listed
      obtain ⟨other, mem, same⟩ := mem_map.mp listed
      exact isNew (any_eq_true.mpr ⟨other, mem, decide_eq_true same⟩)
    · exact placed.distinct level
  · intro level other mem
    rcases mem_files_push lt mem with old | ⟨rfl, rfl⟩
    · exact placed.placed level other old
    · exact atPlace
  · intro other mem
    obtain ⟨level, -, inLevel⟩ := mem_all_iff.mp mem
    rcases mem_files_push lt inLevel with old | ⟨rfl, -⟩
    · exact placed.complete other (mem_all_of_mem_files old)
    · exact complete

section

variable (placed : store.FilesPlaced opts place)
include placed

theorem FilesPlaced.addSSTFile {file : ZoneSstMeta} (atPlace : place file.fileNumber = file.level)
    (complete : ∃ sst, store.disk file.fileNumber = .complete sst) :
    (store.addSSTFile opts file).FilesPlaced opts place := by
  have levels := placed_addSSTFile placed.levels atPlace complete
  rw [CompactionStore.addSSTFile, CompactionEngine.addSSTFileAndSchedule]
  split
  · exact placed.schedule levels
  · exact placed.choose levels (by simp)

theorem FilesPlaced.flush (rows : List Row)
    (temporalFilter : Option FixedWidth.Bytes) (write : FileWrite) :
    ∃ newPlace, (store.flush opts rows temporalFilter write).FilesPlaced opts newPlace := by
  rw [flush.eq_def]
  dsimp only
  split
  · exact ⟨place, placed⟩
  cases write with
  | notCreated status =>
    have unchanged := placed.abandoned 0 (store.disk store.nextFileNumber)
    rw [CompactionStore.abandoned, update_eq_self] at unchanged
    exact ⟨_, unchanged⟩
  | incomplete status => exact ⟨_, placed.abandoned 0 .incomplete⟩
  | complete =>
    refine ⟨update place store.nextFileNumber 0,
      (placed.abandoned 0 (.complete _)).addSSTFile ?_ ?_⟩
    · exact update_self _ _ _
    · exact ⟨_, update_self _ _ _⟩

theorem FilesPlaced.of_engine (eng : CompactionEngine)
    (levels : eng.levels = store.engine.levels) {unfinished : List CompactionTask}
    (fewer : ∀ task ∈ unfinished, task ∈ store.unfinished) :
    FilesPlaced opts place
      { store with engine := eng, unfinished := unfinished } := by
  refine ⟨?_, placed.manifest, ?_, placed.counter⟩
  · rw [levels]
    exact placed.levels
  · intro task mem
    exact placed.tasks task (fewer task mem)

end

section Compaction

variable {task : CompactionTask} {out : CompactionOutcome}

section

variable (placed : store.FilesPlaced opts place)
include placed

theorem FilesPlaced.output_isNew :
    ∀ file ∈ store.engine.levels.files task.outputLevel,
      file.fileNumber ≠ (task.outputMeta opts store.nextFileNumber
        (store.compactedFile opts task out)).fileNumber := by
  intro file mem
  exact Nat.ne_of_lt (placed.lt_next (placed.levels.complete file (mem_all_of_mem_files mem)))

theorem FilesPlaced.output_inside
    (taskPlaced : task.Placed opts.config.maxLevels place store.nextFileNumber) :
    task.outputLevel < store.engine.levels.length := by
  rw [placed.levels.length]
  exact taskPlaced.inside

theorem FilesPlaced.mem_files_moved
    (lt : task.outputLevel < store.engine.levels.length) {level : Nat} {file : ZoneSstMeta}
    (mem : file ∈ (store.moved opts task out).engine.levels.files level) :
    file ∈ store.engine.levels.files level ∨
      level = task.outputLevel ∧ file.fileNumber = store.nextFileNumber := by
  rcases ((mem_files_moveMetadata lt placed.levels.distinct
    placed.output_isNew).mp mem).1 with old | ⟨atOutput, isOutput⟩
  · exact Or.inl old
  · exact Or.inr ⟨atOutput, congrArg _ isOutput⟩

section

variable (taskPlaced : task.Placed opts.config.maxLevels place store.nextFileNumber)
include taskPlaced

theorem FilesPlaced.not_mem_task
    {file : ZoneSstMeta} (mem : file ∈ (store.moved opts task out).engine.levels.all) :
    file.fileNumber ∉ task.files.map fileNumber := by
  intro inTask
  obtain ⟨other, otherMember, same⟩ := mem_map.mp inTask
  obtain ⟨level, -, inLevel⟩ := mem_all_iff.mp mem
  obtain ⟨origin, notInput, notOverlap⟩ := (mem_files_moveMetadata
    (placed.output_inside taskPlaced) placed.levels.distinct placed.output_isNew).mp inLevel
  rcases origin with old | ⟨-, isOutput⟩
  · have atLevel := placed.levels.placed level file old
    rw [← same] at atLevel notInput notOverlap
    rcases mem_append.mp otherMember with isInput | isOverlap
    · exact notInput (atLevel.symm.trans (taskPlaced.inputs other isInput)) (mem_map_of_mem isInput)
    · exact notOverlap (atLevel.symm.trans (taskPlaced.overlapping other isOverlap))
        (mem_map_of_mem isOverlap)
  · have below := taskPlaced.counted other otherMember
    rw [same, isOutput] at below
    exact Nat.lt_irrefl _ below

theorem FilesPlaced.moved :
    (store.moved opts task out).FilesPlaced opts
      (update place store.nextFileNumber task.outputLevel) := by
  have allocated := placed.abandoned task.outputLevel
    (.complete (store.compactedFile opts task out))
  have lt := placed.output_inside taskPlaced
  refine ⟨⟨?_, ?_, ?_, ?_⟩, allocated.manifest, allocated.tasks, allocated.counter⟩
  · exact length_moveMetadata.trans placed.levels.length
  · exact distinct_moveMetadata lt placed.levels.distinct placed.output_isNew
  · intro level file mem
    rcases placed.mem_files_moved lt mem with old | ⟨atOutput, isOutput⟩
    · exact allocated.levels.placed level file old
    · rw [isOutput, atOutput]
      exact update_self _ _ _
  · intro file mem
    obtain ⟨level, -, inLevel⟩ := mem_all_iff.mp mem
    rcases placed.mem_files_moved lt inLevel with old | ⟨-, isOutput⟩
    · exact allocated.levels.complete file (mem_all_of_mem_files old)
    · rw [isOutput]
      exact ⟨_, disk_moved_output⟩

theorem FilesPlaced.finished :
    (store.finished opts task out).FilesPlaced opts
      (update place store.nextFileNumber task.outputLevel) := by
  have moved : (store.moved opts task out).FilesPlaced opts _ :=
    placed.moved taskPlaced
  have levels : (store.moved opts task out).engine.levels.Placed
      opts.config.maxLevels (update place store.nextFileNumber task.outputLevel)
      (store.finished opts task out).disk := by
    refine moved.levels.of_same (fun _ _ => rfl) ?_
    intro file mem
    exact disk_finished (placed.not_mem_task taskPlaced mem)
  refine ⟨levels, ?_, moved.tasks, ?_⟩
  · intro saved isSaved
    injection isSaved with same
    rw [← same]
    exact levels.persisted
  · intro number above
    have absent := moved.counter number above
    have entry : (store.finished opts task out).disk number =
        if number ∈ task.files.map fileNumber ∧ out.removes number = true then
          .absent
        else (store.moved opts task out).disk number := rfl
    rw [entry, absent]
    exact ite_self _

theorem FilesPlaced.doZoneCompaction (out : CompactionOutcome) :
    ∃ newPlace, (store.doZoneCompaction opts task out).1.FilesPlaced opts newPlace := by
  rcases doZoneCompaction_cases with ⟨-, entry, res⟩ | ⟨-, -, ⟨-, res⟩ | ⟨-, res⟩⟩
  · rw [res]
    exact ⟨_, placed.abandoned 0 entry⟩
  · rw [res]
    exact ⟨_, placed.moved taskPlaced⟩
  · rw [res]
    exact ⟨_, placed.finished taskPlaced⟩

end

end

end Compaction

section

variable (placed : store.FilesPlaced opts place)
include placed

theorem FilesPlaced.execute (pos : Nat) (out : CompactionOutcome) :
    ∃ newPlace, (store.execute opts pos out).FilesPlaced opts newPlace := by
  rw [CompactionStore.execute]
  split
  · exact ⟨place, placed⟩
  rename_i task found
  have fewer : ∀ other ∈ store.unfinished.eraseIdx pos, other ∈ store.unfinished := by
    intro other mem
    exact mem_of_mem_eraseIdx mem
  have marked : FilesPlaced opts place { store with
        engine := store.engine.mark task.files
        unfinished := store.unfinished.eraseIdx pos } :=
    placed.of_engine (store.engine.mark task.files) rfl fewer
  obtain ⟨newPlace, done⟩ := marked.doZoneCompaction (placed.tasks task (mem_of_getElem? found)) out
  exact ⟨newPlace, done.of_engine (unmark _ task.files) rfl (fun _ mem => mem)⟩

theorem FilesPlaced.saveManifest (write : ManifestWrite) :
    (store.saveManifest write).1.FilesPlaced opts place := by
  cases write with
  | saved =>
    refine ⟨placed.levels, ?_, placed.tasks, placed.counter⟩
    intro levels isSaved
    injection isSaved with same
    rw [← same]
    exact placed.levels.persisted
  | notOpened => exact placed
  | notRenamed => exact placed

theorem FilesPlaced.loadManifest : store.loadManifest.FilesPlaced opts place := by
  rw [CompactionStore.loadManifest]
  split
  · exact placed
  · rename_i levels isSaved
    exact ⟨placed.manifest levels isSaved, placed.manifest, placed.tasks, placed.counter⟩

end

private theorem lt_foldl_max (numbers : List Nat) (start : Nat) :
    start ≤ numbers.foldl (fun next number => max next (number + 1)) start ∧
      ∀ number ∈ numbers,
        number < numbers.foldl (fun next number => max next (number + 1)) start := by
  induction numbers generalizing start with
  | nil => exact ⟨le_rfl, fun _ impossible => nomatch impossible⟩
  | cons head tail ih =>
    obtain ⟨above, inTail⟩ := ih (max start (head + 1))
    rw [foldl_cons]
    rw [forall_mem_cons]
    exact ⟨by omega, by omega, inTail⟩

/-- After a restart the files of the manifest are at their places, and every other
number may be placed at level 0. -/
theorem FilesPlaced.restart (placed : store.FilesPlaced opts place) (small : Nat → Bool) :
    ∃ newPlace, (store.restart opts small).FilesPlaced opts newPlace ∧
      ∀ number, (∀ levels ∈ store.manifest, ∀ level, 0 < level →
        ∀ file ∈ levels.files level, file.fileNumber ≠ number) → newPlace number = 0 := by
  classical
  let newPlace := fun number =>
    if ∃ levels ∈ store.manifest, ∃ file ∈ levels.all, file.fileNumber = number then
      place number
    else 0
  have sameEntry : ∀ {number : Nat}, (∃ sst, store.disk number = .complete sst) →
      (store.loadSstFiles opts small).disk number = store.disk number := by
    intro number complete
    obtain ⟨sst, entry⟩ := complete
    refine if_neg ?_
    intro removed
    rw [entry] at removed
    cases removed.1
  have counter : ∀ number, (store.loadSstFiles opts small).nextFileNumber ≤ number →
      (store.loadSstFiles opts small).disk number = .absent := by
    intro number above
    by_contra present
    have below : number < store.nextFileNumber := by
      by_contra beyond
      apply present
      have absent := placed.counter number (Nat.le_of_not_lt beyond)
      refine (if_neg ?_).trans absent
      intro removed
      rw [absent] at removed
      cases removed.1
    have inRange : number ∈ (range store.nextFileNumber).filter fun number =>
        decide ((store.loadSstFiles opts small).disk number ≠ .absent) :=
      mem_filter.mpr ⟨mem_range.mpr below, decide_eq_true present⟩
    have listed := (lt_foldl_max _ 1).2 number ((opts.listing_perm _).mem_iff.mpr inRange)
    exact absurd above (Nat.not_le.mpr listed)
  have saved : ∀ levels ∈ store.manifest, levels.Placed opts.config.maxLevels newPlace
      (store.loadSstFiles opts small).disk := by
    intro levels isSaved
    have levelsPlaced := placed.manifest levels isSaved
    refine levelsPlaced.of_same ?_ ?_
    · intro file mem
      exact if_pos ⟨levels, isSaved, file, mem, rfl⟩
    · intro file mem
      exact sameEntry (levelsPlaced.complete file mem)
  refine ⟨newPlace, FilesPlaced.loadManifest
    ⟨placed_init _ _ _, saved, (fun _ impossible => nomatch impossible), counter⟩, ?_⟩
  intro number notBelow
  by_cases listed : ∃ levels ∈ store.manifest, ∃ file ∈ levels.all, file.fileNumber = number
  · obtain ⟨levels, isSaved, file, mem, same⟩ := listed
    obtain ⟨level, -, inLevel⟩ := mem_all_iff.mp mem
    have atLevel := (saved levels isSaved).placed level file inLevel
    rw [same] at atLevel
    rw [atLevel]
    by_contra below
    exact notBelow levels isSaved level (Nat.pos_of_ne_zero below) file inLevel same
  · exact if_neg listed

theorem FilesPlaced.close (placed : store.FilesPlaced opts place) (reopening : Reopening) :
    ∃ newPlace, (store.close opts reopening).FilesPlaced opts newPlace := by
  have late : ∀ (flushes : List (List Row)) (store : CompactionStore) (place : Nat → Nat),
      store.FilesPlaced opts place →
      ∃ newPlace, (flushes.foldl (fun cur rows => cur.writeUnlisted opts rows)
        store).FilesPlaced opts newPlace := by
    intro flushes
    induction flushes with
    | nil =>
      intro store place placed
      exact ⟨place, placed⟩
    | cons rows rest ih =>
      intro store place placed
      exact ih _ _ (placed.abandoned 0 (.complete _))
  exact late reopening.lateFlushes _ place (placed.saveManifest reopening.manifest)

theorem manifest_close (reopening : Reopening) :
    (store.close opts reopening).manifest = (store.saveManifest reopening.manifest).1.manifest := by
  have late : ∀ (flushes : List (List Row)) (store : CompactionStore),
      (flushes.foldl (fun cur rows => cur.writeUnlisted opts rows) store).manifest =
        store.manifest := by
    intro flushes
    induction flushes with
    | nil =>
      intro store
      rfl
    | cons rows rest ih =>
      intro store
      exact ih _
  exact late reopening.lateFlushes _

theorem FilesPlaced.migrateFile (placed : store.FilesPlaced opts place) {opens : Nat → Bool}
    (atLevel0 : opens number = true → place number = 0) :
    (store.migrateFile opts opens number).FilesPlaced opts place := by
  rw [CompactionStore.migrateFile]
  split
  · exact placed
  · rename_i file contents
    split
    · rename_i opened
      exact placed.addSSTFile (atLevel0 opened) ⟨file, DiskEntry.eq_complete_of_contents contents⟩
    · exact placed

theorem FilesPlaced.migrate (placed : store.FilesPlaced opts place) {opens : Nat → Bool}
    (atLevel0 : ∀ number, opens number = true → place number = 0) (numbers : List Nat) :
    (numbers.foldl (fun cur number => cur.migrateFile opts opens number)
      store).FilesPlaced opts place := by
  induction numbers generalizing store with
  | nil => exact placed
  | cons head tail ih => exact ih (placed.migrateFile (atLevel0 head))

end Invariant

inductive FileOperation where
  | flush (rows : List Row) (temporalFilter : Option FixedWidth.Bytes) (write : FileWrite)
  | pickNextCompaction
  | scheduleCompaction
  | executeCompaction (pos : Nat) (outcome : CompactionOutcome)
  | saveManifest (write : ManifestWrite)
  | loadManifest
  | restart (small : Nat → Bool)
  | reopen (reopening : Reopening)

def fileStep (opts : CompactionOptions) (store : CompactionStore) : FileOperation → CompactionStore
  | .flush rows temporalFilter write => store.flush opts rows temporalFilter write
  | .pickNextCompaction => store.pickNextCompaction opts
  | .scheduleCompaction => store.scheduleCompaction opts
  | .executeCompaction pos out => store.execute opts pos out
  | .saveManifest write => (store.saveManifest write).1
  | .loadManifest => store.loadManifest
  | .restart small => store.restart opts small
  | .reopen reopening => store.reopen opts reopening

/-- The condition on a step: at a reopen, no file that the manifest lists below level
0 can be opened. -/
def FileAllowed (store : CompactionStore) : FileOperation → Prop
  | .reopen reopening =>
    ∀ levels ∈ (store.saveManifest reopening.manifest).1.manifest, ∀ level, 0 < level →
      ∀ file ∈ levels.files level, reopening.opens file.fileNumber = false
  | _ => True

theorem FilesPlaced.reopen {opts : CompactionOptions} {place : Nat → Nat} {store : CompactionStore}
    (placed : store.FilesPlaced opts place) (reopening : Reopening)
    (allowed : store.FileAllowed (.reopen reopening)) :
    ∃ newPlace, (store.reopen opts reopening).FilesPlaced opts newPlace := by
  obtain ⟨closedPlace, closed⟩ := placed.close reopening
  obtain ⟨newPlace, restarted, others⟩ := closed.restart reopening.small
  refine ⟨newPlace, restarted.migrate ?_ _⟩
  intro number opened
  apply others
  intro levels isSaved level below file mem same
  rw [manifest_close] at isSaved
  have unopened := allowed levels isSaved level below file mem
  rw [same, opened] at unopened
  cases unopened

theorem filesPlaced_fileStep
    {opts : CompactionOptions} {store : CompactionStore} {op : FileOperation}
    (placed : ∃ place, store.FilesPlaced opts place) (allowed : store.FileAllowed op) :
    ∃ place, (store.fileStep opts op).FilesPlaced opts place := by
  obtain ⟨place, placed⟩ := placed
  cases op with
  | flush rows temporalFilter write => exact placed.flush rows temporalFilter write
  | pickNextCompaction => exact ⟨place, placed.pick placed.levels⟩
  | scheduleCompaction => exact ⟨place, placed.schedule placed.levels⟩
  | executeCompaction pos out => exact placed.execute pos out
  | saveManifest write => exact ⟨place, placed.saveManifest write⟩
  | loadManifest => exact ⟨place, placed.loadManifest⟩
  | restart small =>
    obtain ⟨newPlace, restarted, -⟩ := placed.restart small
    exact ⟨newPlace, restarted⟩
  | reopen reopening => exact placed.reopen reopening allowed

/-- In every run whose reopens meet the condition, every number is listed at most once
and every listed file is on disk. -/
theorem files_listed_once
    (opts : CompactionOptions) (gcSafePoint : UInt64) (ops : List FileOperation)
    (admissible : Runs.Admissible (fileStep opts) FileAllowed
      (CompactionStore.init opts gcSafePoint) ops) :
    let final := Runs.run (fileStep opts) (CompactionStore.init opts gcSafePoint) ops
    final.engine.levels.Unique ∧
      ∀ file ∈ final.engine.levels.all, final.disk file.fileNumber ≠ .absent := by
  intro final
  have preserved : ∀ (store : CompactionStore) (op : FileOperation),
      (∃ place, store.FilesPlaced opts place) → store.FileAllowed op →
      ∃ place, (store.fileStep opts op).FilesPlaced opts place := by
    intro store op placed allowed
    exact filesPlaced_fileStep placed allowed
  obtain ⟨place, placed⟩ := Runs.invariant_run preserved
    ⟨fun _ => 0, filesPlaced_init opts gcSafePoint _⟩ admissible
  refine ⟨placed.levels.unique, ?_⟩
  intro file mem
  obtain ⟨sst, entry⟩ := placed.levels.complete file mem
  rw [entry]
  exact fun same => nomatch same

/-- At the reopen only the flushed file can be opened, not the output of the compaction. -/
theorem files_listed_once_after_reopen :
    let final := Runs.run (fileStep .default) (CompactionStore.init .default 0)
      [.flush [⟨.vertex 1 0 10 0 0 0 0, ⟨16⟩, 7⟩] none .complete,
        .flush [⟨.vertex 2 0 10 0 0 0 0, ⟨32⟩, 7⟩] none .complete,
        .pickNextCompaction, .executeCompaction 0 .success,
        .flush [⟨.vertex 3 0 10 0 0 0 0, ⟨48⟩, 7⟩] none .complete,
        .reopen ⟨.saved, [], fun _ => false, fun number => decide (number ≠ 3)⟩]
    final.engine.levels.Unique ∧
      ∀ file ∈ final.engine.levels.all, final.disk file.fileNumber ≠ .absent := by
  have unopened : ∀ (saved : Option Levels) (opens : Nat → Bool),
      (∀ levels ∈ saved, ∀ level < levels.length, 0 < level → ∀ file ∈ levels.files level,
        opens file.fileNumber = false) →
      ∀ levels ∈ saved, ∀ level, 0 < level → ∀ file ∈ levels.files level,
        opens file.fileNumber = false := by
    intro saved opens inLevels levels isSaved level below file mem
    by_cases inside : level < levels.length
    · exact inLevels levels isSaved level inside below file mem
    · rw [files_eq_nil (Nat.le_of_not_lt inside)] at mem
      cases mem
  exact files_listed_once .default 0 _
    ⟨trivial, trivial, trivial, trivial, trivial, unopened _ _ (by decide +kernel), trivial⟩

/-- After a compaction and a reopen the output is listed at level 1 and at level 0. -/
theorem output_listed_twice_after_reopen :
    let final := Runs.run (fileStep .default) (CompactionStore.init .default 0)
      [.flush [⟨.vertex 1 0 10 0 0 0 0, ⟨16⟩, 7⟩] none .complete,
        .flush [⟨.vertex 2 0 10 0 0 0 0, ⟨32⟩, 7⟩] none .complete,
        .pickNextCompaction, .executeCompaction 0 .success,
        .reopen ⟨.saved, [], fun _ => false, fun _ => true⟩]
    (final.engine.levels.files 0).map fileNumber = [3] ∧
      (final.engine.levels.files 1).map fileNumber = [3] := by
  decide +kernel

end CompactionStore

end CedarGraph
