import CedarGraph.Compaction.FileSet

/-!
# Blob references

A blob file may be deleted when no SST file is registered as referring to it. The output of a
compaction names no blob file. While the engine runs, the references of its inputs stay; a new
engine registers only what the manifest names.
-/

namespace CedarGraph

open List Levels BlobReferences

/-- The blob files that the external references among the rows point into. -/
def externalBlobs (rows : List Row) : List Nat :=
  (rows.filter fun row => decide (row.descriptor.getKind = .externalRef)).map
    fun row => row.descriptor.blobFileId

theorem mem_externalBlobs_iff {rows : List Row} {blob : Nat} :
    blob ∈ externalBlobs rows ↔
      ∃ row ∈ rows, row.descriptor.getKind = .externalRef ∧ row.descriptor.blobFileId = blob := by
  simp [externalBlobs, and_assoc]

theorem mem_referencedBlobFiles_iff {rows : List Row} {blob : Nat} :
    blob ∈ LsmEngine.referencedBlobFiles rows ↔ blob ∈ externalBlobs rows ∧ 0 < blob := by
  rw [LsmEngine.referencedBlobFiles, mem_filter, decide_eq_true_eq]
  rfl

/-- Files of level 0 name the blob files of their rows, and no file has a blob file of
its own. -/
structure Levels.BlobsNamed (blobsOf : Nat → List Nat) (levels : Levels) : Prop where
  named : ∀ file ∈ levels.files 0, ∀ blob ∈ blobsOf file.fileNumber, blob ∈ file.referencedBlobFiles
  ownless : ∀ file ∈ levels.all, file.blobFileNumber = 0

variable {levels : Levels}

theorem Levels.BlobsNamed.persisted {blobsOf : Nat → List Nat} (named : levels.BlobsNamed blobsOf) :
    levels.persisted.BlobsNamed blobsOf := by
  refine ⟨?_, ?_⟩
  · intro file mem
    rw [files_persisted] at mem
    obtain ⟨source, sourceMember, rfl⟩ := mem_map.mp mem
    exact named.named source sourceMember
  · intro file mem
    obtain ⟨source, sourceMember, rfl⟩ := mem_all_persisted_iff.mp mem
    exact named.ownless source sourceMember

theorem Levels.BlobsNamed.of_subset
    {blobsOf newBlobsOf : Nat → List Nat} (named : levels.BlobsNamed blobsOf)
    (fewer : ∀ file ∈ levels.all, ∀ blob ∈ newBlobsOf file.fileNumber,
      blob ∈ blobsOf file.fileNumber) : levels.BlobsNamed newBlobsOf := by
  refine ⟨?_, named.ownless⟩
  intro file mem blob inFile
  exact named.named file mem blob (fewer file (mem_all_of_mem_files mem) blob inFile)

theorem Levels.blobsNamed_of_all_eq_nil {blobsOf : Nat → List Nat} (nothing : levels.all = []) :
    levels.BlobsNamed blobsOf := by
  have notListed : ∀ file, file ∉ levels.all := by
    intro file mem
    rw [nothing] at mem
    cases mem
  refine ⟨?_, ?_⟩
  · intro file mem
    exact absurd (mem_all_of_mem_files mem) (notListed file)
  · intro file mem
    exact absurd mem (notListed file)

/-! ## References across the metadata update -/

namespace CompactionEngine

theorem blobReferences_foldl_remove {eng : CompactionEngine}
    (ownless : ∀ file ∈ eng.levels.all, file.blobFileNumber = 0) (level : Nat)
    (numbers : List Nat) :
    (numbers.foldl (fun cur => cur.removeFileMetadataOnly level)
      eng).blobReferences = eng.blobReferences ∧
    ∀ file ∈ (numbers.foldl (fun cur => cur.removeFileMetadataOnly level)
      eng).levels.all, file.blobFileNumber = 0 := by
  induction numbers generalizing eng with
  | nil => exact ⟨rfl, ownless⟩
  | cons head tail ih =>
    have fewer : ∀ file ∈ (eng.removeFileMetadataOnly level head).levels.all,
        file.blobFileNumber = 0 := by
      intro file mem
      obtain ⟨other, -, inOther⟩ := mem_all_iff.mp mem
      rw [files_removeFileMetadataOnly] at inOther
      split at inOther
      · exact ownless file (mem_all_of_mem_files (mem_of_mem_eraseP inOther))
      · exact ownless file (mem_all_of_mem_files inOther)
    have same : (eng.removeFileMetadataOnly level head).blobReferences = eng.blobReferences := by
      rw [removeFileMetadataOnly]
      split
      · rfl
      · rename_i file found
        refine if_neg (not_not_intro ?_)
        exact ownless file (mem_all_of_mem_files (mem_of_find?_eq_some found))
    obtain ⟨sameTail, ownlessTail⟩ := ih fewer
    exact ⟨sameTail.trans same, ownlessTail⟩

theorem blobReferences_moveMetadata
    {eng : CompactionEngine} {task : CompactionTask} {output : ZoneSstMeta}
    (ownless : ∀ file ∈ eng.levels.all, file.blobFileNumber = 0)
    (outputOwnless : output.blobFileNumber = 0) (lt : task.outputLevel < eng.levels.length) :
    (task.moveMetadata output eng).blobReferences = eng.blobReferences ∧
    ∀ file ∈ (task.moveMetadata output eng).levels.all, file.blobFileNumber = 0 := by
  have pushed : ∀ file ∈ (task.pushOutput output eng).levels.all, file.blobFileNumber = 0 := by
    intro file mem
    obtain ⟨level, -, inLevel⟩ := mem_all_iff.mp mem
    rw [CompactionTask.files_pushOutput lt] at inLevel
    rcases mem_append.mp inLevel with old | new
    · exact ownless file (mem_all_of_mem_files old)
    · split at new
      · rw [mem_singleton.mp new]
        exact outputOwnless
      · cases new
  obtain ⟨sameFirst, ownlessFirst⟩ := blobReferences_foldl_remove pushed task.inputLevel
    (task.inputFiles.map ZoneSstMeta.fileNumber)
  obtain ⟨sameSecond, ownlessSecond⟩ := blobReferences_foldl_remove ownlessFirst
    task.outputLevel (task.overlappingFiles.map ZoneSstMeta.fileNumber)
  exact ⟨sameSecond.trans sameFirst, ownlessSecond⟩

end CompactionEngine

theorem BlobReferences.mem_foldl_register (files : List ZoneSstMeta) (references : BlobReferences) :
    (∀ pair ∈ references, pair ∈ files.foldl register references) ∧
    ∀ file ∈ files, ∀ blob ∈ file.referencedBlobFiles,
      (blob, file.fileNumber) ∈ files.foldl register references := by
  induction files generalizing references with
  | nil => exact ⟨fun _ mem => mem, fun _ impossible => nomatch impossible⟩
  | cons head tail ih =>
    obtain ⟨kept, added⟩ := ih (references.register head)
    rw [foldl_cons]
    refine ⟨?_, ?_⟩
    · intro pair mem
      exact kept pair (mem_register_iff.mpr (Or.inl mem))
    · intro file mem blob inFile
      rcases mem_cons.mp mem with rfl | inTail
      · exact kept _ (mem_register_iff.mpr (Or.inr (Or.inr ⟨inFile, rfl⟩)))
      · exact added file inTail blob inFile

namespace CompactionStore

def blobsOf (store : CompactionStore) (number : Nat) : List Nat :=
  externalBlobs (store.rowsOf number)

/-- The files that the engine may still merge or list. -/
def Tracks (store : CompactionStore) (file : ZoneSstMeta) : Prop :=
  file ∈ store.engine.levels.all ∨ (∃ levels ∈ store.manifest, file ∈ levels.all) ∨
    ∃ task ∈ store.unfinished, file ∈ task.files

structure BlobsTracked (store : CompactionStore) : Prop where
  levels : store.engine.levels.BlobsNamed store.blobsOf
  manifest : ∀ levels ∈ store.manifest, levels.BlobsNamed store.blobsOf
  registered : ∀ file, store.Tracks file → ∀ blob ∈ store.blobsOf file.fileNumber,
    ∃ sst, (blob, sst) ∈ store.engine.blobReferences

section Steps

variable {opts : CompactionOptions} {place : Nat → Nat} {store : CompactionStore}

variable {file : ZoneSstMeta}

theorem FilesPlaced.lt_next_of_tracks
    (placed : store.FilesPlaced opts place) (tracks : store.Tracks file) :
    file.fileNumber < store.nextFileNumber := by
  rcases tracks with listed | ⟨levels, isSaved, mem⟩ | ⟨task, unfinished, inTask⟩
  · exact placed.lt_next (placed.levels.complete file listed)
  · exact placed.lt_next ((placed.manifest levels isSaved).complete file mem)
  · exact (placed.tasks task unfinished).counted file inTask

theorem blobsTracked_init (opts : CompactionOptions) (gcSafePoint : UInt64) :
    (CompactionStore.init opts gcSafePoint).BlobsTracked := by
  refine ⟨?_, (fun _ impossible => nomatch impossible), ?_⟩
  · exact blobsNamed_of_all_eq_nil (CompactionEngine.all_levels_init opts.config)
  · intro file _ blob inFile
    cases inFile

section

variable (tracked : store.BlobsTracked)
include tracked

/-- A step that neither lists nor rewrites files keeps the references tracked. -/
theorem BlobsTracked.of_fewer {after : CompactionStore}
    (sameLevels : after.engine.levels = store.engine.levels)
    (sameManifest : after.manifest = store.manifest)
    (fewerTasks : ∀ task ∈ after.unfinished, ∀ file ∈ task.files, store.Tracks file)
    (fewerBlobs : ∀ file, store.Tracks file → ∀ blob ∈ after.blobsOf file.fileNumber,
      blob ∈ store.blobsOf file.fileNumber)
    (moreReferences : ∀ pair ∈ store.engine.blobReferences,
      pair ∈ after.engine.blobReferences) : after.BlobsTracked := by
  have tracks : ∀ file, after.Tracks file → store.Tracks file := by
    intro file found
    rcases found with listed | saved | ⟨task, unfinished, inTask⟩
    · rw [sameLevels] at listed
      exact Or.inl listed
    · rw [sameManifest] at saved
      exact Or.inr (Or.inl saved)
    · exact fewerTasks task unfinished file inTask
  refine ⟨?_, ?_, ?_⟩
  · rw [sameLevels]
    exact tracked.levels.of_subset fun file mem => fewerBlobs file (Or.inl mem)
  · rw [sameManifest]
    intro levels isSaved
    exact (tracked.manifest levels isSaved).of_subset fun file mem =>
      fewerBlobs file (Or.inr (Or.inl ⟨levels, isSaved, mem⟩))
  · intro file found blob inFile
    have old := tracks file found
    obtain ⟨sst, registered⟩ := tracked.registered file old blob (fewerBlobs file old blob inFile)
    exact ⟨sst, moreReferences _ registered⟩

theorem BlobsTracked.abandoned (placed : store.FilesPlaced opts place) (entry : DiskEntry) :
    (store.abandoned entry).BlobsTracked := by
  refine tracked.of_fewer rfl rfl ?_ ?_ (fun _ mem => mem)
  · intro task unfinished file inTask
    exact Or.inr (Or.inr ⟨task, unfinished, inTask⟩)
  · intro file tracks blob inFile
    have below := placed.lt_next_of_tracks tracks
    rw [blobsOf, rowsOf, CompactionStore.abandoned] at inFile
    dsimp only at inFile
    rw [Function.update_of_ne (Nat.ne_of_lt below)] at inFile
    exact inFile

theorem BlobsTracked.pick :
    (store.choose (store.engine.pickNextCompaction opts.config opts.sizeSort)).BlobsTracked := by
  rcases store.engine.pickNextCompaction_cases opts.config opts.sizeSort with
    idle | ⟨next, task, choice, picked⟩
  · rw [idle, choose, Option.toList_none, append_nil]
    exact tracked
  · rw [choice]
    refine tracked.of_fewer picked.levels rfl ?_ (fun _ _ _ inFile => inFile) ?_
    · intro other unfinished file inTask
      rcases mem_append.mp unfinished with old | new
      · exact Or.inr (Or.inr ⟨other, old, inTask⟩)
      · rw [mem_singleton.mp new] at inTask
        exact Or.inl (picked.mem_all inTask)
    · intro pair mem
      change pair ∈ next.blobReferences
      rw [picked.blobReferences]
      exact mem

theorem BlobsTracked.schedule :
    (store.choose (store.engine.scheduleCompaction opts.config opts.sizeSort)).BlobsTracked := by
  rw [CompactionEngine.scheduleCompaction]
  split
  · exact tracked.pick
  · rw [choose, Option.toList_none, append_nil]
    exact tracked

end

/-- A file that is added to level 0 names the blob files of its rows, or is listed
there already. -/
def Names (store : CompactionStore) (file : ZoneSstMeta) : Prop :=
  (∀ blob ∈ store.blobsOf file.fileNumber, blob ∈ file.referencedBlobFiles) ∨
    ∃ other ∈ store.engine.levels.files 0, other.fileNumber = file.fileNumber

section

variable (tracked : store.BlobsTracked)
include tracked

section

variable (placed : store.FilesPlaced opts place)
include placed

theorem BlobsTracked.install
    (atLevel0 : file.level = 0) (ownless : file.blobFileNumber = 0) (names : store.Names file) :
    BlobsTracked { store with engine := store.engine.addSSTFile opts.config file } := by
  rw [CompactionEngine.addSSTFile, atLevel0]
  split
  · exact tracked
  split
  · exact tracked
  rename_i valid isNew
  have named : ∀ blob ∈ store.blobsOf file.fileNumber, blob ∈ file.referencedBlobFiles := by
    rcases names with named | ⟨other, mem, same⟩
    · exact named
    · exact absurd (any_eq_true.mpr ⟨other, mem, decide_eq_true same⟩) isNew
  have lt : 0 < store.engine.levels.length := by
    rw [placed.levels.length]
    omega
  refine ⟨⟨?_, ?_⟩, tracked.manifest, ?_⟩
  · intro other mem
    rcases mem_files_push lt mem with old | ⟨rfl, -⟩
    · exact tracked.levels.named other old
    · exact named
  · intro other mem
    obtain ⟨level, -, inLevel⟩ := mem_all_iff.mp mem
    rcases mem_files_push lt inLevel with old | ⟨rfl, -⟩
    · exact tracked.levels.ownless other (mem_all_of_mem_files old)
    · exact ownless
  · intro other tracks blob inFile
    have kept : store.Tracks other → ∃ sst, (blob, sst) ∈
        store.engine.blobReferences.register file := by
      intro old
      obtain ⟨sst, registered⟩ := tracked.registered other old blob inFile
      exact ⟨sst, mem_register_iff.mpr (Or.inl registered)⟩
    rcases tracks with listed | saved | unfinished
    · obtain ⟨level, -, inLevel⟩ := mem_all_iff.mp listed
      rcases mem_files_push lt inLevel with old | ⟨rfl, -⟩
      · exact kept (Or.inl (mem_all_of_mem_files old))
      · exact ⟨other.fileNumber, mem_register_iff.mpr (Or.inr (Or.inr ⟨named blob inFile, rfl⟩))⟩
    · exact kept (Or.inr (Or.inl saved))
    · exact kept (Or.inr (Or.inr unfinished))

theorem BlobsTracked.addSSTFile
    (atLevel0 : file.level = 0) (ownless : file.blobFileNumber = 0) (names : store.Names file) :
    (store.addSSTFile opts file).BlobsTracked := by
  have installed := tracked.install placed atLevel0 ownless names
  rw [CompactionStore.addSSTFile, CompactionEngine.addSSTFileAndSchedule]
  split
  · exact installed.schedule
  · rw [choose, Option.toList_none, append_nil]
    exact installed

theorem BlobsTracked.flush
    (rows : List Row) (temporalFilter : Option FixedWidth.Bytes) (write : FileWrite)
    (noZero : 0 ∉ externalBlobs rows) :
    (store.flush opts rows temporalFilter write).BlobsTracked := by
  rw [flush.eq_def]
  dsimp only
  split
  · exact tracked
  cases write with
  | notCreated status =>
    have unchanged := tracked.abandoned placed (store.disk store.nextFileNumber)
    rw [CompactionStore.abandoned, Function.update_eq_self] at unchanged
    exact unchanged
  | incomplete status => exact tracked.abandoned placed .incomplete
  | complete =>
    refine (tracked.abandoned placed (.complete _)).addSSTFile
      (placed.abandoned 0 (.complete _)) rfl rfl (Or.inl ?_)
    intro blob inFile
    have written : (store.abandoned (.complete ⟨.default,
        opts.lsm.rowSort.sort rows⟩)).rowsOf store.nextFileNumber =
        opts.lsm.rowSort.sort rows := by
      rw [rowsOf, CompactionStore.abandoned]
      dsimp only
      rw [Function.update_self]
      rfl
    have inRows : blob ∈ externalBlobs rows := by
      obtain ⟨row, mem, isExternal⟩ := mem_externalBlobs_iff.mp inFile
      rw [LsmEngine.flushMeta, written] at mem
      exact mem_externalBlobs_iff.mpr ⟨row, (opts.lsm.rowSort.perm rows).mem_iff.mp mem, isExternal⟩
    refine mem_referencedBlobFiles_iff.mpr ⟨inRows, Nat.pos_of_ne_zero ?_⟩
    intro isZero
    rw [isZero] at inRows
    exact noZero inRows

end

end

section Compaction

variable {task : CompactionTask} {out : CompactionOutcome}

theorem exists_of_mem_blobs_compactedFile {blob : Nat}
    (inOutput : blob ∈ externalBlobs (store.compactedFile opts task out).rows) :
    ∃ file ∈ task.files, blob ∈ store.blobsOf file.fileNumber := by
  obtain ⟨row, mem, isExternal⟩ := mem_externalBlobs_iff.mp inOutput
  obtain ⟨source, sourceMember, rfl⟩ := exists_of_mem_mergeZones mem
  obtain ⟨file, inTask, -, inFile⟩ := mem_openStreams_allInputs_iff.mp sourceMember
  exact ⟨file, inTask, mem_externalBlobs_iff.mpr ⟨source, inFile, isExternal⟩⟩

section

variable (tracked : store.BlobsTracked)
include tracked

theorem BlobsTracked.moved (placed : store.FilesPlaced opts place)
    (taskPlaced : task.Placed opts.config.maxLevels place store.nextFileNumber)
    (taskRegistered : ∀ file ∈ task.files, ∀ blob ∈ store.blobsOf file.fileNumber,
      ∃ sst, (blob, sst) ∈ store.engine.blobReferences) :
    (store.moved opts task out).BlobsTracked := by
  have written := tracked.abandoned placed (.complete (store.compactedFile opts task out))
  have lt := placed.output_inside taskPlaced
  let output := task.outputMeta opts store.nextFileNumber (store.compactedFile opts task out)
  have outputOwnless : output.blobFileNumber = 0 := rfl
  obtain ⟨sameReferences, ownless⟩ := CompactionEngine.blobReferences_moveMetadata
    tracked.levels.ownless outputOwnless lt
  refine ⟨⟨?_, ownless⟩, written.manifest, ?_⟩
  · intro file mem
    rcases placed.mem_files_moved lt mem with old | ⟨atOutput, -⟩
    · exact written.levels.named file old
    · have below := taskPlaced.below
      omega
  · intro file tracks blob inFile
    have references : (store.moved opts task out).engine.blobReferences =
        store.engine.blobReferences := sameReferences
    rw [references]
    rcases tracks with listed | saved | unfinished
    · obtain ⟨level, -, inLevel⟩ := mem_all_iff.mp listed
      rcases placed.mem_files_moved lt inLevel with old | ⟨-, isOutput⟩
      · exact written.registered file (Or.inl (mem_all_of_mem_files old)) blob inFile
      · rw [isOutput, blobsOf, rowsOf, disk_moved_output] at inFile
        obtain ⟨source, inTask, inSource⟩ := exists_of_mem_blobs_compactedFile inFile
        exact taskRegistered source inTask blob inSource
    · exact written.registered file (Or.inr (Or.inl saved)) blob inFile
    · exact written.registered file (Or.inr (Or.inr unfinished)) blob inFile

theorem BlobsTracked.saveManifest (write : ManifestWrite) :
    (store.saveManifest write).1.BlobsTracked := by
  cases write with
  | saved =>
    refine ⟨tracked.levels, ?_, ?_⟩
    · intro levels isSaved
      injection isSaved with same
      rw [← same]
      exact tracked.levels.persisted
    · intro file tracks
      rcases tracks with listed | ⟨levels, isSaved, mem⟩ | unfinished
      · exact tracked.registered file (Or.inl listed)
      · injection isSaved with same
        rw [← same] at mem
        obtain ⟨source, sourceMember, rfl⟩ := mem_all_persisted_iff.mp mem
        exact tracked.registered source (Or.inl sourceMember)
      · exact tracked.registered file (Or.inr (Or.inr unfinished))
  | notOpened => exact tracked
  | notRenamed => exact tracked

theorem BlobsTracked.removeFiles (removes : Nat → Bool) (numbers : List Nat) :
    (store.removeFiles removes numbers).BlobsTracked := by
  refine tracked.of_fewer rfl rfl ?_ ?_ (fun _ mem => mem)
  · intro task unfinished file inTask
    exact Or.inr (Or.inr ⟨task, unfinished, inTask⟩)
  · intro file _ blob inFile
    rw [blobsOf, rowsOf, CompactionStore.removeFiles] at inFile
    dsimp only at inFile
    split at inFile
    · cases inFile
    · exact inFile

theorem BlobsTracked.doZoneCompaction (placed : store.FilesPlaced opts place)
    (taskPlaced : task.Placed opts.config.maxLevels place store.nextFileNumber)
    (taskRegistered : ∀ file ∈ task.files, ∀ blob ∈ store.blobsOf file.fileNumber,
      ∃ sst, (blob, sst) ∈ store.engine.blobReferences)
    (out : CompactionOutcome) : (store.doZoneCompaction opts task out).1.BlobsTracked := by
  have moved : (store.moved opts task out).BlobsTracked :=
    tracked.moved placed taskPlaced taskRegistered
  rcases doZoneCompaction_cases with ⟨-, entry, res⟩ | ⟨-, -, ⟨-, res⟩ | ⟨-, res⟩⟩
  · rw [res]
    exact tracked.abandoned placed entry
  · rw [res]
    exact moved
  · rw [res]
    exact (moved.saveManifest .saved).removeFiles out.removes _

end

end Compaction

theorem BlobsTracked.execute (tracked : store.BlobsTracked) (placed : store.FilesPlaced opts place)
    (pos : Nat) (out : CompactionOutcome) : (store.execute opts pos out).BlobsTracked := by
  rw [CompactionStore.execute]
  split
  · exact tracked
  rename_i task found
  have unfinished : task ∈ store.unfinished := mem_of_getElem? found
  have fewer : ∀ other ∈ store.unfinished.eraseIdx pos, other ∈ store.unfinished := by
    intro other mem
    exact mem_of_mem_eraseIdx mem
  have marked : BlobsTracked { store with
        engine := store.engine.mark task.files
        unfinished := store.unfinished.eraseIdx pos } := by
    refine tracked.of_fewer rfl rfl ?_ (fun _ _ _ inFile => inFile) (fun _ mem => mem)
    intro other mem file inTask
    exact Or.inr (Or.inr ⟨other, fewer other mem, inTask⟩)
  have done := marked.doZoneCompaction (placed.of_engine (store.engine.mark task.files) rfl fewer)
    (placed.tasks task unfinished)
    (fun file inTask => tracked.registered file (Or.inr (Or.inr ⟨task, unfinished, inTask⟩)))
    out
  refine done.of_fewer rfl rfl ?_ (fun _ _ _ inFile => inFile) (fun _ mem => mem)
  intro other mem file inTask
  exact Or.inr (Or.inr ⟨other, mem, inTask⟩)

/-! ## The manifest and reopening -/

theorem BlobsTracked.loadManifest (tracked : store.BlobsTracked) :
    store.loadManifest.BlobsTracked := by
  rw [CompactionStore.loadManifest]
  split
  · exact tracked
  rename_i levels isSaved
  refine ⟨tracked.manifest levels isSaved, tracked.manifest, ?_⟩
  intro file tracks blob inFile
  have old : store.Tracks file := by
    rcases tracks with listed | saved | unfinished
    · exact Or.inr (Or.inl ⟨levels, isSaved, listed⟩)
    · exact Or.inr (Or.inl saved)
    · exact Or.inr (Or.inr unfinished)
  obtain ⟨sst, registered⟩ := tracked.registered file old blob inFile
  exact ⟨sst, (mem_foldl_register levels.all _).1 _ registered⟩

theorem rowsOf_restart (small : Nat → Bool) (number : Nat) :
    (store.restart opts small).rowsOf number = store.rowsOf number := by
  have sameDisk : (store.restart opts small).disk number =
      if store.disk number = .incomplete ∧ small number = true then .absent
      else store.disk number := by
    rw [restart, loadManifest]
    split
    · rfl
    · rfl
  rw [rowsOf, rowsOf, sameDisk]
  split
  · rename_i removed
    rw [removed.1]
    rfl
  · rfl

theorem restart_spec (store : CompactionStore) (opts : CompactionOptions) (small : Nat → Bool) :
    (store.restart opts small).manifest = store.manifest ∧
    (store.restart opts small).unfinished = [] ∧
    ((store.manifest = none ∧ (store.restart opts small).engine.levels.all = []) ∨
      ∃ levels, store.manifest = some levels ∧ (store.restart opts small).engine.levels = levels ∧
        (store.restart opts small).engine.blobReferences = levels.all.foldl register []) := by
  rw [restart, loadManifest]
  split
  · rename_i noManifest
    refine ⟨rfl, rfl, Or.inl ⟨noManifest, ?_⟩⟩
    exact CompactionEngine.all_levels_init opts.config
  · rename_i levels isSaved
    exact ⟨rfl, rfl, Or.inr ⟨levels, isSaved, rfl, rfl⟩⟩

/-- The files that the manifest lists below level 0 hold no external references. -/
def CompactedWithoutBlobs (store : CompactionStore) : Prop :=
  ∀ levels ∈ store.manifest, ∀ level, 0 < level → ∀ file ∈ levels.files level,
    store.blobsOf file.fileNumber = []

/-- A new engine registers what the files of level 0 name, which is enough when no
other file holds external references. -/
theorem BlobsTracked.restart (tracked : store.BlobsTracked) (small : Nat → Bool)
    (compacted : store.CompactedWithoutBlobs) : (store.restart opts small).BlobsTracked := by
  have sameBlobs : (store.restart opts small).blobsOf = store.blobsOf := by
    funext number
    rw [blobsOf, rowsOf_restart, blobsOf]
  have named : ∀ levels ∈ store.manifest, levels.BlobsNamed (store.restart opts small).blobsOf := by
    rw [sameBlobs]
    exact tracked.manifest
  have registered : ∀ levels ∈ store.manifest, ∀ file ∈ levels.all,
      ∀ blob ∈ store.blobsOf file.fileNumber,
        (blob, file.fileNumber) ∈ levels.all.foldl register [] := by
    intro levels isSaved file mem blob inFile
    obtain ⟨level, -, inLevel⟩ := mem_all_iff.mp mem
    cases level with
    | zero =>
      exact (mem_foldl_register levels.all _).2 file mem blob
        ((tracked.manifest levels isSaved).named file inLevel blob inFile)
    | succ level =>
      rw [compacted levels isSaved (level + 1) (Nat.succ_pos level) file inLevel] at inFile
      cases inFile
  obtain ⟨sameManifest, noTasks, origin⟩ := store.restart_spec opts small
  refine ⟨?_, by rw [sameManifest]; exact named, ?_⟩
  · rcases origin with ⟨-, nothing⟩ | ⟨levels, isSaved, sameLevels, -⟩
    · exact blobsNamed_of_all_eq_nil nothing
    · rw [sameLevels]
      exact named levels isSaved
  · intro file tracks blob inFile
    rw [sameBlobs] at inFile
    rw [Tracks, sameManifest, noTasks] at tracks
    rcases origin with ⟨noManifest, nothing⟩ | ⟨levels, isSaved, sameLevels, references⟩
    · rw [noManifest, nothing] at tracks
      simp at tracks
    · rw [isSaved, sameLevels] at tracks
      have inLevels : file ∈ levels.all := by
        simpa using tracks
      rw [references]
      exact ⟨file.fileNumber, registered levels isSaved file inLevels blob inFile⟩

theorem BlobsTracked.close (tracked : store.BlobsTracked) (placed : store.FilesPlaced opts place)
    (reopening : Reopening) : (store.close opts reopening).BlobsTracked := by
  have late : ∀ (flushes : List (List Row)) (store : CompactionStore) (place : Nat → Nat),
      store.FilesPlaced opts place → store.BlobsTracked →
      (flushes.foldl (fun cur rows => cur.writeUnlisted opts rows) store).BlobsTracked := by
    intro flushes
    induction flushes with
    | nil =>
      intro store place _ tracked
      exact tracked
    | cons rows rest ih =>
      intro store place placed tracked
      exact ih _ _ (placed.abandoned 0 (.complete _)) (tracked.abandoned placed (.complete _))
  exact late reopening.lateFlushes _ place (placed.saveManifest reopening.manifest)
    (tracked.saveManifest reopening.manifest)

/-- Every file with external references that opens is listed at level 0. -/
def OpenedAreListed (store : CompactionStore) (opens : Nat → Bool) : Prop :=
  ∀ number, opens number = true → store.blobsOf number ≠ [] →
    ∃ file ∈ store.engine.levels.files 0, file.fileNumber = number

theorem BlobsTracked.migrateFile
    (tracked : store.BlobsTracked) (placed : store.FilesPlaced opts place)
    {opens : Nat → Bool} (listed : store.OpenedAreListed opens) (number : Nat) :
    (store.migrateFile opts opens number).BlobsTracked ∧
      (store.migrateFile opts opens number).OpenedAreListed opens := by
  rw [CompactionStore.migrateFile]
  split
  · exact ⟨tracked, listed⟩
  rename_i file contents
  split
  · rename_i opened
    refine ⟨tracked.addSSTFile placed rfl rfl ?_, ?_⟩
    · by_cases noBlobs : store.blobsOf number = []
      · refine Or.inl ?_
        intro blob inFile
        rw [migratedMeta, noBlobs] at inFile
        cases inFile
      · exact Or.inr (listed number opened noBlobs)
    · intro other otherOpened someBlobs
      obtain ⟨source, mem, same⟩ := listed other otherOpened someBlobs
      refine ⟨source, ?_, same⟩
      rw [CompactionStore.addSSTFile, choose, CompactionEngine.levels_addSSTFileAndSchedule]
      exact CompactionEngine.mem_files_addSSTFile mem
  · exact ⟨tracked, listed⟩

theorem BlobsTracked.migrate (tracked : store.BlobsTracked) (placed : store.FilesPlaced opts place)
    {opens : Nat → Bool} (atLevel0 : ∀ number, opens number = true → place number = 0)
    (listed : store.OpenedAreListed opens) (numbers : List Nat) :
    (numbers.foldl (fun cur number => cur.migrateFile opts opens number) store).BlobsTracked := by
  induction numbers generalizing store with
  | nil => exact tracked
  | cons head tail ih =>
    obtain ⟨headTracked, headListed⟩ := tracked.migrateFile placed listed head
    exact ih headTracked (placed.migrateFile (atLevel0 head)) headListed

end Steps

/-- The condition on a step.  A flushed row must not refer to blob file 0, which is
never registered.  A new engine must find no external references in files that the
manifest lists below level 0, nor, when it adds the files of the directory, in a file
that the manifest does not list at level 0. -/
def BlobAllowed (opts : CompactionOptions) (store : CompactionStore) : FileOperation → Prop
  | .flush rows _ _ => 0 ∉ externalBlobs rows
  | .restart _ => store.CompactedWithoutBlobs
  | .reopen reopening =>
    store.FileAllowed (.reopen reopening) ∧
    (store.close opts reopening).CompactedWithoutBlobs ∧
    ∀ number, reopening.opens number = true → (store.close opts reopening).blobsOf number ≠ [] →
      ∃ levels ∈ (store.close opts reopening).manifest,
        ∃ file ∈ levels.files 0, file.fileNumber = number
  | _ => True

variable {opts : CompactionOptions} {store : CompactionStore}

theorem BlobsTracked.reopen
    {place : Nat → Nat} (tracked : store.BlobsTracked) (placed : store.FilesPlaced opts place)
    {reopening : Reopening} (allowed : store.BlobAllowed opts (.reopen reopening)) :
    (store.reopen opts reopening).BlobsTracked := by
  obtain ⟨filesAllowed, compacted, listed⟩ := allowed
  obtain ⟨closedPlace, closed⟩ := placed.close reopening
  obtain ⟨newPlace, restarted, others⟩ := closed.restart reopening.small
  have closedTracked := tracked.close placed reopening
  refine (closedTracked.restart reopening.small compacted).migrate restarted ?_ ?_ _
  · intro number opened
    apply others
    intro levels isSaved level below file mem same
    rw [manifest_close] at isSaved
    have unopened := filesAllowed levels isSaved level below file mem
    rw [same, opened] at unopened
    cases unopened
  · intro number opened someBlobs
    rw [blobsOf, rowsOf_restart] at someBlobs
    obtain ⟨levels, isSaved, file, mem, same⟩ := listed number opened someBlobs
    obtain ⟨-, -, origin⟩ := (store.close opts reopening).restart_spec opts reopening.small
    rcases origin with ⟨noManifest, -⟩ | ⟨saved, isManifest, sameLevels, -⟩
    · rw [noManifest] at isSaved
      cases isSaved
    · rw [isManifest] at isSaved
      injection isSaved with sameSaved
      rw [sameLevels, sameSaved]
      exact ⟨file, mem, same⟩

theorem BlobAllowed.fileAllowed {op : FileOperation} (allowed : store.BlobAllowed opts op) :
    store.FileAllowed op := by
  cases op with
  | reopen reopening => exact allowed.1
  | _ => trivial

theorem blobsTracked_fileStep
    {place : Nat → Nat} {op : FileOperation} (tracked : store.BlobsTracked)
    (placed : store.FilesPlaced opts place) (allowed : store.BlobAllowed opts op) :
    (store.fileStep opts op).BlobsTracked := by
  cases op with
  | flush rows temporalFilter write => exact tracked.flush placed rows temporalFilter write allowed
  | pickNextCompaction => exact tracked.pick
  | scheduleCompaction => exact tracked.schedule
  | executeCompaction pos out => exact tracked.execute placed pos out
  | saveManifest write => exact tracked.saveManifest write
  | loadManifest => exact tracked.loadManifest
  | restart small => exact tracked.restart small allowed
  | reopen reopening => exact tracked.reopen placed allowed

/-- In every run whose steps meet the condition, no blob file that a row of a listed
file refers to can be deleted. -/
theorem referenced_blob_not_deletable
    (opts : CompactionOptions) (gcSafePoint : UInt64) (ops : List FileOperation)
    (admissible : Runs.Admissible (fileStep opts) (BlobAllowed opts)
      (CompactionStore.init opts gcSafePoint) ops) :
    let final := Runs.run (fileStep opts) (CompactionStore.init opts gcSafePoint) ops
    ∀ file ∈ final.engine.levels.all, ∀ row ∈ final.rowsOf file.fileNumber,
      row.descriptor.getKind = .externalRef →
      final.engine.blobReferences.canDeleteBlob row.descriptor.blobFileId = false := by
  intro final
  have preserved : ∀ (store : CompactionStore) (op : FileOperation),
      ((∃ place, store.FilesPlaced opts place) ∧ store.BlobsTracked) →
      store.BlobAllowed opts op →
      (∃ place, (store.fileStep opts op).FilesPlaced opts place) ∧
        (store.fileStep opts op).BlobsTracked := by
    intro store op both allowed
    obtain ⟨⟨place, placed⟩, tracked⟩ := both
    exact ⟨filesPlaced_fileStep ⟨place, placed⟩ allowed.fileAllowed,
      blobsTracked_fileStep tracked placed allowed⟩
  obtain ⟨-, tracked⟩ := Runs.invariant_run preserved
    ⟨⟨fun _ => 0, filesPlaced_init opts gcSafePoint _⟩,
      blobsTracked_init opts gcSafePoint⟩ admissible
  intro file listed row mem isExternal
  apply canDeleteBlob_eq_false_iff.mpr
  exact tracked.registered file (Or.inl listed) _
    (mem_externalBlobs_iff.mpr ⟨row, mem, isExternal, rfl⟩)

/-- A row whose descriptor refers to blob file 5 is flushed and compacted. -/
theorem compacted_blob_not_deletable :
    let final := Runs.run (fileStep .default) (CompactionStore.init .default 0)
      [.flush [⟨.vertex 1 0 10 0 0 0 0, ⟨3 + 5 * 2 ^ 44⟩, 7⟩] none .complete,
        .flush [⟨.vertex 2 0 10 0 0 0 0, ⟨32⟩, 7⟩] none .complete,
        .pickNextCompaction, .executeCompaction 0 .success]
    ∀ file ∈ final.engine.levels.all, ∀ row ∈ final.rowsOf file.fileNumber,
      row.descriptor.getKind = .externalRef →
      final.engine.blobReferences.canDeleteBlob row.descriptor.blobFileId = false := by
  have first : 0 ∉ externalBlobs [⟨.vertex 1 0 10 0 0 0 0, ⟨3 + 5 * 2 ^ 44⟩, 7⟩] := by
    decide
  have second : 0 ∉ externalBlobs [⟨.vertex 2 0 10 0 0 0 0, ⟨32⟩, 7⟩] := by
    decide
  exact referenced_blob_not_deletable .default 0 _ ⟨first, second, trivial, trivial, trivial⟩

/-- After a restart the same blob file can be deleted although the compacted file that
is listed refers to it. -/
theorem compacted_blob_deletable_after_restart :
    let final := Runs.run (fileStep .default) (CompactionStore.init .default 0)
      [.flush [⟨.vertex 1 0 10 0 0 0 0, ⟨3 + 5 * 2 ^ 44⟩, 7⟩] none .complete,
        .flush [⟨.vertex 2 0 10 0 0 0 0, ⟨32⟩, 7⟩] none .complete,
        .pickNextCompaction, .executeCompaction 0 .success, .restart fun _ => false]
    final.engine.levels.all.map ZoneSstMeta.fileNumber = [3] ∧
      ((final.rowsOf 3).map fun row =>
        (row.descriptor.getKind, row.descriptor.blobFileId)).head? = some (.externalRef, 5) ∧
      final.engine.blobReferences.canDeleteBlob 5 = true := by
  decide +kernel

end CompactionStore

end CedarGraph
