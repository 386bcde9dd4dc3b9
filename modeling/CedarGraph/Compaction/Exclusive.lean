import CedarGraph.Compaction.Store
import CedarGraph.Lib.Runs

/-!
# Exclusive compaction tasks

Two unfinished tasks should not share a file. The level-0 branch of `PickNextCompaction` marks
only its inputs, and the other branch nothing, so a second pick can return the same files. Tasks
stay exclusive while a pick finds every file of an unfinished task marked and no file of level 1
marked.
-/

namespace CedarGraph

open List

namespace CompactionStore

/-- No two unfinished tasks share a file number. -/
def Exclusive (store : CompactionStore) : Prop :=
  store.unfinished.Pairwise fun left right =>
    ∀ file ∈ left.files, ∀ other ∈ right.files, file.fileNumber ≠ other.fileNumber

instance (store : CompactionStore) : Decidable store.Exclusive :=
  inferInstanceAs (Decidable (List.Pairwise _ _))

inductive TaskOperation where
  | pickNextCompaction
  | scheduleCompaction
  | executeCompaction (pos : Nat) (outcome : CompactionOutcome)
  | addSSTFile (file : ZoneSstMeta)

def taskStep (opts : CompactionOptions) (store : CompactionStore) : TaskOperation → CompactionStore
  | .pickNextCompaction => store.pickNextCompaction opts
  | .scheduleCompaction => store.scheduleCompaction opts
  | .executeCompaction pos out => store.execute opts pos out
  | .addSSTFile file => store.addSSTFile opts file

structure SafeToPick (eng : CompactionEngine) (unfinished : List CompactionTask) : Prop where
  marked : ∀ task ∈ unfinished, ∀ file ∈ task.files, file.fileNumber ∈ eng.compacting
  level1Free : ∀ file ∈ eng.levels.files 1, file.fileNumber ∉ eng.compacting

/-- The condition on a step: whenever it may pick, picking is safe. -/
def TaskAllowed (opts : CompactionOptions) (store : CompactionStore) : TaskOperation → Prop
  | .pickNextCompaction => SafeToPick store.engine store.unfinished
  | .scheduleCompaction =>
    opts.config.enableBackgroundCompaction = true → SafeToPick store.engine store.unfinished
  | .executeCompaction _ _ => True
  | .addSSTFile file =>
    opts.config.enableBackgroundCompaction = true → file.level = 0 →
      SafeToPick store.engine store.unfinished

section Steps

variable {opts : CompactionOptions} {store : CompactionStore}

variable {eng : CompactionEngine}

theorem exclusive_choose_none (exclusive : store.Exclusive) :
    (store.choose (eng, none)).Exclusive := by
  rw [Exclusive, choose]
  dsimp only [Option.toList_none]
  rw [append_nil]
  exact exclusive

theorem exclusive_pick (safe : SafeToPick eng store.unfinished) (exclusive : store.Exclusive) :
    (store.choose (eng.pickNextCompaction opts.config opts.sizeSort)).Exclusive := by
  rcases eng.pickNextCompaction_cases opts.config opts.sizeSort with
    idle | ⟨next, task, choice, picked⟩
  · rw [idle]
    exact exclusive_choose_none exclusive
  · rw [choice]
    have free : ∀ file ∈ task.files, file.fileNumber ∉ eng.compacting := by
      intro file mem
      rcases mem_append.mp mem with isInput | isOverlap
      · exact picked.inputsFree file isInput
      · by_cases fromLevel0 : task.inputLevel = 0
        · have inLevel1 := picked.overlapping file isOverlap
          rw [picked.below, fromLevel0] at inLevel1
          exact safe.level1Free file inLevel1
        · exact picked.overlappingFree fromLevel0 file isOverlap
    rw [Exclusive, choose]
    dsimp only [Option.toList_some]
    refine pairwise_append.mpr ⟨exclusive, pairwise_singleton _ _, ?_⟩
    intro old oldMember new newMember file fileMember other otherMember same
    rw [mem_singleton.mp newMember] at otherMember
    apply free other otherMember
    rw [← same]
    exact safe.marked old oldMember file fileMember

theorem exclusive_schedule
    (safe : opts.config.enableBackgroundCompaction = true → SafeToPick eng store.unfinished)
    (exclusive : store.Exclusive) :
    (store.choose (eng.scheduleCompaction opts.config opts.sizeSort)).Exclusive := by
  rw [CompactionEngine.scheduleCompaction]
  split
  · rename_i background
    exact exclusive_pick (safe background) exclusive
  · exact exclusive_choose_none exclusive

theorem safeToPick_addSSTFile {file : ZoneSstMeta} (level0 : file.level = 0)
    (safe : SafeToPick store.engine store.unfinished) :
    SafeToPick (store.engine.addSSTFile opts.config file) store.unfinished := by
  rw [CompactionEngine.addSSTFile]
  split
  · exact safe
  split
  · exact safe
  · refine ⟨safe.marked, ?_⟩
    rw [level0]
    by_cases lt : 0 < store.engine.levels.length
    · rw [Levels.files_setFiles lt, if_neg Nat.one_ne_zero]
      exact safe.level1Free
    · rw [Levels.setFiles, set_eq_of_length_le (Nat.le_of_not_lt lt)]
      exact safe.level1Free

theorem exclusive_addSSTFile
    {file : ZoneSstMeta} (allowed : TaskAllowed opts store (.addSSTFile file))
    (exclusive : store.Exclusive) : (store.addSSTFile opts file).Exclusive := by
  rw [addSSTFile, CompactionEngine.addSSTFileAndSchedule]
  split
  · rename_i schedules
    simp only [Bool.and_eq_true, decide_eq_true_eq] at schedules
    apply exclusive_schedule ?_ exclusive
    intro background
    exact safeToPick_addSSTFile schedules.1.1.2 (allowed background schedules.1.1.2)
  · exact exclusive_choose_none exclusive

theorem unfinished_doZoneCompaction (task : CompactionTask) (out : CompactionOutcome) :
    (store.doZoneCompaction opts task out).1.unfinished = store.unfinished := by
  rcases doZoneCompaction_cases with ⟨-, entry, res⟩ | ⟨-, -, ⟨-, res⟩ | ⟨-, res⟩⟩
  · rw [res]
    rfl
  · rw [res]
    rfl
  · rw [res]
    rfl

theorem exclusive_execute (pos : Nat) (out : CompactionOutcome) (exclusive : store.Exclusive) :
    (store.execute opts pos out).Exclusive := by
  rw [execute]
  split
  · exact exclusive
  · rw [Exclusive, executeCompaction]
    dsimp only
    rw [unfinished_doZoneCompaction]
    exact exclusive.sublist (eraseIdx_sublist _ _)

theorem exclusive_taskStep {op : TaskOperation} (exclusive : store.Exclusive)
    (allowed : TaskAllowed opts store op) : (store.taskStep opts op).Exclusive := by
  cases op with
  | pickNextCompaction => exact exclusive_pick allowed exclusive
  | scheduleCompaction => exact exclusive_schedule allowed exclusive
  | executeCompaction pos out => exact exclusive_execute pos out exclusive
  | addSSTFile file => exact exclusive_addSSTFile allowed exclusive

end Steps

/-- In every run whose picks are safe, unfinished tasks share no file. -/
theorem exclusive_run (opts : CompactionOptions) (store : CompactionStore)
    (nothingUnfinished : store.unfinished = []) (ops : List TaskOperation)
    (admissible : Runs.Admissible (taskStep opts) (TaskAllowed opts) store ops) :
    (Runs.run (taskStep opts) store ops).Exclusive := by
  have start : store.Exclusive := by
    rw [Exclusive, nothingUnfinished]
    exact List.Pairwise.nil
  exact Runs.invariant_run (fun _ _ exclusive allowed => exclusive_taskStep exclusive allowed)
    start admissible

/-- Files 1 and 2 of level 0, and a file of level 1 beyond the capacity of that level. -/
theorem exclusive_run_of_two_tasks :
    let store := ((CompactionStore.init .default 0).flush .default
      [⟨.vertex 1 0 10 0 0 0 0, ⟨16⟩, 7⟩] none .complete).flush .default
      [⟨.vertex 2 0 10 0 0 0 0, ⟨32⟩, 7⟩] none .complete
    let file : ZoneSstMeta :=
      { fileNumber := 3, fileSize := 4000000000, numEntries := 1, level := 1
        range := KeyRange.zero, columnId := uint16Max, entityType := 0, blobFileNumber := 0
        referencedBlobFiles := [], temporalFilter := none }
    let final := Runs.run (taskStep .default) store
      [.pickNextCompaction, .addSSTFile file, .pickNextCompaction]
    final.unfinished.map (fun task => task.files.map ZoneSstMeta.fileNumber) = [[1, 2], [3]] ∧
      final.Exclusive := by
  intro store file final
  refine ⟨by decide +kernel,
    exclusive_run .default store (by decide +kernel) _ ⟨?_, ?_, ?_, trivial⟩⟩
  · exact ⟨by decide +kernel, by decide +kernel⟩
  · intro _ level0
    cases level0
  · exact ⟨by decide +kernel, by decide +kernel⟩

/-- A second pick returns the same file of level 1 again. -/
theorem level1_file_picked_twice :
    let file : ZoneSstMeta :=
      { fileNumber := 1, fileSize := 4000000000, numEntries := 1, level := 1
        range := KeyRange.zero, columnId := uint16Max, entityType := 0, blobFileNumber := 0
        referencedBlobFiles := [], temporalFilter := none }
    let final := Runs.run (taskStep .default) (CompactionStore.init .default 0)
      [.addSSTFile file, .pickNextCompaction, .pickNextCompaction]
    final.unfinished.map CompactionTask.files = [[file], [file]] ∧ ¬ final.Exclusive := by
  decide +kernel

end CompactionStore

end CedarGraph
