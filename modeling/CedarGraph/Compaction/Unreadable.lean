import CedarGraph.Compaction.Store

/-!
# Compaction with unreadable inputs

`MergeZones` skips an input that cannot be opened, and `DoZoneCompaction` then deletes all
inputs. A compaction loses nothing exactly when it stops before the metadata update or every row
of its files, up to the transaction version, is also in a file that opened.
-/

namespace CedarGraph

namespace CompactionStore

def Dropped (before after : CompactionStore) (file : ZoneSstMeta) : Prop :=
  (file ∈ before.engine.levels.all ∧ file ∉ after.engine.levels.all) ∨
  (before.disk file.fileNumber ≠ .absent ∧ after.disk file.fileNumber = .absent)

/-- What is to hold after a compaction: the rows of the files of the task can still be
reached, and a file is dropped only when the output holds its rows. -/
structure NothingLost (before after : CompactionStore) (task : CompactionTask) : Prop where
  reachable : ∀ file ∈ task.files, ∀ row ∈ before.rowsOf file.fileNumber,
    ∃ listed ∈ after.engine.levels.all, ∃ other ∈ after.rowsOf listed.fileNumber,
      other.merged = row.merged
  dropped : ∀ file ∈ task.files, before.Dropped after file →
    ∀ row ∈ before.rowsOf file.fileNumber, row.merged ∈ after.rowsOf before.nextFileNumber

section Lost

variable {opts : CompactionOptions} {store : CompactionStore} {task : CompactionTask}
  {out : CompactionOutcome}

theorem nothingLost_abandoned (lists : store.Lists task) (entry : DiskEntry) :
    store.NothingLost (store.abandoned entry) task := by
  have sameDisk : ∀ file ∈ task.files,
      (store.abandoned entry).disk file.fileNumber = store.disk file.fileNumber := by
    intro file mem
    exact Function.update_of_ne (Nat.ne_of_lt (lists.counted file (lists.mem_all mem))) _ _
  refine ⟨?_, ?_⟩
  · intro file mem row inFile
    refine ⟨file, lists.mem_all mem, row, ?_, rfl⟩
    rw [rowsOf, sameDisk file mem]
    exact inFile
  · intro file mem dropped
    rcases dropped with ⟨listed, removed⟩ | ⟨present, deleted⟩
    · exact absurd listed removed
    · rw [sameDisk file mem] at deleted
      exact absurd deleted present

theorem Updated.nothingLost_iff
    {after : CompactionStore} (updated : store.Updated opts after task out)
    (lists : store.Lists task) :
    store.NothingLost after task ↔
      ∀ file ∈ task.files, ∀ row ∈ store.rowsOf file.fileNumber,
        row.merged ∈ (store.compactedFile opts task out).rows := by
  constructor
  · intro kept file mem row inFile
    rw [← updated.rowsOf_output lists]
    refine kept.dropped file mem (Or.inl ⟨lists.mem_all mem, ?_⟩) row inFile
    intro still
    rcases (updated.mem_all_iff lists).mp still with ⟨-, notInTask⟩ | isOutput
    · exact notInTask (List.mem_map_of_mem mem)
    · apply lists.output_not_mem
      have number : file.fileNumber = store.nextFileNumber := congrArg _ isOutput
      rw [← number]
      exact List.mem_map_of_mem mem
  · intro held
    refine ⟨?_, ?_⟩
    · intro file mem row inFile
      refine ⟨_, (updated.mem_all_iff lists).mpr (Or.inr rfl), row.merged, ?_, rfl⟩
      have inOutput := held file mem row inFile
      rw [← updated.rowsOf_output lists] at inOutput
      exact inOutput
    · intro file mem _ row inFile
      rw [updated.rowsOf_output lists]
      exact held file mem row inFile

/-- A compaction loses nothing exactly when it stops before the metadata update, reads
no row at all, or finds every row of its files in a file that opened. -/
theorem nothingLost_iff_rows_opened
    (opts : CompactionOptions) (store : CompactionStore) (task : CompactionTask)
    (out : CompactionOutcome) (lists : store.Lists task)
    (keeps : KeepsAll opts store.gcSafePoint task.outputLevel
      (store.openStreams out.opens task.allInputs).flatten) :
    store.NothingLost (store.doZoneCompaction opts task out).1 task ↔ out.output ≠ .complete ∨
      (∀ file ∈ task.files, out.opens file.fileNumber = true → store.rowsOf file.fileNumber = []) ∨
      ∀ file ∈ task.files, ∀ row ∈ store.rowsOf file.fileNumber,
        ∃ other ∈ task.files, out.opens other.fileNumber = true ∧
          ∃ copy ∈ store.rowsOf other.fileNumber, row.merged = copy.merged := by
  have inOutput : ∀ row, row ∈ (store.compactedFile opts task out).rows ↔
      ∃ other ∈ task.files, out.opens other.fileNumber = true ∧
        ∃ copy ∈ store.rowsOf other.fileNumber, row = copy.merged := by
    intro row
    rw [compactedFile, mem_mergeZones_iff keeps.agree]
    constructor
    · intro merged
      obtain ⟨source, mem, -, rfl⟩ := merged
      obtain ⟨file, fileMember, opened, inFile⟩ := mem_openStreams_allInputs_iff.mp mem
      exact ⟨file, fileMember, opened, source, inFile, rfl⟩
    · intro found
      obtain ⟨file, fileMember, opened, source, inFile, rfl⟩ := found
      have mem := mem_openStreams_allInputs_iff.mpr ⟨file, fileMember, opened, inFile⟩
      exact ⟨source, mem, keeps.notDropped source mem, rfl⟩
  have noneRead : (∀ file ∈ task.files, out.opens file.fileNumber = true →
      store.rowsOf file.fileNumber = []) ↔
      (store.compactedFile opts task out).rows = [] := by
    rw [List.eq_nil_iff_forall_not_mem]
    constructor
    · intro empty row mem
      obtain ⟨file, fileMember, opened, copy, inFile, -⟩ := (inOutput row).mp mem
      rw [empty file fileMember opened] at inFile
      cases inFile
    · intro noRows file mem opened
      refine List.eq_nil_iff_forall_not_mem.mpr ?_
      intro row inFile
      exact noRows row.merged ((inOutput _).mpr ⟨file, mem, opened, row, inFile, rfl⟩)
  by_cases stops : out.output ≠ .complete ∨ (store.compactedFile opts task out).rows = []
  · have lostNothing : store.NothingLost (store.doZoneCompaction opts task out).1 task := by
      rcases doZoneCompaction_cases with ⟨-, entry, res⟩ | ⟨complete, someRows, -⟩
      · rw [res]
        exact nothingLost_abandoned lists entry
      · rcases stops with incomplete | noRows
        · exact absurd complete incomplete
        · exact absurd noRows someRows
    rw [noneRead, ← or_assoc]
    exact iff_of_true lostNothing (Or.inl stops)
  · have complete : out.output = .complete := by
      by_contra incomplete
      exact stops (Or.inl incomplete)
    have someRows : (store.compactedFile opts task out).rows ≠ [] := by
      intro noRows
      exact stops (Or.inr noRows)
    rw [noneRead, ← or_assoc, or_iff_right stops,
      (updated_doZoneCompaction complete someRows).nothingLost_iff lists]
    exact forall₄_congr fun file _ row _ => inOutput row.merged

/-- The file that does not open holds a row that the other one has too. -/
theorem nothingLost_when_copy_opens :
    let row : Row := ⟨.vertex 1 0 10 0 0 0 0, ⟨16⟩, 7⟩
    let other : Row := ⟨.vertex 2 0 10 0 0 0 0, ⟨32⟩, 7⟩
    let store := ((CompactionStore.init .default 0).flush .default [row] none
      .complete).flush .default [row, other] none .complete
    let task : CompactionTask := ⟨0, 1, store.engine.levels.files 0, []⟩
    let out : CompactionOutcome :=
      { CompactionOutcome.success with opens := fun number => decide (number ≠ 1) }
    store.NothingLost (store.doZoneCompaction .default task out).1 task := by
  intro row other store task out
  have lists : store.Lists task := ⟨Levels.unique_of_nodup (by decide +kernel),
    by decide +kernel, by decide +kernel, by decide +kernel, by decide⟩
  exact (nothingLost_iff_rows_opened .default store task out lists
    ⟨by decide +kernel, by decide +kernel⟩).mpr (.inr (.inr (by decide +kernel)))

/-- A file that fails to open once is deleted although its row is nowhere else. -/
theorem compaction_deletes_unopened_input :
    let row : Row := ⟨.vertex 1 0 10 0 0 0 0, ⟨16⟩, 7⟩
    let second : List Row := [⟨.vertex 2 0 10 0 0 0 0, ⟨32⟩, 7⟩]
    let store := ((CompactionStore.init .default 0).flush .default [row] none
      .complete).flush .default second none .complete
    let out : CompactionOutcome :=
      { CompactionOutcome.success with opens := fun number => decide (number ≠ 1) }
    let after := (store.pickNextCompaction .default).execute .default 0 out
    store.rowsOf 1 = [row] ∧ after.disk 1 = .absent ∧
      after.engine.levels.all.map ZoneSstMeta.fileNumber = [3] ∧
      row.merged ∉ after.rowsOf 3 := by
  decide +kernel

end Lost

end CompactionStore

end CedarGraph
