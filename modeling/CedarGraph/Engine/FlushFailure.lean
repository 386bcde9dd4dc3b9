import CedarGraph.Engine.Lsm

/-!
# A failed flush of the accumulated buffer

`FlushAccumulated` takes the entries out of the buffer before it creates the file. When the file
fails they are in no place that a read looks at, and the retry only adds the rows of the current
memtable again.
-/

namespace CedarGraph.LsmEngine

open FixedWidth List

section Held

variable (eng : LsmEngine) (row : Row)

def OnFile : Prop :=
  ∃ file ∈ eng.level0, ∃ sst, eng.disk file.fileNumber = some sst ∧ row ∈ sst.rows

/-- The row is in the buffer or in a registered file. -/
def Held : Prop :=
  row ∈ eng.accumulatedEntries ∨ eng.OnFile row

end Held

variable {opts : LsmOptions} {eng : LsmEngine} {mem : VSLMemTable} {row : Row}

theorem onFile_congr {other : LsmEngine} (sameFiles : other.level0 = eng.level0)
    (sameDisk : other.disk = eng.disk) : other.OnFile row ↔ eng.OnFile row := by
  rw [OnFile, OnFile, sameFiles, sameDisk]

theorem onFile_installFile_of_mem
    {rows : List Row} {engineFilter zoneFilter : Option Bytes} (member : row ∈ rows) :
    (eng.installFile opts rows engineFilter zoneFilter).OnFile row :=
  ⟨flushMeta opts eng.nextFileNumber rows engineFilter, mem_append_right _ mem_cons_self,
    ⟨.default, opts.rowSort.sort rows⟩, by simp [installFile, flushMeta],
    (opts.rowSort.perm rows).mem_iff.mpr member⟩

theorem mem_of_onFile_installFile {rows : List Row} (engineFilter zoneFilter : Option Bytes)
    (present : (eng.installFile opts rows engineFilter zoneFilter).OnFile row) :
    row ∈ rows ∨ eng.OnFile row := by
  obtain ⟨file, listed, sst, stored, member⟩ := present
  by_cases new : file.fileNumber = eng.nextFileNumber
  · have content : some (SstFile.mk .default (opts.rowSort.sort rows)) = some sst := by
      simpa [installFile, new] using stored
    cases content
    exact Or.inl ((opts.rowSort.perm rows).mem_iff.mp member)
  · rcases mem_append.mp listed with old | added
    · exact Or.inr ⟨file, old, sst, by simpa [installFile, new] using stored, member⟩
    · exact absurd (congrArg ZoneSstMeta.fileNumber (mem_singleton.mp added)) new

/-- A failed flush leaves an empty buffer and no new file, a successful one keeps every
row of the buffer, and no row comes from elsewhere. -/
theorem flushAccumulated_held
    (opts : LsmOptions) (eng : LsmEngine) (written : Bool) :
    let flushed := eng.flushAccumulated opts written
    (flushed.2 = false → flushed.1.accumulatedEntries = [] ∧
      ∀ row, flushed.1.OnFile row ↔ eng.OnFile row) ∧
    (flushed.2 = true → ∀ row ∈ eng.accumulatedEntries, flushed.1.Held row) ∧
    ∀ row, flushed.1.Held row → eng.Held row := by
  rw [flushAccumulated]
  by_cases nothing : eng.accumulatedEntries.isEmpty = true
  · rw [if_pos nothing]
    exact ⟨nofun, fun _ row => Or.inl, fun _ => id⟩
  rw [if_neg nothing]
  cases written with
  | true =>
    refine ⟨nofun, fun _ row buffered => Or.inr (onFile_installFile_of_mem buffered), ?_⟩
    intro row held
    rcases held with buffered | present
    · cases buffered
    · exact mem_of_onFile_installFile none (temporalFilterOf eng.accumulatedEntries) present
  | false =>
    refine ⟨fun _ => ⟨rfl, fun row => onFile_congr rfl rfl⟩, nofun, ?_⟩
    intro row held
    rcases held with buffered | present
    · cases buffered
    · exact Or.inr ((onFile_congr rfl rfl).mp present)

/-- The same for one attempt to flush a memtable.  Without accumulation the buffer is not
touched. -/
theorem flushMemTable_held
    (opts : LsmOptions) (eng : LsmEngine) (mem : VSLMemTable) (written : Bool) :
    let flushed := eng.flushMemTable opts mem written
    (opts.enableAccumulatedFlush = false → flushed.1.accumulatedEntries = eng.accumulatedEntries) ∧
    (opts.enableAccumulatedFlush = true → flushed.2 = false →
      flushed.1.accumulatedEntries = [] ∧ ∀ row, flushed.1.OnFile row ↔ eng.OnFile row) ∧
    (flushed.2 = true → ∀ row ∈ eng.accumulatedEntries, flushed.1.Held row) ∧
    ∀ row, flushed.1.Held row → row ∈ mem.traverse ∨ eng.Held row := by
  rw [flushMemTable]
  by_cases nothing : mem.isEmpty = true
  · rw [if_pos nothing]
    exact ⟨fun _ => rfl, fun _ => nofun, fun _ row => Or.inl, fun _ => Or.inr⟩
  rw [if_neg nothing]
  cases accumulating : opts.enableAccumulatedFlush with
  | true =>
    let collected := eng.accumulate mem.traverse
    have whole := flushAccumulated_held opts collected written
    have origin : ∀ row, collected.Held row → row ∈ mem.traverse ∨ eng.Held row := by
      intro row held
      rcases held with buffered | present
      · exact (mem_append.mp buffered).symm.imp_right Or.inl
      · exact Or.inr (Or.inr ((onFile_congr rfl rfl).mp present))
    dsimp only
    rw [if_pos rfl]
    by_cases full : opts.accumulatedFlushBytes ≤ collected.accumulatedBytes
    · rw [if_pos full]
      refine ⟨nofun, fun _ failed => ?_, fun done row prev => ?_, fun row held => ?_⟩
      · have left := whole.1 failed
        exact ⟨left.1, fun row => (left.2 row).trans (onFile_congr rfl rfl)⟩
      · exact whole.2.1 done row (mem_append_left _ prev)
      · exact origin row (whole.2.2 row held)
    · rw [if_neg full]
      exact ⟨nofun, fun _ => nofun, fun _ _ prev => Or.inl (mem_append_left _ prev), origin⟩
  | false =>
    dsimp only
    rw [if_neg Bool.false_ne_true, flushEntriesToSST]
    by_cases noRows : mem.traverse.isEmpty = true
    · rw [if_pos noRows]
      exact ⟨fun _ => rfl, nofun, fun _ row => Or.inl, fun _ => Or.inr⟩
    rw [if_neg noRows]
    cases written with
    | true =>
      refine ⟨fun _ => rfl, nofun, fun _ row => Or.inl, fun row held => ?_⟩
      rcases held with buffered | present
      · exact Or.inr (Or.inl buffered)
      · exact (mem_of_onFile_installFile (temporalFilterOf mem.traverse) none present).imp_right
          Or.inr
    | false =>
      refine ⟨fun _ => rfl, nofun, nofun, fun row held => Or.inr ?_⟩
      exact held.imp_right (onFile_congr rfl rfl).mp

/-- A failed flush keeps the rows of the buffer exactly if registered files hold them all
already.  A row that is only in the buffer survives the retries of a later memtable exactly
if the first attempt succeeds or accumulation is off. -/
theorem accumulated_rows_held_iff
    (opts : LsmOptions) (eng : LsmEngine) (written : Bool) (mem : VSLMemTable)
    (attempts : Nat → Bool) :
    ((∀ row ∈ eng.accumulatedEntries, (eng.flushAccumulated opts written).1.Held row) ↔
      (eng.flushAccumulated opts written).2 = true ∨
        ∀ row ∈ eng.accumulatedEntries, eng.OnFile row) ∧
    ∀ row ∈ eng.accumulatedEntries, row ∉ mem.traverse → ¬ eng.OnFile row →
      ((eng.flushMemTableWithRetry opts mem attempts).1.Held row ↔
        (eng.flushMemTable opts mem (attempts 1)).2 = true ∨
          opts.enableAccumulatedFlush = false) := by
  constructor
  · have whole := flushAccumulated_held opts eng written
    cases res : (eng.flushAccumulated opts written).2 with
    | true => exact iff_of_true (whole.2.1 res) (Or.inl rfl)
    | false =>
      have left := whole.1 res
      simp [Held, left.1, left.2]
  · intro row buffered notCurrent notStored
    have attempt := fun other next => flushMemTable_held opts other mem next
    rw [flushMemTableWithRetry]
    dsimp only
    cases res : (eng.flushMemTable opts mem (attempts 1)).2 with
    | true =>
      exact iff_of_true ((attempt eng (attempts 1)).2.2.1 res row buffered) (Or.inl rfl)
    | false =>
      rw [if_neg Bool.false_ne_true]
      cases accumulating : opts.enableAccumulatedFlush with
      | false =>
        -- Every attempt leaves the buffer as it is.
        have kept := fun other next => (attempt other next).1 accumulating
        refine iff_of_true (Or.inl ?_) (Or.inr rfl)
        split
        · rwa [kept, kept]
        · rwa [kept, kept, kept]
      | true =>
        -- The first attempt loses the row, and no later one brings it back.
        have lost : ¬ (eng.flushMemTable opts mem (attempts 1)).1.Held row := by
          have left := (attempt eng (attempts 1)).2.1 accumulating res
          rw [Held, left.1, left.2 row]
          simp [notStored]
        have gone := fun other next (before : ¬ LsmEngine.Held other row) held =>
          ((attempt other next).2.2.2 row held).elim notCurrent before
        refine iff_of_false ?_ (by simp)
        split
        · exact gone _ _ lost
        · exact gone _ _ (gone _ _ lost)

/-- A row of an earlier memtable, buffered by an engine that flushes from 80 bytes on. -/
def bufferedEngine : LsmEngine :=
  { init .default with
    accumulatedEntries := [⟨.vertex 7 1 5 0 0 0 0, ⟨16⟩, 1⟩]
    accumulatedBytes := 40 }

def smallBuffer : LsmOptions :=
  { LsmOptions.default with accumulatedFlushBytes := 80 }

def laterMemtable : VSLMemTable :=
  VSLMemTable.empty.put ⟨.vertex 8 1 5 0 0 0 0, ⟨32⟩, 2⟩

/-- When the first attempt succeeds the row of the earlier memtable is kept. -/
theorem accumulated_row_held :
    (bufferedEngine.flushMemTableWithRetry smallBuffer laterMemtable fun _ => true).1.Held
      ⟨.vertex 7 1 5 0 0 0 0, ⟨16⟩, 1⟩ :=
  ((accumulated_rows_held_iff smallBuffer bufferedEngine true laterMemtable fun _ => true).2 _
    mem_cons_self (by decide) (by rintro ⟨file, listed, -⟩; cases listed)).mpr (Or.inl rfl)

/-- The first attempt fails and the second succeeds: the call reports success, and the row
of the earlier memtable is gone. -/
theorem accumulated_row_lost :
    let flushed := bufferedEngine.flushMemTableWithRetry smallBuffer laterMemtable fun attempt =>
      decide (attempt = 2)
    flushed.2 = true ∧ flushed.1.accumulatedEntries = laterMemtable.traverse ∧
      flushed.1.level0 = [] :=
  ⟨rfl, rfl, rfl⟩

end CedarGraph.LsmEngine
