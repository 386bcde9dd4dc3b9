import CedarGraph.Lib.Runs
import CedarGraph.Engine.Layers

/-!
# Time-travel reads over whole runs

Every operation moves rows between the layers without reordering them, as long as every put
arrives after the versions in memory, and not before those in the files. So the layers hold the
history of the puts, whatever `FileInvariant` says how the files show theirs.
-/

namespace CedarGraph

open Newest VSLMemTable FixedWidth List Runs

namespace LsmEngine

inductive Operation where
  | put (row : Row) (lockFree : Bool)
  | forceFlush (background leftover cur : Nat → Bool)
  | backgroundFlush (written : Nat → Bool)

structure Recorded where
  engine : LsmEngine
  history : List Row

variable (opts : LsmOptions)

namespace Recorded

def init : Recorded :=
  ⟨.init opts, []⟩

def step (recorded : Recorded) : Operation → Recorded
  | .put row lockFree => ⟨recorded.engine.put opts row lockFree, recorded.history ++ [row]⟩
  | .forceFlush background leftover cur =>
    ⟨recorded.engine.forceFlush opts background leftover cur, recorded.history⟩
  | .backgroundFlush written =>
    ⟨recorded.engine.finishBackgroundFlush opts written, recorded.history⟩

end Recorded

instance (row prev : Row) : Decidable (VSLMemTable.Follows row prev) :=
  inferInstanceAs (Decidable (_ → _ → _))

instance (prev later : Row) : Decidable (Older prev later) :=
  inferInstanceAs (Decidable (_ → _ → _))

instance (prev later : Row) : Decidable (NotNewer prev later) :=
  inferInstanceAs (Decidable (_ → _ → _))

/-! ## When an operation keeps the history readable -/

def memoryRows (eng : LsmEngine) : List Row :=
  eng.accumulatedEntries ++
    ((eng.imm.map fun imm => imm.nodes.map LFNode.row).getD [] ++ eng.mem.nodes.map LFNode.row)

def listedRows (eng : LsmEngine) : List Row :=
  eng.level0.flatMap fun file => ((eng.disk file.fileNumber).map SstFile.rows).getD []

/-- The put is newer than the versions of its vertex and column in memory, with the same target
as those in the active memtable. -/
structure ArrivesInMemory (eng : LsmEngine) (row : Row) : Prop where
  vertex : row.key.entityType = EntityType.vertex.toByte
  mem : ∀ ver ∈ eng.mem.nodes.map LFNode.row, VSLMemTable.Follows row ver
  memory : ∀ ver ∈ eng.memoryRows, Older ver row

/-- It is also not older than those in the files. -/
structure ArrivesInOrder (eng : LsmEngine) (row : Row) : Prop extends
    eng.ArrivesInMemory row where
  files : ∀ ver ∈ eng.listedRows, NotNewer ver row

/-- The accumulated buffer is emptied before its file is written, so in that mode
the write has to succeed. -/
def Written (written : Nat → Bool) : Prop :=
  opts.enableAccumulatedFlush = true → ∀ attempt, written attempt = true

/-- The condition on each operation; a flush also needs the rows in memory to fit
a file with 32-bit offsets. -/
def Allowed (eng : LsmEngine) : Operation → Prop
  | .put row _ => eng.ArrivesInOrder row
  | .forceFlush background leftover cur =>
    SstFile.Small eng.memoryRows ∧ Written opts background ∧
      Written opts leftover ∧ Written opts cur
  | .backgroundFlush written => SstFile.Small eng.memoryRows ∧ Written opts written

namespace Layers

def append (layers : Layers) (row : Row) : Layers :=
  { layers with mem := layers.mem ++ [row] }

def rotate (layers : Layers) : Layers :=
  { layers with imm := layers.mem, mem := [] }

def collect (layers : Layers) : Layers :=
  { layers with accumulated := layers.accumulated ++ layers.imm, imm := [] }

def writeFile (layers : Layers) (number : Nat) (flushed : List Row)
    (engineFilter zoneFilter : Option Bytes) : Layers :=
  { layers with
    files := layers.files ++ [⟨number, flushed, layers.accumulated, engineFilter, zoneFilter⟩]
    accumulated := [] }

section

variable (layers : Layers)
include layers

theorem history_append (row : Row) : (layers.append row).history = layers.history ++ [row] := by
  simp [history, memory, append, fileRows]

theorem memory_collect : layers.collect.memory = layers.memory := by
  simp [memory, collect]

theorem history_collect : layers.collect.history = layers.history := by
  rw [history, memory_collect]
  rfl

theorem history_writeFile (number : Nat) (flushed : List Row)
    (engineFilter zoneFilter : Option Bytes) :
    (layers.writeFile number flushed engineFilter zoneFilter).history = layers.history := by
  simp [history, memory, writeFile, fileRows]

end

theorem memory_rotate {layers : Layers} (noImm : layers.imm = []) :
    layers.rotate.memory = layers.memory := by
  simp [memory, rotate, noImm]

theorem history_rotate {layers : Layers} (noImm : layers.imm = []) :
    layers.rotate.history = layers.history := by
  rw [history, memory_rotate noImm]
  rfl

end Layers

section Moves

variable {layers : Layers}

section

variable (seq : Sequential layers)
include seq

theorem Sequential.append {row : Row} (vertex : row.key.entityType = EntityType.vertex.toByte)
    (mem : ∀ ver ∈ layers.mem, VSLMemTable.Follows row ver)
    (memory : ∀ ver ∈ layers.memory, Older ver row)
    (files : ∀ ver ∈ layers.fileRows, NotNewer ver row) : Sequential (layers.append row) := by
  have sameMemory : (layers.append row).memory = layers.memory ++ [row] := by
    simp [Layers.memory, Layers.append]
  constructor
  · refine pairwise_append.mpr ⟨seq.memFollows, pairwise_singleton _ _, ?_⟩
    intro ver member last isLast
    rw [mem_singleton.mp isLast]
    exact mem ver member
  · exact seq.immFollows
  · rw [sameMemory]
    refine pairwise_append.mpr ⟨seq.memoryOlder, pairwise_singleton _ _, ?_⟩
    intro ver member last isLast
    rw [mem_singleton.mp isLast]
    exact memory ver member
  · exact seq.fileOlder
  · rw [Layers.history_append]
    refine pairwise_append.mpr ⟨seq.notNewer, pairwise_singleton _ _, ?_⟩
    intro ver member last isLast
    rw [mem_singleton.mp isLast]
    rcases mem_append.mp member with inFiles | inMemory
    · exact files ver inFiles
    · exact (memory ver inMemory).notNewer
  · rw [Layers.history_append]
    intro ver member
    rcases mem_append.mp member with prev | isLast
    · exact seq.vertices ver prev
    · rw [mem_singleton.mp isLast]
      exact vertex

theorem Sequential.rotate (noImm : layers.imm = []) : Sequential layers.rotate := by
  constructor
  · exact List.Pairwise.nil
  · exact seq.memFollows
  · rw [Layers.memory_rotate noImm]
    exact seq.memoryOlder
  · exact seq.fileOlder
  · rw [Layers.history_rotate noImm]
    exact seq.notNewer
  · rw [Layers.history_rotate noImm]
    exact seq.vertices

theorem Sequential.collect : Sequential layers.collect := by
  constructor
  · exact seq.memFollows
  · exact List.Pairwise.nil
  · rw [Layers.memory_collect]
    exact seq.memoryOlder
  · exact seq.fileOlder
  · rw [Layers.history_collect]
    exact seq.notNewer
  · rw [Layers.history_collect]
    exact seq.vertices

theorem Sequential.writeFile (number : Nat) (flushed : List Row)
    (engineFilter zoneFilter : Option Bytes) :
    Sequential (layers.writeFile number flushed engineFilter zoneFilter) := by
  have parts := pairwise_append.mp seq.memoryOlder
  constructor
  · exact seq.memFollows
  · exact seq.immFollows
  · exact parts.2.1
  · intro layer member
    rcases mem_append.mp member with prev | isNew
    · exact seq.fileOlder layer prev
    · rw [mem_singleton.mp isNew]
      exact parts.1
  · rw [Layers.history_writeFile]
    exact seq.notNewer
  · rw [Layers.history_writeFile]
    exact seq.vertices

end

/-- The same history with no more of it in memory. -/
structure Settled (layers later : Layers) : Prop where
  sequential : Sequential later
  history : later.history = layers.history
  memory : later.memory.Subperm layers.memory

theorem Settled.trans
    {middle later : Layers} (first : Settled layers middle) (second : Settled middle later) :
    Settled layers later :=
  ⟨second.sequential, second.history.trans first.history, second.memory.trans first.memory⟩

section

variable (seq : Sequential layers)
include seq

theorem settled_self : Settled layers layers :=
  ⟨seq, rfl, Subperm.refl _⟩

theorem settled_rotate (noImm : layers.imm = []) : Settled layers layers.rotate :=
  ⟨seq.rotate noImm, Layers.history_rotate noImm, (Perm.of_eq (Layers.memory_rotate noImm)).subperm⟩

theorem settled_collect : Settled layers layers.collect :=
  ⟨seq.collect, Layers.history_collect layers, (Perm.of_eq (Layers.memory_collect layers)).subperm⟩

theorem settled_writeFile (number : Nat) (flushed : List Row)
    (engineFilter zoneFilter : Option Bytes) :
    Settled layers (layers.writeFile number flushed engineFilter zoneFilter) := by
  refine ⟨seq.writeFile number flushed engineFilter zoneFilter,
    Layers.history_writeFile layers number flushed engineFilter zoneFilter, ?_⟩
  exact (sublist_append_right _ _).subperm

end

end Moves

/-! ## The operations move rows between the layers -/

section Steps

variable {opts : LsmOptions} {inv : FileInvariant opts} {eng : LsmEngine} {layers : Layers}

theorem stores_init
    (noFiles : inv.Shows (.init opts.compactionConfig) (fun _ => none) 1 []) :
    Stores inv (init opts) ⟨[], [], [], []⟩ :=
  ⟨holds_empty, rfl, List.Perm.nil, fun _ => rfl, rfl, noFiles⟩

theorem unmerged_init (opts : LsmOptions) :
    Unmerged opts (.init opts.compactionConfig) (fun _ => none) 1 [] := by
  constructor
  · intro layer member
    cases member
  · have positive : opts.compactionConfig.maxLevels =
        (opts.compactionConfig.maxLevels - 1) + 1 := by
      have := opts.compactionConfig.twoLevels
      omega
    show replicate opts.compactionConfig.maxLevels [] = _
    rw [positive, replicate_succ]
    rfl

theorem Stores.memoryRows_perm (stores : Stores inv eng layers) :
    eng.memoryRows.Perm layers.memory := by
  refine stores.accumulated.append (List.Perm.append ?_ stores.mem.perm)
  have immHolds := stores.imm
  cases shape : eng.imm with
  | none =>
    rw [shape] at immHolds
    dsimp only at immHolds
    rw [immHolds]
    exact List.Perm.nil
  | some imm =>
    rw [shape] at immHolds
    exact immHolds.perm

variable {row : Row} {written : Nat → Bool}

theorem Stores.mem_listedRows (stores : Stores (.unmerged opts) eng layers)
    (member : row ∈ layers.fileRows) : row ∈ eng.listedRows := by
  rcases mem_flatten.mp member with ⟨rows, rowsMember, rowMember⟩
  rcases mem_map.mp rowsMember with ⟨layer, layerMember, rfl⟩
  have stored := stores.files.stored layer layerMember
  rw [listedRows, stores.level0, flatMap_map, mem_flatMap]
  refine ⟨layer, layerMember, ?_⟩
  dsimp only [flushMeta]
  rw [stored.onDisk]
  exact ((opts.rowSort.perm _).trans stored.perm).mem_iff.mpr rowMember

section

variable (stores : Stores inv eng layers)
include stores

theorem Stores.bump (number : Nat) (larger : eng.nextFileNumber ≤ number) (active : Bool) :
    Stores inv { eng with nextFileNumber := number, flushActive := active } layers := by
  exact ⟨stores.mem, stores.imm, stores.accumulated, stores.direct, stores.level0,
    inv.bump stores.files larger⟩

theorem Stores.put (follows : ∀ ver ∈ layers.mem, VSLMemTable.Follows row ver) :
    Stores inv { eng with mem := eng.mem.put row } (layers.append row) :=
  ⟨holds_insert stores.mem follows, stores.imm, stores.accumulated, stores.direct,
    stores.level0, stores.files⟩

theorem Stores.noImm (absent : eng.imm = none) : layers.imm = [] := by
  have immHolds := stores.imm
  rw [absent] at immHolds
  exact immHolds

theorem Stores.rotate : Stores inv eng.rotate layers.rotate :=
  ⟨holds_empty, stores.mem, stores.accumulated, stores.direct, stores.level0, stores.files⟩

theorem Stores.installFile
    {chunk flushed : List Row} (perm : flushed.Perm chunk) (fits : SstFile.Small flushed)
    (engineFilter : Option Bytes) {zoneFilter : Option Bytes}
    (filter : zoneFilter = none ∨ zoneFilter = temporalFilterOf flushed) :
    Stores inv (eng.installFile opts flushed engineFilter zoneFilter)
      { layers with
        files := layers.files ++
          [⟨eng.nextFileNumber, flushed, chunk, engineFilter, zoneFilter⟩] } := by
  have indexable : SstFile.Indexable ⟨.default, opts.rowSort.sort flushed⟩ :=
    SstFile.indexable_forLevel 0 (fits.of_subperm (opts.rowSort.perm flushed).subperm)
  refine ⟨stores.mem, stores.imm, stores.accumulated, stores.direct, ?_,
    inv.install stores.files perm indexable filter⟩
  rw [map_append, ← stores.level0]
  rfl

theorem Stores.collect
    {rows : List Row}
    (perm : rows.Perm layers.imm) (accumulating : opts.enableAccumulatedFlush = true) :
    Stores inv { eng.accumulate rows with imm := none } layers.collect := by
  refine ⟨stores.mem, rfl, stores.accumulated.append perm, ?_, stores.level0, stores.files⟩
  intro direct
  rw [accumulating] at direct
  cases direct

theorem Stores.flushAccumulated
    (fits : SstFile.Small layers.memory) :
    Stores inv
      (LsmEngine.installFile opts { eng with accumulatedEntries := [], accumulatedBytes := 0 }
        eng.accumulatedEntries none (temporalFilterOf eng.accumulatedEntries))
      (layers.writeFile eng.nextFileNumber eng.accumulatedEntries none
        (temporalFilterOf eng.accumulatedEntries)) := by
  have emptied : Stores inv { eng with accumulatedEntries := [], accumulatedBytes := 0 }
      { layers with accumulated := [] } :=
    ⟨stores.mem, stores.imm, List.Perm.nil, fun _ => rfl, stores.level0, stores.files⟩
  have small : SstFile.Small eng.accumulatedEntries :=
    fits.of_subperm (stores.accumulated.subperm.trans (sublist_append_left _ _).subperm)
  exact emptied.installFile stores.accumulated small none (Or.inr rfl)

theorem Stores.flushEntries
    {rows : List Row} (perm : rows.Perm layers.imm) (noBuffer : layers.accumulated = [])
    (fits : SstFile.Small rows) (engineFilter : Option Bytes) {zoneFilter : Option Bytes}
    (filter : zoneFilter = none ∨ zoneFilter = temporalFilterOf rows) :
    Stores inv { eng.installFile opts rows engineFilter zoneFilter with imm := none }
      (layers.collect.writeFile eng.nextFileNumber rows engineFilter zoneFilter) := by
  have dropped : Stores inv { eng with imm := none } { layers with imm := [] } :=
    ⟨stores.mem, rfl, stores.accumulated, stores.direct, stores.level0, stores.files⟩
  have collected : rows.Perm (layers.accumulated ++ layers.imm) := by
    rw [noBuffer]
    exact perm
  have installed := dropped.installFile collected fits engineFilter filter
  have sameLayers : layers.collect.writeFile eng.nextFileNumber rows engineFilter zoneFilter =
      { layers with
        imm := []
        files := layers.files ++ [⟨eng.nextFileNumber, rows,
          layers.accumulated ++ layers.imm, engineFilter, zoneFilter⟩] } := by
    rw [Layers.writeFile, Layers.collect, noBuffer]
  rw [sameLayers]
  exact installed

section

variable (seq : Sequential layers)
include seq

/-- One attempt to flush the waiting memtable: either its rows are in a lower layer
afterwards, or only a file number was used up. -/
theorem flushMemTable_cases {imm : VSLMemTable} (waiting : eng.imm = some imm)
    (fits : SstFile.Small layers.memory) {written : Bool}
    (safe : opts.enableAccumulatedFlush = true → written = true) :
    (∃ flushed later, eng.flushMemTable opts imm written = (flushed, true) ∧
      Stores inv { flushed with imm := none } later ∧ Settled layers later) ∨
    eng.flushMemTable opts imm written =
      ({ eng with nextFileNumber := eng.nextFileNumber + 1 }, false) := by
  have immHolds : Holds imm.nodes layers.imm := by
    have holds := stores.imm
    rw [waiting] at holds
    exact holds
  have perm : imm.traverse.Perm layers.imm := by
    apply traverse_perm immHolds
    intro row member
    exact seq.vertices row (by simp [Layers.history, Layers.memory, member])
  rw [flushMemTable]
  by_cases isEmpty : imm.isEmpty = true
  · rw [if_pos isEmpty]
    have noNodes : imm.nodes = [] := isEmpty_iff.mp isEmpty
    have noRows : layers.imm = [] := by
      have rowsPerm := immHolds.perm
      rw [noNodes] at rowsPerm
      exact rowsPerm.nil_eq.symm
    refine Or.inl ⟨eng, layers, rfl, ?_, settled_self seq⟩
    exact ⟨stores.mem, noRows, stores.accumulated, stores.direct, stores.level0, stores.files⟩
  · rw [if_neg isEmpty]
    by_cases accumulating : opts.enableAccumulatedFlush = true
    · left
      have collected := stores.collect perm accumulating
      have settled := settled_collect seq
      dsimp only
      rw [if_pos accumulating]
      by_cases full : opts.accumulatedFlushBytes ≤ (eng.accumulate imm.traverse).accumulatedBytes
      · rw [if_pos full, flushAccumulated, safe accumulating]
        by_cases noEntries : (eng.accumulate imm.traverse).accumulatedEntries.isEmpty = true
        · rw [if_pos noEntries]
          exact ⟨_, _, rfl, collected, settled⟩
        · rw [if_neg noEntries]
          have small := fits.of_subperm settled.memory
          exact ⟨_, _, rfl, collected.flushAccumulated small,
            settled.trans (settled_writeFile settled.sequential _ _ _ _)⟩
      · rw [if_neg full]
        exact ⟨_, _, rfl, collected, settled⟩
    · have direct : opts.enableAccumulatedFlush = false := by simpa using accumulating
      have someRows : ¬ imm.traverse.isEmpty = true := by
        intro noRows
        apply isEmpty
        simpa [VSLMemTable.traverse, VSLMemTable.isEmpty] using noRows
      dsimp only
      rw [if_neg accumulating, flushEntriesToSST, if_neg someRows]
      cases written with
      | true =>
        have settled := settled_collect seq
        have included : layers.imm.Sublist layers.memory :=
          (sublist_append_left _ _).trans (sublist_append_right _ _)
        have small := fits.of_subperm (perm.subperm.trans included.subperm)
        exact Or.inl ⟨_, _, rfl,
          stores.flushEntries perm (stores.direct direct) small _ (Or.inl rfl),
          settled.trans (settled_writeFile settled.sequential _ _ _ _)⟩
      | false => exact Or.inr rfl

theorem flushMemTableWithRetry_cases {imm : VSLMemTable} (waiting : eng.imm = some imm)
    (fits : SstFile.Small layers.memory)
    (safe : Written opts written) :
    (∃ flushed later, eng.flushMemTableWithRetry opts imm written = (flushed, true) ∧
      Stores inv { flushed with imm := none } later ∧ Settled layers later) ∨
    ∃ failed, eng.flushMemTableWithRetry opts imm written = (failed, false) ∧
      Stores inv failed layers := by
  have safeAt : ∀ attempt, opts.enableAccumulatedFlush = true → written attempt = true := by
    intro attempt accumulating
    exact safe accumulating attempt
  rw [flushMemTableWithRetry]
  dsimp only
  rcases flushMemTable_cases stores seq waiting fits (safeAt 1) with
    ⟨flushed, later, first, flushedStores, settled⟩ | first
  · rw [first]
    exact Or.inl ⟨flushed, later, rfl, flushedStores, settled⟩
  · rw [first]
    have secondStores := stores.bump _ (Nat.le_succ _) eng.flushActive
    rcases flushMemTable_cases secondStores seq waiting fits (safeAt 2) with
      ⟨flushed, later, second, flushedStores, settled⟩ | second
    · rw [second]
      exact Or.inl ⟨flushed, later, rfl, flushedStores, settled⟩
    · rw [second]
      have thirdStores := secondStores.bump _ (Nat.le_succ _) eng.flushActive
      rcases flushMemTable_cases thirdStores seq waiting fits (safeAt 3) with
        ⟨flushed, later, third, flushedStores, settled⟩ | third
      · rw [third]
        exact Or.inl ⟨flushed, later, rfl, flushedStores, settled⟩
      · rw [third]
        exact Or.inr ⟨_, rfl, thirdStores.bump _ (Nat.le_succ _) eng.flushActive⟩

section

variable (fits : SstFile.Small layers.memory)
include fits

theorem flushImm_settled (safe : Written opts written) :
    ∃ later, Stores inv (eng.flushImm opts written).1 later ∧ Settled layers later ∧
      ((eng.flushImm opts written).2 = true → (eng.flushImm opts written).1.imm = none) := by
  rw [flushImm]
  cases waiting : eng.imm with
  | none => exact ⟨layers, stores, settled_self seq, fun _ => waiting⟩
  | some imm =>
    dsimp only
    rcases flushMemTableWithRetry_cases stores seq waiting fits safe with
      ⟨flushed, later, res, flushedStores, settled⟩ | ⟨failed, res, failedStores⟩
    · rw [res]
      exact ⟨later, flushedStores, settled, fun _ => rfl⟩
    · rw [res]
      refine ⟨layers, failedStores, settled_self seq, ?_⟩
      intro succeeded
      cases succeeded

theorem finishBackgroundFlush_settled (safe : Written opts written) :
    ∃ later, Stores inv (eng.finishBackgroundFlush opts written) later ∧ Settled layers later := by
  rw [finishBackgroundFlush]
  split
  · obtain ⟨later, laterStores, settled, -⟩ := flushImm_settled stores seq fits safe
    exact ⟨later, laterStores.bump _ le_rfl false, settled⟩
  · exact ⟨layers, stores, settled_self seq⟩

theorem forceFlush_settled {background leftover cur : Nat → Bool}
    (backgroundSafe : Written opts background) (leftoverSafe : Written opts leftover)
    (currentSafe : Written opts cur) :
    ∃ later, Stores inv (eng.forceFlush opts background leftover cur) later ∧
      Settled layers later := by
  obtain ⟨waited, waitedStores, waitedSettled⟩ :=
    finishBackgroundFlush_settled stores seq fits backgroundSafe
  obtain ⟨retried, retriedStores, retriedSettled, flushed⟩ :=
    flushImm_settled waitedStores waitedSettled.sequential
      (fits.of_subperm waitedSettled.memory) leftoverSafe
  have settled := waitedSettled.trans retriedSettled
  rw [forceFlush]
  split
  · rename_i succeeded
    split
    · exact ⟨retried, retriedStores, settled⟩
    · have noImm := retriedStores.noImm (flushed succeeded)
      have rotated := settled.trans (settled_rotate settled.sequential noImm)
      obtain ⟨later, laterStores, laterSettled, -⟩ :=
        flushImm_settled retriedStores.rotate rotated.sequential
          (fits.of_subperm rotated.memory) currentSafe
      exact ⟨later, laterStores, rotated.trans laterSettled⟩
  · exact ⟨retried, retriedStores, settled⟩

end

theorem Stores.arrive (inOrder : eng.ArrivesInMemory row)
    (filesNotNewer : ∀ ver ∈ layers.fileRows, NotNewer ver row) :
    Stores inv { eng with mem := eng.mem.put row } (layers.append row) ∧
      Sequential (layers.append row) := by
  have memFollows : ∀ ver ∈ layers.mem, VSLMemTable.Follows row ver := by
    intro ver member
    exact inOrder.mem ver (stores.mem.perm.mem_iff.mpr member)
  have memoryOlder : ∀ ver ∈ layers.memory, Older ver row := by
    intro ver member
    exact inOrder.memory ver (stores.memoryRows_perm.mem_iff.mpr member)
  exact ⟨stores.put memFollows, seq.append inOrder.vertex memFollows memoryOlder filesNotNewer⟩

omit seq in
theorem Stores.older_append (inOrder : eng.ArrivesInMemory row)
    (filesOlder : ∀ ver ∈ layers.fileRows, Older ver row)
    (strict : layers.history.Pairwise Older) : (layers.append row).history.Pairwise Older := by
  rw [Layers.history_append]
  refine pairwise_append.mpr ⟨strict, pairwise_singleton _ _, ?_⟩
  intro ver member other isRow
  rw [mem_singleton.mp isRow]
  rcases mem_append.mp member with inFile | inMemory
  · exact filesOlder ver inFile
  · exact inOrder.memory ver (stores.memoryRows_perm.mem_iff.mpr inMemory)

theorem put_settled (inOrder : eng.ArrivesInMemory row)
    (filesNotNewer : ∀ ver ∈ layers.fileRows, NotNewer ver row) (lockFree : Bool) :
    ∃ later, Stores inv (eng.put opts row lockFree) later ∧ Settled (layers.append row) later := by
  obtain ⟨putStores, putSequential⟩ := stores.arrive seq inOrder filesNotNewer
  rw [put]
  dsimp only
  split
  · rw [maybeScheduleFlush]
    split
    · rename_i rotates
      have noImm : eng.imm = none := by
        simp only [Bool.and_eq_true] at rotates
        simpa using rotates.1.2
      refine ⟨_, putStores.rotate.bump _ le_rfl true, ?_⟩
      exact settled_rotate putSequential (putStores.noImm noImm)
    · exact ⟨_, putStores, settled_self putSequential⟩
  · exact ⟨_, putStores, settled_self putSequential⟩

end

end

end Steps

/-- The engine's layers hold the history recorded so far. -/
def Recorded.Represents (recorded : Recorded) : Prop :=
  ∃ layers, Stores (.unmerged opts) recorded.engine layers ∧ Sequential layers ∧
    layers.history = recorded.history

theorem sequential_nil : Sequential ⟨[], [], [], []⟩ := by
  have nothing : ∀ row ∈ ([] : List Row), row.key.entityType = EntityType.vertex.toByte := by
    intro row member
    cases member
  have noFiles : ∀ layer ∈ ([] : List FileLayer), layer.rows.Pairwise Older := by
    intro layer member
    cases member
  exact ⟨List.Pairwise.nil, List.Pairwise.nil, List.Pairwise.nil, noFiles,
    List.Pairwise.nil, nothing⟩

theorem Recorded.represents_init : (Recorded.init opts).Represents opts :=
  ⟨⟨[], [], [], []⟩, stores_init (unmerged_init opts), sequential_nil, rfl⟩

theorem Recorded.represents_step {opts : LsmOptions} (recorded : Recorded) (op : Operation)
    (repr : recorded.Represents opts) (allowed : Allowed opts recorded.engine op) :
    (recorded.step opts op).Represents opts := by
  obtain ⟨layers, stores, seq, sameHistory⟩ := repr
  have included := stores.memoryRows_perm.symm.subperm
  cases op with
  | put row lockFree =>
    obtain ⟨later, laterStores, settled⟩ := put_settled stores seq
      allowed.toArrivesInMemory (fun ver inFile => allowed.files ver (stores.mem_listedRows inFile))
      lockFree
    refine ⟨later, laterStores, settled.sequential, ?_⟩
    rw [settled.history, Layers.history_append, sameHistory]
    rfl
  | forceFlush background leftover cur =>
    obtain ⟨fits, backgroundSafe, leftoverSafe, currentSafe⟩ := allowed
    obtain ⟨later, laterStores, settled⟩ := forceFlush_settled stores seq
      (fits.of_subperm included) backgroundSafe leftoverSafe currentSafe
    exact ⟨later, laterStores, settled.sequential, settled.history.trans sameHistory⟩
  | backgroundFlush written =>
    obtain ⟨later, laterStores, settled⟩ := finishBackgroundFlush_settled stores seq
      (allowed.1.of_subperm included) allowed.2
    exact ⟨later, laterStores, settled.sequential, settled.history.trans sameHistory⟩

end LsmEngine

end CedarGraph
