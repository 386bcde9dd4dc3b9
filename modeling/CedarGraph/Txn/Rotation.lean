import CedarGraph.Txn.Concurrent
import CedarGraph.Engine.Compacted

/-!
# Committed writes and memtable rotation

A transaction writes to the memtable that was active when it began. If that table was rotated,
the rows land where a read does not find them. If it is still the active one, they are part of
the engine's history and stay so through every rotation and flush.
-/

namespace CedarGraph

open Newest VSLMemTable List Function EntityType

namespace LsmEngine

section History

variable {opts : CompactionOptions} {eng : LsmEngine} {layers : Layers}

variable {row : Row}

theorem Stores.arriveNewest (stores : Stores (.merged opts) eng layers)
    (seq : Sequential layers) (newest : eng.ArrivesNewest row) :
    Stores (.merged opts) { eng with mem := eng.mem.put row } (layers.append row) ∧
      Sequential (layers.append row) ∧
      (layers.history.Pairwise Older → (layers.append row).history.Pairwise Older) := by
  have filesOlder := stores.filesOlder newest
  obtain ⟨newStores, newSequential⟩ := stores.arrive seq newest.toArrivesInMemory
    fun ver inFile => (filesOlder ver inFile).notNewer
  exact ⟨newStores, newSequential, stores.older_append newest.toArrivesInMemory filesOlder⟩

theorem newestPut_of_mem
    {history : List Row} (strict : history.Pairwise Older) (member : row ∈ history) :
    newestPut history row.key.entityId row.key.columnId row.key.timestamp =
      some row.descriptor := by
  have inGroup : row ∈ history.filter (inColumn row.key.entityId row.key.columnId) :=
    mem_filter.mpr ⟨member, inColumn_iff.mpr ⟨rfl, rfl⟩⟩
  have distinct := eq_of_time_eq (increasing_of_older strict row.key.entityId row.key.columnId)
  cases found : newestAt time row.key.timestamp.toNat
      (history.filter (inColumn row.key.entityId row.key.columnId)) with
  | none =>
    have after := newestAt_eq_none_iff.mp found row inGroup
    exact absurd after (Nat.lt_irrefl _)
  | some best =>
    have newest := isNewest_of_newestAt found
    have notBefore := newest.largest row inGroup le_rfl
    have same : best = row :=
      distinct best newest.mem row inGroup (le_antisymm newest.within notBefore)
    rw [newestPut, found, same]
    rfl

theorem ArrivesNewest.dropImm (newest : eng.ArrivesNewest row) :
    ArrivesNewest { eng with imm := none } row := by
  refine ⟨⟨newest.vertex, newest.mem, fun ver member => newest.memory ver ?_⟩, newest.listed⟩
  rcases mem_append.mp member with inBuffer | inMem
  · exact mem_append_left _ inBuffer
  · exact mem_append_right _ (mem_append_right _ inMem)

end History

end LsmEngine

/-- The rows of the table are in no layer below it.  Rows that are written to a file are those
of the table, and the buffer they came from is empty. -/
def FlushStage.Waits (buffer rows : List Row) : FlushStage → Prop
  | .collect _ => True
  | .takeBuffer _ => False
  | .writeFile _ taken => taken = rows ∧ buffer = []
  | .done succeeded => succeeded = false

/-- The rows of the table are also in a layer below it. -/
def FlushStage.Copied : FlushStage → Prop
  | .takeBuffer _ => True
  | .done succeeded => succeeded = true
  | _ => False

namespace ConcurrentEngine

open LsmEngine

/-! ## The layers behind a system with flush threads -/

/-- What the flush threads have done: nothing is being flushed, one thread flushes the
immutable memtable, or it has copied its rows below and the table is not dropped yet. -/
inductive Phase (opts : CompactionOptions) (sys : ConcurrentEngine) (layers : Layers) : Prop
  | quiet
      (noFlush : sys.flushes = [])
      (stores : Stores (.merged opts) sys.engine layers)
  | flushing (task : FlushTask)
      (single : sys.flushes = [task])
      (imm : sys.immObject = some task.object)
      (waits : task.stage.Waits sys.storage.accumulatedEntries (sys.tables task.object).traverse)
      (stores : Stores (.merged opts) sys.engine layers)
  | copied (task : FlushTask) (older copied : List Row)
      (single : sys.flushes = [task])
      (imm : sys.immObject = some task.object)
      (copies : task.stage.Copied)
      (holds : Holds (sys.tables task.object).nodes copied)
      (follows : copied.Pairwise fun prev later => VSLMemTable.Follows later prev)
      (newest : layers.fileRows ++ layers.accumulated = older ++ copied)
      (stores : Stores (.merged opts) { sys.engine with imm := none } layers)

structure Represents (opts : CompactionOptions) (sys : ConcurrentEngine) (layers : Layers) :
    Prop where
  phase : Phase opts sys layers
  sequential : Sequential layers
  strict : layers.history.Pairwise Older
  memFresh : sys.memObject < sys.nextObject
  immFresh : ∀ object ∈ sys.immObject, object < sys.nextObject ∧ object ≠ sys.memObject

section Invariant

variable {opts : CompactionOptions} {sys : ConcurrentEngine} {layers : Layers}

section

variable (repr : sys.Represents opts layers)
include repr

theorem Represents.of_sameTables {after : ConcurrentEngine}
    (same : sys.SameTables after) : after.Represents opts layers := by
  have sameEngine := same.engine
  refine ⟨?_, repr.sequential, repr.strict, ?_, ?_⟩
  · cases repr.phase with
    | quiet noFlush stores =>
      exact .quiet (same.flushes.trans noFlush) (by rw [sameEngine]; exact stores)
    | flushing task single imm waits stores =>
      exact .flushing task (same.flushes.trans single) (same.immObject.trans imm)
        (by rw [same.storage, same.tables]; exact waits) (by rw [sameEngine]; exact stores)
    | copied task older copied single imm copies holds follows newest stores =>
      exact .copied task older copied (same.flushes.trans single) (same.immObject.trans imm)
        copies (by rw [same.tables]; exact holds) follows newest
        (by rw [sameEngine]; exact stores)
  · rw [same.memObject, same.nextObject]
    exact repr.memFresh
  · rw [same.memObject, same.nextObject, same.immObject]
    exact repr.immFresh

theorem Represents.write {row : Row} (arrives : sys.engine.ArrivesNewest row) :
    (sys.write row).Represents opts (layers.append row) := by
  have sameEngine := engine_write (fun object isImm => (repr.immFresh object isImm).2) row
  have sameTable : ∀ object ∈ sys.immObject, (sys.write row).tables object = sys.tables object :=
    fun object isImm => update_of_ne (repr.immFresh object isImm).2 _ _
  cases repr.phase with
  | quiet noFlush stores =>
    obtain ⟨newStores, newSequential, newStrict⟩ := stores.arriveNewest repr.sequential arrives
    refine ⟨.quiet noFlush ?_, newSequential, newStrict repr.strict, repr.memFresh, repr.immFresh⟩
    rw [sameEngine]
    exact newStores
  | flushing task single imm waits stores =>
    obtain ⟨newStores, newSequential, newStrict⟩ := stores.arriveNewest repr.sequential arrives
    refine ⟨.flushing task single imm ?_ ?_, newSequential,
      newStrict repr.strict, repr.memFresh, repr.immFresh⟩
    · rw [sameTable task.object imm]
      exact waits
    · rw [sameEngine]
      exact newStores
  | copied task older copied single imm copies holds follows newest stores =>
    obtain ⟨newStores, newSequential, newStrict⟩ :=
      stores.arriveNewest repr.sequential arrives.dropImm
    refine ⟨.copied task older copied single imm copies ?_ follows newest ?_, newSequential,
      newStrict repr.strict, repr.memFresh, repr.immFresh⟩
    · rw [sameTable task.object imm]
      exact holds
    · rw [sameEngine]
      exact newStores

theorem Represents.foldl_write {rows : List Row} (arrive : sys.engine.EachPut ArrivesNewest rows) :
    ∃ later, (rows.foldl ConcurrentEngine.write sys).Represents opts later ∧
      later.history = layers.history ++ rows := by
  induction rows generalizing sys layers with
  | nil => exact ⟨layers, repr, (append_nil _).symm⟩
  | cons row rest ih =>
    have written := repr.write arrive.1
    have sameEngine :=
      engine_write (fun object isImm => (repr.immFresh object isImm).2) row
    have restArrive : (sys.write row).engine.EachPut ArrivesNewest rest := by
      rw [sameEngine]
      exact arrive.2
    obtain ⟨later, laterRepresents, sameHistory⟩ := ih written restArrive
    refine ⟨later, laterRepresents, ?_⟩
    rw [sameHistory, Layers.history_append, append_assoc]
    rfl

end

section

variable (repr : sys.Represents opts layers)
include repr

theorem Represents.stores_of_quiet (noFlush : sys.flushes = []) :
    Stores (.merged opts) sys.engine layers := by
  cases repr.phase with
  | quiet _ stores => exact stores
  | flushing task single =>
    rw [noFlush] at single
    cases single
  | copied task older copied single =>
    rw [noFlush] at single
    cases single

theorem Represents.quiet_of_noImm (noImm : sys.immObject = none) : sys.flushes = [] := by
  cases repr.phase with
  | quiet noFlush => exact noFlush
  | flushing task _ imm =>
    rw [noImm] at imm
    cases imm
  | copied task older copied _ imm =>
    rw [noImm] at imm
    cases imm

theorem Represents.rotate (noImm : sys.immObject = none) :
    ∃ later, sys.rotate.Represents opts later ∧ later.history = layers.history := by
  have noFlush := repr.quiet_of_noImm noImm
  have stores := repr.stores_of_quiet noFlush
  have noLayer : layers.imm = [] := stores.noImm (by rw [engine, noImm]; rfl)
  have sameEngine : sys.rotate.engine = sys.engine.rotate := by
    have kept : update sys.tables sys.nextObject empty
        sys.memObject = sys.tables sys.memObject :=
      update_of_ne (Nat.ne_of_lt repr.memFresh) _ _
    rw [ConcurrentEngine.rotate, engine]
    dsimp only
    rw [update_self, Option.map_some, kept]
    rfl
  refine ⟨layers.rotate, ⟨?_, repr.sequential.rotate noLayer, ?_, ?_, ?_⟩,
    Layers.history_rotate noLayer⟩
  · refine .flushing ⟨sys.memObject, false, .collect 1⟩ ?_ rfl trivial ?_
    · rw [ConcurrentEngine.rotate, noFlush]
      rfl
    · rw [sameEngine]
      exact stores.rotate
  · rw [Layers.history_rotate noLayer]
    exact repr.strict
  · exact Nat.lt_succ_self _
  · intro object isImm
    have fresh := repr.memFresh
    injection isImm with same
    rw [← same]
    exact ⟨Nat.lt_succ_of_lt fresh, Nat.ne_of_lt fresh⟩

theorem Represents.maybeScheduleFlush (lockFree : Bool) :
    ∃ later, (sys.maybeScheduleFlush lockFree).Represents opts later ∧
      later.history = layers.history := by
  rw [ConcurrentEngine.maybeScheduleFlush]
  split
  · rename_i rotates
    simp only [Bool.and_eq_true] at rotates
    exact repr.rotate (by simpa using rotates.1.2)
  · exact ⟨layers, repr, rfl⟩

theorem Represents.forceFlush (alone : sys.immObject.isSome = true → sys.flushes = []) :
    ∃ later, sys.forceFlush.Represents opts later ∧ later.history = layers.history := by
  rw [ConcurrentEngine.forceFlush]
  split
  · rename_i object isImm
    have noFlush := alone (by rw [isImm]; rfl)
    refine ⟨layers, ⟨?_, repr.sequential, repr.strict, repr.memFresh, repr.immFresh⟩, rfl⟩
    refine .flushing ⟨object, true, .collect 1⟩ ?_ isImm trivial (repr.stores_of_quiet noFlush)
    dsimp only
    rw [noFlush]
    rfl
  · rename_i noImm
    split
    · exact ⟨layers, repr, rfl⟩
    · exact repr.rotate noImm

end

theorem getElem?_of_single
    {task other : FlushTask} {pos : Nat} (found : [task][pos]? = some other) :
    pos = 0 ∧ other = task := by
  grind

/-- The condition on the next section of a flush.  No row of an earlier table is in the buffer
that is taken away: it would be in no layer until the file is listed.  The rows fit a file. -/
def FlushAllowed (sys : ConcurrentEngine) (task : FlushTask) : Prop :=
  match task.stage with
  | .takeBuffer _ => sys.storage.accumulatedEntries = (sys.tables task.object).traverse
  | .writeFile _ rows => SstFile.Small rows
  | _ => True

section

variable (repr : sys.Represents opts layers)
include repr

theorem Represents.moved {storage : LsmEngine} {flushes : List FlushTask} {later : Layers}
    (phase : Phase opts { sys with storage := storage, flushes := flushes } later)
    (seq : Sequential later) (same : later.history = layers.history) :
    ∃ later, Represents opts { sys with storage := storage, flushes := flushes } later ∧
      later.history = layers.history :=
  ⟨later, ⟨phase, seq, by rw [same]; exact repr.strict, repr.memFresh, repr.immFresh⟩, same⟩

variable {task : FlushTask} (single : sys.flushes = [task])
  (imm : sys.immObject = some task.object) (allowed : sys.FlushAllowed task) (written : Bool)
include single imm allowed

theorem Represents.flush_waiting
    (waits : task.stage.Waits sys.storage.accumulatedEntries (sys.tables task.object).traverse)
    (stores : Stores (.merged opts) sys.engine layers) :
    ∃ later, (sys.flushTable opts.lsm 0 written).Represents opts later ∧
      later.history = layers.history := by
  have waiting : sys.engine.imm = some (sys.tables task.object) := by
    rw [engine, imm]
    rfl
  have holds : Holds (sys.tables task.object).nodes layers.imm := by
    have held := stores.imm
    rw [waiting] at held
    exact held
  have perm : (sys.tables task.object).traverse.Perm layers.imm := by
    refine traverse_perm holds ?_
    intro row member
    exact repr.sequential.vertices row (by simp [Layers.history, Layers.memory, member])
  have below : layers.fileRows ++ (layers.accumulated ++ layers.imm) =
      (layers.fileRows ++ layers.accumulated) ++ layers.imm := (append_assoc _ _ _).symm
  rcases task with ⟨object, leftover, stage⟩
  rw [flushTable, single]
  dsimp only [getElem?_cons_zero, set_cons_zero]
  cases stage with
  | collect attempt =>
    rw [flushSection]
    by_cases empty : (sys.tables object).isEmpty = true
    · rw [if_pos empty]
      have noRows : layers.imm = [] := by
        have rowsPerm := holds.perm
        rw [isEmpty_iff.mp empty] at rowsPerm
        exact rowsPerm.nil_eq.symm
      rw [noRows] at holds
      exact repr.moved (.copied ⟨object, leftover, .done true⟩ _ [] rfl imm rfl holds
        List.Pairwise.nil (append_nil _).symm
        ⟨stores.mem, noRows, stores.accumulated, stores.direct, stores.level0, stores.files⟩)
        repr.sequential rfl
    · rw [if_neg empty]
      by_cases accumulating : opts.lsm.enableAccumulatedFlush = true
      · -- the rows are in the buffer and still in the immutable memtable
        rw [if_pos accumulating]
        refine repr.moved (.copied _ _ layers.imm rfl imm ?_ holds repr.sequential.immFollows
          below (stores.collect perm accumulating)) repr.sequential.collect
          (Layers.history_collect layers)
        dsimp only
        split
        · trivial
        · rfl
      · rw [if_neg accumulating]
        refine repr.moved (.flushing ⟨object, leftover, .writeFile attempt _⟩ rfl imm
          ⟨rfl, ?_⟩ stores) repr.sequential rfl
        have buffered := stores.accumulated
        rw [stores.direct (by simpa using accumulating)] at buffered
        exact buffered.eq_nil
  | takeBuffer attempt => exact waits.elim
  | writeFile attempt rows =>
    obtain ⟨sameRows, noBuffer⟩ := waits
    rw [← sameRows] at perm
    rw [flushSection]
    cases written with
    | true =>
      have noLayer : layers.accumulated = [] := by
        have buffered : sys.storage.accumulatedEntries.Perm layers.accumulated :=
          stores.accumulated
        rw [noBuffer] at buffered
        exact buffered.nil_eq.symm
      have listed : ∀ engineFilter {zoneFilter},
          (zoneFilter = none ∨ zoneFilter = temporalFilterOf rows) →
          ∃ later, Represents opts { sys with
            storage := sys.storage.installFile opts.lsm rows engineFilter zoneFilter
            flushes := [⟨object, leftover, .done true⟩] } later ∧
              later.history = layers.history := by
        intro engineFilter zoneFilter filter
        have settled := settled_collect repr.sequential
        have whole := settled.trans (settled_writeFile settled.sequential
          sys.storage.nextFileNumber rows engineFilter zoneFilter)
        refine repr.moved (.copied _ (layers.fileRows ++ layers.accumulated) layers.imm rfl imm
          rfl holds repr.sequential.immFollows ?_
          (stores.flushEntries perm noLayer allowed engineFilter filter)) whole.sequential
          whole.history
        simp [Layers.fileRows, Layers.writeFile, Layers.collect]
      rw [if_pos rfl]
      split
      · exact listed none (Or.inr rfl)
      · exact listed _ (Or.inl rfl)
    | false =>
      rw [if_neg Bool.false_ne_true]
      refine repr.moved (.flushing _ rfl imm ?_ (stores.bump _ (Nat.le_succ _) _))
        repr.sequential rfl
      dsimp only
      split
      · trivial
      · rfl
  | done succeeded =>
    exact repr.moved (.flushing ⟨object, leftover, .done succeeded⟩ rfl imm waits stores)
      repr.sequential rfl

/-- The buffer that is taken away holds copies of rows that the immutable memtable still has. -/
theorem Represents.flush_copied {older copied : List Row} (copies : task.stage.Copied)
    (holds : Holds (sys.tables task.object).nodes copied)
    (follows : copied.Pairwise fun prev later => VSLMemTable.Follows later prev)
    (newest : layers.fileRows ++ layers.accumulated = older ++ copied)
    (stores : Stores (.merged opts) { sys.engine with imm := none } layers) :
    ∃ later, (sys.flushTable opts.lsm 0 written).Represents opts later ∧
      later.history = layers.history := by
  rcases task with ⟨object, leftover, stage⟩
  rw [flushTable, single]
  dsimp only [getElem?_cons_zero, set_cons_zero]
  have again : ∀ stage : FlushStage, stage.Copied → ∃ later, Represents opts
      { sys with storage := sys.storage, flushes := [⟨object, leftover, stage⟩] } later ∧
        later.history = layers.history := fun stage copies =>
    repr.moved (.copied ⟨object, leftover, stage⟩ older copied rfl imm copies holds follows
      newest stores) repr.sequential rfl
  cases stage with
  | collect attempt => exact copies.elim
  | writeFile attempt rows => exact copies.elim
  | done succeeded => exact again _ copies
  | takeBuffer attempt =>
    rw [flushSection]
    split
    · exact again _ rfl
    have noImm := stores.noImm rfl
    have sameRows : layers.accumulated = copied := by
      have buffered : sys.storage.accumulatedEntries.Perm layers.accumulated := stores.accumulated
      have whole : sys.storage.accumulatedEntries = (sys.tables object).traverse := allowed
      rw [whole] at buffered
      have perm := traverse_perm holds fun row member => repr.sequential.vertices row (by
        rw [Layers.history, Layers.memory, ← append_assoc, newest]
        simp [member])
      exact (append_inj' newest (buffered.length_eq.symm.trans perm.length_eq)).2
    let later : Layers := { layers with accumulated := [], imm := layers.accumulated }
    have sameMemory : later.memory = layers.memory := by
      rw [Layers.memory, Layers.memory, noImm]
      rfl
    have sameHistory : later.history = layers.history := by
      rw [Layers.history, sameMemory]
      rfl
    have seq : Sequential later := by
      refine ⟨repr.sequential.memFollows, ?_, ?_, repr.sequential.fileOlder, ?_, ?_⟩
      · rw [← sameRows] at follows
        exact follows
      · rw [sameMemory]
        exact repr.sequential.memoryOlder
      · rw [sameHistory]
        exact repr.sequential.notNewer
      · rw [sameHistory]
        exact repr.sequential.vertices
    have immHolds : Holds (sys.tables object).nodes later.imm := by
      rw [← sameRows] at holds
      exact holds
    have taken : Stores (.merged opts)
        { sys.engine with accumulatedEntries := [], accumulatedBytes := 0 } later := by
      refine ⟨stores.mem, ?_, List.Perm.nil, fun _ => rfl, stores.level0, stores.files⟩
      dsimp only [engine]
      rw [imm]
      exact immHolds
    exact repr.moved (.flushing ⟨object, leftover, .writeFile attempt _⟩ rfl imm
      ⟨allowed, rfl⟩ taken) seq sameHistory

end

section

variable (repr : sys.Represents opts layers)
include repr

theorem Represents.flushTable (pos : Nat) (written : Bool)
    (allowed : ∀ task ∈ sys.flushes[pos]?, sys.FlushAllowed task) :
    ∃ later, (sys.flushTable opts.lsm pos written).Represents opts later ∧
      later.history = layers.history := by
  cases found : sys.flushes[pos]? with
  | none =>
    rw [ConcurrentEngine.flushTable, found]
    exact ⟨layers, repr, rfl⟩
  | some task =>
    have taskAllowed := allowed task found
    cases repr.phase with
    | quiet noFlush =>
      rw [noFlush] at found
      cases found
    | flushing task single imm waits stores =>
      rw [single] at found
      obtain ⟨rfl, rfl⟩ := getElem?_of_single found
      exact repr.flush_waiting single imm taskAllowed written waits stores
    | copied task older copied single imm copies holds follows newest stores =>
      rw [single] at found
      obtain ⟨rfl, rfl⟩ := getElem?_of_single found
      exact repr.flush_copied single imm taskAllowed written copies holds follows newest stores

theorem Represents.completeFlush (pos : Nat) :
    ∃ later, (sys.completeFlush pos).Represents opts later ∧ later.history = layers.history := by
  rw [ConcurrentEngine.completeFlush]
  split
  · rename_i object leftover found
    have dropped : Represents opts
        { sys with immObject := none, flushes := sys.flushes.eraseIdx pos } layers := by
      cases repr.phase with
      | quiet noFlush =>
        rw [noFlush] at found
        cases found
      | flushing task single imm waits =>
        rw [single] at found
        rw [← (getElem?_of_single found).2] at waits
        cases waits
      | copied task older copied single imm copies holds follows newest stores =>
        rw [single] at found
        obtain ⟨rfl, rfl⟩ := getElem?_of_single found
        refine ⟨.quiet ?_ stores, repr.sequential, repr.strict,
          repr.memFresh, (fun _ impossible => nomatch impossible)⟩
        dsimp only
        rw [single]
        rfl
    dsimp only
    split
    · exact dropped.rotate rfl
    · exact ⟨layers, dropped, rfl⟩
  · rename_i object leftover found
    refine ⟨layers, ⟨?_, repr.sequential, repr.strict, repr.memFresh, repr.immFresh⟩, rfl⟩
    cases repr.phase with
    | quiet noFlush =>
      rw [noFlush] at found
      cases found
    | copied task older copied single imm copies =>
      rw [single] at found
      rw [← (getElem?_of_single found).2] at copies
      cases copies
    | flushing task single imm waits stores =>
      rw [single] at found
      obtain ⟨rfl, -⟩ := getElem?_of_single found
      refine .quiet ?_ stores
      dsimp only
      rw [single]
      rfl
  · exact ⟨layers, repr, rfl⟩

theorem Represents.executeCompaction {safePoint : UInt64} {task : CompactionTask}
    {out : CompactionOutcome} (mergeable : Mergeable opts (sys.engine.files safePoint) task out) :
    Represents opts
      { sys with storage := sys.storage.executeCompaction opts safePoint task out } layers := by
  refine ⟨?_, repr.sequential, repr.strict, repr.memFresh, repr.immFresh⟩
  cases repr.phase with
  | quiet noFlush stores => exact .quiet noFlush (stores.executeCompaction repr.strict mergeable)
  | flushing task single imm waits stores =>
    exact .flushing task single imm waits (stores.executeCompaction repr.strict mergeable)
  | copied task older copied single imm copies holds follows newest stores =>
    exact .copied task older copied single imm copies holds follows newest
      (stores.executeCompaction repr.strict mergeable)

/-- A read finds the newest row of the history also while the immutable memtable still
holds rows that were copied below. -/
theorem Represents.getAtTime (id : UInt64) {col : UInt16} (proper : col ≠ uint16Max) (ts : UInt64) :
    sys.engine.getAtTime opts.lsm id .vertex col ts = newestPut layers.history id col ts := by
  cases repr.phase with
  | quiet _ stores =>
    exact stores.getAtTime_merged repr.sequential repr.strict id proper ts
  | flushing _ _ _ _ stores =>
    exact stores.getAtTime_merged repr.sequential repr.strict id proper ts
  | copied task older copied single imm copies holds follows newest stores =>
    have settled := stores.getAtTime_merged repr.sequential repr.strict id proper ts
    have split : layers.history = older ++ (copied ++ layers.mem) := by
      rw [Layers.history, Layers.memory, stores.noImm rfl, nil_append,
        ← append_assoc, newest, append_assoc]
    have vertices := repr.sequential.vertices
    have notNewer := repr.sequential.notNewer
    rw [split] at vertices notNewer
    have tailNotNewer := (pairwise_append.mp notNewer).2.1
    have memRead : sys.engine.mem.getAtTime id .vertex col ts =
        (newestAt time ts.toNat (layers.mem.filter (inColumn id col))).map Row.descriptor := by
      refine getAtTime_of_holds stores.mem repr.sequential.memFollows ?_ id col ts
      intro row member
      exact vertices row (by simp [member])
    have immRead : (sys.engine.imm.bind fun imm =>
        imm.getAtTime id .vertex col ts) =
        (newestAt time ts.toNat (copied.filter (inColumn id col))).map Row.descriptor := by
      rw [engine, imm]
      refine getAtTime_of_holds holds follows ?_ id col ts
      intro row member
      exact vertices row (by simp [member])
    have layered : newestAt time ts.toNat (layers.history.filter (inColumn id col)) =
        ((newestAt time ts.toNat (layers.mem.filter (inColumn id col))).or
          (newestAt time ts.toNat (copied.filter (inColumn id col)))).or
          (newestAt time ts.toNat (older.filter (inColumn id col))) := by
      rw [split, filter_append,
        newestAt_append (time_le_of_notNewer notNewer id col), filter_append,
        newestAt_append (time_le_of_notNewer tailNotNewer id col)]
    rw [LsmEngine.getAtTime, memRead, immRead]
    cases memNewest : newestAt time ts.toNat
        (layers.mem.filter (inColumn id col)) with
    | some row =>
      rw [newestPut, layered, memNewest]
      rfl
    | none =>
      cases copiedNewest : newestAt time ts.toNat
          (copied.filter (inColumn id col)) with
      | some row =>
        rw [newestPut, layered, memNewest, copiedNewest]
        rfl
      | none =>
        rw [LsmEngine.getAtTime] at settled
        dsimp only at settled
        rw [memRead, memNewest] at settled
        exact settled

end

end Invariant

def backgroundStep (opts : CompactionOptions) (walOpts : WalOptions) (sys : ConcurrentEngine) :
    BackgroundOperation Operation → ConcurrentEngine
  | .engine op => sys.step opts.lsm walOpts op
  | .executeCompaction safePoint task out =>
    { sys with storage := sys.storage.executeCompaction opts safePoint task out }

/-- The condition on a step.  At the memtable write of a commit the transaction holds
the active memtable; rows are newer than the versions of their column; a table is
flushed by one thread at a time. -/
def RotationAllowed (opts : CompactionOptions) (sys : ConcurrentEngine) :
    BackgroundOperation Operation → Prop
  | .engine (.writeToMemTable name) =>
    ∀ client ∈ sys.clients name, client.reached .logged = true → client.memtable = sys.memObject ∧
      sys.engine.EachPut ArrivesNewest (client.transaction.writeSet.map WriteSetEntry.row) ∧
      ∀ entry ∈ client.transaction.writeSet, entry.columnId ≠ uint16Max
  | .engine (.write row) => sys.engine.ArrivesNewest row
  | .engine .forceFlush => sys.immObject.isSome = true → sys.flushes = []
  | .engine (.flushTable pos _) => ∀ task ∈ sys.flushes[pos]?, sys.FlushAllowed task
  | .executeCompaction safePoint task out => Mergeable opts (sys.engine.files safePoint) task out
  | _ => True

/-- The rows of committed transactions are in the history. -/
def CommittedIn (sys : ConcurrentEngine) (history : List Row) : Prop :=
  ∀ name client, sys.clients name = some client →
    client.transaction.state = .committed → ∀ entry ∈ client.transaction.writeSet,
      entry.row ∈ history ∧ entry.columnId ≠ uint16Max

section Runs

variable {opts : CompactionOptions} {walOpts : WalOptions} {sys : ConcurrentEngine}

theorem CommittedIn.of_clientStep {history : List Row} (committed : sys.CommittedIn history)
    {after : ConcurrentEngine} {name : Nat} {begins : Prop}
    (only : sys.ClientStep after name begins) : after.CommittedIn history := by
  intro other client isClient isCommitted entry member
  by_cases same : other = name
  · subst same
    rcases only.committed client isClient isCommitted with old | nothing
    · exact committed other client old isCommitted entry member
    · rw [nothing] at member
      cases member
  · rw [only.progress.others same] at isClient
    exact committed other client isClient isCommitted entry member

theorem CommittedIn.of_same {history later : List Row} (committed : sys.CommittedIn history)
    {after : ConcurrentEngine} (sameClients : after.clients = sys.clients)
    (more : ∀ row ∈ history, row ∈ later) : after.CommittedIn later := by
  intro name client isClient isCommitted entry member
  rw [sameClients] at isClient
  obtain ⟨inHistory, proper⟩ := committed name client isClient isCommitted entry member
  exact ⟨more _ inHistory, proper⟩

theorem represents_writeToMemTable {layers : Layers} (repr : sys.Represents opts layers)
    (committed : sys.CommittedIn layers.history) {name : Nat}
    (allowed : sys.RotationAllowed opts (.engine (.writeToMemTable name))) :
    ∃ later, (sys.writeToMemTable name).Represents opts later ∧
      (sys.writeToMemTable name).CommittedIn later.history := by
  rw [writeToMemTable]
  split
  · exact ⟨layers, repr, committed⟩
  rename_i client isClient
  split
  · rename_i logged
    obtain ⟨holdsMem, arrive, proper⟩ := allowed client isClient logged
    obtain ⟨later, laterRepresents, sameHistory⟩ := repr.foldl_write arrive
    rw [foldl_write] at laterRepresents
    refine ⟨later, ?_, ?_⟩
    · rw [holdsMem]
      exact laterRepresents.of_sameTables ⟨rfl, rfl, rfl, rfl, rfl, rfl⟩
    · intro other after isAfter isCommitted entry member
      rw [sameHistory]
      by_cases same : other = name
      · subst same
        rw [finish, clients_setClient] at isAfter
        injection isAfter with sameClient
        rw [← sameClient] at member
        exact ⟨mem_append_right _ (mem_map_of_mem member), proper entry member⟩
      · dsimp only [finish, setClient] at isAfter
        rw [update_of_ne same] at isAfter
        obtain ⟨inHistory, properColumn⟩ :=
          committed other after isAfter isCommitted entry member
        exact ⟨mem_append_left _ inHistory, properColumn⟩
  · exact ⟨layers, repr, committed⟩

theorem represents_step (sys : ConcurrentEngine) (op : BackgroundOperation Operation)
    (repr : ∃ layers, sys.Represents opts layers ∧ sys.CommittedIn layers.history)
    (allowed : sys.RotationAllowed opts op) :
    ∃ layers, (sys.backgroundStep opts walOpts op).Represents opts layers ∧
      (sys.backgroundStep opts walOpts op).CommittedIn layers.history := by
  obtain ⟨layers, repr, committed⟩ := repr
  have ofHistory : ∀ {after : ConcurrentEngine}, after.clients = sys.clients →
      (∃ later, after.Represents opts later ∧ later.history = layers.history) →
      ∃ layers, after.Represents opts layers ∧ after.CommittedIn layers.history := by
    intro after sameClients moved
    obtain ⟨later, laterRepresents, sameHistory⟩ := moved
    refine ⟨later, laterRepresents, ?_⟩
    rw [sameHistory]
    exact committed.of_same sameClients (fun _ member => member)
  cases op with
  | executeCompaction safePoint task out =>
    exact ofHistory rfl ⟨layers, repr.executeCompaction allowed, rfl⟩
  | engine op =>
  -- the steps of one client leave all tables alone; the others are taken one by one
  cases named : op.client with
  | some name =>
    have only := clientStep_step sys opts.lsm walOpts named
    exact ⟨layers, repr.of_sameTables only.toSameTables, committed.of_clientStep only⟩
  | none =>
  cases op with
  | writeToMemTable name => exact represents_writeToMemTable repr committed allowed
  | write row =>
    refine ⟨layers.append row, repr.write allowed, ?_⟩
    rw [Layers.history_append]
    exact committed.of_same rfl (fun _ member => mem_append_left _ member)
  | maybeScheduleFlush lockFree =>
    refine ofHistory ?_ (repr.maybeScheduleFlush lockFree)
    rw [backgroundStep, step, maybeScheduleFlush]
    split
    · rfl
    · rfl
  | forceFlush =>
    refine ofHistory ?_ (repr.forceFlush allowed)
    rw [backgroundStep, step, forceFlush]
    split
    · rfl
    · split
      · rfl
      · rfl
  | flushTable pos written =>
    refine ofHistory ?_ (repr.flushTable pos written allowed)
    rw [backgroundStep, step, flushTable]
    split
    · rfl
    · rfl
  | completeFlush pos =>
    refine ofHistory ?_ (repr.completeFlush pos)
    rw [backgroundStep, step, completeFlush]
    split
    · dsimp only
      split
      · rfl
      · rfl
    · rfl
    · rfl
  | _ => cases named

end Runs

end ConcurrentEngine

end CedarGraph
