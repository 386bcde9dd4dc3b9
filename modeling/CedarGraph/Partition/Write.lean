import CedarGraph.Engine.TimeTravel
import CedarGraph.Partition.Participant

/-!
# What a commit leaves to read

The storage writes a vertex row in the column that the descriptor names, while a read asks for
the type and column of the key. So a key comes back exactly if it is a vertex key, its
descriptor names its column, and no later key overwrites the row. The rows of the commits arrive
in the order that time-travel reads need.
-/

namespace CedarGraph

open Newest VSLMemTable LsmEngine List Runs EntityType AppliedWrite

inductive StorageOperation where
  | put (write : StorageWrite) (lockFree : Bool)
  | forceFlush (background leftover cur : Nat → Bool)
  | backgroundFlush (written : Nat → Bool)

open StorageOperation

namespace StorageOperation

def onEngine (partitionCount : UInt32) : StorageOperation → LsmEngine.Operation
  | .put write lockFree => .put (write.row partitionCount) lockFree
  | .forceFlush background leftover cur => .forceFlush background leftover cur
  | .backgroundFlush written => .backgroundFlush written

def write? : StorageOperation → Option StorageWrite
  | .put write _ => some write
  | _ => none

end StorageOperation

namespace CedarGraphStorage

section Runs

variable (opts : LsmOptions) (partitionCount : UInt32)

def recorded (ops : List StorageOperation) : LsmEngine.Recorded :=
  run (Recorded.step opts) (Recorded.init opts) (ops.map (onEngine partitionCount))

/-- The storage after a run of operations on an empty one. -/
def ofRun (ops : List StorageOperation) : CedarGraphStorage :=
  ⟨(recorded opts partitionCount ops).engine, partitionCount⟩

/-- Every operation meets the condition under which time-travel reads see it. -/
def InOrder (ops : List StorageOperation) : Prop :=
  Admissible (Recorded.step opts) (fun recorded op => Allowed opts recorded.engine op)
    (Recorded.init opts) (ops.map (onEngine partitionCount))

end Runs

variable {opts : LsmOptions} {partitionCount : UInt32}

theorem recorded_append (first second : List StorageOperation) :
    recorded opts partitionCount (first ++ second) =
      run (Recorded.step opts) (recorded opts partitionCount first)
        (second.map (onEngine partitionCount)) := by
  simp [recorded, run]

theorem history_recorded (ops : List StorageOperation) :
    (recorded opts partitionCount ops).history =
      (ops.filterMap write?).map (StorageWrite.row · partitionCount) := by
  induction ops using reverseRecOn with
  | nil => simp [recorded, run, Recorded.init]
  | append_singleton front last ih =>
    rw [recorded_append, filterMap_append, map_append, ← ih]
    cases last <;> simp [run, Recorded.step, onEngine, write?]

variable {ops : List StorageOperation}

section

variable (inOrder : InOrder opts partitionCount ops)
include inOrder

theorem represents_recorded : (recorded opts partitionCount ops).Represents opts :=
  invariant_run Recorded.represents_step (Recorded.represents_init opts) inOrder

theorem getAtTime_ofRun (id : UInt64) {col : UInt16} (proper : col ≠ uint16Max) (ts : UInt64) :
    (ofRun opts partitionCount ops).engine.getAtTime opts id .vertex col ts =
      newestPut (recorded opts partitionCount ops).history id col ts := by
  obtain ⟨layers, stores, seq, sameHistory⟩ := represents_recorded inOrder
  rw [← sameHistory]
  exact getAtTime_of_fileRead stores seq (congrArg _ (newestAt_sstEntries stores seq proper ts))

theorem getAtTime_ofRun_edge (id : UInt64) {kind : EntityType}
    (edge : kind.toByte ≠ vertex.toByte) (col : UInt16) (ts : UInt64) :
    (ofRun opts partitionCount ops).engine.getAtTime opts id kind col ts = none := by
  obtain ⟨layers, stores, seq, _⟩ := represents_recorded inOrder
  exact getAtTime_edge stores seq id edge col ts

end

end CedarGraphStorage

namespace PartitionEffect

def operation? : PartitionEffect → Option StorageOperation
  | .put applied lockFree => some (.put applied.write lockFree)
  | .backgroundFlush written => some (.backgroundFlush written)
  | _ => none

end PartitionEffect

namespace PartitionStorage

open PartitionEffect CedarGraphStorage

variable {opts : PartitionOptions} {part : PartitionStorage} {partitionCount : UInt32}

theorem storage_apply {ops : List StorageOperation}
    (reached : part.storage = ofRun opts.lsm partitionCount ops) (effect : PartitionEffect) :
    (part.apply opts effect).storage =
      ofRun opts.lsm partitionCount (ops ++ effect.operation?.toList) := by
  cases effect <;> simp [apply, operation?, reached, ofRun, recorded_append, run,
    Recorded.step, onEngine, CedarGraphStorage.put,
    CedarGraphStorage.finishBackgroundFlush]

theorem storage_run {ops : List StorageOperation}
    (reached : part.storage = ofRun opts.lsm partitionCount ops) (effects : List PartitionEffect) :
    (run (apply opts) part effects).storage =
      ofRun opts.lsm partitionCount (ops ++ effects.filterMap operation?) := by
  induction effects generalizing part ops with
  | nil => simpa [run] using reached
  | cons effect rest ih =>
    refine (ih (storage_apply reached effect)).trans ?_
    rw [append_assoc, filterMap_cons]
    cases effect.operation? with
    | none => simp
    | some op => simp

theorem filterMap_write_operation (effects : List PartitionEffect) :
    (effects.filterMap operation?).filterMap write? = (effects.filterMap applied?).map write := by
  rw [filterMap_filterMap, ← filterMap_eq_map, filterMap_filterMap]
  congr 1
  funext effect
  cases effect <;> simp [operation?, applied?, write?]

section Commit

variable {txnId commitTs : UInt64}

theorem putAll_writes {outs : Nat → PutOutcome} {pos : Nat} {writes : List StorageWrite}
    (complete : (putAll txnId outs pos writes).2 = .ok ()) :
    ((putAll txnId outs pos writes).1.filterMap applied?).map write = writes := by
  induction writes generalizing pos with
  | nil => simp [putAll]
  | cons write rest ih =>
    have flushed := filterMap_applied_of_silent (flushes_silent (outs pos).flush)
    rw [putAll] at complete ⊢
    dsimp only at complete ⊢
    split at complete
    · simp at complete
    · simp only [filterMap_append, flushed, nil_append]
      simpa [applied?] using ih complete

theorem commitPrepared_writes {entries : List (CedarKey × Descriptor)} {outs : CommitOutcomes}
    (complete :
      (part.commitPrepared opts txnId commitTs entries outs).2 = .ok ()) :
    ((part.commitPrepared opts txnId commitTs entries outs).1.filterMap applied?).map write =
      entries.map (part.storageWrite commitTs) := by
  have announced := filterMap_applied_of_silent
    (@announce_silent part txnId commitTs entries outs.intent)
  have published := filterMap_applied_of_silent (@publish_silent opts part txnId commitTs
      (entries.map (changeRecord txnId commitTs)) outs.append outs.intentDeleted)
  have closed : [commitTxn txnId].filterMap applied? = [] := by
    simp [applied?]
  rw [commitPrepared] at complete ⊢
  dsimp only at complete ⊢
  split at complete
  · simp at complete
  · split at complete
    · simp at complete
    · rename_i putsDone
      split at complete
      · simp at complete
      · simp only [filterMap_append, announced, published, closed, nil_append, append_nil]
        exact putAll_writes putsDone

theorem commit_writes {state : PreparedTxnState} {outs : CommitOutcomes}
    (found : part.find txnId = some state)
    (complete : (part.commit opts txnId commitTs outs).2 = .ok ()) :
    ((part.commit opts txnId commitTs outs).1.filterMap applied?).map write =
      (part.writeEntries state).map (part.storageWrite commitTs) := by
  simp only [commit, found] at complete ⊢
  split at complete
  · simp at complete
  · rename_i writable
    rw [if_neg writable]
    split at complete
    · simp at complete
    · rename_i committable
      rw [if_neg committable]
      exact commitPrepared_writes complete

theorem find_prepared {req : PrepareRequest} (accepted : (part.prepare opts req).2 = .ok ()) :
    (run (apply opts) part (part.prepare opts req).1).find req.txnId = some req.state := by
  rcases @prepare_effects opts part req with ⟨refused, _⟩ | ⟨_, absent, effects⟩
  · rw [accepted] at refused
    simp [Except.isOk, Except.toBool] at refused
  · rw [find] at absent
    rw [effects, find]
    simp [run, apply, find?_append, absent, PrepareRequest.state]

theorem writeEntries_eq {req : PrepareRequest} {descs : CedarKey → Descriptor}
    (ofPartition : ∀ key ∈ req.writes, key.partId = part.partitionId)
    (mapped : ∀ key ∈ req.writes, req.writeDescriptors (cedarKeyHash key) = some (descs key)) :
    part.writeEntries req.state = req.writes.map fun key => (key, descs key) := by
  have all : (req.writes.filter fun key => decide (key.partId = part.partitionId)) =
      req.writes := by
    rw [filter_eq_self]
    intro key member
    exact decide_eq_true (ofPartition key member)
  rw [writeEntries, PrepareRequest.state, all]
  apply map_congr_left
  intro key member
  simp [mapped key member]

end Commit

/-- The entity, the column and the time of the row that is written for a key. -/
def storedPlace (descs : CedarKey → Descriptor) (key : CedarKey) : UInt64 × UInt16 × UInt64 :=
  (key.entityId, (descs key).getColumnId, key.timestamp)

def readPlace (key : CedarKey) : UInt64 × UInt16 × UInt64 :=
  (key.entityId, key.columnId, key.timestamp)

/-- The descriptor of the last key of the write set that is written to a place. -/
def lastStored (descs : CedarKey → Descriptor) (writes : List CedarKey)
    (place : UInt64 × UInt16 × UInt64) : Option Descriptor :=
  ((writes.filter fun key => decide (storedPlace descs key = place)).getLast?).map descs

/-- The key is a vertex key, its descriptor names its column, and the last key written to
the same place has the same descriptor. -/
structure Readable (descs : CedarKey → Descriptor) (writes : List CedarKey)
    (key : CedarKey) : Prop where
  vertex : key.entityType = vertex.toByte
  column : (descs key).getColumnId = key.columnId
  last : lastStored descs writes (readPlace key) = some (descs key)

theorem get_eq_ok_iff {key : CedarKey} {readTime : UInt64} {desc : Descriptor} :
    part.get opts key readTime = .ok desc ↔
      part.storage.engine.getAtTime opts.lsm key.entityId (.ofByte key.entityType)
          key.columnId readTime = some desc ∧ desc.isTombstone = false := by
  simp only [PartitionStorage.get, CedarGraphStorage.get, injectPartitionId]
  cases found : part.storage.engine.getAtTime opts.lsm key.entityId
      (.ofByte key.entityType) key.columnId readTime with
  | none => simp
  | some cur =>
    cases hidden : cur.isTombstone with
    | true =>
      simp only [Option.filter_some, hidden]
      constructor
      · intro same
        simp at same
      · intro same
        rw [← Option.some.inj same.1, hidden] at same
        simp at same
    | false =>
      simp only [Option.filter_some, hidden]
      constructor
      · intro same
        have equal : cur = desc := by simpa using same
        exact ⟨congrArg some equal, equal ▸ hidden⟩
      · intro same
        simpa using same.1

def writtenRow (partitionCount : UInt32) (commitTs : UInt64)
    (descs : CedarKey → Descriptor) (key : CedarKey) : Row :=
  (⟨key.entityId, key.timestamp, descs key, commitTs⟩ : StorageWrite).row partitionCount

theorem newestPut_of_mem (old : List Row) (descs : CedarKey → Descriptor) {writes : List CedarKey}
    (commitTs : UInt64) {key : CedarKey} (member : key ∈ writes)
    (column : (descs key).getColumnId = key.columnId) :
    newestPut (old ++ writes.map (writtenRow partitionCount commitTs descs))
        key.entityId key.columnId key.timestamp =
      lastStored descs writes (readPlace key) := by
  let row := writtenRow partitionCount commitTs descs
  have samePlace : ∀ written : CedarKey, (decide (time (row written) = key.timestamp.toNat) &&
        inColumn key.entityId key.columnId (row written)) =
      decide (storedPlace descs written = readPlace key) := by
    intro written
    rw [Bool.eq_iff_iff, Bool.and_eq_true, decide_eq_true_eq, decide_eq_true_eq, inColumn_iff]
    simp only [row, time, writtenRow, StorageWrite.row, CedarKey.vertex, storedPlace, readPlace,
      Prod.mk.injEq, UInt64.toNat_inj]
    tauto
  have reached : ∃ item ∈ (writes.map row).filter (inColumn key.entityId key.columnId),
      time item = key.timestamp.toNat := by
    refine ⟨row key, mem_filter.mpr ⟨mem_map_of_mem member, ?_⟩, ?_⟩
    · simp [row, writtenRow, StorageWrite.row, CedarKey.vertex, inColumn, column]
    · simp [row, writtenRow, StorageWrite.row, CedarKey.vertex, time]
  rw [newestPut, filter_append, newestAt_append_of_mem _ reached, filter_filter,
    filter_map, getLast?_map, Option.map_map, lastStored,
    ← filter_congr fun written _ => samePlace written]
  rfl

theorem column_of_newestPut {writes : List StorageWrite} {id : UInt64} {col : UInt16} {ts : UInt64}
    {desc : Descriptor}
    (found : newestPut (writes.map (StorageWrite.row · partitionCount)) id col
      ts = some desc) : desc.getColumnId = col := by
  obtain ⟨row, newest, rfl⟩ := Option.map_eq_some_iff.mp found
  have member := (isNewest_of_newestAt newest).mem
  obtain ⟨inRows, inPlace⟩ := mem_filter.mp member
  obtain ⟨write, _, rfl⟩ := mem_map.mp inRows
  exact (inColumn_iff.mp inPlace).2

/-- After a transaction was prepared and committed over a storage whose operations, those
of the commit included, arrived in order: a key whose descriptor is not a tombstone is read
back exactly if it is readable.  Column `UINT16_MAX` is the one that stands for every column
in a file read; no readable key has it. -/
theorem get_after_commit_iff
    (opts : PartitionOptions) (partitionCount : UInt32) (ops : List StorageOperation)
    (part : PartitionStorage) (req : PrepareRequest) (commitTs : UInt64)
    (outs : CommitOutcomes) (descs : CedarKey → Descriptor)
    (reached : part.storage = ofRun opts.lsm partitionCount ops)
    (ofPartition : ∀ key ∈ req.writes, key.partId = part.partitionId)
    (kinds : ∀ key ∈ req.writes, ∃ kind : EntityType, key.entityType = kind.toByte)
    (mapped : ∀ key ∈ req.writes, req.writeDescriptors (cedarKeyHash key) = some (descs key))
    (accepted : (part.prepare opts req).2 = .ok ()) :
    let prepared := run (apply opts) part (part.prepare opts req).1
    let commit := prepared.commit opts req.txnId commitTs outs
    commit.2 = .ok () →
    CedarGraphStorage.InOrder opts.lsm partitionCount (ops ++ commit.1.filterMap operation?) →
    ∀ key ∈ req.writes, (descs key).isTombstone = false → key.columnId ≠ uint16Max →
      ((run (apply opts) prepared commit.1).get opts key key.timestamp = .ok (descs key) ↔
        Readable descs req.writes key) := by
  intro prepared commit complete inOrder key member visible proper
  have shape : prepared = { part with prepared := part.prepared ++ [req.state] } := by
    rcases @prepare_effects opts part req with ⟨refused, _⟩ | ⟨_, _, effects⟩
    · rw [accepted] at refused
      simp [Except.isOk, Except.toBool] at refused
    · simp [prepared, effects, run, apply]
  have sameStorage : prepared.storage = ofRun opts.lsm partitionCount ops := by
    rw [shape]
    exact reached
  have samePartition : ∀ key ∈ req.writes, key.partId = prepared.partitionId := by
    rw [shape]
    exact ofPartition
  have history : (recorded opts.lsm partitionCount (ops ++ commit.1.filterMap operation?)).history =
      (recorded opts.lsm partitionCount ops).history ++
        req.writes.map (writtenRow partitionCount commitTs descs) := by
    have writes := commit_writes (find_prepared accepted) complete
    rw [writeEntries_eq samePartition mapped, map_map] at writes
    rw [history_recorded, history_recorded, filterMap_append, map_append,
      filterMap_write_operation, writes, map_map]
    rfl
  obtain ⟨kind, sameType⟩ := kinds key member
  rw [get_eq_ok_iff, storage_run sameStorage commit.1, sameType, ofByte_toByte]
  by_cases isVertex : kind = .vertex
  · subst isVertex
    have read := getAtTime_ofRun inOrder key.entityId proper key.timestamp
    rw [read]
    constructor
    · intro found
      have column : (descs key).getColumnId = key.columnId := by
        rw [history_recorded] at found
        exact column_of_newestPut found.1
      rw [history, newestPut_of_mem _ descs commitTs member column] at found
      exact ⟨sameType, column, found.1⟩
    · intro readable
      rw [history, newestPut_of_mem _ descs commitTs member readable.column]
      exact ⟨readable.last, visible⟩
  · have edge : kind.toByte ≠ vertex.toByte := by
      cases kind with
      | vertex => exact absurd rfl isVertex
      | edgeOut => decide
      | edgeIn => decide
    rw [getAtTime_ofRun_edge inOrder key.entityId edge key.columnId key.timestamp]
    refine iff_of_false (by simp) ?_
    intro readable
    exact edge (sameType.symm.trans readable.vertex)

theorem get_after_commit_two_vertices :
    let opts : PartitionOptions := ⟨.default, ⟨0, 0, 0, 0, 0, fun _ => 0⟩⟩
    let start := opened 0 false (ofRun .default 1 []) none
    let key : CedarKey := .vertex 1 3 5 0 0 0 0
    let req : PrepareRequest :=
      ⟨7, [], [key, .vertex 2 3 5 0 0 0 0], fun _ => some ⟨48⟩, 5, 0⟩
    let outs : CommitOutcomes :=
      ⟨.ok (), fun _ => ⟨none, .ok (), false⟩, ⟨fun _ => .written, true, true⟩, true⟩
    let prepared := run (apply opts) start (start.prepare opts req).1
    let committed := run (apply opts) prepared (prepared.commit opts 7 5 outs).1
    Readable (fun _ => ⟨48⟩) req.writes key ∧ committed.get opts key 5 = .ok ⟨48⟩ := by
  intro opts start key req outs prepared committed
  have readable : Readable (fun _ => ⟨48⟩) req.writes key := ⟨rfl, by decide, by decide⟩
  have inOrder : CedarGraphStorage.InOrder .default 1
      ([] ++ (prepared.commit opts 7 5 outs).1.filterMap operation?) :=
    ⟨⟨⟨rfl, by decide, by decide⟩, by decide⟩, ⟨⟨rfl, by decide, by decide⟩, by decide⟩, trivial⟩
  have ofPartition : ∀ key ∈ req.writes, key.partId = start.partitionId := by decide
  have kinds : ∀ key ∈ req.writes, ∃ kind : EntityType, key.entityType = kind.toByte := by
    intro written member
    exact ⟨.vertex, by revert written; decide⟩
  exact ⟨readable, (get_after_commit_iff opts 1 [] start req 5 outs (fun _ => ⟨48⟩) rfl
    ofPartition kinds (fun _ _ => rfl) rfl rfl inOrder key (by decide) (by decide)
    (by decide)).mpr readable⟩

/-- An edge key, a vertex key whose descriptor names another column, and a vertex key that
differs from a later one only in its target. -/
theorem commit_loses_writes :
    let opts : PartitionOptions := ⟨.default, ⟨0, 0, 0, 0, 0, fun _ => 0⟩⟩
    let start := opened 0 false (ofRun .default 1 []) none
    let outs : CommitOutcomes :=
      ⟨.ok (), fun _ => ⟨none, .ok (), false⟩, ⟨fun _ => .written, true, true⟩, true⟩
    let committed := fun (writes : List CedarKey) (descs : CedarKey → Descriptor) =>
      let req : PrepareRequest := ⟨7, [], writes, fun hash =>
        (writes.find? fun key => cedarKeyHash key = hash).map descs, 5, 0⟩
      let prepared := run (apply opts) start (start.prepare opts req).1
      run (apply opts) prepared (prepared.commit opts 7 5 outs).1
    let edge : CedarKey := .edgeOut 1 2 3 5 0 0 0
    let vertex : CedarKey := .vertex 1 3 5 0 0 0 0
    let twin : CedarKey := .vertex 1 3 5 0 0 9 0
    let own := fun key : CedarKey => (if key = vertex then ⟨48⟩ else ⟨48 + 2 ^ 16⟩ : Descriptor)
    ((committed [edge] fun _ => ⟨48⟩).committed = [7] ∧
        ((committed [edge] fun _ => ⟨48⟩).get opts edge 5).toOption = none) ∧
      ((committed [vertex] fun _ => ⟨64⟩).committed = [7] ∧
        ((committed [vertex] fun _ => ⟨64⟩).get opts vertex 5).toOption = none) ∧
      (committed [vertex, twin] own).committed = [7] ∧
      ((committed [vertex, twin] own).get opts vertex 5).toOption = some (own twin) ∧
      own vertex ≠ own twin := by
  decide

end PartitionStorage

end CedarGraph
