import CedarGraph.Cdc.ChangeLog
import CedarGraph.Gcn.Engine

/-!
# The event applier

`EventApplier` turns change records into edges. A record that was applied before is skipped, one
behind a gap is refused, and those of a larger batch are collected and appended at once.
-/

namespace CedarGraph

def clampValidTime (value : UInt64) : Nat :=
  if value.toNat > maxTime then maxTime else value.toNat

def buildEdgeAppend (rec : ChangeRecord) : EdgeAppend :=
  let validFrom :=
    if rec.validFrom = 0 then clampValidTime rec.commitVersion
    else clampValidTime rec.validFrom
  { entityId := rec.entityId
    dir := .kOut
    edge :=
      { targetId := rec.targetId
        validFrom
        validTo :=
          if rec.operation = .delete then validFrom
          else if rec.validTo = 0 then maxTime
          else clampValidTime rec.validTo
        attrOffset := 0
        edgeType := rec.edgeType
        reserved := rec.partitionId }
    reverse := true }

def validateChangeRecordForApply (rec : ChangeRecord) : Except Status Unit :=
  if rec.operation ≠ .create ∧ rec.operation ≠ .update ∧ rec.operation ≠ .delete then
    .error (.invalidArgument "unsupported CDC operation" "")
  else if rec.batchSize = 0 ∨ rec.batchIndex ≥ rec.batchSize then
    .error (.invalidArgument "CDC record has invalid batch metadata" "")
  else .ok ()

structure PartitionProgress where
  appliedOffset : Nat
  appliedVersion : UInt64
  deriving DecidableEq

/-- A batch without records has size zero. -/
structure PendingBatch where
  txnId : UInt64
  partitionId : UInt32
  firstOffset : Nat
  batchSize : Nat
  commitVersion : UInt64
  records : List (Option ChangeRecord)
  deriving DecidableEq

def PendingBatch.empty : PendingBatch :=
  ⟨0, 0, 0, 0, 0, []⟩

structure PartitionApplyState where
  progress : PartitionProgress
  pendingBatch : PendingBatch
  deriving DecidableEq

def PartitionApplyState.initial : PartitionApplyState :=
  ⟨⟨0, 0⟩, .empty⟩

def PendingBatch.open (rec : ChangeRecord) (firstOffset : Nat) : PendingBatch :=
  ⟨rec.txnId, rec.partitionId, firstOffset, rec.batchSize, rec.commitVersion,
    List.replicate rec.batchSize none⟩

def PendingBatch.put (batch : PendingBatch) (rec : ChangeRecord) : PendingBatch :=
  match batch.records[rec.batchIndex]? with
  | some none => { batch with records := batch.records.set rec.batchIndex (some rec) }
  | _ => batch

def PendingBatch.check (batch : PendingBatch) (index : Nat) (rec : ChangeRecord) :
    Except Status EdgeAppend :=
  if rec.offset ≠ batch.firstOffset + index ∨ rec.batchIndex ≠ index ∨
      rec.partitionId ≠ batch.partitionId ∨ rec.txnId ≠ batch.txnId ∨
      rec.batchSize ≠ batch.batchSize ∨ rec.commitVersion ≠ batch.commitVersion then
    .error (.invalidArgument "CDC batch is not contiguous" "")
  else
    match validateChangeRecordForApply rec with
    | .error status => .error status
    | .ok () => .ok (buildEdgeAppend rec)

/-- The loop of `ApplyCompleteBatch` over the records. -/
def PendingBatch.checkAll (batch : PendingBatch) (index : Nat) :
    List ChangeRecord → Except Status (List EdgeAppend)
  | [] => .ok []
  | rec :: rest =>
    match batch.check index rec with
    | .error status => .error status
    | .ok append =>
      match batch.checkAll (index + 1) rest with
      | .error status => .error status
      | .ok appends => .ok (append :: appends)

def applyCompleteBatch (batch : PendingBatch) (prog : PartitionProgress)
    (eng : TMVEngine) (recs : List ChangeRecord) :
    PartitionProgress × TMVEngine × Except Status Unit :=
  match batch.checkAll 0 recs with
  | .error status => (prog, eng, .error status)
  | .ok appends =>
    match eng.appendEdgesAtomic appends with
    | (later, .error status) => (prog, later, .error status)
    | (later, .ok ()) =>
      (⟨batch.firstOffset + batch.batchSize - 1, batch.commitVersion⟩, later, .ok ())

def applySingle (state : PartitionApplyState) (eng : TMVEngine) (rec : ChangeRecord) :
    PartitionApplyState × TMVEngine × Except Status Unit :=
  if rec.offset ≠ state.progress.appliedOffset + 1 then
    (state, eng, .error (.conflict "CDC record offset gap" ""))
  else
    match validateChangeRecordForApply rec with
    | .error status => (state, eng, .error status)
    | .ok () =>
      match eng.appendEdgesAtomic [buildEdgeAppend rec] with
      | (later, .error status) => (state, later, .error status)
      | (later, .ok ()) =>
        ({ state with progress := ⟨rec.offset, rec.commitVersion⟩ }, later, .ok ())

def applyToBatch (state : PartitionApplyState) (eng : TMVEngine) (rec : ChangeRecord) :
    PartitionApplyState × TMVEngine × Except Status Unit :=
  -- an index beyond the offset wraps around in the source, and is refused all the same
  let firstOffset := rec.offset - rec.batchIndex
  if firstOffset ≠ state.progress.appliedOffset + 1 then
    (state, eng, .error (.conflict "CDC record offset gap" ""))
  else
    let batch :=
      if state.pendingBatch.batchSize = 0 then .open rec firstOffset else state.pendingBatch
    if batch.txnId ≠ rec.txnId ∨ batch.firstOffset ≠ firstOffset ∨
        batch.batchSize ≠ rec.batchSize ∨ batch.commitVersion ≠ rec.commitVersion then
      ({ state with pendingBatch := batch }, eng,
        .error (.invalidArgument "CDC record batch metadata mismatch" ""))
    else
      let batch := batch.put rec
      if none ∈ batch.records then ({ state with pendingBatch := batch }, eng, .ok ())
      else
        let (prog, later, status) :=
          applyCompleteBatch batch state.progress eng (batch.records.filterMap id)
        (⟨prog, .empty⟩, later, status)

/-- `ApplyChangeRecord` with the state of the record's partition. -/
def PartitionApplyState.apply (state : PartitionApplyState) (eng : TMVEngine)
    (rec : ChangeRecord) : PartitionApplyState × TMVEngine × Except Status Unit :=
  if rec.batchSize = 0 ∨ rec.batchIndex ≥ rec.batchSize then
    (state, eng, .error (.invalidArgument "CDC record has invalid batch metadata" ""))
  else if rec.offset ≤ state.progress.appliedOffset then (state, eng, .ok ())
  else if rec.batchSize = 1 then applySingle state eng rec
  else applyToBatch state eng rec

structure EventApplier where
  engine : TMVEngine
  partitionStates : UInt32 → PartitionApplyState

namespace EventApplier

def start (maxChunks : Nat) : EventApplier :=
  ⟨⟨∅, maxChunks⟩, fun _ => .initial⟩

def applyChangeRecord (applier : EventApplier) (rec : ChangeRecord) :
    EventApplier × Except Status Unit :=
  let (state, eng, status) :=
    (applier.partitionStates rec.partitionId).apply applier.engine rec
  (⟨eng, Function.update applier.partitionStates rec.partitionId state⟩, status)

def appliedOffset (applier : EventApplier) (pid : UInt32) : Nat :=
  (applier.partitionStates pid).progress.appliedOffset

end EventApplier

end CedarGraph
