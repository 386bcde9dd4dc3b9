import CedarGraph.Cdc.ChangeLog
import CedarGraph.Engine.Lsm

/-!
# A partition as a participant of distributed transactions

`PartitionStorage` keeps prepared transactions, writes their keys when they commit, and
publishes the changes; an intent file makes it possible to complete this after a crash. A call
is the list of its effects in order, so that a crash keeps a front part of them.
-/

namespace CedarGraph

open FixedWidth

def murmurHash2 (key : UInt64) : UInt64 :=
  let m : UInt64 := 0xc6a4a7935bd1e995
  let r : UInt64 := 47
  let k := key * m
  let k := (k ^^^ (k >>> r)) * m
  let h := ((0x8445d61a4e774912 ^^^ (8 * m)) ^^^ k) * m
  let h := (h ^^^ (h >>> r)) * m
  h ^^^ (h >>> r)

def computePartition (id : UInt64) (partitionCount : UInt32) : UInt16 :=
  UInt16.ofNat ((murmurHash2 id).toNat % partitionCount.toNat)

/-- The arguments of `CedarGraphStorage::Put`. -/
structure StorageWrite where
  entityId : UInt64
  txTime : UInt64
  descriptor : Descriptor
  txnVersion : UInt64
  deriving DecidableEq, Repr

/-- The row that `Put` builds: always that of a vertex, in the column that the
descriptor names.  The flags are those of a create operation in a distributed store. -/
def StorageWrite.row (write : StorageWrite) (partitionCount : UInt32) : Row :=
  ⟨.vertex write.entityId write.descriptor.getColumnId write.txTime 0
      (computePartition write.entityId partitionCount) 0 4,
    write.descriptor, write.txnVersion⟩

structure CedarGraphStorage where
  engine : LsmEngine
  partitionCount : UInt32

namespace CedarGraphStorage

variable (opts : LsmOptions)

def put (storage : CedarGraphStorage) (write : StorageWrite) (lockFree : Bool) :
    CedarGraphStorage :=
  { storage with
    engine := storage.engine.put opts (write.row storage.partitionCount) lockFree }

def finishBackgroundFlush (storage : CedarGraphStorage) (written : Nat → Bool) :
    CedarGraphStorage :=
  { storage with engine := storage.engine.finishBackgroundFlush opts written }

/-- `Get` hides tombstones. -/
def get (storage : CedarGraphStorage) (id : UInt64) (kind : EntityType)
    (col : UInt16) (ts : UInt64) : Option Descriptor :=
  (storage.engine.getAtTime opts id kind col ts).filter fun desc => !desc.isTombstone

end CedarGraphStorage

/-- `CedarKeyHash` with the identity as hash of an integer. -/
def cedarKeyHash (key : CedarKey) : UInt64 :=
  combine (combine key.entityId (UInt64.ofNat key.columnId.toNat)) key.targetId
where
  combine (hash value : UInt64) : UInt64 :=
    hash ^^^ (value + (0x9e3779b9 : UInt64) + (hash <<< 6) + (hash >>> 2))

structure PreparedTxnState where
  txnId : UInt64
  readSet : List CedarKey
  writeSet : List CedarKey
  writeDescriptors : UInt64 → Option Descriptor
  commitTs : UInt64
  status : DistributedTxnState

/-- The content of an intent file: the records with the times of their keys. -/
structure CdcIntentBatch where
  txnId : UInt64
  commitVersion : UInt64
  records : List (UInt64 × ChangeRecord)
  deriving DecidableEq, Repr

/-- A write that reached the storage, with the transaction and the position of the key
among those of the transaction. -/
structure AppliedWrite where
  txnId : UInt64
  position : Nat
  write : StorageWrite
  deriving DecidableEq, Repr

structure PartitionOptions where
  lsm : LsmOptions
  changeLog : ChangeLogOptions

structure PartitionStorage where
  partitionId : UInt16
  isReadonly : Bool
  storage : CedarGraphStorage
  applied : List AppliedWrite
  prepared : List PreparedTxnState
  committed : List UInt64
  aborted : List UInt64
  changeLog : Option PartitionChangeLog
  intents : List CdcIntentBatch

inductive PartitionEffect where
  | insertPrepared (state : PreparedTxnState)
  | setStatus (txnId : UInt64) (status : DistributedTxnState)
  | persistIntent (batch : CdcIntentBatch)
  | backgroundFlush (written : Nat → Bool)
  | put (applied : AppliedWrite) (lockFree : Bool)
  | changeLog (event : ChangeLogEvent)
  | deleteIntent (txnId : UInt64)
  | commitTxn (txnId : UInt64)
  | abortTxn (txnId : UInt64)

namespace PartitionStorage

variable (opts : PartitionOptions) (part : PartitionStorage)

def find (txnId : UInt64) : Option PreparedTxnState :=
  part.prepared.find? fun state => state.txnId = txnId

def eraseTxn (txnId : UInt64) (states : List PreparedTxnState) : List PreparedTxnState :=
  states.filter fun state => state.txnId ≠ txnId

def apply : PartitionEffect → PartitionStorage
  | .insertPrepared state => { part with prepared := part.prepared ++ [state] }
  | .setStatus txnId status =>
    { part with
      prepared := part.prepared.map fun state =>
        if state.txnId = txnId then { state with status } else state }
  | .persistIntent batch =>
    { part with
      intents := (part.intents.filter fun intent => intent.txnId ≠ batch.txnId) ++ [batch] }
  | .backgroundFlush written =>
    { part with storage := part.storage.finishBackgroundFlush opts.lsm written }
  | .put applied lockFree =>
    { part with
      storage := part.storage.put opts.lsm applied.write lockFree
      applied := part.applied ++ [applied] }
  | .changeLog event =>
    { part with
      changeLog := part.changeLog.map fun log => log.apply opts.changeLog event }
  | .deleteIntent txnId =>
    { part with intents := part.intents.filter fun intent => intent.txnId ≠ txnId }
  | .commitTxn txnId =>
    { part with
      committed := part.committed.insert txnId
      prepared := eraseTxn txnId part.prepared }
  | .abortTxn txnId =>
    { part with
      aborted := part.aborted.insert txnId
      prepared := eraseTxn txnId part.prepared }

/-- The key with the partition that the storage belongs to. -/
def injectPartitionId (key : CedarKey) : CedarKey :=
  { key with partId := part.partitionId }

def get (key : CedarKey) (readTime : UInt64) : Except Status Descriptor :=
  let storageKey := part.injectPartitionId key
  match part.storage.get opts.lsm storageKey.entityId (.ofByte storageKey.entityType)
      storageKey.columnId readTime with
  | none => .error (.notFound "Key not found" "")
  | some desc => .ok desc

structure PrepareRequest where
  txnId : UInt64
  reads : List CedarKey
  writes : List CedarKey
  writeDescriptors : UInt64 → Option Descriptor
  commitTs : UInt64
  readTimestamp : UInt64

def PrepareRequest.state (req : PrepareRequest) : PreparedTxnState :=
  ⟨req.txnId, req.reads, req.writes, req.writeDescriptors, req.commitTs, .prepared⟩

def writesConflict (writes existing : List CedarKey) : Bool :=
  writes.any fun key => existing.any fun other =>
    key.entityId = other.entityId ∧ key.columnId = other.columnId

/-- A version of a key of this partition was committed after the read timestamp;
versions from files carry no transaction version. -/
def readConflict (req : PrepareRequest) : Bool :=
  req.readTimestamp ≠ 0 && req.reads.any fun key =>
    key.partId = part.partitionId &&
      (part.storage.engine.getAll opts.lsm key.entityId (.ofByte key.entityType)
        key.columnId).any fun ver =>
          ver.txnVersion ≠ 0 && decide (req.readTimestamp < ver.txnVersion)

def prepare (req : PrepareRequest) : List PartitionEffect × Except Status Unit :=
  if (part.find req.txnId).isSome then
    ([], .error (.invalidArgument ("Transaction already prepared: " ++ toString req.txnId) ""))
  else
    match part.prepared.find? fun existing =>
        existing.status = .prepared && writesConflict req.writes existing.writeSet with
    | some existing =>
      ([], .error (.busy ("Write-write conflict with txn " ++ toString existing.txnId) ""))
    | none =>
      if part.readConflict opts req then
        ([], .error (.busy "Read-write conflict: key modified after read timestamp" ""))
      else
        ([.insertPrepared req.state], .ok ())

/-- The keys of the partition with the descriptors found under their hashes. -/
def writeEntries (state : PreparedTxnState) : List (CedarKey × Descriptor) :=
  (state.writeSet.filter fun key => key.partId = part.partitionId).map fun key =>
    (key, (state.writeDescriptors (cedarKeyHash key)).getD .default)

variable (txnId commitTs : UInt64)

def changeRecord (entry : CedarKey × Descriptor) : ChangeRecord :=
  { partitionId := 0
    partitionEpoch := 0
    offset := 0
    commitVersion := 0
    txnId := txnId
    batchIndex := 0
    batchSize := 0
    entityId := entry.1.entityId
    targetId := entry.1.targetId
    entityType := entry.1.entityType.toUInt32
    edgeType := if entry.1.entityType = 1 ∨ entry.1.entityType = 2
      then entry.1.columnId.toUInt32 else 0
    columnId := entry.1.columnId.toUInt32
    operation := if entry.2.isTombstone then .delete else .update
    validFrom := commitTs
    validTo := 0
    payload := leBytes 8 entry.2.value.toNat }

def intentBatch (entries : List (CedarKey × Descriptor)) : CdcIntentBatch :=
  ⟨txnId, commitTs, entries.map fun entry => (entry.1.timestamp, changeRecord txnId commitTs entry)⟩

/-- The outcome of one `Put` on the storage, and the background flush of the engine
that ends before it. -/
structure PutOutcome where
  flush : Option (Nat → Bool)
  status : Except Status Unit
  lockFree : Bool

/-- The loop over the writes stops at the first one that fails. -/
def putAll (txnId : UInt64) (outs : Nat → PutOutcome) :
    Nat → List StorageWrite → List PartitionEffect × Except Status Unit
  | _, [] => ([], .ok ())
  | position, write :: rest =>
    let flushes := (outs position).flush.toList.map PartitionEffect.backgroundFlush
    match (outs position).status with
    | .error status => (flushes, .error status)
    | .ok () =>
      let later := putAll txnId outs (position + 1) rest
      (flushes ++ .put ⟨txnId, position, write⟩ (outs position).lockFree :: later.1, later.2)

def storageWrite (commitTs : UInt64) (entry : CedarKey × Descriptor) : StorageWrite :=
  let storageKey := part.injectPartitionId entry.1
  ⟨storageKey.entityId, storageKey.timestamp, entry.2, commitTs⟩

/-- What a commit does not decide itself. -/
structure CommitOutcomes where
  intent : Except Status Unit
  puts : Nat → PutOutcome
  append : PartitionChangeLog.AppendOutcome
  intentDeleted : Bool

/-- The intent file, when there is a change log and something to publish. -/
def announce (entries : List (CedarKey × Descriptor)) (out : Except Status Unit) :
    List PartitionEffect × Except Status Unit :=
  if part.changeLog.isSome && !entries.isEmpty then
    match out with
    | .error status => ([], .error status)
    | .ok () => ([.persistIntent (intentBatch txnId commitTs entries)], .ok ())
  else ([], .ok ())

/-- The publication of the changes; a failure to delete the intent is only logged. -/
def publish (recs : List ChangeRecord) (out : PartitionChangeLog.AppendOutcome)
    (intentDeleted : Bool) : List PartitionEffect × Except Status Unit :=
  match part.changeLog with
  | none => ([], .ok ())
  | some log =>
    if recs.isEmpty then ([], .ok ())
    else
      let appended := log.appendCommittedBatch opts.changeLog commitTs recs out
      match appended.2 with
      | .error status =>
        (appended.1.map .changeLog, .error (.ioError
          ("CDC append failed during commit — recovery must retry commit: " ++ status.toString) ""))
      | .ok () =>
        (appended.1.map .changeLog ++
          if intentDeleted then [.deleteIntent txnId] else [], .ok ())

/-- The commit of a prepared transaction, after its status was set. -/
def commitPrepared (entries : List (CedarKey × Descriptor)) (outs : CommitOutcomes) :
    List PartitionEffect × Except Status Unit :=
  let announced := part.announce txnId commitTs entries outs.intent
  match announced.2 with
  | .error status => (announced.1, .error status)
  | .ok () =>
    let written :=
      putAll txnId outs.puts 0 (entries.map (part.storageWrite commitTs))
    match written.2 with
    | .error status =>
      (announced.1 ++ written.1, .error (.ioError
        ("Partial write during commit — recovery will complete remaining keys: " ++
          status.toString) ""))
    | .ok () =>
      let published := part.publish opts txnId commitTs
        (entries.map (changeRecord txnId commitTs)) outs.append outs.intentDeleted
      match published.2 with
      | .error status => (announced.1 ++ written.1 ++ published.1, .error status)
      | .ok () => (announced.1 ++ written.1 ++ published.1 ++ [.commitTxn txnId], .ok ())

def commit (outs : CommitOutcomes) : List PartitionEffect × Except Status Unit :=
  if part.isReadonly then
    ([], .error (.invalidArgument "Partition is read-only" ""))
  else
    match part.find txnId with
    | none =>
      if txnId ∈ part.committed then ([], .ok ())
      else ([], .error (.notFound ("Transaction not found: " ++ toString txnId) ""))
    | some state =>
      if state.status ≠ .prepared ∧ state.status ≠ .committing then
        ([], .error (.invalidArgument
          ("Transaction not in committable state: " ++ toString txnId) ""))
      else
        let rest := part.commitPrepared opts txnId commitTs (part.writeEntries state) outs
        (.setStatus txnId .committing :: rest.1, rest.2)

def abort (txnId : UInt64) : List PartitionEffect × Except Status Unit :=
  match part.find txnId with
  | none =>
    if txnId ∈ part.aborted then ([], .ok ())
    else ([], .error (.notFound ("Transaction not found: " ++ toString txnId) ""))
  | some _ => ([.abortTxn txnId], .ok ())

end PartitionStorage

end CedarGraph
