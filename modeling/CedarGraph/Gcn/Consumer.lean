import CedarGraph.Gcn.Applier
import CedarGraph.Gcn.Replace
import CedarGraph.Lib.Visits

/-!
# The consumer of a partition

A checkpoint on disk says how far the engine got, and a snapshot of its edges may stand beside
it. `RunOnce` starts from the checkpoint or from a snapshot of the source, fetches the records
behind it and reports that the partition is ready. What source and disk answer is input; the
process can stop between any two steps.
-/

namespace CedarGraph

namespace PartitionApplyState

def seedPartitionProgress (state : PartitionApplyState) (appliedOffset : Nat)
    (appliedVersion : UInt64) : PartitionApplyState × Except Status Unit :=
  if state.pendingBatch.batchSize ≠ 0 then
    (state, .error (.conflict "cannot seed CDC progress while a batch is pending" ""))
  else if appliedOffset < state.progress.appliedOffset then
    (state, .error (.conflict "cannot move CDC applied offset backward" ""))
  else ({ state with progress := ⟨appliedOffset, appliedVersion⟩ }, .ok ())

end PartitionApplyState

def snapshotAppends (pid : UInt32) : List ChangeRecord → Except Status (List EdgeAppend)
  | [] => .ok []
  | rec :: rest =>
    if rec.partitionId ≠ pid then
      .error (.invalidArgument "snapshot record partition mismatch" "")
    else
      match validateChangeRecordForApply rec with
      | .error status => .error status
      | .ok () =>
        match snapshotAppends pid rest with
        | .error status => .error status
        | .ok appends => .ok (buildEdgeAppend rec :: appends)

def PartitionApplyState.applySnapshotRecordsAtomically (state : PartitionApplyState)
    (eng : TMVEngine) (pid : UInt32) (appliedOffset : Nat) (appliedVersion : UInt64)
    (recs : List ChangeRecord) : PartitionApplyState × TMVEngine × Except Status Unit :=
  if state.pendingBatch.batchSize ≠ 0 then
    (state, eng, .error (.conflict "cannot publish snapshot while a batch is pending" ""))
  else if appliedOffset < state.progress.appliedOffset then
    (state, eng, .error (.conflict "cannot move CDC applied offset backward" ""))
  else
    match snapshotAppends pid recs with
    | .error status => (state, eng, .error status)
    | .ok appends =>
      match eng.replacePartitionEdgesAtomic pid appends with
      | (later, .error status) => (state, later, .error status)
      | (later, .ok ()) =>
        ({ state with progress := ⟨appliedOffset, appliedVersion⟩ }, later, .ok ())

structure PartitionState where
  partitionEpoch : UInt64
  earliestOffset : Nat
  highWatermark : Nat
  committedVersion : UInt64

structure FetchResponse where
  partitionId : UInt32
  partitionEpoch : UInt64
  highWatermark : Nat
  nextOffset : Nat
  records : List ChangeRecord

structure ComputeSnapshotBatch where
  partitionId : UInt32
  partitionEpoch : UInt64
  snapshotVersion : UInt64
  sequence : Nat
  records : List ChangeRecord
  final : Bool
  checksum : UInt32

structure PartitionCheckpoint where
  partitionId : UInt32
  partitionEpoch : UInt64
  appliedOffset : Nat
  appliedVersion : UInt64
  tmvSnapshotId : String
  deriving DecidableEq

structure TmvSnapshotMetadata where
  partitionId : UInt32
  appliedVersion : UInt64
  appliedOffset : Nat

structure TmvSnapshot where
  metadata : TmvSnapshotMetadata
  appends : List EdgeAppend

/-- A file is renamed into place before its directory is synchronized, so that a save
that fails can have replaced it. -/
inductive SaveOutcome where
  | saved
  | failed (status : Status)
  | published (status : Status)

namespace SaveOutcome

def file {File : Type} (out : SaveOutcome) (old : Option File) (new : File) : Option File :=
  match out with
  | .failed _ => old
  | .saved => some new
  | .published _ => some new

def status : SaveOutcome → Except Status Unit
  | .saved => .ok ()
  | .failed status => .error status
  | .published status => .error status

end SaveOutcome

def maxSnapshotEdges : Nat := 2 ^ 30

def snapshotFileName (pid : UInt32) : String :=
  "partition_" ++ toString pid.toNat ++ ".tmv"

/-- The checks of `DecodeSnapshot` on the contents of the file. -/
def TmvSnapshot.decode (snap : TmvSnapshot) (pid : UInt32) : Except Status TmvSnapshot :=
  if snap.metadata.partitionId ≠ pid then
    .error (.corruption "TMV snapshot partition mismatch" "")
  else if snap.appends.length > maxSnapshotEdges then
    .error (.corruption "TMV snapshot edge count is too large" "")
  else if snap.appends.any fun append =>
      append.edge.reserved ≠ snap.metadata.partitionId then
    .error (.corruption "TMV snapshot edge partition mismatch" "")
  else .ok snap

def restorePartition (eng : TMVEngine) (pid : UInt32) (file : Option TmvSnapshot)
    (readable : Except Status Unit) : TMVEngine × Except Status TmvSnapshotMetadata :=
  match file with
  | none =>
    (eng, .error (.ioError ("open TMV snapshot failed: " ++ snapshotFileName pid)
      "No such file or directory"))
  | some snap =>
    match readable with
    | .error status => (eng, .error status)
    | .ok () =>
      match snap.decode pid with
      | .error status => (eng, .error status)
      | .ok snap =>
        match eng.replacePartitionEdgesAtomic pid snap.appends with
        | (later, .error status) => (later, .error status)
        | (later, .ok ()) => (later, .ok snap.metadata)

inductive PartitionConsumerState where
  | kStarting
  | kBackfilling
  | kCatchingUp
  | kReady
  | kFailed
  | kStopped
  deriving DecidableEq, Repr

structure PartitionConsumerProgress where
  partitionId : UInt32
  partitionEpoch : UInt64
  leaseEpoch : UInt64
  appliedOffset : Nat
  appliedVersion : UInt64
  highWatermark : Nat
  state : PartitionConsumerState
  queryReady : Bool
  error : String

def PartitionConsumerProgress.initial : PartitionConsumerProgress :=
  ⟨0, 0, 0, 0, 0, 0, .kStopped, false, ""⟩

/-- The memory of the process, and the two files. -/
structure PartitionConsumer where
  engine : TMVEngine
  applier : PartitionApplyState
  progress : PartitionConsumerProgress
  checkpoint : Option PartitionCheckpoint
  snapshot : Option TmvSnapshot

/-- Every lease of the consumer is for the one partition. -/
structure ConsumerOptions where
  partitionId : UInt32
  snapshotStore : Bool
  maxChunks : Nat
  tempSnapshotChunks : Nat
  snapshotChecksum : ComputeSnapshotBatch → UInt32

/-- What a call is answered.  The fetches end where the consumer is told to stop. -/
structure RunInputs where
  partitionEpoch : UInt64
  leaseEpoch : UInt64
  getState : Except Status PartitionState
  loadCheckpoint : Except Status Unit
  readSnapshot : Except Status Unit
  batches : List ComputeSnapshotBatch
  streamStatus : Except Status Unit
  fetches : List (Except Status FetchResponse)
  saveCheckpoint : PartitionCheckpoint → SaveOutcome
  saveBackfill : SaveOutcome
  saveReady : SaveOutcome

/-- What the callback keeps from batch to batch. -/
structure SnapshotLoader where
  tempApplier : EventApplier
  verifiedRecords : List ChangeRecord
  expectedSequence : Nat
  sawFinal : Bool
  observedEpoch : UInt64

namespace SnapshotLoader

def verifyRecords (pid : UInt32) (partitionEpoch : UInt64) :
    EventApplier → List ChangeRecord → Except Status EventApplier
  | applier, [] => .ok applier
  | applier, rec :: rest =>
    if rec.partitionId ≠ pid then
      .error (.corruption "snapshot record partition mismatch" "")
    else if rec.partitionEpoch ≠ partitionEpoch then
      .error (.conflict "snapshot record epoch mismatch" "")
    else
      match applier.applyChangeRecord rec with
      | (_, .error status) => .error status
      | (later, .ok ()) => verifyRecords pid partitionEpoch later rest

def onBatch (opts : ConsumerOptions) (state : PartitionState) (loader : SnapshotLoader)
    (batch : ComputeSnapshotBatch) : Except Status SnapshotLoader :=
  if batch.partitionId ≠ opts.partitionId then
    .error (.corruption "snapshot batch partition mismatch" "")
  else if state.partitionEpoch ≠ 0 ∧ batch.partitionEpoch ≠ state.partitionEpoch then
    .error (.conflict "snapshot batch epoch mismatch" "")
  else if batch.snapshotVersion ≠ state.committedVersion then
    .error (.corruption "snapshot batch version mismatch" "")
  else if batch.sequence ≠ loader.expectedSequence then
    .error (.corruption "snapshot batch sequence gap" "")
  else if batch.checksum ≠ 0 ∧ batch.checksum ≠ opts.snapshotChecksum batch then
    .error (.corruption "snapshot batch checksum mismatch" "")
  else
    match verifyRecords opts.partitionId batch.partitionEpoch loader.tempApplier
        batch.records with
    | .error status => .error status
    | .ok applier =>
      .ok ⟨applier, loader.verifiedRecords ++ batch.records, loader.expectedSequence + 1,
        batch.final, batch.partitionEpoch⟩

def onBatches (opts : ConsumerOptions) (state : PartitionState) :
    SnapshotLoader → List ComputeSnapshotBatch → Except Status SnapshotLoader
  | loader, [] => .ok loader
  | loader, batch :: rest =>
    match loader.onBatch opts state batch with
    | .error status => .error status
    | .ok later => later.onBatches opts state rest

/-- The stream, before anything is published. -/
def verify (opts : ConsumerOptions) (state : PartitionState) (inputs : RunInputs) :
    Except Status SnapshotLoader :=
  match onBatches opts state ⟨.start opts.tempSnapshotChunks, [], 0, false, state.partitionEpoch⟩
      inputs.batches with
  | .error status => .error status
  | .ok loader =>
    match inputs.streamStatus with
    | .error status => .error status
    | .ok () =>
      if loader.sawFinal then .ok loader
      else .error (.corruption "snapshot stream ended without final batch" "")

def snapshotId (opts : ConsumerOptions) (state : PartitionState) (loader : SnapshotLoader) :
    String :=
  "snapshot-" ++ toString opts.partitionId.toNat ++ "-" ++
    toString loader.observedEpoch.toNat ++ "-" ++ toString state.committedVersion.toNat ++ "-" ++
    toString state.highWatermark

end SnapshotLoader

def maxSnapshotIdBytes : Nat := 2 ^ 20

namespace PartitionConsumer

section Calls

variable (opts : ConsumerOptions) (inputs : RunInputs) (part : PartitionState)

def setProgress (state : PartitionConsumerState)
    (applied : PartitionProgress) (highWatermark : Nat) (queryReady : Bool) :
    Visits PartitionConsumer Status Unit :=
  .modify fun consumer =>
    { consumer with
      progress :=
        ⟨opts.partitionId, part.partitionEpoch, inputs.leaseEpoch,
          applied.appliedOffset, applied.appliedVersion,
          max consumer.progress.highWatermark highWatermark, state, queryReady, ""⟩ }

def saveCheckpoint (ckpt : PartitionCheckpoint) : Visits PartitionConsumer Status Unit :=
  .attempt fun consumer =>
    if ckpt.tmvSnapshotId.utf8ByteSize > maxSnapshotIdBytes then
      (consumer, .error (.invalidArgument "GCN checkpoint snapshot id is too large" ""))
    else
      ({ consumer with
          checkpoint :=
            (inputs.saveCheckpoint ckpt).file consumer.checkpoint ckpt },
        (inputs.saveCheckpoint ckpt).status)

def savePartition (out : SaveOutcome) (applied : PartitionProgress) :
    Visits PartitionConsumer Status Unit :=
  .attempt fun consumer =>
    ({ consumer with
        snapshot := out.file consumer.snapshot
          ⟨⟨opts.partitionId, applied.appliedVersion, applied.appliedOffset⟩,
            consumer.engine.exportPartitionEdges opts.partitionId⟩ },
      out.status)

/-- Whether the edges in the engine are those of the checkpoint, after a restore when there
is a snapshot for it. -/
def restoreCheckpoint (ckpt : PartitionCheckpoint) : Visits PartitionConsumer Status Bool :=
  if opts.snapshotStore ∧ ckpt.tmvSnapshotId ≠ "" then
    .attempt fun consumer =>
      let (eng, restored) := restorePartition consumer.engine opts.partitionId
        consumer.snapshot inputs.readSnapshot
      ({ consumer with engine := eng },
        .ok (match restored with
          | .error _ => false
          | .ok metadata =>
            metadata.partitionId = opts.partitionId ∧
              metadata.appliedOffset = ckpt.appliedOffset ∧
              metadata.appliedVersion = ckpt.appliedVersion))
  else pure true

variable (applied : PartitionProgress)

def seed : Visits PartitionConsumer Status Unit :=
  .attempt fun consumer =>
    if consumer.applier.progress ≠ applied then
      let (applier, status) := consumer.applier.seedPartitionProgress applied.appliedOffset
        applied.appliedVersion
      ({ consumer with applier }, status)
    else (consumer, .ok ())

/-- Where the checkpoint lets the call start, unless a snapshot of the source is needed. -/
def acceptCheckpoint :
    Visits PartitionConsumer Status (Option PartitionProgress) := do
  let file ← .read PartitionConsumer.checkpoint
  match inputs.loadCheckpoint, file with
  | .ok (), some ckpt =>
    if ckpt.partitionEpoch = part.partitionEpoch ∧
        ckpt.appliedOffset + 1 ≥ part.earliestOffset then do
      let restored ← restoreCheckpoint opts inputs ckpt
      if restored then do
        seed ⟨ckpt.appliedOffset, ckpt.appliedVersion⟩
        pure (some ⟨ckpt.appliedOffset, ckpt.appliedVersion⟩)
      else pure none
    else pure none
  | _, _ => pure none

def saveBackfilled (snapshotId : String) : Visits PartitionConsumer Status Unit :=
  if opts.snapshotStore then do
    savePartition opts inputs.saveBackfill applied
    saveCheckpoint inputs ⟨opts.partitionId, part.partitionEpoch,
      applied.appliedOffset, applied.appliedVersion, "tmv-" ++ snapshotId⟩
  else
    saveCheckpoint inputs ⟨opts.partitionId, part.partitionEpoch,
      applied.appliedOffset, applied.appliedVersion, snapshotId⟩

def publish (recs : List ChangeRecord) : Visits PartitionConsumer Status Unit :=
  .attempt fun consumer =>
    let (applier, eng, status) := consumer.applier.applySnapshotRecordsAtomically
      consumer.engine opts.partitionId applied.appliedOffset applied.appliedVersion recs
    ({ consumer with applier, engine := eng }, status)

/-- `SnapshotLoader::Load` in the state of the source, and the saves. -/
def backfill : Visits PartitionConsumer Status PartitionProgress := do
  let applied : PartitionProgress := ⟨part.highWatermark, part.committedVersion⟩
  setProgress opts inputs part .kBackfilling ⟨0, 0⟩ part.highWatermark false
  let loader ← .ofExcept (SnapshotLoader.verify opts part inputs)
  publish opts applied loader.verifiedRecords
  saveBackfilled opts inputs part applied (loader.snapshotId opts part)
  pure applied

def startFrom : Option PartitionProgress → Visits PartitionConsumer Status PartitionProgress
  | some applied => pure applied
  | none => backfill opts inputs part

def deliver (rec : ChangeRecord) : Visits PartitionConsumer Status Unit :=
  .attempt fun consumer =>
    let (applier, eng, status) := consumer.applier.apply consumer.engine rec
    ({ consumer with applier, engine := eng }, status)

/-- The checkpoint that is written while the consumer catches up names no snapshot. -/
def applyRecord
    (rec : ChangeRecord) : Visits PartitionConsumer Status PartitionProgress := do
  .require (rec.partitionId = opts.partitionId) (.conflict "CDC record partition changed" "")
  .require (rec.partitionEpoch = part.partitionEpoch) (.conflict "CDC record epoch changed" "")
  deliver rec
  let durable ← .read fun consumer => consumer.applier.progress
  if durable.appliedOffset > applied.appliedOffset then do
    saveCheckpoint inputs ⟨opts.partitionId, part.partitionEpoch,
      durable.appliedOffset, durable.appliedVersion, ""⟩
    pure durable
  else pure applied

def applyRecords (part : PartitionState) :
    PartitionProgress → List ChangeRecord → Visits PartitionConsumer Status PartitionProgress
  | applied, [] => pure applied
  | applied, rec :: rest => do
      let next ← applyRecord opts inputs part applied rec
      applyRecords part next rest

def catchUp (part : PartitionState) :
    List (Except Status FetchResponse) → PartitionProgress → Nat → Nat →
      Visits PartitionConsumer Status (PartitionProgress × Nat)
  | [], applied, _, highWatermark => pure (applied, highWatermark)
  | answer :: rest, applied, fetchAfterOffset, highWatermark =>
    if fetchAfterOffset < highWatermark then do
      let response ← .ofExcept answer
      .require (response.partitionId = opts.partitionId)
        (.conflict "CDC response partition changed" "")
      .require (response.partitionEpoch = part.partitionEpoch)
        (.conflict "CDC response epoch changed" "")
      .require (response.records ≠ [])
        (.unavailable "CDC fetch returned no records below high watermark" "")
      .require (fetchAfterOffset < response.nextOffset)
        (.invalidArgument "CDC response did not advance next offset" "")
      let next ← applyRecords opts inputs part applied response.records
      setProgress opts inputs part .kCatchingUp next
        (max highWatermark response.highWatermark) false
      catchUp part rest next response.nextOffset (max highWatermark response.highWatermark)
    else pure (applied, highWatermark)

def saveReady : Visits PartitionConsumer Status Unit :=
  if opts.snapshotStore ∧ applied.appliedOffset > 0 then do
    savePartition opts inputs.saveReady applied
    saveCheckpoint inputs ⟨opts.partitionId, part.partitionEpoch,
      applied.appliedOffset, applied.appliedVersion,
      "tmv-" ++ toString opts.partitionId.toNat ++ "-" ++
        toString applied.appliedVersion.toNat ++ "-" ++ toString applied.appliedOffset⟩
  else pure ()

def setStarting (wasQueryReady : Bool) : Visits PartitionConsumer Status Unit :=
  if wasQueryReady then pure ()
  else setProgress opts inputs part .kStarting ⟨0, 0⟩ part.highWatermark false

def setCatchingUp (wasQueryReady : Bool)
    (applied : PartitionProgress) : Visits PartitionConsumer Status Unit :=
  if !wasQueryReady ∨ applied.appliedOffset < part.highWatermark then
    setProgress opts inputs part .kCatchingUp applied part.highWatermark false
  else pure ()

def runOnce : Visits PartitionConsumer Status Unit := do
  let part ← .ofExcept inputs.getState
  .require (part.partitionEpoch = inputs.partitionEpoch)
    (.conflict "StorageD partition epoch does not match lease" "")
  let wasQueryReady ← .read fun consumer => consumer.progress.queryReady
  setStarting opts inputs part wasQueryReady
  let accepted ← acceptCheckpoint opts inputs part
  let start ← startFrom opts inputs part accepted
  setCatchingUp opts inputs part wasQueryReady start
  let reached ← catchUp opts inputs part inputs.fetches start start.appliedOffset part.highWatermark
  setProgress opts inputs part .kReady reached.1 reached.2 true
  saveReady opts inputs part reached.1

end Calls

variable (opts : ConsumerOptions)

/-- A pass of `WorkerLoop`: only an unavailable source leaves the progress as it is. -/
def workerPass (consumer : PartitionConsumer) (inputs : RunInputs) : PartitionConsumer :=
  match (runOnce opts inputs consumer).2 with
  | (later, .ok ()) => later
  | (later, .error (.unavailable _ _)) => later
  | (later, .error status) =>
    { later with
      progress :=
        { later.progress with
          state := .kFailed
          queryReady := false
          error := status.toString } }

/-- A new process has the files, and nothing else. -/
def restart (ckpt : Option PartitionCheckpoint) (snap : Option TmvSnapshot) : PartitionConsumer :=
  ⟨⟨∅, opts.maxChunks⟩, .initial, .initial, ckpt, snap⟩

/-- What happens to a consumer: a pass of the worker, or a pass that the process ends after
some of its steps. -/
inductive Event where
  | pass (inputs : RunInputs)
  | crash (inputs : RunInputs) (steps : Nat)

def Event.inputs : Event → RunInputs
  | .pass inputs => inputs
  | .crash inputs _ => inputs

def stopped (consumer : PartitionConsumer) (inputs : RunInputs) (steps : Nat) : PartitionConsumer :=
  ((runOnce opts inputs consumer).1.take steps).getLastD consumer

def step (consumer : PartitionConsumer) : Event → PartitionConsumer
  | .pass inputs => consumer.workerPass opts inputs
  | .crash inputs steps =>
    restart opts (consumer.stopped opts inputs steps).checkpoint
      (consumer.stopped opts inputs steps).snapshot

end PartitionConsumer

end CedarGraph
