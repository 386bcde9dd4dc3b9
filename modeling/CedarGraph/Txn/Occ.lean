import CedarGraph.Engine.Lsm
import CedarGraph.Wal.Writer

/-!
# Optimistic transactions

`OCCTransaction` buffers its writes, records its reads and validates both when it commits. The
transactions of a system share one engine, manager and log; every call is one atomic step. The
outcomes of a log write and the clock that `Put` reads are arguments.
-/

namespace CedarGraph

inductive TransactionState where
  | active
  | committed
  | aborted
  deriving DecidableEq, Repr

structure ReadSetEntry where
  entityId : UInt64
  entityType : EntityType
  columnId : UInt16
  readTimestamp : UInt64
  readTxnVersion : UInt64
  deriving DecidableEq, Repr

structure WriteSetEntry where
  entityId : UInt64
  entityType : EntityType
  columnId : UInt16
  descriptor : Descriptor
  key : CedarKey
  userTimestamp : UInt64
  txnVersion : UInt64
  targetId : UInt64
  deriving DecidableEq, Repr

inductive ConflictType where
  | writeWrite
  | readWrite
  deriving DecidableEq, Repr

structure ConflictInfo where
  type : ConflictType
  entityId : UInt64
  entityType : EntityType
  columnId : UInt16
  conflictingTxnId : Nat
  deriving DecidableEq, Repr

structure OCCTransaction where
  txnId : Nat
  readTimestamp : UInt64
  commitTimestamp : UInt64
  state : TransactionState
  readSet : List ReadSetEntry
  writeSet : List WriteSetEntry

def OCCTransaction.fresh : OCCTransaction :=
  ⟨0, 0, 0, .active, [], []⟩

/-- `Cleanup`: the object is active again, in whatever state it was. -/
def OCCTransaction.cleanup (txn : OCCTransaction) : OCCTransaction :=
  { txn with state := .active, readSet := [], writeSet := [] }

/-- The counters and the table of active transactions. -/
structure TransactionManager where
  nextTxnId : Nat
  globalNext : UInt64
  activeTxns : List (Nat × UInt64)

namespace TransactionManager

/-- At construction every shard of the timestamp allocator takes a batch of 1000. -/
def init (shards : UInt32) : TransactionManager :=
  ⟨1, UInt64.ofNat (1 + 1000 * shards.toNat), []⟩

def register (manager : TransactionManager) (txnId : Nat) (start : UInt64) : TransactionManager :=
  { manager with
    activeTxns := manager.activeTxns.filter (fun entry => decide (entry.1 ≠ txnId)) ++
      [(txnId, start)] }

def unregister (manager : TransactionManager) (txnId : Nat) : TransactionManager :=
  { manager with
    activeTxns := manager.activeTxns.filter fun entry => decide (entry.1 ≠ txnId) }

end TransactionManager

/-- `MakeKey`: for a vertex the target is passed in the place of the partition. -/
def makeKey (id : UInt64) (kind : EntityType) (col : UInt16) (ts targetId : UInt64) : CedarKey :=
  match kind with
  | .edgeOut => .edgeOut id targetId col ts 0 0 0
  | .edgeIn => .edgeIn id targetId col ts 0 0 0
  | .vertex => .vertex id col ts 0 (UInt16.ofNat targetId.toNat) 0 0

namespace WriteSetEntry

variable (entry : WriteSetEntry)

def row : Row :=
  ⟨makeKey entry.entityId entry.entityType entry.columnId entry.userTimestamp entry.targetId,
    entry.descriptor, entry.txnVersion⟩

/-- The operation that a commit logs, with the key built by `Put`. -/
def walOp : WalWriteOp :=
  ⟨.put, entry.key, entry.descriptor, entry.txnVersion⟩

/-- An edge version is the same edge only with the same target and timestamp. -/
def matchesWriteKey (ver : Row) : Bool :=
  match entry.entityType with
  | .vertex => true
  | _ => decide (ver.key.targetId ≠ 0 ∧ ver.key.targetId = entry.targetId ∧
      ver.key.timestamp = entry.userTimestamp)

def conflict (txnId : Nat) : ConflictInfo :=
  ⟨.writeWrite, entry.entityId, entry.entityType, entry.columnId, txnId⟩

def isFor (id : UInt64) (kind : EntityType) (col : UInt16) : Bool :=
  decide (entry.entityId = id ∧ entry.entityType = kind ∧ entry.columnId = col)

/-- The entry of a `Put`; a user timestamp of zero stands for the current time `now`. -/
def ofPut (id : UInt64) (kind : EntityType) (col : UInt16)
    (desc : Descriptor) (userTimestamp now targetId : UInt64) : WriteSetEntry :=
  let ts := if 0 < userTimestamp then userTimestamp else now
  ⟨id, kind, col, desc, makeKey id kind col ts targetId, ts, 0, targetId⟩

/-- One entry of `PutBatch`: the first entry of its key takes over the descriptor and the
key, but keeps its timestamp and its target. -/
def overwrite (entry : WriteSetEntry) : List WriteSetEntry → List WriteSetEntry
  | [] => [entry]
  | existing :: rest =>
    if existing.isFor entry.entityId entry.entityType entry.columnId then
      { existing with descriptor := entry.descriptor, key := entry.key } :: rest
    else existing :: overwrite entry rest

/-- Record a write: in place for `PutBatch`, at the end for `Put`. -/
def record (writeSet : List WriteSetEntry) (write : Bool × WriteSetEntry) : List WriteSetEntry :=
  if write.1 then overwrite write.2 writeSet else writeSet ++ [write.2]

end WriteSetEntry

open WriteSetEntry

inductive WriteSetCall where
  | put (entityId : UInt64) (entityType : EntityType) (columnId : UInt16)
      (desc : Descriptor) (userTimestamp now targetId : UInt64)
  | delete (entityId : UInt64) (entityType : EntityType) (columnId : UInt16) (now : UInt64)
  | putBatch (entries : List WriteSetEntry)

/-- The writes of a call, with the mark of those that are recorded in place. -/
def WriteSetCall.writes : WriteSetCall → List (Bool × WriteSetEntry)
  | .put id kind col desc userTimestamp now targetId =>
    [(false, .ofPut id kind col desc userTimestamp now targetId)]
  | .delete id kind col now =>
    [(false, .ofPut id kind col (.tombstone col) 0 now 0)]
  | .putBatch entries => entries.map (Prod.mk true)

variable (opts : LsmOptions) (eng : LsmEngine)

namespace OCCTransaction

/-- Whether the version that was read is still in the chain; the search ends at the
first older transaction version. -/
def readVersionPresent (readTxnVersion : UInt64) : List Row → Bool
  | [] => false
  | ver :: rest =>
    if ver.txnVersion = readTxnVersion then true
    else if ver.txnVersion < readTxnVersion then false
    else readVersionPresent readTxnVersion rest

variable (table : VSLMemTable) (txn : OCCTransaction)

/-- The versions come from the memtable of the transaction or, if it has none, from the
engine. -/
def validateReadEntry (entry : ReadSetEntry) : Bool :=
  if entry.readTxnVersion = uint64Max then true
  else
    match table.getVersionChain entry.entityId entry.entityType entry.columnId with
    | [] =>
      (eng.getAtTime opts entry.entityId entry.entityType entry.columnId txn.readTimestamp).isSome
    | latest :: older =>
      if entry.readTxnVersion < latest.txnVersion then
        if latest.txnVersion ≤ txn.readTimestamp then false
        else readVersionPresent entry.readTxnVersion (latest :: older)
      else true

def readConflicts : List ConflictInfo :=
  (txn.readSet.filter fun entry =>
    !txn.validateReadEntry opts eng table entry).map fun entry =>
      ⟨.readWrite, entry.entityId, entry.entityType, entry.columnId, 0⟩

/-- The read entry of the key that a write entry writes. -/
def readEntryOf (entry : WriteSetEntry) : Option ReadSetEntry :=
  txn.readSet.find? fun readEntry =>
    decide (readEntry.entityId = entry.entityId ∧ readEntry.entityType = entry.entityType ∧
      readEntry.columnId = entry.columnId)

/-- The check of a write entry against the committed versions of its key. -/
def writeWriteConflict (entry : WriteSetEntry) (latest : Row) (chain : List Row) : Bool :=
  match entry.entityType with
  | .vertex =>
    match txn.readEntryOf entry with
    | none => true
    | some readEntry =>
      decide (readEntry.readTxnVersion = uint64Max) ||
        decide (readEntry.readTxnVersion < latest.txnVersion ∧
          latest.txnVersion ≤ txn.readTimestamp)
  | _ => chain.any entry.matchesWriteKey

/-- The check of a write entry against the other active transactions. -/
def activeConflicts (activeTxns : List (Nat × UInt64))
    (entry : WriteSetEntry) (chain : List Row) : List ConflictInfo :=
  (activeTxns.filter fun other =>
    decide (other.1 ≠ txn.txnId) && chain.any fun ver =>
      decide (ver.txnVersion = other.2) && entry.matchesWriteKey ver).map
    fun other => entry.conflict other.1

def writeConflicts (activeTxns : List (Nat × UInt64))
    (txn : OCCTransaction) (entry : WriteSetEntry) : List ConflictInfo :=
  match table.getVersionChain entry.entityId entry.entityType entry.columnId with
  | [] => []
  | latest :: older =>
    if txn.writeWriteConflict entry latest (latest :: older) then [entry.conflict 0]
    else txn.activeConflicts activeTxns entry (latest :: older)

/-- The transaction once `Commit` has allocated its timestamp. -/
def withCommitTimestamp (commitTimestamp : UInt64) : OCCTransaction :=
  { txn with
    commitTimestamp := commitTimestamp
    writeSet := txn.writeSet.map fun entry => { entry with txnVersion := commitTimestamp } }

/-- `Validate`: the conflicts found; the parallel variant finds the same ones. -/
def validate (activeTxns : List (Nat × UInt64)) (txn : OCCTransaction) : List ConflictInfo :=
  txn.readConflicts opts eng table ++ txn.writeSet.flatMap (txn.writeConflicts table activeTxns)

end OCCTransaction

/-- Transactions are named by numbers; `wal` is absent when the log is disabled. -/
structure OccSystem where
  engine : LsmEngine
  manager : TransactionManager
  wal : Option WalWriter
  transactions : Nat → OCCTransaction

/-- The outcome of a log write and the sequence number of its header. -/
structure LogWrite where
  sequence : Nat
  outcomes : GroupOutcomes

def LogWrite.success : LogWrite :=
  ⟨0, .success⟩

namespace OccSystem

/-- An engine with an empty memtable, whatever the layers below hold. -/
def init (shards : UInt32) (wal : Option WalWriter) : OccSystem :=
  ⟨{ eng with mem := .empty }, .init shards, wal, fun _ => .fresh⟩

variable (sys : OccSystem)

def setTransaction (name : Nat) (txn : OCCTransaction) : OccSystem :=
  { sys with transactions := Function.update sys.transactions name txn }

def begin (name : Nat) : OccSystem × Except Status Unit :=
  let txn := sys.transactions name
  if txn.state ≠ .active then
    (sys, .error (.invalidArgument "OCCTransaction" "Transaction already started or finished"))
  else
    let txnId := sys.manager.nextTxnId
    let readTimestamp := sys.manager.globalNext - 1
    ({ sys with
        manager := { sys.manager with nextTxnId := txnId + 1 }.register txnId readTimestamp
      }.setTransaction name
        { txn with txnId := txnId, readTimestamp := readTimestamp }, .ok ())

def get (name : Nat) (id : UInt64) (kind : EntityType) (col : UInt16) :
    OccSystem × Except Status (Descriptor × UInt64) :=
  let txn := sys.transactions name
  let found := fun ver : Row =>
    (sys.setTransaction name
      { txn with
        readSet := txn.readSet ++ [⟨id, kind, col, ver.key.timestamp, ver.txnVersion⟩] },
      Except.ok (ver.descriptor, ver.key.timestamp))
  let visible := fun ver : Row =>
    decide (ver.txnVersion ≤ txn.readTimestamp)
  if txn.state ≠ .active then
    (sys, .error (.invalidArgument "OCCTransaction" "transaction not active"))
  else
    match txn.writeSet.find? fun entry => entry.isFor id kind col with
    | some entry => (sys, .ok (entry.descriptor, txn.readTimestamp))
    | none =>
      match (sys.engine.mem.getVersionChain id kind col).find? visible with
      | some ver => found ver
      | none =>
        match (sys.engine.getAll opts id kind col).find? visible with
        | some ver => found ver
        | none => (sys, .error (.notFound "OCCTransaction" "no valid version found"))

def put (name : Nat) (id : UInt64) (kind : EntityType)
    (col : UInt16) (desc : Descriptor) (userTimestamp now targetId : UInt64) :
    OccSystem × Except Status Unit :=
  let txn := sys.transactions name
  if txn.state ≠ .active then
    (sys, .error (.invalidArgument "OCCTransaction" "transaction not active"))
  else
    (sys.setTransaction name
      { txn with
        writeSet := txn.writeSet ++ [ofPut id kind col desc userTimestamp now targetId] }, .ok ())

def putBatch (name : Nat) (entries : List WriteSetEntry) : OccSystem × Except Status Unit :=
  let txn := sys.transactions name
  if txn.state ≠ .active then
    (sys, .error (.invalidArgument "OCCTransaction" "transaction not active"))
  else
    (sys.setTransaction name
      { txn with
        writeSet := entries.foldl (fun writeSet entry => overwrite entry writeSet)
          txn.writeSet }, .ok ())

def write (name : Nat) : WriteSetCall → OccSystem × Except Status Unit
  | .put id kind col desc userTimestamp now targetId =>
    sys.put name id kind col desc userTimestamp now targetId
  | .delete id kind col now =>
    sys.put name id kind col (.tombstone col) 0 now 0
  | .putBatch entries => sys.putBatch name entries

/-- A transaction that leaves the table of active ones in its final state. -/
def finish (name : Nat) (txn : OCCTransaction) (state : TransactionState) : OccSystem :=
  { sys with manager := sys.manager.unregister txn.txnId }.setTransaction name
    { txn with state := state }

/-- A log write of one batch; nothing is written when the log is disabled or the
batch is empty. -/
def writeLog (walOpts : WalOptions) (wal : Option WalWriter) (batch : WalBatch)
    (write : LogWrite) : Option WalWriter × Except Status Unit :=
  match wal with
  | none => (none, .ok ())
  | some writer =>
    if batch.isEmpty then (some writer, .ok ())
    else if writer.currentFile.isNone then
      (some writer, .error (.ioError "WalWriter" "not opened"))
    else
      let written := writer.processGroupCommit walOpts write.outcomes [⟨write.sequence, batch⟩]
      (some written.1, written.2)

/-- The end of `Commit`: the log write and, if it succeeds, the memtable writes. -/
def writeCommit (walOpts : WalOptions) (sys : OccSystem) (name : Nat) (txn : OCCTransaction)
    (write : LogWrite) : OccSystem × Except Status Unit :=
  match writeLog walOpts sys.wal (txn.writeSet.map WriteSetEntry.walOp) write with
  | (wal, .error status) => ({ sys with wal := wal }.finish name txn .aborted, .error status)
  | (wal, .ok ()) =>
    let mem := (txn.writeSet.map WriteSetEntry.row).foldl VSLMemTable.put sys.engine.mem
    ({ sys with wal := wal, engine := { sys.engine with mem := mem } }.finish name txn
      .committed, .ok ())

def commit (walOpts : WalOptions) (sys : OccSystem)
    (name : Nat) (write : LogWrite) : OccSystem × Except Status Unit :=
  let txn := sys.transactions name
  if txn.state ≠ .active then
    (sys, .error (.invalidArgument "OCCTransaction" "Transaction not in active state"))
  else if txn.writeSet.isEmpty then
    (sys.finish name txn .committed, .ok ())
  else
    let commitTimestamp := sys.manager.globalNext
    let allocated := { sys with
      manager := { sys.manager with globalNext := commitTimestamp + 1 } }
    let validating := txn.withCommitTimestamp commitTimestamp
    if !(validating.validate opts sys.engine sys.engine.mem sys.manager.activeTxns).isEmpty then
      (allocated.finish name validating .aborted,
        .error (.conflict "OCCTransaction" "validation failed"))
    else allocated.writeCommit walOpts name validating write

/-- The batch of `WriteAbort`: a put of the default key. -/
def abortBatch (commitTimestamp : UInt64) : WalBatch :=
  [⟨.put, .default, .tombstone 0, commitTimestamp⟩]

/-- `Abort`: a failed log write is only reported, and `Cleanup` makes the object
active again. -/
def abort (walOpts : WalOptions) (sys : OccSystem) (name : Nat) (write : LogWrite) :
    OccSystem × Except Status Unit :=
  let txn := sys.transactions name
  match txn.state with
  | .committed =>
    (sys, .error (.invalidArgument "OCCTransaction" "Cannot abort committed transaction"))
  | .aborted => (sys, .ok ())
  | .active =>
    let wal := (writeLog walOpts sys.wal (abortBatch txn.commitTimestamp) write).1
    ({ sys with wal := wal }.finish name txn.cleanup .active, .ok ())

inductive Operation where
  | begin (name : Nat)
  | get (name : Nat) (entityId : UInt64) (entityType : EntityType) (columnId : UInt16)
  | write (name : Nat) (call : WriteSetCall)
  | commit (name : Nat) (write : LogWrite)
  | abort (name : Nat) (write : LogWrite)

section Frame

variable {sys : OccSystem} {name : Nat}

theorem setTransaction_self (sys : OccSystem) (name : Nat) :
    sys.setTransaction name (sys.transactions name) = sys := by
  rw [setTransaction, Function.update_eq_self]

theorem get_frame (opts : LsmOptions) (active : (sys.transactions name).state = .active)
    (id : UInt64) (kind : EntityType) (col : UInt16) :
    ∃ readSet, (sys.get opts name id kind col).1 =
      sys.setTransaction name { sys.transactions name with readSet := readSet } := by
  have unchanged : sys = sys.setTransaction name
      { sys.transactions name with readSet := (sys.transactions name).readSet } :=
    (setTransaction_self sys name).symm
  have isActive : ¬ (sys.transactions name).state ≠ .active := not_not_intro active
  rw [get]
  dsimp only
  rw [if_neg isActive]
  split
  · exact ⟨_, unchanged⟩
  · split
    · exact ⟨_, rfl⟩
    · split
      · exact ⟨_, rfl⟩
      · exact ⟨_, unchanged⟩

theorem write_of_active (active : (sys.transactions name).state = .active) (call : WriteSetCall) :
    sys.write name call =
      (sys.setTransaction name
        { sys.transactions name with
          writeSet := call.writes.foldl record (sys.transactions name).writeSet }, .ok ()) := by
  cases call with
  | putBatch entries =>
    simp [write, putBatch, active, WriteSetCall.writes, List.foldl_map, record]
  | _ => simp [write, put, active, WriteSetCall.writes, record]

theorem write_of_not_active
    (inactive : (sys.transactions name).state ≠ .active) (call : WriteSetCall) :
    sys.write name call =
      (sys, .error (.invalidArgument "OCCTransaction" "transaction not active")) := by
  cases call with
  | putBatch entries => rw [write, putBatch, if_pos inactive]
  | _ => rw [write, put, if_pos inactive]

theorem unchanged_of_not_active (opts : LsmOptions) (walOpts : WalOptions)
    (inactive : (sys.transactions name).state ≠ .active) :
    (sys.begin name).1 = sys ∧ (∀ id kind col, (sys.get opts name id kind col).1 = sys) ∧
    (∀ call, (sys.write name call).1 = sys) ∧
    (∀ write, (sys.commit opts walOpts name write).1 = sys) ∧
    (∀ write, (sys.abort walOpts name write).1 = sys) := by
  refine ⟨?_, ?_, ?_, ?_, ?_⟩
  · rw [begin]
    dsimp only
    rw [if_pos inactive]
  · intro id kind col
    rw [get]
    dsimp only
    rw [if_pos inactive]
  · intro call
    rw [write_of_not_active inactive]
  · intro write
    rw [commit]
    dsimp only
    rw [if_pos inactive]
  · intro write
    rw [abort]
    dsimp only
    split
    · rfl
    · rfl
    · rename_i active
      exact absurd active inactive

def validating (sys : OccSystem) (name : Nat) : OCCTransaction :=
  (sys.transactions name).withCommitTimestamp sys.manager.globalNext

theorem commit_cases (opts : LsmOptions) (walOpts : WalOptions)
    (active : (sys.transactions name).state = .active) (write : LogWrite) :
    let allocated := { sys.manager with globalNext := sys.manager.globalNext + 1 }
    let logged := writeLog walOpts sys.wal
      ((sys.validating name).writeSet.map WriteSetEntry.walOp) write
    ((sys.transactions name).writeSet = [] ∧
      sys.commit opts walOpts name write =
        (sys.finish name (sys.transactions name) .committed, .ok ())) ∨
    (sys.commit opts walOpts name write =
      (OccSystem.finish { sys with manager := allocated } name (sys.validating name) .aborted,
        .error (.conflict "OCCTransaction" "validation failed"))) ∨
    ((sys.transactions name).writeSet ≠ [] ∧ ∃ status, logged.2 = .error status ∧
      sys.commit opts walOpts name write =
        (OccSystem.finish { sys with manager := allocated, wal := logged.1 } name
          (sys.validating name) .aborted, .error status)) ∨
    ((sys.transactions name).writeSet ≠ [] ∧ logged.2 = .ok () ∧
      (sys.validating name).validate opts sys.engine sys.engine.mem sys.manager.activeTxns = [] ∧
      sys.commit opts walOpts name write =
        (OccSystem.finish
          { sys with
            manager := allocated
            wal := logged.1
            engine := { sys.engine with
              mem := ((sys.validating name).writeSet.map WriteSetEntry.row).foldl
                VSLMemTable.put sys.engine.mem } } name
          (sys.validating name) .committed, .ok ())) := by
  have isActive : ¬ (sys.transactions name).state ≠ .active := not_not_intro active
  intro allocated logged
  rw [commit]
  dsimp only
  rw [if_neg isActive]
  by_cases nothing : (sys.transactions name).writeSet.isEmpty = true
  · left
    rw [if_pos nothing]
    exact ⟨List.isEmpty_iff.mp nothing, rfl⟩
  · right
    rw [if_neg nothing]
    have someWrites : (sys.transactions name).writeSet ≠ [] := by
      intro empty
      exact nothing (List.isEmpty_iff.mpr empty)
    split
    · left
      rfl
    · rename_i valid
      have noConflict : (sys.validating name).validate opts sys.engine sys.engine.mem
          sys.manager.activeTxns = [] := by
        simpa [validating] using valid
      right
      rw [writeCommit]
      split
      · rename_i wal status logResult
        have res : logged = (wal, .error status) := logResult
        left
        refine ⟨someWrites, status, congrArg Prod.snd res, ?_⟩
        rw [res]
        rfl
      · rename_i wal logResult
        have res : logged = (wal, .ok ()) := logResult
        right
        refine ⟨someWrites, congrArg Prod.snd res, noConflict, ?_⟩
        rw [res]
        rfl

end Frame

end OccSystem

end CedarGraph
