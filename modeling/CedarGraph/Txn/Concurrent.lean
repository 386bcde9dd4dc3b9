import CedarGraph.Txn.Occ

/-!
# Transactions whose steps interleave

A transaction keeps a pointer to the memtable that was active when it began, so memtables are
objects named by numbers; a dropped one keeps its last rows. The steps are the critical sections
of the source. A commit is cut at its log and memtable writes, a flush at each lock it takes;
only the listing of a new file with the two engines is one step. The commit locks exclude runs
in which two commits of one entity overlap.
-/

namespace CedarGraph

open Function Relation OccSystem

inductive CommitStage where
  | validated
  | logged
  deriving DecidableEq, Repr

/-- A transaction object with the memtable it writes to. -/
structure Client where
  transaction : OCCTransaction
  memtable : Nat
  stage : Option CommitStage

/-- No call on the transaction is running and it was not finished. -/
def Client.running (client : Client) : Bool :=
  client.stage.isNone && decide (client.transaction.state = .active)

/-- The commit of the transaction has come to the given stage. -/
def Client.reached (client : Client) (stage : CommitStage) : Bool :=
  decide (client.stage = some stage) && decide (client.transaction.state = .active)

/-- What a flush thread does next: collect the rows of its table, take the full buffer away,
or write rows to a file.  Attempts count from 1. -/
inductive FlushStage where
  | collect (attempt : Nat)
  | takeBuffer (attempt : Nat)
  | writeFile (attempt : Nat) (rows : List Row)
  | done (succeeded : Bool)
  deriving DecidableEq

/-- A thread that flushes a table; `leftover` marks the flush of a left-over table at the
start of `ForceFlush`. -/
structure FlushTask where
  object : Nat
  leftover : Bool
  stage : FlushStage
  deriving DecidableEq

/-- The engine; the memtables of `storage` are not used, those of the engine are the
tables `memObject` and `immObject`. -/
structure ConcurrentEngine where
  storage : LsmEngine
  tables : Nat → VSLMemTable
  memObject : Nat
  immObject : Option Nat
  nextObject : Nat
  flushes : List FlushTask
  manager : TransactionManager
  wal : Option WalWriter
  clients : Nat → Option Client

namespace LsmEngine

/-- Each of the rows meets a condition in the engine with the rows before it put. -/
def EachPut (arrives : LsmEngine → Row → Prop) (engine : LsmEngine) : List Row → Prop
  | [] => True
  | row :: rest =>
    arrives engine row ∧ EachPut arrives { engine with mem := engine.mem.put row } rest

/-- One critical section of `FlushMemTableWithRetry`; `written` is the outcome of a file
write. -/
def flushSection (opts : LsmOptions) (engine : LsmEngine) (table : VSLMemTable)
    (written : Bool) : FlushStage → LsmEngine × FlushStage
  | .collect attempt =>
    if table.isEmpty then (engine, .done true)
    else if opts.enableAccumulatedFlush then
      let collected := engine.accumulate table.traverse
      (collected,
        if opts.accumulatedFlushBytes ≤ collected.accumulatedBytes then .takeBuffer attempt
        else .done true)
    else (engine, .writeFile attempt table.traverse)
  | .takeBuffer attempt =>
    if engine.accumulatedEntries.isEmpty then (engine, .done true)
    else
      -- rows of earlier tables are now in no layer until the file is listed
      ({ engine with accumulatedEntries := [], accumulatedBytes := 0 },
        .writeFile attempt engine.accumulatedEntries)
  | .writeFile attempt rows =>
    let filter := temporalFilterOf rows
    if written then
      (if opts.enableAccumulatedFlush then engine.installFile opts rows none filter
        else engine.installFile opts rows filter none, .done true)
    else
      ({ engine with nextFileNumber := engine.nextFileNumber + 1 },
        if attempt < 3 then .collect (attempt + 1) else .done false)
  | .done succeeded => (engine, .done succeeded)

section Sections

variable (opts : LsmOptions) (table : VSLMemTable)

/-- A flush thread that no other step interrupts goes on by one section. -/
def NextSection (state next : LsmEngine × FlushStage) : Prop :=
  ∃ written, state.1.flushSection opts table written state.2 = next

theorem flushMemTable_sections (engine : LsmEngine) (attempt : Nat) (written : Bool) :
    let flushed := engine.flushMemTable opts table written
    ReflTransGen (NextSection opts table) (engine, .collect attempt)
      (flushed.1, if flushed.2 then .done true
        else if attempt < 3 then .collect (attempt + 1) else .done false) := by
  by_cases empty : table.isEmpty = true
  · refine .single ⟨written, ?_⟩
    simp [flushSection, flushMemTable, empty]
  have someRows : table.traverse.isEmpty = false := by
    simpa [VSLMemTable.traverse, VSLMemTable.isEmpty] using empty
  by_cases accumulating : opts.enableAccumulatedFlush = true
  · refine .head ⟨written, rfl⟩ ?_
    by_cases full : opts.accumulatedFlushBytes ≤ (engine.accumulate table.traverse).accumulatedBytes
    · have buffered : (engine.accumulate table.traverse).accumulatedEntries.isEmpty = false := by
        rw [List.isEmpty_eq_false_iff] at someRows ⊢
        exact List.append_ne_nil_of_right_ne_nil _ someRows
      refine .head ⟨written, rfl⟩ (.single ⟨written, ?_⟩)
      cases written <;> simp [flushSection, flushMemTable, flushAccumulated, empty, accumulating,
        full, buffered]
    · simp [flushSection, flushMemTable, empty, accumulating, full, ReflTransGen.refl]
  · refine .head ⟨written, rfl⟩ (.single ⟨written, ?_⟩)
    cases written <;> simp [flushSection, flushMemTable, flushEntriesToSST, empty, accumulating,
      someRows]

/-- An uninterrupted flush thread does what the call `FlushMemTableWithRetry` does. -/
theorem flushMemTableWithRetry_sections (engine : LsmEngine) (written : Nat → Bool) :
    let flushed := engine.flushMemTableWithRetry opts table written
    ReflTransGen (NextSection opts table) (engine, .collect 1) (flushed.1, .done flushed.2) := by
  have attempt := flushMemTable_sections opts table
  rw [flushMemTableWithRetry]
  rcases first : engine.flushMemTable opts table (written 1) with ⟨once, succeeded⟩
  have firstRun := attempt engine 1 (written 1)
  rw [first] at firstRun
  cases succeeded with
  | true => exact firstRun
  | false =>
    rcases second : once.flushMemTable opts table (written 2) with ⟨twice, succeeded⟩
    have secondRun := attempt once 2 (written 2)
    rw [second] at secondRun
    dsimp only
    cases succeeded with
    | true => exact firstRun.trans secondRun
    | false =>
      have thirdRun := attempt twice 3 (written 3)
      rcases third : twice.flushMemTable opts table (written 3) with ⟨thrice, succeeded⟩
      rw [third] at thirdRun
      cases succeeded with
      | true => exact firstRun.trans (secondRun.trans thirdRun)
      | false => exact firstRun.trans (secondRun.trans thirdRun)

end Sections

end LsmEngine

namespace ConcurrentEngine

variable (sys : ConcurrentEngine) (opts : LsmOptions) (name : Nat)

def start (engine : LsmEngine) (shards : UInt32) (wal : Option WalWriter) : ConcurrentEngine :=
  { storage := engine
    tables := fun object => if object = 0 then engine.mem else engine.imm.getD .empty
    memObject := 0
    immObject := engine.imm.map fun _ => 1
    nextObject := 2
    flushes := []
    manager := .init shards
    wal := wal
    clients := fun _ => none }

def engine : LsmEngine :=
  { sys.storage with
    mem := sys.tables sys.memObject
    imm := sys.immObject.map sys.tables }

def setClient (client : Client) : ConcurrentEngine :=
  { sys with clients := update sys.clients name (some client) }

theorem clients_setClient (client : Client) :
    (sys.setClient name client).clients name = some client :=
  update_self _ _ _

def begin : ConcurrentEngine :=
  match sys.clients name with
  | some _ => sys
  | none =>
    let txnId := sys.manager.nextTxnId
    let readTimestamp := sys.manager.globalNext - 1
    { sys with
      manager := { sys.manager with nextTxnId := txnId + 1 }.register txnId readTimestamp
    }.setClient name
      ⟨{ OCCTransaction.fresh with txnId := txnId, readTimestamp := readTimestamp },
        sys.memObject, none⟩

def findVisible (sys : ConcurrentEngine) (client : Client)
    (id : UInt64) (kind : EntityType) (col : UInt16) : Option Row :=
  let visible := fun ver : Row =>
    decide (ver.txnVersion ≤ client.transaction.readTimestamp)
  (((sys.tables client.memtable).getVersionChain id kind col).find? visible).or
    ((sys.engine.getAll opts id kind col).find? visible)

def read (sys : ConcurrentEngine) (client : Client)
    (id : UInt64) (kind : EntityType) (col : UInt16) : Except Status (Descriptor × UInt64) :=
  if !client.running then
    .error (.invalidArgument "OCCTransaction" "transaction not active")
  else
    match client.transaction.writeSet.find? fun entry => entry.isFor id kind col with
    | some entry => .ok (entry.descriptor, client.transaction.readTimestamp)
    | none =>
      match sys.findVisible opts client id kind col with
      | some ver => .ok (ver.descriptor, ver.key.timestamp)
      | none => .error (.notFound "OCCTransaction" "no valid version found")

/-- The transaction after `Get`: what is found outside the write set is recorded. -/
def recordRead (sys : ConcurrentEngine) (client : Client)
    (id : UInt64) (kind : EntityType) (col : UInt16) : OCCTransaction :=
  let transaction := client.transaction
  if transaction.writeSet.any fun entry => entry.isFor id kind col then transaction
  else
    match sys.findVisible opts client id kind col with
    | some ver =>
      { transaction with
        readSet := transaction.readSet ++ [⟨id, kind, col, ver.key.timestamp, ver.txnVersion⟩] }
    | none => transaction

/-- Apply a step to a client that is running; otherwise nothing happens. -/
def onRunning (step : Client → ConcurrentEngine) : ConcurrentEngine :=
  match sys.clients name with
  | none => sys
  | some client => if client.running then step client else sys

def get (sys : ConcurrentEngine) (name : Nat) (id : UInt64)
    (kind : EntityType) (col : UInt16) : ConcurrentEngine :=
  sys.onRunning name fun client =>
    sys.setClient name
      { client with
        transaction := sys.recordRead opts client id kind col }

def put (call : WriteSetCall) : ConcurrentEngine :=
  sys.onRunning name fun client =>
    sys.setClient name
      { client with
        transaction := { client.transaction with
          writeSet := call.writes.foldl WriteSetEntry.record client.transaction.writeSet } }

/-- The client leaves the table of active transactions in its final state. -/
def finish (client : Client) (state : TransactionState) : ConcurrentEngine :=
  { sys with
    manager := sys.manager.unregister client.transaction.txnId }.setClient name
    ⟨{ client.transaction with state := state }, client.memtable, none⟩

def startCommit (sys : ConcurrentEngine) (name : Nat) : ConcurrentEngine :=
  sys.onRunning name fun client =>
    if client.transaction.writeSet.isEmpty then sys.finish name client .committed
    else
      let commitTimestamp := sys.manager.globalNext
      let allocated := { sys with
        manager := { sys.manager with globalNext := commitTimestamp + 1 } }
      let validating : Client :=
        { client with transaction := client.transaction.withCommitTimestamp commitTimestamp }
      if (validating.transaction.validate opts sys.engine (sys.tables client.memtable)
          sys.manager.activeTxns).isEmpty then
        allocated.setClient name { validating with stage := some .validated }
      else allocated.finish name validating .aborted

def writeToWAL (walOpts : WalOptions) (sys : ConcurrentEngine) (name : Nat)
    (write : LogWrite) : ConcurrentEngine :=
  match sys.clients name with
  | none => sys
  | some client =>
    if client.reached .validated then
      match OccSystem.writeLog walOpts sys.wal
          (client.transaction.writeSet.map WriteSetEntry.walOp) write with
      | (wal, .error _) => { sys with wal := wal }.finish name client .aborted
      | (wal, .ok ()) =>
        { sys with wal := wal }.setClient name { client with stage := some .logged }
    else sys

/-- `WriteToMemTable` and the end of `Commit`, which returns OK. -/
def writeToMemTable : ConcurrentEngine :=
  match sys.clients name with
  | none => sys
  | some client =>
    if client.reached .logged then
      { sys with
        tables := update sys.tables client.memtable
          ((client.transaction.writeSet.map WriteSetEntry.row).foldl VSLMemTable.put
            (sys.tables client.memtable)) }.finish name client .committed
    else sys

/-- `Abort`, which leaves the object active and without reads and writes. -/
def abort (walOpts : WalOptions) (sys : ConcurrentEngine) (name : Nat)
    (write : LogWrite) : ConcurrentEngine :=
  sys.onRunning name fun client =>
    let wal := (OccSystem.writeLog walOpts sys.wal
      (OccSystem.abortBatch client.transaction.commitTimestamp) write).1
    { sys with wal := wal }.finish name
      { client with transaction := client.transaction.cleanup } .active

def write (row : Row) : ConcurrentEngine :=
  { sys with
    tables := update sys.tables sys.memObject ((sys.tables sys.memObject).put row) }

/-- The active memtable becomes the immutable one and its flush starts. -/
def rotate : ConcurrentEngine :=
  { sys with
    tables := update sys.tables sys.nextObject .empty
    memObject := sys.nextObject
    immObject := some sys.memObject
    nextObject := sys.nextObject + 1
    flushes := sys.flushes ++ [⟨sys.memObject, false, .collect 1⟩] }

def maybeScheduleFlush (lockFree : Bool) : ConcurrentEngine :=
  if lockFree && !sys.immObject.isSome && !(sys.tables sys.memObject).isEmpty then
    sys.rotate
  else sys

/-- `ForceFlush` once it has the lock: a left-over table is flushed first. -/
def forceFlush : ConcurrentEngine :=
  match sys.immObject with
  | some object => { sys with flushes := sys.flushes ++ [⟨object, true, .collect 1⟩] }
  | none => if (sys.tables sys.memObject).isEmpty then sys else sys.rotate

/-- A flush thread goes on by one section. -/
def flushTable (sys : ConcurrentEngine) (pos : Nat) (written : Bool) : ConcurrentEngine :=
  match sys.flushes[pos]? with
  | none => sys
  | some task =>
    let next := sys.storage.flushSection opts (sys.tables task.object) written task.stage
    { sys with
      storage := next.1
      flushes := sys.flushes.set pos { task with stage := next.2 } }

/-- A thread whose rows are written drops the immutable memtable, whichever it is;
`ForceFlush` goes on to the active one after a left-over table. -/
def completeFlush (pos : Nat) : ConcurrentEngine :=
  match sys.flushes[pos]? with
  | some ⟨_, leftover, .done true⟩ =>
    let dropped := { sys with
      immObject := none, flushes := sys.flushes.eraseIdx pos }
    if leftover && !(sys.tables sys.memObject).isEmpty then dropped.rotate else dropped
  | some ⟨_, _, .done false⟩ => { sys with flushes := sys.flushes.eraseIdx pos }
  | _ => sys

inductive Operation where
  | begin (name : Nat)
  | get (name : Nat) (entityId : UInt64) (entityType : EntityType) (columnId : UInt16)
  | put (name : Nat) (call : WriteSetCall)
  | startCommit (name : Nat)
  | writeToWAL (name : Nat) (write : LogWrite)
  | writeToMemTable (name : Nat)
  | abort (name : Nat) (write : LogWrite)
  | write (row : Row)
  | maybeScheduleFlush (lockFree : Bool)
  | forceFlush
  | flushTable (pos : Nat) (written : Bool)
  | completeFlush (pos : Nat)

def step (walOpts : WalOptions) (sys : ConcurrentEngine) : Operation → ConcurrentEngine
  | .begin name => sys.begin name
  | .get name id kind col => sys.get opts name id kind col
  | .put name call => sys.put name call
  | .startCommit name => sys.startCommit opts name
  | .writeToWAL name write => sys.writeToWAL walOpts name write
  | .writeToMemTable name => sys.writeToMemTable name
  | .abort name write => sys.abort walOpts name write
  | .write row => sys.write row
  | .maybeScheduleFlush lockFree => sys.maybeScheduleFlush lockFree
  | .forceFlush => sys.forceFlush
  | .flushTable pos written => sys.flushTable opts pos written
  | .completeFlush pos => sys.completeFlush pos

section Writes

variable {sys : ConcurrentEngine}

theorem engine_update (apart : ∀ object ∈ sys.immObject, object ≠ sys.memObject)
    (table : VSLMemTable) :
    { sys with tables := update sys.tables sys.memObject table }.engine =
      { sys.engine with mem := table } := by
  have sameImm : sys.immObject.map (update sys.tables sys.memObject table) =
      sys.immObject.map sys.tables := by
    apply Option.map_congr
    intro object isImm
    exact update_of_ne (apart object isImm) _ _
  rw [engine]
  dsimp only
  rw [update_self, sameImm]
  rfl

theorem engine_write (apart : ∀ object ∈ sys.immObject, object ≠ sys.memObject) (row : Row) :
    (sys.write row).engine = { sys.engine with mem := sys.engine.mem.put row } :=
  engine_update apart _

theorem foldl_write (rows : List Row) (sys : ConcurrentEngine) :
    rows.foldl ConcurrentEngine.write sys =
      { sys with
        tables := update sys.tables sys.memObject
          (rows.foldl VSLMemTable.put (sys.tables sys.memObject)) } := by
  induction rows generalizing sys with
  | nil => rw [List.foldl_nil, List.foldl_nil, update_eq_self]
  | cons row rest ih =>
    rw [List.foldl_cons, ih, write]
    dsimp only
    rw [update_self, update_idem]
    rfl

end Writes

/-- The storage, the tables and the flush threads are left alone. -/
structure SameTables (sys after : ConcurrentEngine) : Prop where
  storage : after.storage = sys.storage
  tables : after.tables = sys.tables
  memObject : after.memObject = sys.memObject
  immObject : after.immObject = sys.immObject
  nextObject : after.nextObject = sys.nextObject
  flushes : after.flushes = sys.flushes

/-- How a step of the named transaction changes the clients and the counter: not at
all, a new client if the step begins one, a client that goes on, or one that draws its
commit timestamp. -/
inductive Progress (sys after : ConcurrentEngine) (name : Nat) (begins : Prop) : Prop
  | same
      (clients : after.clients = sys.clients)
      (counter : after.manager.globalNext = sys.manager.globalNext)
  | began (client : Client)
      (begins : begins)
      (fresh : sys.clients name = none)
      (clients : after.clients = update sys.clients name (some client))
      (counter : after.manager.globalNext = sys.manager.globalNext)
      (memtable : client.memtable = sys.memObject)
      (readTimestamp : client.transaction.readTimestamp = sys.manager.globalNext - 1)
      (idle : client.stage = none)
  | moved (old client : Client)
      (was : sys.clients name = some old)
      (clients : after.clients = update sys.clients name (some client))
      (counter : after.manager.globalNext = sys.manager.globalNext)
      (memtable : client.memtable = old.memtable)
      (readTimestamp : client.transaction.readTimestamp = old.transaction.readTimestamp)
      (staged : client.stage = none ∨
        old.stage ≠ none ∧ client.transaction.writeSet = old.transaction.writeSet)
  | drew (old client : Client)
      (was : sys.clients name = some old)
      (clients : after.clients = update sys.clients name (some client))
      (counter : after.manager.globalNext = sys.manager.globalNext + 1)
      (memtable : client.memtable = old.memtable)
      (readTimestamp : client.transaction.readTimestamp = old.transaction.readTimestamp)
      (stamped : ∀ entry ∈ client.transaction.writeSet, entry.txnVersion = sys.manager.globalNext)

/-- A step of one transaction that leaves the tables alone.  If it commits, the
transaction wrote nothing. -/
structure ClientStep (sys after : ConcurrentEngine) (name : Nat) (begins : Prop) : Prop
    extends SameTables sys after where
  progress : sys.Progress after name begins
  committed : ∀ client, after.clients name = some client →
    client.transaction.state = .committed →
      sys.clients name = some client ∨ client.transaction.writeSet = []

/-- The transaction of a step that leaves the tables alone. -/
def Operation.client : Operation → Option Nat
  | .begin name | .get name _ _ _ | .put name _ | .startCommit name | .writeToWAL name _
  | .abort name _ => some name
  | _ => none

section Frame

variable {sys : ConcurrentEngine} {name : Nat}

theorem SameTables.engine {after : ConcurrentEngine} (same : sys.SameTables after) :
    after.engine = sys.engine := by
  rw [ConcurrentEngine.engine, ConcurrentEngine.engine, same.storage, same.tables,
    same.memObject, same.immObject]

/-- A commit whose transaction holds the active memtable writes its rows there. -/
theorem writeToMemTable_cases
    (holdsMem : ∀ client, sys.clients name = some client → client.reached .logged = true →
      client.memtable = sys.memObject) :
    sys.writeToMemTable name = sys ∨
      ∃ client, sys.clients name = some client ∧ client.reached .logged = true ∧
        ((client.transaction.writeSet.map WriteSetEntry.row).foldl ConcurrentEngine.write
          sys).SameTables (sys.writeToMemTable name) := by
  rw [writeToMemTable]
  split
  · exact Or.inl rfl
  · rename_i client isClient
    split
    · rename_i logged
      refine Or.inr ⟨client, isClient, logged, ?_⟩
      rw [foldl_write, holdsMem client isClient logged]
      exact ⟨rfl, rfl, rfl, rfl, rfl, rfl⟩
    · exact Or.inl rfl

theorem Progress.others {after : ConcurrentEngine} {begins : Prop} {other : Nat}
    (progress : sys.Progress after name begins) (ne : other ≠ name) :
    after.clients other = sys.clients other := by
  cases progress with
  | same clients => rw [clients]
  | began client _ fresh clients => rw [clients, update_of_ne ne]
  | moved old client was clients => rw [clients, update_of_ne ne]
  | drew old client was clients => rw [clients, update_of_ne ne]

theorem clientStep_self (sys : ConcurrentEngine) (name : Nat) (begins : Prop) :
    sys.ClientStep sys name begins :=
  ⟨⟨rfl, rfl, rfl, rfl, rfl, rfl⟩, .same rfl rfl, fun _ same _ => Or.inl same⟩

theorem clientStep_setClient {manager : TransactionManager} {wal : Option WalWriter}
    {client : Client} {begins : Prop}
    (progress : sys.Progress ({ sys with manager := manager, wal := wal }.setClient name client)
      name begins)
    (committed : client.transaction.state = .committed → client.transaction.writeSet = []) :
    sys.ClientStep ({ sys with manager := manager, wal := wal }.setClient name client) name
      begins := by
  refine ⟨⟨rfl, rfl, rfl, rfl, rfl, rfl⟩, progress, ?_⟩
  intro after isAfter isCommitted
  rw [clients_setClient] at isAfter
  injection isAfter with same
  rw [← same] at isCommitted ⊢
  exact Or.inr (committed isCommitted)

theorem clientStep_onRunning {change : Client → ConcurrentEngine} {begins : Prop}
    (changes : ∀ client, sys.clients name = some client → client.stage = none →
      client.transaction.state = .active → sys.ClientStep (change client) name begins) :
    sys.ClientStep (sys.onRunning name change) name begins := by
  rw [onRunning]
  split
  · exact clientStep_self sys name begins
  · rename_i client isClient
    split
    · rename_i running
      rw [Client.running, Bool.and_eq_true, Option.isNone_iff_eq_none, decide_eq_true_eq] at running
      exact changes client isClient running.1 running.2
    · exact clientStep_self sys name begins

theorem clientStep_step (sys : ConcurrentEngine) (opts : LsmOptions) (walOpts : WalOptions)
    {op : Operation} (named : op.client = some name) :
    sys.ClientStep (sys.step opts walOpts op) name (op = .begin name) := by
  have active : ∀ {state : TransactionState} {writeSet : List WriteSetEntry},
      state = .active → state = .committed → writeSet = [] := by
    rintro _ _ rfl committed
    cases committed
  cases op with
  | begin other =>
    obtain rfl := Option.some.inj named
    rw [step, begin]
    split
    · exact clientStep_self sys other _
    · rename_i fresh
      exact clientStep_setClient (.began _ rfl fresh rfl rfl rfl rfl rfl) (fun _ => rfl)
  | get other id kind col =>
    obtain rfl := Option.some.inj named
    refine clientStep_onRunning ?_
    intro client isClient idle isActive
    have recorded : ∃ readSet, sys.recordRead opts client id kind col =
        { client.transaction with readSet := readSet } := by
      rw [recordRead]
      split
      · exact ⟨_, rfl⟩
      · split
        · exact ⟨_, rfl⟩
        · exact ⟨_, rfl⟩
    obtain ⟨readSet, recorded⟩ := recorded
    rw [recorded]
    exact clientStep_setClient (.moved client _ isClient rfl rfl rfl rfl (Or.inl idle))
      (active isActive)
  | put other call =>
    obtain rfl := Option.some.inj named
    refine clientStep_onRunning ?_
    intro client isClient idle isActive
    exact clientStep_setClient (.moved client _ isClient rfl rfl rfl rfl (Or.inl idle))
      (active isActive)
  | startCommit other =>
    obtain rfl := Option.some.inj named
    refine clientStep_onRunning ?_
    intro client isClient idle isActive
    have stamped : ∀ entry ∈ (client.transaction.withCommitTimestamp
        sys.manager.globalNext).writeSet, entry.txnVersion = sys.manager.globalNext := by
      intro entry member
      obtain ⟨source, -, rfl⟩ := List.mem_map.mp member
      rfl
    split
    · rename_i nothing
      exact clientStep_setClient (.moved client _ isClient rfl rfl rfl rfl (Or.inl rfl))
        (fun _ => List.isEmpty_iff.mp nothing)
    · dsimp only
      split
      · exact clientStep_setClient (.drew client _ isClient rfl rfl rfl rfl stamped)
          (active isActive)
      · exact clientStep_setClient (.drew client _ isClient rfl rfl rfl rfl stamped) nofun
  | writeToWAL other write =>
    obtain rfl := Option.some.inj named
    rw [step, writeToWAL]
    split
    · exact clientStep_self sys other _
    rename_i client isClient
    split
    · rename_i validated
      rw [Client.reached, Bool.and_eq_true, decide_eq_true_eq, decide_eq_true_eq] at validated
      have staged : client.stage ≠ none := by
        rw [validated.1]
        simp
      split
      · exact clientStep_setClient (.moved client _ isClient rfl rfl rfl rfl (Or.inl rfl)) nofun
      · exact clientStep_setClient
          (.moved client _ isClient rfl rfl rfl rfl (Or.inr ⟨staged, rfl⟩)) (active validated.2)
    · exact clientStep_self sys other _
  | abort other write =>
    obtain rfl := Option.some.inj named
    refine clientStep_onRunning ?_
    intro client isClient _ _
    exact clientStep_setClient (.moved client _ isClient rfl rfl rfl rfl (Or.inl rfl)) nofun
  | _ => cases named

end Frame

section Alone

/-- The engine without interleaving.  A transaction that holds the active memtable and is not
interrupted acts on it as in `OccSystem`. -/
def occ : OccSystem :=
  ⟨sys.engine, sys.manager, sys.wal, fun name => (sys.clients name).elim .fresh Client.transaction⟩

theorem occ_setClient (client : Client) :
    (sys.setClient name client).occ = sys.occ.setTransaction name client.transaction := by
  rw [occ, occ, setTransaction]
  congr 1
  funext other
  by_cases same : other = name
  · simp [same, setClient]
  · simp [same, setClient]

variable {sys name} {client : Client}

theorem occ_begin (absent : sys.clients name = none) :
    (sys.begin name).occ = (sys.occ.begin name).1 := by
  rw [begin, absent]
  dsimp only
  rw [occ_setClient]
  simp [OccSystem.begin, occ, absent, OCCTransaction.fresh, engine]

theorem occ_finish (ended : Client) (state : TransactionState) :
    ((sys.finish name ended state).writeToMemTable name).occ =
      sys.occ.finish name ended.transaction state := by
  rw [writeToMemTable]
  simp only [finish, clients_setClient, Client.reached]
  exact occ_setClient _ name _

/-- The last two sections of a commit. -/
theorem occ_writeToWAL (isClient : sys.clients name = some client)
    (validated : client.reached .validated = true) (holdsMem : client.memtable = sys.memObject)
    (apart : ∀ object ∈ sys.immObject, object ≠ sys.memObject)
    (walOpts : WalOptions) (write : LogWrite) :
    ((sys.writeToWAL walOpts name write).writeToMemTable name).occ =
      (sys.occ.writeCommit walOpts name client.transaction write).1 := by
  have active : client.transaction.state = .active := by
    rw [Client.reached, Bool.and_eq_true, decide_eq_true_eq, decide_eq_true_eq] at validated
    exact validated.2
  rw [writeToWAL, isClient, writeCommit, show sys.occ.wal = sys.wal from rfl]
  dsimp only
  rw [if_pos validated]
  rcases writeLog walOpts sys.wal
    (client.transaction.writeSet.map WriteSetEntry.walOp) write with ⟨wal, status | _⟩
  · exact occ_finish client .aborted
  · have sameEngine := engine_update apart
      ((client.transaction.writeSet.map WriteSetEntry.row).foldl VSLMemTable.put sys.engine.mem)
    dsimp only
    rw [writeToMemTable, clients_setClient]
    simp only [Client.reached, active, decide_true, Bool.and_self, if_true, holdsMem]
    refine (occ_setClient _ name _).trans ?_
    refine (congrArg (setTransaction · name _)
      (occ_setClient { sys with tables := _, manager := _, wal := wal } name _)).trans ?_
    rw [setTransaction, setTransaction, update_idem]
    exact congrArg (fun engine => OccSystem.finish ⟨engine, sys.manager, wal,
      sys.occ.transactions⟩ name client.transaction .committed) sameEngine

variable (isClient : sys.clients name = some client) (running : client.running = true)

include isClient running

theorem transactions_occ :
    sys.occ.transactions name = client.transaction ∧
      (sys.occ.transactions name).state = .active := by
  rw [Client.running, Bool.and_eq_true, decide_eq_true_eq] at running
  simp [occ, isClient, running.2]

theorem occ_put (call : WriteSetCall) :
    (sys.put name call).occ = (sys.occ.write name call).1 := by
  obtain ⟨same, active⟩ := transactions_occ isClient running
  rw [put, onRunning, isClient]
  dsimp only
  rw [if_pos running, occ_setClient, write_of_active active, same]

theorem occ_abort (walOpts : WalOptions) (write : LogWrite) :
    (sys.abort walOpts name write).occ = (sys.occ.abort walOpts name write).1 := by
  obtain ⟨same, active⟩ := transactions_occ isClient running
  rw [abort, onRunning, isClient, OccSystem.abort, active, same]
  dsimp only
  rw [if_pos running]
  exact occ_setClient _ name _

variable (holdsMem : client.memtable = sys.memObject)

include holdsMem

theorem occ_get (id : UInt64) (kind : EntityType) (col : UInt16) :
    (sys.get opts name id kind col).occ = (sys.occ.get opts name id kind col).1 := by
  obtain ⟨same, active⟩ := transactions_occ isClient running
  have unchanged : sys.occ.setTransaction name client.transaction = sys.occ := by
    rw [← same, setTransaction_self]
  rw [get, onRunning, isClient]
  dsimp only
  rw [if_pos running, occ_setClient, recordRead, findVisible, holdsMem, OccSystem.get]
  dsimp only
  rw [if_neg (not_not_intro active), same, ← List.isSome_find?]
  cases client.transaction.writeSet.find? fun entry => entry.isFor id kind col with
  | some entry => exact unchanged
  | none =>
    rw [show sys.tables sys.memObject = sys.occ.engine.mem from rfl,
      show sys.engine = sys.occ.engine from rfl]
    cases (sys.occ.engine.mem.getVersionChain id kind col).find? _ with
    | some ver => rfl
    | none =>
      cases (sys.occ.engine.getAll opts id kind col).find? _ with
      | some ver => rfl
      | none => exact unchanged

/-- The sections of a commit in a row. -/
theorem occ_commit (apart : ∀ object ∈ sys.immObject, object ≠ sys.memObject)
    (walOpts : WalOptions) (write : LogWrite) :
    (((sys.startCommit opts name).writeToWAL walOpts name write).writeToMemTable name).occ =
      (sys.occ.commit opts walOpts name write).1 := by
  obtain ⟨same, active⟩ := transactions_occ isClient running
  have notLogged : ∀ (before : ConcurrentEngine) (ended : Client) (state : TransactionState),
      (before.finish name ended state).writeToWAL walOpts name write =
        before.finish name ended state := by
    intro before ended state
    simp [writeToWAL, finish, clients_setClient, Client.reached]
  have resumed : ∀ (before : OccSystem) {held : OCCTransaction},
      (before.setTransaction name held).writeCommit walOpts name held write =
        before.writeCommit walOpts name held write := by
    intro before held
    simp only [OccSystem.writeCommit, OccSystem.finish, OccSystem.setTransaction, update_idem]
  rw [startCommit, onRunning, isClient, OccSystem.commit]
  dsimp only
  rw [if_pos running, if_neg (not_not_intro active), same, holdsMem,
    show sys.tables sys.memObject = sys.occ.engine.mem from rfl,
    show sys.engine = sys.occ.engine from rfl, show sys.manager = sys.occ.manager from rfl]
  split
  · rw [notLogged, occ_finish]
  have stillActive : (client.transaction.withCommitTimestamp
      sys.occ.manager.globalNext).state = .active := same ▸ active
  generalize client.transaction.withCommitTimestamp sys.occ.manager.globalNext = validating
    at stillActive ⊢
  cases (validating.validate opts sys.occ.engine sys.occ.engine.mem
      sys.occ.manager.activeTxns).isEmpty with
  | false =>
    rw [if_neg Bool.false_ne_true, notLogged, occ_finish]
    rfl
  | true =>
    have held := clients_setClient { sys with manager :=
      { sys.occ.manager with globalNext := sys.occ.manager.globalNext + 1 } } name
      ⟨validating, sys.memObject, some .validated⟩
    rw [if_pos rfl, occ_writeToWAL held (by simp [Client.reached, stillActive]) rfl apart,
      occ_setClient]
    exact congrArg Prod.fst (resumed _)

end Alone

end ConcurrentEngine

end CedarGraph
