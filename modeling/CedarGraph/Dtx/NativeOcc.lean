import CedarGraph.Dtx.Engine
import CedarGraph.Dtx.Twcd

/-!
# Local commits with temporal windows

`LocalTransactionCoordinator` registers the window when a transaction begins and the write set
when it validates, and takes both out at its end. The steps of `Commit` between which other
transactions can run have definitions of their own.
-/

namespace CedarGraph

/-- `DistributedTxnContext`; of the items of the read and the write set the commit looks at
the keys. -/
structure DistributedTxnContext where
  txnId : TxnId
  startTimestamp : UInt64
  temporalWindow : TemporalWindow
  readSet : List CedarKey
  writeSet : List CedarKey
  state : DistributedTxnState
  commitTimestamp : UInt64
  deriving DecidableEq, Repr

/-- A transaction together with the conflict detection that the coordinators share. -/
structure OccSession where
  engine : TwcdEngine
  ctx : DistributedTxnContext

namespace OccSession

variable (sess : OccSession)

def setState (state : DistributedTxnState) : OccSession :=
  { sess with ctx := { sess.ctx with state } }

def beginTransaction (nextTxnId now : UInt64) (sess : OccSession) :
    Except Status Unit × OccSession :=
  let ctx := { sess.ctx with
    txnId := if sess.ctx.txnId = 0 then nextTxnId else sess.ctx.txnId
    startTimestamp :=
      if sess.ctx.startTimestamp = 0 then now else sess.ctx.startTimestamp }
  match sess.engine.registerWindow ctx.txnId ctx.temporalWindow with
  | .error status => (.error status, { sess with ctx })
  | .ok eng => (.ok (), ({ engine := eng, ctx } : OccSession).setState .started)

def registerWrites : Except Status OccSession :=
  if sess.ctx.writeSet = [] then .ok sess
  else
    (sess.engine.registerWriteSet sess.ctx.txnId sess.ctx.writeSet).map
      fun eng => { sess with engine := eng }

def checkConflicts : Except Status Unit :=
  match sess.engine.checkConflict sess.ctx.txnId sess.ctx.temporalWindow
      sess.ctx.readSet sess.ctx.writeSet with
  | .noConflict => .ok ()
  | res => .error (.ioError "Validate" ("Conflict detected: " ++ toString res.type))

def validate : Except Status Unit × OccSession :=
  match (sess.setState .preparing).registerWrites with
  | .error status => (.error status, sess.setState .preparing)
  | .ok registered => (registered.checkConflicts, registered)

/-- The end of `Commit` and of `Abort`, which differ in the state they set. -/
def finish (state : DistributedTxnState) : OccSession :=
  ({ sess with engine := sess.engine.unregister sess.ctx.txnId } : OccSession).setState state

def abort : OccSession :=
  (sess.setState .aborting).finish .aborted

/-- What a commit meets outside: the clock, and what `WriteBatch` and `Sync` of the log
return, or success where there is no log. -/
structure Surroundings where
  now : UInt64
  wal : Except Status Unit

/-- The rows of a commit.  They all have the default descriptor, which is a tombstone. -/
def writeRows (ctx : DistributedTxnContext) (now : UInt64) : List Row :=
  ctx.writeSet.map fun key => ⟨key, Descriptor.default, now⟩

def writeMemtable (now : UInt64) (memtable : VSLMemTable) : VSLMemTable :=
  (writeRows sess.ctx now).foldl VSLMemTable.put memtable

def setCommitting (now : UInt64) : OccSession :=
  ({ sess with ctx := { sess.ctx with commitTimestamp := now } } : OccSession).setState .committing

def commit (around : Surroundings) (memtable : VSLMemTable) (sess : OccSession) :
    Except Status UInt64 × VSLMemTable × OccSession :=
  match sess.validate with
  | (.error status, validated) => (.error status, memtable, validated.abort)
  | (.ok (), validated) =>
    let committing := validated.setCommitting around.now
    match around.wal with
    | .error status => (.error status, memtable, committing.abort)
    | .ok () =>
      (.ok around.now, committing.writeMemtable around.now memtable, committing.finish .committed)

theorem beginTransaction_ok {nextTxnId now : UInt64} {sess started : OccSession}
    (ok : sess.beginTransaction nextTxnId now = (.ok (), started)) :
    sess.engine.registerWindow started.ctx.txnId sess.ctx.temporalWindow = .ok started.engine ∧
      started.ctx.temporalWindow = sess.ctx.temporalWindow ∧
      started.ctx.writeSet = sess.ctx.writeSet := by
  rw [beginTransaction] at ok
  dsimp only at ok
  split at ok
  · cases (Prod.mk.inj ok).1
  · rename_i registered
    rw [← (Prod.mk.inj ok).2]
    exact ⟨registered, rfl, rfl⟩

theorem beginTransaction_error
    {nextTxnId now : UInt64} {sess refused : OccSession} {status : Status}
    (error : sess.beginTransaction nextTxnId now = (.error status, refused)) :
    refused.engine = sess.engine := by
  rw [beginTransaction] at error
  dsimp only at error
  split at error
  · rw [← (Prod.mk.inj error).2]
  · cases (Prod.mk.inj error).1

theorem registerWrites_ok
    {sess registered : OccSession} (ok : sess.registerWrites = .ok registered) :
    registered.ctx = sess.ctx ∧
      ((sess.ctx.writeSet = [] ∧ registered.engine = sess.engine) ∨
        sess.engine.registerWriteSet sess.ctx.txnId sess.ctx.writeSet = .ok registered.engine) := by
  rw [registerWrites] at ok
  split at ok
  · rename_i nothing
    rw [← Except.ok.inj ok]
    exact ⟨rfl, Or.inl ⟨nothing, rfl⟩⟩
  · cases written : sess.engine.registerWriteSet sess.ctx.txnId sess.ctx.writeSet with
    | error status =>
      rw [written] at ok
      cases ok
    | ok eng =>
      rw [written] at ok
      rw [← Except.ok.inj ok]
      exact ⟨rfl, Or.inr rfl⟩

theorem checkConflicts_ok {sess : OccSession} (ok : sess.checkConflicts = .ok ()) :
    sess.engine.checkConflict sess.ctx.txnId sess.ctx.temporalWindow
      sess.ctx.readSet sess.ctx.writeSet = .noConflict := by
  rw [checkConflicts] at ok
  split at ok
  · assumption
  · cases ok

end OccSession

end CedarGraph
