import CedarGraph.Dtx.NativeOcc

/-!
# Commits of several partitions in one temporal range

`SameTemporalRangeCommit` validates on every participant and then commits on each. At its end
the commit of a participant takes the transaction out of the shared conflict detection, so the
next one refuses, when the first memtable has already been written.
-/

namespace CedarGraph

open Function List TwcdEngine

open OccSession

/-- A participant, with what its commit meets outside. -/
structure SameRangeCall where
  partitionId : UInt16
  around : Surroundings

/-- The memtables of the coordinators, and the states that a `TransactionStateManager` keeps
where there is one. -/
structure LndOccEngine where
  coordinators : UInt16 → Option VSLMemTable
  stateManager : Option (TxnId → Option TxnState)

namespace LndOccEngine

variable (eng : LndOccEngine)

/-- `CreateTransaction`, with what the write to the state log returns. -/
def createTransaction (txnId : TxnId) (persisted : Except Status Unit) :
    Except Status LndOccEngine :=
  match eng.stateManager with
  | none => .ok eng
  | some transactions =>
    if (transactions txnId).isSome then
      .error (.invalidArgument "TransactionStateManager" "Transaction already exists")
    else
      persisted.map fun _ =>
        { eng with
          stateManager := some (update transactions txnId (some .active)) }

/-- `UpdateState`; the callers do not look at its result. -/
def updateState (txnId : TxnId) (state : TxnState) : LndOccEngine :=
  { eng with
    stateManager := eng.stateManager.map fun transactions =>
      update transactions txnId ((transactions txnId).map fun _ => state) }

@[simp] theorem coordinators_updateState (txnId : TxnId) (state : TxnState) :
    (eng.updateState txnId state).coordinators = eng.coordinators :=
  rfl

/-- The first phase: whether all participants are prepared, and the statuses up to the first
failure. -/
def prepareAll (coordinators : UInt16 → Option VSLMemTable) :
    List SameRangeCall → OccSession → Bool × List (UInt16 × Except Status Unit) × OccSession
  | [], sess => (true, [], sess)
  | call :: rest, sess =>
    match coordinators call.partitionId with
    | none => (false, [], sess)
    | some _ =>
      match sess.validate with
      | (.error status, validated) => (false, [(call.partitionId, .error status)], validated)
      | (.ok (), validated) =>
        let (all, results, last) := prepareAll coordinators rest validated
        (all, (call.partitionId, .ok ()) :: results, last)

def abortPrepared (coordinators : UInt16 → Option VSLMemTable)
    (results : List (UInt16 × Except Status Unit)) (sess : OccSession) : OccSession :=
  results.foldl
    (fun sess res =>
      match res.2, coordinators res.1 with
      | .ok (), some _ => sess.abort
      | _, _ => sess)
    sess

/-- The second phase, with the result so far. -/
def commitAll : List SameRangeCall → (UInt16 → Option VSLMemTable) → OccSession →
    Except Status UInt64 → (UInt16 → Option VSLMemTable) × OccSession × Except Status UInt64
  | [], coordinators, sess, overall => (coordinators, sess, overall)
  | call :: rest, coordinators, sess, overall =>
    match coordinators call.partitionId with
    | none => commitAll rest coordinators sess overall
    | some memtable =>
      let (res, written, finished) := sess.commit call.around memtable
      commitAll rest (update coordinators call.partitionId (some written)) finished
        (match res with
          | .ok _ => overall
          | .error status => .error status)

def commitPrepared (calls : List SameRangeCall) (sess : OccSession) :
    Except Status UInt64 × LndOccEngine × OccSession :=
  let (coordinators, finished, overall) :=
    commitAll calls eng.coordinators sess (.ok sess.ctx.commitTimestamp)
  let state := match overall with
    | .ok _ => TxnState.committed
    | .error _ => TxnState.committing
  (overall, ({ eng with coordinators } : LndOccEngine).updateState sess.ctx.txnId state, finished)

def sameTemporalRangeCommit (calls : List SameRangeCall)
    (persisted : Except Status Unit) (sess : OccSession) :
    Except Status UInt64 × LndOccEngine × OccSession :=
  if calls = [] then
    (.error (.invalidArgument "SameTemporalRangeCommit" "No participants"), eng, sess)
  else
    match eng.createTransaction sess.ctx.txnId persisted with
    | .error status => (.error status, eng, sess)
    | .ok created =>
      let preparing := created.updateState sess.ctx.txnId .preparing
      match prepareAll eng.coordinators calls sess with
      | (false, results, prepared) =>
        (.error (.ioError "SameTemporalRangeCommit" "Prepare phase failed"),
          preparing.updateState sess.ctx.txnId .aborted,
          abortPrepared eng.coordinators results prepared)
      | (true, _, prepared) =>
        (preparing.updateState sess.ctx.txnId .committing).commitPrepared calls prepared

def containsKey (pid : UInt16) (key : CedarKey) : Prop :=
  ∃ memtable, eng.coordinators pid = some memtable ∧ ∃ node ∈ memtable.nodes, node.row.key = key

/-- Every participant has all keys and the result is success, or the call has written to no
participant. -/
def Atomic (calls : List SameRangeCall) (persisted : Except Status Unit)
    (sess : OccSession) : Prop :=
  ((∃ ts, (eng.sameTemporalRangeCommit calls persisted sess).1 = .ok ts) ∧
    ∀ call ∈ calls, ∀ key ∈ sess.ctx.writeSet,
      (eng.sameTemporalRangeCommit calls persisted sess).2.1.containsKey call.partitionId key) ∨
  ∀ call ∈ calls,
    (eng.sameTemporalRangeCommit calls persisted sess).2.1.coordinators call.partitionId =
      eng.coordinators call.partitionId

end LndOccEngine

namespace OccSession

def Ready (sess : OccSession) : Prop :=
  (sess.ctx.writeSet = [] ∨ (sess.engine.activeTxns sess.ctx.txnId).isSome) ∧
    sess.engine.checkConflict sess.ctx.txnId sess.ctx.temporalWindow
      sess.ctx.readSet sess.ctx.writeSet = .noConflict

instance (sess : OccSession) : Decidable sess.Ready :=
  inferInstanceAs (Decidable (_ ∧ _))

/-- The transaction has keys to write and is not registered. -/
def Unregistered (sess : OccSession) : Prop :=
  sess.ctx.writeSet ≠ [] ∧ sess.engine.activeTxns sess.ctx.txnId = none

variable {sess : OccSession}

theorem Unregistered.not_ready (unregistered : sess.Unregistered) : ¬ sess.Ready := by
  rintro ⟨nothing | isSome, _⟩
  · exact unregistered.1 nothing
  · rw [unregistered.2] at isSome
    cases isSome

theorem checkConflicts_eq_ok_iff (sess : OccSession) :
    sess.checkConflicts = .ok () ↔
      sess.engine.checkConflict sess.ctx.txnId sess.ctx.temporalWindow
        sess.ctx.readSet sess.ctx.writeSet = .noConflict := by
  constructor
  · exact checkConflicts_ok
  · intro free
    rw [checkConflicts, free]

theorem ready_of_registerWrites
    {sess registered : OccSession} (ok : sess.registerWrites = .ok registered) :
    registered.Ready ↔ sess.Ready := by
  obtain ⟨ctx, added⟩ := registerWrites_ok ok
  rw [Ready, Ready, ctx]
  rcases added with ⟨nothing, eng⟩ | written
  · rw [eng]
  · rw [checkConflict_of_registerWriteSet written]
    obtain ⟨entry, isActive, isEngine⟩ := registerWriteSet_eq_ok written
    have stillActive : (registered.engine.activeTxns sess.ctx.txnId).isSome := by
      rw [isEngine]
      simp
    rw [isActive]
    simp [stillActive]

theorem unregistered_of_registerWrites
    {status : Status} (error : sess.registerWrites = .error status) : sess.Unregistered := by
  rw [registerWrites] at error
  split at error
  · cases error
  · rename_i something
    refine ⟨something, ?_⟩
    cases active : sess.engine.activeTxns sess.ctx.txnId with
    | none => rfl
    | some entry =>
      simp only [registerWriteSet, active, Except.map] at error
      cases error

theorem validate_of_ready (ready : sess.Ready) :
    ∃ validated, sess.validate = (.ok (), validated) ∧ validated.Ready ∧
      validated.ctx = (sess.setState .preparing).ctx := by
  have preparing : (sess.setState .preparing).Ready := ready
  cases writes : (sess.setState .preparing).registerWrites with
  | error status => exact absurd preparing (unregistered_of_registerWrites writes).not_ready
  | ok registered =>
    have stillReady := (ready_of_registerWrites writes).mpr preparing
    have free := (checkConflicts_eq_ok_iff registered).mpr stillReady.2
    refine ⟨registered, ?_, stillReady, (registerWrites_ok writes).1⟩
    rw [validate, writes]
    exact congrArg (·, registered) free

theorem validate_of_not_ready (notReady : ¬ sess.Ready) :
    ∃ status validated, sess.validate = (.error status, validated) ∧
      validated.ctx = (sess.setState .preparing).ctx := by
  have notPreparing : ¬ (sess.setState .preparing).Ready := notReady
  cases writes : (sess.setState .preparing).registerWrites with
  | error status =>
    refine ⟨status, sess.setState .preparing, ?_, rfl⟩
    rw [validate, writes]
  | ok registered =>
    obtain ⟨ctx, added⟩ := registerWrites_ok writes
    have notRegistered : ¬ registered.Ready :=
      fun ready => notPreparing ((ready_of_registerWrites writes).mp ready)
    cases checks : registered.checkConflicts with
    | error status =>
      refine ⟨status, registered, ?_, ctx⟩
      rw [validate, writes]
      exact congrArg (·, registered) checks
    | ok nothing =>
      have free := (checkConflicts_eq_ok_iff registered).mp checks
      refine absurd ⟨?_, free⟩ notRegistered
      rw [ctx]
      rcases added with ⟨nothing, _⟩ | written
      · exact Or.inl nothing
      · obtain ⟨entry, _, isEngine⟩ := registerWriteSet_eq_ok written
        rw [isEngine]
        simp [setState]

/-- A session at the end of a commit or an abort of another one. -/
structure FinishOf (sess finished : OccSession) : Prop where
  writeSet : finished.ctx.writeSet = sess.ctx.writeSet
  gone : finished.engine.activeTxns finished.ctx.txnId = none

theorem FinishOf.unregistered {sess finished : OccSession} (isFinish : FinishOf sess finished)
    (something : sess.ctx.writeSet ≠ []) : finished.Unregistered := by
  refine ⟨?_, isFinish.gone⟩
  rw [isFinish.writeSet]
  exact something

theorem finishOf_finish {sess last : OccSession} (same : last.ctx.writeSet = sess.ctx.writeSet)
    (state : DistributedTxnState) : FinishOf sess (last.finish state) := by
  refine ⟨same, ?_⟩
  rw [finish, setState, activeTxns_unregister]
  exact update_self _ _ _

theorem commit_refused {around : Surroundings}
    (refused : ¬ sess.Ready ∨ ∃ status, around.wal = .error status) (memtable : VSLMemTable) :
    ∃ status finished, sess.commit around memtable = (.error status, memtable, finished) ∧
      FinishOf sess finished := by
  rw [commit]
  by_cases ready : sess.Ready
  · obtain ⟨validated, accepted, _, ctx⟩ := validate_of_ready ready
    have same : validated.ctx.writeSet = sess.ctx.writeSet := by
      rw [ctx]
      rfl
    obtain ⟨status, failed⟩ := refused.resolve_left (not_not_intro ready)
    simp only [accepted, failed]
    refine ⟨status, _, rfl, finishOf_finish ?_ _⟩
    exact same
  · obtain ⟨status, validated, rejected, ctx⟩ := validate_of_not_ready ready
    have same : validated.ctx.writeSet = sess.ctx.writeSet := by
      rw [ctx]
      rfl
    simp only [rejected]
    refine ⟨status, _, rfl, finishOf_finish ?_ _⟩
    exact same

theorem commit_written {around : Surroundings} (ready : sess.Ready)
    (logged : around.wal = .ok ()) (memtable : VSLMemTable) :
    ∃ finished, sess.commit around memtable =
        (.ok around.now, sess.writeMemtable around.now memtable, finished) ∧
      FinishOf sess finished := by
  obtain ⟨validated, accepted, _, ctx⟩ := validate_of_ready ready
  have same : (validated.setCommitting around.now).ctx.writeSet = sess.ctx.writeSet := by
    rw [setCommitting, setState, ctx]
    rfl
  refine ⟨(validated.setCommitting around.now).finish .committed, ?_, finishOf_finish same _⟩
  have rows : writeRows (validated.setCommitting around.now).ctx around.now =
      writeRows sess.ctx around.now :=
    congrArg (map fun key => (⟨key, Descriptor.default, around.now⟩ : Row)) same
  simp only [commit, accepted, logged, writeMemtable, rows]

end OccSession

namespace LndOccEngine

variable {sess : OccSession} {calls : List SameRangeCall}
    {coordinators : UInt16 → Option VSLMemTable} {persisted : Except Status Unit}

theorem commitAll_of_unregistered (unregistered : sess.Unregistered)
    (coordinators : UInt16 → Option VSLMemTable) (calls : List SameRangeCall)
    (overall : Except Status UInt64) :
    (commitAll calls coordinators sess overall).1 = coordinators ∧
      (((∃ status, overall = .error status) ∨ ∃ call ∈ calls,
        (coordinators call.partitionId).isSome) →
        ∃ status, (commitAll calls coordinators sess overall).2.2 = .error status) := by
  induction calls generalizing sess overall with
  | nil =>
    refine ⟨rfl, ?_⟩
    rintro (failed | ⟨_, mem, _⟩)
    · exact failed
    · exact absurd mem not_mem_nil
  | cons call rest ih =>
    rw [commitAll]
    cases found : coordinators call.partitionId with
    | none =>
      obtain ⟨same, fails⟩ := ih unregistered overall
      refine ⟨same, fun reason => fails (reason.imp id ?_)⟩
      rintro ⟨other, mem, isSome⟩
      rcases mem_cons.mp mem with isCall | inRest
      · rw [isCall, found] at isSome
        cases isSome
      · exact ⟨other, inRest, isSome⟩
    | some memtable =>
      have notReady : ¬ sess.Ready ∨ ∃ status, call.around.wal = .error status :=
        Or.inl unregistered.not_ready
      obtain ⟨status, finished, refused, isFinish⟩ := commit_refused notReady memtable
      have unchanged : update coordinators call.partitionId (some memtable) = coordinators := by
        rw [← found, update_eq_self]
      simp only [refused, unchanged]
      obtain ⟨same, fails⟩ :=
        ih (isFinish.unregistered unregistered.1) (.error status)
      exact ⟨same, fun _ => fails (Or.inl ⟨status, rfl⟩)⟩

theorem commitAll_of_nothing (nothing : sess.ctx.writeSet = [])
    (coordinators : UInt16 → Option VSLMemTable) (calls : List SameRangeCall)
    (overall : Except Status UInt64) :
    (commitAll calls coordinators sess overall).1 = coordinators := by
  induction calls generalizing sess overall with
  | nil => rfl
  | cons call rest ih =>
    rw [commitAll]
    cases found : coordinators call.partitionId with
    | none => exact ih nothing overall
    | some memtable =>
      have unchanged : update coordinators call.partitionId (some memtable) = coordinators := by
        rw [← found, update_eq_self]
      have same : ∃ res finished,
          sess.commit call.around memtable = (res, memtable, finished) ∧
            FinishOf sess finished := by
        by_cases written : sess.Ready ∧ call.around.wal = .ok ()
        · obtain ⟨finished, committed, isFinish⟩ :=
            commit_written written.1 written.2 memtable
          refine ⟨.ok call.around.now, finished, committed.trans ?_, isFinish⟩
          rw [writeMemtable, writeRows, nothing]
          rfl
        · have refused : ¬ sess.Ready ∨ ∃ status, call.around.wal = .error status := by
            cases logged : call.around.wal with
            | error status => exact Or.inr ⟨status, rfl⟩
            | ok done => exact Or.inl fun ready => written ⟨ready, logged⟩
          obtain ⟨status, finished, rejected, isFinish⟩ := commit_refused refused memtable
          exact ⟨_, finished, rejected, isFinish⟩
      obtain ⟨res, finished, committed, isFinish⟩ := same
      simp only [committed, unchanged]
      exact ih (isFinish.writeSet.trans nothing) _

theorem prepareAll_of_ready
    (exist : ∀ call ∈ calls, (coordinators call.partitionId).isSome) (ready : sess.Ready) :
    ∃ results prepared, prepareAll coordinators calls sess = (true, results, prepared) ∧
      prepared.Ready ∧ prepared.ctx.writeSet = sess.ctx.writeSet := by
  induction calls generalizing sess with
  | nil => exact ⟨[], sess, rfl, ready, rfl⟩
  | cons call rest ih =>
    rw [forall_mem_cons] at exist
    obtain ⟨memtable, found⟩ := Option.isSome_iff_exists.mp exist.1
    obtain ⟨validated, accepted, stillReady, ctx⟩ := validate_of_ready ready
    obtain ⟨results, prepared, all, preparedReady, writeSet⟩ :=
      ih exist.2 stillReady
    refine ⟨(call.partitionId, .ok ()) :: results, prepared, ?_, preparedReady, ?_⟩
    · rw [prepareAll]
      simp only [found, accepted, all]
    · rw [writeSet, ctx]
      rfl

theorem prepareAll_of_not_ready (coordinators : UInt16 → Option VSLMemTable)
    (some_call : calls ≠ []) (notReady : ¬ sess.Ready) :
    ∃ results prepared, prepareAll coordinators calls sess = (false, results, prepared) := by
  cases calls with
  | nil => exact absurd rfl some_call
  | cons call rest =>
    obtain ⟨status, validated, rejected, _⟩ := validate_of_not_ready notReady
    rw [prepareAll]
    cases found : coordinators call.partitionId with
    | none => exact ⟨_, _, rfl⟩
    | some memtable =>
      simp only [rejected]
      exact ⟨_, _, rfl⟩

theorem length_writeMemtable (sess : OccSession) (now : UInt64) (memtable : VSLMemTable) :
    (sess.writeMemtable now memtable).nodes.length =
      memtable.nodes.length + sess.ctx.writeSet.length := by
  have rows := (VSLMemTable.foldl_put_perm (writeRows sess.ctx now) memtable).length_eq
  rw [length_append, length_map, length_map] at rows
  rw [writeMemtable, rows, writeRows, length_map]

theorem mem_writeMemtable {key : CedarKey} (written : key ∈ sess.ctx.writeSet) (now : UInt64)
    (memtable : VSLMemTable) :
    ∃ node ∈ (sess.writeMemtable now memtable).nodes, node.row.key = key := by
  have rows := VSLMemTable.foldl_put_perm (writeRows sess.ctx now) memtable
  have isRow : (⟨key, Descriptor.default, now⟩ : Row) ∈
      (sess.writeMemtable now memtable).nodes.map LFNode.row := by
    apply rows.mem_iff.mpr
    exact mem_append_right _ (mem_map.mpr ⟨key, written, rfl⟩)
  obtain ⟨node, mem, isNode⟩ := mem_map.mp isRow
  exact ⟨node, mem, congrArg Row.key isNode⟩

/-- The call gets to the second phase: the transaction is new to the state manager, it is
registered if it has keys to write, and it meets no conflict. -/
def Prepares (eng : LndOccEngine) (persisted : Except Status Unit) (sess : OccSession) : Prop :=
  (∃ created, eng.createTransaction sess.ctx.txnId persisted = .ok created) ∧ sess.Ready

theorem createTransaction_coordinators {eng created : LndOccEngine} {txnId : TxnId}
    (ok : eng.createTransaction txnId persisted = .ok created) :
    created.coordinators = eng.coordinators := by
  rw [createTransaction] at ok
  split at ok
  · rw [← Except.ok.inj ok]
  · split at ok
    · cases ok
    · cases done : persisted with
      | error status =>
        rw [done] at ok
        cases ok
      | ok nothing =>
        rw [done] at ok
        rw [← Except.ok.inj ok]

theorem coordinators_of_not_prepares
    {eng : LndOccEngine} (notPrepares : ¬ eng.Prepares persisted sess) :
    (eng.sameTemporalRangeCommit calls persisted sess).2.1.coordinators = eng.coordinators := by
  rw [sameTemporalRangeCommit]
  split
  · rfl
  · rename_i some_call
    cases creates : eng.createTransaction sess.ctx.txnId persisted with
    | error status => rfl
    | ok created =>
      have notReady : ¬ sess.Ready := fun ready => notPrepares ⟨⟨created, creates⟩, ready⟩
      obtain ⟨results, prepared, failed⟩ :=
        prepareAll_of_not_ready eng.coordinators some_call notReady
      have same := createTransaction_coordinators creates
      simp only [failed]
      exact same

theorem sameTemporalRangeCommit_of_prepares {eng : LndOccEngine} (some_call : calls ≠ [])
    (exist : ∀ call ∈ calls, (eng.coordinators call.partitionId).isSome)
    (prepares : eng.Prepares persisted sess) :
    ∃ prepared : OccSession, prepared.Ready ∧ prepared.ctx.writeSet = sess.ctx.writeSet ∧
      (eng.sameTemporalRangeCommit calls persisted sess).1 =
        (commitAll calls eng.coordinators prepared (.ok prepared.ctx.commitTimestamp)).2.2 ∧
      (eng.sameTemporalRangeCommit calls persisted sess).2.1.coordinators =
        (commitAll calls eng.coordinators prepared (.ok prepared.ctx.commitTimestamp)).1 := by
  obtain ⟨⟨created, creates⟩, ready⟩ := prepares
  obtain ⟨results, prepared, all, preparedReady, writeSet⟩ := prepareAll_of_ready exist ready
  refine ⟨prepared, preparedReady, writeSet, ?_⟩
  rw [sameTemporalRangeCommit, if_neg some_call]
  simp only [creates, all, commitPrepared, coordinators_updateState,
    createTransaction_coordinators creates]
  exact ⟨trivial, trivial⟩

theorem commitAll_of_log_failed {first : SameRangeCall} {status : Status}
    (something : sess.ctx.writeSet ≠ []) (failed : first.around.wal = .error status)
    {memtable : VSLMemTable}
    (found : coordinators first.partitionId = some memtable) (rest : List SameRangeCall)
    (overall : Except Status UInt64) :
    (commitAll (first :: rest) coordinators sess overall).1 = coordinators := by
  have refused : ¬ sess.Ready ∨ ∃ status, first.around.wal = .error status :=
    Or.inr ⟨status, failed⟩
  obtain ⟨reason, finished, rejected, isFinish⟩ := commit_refused refused memtable
  rw [commitAll]
  simp only [found, rejected]
  rw [(commitAll_of_unregistered (isFinish.unregistered something) _ rest _).1, ← found,
    update_eq_self]

theorem commitAll_of_written {first : SameRangeCall} (something : sess.ctx.writeSet ≠ [])
    (ready : sess.Ready) (logged : first.around.wal = .ok ()) {memtable : VSLMemTable}
    (found : coordinators first.partitionId = some memtable) {rest : List SameRangeCall}
    (exist : ∀ call ∈ rest, (coordinators call.partitionId).isSome) (ts : UInt64) :
    (commitAll (first :: rest) coordinators sess (.ok ts)).1 =
        update coordinators first.partitionId
          (some (sess.writeMemtable first.around.now memtable)) ∧
      ((∃ timestamp', (commitAll (first :: rest) coordinators sess (.ok ts)).2.2 =
        .ok timestamp') ↔ rest = []) := by
  obtain ⟨finished, committed, isFinish⟩ := commit_written ready logged memtable
  rw [commitAll]
  simp only [found, committed]
  obtain ⟨same, fails⟩ := commitAll_of_unregistered (isFinish.unregistered something)
    (update coordinators first.partitionId
      (some (sess.writeMemtable first.around.now memtable))) rest (.ok ts)
  refine ⟨same, ?_⟩
  cases rest with
  | nil => exact iff_of_true ⟨ts, rfl⟩ rfl
  | cons second others =>
    have reached : (update coordinators first.partitionId
        (some (sess.writeMemtable first.around.now memtable)) second.partitionId).isSome := by
      rw [update_apply]
      split
      · rfl
      · exact exist second mem_cons_self
    obtain ⟨status, failed⟩ := fails (Or.inr ⟨second, mem_cons_self, reached⟩)
    apply iff_of_false
    · rintro ⟨timestamp', success⟩
      rw [failed] at success
      cases success
    · exact cons_ne_nil second others

/-- The commit is atomic exactly if there is nothing to write, the first phase fails, the
log of the first participant fails, or there is no second participant. -/
theorem atomic_iff (eng : LndOccEngine) (first : SameRangeCall) (rest : List SameRangeCall)
    (persisted : Except Status Unit) (sess : OccSession)
    (exist : ∀ call ∈ first :: rest, (eng.coordinators call.partitionId).isSome) :
    eng.Atomic (first :: rest) persisted sess ↔
      sess.ctx.writeSet = [] ∨ ¬ eng.Prepares persisted sess ∨
        (∃ status, first.around.wal = .error status) ∨ rest = [] := by
  by_cases prepares : eng.Prepares persisted sess
  swap
  · apply iff_of_true
    · exact Or.inr fun call _ => congrFun (coordinators_of_not_prepares prepares) call.partitionId
    · exact Or.inr (Or.inl prepares)
  obtain ⟨prepared, ready, writeSet, res, after⟩ :=
    sameTemporalRangeCommit_of_prepares (cons_ne_nil first rest) exist prepares
  obtain ⟨memtable, found⟩ := Option.isSome_iff_exists.mp (exist first mem_cons_self)
  by_cases nothing : sess.ctx.writeSet = []
  · apply iff_of_true
    · refine Or.inr fun call _ => ?_
      rw [after, commitAll_of_nothing (writeSet.trans nothing)]
    · exact Or.inl nothing
  have something : prepared.ctx.writeSet ≠ [] := fun isEmpty =>
    nothing (writeSet.symm.trans isEmpty)
  cases logged : first.around.wal with
  | error status =>
    apply iff_of_true
    · refine Or.inr fun call _ => ?_
      rw [after, commitAll_of_log_failed something logged found]
    · exact Or.inr (Or.inr (Or.inl ⟨status, rfl⟩))
  | ok done =>
    obtain ⟨written, success⟩ := commitAll_of_written something ready logged found
      (fun call mem => exist call (mem_cons_of_mem first mem))
      prepared.ctx.commitTimestamp
    rw [Atomic, res, success]
    simp only [nothing, prepares, not_true, false_or, reduceCtorEq, exists_false]
    constructor
    · rintro (⟨alone, _⟩ | unchanged)
      · exact alone
      · -- the first memtable has grown
        have same := unchanged first mem_cons_self
        rw [after, written, update_self, found] at same
        have longer := length_writeMemtable prepared first.around.now memtable
        rw [Option.some.inj same] at longer
        have positive := length_pos_iff.mpr something
        omega
    · intro alone
      refine Or.inl ⟨alone, ?_⟩
      subst alone
      intro call mem key isKey
      rw [mem_singleton.mp mem]
      refine ⟨_, ?_, mem_writeMemtable (writeSet ▸ isKey) first.around.now memtable⟩
      rw [after, written, update_self]

section Partitions

def freshPartitions : LndOccEngine where
  coordinators := fun _ => some .empty
  stateManager := none

def begunSession : OccSession :=
  (beginTransaction 1000 10
    ⟨.empty, ⟨0, 0, ⟨100, 200⟩, [], [.vertex 1 2 150 0 0 0 0], .started, 0⟩⟩).2

theorem atomic_one_participant :
    freshPartitions.Atomic [⟨0, 20, .ok ()⟩] (.ok ()) begunSession :=
  (atomic_iff freshPartitions ⟨0, 20, .ok ()⟩ [] (.ok ()) begunSession
    (fun _ _ => rfl)).mpr (Or.inr (Or.inr (Or.inr rfl)))

/-- The first memtable is written, the second is not, and the result is an error. -/
theorem second_participant_refuses :
    (∀ call ∈ [(⟨0, 20, .ok ()⟩ : SameRangeCall), ⟨1, 21, .ok ()⟩],
      (freshPartitions.coordinators call.partitionId).isSome) ∧
    ¬ freshPartitions.Atomic [⟨0, 20, .ok ()⟩, ⟨1, 21, .ok ()⟩] (.ok ()) begunSession := by
  refine ⟨fun _ _ => rfl, ?_⟩
  rintro (⟨⟨ts, success⟩, _⟩ | unchanged)
  · have failed : (freshPartitions.sameTemporalRangeCommit [⟨0, 20, .ok ()⟩, ⟨1, 21, .ok ()⟩]
        (.ok ()) begunSession).1 = .error (.notFound "TwcdEngine" "Txn not found") := by
      decide
    rw [failed] at success
    cases success
  · have same := unchanged ⟨0, 20, .ok ()⟩ mem_cons_self
    revert same
    decide

end Partitions

end LndOccEngine

end CedarGraph
