import CedarGraph.Partition.Participant

/-!
# The write locks of prepared transactions

`Prepare` compares the new write set with those in the prepared state only, so a transaction
whose commit failed part-way no longer protects its keys, and `Put` extends the write set of a
prepared one without any comparison.
-/

namespace CedarGraph.PartitionStorage

open List PartitionEffect Runs

/-- No key is in the write sets of two transactions. -/
def Exclusive (part : PartitionStorage) : Prop :=
  ∀ first ∈ part.prepared, ∀ second ∈ part.prepared, first.txnId ≠ second.txnId →
    writesConflict first.writeSet second.writeSet = false

section Calls

variable (opts : PartitionOptions)

/-- `Put`: the key is written at once, and recorded for a transaction that is prepared. -/
def put (part : PartitionStorage) (key : CedarKey) (desc : Descriptor)
    (txnVersion txnId : UInt64) (out : PutOutcome) : PartitionStorage × Except Status Unit :=
  if part.isReadonly then
    (part, .error (.invalidArgument "Partition is read-only" ""))
  else
    let flushed := run (apply opts) part (out.flush.toList.map PartitionEffect.backgroundFlush)
    match out.status with
    | .error status => (flushed, .error (.ioError ("Write failed: " ++ status.toString) ""))
    | .ok () =>
      let storageKey := part.injectPartitionId key
      ({ flushed with
          storage := flushed.storage.put opts.lsm
            ⟨storageKey.entityId, storageKey.timestamp, desc, txnVersion⟩ out.lockFree
          prepared := flushed.prepared.map fun state =>
            if 0 < txnId ∧ state.txnId = txnId then
              { state with writeSet := state.writeSet ++ [key] }
            else state }, .ok ())

inductive LockCall where
  | participant (call : ParticipantCall)
  | put (key : CedarKey) (descriptor : Descriptor) (txnVersion txnId : UInt64)
      (out : PutOutcome)

def lockStep (part : PartitionStorage) : LockCall → PartitionStorage
  | .participant call => part.step opts call
  | .put key desc txnVersion txnId out =>
    (part.put opts key desc txnVersion txnId out).1

/-- The condition on a call: a successful `Prepare` meets no transaction that is already
committing and writes one of its keys, and a `Put` records a key that no other
transaction writes. -/
def KeepsLocks (part : PartitionStorage) : LockCall → Prop
  | .participant (.prepare req) =>
    (part.prepare opts req).2.isOk → ∀ state ∈ part.prepared,
      state.status ≠ .prepared → writesConflict req.writes state.writeSet = false
  | .participant _ => True
  | .put key desc txnVersion txnId out =>
    (part.put opts key desc txnVersion txnId out).2.isOk → 0 < txnId →
      txnId ∈ part.preparedIds → ∀ other ∈ part.prepared, other.txnId ≠ txnId →
        writesConflict [key] other.writeSet = false

end Calls

variable {opts : PartitionOptions} {part : PartitionStorage}

theorem writesConflict_comm (left right : List CedarKey) :
    writesConflict left right = writesConflict right left := by
  rw [Bool.eq_iff_iff]
  simp only [writesConflict, any_eq_true, decide_eq_true_eq]
  grind

theorem writesConflict_append (left extra right : List CedarKey) :
    writesConflict (left ++ extra) right =
      (writesConflict left right || writesConflict extra right) :=
  any_append

theorem exclusive_apply {effect : PartitionEffect} (exclusive : Exclusive part)
    (old : ∀ state, effect ≠ .insertPrepared state) : Exclusive (part.apply opts effect) := by
  cases effect with
  | insertPrepared state => exact absurd rfl (old state)
  | setStatus txnId status =>
    simp only [Exclusive, apply, forall_mem_map] at exclusive ⊢
    grind
  | commitTxn txnId =>
    simp only [Exclusive, apply, eraseTxn, mem_filter] at exclusive ⊢
    grind
  | abortTxn txnId =>
    simp only [Exclusive, apply, eraseTxn, mem_filter] at exclusive ⊢
    grind
  | _ => exact exclusive

theorem exclusive_effects {effects : List PartitionEffect} (exclusive : Exclusive part)
    (old : ∀ effect ∈ effects, ∀ state, effect ≠ .insertPrepared state) :
    Exclusive (run (apply opts) part effects) := by
  induction effects generalizing part with
  | nil => exact exclusive
  | cons effect rest ih =>
    have parts := forall_mem_cons.mp old
    exact ih (exclusive_apply exclusive parts.1) parts.2

theorem exclusive_commit
    (exclusive : Exclusive part) (txnId commitTs : UInt64) (outs : CommitOutcomes) :
    Exclusive (part.step opts (.commit txnId commitTs outs)) := by
  refine exclusive_effects exclusive ?_
  rw [script]
  rcases @commit_effects opts part txnId commitTs outs with
    nothing | ⟨-, front, closing, writing, shape, effects⟩
  · simp [nothing]
  · have quiet := writing.quiet
    rintro effect mem state rfl
    rw [effects, mem_append] at mem
    rcases mem with inFront | inClosing
    · exact quiet _ inFront
    · rcases shape with rfl | rfl
      · cases inClosing
      · cases mem_singleton.mp inClosing

theorem exclusive_abort (exclusive : Exclusive part) (txnId : UInt64) :
    Exclusive (part.step opts (.abort txnId)) := by
  refine exclusive_effects exclusive ?_
  rw [script]
  rcases @abort_effects part txnId with ⟨-, nothing⟩ | ⟨-, moved⟩
  · simp [nothing]
  · simp [moved]

theorem prepare_checks {req : PrepareRequest} (granted : (part.prepare opts req).2.isOk = true) :
    ∀ state ∈ part.prepared, state.status = .prepared →
      writesConflict req.writes state.writeSet = false := by
  rw [prepare] at granted
  split at granted
  · cases granted
  · split at granted
    · cases granted
    · rename_i noConflict
      intro state mem isPrepared
      simpa [isPrepared] using find?_eq_none.mp noConflict state mem

theorem exclusive_prepare_iff (exclusive : Exclusive part) (req : PrepareRequest) :
    Exclusive (part.step opts (.prepare req)) ↔
      part.KeepsLocks opts (.participant (.prepare req)) := by
  rw [step, script, KeepsLocks]
  rcases @prepare_effects opts part req with
    ⟨refused, nothing⟩ | ⟨granted, absent, inserted⟩
  · rw [nothing]
    exact iff_of_true exclusive (by simp [refused])
  · have checked := prepare_checks granted
    have fresh : ∀ state ∈ part.prepared, state.txnId ≠ req.txnId := by
      simpa [find] using absent
    have grown : (run (apply opts) part [.insertPrepared req.state]).prepared =
        part.prepared ++ [req.state] := rfl
    rw [inserted, Exclusive, grown]
    simp only [forall_mem_append, forall_mem_singleton, PrepareRequest.state]
    constructor
    · grind
    · intro keeps
      grind [Exclusive, writesConflict_comm]

theorem prepared_put (key : CedarKey) (desc : Descriptor) (txnVersion txnId : UInt64)
    (out : PutOutcome) :
    let done := part.put opts key desc txnVersion txnId out
    (done.2.isOk = false ∧ done.1.prepared = part.prepared) ∨
      done.2.isOk = true ∧ done.1.prepared = part.prepared.map fun state =>
        if 0 < txnId ∧ state.txnId = txnId then
          { state with writeSet := state.writeSet ++ [key] }
        else state := by
  have flushed : (run (apply opts) part
      (out.flush.toList.map backgroundFlush)).prepared =
      part.prepared := by
    cases out.flush with
    | none => rfl
    | some written => rfl
  rw [put]
  split
  · exact Or.inl ⟨rfl, rfl⟩
  · dsimp only
    split
    · exact Or.inl ⟨rfl, flushed⟩
    · exact Or.inr ⟨rfl, by rw [flushed]⟩

theorem exclusive_put_iff (exclusive : Exclusive part) (key : CedarKey)
    (desc : Descriptor) (txnVersion txnId : UInt64) (out : PutOutcome) :
    Exclusive (part.put opts key desc txnVersion txnId out).1 ↔
      part.KeepsLocks opts (.put key desc txnVersion txnId out) := by
  rw [KeepsLocks]
  rcases @prepared_put opts part key desc txnVersion txnId out with
    ⟨failed, same⟩ | ⟨done, grown⟩
  · rw [Exclusive, same]
    exact iff_of_true exclusive (by simp [failed])
  · rw [Exclusive, grown]
    simp only [forall_mem_map, done, true_imp_iff]
    simp only [preparedIds, mem_map]
    constructor
    · grind [writesConflict_append]
    · intro keeps first inFirst second inSecond
      have before := exclusive first inFirst second inSecond
      split
      · rename_i own
        split
        · grind
        · intro ne
          rw [writesConflict_append, before ne]
          exact keeps own.1 ⟨first, inFirst, own.2⟩ second inSecond (by grind)
      · split
        · rename_i own
          intro ne
          rw [writesConflict_comm, writesConflict_append, writesConflict_comm, before ne]
          exact keeps own.1 ⟨second, inSecond, own.2⟩ first inFirst (by grind)
        · exact before

/-- In every run from a partition without transactions no two prepared transactions write
one key, exactly if every call meets the condition. -/
theorem write_locks_exclusive_iff (opts : PartitionOptions) (pid : UInt16) (isReadonly : Bool)
    (storage : CedarGraphStorage) (changeLog : Option PartitionChangeLog) (calls : List LockCall) :
    Throughout (lockStep opts) Exclusive (opened pid isReadonly storage changeLog) calls ↔
      Admissible (lockStep opts) (KeepsLocks opts)
        (opened pid isReadonly storage changeLog) calls := by
  have exact_step : ∀ part call, Exclusive part →
      (Exclusive (part.lockStep opts call) ↔ part.KeepsLocks opts call) := by
    intro part call exclusive
    cases call with
    | put key desc txnVersion txnId out =>
      exact exclusive_put_iff exclusive key desc txnVersion txnId out
    | participant call =>
      cases call with
      | prepare req => exact exclusive_prepare_iff exclusive req
      | commit txnId commitTs outs =>
        exact iff_of_true (exclusive_commit exclusive txnId commitTs outs) trivial
      | abort txnId => exact iff_of_true (exclusive_abort exclusive txnId) trivial
  refine throughout_iff_admissible (fun _ => id) exact_step ?_
    (fun _ mem => absurd mem not_mem_nil) calls
  intro part call exclusive
  exact (exact_step part call exclusive).mpr

/-- The commit of the first transaction fails at its only key, and a second transaction
is prepared for the same key.  A `Put` for a prepared transaction needs no failure. -/
theorem write_locks_shared :
    let opts : PartitionOptions := ⟨.default, ⟨0, 0, 0, 0, 0, fun _ => 0⟩⟩
    let key : UInt64 → CedarKey := fun entity => .vertex entity 0 5 0 0 0 0
    let prepare := fun txnId entity =>
      LockCall.participant (.prepare ⟨txnId, [], [key entity], fun _ => none, 5, 0⟩)
    let failing : CommitOutcomes :=
      ⟨.ok (), fun _ => ⟨none, .error (.ioError "WAL" "write failed"), false⟩,
        ⟨fun _ => .written, true, true⟩, true⟩
    let run := fun calls =>
      (run (lockStep opts) (opened 0 false ⟨.init .default, 1⟩ none) calls).prepared.map
        fun state => (state.txnId, state.writeSet)
    run [prepare 7 1, .participant (.commit 7 5 failing), prepare 8 1] =
        [(7, [key 1]), (8, [key 1])] ∧
      run [prepare 7 1, prepare 8 2, .put (key 1) ⟨16⟩ 5 8 ⟨none, .ok (), false⟩] =
        [(7, [key 1]), (8, [key 2, key 1])] := by
  decide

end CedarGraph.PartitionStorage
