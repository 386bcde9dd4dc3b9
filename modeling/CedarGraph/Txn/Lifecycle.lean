import CedarGraph.Lib.Runs
import CedarGraph.Txn.Occ

/-!
# One transaction object

`Put` and `Delete` append to the write set and `PutBatch` overwrites the first entry of a key,
while `Get` answers with the first entry. The locks are taken in the order of the entity ids,
but a stripe is given by the lower bits. `Abort` ends with `Cleanup`, which makes the object
active again.
-/

namespace CedarGraph

open List Runs WriteSetEntry WriteSetCall

section OwnWrites

variable (id : UInt64) (kind : EntityType) (col : UInt16)

def writesOf (writes : List (Bool × WriteSetEntry)) : List (Bool × WriteSetEntry) :=
  writes.filter fun write => write.2.isFor id kind col

def lastWrite (writes : List (Bool × WriteSetEntry)) : Option Descriptor :=
  (writesOf id kind col writes).getLast?.map fun write => write.2.descriptor

/-- The write that remains visible: the last one in place, or else the first. -/
def keptWrite (writes : List (Bool × WriteSetEntry)) : Option Descriptor :=
  (((writesOf id kind col writes).filter Prod.fst).getLast?.or
    (writesOf id kind col writes).head?).map fun write => write.2.descriptor

def ownWrite (writeSet : List WriteSetEntry) : Option Descriptor :=
  (writeSet.find? fun entry => entry.isFor id kind col).map WriteSetEntry.descriptor

variable {id kind col}

@[grind =]
theorem ownWrite_cons (entry : WriteSetEntry) (rest : List WriteSetEntry) :
    ownWrite id kind col (entry :: rest) =
      if entry.isFor id kind col then some entry.descriptor
      else ownWrite id kind col rest := by
  rw [ownWrite, find?_cons]
  grind [ownWrite]

theorem ownWrite_overwrite (entry : WriteSetEntry) (writeSet : List WriteSetEntry) :
    ownWrite id kind col (overwrite entry writeSet) =
      if entry.isFor id kind col then some entry.descriptor
      else ownWrite id kind col writeSet := by
  induction writeSet with
  | nil => rw [overwrite, ownWrite_cons]
  | cons existing rest ih =>
    rw [overwrite, ownWrite_cons]
    simp only [isFor, decide_eq_true_eq] at ih ⊢
    grind [isFor]

theorem ownWrite_append (writeSet : List WriteSetEntry) (entry : WriteSetEntry) :
    ownWrite id kind col (writeSet ++ [entry]) =
      (ownWrite id kind col writeSet).or
        (if entry.isFor id kind col then some entry.descriptor else none) := by
  induction writeSet with
  | nil => exact ownWrite_cons entry []
  | cons existing rest ih => grind

theorem ownWrite_foldl_record (writes : List (Bool × WriteSetEntry)) :
    ownWrite id kind col (writes.foldl record []) = keptWrite id kind col writes := by
  induction writes using reverseRecOn with
  | nil => rfl
  | append_singleton prev write ih =>
    rw [foldl_append, foldl_cons, foldl_nil, record]
    rw [keptWrite, writesOf] at ih ⊢
    rw [filter_append, filter_append]
    by_cases here : write.2.isFor id kind col = true
    · cases place : write.1 with
      | true => simp [ownWrite_overwrite, here, place]
      | false =>
        simp only [Bool.false_eq_true, if_false, ownWrite_append, here, if_true, ih]
        simp [here, place, head?_append]
    · cases write.1 with
      | true => simp [ownWrite_overwrite, here, ih]
      | false => simp [ownWrite_append, here, ih]

theorem isSome_keptWrite {writes : List (Bool × WriteSetEntry)} {last : Descriptor}
    (written : lastWrite id kind col writes = some last) :
    (keptWrite id kind col writes).isSome := by
  rw [lastWrite] at written
  rw [keptWrite]
  cases some_write : writesOf id kind col writes with
  | nil => simp [some_write] at written
  | cons write rest => simp

end OwnWrites

namespace OccSystem

variable {sys : OccSystem} {name : Nat}

def writeAll (sys : OccSystem) (name : Nat) (calls : List WriteSetCall) : OccSystem :=
  run (fun before call => (before.write name call).1) sys calls

theorem writeAll_of_active
    (active : (sys.transactions name).state = .active) (calls : List WriteSetCall) :
    sys.writeAll name calls =
      sys.setTransaction name
        { sys.transactions name with
          writeSet := (calls.flatMap writes).foldl record (sys.transactions name).writeSet } := by
  induction calls generalizing sys with
  | nil => exact (setTransaction_self sys name).symm
  | cons call rest ih =>
    have first := congrArg Prod.fst (write_of_active active call)
    have later := @ih (sys.write name call).1 (by rw [first]; simp [setTransaction, active])
    rw [first] at later
    rw [flatMap_cons, foldl_append]
    rw [writeAll, run, foldl_cons, first]
    refine later.trans ?_
    simp [setTransaction]

/-- A transaction reads its last write of a key exactly if the write that its write set
keeps, the last one by `PutBatch` or else the first, carries the same descriptor. -/
theorem get_returns_last_write_iff (opts : LsmOptions)
    (active : (sys.transactions name).state = .active)
    (nothing : (sys.transactions name).writeSet = [])
    (calls : List WriteSetCall) {id : UInt64} {kind : EntityType} {col : UInt16}
    {last : Descriptor}
    (written : lastWrite id kind col (calls.flatMap writes) = some last) :
    ((sys.writeAll name calls).get opts name id kind col).2 =
        .ok (last, (sys.transactions name).readTimestamp) ↔
      keptWrite id kind col (calls.flatMap writes) = some last := by
  obtain ⟨kept, isKept⟩ := Option.isSome_iff_exists.mp (isSome_keptWrite written)
  have own : ownWrite id kind col
      ((sys.writeAll name calls).transactions name).writeSet = some kept := by
    rw [writeAll_of_active active, nothing, ← isKept, ← ownWrite_foldl_record]
    simp [setTransaction]
  have stillActive : ((sys.writeAll name calls).transactions name).state = .active := by
    rw [writeAll_of_active active]
    simp [setTransaction, active]
  have sameStart : ((sys.writeAll name calls).transactions name).readTimestamp =
      (sys.transactions name).readTimestamp := by
    rw [writeAll_of_active active]
    simp [setTransaction]
  obtain ⟨entry, first, rfl⟩ := Option.map_eq_some_iff.mp own
  rw [get]
  dsimp only
  rw [if_neg (not_not_intro stillActive), first, isKept, sameStart]
  simp

/-- A transaction that has just begun on an empty engine without a log. -/
def begun : OccSystem :=
  ((init (.init .default) 1 none).begin 0).1

/-- `PutBatch` replaces an earlier `Put`. -/
theorem get_returns_last_write_of_putBatch :
    ((begun.writeAll 0 [.put 7 .vertex 1 ⟨16⟩ 5 0 0,
      .putBatch [.ofPut 7 .vertex 1 ⟨32⟩ 5 0 0]]).get .default 0 7 .vertex 1).2 =
        .ok (⟨32⟩, 1000) :=
  (get_returns_last_write_iff .default rfl rfl _ rfl).mpr rfl

/-- A second `Put` of a key stays invisible. -/
theorem get_returns_first_write :
    ((begun.writeAll 0 [.put 7 .vertex 1 ⟨16⟩ 5 0 0, .put 7 .vertex 1 ⟨32⟩ 6 0 0]).get
        .default 0 7 .vertex 1).2 = .ok (⟨16⟩, 1000) ∧
      lastWrite 7 .vertex 1 ([.put 7 .vertex 1 ⟨16⟩ 5 0 0,
        .put 7 .vertex 1 ⟨32⟩ 6 0 0].flatMap writes) = some ⟨32⟩ :=
  ⟨rfl, rfl⟩

end OccSystem

variable (writeSet : List WriteSetEntry)

/-- `GetCommitLock`: the stripe of an entity among `kCommitLockStripes`. -/
def getCommitLock (id : UInt64) : UInt64 :=
  id &&& (64 - 1)

def lockedEntities : List UInt64 :=
  (writeSet.map fun entry => entry.key.entityId).dedup.insertionSort (· ≤ ·)

/-- The stripes in the order in which a commit locks them. -/
def commitLocks : List UInt64 :=
  (lockedEntities writeSet).map getCommitLock

theorem getCommitLock_eq_mod (id : UInt64) : getCommitLock id = id % 64 := by
  rw [← UInt64.toNat_inj, getCommitLock, UInt64.toNat_and, UInt64.toNat_mod]
  exact Nat.and_two_pow_sub_one_eq_mod id.toNat 6

theorem lockedEntities_ascending : (lockedEntities writeSet).Pairwise (· < ·) := by
  have sorted := pairwise_insertionSort (· ≤ ·) (writeSet.map fun entry => entry.key.entityId).dedup
  have distinct : (lockedEntities writeSet).Nodup :=
    (perm_insertionSort (· ≤ ·) _).nodup_iff.mpr (nodup_dedup _)
  exact (sorted.and distinct).imp fun both => UInt64.lt_of_le_of_ne both.1 both.2

/-- In an ascending list the relation of all ordered pairs is that of the pairs in order. -/
theorem pairwise_iff_forall_lt {entities : List UInt64} (ascending : entities.Pairwise (· < ·))
    (relation : UInt64 → UInt64 → Prop) :
    entities.Pairwise relation ↔
      ∀ first ∈ entities, ∀ second ∈ entities, first < second → relation first second := by
  constructor
  · intro related first inFirst second inSecond before
    obtain ⟨i, rfl⟩ := mem_iff_get.mp inFirst
    obtain ⟨j, rfl⟩ := mem_iff_get.mp inSecond
    rcases lt_trichotomy i j with prev | same | later
    · exact related.rel_get_of_lt prev
    · rw [same] at before
      exact absurd before (UInt64.lt_irrefl _)
    · exact absurd before (UInt64.lt_asymm (ascending.rel_get_of_lt later))
  · intro related
    exact ascending.imp_of_mem fun inFirst inSecond before =>
      related _ inFirst _ inSecond before

/-- A commit locks its stripes in ascending order exactly if the ids of its entities are
ordered like their remainders.  Commits that do so never lock a stripe twice, and no two
of them take a pair of stripes in opposite orders. -/
theorem commitLocks_ascending_iff (writeSet : List WriteSetEntry) :
    ((commitLocks writeSet).Pairwise (· < ·) ↔
      ∀ first ∈ lockedEntities writeSet, ∀ second ∈ lockedEntities writeSet,
        first < second → first % 64 < second % 64) ∧
    ((commitLocks writeSet).Pairwise (· < ·) → ∀ other : List WriteSetEntry,
      (commitLocks other).Pairwise (· < ·) → ∀ left right,
        [left, right] <+ commitLocks writeSet → ¬ [right, left] <+ commitLocks other) := by
  constructor
  · rw [commitLocks, pairwise_map, pairwise_iff_forall_lt (lockedEntities_ascending writeSet)]
    simp only [getCommitLock_eq_mod]
  · intro ascending other otherAscending left right inOrder opposite
    have forward : left < right := by simpa using ascending.sublist inOrder
    have backward : right < left := by simpa using otherAscending.sublist opposite
    exact absurd backward (UInt64.lt_asymm forward)

/-- Entities 1 and 65 share a stripe, which is locked twice; 1 and 64 are locked in the
order opposite to that of 64 and 65. -/
theorem commitLocks_repeat :
    commitLocks [.ofPut 1 .vertex 0 ⟨16⟩ 5 0 0, .ofPut 65 .vertex 0 ⟨16⟩ 5 0 0] = [1, 1] ∧
    commitLocks [.ofPut 1 .vertex 0 ⟨16⟩ 5 0 0, .ofPut 64 .vertex 0 ⟨16⟩ 5 0 0] = [1, 0] ∧
    commitLocks [.ofPut 64 .vertex 0 ⟨16⟩ 5 0 0, .ofPut 65 .vertex 0 ⟨16⟩ 5 0 0] = [0, 1] := by
  decide

/-- The counters of `TransactionStats` that calls on a transaction change. -/
structure TransactionStats where
  committed : Nat
  aborted : Nat
  deriving DecidableEq, Repr

/-- A transaction by its name, with the counters and the number of abort records in the
log since its construction. -/
structure TransactionObject where
  system : OccSystem
  name : Nat
  stats : TransactionStats
  abortRecords : Nat

inductive ObjectCall where
  | begin
  | get (entityId : UInt64) (entityType : EntityType) (columnId : UInt16)
  | write (call : WriteSetCall)
  | commit (write : LogWrite)
  | abort (write : LogWrite)
  | cleanup

def ObjectCall.uses : ObjectCall → Bool
  | .begin | .abort _ | .cleanup => false
  | _ => true

namespace TransactionObject

variable (opts : LsmOptions) (walOpts : WalOptions)

def constructed (sys : OccSystem) (name : Nat) : TransactionObject :=
  ⟨sys.setTransaction name .fresh, name, ⟨0, 0⟩, 0⟩

variable (obj : TransactionObject)

def state : TransactionState :=
  (obj.system.transactions obj.name).state

/-- Every way out of `Commit` counts an active transaction once, and so does `Abort`. -/
def call (obj : TransactionObject) : ObjectCall → TransactionObject × Except Status Unit
  | .begin =>
    let done := obj.system.begin obj.name
    ({ obj with system := done.1 }, done.2)
  | .get id kind col =>
    let done := obj.system.get opts obj.name id kind col
    ({ obj with system := done.1 }, done.2.map fun _ => ())
  | .write call =>
    let done := obj.system.write obj.name call
    ({ obj with system := done.1 }, done.2)
  | .commit write =>
    let done := obj.system.commit opts walOpts obj.name write
    let stats :=
      if obj.state = .active then
        match done.2 with
        | .ok () => { obj.stats with committed := obj.stats.committed + 1 }
        | .error _ => { obj.stats with aborted := obj.stats.aborted + 1 }
      else obj.stats
    ({ obj with system := done.1, stats }, done.2)
  | .abort write =>
    let done := obj.system.abort walOpts obj.name write
    if obj.state = .active then
      let logged := OccSystem.writeLog walOpts obj.system.wal
        (OccSystem.abortBatch (obj.system.transactions obj.name).commitTimestamp) write
      ({ obj with
          system := done.1
          stats := { obj.stats with aborted := obj.stats.aborted + 1 }
          abortRecords := obj.abortRecords +
            if obj.system.wal.isSome && logged.2.isOk then 1 else 0 }, done.2)
    else ({ obj with system := done.1 }, done.2)
  | .cleanup =>
    ({ obj with
        system := obj.system.setTransaction obj.name
          (obj.system.transactions obj.name).cleanup }, .ok ())

def next (made : ObjectCall) : TransactionObject :=
  (obj.call opts walOpts made).1

def destroy (write : LogWrite) : TransactionObject :=
  if obj.state = .active then obj.next opts walOpts (.abort write) else obj

def counted : Nat :=
  obj.stats.committed + obj.stats.aborted

/-- The call returns with the transaction committed or aborted. -/
def Ends : ObjectCall → Prop
  | .commit write => (obj.next opts walOpts (.commit write)).state ≠ .active
  | .abort write => (obj.call opts walOpts (.abort write)).2.isOk
  | _ => False

/-- The calls keep the state, and those that use the transaction fail. -/
def Refused (obj : TransactionObject) : List ObjectCall → Prop
  | [] => True
  | made :: rest =>
    (obj.next opts walOpts made).state = obj.state ∧
      (made.uses → (obj.call opts walOpts made).2.isOk = false) ∧
      Refused (obj.next opts walOpts made) rest

/-- After the call that ends the transaction all calls are refused. -/
def EndsForGood (obj : TransactionObject) : List ObjectCall → Prop
  | [] => True
  | made :: rest =>
    (obj.Ends opts walOpts made → (obj.next opts walOpts made).Refused opts walOpts rest) ∧
      EndsForGood (obj.next opts walOpts made) rest

/-- The condition: `Abort` does not find the transaction active, and `Cleanup` does. -/
def NotReviving : ObjectCall → Prop
  | .abort _ => obj.state ≠ .active
  | .cleanup => obj.state = .active
  | _ => True

/-- The count that the destructor leaves. -/
def due : Nat :=
  obj.counted + if obj.state = .active then 1 else 0

section Calls

variable {obj : TransactionObject}

theorem call_of_not_active (inactive : obj.state ≠ .active) {made : ObjectCall}
    (other : made ≠ .cleanup) :
    obj.next opts walOpts made = obj ∧
      (made.uses → (obj.call opts walOpts made).2.isOk = false) := by
  have frozen := OccSystem.unchanged_of_not_active opts walOpts inactive
  have closed : (obj.system.transactions obj.name).state ≠ .active := inactive
  cases made with
  | begin => exact ⟨by rw [next, call, frozen.1], by simp [ObjectCall.uses]⟩
  | get id kind col =>
    refine ⟨by rw [next, call, frozen.2.1], fun _ => ?_⟩
    rw [call, OccSystem.get]
    simp [closed, Except.map, Except.isOk, Except.toBool]
  | write made =>
    rw [next, call, OccSystem.write_of_not_active inactive]
    exact ⟨rfl, fun _ => rfl⟩
  | commit write =>
    refine ⟨by rw [next, call, frozen.2.2.2.1, if_neg inactive], fun _ => ?_⟩
    rw [call, OccSystem.commit]
    simp [closed, Except.isOk, Except.toBool]
  | abort write =>
    exact ⟨by rw [next, call, if_neg inactive, frozen.2.2.2.2], by simp [ObjectCall.uses]⟩
  | cleanup => exact absurd rfl other

theorem refused_of_not_active (inactive : obj.state ≠ .active) {calls : List ObjectCall}
    (admissible : Admissible (next opts walOpts) NotReviving obj calls) :
    obj.Refused opts walOpts calls := by
  induction calls with
  | nil => trivial
  | cons made rest ih =>
    have other : made ≠ .cleanup := by
      rintro rfl
      exact inactive admissible.1
    have refused := call_of_not_active opts walOpts inactive other
    have later := admissible.2
    rw [refused.1] at later
    rw [Refused, refused.1]
    exact ⟨rfl, refused.2, ih later⟩

section

variable (active : obj.state = .active)
include active

theorem next_commit (write : LogWrite) :
    let after := obj.next opts walOpts (.commit write)
    after.state ≠ .active ∧ after.counted = obj.counted + 1 := by
  rw [next, call, if_pos active]
  rcases OccSystem.commit_cases opts walOpts active write with
    ⟨-, done⟩ | done | ⟨-, status, -, done⟩ | ⟨-, -, -, done⟩
  all_goals
    rw [done]
    simp only [state, counted, OccSystem.finish, OccSystem.setTransaction, Function.update_self]
    exact ⟨by decide, by omega⟩

theorem next_abort (write : LogWrite) :
    let after := obj.next opts walOpts (.abort write)
    after.state = .active ∧ after.counted = obj.counted + 1 ∧
      after.abortRecords ≤ obj.abortRecords + 1 := by
  have isActive : (obj.system.transactions obj.name).state = .active := active
  rw [next, call, if_pos active]
  refine ⟨?_, ?_, ?_⟩
  · simp [state, OccSystem.abort, isActive, OccSystem.finish, OccSystem.setTransaction]
  · grind [counted]
  · grind

theorem next_other {made : ObjectCall}
    (other : ∀ write, made ≠ .commit write ∧ made ≠ .abort write) :
    (obj.next opts walOpts made).state = .active := by
  have isActive : (obj.system.transactions obj.name).state = .active := active
  cases made with
  | begin => simp [next, call, state, OccSystem.begin, isActive, OccSystem.setTransaction]
  | get id kind col =>
    obtain ⟨readSet, frame⟩ := OccSystem.get_frame opts isActive id kind col
    simp [next, call, state, frame, isActive, OccSystem.setTransaction]
  | write made =>
    simp [next, call, state, OccSystem.write_of_active isActive, isActive, OccSystem.setTransaction]
  | commit write => exact absurd rfl (other write).1
  | abort write => exact absurd rfl (other write).2
  | cleanup => simp [next, call, state, OccSystem.setTransaction, OCCTransaction.cleanup]

end

theorem due_next (obj : TransactionObject) (made : ObjectCall) :
    let after := obj.next opts walOpts made
    (obj.NotReviving made → after.due = obj.due ∧ after.abortRecords = obj.abortRecords) ∧
    (¬ obj.NotReviving made → obj.due < after.due) := by
  by_cases active : obj.state = .active
  · cases made with
    | commit write =>
      have done := next_commit opts walOpts active write
      refine ⟨fun _ => ⟨?_, rfl⟩, fun forbidden => absurd trivial forbidden⟩
      rw [due, due, if_pos active, if_neg done.1, done.2]
    | abort write =>
      have done := next_abort opts walOpts active write
      refine ⟨fun allowed => absurd active allowed, fun _ => ?_⟩
      rw [due, due, if_pos active, if_pos done.1, done.2.1]
      omega
    | cleanup =>
      refine ⟨fun _ => ⟨?_, rfl⟩, fun forbidden => absurd active forbidden⟩
      rw [due, due, if_pos active, if_pos (next_other opts walOpts active (by simp))]
      rfl
    | _ =>
      refine ⟨fun _ => ⟨?_, rfl⟩, fun forbidden => absurd trivial forbidden⟩
      rw [due, due, if_pos active, if_pos (next_other opts walOpts active (by simp))]
      rfl
  · cases made with
    | cleanup =>
      refine ⟨fun allowed => absurd allowed active, fun _ => ?_⟩
      have revived : (obj.next opts walOpts .cleanup).state = .active := by
        simp [next, call, state, OccSystem.setTransaction, OCCTransaction.cleanup]
      rw [due, due, if_neg active, if_pos revived]
      exact Nat.lt_succ_self _
    | abort write =>
      rw [(call_of_not_active opts walOpts active (by simp)).1]
      exact ⟨fun _ => ⟨rfl, rfl⟩, fun forbidden => absurd active forbidden⟩
    | _ =>
      rw [(call_of_not_active opts walOpts active (by simp)).1]
      exact ⟨fun _ => ⟨rfl, rfl⟩, fun forbidden => absurd trivial forbidden⟩

end Calls

theorem due_run (calls : List ObjectCall) :
    let after := run (next opts walOpts) obj calls
    (Admissible (next opts walOpts) NotReviving obj calls →
      after.due = obj.due ∧ after.abortRecords = obj.abortRecords) ∧
    (¬ Admissible (next opts walOpts) NotReviving obj calls → obj.due < after.due) := by
  induction calls generalizing obj with
  | nil => exact ⟨fun _ => ⟨rfl, rfl⟩, fun forbidden => absurd trivial forbidden⟩
  | cons made rest ih =>
    have first := due_next opts walOpts obj made
    have later := ih (obj.next opts walOpts made)
    have whole : run (next opts walOpts) obj (made :: rest) =
      run (next opts walOpts) (obj.next opts walOpts made) rest := rfl
    rw [whole, Admissible]
    grind

theorem endsForGood_of_admissible {obj : TransactionObject} {calls : List ObjectCall}
    (admissible : Admissible (next opts walOpts) NotReviving obj calls) :
    obj.EndsForGood opts walOpts calls := by
  induction calls generalizing obj with
  | nil => trivial
  | cons made rest ih =>
    refine ⟨fun ended => refused_of_not_active opts walOpts ?_ admissible.2, ih admissible.2⟩
    cases made with
    | commit write => exact ended
    | abort write =>
      have inactive : obj.state ≠ .active := admissible.1
      rwa [(call_of_not_active opts walOpts inactive (by simp)).1]
    | _ => exact ended.elim

theorem destroy_counts (write : LogWrite) :
    (obj.destroy opts walOpts write).counted = obj.due ∧
      (obj.destroy opts walOpts write).abortRecords ≤ obj.abortRecords + 1 := by
  rw [destroy, due]
  split
  · rename_i active
    exact (next_abort opts walOpts active write).2
  · exact ⟨rfl, Nat.le_succ _⟩

/-- From its construction to its destructor a transaction ends for good, is counted once
and leaves at most one abort record exactly if no `Abort` finds it active and no `Cleanup`
finds it finished. -/
theorem ends_for_good_iff
    (sys : OccSystem) (name : Nat) (calls : List ObjectCall) (write : LogWrite) :
    let obj := constructed sys name
    let destroyed :=
      (run (next opts walOpts) obj calls).destroy opts walOpts write
    (obj.EndsForGood opts walOpts calls ∧ destroyed.counted = 1 ∧ destroyed.abortRecords ≤ 1) ↔
    Admissible (next opts walOpts) NotReviving obj calls := by
  intro obj destroyed
  have dueOnce : obj.due = 1 := by
    simp [obj, constructed, due, counted, state, OccSystem.setTransaction, OCCTransaction.fresh]
  have ended := destroy_counts opts walOpts (run (next opts walOpts) obj calls) write
  have whole := due_run opts walOpts obj calls
  constructor
  · intro terminal
    by_contra forbidden
    have more := whole.2 forbidden
    have once := ended.1.symm.trans terminal.2.1
    omega
  · intro admissible
    have same := whole.1 admissible
    refine ⟨endsForGood_of_admissible opts walOpts admissible,
      ended.1.trans (same.1.trans dueOnce), ended.2.trans ?_⟩
    rw [same.2]
    rfl

/-- After an `Abort` the object takes writes and commits them, so that the transaction is
counted as aborted and as committed. -/
theorem aborted_transaction_commits :
    let aborted := run (next .default .default)
      (constructed (.init (.init .default) 1 none) 0) [.begin, .abort .success]
    (aborted.call .default .default (.write (.put 7 .vertex 1 ⟨16⟩ 5 0 0))).2.isOk ∧
      (run (next .default .default) aborted [.write (.put 7 .vertex 1 ⟨16⟩ 5 0 0),
        .commit .success]).stats = ⟨1, 1⟩ :=
  ⟨rfl, rfl⟩

end TransactionObject

end CedarGraph
