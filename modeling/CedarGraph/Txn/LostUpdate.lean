import CedarGraph.Lib.Runs
import CedarGraph.Txn.Occ

/-!
# Lost updates

Two transactions lose an update when both read and then write one vertex column, each begins
before the other commits, and both commits succeed. Validation lets through a version committed
after the snapshot, so the run theorem asks that the keys read and written have none.
-/

namespace CedarGraph

open Function List Runs WriteSetEntry

open VSLMemTable

namespace OccSystem

/-- What a transaction has done: when it began and committed, the vertex columns it
asked for and those it wrote after asking for them. -/
structure Trace where
  beganAt : Option Nat
  committedAt : Option Nat
  gets : List (UInt64 × UInt16)
  updates : List (UInt64 × UInt16)

def Trace.empty : Trace := ⟨none, none, [], []⟩

namespace Trace

def noteGet (trace : Trace) (id : UInt64) (kind : EntityType) (col : UInt16) : Trace :=
  if kind = .vertex then { trace with gets := trace.gets ++ [(id, col)] }
  else trace

def noteWrite (trace : Trace) (write : Bool × WriteSetEntry) : Trace :=
  let key := (write.2.entityId, write.2.columnId)
  if write.2.entityType = .vertex ∧ key ∈ trace.gets then
    { trace with updates := trace.updates ++ [key] }
  else trace

/-- Every update has an entry in the write set. -/
def Pending (trace : Trace) (writeSet : List WriteSetEntry) : Prop :=
  ∀ key ∈ trace.updates, ∃ entry ∈ writeSet,
    entry.entityType = .vertex ∧ (entry.entityId, entry.columnId) = key

theorem Pending.record {trace : Trace} {writeSet : List WriteSetEntry}
    (pending : trace.Pending writeSet) (write : Bool × WriteSetEntry) :
    (trace.noteWrite write).Pending (record writeSet write) := by
  obtain ⟨inPlace, entry⟩ := write
  have recorded : ∀ key, (entry.entityType = .vertex ∧ (entry.entityId, entry.columnId) = key) ∨
      (∃ old ∈ writeSet, old.entityType = .vertex ∧ (old.entityId, old.columnId) = key) →
      ∃ new ∈ WriteSetEntry.record writeSet (inPlace, entry),
        new.entityType = .vertex ∧ (new.entityId, new.columnId) = key := by
    intro key present
    cases inPlace with
    | false => grind [WriteSetEntry.record]
    | true =>
      -- overwriting an entry changes neither its entity nor its column
      rw [WriteSetEntry.record, if_pos rfl]
      clear pending
      induction writeSet with
      | nil => grind [overwrite]
      | cons old rest ih =>
        rw [overwrite]
        split
        · simp only [mem_cons, exists_eq_or_imp] at present ⊢
          grind [isFor]
        · grind
  intro key member
  have newUpdates : key ∈ trace.updates ∨
      (entry.entityType = .vertex ∧ (entry.entityId, entry.columnId) = key) := by
    grind [noteWrite]
  exact recorded key (newUpdates.symm.imp_right (pending key))

theorem noteWrites {trace : Trace} {writeSet : List WriteSetEntry}
    (pending : trace.Pending writeSet) (writes : List (Bool × WriteSetEntry)) :
    (writes.foldl noteWrite trace).Pending (writes.foldl WriteSetEntry.record writeSet) ∧
      (writes.foldl noteWrite trace).beganAt = trace.beganAt ∧
      (writes.foldl noteWrite trace).committedAt = trace.committedAt := by
  induction writes generalizing trace writeSet with
  | nil => exact ⟨pending, rfl, rfl⟩
  | cons write rest ih => grind [ih (pending.record write), noteWrite]

end Trace

/-- A system with the traces of its transactions; the clock counts the steps. -/
structure Recorded where
  system : OccSystem
  clock : Nat
  trace : Nat → Trace

namespace Recorded

def init (eng : LsmEngine) (shards : UInt32) (wal : Option WalWriter) : Recorded :=
  ⟨.init eng shards wal, 0, fun _ => .empty⟩

/-- A call on a transaction that is not active leaves its trace as it is. -/
def note (recorded : Recorded) (name : Nat) (change : Trace → Trace) : Nat → Trace :=
  if (recorded.system.transactions name).state = .active then
    update recorded.trace name (change (recorded.trace name))
  else recorded.trace

def step (opts : LsmOptions) (walOpts : WalOptions) (recorded : Recorded) : Operation → Recorded
  | .begin name =>
    ⟨(recorded.system.begin name).1, recorded.clock + 1,
      recorded.note name fun trace => { trace with beganAt := some recorded.clock }⟩
  | .get name id kind col =>
    ⟨(recorded.system.get opts name id kind col).1, recorded.clock + 1,
      recorded.note name fun trace => trace.noteGet id kind col⟩
  | .write name call =>
    ⟨(recorded.system.write name call).1, recorded.clock + 1,
      recorded.note name fun trace => call.writes.foldl Trace.noteWrite trace⟩
  | .commit name write =>
    let res := recorded.system.commit opts walOpts name write
    ⟨res.1, recorded.clock + 1,
      recorded.note name fun trace =>
        match res.2 with
        | .ok () => { trace with committedAt := some recorded.clock }
        | .error _ => trace⟩
  | .abort name write =>
    ⟨(recorded.system.abort walOpts name write).1, recorded.clock + 1,
      recorded.note name fun _ => .empty⟩

/-- Two transactions that both committed an update of one key, each begun before the
other's commit. -/
def LostUpdate (recorded : Recorded) : Prop :=
  ∃ first second, first ≠ second ∧ ∃ key,
    key ∈ (recorded.trace first).updates ∧ key ∈ (recorded.trace second).updates ∧
    ∃ firstBegan firstCommitted secondBegan secondCommitted,
      (recorded.trace first).beganAt = some firstBegan ∧
      (recorded.trace first).committedAt = some firstCommitted ∧
      (recorded.trace second).beganAt = some secondBegan ∧
      (recorded.trace second).committedAt = some secondCommitted ∧
      firstBegan < secondCommitted ∧ secondBegan < firstCommitted

end Recorded

/-- The condition on a commit: a vertex key that it writes and has read has no
version beyond its snapshot, and the timestamp counter does not overflow. -/
def SnapshotIsCurrent (sys : OccSystem) (name : Nat) : Prop :=
  let txn := sys.transactions name
  txn.state = .active → sys.manager.globalNext ≠ uint64Max ∧
    ∀ entry ∈ txn.writeSet, entry.entityType = .vertex → txn.readEntryOf entry = none ∨
      ∀ node ∈ sys.engine.mem.nodes, node.row.key.entityId = entry.entityId →
        node.row.key.columnId = entry.columnId →
        node.row.key.entityType = EntityType.vertex.toByte → node.row.txnVersion ≤ txn.readTimestamp

def Allowed (recorded : Recorded) : Operation → Prop
  | .commit name _ => recorded.system.SnapshotIsCurrent name
  | _ => True

def Stored (mem : VSLMemTable) (key : UInt64 × UInt16) (ver : UInt64) : Prop :=
  ∃ node ∈ mem.nodes, node.row.key.entityId = key.1 ∧ node.row.key.columnId = key.2 ∧
    node.row.key.entityType = EntityType.vertex.toByte ∧ node.row.key.targetId = 0 ∧
    node.row.txnVersion = ver

structure Inv (recorded : Recorded) : Prop where
  ordered : Ordered recorded.system.engine.mem.nodes
  positive : 0 < recorded.system.manager.globalNext.toNat
  began : ∀ name time, (recorded.trace name).beganAt = some time →
    time < recorded.clock ∧ (recorded.system.transactions name).readTimestamp.toNat <
      recorded.system.manager.globalNext.toNat
  pending : ∀ name, (recorded.system.transactions name).state = .active →
    (recorded.trace name).Pending (recorded.system.transactions name).writeSet
  finished : ∀ name time, (recorded.trace name).committedAt = some time →
    time < recorded.clock ∧ (recorded.system.transactions name).state = .committed
  stored : ∀ name time, (recorded.trace name).committedAt = some time →
    ∀ key ∈ (recorded.trace name).updates,
      Stored recorded.system.engine.mem key (recorded.system.transactions name).commitTimestamp ∧
      ∀ other otherTime, (recorded.trace other).beganAt = some otherTime → otherTime < time →
        (recorded.system.transactions other).readTimestamp.toNat <
          (recorded.system.transactions name).commitTimestamp.toNat
  safe : ¬ recorded.LostUpdate

theorem inv_init (eng : LsmEngine) (shards : UInt32) (wal : Option WalWriter) :
    Inv (Recorded.init eng shards wal) := by
  have noTime : ∀ {time : Nat}, (none : Option Nat) = some time → False := by
    intro time impossible
    cases impossible
  constructor
  · exact List.Pairwise.nil
  · have bound := shards.toNat_lt
    show 0 < (UInt64.ofNat (1 + 1000 * shards.toNat)).toNat
    rw [UInt64.toNat_ofNat', Nat.mod_eq_of_lt (by omega)]
    omega
  · intro name time isBegun
    exact (noTime isBegun).elim
  · intro name _ key member
    cases member
  · intro name time isCommitted
    exact (noTime isCommitted).elim
  · intro name time isCommitted
    exact (noTime isCommitted).elim
  · intro lost
    obtain ⟨first, second, -, key, member, -⟩ := lost
    cases member

variable {name : Nat} {recorded : Recorded} {opts : LsmOptions}

variable {txn : OCCTransaction} {trace : Trace} {next : Recorded}

theorem replaced (updated : next.system.transactions = update recorded.system.transactions name txn)
    (traced : next.trace = update recorded.trace name trace) :
    next.system.transactions name = txn ∧ next.trace name = trace ∧
      ∀ other, other ≠ name → next.system.transactions other = recorded.system.transactions other ∧
        next.trace other = recorded.trace other := by
  rw [updated, traced, update_self, update_self]
  refine ⟨rfl, rfl, ?_⟩
  intro other ne
  rw [update_of_ne ne, update_of_ne ne]
  exact ⟨rfl, rfl⟩

theorem inv_replace (inv : Inv recorded) (ordered : Ordered next.system.engine.mem.nodes)
    (grows : ∀ key ver, Stored recorded.system.engine.mem key ver →
      Stored next.system.engine.mem key ver)
    (counter : recorded.system.manager.globalNext.toNat ≤ next.system.manager.globalNext.toNat)
    (clock : next.clock = recorded.clock + 1)
    (updated : next.system.transactions = update recorded.system.transactions name txn)
    (traced : next.trace = update recorded.trace name trace)
    (began : ∀ time, trace.beganAt = some time →
      ((recorded.trace name).beganAt = some time ∧
        txn.readTimestamp = (recorded.system.transactions name).readTimestamp) ∨
      (time = recorded.clock ∧ txn.readTimestamp.toNat < recorded.system.manager.globalNext.toNat))
    (pending : txn.state = .active → trace.Pending txn.writeSet)
    (committed : ∀ time, trace.committedAt = some time →
      time = recorded.clock ∧ txn.state = .committed ∧ ∀ key ∈ trace.updates,
        Stored next.system.engine.mem key txn.commitTimestamp ∧
        recorded.system.manager.globalNext.toNat ≤ txn.commitTimestamp.toNat ∧
        ∀ other, other ≠ name → key ∈ (recorded.trace other).updates →
          ∀ began committed, trace.beganAt = some began →
            (recorded.trace other).committedAt = some committed → ¬ began < committed) :
    Inv next := by
  obtain ⟨ownTransaction, ownTrace, others⟩ := replaced updated traced
  have oldBegan := inv.began
  have oldFinished := inv.finished
  have safe := inv.safe
  rw [Recorded.LostUpdate] at safe
  refine ⟨ordered, inv.positive.trans_le counter, ?_, ?_, ?_, ?_, ?_⟩
  · intro other time isBegun
    by_cases same : other = name <;> grind
  · intro other isActive
    have old := inv.pending other
    by_cases same : other = name <;> grind
  · intro other time isCommitted
    by_cases same : other = name <;> grind
  · intro other time isCommitted key member
    by_cases same : other = name
    · grind
    · rw [(others other same).2] at isCommitted member
      obtain ⟨isStored, later⟩ := inv.stored other time isCommitted key member
      rw [(others other same).1]
      refine ⟨grows key _ isStored, ?_⟩
      intro third thirdTime thirdBegan prev
      have past := (oldFinished other time isCommitted).1
      by_cases thirdSame : third = name
      · rw [thirdSame, ownTrace] at thirdBegan
        rw [thirdSame, ownTransaction]
        rcases began thirdTime thirdBegan with ⟨oldBegan, sameRead⟩ | ⟨now, -⟩
        · rw [sameRead]
          exact later name thirdTime oldBegan prev
        · omega
      · rw [(others third thirdSame).2] at thirdBegan
        rw [(others third thirdSame).1]
        exact later third thirdTime thirdBegan prev
  · intro lost
    obtain ⟨first, second, ne, key, firstUpdate, secondUpdate, firstBegan,
      firstCommitted, secondBegan, secondCommitted, firstBegins, firstCommits,
      secondBegins, secondCommits, overlapFirst, overlapSecond⟩ := lost
    by_cases firstSame : first = name
    · grind
    · by_cases secondSame : second = name
      · grind
      · grind

theorem inv_idle (inv : Inv recorded) :
    Inv ⟨recorded.system, recorded.clock + 1, recorded.trace⟩ := by
  refine ⟨inv.ordered, inv.positive, ?_, inv.pending, ?_, inv.stored, inv.safe⟩
  · intro name time isBegun
    have old := inv.began name time isBegun
    exact ⟨Nat.lt_succ_of_lt old.1, old.2⟩
  · intro name time isCommitted
    have old := inv.finished name time isCommitted
    exact ⟨Nat.lt_succ_of_lt old.1, old.2⟩

theorem Inv.uncommitted
    (inv : Inv recorded) (active : (recorded.system.transactions name).state = .active) :
    (recorded.trace name).committedAt = none := by
  cases shape : (recorded.trace name).committedAt with
  | none => rfl
  | some time =>
    have finished := (inv.finished name time shape).2
    rw [active] at finished
    cases finished

theorem Recorded.note_of_active (active : (recorded.system.transactions name).state = .active)
    (change : Trace → Trace) :
    recorded.note name change = update recorded.trace name (change (recorded.trace name)) := by
  rw [Recorded.note, if_pos active]

/-- A commit that passes validation has a snapshot that covers every committed
version of the keys it updates. -/
theorem version_le_of_validated {sys : OccSystem} (ordered : Ordered sys.engine.mem.nodes)
    (active : (sys.transactions name).state = .active) (cur : sys.SnapshotIsCurrent name)
    (valid : (sys.validating name).validate opts sys.engine sys.engine.mem
      sys.manager.activeTxns = [])
    {entry : WriteSetEntry} (member : entry ∈ (sys.transactions name).writeSet)
    (isVertex : entry.entityType = .vertex) {ver : UInt64}
    (stored : Stored sys.engine.mem (entry.entityId, entry.columnId) ver) :
    ver ≤ (sys.transactions name).readTimestamp := by
  obtain ⟨node, nodeMember, sameEntity, sameColumn, sameType, target, sameVersion⟩ := stored
  dsimp only at sameEntity sameColumn
  rcases (cur active).2 entry member isVertex with unread | covered
  · exfalso
    have chainSome : sys.engine.mem.getVersionChain entry.entityId .vertex entry.columnId ≠ [] := by
      rw [← sameEntity, ← sameColumn]
      refine getVersionChain_ne_nil ordered nodeMember sameType ?_
      rw [target]
      decide
    have noConflict : (sys.validating name).writeConflicts sys.engine.mem
        sys.manager.activeTxns { entry with txnVersion := sys.manager.globalNext } = [] := by
      have writes := (append_eq_nil_iff.mp valid).2
      rw [flatMap_eq_nil_iff] at writes
      exact writes _ (mem_map_of_mem member)
    rw [OCCTransaction.writeConflicts] at noConflict
    dsimp only at noConflict
    rw [isVertex] at noConflict
    cases shape : sys.engine.mem.getVersionChain entry.entityId .vertex entry.columnId with
    | nil => exact chainSome shape
    | cons latest older =>
      have blind : (sys.validating name).readEntryOf
          { entry with txnVersion := sys.manager.globalNext } = none := unread
      rw [shape] at noConflict
      dsimp only at noConflict
      rw [OCCTransaction.writeWriteConflict] at noConflict
      dsimp only at noConflict
      rw [isVertex] at blind
      rw [blind] at noConflict
      cases noConflict
  · rw [← sameVersion]
    exact covered node nodeMember sameEntity sameColumn sameType

theorem stored_foldl_put (mem : VSLMemTable) (rows : List Row) {row : Row}
    (present : row ∈ mem.nodes.map LFNode.row ∨ row ∈ rows)
    (isVertex : row.key.entityType = EntityType.vertex.toByte) (noTarget : row.key.targetId = 0) :
    Stored (rows.foldl VSLMemTable.put mem) (row.key.entityId, row.key.columnId)
      row.txnVersion := by
  have inserted : row ∈ (rows.foldl VSLMemTable.put mem).nodes.map LFNode.row :=
    (foldl_put_perm rows mem).mem_iff.mpr (mem_append.mpr present)
  rcases mem_map.mp inserted with ⟨node, nodeMember, sameRow⟩
  refine ⟨node, nodeMember, ?_, ?_, ?_, ?_, ?_⟩
  · rw [sameRow]
  · rw [sameRow]
  · rw [sameRow, isVertex]
  · rw [sameRow, noTarget]
  · rw [sameRow]

theorem inv_commit {walOpts : WalOptions} (inv : Inv recorded)
    (active : (recorded.system.transactions name).state = .active)
    (cur : recorded.system.SnapshotIsCurrent name) (write : LogWrite) :
    Inv (recorded.step opts walOpts (.commit name write)) := by
  have counter : recorded.system.manager.globalNext ≤ recorded.system.manager.globalNext + 1 := by
    have below := (cur active).1
    grind [uint64Max]
  have uncommitted := inv.uncommitted active
  rw [Recorded.step, Recorded.note_of_active active]
  -- a conflict or a failing log write ends the transaction and leaves the memtable alone
  have failed : ∀ (sys : OccSystem), sys.engine = recorded.system.engine →
      sys.manager.globalNext = recorded.system.manager.globalNext + 1 →
      sys.transactions = recorded.system.transactions →
      Inv ⟨sys.finish name (recorded.system.validating name) .aborted, recorded.clock + 1,
        update recorded.trace name (recorded.trace name)⟩ := by
    intro sys sameEngine nextCounter sameTransactions
    have sameMem : (sys.finish name (recorded.system.validating name) .aborted).engine.mem =
        recorded.system.engine.mem := congrArg LsmEngine.mem sameEngine
    refine inv_replace inv (sameMem ▸ inv.ordered) (fun _ _ isStored => sameMem ▸ isStored) ?_ rfl
      (congrArg (update · name _) sameTransactions) rfl (fun _ isBegun => Or.inl ⟨isBegun, rfl⟩)
      nofun (by simp [uncommitted])
    show _ ≤ sys.manager.globalNext.toNat
    rw [nextCounter]
    exact counter
  rcases commit_cases opts walOpts active write with
    ⟨noWrites, res⟩ | res | ⟨-, status, -, res⟩ | ⟨-, -, valid, res⟩
  · have noUpdates : (recorded.trace name).updates = [] := by
      refine eq_nil_iff_forall_not_mem.mpr ?_
      intro key member
      obtain ⟨entry, entryMember, -⟩ := inv.pending name active key member
      rw [noWrites] at entryMember
      cases entryMember
    rw [res]
    refine inv_replace inv inv.ordered (fun _ _ isStored => isStored) le_rfl rfl rfl rfl
      (fun _ isBegun => Or.inl ⟨isBegun, rfl⟩) nofun ?_
    intro time now
    refine ⟨(Option.some.inj now).symm, rfl, ?_⟩
    simp [noUpdates]
  · rw [res]
    exact failed _ rfl rfl rfl
  · rw [res]
    exact failed _ rfl rfl rfl
  · rw [res]
    refine inv_replace inv (ordered_foldl_put inv.ordered _) ?_ ?_ rfl rfl rfl
      (fun _ isBegun => Or.inl ⟨isBegun, rfl⟩) nofun ?_
    · intro key ver isStored
      obtain ⟨node, member, sameEntity, sameColumn, sameType, noTarget, sameVersion⟩ := isStored
      have kept := stored_foldl_put recorded.system.engine.mem
        ((recorded.system.validating name).writeSet.map row)
        (Or.inl (mem_map_of_mem member)) sameType noTarget
      rwa [sameEntity, sameColumn, sameVersion] at kept
    · exact counter
    intro time now
    refine ⟨(Option.some.inj now).symm, rfl, ?_⟩
    intro key member
    obtain ⟨entry, entryMember, isVertex, sameKey⟩ := inv.pending name active key member
    refine ⟨?_, le_rfl, ?_⟩
    · have written : ({ entry with
          txnVersion := recorded.system.manager.globalNext } : WriteSetEntry).row ∈
          (recorded.system.validating name).writeSet.map row :=
        mem_map_of_mem (mem_map_of_mem entryMember)
      have vertexKey : makeKey entry.entityId entry.entityType entry.columnId
          entry.userTimestamp entry.targetId =
          .vertex entry.entityId entry.columnId entry.userTimestamp 0
            (UInt16.ofNat entry.targetId.toNat) 0 0 := by
        rw [isVertex]
        rfl
      have isStored := stored_foldl_put recorded.system.engine.mem _ (Or.inr written)
        (by rw [row, vertexKey]; rfl) (by rw [row, vertexKey]; rfl)
      rw [row, vertexKey] at isStored
      rw [← sameKey]
      exact isStored
    · intro other ne otherMember began committed isBegun isCommitted prev
      obtain ⟨isStored, later⟩ := inv.stored other committed isCommitted key otherMember
      rw [← sameKey] at isStored
      have covered := version_le_of_validated inv.ordered active cur valid entryMember
        isVertex isStored
      have beyond := later name began isBegun prev
      rw [UInt64.le_iff_toNat_le] at covered
      omega

theorem inv_step {walOpts : WalOptions} (recorded : Recorded)
    (op : Operation) (inv : Inv recorded) (allowed : Allowed recorded op) :
    Inv (recorded.step opts walOpts op) := by
  have idle : ∀ {sys : OccSystem} {name : Nat} (change : Trace → Trace),
      (recorded.system.transactions name).state ≠ .active → sys = recorded.system →
      Inv ⟨sys, recorded.clock + 1, recorded.note name change⟩ := by
    intro sys name change inactive same
    rw [same, Recorded.note, if_neg inactive]
    exact inv_idle inv
  cases op with
  | begin name =>
    by_cases active : (recorded.system.transactions name).state = .active
    · have readBelow : (recorded.system.manager.globalNext - 1).toNat <
          recorded.system.manager.globalNext.toNat := by
        have positive : 0 < recorded.system.manager.globalNext := inv.positive
        rw [← UInt64.lt_iff_toNat_lt]
        grind
      simp only [Recorded.step, Recorded.note_of_active active, begin, active, ne_eq,
        not_true_eq_false, if_false]
      refine inv_replace inv inv.ordered (fun _ _ isStored => isStored) le_rfl rfl rfl rfl ?_
        (fun _ => inv.pending name active) (by simp [inv.uncommitted active])
      intro time isBegun
      exact Or.inr ⟨(Option.some.inj isBegun).symm, readBelow⟩
    · exact idle _ active (unchanged_of_not_active opts walOpts active).1
  | get name id kind col =>
    by_cases active : (recorded.system.transactions name).state = .active
    · obtain ⟨readSet, frame⟩ := get_frame opts active id kind col
      rw [Recorded.step, Recorded.note_of_active active, frame]
      refine inv_replace inv inv.ordered (fun _ _ isStored => isStored) le_rfl rfl rfl rfl ?_ ?_ ?_
      · grind [Trace.noteGet]
      · have pending := inv.pending name active
        grind [Trace.noteGet, Trace.Pending]
      · grind [Trace.noteGet, inv.uncommitted active]
    · exact idle _ active ((unchanged_of_not_active opts walOpts active).2.1 id kind col)
  | write name call =>
    by_cases active : (recorded.system.transactions name).state = .active
    · obtain ⟨pending, sameBegan, sameCommitted⟩ :=
        Trace.noteWrites (inv.pending name active) call.writes
      rw [Recorded.step, Recorded.note_of_active active, write_of_active active]
      refine inv_replace inv inv.ordered (fun _ _ isStored => isStored) le_rfl rfl rfl rfl ?_
        (fun _ => pending) ?_
      · rw [sameBegan]
        exact fun _ isBegun => Or.inl ⟨isBegun, rfl⟩
      · simp [sameCommitted, inv.uncommitted active]
    · exact idle _ active ((unchanged_of_not_active opts walOpts active).2.2.1 call)
  | commit name write =>
    by_cases active : (recorded.system.transactions name).state = .active
    · exact inv_commit inv active allowed write
    · exact idle _ active ((unchanged_of_not_active opts walOpts active).2.2.2.1 write)
  | abort name write =>
    by_cases active : (recorded.system.transactions name).state = .active
    · simp only [Recorded.step, Recorded.note_of_active active, abort, active]
      refine inv_replace inv inv.ordered (fun _ _ isStored => isStored) le_rfl rfl rfl rfl ?_ ?_ ?_
      · simp [Trace.empty]
      · simp [Trace.empty, Trace.Pending]
      · simp [Trace.empty]
    · exact idle _ active ((unchanged_of_not_active opts walOpts active).2.2.2.2 write)

/-- In every run whose commits all meet the condition no update is lost. -/
theorem no_lost_update
    (opts : LsmOptions) (walOpts : WalOptions) (eng : LsmEngine) (shards : UInt32)
    (wal : Option WalWriter) (ops : List Operation)
    (cur : Admissible (Recorded.step opts walOpts) Allowed (Recorded.init eng shards wal) ops) :
    ¬ (run (Recorded.step opts walOpts) (Recorded.init eng shards wal) ops).LostUpdate :=
  (invariant_run inv_step (inv_init eng shards wal) cur).safe

/-- Transaction 1 overwrites the version it has read, while transaction 2 writes another key. -/
theorem no_lost_update_of_read_entry :
    let ops : List Operation :=
      [.begin 0, .write 0 (.put 7 .vertex 0 ⟨16⟩ 10 0 0), .commit 0 .success,
        .begin 1, .begin 2, .get 1 7 .vertex 0, .get 2 8 .vertex 0,
        .write 1 (.put 7 .vertex 0 ⟨32⟩ 11 0 0), .write 2 (.put 8 .vertex 0 ⟨48⟩ 12 0 0),
        .commit 1 .success, .commit 2 .success]
    ¬ (run (Recorded.step .default .default) (Recorded.init (.init .default) 1 none)
      ops).LostUpdate := by
  intro ops
  have admissible : Admissible (Recorded.step .default .default) Allowed
      (Recorded.init (.init .default) 1 none) ops := by
    refine ⟨trivial, trivial, ?_, trivial, trivial, trivial, trivial, trivial, trivial, ?_, ?_,
      trivial⟩
    · rw [Allowed, SnapshotIsCurrent]
      decide +kernel
    · rw [Allowed, SnapshotIsCurrent]
      decide +kernel
    · rw [Allowed, SnapshotIsCurrent]
      decide +kernel
  exact no_lost_update .default .default (.init .default) 1 none ops admissible

/-- Transactions 1 and 2 read the version of transaction 0 and both overwrite it; the
version that transaction 1 commits lies beyond the snapshot of transaction 2. -/
theorem lost_update_beyond_snapshot :
    let ops : List Operation :=
      [.begin 0, .write 0 (.put 7 .vertex 0 ⟨16⟩ 10 0 0), .commit 0 .success,
        .begin 9, .write 9 (.put 8 .vertex 0 ⟨16⟩ 10 0 0), .commit 9 .success,
        .begin 1, .begin 2, .get 1 7 .vertex 0, .get 2 7 .vertex 0,
        .write 1 (.put 7 .vertex 0 ⟨32⟩ 11 0 0), .write 2 (.put 7 .vertex 0 ⟨48⟩ 12 0 0),
        .commit 1 .success, .commit 2 .success]
    (run (Recorded.step .default .default) (Recorded.init (.init .default) 1 none)
      ops).LostUpdate :=
  ⟨1, 2, by decide, (7, 0), by decide, by decide, 6, 12, 7, 13, by decide, by decide,
    by decide, by decide, by decide, by decide⟩

end OccSystem

end CedarGraph
