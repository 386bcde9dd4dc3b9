import CedarGraph.Lib.Runs
import CedarGraph.Txn.Occ
import CedarGraph.Wal.Replay

/-!
# Recovery of transactions

A commit logs its write set before it changes the memtable. The marker that an abort logs is an
ordinary put of the default key, which the replay cannot tell from data. As long as no active
transaction is aborted, the replay restores exactly the committed write sets.
-/

namespace CedarGraph

open List WriteSetEntry

/-- The versions that the write set of a transaction stands for. -/
def OCCTransaction.versions (txn : OCCTransaction) : List Row :=
  txn.writeSet.map fun entry => ⟨entry.key, entry.descriptor, entry.txnVersion⟩

namespace OccSystem

/-- A system with the write sets of the transactions whose commit returned OK. -/
structure Journal where
  system : OccSystem
  committed : List Row

namespace Journal

/-- An engine whose log was opened on an empty directory. -/
def init (eng : LsmEngine) (shards : UInt32) : Journal :=
  ⟨.init eng shards (some (WalWriter.openLog [])), []⟩

def step (opts : LsmOptions) (walOpts : WalOptions) (journal : Journal) : Operation → Journal
  | .begin name => { journal with system := (journal.system.begin name).1 }
  | .get name id kind col =>
    { journal with
      system := (journal.system.get opts name id kind col).1 }
  | .write name call => { journal with system := (journal.system.write name call).1 }
  | .commit name write =>
    let res := journal.system.commit opts walOpts name write
    ⟨res.1, match res.2 with
      | .ok () => journal.committed ++ (res.1.transactions name).versions
      | .error _ => journal.committed⟩
  | .abort name write => { journal with system := (journal.system.abort walOpts name write).1 }

def replayed (journal : Journal) : VSLMemTable :=
  match journal.system.wal with
  | none => .empty
  | some writer => writer.directory.replayWAL 0 .empty

end Journal

/-- The condition on a step: only a transaction that a failed commit has already
aborted is aborted, and the record of a commit fits its header and is written. -/
def Journal.Allowed (journal : Journal) : Operation → Prop
  | .commit name write =>
    (journal.system.transactions name).state = .active → write.outcomes.Succeeds ∧
      4 + 53 * (journal.system.transactions name).writeSet.length < 2 ^ 32 ∧
      ∀ writer, journal.system.wal = some writer → writer.fileNumber ≠ 0xFFFFFFFF
  | .abort name _ => (journal.system.transactions name).state ≠ .active
  | _ => True

/-- The log holds the committed write sets. -/
structure Journal.Inv (journal : Journal) (log : Log) : Prop where
  bound : log.chunks.length < 2 ^ 32
  intact : ∀ req ∈ log.chunks.flatten, (∀ op ∈ req.batch, op.Named) ∧
    req.batch.encode.length < 2 ^ 32
  writer : ∃ writer, journal.system.wal = some writer ∧ writer.Represents log
  rows : replayedRows log.chunks.flatten = journal.committed

theorem Journal.inv_init (eng : LsmEngine) (shards : UInt32) :
    (Journal.init eng shards).Inv Log.empty := by
  refine ⟨by decide, ?_, ⟨_, rfl, WalWriter.represents_openLog⟩, rfl⟩
  intro req mem
  cases mem

theorem Journal.Inv.replayed_perm {journal : Journal} {log : Log} (inv : journal.Inv log) :
    (journal.replayed.nodes.map LFNode.row).Perm journal.committed := by
  obtain ⟨writer, isOpen, repr⟩ := inv.writer
  have files := replayWAL_files inv.bound.le inv.intact 0 .empty
  rw [Journal.replayed, isOpen]
  dsimp only
  rw [repr.directory, files, drop_zero, ← inv.rows]
  exact foldl_replayOp_perm _ _

section Steps

variable {opts : LsmOptions} {walOpts : WalOptions}

variable {log : Log} {journal : Journal}

theorem writeLog_represents {writer : WalWriter} (repr : writer.Represents log)
    (bound : log.chunks.length + 1 < 2 ^ 32) {batch : WalBatch} (someOps : batch ≠ [])
    {write : LogWrite} (succeeds : write.outcomes.Succeeds) :
    ∃ final, writeLog walOpts (some writer) batch write = (some final, .ok ()) ∧
      final.Represents (log.addAll walOpts [⟨write.sequence, batch⟩]) := by
  have hasFile : ¬ writer.currentFile.isNone = true := by
    rw [repr.currentFile]
    simp
  have notEmpty : ¬ batch.isEmpty = true := by
    intro isEmpty
    exact someOps (isEmpty_iff.mp isEmpty)
  have succeeded : (writer.processGroupCommit walOpts write.outcomes
      [⟨write.sequence, batch⟩]).2 = .ok () :=
    WalWriter.processGroupCommit_success writer _ succeeds
  rw [Log.chunks, length_append, length_singleton] at bound
  refine ⟨(writer.processGroupCommit walOpts write.outcomes [⟨write.sequence, batch⟩]).1, ?_, ?_⟩
  · rw [writeLog]
    dsimp only
    rw [if_neg notEmpty, if_neg hasFile, succeeded]
  · apply repr.processGroupCommit
    · rw [length_singleton]
      exact bound
    · exact succeeds.closed
    · exact Prod.ext rfl succeeded

theorem Journal.Inv.of_same
    (inv : journal.Inv log) {sys : OccSystem} (sameWal : sys.wal = journal.system.wal) :
    Journal.Inv ⟨sys, journal.committed⟩ log := by
  obtain ⟨writer, isOpen, repr⟩ := inv.writer
  exact ⟨inv.bound, inv.intact, ⟨writer, sameWal.trans isOpen, repr⟩, inv.rows⟩

theorem filterMap_replayRow_walOp (txn : OCCTransaction) :
    (txn.writeSet.map walOp).filterMap WalWriteOp.replayRow = txn.versions := by
  rw [filterMap_map, OCCTransaction.versions, ← filterMap_eq_map]
  rfl

theorem Journal.Inv.of_logged
    (inv : journal.Inv log) (bound : log.chunks.length + 1 < 2 ^ 32) {txn : OCCTransaction}
    (fits : 4 + 53 * txn.writeSet.length < 2 ^ 32) {sequence : Nat}
    {sys : OccSystem} {final : WalWriter} (isOpen : sys.wal = some final)
    (repr : final.Represents (log.addAll walOpts [⟨sequence, txn.writeSet.map walOp⟩])) :
    Journal.Inv ⟨sys, journal.committed ++ txn.versions⟩
      (log.addAll walOpts [⟨sequence, txn.writeSet.map walOp⟩]) := by
  have flattened := Log.flatten_chunks_addAll walOpts log [⟨sequence, txn.writeSet.map walOp⟩]
  have lengths := Log.length_closed_addAll walOpts log [⟨sequence, txn.writeSet.map walOp⟩]
  refine ⟨?_, ?_, ⟨final, isOpen, repr⟩, ?_⟩
  · rw [Log.chunks, length_append, length_singleton] at bound ⊢
    rw [length_singleton] at lengths
    omega
  · intro req mem
    rw [flattened] at mem
    rcases mem_append.mp mem with old | new
    · exact inv.intact req old
    · rw [mem_singleton.mp new]
      constructor
      · intro op opMember
        obtain ⟨entry, -, rfl⟩ := mem_map.mp opMember
        rfl
      · rw [WalBatch.length_encode, length_map]
        exact fits
  · rw [flattened, replayedRows, flatMap_append, filterMap_append, flatMap_singleton,
      filterMap_replayRow_walOp, ← inv.rows]
    rfl

theorem Journal.inv_commit (inv : journal.Inv log) {name : Nat} {write : LogWrite}
    (allowed : journal.Allowed (.commit name write)) :
    ∃ next, (journal.step opts walOpts (.commit name write)).Inv next := by
  by_cases active : (journal.system.transactions name).state = .active
  · obtain ⟨succeeds, fits, numbered⟩ := allowed active
    obtain ⟨writer, isOpen, repr⟩ := inv.writer
    have oneMore : log.chunks.length + 1 < 2 ^ 32 := by
      have bound := inv.bound
      rw [Log.chunks, length_append, length_singleton] at bound ⊢
      by_contra full
      have last : log.closed.length + 1 = 0xFFFFFFFF := by omega
      apply numbered writer isOpen
      rw [repr.fileNumber, last]
      rfl
    have validatingFits : 4 + 53 * (journal.system.validating name).writeSet.length < 2 ^ 32 := by
      rw [validating, OCCTransaction.withCommitTimestamp, length_map]
      exact fits
    have logWrite : ∀ someWrites : (journal.system.transactions name).writeSet ≠ [],
        ∃ final, writeLog walOpts journal.system.wal
          ((journal.system.validating name).writeSet.map walOp) write = (some final, .ok ()) ∧
          final.Represents (log.addAll walOpts [⟨write.sequence,
            (journal.system.validating name).writeSet.map walOp⟩]) := by
      intro someWrites
      have someOps : (journal.system.validating name).writeSet.map walOp ≠ [] := by
        simpa [validating, OCCTransaction.withCommitTimestamp] using someWrites
      rw [isOpen]
      exact writeLog_represents repr oneMore someOps succeeds
    rw [Journal.step]
    rcases commit_cases opts walOpts active write with
      ⟨noWrites, res⟩ | res | ⟨someWrites, status, failed, -⟩ |
      ⟨someWrites, -, -, res⟩
    · have noVersions : ((journal.system.finish name (journal.system.transactions name)
          .committed).transactions name).versions = [] := by
        rw [finish, setTransaction, OCCTransaction.versions]
        dsimp only
        rw [Function.update_self, noWrites, map_nil]
      rw [res]
      dsimp only
      rw [noVersions, append_nil]
      exact ⟨log, inv.of_same rfl⟩
    · rw [res]
      exact ⟨log, inv.of_same rfl⟩
    · obtain ⟨final, logged, -⟩ := logWrite someWrites
      rw [logged] at failed
      cases failed
    · obtain ⟨final, logged, finalRepresents⟩ := logWrite someWrites
      rw [res, logged]
      dsimp only
      rw [finish, setTransaction]
      dsimp only
      rw [Function.update_self]
      exact ⟨_, inv.of_logged oneMore validatingFits rfl finalRepresents⟩
  · have res : journal.system.commit opts walOpts name write =
        (journal.system, .error (.invalidArgument "OCCTransaction"
          "Transaction not in active state")) := by
      rw [commit]
      dsimp only
      rw [if_pos active]
    rw [Journal.step, res]
    exact ⟨log, inv⟩

theorem Journal.inv_step
    {operation : Operation} (inv : ∃ log, journal.Inv log) (allowed : journal.Allowed operation) :
    ∃ log, (journal.step opts walOpts operation).Inv log := by
  obtain ⟨log, inv⟩ := inv
  cases operation with
  | begin name =>
    refine ⟨log, inv.of_same ?_⟩
    rw [begin]
    dsimp only
    split
    · rfl
    · rfl
  | get name id kind col =>
    refine ⟨log, inv.of_same ?_⟩
    by_cases active : (journal.system.transactions name).state = .active
    · obtain ⟨readSet, res⟩ := get_frame opts active id kind col
      rw [res]
      rfl
    · rw [(unchanged_of_not_active opts walOpts active).2.1]
  | write name call =>
    refine ⟨log, inv.of_same ?_⟩
    by_cases active : (journal.system.transactions name).state = .active
    · rw [write_of_active active]
      rfl
    · rw [write_of_not_active active]
  | commit name write => exact Journal.inv_commit inv allowed
  | abort name write =>
    refine ⟨log, inv.of_same ?_⟩
    rw [(unchanged_of_not_active opts walOpts allowed).2.2.2.2]

end Steps

/-- In every run without aborts of active transactions, replaying the log restores
exactly the write sets of the committed transactions. -/
theorem replay_restores_committed
    (opts : LsmOptions) (walOpts : WalOptions) (eng : LsmEngine) (shards : UInt32)
    (ops : List Operation)
    (admissible : Runs.Admissible (Journal.step opts walOpts) Journal.Allowed
      (Journal.init eng shards) ops) :
    let final := Runs.run (Journal.step opts walOpts) (Journal.init eng shards) ops
    (final.replayed.nodes.map LFNode.row).Perm final.committed := by
  intro final
  have preserved : ∀ (journal : Journal) (operation : Operation), (∃ log, journal.Inv log) →
      journal.Allowed operation →
      ∃ log, (journal.step opts walOpts operation).Inv log := by
    intro journal operation inv allowed
    exact Journal.inv_step inv allowed
  obtain ⟨log, inv⟩ := Runs.invariant_run preserved
    ⟨Log.empty, Journal.inv_init eng shards⟩ admissible
  exact inv.replayed_perm

/-- Validation refuses the second transaction, which is then aborted. -/
theorem replay_restores_after_refused_commit :
    let final := Runs.run (Journal.step .default .default) (Journal.init (.init .default) 1)
      [.begin 1, .write 1 (.put 7 .vertex 0 ⟨16⟩ 10 0 0), .commit 1 .success,
        .begin 2, .write 2 (.put 7 .vertex 0 ⟨32⟩ 11 0 0), .commit 2 .success, .abort 2 .success]
    (final.system.transactions 2).state = .aborted ∧
      (final.replayed.nodes.map LFNode.row).Perm final.committed := by
  refine ⟨by decide +kernel, ?_⟩
  refine replay_restores_committed .default .default (.init .default) 1 _
    ⟨trivial, trivial, ?_, trivial, trivial, ?_, by rw [Journal.Allowed]; decide +kernel, trivial⟩
  · intro _
    refine ⟨GroupOutcomes.succeeds_success, by decide +kernel, ?_⟩
    intro writer isOpen
    injection isOpen with same
    rw [← same]
    decide +kernel
  · intro _
    refine ⟨GroupOutcomes.succeeds_success, by decide +kernel, ?_⟩
    intro writer isOpen
    injection isOpen with same
    rw [← same]
    decide +kernel

/-- Aborting a transaction leaves a version of the default key behind. -/
theorem replay_of_abort_marker :
    let final := Runs.run (Journal.step .default .default) (Journal.init (.init .default) 1)
      [.begin 1, .write 1 (.put 7 .vertex 0 ⟨16⟩ 10 0 0), .abort 1 .success]
    final.committed = [] ∧ final.replayed.nodes.map LFNode.row = [⟨.default, .tombstone 0, 0⟩] := by
  decide +kernel

end OccSystem

end CedarGraph
