import CedarGraph.Dtx.Decision
import CedarGraph.Lib.Runs

/-!
# The two-phase commit engine

A transaction is prepared on its clients, the decision is logged, and the clients are told to
commit. An execution is the list of what outlives the process or leaves it: records of the state
log, steps on the decision file, and messages. A crash keeps a front part of it.
-/

namespace CedarGraph

open FixedWidth List Runs

inductive TxnState where
  | active
  | preparing
  | prepared
  | committing
  | committed
  | aborting
  | aborted
  | unknown
  deriving DecidableEq, Repr

inductive ParticipantStatus where
  | unknown
  | preparing
  | prepared
  | failed
  | committed
  | aborted
  deriving DecidableEq, Repr

structure TransactionRecord where
  state : TxnState
  commitTs : UInt64
  participants : List UInt16
  participantStates : List (UInt16 × ParticipantStatus)
  deriving DecidableEq, Repr

/-- The record that `CreateTransaction` writes: the states are a map from the
participants, and the commit timestamp keeps its default. -/
def TransactionRecord.create (participants : List UInt16) : TransactionRecord :=
  { state := .active
    commitTs := 0
    participants := participants
    participantStates :=
      (participants.dedup.insertionSort (· ≤ ·)).map fun participant => (participant, .unknown) }

/-- Clients are numbered; the default partition is spread over them by entity. -/
def partitionOf (clients : Nat) (key : CedarKey) : UInt16 :=
  if key.partId = 0 then UInt16.ofNat (key.entityId.toNat % max 1 clients) else key.partId

/-- The resolver of the recovery manager; `GetParticipants` chooses the same client. -/
def nodeOf (clients : Nat) (part : UInt16) : Nat :=
  part.toNat % clients

/-- `GetParticipants`: one entry for each partition, so that a client with several
partitions is listed several times. -/
def getParticipants (clients : Nat) (keys : List CedarKey) : List Nat :=
  if clients = 0 then []
  else if keys.isEmpty then List.range clients
  else (keys.map (partitionOf clients)).eraseDups.map (nodeOf clients)

def getPartitionIDs (clients : Nat) (keys : List CedarKey) : List UInt16 :=
  if clients = 0 then []
  else if keys.isEmpty then (List.range clients).map UInt16.ofNat
  else (keys.map (partitionOf clients)).dedup.insertionSort (· ≤ ·)

theorem length_getPartitionIDs_lt
    {clients : Nat} (numbered : clients < 2 ^ 32) (keys : List CedarKey) :
    (getPartitionIDs clients keys).length < 2 ^ 32 := by
  rw [getPartitionIDs]
  split
  · decide
  · split
    · rw [length_map, length_range]
      exact numbered
    rw [length_insertionSort]
    have distinct : ((keys.map (partitionOf clients)).dedup.map UInt16.toNat).Nodup :=
      (nodup_dedup _).map fun _ _ same => UInt16.toNat_inj.mp same
    have inRange : (keys.map (partitionOf clients)).dedup.map UInt16.toNat ⊆ range 65536 := by
      intro value mem
      obtain ⟨part, -, rfl⟩ := mem_map.mp mem
      exact mem_range.mpr part.toNat_lt
    have bound := (subperm_of_subset distinct inRange).length_le
    rw [length_map, length_range] at bound
    omega

theorem getParticipants_eq_nil_iff {clients : Nat} {keys : List CedarKey} :
    getParticipants clients keys = [] ↔ clients = 0 := by
  rw [getParticipants]
  split
  · rename_i noClients
    exact ⟨fun _ => noClients, fun _ => rfl⟩
  rename_i reachable
  refine ⟨fun nobody => ?_, fun noClients => absurd noClients reachable⟩
  split at nobody
  · exact range_eq_nil.mp nobody
  · rename_i someKey
    cases keys with
    | nil => exact absurd rfl someKey
    | cons key rest =>
      rw [map_cons, eraseDups_cons, map_cons] at nobody
      cases nobody

inductive DtxMessage where
  | prepare (node : Nat)
  | commit (node : Nat) (commitTs : UInt64)
  | abort (node : Nat)
  deriving DecidableEq, Repr

/-- The bytes of the decision file, and whether they would survive a crash. -/
structure DecisionFile where
  bytes : Bytes
  synced : Bool
  deriving DecidableEq, Repr

/-- What is recorded about the transaction, and what was sent for it. -/
structure Coordinator where
  record : Option TransactionRecord
  decision : Option DecisionFile
  sent : List DtxMessage
  deriving DecidableEq, Repr

inductive CoordinatorEvent where
  | createTransaction (participants : List UInt16)
  | updateState (state : TxnState)
  | openDecision
  | writeDecision (bytes : Bytes)
  | syncDecision
  | send (message : DtxMessage)
  deriving DecidableEq, Repr

namespace Coordinator

/-- An existing record is not replaced, and only an existing one is updated. -/
def apply (coord : Coordinator) : CoordinatorEvent → Coordinator
  | .createTransaction participants =>
    { coord with
      record := some (coord.record.getD (.create participants)) }
  | .updateState state =>
    { coord with record := coord.record.map fun rec => { rec with state } }
  | .openDecision => { coord with decision := some ⟨[], false⟩ }
  | .writeDecision bytes =>
    { coord with
      decision := coord.decision.map fun file => ⟨file.bytes ++ bytes, false⟩ }
  | .syncDecision =>
    { coord with
      decision := coord.decision.map fun file => { file with synced := true } }
  | .send msg => { coord with sent := coord.sent ++ [msg] }

/-- Before the engine runs: a transaction that was begun elsewhere already has a record
with the participants known then. -/
def initial (begun : Option (List UInt16)) : Coordinator :=
  ⟨begun.map .create, none, []⟩

/-- A crash: of a file that was not synced some front part is left, or nothing. -/
def crash (coord : Coordinator) (kept : Option Nat) : Coordinator :=
  { coord with
    decision :=
      match coord.decision with
      | none => none
      | some file =>
        if file.synced then some file
        else kept.map fun size => ⟨file.bytes.take size, true⟩ }

theorem run_sends {Target : Type} (coord : Coordinator) (msg : Target → DtxMessage)
    (targets : List Target) :
    run apply coord (targets.map fun target => .send (msg target)) =
      { coord with sent := coord.sent ++ targets.map msg } := by
  induction targets generalizing coord with
  | nil =>
    rw [map_nil, map_nil, append_nil]
    rfl
  | cons target rest ih =>
    have later := ih (coord.apply (.send (msg target)))
    rw [map_cons, map_cons, append_cons]
    exact later

theorem run_append (coord : Coordinator) (first second : List CoordinatorEvent) :
    run apply coord (first ++ second) = run apply (run apply coord first) second :=
  foldl_append

end Coordinator

/-- The arguments of `Execute2PC` with the number of clients, which are numbered by
32-bit node ids, and whether a directory for decisions is configured. -/
structure TwoPhaseCommit where
  clients : Nat
  numbered : clients < 2 ^ 32
  logged : Bool
  txnId : UInt64
  readSet : List CedarKey
  writeSet : List CedarKey
  commitTs : UInt64

/-- How `PersistCommitDecision` ends: a write may fail after some bytes, but never
after the last one. -/
inductive PersistOutcome where
  | success
  | openFailed
  | writeFailed (written : Nat)
  | fsyncFailed
  | closeFailed
  deriving DecidableEq, Repr

/-- The order in which the tasks of a parallel phase run, or in which the addresses of
the clients happen to lie. -/
structure Reordering where
  order : List Nat → List Nat
  perm : ∀ clients, (order clients).Perm clients

/-- What the engine does not decide: by position in the list of participants, whether
`Prepare` was granted and `Commit` acknowledged (a refused or lost call is neither),
whether the replies came in time, how the decision was persisted, and the orders. -/
structure TwoPhaseOutcomes where
  granted : Nat → Bool
  grantedInTime : Bool
  persisted : PersistOutcome
  acknowledged : Nat → Bool
  acknowledgedInTime : Bool
  prepares : Reordering
  commits : Reordering
  aborts : Reordering
  addresses : Reordering

namespace TwoPhaseCommit

variable (txn : TwoPhaseCommit) (outs : TwoPhaseOutcomes)

def decision : CommitDecision :=
  ⟨txn.txnId, txn.commitTs, getPartitionIDs txn.clients txn.writeSet⟩

/-- `PersistCommitDecision` as far as it got.  Without a directory it does nothing. -/
def persistEvents : List CoordinatorEvent :=
  if txn.logged then
    match outs.persisted with
    | .success | .closeFailed =>
      [.openDecision, .writeDecision txn.decision.encode, .syncDecision]
    | .openFailed => []
    | .writeFailed written =>
      [.openDecision, .writeDecision (txn.decision.encode.dropLast.take written)]
    | .fsyncFailed => [.openDecision, .writeDecision txn.decision.encode]
  else []

def persistSucceeds : Bool :=
  !txn.logged || outs.persisted = .success

def prepareAll (nodes : List Nat) : List CoordinatorEvent :=
  nodes.map fun node => .send (.prepare node)

def commitAll (nodes : List Nat) : List CoordinatorEvent :=
  nodes.map fun node => .send (.commit node txn.commitTs)

def abortAll (nodes : List Nat) : List CoordinatorEvent :=
  nodes.map fun node => .send (.abort node)

def every (replies : Nat → Bool) (nodes : List Nat) : Bool :=
  (List.range nodes.length).all replies

/-- `WaitForPrepareQuorum` and `WaitForCommitQuorum`: without participants there is
nothing to wait for. -/
def quorum (replies : Nat → Bool) (inTime : Bool) (nodes : List Nat) : Bool :=
  nodes.isEmpty || (inTime && every replies nodes)

def begin : CoordinatorEvent :=
  .createTransaction (getPartitionIDs txn.clients txn.writeSet)

/-- The participants that `ExecuteSequential2PC` finds prepared. -/
def sequentialAcks (nodes : List Nat) : Nat :=
  ((List.range nodes.length).takeWhile outs.granted).length

/-- `ExecuteSequential2PC`: the first refusal ends the prepare phase, and no state is
recorded. -/
def sequential : List CoordinatorEvent :=
  let nodes := getParticipants txn.clients txn.writeSet
  let acks := sequentialAcks outs nodes
  txn.begin :: (prepareAll (nodes.take (acks + 1)) ++
    if acks < nodes.length then abortAll (nodes.take acks)
    else txn.persistEvents outs ++
      if txn.persistSucceeds outs then txn.commitAll nodes
      else abortAll nodes)

/-- `ExecuteParallel2PC`: the prepared state is recorded after the decision. -/
def parallel : List CoordinatorEvent :=
  let nodes := getParticipants txn.clients txn.writeSet
  txn.begin :: (prepareAll (outs.prepares.order nodes) ++
    if quorum outs.granted outs.grantedInTime nodes then
      txn.persistEvents outs ++
        if txn.persistSucceeds outs then
          .updateState .prepared :: (txn.commitAll (outs.commits.order nodes) ++
            [.updateState
              (if quorum outs.acknowledged outs.acknowledgedInTime nodes then .committed
              else .committing)])
        else abortAll nodes
    else abortAll (outs.aborts.order nodes))

/-- The participants of the pipelined worker: those of both key sets, each once, in the
order of their addresses. -/
def pipelinedParticipants : List Nat :=
  outs.addresses.order
    (getParticipants txn.clients txn.readSet ++ getParticipants txn.clients txn.writeSet).dedup

/-- `PipelineWorkerLoop` for one transaction: the prepared state is recorded before the
decision. -/
def pipelined : List CoordinatorEvent :=
  let nodes := txn.pipelinedParticipants outs
  txn.begin ::
    if nodes.isEmpty then [.updateState .aborted]
    else prepareAll (outs.prepares.order nodes) ++
      if every outs.granted nodes then
        .updateState .prepared :: (txn.persistEvents outs ++
          if txn.persistSucceeds outs then
            txn.commitAll (outs.commits.order nodes) ++
              [.updateState (if every outs.acknowledged nodes then .committed else .committing)]
          else abortAll nodes ++ [.updateState .aborted])
      else abortAll nodes ++ [.updateState .aborted]

end TwoPhaseCommit

inductive TwoPhaseStrategy where
  | sequential
  | parallel
  | pipelined
  deriving DecidableEq, Repr

namespace TwoPhaseCommit

variable (txn : TwoPhaseCommit) (outs : TwoPhaseOutcomes)

def events : TwoPhaseStrategy → List CoordinatorEvent
  | .sequential => txn.sequential outs
  | .parallel => txn.parallel outs
  | .pipelined => txn.pipelined outs

def participants : TwoPhaseStrategy → List Nat
  | .sequential | .parallel => getParticipants txn.clients txn.writeSet
  | .pipelined => txn.pipelinedParticipants outs

theorem participants_eq_nil_iff
    {txn : TwoPhaseCommit} {outs : TwoPhaseOutcomes} {strat : TwoPhaseStrategy} :
    txn.participants outs strat = [] ↔ txn.clients = 0 := by
  cases strat with
  | sequential => exact getParticipants_eq_nil_iff
  | parallel => exact getParticipants_eq_nil_iff
  | pipelined =>
    have sameLength := (outs.addresses.perm (getParticipants txn.clients txn.readSet ++
        getParticipants txn.clients txn.writeSet).dedup).length_eq
    rw [participants, pipelinedParticipants, ← length_eq_zero_iff, sameLength,
      length_eq_zero_iff, dedup_eq_nil, append_eq_nil_iff,
      getParticipants_eq_nil_iff, getParticipants_eq_nil_iff, and_self]

def prepareSucceeds : TwoPhaseStrategy → Bool
  | .parallel =>
    quorum outs.granted outs.grantedInTime (txn.participants outs .parallel)
  | strat => every outs.granted (txn.participants outs strat)

/-- The coordinator after a crash that leaves only the first effects of an execution. -/
def interrupted (strat : TwoPhaseStrategy) (begun : Option (List UInt16)) (effects : Nat)
    (kept : Option Nat) : Coordinator :=
  (run Coordinator.apply (.initial begun) ((txn.events outs strat).take effects)).crash kept

section Stages

variable (txn : TwoPhaseCommit) (outs : TwoPhaseOutcomes)

def recorded (begun : Option (List UInt16)) : TransactionRecord :=
  .create (begun.getD (getPartitionIDs txn.clients txn.writeSet))

def leftFile : Option DecisionFile :=
  if txn.logged then
    match outs.persisted with
    | .success | .closeFailed => some ⟨txn.decision.encode, true⟩
    | .openFailed => none
    | .writeFailed written => some ⟨txn.decision.encode.dropLast.take written, false⟩
    | .fsyncFailed => some ⟨txn.decision.encode, false⟩
  else none

variable {txn outs}

open Coordinator

theorem run_begin (begun : Option (List UInt16)) (nodes : List Nat) :
    run apply (initial begun) (txn.begin :: prepareAll nodes) =
      ⟨some (txn.recorded begun), none, nodes.map .prepare⟩ := by
  have prepares := run_sends ((initial begun).apply txn.begin) .prepare nodes
  refine prepares.trans ?_
  cases begun with
  | none => rfl
  | some participants => rfl

theorem run_persistEvents (rec : Option TransactionRecord) (sent : List DtxMessage) :
    run apply ⟨rec, none, sent⟩ (txn.persistEvents outs) = ⟨rec, txn.leftFile outs, sent⟩ := by
  rw [persistEvents, leftFile]
  split
  · cases outs.persisted with
    | _ => rfl
  · rfl

theorem mem_persistEvents {event : CoordinatorEvent} (mem : event ∈ txn.persistEvents outs) :
    event = .openDecision ∨ (∃ bytes, event = .writeDecision bytes) ∨ event = .syncDecision := by
  rw [persistEvents] at mem
  split at mem
  · cases persisted : outs.persisted with
    | success =>
      simp only [persisted, mem_cons, not_mem_nil, or_false] at mem
      exact mem.imp_right (Or.imp_left fun isWrite => ⟨_, isWrite⟩)
    | openFailed => simp [persisted] at mem
    | writeFailed written =>
      simp only [persisted, mem_cons, not_mem_nil, or_false] at mem
      exact mem.imp_right fun isWrite => Or.inl ⟨_, isWrite⟩
    | fsyncFailed =>
      simp only [persisted, mem_cons, not_mem_nil, or_false] at mem
      exact mem.imp_right fun isWrite => Or.inl ⟨_, isWrite⟩
    | closeFailed =>
      simp only [persisted, mem_cons, not_mem_nil, or_false] at mem
      exact mem.imp_right (Or.imp_left fun isWrite => ⟨_, isWrite⟩)
  · cases mem

theorem parallel_eq (txn : TwoPhaseCommit) (outs : TwoPhaseOutcomes) :
    txn.parallel outs =
      (txn.begin :: prepareAll (outs.prepares.order (txn.participants outs .parallel))) ++
        if txn.prepareSucceeds outs .parallel then
          txn.persistEvents outs ++
            if txn.persistSucceeds outs then
              [.updateState .prepared] ++
                (txn.commitAll (outs.commits.order (txn.participants outs .parallel)) ++
                  [.updateState
                    (if quorum outs.acknowledged outs.acknowledgedInTime
                        (txn.participants outs .parallel) then
                      .committed else .committing)])
            else abortAll (txn.participants outs .parallel)
        else abortAll (outs.aborts.order (txn.participants outs .parallel)) :=
  rfl

theorem pipelined_eq (somebody : ¬ (txn.participants outs .pipelined).isEmpty = true) :
    txn.pipelined outs =
      (txn.begin :: prepareAll (outs.prepares.order (txn.participants outs .pipelined))) ++
        if txn.prepareSucceeds outs .pipelined then
          [.updateState .prepared] ++ (txn.persistEvents outs ++
            if txn.persistSucceeds outs then
              txn.commitAll (outs.commits.order (txn.participants outs .pipelined)) ++
                [.updateState
                  (if every outs.acknowledged (txn.participants outs .pipelined)
                    then .committed else .committing)]
            else abortAll (txn.participants outs .pipelined) ++ [.updateState .aborted])
        else abortAll (txn.participants outs .pipelined) ++ [.updateState .aborted] := by
  rw [participants] at somebody
  rw [pipelined, if_neg somebody]
  rfl

end Stages

end TwoPhaseCommit

end CedarGraph
