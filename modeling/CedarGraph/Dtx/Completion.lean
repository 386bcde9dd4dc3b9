import CedarGraph.Dtx.Recovery

/-!
# Completing a persisted decision

A recovery that finds a decision drives the transaction to commit, but the timestamp and the
participants of its messages are those of the transaction record, which never learns the commit
timestamp.
-/

namespace CedarGraph

open List Runs TransactionRecord CommitDecision Option

namespace Coordinator

/-! ## Nodes that a recovery reaches -/

/-- The recovery sends a commit to the node and the node acknowledges it. -/
def Acknowledges (path : String) (clients : Nat) (coord : Coordinator)
    (recovery : RecoveryRun) (node : Nat) : Prop :=
  ∃ pos commitTs,
    (coord.recoveryEvents path clients recovery)[pos]? =
      some (.send (.commit node commitTs)) ∧ recovery.acknowledged pos = true

/-- Some recovery of the sequence gets an acknowledgement from the node. -/
def Driven (path : String) (clients : Nat) : Coordinator → List RecoveryRun → Nat → Prop
  | _, [], _ => False
  | coord, recovery :: rest, node =>
    coord.Acknowledges path clients recovery node ∨
      Driven path clients (coord.recover path clients recovery) rest node

section Driven

variable {path : String} {clients : Nat} {coord : Coordinator}

variable {recovery : RecoveryRun} {rec : TransactionRecord}

theorem driven_concat (recoveries : List RecoveryRun) {node : Nat}
    (acknowledges : (run (recover path clients) coord recoveries).Acknowledges path
      clients recovery node) : Driven path clients coord (recoveries ++ [recovery]) node := by
  induction recoveries generalizing coord with
  | nil => exact Or.inl acknowledges
  | cons first rest ih => exact Or.inr (ih acknowledges)

/-- What the recovery takes from the record. -/
structure Recorded (rec : TransactionRecord) (coord : Coordinator) : Prop where
  same : ∀ cur ∈ coord.record,
    cur.commitTs = rec.commitTs ∧ cur.participantStates = rec.participantStates

section

variable (recorded : Recorded rec coord)
include recorded

theorem Recorded.updateState (state : TxnState) :
    Recorded rec (coord.apply (.updateState state)) := by
  refine ⟨?_⟩
  intro updated isUpdated
  obtain ⟨cur, isCurrent, rfl⟩ := map_eq_some_iff.mp isUpdated
  exact recorded.same cur isCurrent

theorem Recorded.apply {event : CoordinatorEvent}
    (created : ∀ participants, event = .createTransaction participants →
      coord.record = none → rec = .create participants) : Recorded rec (coord.apply event) := by
  cases event with
  | createTransaction participants =>
    refine ⟨?_⟩
    intro cur isCurrent
    injection isCurrent with isCurrent
    cases before : coord.record with
    | none =>
      rw [before, getD_none] at isCurrent
      rw [created participants rfl before, isCurrent]
      exact ⟨rfl, rfl⟩
    | some prev =>
      rw [before, getD_some] at isCurrent
      rw [← isCurrent]
      exact recorded.same prev before
  | updateState state => exact recorded.updateState state
  | _ => exact ⟨recorded.same⟩

theorem Recorded.recover (recovery : RecoveryRun) :
    Recorded rec (coord.recover path clients recovery) := by
  have always : Throughout Coordinator.apply (Recorded rec) coord
      (coord.applyRecoveryAction clients recovery.acknowledged
        (coord.startRecovery path).recommendedAction) := by
    refine throughout_of_preserved ?_ recorded
    intro state event mem stateRecorded
    refine stateRecorded.apply ?_
    intro participants isCreate
    subst isCreate
    rcases mem_applyRecoveryAction mem with
      ⟨-, -, _, -, _, -, impossible⟩ | ⟨-, _, -, _, -, impossible⟩ | ⟨_, -, impossible⟩
    · cases impossible
    · cases impossible
    · cases impossible
  exact always.take recovery.effects

theorem Recorded.run (recoveries : List RecoveryRun) :
    Recorded rec (run (Coordinator.recover path clients) coord recoveries) := by
  induction recoveries generalizing coord with
  | nil => exact recorded
  | cons recovery rest ih => exact ih (recorded.recover recovery)

end

/-! ## Messages of a recovery -/

theorem Recorded.commit_sent (recorded : Recorded rec coord) {node : Nat} {commitTs : UInt64}
    (sent : .send (.commit node commitTs) ∈ coord.recoveryEvents path clients recovery) :
    commitTs = rec.commitTs ∧ clients ≠ 0 ∧
      ∃ participant ∈ rec.pending, nodeOf clients participant = node := by
  rcases mem_applyRecoveryAction (mem_of_mem_take sent) with
    ⟨-, reachable, cur, isCurrent, participant, isPending, isCommit⟩ |
    ⟨-, _, -, _, -, impossible⟩ | ⟨_, -, impossible⟩
  · obtain ⟨sameTs, sameStates⟩ := recorded.same cur isCurrent
    injection isCommit with isCommit
    injection isCommit with isNode isTs
    rw [pending, sameStates] at isPending
    exact ⟨isTs.trans sameTs, reachable, participant, isPending, isNode.symm⟩
  · cases impossible
  · cases impossible

theorem take_eq_of_mem_outcome
    {sends : List CoordinatorEvent} {out : CoordinatorEvent} {effects : Nat}
    (notSent : out ∉ sends) (mem : out ∈ (sends ++ [out]).take effects) :
    (sends ++ [out]).take effects = sends ++ [out] := by
  by_cases before : effects ≤ sends.length
  · rw [take_append_of_le_length before] at mem
    exact absurd (mem_of_mem_take mem) notSent
  · apply take_of_length_le
    rw [length_append, length_singleton]
    omega

theorem action_of_committed {acknowledged : Nat → Bool} {action : RecoveryAction}
    (committed : .updateState .committed ∈
      coord.applyRecoveryAction clients acknowledged action) : action = .commit := by
  rw [applyRecoveryAction] at committed
  split at committed
  · cases committed
  cases action with
  | none => cases committed
  | commit => rfl
  | abort =>
    dsimp only at committed
    rw [recoverAsParticipant] at committed
    split at committed
    · cases committed
    · rcases mem_append.mp committed with msg | atEnd
      · obtain ⟨_, -, impossible⟩ := mem_map.mp msg
        cases impossible
      · split at atEnd
        · cases mem_singleton.mp atEnd
        · cases atEnd

theorem Recorded.acknowledges (recorded : Recorded rec coord)
    (committed : .updateState .committed ∈ coord.recoveryEvents path clients recovery)
    {participant : UInt16} (isPending : participant ∈ rec.pending) :
    coord.Acknowledges path clients recovery (nodeOf clients participant) := by
  cases isRecord : coord.record with
  | none =>
    rw [recoveryEvents, applyRecoveryAction, isRecord, take_nil] at committed
    cases committed
  | some cur =>
    obtain ⟨-, sameStates⟩ := recorded.same cur isRecord
    have samePending : cur.pending = rec.pending := by
      rw [pending, sameStates, pending]
    rw [← samePending] at isPending
    have isCommit : (coord.startRecovery path).recommendedAction = .commit :=
      action_of_committed (mem_of_mem_take committed)
    have nonEmpty : ¬ cur.pending.isEmpty = true := by
      rw [List.isEmpty_iff]
      exact ne_nil_of_mem isPending
    have reachable : clients ≠ 0 := by
      intro noClients
      rw [recoveryEvents, isCommit, applyRecoveryAction, isRecord] at committed
      dsimp only at committed
      rw [recoverAsCoordinator, if_neg nonEmpty, if_pos noClients, take_nil] at committed
      cases committed
    have events := recoveryEvents_of_commit isRecord isCommit
      (ne_nil_of_mem isPending) reachable recovery
    rw [events] at committed
    have notSent : CoordinatorEvent.updateState .committed ∉ cur.pending.map fun participant =>
          .send (.commit (nodeOf clients participant) cur.commitTs) := by
      intro mem
      obtain ⟨_, -, impossible⟩ := mem_map.mp mem
      cases impossible
    cases allAcknowledged : (range cur.pending.length).all recovery.acknowledged with
    | false =>
      rw [allAcknowledged] at committed
      have inSends := mem_of_mem_take committed
      simp only [Bool.false_eq_true, if_false, append_nil] at inSends
      exact absurd inSends notSent
    | true =>
      rw [allAcknowledged, if_pos rfl] at committed events
      rw [take_eq_of_mem_outcome notSent committed] at events
      obtain ⟨pos, lt, isHere⟩ := getElem_of_mem isPending
      refine ⟨pos, cur.commitTs, ?_, ?_⟩
      · rw [events, getElem?_append_left (by rw [length_map]; exact lt),
          getElem?_map, getElem?_eq_getElem lt, isHere]
        rfl
      · exact all_eq_true.mp allAcknowledged pos (mem_range.mpr lt)

/-- A recovery that is not cut short and to which every node answers. -/
def answered (rec : TransactionRecord) : RecoveryRun :=
  ⟨fun _ => true, rec.pending.length + 1⟩

theorem recoveryEvents_answered (isRecord : coord.record = some rec)
    (isCommit : (coord.startRecovery path).recommendedAction = .commit)
    (reachable : clients ≠ 0) :
    coord.recoveryEvents path clients (answered rec) =
      (rec.pending.map fun participant =>
        CoordinatorEvent.send (.commit (nodeOf clients participant) rec.commitTs)) ++
        [.updateState .committed] := by
  cases isPending : rec.pending with
  | nil =>
    rw [recoveryEvents, isCommit, applyRecoveryAction, isRecord]
    dsimp only
    rw [recoverAsCoordinator, isPending, if_pos isEmpty_nil]
    exact take_of_length_le (Nat.le_add_left 1 _)
  | cons participant rest =>
    have someone : rec.pending ≠ [] := by
      rw [isPending]
      simp
    have allTrue : (range rec.pending.length).all (answered rec).acknowledged =
        true := all_eq_true.mpr fun _ _ => rfl
    rw [recoveryEvents_of_commit isRecord isCommit someone reachable, allTrue, if_pos rfl,
      ← isPending]
    apply take_of_length_le
    rw [length_append, length_map]
    exact Nat.le_refl _

/-! ## Decisions that recovery cannot read -/

/-- No decision can be read, and the recorded state does not ask for a commit. -/
structure Unread (path : String) (coord : Coordinator) : Prop where
  noDecision : coord.loadDecision path = none
  state : ∀ rec ∈ coord.record, rec.state = .active ∨ rec.state = .aborted

section

variable (unread : Unread path coord)
include unread

theorem Unread.action : (coord.startRecovery path).recommendedAction ≠ .commit := by
  intro isCommit
  rw [startRecovery] at isCommit
  split at isCommit
  · cases isCommit
  rename_i rec isRecord
  rw [unread.noDecision] at isCommit
  dsimp only at isCommit
  rw [recoveryResult] at isCommit
  rcases unread.state rec isRecord with isActive | isAborted
  · rw [isActive] at isCommit
    cases isCommit
  · rw [isAborted] at isCommit
    cases isCommit

theorem Unread.commit_not_sent (recovery : RecoveryRun) (node : Nat) (commitTs : UInt64) :
    .send (.commit node commitTs) ∉ coord.recoveryEvents path clients recovery := by
  intro sent
  rcases mem_applyRecoveryAction (mem_of_mem_take sent) with
    ⟨isCommit, -⟩ | ⟨-, _, -, _, -, impossible⟩ | ⟨_, -, impossible⟩
  · exact unread.action isCommit
  · cases impossible
  · cases impossible

theorem Unread.recover (recovery : RecoveryRun) :
    Unread path (coord.recover path clients recovery) := by
  have always : Throughout apply (Unread path) coord
      (coord.applyRecoveryAction clients recovery.acknowledged
        (coord.startRecovery path).recommendedAction) := by
    refine throughout_of_preserved ?_ unread
    intro state event mem stateUnread
    rcases mem_applyRecoveryAction mem with
      ⟨isCommit, -⟩ | ⟨-, _, -, _, -, rfl⟩ | ⟨final, isFinal, rfl⟩
    · exact absurd isCommit unread.action
    · exact ⟨stateUnread.noDecision, stateUnread.state⟩
    · refine ⟨stateUnread.noDecision, ?_⟩
      intro updated isUpdated
      obtain ⟨rec, -, rfl⟩ := map_eq_some_iff.mp isUpdated
      rcases isFinal with rfl | rfl
      · exact absurd (action_of_committed mem) unread.action
      · exact Or.inr rfl
  exact always.take recovery.effects

theorem Unread.run (recoveries : List RecoveryRun) :
    Unread path (run (Coordinator.recover path clients) coord recoveries) := by
  induction recoveries generalizing coord with
  | nil => exact unread
  | cons recovery rest ih => exact ih (unread.recover recovery)

end

end Driven

end Coordinator

namespace TwoPhaseCommit

variable (txn : TwoPhaseCommit)

open Coordinator

section Events

variable {txn : TwoPhaseCommit} {outs : TwoPhaseOutcomes}

/-- The event neither creates the record nor asks a client to prepare. -/
def Later (event : CoordinatorEvent) : Prop :=
  (∀ participants, event ≠ .createTransaction participants) ∧ ∀ node, event ≠ .send (.prepare node)

theorem later_persistEvents : ∀ event ∈ txn.persistEvents outs, Later event := by
  intro event mem
  rcases mem_persistEvents mem with rfl | ⟨_, rfl⟩ | rfl
  · exact ⟨nofun, nofun⟩
  · exact ⟨nofun, nofun⟩
  · exact ⟨nofun, nofun⟩

theorem later_commitAll (nodes : List Nat) : ∀ event ∈ txn.commitAll nodes, Later event := by
  intro event mem
  obtain ⟨node, -, rfl⟩ := mem_map.mp mem
  exact ⟨nofun, nofun⟩

theorem later_abortAll (nodes : List Nat) : ∀ event ∈ abortAll nodes, Later event := by
  intro event mem
  obtain ⟨node, -, rfl⟩ := mem_map.mp mem
  exact ⟨nofun, nofun⟩

theorem later_updateState (state : TxnState) :
    ∀ event ∈ [CoordinatorEvent.updateState state], Later event := by
  intro event mem
  rw [mem_singleton.mp mem]
  exact ⟨nofun, nofun⟩

/-- Every strategy begins with the record, asks its participants to prepare, and then
does neither again. -/
theorem events_eq (txn : TwoPhaseCommit) (outs : TwoPhaseOutcomes) (strat : TwoPhaseStrategy) :
    ∃ prepared rest, txn.events outs strat = (txn.begin :: prepareAll prepared) ++ rest ∧
      (∀ node ∈ prepared, node ∈ txn.participants outs strat) ∧
      ∀ event ∈ rest, Later event := by
  have inOrder : ∀ (reordering : Reordering) (nodes : List Nat),
      ∀ node ∈ reordering.order nodes, node ∈ nodes := by
    intro reordering nodes node mem
    exact (reordering.perm nodes).mem_iff.mp mem
  cases strat with
  | sequential =>
    refine ⟨_, _, rfl, fun _ mem => mem_of_mem_take mem, ?_⟩
    split
    · exact later_abortAll _
    · refine forall_mem_append.mpr ⟨later_persistEvents, ?_⟩
      split
      · exact later_commitAll _
      · exact later_abortAll _
  | parallel =>
    refine ⟨_, _, parallel_eq txn outs, inOrder _ _, ?_⟩
    split
    · refine forall_mem_append.mpr ⟨later_persistEvents, ?_⟩
      split
      · exact forall_mem_append.mpr ⟨later_updateState _,
          forall_mem_append.mpr ⟨later_commitAll _, later_updateState _⟩⟩
      · exact later_abortAll _
    · exact later_abortAll _
  | pipelined =>
    by_cases nobody : (txn.participants outs .pipelined).isEmpty = true
    · rw [participants] at nobody
      refine ⟨[], [.updateState .aborted], ?_, (by simp), later_updateState _⟩
      rw [events, pipelined, if_pos nobody]
      rfl
    · refine ⟨_, _, pipelined_eq nobody, inOrder _ _, ?_⟩
      split
      · refine forall_mem_append.mpr ⟨later_updateState _,
          forall_mem_append.mpr ⟨later_persistEvents, ?_⟩⟩
        split
        · exact forall_mem_append.mpr ⟨later_commitAll _, later_updateState _⟩
        · exact forall_mem_append.mpr ⟨later_abortAll _, later_updateState _⟩
      · exact forall_mem_append.mpr ⟨later_abortAll _, later_updateState _⟩

theorem later_apply {rec : TransactionRecord} {nodes : List Nat} {coord : Coordinator}
    (recorded : Recorded rec coord) (asked : ∀ node, .prepare node ∈ coord.sent → node ∈ nodes)
    {event : CoordinatorEvent} (later : Later event) :
    Recorded rec (coord.apply event) ∧
      ∀ node, .prepare node ∈ (coord.apply event).sent → node ∈ nodes := by
  refine ⟨recorded.apply fun participants isCreate => absurd isCreate (later.1 participants), ?_⟩
  intro node mem
  cases event with
  | send msg =>
    rcases mem_append.mp mem with prev | now
    · exact asked node prev
    · exact absurd (congrArg CoordinatorEvent.send (mem_singleton.mp now).symm) (later.2 node)
  | _ => exact asked node mem

/-- Wherever an execution stops, the record is the one that was created, and only
participants were asked to prepare. -/
theorem interrupted_spec (strat : TwoPhaseStrategy) (begun : Option (List UInt16)) (effects : Nat)
    (kept : Option Nat) :
    Recorded (txn.recorded begun) (txn.interrupted outs strat begun effects kept) ∧
      ∀ node,
        .prepare node ∈ (txn.interrupted outs strat begun effects kept).sent →
          node ∈ txn.participants outs strat := by
  let nodes := txn.participants outs strat
  let property : Coordinator → Prop := fun coord =>
    Recorded (txn.recorded begun) coord ∧ ∀ node, .prepare node ∈ coord.sent → node ∈ nodes
  obtain ⟨prepared, rest, shape, lt, restLater⟩ := events_eq txn outs strat
  have start : property (initial begun) := by
    refine ⟨⟨?_⟩, fun _ mem => nomatch mem⟩
    intro cur isCurrent
    cases begun with
    | none => cases isCurrent
    | some participants =>
      injection isCurrent with same
      rw [← same]
      exact ⟨rfl, rfl⟩
  have created : property ((initial begun).apply txn.begin) := by
    refine ⟨⟨?_⟩, fun _ mem => nomatch mem⟩
    intro cur isCurrent
    injection isCurrent with same
    cases begun with
    | none =>
      rw [← same]
      exact ⟨rfl, rfl⟩
    | some participants =>
      rw [← same]
      exact ⟨rfl, rfl⟩
  have prepares : Throughout apply property ((initial begun).apply txn.begin)
      (prepareAll prepared) := by
    refine throughout_of_preserved ?_ created
    intro state event mem stateHolds
    obtain ⟨node, isPrepared, rfl⟩ := mem_map.mp mem
    refine ⟨⟨stateHolds.1.same⟩, ?_⟩
    intro other otherMember
    rcases mem_append.mp otherMember with prev | now
    · exact stateHolds.2 other prev
    · injection mem_singleton.mp now with same
      rw [same]
      exact lt node isPrepared
  have front : Throughout apply property (initial begun)
      (txn.begin :: prepareAll prepared) := ⟨start, prepares⟩
  have always : Throughout apply property (initial begun) (txn.events outs strat) := by
    rw [shape]
    refine front.append (throughout_of_preserved ?_ ?_)
    · intro state event mem stateHolds
      exact later_apply stateHolds.1 stateHolds.2 (restLater event mem)
    · have atEnd := front.take (txn.begin :: prepareAll prepared).length
      rw [take_length] at atEnd
      exact atEnd
  have reached := always.take effects
  exact ⟨⟨reached.1.same⟩, reached.2⟩

/-! ## The moment after the decision -/

def decidedState : TwoPhaseStrategy → TxnState
  | .sequential => .active
  | .parallel | .pipelined => .prepared

structure PersistsDecision (txn : TwoPhaseCommit) (outs : TwoPhaseOutcomes)
    (strat : TwoPhaseStrategy) : Prop where
  logged : txn.logged = true
  granted : txn.prepareSucceeds outs strat = true
  persisted : outs.persisted = .success

variable {strat : TwoPhaseStrategy}

theorem PersistsDecision.leftFile (persists : txn.PersistsDecision outs strat) :
    txn.leftFile outs = some ⟨txn.decision.encode, true⟩ := by
  rw [TwoPhaseCommit.leftFile, if_pos persists.logged, persists.persisted]

theorem PersistsDecision.succeeds (persists : txn.PersistsDecision outs strat) :
    txn.persistSucceeds outs = true := by
  rw [persistSucceeds, persists.persisted]
  simp

theorem sequentialAcks_of_every {nodes : List Nat} (granted : every outs.granted nodes = true) :
    sequentialAcks outs nodes = nodes.length := by
  have allGranted : (range nodes.length).takeWhile outs.granted = range nodes.length := by
    rw [takeWhile_eq_self_iff]
    exact all_eq_true.mp granted
  rw [sequentialAcks, allGranted, length_range]

theorem sequential_eq (granted : txn.prepareSucceeds outs .sequential = true)
    (persisted : txn.persistSucceeds outs = true) :
    txn.sequential outs =
      (txn.begin :: prepareAll (txn.participants outs .sequential)) ++
        (txn.persistEvents outs ++ txn.commitAll (txn.participants outs .sequential)) := by
  have acks : sequentialAcks outs (getParticipants txn.clients txn.writeSet) =
      (getParticipants txn.clients txn.writeSet).length :=
    sequentialAcks_of_every granted
  rw [sequential, acks, if_neg (Nat.lt_irrefl _), if_pos persisted,
    take_of_length_le (Nat.le_succ _)]
  rfl

theorem PersistsDecision.stage (persists : txn.PersistsDecision outs strat)
    (somebody : txn.participants outs strat ≠ [])
    (begun : Option (List UInt16)) :
    ∃ (effects : Nat) (prepared : List Nat),
      (∀ node ∈ txn.participants outs strat, node ∈ prepared) ∧
      txn.interrupted outs strat begun effects none =
        ⟨some { txn.recorded begun with state := decidedState strat },
          some ⟨txn.decision.encode, true⟩, prepared.map .prepare⟩ := by
  have inOrder : ∀ (reordering : Reordering) (nodes : List Nat),
      ∀ node ∈ nodes, node ∈ reordering.order nodes := by
    intro reordering nodes node mem
    exact (reordering.perm nodes).mem_iff.mpr mem
  have persistedRun : ∀ (rec : Option TransactionRecord) (sent : List DtxMessage),
      run apply ⟨rec, none, sent⟩ (txn.persistEvents outs) =
        ⟨rec, some ⟨txn.decision.encode, true⟩, sent⟩ := by
    intro rec sent
    rw [run_persistEvents, persists.leftFile]
  have cut : ∀ front rest, txn.events outs strat = front ++ rest →
      txn.interrupted outs strat begun front.length none =
        (run apply (initial begun) front).crash none := by
    intro front rest shape
    rw [interrupted, shape, take_left]
  let nodes := txn.participants outs strat
  let first := txn.begin :: prepareAll (outs.prepares.order nodes)
  cases strat with
  | sequential =>
    refine ⟨_, nodes, fun _ mem => mem, (cut
      ((txn.begin :: prepareAll nodes) ++ txn.persistEvents outs)
      (txn.commitAll nodes) ?_).trans ?_⟩
    · rw [append_assoc]
      exact sequential_eq persists.granted persists.succeeds
    · rw [run_append, run_begin, persistedRun]
      rfl
  | parallel =>
    refine ⟨_, outs.prepares.order nodes, inOrder outs.prepares nodes, (cut
      (first ++ (txn.persistEvents outs ++ [.updateState .prepared]))
      ?commits ?shape).trans ?_⟩
    case shape =>
      rw [append_assoc, append_assoc, events, parallel_eq, persists.granted,
        persists.succeeds, if_pos rfl, if_pos rfl]
    · rw [run_append, run_begin, run_append, persistedRun]
      rfl
  | pipelined =>
    have notEmpty : ¬ nodes.isEmpty = true := by
      rw [List.isEmpty_iff]
      exact somebody
    refine ⟨_, outs.prepares.order nodes, inOrder outs.prepares nodes, (cut
      (first ++ ([.updateState .prepared] ++ txn.persistEvents outs))
      ?rest ?restShape).trans ?_⟩
    case restShape =>
      rw [append_assoc, append_assoc, events, pipelined_eq notEmpty,
        persists.granted, persists.succeeds, if_pos rfl, if_pos rfl]
    · rw [run_append, run_begin, run_append]
      exact congrArg (fun reached => reached.crash none) (persistedRun _ _)

theorem sequential_active (begun : Option (List UInt16)) (effects : Nat) (kept : Option Nat) :
    ∀ rec ∈ (txn.interrupted outs .sequential begun effects kept).record, rec.state = .active := by
  let property : Coordinator → Prop := fun coord =>
    ∀ rec ∈ coord.record, rec.state = .active
  have sends : ∀ {coord : Coordinator} {msg : DtxMessage}, property coord →
      property (coord.apply (.send msg)) := fun active => active
  have start : property (initial begun) := by
    intro rec isRecord
    obtain ⟨participants, -, rfl⟩ := map_eq_some_iff.mp isRecord
    rfl
  have always : Throughout apply property (initial begun) (txn.sequential outs) := by
    refine throughout_of_preserved ?_ start
    intro state event mem active
    rcases mem_cons.mp mem with rfl | later
    · intro rec isRecord
      injection isRecord with same
      cases before : state.record with
      | none =>
        rw [before, getD_none] at same
        rw [← same]
        rfl
      | some prev =>
        rw [before, getD_some] at same
        rw [← same]
        exact active prev before
    · rcases mem_append.mp later with isPrepare | afterwards
      · obtain ⟨node, -, rfl⟩ := mem_map.mp isPrepare
        exact sends active
      split at afterwards
      · obtain ⟨node, -, rfl⟩ := mem_map.mp afterwards
        exact sends active
      rcases mem_append.mp afterwards with isPersist | atEnd
      · rcases mem_persistEvents isPersist with rfl | ⟨bytes, rfl⟩ | rfl
        · exact active
        · exact active
        · exact active
      · split at atEnd
        · obtain ⟨node, -, rfl⟩ := mem_map.mp atEnd
          exact sends active
        · obtain ⟨node, -, rfl⟩ := mem_map.mp atEnd
          exact sends active
  exact always.take effects

end Events

/-! ## When recovery completes the decision -/

/-- Wherever the execution is interrupted with the decision on disk, and after any
earlier recoveries, a recovery commits with the timestamp of the decision, and it
records the commit only after every node that was asked to prepare has acknowledged. -/
def CompletesDecision (outs : TwoPhaseOutcomes)
    (strat : TwoPhaseStrategy) (begun : Option (List UInt16)) (path : String) : Prop :=
  ∀ effects kept recoveries recovery,
    let reached := txn.interrupted outs strat begun effects kept
    let events := (run (recover path txn.clients) reached recoveries).recoveryEvents
      path txn.clients recovery
    reached.decision = some ⟨txn.decision.encode, true⟩ →
      (∀ node commitTs, .send (.commit node commitTs) ∈ events → commitTs = txn.commitTs) ∧
      (.updateState .committed ∈ events → ∀ node, .prepare node ∈ reached.sent →
        Driven path txn.clients reached (recoveries ++ [recovery]) node)

/-- The decision has more participants than the loader accepts, and nothing else asks
for a commit. -/
def DecisionUnread (strat : TwoPhaseStrategy) : Prop :=
  strat = .sequential ∧ maxParticipants < txn.decision.participants.length

/-- The recovery has nobody to send a timestamp to, or the timestamp is the default one
of the record. -/
def TimestampKept (begun : Option (List UInt16)) : Prop :=
  txn.commitTs = 0 ∨ txn.clients = 0 ∨ (txn.recorded begun).pending = []

/-- Every participant of the strategy holds a partition of the record. -/
def ParticipantsRecorded (outs : TwoPhaseOutcomes)
    (strat : TwoPhaseStrategy) (begun : Option (List UInt16)) : Prop :=
  ∀ node ∈ txn.participants outs strat,
    ∃ participant ∈ (txn.recorded begun).pending, nodeOf txn.clients participant = node

section Completes

variable {txn : TwoPhaseCommit} {outs : TwoPhaseOutcomes}
  {strat : TwoPhaseStrategy} {begun : Option (List UInt16)} {path : String}

theorem completesDecision_of_unread (unread : txn.DecisionUnread strat) :
    txn.CompletesDecision outs strat begun path := by
  obtain ⟨rfl, many⟩ := unread
  intro effects kept recoveries recovery reached events onDisk
  have small : txn.decision.participants.length < 2 ^ 32 :=
    length_getPartitionIDs_lt txn.numbered txn.writeSet
  have reachedUnread : Unread path reached := by
    refine ⟨?_, fun rec isRecord => Or.inl (sequential_active begun effects kept rec isRecord)⟩
    obtain ⟨status, failure⟩ := load_encode_of_many many small path
    rw [loadDecision, onDisk]
    dsimp only
    rw [failure]
    rfl
  have laterUnread : Unread path (run (recover path txn.clients) reached recoveries) :=
    reachedUnread.run recoveries
  constructor
  · intro node commitTs sent
    exact absurd sent (laterUnread.commit_not_sent recovery node commitTs)
  · intro committed
    exact absurd (action_of_committed (mem_of_mem_take committed)) laterUnread.action

theorem completesDecision_of_recorded (ts : txn.TimestampKept begun)
    (covered : txn.ParticipantsRecorded outs strat begun) :
    txn.CompletesDecision outs strat begun path := by
  intro effects kept recoveries recovery reached events _
  obtain ⟨recorded, asked⟩ : Recorded (txn.recorded begun) reached ∧
      ∀ node, .prepare node ∈ reached.sent → node ∈ txn.participants outs strat :=
    interrupted_spec strat begun effects kept
  have later : Recorded (txn.recorded begun) (run (recover path txn.clients) reached recoveries) :=
    recorded.run recoveries
  refine ⟨?_, ?_⟩
  · intro node commitTs sent
    obtain ⟨isDefault, reachable, participant, isPending, -⟩ := later.commit_sent sent
    rcases ts with isZero | noClients | nobody
    · rw [isDefault, isZero]
      rfl
    · exact absurd noClients reachable
    · rw [nobody] at isPending
      cases isPending
  · intro committed node prepared
    obtain ⟨participant, isPending, rfl⟩ := covered node (asked node prepared)
    exact driven_concat recoveries (later.acknowledges committed isPending)

/-- With the decision on disk a recovery commits, unless it cannot read the decision. -/
theorem recommendedAction_of_persisted
    (notUnread : ¬ txn.DecisionUnread strat) (sent : List DtxMessage) :
    (startRecovery ⟨some { txn.recorded begun with state := decidedState strat },
      some ⟨txn.decision.encode, true⟩, sent⟩ path).recommendedAction = .commit := by
  rw [startRecovery]
  dsimp only
  by_cases many : maxParticipants < txn.decision.participants.length
  · split
    · rfl
    · cases strat with
      | sequential => exact absurd ⟨rfl, many⟩ notUnread
      | parallel => rfl
      | pipelined => rfl
  · rw [loadDecision]
    dsimp only
    rw [load_encode (Nat.not_lt.mp many)]
    rfl

theorem recorded_of_completesDecision (persists : txn.PersistsDecision outs strat)
    (notUnread : ¬ txn.DecisionUnread strat) (reachable : txn.clients ≠ 0)
    (completes : txn.CompletesDecision outs strat begun path) :
    txn.TimestampKept begun ∧ txn.ParticipantsRecorded outs strat begun := by
  let record := { txn.recorded begun with state := decidedState strat }
  obtain ⟨effects, prepared, asked, stage⟩ :=
    persists.stage (mt participants_eq_nil_iff.mp reachable) begun
  have action : (startRecovery ⟨some record, some ⟨txn.decision.encode, true⟩,
      prepared.map .prepare⟩ path).recommendedAction = .commit :=
    recommendedAction_of_persisted notUnread _
  have atStage := completes effects none [] (answered record)
  rw [stage] at atStage
  obtain ⟨stamped, driven⟩ := atStage rfl
  have events := recoveryEvents_answered rfl action reachable
  refine ⟨?_, ?_⟩
  · by_contra lost
    obtain ⟨notZero, -, someone⟩ := not_or.mp lost |>.imp_right not_or.mp
    obtain ⟨participant, isPending⟩ := exists_mem_of_ne_nil _ someone
    apply notZero
    refine (stamped (nodeOf txn.clients participant) 0 ?_).symm
    refine events ▸ mem_append_left _ (mem_map.mpr ⟨participant, isPending, rfl⟩)
  · intro node lt
    have isDriven := driven (events ▸ mem_append_right _ (mem_singleton.mpr rfl)) node
      (mem_map.mpr ⟨node, asked node lt, rfl⟩)
    rcases isDriven with acknowledges | impossible
    · obtain ⟨pos, commitTs, isSent, -⟩ := acknowledges
      have sent := mem_of_getElem? isSent
      have recorded : Recorded (txn.recorded begun)
          ⟨some record, some ⟨txn.decision.encode, true⟩, prepared.map .prepare⟩ := by
        refine ⟨?_⟩
        intro cur isCurrent
        injection isCurrent with same
        rw [← same]
        exact ⟨rfl, rfl⟩
      exact (recorded.commit_sent sent).2.2
    · exact impossible.elim

end Completes

/-- For a persisted decision, recovery completes what was decided exactly when it cannot
read the decision at all, or when the record that it uses happens to agree with the
decision: in the timestamp, and in the nodes of its partitions. -/
theorem completesDecision_iff
    (txn : TwoPhaseCommit) (outs : TwoPhaseOutcomes) (strat : TwoPhaseStrategy)
    (begun : Option (List UInt16)) (path : String)
    (persists : txn.PersistsDecision outs strat) :
    txn.CompletesDecision outs strat begun path ↔
      txn.DecisionUnread strat ∨
        (txn.TimestampKept begun ∧ txn.ParticipantsRecorded outs strat begun) := by
  constructor
  · intro completes
    by_cases unread : txn.DecisionUnread strat
    · exact Or.inl unread
    by_cases noClients : txn.clients = 0
    · refine Or.inr ⟨Or.inr (Or.inl noClients), ?_⟩
      intro node lt
      rw [participants_eq_nil_iff.mpr noClients] at lt
      cases lt
    · exact Or.inr (recorded_of_completesDecision persists unread noClients completes)
  · intro agrees
    rcases agrees with unread | ⟨ts, covered⟩
    · exact completesDecision_of_unread unread
    · exact completesDecision_of_recorded ts covered

theorem completesDecision_iff_timestamp_zero :
    let inOrder : Reordering := ⟨id, fun _ => .refl _⟩
    let outs : TwoPhaseOutcomes :=
      ⟨fun _ => true, true, .success, fun _ => true, true, inOrder, inOrder, inOrder, inOrder⟩
    let txn : TwoPhaseCommit :=
      ⟨1, by decide, true, 42, [], [⟨1, 5, 0, 0, 0, 0, 0, 1⟩], 0⟩
    txn.PersistsDecision outs .parallel ∧ txn.CompletesDecision outs .parallel none "" := by
  intro inOrder outs txn
  have persists : txn.PersistsDecision outs .parallel := ⟨rfl, rfl, rfl⟩
  have covered : txn.ParticipantsRecorded outs .parallel none := by
    intro node lt
    rw [mem_singleton.mp lt]
    exact ⟨1, by decide, rfl⟩
  exact ⟨persists, (completesDecision_iff txn outs .parallel none "" persists).mpr
    (Or.inr ⟨Or.inl rfl, covered⟩)⟩

/-- The decision says to commit at 100.  The recovery of the parallel transaction sends
the timestamp 0; that of the pipelined one never reaches the client that was prepared
for the read set, and records the commit. -/
theorem recovery_forgets_decision :
    let inOrder : Reordering := ⟨id, fun _ => .refl _⟩
    let outs : TwoPhaseOutcomes :=
      ⟨fun _ => true, true, .success, fun _ => true, true, inOrder, inOrder, inOrder, inOrder⟩
    let txn : TwoPhaseCommit :=
      ⟨2, by decide, true, 42, [⟨1, 5, 0, 0, 0, 0, 0, 1⟩], [⟨2, 5, 0, 0, 0, 0, 0, 2⟩], 100⟩
    let recovery : RecoveryRun := ⟨fun _ => true, 2⟩
    let parallel := txn.interrupted outs .parallel none 6 none
    let pipelined := txn.interrupted outs .pipelined none 7 none
    txn.PersistsDecision outs .parallel ∧ parallel.decision = some ⟨txn.decision.encode, true⟩ ∧
      parallel.recoveryEvents "" 2 recovery = [.send (.commit 0 0), .updateState .committed] ∧
      txn.PersistsDecision outs .pipelined ∧
      pipelined.decision = some ⟨txn.decision.encode, true⟩ ∧
      pipelined.sent = [.prepare 1, .prepare 0] ∧
      pipelined.recoveryEvents "" 2 recovery = [.send (.commit 0 0), .updateState .committed] ∧
      ¬ Driven "" 2 pipelined [recovery] 1 := by
  refine ⟨⟨rfl, rfl, rfl⟩, by decide, by decide, ⟨rfl, rfl, rfl⟩, by decide, by decide,
    by decide, ?_⟩
  intro driven
  rcases driven with ⟨pos, commitTs, isSent, -⟩ | impossible
  · have sent := mem_of_getElem? isSent
    have onlyNodeZero : ∀ node stamp, CoordinatorEvent.send (.commit node stamp) ∈
        [.send (.commit 0 0), .updateState .committed] → node = 0 := by
      intro node stamp mem
      simp only [mem_cons, not_mem_nil, or_false, CoordinatorEvent.send.injEq,
        DtxMessage.commit.injEq, reduceCtorEq] at mem
      exact mem.1
    cases onlyNodeZero 1 commitTs sent
  · exact impossible

end TwoPhaseCommit

end CedarGraph
