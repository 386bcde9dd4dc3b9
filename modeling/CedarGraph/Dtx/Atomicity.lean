import CedarGraph.Dtx.Recovery

/-!
# Atomic commitment across crashes

A transaction is split when one participant was sent a commit and another an abort. The engine
itself never sends both, and recoveries repeat one outcome. But when the decision could not be
persisted the engine aborts, while the file or the recorded state may tell the recovery to
commit.
-/

namespace CedarGraph

open List Runs CommitDecision Option

namespace Coordinator

def Split (coord : Coordinator) : Prop :=
  ∃ committed aborted commitTs, committed ≠ aborted ∧
    .commit committed commitTs ∈ coord.sent ∧ .abort aborted ∈ coord.sent

/-! ## What recoveries can send -/

section Confined

variable {path : String} {clients : Nat} {mayCommit mayAbort : Nat → Prop}
  {coord : Coordinator}

/-- Commits go and will go only to some nodes, and aborts only to some others. -/
structure Confined (path : String) (clients : Nat) (mayCommit mayAbort : Nat → Prop)
    (coord : Coordinator) : Prop where
  commits : ∀ node commitTs, .commit node commitTs ∈ coord.sent → mayCommit node
  aborts : ∀ node, .abort node ∈ coord.sent → mayAbort node
  toCommit : (coord.startRecovery path).recommendedAction = .commit →
    ∀ rec ∈ coord.record, ∀ participant ∈ rec.pending, mayCommit (nodeOf clients participant)
  toAbort : (coord.startRecovery path).recommendedAction = .abort →
    ∀ rec ∈ coord.record, ∀ participant ∈ rec.participants, mayAbort (nodeOf clients participant)

section

variable (confined : Confined path clients mayCommit mayAbort coord)
include confined

theorem Confined.not_split
    (same : ∀ committed aborted, mayCommit committed → mayAbort aborted →
      committed = aborted) : ¬ coord.Split := by
  intro split
  obtain ⟨committed, aborted, commitTs, ne, commitSent, abortSent⟩ := split
  exact ne (same committed aborted (confined.commits committed commitTs commitSent)
    (confined.aborts aborted abortSent))

theorem Confined.send {msg : DtxMessage}
    (toCommit : ∀ node commitTs, msg = .commit node commitTs → mayCommit node)
    (toAbort : ∀ node, msg = .abort node → mayAbort node) :
    Confined path clients mayCommit mayAbort (coord.apply (.send msg)) := by
  refine ⟨?_, ?_, confined.toCommit, confined.toAbort⟩
  · intro node commitTs mem
    rcases mem_append.mp mem with prev | now
    · exact confined.commits node commitTs prev
    · exact toCommit node commitTs (mem_singleton.mp now).symm
  · intro node mem
    rcases mem_append.mp mem with prev | now
    · exact confined.aborts node prev
    · exact toAbort node (mem_singleton.mp now).symm

end

theorem recommendedAction_updateState (path : String) (coord : Coordinator) {state : TxnState}
    (isFinal : state = .committed ∨ state = .aborted) :
    ((coord.apply (.updateState state)).startRecovery path).recommendedAction = .none ∨
      ((coord.apply (.updateState state)).startRecovery path).recommendedAction =
        (coord.startRecovery path).recommendedAction := by
  obtain ⟨rec, decision, sent⟩ := coord
  cases rec with
  | none => exact Or.inl rfl
  | some rec =>
    cases load : loadDecision ⟨some rec, decision, sent⟩ path with
    | none =>
      left
      have same : loadDecision (apply ⟨some rec, decision, sent⟩ (.updateState state))
          path = none := load
      rw [startRecovery, same]
      rcases isFinal with rfl | rfl
      · rfl
      · rfl
    | some decided =>
      right
      have same : loadDecision (apply ⟨some rec, decision, sent⟩ (.updateState state))
          path = some decided := load
      rw [startRecovery, startRecovery, same, load]
      rfl

section

variable (confined : Confined path clients mayCommit mayAbort coord)
include confined

theorem Confined.updateState {state : TxnState} (isFinal : state = .committed ∨ state = .aborted) :
    Confined path clients mayCommit mayAbort (coord.apply (.updateState state)) := by
  have action := recommendedAction_updateState path coord isFinal
  refine ⟨confined.commits, confined.aborts, ?_, ?_⟩
  · intro isCommit updated isUpdated participant mem
    rcases action with ended | same
    · rw [ended] at isCommit
      cases isCommit
    · obtain ⟨rec, isRecord, rfl⟩ := map_eq_some_iff.mp isUpdated
      exact confined.toCommit (same.symm.trans isCommit) rec isRecord participant mem
  · intro isAbort updated isUpdated participant mem
    rcases action with ended | same
    · rw [ended] at isAbort
      cases isAbort
    · obtain ⟨rec, isRecord, rfl⟩ := map_eq_some_iff.mp isUpdated
      exact confined.toAbort (same.symm.trans isAbort) rec isRecord participant mem

theorem Confined.recover (recovery : RecoveryRun) :
    Confined path clients mayCommit mayAbort (coord.recover path clients recovery) := by
  have always : Throughout apply (Confined path clients mayCommit mayAbort) coord
      (coord.applyRecoveryAction clients recovery.acknowledged
        (coord.startRecovery path).recommendedAction) := by
    refine throughout_of_preserved ?_ confined
    intro state event mem stateConfined
    rcases mem_applyRecoveryAction mem with
      ⟨isCommit, -, rec, isRecord, participant, isPending, rfl⟩ |
      ⟨isAbort, rec, isRecord, participant, isParticipant, rfl⟩ | ⟨final, isFinal, rfl⟩
    · refine stateConfined.send ?_ nofun
      rintro _ _ ⟨⟩
      exact confined.toCommit isCommit rec isRecord participant isPending
    · refine stateConfined.send nofun ?_
      rintro _ ⟨⟩
      exact confined.toAbort isAbort rec isRecord participant isParticipant
    · exact stateConfined.updateState isFinal
  exact always.take recovery.effects

end

end Confined

/-- No recoveries that follow can split the transaction. -/
def Safe (path : String) (clients : Nat) (coord : Coordinator) : Prop :=
  ∃ mayCommit mayAbort : Nat → Prop,
    (∀ committed aborted, mayCommit committed → mayAbort aborted → committed = aborted) ∧
    Confined path clients mayCommit mayAbort coord

section Safe

variable {path : String} {clients : Nat} {coord : Coordinator}

theorem Safe.not_split (safe : Safe path clients coord) (recoveries : List RecoveryRun) :
    ¬ (run (recover path clients) coord recoveries).Split := by
  obtain ⟨mayCommit, mayAbort, same, confined⟩ := safe
  have afterAll : Confined path clients mayCommit mayAbort
      (run (recover path clients) coord recoveries) := by
    clear same
    induction recoveries generalizing coord with
    | nil => exact confined
    | cons recovery rest ih => exact ih (confined.recover recovery)
  exact afterAll.not_split same

theorem safe_of_no_abort (noAborts : ∀ node, .abort node ∉ coord.sent)
    (action : (coord.startRecovery path).recommendedAction ≠ .abort) : Safe path clients coord := by
  refine ⟨fun _ => True, fun _ => False, fun _ _ _ impossible => impossible.elim, ?_⟩
  refine ⟨fun _ _ _ => trivial, noAborts, fun _ _ _ _ _ => trivial, ?_⟩
  intro isAbort
  exact absurd isAbort action

/-- Without commits, a recovery that commits must not meet an abort elsewhere. -/
theorem safe_of_no_commit (noCommits : ∀ node commitTs, .commit node commitTs ∉ coord.sent)
    (action : (coord.startRecovery path).recommendedAction = .commit →
      ∀ rec ∈ coord.record, ∀ participant ∈ rec.pending,
        ∀ node, .abort node ∈ coord.sent → nodeOf clients participant = node) :
    Safe path clients coord := by
  by_cases commits : (coord.startRecovery path).recommendedAction = .commit
  · refine ⟨fun node => ∃ rec ∈ coord.record, ∃ participant ∈ rec.pending,
      nodeOf clients participant = node, fun node => .abort node ∈ coord.sent, ?_, ?_⟩
    · intro committed aborted ⟨rec, isRecord, participant, isPending, isNode⟩ sent
      rw [← isNode]
      exact action commits rec isRecord participant isPending aborted sent
    · refine ⟨?_, fun _ sent => sent, ?_, ?_⟩
      · intro node commitTs sent
        exact absurd sent (noCommits node commitTs)
      · intro _ rec isRecord participant isPending
        exact ⟨rec, isRecord, participant, isPending, rfl⟩
      · intro isAbort
        rw [commits] at isAbort
        cases isAbort
  · refine ⟨fun _ => False, fun _ => True, fun _ _ impossible => impossible.elim, ?_⟩
    refine ⟨noCommits, fun _ _ => trivial, ?_, fun _ _ _ _ _ => trivial⟩
    intro isCommit
    exact absurd isCommit commits

end Safe

/-! ## Stretches of an execution -/

/-- Wherever the process stops here, the recoveries cannot split the transaction. -/
def LeavesSafe (path : String) (clients : Nat) (coord : Coordinator) : Prop :=
  ∀ kept, Safe path clients (coord.crash kept)

def Quiet (coord : Coordinator) : Prop :=
  ∀ msg ∈ coord.sent, ∃ node, msg = .prepare node

/-- Nothing on disk asks for a commit, and none was sent. -/
structure Undecided (path : String) (coord : Coordinator) : Prop where
  noCommits : ∀ node commitTs, .commit node commitTs ∉ coord.sent
  noDecision : ∀ kept, (coord.crash kept).loadDecision path = none
  state : ∀ rec ∈ coord.record, rec.state = .active ∨ rec.state = .aborted

/-- The recorded state asks for a commit, and no abort was sent. -/
structure Decided (coord : Coordinator) : Prop where
  noAborts : ∀ node, .abort node ∉ coord.sent
  state : ∀ rec ∈ coord.record,
    rec.state = .prepared ∨ rec.state = .committing ∨ rec.state = .committed

/-- Aborts were sent to nodes that are the only ones a recovery would reach. -/
structure Alone (clients : Nat) (nodes : List Nat) (coord : Coordinator) : Prop where
  noCommits : ∀ node commitTs, .commit node commitTs ∉ coord.sent
  aborts : ∀ node, .abort node ∈ coord.sent → node ∈ nodes
  pending : ∀ rec ∈ coord.record, ∀ participant ∈ rec.pending, ∀ node ∈ nodes,
    nodeOf clients participant = node

section Stretches

variable {path : String} {clients : Nat} {nodes : List Nat} {coord : Coordinator}

section

variable (quiet : Quiet coord)
include quiet

theorem Quiet.noAborts (node : Nat) : .abort node ∉ coord.sent := by
  intro mem
  obtain ⟨other, same⟩ := quiet _ mem
  cases same

theorem Quiet.noCommits (node : Nat) (commitTs : UInt64) : .commit node commitTs ∉ coord.sent := by
  intro mem
  obtain ⟨other, same⟩ := quiet _ mem
  cases same

theorem Quiet.leavesSafe : LeavesSafe path clients coord := by
  intro kept
  refine safe_of_no_commit quiet.noCommits ?_
  intro _ rec _ participant _ node sent
  exact absurd sent (quiet.noAborts node)

end

theorem Undecided.leavesSafe (undecided : Undecided path coord) :
    LeavesSafe path clients coord := by
  intro kept
  refine safe_of_no_commit undecided.noCommits ?_
  intro isCommit rec isRecord
  have sameRecord : (coord.crash kept).record = some rec := isRecord
  rw [startRecovery, sameRecord] at isCommit
  dsimp only at isCommit
  rw [undecided.noDecision kept] at isCommit
  dsimp only at isCommit
  rw [TransactionRecord.recoveryResult] at isCommit
  rcases undecided.state rec isRecord with isActive | isAborted
  · rw [isActive] at isCommit
    cases isCommit
  · rw [isAborted] at isCommit
    cases isCommit

theorem Decided.leavesSafe (decided : Decided coord) : LeavesSafe path clients coord := by
  intro kept
  refine safe_of_no_abort decided.noAborts ?_
  intro isAbort
  rw [startRecovery] at isAbort
  split at isAbort
  · cases isAbort
  rename_i rec isRecord
  split at isAbort
  · cases isAbort
  rw [TransactionRecord.recoveryResult] at isAbort
  rcases decided.state rec isRecord with isPrepared | isCommitting | isCommitted
  · rw [isPrepared] at isAbort
    cases isAbort
  · rw [isCommitting] at isAbort
    cases isAbort
  · rw [isCommitted] at isAbort
    cases isAbort

theorem Alone.leavesSafe (alone : Alone clients nodes coord) : LeavesSafe path clients coord := by
  intro kept
  refine safe_of_no_commit alone.noCommits ?_
  intro _ rec isRecord participant isPending node sent
  exact alone.pending rec isRecord participant isPending node (alone.aborts node sent)

theorem Quiet.apply (quiet : Quiet coord) {event : CoordinatorEvent}
    (onlyPrepares : ∀ msg, event = .send msg → ∃ node, msg = .prepare node) :
    Quiet (coord.apply event) := by
  cases event with
  | send msg =>
    intro other mem
    rcases mem_append.mp mem with prev | now
    · exact quiet other prev
    · rw [mem_singleton.mp now]
      exact onlyPrepares msg rfl
  | _ => exact quiet

theorem not_mem_append_of_ne {sent : List DtxMessage} {msg other : DtxMessage}
    (notBefore : msg ∉ sent) (ne : msg ≠ other) : msg ∉ sent ++ [other] := by
  intro mem
  rcases mem_append.mp mem with prev | now
  · exact notBefore prev
  · exact ne (mem_singleton.mp now)

theorem Undecided.sendAbort (undecided : Undecided path coord) (node : Nat) :
    Undecided path (coord.apply (.send (.abort node))) := by
  refine ⟨?_, undecided.noDecision, undecided.state⟩
  intro other commitTs
  exact not_mem_append_of_ne (undecided.noCommits other commitTs) nofun

theorem Undecided.updateState (undecided : Undecided path coord) :
    Undecided path (coord.apply (.updateState .aborted)) := by
  refine ⟨undecided.noCommits, undecided.noDecision, ?_⟩
  intro updated isUpdated
  obtain ⟨rec, -, rfl⟩ := map_eq_some_iff.mp isUpdated
  exact Or.inr rfl

theorem Decided.updateState (noAborts : ∀ node, .abort node ∉ coord.sent) {state : TxnState}
    (towardsCommit : state = .prepared ∨ state = .committing ∨ state = .committed) :
    Decided (coord.apply (.updateState state)) := by
  refine ⟨noAborts, ?_⟩
  intro updated isUpdated
  obtain ⟨rec, -, rfl⟩ := map_eq_some_iff.mp isUpdated
  exact towardsCommit

theorem Alone.sendAbort (alone : Alone clients nodes coord) {node : Nat} (lt : node ∈ nodes) :
    Alone clients nodes (coord.apply (.send (.abort node))) := by
  refine ⟨?_, ?_, alone.pending⟩
  · intro other commitTs
    exact not_mem_append_of_ne (alone.noCommits other commitTs) nofun
  · intro other mem
    rcases mem_append.mp mem with prev | now
    · exact alone.aborts other prev
    · injection mem_singleton.mp now with same
      rw [same]
      exact lt

theorem Alone.updateState (alone : Alone clients nodes coord) (state : TxnState) :
    Alone clients nodes (coord.apply (.updateState state)) := by
  refine ⟨alone.noCommits, alone.aborts, ?_⟩
  intro updated isUpdated
  obtain ⟨rec, isRecord, rfl⟩ := map_eq_some_iff.mp isUpdated
  exact alone.pending rec isRecord

end Stretches

end Coordinator

namespace TwoPhaseCommit

open Coordinator

section Files

variable (txn : TwoPhaseCommit) (outs : TwoPhaseOutcomes)

/-- The decision could not be persisted but may be read later. -/
def LeavesDecision : Prop :=
  (outs.persisted = .fsyncFailed ∨ outs.persisted = .closeFailed) ∧
    txn.decision.participants.length ≤ maxParticipants

variable {txn outs}

theorem loadDecision_leftFile {path : String} (failed : txn.persistSucceeds outs = false)
    (noDecision : ¬ txn.LeavesDecision outs)
    (rec : Option TransactionRecord) (sent : List DtxMessage) (kept : Option Nat) :
    ((Coordinator.mk rec (txn.leftFile outs) sent).crash kept).loadDecision path = none := by
  have small : txn.decision.participants.length < 2 ^ 32 :=
    length_getPartitionIDs_lt txn.numbered txn.writeSet
  have length := txn.decision.length_encode
  have unread : ∀ size : Nat, (size < txn.decision.encode.length ∨
      maxParticipants < txn.decision.participants.length) →
      (load path (txn.decision.encode.take size)).toOption = none := by
    intro size unreadable
    obtain ⟨status, failure⟩ := load_take small unreadable path
    rw [failure]
    rfl
  have many : outs.persisted = .fsyncFailed ∨ outs.persisted = .closeFailed →
      maxParticipants < txn.decision.participants.length := by
    intro failure
    by_contra notMany
    exact noDecision ⟨failure, Nat.not_lt.mp notMany⟩
  rw [leftFile]
  cases isLogged : txn.logged with
  | false => rfl
  | true =>
    rw [if_pos rfl]
    cases persisted : outs.persisted with
    | success => simp [persistSucceeds, persisted] at failed
    | openFailed => rfl
    | writeFailed written =>
      cases kept with
      | none => rfl
      | some size =>
        have cut : (txn.decision.encode.dropLast.take written).take size = txn.decision.encode.take
              (min (min size written) (txn.decision.encode.length - 1)) := by
          rw [dropLast_eq_take, take_take, take_take]
        have missing : (load path
            ((txn.decision.encode.dropLast.take written).take size)).toOption =
            none := by
          rw [cut]
          exact unread _ (Or.inl (by omega))
        exact missing
    | fsyncFailed =>
      cases kept with
      | none => rfl
      | some size => exact unread size (Or.inr (many (Or.inl persisted)))
    | closeFailed =>
      have whole := unread txn.decision.encode.length (Or.inr (many (Or.inr persisted)))
      rw [take_length] at whole
      exact whole

end Files

/-! ## When the engine leaves a safe state -/

section Safety

variable {txn : TwoPhaseCommit} {outs : TwoPhaseOutcomes} {path : String}
  {begun : Option (List UInt16)}

/-- The engine aborts a transaction that a recovery would commit: all participants are
prepared, the decision cannot be persisted, and either the worker has recorded the
prepared state before or the file may be readable. -/
def AbortsDecided (txn : TwoPhaseCommit) (outs : TwoPhaseOutcomes)
    (begun : Option (List UInt16)) (strat : TwoPhaseStrategy) : Prop :=
  txn.prepareSucceeds outs strat = true ∧ txn.persistSucceeds outs = false ∧
    (strat = .pipelined ∨ txn.LeavesDecision outs) ∧
    ∃ participant ∈ (txn.recorded begun).pending,
      ∃ node ∈ txn.participants outs strat, nodeOf txn.clients participant ≠ node

variable {coord : Coordinator} {events : List CoordinatorEvent} {nodes : List Nat}

theorem throughout_leavesSafe {invariant : Coordinator → Prop}
    (leaves : ∀ {state}, invariant state → LeavesSafe path txn.clients state)
    (start : invariant coord)
    (preserved : ∀ state, ∀ event ∈ events, invariant state → invariant (state.apply event)) :
    Throughout apply (LeavesSafe path txn.clients) coord events :=
  (throughout_of_preserved preserved start).imp fun _ => leaves

theorem throughout_quiet (quiet : Quiet coord)
    (onlyPrepares : ∀ event ∈ events, ∀ msg, event = .send msg →
      ∃ node, msg = .prepare node) : Throughout apply (LeavesSafe path txn.clients) coord events :=
  throughout_leavesSafe Quiet.leavesSafe quiet fun _ event mem stateQuiet =>
    stateQuiet.apply (onlyPrepares event mem)

theorem quiet_persistEvents :
    ∀ event ∈ txn.persistEvents outs, ∀ msg, event = .send msg →
      ∃ node, msg = DtxMessage.prepare node := by
  intro event mem msg isSend
  subst isSend
  rcases mem_persistEvents mem with impossible | ⟨_, impossible⟩ | impossible
  · cases impossible
  · cases impossible
  · cases impossible

theorem throughout_undecided (undecided : Undecided path coord)
    (onlyAborts : ∀ event ∈ events,
      (∃ node ∈ nodes, event = .send (.abort node)) ∨ event = .updateState .aborted) :
    Throughout apply (LeavesSafe path txn.clients) coord events := by
  refine throughout_leavesSafe Undecided.leavesSafe undecided ?_
  intro state event mem stateUndecided
  rcases onlyAborts event mem with ⟨node, -, rfl⟩ | rfl
  · exact stateUndecided.sendAbort node
  · exact stateUndecided.updateState

theorem throughout_decided (decided : Decided coord)
    (onlyCommits : ∀ event ∈ events, (∃ node commitTs, event = .send (.commit node commitTs)) ∨
      event = .updateState .committing ∨ event = .updateState .committed) :
    Throughout apply (LeavesSafe path txn.clients) coord events := by
  refine throughout_leavesSafe Decided.leavesSafe decided ?_
  intro state event mem stateDecided
  rcases onlyCommits event mem with ⟨node, commitTs, rfl⟩ | rfl | rfl
  · refine ⟨fun other => ?_, stateDecided.state⟩
    exact not_mem_append_of_ne (stateDecided.noAborts other) (by simp)
  · exact Decided.updateState stateDecided.noAborts (Or.inr (Or.inl rfl))
  · exact Decided.updateState stateDecided.noAborts (Or.inr (Or.inr rfl))

theorem throughout_alone (alone : Alone txn.clients nodes coord)
    (onlyAborts : ∀ event ∈ events,
      (∃ node ∈ nodes, event = .send (.abort node)) ∨ event = .updateState .aborted) :
    Throughout apply (LeavesSafe path txn.clients) coord events := by
  refine throughout_leavesSafe Alone.leavesSafe alone ?_
  intro state event mem stateAlone
  rcases onlyAborts event mem with ⟨node, lt, rfl⟩ | rfl
  · exact stateAlone.sendAbort lt
  · exact stateAlone.updateState .aborted

theorem quiet_prepares (rec : Option TransactionRecord) (decision : Option DecisionFile)
    (nodes : List Nat) : Quiet ⟨rec, decision, nodes.map .prepare⟩ := by
  intro msg mem
  obtain ⟨node, -, rfl⟩ := mem_map.mp mem
  exact ⟨node, rfl⟩

theorem undecided_prepares {rec : TransactionRecord} (isActive : rec.state = .active)
    {decision : Option DecisionFile}
    (noDecision : ∀ kept, ((Coordinator.mk (some rec) decision
      (nodes.map .prepare)).crash kept).loadDecision path = none) :
    Undecided path ⟨some rec, decision, nodes.map .prepare⟩ := by
  refine ⟨(quiet_prepares (some rec) decision nodes).noCommits, noDecision, ?_⟩
  intro other isOther
  injection isOther with same
  rw [← same]
  exact Or.inl isActive

theorem alone_prepares
    {rec : TransactionRecord} {decision : Option DecisionFile} {prepared nodes : List Nat}
    (pending : ∀ participant ∈ rec.pending, ∀ node ∈ nodes, nodeOf txn.clients participant = node) :
    Alone txn.clients nodes ⟨some rec, decision, prepared.map .prepare⟩ := by
  have quiet := quiet_prepares (some rec) decision prepared
  refine ⟨quiet.noCommits, fun node mem => absurd mem (quiet.noAborts node), ?_⟩
  intro other isOther
  injection isOther with same
  rw [← same]
  exact pending

theorem decided_prepared
    (rec : TransactionRecord) (decision : Option DecisionFile) (nodes : List Nat) :
    Decided (apply ⟨some rec, decision, nodes.map .prepare⟩ (.updateState .prepared)) :=
  Decided.updateState (quiet_prepares (some rec) decision nodes).noAborts (Or.inl rfl)

theorem throughout_begin (begun : Option (List UInt16)) (nodes : List Nat) :
    Throughout apply (LeavesSafe path txn.clients) (initial begun)
      (txn.begin :: prepareAll nodes) := by
  have nothingSent : Quiet (initial begun) := by
    intro msg mem
    cases mem
  refine throughout_quiet nothingSent ?_
  intro event mem msg isSend
  rcases mem_cons.mp mem with first | later
  · rw [first] at isSend
    cases isSend
  · obtain ⟨node, -, isPrepare⟩ := mem_map.mp later
    rw [← isPrepare] at isSend
    injection isSend with same
    exact ⟨node, same.symm⟩

theorem mem_abortAll {event : CoordinatorEvent}
    (mem : event ∈ abortAll nodes) : ∃ node ∈ nodes, event = .send (.abort node) := by
  obtain ⟨node, lt, isAbort⟩ := mem_map.mp mem
  exact ⟨node, lt, isAbort.symm⟩

theorem mem_commitAll {event : CoordinatorEvent} {finished : Bool}
    (mem : event ∈ txn.commitAll nodes ++
      [.updateState (if finished then .committed else .committing)]) :
    (∃ node commitTs, event = .send (.commit node commitTs)) ∨
      event = .updateState .committing ∨ event = .updateState .committed := by
  rcases mem_append.mp mem with msg | atEnd
  · obtain ⟨node, -, isCommit⟩ := mem_map.mp msg
    exact Or.inl ⟨node, txn.commitTs, isCommit.symm⟩
  · rw [mem_singleton.mp atEnd]
    split
    · exact Or.inr (Or.inr rfl)
    · exact Or.inr (Or.inl rfl)

theorem pending_of_not_abortsDecided {strat : TwoPhaseStrategy}
    (sound : ¬ txn.AbortsDecided outs begun strat)
    (granted : txn.prepareSucceeds outs strat = true) (failed : txn.persistSucceeds outs = false)
    (decides : strat = .pipelined ∨ txn.LeavesDecision outs) :
    ∀ participant ∈ (txn.recorded begun).pending,
      ∀ node ∈ txn.participants outs strat, nodeOf txn.clients participant = node := by
  intro participant isPending node lt
  by_contra ne
  exact sound ⟨granted, failed, decides, participant, isPending, node, lt, ne⟩

theorem throughout_parallel (sound : ¬ txn.AbortsDecided outs begun .parallel) :
    Throughout apply (LeavesSafe path txn.clients) (initial begun) (txn.parallel outs) := by
  let nodes := txn.participants outs .parallel
  let prepared := outs.prepares.order nodes
  have active : (txn.recorded begun).state = .active := rfl
  rw [parallel_eq]
  refine (throughout_begin begun prepared).append ?_
  rw [run_begin]
  cases granted : txn.prepareSucceeds outs .parallel with
  | false =>
    exact throughout_undecided (undecided_prepares active fun _ => rfl)
      fun _ mem => Or.inl (mem_abortAll mem)
  | true =>
    refine (throughout_quiet (quiet_prepares _ _ prepared) quiet_persistEvents).append ?_
    rw [run_persistEvents]
    cases persisted : txn.persistSucceeds outs with
    | true =>
      refine Throughout.append ⟨(quiet_prepares _ _ prepared).leavesSafe,
          (decided_prepared _ _ prepared).leavesSafe⟩ ?_
      exact throughout_decided (decided_prepared _ _ prepared) fun _ => mem_commitAll
    | false =>
      by_cases leaves : txn.LeavesDecision outs
      · have pending := pending_of_not_abortsDecided sound granted persisted (Or.inr leaves)
        exact throughout_alone (alone_prepares pending) fun _ mem => Or.inl (mem_abortAll mem)
      · exact throughout_undecided (undecided_prepares active
          (loadDecision_leftFile persisted leaves _ _)) fun _ mem => Or.inl (mem_abortAll mem)

theorem throughout_pipelined (sound : ¬ txn.AbortsDecided outs begun .pipelined) :
    Throughout apply (LeavesSafe path txn.clients) (initial begun) (txn.pipelined outs) := by
  let nodes := txn.participants outs .pipelined
  let prepared := outs.prepares.order nodes
  have active : (txn.recorded begun).state = .active := rfl
  have onlyAborts : ∀ event ∈ abortAll nodes ++ [.updateState .aborted],
      (∃ node ∈ nodes, event = .send (.abort node)) ∨ event = .updateState .aborted := by
    intro event mem
    rcases mem_append.mp mem with msg | atEnd
    · exact Or.inl (mem_abortAll msg)
    · exact Or.inr (mem_singleton.mp atEnd)
  by_cases nobody : nodes.isEmpty = true
  · have events : txn.pipelined outs =
        (txn.begin :: prepareAll []) ++ [.updateState .aborted] := by
      have emptyList : (txn.pipelinedParticipants outs).isEmpty = true := nobody
      rw [pipelined, if_pos emptyList]
      rfl
    rw [events]
    refine (throughout_begin begun []).append ?_
    rw [run_begin]
    exact throughout_undecided (undecided_prepares active fun _ => rfl)
      fun _ mem => onlyAborts _ (mem_append_right _ mem)
  · rw [pipelined_eq nobody]
    refine (throughout_begin begun prepared).append ?_
    rw [run_begin]
    cases granted : txn.prepareSucceeds outs .pipelined with
    | false =>
      exact throughout_undecided (undecided_prepares active fun _ => rfl) onlyAborts
    | true =>
      let record := { txn.recorded begun with state := TxnState.prepared }
      refine Throughout.append ⟨(quiet_prepares _ _ prepared).leavesSafe,
          (quiet_prepares (some record) none prepared).leavesSafe⟩ ?_
      refine (throughout_quiet (quiet_prepares (some record) none prepared)
        quiet_persistEvents).append ?_
      have persistedState : run apply ⟨some record, none, prepared.map .prepare⟩
          (txn.persistEvents outs) =
          ⟨some record, txn.leftFile outs, prepared.map .prepare⟩ :=
        run_persistEvents _ _
      cases persisted : txn.persistSucceeds outs with
      | true =>
        refine throughout_decided ?_ fun _ => mem_commitAll
        rw [persistedState]
        exact decided_prepared _ _ prepared
      | false =>
        refine throughout_alone ?_ onlyAborts
        rw [persistedState]
        exact alone_prepares (pending_of_not_abortsDecided sound granted persisted (Or.inl rfl))

end Safety

/-! ## When a recovery splits the transaction -/

section Split

variable {txn : TwoPhaseCommit} {outs : TwoPhaseOutcomes} {path : String}
  {begun : Option (List UInt16)}

theorem split_recover {coord : Coordinator} {rec : TransactionRecord}
    (isRecord : coord.record = some rec)
    (isCommit : (coord.startRecovery path).recommendedAction = .commit)
    {participant : UInt16} (isPending : participant ∈ rec.pending)
    {strat : TwoPhaseStrategy} {node : Nat} (lt : node ∈ txn.participants outs strat)
    (ne : nodeOf txn.clients participant ≠ node) {prepares : List DtxMessage}
    (sent : coord.sent = prepares ++ (txn.participants outs strat).map .abort) :
    (coord.recover path txn.clients ⟨fun _ => true, rec.pending.length⟩).Split := by
  have reachable := mt participants_eq_nil_iff.mpr (ne_nil_of_mem lt)
  have events : coord.recoveryEvents path txn.clients
      ⟨fun _ => true, rec.pending.length⟩ = rec.pending.map fun participant =>
        .send (.commit (nodeOf txn.clients participant) rec.commitTs) := by
    rw [recoveryEvents_of_commit isRecord isCommit (ne_nil_of_mem isPending) reachable]
    exact take_left' (length_map _)
  rw [recover, events, run_sends coord
    fun participant => .commit (nodeOf txn.clients participant) rec.commitTs]
  refine ⟨nodeOf txn.clients participant, node, rec.commitTs, ne, ?_, ?_⟩
  · exact mem_append_right _ (mem_map.mpr ⟨participant, isPending, rfl⟩)
  · rw [sent]
    exact mem_append_left _ (mem_append_right _ (mem_map.mpr ⟨node, lt, rfl⟩))

theorem split_parallel (aborts : txn.AbortsDecided outs begun .parallel) :
    ∃ effects kept recovery,
      ((txn.interrupted outs .parallel begun effects kept).recover path
        txn.clients recovery).Split := by
  obtain ⟨granted, failed, causes, participant, isPending, node, lt, ne⟩ := aborts
  obtain ⟨failure, few⟩ : txn.LeavesDecision outs :=
    causes.resolve_left (fun impossible => nomatch impossible)
  have isLogged : txn.logged = true := by
    cases logged : txn.logged with
    | false =>
      rw [persistSucceeds, logged] at failed
      cases failed
    | true => rfl
  let nodes := txn.participants outs .parallel
  let prepared := outs.prepares.order nodes
  let kept := some txn.decision.encode.length
  have reached : txn.interrupted outs .parallel begun (txn.parallel outs).length kept =
      ⟨some (txn.recorded begun), some ⟨txn.decision.encode, true⟩,
        prepared.map .prepare ++ nodes.map .abort⟩ := by
    rw [interrupted, events, take_length, parallel_eq, granted, failed, if_pos rfl,
      if_neg (by simp), run_append, run_append, run_begin, run_persistEvents, abortAll,
      run_sends _ .abort, leftFile, if_pos isLogged]
    rcases failure with isFsync | isClose
    · rw [isFsync, crash]
      dsimp only
      rw [if_neg (by simp), map_some, take_length]
    · rw [isClose]
      rfl
  refine ⟨(txn.parallel outs).length, kept,
    ⟨fun _ => true, (txn.recorded begun).pending.length⟩, ?_⟩
  rw [reached]
  refine split_recover rfl ?_ isPending lt ne rfl
  rw [startRecovery]
  dsimp only
  rw [loadDecision]
  dsimp only
  rw [load_encode few]
  rfl

theorem split_pipelined (aborts : txn.AbortsDecided outs begun .pipelined) :
    ∃ effects kept recovery,
      ((txn.interrupted outs .pipelined begun effects kept).recover path
        txn.clients recovery).Split := by
  obtain ⟨granted, failed, -, participant, isPending, node, lt, ne⟩ := aborts
  let nodes := txn.participants outs .pipelined
  let prepared := outs.prepares.order nodes
  let record := { txn.recorded begun with state := TxnState.prepared }
  have somebody : ¬ nodes.isEmpty = true := by
    rw [List.isEmpty_iff]
    exact ne_nil_of_mem lt
  let before := (txn.begin :: prepareAll prepared) ++
    ([.updateState .prepared] ++ (txn.persistEvents outs ++ abortAll nodes))
  have shape : txn.pipelined outs = before ++ [.updateState .aborted] := by
    rw [pipelined_eq somebody, granted, failed, if_pos rfl, if_neg (by simp)]
    simp only [before, append_assoc]
    rfl
  have reached : txn.interrupted outs .pipelined begun before.length none =
      (Coordinator.mk (some record) (txn.leftFile outs)
        (prepared.map .prepare ++ nodes.map .abort)).crash none := by
    have persisted : run apply ⟨some record, none, prepared.map .prepare⟩ (txn.persistEvents outs) =
        ⟨some record, txn.leftFile outs, prepared.map .prepare⟩ :=
      run_persistEvents _ _
    have recorded : run apply ⟨some (txn.recorded begun), none, prepared.map .prepare⟩
        [.updateState .prepared] = ⟨some record, none, prepared.map .prepare⟩ := rfl
    rw [interrupted, events, shape, take_left, run_append, run_begin, run_append, recorded,
      run_append, persisted, abortAll, run_sends _ .abort]
  refine ⟨before.length, none, ⟨fun _ => true, record.pending.length⟩, ?_⟩
  rw [reached]
  refine split_recover rfl ?_ isPending lt ne rfl
  rw [startRecovery]
  dsimp only [crash]
  split
  · rfl
  · rfl

end Split

/-- However the engine is interrupted and however often recovery is tried, no
participant is sent a commit while another was sent an abort, exactly unless the engine
aborts a transaction that a recovery would commit. -/
theorem never_split_iff (txn : TwoPhaseCommit) (outs : TwoPhaseOutcomes)
    {strat : TwoPhaseStrategy} (logsState : strat ≠ .sequential)
    (begun : Option (List UInt16)) (path : String) :
    (∀ effects kept recoveries,
      ¬ (run (recover path txn.clients)
        (txn.interrupted outs strat begun effects kept) recoveries).Split) ↔
      ¬ txn.AbortsDecided outs begun strat := by
  constructor
  · intro never aborts
    have split : ∃ effects kept recovery,
        ((txn.interrupted outs strat begun effects kept).recover path
          txn.clients recovery).Split := by
      cases strat with
      | sequential => exact absurd rfl logsState
      | parallel => exact split_parallel aborts
      | pipelined => exact split_pipelined aborts
    obtain ⟨effects, kept, recovery, isSplit⟩ := split
    exact never effects kept [recovery] isSplit
  · intro sound effects kept recoveries
    have always : Throughout apply (LeavesSafe path txn.clients) (initial begun)
        (txn.events outs strat) := by
      cases strat with
      | sequential => exact absurd rfl logsState
      | parallel => exact throughout_parallel sound
      | pipelined => exact throughout_pipelined sound
    exact (always.take effects kept).not_split recoveries

theorem never_split_iff_all_granted :
    let inOrder : Reordering := ⟨id, fun _ => .refl _⟩
    let outs : TwoPhaseOutcomes :=
      ⟨fun _ => true, true, .success, fun _ => true, true, inOrder, inOrder, inOrder, inOrder⟩
    let txn : TwoPhaseCommit :=
      ⟨2, by decide, true, 42, [], [⟨1, 5, 0, 0, 0, 0, 0, 1⟩, ⟨2, 5, 0, 0, 0, 0, 0, 2⟩], 100⟩
    ∀ effects kept recoveries,
      ¬ (run (recover "" txn.clients)
        (txn.interrupted outs .parallel none effects kept) recoveries).Split := by
  intro inOrder outs txn
  have persists : ¬ txn.AbortsDecided outs none .parallel := by
    intro aborts
    have failed := aborts.2.1
    cases failed
  have logsState : TwoPhaseStrategy.parallel ≠ .sequential := by decide
  exact (never_split_iff txn outs logsState none "").mpr persists

/-- Two participants.  With the parallel strategy the fsync of the decision fails after
the file was written; with the pipelined one the first write fails and the process stops
after the aborts.  The engine has aborted both participants, and the recovery commits. -/
theorem unpersisted_decision_splits :
    let inOrder : Reordering := ⟨id, fun _ => .refl _⟩
    let outs : PersistOutcome → TwoPhaseOutcomes := fun persisted =>
      ⟨fun _ => true, true, persisted, fun _ => true, true, inOrder, inOrder, inOrder, inOrder⟩
    let txn : TwoPhaseCommit :=
      ⟨2, by decide, true, 42, [], [⟨1, 5, 0, 0, 0, 0, 0, 1⟩, ⟨2, 5, 0, 0, 0, 0, 0, 2⟩], 100⟩
    let recovery : RecoveryRun := ⟨fun _ => true, 3⟩
    let parallel := txn.interrupted (outs .fsyncFailed) .parallel none 8 (some 32)
    let pipelined := txn.interrupted (outs (.writeFailed 0)) .pipelined none 8 none
    .abort 1 ∈ parallel.sent ∧ (parallel.recover "" 2 recovery).Split ∧
      .abort 1 ∈ pipelined.sent ∧ (pipelined.recover "" 2 recovery).Split := by
  refine ⟨by decide, ⟨0, 1, 0, ?_, ?_, ?_⟩, by decide, ⟨0, 1, 0, ?_, ?_, ?_⟩⟩
  · decide
  · decide
  · decide
  · decide
  · decide
  · decide

end TwoPhaseCommit

end CedarGraph
