import CedarGraph.Dtx.Atomicity
import CedarGraph.Dtx.Completion
import CedarGraph.Dtx.Execute

/-!
# The end of a two-phase commit

At its end an execution has committed every participant, or left the commit phase incomplete, or
aborted. After an abort no commit was sent, but a recovery sends one when the decision could not
be persisted and was left behind.
-/

namespace CedarGraph

open List Runs Execution ContextState

namespace Coordinator

variable {path : String} {clients : Nat} {coord : Coordinator}

/-- No commit was sent, and no recoveries that follow send one. -/
def NeverCommits (path : String) (clients : Nat) (coord : Coordinator) : Prop :=
  ∀ recoveries node commitTs,
    .commit node commitTs ∉ (run (recover path clients) coord recoveries).sent

theorem mem_sent_run {msg : DtxMessage} {events : List CoordinatorEvent} :
    msg ∈ (run apply coord events).sent ↔ msg ∈ coord.sent ∨ .send msg ∈ events := by
  induction events generalizing coord with
  | nil => simp [run]
  | cons event rest ih =>
    have later : msg ∈ (run apply (coord.apply event) rest).sent ↔
        msg ∈ (coord.apply event).sent ∨ .send msg ∈ rest :=
      ih
    have now : msg ∈ (coord.apply event).sent ↔ msg ∈ coord.sent ∨ .send msg = event := by
      cases event with
      | _ => simp [apply]
    rw [mem_cons, ← or_assoc, ← now]
    exact later

theorem neverCommits_of_invariant {invariant : Coordinator → Prop}
    (kept : ∀ state recovery, invariant state → invariant (state.recover path clients recovery))
    (quiet : ∀ state recovery node commitTs, invariant state →
      .send (.commit node commitTs) ∉ state.recoveryEvents path clients recovery)
    (start : invariant coord) (noCommits : ∀ node commitTs, .commit node commitTs ∉ coord.sent) :
    NeverCommits path clients coord := by
  intro recoveries
  induction recoveries generalizing coord with
  | nil => exact noCommits
  | cons recovery rest ih =>
    apply ih (kept coord recovery start)
    intro node commitTs sent
    rcases mem_sent_run.mp sent with prev | now
    · exact noCommits node commitTs prev
    · exact quiet coord recovery node commitTs start now

theorem Unread.neverCommits (unread : Unread path coord)
    (noCommits : ∀ node commitTs, .commit node commitTs ∉ coord.sent) :
    NeverCommits path clients coord := by
  apply neverCommits_of_invariant (fun _ recovery state => state.recover recovery) _ unread
    noCommits
  intro state recovery node commitTs stateUnread
  exact stateUnread.commit_not_sent recovery node commitTs

theorem loadDecision_of_crash (unread : ∀ kept, (coord.crash kept).loadDecision path = none) :
    coord.loadDecision path = none := by
  obtain ⟨rec, decision, sent⟩ := coord
  cases decision with
  | none => rfl
  | some file =>
    have whole := unread (some file.bytes.length)
    cases synced : file.synced with
    | false => simpa [crash, loadDecision, synced] using whole
    | true => simpa [crash, loadDecision, synced] using whole

theorem Recorded.neverCommits {rec : TransactionRecord} (recorded : Recorded rec coord)
    (nobody : clients = 0 ∨ rec.pending = [])
    (noCommits : ∀ node commitTs, .commit node commitTs ∉ coord.sent) :
    NeverCommits path clients coord := by
  apply neverCommits_of_invariant (fun _ recovery state => state.recover recovery) _ recorded
    noCommits
  intro state recovery node commitTs stateRecorded sent
  obtain ⟨-, reachable, participant, isPending, -⟩ := stateRecorded.commit_sent sent
  rcases nobody with noClients | nonePending
  · exact reachable noClients
  · rw [nonePending] at isPending
    cases isPending

end Coordinator

namespace TwoPhaseCommit

open Coordinator TransactionContext

variable (txn : TwoPhaseCommit) (outs : TwoPhaseOutcomes)

def finished (begun : Option (List UInt16)) (exec : Execution) : TransactionContext :=
  run TransactionContext.apply (txn.context begun) (txn.threadSteps outs exec)

def result (begun : Option (List UInt16)) : Execution → Except Status Unit
  | .sequential => (txn.executeSequential2PC outs).2
  | .parallel => (txn.executeParallel2PC outs).2
  | .pipelined => (txn.finished outs begun .pipelined).state.report
  | .batched => (txn.finished outs begun .batched).state.report

def commitSucceeds : TwoPhaseStrategy → Bool
  | .parallel =>
    quorum outs.acknowledged outs.acknowledgedInTime (txn.participants outs .parallel)
  | strat => every outs.acknowledged (txn.participants outs strat)

structure Commits (strat : TwoPhaseStrategy) : Prop where
  granted : txn.prepareSucceeds outs strat = true
  persisted : txn.persistSucceeds outs = true
  somebody : strat = .pipelined → txn.participants outs strat ≠ []

variable {txn outs}

theorem coordinator_finished (begun : Option (List UInt16)) (exec : Execution) :
    (txn.finished outs begun exec).coordinator =
      run Coordinator.apply (initial begun) (txn.events outs exec.strategy) := by
  rw [finished, run_coordinator, ← effectsOf_threadSteps]
  rfl

theorem sequentialAcks_lt {nodes : List Nat} (refused : every outs.granted nodes = false) :
    sequentialAcks outs nodes < nodes.length := by
  have isPrefix := takeWhile_prefix (l := range nodes.length) outs.granted
  have bound := isPrefix.length_le
  rw [length_range] at bound
  apply lt_of_le_of_ne bound
  intro allTaken
  have taken := isPrefix.eq_of_length (by rw [length_range]; exact allTaken)
  have granted : every outs.granted nodes = true :=
    all_eq_true.mpr (takeWhile_eq_self_iff.mp taken)
  rw [granted] at refused
  cases refused

theorem executeSequential2PC_result :
    (txn.executeSequential2PC outs).2 =
      if txn.prepareSucceeds outs .sequential then
        if txn.persistSucceeds outs then
          if txn.commitSucceeds outs .sequential then .ok ()
          else .error commitIncomplete
        else .error decisionNotPersisted
      else .error prepareFailed := by
  let nodes := getParticipants txn.clients txn.writeSet
  rw [executeSequential2PC]
  cases granted : txn.prepareSucceeds outs .sequential with
  | false =>
    have acks : sequentialAcks outs nodes < nodes.length := sequentialAcks_lt granted
    rw [if_pos acks]
    rfl
  | true =>
    have acks : ¬ sequentialAcks outs nodes < nodes.length :=
      (sequentialAcks_of_every granted).not_lt
    rw [if_neg acks, if_pos rfl]
    split
    · exact apply_ite Prod.snd _ _ _
    · rfl

theorem executeParallel2PC_result :
    (txn.executeParallel2PC outs).2 =
      if txn.prepareSucceeds outs .parallel then
        if txn.persistSucceeds outs then
          if txn.commitSucceeds outs .parallel then .ok ()
          else .error commitIncomplete
        else .error decisionNotPersisted
      else .error prepareFailedOrTimedOut := by
  rw [executeParallel2PC, prepareSucceeds]
  split
  · rename_i granted
    rw [participants, if_pos granted]
    split
    · exact apply_ite Prod.snd _ _ _
    · rfl
  · rename_i refused
    rw [participants, if_neg refused]

theorem state_batched (begun : Option (List UInt16)) :
    (txn.finished outs begun .batched).state =
      if (txn.executeParallel2PC outs).2.isOk then .committed else .aborted := by
  rw [finished, threadSteps, processBatched]
  simp

theorem state_pipelined (begun : Option (List UInt16)) :
    (txn.finished outs begun .pipelined).state =
      if (txn.participants outs .pipelined).isEmpty then .aborted
      else if txn.prepareSucceeds outs .pipelined then
        if txn.persistSucceeds outs then
          if txn.commitSucceeds outs .pipelined then .committed else .committing
        else .aborting
      else .aborted := by
  have granted : txn.prepareSucceeds outs .pipelined =
      every outs.granted (txn.pipelinedParticipants outs) := rfl
  have complete : txn.commitSucceeds outs .pipelined =
      every outs.acknowledged (txn.pipelinedParticipants outs) := rfl
  rw [finished, threadSteps, processPipelined, granted, complete, participants]
  split
  · simp
  · split
    · split
      · split
        · simp
        · simp
      · simp
    · simp

theorem result_of_commits {exec : Execution} (commits : txn.Commits outs exec.strategy)
    (begun : Option (List UInt16)) :
    (txn.commitSucceeds outs exec.strategy = true → txn.result outs begun exec = .ok ()) ∧
    (txn.commitSucceeds outs exec.strategy = false →
      txn.result outs begun exec =
        .error (if exec.queued then transactionAborted else commitIncomplete)) := by
  obtain ⟨granted, persisted, somebody⟩ := commits
  cases exec with
  | sequential =>
    dsimp only [strategy] at granted ⊢
    rw [result, executeSequential2PC_result, granted, persisted]
    exact ⟨fun complete => by simp [complete], fun incomplete => by simp [incomplete, queued]⟩
  | parallel =>
    dsimp only [strategy] at granted ⊢
    rw [result, executeParallel2PC_result, granted, persisted]
    exact ⟨fun complete => by simp [complete], fun incomplete => by simp [incomplete, queued]⟩
  | pipelined =>
    dsimp only [strategy] at granted somebody ⊢
    have notEmpty : ¬ (txn.participants outs .pipelined).isEmpty = true := by
      simpa using somebody
    rw [result, state_pipelined, if_neg notEmpty, granted, persisted]
    exact ⟨fun complete => by simp [complete, report],
      fun incomplete => by simp [incomplete, report, queued]⟩
  | batched =>
    dsimp only [strategy] at granted ⊢
    rw [result, state_batched, executeParallel2PC_result, granted, persisted]
    exact ⟨fun complete => by simp [complete, report, Except.isOk, Except.toBool],
      fun incomplete => by
        simp [incomplete, report, queued, Except.isOk, Except.toBool]⟩

theorem result_of_not_commits {exec : Execution} (notCommits : ¬ txn.Commits outs exec.strategy)
    (begun : Option (List UInt16)) :
    ∃ status, txn.result outs begun exec = .error status ∧ status ≠ commitIncomplete := by
  -- a strategy with a nonempty list of participants stops before or at the decision
  have stops : (exec.strategy = .pipelined → txn.participants outs exec.strategy ≠ []) →
      txn.prepareSucceeds outs exec.strategy = false ∨ txn.persistSucceeds outs = false := by
    intro somebody
    by_contra succeeds
    have both := not_or.mp succeeds
    exact notCommits ⟨by simpa using both.1, by simpa using both.2, somebody⟩
  have aborted : ∀ state : ContextState, state ≠ .committed →
      ∃ status, state.report = .error status ∧ status ≠ commitIncomplete := by
    intro state notCommitted
    rw [report, if_neg notCommitted]
    exact ⟨_, rfl, by decide⟩
  cases exec with
  | sequential =>
    dsimp only [strategy] at stops
    rw [result, executeSequential2PC_result]
    rcases stops nofun with refused | failed
    · exact ⟨prepareFailed, by simp [refused], by decide⟩
    · split
      · exact ⟨decisionNotPersisted, by simp [failed], by decide⟩
      · exact ⟨prepareFailed, rfl, by decide⟩
  | parallel =>
    dsimp only [strategy] at stops
    rw [result, executeParallel2PC_result]
    rcases stops nofun with refused | failed
    · exact ⟨prepareFailedOrTimedOut, by simp [refused], by decide⟩
    · split
      · exact ⟨decisionNotPersisted, by simp [failed], by decide⟩
      · exact ⟨prepareFailedOrTimedOut, rfl, by decide⟩
  | pipelined =>
    dsimp only [strategy] at stops
    apply aborted
    rw [state_pipelined]
    split
    · decide
    · rename_i notEmpty
      rcases stops (fun _ => by simpa using notEmpty) with refused | failed
      · simp [refused]
      · split
        · simp [failed]
        · decide
  | batched =>
    dsimp only [strategy] at stops
    apply aborted
    rw [state_batched, executeParallel2PC_result]
    rcases stops nofun with refused | failed
    · simp [refused, Except.isOk, Except.toBool]
    · rw [failed]
      split
      · simp [Except.isOk, Except.toBool]
      · simp [Except.isOk, Except.toBool]

variable {strat : TwoPhaseStrategy}

theorem commit_sent_of_commits
    (commits : txn.Commits outs strat) (begun : Option (List UInt16)) {node : Nat}
    (lt : node ∈ txn.participants outs strat) :
    .commit node txn.commitTs ∈
      (run Coordinator.apply (initial begun) (txn.events outs strat)).sent := by
  obtain ⟨granted, persisted, somebody⟩ := commits
  have inCommits : ∀ nodes : List Nat, node ∈ nodes →
      .send (.commit node txn.commitTs) ∈ txn.commitAll nodes := by
    intro nodes mem
    exact mem_map.mpr ⟨node, mem, rfl⟩
  have inOrder : node ∈ outs.commits.order (txn.participants outs strat) :=
    (outs.commits.perm _).mem_iff.mpr lt
  apply mem_sent_run.mpr
  right
  cases strat with
  | sequential =>
    rw [events, sequential_eq granted persisted]
    simp [inCommits _ lt]
  | parallel =>
    rw [events, parallel_eq, granted, persisted]
    simp [inCommits _ inOrder]
  | pipelined =>
    have notEmpty : ¬ (txn.participants outs .pipelined).isEmpty = true := by
      simpa using somebody
    rw [events, pipelined_eq notEmpty, granted, persisted]
    simp [inCommits _ inOrder]

theorem run_abortAll (rec : Option TransactionRecord) (decision : Option DecisionFile)
    (sent : List DtxMessage) (nodes : List Nat) :
    run Coordinator.apply ⟨rec, decision, sent⟩ (abortAll nodes) =
      ⟨rec, decision, sent ++ nodes.map .abort⟩ :=
  run_sends _ .abort nodes

/-- How an execution ends that does not reach its commit phase: the record does not ask
for a commit, no commit was sent, and a file is left only by a failed attempt to persist
the decision. -/
structure EndsAborted (txn : TwoPhaseCommit) (outs : TwoPhaseOutcomes)
    (strat : TwoPhaseStrategy) (begun : Option (List UInt16)) (ended : Coordinator) :
    Prop where
  record : ∃ state, (state = .active ∨ state = .aborted) ∧
    ended.record = some { txn.recorded begun with state }
  decision :
    (ended.decision = none ∧ (txn.prepareSucceeds outs strat = false ∨ txn.clients = 0)) ∨
    (ended.decision = txn.leftFile outs ∧ txn.prepareSucceeds outs strat = true ∧
      txn.persistSucceeds outs = false)
  noCommits : ∀ node commitTs, .commit node commitTs ∉ ended.sent

section Ends

variable {strat : TwoPhaseStrategy} {begun : Option (List UInt16)} {state : TxnState}
  {prepared aborted : List Nat}

theorem endsAborted_without_file (isFinal : state = .active ∨ state = .aborted)
    (unattempted : txn.prepareSucceeds outs strat = false ∨ txn.clients = 0) :
    txn.EndsAborted outs strat begun
      ⟨some { txn.recorded begun with state }, none, prepared.map .prepare ++ aborted.map .abort⟩ :=
  ⟨⟨state, isFinal, rfl⟩, Or.inl ⟨rfl, unattempted⟩, by simp⟩

theorem endsAborted_with_file (isFinal : state = .active ∨ state = .aborted)
    (granted : txn.prepareSucceeds outs strat = true) (failed : txn.persistSucceeds outs = false) :
    txn.EndsAborted outs strat begun
      ⟨some { txn.recorded begun with state }, txn.leftFile outs,
        prepared.map .prepare ++ aborted.map .abort⟩ :=
  ⟨⟨state, isFinal, rfl⟩, Or.inr ⟨rfl, granted, failed⟩, by simp⟩

theorem endsAborted_sequential (notCommits : ¬ txn.Commits outs .sequential) :
    txn.EndsAborted outs .sequential begun
      (run Coordinator.apply (initial begun) (txn.sequential outs)) := by
  let nodes := getParticipants txn.clients txn.writeSet
  rw [sequential]
  cases granted : txn.prepareSucceeds outs .sequential with
  | false =>
    have acks : sequentialAcks outs nodes < nodes.length := sequentialAcks_lt granted
    rw [if_pos acks, ← cons_append, Coordinator.run_append, run_begin, run_abortAll]
    exact endsAborted_without_file (Or.inl rfl) (Or.inl granted)
  | true =>
    have acks : ¬ sequentialAcks outs nodes < nodes.length :=
      (sequentialAcks_of_every granted).not_lt
    have failed : txn.persistSucceeds outs = false := by
      by_contra persisted
      exact notCommits ⟨granted, by simpa using persisted, by simp⟩
    rw [if_neg acks, failed, if_neg (by simp), ← cons_append, Coordinator.run_append,
      run_begin, Coordinator.run_append, run_persistEvents, run_abortAll]
    exact endsAborted_with_file (Or.inl rfl) granted failed

theorem endsAborted_parallel (notCommits : ¬ txn.Commits outs .parallel) :
    txn.EndsAborted outs .parallel begun
      (run Coordinator.apply (initial begun) (txn.parallel outs)) := by
  rw [parallel_eq]
  cases granted : txn.prepareSucceeds outs .parallel with
  | false =>
    rw [if_neg (by simp), Coordinator.run_append, run_begin, run_abortAll]
    exact endsAborted_without_file (Or.inl rfl) (Or.inl granted)
  | true =>
    have failed : txn.persistSucceeds outs = false := by
      by_contra persisted
      exact notCommits ⟨granted, by simpa using persisted, nofun⟩
    rw [if_pos rfl, failed, if_neg (by simp), Coordinator.run_append, run_begin,
      Coordinator.run_append, run_persistEvents, run_abortAll]
    exact endsAborted_with_file (Or.inl rfl) granted failed

theorem endsAborted_pipelined (notCommits : ¬ txn.Commits outs .pipelined) :
    txn.EndsAborted outs .pipelined begun
      (run Coordinator.apply (initial begun) (txn.pipelined outs)) := by
  let nodes := txn.participants outs .pipelined
  by_cases isEmpty : nodes = []
  · have noNodes : (txn.pipelinedParticipants outs).isEmpty = true :=
      isEmpty_iff.mpr isEmpty
    have stops : txn.pipelined outs = (txn.begin :: prepareAll []) ++ [.updateState .aborted] := by
      rw [pipelined, if_pos noNodes]
      rfl
    have ended : txn.EndsAborted outs .pipelined begun
        ⟨some { txn.recorded begun with state := .aborted }, none,
          ([] : List Nat).map .prepare ++ ([] : List Nat).map .abort⟩ :=
      endsAborted_without_file (Or.inr rfl) (Or.inr (participants_eq_nil_iff.mp isEmpty))
    rw [stops, Coordinator.run_append, run_begin]
    exact ended
  have notEmpty : ¬ nodes.isEmpty = true := by
    simpa using isEmpty
  rw [pipelined_eq notEmpty]
  cases granted : txn.prepareSucceeds outs .pipelined with
  | false =>
    rw [if_neg (by simp), Coordinator.run_append, run_begin, Coordinator.run_append, run_abortAll]
    exact endsAborted_without_file (Or.inr rfl) (Or.inl granted)
  | true =>
    have failed : txn.persistSucceeds outs = false := by
      by_contra persisted
      exact notCommits ⟨granted, by simpa using persisted, fun _ => isEmpty⟩
    have persistRun : ∀ sent : List DtxMessage, run Coordinator.apply
        (run apply ⟨some (txn.recorded begun), none, sent⟩
          [.updateState .prepared]) (txn.persistEvents outs) =
        ⟨some { txn.recorded begun with state := .prepared }, txn.leftFile outs, sent⟩ :=
      fun sent => run_persistEvents _ sent
    rw [if_pos rfl, failed, if_neg (by simp), Coordinator.run_append, run_begin,
      Coordinator.run_append, Coordinator.run_append, persistRun, Coordinator.run_append,
      run_abortAll]
    exact endsAborted_with_file (Or.inr rfl) granted failed

end Ends

theorem endsAborted_of_not_commits
    (notCommits : ¬ txn.Commits outs strat) (begun : Option (List UInt16)) :
    txn.EndsAborted outs strat begun
      (run Coordinator.apply (initial begun) (txn.events outs strat)) := by
  cases strat with
  | sequential => exact endsAborted_sequential notCommits
  | parallel => exact endsAborted_parallel notCommits
  | pipelined => exact endsAborted_pipelined notCommits

/-- The engine has aborted, but it has left a decision that a recovery reads, and the
recovery has somebody to send it to. -/
structure CommitsLater (txn : TwoPhaseCommit) (outs : TwoPhaseOutcomes)
    (strat : TwoPhaseStrategy) (begun : Option (List UInt16)) : Prop where
  granted : txn.prepareSucceeds outs strat = true
  failed : txn.persistSucceeds outs = false
  leaves : txn.LeavesDecision outs
  reachable : txn.clients ≠ 0
  someone : (txn.recorded begun).pending ≠ []

theorem LeavesDecision.leftFile (leaves : txn.LeavesDecision outs)
    (failed : txn.persistSucceeds outs = false) :
    ∃ synced, txn.leftFile outs = some ⟨txn.decision.encode, synced⟩ := by
  have logged : txn.logged = true := by
    by_contra notLogged
    simp [persistSucceeds, notLogged] at failed
  rw [TwoPhaseCommit.leftFile, if_pos logged]
  rcases leaves.1 with isFsync | isClose
  · exact ⟨false, by rw [isFsync]⟩
  · exact ⟨true, by rw [isClose]⟩

theorem EndsAborted.neverCommits_iff {begun : Option (List UInt16)} {ended : Coordinator}
    (ends : txn.EndsAborted outs strat begun ended) (path : String) :
    NeverCommits path txn.clients ended ↔ ¬ txn.CommitsLater outs strat begun := by
  obtain ⟨⟨state, isFinal, isRecord⟩, file, noCommits⟩ := ends
  have recorded : Recorded (txn.recorded begun) ended := by
    constructor
    intro cur isCurrent
    rw [isRecord] at isCurrent
    injection isCurrent with same
    rw [← same]
    exact ⟨rfl, rfl⟩
  have unreadOf : ended.loadDecision path = none → Unread path ended := by
    intro noDecision
    refine ⟨noDecision, ?_⟩
    intro rec isCurrent
    rw [isRecord] at isCurrent
    injection isCurrent with same
    rw [← same]
    exact isFinal
  constructor
  · intro never later
    obtain ⟨granted, failed, leaves, reachable, someone⟩ := later
    obtain ⟨synced, isLeft⟩ := leaves.leftFile failed
    have isFile : ended.decision = some ⟨txn.decision.encode, synced⟩ := by
      rcases file with ⟨-, refused | noClients⟩ | ⟨isFile, -, -⟩
      · rw [granted] at refused
        cases refused
      · exact absurd noClients reachable
      · rw [isFile, isLeft]
    have isCommit : (ended.startRecovery path).recommendedAction = .commit := by
      rw [startRecovery, isRecord]
      dsimp only
      rw [loadDecision, isFile]
      dsimp only
      rw [CommitDecision.load_encode leaves.2]
      rfl
    obtain ⟨participant, isPending⟩ := exists_mem_of_ne_nil _ someone
    apply never [answered { txn.recorded begun with state }] (nodeOf txn.clients participant) 0
    apply mem_sent_run.mpr
    right
    rw [recoveryEvents_answered isRecord isCommit reachable]
    exact mem_append_left _ (mem_map.mpr ⟨participant, isPending, rfl⟩)
  · intro notLater
    rcases file with ⟨noFile, -⟩ | ⟨isFile, granted, failed⟩
    · have noDecision : ended.loadDecision path = none := by
        rw [loadDecision, noFile]
      exact (unreadOf noDecision).neverCommits noCommits
    · by_cases leaves : txn.LeavesDecision outs
      · have nobody : txn.clients = 0 ∨ (txn.recorded begun).pending = [] := by
          by_contra somebody
          obtain ⟨reachable, someone⟩ := not_or.mp somebody
          exact notLater ⟨granted, failed, leaves, reachable, someone⟩
        exact recorded.neverCommits nobody noCommits
      · have noDecision : ended.loadDecision path = none := by
          apply loadDecision_of_crash
          obtain ⟨rec, decision, sent⟩ := ended
          dsimp only at isFile
          rw [isFile]
          exact loadDecision_leftFile failed leaves rec sent
        exact (unreadOf noDecision).neverCommits noCommits

end TwoPhaseCommit

end CedarGraph
