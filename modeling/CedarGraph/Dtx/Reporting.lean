import CedarGraph.Dtx.Outcome

/-!
# Reported outcomes of two-phase commit

Apart from one race, caller and worker reach few states: the worker has not started, it is
somewhere in its steps, or the caller has cancelled the transaction before the worker looked at
it. So the report is decided by the end of the execution.
-/

namespace CedarGraph

open List Runs TwoPhaseSystem

namespace TwoPhaseCommit

open Coordinator TransactionContext

variable {txn : TwoPhaseCommit} {outs : TwoPhaseOutcomes}

theorem setDone_not_mem_executeParallel2PC : .setDone ∉ (txn.executeParallel2PC outs).1 := by
  rw [executeParallel2PC]
  split
  · split
    · split
      · simp [effects]
      · simp [effects]
    · simp [effects]
  · simp [effects]

theorem setDone_not_mem_processPipelined : .setDone ∉ txn.processPipelined outs := by
  rw [processPipelined]
  split
  · simp
  · split
    · split
      · split
        · simp [effects]
        · simp [effects]
      · simp [effects]
    · simp [effects]

theorem threadSteps_eq_concat (txn : TwoPhaseCommit) (outs : TwoPhaseOutcomes) {exec : Execution}
    (queued : exec.queued = true) :
    ∃ body, txn.threadSteps outs exec = body ++ [.setDone] ∧ .setDone ∉ body := by
  cases exec with
  | sequential => cases queued
  | parallel => cases queued
  | pipelined => exact ⟨_, rfl, setDone_not_mem_processPipelined⟩
  | batched =>
    have notInBody : .setDone ∉ txn.processBatched outs := by
      simp [processBatched, setDone_not_mem_executeParallel2PC]
    exact ⟨_, rfl, notInBody⟩

theorem rest_eq_nil_of_done
    {exec : Execution} (queued : exec.queued = true) {begun : Option (List UInt16)}
    {ran rest : List ContextEvent} (shape : txn.threadSteps outs exec = ran ++ rest)
    (done : (run TransactionContext.apply (txn.context begun) ran).done = true) : rest = [] := by
  obtain ⟨body, isConcat, notInBody⟩ := txn.threadSteps_eq_concat outs queued
  have isSet : .setDone ∈ ran := by
    rw [run_done] at done
    simpa [context] using done
  rw [isConcat] at shape
  rcases append_eq_append_iff.mp shape with ⟨last, isRan, isLast⟩ | ⟨last, isBody, -⟩
  · cases last with
    | nil =>
      rw [append_nil] at isRan
      rw [isRan] at isSet
      exact absurd isSet notInBody
    | cons step more =>
      injection isLast with _ isNil
      exact (append_eq_nil_iff.mp isNil.symm).2
  · rw [isBody] at notInBody
    exact absurd (mem_append_left _ isSet) notInBody

/-- A worker that will find, or has found, the transaction cancelled. -/
def Skips (worker : WorkerState) : Prop :=
  worker = .queued ∨ worker = .running [.setDone] ∨ worker = .running []

/-- The states of caller and worker as long as the caller does not cancel a transaction
that the worker has checked. -/
inductive Reached (txn : TwoPhaseCommit) (outs : TwoPhaseOutcomes)
    (begun : Option (List UInt16)) (exec : Execution) : TwoPhaseSystem → Prop
  | executing {ran rest : List ContextEvent} (direct : exec.queued = false)
      (shape : txn.threadSteps outs exec = ran ++ rest) :
      Reached txn outs begun exec
        ⟨run TransactionContext.apply (txn.context begun) ran, .idle,
          .executing rest (txn.result outs begun exec)⟩
  | answered (direct : exec.queued = false) :
      Reached txn outs begun exec
        ⟨txn.finished outs begun exec, .idle, .returned (txn.result outs begun exec)⟩
  | queued {caller : CallerState} (isQueued : exec.queued = true)
      (waits : caller = .waiting ∨ caller = .expired) :
      Reached txn outs begun exec ⟨txn.context begun, .queued, caller⟩
  | running {ran rest : List ContextEvent} {caller : CallerState}
      (isQueued : exec.queued = true)
      (shape : txn.threadSteps outs exec = ran ++ rest)
      (waits : caller = .waiting ∨ caller = .expired ∨ caller = .waitingForWorker) :
      Reached txn outs begun exec
        ⟨run TransactionContext.apply (txn.context begun) ran, .running rest, caller⟩
  | reported (isQueued : exec.queued = true) :
      Reached txn outs begun exec
        ⟨txn.finished outs begun exec, .running [], .returned (txn.result outs begun exec)⟩
  | cancelled {worker : WorkerState} {done : Bool} (skips : Skips worker) :
      Reached txn outs begun exec
        ⟨⟨.aborted, done, (initial begun).apply txn.begin⟩, worker, .cancelled⟩
  | timedOut {worker : WorkerState} {done : Bool} (skips : Skips worker) :
      Reached txn outs begun exec
        ⟨⟨.aborted, done, ((initial begun).apply txn.begin).apply (.updateState .aborted)⟩,
          worker, .returned (.error transactionTimeout)⟩

/-- The thread has run to its end, and the caller has its answer. -/
def ended (txn : TwoPhaseCommit) (outs : TwoPhaseOutcomes) (begun : Option (List UInt16))
    (exec : Execution) (worker : WorkerState) : TwoPhaseSystem :=
  ⟨txn.finished outs begun exec, worker, .returned (txn.result outs begun exec)⟩

section Reached

variable {begun : Option (List UInt16)} {exec : Execution} {sys : TwoPhaseSystem}

theorem result_of_queued (isQueued : exec.queued = true) :
    txn.result outs begun exec = (txn.finished outs begun exec).state.report := by
  cases exec with
  | sequential => cases isQueued
  | parallel => cases isQueued
  | pipelined => rfl
  | batched => rfl

theorem skips_step {worker : WorkerState} (skips : Skips worker) (steps : List ContextEvent)
    (coordinator : Coordinator) (done : Bool) (caller : CallerState) :
    ∃ worker' done', Skips worker' ∧
      stepWorker steps ⟨⟨.aborted, done, coordinator⟩, worker, caller⟩ =
        ⟨⟨.aborted, done', coordinator⟩, worker', caller⟩ := by
  rcases skips with rfl | rfl | rfl
  · exact ⟨.running [.setDone], done, Or.inr (Or.inl rfl), rfl⟩
  · exact ⟨.running [], true, Or.inr (Or.inr rfl), rfl⟩
  · exact ⟨.running [], done, Or.inr (Or.inr rfl), rfl⟩

theorem Reached.stepWorker (reached : txn.Reached outs begun exec sys) :
    txn.Reached outs begun exec (sys.stepWorker (txn.threadSteps outs exec)) := by
  let steps := txn.threadSteps outs exec
  cases reached with
  | executing direct shape => exact .executing direct shape
  | answered direct => exact .answered direct
  | queued isQueued waits =>
    have shape : steps = [] ++ steps := rfl
    exact .running isQueued shape (waits.imp_right Or.inl)
  | @running ran rest caller isQueued shape waits =>
    cases rest with
    | nil => exact .running isQueued shape waits
    | cons next later =>
      have more : txn.Reached outs begun exec
          ⟨run apply (txn.context begun) (ran ++ [next]), .running later, caller⟩ :=
        .running isQueued (by simpa using shape) waits
      rw [run, foldl_concat] at more
      exact more
  | reported isQueued => exact .reported isQueued
  | @cancelled worker done skips =>
    obtain ⟨worker', done', skips', isStep⟩ := skips_step skips steps _ done .cancelled
    rw [isStep]
    exact .cancelled skips'
  | @timedOut worker done skips =>
    obtain ⟨worker', done', skips', isStep⟩ := skips_step skips steps
      (((initial begun).apply txn.begin).apply (.updateState .aborted)) done
      (.returned (.error transactionTimeout))
    rw [isStep]
    exact .timedOut skips'

theorem Reached.report {ran rest : List ContextEvent} (isQueued : exec.queued = true)
    (shape : txn.threadSteps outs exec = ran ++ rest)
    (done : (run TransactionContext.apply (txn.context begun) ran).done = true) :
    txn.Reached outs begun exec
      ⟨run TransactionContext.apply (txn.context begun) ran, .running rest,
        .returned (run TransactionContext.apply (txn.context begun) ran).state.report⟩ := by
  have isLast := rest_eq_nil_of_done isQueued shape done
  rw [isLast, append_nil] at shape
  rw [isLast, ← shape]
  have atEnd : txn.Reached outs begun exec (txn.ended outs begun exec (.running [])) :=
    .reported isQueued
  rw [ended, result_of_queued isQueued] at atEnd
  exact atEnd

section

variable (reached : txn.Reached outs begun exec sys)
include reached

theorem Reached.stepCaller (unraced : sys.Unraced .caller) :
    txn.Reached outs begun exec sys.stepCaller := by
  cases reached with
  | @executing ran rest direct shape =>
    cases rest with
    | nil =>
      rw [append_nil] at shape
      rw [← shape]
      exact .answered direct
    | cons next later =>
      have more : txn.Reached outs begun exec
          ⟨run apply (txn.context begun) (ran ++ [next]),
            .idle, .executing later (txn.result outs begun exec)⟩ :=
        .executing direct (by simpa using shape)
      rw [run, foldl_concat] at more
      exact more
  | answered direct => exact .answered direct
  | queued isQueued waits =>
    rcases waits with rfl | rfl
    · exact .queued isQueued (Or.inl rfl)
    · exact .cancelled (Or.inl rfl)
  | @running ran rest caller isQueued shape waits =>
    rcases waits with rfl | rfl | rfl
    · rw [stepCaller]
      dsimp only
      split
      · rename_i done
        exact Reached.report isQueued shape done
      · exact .running isQueued shape (Or.inl rfl)
    · rw [stepCaller]
      dsimp only
      split
      · rename_i isInit
        cases unraced rfl rfl isInit
      · exact .running isQueued shape (Or.inr (Or.inr rfl))
    · rw [stepCaller]
      dsimp only
      split
      · rename_i done
        exact Reached.report isQueued shape done
      · exact .running isQueued shape (Or.inr (Or.inr rfl))
  | reported isQueued => exact .reported isQueued
  | cancelled skips => exact .timedOut skips
  | timedOut skips => exact .timedOut skips

theorem Reached.expire : txn.Reached outs begun exec sys.expire := by
  cases reached with
  | executing direct shape => exact .executing direct shape
  | answered direct => exact .answered direct
  | queued isQueued waits =>
    rcases waits with rfl | rfl
    · exact .queued isQueued (Or.inr rfl)
    · exact .queued isQueued (Or.inr rfl)
  | running isQueued shape waits =>
    rcases waits with rfl | rfl | rfl
    · rw [expire]
      dsimp only
      split
      · exact .running isQueued shape (Or.inl rfl)
      · exact .running isQueued shape (Or.inr (Or.inl rfl))
    · exact .running isQueued shape (Or.inr (Or.inl rfl))
    · exact .running isQueued shape (Or.inr (Or.inr rfl))
  | reported isQueued => exact .reported isQueued
  | cancelled skips => exact .cancelled skips
  | timedOut skips => exact .timedOut skips

theorem Reached.step {action : TwoPhaseStep} (unraced : sys.Unraced action) :
    txn.Reached outs begun exec (sys.step (txn.threadSteps outs exec) action) := by
  cases action with
  | worker => exact reached.stepWorker
  | caller => exact reached.stepCaller unraced
  | timeout => exact reached.expire

end

end Reached

theorem reached_execute2PC (txn : TwoPhaseCommit) (outs : TwoPhaseOutcomes)
    (begun : Option (List UInt16)) (exec : Execution) :
    txn.Reached outs begun exec (txn.execute2PC outs begun exec) := by
  cases exec with
  | sequential =>
    have shape : txn.threadSteps outs .sequential = [] ++ (txn.executeSequential2PC outs).1 := rfl
    exact .executing rfl shape
  | parallel =>
    have shape : txn.threadSteps outs .parallel = [] ++ (txn.executeParallel2PC outs).1 := rfl
    exact .executing rfl shape
  | pipelined => exact .queued rfl (Or.inl rfl)
  | batched => exact .queued rfl (Or.inl rfl)

/-! ### Schedules that run to the end -/

section Schedules

open TwoPhaseSystem

variable {steps : List ContextEvent} {context : TransactionContext}

theorem run_rest (rest : List ContextEvent) (later : List TwoPhaseStep) {turn : TwoPhaseStep}
    (state : TransactionContext → List ContextEvent → TwoPhaseSystem)
    (free : ∀ context next rest, Unraced (state context (next :: rest)) turn)
    (moves : ∀ context next rest, step steps (state context (next :: rest)) turn =
      state (context.apply next) rest) :
    (Admissible (step steps) Unraced (state (run TransactionContext.apply context rest) []) later →
      Admissible (step steps) Unraced (state context rest)
        (List.replicate rest.length turn ++ later)) ∧
    run (step steps) (state context rest) (List.replicate rest.length turn ++ later) =
      run (step steps) (state (run TransactionContext.apply context rest) []) later := by
  induction rest generalizing context with
  | nil => exact ⟨id, rfl⟩
  | cons next rest ih =>
    obtain ⟨admissible, sameRun⟩ := @ih (context.apply next)
    rw [← moves] at admissible sameRun
    exact ⟨fun laterAdmissible => ⟨free _ _ _, admissible laterAdmissible⟩, sameRun⟩

theorem direct_end (rest : List ContextEvent) (res : Except Status Unit) :
    Admissible (step steps) Unraced ⟨context, .idle, .executing rest res⟩
        (List.replicate rest.length .caller ++ [.caller]) ∧
      run (step steps) ⟨context, .idle, .executing rest res⟩
        (List.replicate rest.length .caller ++ [.caller]) =
        ⟨run TransactionContext.apply context rest, .idle, .returned res⟩ := by
  have toEnd := @run_rest steps context rest [.caller] .caller
    (fun context rest => ⟨context, .idle, .executing rest res⟩) (fun _ _ _ => nofun)
    (fun _ _ _ => rfl)
  exact ⟨toEnd.1 ⟨nofun, trivial⟩, toEnd.2⟩

theorem queued_end (txn : TwoPhaseCommit) (outs : TwoPhaseOutcomes) {exec : Execution}
    (isQueued : exec.queued = true) (begun : Option (List UInt16)) :
    ∃ schedule,
      Admissible (step (txn.threadSteps outs exec)) Unraced
        ⟨txn.context begun, .queued, .waiting⟩ schedule ∧
      run (step (txn.threadSteps outs exec)) ⟨txn.context begun, .queued, .waiting⟩ schedule =
        txn.ended outs begun exec (.running []) := by
  let steps := txn.threadSteps outs exec
  obtain ⟨admissible, sameRun⟩ := @run_rest steps (txn.context begun) steps [.caller] .worker
    (fun context rest => ⟨context, .running rest, .waiting⟩) (fun _ _ _ => nofun)
    (fun _ _ _ => rfl)
  have done : (txn.finished outs begun exec).done = true := by
    obtain ⟨body, isConcat, -⟩ := txn.threadSteps_eq_concat outs isQueued
    rw [finished, run_done, isConcat]
    simp
  have returns : stepCaller ⟨txn.finished outs begun exec, .running [], .waiting⟩ =
      txn.ended outs begun exec (.running []) := by
    rw [stepCaller, ended, result_of_queued isQueued]
    dsimp only
    rw [if_pos done]
  have workerFree : Unraced ⟨txn.context begun, .queued, .waiting⟩ .worker := by
    rintro ⟨⟩
  have callerFree : Unraced ⟨run apply (txn.context begun) steps,
      .running [], .waiting⟩ .caller := by
    rintro _ ⟨⟩
  let schedule : List TwoPhaseStep :=
    .worker :: (replicate steps.length .worker ++ [.caller])
  exact ⟨schedule, ⟨workerFree, admissible ⟨callerFree, trivial⟩⟩, sameRun.trans returns⟩

theorem reaches_end (txn : TwoPhaseCommit) (outs : TwoPhaseOutcomes)
    (begun : Option (List UInt16)) (exec : Execution) :
    ∃ schedule worker,
      Admissible (step (txn.threadSteps outs exec)) Unraced
        (txn.execute2PC outs begun exec) schedule ∧
      run (step (txn.threadSteps outs exec)) (txn.execute2PC outs begun exec) schedule =
        txn.ended outs begun exec worker := by
  cases exec with
  | sequential => exact ⟨_, .idle, direct_end (txn.executeSequential2PC outs).1 _⟩
  | parallel => exact ⟨_, .idle, direct_end (txn.executeParallel2PC outs).1 _⟩
  | pipelined =>
    have isQueued : Execution.pipelined.queued = true := rfl
    obtain ⟨schedule, ends⟩ := queued_end txn outs isQueued begun
    exact ⟨schedule, .running [], ends⟩
  | batched =>
    have isQueued : Execution.batched.queued = true := rfl
    obtain ⟨schedule, ends⟩ := queued_end txn outs isQueued begun
    exact ⟨schedule, .running [], ends⟩

end Schedules

/-- A caller that was told of a commit had participants, all of them were sent the commit
and acknowledged it; after any other report than that of an incomplete commit phase, no
commit was sent and none will be. -/
structure Truthful (txn : TwoPhaseCommit) (outs : TwoPhaseOutcomes)
    (strat : TwoPhaseStrategy) (path : String) (sys : TwoPhaseSystem) : Prop where
  committed : sys.caller = .returned (.ok ()) → txn.participants outs strat ≠ [] ∧
    every outs.acknowledged (txn.participants outs strat) = true ∧
    ∀ node ∈ txn.participants outs strat, .commit node txn.commitTs ∈ sys.context.coordinator.sent
  aborted : ∀ status, sys.caller = .returned (.error status) → status ≠ commitIncomplete →
    NeverCommits path txn.clients sys.context.coordinator

/-- When the decision is persisted there is a participant, and a worker gets all
acknowledgements in time; and a decision that could not be persisted is not left behind
for a recovery. -/
structure ReportsOutcome (txn : TwoPhaseCommit) (outs : TwoPhaseOutcomes)
    (begun : Option (List UInt16)) (exec : Execution) : Prop where
  somebody : txn.prepareSucceeds outs exec.strategy = true → txn.persistSucceeds outs = true →
    txn.clients ≠ 0 ∨ exec = .pipelined
  acknowledged : txn.prepareSucceeds outs exec.strategy = true →
    txn.persistSucceeds outs = true → exec.queued = true →
    txn.commitSucceeds outs exec.strategy = true
  withdrawn : ¬ txn.CommitsLater outs exec.strategy begun

section Truthful

variable {begun : Option (List UInt16)} {exec : Execution} {path : String}

theorem acknowledged_of_commitSucceeds {strat : TwoPhaseStrategy}
    (succeeds : txn.commitSucceeds outs strat = true) :
    every outs.acknowledged (txn.participants outs strat) = true := by
  cases strat with
  | sequential => exact succeeds
  | parallel =>
    rcases Bool.or_eq_true _ _ ▸ succeeds with isEmpty | inTime
    · rw [isEmpty_iff.mp isEmpty]
      rfl
    · exact (Bool.and_eq_true_iff.mp inTime).2
  | pipelined => exact succeeds

theorem commitSucceeds_of_nobody {strat : TwoPhaseStrategy}
    (nobody : txn.participants outs strat = []) : txn.commitSucceeds outs strat = true := by
  cases strat with
  | sequential =>
    rw [commitSucceeds, nobody]
    · rfl
    · nofun
  | parallel =>
    rw [commitSucceeds, nobody]
    rfl
  | pipelined =>
    rw [commitSucceeds, nobody]
    · rfl
    · nofun

theorem truthful_end_of_commits (commits : txn.Commits outs exec.strategy) (worker : WorkerState) :
    txn.Truthful outs exec.strategy path (txn.ended outs begun exec worker) ↔
      txn.ReportsOutcome outs begun exec := by
  obtain ⟨ifComplete, ifIncomplete⟩ := result_of_commits commits begun
  rw [ended]
  have withdrawn : ¬ txn.CommitsLater outs exec.strategy begun := by
    intro later
    have failed := later.failed
    rw [commits.persisted] at failed
    cases failed
  have sent : ∀ node ∈ txn.participants outs exec.strategy, .commit node txn.commitTs ∈
        (txn.finished outs begun exec).coordinator.sent := by
    intro node lt
    rw [coordinator_finished]
    exact commit_sent_of_commits commits begun lt
  cases complete : txn.commitSucceeds outs exec.strategy with
  | true =>
    rw [ifComplete complete]
    constructor
    · intro truthful
      have somebody := (truthful.committed rfl).1
      exact ⟨fun _ _ => Or.inl (mt participants_eq_nil_iff.mpr somebody),
        fun _ _ _ => complete, withdrawn⟩
    · intro reports
      have somebody : txn.participants outs exec.strategy ≠ [] := by
        rcases reports.somebody commits.granted commits.persisted with reachable | isPipelined
        · exact mt participants_eq_nil_iff.mp reachable
        · exact commits.somebody (by rw [isPipelined]; rfl)
      exact ⟨fun _ => ⟨somebody, acknowledged_of_commitSucceeds complete, sent⟩, nofun⟩
  | false =>
    have somebody : txn.participants outs exec.strategy ≠ [] := by
      intro nobody
      rw [commitSucceeds_of_nobody nobody] at complete
      cases complete
    rw [ifIncomplete complete]
    cases isQueued : exec.queued with
    | true =>
      constructor
      · intro truthful
        obtain ⟨node, lt⟩ := exists_mem_of_ne_nil _ somebody
        exact absurd (sent node lt) (truthful.aborted _ rfl (by decide) [] node txn.commitTs)
      · intro reports
        have acknowledged := reports.acknowledged commits.granted commits.persisted isQueued
        rw [complete] at acknowledged
        cases acknowledged
    | false =>
      constructor
      · intro _
        have direct : exec.queued = true → False := by simp [isQueued]
        exact ⟨fun _ _ => Or.inl (mt participants_eq_nil_iff.mpr somebody),
          fun _ _ impossible => (direct impossible).elim, withdrawn⟩
      · intro _
        refine ⟨nofun, ?_⟩
        intro status isStatus ne
        injection isStatus with isStatus
        injection isStatus with isStatus
        exact absurd isStatus.symm ne

theorem truthful_end_of_not_commits
    (notCommits : ¬ txn.Commits outs exec.strategy) (worker : WorkerState) :
    txn.Truthful outs exec.strategy path (txn.ended outs begun exec worker) ↔
      txn.ReportsOutcome outs begun exec := by
  obtain ⟨status, isError, ne⟩ := result_of_not_commits notCommits begun
  have never := (endsAborted_of_not_commits notCommits begun).neverCommits_iff path
  rw [← coordinator_finished] at never
  rw [ended, isError]
  constructor
  · intro truthful
    have nobody : txn.prepareSucceeds outs exec.strategy = true → txn.persistSucceeds outs = true →
        exec.strategy = .pipelined ∧ txn.participants outs exec.strategy = [] := by
      intro granted persisted
      by_contra somebody
      exact notCommits ⟨granted, persisted, fun isPipelined noNodes =>
        somebody ⟨isPipelined, noNodes⟩⟩
    refine ⟨?_, ?_, never.mp (truthful.aborted status rfl ne)⟩
    · intro granted persisted
      right
      have isPipelined := (nobody granted persisted).1
      cases exec with
      | pipelined => rfl
      | _ => cases isPipelined
    · intro granted persisted _
      exact commitSucceeds_of_nobody (nobody granted persisted).2
  · intro reports
    refine ⟨nofun, ?_⟩
    intro _ _ _
    exact never.mpr reports.withdrawn

theorem Truthful.of_waiting
    {sys : TwoPhaseSystem} (waiting : ∀ answer, sys.caller ≠ .returned answer) :
    txn.Truthful outs exec.strategy path sys :=
  ⟨fun returned => absurd returned (waiting _), fun _ returned => absurd returned (waiting _)⟩

theorem Reached.truthful {sys : TwoPhaseSystem} (reached : txn.Reached outs begun exec sys)
    (atEnd : ∀ worker, txn.Truthful outs exec.strategy path
      (txn.ended outs begun exec worker)) : txn.Truthful outs exec.strategy path sys := by
  cases reached with
  | executing direct shape => exact .of_waiting (by simp)
  | answered direct => exact atEnd .idle
  | queued isQueued waits =>
    rcases waits with rfl | rfl
    · exact .of_waiting (by simp)
    · exact .of_waiting (by simp)
  | running isQueued shape waits =>
    rcases waits with rfl | rfl | rfl
    · exact .of_waiting (by simp)
    · exact .of_waiting (by simp)
    · exact .of_waiting (by simp)
  | reported isQueued => exact atEnd (.running [])
  | cancelled skips => exact .of_waiting (by simp)
  | @timedOut worker done skips =>
    have unread : Unread path
        (((initial begun).apply txn.begin).apply (.updateState .aborted)) := by
      refine ⟨rfl, ?_⟩
      intro rec isRecord
      injection isRecord with same
      rw [← same]
      exact Or.inr rfl
    have noCommits : ∀ node commitTs, DtxMessage.commit node commitTs ∉
        (((initial begun).apply txn.begin).apply (.updateState .aborted)).sent := by
      simp [initial, Coordinator.apply, begin]
    exact ⟨by simp, fun _ _ _ => unread.neverCommits noCommits⟩

end Truthful

/-- In every interleaving in which the caller does not cancel a transaction that the
worker has checked and not yet begun, every state reached is truthful, exactly when the
end of the execution is. -/
theorem execute2PC_truthful_iff
    (txn : TwoPhaseCommit) (outs : TwoPhaseOutcomes) (strat : TwoPCStrategy)
    (busy : Bool) (begun : Option (List UInt16)) (path : String) :
    let exec := txn.execution busy strat
    let step := step (txn.threadSteps outs exec)
    let start := txn.execute2PC outs begun exec
    (∀ schedule, Admissible step Unraced start schedule →
      txn.Truthful outs exec.strategy path (run step start schedule)) ↔
      txn.ReportsOutcome outs begun exec := by
  intro exec step start
  have endIff : ∀ worker, txn.Truthful outs exec.strategy path
      (txn.ended outs begun exec worker) ↔
      txn.ReportsOutcome outs begun exec := by
    intro worker
    by_cases commits : txn.Commits outs exec.strategy
    · exact truthful_end_of_commits commits worker
    · exact truthful_end_of_not_commits commits worker
  constructor
  · intro truthful
    obtain ⟨schedule, worker, admissible, ends⟩ :=
      reaches_end txn outs begun exec
    have atEnd := truthful schedule admissible
    rw [ends] at atEnd
    exact (endIff worker).mp atEnd
  · intro reports schedule admissible
    have reached : txn.Reached outs begun exec (run step start schedule) :=
      invariant_run (fun _ _ before unraced => before.step unraced)
        (reached_execute2PC txn outs begun exec) admissible
    exact reached.truthful fun worker => (endIff worker).mpr reports

/-- Without clients the parallel strategy reports a commit.  A lost acknowledgement makes
the batched strategy report an abort after the commit was sent.  A caller that cancels
after the pipelined worker has checked the context reports a timeout, and the worker goes
on to commit. -/
theorem misreported_outcomes :
    let inOrder : Reordering := ⟨id, fun _ => .refl _⟩
    let outs : Bool → TwoPhaseOutcomes := fun acknowledged =>
      ⟨fun _ => true, true, .success, fun _ => acknowledged, true, inOrder, inOrder, inOrder,
        inOrder⟩
    let txn : TwoPhaseCommit :=
      ⟨1, by decide, true, 42, [], [⟨1, 5, 0, 0, 0, 0, 0, 1⟩], 100⟩
    let nowhere := { txn with clients := 0, numbered := by decide }
    let run := fun (txn : TwoPhaseCommit) outs exec =>
      run (step (txn.threadSteps outs exec)) (txn.execute2PC outs none exec)
    let unheard := run nowhere (outs true) .parallel (.replicate 10 .caller)
    let lost := run txn (outs false) .batched (.replicate 14 .worker ++ [.caller])
    let raced := run txn (outs true) .pipelined
      ([.timeout, .worker, .caller, .caller] ++ .replicate 12 .worker)
    (nowhere.participants (outs true) .parallel = [] ∧ unheard.caller = .returned (.ok ())) ∧
    (.commit 0 100 ∈ lost.context.coordinator.sent ∧
      lost.caller = .returned (.error transactionAborted)) ∧
    .commit 0 100 ∈ raced.context.coordinator.sent ∧
      raced.caller = .returned (.error transactionTimeout) := by
  refine ⟨⟨rfl, rfl⟩, ⟨?_, rfl⟩, ?_, rfl⟩
  · decide
  · decide

end TwoPhaseCommit

end CedarGraph
