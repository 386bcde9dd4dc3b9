import CedarGraph.Dtx.Recovery

/-!
# The caller and the workers of two-phase commit

The sequential and the parallel strategy run in the caller, the batched and the pipelined one in
a worker thread for which the caller waits. They share the state word of the context: a caller
whose time is up may cancel a transaction in its initial state, and the worker skips a cancelled
one.
-/

namespace CedarGraph

inductive ContextState where
  | init
  | preparing
  | prepared
  | committing
  | committed
  | aborting
  | aborted
  deriving DecidableEq, Repr

/-- The state word, the promise that the caller waits for, and what is recorded and sent
for the transaction. -/
structure TransactionContext where
  state : ContextState
  done : Bool
  coordinator : Coordinator
  deriving DecidableEq, Repr

inductive ContextEvent where
  | store (state : ContextState)
  | effect (event : CoordinatorEvent)
  | setDone
  deriving DecidableEq, Repr

namespace TransactionContext

def apply (context : TransactionContext) : ContextEvent → TransactionContext
  | .store state => { context with state }
  | .effect event => { context with coordinator := context.coordinator.apply event }
  | .setDone => { context with done := true }

def effects (events : List CoordinatorEvent) : List ContextEvent :=
  events.map .effect

def effectsOf (steps : List ContextEvent) : List CoordinatorEvent :=
  steps.filterMap fun step =>
    match step with
    | .effect event => some event
    | _ => none

@[simp]
theorem effectsOf_append (first second : List ContextEvent) :
    effectsOf (first ++ second) = effectsOf first ++ effectsOf second :=
  List.filterMap_append

@[simp]
theorem effectsOf_effects (events : List CoordinatorEvent) :
    effectsOf (effects events) = events := by
  simp [effectsOf, effects, List.filterMap_map]

@[simp]
theorem effectsOf_nil : effectsOf [] = [] := by
  rfl

@[simp]
theorem effectsOf_store (state : ContextState) (steps : List ContextEvent) :
    effectsOf (.store state :: steps) = effectsOf steps := by
  rfl

@[simp]
theorem effectsOf_effect (event : CoordinatorEvent) (steps : List ContextEvent) :
    effectsOf (.effect event :: steps) = event :: effectsOf steps := by
  rfl

@[simp]
theorem effectsOf_setDone (steps : List ContextEvent) :
    effectsOf (.setDone :: steps) = effectsOf steps := by
  rfl

section

variable (context : TransactionContext)
include context

@[simp]
theorem run_cons (step : ContextEvent) (rest : List ContextEvent) :
    Runs.run apply context (step :: rest) = Runs.run apply (context.apply step) rest := by
  rfl

@[simp]
theorem run_nil : Runs.run apply context [] = context := by
  rfl

@[simp]
theorem run_append (first second : List ContextEvent) :
    Runs.run apply context (first ++ second) =
      Runs.run apply (Runs.run apply context first) second :=
  List.foldl_append

theorem run_coordinator (steps : List ContextEvent) :
    (Runs.run apply context steps).coordinator =
      Runs.run Coordinator.apply context.coordinator (effectsOf steps) := by
  induction steps generalizing context with
  | nil => rfl
  | cons step rest ih =>
    cases step with
    | _ => exact ih _

theorem run_done (steps : List ContextEvent) :
    (Runs.run apply context steps).done = (context.done || steps.contains .setDone) := by
  induction steps generalizing context with
  | nil => simp [Runs.run]
  | cons step rest ih =>
    have later := ih (context.apply step)
    cases step with
    | _ => simpa [Runs.run, apply] using later

@[simp]
theorem state_store (state : ContextState) : (context.apply (.store state)).state = state := by
  rfl

@[simp]
theorem state_effect (event : CoordinatorEvent) :
    (context.apply (.effect event)).state = context.state := by
  rfl

@[simp]
theorem state_setDone : (context.apply .setDone).state = context.state := by
  rfl

@[simp]
theorem run_effects_state (events : List CoordinatorEvent) :
    (Runs.run apply context (effects events)).state = context.state := by
  induction events generalizing context with
  | nil => rfl
  | cons event rest ih => exact ih (context.apply (.effect event))

end

end TransactionContext

inductive TwoPCStrategy where
  | sequential
  | parallel
  | pipelined
  | batched
  | hybrid
  deriving DecidableEq, Repr

/-- The four ways in which `Execute2PC` runs a transaction. -/
inductive Execution where
  | sequential
  | parallel
  | pipelined
  | batched
  deriving DecidableEq, Repr

def Execution.strategy : Execution → TwoPhaseStrategy
  | .sequential => .sequential
  | .parallel | .batched => .parallel
  | .pipelined => .pipelined

def Execution.queued : Execution → Bool
  | .sequential | .parallel => false
  | .pipelined | .batched => true

namespace TwoPhaseCommit

open TransactionContext

variable (txn : TwoPhaseCommit) (outs : TwoPhaseOutcomes)

/-- The switch of `Execute2PC`; the throughput is above 10000 or not. -/
def execution (busy : Bool) : TwoPCStrategy → Execution
  | .sequential => .sequential
  | .parallel => .parallel
  | .pipelined => .pipelined
  | .batched => .batched
  | .hybrid =>
    if txn.writeSet.length > 10 then .batched
    else if busy then .pipelined
    else .parallel

def prepareFailed : Status :=
  .ioError "Prepare phase failed" ""

def prepareFailedOrTimedOut : Status :=
  .ioError "Prepare phase failed or timed out" ""

def decisionNotPersisted : Status :=
  .ioError "Commit decision persistence failed — aborting transaction" ""

def commitIncomplete : Status :=
  .ioError "Commit phase incomplete — recovery will complete remaining participants" ""

def transactionTimeout : Status :=
  .ioError "Transaction timeout" ""

def transactionAborted : Status :=
  .ioError "Transaction aborted" ""

def executeSequential2PC : List ContextEvent × Except Status Unit :=
  let nodes := getParticipants txn.clients txn.writeSet
  let acks := sequentialAcks outs nodes
  let prepares := .store .preparing :: effects (prepareAll (nodes.take (acks + 1)))
  if acks < nodes.length then
    (prepares ++ (.store .aborting :: effects (abortAll (nodes.take acks))), .error prepareFailed)
  else
    let persists := prepares ++ (.store .prepared :: effects (txn.persistEvents outs))
    if txn.persistSucceeds outs then
      let commits := persists ++ (.store .committing :: effects (txn.commitAll nodes))
      if every outs.acknowledged nodes then (commits ++ [.store .committed], .ok ())
      else (commits ++ [.store .committing], .error commitIncomplete)
    else (persists ++ (.store .aborting :: effects (abortAll nodes)), .error decisionNotPersisted)

def executeParallel2PC : List ContextEvent × Except Status Unit :=
  let nodes := getParticipants txn.clients txn.writeSet
  let prepares := .store .preparing :: effects (prepareAll (outs.prepares.order nodes))
  if quorum outs.granted outs.grantedInTime nodes then
    let persists := prepares ++ (.store .prepared :: effects (txn.persistEvents outs))
    if txn.persistSucceeds outs then
      let commits := persists ++ (.effect (.updateState .prepared) :: .store .committing ::
        effects (txn.commitAll (outs.commits.order nodes)))
      if quorum outs.acknowledged outs.acknowledgedInTime nodes then
        (commits ++ [.effect (.updateState .committed), .store .committed], .ok ())
      else
        (commits ++ [.store .committing, .effect (.updateState .committing)],
          .error commitIncomplete)
    else (persists ++ (.store .aborting :: effects (abortAll nodes)), .error decisionNotPersisted)
  else
    (prepares ++ (.store .aborting :: effects (abortAll (outs.aborts.order nodes))),
      .error prepareFailedOrTimedOut)

/-- What `BatchWorkerLoop` does with a context that is not cancelled, before it sets the
promise. -/
def processBatched : List ContextEvent :=
  let (steps, status) := txn.executeParallel2PC outs
  steps ++ [.store (if status.isOk then .committed else .aborted)]

/-- What `PipelineWorkerLoop` does with a context that is not cancelled, before it sets
the promise. -/
def processPipelined : List ContextEvent :=
  let nodes := txn.pipelinedParticipants outs
  if nodes.isEmpty then [.store .aborted, .effect (.updateState .aborted)]
  else
    let prepares := .store .preparing :: effects (prepareAll (outs.prepares.order nodes))
    if every outs.granted nodes then
      let persists := prepares ++ (.store .prepared :: .effect (.updateState .prepared) ::
        effects (txn.persistEvents outs))
      if txn.persistSucceeds outs then
        let commits := persists ++
          (.store .committing :: effects (txn.commitAll (outs.commits.order nodes)))
        if every outs.acknowledged nodes then
          commits ++ [.store .committed, .effect (.updateState .committed)]
        else commits ++ [.effect (.updateState .committing)]
      else
        persists ++ (.store .aborting :: effects (abortAll nodes)) ++
          [.effect (.updateState .aborted)]
    else
      prepares ++ (.store .aborting :: effects (abortAll nodes)) ++
        [.store .aborted, .effect (.updateState .aborted)]

def threadSteps : Execution → List ContextEvent
  | .sequential => (txn.executeSequential2PC outs).1
  | .parallel => (txn.executeParallel2PC outs).1
  | .pipelined => txn.processPipelined outs ++ [.setDone]
  | .batched => txn.processBatched outs ++ [.setDone]

/-! The effects of the threads are those of the executions. -/

theorem effectsOf_executeSequential2PC :
    txn.begin :: effectsOf (txn.executeSequential2PC outs).1 = txn.sequential outs := by
  rw [executeSequential2PC, sequential]
  split
  · simp
  · split
    · split
      · simp
      · simp
    · simp

theorem effectsOf_executeParallel2PC :
    txn.begin :: effectsOf (txn.executeParallel2PC outs).1 = txn.parallel outs := by
  rw [executeParallel2PC, parallel]
  split
  · split
    · split
      · simp
      · simp
    · simp
  · simp

theorem effectsOf_processPipelined :
    txn.begin :: effectsOf (txn.processPipelined outs) = txn.pipelined outs := by
  rw [processPipelined, pipelined]
  split
  · simp
  · split
    · split
      · split
        · simp
        · simp
      · simp
    · simp

theorem effectsOf_threadSteps (execution : Execution) :
    txn.begin :: effectsOf (txn.threadSteps outs execution) =
      txn.events outs execution.strategy := by
  cases execution with
  | sequential => exact txn.effectsOf_executeSequential2PC outs
  | parallel => exact txn.effectsOf_executeParallel2PC outs
  | pipelined =>
    simpa [threadSteps, events, Execution.strategy] using txn.effectsOf_processPipelined outs
  | batched =>
    simpa [threadSteps, events, Execution.strategy, processBatched] using
      txn.effectsOf_executeParallel2PC outs

end TwoPhaseCommit

inductive WorkerState where
  | idle
  | queued
  | running (steps : List ContextEvent)

/-- A caller runs the strategy itself, or waits for the worker.  Its time may expire;
then it either cancels the transaction or has to wait on. -/
inductive CallerState where
  | executing (steps : List ContextEvent) (result : Except Status Unit)
  | waiting
  | expired
  | cancelled
  | waitingForWorker
  | returned (result : Except Status Unit)

structure TwoPhaseSystem where
  context : TransactionContext
  worker : WorkerState
  caller : CallerState

inductive TwoPhaseStep where
  | worker
  | caller
  | timeout
  deriving DecidableEq, Repr

/-- The result that a caller reads off the state word. -/
def ContextState.report (state : ContextState) : Except Status Unit :=
  if state = .committed then .ok () else .error TwoPhaseCommit.transactionAborted

namespace TwoPhaseSystem

variable (workerSteps : List ContextEvent) (sys : TwoPhaseSystem)

/-- The worker loads the state word before it starts with a context. -/
def stepWorker : TwoPhaseSystem :=
  match sys.worker with
  | .idle => sys
  | .queued =>
    { sys with
      worker := .running (if sys.context.state = .aborted then [.setDone] else workerSteps) }
  | .running [] => sys
  | .running (next :: rest) =>
    { sys with context := sys.context.apply next, worker := .running rest }

def stepCaller : TwoPhaseSystem :=
  match sys.caller with
  | .executing [] res => { sys with caller := .returned res }
  | .executing (next :: rest) res =>
    { sys with context := sys.context.apply next, caller := .executing rest res }
  | .waiting =>
    if sys.context.done then
      { sys with caller := .returned sys.context.state.report }
    else sys
  | .expired =>
    -- the compare-and-swap
    if sys.context.state = .init then
      { sys with context := sys.context.apply (.store .aborted), caller := .cancelled }
    else { sys with caller := .waitingForWorker }
  | .cancelled =>
    { sys with
      context := sys.context.apply (.effect (.updateState .aborted))
      caller := .returned (.error TwoPhaseCommit.transactionTimeout) }
  | .waitingForWorker =>
    if sys.context.done then
      { sys with caller := .returned sys.context.state.report }
    else sys
  | .returned _ => sys

def expire : TwoPhaseSystem :=
  match sys.caller with
  | .waiting => if sys.context.done then sys else { sys with caller := .expired }
  | _ => sys

def step : TwoPhaseStep → TwoPhaseSystem
  | .worker => sys.stepWorker workerSteps
  | .caller => sys.stepCaller
  | .timeout => sys.expire

/-- The caller does not cancel a transaction that the worker has already checked but not
yet begun to prepare. -/
def Unraced (action : TwoPhaseStep) : Prop :=
  action = .caller → sys.caller = .expired → sys.context.state = .init → sys.worker = .queued

end TwoPhaseSystem

namespace TwoPhaseCommit

variable (txn : TwoPhaseCommit) (outs : TwoPhaseOutcomes) (begun : Option (List UInt16))

/-- The context that `Execute2PC` makes after `CreateTransaction`. -/
def context : TransactionContext :=
  ⟨.init, false, (Coordinator.initial begun).apply txn.begin⟩

def execute2PC : Execution → TwoPhaseSystem
  | .sequential =>
    let (steps, res) := txn.executeSequential2PC outs
    ⟨txn.context begun, .idle, .executing steps res⟩
  | .parallel =>
    let (steps, res) := txn.executeParallel2PC outs
    ⟨txn.context begun, .idle, .executing steps res⟩
  | .pipelined | .batched => ⟨txn.context begun, .queued, .waiting⟩

end TwoPhaseCommit

end CedarGraph
