import CedarGraph.Dtx.Engine

/-!
# Recovery of a transaction

`StartRecovery` looks for a decision first and then at the recorded state; `ApplyRecoveryAction`
drives the participants of the record to the outcome. A recovery may itself be cut short.
-/

namespace CedarGraph

open List TransactionRecord CoordinatorEvent

inductive RecoveryAction where
  | none
  | commit
  | abort
  deriving DecidableEq, Repr

structure RecoveryResult where
  success : Bool
  recommendedAction : RecoveryAction
  reason : String
  pendingParticipants : List UInt16
  commitTs : UInt64

variable (rec : TransactionRecord)

/-- The participants that have not acknowledged a commit. -/
def TransactionRecord.pending : List UInt16 :=
  (rec.participantStates.filter fun entry => entry.2 ≠ .committed).map Prod.fst

/-- The result for a recorded state when there is no decision; `DecideHeuristicAction`
always aborts. -/
def TransactionRecord.recoveryResult : RecoveryResult :=
  match rec.state with
  | .committed => ⟨true, .none, "Transaction already committed", [], 0⟩
  | .aborted => ⟨true, .none, "Transaction already aborted", [], 0⟩
  | .prepared => ⟨false, .commit, "Transaction prepared but not committed", [], 0⟩
  | .preparing => ⟨false, .abort, "Prepare phase incomplete", [], 0⟩
  | .committing => ⟨false, .commit, "Commit phase incomplete", rec.pending, 0⟩
  | .aborting => ⟨false, .abort, "Abort phase incomplete", [], 0⟩
  | .unknown => ⟨false, .abort, "Transaction state unknown, using heuristic", [], 0⟩
  | .active => ⟨false, .abort, "Unknown transaction state", [], 0⟩

namespace Coordinator

/-- The decision that the loader of the recovery manager finds. -/
def loadDecision (coord : Coordinator) (path : String) : Option CommitDecision :=
  match coord.decision with
  | none => none
  | some file => (CommitDecision.load path file.bytes).toOption

def startRecovery (coord : Coordinator) (path : String) : RecoveryResult :=
  match coord.record with
  | none => ⟨false, .none, "Transaction not found", [], 0⟩
  | some rec =>
    match coord.loadDecision path with
    | some decision => ⟨true, .commit, "", decision.participants, decision.commitTs⟩
    | none => rec.recoveryResult

end Coordinator

/-- `RecoverAsCoordinator`: the timestamp and the participants are those of the record.
The messages need a client to send them. -/
def TransactionRecord.recoverAsCoordinator (clients : Nat) (acknowledged : Nat → Bool) :
    List CoordinatorEvent :=
  if rec.pending.isEmpty then [.updateState .committed]
  else if clients = 0 then []
  else
    (rec.pending.map fun participant =>
      .send (.commit (nodeOf clients participant) rec.commitTs)) ++
      if (List.range rec.pending.length).all acknowledged then [.updateState .committed] else []

def TransactionRecord.recoverAsParticipant (clients : Nat) (acknowledged : Nat → Bool) :
    List CoordinatorEvent :=
  if clients = 0 then []
  else
    (rec.participants.map fun participant => .send (.abort (nodeOf clients participant))) ++
      if (List.range rec.participants.length).all acknowledged then [.updateState .aborted]
      else []

/-- One recovery: which messages are acknowledged, by position, and how many effects
take place before the process stops. -/
structure RecoveryRun where
  acknowledged : Nat → Bool
  effects : Nat

namespace Coordinator

/-- `ApplyRecoveryAction` is told the action alone. -/
def applyRecoveryAction (coord : Coordinator) (clients : Nat)
    (acknowledged : Nat → Bool) (action : RecoveryAction) : List CoordinatorEvent :=
  match coord.record with
  | none => []
  | some rec =>
    match action with
    | .none => []
    | .commit => rec.recoverAsCoordinator clients acknowledged
    | .abort => rec.recoverAsParticipant clients acknowledged

theorem mem_applyRecoveryAction {coord : Coordinator} {clients : Nat} {acknowledged : Nat → Bool}
    {action : RecoveryAction} {event : CoordinatorEvent}
    (mem : event ∈ coord.applyRecoveryAction clients acknowledged action) :
    (action = .commit ∧ clients ≠ 0 ∧
        ∃ rec ∈ coord.record, ∃ participant ∈ rec.pending,
          event = .send (.commit (nodeOf clients participant) rec.commitTs)) ∨
      (action = .abort ∧ ∃ rec ∈ coord.record, ∃ participant ∈ rec.participants,
        event = .send (.abort (nodeOf clients participant))) ∨
      ∃ state, (state = .committed ∨ state = .aborted) ∧ event = .updateState state := by
  have out : ∀ {finished : Bool} {state : TxnState},
      event ∈ (if finished then [updateState state] else []) →
      event = .updateState state := by
    intro finished state inOutcome
    cases finished with
    | false => cases inOutcome
    | true => exact mem_singleton.mp inOutcome
  rw [applyRecoveryAction] at mem
  split at mem
  · cases mem
  rename_i rec isRecord
  cases action with
  | none => cases mem
  | commit =>
    dsimp only at mem
    rw [recoverAsCoordinator] at mem
    split at mem
    · exact Or.inr (Or.inr ⟨.committed, Or.inl rfl, mem_singleton.mp mem⟩)
    · split at mem
      · cases mem
      · rename_i reachable
        rcases mem_append.mp mem with msg | atEnd
        · obtain ⟨participant, isPending, rfl⟩ := mem_map.mp msg
          exact Or.inl ⟨rfl, reachable, rec, isRecord, participant, isPending, rfl⟩
        · exact Or.inr (Or.inr ⟨.committed, Or.inl rfl, out atEnd⟩)
  | abort =>
    dsimp only at mem
    rw [recoverAsParticipant] at mem
    split at mem
    · cases mem
    · rcases mem_append.mp mem with msg | atEnd
      · obtain ⟨participant, isParticipant, rfl⟩ := mem_map.mp msg
        exact Or.inr (Or.inl ⟨rfl, rec, isRecord, participant, isParticipant, rfl⟩)
      · exact Or.inr (Or.inr ⟨.aborted, Or.inr rfl, out atEnd⟩)

/-- The effects of one pass of `RecoveryLoop`. -/
def recoveryEvents (path : String) (clients : Nat) (coord : Coordinator)
    (recovery : RecoveryRun) : List CoordinatorEvent :=
  (coord.applyRecoveryAction clients recovery.acknowledged
    (coord.startRecovery path).recommendedAction).take recovery.effects

theorem recoveryEvents_of_commit
    {path : String} {clients : Nat} {coord : Coordinator} {rec : TransactionRecord}
    (isRecord : coord.record = some rec)
    (isCommit : (coord.startRecovery path).recommendedAction = .commit)
    (isPending : rec.pending ≠ []) (reachable : clients ≠ 0) (recovery : RecoveryRun) :
    coord.recoveryEvents path clients recovery =
      ((rec.pending.map fun participant =>
        send (.commit (nodeOf clients participant) rec.commitTs)) ++
        if (List.range rec.pending.length).all recovery.acknowledged then
          [updateState .committed]
        else []).take recovery.effects := by
  have nonEmpty : ¬ rec.pending.isEmpty = true := by
    rw [List.isEmpty_iff]
    exact isPending
  rw [recoveryEvents, isCommit, applyRecoveryAction, isRecord]
  dsimp only
  rw [recoverAsCoordinator, if_neg nonEmpty, if_neg reachable]

def recover (path : String) (clients : Nat) (coord : Coordinator)
    (recovery : RecoveryRun) : Coordinator :=
  Runs.run apply coord (coord.recoveryEvents path clients recovery)

end Coordinator

end CedarGraph
