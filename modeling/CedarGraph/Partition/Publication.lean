import CedarGraph.Partition.Participant
import CedarGraph.Partition.Recovery

/-!
# The publication of one transaction

A prepared transaction is committed, with failures and crashes at any point, retried, and
completed by `RecoverCdcIntents`. Its records end up in the log once, as one batch, under three
conditions: an append is whole or nothing, `Commit` appends only while the log has no record of
the transaction, and the pages of the log can be read.
-/

namespace CedarGraph

open List Runs PartitionStorage

/-- A prepared transaction and the timestamp with which it is committed. -/
structure CommittingTxn where
  state : PreparedTxnState
  commitTs : UInt64

namespace CommittingTxn

variable (txn : CommittingTxn)

def txnId : UInt64 :=
  txn.state.txnId

def records (part : PartitionStorage) : List ChangeRecord :=
  (part.writeEntries txn.state).map (changeRecord txn.txnId txn.commitTs)

def intent (part : PartitionStorage) : CdcIntentBatch :=
  intentBatch txn.txnId txn.commitTs (part.writeEntries txn.state)

/-- The state is the transaction as it was prepared, whatever its status. -/
def SameWrites (state : PreparedTxnState) : Prop :=
  state.writeSet = txn.state.writeSet ∧ state.writeDescriptors = txn.state.writeDescriptors

end CommittingTxn

/-! ## The batch in the log -/

namespace PartitionChangeLog

def Absent (txnId : UInt64) (log : PartitionChangeLog) : Prop :=
  ∀ rec ∈ log.records, rec.txnId ≠ txnId

/-- The records stand in the log as one batch, and the log has no other record of the
transaction. -/
def Published (opts : ChangeLogOptions) (txnId commitTs : UInt64)
    (records : List ChangeRecord) (log : PartitionChangeLog) : Prop :=
  ∃ before first after, log.records = before ++ stamp opts first commitTs records ++ after ∧
    (∀ rec ∈ before, rec.txnId ≠ txnId) ∧ ∀ rec ∈ after, rec.txnId ≠ txnId

/-- The events of an append that happened: none, or all of one that returned OK or whose
first frame could not be written. -/
def WholeAppend (append : List ChangeLogEvent × Except Status Unit) (out : AppendOutcome)
    (events : List ChangeLogEvent) : Prop :=
  events = [] ∨ events = append.1 ∧ (append.2.isOk = true ∨ out.frames 0 = .refused)

end PartitionChangeLog

namespace PartitionEffect

def event? : PartitionEffect → Option ChangeLogEvent
  | .changeLog event => some event
  | _ => none

end PartitionEffect

/-- A crash keeps the first effects of a call; the storage recovers on its own. -/
structure Crash where
  after : Nat
  storage : CedarGraphStorage

open Crash

def Crash.executed (crash : Option Crash) (effects : List PartitionEffect) : List PartitionEffect :=
  match crash with
  | none => effects
  | some crash => effects.take crash.after

inductive PublicationStep where
  | commit (outcomes : CommitOutcomes) (crash : Option Crash)
  | recoverIntent (intent : CdcIntentBatch) (outcomes : RecoverOutcomes) (crash : Option Crash)
  | reload (prepared : List PreparedTxnState)

/-- The partition, unless its log could not be opened again, and whether a call has
reported the transaction as complete. -/
structure PublicationState where
  partition : Option PartitionStorage
  completed : Bool

namespace PublicationState

open PartitionStorage PartitionChangeLog PartitionEffect

section Steps

variable (opts : PartitionOptions)

/-- The partition is added again after a crash: the files stay, the sets in memory go. -/
def reopen (part : PartitionStorage) (storage : CedarGraphStorage) : Option PartitionStorage :=
  match part.changeLog with
  | none => none
  | some log =>
    match openLog opts.changeLog log.disk with
    | .error _ => none
    | .ok reopened =>
      some { part with
        storage
        prepared := []
        committed := []
        aborted := []
        changeLog := some reopened }

def perform (part : PartitionStorage) (effects : List PartitionEffect)
    (crash : Option Crash) : Option PartitionStorage :=
  let after := run (apply opts) part (executed crash effects)
  match crash with
  | none => some after
  | some crash => reopen opts after crash.storage

variable (txn : CommittingTxn)

def step (state : PublicationState) (next : PublicationStep) : PublicationState :=
  match state.partition with
  | none => state
  | some part =>
    match next with
    | .commit outs crash =>
      let call := part.commit opts txn.txnId txn.commitTs outs
      ⟨perform opts part call.1 crash, state.completed || (crash.isNone && call.2.isOk)⟩
    | .recoverIntent intent outs crash =>
      if intent ∈ part.intents then
        let call := part.recoverIntent opts intent outs
        ⟨perform opts part call.1 crash,
          state.completed || (crash.isNone && call.2.isOk && decide (intent.txnId = txn.txnId))⟩
      else state
    | .reload prepared => ⟨some { part with prepared }, state.completed⟩

/-- The condition on a step of a partition with a change log. -/
def Sound (part : PartitionStorage) (log : PartitionChangeLog) : PublicationStep → Prop
  | .commit outs crash =>
    let events := (executed crash (part.commit opts txn.txnId txn.commitTs outs).1).filterMap event?
    WholeAppend (log.appendCommittedBatch opts.changeLog txn.commitTs
      (txn.records part) outs.append) outs.append events ∧
      (events ≠ [] → log.Absent txn.txnId)
  | .recoverIntent intent outs crash =>
    (∀ batch, intent.readFile opts.changeLog = .ok batch →
      WholeAppend (log.appendCommittedBatch opts.changeLog batch.commitVersion
        (batch.records.map Prod.snd) outs.append) outs.append
        ((executed crash (part.recoverIntent opts intent outs).1).filterMap event?)) ∧
      (intent.txnId = txn.txnId → intent.records.length < 2 ^ 32 ∧ Scannable opts.changeLog log)
  | .reload prepared => ∀ state ∈ prepared, state.txnId = txn.txnId → txn.SameWrites state

def Allowed (state : PublicationState) (next : PublicationStep) : Prop :=
  ∀ part ∈ state.partition, ∀ log ∈ part.changeLog, Sound opts txn part log next

end Steps

end PublicationState

/-! ## Appends and the batch -/

namespace PartitionChangeLog

variable {opts : ChangeLogOptions} {log : PartitionChangeLog} {txnId commitTs : UInt64}
  {records : List ChangeRecord}

theorem txnId_of_mem_stamp {first : Nat} {rec : ChangeRecord}
    (mem : rec ∈ stamp opts first commitTs records) :
    ∃ original ∈ records, original.txnId = rec.txnId := by
  obtain ⟨index, lt, rfl⟩ := mem_iff_getElem.mp mem
  have inRecords : index < records.length := by
    simpa [stamp] using lt
  exact ⟨records[index], getElem_mem inRecords, by simp [stamp]⟩

variable {later : PartitionChangeLog} {out : AppendOutcome}

theorem Absent.published (absent : Absent txnId log) {first : Nat}
    (appended : later.records = log.records ++ stamp opts first commitTs records) :
    Published opts txnId commitTs records later := by
  refine ⟨log.records, first, [], ?_, absent, forall_mem_nil _⟩
  rw [appended, append_nil]

theorem published_nil (once : Absent txnId log ∨ Published opts txnId commitTs [] log) :
    Published opts txnId commitTs [] log := by
  rcases once with absent | published
  · have appended : log.records = log.records ++ stamp opts 0 commitTs [] := by
      simp [stamp]
    exact absent.published appended
  · exact published

theorem append_refused {out : AppendOutcome} (refused : out.frames 0 = .refused)
    (some_record : records ≠ []) :
    ∃ rec : ChangeRecord, rec.offset = log.highWatermark + 1 ∧
      (log.appendCommittedBatch opts commitTs records out).1 = [.appendFrame rec .refused] := by
  obtain ⟨first, rest, rfl⟩ := exists_cons_of_ne_nil some_record
  rw [appendCommittedBatch, stamp, mapIdx_cons, appendFrames, refused]
  refine ⟨_, ?_, rfl⟩
  rfl

theorem append_ne_nil (complete : (log.appendCommittedBatch opts commitTs records out).2 = .ok ()) :
    (log.appendCommittedBatch opts commitTs records out).1 ≠ [] := by
  obtain ⟨manifest, _, events⟩ := append_of_ok complete
  simp [events]

theorem isOk_iff (res : Except Status Unit) : res.isOk = true ↔ res = .ok () := by
  cases res with
  | error status => simp [Except.isOk, Except.toBool]
  | ok done => simp [Except.isOk, Except.toBool]

theorem WholeAppend.run {events : List ChangeLogEvent} (built : Built opts log)
    (whole : WholeAppend (log.appendCommittedBatch opts commitTs records out) out events)
    (some_record : events ≠ [] → records ≠ []) :
    Built opts (run (apply opts) log events) ∧
      ((run (apply opts) log events).records = log.records ∧
          ¬ (log.appendCommittedBatch opts commitTs records out).2 = .ok () ∨
        events = [] ∨
        events ≠ [] ∧ (run (apply opts) log events).records =
          log.records ++ stamp opts (log.highWatermark + 1) commitTs records) := by
  rcases whole with rfl | ⟨rfl, whole⟩
  · exact ⟨built, Or.inr (Or.inl rfl)⟩
  by_cases none : (log.appendCommittedBatch opts commitTs records out).1 = []
  · rw [none]
    exact ⟨built, Or.inr (Or.inl rfl)⟩
  by_cases complete : (log.appendCommittedBatch opts commitTs records out).2 = .ok ()
  · have appended := (built.clean.append complete).2
    exact ⟨built.appended commitTs records out complete, Or.inr (Or.inr ⟨none, appended⟩)⟩
  have refused : out.frames 0 = .refused := by
    rcases whole with ok | refused
    · exact absurd ((isOk_iff _).mp ok) complete
    · exact refused
  obtain ⟨rec, offset, effects⟩ :=
    @append_refused opts log commitTs records out refused (some_record none)
  rw [effects]
  exact ⟨built.refused rec offset, Or.inl ⟨(built.clean.refused offset).2, complete⟩⟩

/-- The log is built from whole appends and has the batch at most once, and once when the
transaction was reported as complete. -/
structure Publishes (opts : ChangeLogOptions) (txnId commitTs : UInt64)
    (records : List ChangeRecord) (completed : Prop) (log : PartitionChangeLog) : Prop where
  built : Built opts log
  once : Absent txnId log ∨ Published opts txnId commitTs records log
  done : completed → Published opts txnId commitTs records log

section Publishes

variable {completed : Prop} {out : AppendOutcome} {events : List ChangeLogEvent}

section

variable (publishes : Publishes opts txnId commitTs records completed log)
include publishes

theorem Publishes.imp {weaker : Prop} (implies : weaker → completed ∨ records = []) :
    Publishes opts txnId commitTs records weaker log := by
  refine ⟨publishes.built, publishes.once, ?_⟩
  intro holds
  rcases implies holds with complete | empty
  · exact publishes.done complete
  · subst empty
    exact published_nil publishes.once

theorem Publishes.extend {others : List ChangeRecord} (built : Built opts later)
    (ne : ∀ rec ∈ others, rec.txnId ≠ txnId) (appended : later.records = log.records ++ others) :
    Publishes opts txnId commitTs records completed later := by
  have staysAbsent : Absent txnId log → Absent txnId later := by
    intro absent rec mem
    rw [appended] at mem
    rcases mem_append.mp mem with before | new
    · exact absent rec before
    · exact ne rec new
  have staysPublished : Published opts txnId commitTs records log →
      Published opts txnId commitTs records later := by
    intro published
    obtain ⟨before, first, after, shape, beforeOther, afterOther⟩ := published
    refine ⟨before, first, after ++ others, ?_, beforeOther, ?_⟩
    · simp [appended, shape]
    · intro rec mem
      rcases mem_append.mp mem with inAfter | new
      · exact afterOther rec inAfter
      · exact ne rec new
  exact ⟨built, publishes.once.imp staysAbsent staysPublished,
    fun complete => staysPublished (publishes.done complete)⟩

theorem Publishes.unchanged (built : Built opts later) (same : later.records = log.records) :
    Publishes opts txnId commitTs records completed later :=
  publishes.extend built (forall_mem_nil _) (by rw [same, append_nil])

theorem Publishes.reopen
    {reopened : PartitionChangeLog} (read : openLog opts log.disk = .ok reopened) :
    Publishes opts txnId commitTs records completed reopened :=
  publishes.unchanged (publishes.built.reopened read)
    (publishes.built.clean.recover (recover_of_openLog read).1).2

theorem Publishes.append_own
    (whole : WholeAppend (log.appendCommittedBatch opts commitTs records out) out events)
    (some_record : events ≠ [] → records ≠ []) (absent : events ≠ [] → Absent txnId log) :
    Publishes opts txnId commitTs records
      (completed ∨ events ≠ [] ∧ (log.appendCommittedBatch opts commitTs records out).2 = .ok ())
      (run (apply opts) log events) := by
  obtain ⟨built, res⟩ := whole.run publishes.built some_record
  rcases res with ⟨same, failed⟩ | nothing | ⟨some_event, appended⟩
  · refine (publishes.unchanged built same).imp ?_
    intro complete
    exact Or.inl (complete.resolve_right fun appends => failed appends.2)
  · subst nothing
    refine publishes.imp ?_
    intro complete
    exact Or.inl (complete.resolve_right fun appends => appends.1 rfl)
  · have published := (absent some_event).published appended
    exact ⟨built, Or.inr published, fun _ => published⟩

theorem Publishes.append_other {otherVersion : UInt64} {others : List ChangeRecord}
    (whole : WholeAppend (log.appendCommittedBatch opts otherVersion others out) out events)
    (some_record : events ≠ [] → others ≠ []) (ne : ∀ rec ∈ others, rec.txnId ≠ txnId) :
    Publishes opts txnId commitTs records completed (run (apply opts) log events) := by
  obtain ⟨built, res⟩ := whole.run publishes.built some_record
  rcases res with ⟨same, _⟩ | nothing | ⟨_, appended⟩
  · exact publishes.unchanged built same
  · subst nothing
    exact publishes
  · refine publishes.extend built ?_ appended
    intro rec mem
    obtain ⟨original, inOthers, sameId⟩ := txnId_of_mem_stamp mem
    rw [← sameId]
    exact ne original inOthers

end

end Publishes

end PartitionChangeLog

/-! ## What the effects of the calls change -/

namespace PartitionStorage

open PartitionEffect PartitionChangeLog

variable {opts : PartitionOptions} {part : PartitionStorage} {txn : CommittingTxn}

variable {other : PartitionStorage}

theorem writeEntries_congr (same : other.partitionId = part.partitionId)
    {first second : PreparedTxnState} (writes : first.writeSet = second.writeSet)
    (descs : first.writeDescriptors = second.writeDescriptors) :
    other.writeEntries first = part.writeEntries second := by
  rw [writeEntries, writeEntries, same, writes, descs]

structure Keeps (txn : CommittingTxn) (part : PartitionStorage) : Prop where
  own : ∀ intent ∈ part.intents, intent.txnId = txn.txnId → intent = txn.intent part
  others : ∀ intent ∈ part.intents, intent.txnId ≠ txn.txnId →
    ∀ entry ∈ intent.records, entry.2.txnId ≠ txn.txnId
  prepared : ∀ state ∈ part.prepared, state.txnId = txn.txnId → txn.SameWrites state

def OfTxn (txn : CommittingTxn) (part : PartitionStorage) : PartitionEffect → Prop
  | .insertPrepared _ => False
  | .persistIntent batch => batch = txn.intent part
  | .commitTxn txnId => txnId = txn.txnId
  | .abortTxn _ => False
  | _ => True

theorem partitionId_apply (effect : PartitionEffect) :
    (part.apply opts effect).partitionId = part.partitionId := by
  cases effect <;> simp [apply]

theorem intent_congr (same : other.partitionId = part.partitionId) :
    txn.intent other = txn.intent part := by
  rw [CommittingTxn.intent, CommittingTxn.intent, writeEntries_congr same rfl rfl]

theorem Keeps.apply (keeps : Keeps txn part) {effect : PartitionEffect}
    (ofTxn : OfTxn txn part effect) : Keeps txn (part.apply opts effect) := by
  have sameIntent : txn.intent (part.apply opts effect) = txn.intent part :=
    intent_congr (partitionId_apply effect)
  cases effect with
  | insertPrepared state => exact ofTxn.elim
  | abortTxn txnId => exact ofTxn.elim
  | setStatus txnId status =>
    refine ⟨keeps.own, keeps.others, ?_⟩
    intro state mem sameId
    obtain ⟨before, inPrepared, rfl⟩ := mem_map.mp mem
    by_cases changed : before.txnId = txnId
    · simp only [changed, if_true] at sameId ⊢
      exact keeps.prepared before inPrepared (changed.trans sameId)
    · simp only [changed, if_false] at sameId ⊢
      exact keeps.prepared before inPrepared sameId
  | persistIntent batch =>
    have ownBatch : batch = txn.intent part := ofTxn
    have member_cases : ∀ intent ∈ (part.apply opts (.persistIntent batch)).intents,
        intent ∈ part.intents ∨ intent = txn.intent part := by
      intro intent mem
      rcases mem_append.mp mem with kept | new
      · exact Or.inl (mem_filter.mp kept).1
      · exact Or.inr ((mem_singleton.mp new).trans ownBatch)
    refine ⟨?_, ?_, keeps.prepared⟩
    · intro intent mem sameId
      rw [sameIntent]
      rcases member_cases intent mem with before | new
      · exact keeps.own intent before sameId
      · exact new
    · intro intent mem ne
      rcases member_cases intent mem with before | new
      · exact keeps.others intent before ne
      · rw [new] at ne
        exact absurd rfl ne
  | deleteIntent txnId =>
    refine ⟨?_, ?_, keeps.prepared⟩
    · intro intent mem
      exact keeps.own intent (mem_filter.mp mem).1
    · intro intent mem
      exact keeps.others intent (mem_filter.mp mem).1
  | commitTxn txnId =>
    refine ⟨keeps.own, keeps.others, ?_⟩
    intro state mem
    exact keeps.prepared state (mem_filter.mp mem).1
  | _ => exact ⟨keeps.own, keeps.others, keeps.prepared⟩

theorem keeps_run {effects : List PartitionEffect} (keeps : Keeps txn part)
    (ofTxn : ∀ effect ∈ effects, OfTxn txn part effect) :
    Keeps txn (run (apply opts) part effects) := by
  induction effects generalizing part with
  | nil => exact keeps
  | cons effect rest ih =>
    refine ih (keeps.apply (ofTxn effect mem_cons_self)) ?_
    intro other mem
    have before := ofTxn other (mem_cons_of_mem effect mem)
    cases other with
    | persistIntent batch => exact Eq.trans before (intent_congr (partitionId_apply effect)).symm
    | _ => exact before

/-- What effects move: the log by its events, and transactions to the committed ones. -/
structure Moves (opts : PartitionOptions) (before : PartitionStorage)
    (effects : List PartitionEffect) (after : PartitionStorage) : Prop where
  partitionId : after.partitionId = before.partitionId
  changeLog : after.changeLog = before.changeLog.map fun log =>
    run (PartitionChangeLog.apply opts.changeLog) log (effects.filterMap event?)
  committed : ∀ txnId ∈ after.committed,
    txnId ∈ before.committed ∨ PartitionEffect.commitTxn txnId ∈ effects

theorem moves_apply (effect : PartitionEffect) :
    Moves opts part [effect] (part.apply opts effect) := by
  refine ⟨partitionId_apply effect, ?_, ?_⟩
  · cases effect <;> simp [apply, event?, run, filterMap_cons]
  · intro txnId mem
    cases effect with
    | commitTxn committed =>
      rcases mem_insert_iff.mp mem with rfl | before
      · simp
      · exact Or.inl before
    | _ => exact Or.inl mem

theorem moves_run (effects : List PartitionEffect) (part : PartitionStorage) :
    Moves opts part effects (run (apply opts) part effects) := by
  induction effects generalizing part with
  | nil =>
    refine ⟨rfl, ?_, fun _ mem => Or.inl mem⟩
    simp [run]
  | cons effect rest ih =>
    have first : Moves opts part [effect] (part.apply opts effect) :=
      moves_apply effect
    have later := ih (part.apply opts effect)
    refine ⟨later.partitionId.trans first.partitionId, ?_, ?_⟩
    · refine later.changeLog.trans ?_
      rw [first.changeLog, Option.map_map]
      congr 1
      funext log
      have split : (effect :: rest).filterMap event? =
          [effect].filterMap event? ++ rest.filterMap event? := by
        rw [← filterMap_append, singleton_append]
      rw [split, Function.comp_apply, run, run, run, foldl_append]
    · intro txnId mem
      rcases later.committed txnId mem with before | inRest
      · rcases first.committed txnId before with prev | isEffect
        · exact Or.inl prev
        · exact Or.inr (mem_cons.mpr (Or.inl (mem_singleton.mp isEffect)))
      · exact Or.inr (mem_cons_of_mem effect inRest)

section Calls

variable {log : PartitionChangeLog}

variable {effect : PartitionEffect} {effects : List PartitionEffect} {out : AppendOutcome}
    {intent : CdcIntentBatch}

theorem onStorage_noEvent (onStorage : OnStorage effect) : event? effect = none := by
  cases effect <;> simp [OnStorage, event?] at onStorage ⊢

/-- The effect belongs to the commit, before its append and before its end. -/
def Quiet (txn : CommittingTxn) (part : PartitionStorage) (effect : PartitionEffect) : Prop :=
  OfTxn txn part effect ∧ event? effect = none ∧ ∀ other, effect ≠ .commitTxn other

theorem onStorage_quiet (onStorage : OnStorage effect) : Quiet txn part effect := by
  cases effect <;> simp [OnStorage, Quiet, OfTxn, event?] at onStorage ⊢

theorem filterMap_event_quiet (quiet : ∀ effect ∈ effects, Quiet txn part effect) :
    effects.filterMap event? = [] :=
  filterMap_eq_nil_iff.mpr fun effect mem => (quiet effect mem).2.1

theorem filterMap_event_map (events : List ChangeLogEvent) :
    (events.map PartitionEffect.changeLog).filterMap event? = events := by
  rw [filterMap_map]
  exact filterMap_some

theorem publish_spec (logged : part.changeLog = some log) {txnId commitTs : UInt64}
    {records : List ChangeRecord} (out : AppendOutcome) (intentDeleted : Bool) :
    let call := part.publish opts txnId commitTs records out intentDeleted
    let append := log.appendCommittedBatch opts.changeLog commitTs records out
    (∀ effect ∈ call.1, OfTxn txn part effect ∧ ∀ other, effect ≠ .commitTxn other) ∧
      (call.1.filterMap event? ≠ [] → records ≠ []) ∧
      (call.2 = .ok () →
        records = [] ∨ call.1.filterMap event? = append.1 ∧ append.2 = .ok ()) := by
  intro call append
  have plain : ∀ (events : List ChangeLogEvent), ∀ effect ∈ events.map PartitionEffect.changeLog,
        OfTxn txn part effect ∧ ∀ other, effect ≠ .commitTxn other := by
    intro events effect mem
    obtain ⟨event, _, rfl⟩ := mem_map.mp mem
    simp [OfTxn]
  dsimp only [call]
  rw [publish, logged]
  dsimp only
  split
  · rename_i empty
    exact ⟨by simp, by simp, fun _ => Or.inl (List.isEmpty_iff.mp empty)⟩
  rename_i notEmpty
  have some_record : records ≠ [] := by
    simpa using notEmpty
  have isAppend : log.appendCommittedBatch opts.changeLog commitTs records out = append := rfl
  rw [isAppend]
  cases res : append.2 with
  | error status => exact ⟨plain _, fun _ => some_record, by simp⟩
  | ok done =>
    refine ⟨?_, fun _ => some_record, fun _ => Or.inr ⟨?_, rfl⟩⟩
    · rw [forall_mem_append]
      exact ⟨plain _, by cases intentDeleted <;> simp [OfTxn]⟩
    · have closing : (if intentDeleted = true then [PartitionEffect.deleteIntent txnId]
          else []).filterMap event? = [] := by
        cases intentDeleted <;> simp [event?]
      simp only [filterMap_append, filterMap_event_map, closing, append_nil]

structure Committing (opts : PartitionOptions) (txn : CommittingTxn)
    (part : PartitionStorage) (log : PartitionChangeLog) (out : AppendOutcome)
    (call : List PartitionEffect × Except Status Unit) : Prop where
  ofTxn : ∀ effect ∈ call.1, OfTxn txn part effect
  some_record : call.1.filterMap event? ≠ [] → txn.records part ≠ []
  published : call.2 = .ok () → txn.txnId ∈ part.committed ∨ txn.records part = [] ∨
    call.1.filterMap event? =
        (log.appendCommittedBatch opts.changeLog txn.commitTs (txn.records part) out).1 ∧
      (log.appendCommittedBatch opts.changeLog txn.commitTs (txn.records part) out).2 = .ok ()
  finished : ∀ other, PartitionEffect.commitTxn other ∈ call.1 → call.2 = .ok ()

theorem committing_of_failed {status : Status} (quiet : ∀ effect ∈ effects, Quiet txn part effect) :
    Committing opts txn part log out (effects, .error status) := by
  refine ⟨fun effect mem => (quiet effect mem).1, ?_, ?_, ?_⟩
  · intro some_event
    exact absurd (filterMap_event_quiet quiet) some_event
  · intro done
    simp at done
  · intro other mem
    exact absurd rfl ((quiet _ mem).2.2 other)

theorem announce_quiet {out : Except Status Unit} :
    ∀ effect ∈ (part.announce txn.txnId txn.commitTs (part.writeEntries txn.state) out).1,
      Quiet txn part effect := by
  cases out with
  | error status =>
    rw [announce]
    split <;> simp
  | ok done =>
    rw [announce]
    split <;> simp [Quiet, OfTxn, CommittingTxn.intent, event?]

theorem commitPrepared_committing (logged : part.changeLog = some log) (outs : CommitOutcomes) :
    Committing opts txn part log outs.append
      (part.commitPrepared opts txn.txnId txn.commitTs (part.writeEntries txn.state) outs) := by
  rw [commitPrepared]
  have announceQuiet := @announce_quiet part txn outs.intent
  dsimp only
  generalize part.announce txn.txnId txn.commitTs (part.writeEntries txn.state)
    outs.intent = announced at *
  cases announced.2 with
  | error status => exact committing_of_failed announceQuiet
  | ok done =>
  dsimp only
  have putOnStorage := @putAll_onStorage txn.txnId outs.puts 0
    ((part.writeEntries txn.state).map (part.storageWrite txn.commitTs))
  generalize putAll txn.txnId outs.puts 0
    ((part.writeEntries txn.state).map (part.storageWrite txn.commitTs)) = written at *
  have quiet : ∀ effect ∈ announced.1 ++ written.1, Quiet txn part effect :=
    forall_mem_append.mpr
      ⟨announceQuiet, fun effect mem => onStorage_quiet (putOnStorage effect mem)⟩
  cases written.2 with
  | error status => exact committing_of_failed quiet
  | ok written_ok =>
  dsimp only
  obtain ⟨publishOfTxn, some_record, res⟩ := @publish_spec opts part txn log logged
    txn.txnId txn.commitTs (txn.records part) outs.append outs.intentDeleted
  rw [← CommittingTxn.records]
  generalize part.publish opts txn.txnId txn.commitTs (txn.records part)
    outs.append outs.intentDeleted = published at *
  have allOfTxn : ∀ effect ∈ announced.1 ++ written.1 ++ published.1, OfTxn txn part effect :=
    forall_mem_append.mpr
      ⟨fun effect mem => (quiet effect mem).1, fun effect mem => (publishOfTxn effect mem).1⟩
  have allEvents : (announced.1 ++ written.1 ++ published.1).filterMap event? =
      published.1.filterMap event? := by
    rw [filterMap_append, filterMap_event_quiet quiet, nil_append]
  cases publishedResult : published.2 with
  | error status =>
    refine ⟨allOfTxn, ?_, by simp, ?_⟩
    · rw [allEvents]
      exact some_record
    · intro other mem
      rcases mem_append.mp mem with before | inPublished
      · exact absurd rfl ((quiet _ before).2.2 other)
      · exact absurd rfl ((publishOfTxn _ inPublished).2 other)
  | ok published_ok =>
    have closing : [commitTxn txn.txnId].filterMap event? = [] := by
      simp [event?, filterMap_cons]
    refine ⟨forall_mem_append.mpr ⟨allOfTxn, by simp [OfTxn]⟩, ?_, fun _ => Or.inr ?_,
      fun _ _ => rfl⟩
    all_goals rw [filterMap_append, allEvents, closing, append_nil]
    · exact some_record
    · exact res publishedResult

theorem commit_committing (logged : part.changeLog = some log) (keeps : Keeps txn part)
    (outs : CommitOutcomes) :
    Committing opts txn part log outs.append (part.commit opts txn.txnId txn.commitTs outs) := by
  rw [commit]
  split
  · exact committing_of_failed (by simp)
  split
  · split
    · rename_i committed
      exact ⟨by simp, by simp, fun _ => Or.inl committed, by simp⟩
    · exact committing_of_failed (by simp)
  · rename_i state found
    split
    · exact committing_of_failed (by simp)
    have mem : state ∈ part.prepared := mem_of_find?_eq_some found
    have sameId : state.txnId = txn.txnId := by
      simpa using find?_some found
    obtain ⟨writes, descs⟩ := keeps.prepared state mem sameId
    have sameEntries : part.writeEntries state = part.writeEntries txn.state :=
      writeEntries_congr rfl writes descs
    have rest := @commitPrepared_committing opts part txn log logged outs
    rw [sameEntries]
    refine ⟨?_, ?_, ?_, ?_⟩
    · rw [forall_mem_cons]
      exact ⟨by simp [OfTxn], rest.ofTxn⟩
    · simpa [event?, filterMap_cons] using rest.some_record
    · simpa [event?, filterMap_cons] using rest.published
    · intro other later
      rw [mem_cons] at later
      rcases later with status | later
      · simp at status
      · exact rest.finished other later

theorem readFile_ok {changeLogOptions : ChangeLogOptions} {intent batch : CdcIntentBatch}
    (read : intent.readFile changeLogOptions = .ok batch) :
    batch = { intent with
      records := intent.records.take (intent.records.length % 2 ^ 32) } := by
  rw [CdcIntentBatch.readFile] at read
  split at read
  · simp at read
  · split at read
    · simp at read
    · exact (Except.ok.inj read).symm

theorem readFile_whole {changeLogOptions : ChangeLogOptions} {intent batch : CdcIntentBatch}
    (counted : intent.records.length < 2 ^ 32)
    (read : intent.readFile changeLogOptions = .ok batch) : batch = intent := by
  rw [readFile_ok read, Nat.mod_eq_of_lt counted, take_length]

theorem records_intent : (txn.intent part).records.map Prod.snd = txn.records part := by
  simp [CommittingTxn.intent, CommittingTxn.records, intentBatch]

theorem matchesRecord_of_published (counted : (txn.intent part).records.length < 2 ^ 32)
    (published : Published opts.changeLog txn.txnId txn.commitTs (txn.records part) log)
    {index : Nat} (lt : index < (txn.intent part).records.length) :
    ∃ rec ∈ log.records, (txn.intent part).matchesRecord rec = true ∧ rec.batchIndex = index := by
  obtain ⟨before, first, after, shape, _⟩ := published
  have length : (txn.records part).length = (txn.intent part).records.length := by
    rw [← records_intent, length_map]
  have inStamp : index < (stamp opts.changeLog first txn.commitTs (txn.records part)).length := by
    rw [stamp, length_mapIdx, length]
    exact lt
  refine ⟨(stamp opts.changeLog first txn.commitTs (txn.records part))[index], ?_, ?_, ?_⟩
  · rw [shape]
    exact mem_append_left _ (mem_append_right _ (getElem_mem inStamp))
  · have small : index % 2 ^ 32 = index := Nat.mod_eq_of_lt (lt.trans counted)
    have atIndex : (txn.intent part).records[index]? =
        some (txn.intent part).records[index] := getElem?_eq_getElem lt
    simp only [CdcIntentBatch.matchesRecord, stamp, getElem_mapIdx, small, atIndex, length,
      Nat.mod_eq_of_lt counted]
    simp [CommittingTxn.records, CommittingTxn.intent, intentBatch, changeRecord]
  · simpa [stamp] using lt.trans counted

theorem alreadyPublished_intent
    (built : Built opts.changeLog log) (scannable : Scannable opts.changeLog log)
    (counted : (txn.intent part).records.length < 2 ^ 32)
    (some_record : (txn.intent part).records ≠ [])
    (once : log.Absent txn.txnId ∨
      Published opts.changeLog txn.txnId txn.commitTs (txn.records part) log) :
    (log.alreadyPublished opts.changeLog (txn.intent part) = true →
        Published opts.changeLog txn.txnId txn.commitTs (txn.records part) log) ∧
      (log.alreadyPublished opts.changeLog (txn.intent part) = false → log.Absent txn.txnId) := by
  rcases once with absent | published
  · have notFound : log.alreadyPublished opts.changeLog (txn.intent part) = false :=
      alreadyPublished_of_absent absent
    simp [notFound, absent]
  · have found : log.alreadyPublished opts.changeLog (txn.intent part) = true := by
      refine alreadyPublished_of_present built.clean built.limits scannable some_record ?_
      intro index lt
      exact matchesRecord_of_published counted published lt
    simp [found, published]

def OfIntent (intent : CdcIntentBatch) : PartitionEffect → Prop
  | .backgroundFlush _ => True
  | .put _ _ => True
  | .changeLog _ => True
  | .deleteIntent txnId => txnId = intent.txnId
  | _ => False

theorem OfIntent.plain
    {intent : CdcIntentBatch} {effect : PartitionEffect} (ofIntent : OfIntent intent effect) :
    OfTxn txn part effect ∧ ∀ other, effect ≠ .commitTxn other := by
  cases effect <;> simp [OfIntent, OfTxn] at ofIntent ⊢

theorem OnStorage.ofIntent (onStorage : OnStorage effect) : OfIntent intent effect := by
  cases effect <;> simp [OnStorage, OfIntent] at onStorage ⊢

theorem mem_intents_run
    {intent other : CdcIntentBatch} (ofIntent : ∀ effect ∈ effects, OfIntent intent effect)
    (listed : other ∈ part.intents) (ne : other.txnId ≠ intent.txnId) :
    other ∈ (run (apply opts) part effects).intents := by
  induction effects generalizing part with
  | nil => exact listed
  | cons effect rest ih =>
    obtain ⟨first, later⟩ := forall_mem_cons.mp ofIntent
    refine ih later ?_
    cases effect with
    | deleteIntent txnId =>
      rw [show txnId = intent.txnId from first]
      exact mem_filter.mpr ⟨listed, by simpa using ne⟩
    | backgroundFlush written => exact listed
    | put applied lockFree => exact listed
    | changeLog event => exact listed
    | _ => exact first.elim

structure Recovering (opts : PartitionOptions) (log : PartitionChangeLog)
    (intent : CdcIntentBatch) (out : AppendOutcome)
    (call : List PartitionEffect × Except Status Unit) : Prop where
  ofIntent : ∀ effect ∈ call.1, OfIntent intent effect
  missing : call.1.filterMap event? ≠ [] → ∃ batch,
    intent.readFile opts.changeLog = .ok batch ∧ batch.records ≠ [] ∧
      log.alreadyPublished opts.changeLog batch = false
  present : call.2 = .ok () → ∃ batch, intent.readFile opts.changeLog = .ok batch ∧
    (batch.records = [] ∨ log.alreadyPublished opts.changeLog batch = true ∨
      call.1.filterMap event? =
          (log.appendCommittedBatch opts.changeLog batch.commitVersion
            (batch.records.map Prod.snd) out).1 ∧
        (log.appendCommittedBatch opts.changeLog batch.commitVersion
            (batch.records.map Prod.snd) out).2 = .ok ())

theorem completeIntent_recovering
    {intent batch : CdcIntentBatch} (read : intent.readFile opts.changeLog = .ok batch)
    (outs : RecoverOutcomes) :
    Recovering opts log intent outs.append (completeIntent opts log batch outs) := by
  rw [completeIntent]
  split
  · rename_i nothing
    refine ⟨by simp, by simp, ?_⟩
    intro _
    refine ⟨batch, read, ?_⟩
    rcases Bool.or_eq_true_iff.mp nothing with found | empty
    · exact Or.inr (Or.inl found)
    · exact Or.inl (isEmpty_iff.mp empty)
  · rename_i something
    rw [Bool.or_eq_true_iff, not_or, Bool.not_eq_true, List.isEmpty_iff] at something
    have onStorage := @putAll_onStorage batch.txnId outs.puts 0
      (batch.records.map (intentWrite batch.commitVersion))
    dsimp only
    generalize putAll batch.txnId outs.puts 0
      (batch.records.map (intentWrite batch.commitVersion)) = written at *
    have putOfIntent : ∀ effect ∈ written.1, OfIntent intent effect :=
      fun effect mem => (onStorage effect mem).ofIntent
    have putNoEvent : written.1.filterMap event? = [] := by
      rw [filterMap_eq_nil_iff]
      exact fun effect mem => onStorage_noEvent (onStorage effect mem)
    cases writtenResult : written.2 with
    | error status => exact ⟨putOfIntent, fun some_event => absurd putNoEvent some_event, by simp⟩
    | ok written_ok =>
      refine ⟨?_, fun _ => ⟨batch, read, something.2, something.1⟩, ?_⟩
      · rw [forall_mem_append]
        refine ⟨putOfIntent, ?_⟩
        simp [OfIntent]
      · intro complete
        refine ⟨batch, read, Or.inr (Or.inr ⟨?_, complete⟩)⟩
        rw [filterMap_append, putNoEvent, nil_append, filterMap_event_map]

theorem recoverIntent_recovering (logged : part.changeLog = some log) (intent : CdcIntentBatch)
    (outs : RecoverOutcomes) :
    Recovering opts log intent outs.append (part.recoverIntent opts intent outs) := by
  simp only [recoverIntent, logged]
  cases read : intent.readFile opts.changeLog with
  | error status => exact ⟨by simp, by simp, by simp⟩
  | ok batch =>
  have completing := @completeIntent_recovering opts log intent batch read outs
  dsimp only
  generalize completeIntent opts log batch outs = completed at *
  cases res : completed.2 with
  | error status => exact ⟨completing.ofIntent, completing.missing, by simp⟩
  | ok done =>
    dsimp only
    split
    · have closing : [deleteIntent intent.txnId].filterMap event? = [] := by
        simp [event?, filterMap_cons]
      have events : (completed.1 ++ [deleteIntent intent.txnId]).filterMap
          event? = completed.1.filterMap event? := by
        rw [filterMap_append, closing, append_nil]
      refine ⟨?_, ?_, ?_⟩
      · rw [forall_mem_append]
        exact ⟨completing.ofIntent, by simp [OfIntent]⟩
      · rw [events]
        exact completing.missing
      · intro _
        rw [events]
        exact completing.present res
    · exact ⟨completing.ofIntent, completing.missing, by simp⟩

theorem publishes_recover_own {completed : Prop} {events : List ChangeLogEvent}
    {call : List PartitionEffect × Except Status Unit}
    (publishes : Publishes opts.changeLog txn.txnId txn.commitTs (txn.records part) completed log)
    (recovering : Recovering opts log (txn.intent part) out call)
    (counted : (txn.intent part).records.length < 2 ^ 32) (scannable : Scannable opts.changeLog log)
    (whole : ∀ batch, (txn.intent part).readFile opts.changeLog = .ok batch →
      WholeAppend (log.appendCommittedBatch opts.changeLog batch.commitVersion
        (batch.records.map Prod.snd) out) out events)
    (within : events ≠ [] → call.1.filterMap event? ≠ []) :
    Publishes opts.changeLog txn.txnId txn.commitTs (txn.records part)
      (completed ∨ events = call.1.filterMap event? ∧ call.2 = .ok ())
      (run (PartitionChangeLog.apply opts.changeLog) log events) := by
  have noRecords : (txn.intent part).records = [] ↔ txn.records part = [] := by
    rw [← records_intent, map_eq_nil_iff]
  have missing : events ≠ [] → txn.records part ≠ [] ∧ log.Absent txn.txnId := by
    intro some_event
    obtain ⟨batch, read, some_record, notFound⟩ := recovering.missing (within some_event)
    rw [readFile_whole counted read] at some_record notFound
    exact ⟨fun empty => some_record (noRecords.mpr empty),
      (alreadyPublished_intent publishes.built scannable counted some_record
        publishes.once).2 notFound⟩
  have ownWhole : WholeAppend (log.appendCommittedBatch opts.changeLog txn.commitTs
      (txn.records part) out) out events := by
    by_cases nothing : events = []
    · exact Or.inl nothing
    · obtain ⟨batch, read, _⟩ := recovering.missing (within nothing)
      have wholeBatch := whole batch read
      rw [readFile_whole counted read, records_intent] at wholeBatch
      exact wholeBatch
  have appended := publishes.append_own ownWhole (fun some_event => (missing some_event).1)
    fun some_event => (missing some_event).2
  by_cases empty : txn.records part = []
  · exact appended.imp fun _ => Or.inr empty
  have some_record : (txn.intent part).records ≠ [] := fun none => empty (noRecords.mp none)
  by_cases found : log.alreadyPublished opts.changeLog (txn.intent part) = true
  · -- nothing is appended, since the batch is in the log
    have published := (alreadyPublished_intent publishes.built scannable counted some_record
      publishes.once).1 found
    have nothing : events = [] := by
      by_contra some_event
      obtain ⟨batch, read, _, notFound⟩ := recovering.missing (within some_event)
      rw [readFile_whole counted read, found] at notFound
      simp at notFound
    rw [nothing]
    exact ⟨publishes.built, publishes.once, fun _ => published⟩
  · apply appended.imp
    intro holds
    rcases holds with before | ⟨same, done⟩
    · exact Or.inl (Or.inl before)
    obtain ⟨batch, read, res⟩ := recovering.present done
    rw [readFile_whole counted read, records_intent] at res
    rcases res with none | present | ⟨all, complete⟩
    · exact absurd none some_record
    · exact absurd present found
    · refine Or.inl (Or.inr ⟨?_, complete⟩)
      rw [same, all]
      exact append_ne_nil complete

theorem publishes_recover_other {completed : Prop} {events : List ChangeLogEvent}
    {call : List PartitionEffect × Except Status Unit}
    (publishes : Publishes opts.changeLog txn.txnId txn.commitTs (txn.records part) completed log)
    (recovering : Recovering opts log intent out call)
    (ne : ∀ entry ∈ intent.records, entry.2.txnId ≠ txn.txnId)
    (whole : ∀ batch, intent.readFile opts.changeLog = .ok batch →
      WholeAppend (log.appendCommittedBatch opts.changeLog batch.commitVersion
        (batch.records.map Prod.snd) out) out events)
    (within : events ≠ [] → call.1.filterMap event? ≠ []) :
    Publishes opts.changeLog txn.txnId txn.commitTs (txn.records part) completed
      (run (PartitionChangeLog.apply opts.changeLog) log events) := by
  by_cases nothing : events = []
  · rw [nothing]
    exact publishes
  obtain ⟨batch, read, some_record, _⟩ := recovering.missing (within nothing)
  refine publishes.append_other (whole batch read) ?_ ?_
  · intro _
    simpa using some_record
  · intro rec mem
    obtain ⟨entry, inBatch, rfl⟩ := mem_map.mp mem
    rw [readFile_ok read] at inBatch
    exact ne entry (mem_of_mem_take inBatch)

end Calls

end PartitionStorage

/-! ## Steps and runs -/

namespace PublicationState

open PartitionStorage PartitionChangeLog PartitionEffect

structure Holds (opts : PartitionOptions) (txn : CommittingTxn) (completed : Bool)
    (part : PartitionStorage) : Prop where
  log : ∃ log, part.changeLog = some log ∧
    Publishes opts.changeLog txn.txnId txn.commitTs (txn.records part) (completed = true) log
  keeps : Keeps txn part
  committed : txn.txnId ∈ part.committed → completed = true

variable {opts : PartitionOptions} {txn : CommittingTxn} {part : PartitionStorage}
  {log : PartitionChangeLog}

theorem executed_sublist (crash : Option Crash) (effects : List PartitionEffect) :
    (executed crash effects).Sublist effects := by
  cases crash with
  | none => exact List.Sublist.refl effects
  | some crash => exact take_sublist crash.after effects

variable {crash : Option Crash} {completed : Bool}

theorem events_executed {effects : List PartitionEffect}
    (some_event : (executed crash effects).filterMap event? ≠ []) :
    effects.filterMap event? ≠ [] := by
  intro none
  have within := (executed_sublist crash effects).filterMap event?
  rw [none] at within
  exact some_event (sublist_nil.mp within)

theorem holds_reopen
    {after : PartitionStorage} (storage : CedarGraphStorage) (logged : after.changeLog = some log)
    (publishes : Publishes opts.changeLog txn.txnId txn.commitTs (txn.records after)
      (completed = true) log)
    (keeps : Keeps txn after) :
    ∀ reopened ∈ reopen opts after storage, Holds opts txn completed reopened := by
  intro reopened mem
  rw [reopen, logged] at mem
  cases read : openLog opts.changeLog log.disk with
  | error status => simp [read] at mem
  | ok log' =>
    simp only [read, Option.mem_def, Option.some.injEq] at mem
    subst mem
    refine ⟨⟨log', rfl, publishes.reopen read⟩, ⟨keeps.own, keeps.others, ?_⟩, ?_⟩
    · simp
    · simp

theorem holds_perform {completed later : Bool} {effects : List PartitionEffect}
    (holds : Holds opts txn completed part) (logged : part.changeLog = some log)
    (ofTxn : ∀ effect ∈ effects, OfTxn txn part effect)
    (publishes : Publishes opts.changeLog txn.txnId txn.commitTs (txn.records part)
      (later = true) (run (PartitionChangeLog.apply opts.changeLog) log
        ((executed crash effects).filterMap event?)))
    (grows : completed = true → later = true)
    (finished : ∀ other, crash = none → PartitionEffect.commitTxn other ∈ effects →
      later = true) : ∀ after ∈ perform opts part effects crash, Holds opts txn later after := by
  have moves : Moves opts part (executed crash effects)
      (run (apply opts) part (executed crash effects)) :=
    moves_run _ _
  have keeps := @keeps_run opts part txn (executed crash effects) holds.keeps
    fun effect mem => ofTxn effect ((executed_sublist crash effects).subset mem)
  have movedLog := moves.changeLog
  rw [logged, Option.map_some] at movedLog
  rw [CommittingTxn.records, ← writeEntries_congr moves.partitionId rfl rfl] at publishes
  cases crash with
  | none =>
    intro after mem
    rw [perform, Option.mem_def, Option.some.injEq] at mem
    subst mem
    refine ⟨⟨_, movedLog, publishes⟩, keeps, ?_⟩
    intro committed
    rcases moves.committed txn.txnId committed with before | inEffects
    · exact grows (holds.committed before)
    · exact finished txn.txnId rfl inEffects
  | some crash => exact holds_reopen crash.storage movedLog publishes keeps

theorem holds_commit {outs : CommitOutcomes} (holds : Holds opts txn completed part)
    (sound : ∀ log ∈ part.changeLog, Sound opts txn part log (.commit outs crash)) :
    ∀ after ∈ perform opts part (part.commit opts txn.txnId txn.commitTs outs).1 crash,
      Holds opts txn (completed || (crash.isNone &&
        (part.commit opts txn.txnId txn.commitTs outs).2.isOk)) after := by
  obtain ⟨log, logged, publishes⟩ := holds.log
  obtain ⟨whole, absent⟩ := sound log logged
  have committing := @commit_committing opts part txn log logged holds.keeps outs
  generalize part.commit opts txn.txnId txn.commitTs outs = call at *
  have appended := publishes.append_own whole
    (fun some_event => committing.some_record (events_executed some_event)) absent
  refine holds_perform holds logged committing.ofTxn (appended.imp ?_) ?_ ?_
  · intro complete
    rw [Bool.or_eq_true, Bool.and_eq_true, isOk_iff, Option.isNone_iff_eq_none] at complete
    rcases complete with before | ⟨noCrash, done⟩
    · exact Or.inl (Or.inl before)
    · subst noCrash
      rcases committing.published done with committed | empty | ⟨events, complete⟩
      · exact Or.inl (Or.inl (holds.committed committed))
      · exact Or.inr empty
      · refine Or.inl (Or.inr ⟨?_, complete⟩)
        rw [executed, events]
        exact append_ne_nil complete
  · intro before
    simp [before]
  · intro other noCrash mem
    have done := committing.finished other mem
    simp [noCrash, done, Except.isOk, Except.toBool]

theorem holds_recoverIntent {intent : CdcIntentBatch} {outs : RecoverOutcomes}
    (holds : Holds opts txn completed part) (listed : intent ∈ part.intents)
    (sound : ∀ log ∈ part.changeLog, Sound opts txn part log (.recoverIntent intent outs crash)) :
    ∀ after ∈ perform opts part (part.recoverIntent opts intent outs).1 crash,
      Holds opts txn (completed || (crash.isNone &&
        (part.recoverIntent opts intent outs).2.isOk &&
          decide (intent.txnId = txn.txnId))) after := by
  obtain ⟨log, logged, publishes⟩ := holds.log
  obtain ⟨whole, readable⟩ := sound log logged
  have recovering := @recoverIntent_recovering opts part log logged intent outs
  generalize part.recoverIntent opts intent outs = call at *
  refine holds_perform holds logged
    (fun effect mem => (recovering.ofIntent effect mem).plain.1) ?_ ?_ ?_
  · by_cases own : intent.txnId = txn.txnId
    · obtain ⟨counted, scannable⟩ := readable own
      obtain rfl := holds.keeps.own intent listed own
      have kept := publishes_recover_own publishes recovering counted scannable whole
        events_executed
      refine kept.imp ?_
      intro complete
      simp only [Bool.or_eq_true, Bool.and_eq_true, isOk_iff, Option.isNone_iff_eq_none] at complete
      rcases complete with before | ⟨⟨noCrash, done⟩, _⟩
      · exact Or.inl (Or.inl before)
      · subst noCrash
        exact Or.inl (Or.inr ⟨rfl, done⟩)
    · have kept := publishes_recover_other publishes recovering
        (holds.keeps.others intent listed own) whole events_executed
      refine kept.imp ?_
      intro complete
      refine Or.inl ?_
      simpa [own] using complete
  · intro before
    simp [before]
  · intro other _ mem
    exact absurd rfl ((@OfIntent.plain part txn _ _ (recovering.ofIntent _ mem)).2 other)

theorem holds_step (state : PublicationState) (next : PublicationStep)
    (holds : ∀ part ∈ state.partition, Holds opts txn state.completed part)
    (allowed : Allowed opts txn state next) :
    ∀ part ∈ (step opts txn state next).partition,
      Holds opts txn (step opts txn state next).completed part := by
  obtain ⟨part, completed⟩ := state
  cases part with
  | none => simp [step]
  | some part =>
    have before : Holds opts txn completed part := holds part rfl
    have sound := allowed part rfl
    cases next with
    | commit outs crash => exact holds_commit before sound
    | recoverIntent intent outs crash =>
      simp only [step]
      split
      · rename_i listed
        exact holds_recoverIntent before listed sound
      · exact holds
    | reload prepared =>
      obtain ⟨log, logged, publishes⟩ := before.log
      intro after mem
      obtain rfl := Option.some.inj mem
      exact ⟨⟨log, logged, publishes⟩,
        ⟨before.keeps.own, before.keeps.others, sound log logged⟩, before.committed⟩

theorem recoverIntent_ofIntent {intent : CdcIntentBatch} {outs : RecoverOutcomes} :
    ∀ effect ∈ (part.recoverIntent opts intent outs).1, OfIntent intent effect := by
  cases logged : part.changeLog with
  | none => simp [recoverIntent, logged]
  | some log => exact (recoverIntent_recovering logged intent outs).ofIntent

/-- `RecoverCdcIntents` is a run of these steps, up to the first intent that fails. -/
theorem run_recoverCdcIntents {files : List (CdcIntentBatch × RecoverOutcomes)}
    (listed : ∀ file ∈ files, file.1 ∈ part.intents)
    (distinct : files.Pairwise fun prev later => later.1.txnId ≠ prev.1.txnId) :
    ∃ count, (run (step opts txn) ⟨some part, completed⟩
        ((files.take count).map fun file => .recoverIntent file.1 file.2 none)).partition =
      some (run (apply opts) part (part.recoverCdcIntents opts files).1) := by
  induction files generalizing part completed with
  | nil => exact ⟨0, by simp [run, recoverCdcIntents]⟩
  | cons file rest ih =>
    obtain ⟨intent, outs⟩ := file
    have inIntents : intent ∈ part.intents := listed _ mem_cons_self
    have restDistinct := (pairwise_cons.mp distinct).2
    let after := run (apply opts) part (part.recoverIntent opts intent outs).1
    have restListed : ∀ file ∈ rest, file.1 ∈ after.intents := by
      intro file mem
      exact mem_intents_run recoverIntent_ofIntent (listed file (mem_cons_of_mem _ mem))
        ((pairwise_cons.mp distinct).1 file mem)
    have first : ∃ done, step opts txn ⟨some part, completed⟩
        (.recoverIntent intent outs none) = ⟨some after, done⟩ := by
      refine ⟨(step opts txn ⟨some part, completed⟩
        (.recoverIntent intent outs none)).completed, ?_⟩
      simp only [step, if_pos inIntents]
      rfl
    obtain ⟨done, first⟩ := first
    obtain ⟨count, later⟩ := @ih after done restListed restDistinct
    cases res : (part.recoverIntent opts intent outs).2 with
    | error status =>
      refine ⟨1, ?_⟩
      rw [take_succ_cons, take_zero, map_singleton, run, foldl_cons, first, recoverCdcIntents, res]
      rfl
    | ok done =>
      refine ⟨count + 1, ?_⟩
      rw [take_succ_cons, map_cons, run, foldl_cons, first, ← run, later, recoverCdcIntents, res]
      simp only [run, foldl_append, after]

theorem run_recoverCdcIntents_two :
    let opts : PartitionOptions := ⟨.default, ⟨0, 0, 100, 10, 1000, fun _ => 20⟩⟩
    let txn : CommittingTxn := ⟨⟨7, [], [], fun _ => none, 5, .prepared⟩, 5⟩
    let outs : RecoverOutcomes :=
      ⟨fun _ => ⟨none, .ok (), false⟩, ⟨fun _ => .written, true, true⟩, true⟩
    let record := changeRecord 7 5 (.vertex 1 0 5 0 0 0 0, ⟨16⟩)
    let files : List (CdcIntentBatch × RecoverOutcomes) :=
      [(⟨7, 5, [(5, record)]⟩, outs), (⟨8, 6, [(5, { record with txnId := 8 })]⟩, outs)]
    let part : PartitionStorage :=
      { opened 0 false ⟨.init .default, 1⟩ (some (emptyLog opts.changeLog)) with
        intents := files.map Prod.fst }
    ∃ count, (run (step opts txn) ⟨some part, false⟩
        ((files.take count).map fun file => .recoverIntent file.1 file.2 none)).partition =
      some (run (apply opts) part (part.recoverCdcIntents opts files).1) := by
  intro opts txn outs record files part
  exact run_recoverCdcIntents (by simp [part, files]) (by simp [files])

/-- A partition into which the transaction was prepared: the log is built from whole
appends and has no record of it, and no intent file mentions it. -/
structure Starts (opts : PartitionOptions) (txn : CommittingTxn)
    (part : PartitionStorage) (log : PartitionChangeLog) : Prop where
  logged : part.changeLog = some log
  built : Built opts.changeLog log
  absent : log.Absent txn.txnId
  intents : ∀ intent ∈ part.intents, intent.txnId ≠ txn.txnId ∧
    ∀ entry ∈ intent.records, entry.2.txnId ≠ txn.txnId
  prepared : ∀ state ∈ part.prepared, state.txnId = txn.txnId → txn.SameWrites state
  uncommitted : txn.txnId ∉ part.committed

theorem Starts.holds (starts : Starts opts txn part log) : Holds opts txn false part := by
  refine ⟨⟨log, starts.logged, starts.built, Or.inl starts.absent, by simp⟩, ?_, ?_⟩
  · refine ⟨?_, fun intent mem _ => (starts.intents intent mem).2, starts.prepared⟩
    intro intent mem own
    exact absurd own (starts.intents intent mem).1
  · intro committed
    exact absurd committed starts.uncommitted

/-- In every run of allowed steps the batch is in the log at most once, and once when the
transaction is committed or a call has reported it as complete. -/
theorem published_once (opts : PartitionOptions) (txn : CommittingTxn) (part : PartitionStorage)
    (log : PartitionChangeLog) (starts : Starts opts txn part log)
    (steps : List PublicationStep)
    (allowed : Admissible (step opts txn) (Allowed opts txn) ⟨some part, false⟩ steps) :
    let final := run (step opts txn) ⟨some part, false⟩ steps
    ∀ after ∈ final.partition, ∃ log, after.changeLog = some log ∧
      (log.Absent txn.txnId ∨
        Published opts.changeLog txn.txnId txn.commitTs (txn.records after) log) ∧
      (txn.txnId ∈ after.committed ∨ final.completed = true →
        Published opts.changeLog txn.txnId txn.commitTs (txn.records after) log) := by
  intro final after reached
  have start : ∀ before ∈ (⟨some part, false⟩ : PublicationState).partition,
      Holds opts txn false before := by
    intro before mem
    rw [← Option.some.inj mem]
    exact starts.holds
  have holds := @invariant_run _ _ (step opts txn) (Allowed opts txn)
    (fun state => ∀ part ∈ state.partition, Holds opts txn state.completed part)
    holds_step _ steps start allowed after reached
  obtain ⟨log, logged, publishes⟩ := holds.log
  refine ⟨log, logged, publishes.once, ?_⟩
  intro complete
  rcases complete with committed | completed
  · exact publishes.done (holds.committed committed)
  · exact publishes.done completed

/-- A commit stops after its write and before the append; the intent completes it. -/
theorem published_once_after_crash :
    let opts : PartitionOptions := ⟨.default, ⟨0, 0, 100, 10, 1000, fun _ => 20⟩⟩
    let txn : CommittingTxn :=
      ⟨⟨7, [], [.vertex 1 0 5 0 0 0 0], fun _ => some ⟨16⟩, 5, .prepared⟩, 5⟩
    let start : PartitionStorage :=
      { opened 0 false ⟨.init .default, 1⟩ (some (emptyLog opts.changeLog)) with
        prepared := [txn.state] }
    let append : AppendOutcome := ⟨fun _ => .written, true, true⟩
    let outs : CommitOutcomes := ⟨.ok (), fun _ => ⟨none, .ok (), false⟩, append, true⟩
    let steps : List PublicationStep :=
      [.commit outs (some ⟨3, ⟨.init .default, 1⟩⟩),
        .recoverIntent (txn.intent start) ⟨fun _ => ⟨none, .ok (), false⟩, append, true⟩ none]
    let final := run (step opts txn) ⟨some start, false⟩ steps
    final.completed = true ∧ ∃ after ∈ final.partition, ∃ log, after.changeLog = some log ∧
      Published opts.changeLog 7 5 (txn.records after) log := by
  intro opts txn start append outs steps final
  have starts : Starts opts txn start (emptyLog opts.changeLog) := by
    refine ⟨rfl, .created (by decide), by simp [Absent, emptyLog], by decide, ?_, by decide⟩
    intro state mem _
    rw [mem_singleton.mp mem]
    exact ⟨rfl, rfl⟩
  have allowed : Admissible (step opts txn) (Allowed opts txn) ⟨some start, false⟩ steps := by
    refine ⟨?_, ?_, trivial⟩
    · intro part mem log logged
      obtain rfl := Option.some.inj mem
      obtain rfl := Option.some.inj logged
      exact ⟨Or.inl (by decide), fun some_event => absurd (by decide) some_event⟩
    · intro part mem log logged
      obtain rfl := Option.some.inj mem
      obtain rfl := Option.some.inj logged
      refine ⟨?_, fun _ => ⟨by decide, by rw [Scannable]; decide⟩⟩
      intro batch read
      rw [readFile_whole (by decide) read]
      exact Or.inr ⟨by decide, Or.inl (by decide)⟩
  have completed : final.completed = true := by decide
  have someFinal : final.partition.isSome = true := by decide
  obtain ⟨after, reached⟩ := Option.isSome_iff_exists.mp someFinal
  obtain ⟨log, logged, _, done⟩ :=
    published_once opts txn start (emptyLog opts.changeLog) starts steps allowed after reached
  exact ⟨completed, after, reached, log, logged, done (Or.inr completed)⟩

/-- A batch of two records whose second frame fails, and the retry; a batch whose manifest
is not written, and the retry; a commit that stops after the append, its completion from
the intent, and the retry after a reload. -/
theorem published_twice :
    let opts : PartitionOptions := ⟨.default, ⟨0, 0, 100, 10, 1000, fun _ => 20⟩⟩
    let txn : CommittingTxn :=
      ⟨⟨7, [], [.vertex 1 0 5 0 0 0 0, .vertex 2 0 5 0 0 0 0], fun _ => some ⟨16⟩, 5, .prepared⟩, 5⟩
    let start : PartitionStorage :=
      { opened 0 false ⟨.init .default, 1⟩ (some (emptyLog opts.changeLog)) with
        prepared := [txn.state] }
    let whole : AppendOutcome := ⟨fun _ => .written, true, true⟩
    let put : Nat → PutOutcome := fun _ => ⟨none, .ok (), false⟩
    let commit := fun append : AppendOutcome => PublicationStep.commit ⟨.ok (), put, append, true⟩
    let final := fun steps : List PublicationStep =>
      run (step opts txn) ⟨some start, false⟩ steps
    let entities := fun steps : List PublicationStep => ((final steps).partition.bind fun after =>
      after.changeLog.map fun log => (after.committed, log.records.map ChangeRecord.entityId))
    entities [commit ⟨fun index => if index = 0 then .written else .refused, true, true⟩ none,
        commit whole none] = some ([7], [1, 1, 2]) ∧
      entities [commit ⟨fun _ => .written, true, false⟩ none, commit whole none] =
        some ([7], [1, 2, 1, 2]) ∧
      entities [commit whole (some ⟨9, ⟨.init .default, 1⟩⟩),
        .recoverIntent (txn.intent start) ⟨put, whole, true⟩ none, .reload [txn.state],
        commit whole none] = some ([7], [1, 2, 1, 2]) := by
  decide

end PublicationState

end CedarGraph
