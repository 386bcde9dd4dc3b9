import CedarGraph.Partition.Storage

/-!
# The participant under any order of its messages

`Prepare`, `Commit` and `Abort` may arrive late, twice and in any order. `Prepare` does not look
at finished transactions, `Abort` accepts one whose writes are partly applied, and a second
`Commit` starts again with the first write. The result says exactly when a call does no harm.
-/

namespace CedarGraph

open List Runs AppliedWrite

namespace PartitionEffect

def applied? : PartitionEffect → Option AppliedWrite
  | .put applied _ => some applied
  | _ => none

/-- The effect keeps the sets of transactions. -/
def Quiet : PartitionEffect → Prop
  | .insertPrepared _ => False
  | .commitTxn _ => False
  | .abortTxn _ => False
  | _ => True

/-- The effect also leaves the storage without a new write. -/
def Silent (effect : PartitionEffect) : Prop :=
  effect.Quiet ∧ effect.applied? = none

theorem filterMap_applied_of_silent
    {effects : List PartitionEffect} (silent : ∀ effect ∈ effects, effect.Silent) :
    effects.filterMap applied? = [] := by
  rw [filterMap_eq_nil_iff]
  intro effect mem
  exact (silent effect mem).2

end PartitionEffect

/-- The transaction and the position of a write. -/
def AppliedWrite.origin (applied : AppliedWrite) : UInt64 × Nat :=
  (applied.txnId, applied.position)

namespace PartitionStorage

open PartitionEffect

inductive ParticipantCall where
  | prepare (req : PrepareRequest)
  | commit (txnId commitTs : UInt64) (outcomes : CommitOutcomes)
  | abort (txnId : UInt64)

def opened (pid : UInt16) (isReadonly : Bool) (storage : CedarGraphStorage)
    (changeLog : Option PartitionChangeLog) : PartitionStorage :=
  { partitionId := pid, isReadonly, storage
    applied := []
    prepared := []
    committed := []
    aborted := []
    changeLog
    intents := [] }

section Calls

variable (opts : PartitionOptions) (part : PartitionStorage)

def script : ParticipantCall → List PartitionEffect × Except Status Unit
  | .prepare req => part.prepare opts req
  | .commit txnId commitTs outs => part.commit opts txnId commitTs outs
  | .abort txnId => part.abort txnId

def step (call : ParticipantCall) : PartitionStorage :=
  run (apply opts) part (part.script opts call).1

def preparedIds : List UInt64 :=
  part.prepared.map PreparedTxnState.txnId

def Finished (txnId : UInt64) : Prop :=
  txnId ∈ part.committed ∨ txnId ∈ part.aborted

def Started (txnId : UInt64) : Prop :=
  ∃ write ∈ part.applied, write.txnId = txnId

/-- Writes are applied at most once and not for aborted transactions, and finished
transactions are not prepared. -/
structure Orderly (part : PartitionStorage) : Prop where
  appliedOnce : (part.applied.map origin).Nodup
  abortedClean : ∀ txnId ∈ part.aborted, ¬ part.Started txnId
  finishedGone : ∀ txnId, part.Finished txnId → txnId ∉ part.preparedIds

/-- The condition on a call: a finished transaction is not prepared successfully, a
commit that applies a write is the first to do so, and an abort finds the transaction
without applied writes. -/
def Harmless : ParticipantCall → Prop
  | .prepare req =>
    part.Finished req.txnId → (part.prepare opts req).2.isOk = false
  | .commit txnId commitTs outs =>
    part.Started txnId → (part.commit opts txnId commitTs outs).1.filterMap applied? = []
  | .abort txnId => txnId ∈ part.preparedIds → ¬ part.Started txnId

end Calls

variable {opts : PartitionOptions} {txnId : UInt64}

theorem find_eq_none_iff {part : PartitionStorage} :
    part.find txnId = none ↔ txnId ∉ part.preparedIds := by
  simp [find, preparedIds]

theorem mem_preparedIds_of_find {part : PartitionStorage} {state : PreparedTxnState}
    (found : part.find txnId = some state) : txnId ∈ part.preparedIds := by
  by_contra absent
  rw [← find_eq_none_iff, found] at absent
  cases absent

theorem applied_apply (part : PartitionStorage) (effect : PartitionEffect) :
    (part.apply opts effect).applied = part.applied ++ effect.applied?.toList := by
  cases effect <;> simp [apply, applied?]

theorem applied_run (effects : List PartitionEffect) (part : PartitionStorage) :
    (run (apply opts) part effects).applied = part.applied ++ effects.filterMap applied? := by
  induction effects generalizing part with
  | nil => simp [run]
  | cons effect rest ih =>
    have later := ih (part.apply opts effect)
    rw [applied_apply, append_assoc] at later
    rw [filterMap_cons]
    refine later.trans ?_
    cases effect.applied? with
    | none => simp
    | some write => simp

structure SameTransactions (before after : PartitionStorage) : Prop where
  preparedIds : after.preparedIds = before.preparedIds
  committed : after.committed = before.committed
  aborted : after.aborted = before.aborted

theorem sameTransactions_apply
    (part : PartitionStorage) {effect : PartitionEffect} (quiet : effect.Quiet) :
    SameTransactions part (part.apply opts effect) := by
  cases effect with
  | setStatus txnId status =>
    have sameId : (PreparedTxnState.txnId ∘ fun state : PreparedTxnState =>
        if state.txnId = txnId then { state with status } else state) = PreparedTxnState.txnId := by
      funext state
      by_cases same : state.txnId = txnId
      · simp [same]
      · simp [same]
    constructor
    · simp [preparedIds, apply, sameId]
    · simp [apply]
    · simp [apply]
  | insertPrepared state => exact quiet.elim
  | commitTxn txnId => exact quiet.elim
  | abortTxn txnId => exact quiet.elim
  | _ => exact ⟨rfl, rfl, rfl⟩

theorem sameTransactions_run
    {effects : List PartitionEffect} (quiet : ∀ effect ∈ effects, effect.Quiet)
    (part : PartitionStorage) : SameTransactions part (run (apply opts) part effects) := by
  induction effects generalizing part with
  | nil => exact ⟨rfl, rfl, rfl⟩
  | cons effect rest ih =>
    rw [forall_mem_cons] at quiet
    have first : SameTransactions part (part.apply opts effect) :=
      sameTransactions_apply part quiet.1
    have later := ih quiet.2 (part.apply opts effect)
    exact ⟨later.preparedIds.trans first.preparedIds, later.committed.trans first.committed,
      later.aborted.trans first.aborted⟩

theorem mem_preparedIds_erase {txnId other : UInt64} {states : List PreparedTxnState} :
    other ∈ (eraseTxn txnId states).map PreparedTxnState.txnId ↔
      other ∈ states.map PreparedTxnState.txnId ∧ other ≠ txnId := by
  simp only [eraseTxn, mem_map, mem_filter, decide_eq_true_eq]
  constructor
  · intro mem
    obtain ⟨state, ⟨inStates, ne⟩, rfl⟩ := mem
    exact ⟨⟨state, inStates, rfl⟩, ne⟩
  · intro mem
    obtain ⟨⟨state, inStates, rfl⟩, ne⟩ := mem
    exact ⟨state, ⟨inStates, ne⟩, rfl⟩

section Effects

variable {part : PartitionStorage} {txnId commitTs : UInt64}

theorem announce_silent {entries : List (CedarKey × Descriptor)} {out : Except Status Unit} :
    ∀ effect ∈ (part.announce txnId commitTs entries out).1, effect.Silent := by
  intro effect mem
  cases out with
  | error status =>
    simp only [announce] at mem
    split at mem
    · simp at mem
    · simp at mem
  | ok done =>
    simp only [announce] at mem
    split at mem
    · simp only [mem_singleton] at mem
      simp [mem, Silent, Quiet, applied?]
    · simp at mem

theorem publish_silent {recs : List ChangeRecord} {out : PartitionChangeLog.AppendOutcome}
    {intentDeleted : Bool} :
    ∀ effect ∈ (part.publish opts txnId commitTs recs out intentDeleted).1, effect.Silent := by
  have events : ∀ (log : List ChangeLogEvent), ∀ effect ∈ log.map PartitionEffect.changeLog,
      effect.Silent := by
    intro log effect mem
    obtain ⟨event, _, rfl⟩ := mem_map.mp mem
    simp [Silent, Quiet, applied?]
  intro effect mem
  rw [publish] at mem
  split at mem
  · simp at mem
  split at mem
  · simp at mem
  dsimp only at mem
  split at mem
  · exact events _ effect mem
  · rcases mem_append.mp mem with inEvents | inClosing
    · exact events _ effect inEvents
    · split at inClosing
      · rw [mem_singleton.mp inClosing]
        simp [Silent, Quiet, applied?]
      · simp at inClosing

theorem flushes_silent (flush : Option (Nat → Bool)) :
    ∀ effect ∈ flush.toList.map PartitionEffect.backgroundFlush, effect.Silent := by
  intro effect mem
  obtain ⟨written, _, rfl⟩ := mem_map.mp mem
  simp [Silent, Quiet, applied?]

def OnStorage : PartitionEffect → Prop
  | .backgroundFlush _ => True
  | .put _ _ => True
  | _ => False

theorem putAll_onStorage {outs : Nat → PutOutcome} {pos : Nat} {writes : List StorageWrite} :
    ∀ effect ∈ (putAll txnId outs pos writes).1, OnStorage effect := by
  induction writes generalizing pos with
  | nil => simp [putAll]
  | cons write rest ih =>
    intro effect mem
    rw [putAll] at mem
    dsimp only at mem
    split at mem
    · obtain ⟨written, _, rfl⟩ := mem_map.mp mem
      simp [OnStorage]
    · rcases mem_append.mp mem with inFlushes | inPuts
      · obtain ⟨written, _, rfl⟩ := mem_map.mp inFlushes
        simp [OnStorage]
      · rcases mem_cons.mp inPuts with rfl | later
        · simp [OnStorage]
        · exact ih effect later

theorem putAll_quiet (outs : Nat → PutOutcome) (pos : Nat) (writes : List StorageWrite) :
    ∀ effect ∈ (putAll txnId outs pos writes).1, effect.Quiet := by
  intro effect mem
  have onStorage := putAll_onStorage effect mem
  cases effect <;> simp [OnStorage, Quiet] at onStorage ⊢

theorem putAll_origins (outs : Nat → PutOutcome) (pos : Nat) (writes : List StorageWrite) :
    ∃ count, ((putAll txnId outs pos writes).1.filterMap applied?).map origin =
      (List.range' pos count).map fun place => (txnId, place) := by
  induction writes generalizing pos with
  | nil => exact ⟨0, by simp [putAll]⟩
  | cons write rest ih =>
    have flushed := filterMap_applied_of_silent (flushes_silent (outs pos).flush)
    obtain ⟨count, later⟩ := ih (pos + 1)
    rw [putAll]
    dsimp only
    split
    · exact ⟨0, by simp [flushed]⟩
    · refine ⟨count + 1, ?_⟩
      rw [filterMap_append, flushed, nil_append, range'_succ, map_cons, ← later]
      simp [applied?, origin]

/-- The writes of a call, all of one transaction and with positions from the first on. -/
def AppliesFrom (txnId : UInt64) (writes : List AppliedWrite) : Prop :=
  ∃ count, writes.map origin = (List.range' 0 count).map fun place => (txnId, place)

variable {writes : List AppliedWrite}

section

variable (applies : AppliesFrom txnId writes)
include applies

theorem AppliesFrom.nodup : (writes.map origin).Nodup := by
  obtain ⟨count, origins⟩ := applies
  rw [origins]
  refine List.Nodup.map ?_ nodup_range'
  intro left right same
  exact (Prod.ext_iff.mp same).2

theorem AppliesFrom.txnId_eq {write : AppliedWrite} (mem : write ∈ writes) :
    write.txnId = txnId := by
  obtain ⟨count, origins⟩ := applies
  have inOrigins : write.origin ∈ writes.map origin := mem_map_of_mem mem
  rw [origins] at inOrigins
  obtain ⟨place, _, same⟩ := mem_map.mp inOrigins
  exact (congrArg Prod.fst same).symm

theorem AppliesFrom.first_mem (some_write : writes ≠ []) : (txnId, 0) ∈ writes.map origin := by
  obtain ⟨count, origins⟩ := applies
  rw [origins]
  cases count with
  | zero => exact absurd (map_eq_nil_iff.mp origins) some_write
  | succ count => simp [range'_succ]

end

/-- The part of a commit before the transaction moves to the committed ones. -/
structure Writing (txnId : UInt64) (effects : List PartitionEffect) : Prop where
  quiet : ∀ effect ∈ effects, effect.Quiet
  applies : AppliesFrom txnId (effects.filterMap applied?)

theorem Writing.around
    {before effects after : List PartitionEffect} (writing : Writing txnId effects)
    (silentBefore : ∀ effect ∈ before, effect.Silent)
    (silentAfter : ∀ effect ∈ after, effect.Silent) :
    Writing txnId (before ++ effects ++ after) := by
  constructor
  · intro effect mem
    simp only [mem_append] at mem
    rcases mem with (inBefore | inEffects) | inAfter
    · exact (silentBefore effect inBefore).1
    · exact writing.quiet effect inEffects
    · exact (silentAfter effect inAfter).1
  · simp only [filterMap_append, filterMap_applied_of_silent silentBefore,
      filterMap_applied_of_silent silentAfter, nil_append, append_nil]
    exact writing.applies

theorem commitPrepared_effects (entries : List (CedarKey × Descriptor)) (outs : CommitOutcomes) :
    ∃ front closing, Writing txnId front ∧
      (closing = [] ∨ closing = [PartitionEffect.commitTxn txnId]) ∧
      (part.commitPrepared opts txnId commitTs entries outs).1 = front ++ closing := by
  have puts : Writing txnId (putAll txnId outs.puts 0
      (entries.map (part.storageWrite commitTs))).1 :=
    ⟨putAll_quiet _ _ _, putAll_origins _ _ _⟩
  have announced := @announce_silent part txnId commitTs entries outs.intent
  rw [commitPrepared]
  dsimp only
  split
  · refine ⟨_, [], ⟨fun effect mem => (announced effect mem).1, 0, ?_⟩, Or.inl rfl,
      (append_nil _).symm⟩
    simp [filterMap_applied_of_silent announced]
  split
  · refine ⟨_, [], puts.around announced (forall_mem_nil _), Or.inl rfl, ?_⟩
    simp
  · have whole := puts.around announced (@publish_silent opts part txnId commitTs
        (entries.map (changeRecord txnId commitTs)) outs.append outs.intentDeleted)
    split
    · exact ⟨_, [], whole, Or.inl rfl, (append_nil _).symm⟩
    · exact ⟨_, _, whole, Or.inr rfl, rfl⟩

/-- A commit does nothing, or it writes for a prepared transaction, which it may then
move to the committed ones. -/
theorem commit_effects (outs : CommitOutcomes) :
    (part.commit opts txnId commitTs outs).1 = [] ∨
      txnId ∈ part.preparedIds ∧ ∃ front closing, Writing txnId front ∧
        (closing = [] ∨ closing = [PartitionEffect.commitTxn txnId]) ∧
        (part.commit opts txnId commitTs outs).1 = front ++ closing := by
  rw [commit]
  split
  · exact Or.inl rfl
  split
  · split
    · exact Or.inl rfl
    · exact Or.inl rfl
  · rename_i state found
    split
    · exact Or.inl rfl
    right
    obtain ⟨front, closing, writing, shape, effects⟩ :=
      @commitPrepared_effects opts part txnId commitTs (part.writeEntries state) outs
    have started : Writing txnId (.setStatus txnId .committing :: front) := by
      have silent : ∀ effect ∈ [setStatus txnId .committing], effect.Silent := by
        simp [Silent, Quiet, applied?]
      simpa using writing.around silent (forall_mem_nil _)
    refine ⟨mem_preparedIds_of_find found, _, closing, started, shape, ?_⟩
    simp [effects]

end Effects

/-- What runs of harmless calls keep: the writes of a transaction are applied from the
first one on. -/
structure Tracked (part : PartitionStorage) : Prop extends Orderly part where
  firstApplied : ∀ txnId, part.Started txnId → (txnId, 0) ∈ part.applied.map origin

theorem started_append {before after : PartitionStorage} {writes : List AppliedWrite}
    (applied : after.applied = before.applied ++ writes) :
    after.Started txnId ↔ before.Started txnId ∨ ∃ write ∈ writes, write.txnId = txnId := by
  simp only [Started, applied, mem_append, or_and_right, exists_or]

section Call

variable {part : PartitionStorage} {txnId commitTs : UInt64}

theorem prepare_effects (req : PrepareRequest) :
    ((part.prepare opts req).2.isOk = false ∧ (part.prepare opts req).1 = []) ∨
      (part.prepare opts req).2.isOk = true ∧ part.find req.txnId = none ∧
        (part.prepare opts req).1 = [.insertPrepared req.state] := by
  rw [prepare]
  split
  · simp [Except.isOk, Except.toBool]
  · rename_i absent
    split
    · simp [Except.isOk, Except.toBool]
    · split
      · simp [Except.isOk, Except.toBool]
      · simpa [Except.isOk, Except.toBool] using absent

theorem tracked_prepare (tracked : Tracked part) (req : PrepareRequest) :
    (Orderly (part.step opts (.prepare req)) ↔ part.Harmless opts (.prepare req)) ∧
      (part.Harmless opts (.prepare req) → Tracked (part.step opts (.prepare req))) := by
  rw [step, script, Harmless]
  rcases @prepare_effects opts part req with
    ⟨refused, nothing⟩ | ⟨accepted, _, effects⟩
  · rw [nothing]
    exact ⟨iff_of_true tracked.toOrderly fun _ => refused, fun _ => tracked⟩
  · rw [effects, accepted]
    have ids : (run (apply opts) part [.insertPrepared req.state]).preparedIds =
          part.preparedIds ++ [req.txnId] := by
      simp [run, apply, preparedIds, PrepareRequest.state]
    have orderly : ¬ part.Finished req.txnId →
        Orderly (run (apply opts) part [.insertPrepared req.state]) := by
      intro unfinished
      refine ⟨tracked.appliedOnce, tracked.abortedClean, ?_⟩
      intro txnId finished
      have ne : txnId ≠ req.txnId := by
        intro same
        exact unfinished (same ▸ finished)
      rw [ids]
      simpa [ne] using tracked.finishedGone txnId finished
    have harmless : (part.Finished req.txnId → true = false) ↔ ¬ part.Finished req.txnId := by
      simp
    rw [harmless]
    refine ⟨⟨?_, orderly⟩, fun unfinished => ⟨orderly unfinished, tracked.firstApplied⟩⟩
    intro after finished
    have gone := after.finishedGone req.txnId finished
    rw [ids] at gone
    simp at gone

theorem abort_effects :
    (txnId ∉ part.preparedIds ∧ (part.abort txnId).1 = []) ∨
      txnId ∈ part.preparedIds ∧ (part.abort txnId).1 = [.abortTxn txnId] := by
  rw [abort]
  cases found : part.find txnId with
  | none =>
    refine Or.inl ⟨find_eq_none_iff.mp found, ?_⟩
    by_cases before : txnId ∈ part.aborted
    · simp [before]
    · simp [before]
  | some state => exact Or.inr ⟨mem_preparedIds_of_find found, rfl⟩

theorem tracked_abort (tracked : Tracked part) (txnId : UInt64) :
    (Orderly (part.step opts (.abort txnId)) ↔ part.Harmless opts (.abort txnId)) ∧
      (part.Harmless opts (.abort txnId) → Tracked (part.step opts (.abort txnId))) := by
  rw [step, script, Harmless]
  rcases @abort_effects part txnId with ⟨absent, nothing⟩ | ⟨prepared, moved⟩
  · rw [nothing]
    exact ⟨iff_of_true tracked.toOrderly fun present => absurd present absent, fun _ => tracked⟩
  rw [moved]
  have orderly : ¬ part.Started txnId → Orderly (run (apply opts) part [.abortTxn txnId]) := by
    intro unstarted
    refine ⟨tracked.appliedOnce, ?_, ?_⟩
    · intro other aborted
      rcases mem_insert_iff.mp aborted with rfl | before
      · exact unstarted
      · exact tracked.abortedClean other before
    · intro other finished inIds
      obtain ⟨before, ne⟩ := mem_preparedIds_erase.mp inIds
      refine tracked.finishedGone other ?_ before
      rcases finished with committed | aborted
      · exact Or.inl committed
      · rcases mem_insert_iff.mp aborted with same | prev
        · exact absurd same ne
        · exact Or.inr prev
  have clean : Orderly (run (apply opts) part [.abortTxn txnId]) → ¬ part.Started txnId := by
    intro after
    exact after.abortedClean txnId (mem_insert_self)
  refine ⟨⟨fun after _ => clean after, fun harmless => orderly (harmless prepared)⟩, ?_⟩
  intro harmless
  exact ⟨orderly (harmless prepared), tracked.firstApplied⟩

/-- What a commit leaves of the sets of transactions. -/
structure CommitSettles (before after : PartitionStorage) : Prop where
  aborted : after.aborted = before.aborted
  prepared : ∀ other ∈ after.preparedIds, other ∈ before.preparedIds
  finished : ∀ other, after.Finished other → before.Finished other ∨ other ∉ after.preparedIds

theorem commitSettles_run
    {front closing : List PartitionEffect} (quiet : ∀ effect ∈ front, effect.Quiet)
    (shape : closing = [] ∨ closing = [PartitionEffect.commitTxn txnId]) :
    CommitSettles part (run (apply opts) part (front ++ closing)) := by
  have same : SameTransactions part (run (apply opts) part front) :=
    sameTransactions_run quiet part
  rw [run, foldl_append]
  rcases shape with rfl | rfl
  · refine ⟨same.aborted, ?_, ?_⟩
    · intro other mem
      rwa [← same.preparedIds]
    · intro other finished
      left
      rw [Finished, ← same.committed, ← same.aborted]
      exact finished
  · refine ⟨same.aborted, ?_, ?_⟩
    · intro other mem
      rw [← same.preparedIds]
      exact (mem_preparedIds_erase.mp mem).1
    · intro other finished
      rcases finished with committed | aborted
      · rcases mem_insert_iff.mp committed with rfl | before
        · right
          intro mem
          exact (mem_preparedIds_erase.mp mem).2 rfl
        · left
          rw [Finished, ← same.committed]
          exact Or.inl before
      · left
        rw [Finished, ← same.aborted]
        exact Or.inr aborted

/-- When a commit applies `writes`, the state stays orderly exactly if these are the
first writes of the transaction. -/
theorem tracked_writes
    {after : PartitionStorage} {writes : List AppliedWrite} (tracked : Tracked part)
    (prepared : writes ≠ [] → txnId ∈ part.preparedIds)
    (applies : AppliesFrom txnId writes) (applied : after.applied = part.applied ++ writes)
    (settles : CommitSettles part after) :
    (Orderly after ↔ (part.Started txnId → writes = [])) ∧
      ((part.Started txnId → writes = []) → Tracked after) := by
  have orderly : (part.Started txnId → writes = []) → Orderly after := by
    intro first
    refine ⟨?_, ?_, ?_⟩
    · rw [applied, map_append, nodup_append]
      refine ⟨tracked.appliedOnce, applies.nodup, ?_⟩
      intro origin before other inWrites same
      subst same
      obtain ⟨old, oldMember, rfl⟩ := mem_map.mp before
      obtain ⟨write, mem, sameOrigin⟩ := mem_map.mp inWrites
      have sameTxn : old.txnId = txnId :=
        (congrArg Prod.fst sameOrigin).symm.trans (applies.txnId_eq mem)
      exact ne_nil_of_mem mem (first ⟨old, oldMember, sameTxn⟩)
    · intro other aborted started
      rw [settles.aborted] at aborted
      rcases (started_append applied).mp started with before | new
      · exact tracked.abortedClean other aborted before
      · obtain ⟨write, mem, rfl⟩ := new
        rw [applies.txnId_eq mem] at aborted
        exact tracked.finishedGone txnId (Or.inr aborted) (prepared (ne_nil_of_mem mem))
    · intro other finished mem
      rcases settles.finished other finished with before | gone
      · exact tracked.finishedGone other before (settles.prepared other mem)
      · exact gone mem
  refine ⟨⟨?_, orderly⟩, fun first => ⟨orderly first, ?_⟩⟩
  · intro after_orderly started
    by_contra some_write
    have once := after_orderly.appliedOnce
    rw [applied, map_append, nodup_append] at once
    exact once.2.2 (txnId, 0) (tracked.firstApplied txnId started) (txnId, 0)
      (applies.first_mem some_write) rfl
  · intro other started
    rw [applied, map_append, mem_append]
    rcases (started_append applied).mp started with before | new
    · exact Or.inl (tracked.firstApplied other before)
    · obtain ⟨write, mem, rfl⟩ := new
      rw [applies.txnId_eq mem]
      exact Or.inr (applies.first_mem (ne_nil_of_mem mem))

theorem tracked_commit (tracked : Tracked part) (txnId commitTs : UInt64) (outs : CommitOutcomes) :
    (Orderly (part.step opts (.commit txnId commitTs outs)) ↔
        part.Harmless opts (.commit txnId commitTs outs)) ∧
      (part.Harmless opts (.commit txnId commitTs outs) →
        Tracked (part.step opts (.commit txnId commitTs outs))) := by
  rw [step, script, Harmless]
  rcases @commit_effects opts part txnId commitTs outs with nothing | something
  · rw [nothing]
    exact ⟨iff_of_true tracked.toOrderly fun _ => rfl, fun _ => tracked⟩
  obtain ⟨prepared, front, closing, writing, shape, effects⟩ := something
  have closingSilent : closing.filterMap applied? = [] := by
    rcases shape with rfl | rfl
    · simp
    · simp [applied?]
  have sameWrites : (front ++ closing).filterMap applied? = front.filterMap applied? := by
    rw [filterMap_append, closingSilent, append_nil]
  rw [effects]
  refine tracked_writes tracked (fun _ => prepared) ?_ (applied_run (front ++ closing) part)
    (commitSettles_run writing.quiet shape)
  rw [sameWrites]
  exact writing.applies

end Call

theorem tracked_opened (pid : UInt16) (isReadonly : Bool) (storage : CedarGraphStorage)
    (changeLog : Option PartitionChangeLog) :
    Tracked (opened pid isReadonly storage changeLog) := by
  refine ⟨⟨?_, ?_, ?_⟩, ?_⟩
  · simp [opened]
  · simp [opened]
  · simp [opened, preparedIds]
  · simp [opened, Started]

theorem tracked_step (part : PartitionStorage) (call : ParticipantCall) (tracked : Tracked part) :
    (Orderly (part.step opts call) ↔ part.Harmless opts call) ∧
      (part.Harmless opts call → Tracked (part.step opts call)) := by
  cases call with
  | prepare req => exact tracked_prepare tracked req
  | commit txnId commitTs outs => exact tracked_commit tracked txnId commitTs outs
  | abort txnId => exact tracked_abort tracked txnId

/-- From a partition without transactions, a sequence of calls keeps the partition
orderly in every state exactly if each call is harmless where it arrives. -/
theorem participant_orderly_iff (opts : PartitionOptions) (pid : UInt16) (isReadonly : Bool)
    (storage : CedarGraphStorage) (changeLog : Option PartitionChangeLog)
    (calls : List ParticipantCall) :
    Throughout (step opts) Orderly (opened pid isReadonly storage changeLog) calls ↔
      Admissible (step opts) (Harmless opts) (opened pid isReadonly storage changeLog) calls :=
  throughout_iff_admissible (fun _ tracked => tracked.toOrderly)
    (fun part call tracked => (tracked_step part call tracked).1)
    (fun part call tracked => (tracked_step part call tracked).2)
    (tracked_opened pid isReadonly storage changeLog) calls

/-- A `Prepare` after the `Abort`; an `Abort` after a commit that stopped at the second
write; a second `Commit` after such a commit. -/
theorem participant_disorder :
    let opts : PartitionOptions := ⟨.default, ⟨0, 0, 0, 0, 0, fun _ => 0⟩⟩
    let start := opened 0 false ⟨.init .default, 1⟩ none
    let req : PrepareRequest :=
      ⟨7, [], [.vertex 1 0 5 0 0 0 0, .vertex 2 0 5 0 0 0 0], fun _ => some ⟨16⟩, 5, 0⟩
    let outs := fun status : Except Status Unit => (⟨.ok (),
      fun pos => ⟨none, if pos = 1 then status else .ok (), false⟩,
      ⟨fun _ => .written, true, true⟩, true⟩ : CommitOutcomes)
    let stopped := outs (.error (.ioError "WAL" "write failed"))
    let reordered := run (step opts) start [.prepare req, .abort 7, .prepare req]
    let aborted := run (step opts) start [.prepare req, .commit 7 5 stopped, .abort 7]
    let repeated := run (step opts) start
      [.prepare req, .commit 7 5 stopped, .commit 7 5 (outs (.ok ()))]
    (reordered.aborted = [7] ∧ reordered.preparedIds = [7]) ∧
      (aborted.aborted = [7] ∧ aborted.applied.map origin = [(7, 0)]) ∧
      repeated.committed = [7] ∧
      repeated.applied.map origin = [(7, 0), (7, 0), (7, 1)] := by
  decide

end PartitionStorage

end CedarGraph
