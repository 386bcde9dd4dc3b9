import CedarGraph.Gcn.Applier

/-!
# The applier follows the log

Whatever records arrive, in whatever order and how often, the edges of the partition are those
of a front part of the log that ends between two batches, each once and in the order of the log.
The batch being collected starts right behind it.
-/

namespace CedarGraph

open List EdgeAppend PendingBatch

/-- The change log of a partition: offsets count from one, and the records of a batch stand
next to each other and agree on the batch. -/
structure ChangeHistory (pid : UInt32) where
  records : List ChangeRecord
  offsets : ∀ index (lt : index < records.length), records[index].offset = index + 1
  own : ∀ rec ∈ records, rec.partitionId = pid
  supported : ∀ rec ∈ records, rec.operation ≠ .unspecified
  indices : ∀ rec ∈ records, rec.batchIndex < rec.batchSize ∧ rec.batchIndex < rec.offset
  batches : ∀ rec ∈ records, ∀ index < rec.batchSize,
    ∀ other ∈ records[rec.offset - 1 - rec.batchIndex + index]?,
      other.batchIndex = index ∧ other.batchSize = rec.batchSize ∧
        other.txnId = rec.txnId ∧ other.commitVersion = rec.commitVersion

namespace ChangeHistory

variable {pid : UInt32} (hist : ChangeHistory pid)

variable {rec : ChangeRecord}

theorem getElem?_of_mem (mem : rec ∈ hist.records) : hist.records[rec.offset - 1]? = some rec := by
  obtain ⟨index, lt, isRecord⟩ := mem_iff_getElem.mp mem
  have offset := hist.offsets index lt
  rw [isRecord] at offset
  rw [offset, Nat.add_sub_cancel, getElem?_eq_getElem lt, isRecord]

theorem offset_of_getElem? {index : Nat} (found : hist.records[index]? = some rec) :
    rec.offset = index + 1 := by
  obtain ⟨lt, isRecord⟩ := List.getElem?_eq_some_iff.mp found
  rw [← isRecord]
  exact hist.offsets index lt

theorem validate_ok (mem : rec ∈ hist.records) : validateChangeRecordForApply rec = .ok () := by
  have inBatch := (hist.indices rec mem).1
  have op := hist.supported rec mem
  have validOperation : ¬ (rec.operation ≠ .create ∧ rec.operation ≠ .update ∧
      rec.operation ≠ .delete) := by
    cases isOperation : rec.operation with
    | unspecified => exact absurd isOperation op
    | _ => simp
  have validBatch : ¬ (rec.batchSize = 0 ∨ rec.batchIndex ≥ rec.batchSize) := by
    omega
  rw [validateChangeRecordForApply, if_neg validOperation, if_neg validBatch]

/-- No batch is cut by the first `count` records. -/
def Whole (count : Nat) : Prop :=
  ∀ rec ∈ hist.records.take count, rec.offset - rec.batchIndex + rec.batchSize ≤ count + 1

def stepsOf (count : Nat) : List EdgeStep :=
  ((hist.records.take count).map buildEdgeAppend).flatMap steps

/-- A batch that is being collected behind the first `count` records. -/
structure Collects (count : Nat) (batch : PendingBatch) : Prop where
  first : batch.firstOffset = count + 1
  several : 1 < batch.batchSize
  partition : batch.partitionId = pid
  length : batch.records.length = batch.batchSize
  found : ∀ index rec, batch.records[index]? = some (some rec) →
    hist.records[count + index]? = some rec
  agrees : ∀ index < batch.batchSize, ∀ rec ∈ hist.records[count + index]?,
    rec.batchIndex = index ∧ rec.batchSize = batch.batchSize ∧
      rec.txnId = batch.txnId ∧ rec.commitVersion = batch.commitVersion

/-- Nothing is being collected, or the next batch is. -/
def Collecting (count : Nat) (batch : PendingBatch) : Prop :=
  batch = .empty ∨ hist.Collects count batch ∧ none ∈ batch.records

end ChangeHistory

/-! ## What a delivery can do -/

section Deliveries

variable {pid : UInt32} (hist : ChangeHistory pid)

/-- Nothing was applied; a record that was accepted is remembered. -/
structure Stayed (state : PartitionApplyState) (engine : TMVEngine) (rec : ChangeRecord)
    (res : PartitionApplyState × TMVEngine × Except Status Unit) : Prop where
  progress : res.1.progress = state.progress
  engine : res.2.1 = engine
  collecting : hist.Collecting state.progress.appliedOffset res.1.pendingBatch
  remembered : res.2.2 = .ok () → rec.offset ≤ state.progress.appliedOffset ∨
    res.1.pendingBatch.records[rec.batchIndex]? = some (some rec)
  kept : res.2.2 = .ok () → ∀ (index : Nat) (prev : ChangeRecord),
    state.pendingBatch.records[index]? = some (some prev) →
      res.1.pendingBatch.records[index]? = some (some prev)
  answered : rec.offset ≤ state.progress.appliedOffset ∨
    rec.offset - rec.batchIndex = state.progress.appliedOffset + 1 →
      res.2.2 = .ok () ∨ res.2.2 = .error poolExhausted

/-- The batch of the next `size` records was applied. -/
structure Advanced (state : PartitionApplyState) (eng : TMVEngine) (size : Nat)
    (res : PartitionApplyState × TMVEngine × Except Status Unit) : Prop where
  positive : 0 < size
  progress : res.1.progress.appliedOffset = state.progress.appliedOffset + size
  inside : state.progress.appliedOffset + size ≤ hist.records.length
  batch : ∀ rec ∈ (hist.records.drop state.progress.appliedOffset).take size,
    rec.batchSize = size ∧ rec.offset - rec.batchIndex = state.progress.appliedOffset + 1
  appended : eng.appendEdgesAtomic (((hist.records.drop
    state.progress.appliedOffset).take size).map buildEdgeAppend) = (res.2.1, .ok ())
  collected : res.1.pendingBatch = .empty
  accepted : res.2.2 = .ok ()

variable {hist} {state : PartitionApplyState} {eng : TMVEngine} {rec : ChangeRecord}

theorem stayed_refused
    (collecting : hist.Collecting state.progress.appliedOffset state.pendingBatch) {status : Status}
    (gap : status = poolExhausted ∨ ¬ (rec.offset ≤ state.progress.appliedOffset ∨
      rec.offset - rec.batchIndex = state.progress.appliedOffset + 1)) :
    Stayed hist state eng rec (state, eng, .error status) := by
  refine ⟨rfl, rfl, collecting, ?_, ?_, ?_⟩
  · intro accepted
    simp at accepted
  · intro accepted
    simp at accepted
  · intro expected
    rcases gap with exhausted | unexpected
    · exact Or.inr (congrArg Except.error exhausted)
    · exact absurd expected unexpected

theorem applySingle_cases (mem : rec ∈ hist.records)
    (collecting : hist.Collecting state.progress.appliedOffset state.pendingBatch)
    (new : ¬ rec.offset ≤ state.progress.appliedOffset) (single : rec.batchSize = 1) :
    Stayed hist state eng rec (applySingle state eng rec) ∨
      ∃ size, Advanced hist state eng size (applySingle state eng rec) := by
  rw [applySingle]
  by_cases gap : rec.offset ≠ state.progress.appliedOffset + 1
  · have index := (hist.indices rec mem).1
    rw [if_pos gap]
    exact Or.inl (stayed_refused collecting (Or.inr (by omega)))
  · have next : rec.offset = state.progress.appliedOffset + 1 := not_not.mp gap
    rw [if_neg gap, hist.validate_ok mem]
    have found := hist.getElem?_of_mem mem
    rw [next, Nat.add_sub_cancel] at found
    rcases eng.appendEdgesAtomic_cases [buildEdgeAppend rec] with
      ⟨later, appended, _⟩ | exhausted
    · right
      obtain ⟨lt, isRecord⟩ := List.getElem?_eq_some_iff.mp found
      have taken : (hist.records.drop state.progress.appliedOffset).take 1 = [rec] := by
        rw [drop_eq_getElem_cons lt, isRecord]
        rfl
      have index := (hist.indices rec mem).1
      refine ⟨1, Nat.one_pos, ?_, lt, ?_, ?_, ?_, by simp [appended]⟩
      · simp [appended, next]
      · rw [taken]
        intro other isOther
        rw [mem_singleton.mp isOther]
        exact ⟨single, by omega⟩
      · rw [taken]
        simp [appended]
      · -- a batch that is being collected would start with this record
        simp only [appended]
        rcases collecting with none_collected | ⟨collects, _⟩
        · exact none_collected
        · have agreed := collects.agrees 0 (Nat.lt_of_succ_lt collects.several) rec found
          have several := collects.several
          exact absurd agreed.2.1 (by omega)
    · left
      simp only [exhausted]
      exact stayed_refused collecting (Or.inl rfl)

variable {count : Nat} {batch : PendingBatch}

theorem collects_open (mem : rec ∈ hist.records)
    (next : rec.offset - rec.batchIndex = count + 1) (several : 1 < rec.batchSize) :
    hist.Collects count (.open rec (rec.offset - rec.batchIndex)) := by
  have positions : rec.offset - 1 - rec.batchIndex = count := by omega
  refine ⟨next, several, hist.own rec mem, ?_, ?_, ?_⟩
  · simp [PendingBatch.open]
  · intro index prev found
    obtain ⟨_, isNone⟩ := List.getElem?_eq_some_iff.mp found
    simp [PendingBatch.open] at isNone
  · intro index lt other found
    rw [← positions] at found
    exact hist.batches rec mem index lt other found

theorem collects_metadata
    (mem : rec ∈ hist.records) (next : rec.offset - rec.batchIndex = count + 1)
    (collects : hist.Collects count batch) :
    batch.txnId = rec.txnId ∧ batch.batchSize = rec.batchSize ∧
      batch.commitVersion = rec.commitVersion := by
  have positions : rec.offset - 1 - rec.batchIndex + 0 = count + 0 := by omega
  have found := hist.getElem?_of_mem mem
  obtain ⟨lt, _⟩ := List.getElem?_eq_some_iff.mp found
  have firstInside : count + 0 < hist.records.length := by omega
  have several := collects.several
  have index := (hist.indices rec mem).1
  obtain ⟨_, collectedSize, collectedTxn, collectedVersion⟩ :=
    collects.agrees 0 (by omega) _ (getElem?_eq_getElem firstInside)
  have firstFound : hist.records[rec.offset - 1 - rec.batchIndex + 0]? =
      some hist.records[count + 0] := by
    rw [positions]
    exact getElem?_eq_getElem firstInside
  obtain ⟨_, recordSize, recordTxn, recordVersion⟩ :=
    hist.batches rec mem 0 (by omega) _ firstFound
  exact ⟨collectedTxn.symm.trans recordTxn, collectedSize.symm.trans recordSize,
    collectedVersion.symm.trans recordVersion⟩

theorem PendingBatch.records_put {batch : PendingBatch} (lt : rec.batchIndex < batch.records.length)
    (free : ∀ prev, batch.records[rec.batchIndex]? = some (some prev) →
      prev = rec) : (batch.put rec).records = batch.records.set rec.batchIndex (some rec) := by
  rw [put]
  cases slot : batch.records[rec.batchIndex] with
  | none => rw [getElem?_eq_getElem lt, slot]
  | some prev =>
    have same := free prev (by rw [getElem?_eq_getElem lt, slot])
    have unchanged : batch.records.set rec.batchIndex (some rec) = batch.records := by
      have taken : some rec = batch.records[rec.batchIndex] := by
        rw [slot, same]
      rw [taken]
      exact set_getElem_self lt
    rw [getElem?_eq_getElem lt, slot, unchanged]

theorem ChangeHistory.Collects.put
    (mem : rec ∈ hist.records) (next : rec.offset - rec.batchIndex = count + 1)
    (collects : hist.Collects count batch) :
    hist.Collects count (batch.put rec) ∧
      (batch.put rec).records = batch.records.set rec.batchIndex (some rec) := by
  have index := hist.indices rec mem
  have lt : rec.batchIndex < batch.records.length := by
    rw [collects.length, (collects_metadata mem next collects).2.1]
    exact index.1
  have pos : count + rec.batchIndex = rec.offset - 1 := by omega
  have found : hist.records[count + rec.batchIndex]? = some rec := by
    rw [pos]
    exact hist.getElem?_of_mem mem
  have recs := @records_put rec batch lt (by
    intro prev slot
    have isEarlier := collects.found _ _ slot
    rw [found] at isEarlier
    exact (Option.some.inj isEarlier).symm)
  have fields : (batch.put rec) = { batch with records := (batch.put rec).records } := by
    rw [PendingBatch.put]
    split <;> rfl
  rw [recs] at fields
  refine ⟨?_, recs⟩
  rw [fields]
  refine ⟨collects.first, collects.several, collects.partition, ?_, ?_, collects.agrees⟩
  · simpa using collects.length
  · intro slot prev isEarlier
    rw [getElem?_set] at isEarlier
    split at isEarlier
    · rename_i same
      rw [Option.some.injEq, Option.some.injEq] at isEarlier
      rw [← same, ← isEarlier]
      exact found
    · exact collects.found slot prev isEarlier

theorem ChangeHistory.Collects.complete
    (collects : hist.Collects count batch) (complete : none ∉ batch.records) :
    count + batch.batchSize ≤ hist.records.length ∧
      batch.records.filterMap id = (hist.records.drop count).take batch.batchSize := by
  have slots : ∀ index < batch.batchSize, ∃ rec, batch.records[index]? = some (some rec) ∧
        hist.records[count + index]? = some rec := by
    intro index lt
    rw [← collects.length] at lt
    cases slot : batch.records[index] with
    | none => exact absurd (slot ▸ getElem_mem lt) complete
    | some rec =>
      have found : batch.records[index]? = some (some rec) := by
        rw [getElem?_eq_getElem lt, slot]
      exact ⟨rec, found, collects.found index rec found⟩
  have several := collects.several
  obtain ⟨_, _, last⟩ := slots (batch.batchSize - 1) (by omega)
  obtain ⟨insideLog, _⟩ := List.getElem?_eq_some_iff.mp last
  have enough : count + batch.batchSize ≤ hist.records.length := by omega
  refine ⟨enough, ?_⟩
  have present : batch.records = ((hist.records.drop count).take batch.batchSize).map some := by
    apply ext_getElem?
    intro index
    by_cases lt : index < batch.batchSize
    · obtain ⟨rec, slot, found⟩ := slots index lt
      rw [slot, getElem?_map, getElem?_take_of_lt lt, getElem?_drop, found]
      rfl
    · rw [getElem?_eq_none (by rw [collects.length]; omega),
        getElem?_eq_none (by simp; omega)]
  rw [present, filterMap_map]
  exact filterMap_some

theorem ChangeHistory.Collects.checkAll
    (collects : hist.Collects count batch) {index : Nat} {recs : List ChangeRecord}
    (found : ∀ pos (lt : pos < recs.length), hist.records[count + (index + pos)]? = some recs[pos])
    (lt : index + recs.length ≤ batch.batchSize) :
    batch.checkAll index recs = .ok (recs.map buildEdgeAppend) := by
  induction recs generalizing index with
  | nil => rfl
  | cons rec rest ih =>
    have first := found 0 (Nat.zero_lt_succ _)
    rw [Nat.add_zero, getElem_cons_zero] at first
    rw [length_cons] at lt
    have mem : rec ∈ hist.records := mem_of_getElem? first
    obtain ⟨batchIndex, batchSize, txnId, ver⟩ :=
      collects.agrees index (by omega) rec first
    have offset := hist.offset_of_getElem? first
    have expected : batch.firstOffset + index = count + index + 1 := by
      rw [collects.first]
      omega
    have check : batch.check index rec = .ok (buildEdgeAppend rec) := by
      rw [check, hist.validate_ok mem]
      simp [offset, expected, batchIndex, batchSize, txnId, ver, collects.partition,
        hist.own rec mem]
    have others := @ih (index + 1) (by
      intro pos insideRest
      have later := found (pos + 1) (Nat.succ_lt_succ insideRest)
      rw [getElem_cons_succ] at later
      rw [← later]
      congr 1
      omega) (by omega)
    rw [PendingBatch.checkAll, check, others]
    rfl

theorem applyCompleteBatch_cases (collects : hist.Collects state.progress.appliedOffset batch)
    (complete : none ∉ batch.records) :
    let res := applyCompleteBatch batch state.progress eng (batch.records.filterMap id)
    Stayed hist state eng rec (⟨res.1, .empty⟩, res.2) ∨
      ∃ size, Advanced hist state eng size (⟨res.1, .empty⟩, res.2) := by
  obtain ⟨lt, next⟩ := collects.complete complete
  have several := collects.several
  have length : ((hist.records.drop state.progress.appliedOffset).take
      batch.batchSize).length = batch.batchSize := by
    simp
    omega
  have found : ∀ pos (inTake : pos < ((hist.records.drop
      state.progress.appliedOffset).take batch.batchSize).length),
      hist.records[state.progress.appliedOffset + (0 + pos)]? =
        some ((hist.records.drop state.progress.appliedOffset).take batch.batchSize)[pos] := by
    intro pos inTake
    rw [← getElem?_eq_getElem inTake, getElem?_take_of_lt (by omega), getElem?_drop, Nat.zero_add]
  have checked := collects.checkAll found (by omega)
  dsimp only
  rw [next, applyCompleteBatch, checked]
  rcases eng.appendEdgesAtomic_cases (((hist.records.drop
      state.progress.appliedOffset).take batch.batchSize).map buildEdgeAppend) with
    ⟨later, appended, _⟩ | exhausted
  · right
    refine ⟨batch.batchSize, by omega, ?_, lt, ?_, ?_, rfl, by simp only [appended]⟩
    · simp only [appended, collects.first]
      omega
    · intro other isOther
      obtain ⟨pos, inTake, rfl⟩ := mem_iff_getElem.mp isOther
      have atPosition := found pos inTake
      rw [Nat.zero_add] at atPosition
      obtain ⟨batchIndex, batchSize, _⟩ :=
        collects.agrees pos (by omega) _ atPosition
      have offset := hist.offset_of_getElem? atPosition
      exact ⟨batchSize, by omega⟩
    · simp only [appended]
  · left
    simp only [exhausted]
    refine ⟨rfl, rfl, Or.inl rfl, ?_, ?_, fun _ => Or.inr rfl⟩
    · intro accepted
      simp at accepted
    · intro accepted
      simp at accepted

theorem applyToBatch_cases (mem : rec ∈ hist.records)
    (collecting : hist.Collecting state.progress.appliedOffset state.pendingBatch)
    (new : ¬ rec.offset ≤ state.progress.appliedOffset) (several : 1 < rec.batchSize) :
    Stayed hist state eng rec (applyToBatch state eng rec) ∨
      ∃ size, Advanced hist state eng size (applyToBatch state eng rec) := by
  rw [applyToBatch]
  by_cases gap : rec.offset - rec.batchIndex ≠ state.progress.appliedOffset + 1
  · rw [if_pos gap]
    exact Or.inl (stayed_refused collecting (Or.inr (by omega)))
  have next : rec.offset - rec.batchIndex = state.progress.appliedOffset + 1 :=
    not_not.mp gap
  rw [if_neg gap]
  generalize isBatch : (if state.pendingBatch.batchSize = 0 then
    PendingBatch.open rec (rec.offset - rec.batchIndex)
    else state.pendingBatch) = batch
  have collects : hist.Collects state.progress.appliedOffset batch := by
    rw [← isBatch]
    split
    · exact collects_open mem next several
    · rename_i filled
      rcases collecting with empty | ⟨collects, _⟩
      · exact absurd (congrArg PendingBatch.batchSize empty) filled
      · exact collects
  have before : ∀ (index : Nat) (prev : ChangeRecord),
      state.pendingBatch.records[index]? = some (some prev) →
        batch.records[index]? = some (some prev) := by
    intro index prev found
    rw [← isBatch]
    split
    · rename_i noBatch
      rcases collecting with empty | ⟨collects, _⟩
      · simp [empty, PendingBatch.empty] at found
      · have large := collects.several
        omega
    · exact found
  obtain ⟨txnId, batchSize, ver⟩ := collects_metadata mem next collects
  have agrees : ¬ (batch.txnId ≠ rec.txnId ∨ batch.firstOffset ≠ rec.offset - rec.batchIndex ∨
      batch.batchSize ≠ rec.batchSize ∨ batch.commitVersion ≠ rec.commitVersion) := by
    simp [txnId, batchSize, ver, collects.first, next]
  obtain ⟨collectsPut, put⟩ := collects.put mem next
  rw [if_neg agrees]
  dsimp only
  by_cases incomplete : none ∈ (batch.put rec).records
  · rw [if_pos incomplete]
    left
    have lt : rec.batchIndex < batch.records.length := by
      rw [collects.length, batchSize]
      exact (hist.indices rec mem).1
    refine ⟨rfl, rfl, Or.inr ⟨collectsPut, incomplete⟩, ?_, ?_, fun _ => Or.inl rfl⟩
    · intro _
      right
      rw [put, getElem?_set_self lt]
    · intro _ index prev found
      have slot := before index prev found
      dsimp only
      rw [put, getElem?_set]
      split
      · rename_i same
        have isEarlier := collects.found index prev slot
        have indices := hist.indices rec mem
        have pos : state.progress.appliedOffset + index = rec.offset - 1 := by omega
        rw [pos, hist.getElem?_of_mem mem] at isEarlier
        rw [isEarlier]
      · exact slot
  · rw [if_neg incomplete]
    exact applyCompleteBatch_cases collectsPut incomplete

theorem apply_cases (mem : rec ∈ hist.records)
    (collecting : hist.Collecting state.progress.appliedOffset state.pendingBatch) :
    Stayed hist state eng rec (state.apply eng rec) ∨
      ∃ size, Advanced hist state eng size (state.apply eng rec) := by
  have index := hist.indices rec mem
  have valid : ¬ (rec.batchSize = 0 ∨ rec.batchIndex ≥ rec.batchSize) := by omega
  rw [PartitionApplyState.apply, if_neg valid]
  by_cases applied : rec.offset ≤ state.progress.appliedOffset
  · rw [if_pos applied]
    exact Or.inl ⟨rfl, rfl, collecting, fun _ => Or.inl applied, fun _ _ _ found => found,
      fun _ => Or.inl rfl⟩
  · rw [if_neg applied]
    by_cases single : rec.batchSize = 1
    · rw [if_pos single]
      exact applySingle_cases mem collecting applied single
    · rw [if_neg single]
      exact applyToBatch_cases mem collecting applied (by omega)

end Deliveries

/-! ## Runs of the applier -/

/-- The edges of a partition are those of the applied front part of its log. -/
structure Follows {pid : UInt32} (hist : ChangeHistory pid)
    (state : PartitionApplyState) (eng : TMVEngine) : Prop where
  inside : state.progress.appliedOffset ≤ hist.records.length
  whole : hist.Whole state.progress.appliedOffset
  edges : ∀ dir eid,
    (eng.edges dir eid).filter (fun edge => edge.reserved = pid) =
      addedEdges (hist.stepsOf state.progress.appliedOffset) dir eid
  collecting : hist.Collecting state.progress.appliedOffset state.pendingBatch

theorem reserved_of_mem_steps
    {rec : ChangeRecord} {step : EdgeStep} (mem : step ∈ (buildEdgeAppend rec).steps) :
    step.edge.reserved = rec.partitionId := by
  rw [steps] at mem
  rcases mem_cons.mp mem with rfl | inReverse
  · rfl
  · simp only [buildEdgeAppend, and_self, if_true, mem_singleton] at inReverse
    rw [inReverse]

theorem reserved_of_steps {recs : List ChangeRecord} {pid : UInt32}
    (own : ∀ rec ∈ recs, rec.partitionId = pid) {dir : Direction} {eid : UInt64} {edge : TMVEdge}
    (mem : edge ∈ addedEdges ((recs.map buildEdgeAppend).flatMap steps) dir
      eid) : edge.reserved = pid := by
  obtain ⟨step, selected, rfl⟩ := mem_map.mp mem
  obtain ⟨append, isAppend, inSteps⟩ := mem_flatMap.mp (mem_filter.mp selected).1
  obtain ⟨rec, inRecords, rfl⟩ := mem_map.mp isAppend
  exact (reserved_of_mem_steps inSteps).trans (own rec inRecords)

section Follows

variable {pid : UInt32} {hist : ChangeHistory pid}
  {state : PartitionApplyState} {eng : TMVEngine}

section

variable (follows : Follows hist state eng)
include follows

theorem Follows.advanced {size : Nat} {res : PartitionApplyState × TMVEngine × Except Status Unit}
    (advanced : Advanced hist state eng size res) : Follows hist res.1 res.2.1 := by
  have front : hist.records.take (state.progress.appliedOffset + size) =
      hist.records.take state.progress.appliedOffset ++
        (hist.records.drop state.progress.appliedOffset).take size :=
    take_add
  refine ⟨?_, ?_, ?_, Or.inl advanced.collected⟩
  · rw [advanced.progress]
    exact advanced.inside
  · rw [advanced.progress]
    intro rec mem
    rw [front] at mem
    rcases mem_append.mp mem with before | new
    · have whole := follows.whole rec before
      omega
    · obtain ⟨batchSize, first⟩ := advanced.batch rec new
      omega
  · intro dir eid
    have own : ∀ edge ∈ addedEdges ((((hist.records.drop
        state.progress.appliedOffset).take size).map buildEdgeAppend).flatMap
          steps) dir eid, edge.reserved = pid := by
      intro edge mem
      apply reserved_of_steps _ mem
      intro rec inTake
      exact hist.own rec (mem_of_mem_drop (mem_of_mem_take inTake))
    rw [TMVEngine.edges_appendEdgesAtomic advanced.appended, filter_append, follows.edges,
      advanced.progress]
    rw [filter_eq_self.mpr (fun edge mem => decide_eq_true (own edge mem))]
    rw [ChangeHistory.stepsOf, ChangeHistory.stepsOf, front, map_append,
      flatMap_append, addedEdges_append]

theorem Follows.apply {rec : ChangeRecord} (mem : rec ∈ hist.records) :
    Follows hist (state.apply eng rec).1 (state.apply eng rec).2.1 := by
  rcases apply_cases mem follows.collecting with stayed | ⟨size, advanced⟩
  · obtain ⟨prog, sameEngine, collecting, _, _, _⟩ := stayed
    refine ⟨?_, ?_, ?_, ?_⟩
    · rw [prog]
      exact follows.inside
    · rw [prog]
      exact follows.whole
    · rw [prog, sameEngine]
      exact follows.edges
    · rw [prog]
      exact collecting
  · exact follows.advanced advanced

theorem Follows.other {otherId : UInt32} (ne : otherId ≠ pid)
    {otherHistory : ChangeHistory otherId} {otherState : PartitionApplyState}
    (otherFollows : Follows otherHistory otherState eng) {rec : ChangeRecord}
    (mem : rec ∈ otherHistory.records) : Follows hist state (otherState.apply eng rec).2.1 := by
  refine ⟨follows.inside, follows.whole, ?_, follows.collecting⟩
  intro dir eid
  rcases apply_cases mem otherFollows.collecting with stayed | ⟨size, advanced⟩
  · rw [stayed.engine]
    exact follows.edges dir eid
  have foreign : ∀ edge ∈ addedEdges ((((otherHistory.records.drop
      otherState.progress.appliedOffset).take size).map buildEdgeAppend).flatMap
        steps) dir eid, ¬ edge.reserved = pid := by
    intro edge inAdded same
    have own := reserved_of_steps (fun rec inTake => otherHistory.own rec
      (mem_of_mem_drop (mem_of_mem_take inTake))) inAdded
    exact ne (own.symm.trans same)
  rw [TMVEngine.edges_appendEdgesAtomic advanced.appended, filter_append, follows.edges]
  rw [filter_eq_nil_iff.mpr (by simpa using foreign), append_nil]

end

end Follows

/-- A record arrives; or the number of free chunks changes, since other users of the pool
take chunks or return them. -/
inductive Delivery where
  | record (record : ChangeRecord)
  | pool (free : Nat)

namespace EventApplier

def deliver (applier : EventApplier) : Delivery → EventApplier
  | .record rec => (applier.applyChangeRecord rec).1
  | .pool free => { applier with engine := applier.engine.withFree free }

def FromLogs (histories : ∀ pid, ChangeHistory pid) : Delivery → Prop
  | .record rec => rec ∈ (histories rec.partitionId).records
  | .pool _ => True

def FollowsAll (histories : ∀ pid, ChangeHistory pid) (applier : EventApplier) : Prop :=
  ∀ pid, Follows (histories pid) (applier.partitionStates pid) applier.engine

theorem followsAll_start (histories : ∀ pid, ChangeHistory pid) (maxChunks : Nat) :
    FollowsAll histories (start maxChunks) := by
  intro pid
  refine ⟨Nat.zero_le _, ?_, ?_, Or.inl rfl⟩
  · intro rec mem
    simp [start, PartitionApplyState.initial] at mem
  · intro dir eid
    cases dir with
    | kOut => rfl
    | kIn => rfl

theorem FollowsAll.deliver {histories : ∀ pid, ChangeHistory pid} {applier : EventApplier}
    (follows : FollowsAll histories applier) {delivery : Delivery}
    (fromLogs : FromLogs histories delivery) : FollowsAll histories (applier.deliver delivery) := by
  intro pid
  cases delivery with
  | pool free =>
    obtain ⟨lt, whole, edges, collecting⟩ := follows pid
    exact ⟨lt, whole, edges, collecting⟩
  | record rec =>
    by_cases same : rec.partitionId = pid
    · subst same
      have after := (follows rec.partitionId).apply fromLogs
      simpa [EventApplier.deliver, applyChangeRecord] using after
    · have after := (follows pid).other same (follows rec.partitionId) fromLogs
      have notSame : ¬ pid = rec.partitionId := fun equal => same equal.symm
      simpa [EventApplier.deliver, applyChangeRecord, Function.update_of_ne notSame] using after

/-- The edges of the partition are those of the records up to the applied offset, which
ends a batch: each once and in the order of the log. -/
structure HoldsPrefix {pid : UInt32} (hist : ChangeHistory pid)
    (applier : EventApplier) : Prop where
  inside : applier.appliedOffset pid ≤ hist.records.length
  whole : hist.Whole (applier.appliedOffset pid)
  edges : ∀ dir eid,
    (applier.engine.edges dir eid).filter (fun edge => edge.reserved = pid) =
      addedEdges (hist.stepsOf (applier.appliedOffset pid)) dir eid

/-- Records of the logs may arrive in any order and number, and appends may fail. -/
theorem holdsPrefix_throughout (histories : ∀ pid, ChangeHistory pid) (maxChunks : Nat)
    (deliveries : List Delivery)
    (fromLogs : ∀ delivery ∈ deliveries, FromLogs histories delivery) :
    Runs.Throughout deliver (fun applier => ∀ pid, HoldsPrefix (histories pid) applier)
      (start maxChunks) deliveries := by
  have follows : Runs.Throughout deliver (FollowsAll histories) (start maxChunks) deliveries := by
    apply Runs.throughout_of_preserved
    · intro applier delivery mem before
      exact before.deliver (fromLogs delivery mem)
    · exact followsAll_start histories maxChunks
  apply follows.imp
  intro applier follow pid
  obtain ⟨lt, whole, edges, _⟩ := follow pid
  exact ⟨lt, whole, edges⟩

/-- A batch of two and a single record, out of order, with a repetition and with an empty
pool in between. -/
theorem holdsPrefix_example :
    let record := fun (offset batchIndex batchSize : Nat) (target : UInt64) =>
      (⟨0, 1, offset, 9, 7, batchIndex, batchSize, 1, target, 1, 3, 3, .create, 5, 0, []⟩ :
        ChangeRecord)
    let recs := [record 1 0 2 4, record 2 1 2 5, record 3 0 1 6]
    ∃ histories : ∀ pid, ChangeHistory pid, (histories 0).records = recs ∧
      Runs.Throughout deliver (fun applier => ∀ pid, HoldsPrefix (histories pid) applier) (start 4)
        [.record (record 2 1 2 5), .record (record 3 0 1 6), .record (record 1 0 2 4),
          .pool 0, .record (record 1 0 2 4), .record (record 3 0 1 6)] := by
  intro record recs
  have histories : ∀ pid, ∃ hist : ChangeHistory pid,
      hist.records = if pid = 0 then recs else [] := by
    intro pid
    by_cases own : pid = 0
    · subst own
      refine ⟨⟨recs, ?_, ?_, ?_, ?_, ?_⟩, rfl⟩
      · decide
      · decide
      · decide
      · decide
      · decide
    · exact ⟨⟨[], by simp, by simp, by simp, by simp, by simp⟩, (if_neg own).symm⟩
  have first : (histories 0).choose.records = recs := (histories 0).choose_spec
  refine ⟨fun pid => (histories pid).choose, first, ?_⟩
  apply holdsPrefix_throughout
  have mem : ∀ arrived ∈ recs, FromLogs (fun pid => (histories pid).choose) (.record arrived) := by
    intro arrived isArrived
    have part : arrived.partitionId = 0 := by
      revert arrived
      decide
    rw [FromLogs, part, first]
    exact isArrived
  simp only [forall_mem_cons]
  exact ⟨mem _ (by decide), mem _ (by decide), mem _ (by decide), trivial,
    mem _ (by decide), mem _ (by decide), by simp⟩

end EventApplier

end CedarGraph
