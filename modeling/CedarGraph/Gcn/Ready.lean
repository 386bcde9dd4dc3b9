import CedarGraph.Gcn.Consumer
import CedarGraph.Gcn.Prefix

/-!
# A partition that is ready has seen everything

What a ready consumer reports as applied has to be in the engine. A checkpoint that names a
snapshot is backed by its edges; one that names none only by the engine of the process that
wrote it, and the next process starts with an empty engine.
-/

namespace CedarGraph

open List Runs EdgeAppend Visits SnapshotLoader Option Except

section Coverage

variable {pid : UInt32} (hist : ChangeHistory pid)

/-- The engine has the edges of every record up to the offset. -/
def ChangeHistory.Covers (eng : TMVEngine) (offset : Nat) : Prop :=
  ∀ rec ∈ hist.records, rec.offset ≤ offset →
    ∀ step ∈ (buildEdgeAppend rec).steps, step.edge ∈ eng.edges step.dir step.entityId

/-- The appends bring the edges of every record up to the offset. -/
def ChangeHistory.CoveredBy (appends : List EdgeAppend) (offset : Nat) : Prop :=
  ∀ rec ∈ hist.records, rec.offset ≤ offset →
    ∀ step ∈ (buildEdgeAppend rec).steps, step ∈ appends.flatMap steps

variable {hist} {eng later : TMVEngine} {offset : Nat}

theorem ChangeHistory.Covers.mono
    (covers : hist.Covers eng offset) {less : Nat} (le : less ≤ offset) : hist.Covers eng less := by
  intro rec mem lt
  exact covers rec mem (Nat.le_trans lt le)

theorem ChangeHistory.Covers.of_edges (covers : hist.Covers eng offset)
    (kept : ∀ dir eid, ∀ edge ∈ eng.edges dir eid, edge ∈ later.edges dir eid) :
    hist.Covers later offset := by
  intro rec mem lt step inSteps
  exact kept step.dir step.entityId step.edge (covers rec mem lt step inSteps)

theorem ChangeHistory.covers_zero (eng : TMVEngine) : hist.Covers eng 0 := by
  intro rec mem lt
  have index := (hist.indices rec mem).2
  omega

theorem mem_addedEdges {steps : List EdgeStep} {step : EdgeStep} (mem : step ∈ steps) :
    step.edge ∈ addedEdges steps step.dir step.entityId :=
  mem_map.mpr ⟨step, mem_filter.mpr ⟨mem, by simp⟩, rfl⟩

theorem ChangeHistory.CoveredBy.replaced
    {appends : List EdgeAppend} (covered : hist.CoveredBy appends offset)
    (replaces : later.Replaces eng pid appends) : hist.Covers later offset := by
  intro rec mem lt step inSteps
  rw [replaces]
  exact mem_append_right _ (mem_addedEdges (covered rec mem lt step inSteps))

theorem ChangeHistory.Covers.exported (covers : hist.Covers eng offset) :
    hist.CoveredBy (eng.exportPartitionEdges pid) offset := by
  intro rec mem lt step inSteps
  have own : step.edge.reserved = pid :=
    (reserved_of_mem_steps inSteps).trans (hist.own rec mem)
  have exported := TMVEngine.mem_exportPartitionEdges (covers rec mem lt step inSteps) own
  refine mem_flatMap.mpr ⟨_, exported, ?_⟩
  simp [steps]

theorem ChangeHistory.Covers.advanced {state : PartitionApplyState} {size : Nat}
    {res : PartitionApplyState × TMVEngine × Except Status Unit}
    (advanced : Advanced hist state eng size res)
    (covers : hist.Covers eng state.progress.appliedOffset) :
    hist.Covers res.2.1 res.1.progress.appliedOffset ∧
      ∀ dir eid, ∀ edge ∈ eng.edges dir eid, edge ∈ res.2.1.edges dir eid := by
  have edges := TMVEngine.edges_appendEdgesAtomic advanced.appended
  have kept : ∀ dir eid, ∀ edge ∈ eng.edges dir eid, edge ∈ res.2.1.edges dir eid := by
    intro dir eid edge mem
    rw [edges]
    exact mem_append_left _ mem
  refine ⟨?_, kept⟩
  intro rec mem lt step inSteps
  by_cases old : rec.offset ≤ state.progress.appliedOffset
  · exact covers.of_edges kept rec mem old step inSteps
  rw [advanced.progress] at lt
  have inBatch : rec ∈ (hist.records.drop state.progress.appliedOffset).take size := by
    have found := hist.getElem?_of_mem mem
    apply mem_of_getElem? (i := rec.offset - 1 - state.progress.appliedOffset)
    rw [getElem?_take_of_lt (by omega), getElem?_drop, ← found]
    congr 1
    omega
  rw [edges]
  apply mem_append_right
  apply mem_addedEdges
  rw [flatMap_map]
  exact mem_flatMap.mpr ⟨rec, inBatch, inSteps⟩

end Coverage

namespace PartitionConsumer

section Readiness

variable {opts : ConsumerOptions} (hist : ChangeHistory opts.partitionId)

/-- The checkpoint names a snapshot, and there is a store to restore it from. -/
def Restorable (opts : ConsumerOptions) (ckpt : PartitionCheckpoint) : Prop :=
  opts.snapshotStore ∧ ckpt.tmvSnapshotId ≠ ""

instance (opts : ConsumerOptions) (ckpt : PartitionCheckpoint) :
    Decidable (Restorable opts ckpt) :=
  inferInstanceAs (Decidable (_ ∧ _))

/-- A checkpoint with a snapshot has the snapshot of this offset beside it. -/
def Backed (opts : ConsumerOptions) (offset : Nat) (consumer : PartitionConsumer) : Prop :=
  ∀ ckpt ∈ consumer.checkpoint, Restorable opts ckpt →
    ∃ snap ∈ consumer.snapshot, snap.metadata.appliedOffset = offset

structure Sound (consumer : PartitionConsumer) : Prop where
  collecting : hist.Collecting consumer.applier.progress.appliedOffset consumer.applier.pendingBatch
  snapshot : ∀ snapshot ∈ consumer.snapshot,
    hist.CoveredBy snapshot.appends snapshot.metadata.appliedOffset
  checkpoint : ∀ checkpoint ∈ consumer.checkpoint, ¬ Restorable opts checkpoint →
    checkpoint.appliedOffset ≤ consumer.applier.progress.appliedOffset ∧
      hist.Covers consumer.engine checkpoint.appliedOffset
  ready : consumer.progress.queryReady = true →
    hist.Covers consumer.engine consumer.progress.appliedOffset ∧
      Backed opts consumer.progress.appliedOffset consumer

/-- The engine is at this offset. -/
structure Caught (applied : PartitionProgress) (consumer : PartitionConsumer) : Prop where
  sound : Sound hist consumer
  covers : hist.Covers consumer.engine applied.appliedOffset
  offset : consumer.applier.progress.appliedOffset = applied.appliedOffset

/-- The engine is at this offset, and a restart would bring it back there. -/
def Standing (hist : ChangeHistory opts.partitionId) (applied : PartitionProgress)
    (consumer : PartitionConsumer) : Prop :=
  Caught hist applied consumer ∧ Backed opts applied.appliedOffset consumer

variable {hist} {consumer : PartitionConsumer}

theorem Sound.withEngine (sound : Sound hist consumer) {eng : TMVEngine}
    (kept : ∀ dir eid, ∀ edge ∈ consumer.engine.edges dir eid, edge ∈ eng.edges dir eid) :
    Sound hist { consumer with engine := eng } where
  collecting := sound.collecting
  snapshot := sound.snapshot
  checkpoint := by
    intro ckpt isCheckpoint notRestorable
    obtain ⟨applied, covers⟩ := sound.checkpoint ckpt isCheckpoint notRestorable
    exact ⟨applied, covers.of_edges kept⟩
  ready := by
    intro isReady
    obtain ⟨covers, backed⟩ := sound.ready isReady
    exact ⟨covers.of_edges kept, backed⟩

variable {new : PartitionCheckpoint} {applied : PartitionProgress} {recs : List ChangeRecord}

theorem Sound.withCheckpoint (sound : Sound hist consumer) {new : PartitionCheckpoint}
    (applied : ¬ Restorable opts new →
      new.appliedOffset ≤ consumer.applier.progress.appliedOffset ∧
        hist.Covers consumer.engine new.appliedOffset)
    (backed : Restorable opts new → consumer.progress.queryReady = true →
      ∃ snap ∈ consumer.snapshot, snap.metadata.appliedOffset = consumer.progress.appliedOffset) :
    Sound hist { consumer with checkpoint := some new } where
  collecting := sound.collecting
  snapshot := sound.snapshot
  checkpoint := by
    intro ckpt isCheckpoint
    rw [mem_some_iff] at isCheckpoint
    rw [← isCheckpoint]
    exact applied
  ready := by
    intro isReady
    refine ⟨(sound.ready isReady).1, ?_⟩
    intro ckpt isCheckpoint restorable
    rw [mem_some_iff] at isCheckpoint
    exact backed (isCheckpoint ▸ restorable) isReady

theorem Sound.notReady (sound : Sound hist consumer) {prog : PartitionConsumerProgress}
    (notReady : prog.queryReady = false) :
    Sound hist { consumer with progress := prog } where
  collecting := sound.collecting
  snapshot := sound.snapshot
  checkpoint := sound.checkpoint
  ready := by
    intro isReady
    rw [notReady] at isReady
    exact absurd isReady Bool.false_ne_true

variable {inputs : RunInputs} {part : PartitionState} {before : PartitionConsumer → Prop}

theorem keeps_setProgress_notReady (sound : ∀ consumer, before consumer → Sound hist consumer)
    (stable : ∀ consumer prog, prog.queryReady = false → before consumer →
      before { consumer with progress := prog })
    (state : PartitionConsumerState) (applied : PartitionProgress) (highWatermark : Nat) :
    Keeps (Sound hist) before (setProgress opts inputs part state applied highWatermark false)
      (fun _ consumer => before consumer ∧ consumer.progress.queryReady = false) := by
  apply keeps_modify
  intro consumer assumed
  exact ⟨(sound consumer assumed).notReady rfl, stable consumer _ rfl assumed, rfl⟩

theorem keeps_saveCheckpoint
    {after : PartitionConsumer → Prop}
    (sound : ∀ consumer, before consumer → Sound hist consumer)
    (saved : ∀ consumer, before consumer →
      Sound hist { consumer with checkpoint := some new } ∧
        after { consumer with checkpoint := some new }) :
    Keeps (Sound hist) before (saveCheckpoint inputs new) (fun _ => after) := by
  apply keeps_attempt
  intro consumer assumed
  split
  · exact ⟨sound consumer assumed, by simp⟩
  · cases inputs.saveCheckpoint new with
    | saved => exact ⟨(saved consumer assumed).1, fun _ _ => (saved consumer assumed).2⟩
    | failed status => exact ⟨sound consumer assumed, by simp [SaveOutcome.status]⟩
    | published status => exact ⟨(saved consumer assumed).1, by simp [SaveOutcome.status]⟩

theorem keeps_savePartition {out : SaveOutcome} {after : PartitionConsumer → Prop}
    (sound : ∀ consumer, before consumer → Sound hist consumer)
    (saved : ∀ consumer, before consumer →
      let snap : TmvSnapshot :=
        ⟨⟨opts.partitionId, applied.appliedVersion, applied.appliedOffset⟩,
          consumer.engine.exportPartitionEdges opts.partitionId⟩
      Sound hist { consumer with snapshot := some snap } ∧
        after { consumer with snapshot := some snap }) :
    Keeps (Sound hist) before (savePartition opts out applied) (fun _ => after) := by
  apply keeps_attempt
  intro consumer assumed
  cases out with
  | saved => exact ⟨(saved consumer assumed).1, fun _ _ => (saved consumer assumed).2⟩
  | failed status => exact ⟨sound consumer assumed, by simp [SaveOutcome.status]⟩
  | published status => exact ⟨(saved consumer assumed).1, by simp [SaveOutcome.status]⟩

theorem Sound.withSnapshot
    (sound : Sound hist consumer) (covers : hist.Covers consumer.engine applied.appliedOffset)
    (reported : consumer.progress.queryReady = true →
      consumer.progress.appliedOffset = applied.appliedOffset) :
    let snap : TmvSnapshot :=
      ⟨⟨opts.partitionId, applied.appliedVersion, applied.appliedOffset⟩,
        consumer.engine.exportPartitionEdges opts.partitionId⟩
    Sound hist { consumer with snapshot := some snap } where
  collecting := sound.collecting
  snapshot := by
    intro snap isSnapshot
    rw [mem_some_iff] at isSnapshot
    rw [← isSnapshot]
    exact covers.exported
  checkpoint := sound.checkpoint
  ready := by
    intro isReady
    refine ⟨(sound.ready isReady).1, ?_⟩
    intro ckpt isCheckpoint restorable
    exact ⟨_, rfl, (reported isReady).symm⟩

theorem decode_ok {snap contents : TmvSnapshot} {pid : UInt32}
    (decoded : snap.decode pid = .ok contents) : contents = snap := by
  rw [TmvSnapshot.decode] at decoded
  split at decoded
  · simp at decoded
  · split at decoded
    · simp at decoded
    · split at decoded
      · simp at decoded
      · exact (ok.inj decoded).symm

/-- A restore fails and leaves the edges alone, or brings the edges of the snapshot. -/
theorem restorePartition_cases (eng : TMVEngine) (pid : UInt32) (file : Option TmvSnapshot)
    (readable : Except Status Unit) :
    (∃ later status, restorePartition eng pid file readable = (later, .error status) ∧
      ∀ dir eid, later.edges dir eid = eng.edges dir eid) ∨
    ∃ later, ∃ snap ∈ file,
      restorePartition eng pid file readable = (later, .ok snap.metadata) ∧
      later.Replaces eng pid snap.appends := by
  cases file with
  | none => exact Or.inl ⟨eng, _, rfl, fun _ _ => rfl⟩
  | some snap =>
    cases readable with
    | error status => exact Or.inl ⟨eng, status, rfl, fun _ _ => rfl⟩
    | ok _ =>
      simp only [restorePartition]
      cases decoded : snap.decode pid with
      | error status => exact Or.inl ⟨eng, status, rfl, fun _ _ => rfl⟩
      | ok contents =>
        rw [decode_ok decoded]
        rcases eng.replacePartitionEdgesAtomic_cases pid snap.appends with
          ⟨later, replaced, edges⟩ | ⟨later, status, failed, edges⟩
        · exact Or.inr ⟨later, snap, rfl, by simp only [replaced], edges⟩
        · exact Or.inl ⟨later, status, by simp only [failed], edges⟩

theorem Sound.restored (sound : Sound hist consumer) {ckpt : PartitionCheckpoint}
    (isCheckpoint : consumer.checkpoint = some ckpt)
    (restorable : Restorable opts ckpt) {snap : TmvSnapshot}
    (isSnapshot : snap ∈ consumer.snapshot) {eng : TMVEngine}
    (replaces : eng.Replaces consumer.engine opts.partitionId snap.appends) :
    Sound hist { consumer with engine := eng } where
  collecting := sound.collecting
  snapshot := sound.snapshot
  checkpoint := by
    intro other isOther notRestorable
    have same : ckpt = other := some.inj (isCheckpoint.symm.trans isOther)
    exact absurd (same ▸ restorable) notRestorable
  ready := by
    intro isReady
    obtain ⟨_, backed⟩ := sound.ready isReady
    obtain ⟨saved, isSaved, reported⟩ := backed ckpt isCheckpoint restorable
    have same : saved = snap := some.inj (isSaved.symm.trans isSnapshot)
    refine ⟨?_, backed⟩
    rw [← reported, same]
    exact (sound.snapshot snap isSnapshot).replaced replaces

theorem keeps_restoreCheckpoint (ckpt : PartitionCheckpoint) :
    Keeps (Sound hist) (fun consumer => Sound hist consumer ∧ consumer.checkpoint = some ckpt)
      (restoreCheckpoint opts inputs ckpt)
      (fun restored consumer => Sound hist consumer ∧
        (restored = true → hist.Covers consumer.engine ckpt.appliedOffset ∧
          Backed opts ckpt.appliedOffset consumer)) := by
  rw [restoreCheckpoint]
  split
  · rename_i restorable
    apply keeps_attempt
    rintro consumer ⟨sound, isCheckpoint⟩
    rcases restorePartition_cases consumer.engine opts.partitionId consumer.snapshot
        inputs.readSnapshot with ⟨later, status, failed, edges⟩ |
          ⟨later, snap, isSnapshot, done, edges⟩
    · have kept := @Sound.withEngine _ _ _ sound later
        fun dir eid edge mem => edges dir eid ▸ mem
      simp only [failed, ok.injEq]
      refine ⟨kept, ?_⟩
      rintro _ rfl
      exact ⟨kept, fun isTrue => absurd isTrue Bool.false_ne_true⟩
    · have restored := sound.restored isCheckpoint restorable isSnapshot edges
      simp only [done, ok.injEq]
      refine ⟨restored, ?_⟩
      rintro _ rfl
      refine ⟨restored, ?_⟩
      intro isTrue
      obtain ⟨_, sameOffset, _⟩ := of_decide_eq_true isTrue
      refine ⟨?_, fun _ _ _ => ⟨snap, isSnapshot, sameOffset⟩⟩
      rw [← sameOffset]
      exact (sound.snapshot snap isSnapshot).replaced edges
  · rename_i restorable
    apply keeps_pure
    rintro consumer ⟨sound, isCheckpoint⟩
    refine ⟨sound, fun _ => ⟨(sound.checkpoint ckpt isCheckpoint restorable).2, ?_⟩⟩
    intro other isOther isRestorable
    have same : ckpt = other := some.inj (isCheckpoint.symm.trans isOther)
    exact absurd (same ▸ isRestorable) restorable

theorem Sound.withApplier (sound : Sound hist consumer) {applier : PartitionApplyState}
    (collecting : hist.Collecting applier.progress.appliedOffset applier.pendingBatch)
    (forward : consumer.applier.progress.appliedOffset ≤ applier.progress.appliedOffset) :
    Sound hist { consumer with applier } where
  collecting := collecting
  snapshot := sound.snapshot
  checkpoint := by
    intro ckpt isCheckpoint notRestorable
    obtain ⟨applied, covers⟩ := sound.checkpoint ckpt isCheckpoint notRestorable
    exact ⟨Nat.le_trans applied forward, covers⟩
  ready := sound.ready

theorem empty_of_collecting
    {count : Nat} {batch : PendingBatch} (collecting : hist.Collecting count batch)
    (noBatch : ¬ batch.batchSize ≠ 0) : batch = .empty := by
  rcases collecting with empty | ⟨collects, _⟩
  · exact empty
  · have several := collects.several
    omega

theorem seedPartitionProgress_cases
    (state : PartitionApplyState) (appliedOffset : Nat) (appliedVersion : UInt64) :
    (∃ status, state.seedPartitionProgress appliedOffset appliedVersion = (state, .error status)) ∨
    (¬ state.pendingBatch.batchSize ≠ 0 ∧ state.progress.appliedOffset ≤ appliedOffset ∧
      state.seedPartitionProgress appliedOffset appliedVersion =
        ({ state with progress := ⟨appliedOffset, appliedVersion⟩ }, .ok ())) := by
  rw [PartitionApplyState.seedPartitionProgress]
  split
  · exact Or.inl ⟨_, rfl⟩
  · rename_i noBatch
    split
    · exact Or.inl ⟨_, rfl⟩
    · rename_i forward
      exact Or.inr ⟨noBatch, Nat.le_of_not_lt forward, rfl⟩

theorem keeps_seed (applied : PartitionProgress) :
    Keeps (Sound hist)
      (fun consumer => Sound hist consumer ∧ hist.Covers consumer.engine applied.appliedOffset ∧
        Backed opts applied.appliedOffset consumer)
      (seed applied) (fun _ => Standing hist applied) := by
  apply keeps_attempt
  rintro consumer ⟨sound, covers, backed⟩
  split
  · rcases seedPartitionProgress_cases consumer.applier applied.appliedOffset
        applied.appliedVersion with ⟨status, refused⟩ | ⟨noBatch, forward, seeded⟩
    · simp only [refused]
      exact ⟨sound, by simp⟩
    · have later := @Sound.withApplier _ hist consumer sound
        { consumer.applier with progress := ⟨applied.appliedOffset, applied.appliedVersion⟩ }
        (Or.inl (empty_of_collecting sound.collecting noBatch)) forward
      simp only [seeded]
      exact ⟨later, fun _ _ => ⟨⟨later, covers, rfl⟩, backed⟩⟩
  · rename_i same
    rw [not_not] at same
    exact ⟨sound, fun _ _ =>
      ⟨⟨sound, covers, congrArg PartitionProgress.appliedOffset same⟩, backed⟩⟩

theorem snapshotAppends_ok {pid : UInt32} {appends : List EdgeAppend}
    (done : snapshotAppends pid recs = .ok appends) : appends = recs.map buildEdgeAppend := by
  induction recs generalizing appends with
  | nil => exact (ok.inj done).symm
  | cons rec rest ih =>
    rw [snapshotAppends] at done
    split at done
    · simp at done
    · split at done
      · simp at done
      · split at done
        · simp at done
        · rename_i others isOthers
          rw [map_cons, ← ih isOthers]
          exact (ok.inj done).symm

theorem applySnapshotRecordsAtomically_cases
    (state : PartitionApplyState) (eng : TMVEngine) (pid : UInt32)
    (appliedOffset : Nat) (appliedVersion : UInt64) (recs : List ChangeRecord) :
    (∃ later status,
      state.applySnapshotRecordsAtomically eng pid appliedOffset appliedVersion
        recs = (state, later, .error status) ∧
      ∀ dir eid, later.edges dir eid = eng.edges dir eid) ∨
    ∃ later,
      state.applySnapshotRecordsAtomically eng pid appliedOffset appliedVersion
        recs = ({ state with progress := ⟨appliedOffset, appliedVersion⟩ }, later, .ok ()) ∧
      ¬ state.pendingBatch.batchSize ≠ 0 ∧ state.progress.appliedOffset ≤ appliedOffset ∧
      later.Replaces eng pid (recs.map buildEdgeAppend) := by
  rw [PartitionApplyState.applySnapshotRecordsAtomically]
  split
  · exact Or.inl ⟨eng, _, rfl, fun _ _ => rfl⟩
  rename_i noBatch
  split
  · exact Or.inl ⟨eng, _, rfl, fun _ _ => rfl⟩
  rename_i forward
  cases checked : snapshotAppends pid recs with
  | error status => exact Or.inl ⟨eng, status, rfl, fun _ _ => rfl⟩
  | ok appends =>
    rw [snapshotAppends_ok checked]
    rcases eng.replacePartitionEdgesAtomic_cases pid
        (recs.map buildEdgeAppend) with
      ⟨later, replaced, edges⟩ | ⟨later, status, failed, edges⟩
    · exact Or.inr ⟨later, by simp only [replaced], noBatch, Nat.le_of_not_lt forward, edges⟩
    · exact Or.inl ⟨later, status, by simp only [failed], edges⟩

theorem keeps_publish (covered : hist.CoveredBy (recs.map buildEdgeAppend) applied.appliedOffset) :
    Keeps (Sound hist) (fun consumer => Sound hist consumer ∧ consumer.progress.queryReady = false)
      (publish opts applied recs)
      (fun _ consumer => Caught hist applied consumer ∧ consumer.progress.queryReady = false) := by
  apply keeps_attempt
  rintro consumer ⟨sound, notReady⟩
  rcases applySnapshotRecordsAtomically_cases consumer.applier consumer.engine
      opts.partitionId applied.appliedOffset applied.appliedVersion recs with
    ⟨later, status, refused, edges⟩ | ⟨later, published, noBatch, forward, edges⟩
  · have kept := @Sound.withEngine _ _ _ sound later
      fun dir eid edge mem => edges dir eid ▸ mem
    simp only [refused]
    exact ⟨kept, by simp⟩
  · have covers : hist.Covers later applied.appliedOffset := covered.replaced edges
    have sound' : Sound hist { consumer with
          applier :=
            { consumer.applier with
              progress := ⟨applied.appliedOffset, applied.appliedVersion⟩ }
          engine := later } := by
      refine ⟨Or.inl (empty_of_collecting sound.collecting noBatch), sound.snapshot, ?_, ?_⟩
      · intro ckpt isCheckpoint notRestorable
        have older := (sound.checkpoint ckpt isCheckpoint notRestorable).1
        exact ⟨Nat.le_trans older forward, covers.mono (Nat.le_trans older forward)⟩
      · intro isReady
        exact absurd (isReady.symm.trans notReady) Bool.true_eq_false_eq_False
    simp only [published]
    exact ⟨sound', fun _ _ => ⟨⟨sound', covers, rfl⟩, notReady⟩⟩

theorem Caught.withCheckpoint
    {applied : PartitionProgress} (caught : Caught hist applied consumer)
    {new : PartitionCheckpoint} (sameOffset : new.appliedOffset = applied.appliedOffset)
    (backed : Restorable opts new → consumer.progress.queryReady = true →
      ∃ snap ∈ consumer.snapshot, snap.metadata.appliedOffset = consumer.progress.appliedOffset) :
    Caught hist applied { consumer with checkpoint := some new } where
  sound := by
    refine caught.sound.withCheckpoint ?_ backed
    intro _
    rw [sameOffset, caught.offset]
    exact ⟨Nat.le_refl _, caught.covers⟩
  covers := caught.covers
  offset := caught.offset

theorem keeps_saveBackfilled (applied : PartitionProgress) (snapshotId : String) :
    Keeps (Sound hist)
      (fun consumer => Caught hist applied consumer ∧ consumer.progress.queryReady = false)
      (saveBackfilled opts inputs part applied snapshotId) (fun _ => Standing hist applied) := by
  have reported : ∀ {consumer : PartitionConsumer}, consumer.progress.queryReady = false →
      ∀ {conclusion : Prop}, consumer.progress.queryReady = true → conclusion := by
    intro consumer notReady _ isReady
    exact absurd (isReady.symm.trans notReady) Bool.true_eq_false_eq_False
  rw [saveBackfilled]
  split
  · have first : Keeps (Sound hist)
        (fun consumer => Caught hist applied consumer ∧ consumer.progress.queryReady = false)
        (savePartition opts inputs.saveBackfill applied)
        (fun _ consumer => (Caught hist applied consumer ∧
          consumer.progress.queryReady = false) ∧ ∃ snap ∈ consumer.snapshot,
            snap.metadata.appliedOffset = applied.appliedOffset) := by
      apply keeps_savePartition
      · exact fun consumer assumed => assumed.1.sound
      · rintro consumer ⟨caught, notReady⟩
        have later := caught.sound.withSnapshot caught.covers (reported notReady)
        exact ⟨later, ⟨⟨later, caught.covers, caught.offset⟩, notReady⟩, _, rfl, rfl⟩
    apply first.bind
    intro _
    apply keeps_saveCheckpoint
    · exact fun consumer assumed => assumed.1.1.sound
    · rintro consumer ⟨⟨caught, notReady⟩, saved⟩
      have later := @Caught.withCheckpoint _ _ _ _ caught
        ⟨opts.partitionId, part.partitionEpoch, applied.appliedOffset,
          applied.appliedVersion, "tmv-" ++ snapshotId⟩ rfl (fun _ => reported notReady)
      exact ⟨later.sound, later, fun _ _ _ => saved⟩
  · rename_i noStore
    apply keeps_saveCheckpoint
    · exact fun consumer assumed => assumed.1.sound
    · rintro consumer ⟨caught, notReady⟩
      have later := @Caught.withCheckpoint _ _ _ _ caught
        ⟨opts.partitionId, part.partitionEpoch, applied.appliedOffset,
          applied.appliedVersion, snapshotId⟩ rfl (fun _ => reported notReady)
      exact ⟨later.sound, later, fun _ _ restorable => absurd restorable.1 noStore⟩

/-- The source is honest: it sends records of the log, and the snapshots that pass the
checks have the edges of every record up to the high watermark. -/
structure Honest (hist : ChangeHistory opts.partitionId) (inputs : RunInputs) : Prop where
  fetched : ∀ response, .ok response ∈ inputs.fetches → ∀ rec ∈ response.records, rec ∈ hist.records
  streamed : ∀ part loader, inputs.getState = .ok part →
    verify opts part inputs = .ok loader →
      hist.CoveredBy (loader.verifiedRecords.map buildEdgeAppend) part.highWatermark

theorem keeps_backfill (honest : Honest hist inputs) (isState : inputs.getState = .ok part) :
    Keeps (Sound hist) (Sound hist) (backfill opts inputs part) (Standing hist) := by
  rw [backfill]
  apply (keeps_setProgress_notReady (fun _ => id)
    (fun consumer prog notReady sound => sound.notReady notReady) _ _ _).bind
  intro _
  apply keeps_ofExcept_bind
  · exact fun consumer assumed => assumed.1
  · intro loader passed
    apply (keeps_publish (honest.streamed part loader isState passed)).bind
    intro _
    apply (keeps_saveBackfilled _ _).bind
    intro _
    exact keeps_pure fun _ => id

theorem keeps_acceptCheckpoint :
    Keeps (Sound hist) (Sound hist) (acceptCheckpoint opts inputs part)
      (fun accepted consumer => Sound hist consumer ∧ ∀ applied ∈ accepted,
        Standing hist applied consumer) := by
  have refused : Keeps (Sound hist) (Sound hist)
      (pure none : Visits PartitionConsumer Status (Option PartitionProgress))
      (fun accepted consumer => Sound hist consumer ∧ ∀ applied ∈ accepted,
        Standing hist applied consumer) := by
    apply keeps_pure
    intro consumer sound
    exact ⟨sound, by simp⟩
  rw [acceptCheckpoint]
  apply keeps_read_bind
  intro file
  cases inputs.loadCheckpoint with
  | error status => exact refused.imp (fun _ assumed => assumed.1) (fun _ _ => id)
  | ok _ =>
    cases file with
    | none => exact refused.imp (fun _ assumed => assumed.1) (fun _ _ => id)
    | some ckpt =>
      dsimp only
      split
      · apply (keeps_restoreCheckpoint ckpt).bind
        intro restored
        cases restored with
        | false => exact refused.imp (fun _ assumed => assumed.1) (fun _ _ => id)
        | true =>
          rw [if_pos rfl]
          apply Keeps.bind ((keeps_seed _).imp
            (fun consumer assumed => ⟨assumed.1, assumed.2 rfl⟩) (fun _ _ => id))
          intro _
          apply keeps_pure
          rintro consumer ⟨caught, backed⟩
          refine ⟨caught.sound, ?_⟩
          intro applied isApplied
          rw [mem_some_iff] at isApplied
          rw [← isApplied]
          exact ⟨caught, backed⟩
      · exact refused.imp (fun _ assumed => assumed.1) (fun _ _ => id)

theorem Standing.notReady (standing : Standing hist applied consumer)
    {prog : PartitionConsumerProgress} (notReady : prog.queryReady = false) :
    Standing hist applied { consumer with progress := prog } :=
  ⟨⟨standing.1.sound.notReady notReady, standing.1.covers, standing.1.offset⟩, standing.2⟩

theorem keeps_startFrom (honest : Honest hist inputs) (isState : inputs.getState = .ok part)
    (accepted : Option PartitionProgress) :
    Keeps (Sound hist)
      (fun consumer => Sound hist consumer ∧ ∀ applied ∈ accepted, Standing hist applied consumer)
      (startFrom opts inputs part accepted) (Standing hist) := by
  cases accepted with
  | none => exact (keeps_backfill honest isState).imp (fun _ assumed => assumed.1) (fun _ _ => id)
  | some applied =>
    apply keeps_pure
    intro consumer assumed
    exact assumed.2 applied rfl

theorem keeps_deliver
    {rec : ChangeRecord} (mem : rec ∈ hist.records) (applied : PartitionProgress) :
    Keeps (Sound hist) (Standing hist applied) (deliver rec)
      (fun _ consumer => Sound hist consumer ∧
        hist.Covers consumer.engine consumer.applier.progress.appliedOffset ∧
        applied.appliedOffset ≤ consumer.applier.progress.appliedOffset ∧
        Backed opts applied.appliedOffset consumer) := by
  apply keeps_attempt
  rintro consumer ⟨⟨sound, covers, offset⟩, backed⟩
  rw [← offset] at covers
  have res : ∃ later, consumer.applier.apply consumer.engine rec = later ∧
      (∀ dir eid, ∀ edge ∈ consumer.engine.edges dir eid, edge ∈ later.2.1.edges dir eid) ∧
      hist.Covers later.2.1 later.1.progress.appliedOffset ∧
      consumer.applier.progress.appliedOffset ≤ later.1.progress.appliedOffset ∧
      hist.Collecting later.1.progress.appliedOffset later.1.pendingBatch := by
    refine ⟨_, rfl, ?_⟩
    rcases apply_cases mem sound.collecting with stayed | ⟨size, advanced⟩
    · rw [stayed.progress, stayed.engine]
      exact ⟨fun _ _ _ => id, covers, Nat.le_refl _, stayed.collecting⟩
    · obtain ⟨coversLater, kept⟩ := covers.advanced advanced
      refine ⟨kept, coversLater, ?_, Or.inl advanced.collected⟩
      rw [advanced.progress]
      exact Nat.le_add_right _ _
  obtain ⟨⟨applier, eng, status⟩, done, kept, coversLater, forward, collecting⟩ := res
  have later := (sound.withEngine kept).withApplier collecting forward
  simp only [done]
  refine ⟨later, fun _ _ => ⟨later, coversLater, ?_, backed⟩⟩
  rw [← offset]
  exact forward

theorem keeps_applyRecord
    {rec : ChangeRecord} (mem : rec ∈ hist.records) (applied : PartitionProgress) :
    Keeps (Sound hist) (Standing hist applied)
      (applyRecord opts inputs part applied rec) (Standing hist) := by
  have sound : ∀ consumer, Standing hist applied consumer → Sound hist consumer :=
    fun _ standing => standing.1.sound
  rw [applyRecord]
  apply keeps_require_bind sound
  intro _
  apply keeps_require_bind sound
  intro _
  apply (keeps_deliver mem applied).bind
  intro _
  apply keeps_read_bind
  intro durable
  split
  · have saved : Keeps (Sound hist) (fun consumer => (Sound hist consumer ∧
          hist.Covers consumer.engine consumer.applier.progress.appliedOffset ∧
          applied.appliedOffset ≤ consumer.applier.progress.appliedOffset ∧
          Backed opts applied.appliedOffset consumer) ∧
          consumer.applier.progress = durable)
        (saveCheckpoint inputs ⟨opts.partitionId, part.partitionEpoch,
          durable.appliedOffset, durable.appliedVersion, ""⟩)
        (fun _ => Standing hist durable) := by
      apply keeps_saveCheckpoint
      · exact fun consumer assumed => assumed.1.1
      · rintro consumer ⟨⟨sound, covers, _, _⟩, isDurable⟩
        rw [isDurable] at covers
        -- the new checkpoint names no snapshot, so there is nothing to restore
        have plain : ¬ Restorable opts ⟨opts.partitionId, part.partitionEpoch,
            durable.appliedOffset, durable.appliedVersion, ""⟩ := fun restorable => restorable.2 rfl
        have caught : Caught hist durable consumer :=
          ⟨sound, covers, congrArg PartitionProgress.appliedOffset isDurable⟩
        have later := caught.withCheckpoint rfl (fun restorable => absurd restorable plain)
        refine ⟨later.sound, later, ?_⟩
        intro ckpt isCheckpoint restorable
        rw [mem_some_iff] at isCheckpoint
        exact absurd (isCheckpoint ▸ restorable) plain
    apply saved.bind
    intro _
    exact keeps_pure fun _ => id
  · rename_i same
    apply keeps_pure
    rintro consumer ⟨⟨sound, covers, forward, backed⟩, isDurable⟩
    rw [← isDurable] at same
    have offset : consumer.applier.progress.appliedOffset = applied.appliedOffset := by omega
    rw [offset] at covers
    exact ⟨⟨sound, covers, offset⟩, backed⟩

theorem keeps_applyRecords
    (members : ∀ rec ∈ recs, rec ∈ hist.records) (applied : PartitionProgress) :
    Keeps (Sound hist) (Standing hist applied)
      (applyRecords opts inputs part applied recs) (Standing hist) := by
  induction recs generalizing applied with
  | nil => exact keeps_pure fun _ => id
  | cons rec rest ih =>
    rw [forall_mem_cons] at members
    rw [applyRecords]
    apply (keeps_applyRecord members.1 applied).bind
    intro next
    exact ih members.2 next

theorem keeps_catchUp {fetches : List (Except Status FetchResponse)}
    (fetched : ∀ response, .ok response ∈ fetches → ∀ rec ∈ response.records, rec ∈ hist.records)
    (applied : PartitionProgress) (fetchAfterOffset highWatermark : Nat) :
    Keeps (Sound hist) (Standing hist applied)
      (catchUp opts inputs part fetches applied fetchAfterOffset highWatermark)
      (fun reached => Standing hist reached.1) := by
  induction fetches generalizing applied fetchAfterOffset highWatermark with
  | nil => exact keeps_pure fun _ => id
  | cons answer rest ih =>
    have sound : ∀ consumer, Standing hist applied consumer → Sound hist consumer :=
      fun _ standing => standing.1.sound
    rw [catchUp]
    split
    · apply keeps_ofExcept_bind sound
      intro response isResponse
      have members := fetched response (by rw [isResponse]; exact mem_cons_self)
      apply keeps_require_bind sound
      intro _
      apply keeps_require_bind sound
      intro _
      apply keeps_require_bind sound
      intro _
      apply keeps_require_bind sound
      intro _
      apply (keeps_applyRecords members applied).bind
      intro next
      apply Keeps.bind (keeps_setProgress_notReady (fun _ standing => standing.1.sound)
        (fun _ _ notReady standing => standing.notReady notReady) _ _ _)
      intro _
      apply Keeps.imp (ih (fun later mem => fetched later (mem_cons_of_mem _ mem)) next _ _)
      · exact fun _ assumed => assumed.1
      · exact fun _ _ => id
    · exact keeps_pure fun _ => id

theorem keeps_setReady (applied : PartitionProgress) (highWatermark : Nat) :
    Keeps (Sound hist) (Standing hist applied)
      (setProgress opts inputs part .kReady applied highWatermark true)
      (fun _ consumer => Standing hist applied consumer ∧
        consumer.progress.appliedOffset = applied.appliedOffset) := by
  apply keeps_modify
  rintro consumer ⟨⟨sound, covers, offset⟩, backed⟩
  have later : Sound hist { consumer with
        progress :=
          ⟨opts.partitionId, part.partitionEpoch, inputs.leaseEpoch,
            applied.appliedOffset, applied.appliedVersion,
            max consumer.progress.highWatermark highWatermark, .kReady, true, ""⟩ } :=
    ⟨sound.collecting, sound.snapshot, sound.checkpoint, fun _ => ⟨covers, backed⟩⟩
  exact ⟨later, ⟨⟨later, covers, offset⟩, backed⟩, rfl⟩

theorem keeps_saveReady (applied : PartitionProgress) :
    Keeps (Sound hist)
      (fun consumer => Standing hist applied consumer ∧
        consumer.progress.appliedOffset = applied.appliedOffset)
      (saveReady opts inputs part applied) (fun _ => Sound hist) := by
  rw [saveReady]
  split
  · have first : Keeps (Sound hist) (fun consumer => Standing hist applied consumer ∧
          consumer.progress.appliedOffset = applied.appliedOffset)
        (savePartition opts inputs.saveReady applied)
        (fun _ consumer => Caught hist applied consumer ∧
          consumer.progress.appliedOffset = applied.appliedOffset ∧
          ∃ snap ∈ consumer.snapshot, snap.metadata.appliedOffset = applied.appliedOffset) := by
      apply keeps_savePartition
      · exact fun consumer assumed => assumed.1.1.sound
      · rintro consumer ⟨⟨caught, _⟩, reported⟩
        have later := caught.sound.withSnapshot caught.covers (fun _ => reported)
        exact ⟨later, ⟨later, caught.covers, caught.offset⟩, reported, _, rfl, rfl⟩
    apply first.bind
    intro _
    apply keeps_saveCheckpoint
    · exact fun consumer assumed => assumed.1.sound
    · rintro consumer ⟨caught, reported, saved⟩
      have later := @Caught.withCheckpoint _ _ _ _ caught
        ⟨opts.partitionId, part.partitionEpoch, applied.appliedOffset,
          applied.appliedVersion, "tmv-" ++ toString opts.partitionId.toNat ++ "-" ++
            toString applied.appliedVersion.toNat ++ "-" ++ toString applied.appliedOffset⟩ rfl
        (fun _ _ => by
          rw [reported]
          exact saved)
      exact ⟨later.sound, later.sound⟩
  · apply keeps_pure
    exact fun consumer assumed => assumed.1.1.sound

theorem keeps_runOnce (honest : Honest hist inputs) :
    Keeps (Sound hist) (Sound hist) (runOnce opts inputs) (fun _ => Sound hist) := by
  rw [runOnce]
  apply keeps_ofExcept_bind (fun _ => id)
  intro part isState
  apply keeps_require_bind (fun _ => id)
  intro _
  apply keeps_read_bind
  intro wasQueryReady
  have starting : Keeps (Sound hist)
      (fun consumer => Sound hist consumer ∧ consumer.progress.queryReady = wasQueryReady)
      (setStarting opts inputs part wasQueryReady) (fun _ => Sound hist) := by
    rw [setStarting]
    split
    · exact keeps_pure fun _ assumed => assumed.1
    · exact (keeps_setProgress_notReady (fun _ => id)
        (fun consumer prog notReady sound => sound.notReady notReady) _ _ _).imp
        (fun _ assumed => assumed.1) (fun _ _ assumed => assumed.1)
  apply starting.bind
  intro _
  apply keeps_acceptCheckpoint.bind
  intro accepted
  apply (keeps_startFrom honest isState accepted).bind
  intro start
  have catching : Keeps (Sound hist) (Standing hist start)
      (setCatchingUp opts inputs part wasQueryReady start)
      (fun _ => Standing hist start) := by
    rw [setCatchingUp]
    split
    · exact (keeps_setProgress_notReady (fun _ standing => standing.1.sound)
        (fun _ _ notReady standing => standing.notReady notReady) _ _ _).imp
        (fun _ => id) (fun _ _ assumed => assumed.1)
    · exact keeps_pure fun _ => id
  apply catching.bind
  intro _
  apply (keeps_catchUp honest.fetched start _ _).bind
  intro reached
  apply (keeps_setReady reached.1 reached.2).bind
  intro _
  exact keeps_saveReady reached.1

/-! ## Runs with restarts -/

/-- Nothing is lost with the engine: a checkpoint that is past some records names a
snapshot. -/
def RestartsSafely (opts : ConsumerOptions) (file : Option PartitionCheckpoint) : Prop :=
  ∀ ckpt ∈ file, Restorable opts ckpt ∨ ckpt.appliedOffset = 0

/-- The source is honest, and the process ends only where it restarts safely. -/
def Allowed (hist : ChangeHistory opts.partitionId) (consumer : PartitionConsumer)
    (event : Event) : Prop :=
  Honest hist event.inputs ∧
    match event with
    | .pass _ => True
    | .crash inputs steps =>
      RestartsSafely opts (consumer.stopped opts inputs steps).checkpoint

section

variable (sound : Sound hist consumer)
include sound

theorem sound_stopped (honest : Honest hist inputs) (steps : Nat) :
    Sound hist (consumer.stopped opts inputs steps) := by
  have visited := (keeps_runOnce honest consumer sound).1
  rw [stopped, getLastD_eq_getLast?]
  cases last : ((runOnce opts inputs consumer).1.take steps).getLast? with
  | none => exact sound
  | some seen => exact visited seen (mem_of_mem_take (mem_of_getLast? last))

theorem sound_restart (safe : RestartsSafely opts consumer.checkpoint) :
    Sound hist (restart opts consumer.checkpoint consumer.snapshot) where
  collecting := Or.inl rfl
  snapshot := sound.snapshot
  checkpoint := by
    intro ckpt isCheckpoint notRestorable
    rcases safe ckpt isCheckpoint with restorable | atStart
    · exact absurd restorable notRestorable
    · rw [atStart]
      exact ⟨Nat.zero_le _, ChangeHistory.covers_zero _⟩
  ready := by
    intro isReady
    exact absurd isReady Bool.false_ne_true

theorem sound_step {event : Event}
    (allowed : Allowed hist consumer event) : Sound hist (consumer.step opts event) := by
  cases event with
  | pass inputs =>
    have honest : Honest hist inputs := allowed.1
    have final := (keeps_runOnce honest consumer sound).2
    rw [step, workerPass]
    split
    · rename_i later done
      rw [done] at final
      exact final
    · rename_i later _ _ done
      rw [done] at final
      exact final
    · rename_i later status _ done
      rw [done] at final
      exact Sound.notReady final rfl
  | crash inputs steps => exact sound_restart (sound_stopped sound allowed.1 steps) allowed.2

end

/-- As long as the process only ends where it restarts safely, what a ready consumer
reports as applied is in the engine, at the end of a run and in every state that the next
call goes through. -/
theorem ready_covers (hist : ChangeHistory opts.partitionId) {events : List Event}
    (allowed : Admissible (step opts) (Allowed hist) (restart opts none none) events)
    {inputs : RunInputs} (honest : Honest hist inputs) :
    ∀ seen ∈ run (step opts) (restart opts none none) events ::
        (runOnce opts inputs (run (step opts) (restart opts none none) events)).1,
      seen.progress.queryReady = true → hist.Covers seen.engine seen.progress.appliedOffset := by
  have start : Sound hist (restart opts none none) :=
    ⟨Or.inl rfl, by simp [restart], by simp [restart],
      fun isReady => absurd isReady Bool.false_ne_true⟩
  have sound := @invariant_run _ _ (step opts) (Allowed hist) (Sound hist)
    (fun _ _ before permitted => sound_step before permitted) _ _ start allowed
  rw [forall_mem_cons]
  refine ⟨fun isReady => (sound.ready isReady).1, ?_⟩
  intro seen mem isReady
  exact (((keeps_runOnce honest _ sound).1 seen mem).ready isReady).1

end Readiness

section Lost

def lostRecord : ChangeRecord :=
  ⟨3, 1, 1, 9, 7, 0, 1, 1, 4, 1, 3, 3, .create, 5, 0, []⟩

def lostOptions : ConsumerOptions :=
  ⟨3, true, 4, 4, fun _ => 0⟩

def lostHistory : ChangeHistory lostOptions.partitionId where
  records := [lostRecord]
  offsets := by decide
  own := by decide
  supported := by decide
  indices := by decide
  batches := by decide

def emptyInputs : RunInputs :=
  ⟨1, 1, .ok ⟨1, 1, 0, 0⟩, .ok (), .ok (), [⟨3, 1, 0, 0, [], true, 0⟩], .ok (), [],
    fun _ => .saved, .saved, .saved⟩

def recordInputs : RunInputs :=
  ⟨1, 1, .ok ⟨1, 1, 1, 9⟩, .ok (), .ok (), [], .ok (), [.ok ⟨3, 1, 1, 1, [lostRecord]⟩],
    fun _ => .saved, .saved, .saved⟩

theorem honest_emptyInputs : Honest lostHistory emptyInputs where
  fetched := by simp [emptyInputs]
  streamed := by
    intro part loader isState _ rec mem lt
    have state : part = ⟨1, 1, 0, 0⟩ := (ok.inj isState).symm
    have index := (lostHistory.indices rec mem).2
    rw [state] at lt
    dsimp only at lt
    omega

theorem honest_recordInputs : Honest lostHistory recordInputs where
  fetched := by
    intro response mem rec isRecord
    simp only [recordInputs, mem_singleton, ok.injEq] at mem
    rw [mem] at isRecord
    exact isRecord
  streamed := by
    intro part loader isState passed
    have state : part = ⟨1, 1, 1, 9⟩ := (ok.inj isState).symm
    rw [state] at passed
    simp [verify, onBatches, recordInputs] at passed

/-- The process ends right after the checkpoint of the record was written; the next one
reports the record as applied, and its engine is empty. -/
theorem ready_without_record :
    ∃ events : List Event, (∀ event ∈ events, Honest lostHistory event.inputs) ∧
      let consumer := run (step lostOptions) (restart lostOptions none none) events
      consumer.progress.queryReady = true ∧ consumer.progress.appliedOffset = 1 ∧
        ¬ lostHistory.Covers consumer.engine 1 := by
  refine ⟨[.pass emptyInputs, .crash recordInputs 5, .pass recordInputs], ?_, ?_, ?_, ?_⟩
  · simp only [forall_mem_cons]
    exact ⟨honest_emptyInputs, honest_recordInputs, honest_recordInputs, by simp⟩
  · decide +kernel
  · decide +kernel
  · intro covers
    have edge := covers lostRecord (by decide) (by decide) ⟨1, .kOut, ⟨4, 5, maxTime, 0, 3, 3⟩⟩
      (by decide)
    revert edge
    decide +kernel

/-- Without a restart the record is there when the partition is ready. -/
theorem ready_covers_record :
    (∃ seen ∈ (runOnce lostOptions recordInputs (run (step lostOptions)
        (restart lostOptions none none) [.pass emptyInputs])).1,
      seen.progress.queryReady = true ∧ seen.progress.appliedOffset = 1) ∧
    ∀ seen ∈ run (step lostOptions) (restart lostOptions none none) [.pass emptyInputs] ::
        (runOnce lostOptions recordInputs (run (step lostOptions)
          (restart lostOptions none none) [.pass emptyInputs])).1,
      seen.progress.queryReady = true →
        lostHistory.Covers seen.engine seen.progress.appliedOffset := by
  refine ⟨?_, ?_⟩
  · decide +kernel
  · have allowed : Admissible (step lostOptions) (Allowed lostHistory)
        (restart lostOptions none none) [.pass emptyInputs] :=
      ⟨⟨honest_emptyInputs, trivial⟩, trivial⟩
    exact ready_covers lostHistory allowed honest_recordInputs

end Lost

end PartitionConsumer

end CedarGraph
