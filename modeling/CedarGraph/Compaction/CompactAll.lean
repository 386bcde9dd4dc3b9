import CedarGraph.Compaction.Store

/-!
# Compacting everything

`CompactAll` runs compactions until none is picked. One that writes a row moves a file to the
next level, so this cannot go on forever. One that writes nothing is reported as successful and
is picked again.
-/

namespace CedarGraph

open List Levels ZoneSstMeta

variable (maxLevels : Nat)

/-- Every file counts by the number of levels it can still pass. -/
def Levels.weight (levels : Levels) : Nat :=
  ∑ level ∈ Finset.range levels.length, (maxLevels - level) * (levels.files level).length

theorem Levels.weight_setFiles {levels : Levels} {level : Nat} (lt : level < levels.length)
    (files : List ZoneSstMeta) :
    (levels.setFiles level files).weight maxLevels +
        (maxLevels - level) * (levels.files level).length =
      levels.weight maxLevels + (maxLevels - level) * files.length := by
  have isLevel : level ∈ Finset.range levels.length := Finset.mem_range.mpr lt
  have sameLength : (levels.setFiles level files).length = levels.length := length_set
  rw [weight, weight, sameLength, ← Finset.add_sum_erase _ _ isLevel,
    ← Finset.add_sum_erase _ (fun level => (maxLevels - level) * (levels.files level).length)
      isLevel, files_setFiles lt, if_pos rfl]
  have others : ∀ other ∈ (Finset.range levels.length).erase level,
      (maxLevels - other) * ((levels.setFiles level files).files other).length =
        (maxLevels - other) * (levels.files other).length := by
    intro other mem
    rw [files_setFiles lt, if_neg (Finset.ne_of_mem_erase mem)]
  rw [Finset.sum_congr rfl others]
  omega

namespace CompactionEngine

theorem weight_remove (eng : CompactionEngine) (level number : Nat) :
    (eng.removeFileMetadataOnly level number).levels.weight maxLevels +
        (if ∃ file ∈ eng.levels.files level, file.fileNumber = number then maxLevels - level
        else 0) =
      eng.levels.weight maxLevels := by
  rw [removeFileMetadataOnly]
  cases found : (eng.levels.files level).find? fun file => decide (file.fileNumber = number) with
  | none =>
    rw [if_neg]
    · rfl
    · rintro ⟨file, mem, same⟩
      exact find?_eq_none.mp found file mem (decide_eq_true same)
  | some file =>
    have mem := mem_of_find?_eq_some found
    have same : file.fileNumber = number := by simpa using find?_some found
    have lt : level < eng.levels.length := by
      by_contra outside
      rw [files_eq_nil (Nat.le_of_not_lt outside)] at mem
      cases mem
    have shorter : ((eng.levels.files level).eraseP
        fun file => decide (file.fileNumber = number)).length =
          (eng.levels.files level).length - 1 :=
      length_eraseP_of_mem mem (decide_eq_true same)
    have positive := length_pos_of_mem mem
    have changed := weight_setFiles maxLevels lt
      ((eng.levels.files level).eraseP fun file => decide (file.fileNumber = number))
    have split : (maxLevels - level) * (eng.levels.files level).length =
        (maxLevels - level) * ((eng.levels.files level).length - 1) + (maxLevels - level) := by
      rw [← Nat.mul_succ, Nat.succ_eq_add_one, Nat.sub_add_cancel positive]
    rw [shorter] at changed
    rw [if_pos ⟨file, mem, same⟩]
    dsimp only
    omega

theorem weight_foldl_remove_le (eng : CompactionEngine) (level : Nat) (numbers : List Nat) :
    (numbers.foldl (fun cur => cur.removeFileMetadataOnly level)
      eng).levels.weight maxLevels ≤ eng.levels.weight maxLevels := by
  induction numbers generalizing eng with
  | nil => exact le_rfl
  | cons number rest ih =>
    have first := eng.weight_remove maxLevels level number
    have later := ih (eng.removeFileMetadataOnly level number)
    rw [foldl_cons]
    omega

end CompactionEngine

namespace CompactionTask

theorem weight_pushOutput_le (task : CompactionTask) (output : ZoneSstMeta)
    (eng : CompactionEngine) :
    (task.pushOutput output eng).levels.weight maxLevels ≤
      eng.levels.weight maxLevels + (maxLevels - task.outputLevel) := by
  by_cases lt : task.outputLevel < eng.levels.length
  · have changed := weight_setFiles maxLevels lt (eng.levels.files task.outputLevel ++ [output])
    rw [length_append, length_singleton, Nat.mul_add, Nat.mul_one] at changed
    rw [pushOutput]
    dsimp only
    omega
  · rw [pushOutput, setFiles, set_eq_of_length_le (Nat.le_of_not_lt lt)]
    exact Nat.le_add_right _ _

theorem mem_files_pushOutput
    {task : CompactionTask} {output file : ZoneSstMeta} {eng : CompactionEngine} {level : Nat}
    (mem : file ∈ eng.levels.files level) :
    file ∈ (task.pushOutput output eng).levels.files level := by
  by_cases lt : task.outputLevel < eng.levels.length
  · rw [files_pushOutput lt]
    exact mem_append_left _ mem
  · rw [pushOutput, setFiles, set_eq_of_length_le (Nat.le_of_not_lt lt)]
    exact mem

/-- The metadata update puts one file on the output level and takes at least one away from the
level above it. -/
theorem weight_moveMetadata_lt {maxLevels : Nat} {task : CompactionTask} {eng : CompactionEngine}
    (output : ZoneSstMeta) (below : task.outputLevel = task.inputLevel + 1)
    (lt : task.outputLevel < maxLevels) (someInput : task.inputFiles ≠ [])
    (inputs : ∀ file ∈ task.inputFiles, file ∈ eng.levels.files task.inputLevel) :
    (task.moveMetadata output eng).levels.weight maxLevels < eng.levels.weight maxLevels := by
  obtain ⟨first, rest, isFirst⟩ := exists_cons_of_ne_nil someInput
  have listed : ∃ file ∈ (task.pushOutput output eng).levels.files task.inputLevel,
      file.fileNumber = first.fileNumber := by
    refine ⟨first, mem_files_pushOutput (inputs first ?_), rfl⟩
    rw [isFirst]
    exact mem_cons_self
  have pushed := task.weight_pushOutput_le maxLevels output eng
  have removed := (task.pushOutput output eng).weight_remove maxLevels task.inputLevel
    first.fileNumber
  have others := ((task.pushOutput output eng).removeFileMetadataOnly task.inputLevel
    first.fileNumber).weight_foldl_remove_le maxLevels task.inputLevel
    (rest.map fileNumber)
  have overlaps := CompactionEngine.weight_foldl_remove_le maxLevels
    ((task.inputFiles.map fileNumber).foldl (fun cur => cur.removeFileMetadataOnly task.inputLevel)
      (task.pushOutput output eng)) task.outputLevel
    (task.overlappingFiles.map fileNumber)
  rw [if_pos listed] at removed
  rw [isFirst, map_cons, foldl_cons] at overlaps
  rw [moveMetadata, isFirst, map_cons, foldl_cons]
  omega

end CompactionTask

namespace CompactionStore

section CompactAll

variable (opts : CompactionOptions) (outs : Nat → CompactionOutcome)

/-- The store after `PickNextCompaction`, and its task if it belongs to the level of the outer
loop. -/
def pickAt (level : Nat) (store : CompactionStore) : CompactionStore × Option CompactionTask :=
  let choice := store.engine.pickNextCompaction opts.config opts.sizeSort
  ({ store with engine := choice.1 }, choice.2.filter fun task => decide (task.inputLevel = level))

/-- One iteration of the inner loop.  The environment answers by the number of the output. -/
def compactAllStep (state : Nat × CompactionStore) :
    (CompactionStore × Except Status Unit) ⊕ (Nat × CompactionStore) :=
  if state.1 < opts.config.maxLevels - 1 then
    match state.2.pickAt opts state.1 with
    | (picked, none) => .inr (state.1 + 1, picked)
    | (picked, some task) =>
      match picked.executeCompaction opts task (outs state.2.nextFileNumber) with
      | (after, .ok ()) => .inr (state.1, after)
      | (after, .error status) => .inl (after, .error status)
  else .inl (state.2, .ok ())

def compactAll : Nat → Nat × CompactionStore → Option (CompactionStore × Except Status Unit)
  | 0, _ => none
  | fuel + 1, state =>
    match compactAllStep opts outs state with
    | .inl res => some res
    | .inr next => compactAll fuel next

def CompactAllTerminates (store : CompactionStore) : Prop :=
  ∃ fuel, (compactAll opts outs fuel (0, store)).isSome = true

def Reaches : Nat × CompactionStore → Nat × CompactionStore → Prop :=
  Relation.ReflTransGen fun before after => compactAllStep opts outs before = .inr after

/-- The compaction that the next iteration executes, if any, has an input and writes a row. -/
def Advances (state : Nat × CompactionStore) : Prop :=
  state.1 < opts.config.maxLevels - 1 →
    ∀ task ∈ (state.2.pickAt opts state.1).2,
      task.inputFiles ≠ [] ∧
        (state.2.compactedFile opts task (outs state.2.nextFileNumber)).rows ≠ []

end CompactAll

section Ends

variable {opts : CompactionOptions} {outs : Nat → CompactionOutcome}
  {state next : Nat × CompactionStore}

variable {store : CompactionStore} {task : CompactionTask} {out : CompactionOutcome}

theorem picked_of_pickAt {level : Nat} (picks : task ∈ (store.pickAt opts level).2) :
    task.inputLevel = level ∧
      store.engine.pickNextCompaction opts.config opts.sizeSort =
        ((store.pickAt opts level).1.engine, some task) := by
  rw [pickAt, Option.mem_def, Option.filter_eq_some_iff] at picks
  exact ⟨of_decide_eq_true picks.2, Prod.ext rfl picks.1⟩

theorem compactAllStep_cases (goesOn : compactAllStep opts outs state = .inr next) :
    state.1 < opts.config.maxLevels - 1 ∧
      (next = (state.1 + 1, (state.2.pickAt opts state.1).1) ∨
      ∃ task ∈ (state.2.pickAt opts state.1).2, ∃ after,
        (state.2.pickAt opts state.1).1.executeCompaction opts task
          (outs state.2.nextFileNumber) = (after, .ok ()) ∧
        next = (state.1, after)) := by
  rw [compactAllStep] at goesOn
  split at goesOn
  · rename_i lt
    refine ⟨lt, ?_⟩
    cases choice : state.2.pickAt opts state.1 with
    | mk picked chosen =>
      rw [choice] at goesOn
      cases chosen with
      | none => exact Or.inl (Sum.inr.inj goesOn).symm
      | some task =>
        dsimp only at goesOn
        split at goesOn
        · rename_i after res
          exact Or.inr ⟨task, rfl, after, res, (Sum.inr.inj goesOn).symm⟩
        · cases goesOn
  · cases goesOn

theorem complete_of_ok {store after : CompactionStore}
    (res : store.doZoneCompaction opts task out = (after, .ok ())) : out.output = .complete := by
  rw [doZoneCompaction] at res
  cases output : out.output with
  | complete => rfl
  | notCreated status =>
    rw [output] at res
    cases res
  | incomplete status =>
    rw [output] at res
    cases res

theorem engine_of_ok {store after : CompactionStore}
    (res : store.doZoneCompaction opts task out = (after, .ok ()))
    (someRows : (store.compactedFile opts task out).rows ≠ []) :
    after.engine = (store.moved opts task out).engine := by
  have complete := complete_of_ok res
  rcases doZoneCompaction_cases with ⟨incomplete | noRows, -⟩ | ⟨-, -, ⟨-, failed⟩ | ⟨-, done⟩⟩
  · exact absurd complete incomplete
  · exact absurd noRows someRows
  · rw [failed] at res
    rw [(Prod.mk.inj res).1]
  · rw [done] at res
    rw [← (Prod.mk.inj res).1]
    rfl

theorem doZoneCompaction_of_no_rows (complete : out.output = .complete)
    (noRows : (store.compactedFile opts task out).rows = []) :
    ∃ entry, store.doZoneCompaction opts task out = (store.abandoned entry, .ok ()) := by
  have isOk : (store.doZoneCompaction opts task out).2 = .ok () := by
    rw [doZoneCompaction, complete]
    dsimp only
    rw [noRows, isEmpty_nil, Bool.true_or, if_pos rfl]
  rcases doZoneCompaction_cases with ⟨-, entry, res⟩ | ⟨-, someRows, -⟩
  · exact ⟨entry, Prod.ext res isOk⟩
  · exact absurd noRows someRows

def marked (store : CompactionStore) (task : CompactionTask) : CompactionStore :=
  { store with engine := store.engine.mark task.files }

theorem executeCompaction_ok {store after : CompactionStore}
    (res : store.executeCompaction opts task out = (after, .ok ())) :
    ∃ done, (store.marked task).doZoneCompaction opts task out = (done, .ok ()) ∧
      after = { done with engine := done.engine.unmark task.files } := by
  rw [executeCompaction] at res
  exact ⟨_, Prod.ext rfl (Prod.mk.inj res).2, (Prod.mk.inj res).1.symm⟩

/-- What is left to do: the levels of the outer loop and the files that can be moved. -/
def remaining (opts : CompactionOptions) (state : Nat × CompactionStore) : Nat :=
  (opts.config.maxLevels - state.1) + state.2.engine.levels.weight opts.config.maxLevels

theorem remaining_lt (advances : Advances opts outs state)
    (goesOn : compactAllStep opts outs state = .inr next) :
    remaining opts next < remaining opts state := by
  obtain ⟨lt, nextLevel | ⟨task, picks, after, res, again⟩⟩ := compactAllStep_cases goesOn
  · have sameLevels : (state.2.pickAt opts state.1).1.engine.levels = state.2.engine.levels :=
      CompactionEngine.levels_pickNextCompaction
    rw [nextLevel, remaining, remaining, sameLevels]
    dsimp only
    omega
  · obtain ⟨someInput, someRows⟩ := advances lt task picks
    have picked := CompactionEngine.picked_of_pickNextCompaction (picked_of_pickAt picks).2
    obtain ⟨done, compacted, isAfter⟩ := executeCompaction_ok res
    have moved := engine_of_ok compacted someRows
    have inputs : ∀ file ∈ task.inputFiles,
        file ∈ ((state.2.pickAt opts state.1).1.marked task).engine.levels.files
          task.inputLevel := by
      intro file mem
      have listed := picked.inputs file mem
      rwa [← picked.levels] at listed
    have afterLevels : after.engine.levels = done.engine.levels := by
      rw [isAfter]
      rfl
    have sameLevels : ((state.2.pickAt opts state.1).1.marked task).engine.levels =
        state.2.engine.levels := picked.levels
    rw [again, remaining, remaining, afterLevels, moved, ← sameLevels]
    exact Nat.add_lt_add_left (CompactionTask.weight_moveMetadata_lt _ picked.below picked.inside
      someInput inputs) _

theorem terminates_of_advances
    (advances : ∀ other, Reaches opts outs state other → Advances opts outs other) :
    ∃ fuel, (compactAll opts outs fuel state).isSome = true := by
  induction bound : remaining opts state using Nat.strong_induction_on generalizing state with
  | _ bound ih =>
    cases step : compactAllStep opts outs state with
    | inl res =>
      refine ⟨1, ?_⟩
      rw [compactAll, step]
      rfl
    | inr next =>
      have less := remaining_lt (advances state Relation.ReflTransGen.refl) step
      obtain ⟨fuel, ends⟩ := ih _ (bound ▸ less)
        (fun other later => advances other (Relation.ReflTransGen.head step later)) rfl
      refine ⟨fuel + 1, ?_⟩
      rw [compactAll, step]
      exact ends

theorem unmark_mark_compacting
    (eng : CompactionEngine) (files : List ZoneSstMeta) :
    ((eng.mark files).unmark files).compacting =
      eng.compacting.filter fun number =>
        !decide (number ∈ files.map fileNumber) := by
  have own : (files.map fileNumber).filter (fun number =>
      !decide (number ∈ files.map fileNumber)) = [] := by
    refine filter_eq_nil_iff.mpr ?_
    intro number mem
    simpa using mem
  rw [CompactionEngine.unmark, CompactionEngine.mark]
  dsimp only
  rw [filter_append, own, append_nil]

theorem pickNextCompaction_again
    {config : SizeTieredConfig} {sizeSort : SizeSort} {eng next : CompactionEngine}
    (picks : eng.pickNextCompaction config sizeSort = (next, some task)) :
    (((next.mark task.files).unmark task.files).pickNextCompaction config sizeSort).2 =
      some task := by
  have picked := CompactionEngine.picked_of_pickNextCompaction picks
  have compacting := unmark_mark_compacting next task.files
  have levels : ((next.mark task.files).unmark task.files).levels = eng.levels := picked.levels
  rw [CompactionEngine.pickNextCompaction] at picks
  by_cases level0 : eng.picksLevel0 = true
  · -- fewer files are marked than before the pick, so level 0 is taken again
    rw [if_pos level0] at picks
    obtain ⟨isNext, isTask⟩ := Prod.mk.inj picks
    have notBusy : ∀ file, ((next.mark task.files).unmark task.files).busy file = true →
        eng.busy file = true := by
      intro file busy
      rw [CompactionEngine.busy, decide_eq_true_eq, compacting, mem_filter, ← isNext,
        CompactionEngine.mark, mem_append] at busy
      rcases busy with ⟨old | ofTask, free⟩
      · exact decide_eq_true old
      · rw [Option.some.inj isTask] at ofTask
        have inFiles : file.fileNumber ∈ task.files.map fileNumber := by
          rw [CompactionTask.files, map_append]
          exact mem_append_left _ ofTask
        simp [inFiles] at free
    have again : ((next.mark task.files).unmark task.files).picksLevel0 = true := by
      rw [CompactionEngine.picksLevel0, Bool.and_eq_true, Bool.not_eq_true', any_eq_false]
        at level0 ⊢
      rw [levels]
      exact ⟨level0.1, fun file mem busy => level0.2 file mem (notBusy file busy)⟩
    rw [CompactionEngine.pickNextCompaction, if_pos again, ← isTask, CompactionEngine.taskOf,
      CompactionEngine.taskOf, levels]
  · have same : (next.mark task.files).unmark task.files = eng := by
      rw [if_neg level0] at picks
      cases found : (range' 1 (config.maxLevels - 2)).find?
          (eng.picksLevel config sizeSort) with
      | none =>
        rw [found] at picks
        cases picks
      | some level =>
        rw [found] at picks
        obtain ⟨isNext, isTask⟩ := Prod.mk.inj picks
        have notZero : task.inputLevel ≠ 0 := by
          rw [← Option.some.inj isTask]
          have inRange := mem_range'_1.mp (mem_of_find?_eq_some found)
          exact Nat.pos_iff_ne_zero.mp inRange.1
        have free : ∀ number ∈ eng.compacting, number ∉ task.files.map fileNumber := by
          intro number isMarked inTask
          obtain ⟨file, mem, isNumber⟩ := mem_map.mp inTask
          rw [← isNumber] at isMarked
          rcases mem_append.mp mem with isInput | isOverlap
          · exact picked.inputsFree file isInput isMarked
          · exact picked.overlappingFree notZero file isOverlap isMarked
        subst isNext
        have sameMarks := filter_eq_self.mpr fun number isMarked =>
          (by simpa using free number isMarked :
            (!decide (number ∈ task.files.map fileNumber)) = true)
        rw [← compacting] at sameMarks
        calc (eng.mark task.files).unmark task.files
            = { eng with
                compacting := ((eng.mark task.files).unmark task.files).compacting } := rfl
          _ = eng := by rw [sameMarks]
    rw [same, CompactionEngine.pickNextCompaction]
    exact congrArg Prod.snd picks

/-- The next iteration executes a compaction that writes nothing. -/
structure Stuck (opts : CompactionOptions) (out : CompactionOutcome)
    (state : Nat × CompactionStore) (task : CompactionTask) : Prop where
  inside : state.1 < opts.config.maxLevels - 1
  picks : task ∈ (state.2.pickAt opts state.1).2
  noRows : (state.2.compactedFile opts task out).rows = []
  counted : ∀ file ∈ state.2.engine.levels.all, file.fileNumber < state.2.nextFileNumber

theorem compactedFile_abandoned (entry : DiskEntry)
    (counted : ∀ file ∈ task.files, file.fileNumber < store.nextFileNumber) :
    (store.abandoned entry).compactedFile opts task out = store.compactedFile opts task out := by
  have sameStreams : (store.abandoned entry).openStreams out.opens task.allInputs =
      store.openStreams out.opens task.allInputs := by
    rw [openStreams, openStreams, abandoned]
    refine congrArg (filter _) (filterMap_congr ?_)
    intro file mem
    have old := counted file (task.allInputs_spec.1.subset mem)
    dsimp only
    rw [Function.update_of_ne (Nat.ne_of_lt old)]
  rw [compactedFile, compactedFile, sameStreams]
  rfl

theorem stuck_step (complete : out.output = .complete) (stuck : Stuck opts out state task) :
    ∃ next, compactAllStep opts (fun _ => out) state = .inr next ∧ Stuck opts out next task := by
  obtain ⟨sameLevel, picks⟩ := picked_of_pickAt stuck.picks
  have picked := CompactionEngine.picked_of_pickNextCompaction picks
  have res : ∃ entry, ((state.2.pickAt opts state.1).1.marked task).doZoneCompaction opts
      task out = (((state.2.pickAt opts state.1).1.marked task).abandoned entry, .ok ()) :=
    doZoneCompaction_of_no_rows complete stuck.noRows
  obtain ⟨entry, res⟩ := res
  have counted : ∀ file ∈ task.files, file.fileNumber < state.2.nextFileNumber := by
    intro file mem
    exact stuck.counted file (picked.mem_all mem)
  have executed : (state.2.pickAt opts state.1).1.executeCompaction opts task out =
      ({ state.2.abandoned entry with
        engine := ((state.2.pickAt opts state.1).1.engine.mark task.files).unmark task.files },
        .ok ()) := by
    rw [executeCompaction]
    dsimp only
    rw [marked] at res
    rw [res]
    rfl
  have choice : state.2.pickAt opts state.1 =
      ((state.2.pickAt opts state.1).1, some task) := Prod.ext rfl stuck.picks
  refine ⟨(state.1, { state.2.abandoned entry with
    engine := ((state.2.pickAt opts state.1).1.engine.mark task.files).unmark task.files }),
    ?_, stuck.inside, ?_, ?_, ?_⟩
  · rw [compactAllStep, if_pos stuck.inside, choice]
    dsimp only
    rw [executed]
  · rw [pickAt, Option.mem_def]
    dsimp only
    rw [pickNextCompaction_again picks, Option.filter_some, if_pos (decide_eq_true sameLevel)]
  · have sameFile : (state.2.abandoned entry).compactedFile opts task out =
        state.2.compactedFile opts task out := compactedFile_abandoned entry counted
    exact (congrArg SstFile.rows sameFile).trans stuck.noRows
  · intro file mem
    have listed : file ∈ state.2.engine.levels.all := picked.levels ▸ mem
    exact Nat.lt_succ_of_lt (stuck.counted file listed)

theorem compactAll_eq_none_of_stuck (complete : out.output = .complete)
    (stuck : Stuck opts out state task) (fuel : Nat) :
    compactAll opts (fun _ => out) fuel state = none := by
  induction fuel generalizing state with
  | zero => rfl
  | succ fuel ih =>
    obtain ⟨next, step, again⟩ := stuck_step complete stuck
    rw [compactAll, step]
    exact ih again

theorem terminates_of_reaches (reaches : Reaches opts outs state next)
    (ends : ∃ fuel, (compactAll opts outs fuel state).isSome = true) :
    ∃ fuel, (compactAll opts outs fuel next).isSome = true := by
  induction reaches using Relation.ReflTransGen.head_induction_on with
  | refl => exact ends
  | head step _ ih =>
    refine ih ?_
    obtain ⟨fuel, isEnd⟩ := ends
    cases fuel with
    | zero => cases isEnd
    | succ fuel =>
      rw [compactAll, step] at isEnd
      exact ⟨fuel, isEnd⟩

end Ends

/-- `CompactAll` ends if every compaction it executes has an input and writes a row, whatever the
environment does.  It does not end if it comes to a compaction that writes nothing and the
environment keeps to its answers. -/
theorem compactAll_terminates (opts : CompactionOptions) (store : CompactionStore) :
    (∀ outs, (∀ state, Reaches opts outs (0, store) state → Advances opts outs state) →
      CompactAllTerminates opts outs store) ∧
    (∀ out state task, out.output = .complete →
      Reaches opts (fun _ => out) (0, store) state → Stuck opts out state task →
      ¬ CompactAllTerminates opts (fun _ => out) store) := by
  refine ⟨fun outs => terminates_of_advances, ?_⟩
  intro out state task complete reaches stuck ends
  obtain ⟨fuel, isEnd⟩ := terminates_of_reaches reaches ends
  rw [compactAll_eq_none_of_stuck complete stuck] at isEnd
  cases isEnd

theorem compactAll_terminates_two_files :
    let store := ((CompactionStore.init .default 0).flush .default
      [⟨.vertex 1 0 10 0 0 0 0, ⟨16⟩, 7⟩] none .complete).flush .default
      [⟨.vertex 2 0 10 0 0 0 0, ⟨32⟩, 7⟩] none .complete
    CompactAllTerminates .default (fun _ => .success) store := by
  intro store
  let next := fun state => (compactAllStep .default (fun _ => .success) state).elim
    (fun _ => state) id
  -- one compaction and six levels without a task
  have last : (compactAllStep .default (fun _ => .success) (next^[7] (0, store))).isLeft := by
    decide +kernel
  have reached : ∀ state, Reaches .default (fun _ => .success) (0, store) state →
      ∃ steps < 8, next^[steps] (0, store) = state := by
    intro state reaches
    induction reaches with
    | refl => exact ⟨0, by decide, rfl⟩
    | tail _ step ih =>
      obtain ⟨steps, bound, rfl⟩ := ih
      have before : steps ≠ 7 := by
        rintro rfl
        rw [step] at last
        cases last
      refine ⟨steps + 1, by omega, ?_⟩
      rw [Function.iterate_succ_apply']
      show (compactAllStep _ _ _).elim _ _ = _
      rw [step]
      rfl
  have advances : ∀ steps < 8, Advances .default (fun _ => .success) (next^[steps] (0, store)) := by
    simp only [Advances]
    decide +kernel
  refine (compactAll_terminates .default store).1 _ ?_
  intro state reaches
  obtain ⟨steps, bound, rfl⟩ := reached state reaches
  exact advances steps bound

/-- Two files of level 0 that cannot be opened are compacted again and again. -/
theorem compactAll_repeats_unreadable :
    let first : List Row := [⟨.vertex 1 0 10 0 0 0 0, ⟨16⟩, 7⟩]
    let second : List Row := [⟨.vertex 2 0 10 0 0 0 0, ⟨32⟩, 7⟩]
    let store := ((CompactionStore.init .default 0).flush .default first none
      .complete).flush .default second none .complete
    let out : CompactionOutcome := { CompactionOutcome.success with opens := fun _ => false }
    1 ≤ CompactionOptions.default.config.maxMergeWidth ∧
      ¬ CompactAllTerminates .default (fun _ => out) store := by
  intro first second store out
  have stuck : Stuck .default out (0, store) ⟨0, 1, store.engine.levels.files 0, []⟩ :=
    ⟨by decide +kernel, by decide +kernel, by decide +kernel, by decide +kernel⟩
  refine ⟨by decide +kernel, ?_⟩
  rintro ⟨fuel, isEnd⟩
  rw [compactAll_eq_none_of_stuck rfl stuck] at isEnd
  cases isEnd

end CompactionStore

end CedarGraph
