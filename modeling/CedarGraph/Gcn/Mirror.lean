import CedarGraph.Gcn.Watermark
import CedarGraph.Lib.Runs

/-!
# The two views of an edge

An edge with its reverse stands in the list of its source and in that of its target. The chunks
of the two lists share edges with different neighbours, so a chunk can be skipped or dropped in
one of them only; otherwise the views agree.
-/

namespace CedarGraph

open List Runs

namespace TMVEngine

variable {eng : TMVEngine} {sort : List TMVEdge → List TMVEdge} {eid target : UInt64}
  {dir : Direction}

def times (eng : TMVEngine) (eid : UInt64) (dir : Direction) (target : UInt64) : List (Nat × Nat) :=
  ((eng.edges dir eid).filter fun edge => edge.targetId = target).map fun edge =>
    (edge.validFrom, edge.validTo)

/-- The interval that started last has not ended. -/
def Linked (times : List (Nat × Nat)) (time : Nat) : Prop :=
  ∃ best ∈ times, best.1 ≤ time ∧ (∀ other ∈ times, other.1 ≤ time → other.1 ≤ best.1) ∧
    (best.2 = maxTime ∨ best.2 > time)

/-- The chunks that a scan skips have no edge to the target that had started. -/
def Unskipped (eng : TMVEngine) (eid : UInt64) (dir : Direction) (target : UInt64) (time : Nat) :
    Prop :=
  ∀ chunk ∈ ((eng.entry eid).chain dir).chunks, chunk.maxValidTo < time →
    ∀ edge ∈ chunk.edges, edge.targetId = target → time < edge.validFrom

theorem mem_candidates_iff {time : Nat} (unskipped : eng.Unskipped eid dir target time)
    {edge : TMVEdge} (isTarget : edge.targetId = target) :
    edge ∈ (((eng.entry eid).chain dir).chunks.reverse).flatMap
        (fun chunk => chunk.candidates time) ↔
      edge ∈ eng.edges dir eid ∧ edge.validFrom ≤ time := by
  simp only [edges, EdgeChain.edges, mem_flatMap, mem_reverse]
  constructor
  · rintro ⟨chunk, mem, inChunk⟩
    rw [TMVChunk.candidates] at inChunk
    split at inChunk
    · cases inChunk
    · rw [mem_filter, decide_eq_true_iff] at inChunk
      exact ⟨⟨chunk, mem, inChunk.1⟩, inChunk.2⟩
  · rintro ⟨⟨chunk, mem, inChunk⟩, started⟩
    have bounds := (chunk.bounds inChunk).1
    have notSkipped : ¬ (chunk.minValidFrom > time ∨ chunk.maxValidTo < time) := by
      rintro (notBegun | ended)
      · omega
      · have := unskipped chunk mem ended edge inChunk isTarget
        omega
    refine ⟨chunk, mem, ?_⟩
    rw [TMVChunk.candidates, if_neg notSkipped, mem_filter, decide_eq_true_iff]
    exact ⟨inChunk, started⟩

theorem mem_targets_iff (sorts : SortsByTarget sort) {queryTime : UInt64}
    (unskipped : eng.Unskipped eid dir target (clampValidTime queryTime))
    (unambiguous : ∀ first ∈ eng.times eid dir target, ∀ second ∈ eng.times eid dir target,
      first.1 = second.1 → first = second) :
    target ∈ (eng.scanAtTime sort eid dir queryTime).map TMVEdge.targetId ↔
      Linked (eng.times eid dir target) (clampValidTime queryTime) := by
  obtain ⟨perm, sorted⟩ := sorts ((((eng.entry eid).chain dir).chunks.reverse).flatMap
    fun chunk => chunk.candidates (clampValidTime queryTime))
  have group := @filter_selectLatest (clampValidTime queryTime) _ sorted target
  rw [scanAtTime]
  generalize sort _ = found at *
  generalize isOwn : found.filter (fun edge => edge.targetId = target) = own at group
  -- the candidates for the target are its edges that had started
  have stored : ∀ edge ∈ own, (edge.validFrom, edge.validTo) ∈ eng.times eid dir target ∧
      edge.validFrom ≤ clampValidTime queryTime := by
    intro edge mem
    rw [← isOwn, mem_filter, perm.mem_iff, decide_eq_true_iff] at mem
    obtain ⟨inEdges, started⟩ := (mem_candidates_iff unskipped mem.2).mp mem.1
    exact ⟨mem_map.mpr ⟨edge, mem_filter.mpr ⟨inEdges, decide_eq_true mem.2⟩, rfl⟩, started⟩
  have complete : ∀ times ∈ eng.times eid dir target, times.1 ≤ clampValidTime queryTime →
      ∃ edge ∈ own, (edge.validFrom, edge.validTo) = times := by
    intro times mem started
    obtain ⟨edge, inEdges, rfl⟩ := mem_map.mp mem
    rw [mem_filter, decide_eq_true_iff] at inEdges
    refine ⟨edge, ?_, rfl⟩
    rw [← isOwn, mem_filter, perm.mem_iff, decide_eq_true_iff]
    exact ⟨(mem_candidates_iff unskipped inEdges.2).mpr ⟨inEdges.1, started⟩, inEdges.2⟩
  have decides : target ∈ (selectLatest (clampValidTime queryTime) found).map TMVEdge.targetId ↔
      ∃ best, latest own = some best ∧
        (best.validTo = maxTime ∨ best.validTo > clampValidTime queryTime) := by
    have isFound : target ∈ (selectLatest (clampValidTime queryTime) found).map
        TMVEdge.targetId ↔ (latest own).toList.flatMap (keepCurrent (clampValidTime queryTime)) ≠
          [] := by
      rw [← group, ne_eq, filter_eq_nil_iff, mem_map]
      simp
    rw [isFound]
    cases latest own with
    | none => simp
    | some best => simp [keepCurrent, or_iff_not_imp_left]
  rw [decides]
  constructor
  · rintro ⟨best, isBest, isOpen⟩
    obtain ⟨inOwn, largest⟩ := latest_spec isBest
    obtain ⟨inTimes, started⟩ := stored best inOwn
    refine ⟨_, inTimes, started, ?_, isOpen⟩
    intro other mem otherStarted
    obtain ⟨edge, inOther, rfl⟩ := complete other mem otherStarted
    exact largest edge inOther
  · rintro ⟨times, inTimes, started, largest, isOpen⟩
    obtain ⟨edge, inOwn, rfl⟩ := complete times inTimes started
    cases isBest : latest own with
    | none => cases own <;> simp [latest] at isBest inOwn
    | some best =>
      obtain ⟨bestOwn, largestBest⟩ := latest_spec isBest
      obtain ⟨bestTimes, bestStarted⟩ := stored best bestOwn
      have same : best.validFrom = edge.validFrom :=
        le_antisymm (largest _ bestTimes bestStarted) (largestBest edge inOwn)
      have sameEnd : best.validTo = edge.validTo :=
        congrArg Prod.snd (unambiguous _ bestTimes _ inTimes same)
      rw [← sameEnd] at isOpen
      exact ⟨best, rfl, isOpen⟩

/-- Every edge stands in the list of its source and in that of its target. -/
def Mirrored (eng : TMVEngine) : Prop :=
  ∀ source target, eng.times source .kOut target = eng.times target .kIn source

inductive MirrorStep where
  | append (appends : List EdgeAppend)
  | drop (watermark : UInt64)

def mirrorStep (eng : TMVEngine) : MirrorStep → TMVEngine
  | .append appends => (eng.appendEdgesAtomic appends).1
  | .drop watermark => (eng.dropBelowWatermark watermark).1

/-- The appends have their reverse, and no edge is dropped. -/
def MirrorAllowed (eng : TMVEngine) : MirrorStep → Prop
  | .append appends => ∀ append ∈ appends, append.dir = .kOut ∧ append.reverse = true
  | .drop watermark => ∀ eid dir, ∀ chunk ∈ ((eng.entry eid).chain dir).chunks,
    chunk.maxValidTo < watermark.toNat → chunk.edges = []

theorem times_addedEdges {appends : List EdgeAppend}
    (both : ∀ append ∈ appends, append.dir = .kOut ∧ append.reverse = true)
    (source target : UInt64) :
    ((addedEdges (appends.flatMap EdgeAppend.steps) .kOut source).filter fun edge =>
      edge.targetId = target).map (fun edge => (edge.validFrom, edge.validTo)) =
    ((addedEdges (appends.flatMap EdgeAppend.steps) .kIn target).filter fun edge =>
      edge.targetId = source).map fun edge => (edge.validFrom, edge.validTo) := by
  induction appends with
  | nil => rfl
  | cons append rest ih =>
    rw [forall_mem_cons] at both
    rw [flatMap_cons, EdgeAppend.steps, if_pos ⟨both.1.2, both.1.1⟩, both.1.1]
    simp only [addedEdges_append, addedEdges_cons, filter_append, map_append, ih both.2]
    by_cases isSource : append.entityId = source
    · by_cases isTarget : append.edge.targetId = target <;> simp [isSource, isTarget, addedEdges]
    · simp [isSource, addedEdges]

theorem Mirrored.step (mirrored : eng.Mirrored) {step : MirrorStep}
    (allowed : eng.MirrorAllowed step) : (eng.mirrorStep step).Mirrored := by
  intro source target
  cases step with
  | append appends =>
    rw [mirrorStep]
    rcases eng.appendEdgesAtomic_cases appends with ⟨later, done, edges⟩ | failed
    · rw [done, times, times, edges, edges, filter_append, filter_append, map_append, map_append,
        times_addedEdges allowed]
      exact congrArg (· ++ _) (mirrored source target)
    · rw [failed]
      exact mirrored source target
  | drop watermark =>
    rw [mirrorStep, times, times, edges_dropBelowWatermark (allowed _ _),
      edges_dropBelowWatermark (allowed _ _)]
    exact mirrored source target

/-- When every step is allowed, the two views agree at each time at which no chunk with an
edge between the vertices is skipped, as long as no two of these edges start together. -/
theorem views_mirror (sort : List TMVEdge → List TMVEdge) (sorts : SortsByTarget sort)
    (free : Nat) (steps : List MirrorStep)
    (allowed : Admissible mirrorStep MirrorAllowed ⟨.empty, free⟩ steps)
    (source target queryTime : UInt64) :
    let eng := run mirrorStep ⟨.empty, free⟩ steps
    eng.Unskipped source .kOut target (clampValidTime queryTime) →
    eng.Unskipped target .kIn source (clampValidTime queryTime) →
    (∀ first ∈ eng.times source .kOut target, ∀ second ∈ eng.times source .kOut target,
      first.1 = second.1 → first = second) →
    (target ∈ (eng.scanAtTime sort source .kOut queryTime).map TMVEdge.targetId ↔
      source ∈ (eng.scanAtTime sort target .kIn queryTime).map TMVEdge.targetId) := by
  intro eng outUnskipped inUnskipped unambiguous
  have start : Mirrored ⟨.empty, free⟩ := by
    intro source target
    rfl
  have mirrored : eng.Mirrored :=
    @invariant_run _ _ mirrorStep MirrorAllowed Mirrored
      (fun _ _ before allowed => before.step allowed) _ steps start allowed
  rw [mem_targets_iff sorts outUnskipped unambiguous]
  rw [mirrored source target] at unambiguous ⊢
  rw [mem_targets_iff sorts inUnskipped unambiguous]

theorem views_mirror_one_edge :
    let eng := run mirrorStep ⟨.empty, 4⟩ [.append [⟨1, .kOut, ⟨2, 1, maxTime, 0, 0, 0⟩, true⟩]]
    2 ∈ (eng.scanAtTime sortByTarget 1 .kOut 4).map TMVEdge.targetId ↔
      1 ∈ (eng.scanAtTime sortByTarget 2 .kIn 4).map TMVEdge.targetId := by
  refine views_mirror sortByTarget sortsByTarget_sortByTarget 4
    [.append [⟨1, .kOut, ⟨2, 1, maxTime, 0, 0, 0⟩, true⟩]] ⟨?_, trivial⟩ 1 2 4 ?_ ?_ ?_
  · rw [MirrorAllowed]
    decide
  · rw [Unskipped]
    decide +kernel
  · rw [Unskipped]
    decide +kernel
  · decide +kernel

/-- The deletion of an edge arrives before the edge itself.  Its chunk is dropped from the
list of the source, and stays in the list of the target because of another edge. -/
theorem views_differ :
    let eng := run mirrorStep ⟨.empty, 8⟩
      [.append [⟨3, .kOut, ⟨2, 1, maxTime, 0, 0, 0⟩, true⟩, ⟨1, .kOut, ⟨2, 5, 5, 0, 0, 0⟩, true⟩],
        .drop 6, .append [⟨1, .kOut, ⟨2, 1, maxTime, 0, 0, 0⟩, true⟩]]
    2 ∈ (eng.scanAtTime sortByTarget 1 .kOut 6).map TMVEdge.targetId ∧
      1 ∉ (eng.scanAtTime sortByTarget 2 .kIn 6).map TMVEdge.targetId := by
  decide +kernel

end TMVEngine

end CedarGraph
