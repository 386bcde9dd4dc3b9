import CedarGraph.Gcn.Prefix

/-!
# The view at a time

`ScanAtTime` skips chunks that cannot hold a valid edge and keeps for each target the edge that
started last, unless it has ended. For the log this is the answer only when the start times are
unambiguous and no chunk behind the first holds nothing but deletions.
-/

namespace CedarGraph

open TMVEdge EventApplier

open List hiding beq_eq_decide

/-- The edges of a chunk that had started; a chunk whose edges have all ended or not begun
is skipped. -/
def TMVChunk.candidates (chunk : TMVChunk) (time : Nat) : List TMVEdge :=
  if chunk.minValidFrom > time ∨ chunk.maxValidTo < time then []
  else chunk.edges.filter fun edge => edge.validFrom ≤ time

/-- The later start; of two edges with the same start the first one. -/
def laterStart (best edge : TMVEdge) : TMVEdge :=
  if edge.validFrom > best.validFrom then edge else best

def keepCurrent (time : Nat) (best : TMVEdge) : List TMVEdge :=
  if best.validTo = maxTime ∨ best.validTo > time then [best] else []

/-- The loop over the sorted candidates, inside the group of the best edge so far. -/
def selectGroups (time : Nat) (best : TMVEdge) : List TMVEdge → List TMVEdge
  | [] => keepCurrent time best
  | edge :: rest =>
    if edge.targetId = best.targetId then selectGroups time (laterStart best edge) rest
    else keepCurrent time best ++ selectGroups time edge rest

def selectLatest (time : Nat) : List TMVEdge → List TMVEdge
  | [] => []
  | first :: rest => selectGroups time first rest

/-- `ScanAtTime`, for a function that sorts by target. -/
def TMVEngine.scanAtTime (sort : List TMVEdge → List TMVEdge) (eng : TMVEngine)
    (id : UInt64) (dir : Direction) (queryTime : UInt64) : List TMVEdge :=
  let time := clampValidTime queryTime
  selectLatest time
    (sort ((((eng.entry id).chain dir).chunks.reverse).flatMap fun chunk => chunk.candidates time))

/-- What `std::sort` promises here: the order of edges with the same target is open. -/
def SortsByTarget (sort : List TMVEdge → List TMVEdge) : Prop :=
  ∀ edges, (sort edges).Perm edges ∧
    (sort edges).Pairwise fun first second => first.targetId ≤ second.targetId

/-! ### The edge chosen for a target -/

def latest : List TMVEdge → Option TMVEdge
  | [] => none
  | first :: rest => some (rest.foldl laterStart first)

theorem targetId_laterStart {best edge : TMVEdge} (same : edge.targetId = best.targetId) :
    (laterStart best edge).targetId = best.targetId := by
  rw [laterStart]
  split
  · exact same
  · rfl

theorem filter_keepCurrent (time : Nat) (best : TMVEdge) (target : UInt64) :
    (keepCurrent time best).filter (fun edge => edge.targetId = target) =
      if best.targetId = target then keepCurrent time best else [] := by
  rw [keepCurrent]
  split
  · split
    · rename_i same
      simp [same]
    · rename_i other
      simp [other]
  · simp

variable {time : Nat} {edges : List TMVEdge} {id : UInt64} {recs : List ChangeRecord}

theorem filter_selectGroups {best : TMVEdge} {rest : List TMVEdge}
    (sorted : (best :: rest).Pairwise fun first second => first.targetId ≤ second.targetId)
    (target : UInt64) :
    (selectGroups time best rest).filter (fun edge => edge.targetId = target) =
      (latest ((best :: rest).filter fun edge => edge.targetId = target)).toList.flatMap
        (keepCurrent time) := by
  induction rest generalizing best with
  | nil =>
    rw [selectGroups, filter_keepCurrent, filter_cons]
    by_cases same : best.targetId = target
    · simp [same, latest]
    · simp [same, latest]
  | cons edge more ih =>
    rw [pairwise_cons, pairwise_cons] at sorted
    obtain ⟨belowBest, belowEdge, sortedMore⟩ := sorted
    rw [selectGroups]
    by_cases group : edge.targetId = best.targetId
    · have sortedNext : (laterStart best edge :: more).Pairwise
          fun first second => first.targetId ≤ second.targetId := by
        rw [pairwise_cons, targetId_laterStart group, ← group]
        exact ⟨belowEdge, sortedMore⟩
      rw [if_pos group, ih sortedNext]
      simp only [filter_cons, targetId_laterStart group, group]
      by_cases same : best.targetId = target
      · simp [same, latest]
      · simp [same]
    · rw [if_neg group, filter_append, filter_keepCurrent]
      rw [ih (pairwise_cons.mpr ⟨belowEdge, sortedMore⟩)]
      by_cases same : best.targetId = target
      · -- the targets behind the group are larger
        have larger : ∀ other ∈ edge :: more, ¬ other.targetId = target := by
          intro other mem isTarget
          have edgeFirst : edge.targetId ≤ other.targetId := by
            rcases mem_cons.mp mem with rfl | inMore
            · exact UInt64.le_refl _
            · exact belowEdge other inMore
          have bestFirst := belowBest edge mem_cons_self
          rw [isTarget, ← same] at edgeFirst
          exact group (UInt64.le_antisymm edgeFirst bestFirst)
        rw [filter_eq_nil_iff.mpr (by simpa using larger), if_pos same,
          filter_cons_of_pos (by simpa using same),
          filter_eq_nil_iff.mpr (by simpa using larger)]
        simp [latest]
      · have skipped : (best :: edge :: more).filter (fun edge => edge.targetId = target) =
            (edge :: more).filter fun edge => edge.targetId = target :=
          filter_cons_of_neg (by simpa using same)
        rw [if_neg same, skipped, nil_append]

theorem filter_selectLatest {time : Nat} {edges : List TMVEdge}
    (sorted : edges.Pairwise fun first second => first.targetId ≤ second.targetId)
    (target : UInt64) :
    (selectLatest time edges).filter (fun edge => edge.targetId = target) =
      (latest (edges.filter fun edge => edge.targetId = target)).toList.flatMap
        (keepCurrent time) := by
  cases edges with
  | nil => rfl
  | cons first rest => exact filter_selectGroups sorted target

theorem nodup_selectLatest
    (sorted : edges.Pairwise fun first second => first.targetId ≤ second.targetId) :
    ((selectLatest time edges).map targetId).Nodup := by
  rw [nodup_iff_count_le_one]
  intro target
  rw [count, countP_map, countP_eq_length_filter]
  have group := @filter_selectLatest time edges sorted target
  simp only [Function.comp_def, beq_eq_decide, group]
  cases latest (edges.filter fun edge => edge.targetId = target) with
  | none => simp
  | some best =>
    simp only [Option.toList_some, flatMap_singleton, keepCurrent]
    split <;> simp

theorem latest_spec {best : TMVEdge} (chosen : latest edges = some best) :
    best ∈ edges ∧ ∀ edge ∈ edges, edge.validFrom ≤ best.validFrom := by
  cases edges with
  | nil => cases chosen
  | cons first rest =>
    obtain rfl := Option.some.inj chosen
    clear chosen
    induction rest generalizing first with
    | nil => simp
    | cons edge more ih =>
      obtain ⟨mem, largest⟩ := ih (laterStart first edge)
      rw [forall_mem_cons] at largest
      rw [foldl_cons, forall_mem_cons, forall_mem_cons]
      rw [laterStart] at largest mem ⊢
      split at largest <;> rename_i later
      · rw [if_pos later] at mem ⊢
        exact ⟨mem_cons_of_mem _ mem, by omega, largest.1, largest.2⟩
      · rw [if_neg later] at mem ⊢
        refine ⟨?_, largest.1, by omega, largest.2⟩
        rcases mem_cons.mp mem with isFirst | inMore
        · rw [isFirst]
          exact mem_cons_self
        · exact mem_cons_of_mem _ (mem_cons_of_mem _ inMore)

theorem latest_eq {last : TMVEdge} (mem : last ∈ edges)
    (largest : ∀ edge ∈ edges, edge = last ∨ edge.validFrom < last.validFrom) :
    latest edges = some last := by
  cases chosen : latest edges with
  | none => cases edges with
    | nil => exact absurd mem not_mem_nil
    | cons first rest => cases chosen
  | some best =>
    obtain ⟨isEdge, largestBest⟩ := latest_spec chosen
    have notBelow := largestBest last mem
    rw [(largest best isEdge).resolve_right (by omega)]

theorem foldl_min_le (edges : List TMVEdge) (start : Nat) :
    edges.foldl (fun smallest edge => min smallest edge.validFrom) start ≤ start ∧
      ∀ edge ∈ edges,
        edges.foldl (fun smallest edge => min smallest edge.validFrom) start ≤ edge.validFrom := by
  induction edges generalizing start with
  | nil => simp
  | cons edge rest ih =>
    obtain ⟨belowStart, belowRest⟩ := ih (min start edge.validFrom)
    rw [foldl_cons, forall_mem_cons]
    exact ⟨Nat.le_trans belowStart (Nat.min_le_left _ _),
      Nat.le_trans belowStart (Nat.min_le_right _ _), belowRest⟩

theorem le_foldl_max (edges : List TMVEdge) (start : Nat) :
    start ≤ edges.foldl (fun largest edge => max largest edge.validTo) start ∧
      ∀ edge ∈ edges,
        edge.validTo ≤ edges.foldl (fun largest edge => max largest edge.validTo) start := by
  induction edges generalizing start with
  | nil => simp
  | cons edge rest ih =>
    obtain ⟨aboveStart, aboveRest⟩ := ih (max start edge.validTo)
    rw [foldl_cons, forall_mem_cons]
    exact ⟨Nat.le_trans (Nat.le_max_left _ _) aboveStart,
      Nat.le_trans (Nat.le_max_right _ _) aboveStart, aboveRest⟩

theorem TMVChunk.bounds (chunk : TMVChunk) {edge : TMVEdge} (mem : edge ∈ chunk.edges) :
    chunk.minValidFrom ≤ edge.validFrom ∧ edge.validTo ≤ chunk.maxValidTo := by
  rw [chunk.minimum, chunk.maximum]
  exact ⟨(foldl_min_le chunk.edges maxTime).2 edge mem, (le_foldl_max chunk.edges 0).2 edge mem⟩

/-- A chunk is skipped as a whole only when no edge of it had started or all had ended. -/
theorem TMVChunk.candidates_cases (chunk : TMVChunk) (time : Nat) :
    chunk.candidates time = chunk.edges.filter (fun edge => edge.validFrom ≤ time) ∨
      chunk.candidates time = [] ∧ ∀ edge ∈ chunk.edges, edge.validTo < time := by
  rw [candidates]
  split
  · rename_i skipped
    rcases skipped with notBegun | ended
    · left
      symm
      rw [filter_eq_nil_iff]
      intro edge mem
      have bounds := (chunk.bounds mem).1
      simp
      omega
    · right
      refine ⟨rfl, ?_⟩
      intro edge mem
      have bounds := (chunk.bounds mem).2
      omega
  · exact Or.inl rfl

theorem candidates_of_open {chunks : List TMVChunk} (inRange : time ≤ maxTime)
    (hasOpen : ∀ chunk ∈ chunks, chunk.edges ≠ [] → ∃ edge ∈ chunk.edges, edge.validTo = maxTime) :
    chunks.flatMap (fun chunk => chunk.candidates time) =
      (chunks.flatMap TMVChunk.edges).filter fun edge => edge.validFrom ≤ time := by
  induction chunks with
  | nil => rfl
  | cons chunk rest ih =>
    rw [forall_mem_cons] at hasOpen
    rw [flatMap_cons, flatMap_cons, filter_append, ih hasOpen.2]
    rcases chunk.candidates_cases time with all | ⟨skipped, ended⟩
    · rw [all]
    · by_cases empty : chunk.edges = []
      · rw [skipped, empty]
        rfl
      · obtain ⟨edge, mem, isOpen⟩ := hasOpen.1 empty
        have endedEdge := ended edge mem
        omega

/-! ## The records of a vertex -/

def edgeOf (rec : ChangeRecord) : TMVEdge :=
  (buildEdgeAppend rec).edge

def fromVertex (recs : List ChangeRecord) (id : UInt64) : List ChangeRecord :=
  recs.filter fun rec => rec.entityId = id

theorem addedEdges_out (recs : List ChangeRecord) (id : UInt64) :
    addedEdges ((recs.map buildEdgeAppend).flatMap EdgeAppend.steps) .kOut id =
      (fromVertex recs id).map edgeOf := by
  induction recs with
  | nil => rfl
  | cons rec rest ih =>
    rw [map_cons, flatMap_cons, addedEdges_append, ih]
    by_cases same : rec.entityId = id
    · simp [addedEdges, EdgeAppend.steps, buildEdgeAppend, fromVertex, edgeOf, same]
    · simp [addedEdges, EdgeAppend.steps, buildEdgeAppend, fromVertex, same]

/-- The last record for a target that had started. -/
def lastEdgeOut (recs : List ChangeRecord) (id target time : UInt64) : Option ChangeRecord :=
  (recs.filter fun rec => rec.entityType = EntityType.edgeOut.toByte.toUInt32 ∧
    rec.entityId = id ∧ rec.targetId = target ∧ rec.validFrom ≤ time).getLast?

/-- The change history has an edge to the target at the time. -/
def Live (recs : List ChangeRecord) (id time target : UInt64) : Prop :=
  ∃ rec ∈ lastEdgeOut recs id target time, rec.operation ≠ .delete

instance (recs : List ChangeRecord) (id time target : UInt64) :
    Decidable (Live recs id time target) :=
  match found : lastEdgeOut recs id target time with
  | none => .isFalse fun live => by
      obtain ⟨record, isLast, _⟩ := live
      simp [found] at isLast
  | some record => decidable_of_iff (record.operation ≠ .delete) (by simp [Live, found])

/-- One entry for each target with an edge, and nothing else. -/
def ViewMatches (recs : List ChangeRecord) (id time : UInt64) (view : List TMVEdge) : Prop :=
  (view.map targetId).Nodup ∧ ∀ target, target ∈ view.map targetId ↔ Live recs id time target

def chunkRecords (recs : List ChangeRecord) (id : UInt64) (index : Nat) : List ChangeRecord :=
  ((fromVertex recs id).drop (index * chunkCapacity)).take chunkCapacity

/-- The engine can tell the records from the vertex apart: they are outgoing edges, their
start times fit into 32 bits and rise for each target, only deletions end an edge, and no
chunk but the first one holds deletions only. -/
structure Plain (recs : List ChangeRecord) (id : UInt64) : Prop where
  outgoing : ∀ rec ∈ fromVertex recs id, rec.entityType = EntityType.edgeOut.toByte.toUInt32
  started : ∀ rec ∈ fromVertex recs id, rec.validFrom ≠ 0 ∧ rec.validFrom.toNat < maxTime
  openEnded : ∀ rec ∈ fromVertex recs id,
    rec.operation = .delete ∨ rec.validTo = 0 ∨ maxTime ≤ rec.validTo.toNat
  ordered : (fromVertex recs id).Pairwise fun prev later =>
    prev.targetId = later.targetId → prev.validFrom < later.validFrom
  current : ∀ index ≥ 1, chunkRecords recs id index ≠ [] →
    ∃ rec ∈ chunkRecords recs id index, rec.operation ≠ .delete

theorem chunk_edges_eq
    {chunks : List TMVChunk} (full : ∀ chunk ∈ chunks.dropLast, ¬ chunk.canAppend)
    {index : Nat} (lt : index < chunks.length) :
    chunks[index].edges =
      ((chunks.flatMap TMVChunk.edges).drop (index * chunkCapacity)).take chunkCapacity := by
  induction chunks generalizing index with
  | nil => exact absurd lt (Nat.not_lt_zero index)
  | cons chunk rest ih =>
    have bounded := chunk.bounded
    cases rest with
    | nil =>
      have first : index = 0 := by
        rw [length_singleton] at lt
        omega
      subst first
      simp [take_of_length_le bounded]
    | cons next others =>
      rw [dropLast_cons_cons, forall_mem_cons] at full
      have length : chunk.edges.length = chunkCapacity := by
        have notBelow := full.1
        rw [TMVChunk.canAppend] at notBelow
        omega
      cases index with
      | zero =>
        rw [flatMap_cons, Nat.zero_mul, drop_zero, ← length, take_left]
        rfl
      | succ index =>
        have skipped : (index + 1) * chunkCapacity =
            chunk.edges.length + index * chunkCapacity := by
          rw [length, Nat.succ_mul, Nat.add_comm]
        rw [flatMap_cons, skipped, drop_length_add_append]
        exact ih full.2 (Nat.lt_of_succ_lt_succ lt)

namespace Plain

variable {recs : List ChangeRecord} {id : UInt64} (plain : Plain recs id)
  {rec : ChangeRecord} (mem : rec ∈ fromVertex recs id)

include plain mem

theorem validFrom_edgeOf : (edgeOf rec).validFrom = rec.validFrom.toNat := by
  obtain ⟨notZero, inRange⟩ := plain.started rec mem
  have notClamped : ¬ rec.validFrom.toNat > maxTime := by omega
  simp [edgeOf, buildEdgeAppend, notZero, clampValidTime, notClamped]

theorem validTo_edgeOf :
    (edgeOf rec).validTo =
      if rec.operation = .delete then rec.validFrom.toNat else maxTime := by
  have validFrom := plain.validFrom_edgeOf mem
  simp only [edgeOf, buildEdgeAppend] at validFrom ⊢
  split
  · exact validFrom
  rename_i notDeleted
  rcases plain.openEnded rec mem with deleted | noEnd | late
  · exact absurd deleted notDeleted
  · rw [if_pos noEnd]
  · split
    · rfl
    · rw [clampValidTime]
      split
      · rfl
      · omega

theorem started_iff (time : UInt64) :
    (edgeOf rec).validFrom ≤ clampValidTime time ↔ rec.validFrom ≤ time := by
  have inRange := (plain.started rec mem).2
  rw [plain.validFrom_edgeOf mem, clampValidTime, UInt64.le_iff_toNat_le]
  split <;> omega

end Plain

/-- The records of one target, with starts that rise: the last one decides. -/
theorem Plain.latest_decides {recs : List ChangeRecord} {id : UInt64} (plain : Plain recs id)
    {time : UInt64} {group : List ChangeRecord} {edges : List TMVEdge}
    (fromGroup : ∀ rec ∈ group, rec ∈ fromVertex recs id ∧ rec.validFrom ≤ time)
    (rising : group.Pairwise fun prev later => prev.validFrom < later.validFrom)
    (members : ∀ edge, edge ∈ edges ↔ ∃ rec ∈ group, edgeOf rec = edge) :
    (latest edges).toList.flatMap (keepCurrent (clampValidTime time)) ≠ [] ↔
      ∃ rec ∈ group.getLast?, rec.operation ≠ .delete := by
  rcases eq_nil_or_concat' group with empty | ⟨before, last, isGroup⟩
  · have noEdges : edges = [] := by
      rw [eq_nil_iff_forall_not_mem]
      intro edge mem
      obtain ⟨rec, inGroup, _⟩ := (members edge).mp mem
      simp [empty] at inGroup
    simp [noEdges, empty, latest]
  · subst isGroup
    have inGroup : last ∈ before ++ [last] := mem_append_right _ (mem_singleton_self last)
    obtain ⟨inVertex, begun⟩ := fromGroup last inGroup
    have chosen : latest edges = some (edgeOf last) := by
      apply latest_eq ((members _).mpr ⟨last, inGroup, rfl⟩)
      intro edge mem
      obtain ⟨rec, isRecord, rfl⟩ := (members edge).mp mem
      rcases mem_append.mp isRecord with prev | same
      · right
        rw [plain.validFrom_edgeOf inVertex,
          plain.validFrom_edgeOf (fromGroup rec isRecord).1, ← UInt64.lt_iff_toNat_lt]
        exact (pairwise_append.mp rising).2.2 rec prev last (mem_singleton_self last)
      · left
        rw [mem_singleton.mp same]
    have startedLast := (plain.started_iff inVertex time).mpr begun
    have inRange := (plain.started last inVertex).2
    rw [plain.validFrom_edgeOf inVertex] at startedLast
    rw [chosen, Option.toList_some, flatMap_singleton, keepCurrent,
      plain.validTo_edgeOf inVertex, getLast?_concat]
    by_cases deleted : last.operation = .delete
    · have ended : ¬ (last.validFrom.toNat = maxTime ∨
          last.validFrom.toNat > clampValidTime time) := by omega
      simp [deleted, ended]
    · simp [deleted]

theorem lastEdgeOut_eq
    (plain : Plain recs id) (target time : UInt64) :
    lastEdgeOut recs id target time =
      ((fromVertex recs id).filter fun rec =>
        rec.targetId = target ∧ rec.validFrom ≤ time).getLast? := by
  rw [lastEdgeOut, fromVertex, filter_filter]
  congr 1
  apply filter_congr
  intro rec mem
  by_cases same : rec.entityId = id
  · have outgoing := plain.outgoing rec (mem_filter.mpr ⟨mem, decide_eq_true same⟩)
    simp [same, outgoing]
  · simp [same]

theorem Plain.later_open (plain : Plain recs id) {first : TMVChunk} {rest : List TMVChunk}
    (full : ∀ chunk ∈ (first :: rest).dropLast, ¬ chunk.canAppend)
    (edges : (first :: rest).flatMap TMVChunk.edges = (fromVertex recs id).map edgeOf) :
    ∀ chunk ∈ rest, chunk.edges ≠ [] → ∃ edge ∈ chunk.edges, edge.validTo = maxTime := by
  intro chunk mem filled
  obtain ⟨index, lt, rfl⟩ := mem_iff_getElem.mp mem
  have segment := chunk_edges_eq full (Nat.succ_lt_succ lt)
  rw [edges, ← map_drop, ← map_take, getElem_cons_succ] at segment
  rw [segment] at filled ⊢
  obtain ⟨rec, inChunk, notDeleted⟩ := plain.current (index + 1) (Nat.succ_pos index)
    (fun empty => filled (congrArg (map edgeOf) empty))
  refine ⟨edgeOf rec, mem_map_of_mem inChunk, ?_⟩
  rw [plain.validTo_edgeOf (mem_of_mem_drop (mem_of_mem_take inChunk)), if_neg notDeleted]

/-- The chunks of the vertex in the order of the scan. -/
def TMVEngine.outChunks (eng : TMVEngine) (id : UInt64) : List TMVChunk :=
  ((eng.entry id).chain .kOut).chunks.reverse

/-- The candidates come from all records of the vertex, or from those behind a first chunk
of deletions only. -/
theorem Plain.candidates (plain : Plain recs id) {eng : TMVEngine} (packed : eng.Packed)
    (edges : eng.edges .kOut id = (fromVertex recs id).map edgeOf) (time : UInt64) :
    ∃ skipped kept, fromVertex recs id = skipped ++ kept ∧
      (∀ rec ∈ skipped, rec.operation = .delete) ∧
      (eng.outChunks id).flatMap (fun chunk => chunk.candidates (clampValidTime time)) =
        (kept.map edgeOf).filter fun edge => edge.validFrom ≤ clampValidTime time := by
  have inRange : clampValidTime time ≤ maxTime := by
    rw [clampValidTime]
    split <;> omega
  have full : ∀ chunk ∈ (eng.outChunks id).dropLast, ¬ chunk.canAppend := by
    rw [TMVEngine.outChunks, dropLast_reverse]
    intro chunk mem
    exact packed .kOut id chunk (mem_reverse.mp mem)
  rw [TMVEngine.edges, EdgeChain.edges, ← TMVEngine.outChunks] at edges
  cases chunks : eng.outChunks id with
  | nil =>
    rw [chunks] at edges
    have none_from : fromVertex recs id = [] := map_eq_nil_iff.mp edges.symm
    exact ⟨[], [], none_from, by simp, rfl⟩
  | cons first rest =>
    rw [chunks] at edges full
    have restCandidates := candidates_of_open inRange (plain.later_open full edges)
    rw [flatMap_cons] at edges
    obtain ⟨front, back, split, frontEdges, backEdges⟩ := map_eq_append_iff.mp edges.symm
    rw [flatMap_cons, restCandidates]
    rcases first.candidates_cases (clampValidTime time) with all | ⟨skipped, ended⟩
    · refine ⟨[], fromVertex recs id, rfl, by simp, ?_⟩
      rw [all, ← filter_append, edges]
    · refine ⟨front, back, split, ?_, ?_⟩
      · intro rec mem
        have inVertex : rec ∈ fromVertex recs id := by
          rw [split]
          exact mem_append_left _ mem
        have endedRecord := ended (edgeOf rec) (frontEdges ▸ mem_map_of_mem mem)
        rw [plain.validTo_edgeOf inVertex] at endedRecord
        split at endedRecord
        · assumption
        · omega
      · rw [skipped, nil_append, backEdges]

theorem Plain.viewMatches (plain : Plain recs id) {eng : TMVEngine} (packed : eng.Packed)
    (edges : eng.edges .kOut id = (fromVertex recs id).map edgeOf)
    {sort : List TMVEdge → List TMVEdge} (sorts : SortsByTarget sort) (time : UInt64) :
    ViewMatches recs id time (eng.scanAtTime sort id .kOut time) := by
  obtain ⟨skipped, kept, split, deleted, candidates⟩ := plain.candidates packed edges time
  rw [TMVEngine.scanAtTime]
  rw [← TMVEngine.outChunks, candidates]
  obtain ⟨perm, sorted⟩ := sorts
    ((kept.map edgeOf).filter fun edge => edge.validFrom ≤ clampValidTime time)
  refine ⟨nodup_selectLatest sorted, ?_⟩
  intro target
  have inVertex : ∀ rec ∈ kept, rec ∈ fromVertex recs id := by
    intro rec mem
    rw [split]
    exact mem_append_right _ mem
  -- the records for the target that are not skipped
  have decides := @Plain.latest_decides recs id plain time
    (kept.filter fun rec => rec.targetId = target ∧ rec.validFrom ≤ time)
    ((sort ((kept.map edgeOf).filter fun edge =>
      edge.validFrom ≤ clampValidTime time)).filter fun edge => edge.targetId = target)
    (by
      intro rec mem
      rw [mem_filter, decide_eq_true_eq] at mem
      exact ⟨inVertex rec mem.1, mem.2.2⟩)
    (by
      have ordered := plain.ordered
      rw [split, pairwise_append] at ordered
      rw [pairwise_filter]
      apply ordered.2.1.imp
      intro prev later rises inEarlier inLater
      rw [decide_eq_true_eq] at inEarlier inLater
      exact rises (inEarlier.1.trans inLater.1.symm))
    (by
      intro edge
      rw [mem_filter, perm.mem_iff, mem_filter, mem_map]
      simp only [decide_eq_true_eq, mem_filter]
      constructor
      · intro found
        obtain ⟨⟨⟨rec, inKept, isEdge⟩, begun⟩, isTarget⟩ := found
        rw [← isEdge] at begun isTarget
        exact ⟨rec, ⟨inKept, isTarget,
          (plain.started_iff (inVertex rec inKept) time).mp begun⟩, isEdge⟩
      · intro found
        obtain ⟨rec, ⟨inKept, isTarget, begun⟩, isEdge⟩ := found
        rw [← isEdge]
        exact ⟨⟨⟨rec, inKept, rfl⟩,
          (plain.started_iff (inVertex rec inKept) time).mpr begun⟩, isTarget⟩)
  rw [← filter_selectLatest sorted] at decides
  have chosen : target ∈ (selectLatest (clampValidTime time) (sort ((kept.map edgeOf).filter
      fun edge => edge.validFrom ≤ clampValidTime time))).map targetId ↔
      ∃ rec ∈ (kept.filter fun rec =>
        rec.targetId = target ∧ rec.validFrom ≤ time).getLast?,
        rec.operation ≠ .delete := by
    rw [← decides, ne_eq, filter_eq_nil_iff, mem_map]
    simp
  rw [chosen, Live, lastEdgeOut_eq plain, split, filter_append, getLast?_append]
  cases keptLast : (kept.filter fun rec =>
      rec.targetId = target ∧ rec.validFrom ≤ time).getLast? with
  | some rec => simp
  | none =>
    rw [Option.none_or]
    constructor
    · intro found
      obtain ⟨_, isNone, _⟩ := found
      simp at isNone
    · intro found
      obtain ⟨rec, isLast, notDeleted⟩ := found
      have mem := mem_of_getLast? isLast
      exact absurd (deleted rec (mem_filter.mp mem).1) notDeleted

/-! ## A log delivered in order -/

def EventApplier.applyLog (applier : EventApplier) :
    List ChangeRecord → EventApplier × List (Except Status Unit)
  | [] => (applier, [])
  | rec :: rest =>
    let (later, status) := applier.applyChangeRecord rec
    let (last, statuses) := later.applyLog rest
    (last, status :: statuses)

section InOrder

variable {pid : UInt32} (hist : ChangeHistory pid)

/-- The first `count` records were delivered: each is applied or waits in the batch. -/
structure InOrder (count : Nat) (state : PartitionApplyState) (eng : TMVEngine) : Prop where
  follows : Follows hist state eng
  own : ∀ dir id, ∀ edge ∈ eng.edges dir id, edge.reserved = pid
  packed : eng.Packed
  waiting : ∀ index rec, hist.records[index]? = some rec →
    state.progress.appliedOffset ≤ index → index < count →
      state.pendingBatch.records[index - state.progress.appliedOffset]? = some (some rec)

variable {hist} {count : Nat} {state : PartitionApplyState} {eng : TMVEngine}

section

variable (inOrder : InOrder hist count state eng)
include inOrder

theorem InOrder.unfinished (lt : count ≤ hist.records.length)
    (collects : hist.Collects state.progress.appliedOffset state.pendingBatch)
    (incomplete : none ∈ state.pendingBatch.records) :
    count < state.progress.appliedOffset + state.pendingBatch.batchSize := by
  obtain ⟨slot, inBatch, isNone⟩ := mem_iff_getElem.mp incomplete
  rw [collects.length] at inBatch
  by_contra finished
  have inLog : state.progress.appliedOffset + slot < hist.records.length := by omega
  have waits := inOrder.waiting (state.progress.appliedOffset + slot) _
    (getElem?_eq_getElem inLog) (Nat.le_add_right _ _) (by omega)
  rw [Nat.add_sub_cancel_left, getElem?_eq_getElem (by rw [collects.length]; exact inBatch),
    isNone] at waits
  simp at waits

theorem InOrder.expected {rec : ChangeRecord} (next : hist.records[count]? = some rec)
    (notApplied : state.progress.appliedOffset ≤ count) :
    rec.batchIndex = count - state.progress.appliedOffset := by
  obtain ⟨lt, _⟩ := List.getElem?_eq_some_iff.mp next
  have mem : rec ∈ hist.records := mem_of_getElem? next
  have offset := hist.offset_of_getElem? next
  rcases inOrder.follows.collecting with empty | ⟨collects, incomplete⟩
  · have all : state.progress.appliedOffset = count := by
      by_contra behind
      have inLog : state.progress.appliedOffset < hist.records.length := by omega
      have waits := inOrder.waiting _ _ (getElem?_eq_getElem inLog) (Nat.le_refl _) (by omega)
      rw [empty] at waits
      simp [PendingBatch.empty] at waits
    -- otherwise the applied records would cut the batch
    by_contra notFirst
    have index := hist.indices rec mem
    have pos : rec.offset - 1 - rec.batchIndex + (rec.batchIndex - 1) = count - 1 := by omega
    have before : count - 1 < hist.records.length := by omega
    obtain ⟨otherIndex, otherSize, _⟩ :=
      hist.batches rec mem (rec.batchIndex - 1) (by omega) hist.records[count - 1]
        (by rw [pos]; exact getElem?_eq_getElem before)
    have whole := inOrder.follows.whole hist.records[count - 1] (by
      rw [all, mem_take_iff_getElem]
      exact ⟨count - 1, by omega, rfl⟩)
    have otherOffset := hist.offsets (count - 1) before
    omega
  · have unfinished := inOrder.unfinished (Nat.le_of_lt lt) collects incomplete
    have pos : state.progress.appliedOffset + (count - state.progress.appliedOffset) =
        count := by omega
    exact (collects.agrees (count - state.progress.appliedOffset) (by omega) rec
      (by rw [pos]; exact next)).1

theorem InOrder.apply {rec : ChangeRecord} (next : hist.records[count]? = some rec)
    (available : (state.apply eng rec).2.2 ≠ .error poolExhausted) :
    InOrder hist (count + 1) (state.apply eng rec).1 (state.apply eng rec).2.1 ∧
      (state.apply eng rec).2.2 = .ok () := by
  have mem : rec ∈ hist.records := mem_of_getElem? next
  have offset := hist.offset_of_getElem? next
  have follows := inOrder.follows.apply mem
  have index := hist.indices rec mem
  rcases apply_cases mem inOrder.follows.collecting with stayed | ⟨size, advanced⟩
  · obtain ⟨prog, sameEngine, _, remembered, kept, answered⟩ := stayed
    have accepted : (state.apply eng rec).2.2 = .ok () := by
      rcases answered (by
        by_cases notApplied : state.progress.appliedOffset ≤ count
        · have expected := inOrder.expected next notApplied
          omega
        · omega) with ok | exhausted
      · exact ok
      · exact absurd exhausted available
    refine ⟨⟨follows, ?_, ?_, ?_⟩, accepted⟩
    · rw [sameEngine]
      exact inOrder.own
    · rw [sameEngine]
      exact inOrder.packed
    · intro pos prev found behind delivered
      rw [prog] at behind ⊢
      by_cases old : pos < count
      · exact kept accepted _ _ (inOrder.waiting pos prev found behind old)
      have isNext : pos = count := by omega
      subst isNext
      rw [next] at found
      obtain rfl := Option.some.inj found
      rcases remembered accepted with applied | inBatch
      · omega
      · rw [← inOrder.expected next behind]
        exact inBatch
  · refine ⟨⟨follows, ?_, inOrder.packed.appendEdgesAtomic advanced.appended, ?_⟩,
      advanced.accepted⟩
    · intro dir id edge inEdges
      rw [TMVEngine.edges_appendEdgesAtomic advanced.appended, mem_append] at inEdges
      rcases inEdges with old | new
      · exact inOrder.own dir id edge old
      · exact reserved_of_steps (fun rec inTake => hist.own rec
          (mem_of_mem_drop (mem_of_mem_take inTake))) new
    · -- the batch reaches up to the new record at least
      intro pos prev _ behind delivered
      rw [advanced.progress] at behind
      have notApplied : state.progress.appliedOffset ≤ count := by omega
      have expected := inOrder.expected next notApplied
      have inLog := advanced.inside
      have positive := advanced.positive
      have firstInside : state.progress.appliedOffset < hist.records.length := by omega
      have firstRecord := advanced.batch hist.records[state.progress.appliedOffset] (by
        rw [mem_take_iff_getElem]
        exact ⟨0, by simp; omega, by simp⟩)
      have firstPosition : rec.offset - 1 - rec.batchIndex + 0 =
          state.progress.appliedOffset := by omega
      obtain ⟨_, sameSize, _⟩ := hist.batches rec mem 0 (by omega)
        hist.records[state.progress.appliedOffset]
        (by rw [firstPosition]; exact getElem?_eq_getElem firstInside)
      omega

end

theorem InOrder.applyLog {applier : EventApplier}
    (inOrder : InOrder hist count (applier.partitionStates pid) applier.engine)
    (enough : .error poolExhausted ∉ (applier.applyLog (hist.records.drop count)).2) :
    InOrder hist hist.records.length
        ((applier.applyLog (hist.records.drop count)).1.partitionStates pid)
        (applier.applyLog (hist.records.drop count)).1.engine ∧
      ∀ status ∈ (applier.applyLog (hist.records.drop count)).2, status = .ok () := by
  generalize remaining : hist.records.drop count = rest at enough
  induction rest generalizing count applier with
  | nil =>
    have lt : hist.records.length ≤ count := drop_eq_nil_iff.mp remaining
    obtain ⟨follows, own, packed, waiting⟩ := inOrder
    refine ⟨⟨follows, own, packed, ?_⟩, by simp [applyLog]⟩
    intro index rec found behind delivered
    exact waiting index rec found behind (Nat.lt_of_lt_of_le delivered lt)
  | cons rec more ih =>
    have lt : count < hist.records.length := by
      by_contra outside
      rw [drop_eq_nil_of_le (Nat.not_lt.mp outside)] at remaining
      simp at remaining
    rw [drop_eq_getElem_cons lt, cons.injEq] at remaining
    have next : hist.records[count]? = some rec := by
      rw [getElem?_eq_getElem lt, remaining.1]
    have ownRecord : rec.partitionId = pid :=
      hist.own rec (mem_of_getElem? next)
    simp only [applyLog, applyChangeRecord, ownRecord, mem_cons, not_or] at enough ⊢
    obtain ⟨after, accepted⟩ := inOrder.apply next (fun exhausted => enough.1 exhausted.symm)
    obtain ⟨final, statuses⟩ := ih (by
      simpa using after) remaining.2 enough.2
    refine ⟨final, ?_⟩
    intro status delivered
    rcases delivered with rfl | later
    · exact accepted
    · exact statuses status later

theorem InOrder.complete (inOrder : InOrder hist hist.records.length state eng)
    (whole : hist.Whole hist.records.length) :
    state.progress.appliedOffset = hist.records.length := by
  have bounded := inOrder.follows.inside
  by_contra behind
  have lt : state.progress.appliedOffset < hist.records.length := by omega
  rcases inOrder.follows.collecting with empty | ⟨collects, incomplete⟩
  · have waits := inOrder.waiting _ _ (getElem?_eq_getElem lt) (Nat.le_refl _) lt
    rw [empty] at waits
    simp [PendingBatch.empty] at waits
  · have unfinished := inOrder.unfinished (Nat.le_refl _) collects incomplete
    have several := collects.several
    obtain ⟨index, size, _⟩ := collects.agrees 0 (by omega)
      hist.records[state.progress.appliedOffset] (getElem?_eq_getElem lt)
    have wholeBatch := whole hist.records[state.progress.appliedOffset] (by
      rw [take_length]
      exact getElem_mem lt)
    have offset := hist.offsets _ lt
    omega

theorem inOrder_start (maxChunks : Nat) :
    InOrder hist 0 ((start maxChunks).partitionStates pid) (start maxChunks).engine := by
  refine ⟨⟨Nat.zero_le _, ?_, ?_, Or.inl rfl⟩, ?_, ?_, ?_⟩
  · intro rec mem
    simp [start, PartitionApplyState.initial] at mem
  · intro dir id
    cases dir with
    | kOut => rfl
    | kIn => rfl
  · intro dir id edge mem
    cases dir with
    | kOut => exact absurd mem not_mem_nil
    | kIn => exact absurd mem not_mem_nil
  · intro dir id chunk mem
    cases dir with
    | kOut => exact absurd mem not_mem_nil
    | kIn => exact absurd mem not_mem_nil
  · intro index rec _ _ delivered
    exact absurd delivered (Nat.not_lt_zero index)

end InOrder

/-- A log of whole batches, delivered in order to an engine with enough chunks, is applied
completely, and the scan of a vertex with plain records gives the change history. -/
theorem scanAtTime_matches
    {pid : UInt32} (hist : ChangeHistory pid)
    (whole : hist.Whole hist.records.length) (maxChunks : Nat)
    (enough : .error poolExhausted ∉ ((start maxChunks).applyLog hist.records).2)
    (sort : List TMVEdge → List TMVEdge) (sorts : SortsByTarget sort)
    (id : UInt64) (plain : Plain hist.records id) (time : UInt64) :
    (∀ status ∈ ((start maxChunks).applyLog hist.records).2, status = .ok ()) ∧
      ViewMatches hist.records id time
        (((start maxChunks).applyLog hist.records).1.engine.scanAtTime sort id .kOut time) := by
  obtain ⟨inOrder, accepted⟩ := (@inOrder_start pid hist maxChunks).applyLog
    (by rw [drop_zero]; exact enough)
  rw [drop_zero] at inOrder accepted
  refine ⟨accepted, ?_⟩
  have edges := inOrder.follows.edges .kOut id
  have own := inOrder.own .kOut id
  rw [filter_eq_self.mpr (fun edge mem => decide_eq_true (own edge mem)),
    inOrder.complete whole, ChangeHistory.stepsOf, take_length, addedEdges_out] at edges
  exact plain.viewMatches inOrder.packed edges sorts time

def sortByTarget (edges : List TMVEdge) : List TMVEdge :=
  edges.insertionSort fun first second => first.targetId ≤ second.targetId

theorem sortsByTarget_sortByTarget : SortsByTarget sortByTarget := by
  intro edges
  refine ⟨perm_insertionSort _ edges, ?_⟩
  have total : Std.Total fun first second : TMVEdge => first.targetId ≤ second.targetId :=
    ⟨fun first second => UInt64.le_total first.targetId second.targetId⟩
  have transitive : IsTrans TMVEdge fun first second => first.targetId ≤ second.targetId :=
    ⟨fun _ _ _ below above => UInt64.le_trans below above⟩
  exact pairwise_insertionSort _ edges

/-- Two targets of one vertex, one of which is deleted. -/
theorem scanAtTime_matches_example :
    let record := fun (offset batchIndex batchSize : Nat) (target : UInt64)
        (op : ChangeOperation) (validFrom : UInt64) =>
      (⟨0, 1, offset, 20, 7, batchIndex, batchSize, 1, target, 1, 3, 3, op, validFrom, 0,
        []⟩ : ChangeRecord)
    let recs := [record 1 0 2 4 .create 5, record 2 1 2 5 .create 6, record 3 0 1 4 .delete 9]
    ViewMatches recs 1 8 (((start 4).applyLog recs).1.engine.scanAtTime sortByTarget 1 .kOut 8) ∧
      ViewMatches recs 1 9
        (((start 4).applyLog recs).1.engine.scanAtTime sortByTarget 1 .kOut 9) := by
  intro record recs
  have hist : ∃ hist : ChangeHistory 0, hist.records = recs := by
    refine ⟨⟨recs, ?_, ?_, ?_, ?_, ?_⟩, rfl⟩
    · decide
    · decide
    · decide
    · decide
    · decide
  obtain ⟨hist, isRecords⟩ := hist
  have whole : hist.Whole hist.records.length := by
    rw [ChangeHistory.Whole, isRecords]
    decide
  have plain : Plain hist.records 1 := by
    rw [isRecords]
    refine ⟨by decide, by decide, by decide, by decide, ?_⟩
    intro index later filled
    have short : (fromVertex recs 1).length ≤ index * chunkCapacity := by
      have length : (fromVertex recs 1).length = 3 := by decide
      rw [length, chunkCapacity]
      omega
    rw [chunkRecords, drop_eq_nil_of_le short] at filled
    simp at filled
  have enough : .error poolExhausted ∉ ((start 4).applyLog hist.records).2 := by
    rw [isRecords]
    decide
  have matches_view := fun time => (scanAtTime_matches hist whole 4 enough sortByTarget
    sortsByTarget_sortByTarget 1 plain time).2
  rw [isRecords] at matches_view
  exact ⟨matches_view 8, matches_view 9⟩

/-- A vertex record, an incoming edge, a deletion at the time of the creation, starts beyond
32 bits, and a start at zero. -/
theorem scanAtTime_differs :
    let record := fun (offset : Nat) (target : UInt64) (kind : UInt32)
        (op : ChangeOperation) (validFrom : UInt64) =>
      (⟨0, 1, offset, 20, 7, 0, 1, 1, target, kind, 3, 3, op, validFrom, 0, []⟩ :
        ChangeRecord)
    let differs := fun (recs : List ChangeRecord) (time : UInt64) =>
      (∃ hist : ChangeHistory 0, hist.records = recs ∧ hist.Whole recs.length) ∧
      (∀ status ∈ ((start 4).applyLog recs).2, status = .ok ()) ∧
      ¬ ViewMatches recs 1 time
        (((start 4).applyLog recs).1.engine.scanAtTime sortByTarget 1 .kOut time)
    differs [record 1 0 0 .create 5] 9 ∧ differs [record 1 4 2 .create 5] 9 ∧
      differs [record 1 4 1 .create 5, record 2 4 1 .delete 5] 9 ∧
      differs [record 1 4 1 .create 5000000000, record 2 4 1 .delete 6000000000] 7000000000 ∧
      differs [record 1 4 1 .create 5000000000] 4500000000 ∧
      differs [record 1 4 1 .create 0] 9 := by
  intro record differs
  have refuted : ∀ (recs : List ChangeRecord) (time target : UInt64),
      (∃ hist : ChangeHistory 0, hist.records = recs ∧ hist.Whole recs.length) →
      (∀ status ∈ ((start 4).applyLog recs).2, status = .ok ()) →
      ¬ (target ∈ (((start 4).applyLog recs).1.engine.scanAtTime sortByTarget 1
          .kOut time).map targetId ↔ Live recs 1 time target) →
      differs recs time := by
    intro recs time target formed accepted mismatch
    exact ⟨formed, accepted, fun matches_view => mismatch (matches_view.2 target)⟩
  refine ⟨refuted _ _ 0 ⟨⟨_, ?_, ?_, ?_, ?_, ?_⟩, rfl, ?_⟩ ?_ ?_,
    refuted _ _ 4 ⟨⟨_, ?_, ?_, ?_, ?_, ?_⟩, rfl, ?_⟩ ?_ ?_,
    refuted _ _ 4 ⟨⟨_, ?_, ?_, ?_, ?_, ?_⟩, rfl, ?_⟩ ?_ ?_,
    refuted _ _ 4 ⟨⟨_, ?_, ?_, ?_, ?_, ?_⟩, rfl, ?_⟩ ?_ ?_,
    refuted _ _ 4 ⟨⟨_, ?_, ?_, ?_, ?_, ?_⟩, rfl, ?_⟩ ?_ ?_,
    refuted _ _ 4 ⟨⟨_, ?_, ?_, ?_, ?_, ?_⟩, rfl, ?_⟩ ?_ ?_⟩
  all_goals first | decide | (rw [ChangeHistory.Whole]; decide)

end CedarGraph
