import CedarGraph.Gcn.View

/-!
# Dropping chunks below a watermark

`DropBelowWatermark` takes out the chunks whose edges all ended before the watermark. A later
scan skips them anyway, as long as the watermark is a time that an edge can have. The numbers of
edges stay.
-/

namespace CedarGraph

open List

def EdgeChain.dropChunksBelowWatermark (chain : EdgeChain) (watermark : UInt64) : EdgeChain × Nat :=
  let kept := chain.chunks.filter fun chunk => ¬ chunk.maxValidTo < watermark.toNat
  ({ chain with chunks := kept }, chain.chunks.length - kept.length)

namespace TMVEngine

/-- The engine, and the number of chunks that went back to the pool. -/
def dropBelowWatermark (eng : TMVEngine) (watermark : UInt64) : TMVEngine × Nat :=
  let drop := fun chain : EdgeChain => chain.dropChunksBelowWatermark watermark
  let dropped := (eng.index.toList.map fun (_, entry) =>
    (drop entry.outChain).2 + (drop entry.inChain).2).sum
  (⟨eng.index.map fun _ entry => ⟨(drop entry.outChain).1, (drop entry.inChain).1⟩,
    eng.free + dropped⟩, dropped)

/-- The edge counts are the numbers of edges in the chunks. -/
def Counted (eng : TMVEngine) : Prop :=
  ∀ eid dir, ((eng.entry eid).chain dir).edgeCount = (eng.edges dir eid).length

variable {eng : TMVEngine} {watermark : UInt64}

theorem chain_dropBelowWatermark (eid : UInt64) (dir : Direction) :
    ((eng.dropBelowWatermark watermark).1.entry eid).chain dir =
      (((eng.entry eid).chain dir).dropChunksBelowWatermark watermark).1 := by
  rw [entry, entry, dropBelowWatermark, Std.ExtTreeMap.getElem?_map]
  cases eng.index[eid]? <;> cases dir <;> rfl

theorem flatMap_filter_of_nil {α β : Type*} {keep : α → Bool} {content : α → List β}
    {items : List α} (nothing : ∀ item ∈ items, keep item = false → content item = []) :
    (items.filter keep).flatMap content = items.flatMap content := by
  induction items with
  | nil => rfl
  | cons item rest ih =>
    rw [forall_mem_cons] at nothing
    rw [filter_cons, flatMap_cons, ← ih nothing.2]
    cases kept : keep item with
    | false => rw [nothing.1 kept, if_neg Bool.false_ne_true, nil_append]
    | true => rw [if_pos rfl, flatMap_cons]

theorem scanAtTime_dropBelowWatermark (sort : List TMVEdge → List TMVEdge) {eid : UInt64}
    {dir : Direction} {queryTime : UInt64}
    (skipped : ∀ chunk ∈ ((eng.entry eid).chain dir).chunks, chunk.maxValidTo < watermark.toNat →
      chunk.candidates (clampValidTime queryTime) = []) :
    (eng.dropBelowWatermark watermark).1.scanAtTime sort eid dir queryTime =
      eng.scanAtTime sort eid dir queryTime := by
  rw [scanAtTime, scanAtTime, chain_dropBelowWatermark, EdgeChain.dropChunksBelowWatermark,
    ← filter_reverse, flatMap_filter_of_nil]
  intro chunk mem isDropped
  exact skipped chunk (mem_reverse.mp mem) (by simpa using isDropped)

theorem edges_dropBelowWatermark {eid : UInt64} {dir : Direction}
    (nothing : ∀ chunk ∈ ((eng.entry eid).chain dir).chunks, chunk.maxValidTo < watermark.toNat →
      chunk.edges = []) :
    (eng.dropBelowWatermark watermark).1.edges dir eid = eng.edges dir eid := by
  rw [edges, edges, chain_dropBelowWatermark, EdgeChain.dropChunksBelowWatermark, EdgeChain.edges,
    ← filter_reverse, flatMap_filter_of_nil]
  · rfl
  · intro chunk mem isDropped
    exact nothing chunk (mem_reverse.mp mem) (by simpa using isDropped)

theorem length_edges_dropBelowWatermark (eid : UInt64) (dir : Direction) :
    ((eng.dropBelowWatermark watermark).1.edges dir eid).length +
      ((((eng.entry eid).chain dir).chunks.filter fun chunk =>
        chunk.maxValidTo < watermark.toNat).flatMap TMVChunk.edges).length =
      (eng.edges dir eid).length := by
  have parts := ((filter_append_perm (fun chunk : TMVChunk =>
    decide ¬ chunk.maxValidTo < watermark.toNat) ((eng.entry eid).chain dir).chunks).flatMap_right
      TMVChunk.edges).length_eq
  rw [flatMap_append, length_append] at parts
  simp only [edges, EdgeChain.edges, chain_dropBelowWatermark, EdgeChain.dropChunksBelowWatermark,
    ((reverse_perm _).flatMap_right TMVChunk.edges).length_eq]
  simpa only [decide_not, Bool.not_not] using parts

/-- Dropping is invisible at later times, and the counts are right afterwards, when it drops
no edge. -/
theorem dropBelowWatermark_invisible_iff (sort : List TMVEdge → List TMVEdge)
    (eng : TMVEngine) (counted : eng.Counted) (watermark : UInt64) :
    let later := (eng.dropBelowWatermark watermark).1
    let invisible := ∀ eid dir queryTime, watermark ≤ queryTime →
      later.scanAtTime sort eid dir queryTime = eng.scanAtTime sort eid dir queryTime
    (watermark.toNat ≤ maxTime → invisible) ∧
      (invisible ∧ later.Counted ↔
        ∀ eid dir, ∀ chunk ∈ ((eng.entry eid).chain dir).chunks,
          chunk.maxValidTo < watermark.toNat → chunk.edges = []) := by
  intro later invisible
  refine ⟨?_, ?_, ?_⟩
  · intro inRange eid dir queryTime notBefore
    apply scanAtTime_dropBelowWatermark
    intro chunk _ ended
    have time : watermark.toNat ≤ clampValidTime queryTime := by
      rw [clampValidTime]
      split
      · exact inRange
      · exact notBefore
    rw [TMVChunk.candidates, if_pos (Or.inr (by omega))]
  · rintro ⟨-, countedLater⟩ eid dir chunk mem ended
    have lengths := @length_edges_dropBelowWatermark eng watermark eid dir
    rw [← counted eid dir, ← countedLater eid dir, chain_dropBelowWatermark] at lengths
    have none := length_eq_zero_iff.mp (Nat.left_eq_add.mp lengths.symm)
    exact flatMap_eq_nil_iff.mp none chunk (by simp [mem, ended])
  · intro nothing
    refine ⟨?_, ?_⟩
    · intro eid dir queryTime _
      apply scanAtTime_dropBelowWatermark
      intro chunk mem ended
      simp [TMVChunk.candidates, nothing eid dir chunk mem ended]
    · intro eid dir
      rw [edges_dropBelowWatermark (nothing eid dir), chain_dropBelowWatermark]
      exact counted eid dir

private def oneEdge (validTo : Nat) : TMVEngine :=
  (⟨.empty, 1⟩ : TMVEngine).setEntry 1
    ⟨⟨[TMVChunk.empty.append TMVChunk.canAppend_empty ⟨2, 1, validTo, 0, 0, 0⟩], 1⟩, .empty⟩

private theorem chain_oneEdge (validTo : Nat) (eid : UInt64) (dir : Direction) :
    ((oneEdge validTo).entry eid).chain dir = .empty ∨ eid = 1 ∧ dir = .kOut := by
  rw [oneEdge, entry_setEntry]
  split
  · cases dir with
    | kOut => simp [*]
    | kIn => exact Or.inl rfl
  · cases dir <;> exact Or.inl rfl

theorem dropBelowWatermark_invisible_open_edge :
    let later := ((oneEdge maxTime).dropBelowWatermark 3).1
    later.scanAtTime id 1 .kOut 4 = (oneEdge maxTime).scanAtTime id 1 .kOut 4 ∧ later.Counted := by
  have counted : (oneEdge maxTime).Counted := by
    intro eid dir
    rw [edges]
    rcases chain_oneEdge maxTime eid dir with none | ⟨rfl, rfl⟩
    · rw [none]
      rfl
    · decide +kernel
  obtain ⟨invisible, countedLater⟩ :=
    (dropBelowWatermark_invisible_iff id (oneEdge maxTime) counted 3).2.mpr (by
      intro eid dir chunk mem ended
      rcases chain_oneEdge maxTime eid dir with none | ⟨rfl, rfl⟩
      · rw [none] at mem
        cases mem
      · cases mem_singleton.mp mem
        exact absurd ended (by decide +kernel))
  exact ⟨invisible 1 .kOut 4 (by decide), countedLater⟩

/-- The count stays when the edge is dropped, and an open edge is dropped by a watermark that
no edge can reach. -/
theorem dropBelowWatermark_visible :
    ¬ ((oneEdge 2).dropBelowWatermark 3).1.Counted ∧
      ((oneEdge maxTime).dropBelowWatermark 4294967296).1.scanAtTime id 1 .kOut 4294967296 ≠
        (oneEdge maxTime).scanAtTime id 1 .kOut 4294967296 := by
  refine ⟨?_, by decide +kernel⟩
  intro counted
  exact absurd (counted 1 .kOut) (by decide +kernel)

end TMVEngine

end CedarGraph
