import CedarGraph.Gcn.Engine

/-!
# Replacing the edges of a partition

`ReplacePartitionEdgesAtomic` takes every vertex with an edge of the partition out, appends the
other edges again and then the new ones. When the pool runs out it goes back to the saved edges,
for which there is room: a chain filled from the start needs no more chunks than it had.
-/

namespace CedarGraph

open List

structure VertexBackup where
  entityId : UInt64
  outEdges : List TMVEdge
  inEdges : List TMVEdge

namespace VertexBackup

def edges (backup : VertexBackup) : Direction → List TMVEdge
  | .kOut => backup.outEdges
  | .kIn => backup.inEdges

def steps (keep : TMVEdge → Bool) (backup : VertexBackup) : List EdgeStep :=
  (backup.outEdges.filter keep).map (fun edge => ⟨backup.entityId, .kOut, edge⟩) ++
    (backup.inEdges.filter keep).map (fun edge => ⟨backup.entityId, .kIn, edge⟩)

theorem addedEdges_steps
    (keep : TMVEdge → Bool) (backup : VertexBackup) (dir : Direction) (eid : UInt64) :
    addedEdges (backup.steps keep) dir eid =
      if backup.entityId = eid then (backup.edges dir).filter keep else [] := by
  rw [addedEdges, steps, filter_append, filter_map, filter_map]
  by_cases same : backup.entityId = eid
  · cases dir with
    | kOut => simp [Function.comp_def, same, edges]
    | kIn => simp [Function.comp_def, same, edges]
  · simp [Function.comp_def, same]

end VertexBackup

namespace TMVEngine

variable (eng : TMVEngine)

def invalidateVertex (eid : UInt64) : TMVEngine :=
  match eng.index[eid]? with
  | none => eng
  | some entry =>
    { index := eng.index.erase eid
      free := eng.free + entry.outChain.chunks.length + entry.inChain.chunks.length }

def partitionBackups (pid : UInt32) : List VertexBackup :=
  eng.index.toList.filterMap fun vertex =>
    if (vertex.2.outChain.edges ++ vertex.2.inChain.edges).any
        fun edge => edge.reserved = pid then
      some ⟨vertex.1, vertex.2.outChain.edges, vertex.2.inChain.edges⟩
    else none

def invalidateAll (backups : List VertexBackup) : TMVEngine :=
  backups.foldl (fun eng backup => eng.invalidateVertex backup.entityId) eng

/-- `restore_original_backups`, and the status that is then returned. -/
def restoreBackups (backups : List VertexBackup) (msg : String) : TMVEngine × Except Status Unit :=
  match (AppendProgress.start (eng.invalidateAll backups)).appendAll
      (backups.flatMap (VertexBackup.steps fun _ => true)) with
  | (prog, true) => (prog.engine, .error (.resourceExhausted msg ""))
  | (prog, false) =>
    (prog.engine, .error (.resourceExhausted
      "TMV pool exhausted restoring partition replacement" ""))

def replacePartitionEdgesAtomic (pid : UInt32)
    (appends : List EdgeAppend) : TMVEngine × Except Status Unit :=
  if appends.any fun append => append.edge.reserved ≠ pid then
    (eng, .error (.invalidArgument
      "partition replacement append belongs to a different partition" ""))
  else
    let backups := eng.partitionBackups pid
    match (AppendProgress.start (eng.invalidateAll backups)).appendAll
        (backups.flatMap (VertexBackup.steps fun edge => edge.reserved ≠ pid)) with
    | (kept, false) =>
      kept.engine.restoreBackups backups "TMV pool exhausted filtering partition replacement"
    | (kept, true) =>
      match (AppendProgress.start kept.engine).appendAll
          (appends.flatMap EdgeAppend.steps) with
      | (prog, true) => (prog.engine, .ok ())
      | (prog, false) => prog.rollback.restoreBackups backups "TMV pool exhausted"

def exportPartitionEdges (pid : UInt32) : List EdgeAppend :=
  eng.index.toList.flatMap fun vertex =>
    (vertex.2.outChain.edges.filter fun edge => edge.reserved = pid).map
        (fun edge => ⟨vertex.1, .kOut, edge, false⟩) ++
      (vertex.2.inChain.edges.filter fun edge => edge.reserved = pid).map
        (fun edge => ⟨vertex.1, .kIn, edge, false⟩)

/-! ## Taking vertices out -/

def chunkCount (eid : UInt64) : Nat :=
  (eng.entry eid).outChain.chunks.length + (eng.entry eid).inChain.chunks.length

theorem index_invalidateVertex (eid other : UInt64) :
    (eng.invalidateVertex eid).index[other]? =
      if eid = other then none else eng.index[other]? := by
  rw [invalidateVertex]
  split
  · rename_i missing
    split
    · rename_i same
      rw [← same, missing]
    · rfl
  · simp [Std.ExtTreeMap.getElem?_erase]

theorem free_invalidateVertex (eid : UInt64) :
    (eng.invalidateVertex eid).free = eng.free + eng.chunkCount eid := by
  rw [invalidateVertex, chunkCount, entry]
  split
  · rename_i missing
    rw [missing]
    rfl
  · rename_i entry found
    rw [found]
    exact Nat.add_assoc _ _ _

theorem entry_of_index {eng other : TMVEngine} {eid : UInt64}
    (same : eng.index[eid]? = other.index[eid]?) : eng.entry eid = other.entry eid := by
  rw [entry, entry, same]

theorem invalidateAll_spec
    {backups : List VertexBackup} (distinct : (backups.map VertexBackup.entityId).Nodup)
    (eng : TMVEngine) :
    (∀ eid : UInt64, (eng.invalidateAll backups).index[eid]? =
      if eid ∈ backups.map VertexBackup.entityId then none else eng.index[eid]?) ∧
    (eng.invalidateAll backups).free =
      eng.free + ((backups.map VertexBackup.entityId).map eng.chunkCount).sum := by
  induction backups generalizing eng with
  | nil => simp [invalidateAll]
  | cons backup rest ih =>
    rw [map_cons, nodup_cons] at distinct
    obtain ⟨index, free⟩ :=
      ih distinct.2 (eng.invalidateVertex backup.entityId)
    have counts : (rest.map VertexBackup.entityId).map
        (eng.invalidateVertex backup.entityId).chunkCount =
        (rest.map VertexBackup.entityId).map eng.chunkCount := by
      apply map_congr_left
      intro eid mem
      rw [chunkCount, chunkCount, entry_of_index]
      rw [index_invalidateVertex, if_neg]
      intro same
      exact distinct.1 (same ▸ mem)
    have unfolded : eng.invalidateAll (backup :: rest) =
        (eng.invalidateVertex backup.entityId).invalidateAll rest := rfl
    rw [unfolded, free, counts, free_invalidateVertex]
    refine ⟨?_, ?_⟩
    · intro eid
      rw [index, index_invalidateVertex, map_cons]
      by_cases inRest : eid ∈ rest.map VertexBackup.entityId
      · simp [inRest]
      · by_cases same : backup.entityId = eid
        · simp [same]
        · have notSame : ¬ eid = backup.entityId := fun equal => same equal.symm
          simp [inRest, same, notSame]
    · rw [map_cons, map_cons, sum_cons]
      omega

/-! ## Room for the saved edges -/

variable {ids : List UInt64}

theorem sum_map_changed
    {ids : List UInt64} (distinct : ids.Nodup) {changed : UInt64} (mem : changed ∈ ids)
    {before after : UInt64 → Nat} (same : ∀ id, id ≠ changed → after id = before id) :
    (ids.map after).sum + before changed = (ids.map before).sum + after changed := by
  induction ids with
  | nil => exact absurd mem not_mem_nil
  | cons id rest ih =>
    rw [nodup_cons] at distinct
    rw [map_cons, map_cons, sum_cons, sum_cons]
    rcases mem_cons.mp mem with rfl | inRest
    · have others : rest.map after = rest.map before := by
        apply map_congr_left
        intro other inOthers
        exact same other (fun equal => distinct.1 (equal ▸ inOthers))
      rw [others]
      omega
    · have ne : id ≠ changed := fun equal => distinct.1 (equal ▸ inRest)
      have sums := ih distinct.2 inRest
      rw [same id ne]
      omega

theorem append_inside (distinct : ids.Nodup) {step : EdgeStep} (mem : step.entityId ∈ ids)
    (prog : AppendProgress) :
    (∀ eid, eid ∉ ids → (prog.append step).1.engine.index[eid]? = prog.engine.index[eid]?) ∧
    (prog.append step).1.engine.free + (ids.map (prog.append step).1.engine.chunkCount).sum =
      prog.engine.free + (ids.map prog.engine.chunkCount).sum := by
  rcases prog.append_cases step with ⟨exhausted, _⟩ | ⟨chain, free, new, appended, done⟩
  · rw [exhausted]
    dsimp only
    refine ⟨?_, ?_⟩
    · intro eid outside
      rw [index_findOrCreateEntry, if_neg]
      intro same
      exact outside (same ▸ mem)
    · have counts : ids.map (prog.engine.findOrCreateEntry step.entityId).chunkCount =
          ids.map prog.engine.chunkCount := by
        apply map_congr_left
        intro eid _
        rw [chunkCount, chunkCount, findOrCreateEntry, entry_setEntry]
        split
        · rename_i same
          rw [same]
        · rfl
      rw [counts, free_findOrCreateEntry]
  · rw [done]
    dsimp only
    refine ⟨?_, ?_⟩
    · intro eid outside
      rw [index_withFree, index_setEntry, if_neg]
      intro same
      exact outside (same ▸ mem)
    · have sums := @sum_map_changed ids distinct step.entityId mem
        prog.engine.chunkCount ((prog.engine.setEntry step.entityId
          ((prog.engine.entry step.entityId).setChain step.dir chain)).withFree free).chunkCount (by
          intro eid ne
          rw [chunkCount, chunkCount, entry_withFree, entry_setEntry, if_neg (Ne.symm ne)])
      have used := (EdgeChain.append_appended appended).used
      have moved : ((prog.engine.setEntry step.entityId ((prog.engine.entry
          step.entityId).setChain step.dir chain)).withFree free).chunkCount step.entityId + free =
          prog.engine.chunkCount step.entityId + prog.engine.free := by
        rw [chunkCount, chunkCount, entry_withFree, entry_setEntry, if_pos rfl]
        cases dir : step.dir with
        | kOut =>
          rw [dir] at used
          simp only [TMVVertexEntry.setChain, TMVVertexEntry.chain] at used ⊢
          omega
        | kIn =>
          rw [dir] at used
          simp only [TMVVertexEntry.setChain, TMVVertexEntry.chain] at used ⊢
          omega
      rw [free_withFree]
      omega

theorem appendAll_inside {ids : List UInt64} (distinct : ids.Nodup) {steps : List EdgeStep}
    (lt : ∀ step ∈ steps, step.entityId ∈ ids) (prog : AppendProgress) :
    (∀ eid, eid ∉ ids → (prog.appendAll steps).1.engine.index[eid]? = prog.engine.index[eid]?) ∧
    (prog.appendAll steps).1.engine.free +
        (ids.map (prog.appendAll steps).1.engine.chunkCount).sum =
      prog.engine.free + (ids.map prog.engine.chunkCount).sum := by
  induction steps generalizing prog with
  | nil => exact ⟨fun _ _ => rfl, rfl⟩
  | cons step rest ih =>
    rw [forall_mem_cons] at lt
    obtain ⟨others, free⟩ := append_inside distinct lt.1 prog
    rw [AppendProgress.appendAll]
    split
    · rename_i later appended
      rw [appended] at others free
      obtain ⟨othersRest, freeRest⟩ := ih lt.2 later
      refine ⟨?_, freeRest.trans free⟩
      intro eid outside
      exact (othersRest eid outside).trans (others eid outside)
    · rename_i later appended
      rw [appended] at others free
      exact ⟨others, free⟩

end TMVEngine

/-- The chunks of a chain with this many edges when only the tail has room. -/
def chunksFor (count : Nat) : Nat :=
  (count + (chunkCapacity - 1)) / chunkCapacity

theorem chunksFor_le_iff (count chunks : Nat) :
    chunksFor count ≤ chunks ↔ count ≤ chunks * chunkCapacity := by
  rw [chunksFor, chunkCapacity]
  omega

namespace EdgeChain

theorem length_edges_le (chunks : List TMVChunk) :
    (chunks.reverse.flatMap TMVChunk.edges).length ≤ chunks.length * chunkCapacity := by
  induction chunks with
  | nil => simp
  | cons chunk rest ih =>
    have bounded := chunk.bounded
    simp only [reverse_cons, flatMap_append, flatMap_cons, flatMap_nil,
      append_nil, length_append, length_cons, Nat.succ_mul]
    omega

theorem length_edges_full {chunks : List TMVChunk} (full : ∀ chunk ∈ chunks, ¬ chunk.canAppend) :
    (chunks.reverse.flatMap TMVChunk.edges).length = chunks.length * chunkCapacity := by
  induction chunks with
  | nil => simp
  | cons chunk rest ih =>
    rw [forall_mem_cons] at full
    have bounded := chunk.bounded
    have filled := full.1
    rw [TMVChunk.canAppend] at filled
    have others := ih full.2
    simp only [reverse_cons, flatMap_append, flatMap_cons, flatMap_nil,
      append_nil, length_append, length_cons, Nat.succ_mul]
    omega

/-- The chain has as few chunks as possible. -/
structure Snug (chain : EdgeChain) : Prop where
  packed : chain.Packed
  count : chain.chunks.length = chunksFor chain.edges.length

theorem snug_empty : Snug empty := by
  refine ⟨?_, ?_⟩
  · intro chunk mem
    exact absurd mem not_mem_nil
  · decide

theorem Snug.append {chain : EdgeChain} (snug : chain.Snug) {free : Nat}
    (room : chunksFor (chain.edges.length + 1) ≤ free + chain.chunks.length) (edge : TMVEdge) :
    ∃ res, chain.append free edge = some res ∧ res.1.Snug := by
  -- The chunks of the result are counted by its edges: a full chain needs one more.
  have counted : ∀ {res}, Appended chain free edge res →
      res.1.chunks.length = chunksFor (chain.edges.length + 1) → res.1.Snug := by
    intro res appended length
    refine ⟨appended.packed snug.packed, ?_⟩
    rw [appended.edges, length_append, length_singleton, length]
  have extends_full : (∀ chunk ∈ chain.chunks, ¬ chunk.canAppend) →
      ∃ res, chain.extend free edge = some res ∧ res.1.Snug := by
    intro full
    have total : chain.edges.length = chain.chunks.length * chunkCapacity := length_edges_full full
    have more : chunksFor (chain.edges.length + 1) = chain.chunks.length + 1 := by
      rw [total, chunksFor, chunkCapacity]
      omega
    obtain ⟨less, rfl⟩ := Nat.exists_eq_succ_of_ne_zero (n := free) (by omega)
    refine ⟨_, rfl, counted (extend_appended ?_ rfl) more.symm⟩
    exact fun tail isTail => full tail (mem_of_mem_head? isTail)
  obtain ⟨chunks, edgeCount⟩ := chain
  cases chunks with
  | nil => exact extends_full (by simp)
  | cons tail older =>
    by_cases hasRoom : tail.canAppend
    · have done : EdgeChain.append ⟨tail :: older, edgeCount⟩ free edge =
          some (⟨tail.append hasRoom edge :: older, edgeCount + 1⟩, free,
            ⟨tail.edges.length, false⟩) := by
        simp [EdgeChain.append, hasRoom]
      refine ⟨_, done, counted (append_appended done) ?_⟩
      have bounded := length_edges_le older
      have total : (edges ⟨tail :: older, edgeCount⟩).length =
          (older.reverse.flatMap TMVChunk.edges).length + tail.edges.length := by
        simp [edges]
      have count := snug.count
      rw [TMVChunk.canAppend] at hasRoom
      simp only [chunksFor, chunkCapacity, length_cons] at *
      omega
    · have done := extends_full (forall_mem_cons.mpr ⟨hasRoom, snug.packed⟩)
      simpa only [EdgeChain.append, hasRoom, dif_neg, not_false_eq_true] using done

end EdgeChain

namespace AppendProgress

def chain (prog : AppendProgress) (dir : Direction) (eid : UInt64) : EdgeChain :=
  (prog.engine.entry eid).chain dir

variable {prog : AppendProgress}

/-- A chain without gaps is filled as long as its edges fit into the chunks that are free. -/
theorem appendAll_fill {dir : Direction} {eid : UInt64} (edges : List TMVEdge)
    (snug : (prog.chain dir eid).Snug)
    (room : chunksFor ((prog.chain dir eid).edges.length + edges.length) ≤
      prog.engine.free + (prog.chain dir eid).chunks.length) :
    ∃ later, prog.appendAll (edges.map (⟨eid, dir, ·⟩)) = (later, true) ∧
      later.engine.free + chunksFor ((prog.chain dir eid).edges.length + edges.length) =
        prog.engine.free + (prog.chain dir eid).chunks.length ∧
      ∀ otherDir other, ¬ (dir = otherDir ∧ eid = other) →
        later.chain otherDir other = prog.chain otherDir other := by
  induction edges generalizing prog with
  | nil => exact ⟨prog, rfl, by rw [snug.count]; rfl, fun _ _ _ => rfl⟩
  | cons edge rest ih =>
    obtain ⟨res, appended, snugResult⟩ := snug.append (Nat.le_trans
      (Nat.div_le_div_right (by rw [length_cons]; omega)) room) edge
    obtain ⟨next, done⟩ : ∃ next, prog.append ⟨eid, dir, edge⟩ = (next, true) := by
      rcases prog.append_cases ⟨eid, dir, edge⟩ with
        ⟨_, exhausted⟩ | ⟨_, _, _, _, done⟩
      · exact absurd (exhausted.symm.trans appended) (by simp)
      · exact ⟨_, done⟩
    obtain ⟨_, again, free, chains⟩ := chain_append done
    obtain rfl := Option.some.inj (again.symm.trans appended)
    obtain ⟨grown, used, -, -, -⟩ := EdgeChain.append_appended appended
    have own := chains dir eid
    rw [if_pos ⟨rfl, rfl⟩] at own
    rw [← own] at snugResult
    rw [← own, ← free] at used
    have length : (next.chain dir eid).edges.length + rest.length =
        (prog.chain dir eid).edges.length + (edge :: rest).length := by
      rw [chain, own, grown, length_append, length_singleton, length_cons, chain]
      omega
    obtain ⟨later, filled, taken, others⟩ := ih snugResult (by rw [length]; exact used ▸ room)
    rw [length] at taken
    refine ⟨later, ?_, taken.trans used, fun otherDir other apart => ?_⟩
    · rw [map_cons, appendAll, done]
      exact filled
    · exact (others otherDir other apart).trans ((chains otherDir other).trans (if_neg apart))

theorem appendAll_fill_empty {dir : Direction} {eid : UInt64} {edges : List TMVEdge}
    (isEmpty : prog.chain dir eid = .empty) (room : chunksFor edges.length ≤ prog.engine.free) :
    ∃ later, prog.appendAll (edges.map (⟨eid, dir, ·⟩)) = (later, true) ∧
      later.engine.free + chunksFor edges.length = prog.engine.free ∧
      ∀ otherDir other, ¬ (dir = otherDir ∧ eid = other) →
        later.chain otherDir other = prog.chain otherDir other := by
  have filled := @appendAll_fill prog dir eid edges
  rw [isEmpty, show EdgeChain.empty.edges.length = 0 from rfl, Nat.zero_add] at filled
  exact filled EdgeChain.snug_empty room

theorem appendAll_append {steps more : List EdgeStep} {next : AppendProgress}
    (done : prog.appendAll steps = (next, true)) :
    prog.appendAll (steps ++ more) = next.appendAll more := by
  induction steps generalizing prog with
  | nil => rw [nil_append, (Prod.mk.inj done).1]
  | cons step rest ih =>
    rw [appendAll] at done
    rw [cons_append, appendAll]
    split at done
    · exact ih done
    · simp at done

/-- The saved edges fit into the chunks they need when their vertices start empty. -/
theorem appendAll_backups {backups : List VertexBackup}
    (distinct : (backups.map VertexBackup.entityId).Nodup)
    (missing : ∀ backup ∈ backups, ∀ dir, prog.chain dir backup.entityId = .empty)
    (room : (backups.map fun backup => chunksFor backup.outEdges.length +
      chunksFor backup.inEdges.length).sum ≤ prog.engine.free) :
    ∃ later, prog.appendAll (backups.flatMap (VertexBackup.steps fun _ => true)) =
      (later, true) := by
  induction backups generalizing prog with
  | nil => exact ⟨prog, rfl⟩
  | cons backup rest ih =>
    rw [map_cons, nodup_cons] at distinct
    rw [forall_mem_cons] at missing
    rw [map_cons, sum_cons] at room
    obtain ⟨middle, outFilled, outTaken, outOthers⟩ :=
      @appendAll_fill_empty prog .kOut _ backup.outEdges (missing.1 .kOut) (by omega)
    obtain ⟨next, inFilled, inTaken, inOthers⟩ :=
      @appendAll_fill_empty middle .kIn _ backup.inEdges
        ((outOthers .kIn backup.entityId (by simp)).trans (missing.1 .kIn)) (by omega)
    have others : ∀ other ∈ rest, ∀ dir, next.chain dir other.entityId = .empty := by
      intro other mem dir
      have apart : backup.entityId ≠ other.entityId :=
        fun same => distinct.1 (same ▸ mem_map_of_mem mem)
      rw [inOthers dir other.entityId (by simp [apart]),
        outOthers dir other.entityId (by simp [apart])]
      exact missing.2 other mem dir
    obtain ⟨later, done⟩ := ih distinct.2 others (by omega)
    refine ⟨later, ?_⟩
    rw [flatMap_cons, VertexBackup.steps, filter_true, filter_true, append_assoc,
      appendAll_append outFilled, appendAll_append inFilled]
    exact done

end AppendProgress

namespace TMVEngine

variable {eng : TMVEngine} {eid : UInt64} {pid : UInt32}
  {backups : List VertexBackup}

/-! ## The saved edges -/

theorem distinct_partitionBackups (eng : TMVEngine) (pid : UInt32) :
    ((eng.partitionBackups pid).map VertexBackup.entityId).Nodup := by
  rw [partitionBackups, List.Nodup, pairwise_map, pairwise_filterMap]
  apply List.Pairwise.imp _ Std.ExtTreeMap.distinct_keys_toList
  intro vertex other ne backup isBackup otherBackup isOther same
  rw [Option.ite_none_right_eq_some, Option.some.injEq] at isBackup isOther
  rw [← isBackup.2, ← isOther.2] at same
  exact ne (Std.LawfulEqCmp.compare_eq_iff_eq.mpr same)

theorem edges_of_mem_partitionBackups {backup : VertexBackup}
    (mem : backup ∈ eng.partitionBackups pid) (dir : Direction) :
    backup.edges dir = eng.edges dir backup.entityId := by
  obtain ⟨vertex, inIndex, isBackup⟩ := mem_filterMap.mp mem
  rw [Option.ite_none_right_eq_some, Option.some.injEq] at isBackup
  have found := Std.ExtTreeMap.mem_toList_iff_getElem?_eq_some.mp inIndex
  rw [← isBackup.2, edges, entry, found]
  cases dir with
  | kOut => rfl
  | kIn => rfl

theorem reserved_of_not_mem_partitionBackups
    (missing : eid ∉ (eng.partitionBackups pid).map VertexBackup.entityId)
    {dir : Direction} {edge : TMVEdge} (mem : edge ∈ eng.edges dir eid) : edge.reserved ≠ pid := by
  intro own
  cases found : eng.index[eid]? with
  | none =>
    rw [edges, entry, found] at mem
    cases dir with
    | kOut => exact absurd mem not_mem_nil
    | kIn => exact absurd mem not_mem_nil
  | some vertex =>
    apply missing
    have lt : edge ∈ vertex.outChain.edges ++ vertex.inChain.edges := by
      rw [edges, entry, found] at mem
      rw [mem_append]
      cases dir with
      | kOut => exact Or.inl mem
      | kIn => exact Or.inr mem
    have selected : ((vertex.outChain.edges ++ vertex.inChain.edges).any
        fun edge => edge.reserved = pid) = true :=
      any_eq_true.mpr ⟨edge, lt, decide_eq_true own⟩
    rw [mem_map]
    refine ⟨⟨eid, vertex.outChain.edges, vertex.inChain.edges⟩, ?_, rfl⟩
    rw [partitionBackups, mem_filterMap]
    exact ⟨(eid, vertex), Std.ExtTreeMap.mem_toList_iff_getElem?_eq_some.mpr found, if_pos selected⟩

theorem addedEdges_backups (distinct : (backups.map VertexBackup.entityId).Nodup)
    (saved : ∀ backup ∈ backups, ∀ dir, backup.edges dir = eng.edges dir backup.entityId)
    (keep : TMVEdge → Bool) (dir : Direction) (eid : UInt64) :
    addedEdges (backups.flatMap (VertexBackup.steps keep)) dir eid =
      if eid ∈ backups.map VertexBackup.entityId then
        (eng.edges dir eid).filter keep
      else [] := by
  induction backups with
  | nil => rfl
  | cons backup rest ih =>
    rw [map_cons, nodup_cons] at distinct
    rw [forall_mem_cons] at saved
    rw [flatMap_cons, addedEdges_append, VertexBackup.addedEdges_steps,
      ih distinct.2 saved.2, saved.1]
    by_cases same : backup.entityId = eid
    · subst same
      simp [distinct.1]
    · have notSame : ¬ eid = backup.entityId := fun equal => same equal.symm
      simp [same, notSame]

theorem edges_invalidateAll (distinct : (backups.map VertexBackup.entityId).Nodup)
    (eng : TMVEngine) (dir : Direction) (eid : UInt64) :
    (eng.invalidateAll backups).edges dir eid =
      if eid ∈ backups.map VertexBackup.entityId then [] else eng.edges dir eid := by
  rw [edges, entry, (invalidateAll_spec distinct eng).1]
  split
  · cases dir with
    | kOut => rfl
    | kIn => rfl
  · rfl

theorem mem_ids_of_mem_steps {keep : TMVEdge → Bool} {step : EdgeStep}
    (mem : step ∈ backups.flatMap (VertexBackup.steps keep)) :
    step.entityId ∈ backups.map VertexBackup.entityId := by
  obtain ⟨backup, inBackups, inSteps⟩ := mem_flatMap.mp mem
  have same : backup.entityId = step.entityId := by
    rw [VertexBackup.steps, mem_append, mem_map, mem_map] at inSteps
    rcases inSteps with ⟨_, _, isStep⟩ | ⟨_, _, isStep⟩
    · rw [← isStep]
    · rw [← isStep]
  exact mem_map.mpr ⟨backup, inBackups, same⟩

section Replacing

variable {eng : TMVEngine} {backups : List VertexBackup}
  (distinct : (backups.map VertexBackup.entityId).Nodup)
  (saved : ∀ backup ∈ backups, ∀ dir, backup.edges dir = eng.edges dir backup.entityId)

include distinct

theorem sum_chunkCount_invalidateAll (eng : TMVEngine) :
    ((backups.map VertexBackup.entityId).map (eng.invalidateAll backups).chunkCount).sum = 0 := by
  rw [sum_eq_zero_iff]
  intro count mem
  obtain ⟨eid, lt, isCount⟩ := mem_map.mp mem
  rw [← isCount, chunkCount, entry, (invalidateAll_spec distinct eng).1, if_pos lt]
  rfl

include saved

/-- As long as only the saved vertices were touched, their edges can be brought back. -/
theorem restoreBackups_spec {kept : TMVEngine}
    (others : ∀ eid ∉ backups.map VertexBackup.entityId, kept.index[eid]? = eng.index[eid]?)
    (accounts : kept.free + ((backups.map VertexBackup.entityId).map kept.chunkCount).sum =
      eng.free + ((backups.map VertexBackup.entityId).map eng.chunkCount).sum)
    (msg : String) :
    ∃ later, kept.restoreBackups backups msg = (later, .error (.resourceExhausted msg "")) ∧
      ∀ dir eid, later.edges dir eid = eng.edges dir eid := by
  have added := addedEdges_backups distinct saved fun _ => true
  have fits : (backups.map fun backup => chunksFor backup.outEdges.length +
      chunksFor backup.inEdges.length).sum ≤
      ((backups.map VertexBackup.entityId).map eng.chunkCount).sum := by
    rw [map_map]
    refine sum_le_sum fun backup mem => Nat.add_le_add ?_ ?_
    · rw [chunksFor_le_iff, show backup.outEdges = _ from saved backup mem .kOut]
      exact EdgeChain.length_edges_le _
    · rw [chunksFor_le_iff, show backup.inEdges = _ from saved backup mem .kIn]
      exact EdgeChain.length_edges_le _
  obtain ⟨later, done⟩ := @AppendProgress.appendAll_backups
    (AppendProgress.start (kept.invalidateAll backups)) _ distinct (by
      intro backup mem dir
      rw [AppendProgress.chain, AppendProgress.start, entry, (invalidateAll_spec distinct kept).1,
        if_pos (mem_map_of_mem mem)]
      cases dir with
      | kOut => rfl
      | kIn => rfl)
    (by
      rw [AppendProgress.start, (invalidateAll_spec distinct kept).2, accounts]
      omega)
  refine ⟨later.engine, ?_, ?_⟩
  · rw [restoreBackups, done]
  · intro dir eid
    rw [AppendProgress.edges_appendAll done, AppendProgress.start,
      edges_invalidateAll distinct, added]
    by_cases lt : eid ∈ backups.map VertexBackup.entityId
    · rw [if_pos lt, if_pos lt, nil_append, filter_true]
    · rw [if_neg lt, if_neg lt, append_nil, edges, edges,
        entry_of_index (others eid lt)]

end Replacing

/-- The appends stand in place of the edges of the partition. -/
def Replaces (later eng : TMVEngine) (pid : UInt32) (appends : List EdgeAppend) : Prop :=
  ∀ dir eid, later.edges dir eid = (eng.edges dir eid).filter (fun edge => edge.reserved ≠ pid) ++
    addedEdges (appends.flatMap EdgeAppend.steps) dir eid

/-- A replacement either takes the edges of the partition away and appends the new ones, or
leaves the edges of every vertex as they were. -/
theorem replacePartitionEdgesAtomic_cases
    (eng : TMVEngine) (pid : UInt32) (appends : List EdgeAppend) :
    (∃ later, eng.replacePartitionEdgesAtomic pid appends = (later, .ok ()) ∧
      later.Replaces eng pid appends) ∨
    ∃ later status, eng.replacePartitionEdgesAtomic pid appends = (later, .error status) ∧
      ∀ dir eid, later.edges dir eid = eng.edges dir eid := by
  rw [replacePartitionEdgesAtomic]
  split
  · exact Or.inr ⟨eng, _, rfl, fun _ _ => rfl⟩
  dsimp only
  have distinct := eng.distinct_partitionBackups pid
  have saved : ∀ backup ∈ eng.partitionBackups pid, ∀ dir,
      backup.edges dir = eng.edges dir backup.entityId :=
    fun _ mem => edges_of_mem_partitionBackups mem
  have touched := @appendAll_inside _ distinct ((eng.partitionBackups pid).flatMap
      (VertexBackup.steps fun edge => edge.reserved ≠ pid))
    (fun _ => mem_ids_of_mem_steps)
    (AppendProgress.start (eng.invalidateAll (eng.partitionBackups pid)))
  have restored := fun msg => restoreBackups_spec distinct saved (by
      intro eid outside
      rw [touched.1 eid outside, AppendProgress.start,
        (invalidateAll_spec distinct eng).1, if_neg outside])
    (by
      rw [touched.2, AppendProgress.start, sum_chunkCount_invalidateAll distinct,
        (invalidateAll_spec distinct eng).2, Nat.add_zero]) msg
  split
  · rename_i kept failed
    rw [failed] at restored
    obtain ⟨later, res, same⟩ := restored "TMV pool exhausted filtering partition replacement"
    exact Or.inr ⟨later, _, res, same⟩
  · rename_i kept done
    rw [done] at restored
    split
    · rename_i prog appended
      refine Or.inl ⟨prog.engine, rfl, ?_⟩
      intro dir eid
      rw [AppendProgress.edges_appendAll appended, AppendProgress.start,
        AppendProgress.edges_appendAll done, AppendProgress.start, edges_invalidateAll distinct,
        addedEdges_backups distinct saved]
      by_cases lt : eid ∈ (eng.partitionBackups pid).map VertexBackup.entityId
      · rw [if_pos lt, if_pos lt, nil_append]
      · have others : (eng.edges dir eid).filter
            (fun edge => edge.reserved ≠ pid) = eng.edges dir eid :=
          filter_eq_self.mpr fun edge mem =>
            decide_eq_true (reserved_of_not_mem_partitionBackups lt mem)
        rw [if_neg lt, if_neg lt, others, append_nil]
    · rename_i prog failed
      have undone := AppendProgress.rollback_appendAll (AppendProgress.known_start kept.engine)
        (appends.flatMap EdgeAppend.steps)
      rw [failed] at undone
      have rolledBack : prog.rollback = kept.engine := undone
      obtain ⟨later, res, same⟩ := restored "TMV pool exhausted"
      rw [rolledBack]
      exact Or.inr ⟨later, _, res, same⟩

/-- A replacement that succeeds keeps the edges of the other partitions in their order and
puts the new edges behind them, and no other edge of the partition is left; one that fails
leaves the edges of every vertex as they were. -/
theorem replacement_isolated_and_atomic
    (eng : TMVEngine) (pid : UInt32) (appends : List EdgeAppend) :
    let res := eng.replacePartitionEdgesAtomic pid appends
    let added := addedEdges (appends.flatMap EdgeAppend.steps)
    (res.2 = .ok () ∧ ∀ dir eid,
      res.1.edges dir eid =
        (eng.edges dir eid).filter (fun edge => edge.reserved ≠ pid) ++ added dir eid ∧
      ∀ edge ∈ res.1.edges dir eid, edge.reserved = pid → edge ∈ added dir eid) ∨
    (∃ status, res.2 = .error status) ∧ ∀ dir eid, res.1.edges dir eid = eng.edges dir eid := by
  intro res added
  rcases eng.replacePartitionEdgesAtomic_cases pid appends with
    ⟨later, replaced, edges⟩ | ⟨later, status, failed, edges⟩
  · have isResult : res = (later, .ok ()) := replaced
    rw [isResult]
    refine Or.inl ⟨rfl, ?_⟩
    intro dir eid
    refine ⟨edges dir eid, ?_⟩
    intro edge mem own
    rw [edges dir eid] at mem
    rcases mem_append.mp mem with kept | new
    · have foreign := (mem_filter.mp kept).2
      simp [own] at foreign
    · exact new
  · have isResult : res = (later, .error status) := failed
    rw [isResult]
    exact Or.inr ⟨⟨status, rfl⟩, edges⟩

theorem mem_exportPartitionEdges {dir : Direction} {edge : TMVEdge} (mem : edge ∈ eng.edges dir eid)
    (own : edge.reserved = pid) : ⟨eid, dir, edge, false⟩ ∈ eng.exportPartitionEdges pid := by
  rw [exportPartitionEdges, mem_flatMap]
  cases found : eng.index[eid]? with
  | none =>
    rw [edges, entry, found] at mem
    cases dir with
    | kOut => exact absurd mem not_mem_nil
    | kIn => exact absurd mem not_mem_nil
  | some vertex =>
    rw [edges, entry, found] at mem
    refine ⟨(eid, vertex), Std.ExtTreeMap.mem_toList_iff_getElem?_eq_some.mpr found, ?_⟩
    rw [mem_append, mem_map, mem_map]
    cases dir with
    | kOut => exact Or.inl ⟨edge, mem_filter.mpr ⟨mem, decide_eq_true own⟩, rfl⟩
    | kIn => exact Or.inr ⟨edge, mem_filter.mpr ⟨mem, decide_eq_true own⟩, rfl⟩

end TMVEngine

end CedarGraph
