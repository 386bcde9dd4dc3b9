import CedarGraph.Types

/-!
# The engine of the compute node

`TMVEngine` keeps the edges of a vertex in two chains of chunks. A chunk holds a bounded number
of edges and the smallest start and largest end of them. When the pool of chunks runs out in the
middle of an append, everything the append has done is taken back.
-/

namespace CedarGraph

open List

/-- `UINT32_MAX`, also the end of an interval that is still open. -/
def maxTime : Nat := 2 ^ 32 - 1

structure TMVEdge where
  targetId : UInt64
  validFrom : Nat
  validTo : Nat
  attrOffset : UInt64
  edgeType : UInt32
  reserved : UInt32
  deriving DecidableEq, Repr

def chunkCapacity : Nat := 65536

def smallestFrom (edges : List TMVEdge) : Nat :=
  edges.foldl (fun smallest edge => min smallest edge.validFrom) maxTime

def largestTo (edges : List TMVEdge) : Nat :=
  edges.foldl (fun largest edge => max largest edge.validTo) 0

/-- The edges below the event count, and the bounds kept for the scan. -/
structure TMVChunk where
  edges : List TMVEdge
  minValidFrom : Nat
  maxValidTo : Nat
  bounded : edges.length ≤ chunkCapacity
  minimum : minValidFrom = smallestFrom edges
  maximum : maxValidTo = largestTo edges

namespace TMVChunk

theorem ext_edges {chunk other : TMVChunk} (same : chunk.edges = other.edges) : chunk = other := by
  obtain ⟨edges, _, _, _, minimum, maximum⟩ := chunk
  obtain ⟨otherEdges, _, _, _, otherMinimum, otherMaximum⟩ := other
  obtain rfl : edges = otherEdges := same
  subst minimum maximum otherMinimum otherMaximum
  rfl

def canAppend (chunk : TMVChunk) : Prop :=
  chunk.edges.length < chunkCapacity

instance (chunk : TMVChunk) : Decidable chunk.canAppend :=
  inferInstanceAs (Decidable (_ < _))

def empty : TMVChunk where
  edges := []
  minValidFrom := maxTime
  maxValidTo := 0
  bounded := Nat.zero_le _
  minimum := rfl
  maximum := rfl

theorem canAppend_empty : empty.canAppend := by
  decide

def append (chunk : TMVChunk) (room : chunk.canAppend) (edge : TMVEdge) : TMVChunk where
  edges := chunk.edges ++ [edge]
  minValidFrom := min chunk.minValidFrom edge.validFrom
  maxValidTo := max chunk.maxValidTo edge.validTo
  bounded := by
    rw [length_append, length_singleton]
    exact room
  minimum := by
    rw [smallestFrom, foldl_append, chunk.minimum]
    rfl
  maximum := by
    rw [largestTo, foldl_append, chunk.maximum]
    rfl

/-- The event count is set back, and the bounds are computed again. -/
def truncate (chunk : TMVChunk) (count : Nat) : TMVChunk where
  edges := chunk.edges.take count
  minValidFrom := smallestFrom (chunk.edges.take count)
  maxValidTo := largestTo (chunk.edges.take count)
  bounded := Nat.le_trans (length_take_le' count chunk.edges) chunk.bounded
  minimum := rfl
  maximum := rfl

theorem truncate_append (chunk : TMVChunk) (room : chunk.canAppend) (edge : TMVEdge) :
    (chunk.append room edge).truncate chunk.edges.length = chunk := by
  apply ext_edges
  simp [truncate, append]

end TMVChunk

/-- A chain of chunks, its tail first, and the number of its edges. -/
structure EdgeChain where
  chunks : List TMVChunk
  edgeCount : Nat

/-- What is needed to take an append to a chain back. -/
structure ChainMutation where
  appendedIndex : Nat
  newChunk : Bool

namespace EdgeChain

def empty : EdgeChain :=
  ⟨[], 0⟩

variable (chain : EdgeChain)

def edges : List TMVEdge :=
  chain.chunks.reverse.flatMap TMVChunk.edges

/-- A new chunk from the pool for the edge. -/
def extend (free : Nat) (edge : TMVEdge) : Option (EdgeChain × Nat × ChainMutation) :=
  match free with
  | 0 => none
  | free + 1 =>
    some (⟨TMVChunk.empty.append TMVChunk.canAppend_empty edge :: chain.chunks,
      chain.edgeCount + 1⟩, free, ⟨0, true⟩)

def append (free : Nat) (edge : TMVEdge) : Option (EdgeChain × Nat × ChainMutation) :=
  match chain.chunks with
  | [] => chain.extend free edge
  | tail :: older =>
    if room : tail.canAppend then
      some (⟨tail.append room edge :: older, chain.edgeCount + 1⟩, free, ⟨tail.edges.length, false⟩)
    else chain.extend free edge

/-- The chain without its last append, and the number of chunks that are freed. -/
def rollbackAppend (mutation : ChainMutation) : EdgeChain × Nat :=
  match chain.chunks with
  | [] => (chain, 0)
  | tail :: older =>
    if mutation.newChunk then (⟨older, chain.edgeCount - 1⟩, 1)
    else (⟨tail.truncate mutation.appendedIndex :: older, chain.edgeCount - 1⟩, 0)

/-- Only the tail of the chain has room. -/
def Packed : Prop :=
  ∀ chunk ∈ chain.chunks.tail, ¬ chunk.canAppend

structure Appended (chain : EdgeChain) (free : Nat) (edge : TMVEdge)
    (res : EdgeChain × Nat × ChainMutation) : Prop where
  edges : res.1.edges = chain.edges ++ [edge]
  used : res.2.1 + res.1.chunks.length = free + chain.chunks.length
  undone : res.1.rollbackAppend res.2.2 = (chain, free - res.2.1)
  taken : res.2.1 ≤ free
  packed : chain.Packed → res.1.Packed

theorem extend_appended
    {chain : EdgeChain} {free : Nat} {edge : TMVEdge} {res : EdgeChain × Nat × ChainMutation}
    (full : ∀ tail ∈ chain.chunks.head?, ¬ tail.canAppend)
    (done : chain.extend free edge = some res) : Appended chain free edge res := by
  cases free with
  | zero => simp [extend] at done
  | succ free =>
    simp only [extend, Option.some.injEq] at done
    subst done
    refine ⟨?_, ?_, ?_, Nat.le_succ free, ?_⟩
    · simp [edges, TMVChunk.append, TMVChunk.empty]
    · simp only [length_cons]
      omega
    · simp [rollbackAppend]
    · intro packed chunk mem
      obtain ⟨chunks, edgeCount⟩ := chain
      cases chunks with
      | nil => exact absurd mem not_mem_nil
      | cons tail older =>
        rcases mem_cons.mp mem with rfl | inOlder
        · exact full chunk rfl
        · exact packed chunk inOlder

theorem append_appended
    {chain : EdgeChain} {free : Nat} {edge : TMVEdge} {res : EdgeChain × Nat × ChainMutation}
    (done : chain.append free edge = some res) : Appended chain free edge res := by
  obtain ⟨chunks, edgeCount⟩ := chain
  cases chunks with
  | nil => exact extend_appended (by simp) done
  | cons tail older =>
    by_cases room : tail.canAppend
    · simp only [append, room, dif_pos, Option.some.injEq] at done
      subst done
      refine ⟨?_, rfl, ?_, Nat.le_refl free, ?_⟩
      · simp [edges, TMVChunk.append]
      · simp [rollbackAppend, TMVChunk.truncate_append]
      · exact fun packed => packed
    · simp only [append, room, dif_neg, not_false_eq_true] at done
      exact extend_appended (by simpa using room) done

end EdgeChain

inductive Direction where
  | kOut
  | kIn
  deriving DecidableEq, Repr

structure TMVVertexEntry where
  outChain : EdgeChain
  inChain : EdgeChain

namespace TMVVertexEntry

def empty : TMVVertexEntry :=
  ⟨.empty, .empty⟩

variable (entry : TMVVertexEntry)

def chain : Direction → EdgeChain
  | .kOut => entry.outChain
  | .kIn => entry.inChain

def setChain (dir : Direction) (chain : EdgeChain) : TMVVertexEntry :=
  match dir with
  | .kOut => { entry with outChain := chain }
  | .kIn => { entry with inChain := chain }

@[simp] theorem chain_setChain (dir other : Direction) (chain : EdgeChain) :
    (entry.setChain dir chain).chain other = if dir = other then chain else entry.chain other := by
  cases dir <;> cases other <;> rfl

@[simp] theorem setChain_setChain (dir : Direction) (chain later : EdgeChain) :
    (entry.setChain dir chain).setChain dir later = entry.setChain dir later := by
  cases dir <;> rfl

@[simp] theorem setChain_chain (dir : Direction) :
    entry.setChain dir (entry.chain dir) = entry := by
  cases dir <;> rfl

end TMVVertexEntry

/-- The order in which the index is walked: the shards one after the other, each of them
by the id of the vertex. -/
def vertexOrder (id other : UInt64) : Ordering :=
  (compare (id.toNat % 256) (other.toNat % 256)).then (compare id other)

instance : Std.TransCmp vertexOrder := by
  have same : vertexOrder = compareLex (compareOn fun id : UInt64 => id.toNat % 256) compare := rfl
  rw [same]
  infer_instance

instance : Std.LawfulEqCmp vertexOrder where
  eq_of_compare := by
    intro id other same
    exact Std.LawfulEqCmp.eq_of_compare (Ordering.then_eq_eq.mp same).2

abbrev TMVIndex :=
  Std.ExtTreeMap UInt64 TMVVertexEntry vertexOrder

/-- The index and the number of free chunks in the pool. -/
structure TMVEngine where
  index : TMVIndex
  free : Nat

structure EdgeStep where
  entityId : UInt64
  dir : Direction
  edge : TMVEdge
  deriving DecidableEq

structure EdgeAppend where
  entityId : UInt64
  dir : Direction
  edge : TMVEdge
  reverse : Bool
  deriving DecidableEq

/-- The append itself and the edge in the other direction. -/
def EdgeAppend.steps (append : EdgeAppend) : List EdgeStep :=
  ⟨append.entityId, append.dir, append.edge⟩ ::
    if append.reverse ∧ append.dir = .kOut then
      [⟨append.edge.targetId, .kIn, { append.edge with targetId := append.entityId }⟩]
    else []

structure AppendMutation where
  entityId : UInt64
  dir : Direction
  chain : ChainMutation

namespace TMVEngine

def entry (eng : TMVEngine) (eid : UInt64) : TMVVertexEntry :=
  eng.index[eid]?.getD .empty

def edges (eng : TMVEngine) (dir : Direction) (eid : UInt64) : List TMVEdge :=
  ((eng.entry eid).chain dir).edges

def setEntry (eng : TMVEngine) (eid : UInt64) (entry : TMVVertexEntry) : TMVEngine :=
  { eng with index := eng.index.insert eid entry }

def withFree (eng : TMVEngine) (free : Nat) : TMVEngine :=
  { eng with free }

theorem ext_index {eng other : TMVEngine} (free : eng.free = other.free)
    (index : ∀ eid : UInt64, eng.index[eid]? = other.index[eid]?) : eng = other := by
  obtain ⟨map, count⟩ := eng
  obtain ⟨otherMap, otherCount⟩ := other
  obtain rfl : map = otherMap := Std.ExtTreeMap.ext_getElem? index
  obtain rfl : count = otherCount := free
  rfl

section

variable (eng : TMVEngine)
include eng

@[simp] theorem index_setEntry (eid other : UInt64) (entry : TMVVertexEntry) :
    (eng.setEntry eid entry).index[other]? =
      if eid = other then some entry else eng.index[other]? := by
  simp [setEntry, Std.ExtTreeMap.getElem?_insert]

@[simp] theorem free_setEntry (eid : UInt64) (entry : TMVVertexEntry) :
    (eng.setEntry eid entry).free = eng.free :=
  rfl

@[simp] theorem index_withFree (free : Nat) : (eng.withFree free).index = eng.index :=
  rfl

@[simp] theorem free_withFree (free : Nat) : (eng.withFree free).free = free :=
  rfl

@[simp] theorem entry_withFree (free : Nat) (eid : UInt64) :
    (eng.withFree free).entry eid = eng.entry eid :=
  rfl

theorem entry_setEntry (eid other : UInt64) (entry : TMVVertexEntry) :
    (eng.setEntry eid entry).entry other =
      if eid = other then entry else eng.entry other := by
  rw [TMVEngine.entry, index_setEntry]
  split <;> rfl

end

def findOrCreateEntry (eng : TMVEngine) (eid : UInt64) : TMVEngine :=
  eng.setEntry eid (eng.entry eid)

theorem findOrCreateEntry_found {eng : TMVEngine} {eid : UInt64} (found : eng.index[eid]? ≠ none) :
    eng.findOrCreateEntry eid = eng := by
  obtain ⟨entry, isEntry⟩ := Option.ne_none_iff_exists'.mp found
  refine ext_index (free_setEntry _ _ _) ?_
  intro other
  rw [findOrCreateEntry, index_setEntry, TMVEngine.entry, isEntry]
  split
  · rename_i same
    rw [← same, isEntry]
    rfl
  · rfl

def rollbackAppend (eng : TMVEngine) (mutation : AppendMutation) : TMVEngine :=
  match eng.index[mutation.entityId]? with
  | none => eng
  | some entry =>
    let (chain, freed) := (entry.chain mutation.dir).rollbackAppend mutation.chain
    (eng.setEntry mutation.entityId (entry.setChain mutation.dir chain)).withFree (eng.free + freed)

def removeEntryIfEmpty (eng : TMVEngine) (eid : UInt64) : TMVEngine :=
  match eng.index[eid]? with
  | none => eng
  | some entry =>
    if entry.outChain.chunks.isEmpty ∧ entry.inChain.chunks.isEmpty ∧
        entry.outChain.edgeCount = 0 ∧ entry.inChain.edgeCount = 0 then
      { eng with index := eng.index.erase eid }
    else eng

end TMVEngine

/-- The engine in the middle of an append, with what the append has done so far, the last
one first. -/
structure AppendProgress where
  engine : TMVEngine
  mutations : List AppendMutation
  created : List UInt64

variable (prog : AppendProgress)

namespace AppendProgress

def start (eng : TMVEngine) : AppendProgress :=
  ⟨eng, [], []⟩

/-- `AppendToEntry` on the entry of the vertex, which is created when there is none. -/
def append (step : EdgeStep) : AppendProgress × Bool :=
  let eng := prog.engine.findOrCreateEntry step.entityId
  let entry := eng.entry step.entityId
  let created :=
    if prog.engine.index[step.entityId]?.isNone then step.entityId :: prog.created
    else prog.created
  match (entry.chain step.dir).append eng.free step.edge with
  | none => (⟨eng, prog.mutations, created⟩, false)
  | some (chain, free, mutation) =>
    (⟨(eng.setEntry step.entityId (entry.setChain step.dir chain)).withFree free,
      ⟨step.entityId, step.dir, mutation⟩ :: prog.mutations, created⟩, true)

/-- The loop over the appends; it ends where the pool runs out. -/
def appendAll (prog : AppendProgress) : List EdgeStep → AppendProgress × Bool
  | [] => (prog, true)
  | step :: rest =>
    match prog.append step with
    | (later, true) => later.appendAll rest
    | (later, false) => (later, false)

def rollback : TMVEngine :=
  prog.created.foldl TMVEngine.removeEntryIfEmpty
    (prog.mutations.foldl TMVEngine.rollbackAppend prog.engine)

end AppendProgress

def poolExhausted : Status :=
  .resourceExhausted "TMV pool exhausted" ""

def TMVEngine.appendEdgesAtomic (eng : TMVEngine) (appends : List EdgeAppend) :
    TMVEngine × Except Status Unit :=
  match (AppendProgress.start eng).appendAll (appends.flatMap EdgeAppend.steps) with
  | (prog, true) => (prog.engine, .ok ())
  | (prog, false) => (prog.rollback, .error poolExhausted)

/-! ### A failed append leaves no trace -/

namespace TMVEngine

section

variable (eng : TMVEngine)
include eng

@[simp] theorem index_findOrCreateEntry (eid other : UInt64) :
    (eng.findOrCreateEntry eid).index[other]? =
      if eid = other then some (eng.entry eid) else eng.index[other]? := by
  rw [findOrCreateEntry, index_setEntry]

@[simp] theorem free_findOrCreateEntry (eid : UInt64) :
    (eng.findOrCreateEntry eid).free = eng.free :=
  rfl

theorem index_rollbackAppend (mutation : AppendMutation) (other : UInt64) :
    (eng.rollbackAppend mutation).index[other]? =
      if mutation.entityId = other then
        eng.index[other]?.map fun entry => entry.setChain mutation.dir
          ((entry.chain mutation.dir).rollbackAppend mutation.chain).1
      else eng.index[other]? := by
  by_cases same : mutation.entityId = other
  · subst same
    cases found : eng.index[mutation.entityId]? with
    | none => simp [rollbackAppend, found]
    | some entry => simp [rollbackAppend, found]
  · cases found : eng.index[mutation.entityId]? with
    | none => simp [rollbackAppend, found, same]
    | some entry => simp [rollbackAppend, found, same]

theorem free_rollbackAppend (mutation : AppendMutation) :
    (eng.rollbackAppend mutation).free = eng.free +
      (eng.index[mutation.entityId]?.map fun entry =>
        ((entry.chain mutation.dir).rollbackAppend mutation.chain).2).getD 0 := by
  cases found : eng.index[mutation.entityId]? with
  | none => simp [rollbackAppend, found]
  | some entry => simp [rollbackAppend, found]

end

/-- A mutation of another vertex does not see an entry that was created later. -/
theorem rollbackAppend_findOrCreateEntry
    {eng : TMVEngine} {eid : UInt64} {mutation : AppendMutation}
    (missing : eng.index[eid]? = none) (other : mutation.entityId ≠ eid) :
    (eng.findOrCreateEntry eid).rollbackAppend mutation =
        (eng.rollbackAppend mutation).findOrCreateEntry eid ∧
      (eng.rollbackAppend mutation).index[eid]? = none := by
  have kept : (eng.rollbackAppend mutation).index[eid]? = none := by
    rw [index_rollbackAppend, if_neg other, missing]
  have absent : eng.entry eid = (eng.rollbackAppend mutation).entry eid := by
    rw [entry, entry, missing, kept]
  refine ⟨?_, kept⟩
  refine ext_index ?_ ?_
  · simp [free_rollbackAppend, other.symm]
  · intro vertex
    by_cases isMutation : mutation.entityId = vertex
    · have notCreated : ¬ eid = vertex := fun same => other (isMutation.trans same.symm)
      simp [index_rollbackAppend, isMutation, notCreated]
    · simp [index_rollbackAppend, isMutation, absent]

theorem removeEntryIfEmpty_findOrCreateEntry
    {eng : TMVEngine} {eid : UInt64} (missing : eng.index[eid]? = none) :
    (eng.findOrCreateEntry eid).removeEntryIfEmpty eid = eng := by
  have absent : eng.entry eid = .empty := by
    rw [entry, missing]
    rfl
  have created : (eng.findOrCreateEntry eid).index[eid]? = some .empty := by
    rw [findOrCreateEntry, index_setEntry, if_pos rfl, absent]
  refine ext_index ?_ ?_
  · rw [removeEntryIfEmpty, created]
    rfl
  · intro vertex
    simp only [removeEntryIfEmpty, created, TMVVertexEntry.empty, EdgeChain.empty]
    simp only [isEmpty_nil, and_self, if_true, Std.ExtTreeMap.getElem?_erase,
      Std.LawfulEqCmp.compare_eq_iff_eq, findOrCreateEntry, index_setEntry]
    by_cases same : eid = vertex
    · rw [if_pos same, ← same, missing]
    · rw [if_neg same, if_neg same]

end TMVEngine

namespace AppendProgress

/-- The vertices created up to and including the append. -/
def createdBy (step : EdgeStep) : List UInt64 :=
  if prog.engine.index[step.entityId]?.isNone then step.entityId :: prog.created
  else prog.created

theorem append_cases (step : EdgeStep) :
    (prog.append step =
        (⟨prog.engine.findOrCreateEntry step.entityId, prog.mutations,
          prog.createdBy step⟩, false) ∧
      ((prog.engine.entry step.entityId).chain step.dir).append prog.engine.free step.edge = none) ∨
    ∃ chain free mutation,
      ((prog.engine.entry step.entityId).chain step.dir).append prog.engine.free
        step.edge = some (chain, free, mutation) ∧
      prog.append step =
        (⟨(prog.engine.setEntry step.entityId
              ((prog.engine.entry step.entityId).setChain step.dir chain)).withFree free,
          ⟨step.entityId, step.dir, mutation⟩ :: prog.mutations,
          prog.createdBy step⟩, true) := by
  have sameEntry : (prog.engine.findOrCreateEntry step.entityId).entry step.entityId =
      prog.engine.entry step.entityId := by
    rw [TMVEngine.findOrCreateEntry, TMVEngine.entry_setEntry, if_pos rfl]
  rw [append]
  simp only [sameEntry, TMVEngine.free_findOrCreateEntry]
  cases appended : ((prog.engine.entry step.entityId).chain step.dir).append
      prog.engine.free step.edge with
  | none => exact Or.inl ⟨rfl, rfl⟩
  | some res =>
    obtain ⟨chain, free, mutation⟩ := res
    refine Or.inr ⟨chain, free, mutation, rfl, ?_⟩
    have sameEngine : (prog.engine.findOrCreateEntry step.entityId).setEntry step.entityId
        ((prog.engine.entry step.entityId).setChain step.dir chain) =
        prog.engine.setEntry step.entityId
          ((prog.engine.entry step.entityId).setChain step.dir chain) := by
      refine TMVEngine.ext_index ?_ ?_
      · simp
      · intro vertex
        by_cases same : step.entityId = vertex
        · simp [same]
        · simp [same]
    rw [createdBy, ← sameEngine]

/-- Every vertex that was changed is in the index. -/
def Known : Prop :=
  ∀ mutation ∈ prog.mutations, prog.engine.index[mutation.entityId]? ≠ none

theorem known_start (eng : TMVEngine) : Known (start eng) := by
  intro mutation mem
  exact absurd mem not_mem_nil

variable {prog : AppendProgress}

theorem Known.append (known : Known prog) (step : EdgeStep) : Known (prog.append step).1 := by
  intro mutation mem
  rcases prog.append_cases step with ⟨exhausted, _⟩ | ⟨chain, free, new, _, done⟩
  · rw [exhausted] at mem ⊢
    have old := known mutation mem
    rw [TMVEngine.index_findOrCreateEntry]
    split
    · simp
    · exact old
  · rw [done] at mem ⊢
    dsimp only at mem ⊢
    rw [TMVEngine.index_withFree, TMVEngine.index_setEntry]
    split
    · simp
    · rename_i other
      rcases mem_cons.mp mem with isNew | old
      · exact absurd (congrArg AppendMutation.entityId isNew).symm other
      · exact known mutation old

theorem rollbackAppend_append {eng : TMVEngine} {step : EdgeStep} {chain : EdgeChain} {free : Nat}
    {mutation : ChainMutation}
    (appended : EdgeChain.Appended ((eng.entry step.entityId).chain step.dir) eng.free
      step.edge (chain, free, mutation)) :
    ((eng.setEntry step.entityId ((eng.entry step.entityId).setChain step.dir
        chain)).withFree free).rollbackAppend ⟨step.entityId, step.dir, mutation⟩ =
      eng.findOrCreateEntry step.entityId := by
  obtain ⟨_, _, undone, taken, _⟩ := appended
  dsimp only at undone taken
  refine TMVEngine.ext_index ?_ ?_
  · simp [TMVEngine.free_rollbackAppend, undone, taken]
  · intro vertex
    by_cases same : step.entityId = vertex
    · simp [TMVEngine.index_rollbackAppend, undone, same]
    · simp [TMVEngine.index_rollbackAppend, same]

theorem foldl_rollbackAppend_findOrCreateEntry
    {mutations : List AppendMutation} {eid : UInt64} {eng : TMVEngine}
    (missing : eng.index[eid]? = none) (others : ∀ mutation ∈ mutations, mutation.entityId ≠ eid) :
    mutations.foldl TMVEngine.rollbackAppend (eng.findOrCreateEntry eid) =
        (mutations.foldl TMVEngine.rollbackAppend eng).findOrCreateEntry eid ∧
      (mutations.foldl TMVEngine.rollbackAppend eng).index[eid]? = none := by
  induction mutations generalizing eng with
  | nil => exact ⟨rfl, missing⟩
  | cons mutation rest ih =>
    rw [forall_mem_cons] at others
    obtain ⟨commutes, stillMissing⟩ :=
      TMVEngine.rollbackAppend_findOrCreateEntry missing others.1
    rw [foldl_cons, foldl_cons, commutes]
    exact ih stillMissing others.2

theorem rollback_append (known : Known prog) (step : EdgeStep) :
    (prog.append step).1.rollback = prog.rollback := by
  have eng : (prog.append step).1.mutations.foldl TMVEngine.rollbackAppend
      (prog.append step).1.engine =
      prog.mutations.foldl TMVEngine.rollbackAppend (prog.engine.findOrCreateEntry step.entityId) ∧
      (prog.append step).1.created = prog.createdBy step := by
    rcases prog.append_cases step with ⟨exhausted, _⟩ | ⟨chain, free, new, appended, done⟩
    · rw [exhausted]
      exact ⟨rfl, rfl⟩
    · rw [done]
      dsimp only
      rw [foldl_cons, rollbackAppend_append (EdgeChain.append_appended appended)]
      exact ⟨rfl, rfl⟩
  rw [rollback, rollback, eng.1, eng.2, createdBy]
  cases found : prog.engine.index[step.entityId]? with
  | none =>
    have others : ∀ mutation ∈ prog.mutations, mutation.entityId ≠ step.entityId := by
      intro mutation mem same
      exact known mutation mem (same ▸ found)
    obtain ⟨commutes, missing⟩ := foldl_rollbackAppend_findOrCreateEntry found others
    rw [commutes, Option.isNone_none, if_pos rfl, foldl_cons,
      TMVEngine.removeEntryIfEmpty_findOrCreateEntry missing]
  | some entry =>
    rw [TMVEngine.findOrCreateEntry_found (by simp [found])]
    simp

theorem rollback_appendAll (known : Known prog) (steps : List EdgeStep) :
    (prog.appendAll steps).1.rollback = prog.rollback := by
  induction steps generalizing prog with
  | nil => rfl
  | cons step rest ih =>
    have first := rollback_append known step
    have knownNext := known.append step
    rw [appendAll]
    split
    · rename_i later appended
      rw [appended] at first knownNext
      exact (ih knownNext).trans first
    · rename_i later appended
      rw [appended] at first
      exact first

end AppendProgress

/-! ### What a complete append adds -/

/-- The edges that the steps add to a vertex in a direction. -/
def addedEdges (steps : List EdgeStep) (dir : Direction) (eid : UInt64) : List TMVEdge :=
  (steps.filter fun step => step.dir = dir ∧ step.entityId = eid).map EdgeStep.edge

@[simp] theorem addedEdges_append (steps more : List EdgeStep) (dir : Direction) (eid : UInt64) :
    addedEdges (steps ++ more) dir eid = addedEdges steps dir eid ++ addedEdges more dir eid := by
  simp [addedEdges]

theorem addedEdges_cons (step : EdgeStep) (rest : List EdgeStep) (dir : Direction) (eid : UInt64) :
    addedEdges (step :: rest) dir eid =
      (if step.dir = dir ∧ step.entityId = eid then [step.edge] else []) ++
        addedEdges rest dir eid := by
  rw [addedEdges, filter_cons]
  split
  · rename_i selected
    rw [if_pos (of_decide_eq_true selected)]
    rfl
  · rename_i other
    rw [if_neg (fun selected => other (decide_eq_true selected))]
    rfl

variable {prog later : AppendProgress}

namespace AppendProgress

theorem chain_append {step : EdgeStep} (done : prog.append step = (later, true)) :
    ∃ res, ((prog.engine.entry step.entityId).chain step.dir).append
        prog.engine.free step.edge = some res ∧ later.engine.free = res.2.1 ∧
      ∀ dir eid, (later.engine.entry eid).chain dir =
        if step.dir = dir ∧ step.entityId = eid then res.1
        else (prog.engine.entry eid).chain dir := by
  rcases prog.append_cases step with ⟨exhausted, _⟩ | ⟨chain, free, new, appended, res⟩
  · rw [exhausted] at done
    simp at done
  · rw [res, Prod.mk.injEq] at done
    refine ⟨_, appended, by rw [← done.1]; rfl, ?_⟩
    intro dir eid
    rw [← done.1, TMVEngine.entry_withFree, TMVEngine.entry_setEntry]
    by_cases same : step.entityId = eid
    · simp [same]
    · simp [same]

theorem edges_append {step : EdgeStep}
    (done : prog.append step = (later, true)) (dir : Direction) (eid : UInt64) :
    later.engine.edges dir eid = prog.engine.edges dir eid ++
      if step.dir = dir ∧ step.entityId = eid then [step.edge] else [] := by
  obtain ⟨res, appended, _, chains⟩ := chain_append done
  rw [TMVEngine.edges, TMVEngine.edges, chains]
  split
  · rename_i same
    rw [← same.1, ← same.2]
    exact (EdgeChain.append_appended appended).edges
  · simp

theorem edges_appendAll {steps : List EdgeStep}
    (done : prog.appendAll steps = (later, true)) (dir : Direction) (eid : UInt64) :
    later.engine.edges dir eid = prog.engine.edges dir eid ++ addedEdges steps dir eid := by
  induction steps generalizing prog with
  | nil =>
    rw [appendAll, Prod.mk.injEq] at done
    rw [done.1]
    simp [addedEdges]
  | cons step rest ih =>
    rw [appendAll] at done
    split at done
    · rename_i next appended
      rw [ih done, edges_append appended, addedEdges_cons, append_assoc]
    · simp at done

end AppendProgress

namespace TMVEngine

theorem appendEdgesAtomic_cases (eng : TMVEngine) (appends : List EdgeAppend) :
    (∃ later, eng.appendEdgesAtomic appends = (later, .ok ()) ∧
      ∀ dir eid, later.edges dir eid = eng.edges dir eid ++
        addedEdges (appends.flatMap EdgeAppend.steps) dir eid) ∨
    eng.appendEdgesAtomic appends = (eng, .error poolExhausted) := by
  rw [appendEdgesAtomic]
  split
  · rename_i prog done
    exact Or.inl ⟨prog.engine, rfl, AppendProgress.edges_appendAll done⟩
  · rename_i prog failed
    have undone := AppendProgress.rollback_appendAll (AppendProgress.known_start eng)
      (appends.flatMap EdgeAppend.steps)
    rw [failed] at undone
    exact Or.inr (by rw [undone]; rfl)

theorem edges_appendEdgesAtomic {eng later : TMVEngine} {appends : List EdgeAppend}
    (done : eng.appendEdgesAtomic appends = (later, .ok ())) (dir : Direction) (eid : UInt64) :
    later.edges dir eid = eng.edges dir eid ++
      addedEdges (appends.flatMap EdgeAppend.steps) dir eid := by
  rcases eng.appendEdgesAtomic_cases appends with ⟨_, appended, edges⟩ | exhausted
  · rw [done, Prod.mk.injEq] at appended
    rw [appended.1, edges]
  · rw [done] at exhausted
    simp at exhausted

end TMVEngine

/-! ### Chunks are filled one after the other -/

namespace TMVEngine

def Packed (eng : TMVEngine) : Prop :=
  ∀ dir eid, ((eng.entry eid).chain dir).Packed

theorem Packed.append (packed : prog.engine.Packed) {step : EdgeStep}
    (done : prog.append step = (later, true)) : later.engine.Packed := by
  intro dir eid
  obtain ⟨res, appended, _, chains⟩ := AppendProgress.chain_append done
  rw [chains]
  split
  · exact (EdgeChain.append_appended appended).packed (packed step.dir step.entityId)
  · exact packed dir eid

theorem Packed.appendAll (packed : prog.engine.Packed) {steps : List EdgeStep}
    (done : prog.appendAll steps = (later, true)) : later.engine.Packed := by
  induction steps generalizing prog with
  | nil =>
    rw [AppendProgress.appendAll, Prod.mk.injEq] at done
    rw [← done.1]
    exact packed
  | cons step rest ih =>
    rw [AppendProgress.appendAll] at done
    split at done
    · rename_i next appended
      exact ih (packed.append appended) done
    · simp at done

theorem Packed.appendEdgesAtomic
    {eng later : TMVEngine} (packed : eng.Packed) {appends : List EdgeAppend}
    (done : eng.appendEdgesAtomic appends = (later, .ok ())) : later.Packed := by
  rw [TMVEngine.appendEdgesAtomic] at done
  split at done
  · rename_i prog appended
    rw [Prod.mk.injEq] at done
    rw [← done.1]
    exact @Packed.appendAll (AppendProgress.start eng) _ packed _ appended
  · simp at done

end TMVEngine

end CedarGraph
