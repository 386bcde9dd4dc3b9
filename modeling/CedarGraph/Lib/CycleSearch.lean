import Mathlib

/-!
# Depth-first search for a cycle

The search marks a node when it enters it and gives up below a depth. What it reports is a
cycle. Where no path is cut off, the nodes it has left can be listed so that each leads to
earlier ones only, and no cycle meets them.
-/

namespace CycleSearch

open List

variable {α : Type*} [DecidableEq α]

structure Search (α : Type*) where
  visited : List α
  inStack : List α
  path : List α
  cycle : List α

/-- The walk over the neighbours of a node, with the search below a neighbour as an argument. -/
def searchNeighbors (below : α → Search α → Search α × Bool) : List α → Search α → Search α × Bool
  | [], search => (search, false)
  | neighbor :: rest, search =>
    if neighbor ∈ search.inStack then
      ({ search with cycle := search.path.dropWhile (· ≠ neighbor) }, true)
    else if neighbor ∈ search.visited then searchNeighbors below rest search
    else
      let (next, found) := below neighbor search
      if found then (next, true) else searchNeighbors below rest next

def findCycle (neighbors : α → List α) : Nat → α → Search α → Search α × Bool
  | 0, _, search => (search, false)
  | remaining + 1, start, search =>
    let (next, found) := searchNeighbors (findCycle neighbors remaining) (neighbors start)
      { search with
        visited := search.visited.insert start
        inStack := search.inStack.insert start
        path := search.path ++ [start] }
    if found then (next, true)
    else ({ next with path := next.path.dropLast, inStack := next.inStack.erase start }, false)

variable (neighbors : α → List α)

def Leads (node next : α) : Prop :=
  next ∈ neighbors node

instance : DecidableRel (Leads neighbors) :=
  fun node next => inferInstanceAs (Decidable (next ∈ neighbors node))

/-- Each node leads to the next one and the last to the first. -/
structure IsCycle (cycle : List α) : Prop where
  nonempty : cycle ≠ []
  nodup : cycle.Nodup
  closed : List.IsChain (Leads neighbors) (cycle ++ cycle.head?.toList)

/-- Each node leads to earlier ones only. -/
def Finished : List α → Prop
  | [] => True
  | node :: prev => (∀ next ∈ neighbors node, next ∈ prev) ∧ Finished prev

/-- No path without repetition is longer than the limit. -/
def Short (limit : Nat) : Prop :=
  ∀ path, List.IsChain (Leads neighbors) path → path.Nodup → path.length ≤ limit

structure Stacked (limit remaining : Nat) (search : Search α) : Prop where
  chain : List.IsChain (Leads neighbors) search.path
  nodup : search.path.Nodup
  stack : ∀ node, node ∈ search.inStack ↔ node ∈ search.path
  depth : search.path.length + remaining = limit

/-- A visited node is on the path or finished. -/
def Settled (search : Search α) (finished : List α) : Prop :=
  Finished neighbors finished ∧ ∀ node ∈ search.visited, node ∈ search.path ∨ node ∈ finished

/-- What a search through some nodes leaves behind. -/
structure Outcome (limit : Nat) (nodes : List α) (search : Search α) (res : Search α × Bool) :
    Prop where
  reports : res.2 = true → IsCycle neighbors res.1.cycle ∧ res.1.cycle.length ≤ limit
  restores : res.2 = false → res.1.path = search.path ∧ res.1.inStack = search.inStack
  settles : res.2 = false → Short neighbors limit →
    ∀ finished, Settled neighbors search finished →
      ∃ later, Settled neighbors res.1 later ∧ finished ⊆ later ∧ nodes ⊆ later

variable {neighbors} {limit remaining : Nat} {search : Search α}

omit [DecidableEq α] in
theorem exists_leads {path : List α} {last : α}
    (chain : List.IsChain (Leads neighbors) (path ++ [last])) :
    ∀ node ∈ path, ∃ next, (next ∈ path ∨ next = last) ∧ Leads neighbors node next := by
  induction path with
  | nil => simp
  | cons first rest ih =>
    have later := ih chain.tail
    intro node mem
    rcases mem_cons.mp mem with rfl | inRest
    · cases rest with
      | nil => exact ⟨last, .inr rfl, by simpa using chain⟩
      | cons second others =>
        exact ⟨second, .inl (by simp), (isChain_cons_cons.mp chain).1⟩
    · obtain ⟨next, inPath, leads⟩ := later node inRest
      exact ⟨next, inPath.imp_left (mem_cons_of_mem first), leads⟩

omit [DecidableEq α] in
theorem IsCycle.leads {cycle : List α} (isCycle : IsCycle neighbors cycle) :
    ∀ node ∈ cycle, ∃ next ∈ cycle, Leads neighbors node next := by
  obtain ⟨nonempty, -, closed⟩ := isCycle
  cases cycle with
  | nil => simp
  | cons first rest =>
    intro node mem
    obtain ⟨next, inCycle, edge⟩ := exists_leads closed node mem
    exact ⟨next, by simpa [or_comm, or_assoc] using inCycle, edge⟩

theorem isCycle_dropWhile {path : List α} {node : α} (nodup : path.Nodup) (mem : node ∈ path)
    (chain : List.IsChain (Leads neighbors) (path ++ [node])) :
    IsCycle neighbors (path.dropWhile (· ≠ node)) := by
  obtain ⟨before, after, rfl, fresh⟩ := eq_append_cons_of_mem mem
  have cut : (before ++ node :: after).dropWhile (· ≠ node) = node :: after := by
    rw [dropWhile_append_of_pos fun other inBefore => by grind]
    simp
  rw [cut]
  refine ⟨by simp, (nodup_append.mp nodup).2.1, ?_⟩
  rw [append_assoc] at chain
  exact chain.right_of_append

omit [DecidableEq α] in
theorem Outcome.trans {node : α} {nodes : List α} {next : Search α} {res : Search α × Bool}
    (first : Outcome neighbors limit [node] search (next, false))
    (second : Outcome neighbors limit nodes next res) :
    Outcome neighbors limit (node :: nodes) search res := by
  obtain ⟨samePath, sameStack⟩ := first.restores rfl
  refine ⟨second.reports, fun missed => ?_, fun missed short finished settled => ?_⟩
  · obtain ⟨laterPath, laterStack⟩ := second.restores missed
    exact ⟨laterPath.trans samePath, laterStack.trans sameStack⟩
  · obtain ⟨more, settledNext, grown, entered⟩ := first.settles rfl short finished settled
    obtain ⟨later, settledLater, regrown, others⟩ := second.settles missed short more settledNext
    exact ⟨later, settledLater, fun _ mem => regrown (grown mem),
      cons_subset.mpr ⟨regrown (entered mem_cons_self), others⟩⟩

/-- The search below a node does what it should. -/
def Specified (neighbors : α → List α) (limit remaining : Nat)
    (below : α → Search α → Search α × Bool) : Prop :=
  ∀ node search, Stacked neighbors limit remaining search → node ∉ search.path →
    List.IsChain (Leads neighbors) (search.path ++ [node]) →
    Outcome neighbors limit [node] search (below node search)

theorem outcome_searchNeighbors {below : α → Search α → Search α × Bool}
    (specified : Specified neighbors limit remaining below)
    (stacked : Stacked neighbors limit remaining search) (nodes : List α)
    (leads : ∀ node ∈ nodes, List.IsChain (Leads neighbors) (search.path ++ [node])) :
    Outcome neighbors limit nodes search (searchNeighbors below nodes search) := by
  induction nodes generalizing search with
  | nil =>
    exact ⟨nofun, fun _ => ⟨rfl, rfl⟩,
      fun _ _ finished settled => ⟨finished, settled, Subset.refl _, nil_subset _⟩⟩
  | cons neighbor rest ih =>
    obtain ⟨first, others⟩ := forall_mem_cons.mp leads
    rw [searchNeighbors]
    by_cases inStack : neighbor ∈ search.inStack
    · rw [if_pos inStack]
      have shorter := (dropWhile_sublist (l := search.path) (· ≠ neighbor)).length_le
      have bounded := stacked.depth
      exact ⟨fun _ => ⟨isCycle_dropWhile stacked.nodup ((stacked.stack neighbor).mp inStack) first,
        by grind⟩, nofun, nofun⟩
    rw [if_neg inStack]
    have fresh : neighbor ∉ search.path := fun mem => inStack ((stacked.stack neighbor).mpr mem)
    by_cases visited : neighbor ∈ search.visited
    · rw [if_pos visited]
      -- A visited neighbour that is not on the path was finished before.
      have known : Outcome neighbors limit [neighbor] search (search, false) :=
        ⟨nofun, fun _ => ⟨rfl, rfl⟩, fun _ _ finished settled => ⟨finished, settled,
          Subset.refl _, by simpa using (settled.2 neighbor visited).resolve_left fresh⟩⟩
      exact known.trans (ih stacked others)
    rw [if_neg visited]
    have belowNeighbor := specified neighbor search stacked fresh first
    generalize below neighbor search = res at belowNeighbor ⊢
    rcases res with ⟨next, _ | _⟩
    · obtain ⟨samePath, sameStack⟩ := belowNeighbor.restores rfl
      simp only at samePath sameStack
      have again : Stacked neighbors limit remaining next := by
        obtain ⟨chain, nodup, stack, depth⟩ := stacked
        exact ⟨by rwa [samePath], by rwa [samePath], by rwa [samePath, sameStack],
          by rwa [samePath]⟩
      exact belowNeighbor.trans (ih again (by rwa [samePath]))
    · exact ⟨belowNeighbor.reports, nofun, nofun⟩

theorem specified_findCycle (neighbors : α → List α) (limit remaining : Nat) :
    Specified neighbors limit remaining (findCycle neighbors remaining) := by
  induction remaining with
  | zero =>
    intro start search stacked fresh chain
    refine ⟨nofun, fun _ => ⟨rfl, rfl⟩, fun _ short => ?_⟩
    have long := short _ chain (by simpa using stacked.nodup.concat fresh)
    have depth := stacked.depth
    simp only [length_append, length_singleton] at long
    omega
  | succ remaining ih =>
    intro start search stacked fresh chain
    have pushed : search.inStack.insert start = start :: search.inStack :=
      insert_of_not_mem fun mem => fresh ((stacked.stack start).mp mem)
    have entered : Stacked neighbors limit remaining
        ⟨search.visited.insert start, search.inStack.insert start, search.path ++ [start],
          search.cycle⟩ :=
      ⟨chain, by simpa using stacked.nodup.concat fresh,
        fun node => by simp [stacked.stack node, or_comm],
        by have depth := stacked.depth; simp only [length_append, length_singleton]; omega⟩
    have walked := outcome_searchNeighbors ih entered (neighbors start) fun node leads => by
      rw [append_assoc]
      exact isChain_append_cons_cons.mpr ⟨chain, leads, isChain_singleton node⟩
    rw [findCycle]
    generalize searchNeighbors (findCycle neighbors remaining) (neighbors start) _ = res at walked ⊢
    rcases res with ⟨next, _ | _⟩
    · obtain ⟨samePath, sameStack⟩ := walked.restores rfl
      simp only at samePath sameStack
      refine ⟨nofun, fun _ => ⟨by simp [samePath], by simp [sameStack, pushed]⟩, ?_⟩
      intro _ short finished settled
      obtain ⟨later, ⟨ordered, known⟩, grown, left⟩ := walked.settles rfl short finished
        ⟨settled.1, fun node mem => by have old := settled.2 node; grind⟩
      refine ⟨start :: later, ⟨⟨left, ordered⟩, fun node mem => ?_⟩, ?_, by simp⟩
      · have old := known node mem
        simp only [samePath, dropLast_concat]
        grind
      · exact fun _ mem => mem_cons_of_mem start (grown mem)
    · exact ⟨walked.reports, nofun, nofun⟩

def Search.start : Search α :=
  ⟨[], [], [], []⟩

omit [DecidableEq α] in
theorem stacked_start (neighbors : α → List α) (limit : Nat) :
    Stacked neighbors limit limit Search.start :=
  ⟨isChain_nil, nodup_nil, fun _ => Iff.rfl, Nat.zero_add limit⟩

/-- From nothing on the stack, the walk over some nodes searches from each unvisited one. -/
theorem outcome_start (neighbors : α → List α) (limit : Nat) (nodes : List α) :
    Outcome neighbors limit nodes .start
      (searchNeighbors (findCycle neighbors limit) nodes .start) :=
  outcome_searchNeighbors (specified_findCycle neighbors limit limit)
    (stacked_start neighbors limit) nodes fun node _ => isChain_singleton node

end CycleSearch
