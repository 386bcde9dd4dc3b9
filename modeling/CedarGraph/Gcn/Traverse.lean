import CedarGraph.Gcn.View
import CedarGraph.Lib.Exploring

/-!
# Breadth-first traversal of the view at a time

`ExecuteBFS` follows the out edges of `ScanAtTime` up to a number of hops and a number of
results. Below that number it returns exactly the vertices within the hops, nearest first.
-/

namespace CedarGraph

open List Exploring

structure Traversal where
  visited : List UInt64
  results : List UInt64
  queue : List (UInt64 × Nat)

def kMaxBfsResults : Nat := 10000

section Definitions

variable (next : UInt64 → List UInt64) (maxHops : Nat)

def Traversal.discover (depth : Nat) (trav : Traversal) (neighbor : UInt64) : Traversal :=
  if neighbor ∉ trav.visited ∧ trav.results.length < kMaxBfsResults then
    ⟨trav.visited ++ [neighbor], trav.results ++ [neighbor], trav.queue ++ [(neighbor, depth + 1)]⟩
  else trav

/-- The body of the loop over the queue, after the item was taken. -/
def Traversal.visit (item : UInt64 × Nat) (trav : Traversal) : Traversal :=
  if item.2 ≥ maxHops then trav
  else (next item.1).foldl (discover item.2) trav

def Traversal.loop : Nat → Traversal → Traversal
  | 0, trav => trav
  | fuel + 1, trav =>
    match trav.queue with
    | [] => trav
    | item :: rest =>
      if trav.results.length < kMaxBfsResults then
        loop fuel (visit next maxHops item { trav with queue := rest })
      else trav

variable (sort : List TMVEdge → List TMVEdge) (eng : TMVEngine)

def TMVEngine.neighbors (queryTime id : UInt64) : List UInt64 :=
  (eng.scanAtTime sort id .kOut queryTime).map TMVEdge.targetId

/-- Besides the root at most `kMaxBfsResults` items are queued, and each round takes one. -/
def TMVEngine.executeBFS (root queryTime : UInt64) (maxHops : Nat) : List UInt64 :=
  if maxHops = 0 then []
  else (Traversal.loop (eng.neighbors sort queryTime) maxHops (kMaxBfsResults + 1)
    ⟨[root], [], [(root, 0)]⟩).results

end Definitions

namespace Traversal

/-- The items found, and where the traversal keeps them. -/
structure Breadth (next : UInt64 → List UInt64) (root : UInt64) (maxHops level : Nat)
    (done : List (UInt64 × Nat)) (trav : Traversal) : Prop where
  layers : Layers next root maxHops level done trav.queue
  visited : trav.visited = (done ++ trav.queue).map Prod.fst
  results : trav.visited = root :: trav.results

/-- The results are the nodes of a finished search. -/
def Finished (next : UInt64 → List UInt64) (root : UInt64) (maxHops : Nat)
    (results : List UInt64) : Prop :=
  ∃ level found, Layers next root maxHops level found [] ∧ Closed next maxHops found found ∧
    found.map Prod.fst = root :: results

variable {next : UInt64 → List UInt64} {root : UInt64} {maxHops level : Nat}
variable {done : List (UInt64 × Nat)} {item : UInt64 × Nat} {trav : Traversal}
variable (few : (reachable next root).encard < kMaxBfsResults)
variable (breadth : trav.Breadth next root maxHops level done)

include few breadth

theorem Breadth.length_results : trav.results.length < kMaxBfsResults := by
  have bound := breadth.layers.length_le few
  rw [← length_map, ← breadth.visited, breadth.results, length_cons] at bound
  exact bound

section Entering

variable (mem : item ∈ done) (atLevel : item.2 = level) (below : level < maxHops)
include mem atLevel below

theorem Breadth.discover {target : UInt64} (leads : target ∈ next item.1) :
    (trav.discover level target).Breadth next root maxHops level done ∧
      (∀ found ∈ done ++ trav.queue, found ∈ done ++ (trav.discover level target).queue) ∧
      ∃ depth ≤ level + 1, (target, depth) ∈ done ++ (trav.discover level target).queue := by
  rw [Traversal.discover]
  by_cases known : target ∈ trav.visited
  · rw [if_neg fun both => both.1 known]
    refine ⟨breadth, fun _ => id, ?_⟩
    rw [breadth.visited] at known
    obtain ⟨found, isFound, rfl⟩ := mem_map.mp known
    exact ⟨found.2, breadth.layers.near found isFound, isFound⟩
  have fresh := known
  rw [breadth.visited] at fresh
  rw [if_pos ⟨known, breadth.length_results few⟩, ← append_assoc]
  refine ⟨⟨breadth.layers.enter mem atLevel below leads fresh, ?_, ?_⟩, ?_, ?_⟩
  · rw [← append_assoc, map_append, breadth.visited, map_singleton]
  · rw [breadth.results, cons_append]
  · exact fun _ => mem_append_left _
  · exact ⟨level + 1, le_rfl, mem_append_right _ mem_cons_self⟩

theorem Breadth.foldl_discover {nodes : List UInt64} (leads : ∀ node ∈ nodes, node ∈ next item.1) :
    let later := nodes.foldl (Traversal.discover level) trav
    later.Breadth next root maxHops level done ∧
      (∀ found ∈ done ++ trav.queue, found ∈ done ++ later.queue) ∧
      ∀ node ∈ nodes, ∃ depth ≤ level + 1, (node, depth) ∈ done ++ later.queue := by
  induction nodes generalizing trav with
  | nil => exact ⟨breadth, fun _ => id, by simp⟩
  | cons node rest ih =>
    rw [forall_mem_cons] at leads
    obtain ⟨first, kept, depth, bound, isFound⟩ := breadth.discover few mem atLevel below leads.1
    obtain ⟨all, keptAll, others⟩ := ih first leads.2
    exact ⟨all, fun found isOld => keptAll found (kept found isOld),
      forall_mem_cons.mpr ⟨⟨depth, bound, keptAll _ isFound⟩, others⟩⟩

end Entering

theorem Breadth.visit {rest : List (UInt64 × Nat)} (waiting : trav.queue = item :: rest)
    (closed : Closed next maxHops done (done ++ trav.queue)) :
    let later := visit next maxHops item { trav with queue := rest }
    later.Breadth next root maxHops item.2 (done ++ [item]) ∧
      Closed next maxHops (done ++ [item]) (done ++ [item] ++ later.queue) := by
  obtain ⟨layers, visited, results⟩ := breadth
  rw [waiting] at layers visited closed
  rw [append_cons] at visited closed
  have popped : ({ trav with queue := rest } : Traversal).Breadth next root maxHops item.2
      (done ++ [item]) := ⟨layers.pop, visited, results⟩
  dsimp only [Traversal.visit]
  split
  · rename_i last
    refine ⟨popped, forall_mem_append.mpr ⟨closed, forall_mem_singleton.mpr ?_⟩⟩
    intro below
    omega
  · rename_i below
    obtain ⟨later, kept, entered⟩ := popped.foldl_discover few
      (mem_append_right _ mem_cons_self) rfl (by omega) (fun _ => id)
    refine ⟨later, forall_mem_append.mpr ⟨?_, forall_mem_singleton.mpr fun _ => entered⟩⟩
    intro old isOld below node leads
    obtain ⟨depth, bound, isFound⟩ := closed old isOld below node leads
    exact ⟨depth, bound, kept _ isFound⟩

omit few in
theorem Breadth.finished (closed : Closed next maxHops done (done ++ trav.queue))
    (drained : trav.queue = []) : Finished next root maxHops trav.results := by
  obtain ⟨layers, visited, results⟩ := breadth
  rw [drained] at layers visited closed
  rw [append_nil] at visited closed
  exact ⟨level, done, layers, closed, visited.symm.trans results⟩

/-- There are at most as many rounds as items, so the queue gets empty. -/
theorem Breadth.loop {fuel : Nat} (closed : Closed next maxHops done (done ++ trav.queue))
    (enough : kMaxBfsResults ≤ done.length + fuel) :
    Finished next root maxHops (loop next maxHops fuel trav).results := by
  induction fuel generalizing level done trav with
  | zero =>
    have bound := breadth.layers.length_le few
    rw [length_append] at bound
    exact breadth.finished closed (length_eq_zero_iff.mp (by omega))
  | succ fuel ih =>
    rw [loop]
    cases waiting : trav.queue with
    | nil => exact breadth.finished closed waiting
    | cons item rest =>
      obtain ⟨later, laterClosed⟩ := breadth.visit few waiting closed
      dsimp only
      rw [if_pos (breadth.length_results few)]
      apply ih later laterClosed
      rw [length_append, length_singleton]
      omega

end Traversal

namespace TMVEngine

theorem finished_executeBFS {sort : List TMVEdge → List TMVEdge} {eng : TMVEngine}
    {root queryTime : UInt64} {maxHops : Nat}
    (few : (reachable (eng.neighbors sort queryTime) root).encard < kMaxBfsResults) :
    Traversal.Finished (eng.neighbors sort queryTime) root maxHops
      (eng.executeBFS sort root queryTime maxHops) := by
  rw [executeBFS]
  split
  · rename_i none
    rw [none]
    exact ⟨0, [(root, 0)], Layers.singleton.pop, by simp [Closed], rfl⟩
  · exact Traversal.Breadth.loop few ⟨Layers.singleton, rfl, rfl⟩ (by simp [Closed]) (by simp)

/-- The traversal returns the vertices within the hops once each, by their distance. -/
theorem executeBFS_exact (sort : List TMVEdge → List TMVEdge) (eng : TMVEngine)
    (root queryTime : UInt64) (maxHops : Nat)
    (few : (reachable (eng.neighbors sort queryTime) root).encard < kMaxBfsResults) :
    let distance := IsDistance (eng.neighbors sort queryTime) root
    let results := eng.executeBFS sort root queryTime maxHops
    results.Nodup ∧
      (∀ vertex, vertex ∈ results ↔ vertex ≠ root ∧ ∃ hops, 1 ≤ hops ∧ hops ≤ maxHops ∧
        distance vertex hops) ∧
      results.Pairwise fun first second => ∀ near far, distance first near →
        distance second far → near ≤ far := by
  intro distance results
  obtain ⟨level, found, layers, closed, isFound⟩ := @finished_executeBFS sort eng root queryTime
    maxHops few
  have isDistance : ∀ {vertex hops}, (vertex, hops) ∈ found ↔ hops ≤ maxHops ∧
      distance vertex hops := layers.mem_iff closed
  have distinct := layers.distinct
  have sorted := layers.sorted
  rw [append_nil] at distinct sorted
  rw [isFound, nodup_cons] at distinct
  refine ⟨distinct.2, ?_, ?_⟩
  · intro vertex
    constructor
    · intro mem
      have other : vertex ≠ root := by
        rintro rfl
        exact distinct.1 mem
      have isItem : vertex ∈ found.map Prod.fst := isFound ▸ mem_cons_of_mem _ mem
      obtain ⟨⟨_, hops⟩, inFound, rfl⟩ := mem_map.mp isItem
      obtain ⟨within, walk, least⟩ := isDistance.mp inFound
      refine ⟨other, hops, Nat.one_le_iff_ne_zero.mpr ?_, within, walk, least⟩
      rintro rfl
      cases walk
      exact other rfl
    · rintro ⟨other, hops, -, within, atHops⟩
      have mem := mem_map_of_mem (f := Prod.fst) (isDistance.mpr ⟨within, atHops⟩)
      rw [isFound] at mem
      exact mem_of_ne_of_mem other mem
  · have ordered : (root :: results).Pairwise fun first second => ∀ near far,
        distance first near → distance second far → near ≤ far := by
      rw [← isFound, pairwise_map]
      refine sorted.imp_of_mem ?_
      intro first second isFirst isSecond below near far isNear isFar
      rw [isNear.unique (isDistance.mp isFirst).2, isFar.unique (isDistance.mp isSecond).2]
      exact below
    exact (pairwise_cons.mp ordered).2

private def oneStep : TMVEngine :=
  (⟨.empty, 0⟩ : TMVEngine).setEntry 1
    ⟨⟨[TMVChunk.empty.append TMVChunk.canAppend_empty ⟨2, 1, maxTime, 0, 0, 0⟩], 1⟩, .empty⟩

private theorem neighbors_oneStep (vertex : UInt64) :
    oneStep.neighbors id 4 vertex = if 1 = vertex then [2] else [] := by
  rw [neighbors, scanAtTime, oneStep, entry_setEntry]
  by_cases same : 1 = vertex
  · rw [if_pos same, if_pos same]
    decide +kernel
  · rw [if_neg same, if_neg same]
    rfl

private theorem walk_oneStep {length : Nat} {vertex : UInt64}
    (walk : Walk (oneStep.neighbors id 4) 1 length vertex) :
    length = 0 ∧ vertex = 1 ∨ length = 1 ∧ vertex = 2 := by
  induction walk with
  | nil => exact Or.inl ⟨rfl, rfl⟩
  | snoc walk leads ih =>
    rw [neighbors_oneStep] at leads
    rcases ih with ⟨rfl, rfl⟩ | ⟨rfl, rfl⟩ <;> simp at leads
    exact Or.inr ⟨rfl, leads⟩

theorem executeBFS_exact_one_step : 2 ∈ oneStep.executeBFS id 1 4 1 := by
  have few : (reachable (oneStep.neighbors id 4) 1).encard < kMaxBfsResults := by
    have subset : reachable (oneStep.neighbors id 4) 1 ⊆ {2} := by
      rintro vertex ⟨other, length, walk⟩
      exact ((walk_oneStep walk).resolve_left fun atRoot => other atRoot.2).2
    calc
      _ ≤ _ := Set.encard_le_encard subset
      _ = 1 := Set.encard_singleton 2
      _ < _ := by norm_num [kMaxBfsResults]
  apply ((executeBFS_exact id oneStep 1 4 1 few).2.1 2).mpr
  refine ⟨by decide, 1, le_rfl, le_rfl, Walk.nil.snoc ?_, ?_⟩
  · rw [neighbors_oneStep, if_pos rfl]
    exact mem_cons_self
  · intro length walk
    rcases walk_oneStep walk with ⟨_, isRoot⟩ | ⟨rfl, _⟩
    · exact absurd isRoot (by decide)
    · exact le_rfl

end TMVEngine

end CedarGraph
