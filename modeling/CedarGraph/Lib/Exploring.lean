import Mathlib

/-!
# Breadth-first search

A search keeps the nodes it has found with their depths, those already taken before those that
wait. New ones go to the end with the next level, so the items are sorted by depth, and the
depth of a node is its distance.
-/

namespace Exploring

open List

variable {α : Type*} (next : α → List α) (root : α)

/-- A walk from the root, by its length. -/
inductive Walk : Nat → α → Prop
  | nil : Walk 0 root
  | snoc {length : Nat} {node target : α} :
    Walk length node → target ∈ next node → Walk (length + 1) target

def IsDistance (node : α) (distance : Nat) : Prop :=
  IsLeast {length | Walk next root length node} distance

def reachable : Set α :=
  {node | node ≠ root ∧ ∃ length, Walk next root length node}

/-- The items taken and the items waiting while the search is at a level. -/
structure Layers (hops level : Nat) (done todo : List (α × Nat)) : Prop where
  start : (root, 0) ∈ done ++ todo
  distinct : ((done ++ todo).map Prod.fst).Nodup
  walk : ∀ item ∈ done ++ todo, Walk next root item.2 item.1
  within : ∀ item ∈ done ++ todo, item.2 ≤ hops
  sorted : (done ++ todo).Pairwise fun first second => first.2 ≤ second.2
  near : ∀ item ∈ done ++ todo, item.2 ≤ level + 1
  ahead : ∀ item ∈ todo, level ≤ item.2

/-- The successors of the items taken have been found. -/
def Closed (hops : Nat) (done found : List (α × Nat)) : Prop :=
  ∀ item ∈ done, item.2 < hops → ∀ node ∈ next item.1, ∃ depth ≤ item.2 + 1, (node, depth) ∈ found

variable {next root} {hops level : Nat} {found done todo : List (α × Nat)} {item : α × Nat}

theorem Layers.singleton : Layers next root hops 0 [] [(root, 0)] := by
  constructor <;> simp [Walk.nil]

section

variable (layers : Layers next root hops level done todo)
include layers

theorem Layers.enter (mem : item ∈ done) (atLevel : item.2 = level) (below : level < hops)
    {target : α} (leads : target ∈ next item.1) (fresh : target ∉ (done ++ todo).map Prod.fst) :
    Layers next root hops level done (todo ++ [(target, level + 1)]) := by
  have walk := (layers.walk item (mem_append_left _ mem)).snoc leads
  rw [atLevel] at walk
  constructor
  on_goal 7 => exact forall_mem_append.mpr ⟨layers.ahead, by simp⟩
  all_goals rw [← append_assoc]
  · exact mem_append_left _ layers.start
  · rw [map_append, map_singleton, ← concat_eq_append]
    exact layers.distinct.concat fresh
  · exact forall_mem_append.mpr ⟨layers.walk, forall_mem_singleton.mpr walk⟩
  · exact forall_mem_append.mpr ⟨layers.within, forall_mem_singleton.mpr below⟩
  · refine pairwise_append.mpr ⟨layers.sorted, pairwise_singleton _ _, ?_⟩
    intro first isFirst second isSecond
    rw [mem_singleton.mp isSecond]
    exact layers.near first isFirst
  · exact forall_mem_append.mpr ⟨layers.near, forall_mem_singleton.mpr le_rfl⟩

theorem Layers.length_le {limit : Nat} (few : (reachable next root).encard < limit) :
    (done ++ todo).length ≤ limit := by
  classical
  have subset : (((done ++ todo).map Prod.fst).toFinset : Set α) ⊆
      insert root (reachable next root) := by
    intro node mem
    obtain ⟨item, isItem, rfl⟩ := mem_map.mp (mem_toFinset.mp mem)
    rw [Set.mem_insert_iff, or_iff_not_imp_left]
    exact fun other => ⟨other, item.2, layers.walk item isItem⟩
  have bound : ((done ++ todo).length : ℕ∞) ≤ limit := calc
    _ = (((done ++ todo).map Prod.fst).toFinset : Set α).encard := by
      rw [Set.encard_coe_eq_coe_finsetCard, toFinset_card_of_nodup layers.distinct, length_map]
    _ ≤ _ := Set.encard_le_encard subset
    _ ≤ _ := Set.encard_insert_le _ root
    _ ≤ _ := Order.add_one_le_of_lt few
  exact_mod_cast bound

end

theorem Layers.pop (layers : Layers next root hops level done (item :: todo)) :
    Layers next root hops item.2 (done ++ [item]) todo := by
  have reached := layers.ahead item mem_cons_self
  obtain ⟨start, distinct, walk, within, sorted, near, -⟩ := layers
  have later := (pairwise_cons.mp (pairwise_append.mp sorted).2.1).1
  rw [append_cons] at start distinct walk within sorted near
  exact ⟨start, distinct, walk, within, sorted,
    fun found mem => (near found mem).trans (Nat.add_le_add_right reached 1), later⟩

section Finished

variable (layers : Layers next root hops level found []) (closed : Closed next hops found found)
include layers closed

theorem Layers.reaches {length : Nat} {node : α} (walk : Walk next root length node)
    (within : length ≤ hops) : ∃ depth ≤ length, (node, depth) ∈ found := by
  induction walk with
  | nil => exact ⟨0, le_rfl, by simpa using layers.start⟩
  | snoc walk leads ih =>
    obtain ⟨depth, bound, mem⟩ := ih (by omega)
    obtain ⟨later, laterBound, isLater⟩ := closed _ mem (by dsimp only; omega) _ leads
    exact ⟨later, by dsimp only at laterBound; omega, isLater⟩

/-- A finished search has found the nodes within the limit with their distances. -/
theorem Layers.mem_iff {node : α} {depth : Nat} :
    (node, depth) ∈ found ↔ depth ≤ hops ∧ IsDistance next root node depth := by
  have distinct := layers.distinct
  have walks := layers.walk
  have bounds := layers.within
  rw [append_nil] at distinct walks bounds
  constructor
  · intro mem
    refine ⟨bounds _ mem, walks _ mem, ?_⟩
    intro length walk
    by_contra! shorter
    obtain ⟨other, bound, isOther⟩ :=
      layers.reaches closed walk (shorter.le.trans (bounds _ mem))
    have same : depth = other :=
      congrArg Prod.snd (inj_on_of_nodup_map distinct mem isOther rfl)
    omega
  · rintro ⟨within, walk, least⟩
    obtain ⟨other, bound, mem⟩ := layers.reaches closed walk within
    have same : depth = other := le_antisymm (least (walks _ mem)) bound
    rwa [same]

end Finished

end Exploring
