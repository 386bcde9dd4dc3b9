import Mathlib

/-!
# Merging several streams

A merge takes the heads of its streams one by one and skips an item that repeats the last one or
is to be dropped. Which of several minimal heads is taken is left to a policy.
-/

namespace Merging

open List

variable {Item : Type*}

def heads (streams : List (List Item)) : List Item :=
  streams.filterMap List.head?

/-- A choice of a stream whose head no other head is less than. -/
structure Policy (less : Item → Item → Bool) where
  top : List (List Item) → Nat
  minimal : ∀ streams, heads streams ≠ [] →
    ∃ first rest, streams[top streams]? = some (first :: rest) ∧
      ∀ other ∈ heads streams, less other first = false

/-- The merge loop; `last` is the last item that was not skipped as a repetition. -/
def merge (top : List (List Item) → Nat) (same : Item → Item → Bool) (drop : Item → Bool) :
    Nat → Option Item → List (List Item) → List Item
  | 0, _, _ => []
  | fuel + 1, last, streams =>
    match streams[top streams]? with
    | none => []
    | some [] => []
    | some (item :: rest) =>
      let remaining := streams.set (top streams) rest
      if last.any fun seen => same seen item then
        merge top same drop fuel last remaining
      else if drop item then merge top same drop fuel (some item) remaining
      else item :: merge top same drop fuel (some item) remaining

theorem flatten_perm_set {streams : List (List Item)} {index : Nat} {item : Item} {rest : List Item}
    (found : streams[index]? = some (item :: rest)) :
    streams.flatten.Perm (item :: (streams.set index rest).flatten) := by
  induction streams generalizing index with
  | nil => cases found
  | cons first others ih =>
    cases index with
    | zero =>
      injection found with same
      rw [same]
      exact List.Perm.refl _
    | succ index =>
      have tail : others.flatten.Perm (item :: (others.set index rest).flatten) :=
        ih found
      rw [set_cons_succ, flatten_cons, flatten_cons]
      exact (tail.append_left first).trans perm_middle

section FirstMinimal

variable (less : Item → Item → Bool)

/-- The first stream whose head no other head is less than. -/
def firstMinimal (streams : List (List Item)) : Nat :=
  streams.findIdx fun stream =>
    stream.head?.any fun first => (heads streams).all fun other => !less other first

theorem exists_minimal (total : ∀ left right, less left right = true → less right left = false)
    (trans : ∀ left middle right, less middle left = false → less right middle = false →
      less right left = false)
    {items : List Item} (someItem : items ≠ []) :
    ∃ first ∈ items, ∀ other ∈ items, less other first = false := by
  induction items with
  | nil => exact absurd rfl someItem
  | cons head tail ih =>
    have irreflexive : less head head = false := by
      by_contra related
      exact related (total head head (by simpa using related))
    cases tail with
    | nil =>
      refine ⟨head, mem_cons_self, ?_⟩
      intro other mem
      rw [mem_singleton.mp mem]
      exact irreflexive
    | cons next others =>
      obtain ⟨first, firstMember, smallest⟩ :=
        ih (cons_ne_nil next others)
      by_cases below : less head first = true
      · refine ⟨head, mem_cons_self, ?_⟩
        intro other mem
        rcases mem_cons.mp mem with rfl | inTail
        · exact irreflexive
        · exact trans head first other (total head first below) (smallest other inTail)
      · refine ⟨first, mem_cons_of_mem _ firstMember, ?_⟩
        intro other mem
        rcases mem_cons.mp mem with rfl | inTail
        · simpa using below
        · exact smallest other inTail

def Policy.firstMinimal (total : ∀ left right, less left right = true → less right left = false)
    (trans : ∀ left middle right, less middle left = false → less right middle = false →
      less right left = false) :
    Policy less where
  top := Merging.firstMinimal less
  minimal := by
    intro streams someHead
    obtain ⟨first, isHead, smallest⟩ := exists_minimal less total trans someHead
    obtain ⟨stream, streamMember, headed⟩ := mem_filterMap.mp isHead
    have chosen : ∃ stream ∈ streams, (stream.head?.any fun first =>
        (heads streams).all fun other => !less other first) = true := by
      refine ⟨stream, streamMember, ?_⟩
      rw [headed, Option.any_some, all_eq_true]
      intro other mem
      rw [smallest other mem]
      rfl
    have lt : Merging.firstMinimal less streams < streams.length :=
      findIdx_lt_length_of_exists chosen
    have holds : (streams[Merging.firstMinimal less streams].head?.any fun first =>
        (heads streams).all fun other => !less other first) = true :=
      findIdx_getElem (w := lt)
    rw [List.getElem?_eq_getElem lt]
    cases top : streams[Merging.firstMinimal less streams] with
    | nil =>
      rw [top] at holds
      cases holds
    | cons first rest =>
      refine ⟨first, rest, rfl, ?_⟩
      rw [top, List.head?_cons, Option.any_some, all_eq_true] at holds
      intro other mem
      simpa using holds other mem

end FirstMinimal

end Merging
