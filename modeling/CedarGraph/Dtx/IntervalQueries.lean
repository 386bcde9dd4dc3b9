import CedarGraph.Dtx.Twcd
import CedarGraph.Lib.Runs

/-!
# Queries of the interval tree

A sequence of insertions and removals is compared with the list of the entries that are then
current. A removal takes the first node with the start of the window, which may belong to
another transaction; a query takes a window without an end for one that ended at once.
-/

namespace CedarGraph

open List Runs

namespace IntervalTree

variable {tree : IntervalTree} {window : TemporalWindow} {txnId : TxnId}

theorem overlaps_of_mem_query (found : txnId ∈ tree.query window) :
    ∃ entry ∈ tree.entries, entry.2 = txnId ∧ entry.1.overlaps window := by
  induction tree with
  | leaf => exact absurd found not_mem_nil
  | node start stop txns maxEnd left right leftHypothesis rightHypothesis =>
    rw [query, mem_append, mem_append] at found
    simp only [entries, mem_append]
    rcases found with (own | inLeft) | inRight
    · split at own
      · rename_i overlap
        exact ⟨_, Or.inl (Or.inr (mem_map_of_mem own)), rfl, overlap⟩
      · exact absurd own not_mem_nil
    · split at inLeft
      · obtain ⟨entry, mem, isEntry⟩ := leftHypothesis inLeft
        exact ⟨entry, Or.inl (Or.inl mem), isEntry⟩
      · exact absurd inLeft not_mem_nil
    · split at inRight
      · obtain ⟨entry, mem, isEntry⟩ := rightHypothesis inRight
        exact ⟨entry, Or.inr mem, isEntry⟩
      · exact absurd inRight not_mem_nil

theorem taken_of_mem (valid : tree.Valid)
    (apart : (tree.entries.map fun entry => entry.1.start).Nodup)
    (mem : (window, txnId) ∈ tree.entries) : tree.taken window.start txnId = [(window, txnId)] := by
  induction tree with
  | leaf => exact absurd mem not_mem_nil
  | node start stop txns maxEnd left right leftHypothesis rightHypothesis =>
    obtain ⟨⟨own, single⟩, before, behind, -, validLeft, validRight⟩ := valid
    subst single
    simp only [entries, map_append, nodup_append] at apart
    rw [entries, mem_append, mem_append] at mem
    rw [taken]
    rcases mem with (inLeft | isOwn) | inRight
    · rw [if_pos (before _ inLeft)]
      exact leftHypothesis validLeft apart.1.1 inLeft
    · simp only [map_cons, map_nil, mem_singleton, Prod.mk.injEq] at isOwn
      rw [isOwn.1, isOwn.2]
      simp
    · have ne : start ≠ window.start := apart.2.2 start (by simp) _ (mem_map_of_mem inRight)
      have less := UInt64.lt_of_le_of_ne (behind _ inRight) ne
      rw [if_neg (UInt64.lt_asymm less), if_pos less]
      exact rightHypothesis validRight apart.2.1 inRight

def windows : IntervalTree → List TemporalWindow
  | .leaf => []
  | .node start stop _ _ left right => left.windows ++ ⟨start, stop⟩ :: right.windows

def WellFormed : IntervalTree → Prop
  | .leaf => True
  | .node start stop txns maxEnd left right =>
    let own := (node start stop txns maxEnd left right).windows
    (∀ window ∈ left.windows, window.start < start) ∧
      (∀ window ∈ right.windows, start ≤ window.start) ∧
      (∀ window ∈ own, window.stop ≤ maxEnd) ∧ (∃ window ∈ own, window.stop = maxEnd) ∧
      txns ≠ [] ∧ left.WellFormed ∧ right.WellFormed

/-- Every `max_end` is the one that `UpdateMaxEnd` computes. -/
def Updated : IntervalTree → Prop
  | .leaf => True
  | .node _ stop _ maxEnd left right =>
    maxEnd = raise (raise stop left) right ∧ left.Updated ∧ right.Updated

theorem Updated.insert (updated : tree.Updated) : (tree.insert window txnId).Updated := by
  induction tree with
  | leaf => exact ⟨rfl, trivial, trivial⟩
  | node start stop txns maxEnd left right leftHypothesis rightHypothesis =>
    obtain ⟨-, updatedLeft, updatedRight⟩ := updated
    rw [IntervalTree.insert]
    split
    · exact ⟨rfl, leftHypothesis updatedLeft, updatedRight⟩
    · exact ⟨rfl, updatedLeft, rightHypothesis updatedRight⟩

theorem Updated.remove (updated : tree.Updated) (start : UInt64) (txnId : TxnId) :
    (tree.remove start txnId).Updated := by
  induction tree generalizing start txnId with
  | leaf => trivial
  | node nodeStart stop txns maxEnd left right leftHypothesis rightHypothesis =>
    obtain ⟨-, updatedLeft, updatedRight⟩ := updated
    have rest := rightHypothesis updatedRight
    rw [IntervalTree.remove]
    split
    · exact ⟨rfl, leftHypothesis updatedLeft start txnId, updatedRight⟩
    split
    · exact ⟨rfl, updatedLeft, rest start txnId⟩
    split
    · split
      · exact updatedRight
      split
      · exact updatedLeft
      split
      · exact ⟨rfl, updatedLeft, updatedRight⟩
      · exact ⟨rfl, updatedLeft, rest _ _⟩
    · exact ⟨rfl, updatedLeft, updatedRight⟩

theorem Updated.raise_eq (updated : tree.Updated) (value : UInt64) :
    raise value tree = value ∨ ∃ window ∈ tree.windows, window.stop = raise value tree := by
  induction tree generalizing value with
  | leaf => exact Or.inl rfl
  | node start stop txns maxEnd left right leftHypothesis rightHypothesis =>
    obtain ⟨isMax, updatedLeft, updatedRight⟩ := updated
    rw [raise]
    split
    · right
      simp only [windows, mem_append, mem_cons]
      rcases rightHypothesis updatedRight (raise stop left) with same | ⟨window, mem, isStop⟩
      · rw [isMax, same]
        rcases leftHypothesis updatedLeft stop with own | ⟨window, mem, isStop⟩
        · exact ⟨⟨start, stop⟩, Or.inr (Or.inl rfl), own.symm⟩
        · exact ⟨window, Or.inl mem, isStop⟩
      · exact ⟨window, Or.inr (Or.inr mem), isStop.trans isMax.symm⟩
    · exact Or.inl rfl

theorem Valid.windows_eq (valid : tree.Valid) : tree.windows = tree.entries.map Prod.fst := by
  induction tree with
  | leaf => rfl
  | node start stop txns maxEnd left right leftHypothesis rightHypothesis =>
    obtain ⟨⟨own, single⟩, -, -, -, validLeft, validRight⟩ := valid
    rw [windows, leftHypothesis validLeft, rightHypothesis validRight, single]
    simp [entries]

theorem Valid.wellFormed (valid : tree.Valid) (updated : tree.Updated) : tree.WellFormed := by
  induction tree with
  | leaf => trivial
  | node start stop txns maxEnd left right leftHypothesis rightHypothesis =>
    have listed := valid.windows_eq
    obtain ⟨⟨own, single⟩, before, behind, capped, validLeft, validRight⟩ := valid
    have isWindow : ⟨start, stop⟩ ∈ (node start stop txns maxEnd left right).windows := by
      simp [windows]
    have below : ∀ window ∈ (node start stop txns maxEnd left right).windows,
        window.stop ≤ maxEnd := by
      rw [listed]
      exact forall_mem_map.mpr capped
    have top : raise stop (node start stop txns maxEnd left right) = maxEnd := by
      rw [raise]
      split
      · rfl
      · rename_i notMore
        exact UInt64.le_antisymm (below _ isWindow) (UInt64.not_lt.mp notMore)
    refine ⟨?_, ?_, below, ?_, by simp [single], leftHypothesis validLeft updated.2.1,
      rightHypothesis validRight updated.2.2⟩
    · rw [validLeft.windows_eq]
      exact forall_mem_map.mpr before
    · rw [validRight.windows_eq]
      exact forall_mem_map.mpr behind
    · rcases updated.raise_eq stop with same | attained
      · exact ⟨⟨start, stop⟩, isWindow, same.symm.trans top⟩
      · rw [top] at attained
        exact attained

end IntervalTree

open IntervalTree

inductive TreeCall where
  | insert (window : TemporalWindow) (txnId : TxnId)
  | remove (window : TemporalWindow) (txnId : TxnId)

/-- A tree with the entries that were inserted and not removed. -/
structure TrackedTree where
  tree : IntervalTree
  current : List (TemporalWindow × TxnId)

namespace TrackedTree

def empty : TrackedTree :=
  ⟨.leaf, []⟩

def step (tracked : TrackedTree) : TreeCall → TrackedTree
  | .insert window txnId =>
    ⟨tracked.tree.insert window txnId, (window, txnId) :: tracked.current⟩
  | .remove window txnId =>
    ⟨tracked.tree.remove window.start txnId, tracked.current.erase (window, txnId)⟩

/-- After every sequence of calls the starts are in order at every node, `max_end` is the maximum
of the ends below it, and no node is without a transaction. -/
theorem wellFormed_run (calls : List TreeCall) : (run step empty calls).tree.WellFormed := by
  have kept : (run step empty calls).tree.Valid ∧ (run step empty calls).tree.Updated := by
    refine foldlRecOn (motive := fun tracked => tracked.tree.Valid ∧ tracked.tree.Updated)
      calls step (b := empty) ⟨trivial, trivial⟩ ?_
    rintro tracked ⟨valid, updated⟩ call -
    cases call with
    | insert window txnId => exact ⟨valid.insert window txnId, updated.insert⟩
    | remove window txnId =>
      exact ⟨(valid.remove window.start txnId).1, updated.remove window.start txnId⟩
  exact kept.1.wellFormed kept.2

/-- A new transaction is inserted, with a window that has an end and a start of its own, or
a current entry is removed. -/
def Permitted (tracked : TrackedTree) : TreeCall → Prop
  | .insert window txnId =>
    txnId ∉ tracked.current.map Prod.snd ∧ window.stop ≠ 0 ∧
      window.start ∉ tracked.current.map fun entry => entry.1.start
  | .remove window txnId => (window, txnId) ∈ tracked.current

def Exact (tracked : TrackedTree) : Prop :=
  ∀ window txnId, txnId ∈ tracked.tree.query window ↔
    ∃ entry ∈ tracked.current, entry.2 = txnId ∧ entry.1.overlaps window

structure Agrees (tracked : TrackedTree) : Prop where
  valid : tracked.tree.Valid
  same : tracked.tree.entries ~ tracked.current
  apart : (tracked.current.map fun entry => entry.1.start).Nodup
  bounded : ∀ entry ∈ tracked.current, entry.1.stop ≠ 0

variable {tracked : TrackedTree}

theorem Agrees.isExact (agrees : tracked.Agrees) : tracked.Exact := by
  intro window txnId
  constructor
  · intro found
    obtain ⟨entry, mem, isTxn, overlap⟩ := overlaps_of_mem_query found
    exact ⟨entry, agrees.same.mem_iff.mp mem, isTxn, overlap⟩
  · rintro ⟨entry, mem, rfl, overlap⟩
    exact mem_query agrees.valid (agrees.same.mem_iff.mpr mem) (agrees.bounded entry mem) overlap

theorem Agrees.step (agrees : tracked.Agrees) {call : TreeCall}
    (permitted : tracked.Permitted call) : (tracked.step call).Agrees := by
  cases call with
  | insert window txnId =>
    obtain ⟨-, hasEnd, isApart⟩ := permitted
    exact ⟨agrees.valid.insert window txnId,
      (entries_insert window txnId tracked.tree).trans (agrees.same.cons _),
      nodup_cons.mpr ⟨isApart, agrees.apart⟩, forall_mem_cons.mpr ⟨hasEnd, agrees.bounded⟩⟩
  | remove window txnId =>
    obtain ⟨valid, parts⟩ := agrees.valid.remove window.start txnId
    rw [taken_of_mem agrees.valid ((agrees.same.map _).nodup_iff.mpr agrees.apart)
      (agrees.same.mem_iff.mpr permitted)] at parts
    exact ⟨valid, (parts.symm.trans (agrees.same.trans (perm_cons_erase permitted))).cons_inv,
      agrees.apart.sublist (erase_sublist.map _),
      fun entry mem => agrees.bounded entry (mem_of_mem_erase mem)⟩

/-- In every sequence of calls in which each inserted window has an end and a start that no
current window has, all queries are exact. -/
theorem queries_exact {calls : List TreeCall} (permitted : Admissible step Permitted empty calls) :
    (run step empty calls).Exact := by
  have start : empty.Agrees := ⟨trivial, .refl _, nodup_nil, nofun⟩
  have agrees : (run step empty calls).Agrees :=
    invariant_run (fun _ _ before allowed => before.step allowed) start permitted
  exact agrees.isExact

theorem queries_exact_of_ends :
    (run step empty [.insert ⟨1, 5⟩ 1, .insert ⟨3, 9⟩ 2, .remove ⟨1, 5⟩ 1]).Exact :=
  queries_exact (by simp [Admissible, Permitted, step, empty])

/-- A window without an end in a left subtree is missed, and a removal that finds another
transaction with the same start leaves its entry in the tree. -/
theorem queries_inexact :
    let missed := run step empty [.insert ⟨150, 160⟩ 1, .insert ⟨100, 0⟩ 2]
    let stale := run step empty [.insert ⟨5, 9⟩ 1, .insert ⟨5, 7⟩ 2, .remove ⟨5, 7⟩ 2]
    (2 ∉ missed.tree.query ⟨155, 156⟩ ∧ (⟨100, 0⟩, 2) ∈ missed.current ∧
      (⟨100, 0⟩ : TemporalWindow).overlaps ⟨155, 156⟩) ∧
    2 ∈ stale.tree.query ⟨6, 6⟩ ∧ stale.current = [(⟨5, 9⟩, 1)] := by
  decide

end TrackedTree

end CedarGraph
