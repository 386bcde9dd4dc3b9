import CedarGraph.Memtable

/-!
# Conflict detection by temporal windows

`TwcdEngine` knows the windows of the active transactions, in a tree ordered by their starts,
and the keys they are about to write. A node keeps the largest end below it, so that a query can
leave a subtree out. A window without an end has the end 0, the smallest, and can be left out
wrongly.
-/

namespace CedarGraph

open List Function

structure TemporalWindow where
  start : UInt64
  /-- Zero stands for no end. -/
  stop : UInt64
  deriving DecidableEq, Repr

namespace TemporalWindow

def isEmpty (window : TemporalWindow) : Prop :=
  window.start = 0 ∧ window.stop = 0

instance (window : TemporalWindow) : Decidable window.isEmpty :=
  inferInstanceAs (Decidable (_ ∧ _))

/-- The end as `Overlaps` takes it when one of the windows has none. -/
def bound (window : TemporalWindow) : UInt64 :=
  if window.stop = 0 then uint64Max else window.stop

def overlaps (window other : TemporalWindow) : Prop :=
  ¬ window.isEmpty ∧ ¬ other.isEmpty ∧
    if window.stop = 0 ∨ other.stop = 0 then
      other.start ≤ window.bound ∧ window.start ≤ other.bound
    else window.start ≤ other.stop ∧ other.start ≤ window.stop

instance (window other : TemporalWindow) : Decidable (window.overlaps other) :=
  inferInstanceAs (Decidable (_ ∧ _ ∧ _))

theorem overlaps_symm {window other : TemporalWindow} (overlap : window.overlaps other) :
    other.overlaps window := by
  obtain ⟨filled, otherFilled, ordered⟩ := overlap
  refine ⟨otherFilled, filled, ?_⟩
  split
  · rename_i unbounded
    rw [if_pos unbounded.symm] at ordered
    exact ordered.symm
  · rename_i bounded
    rw [if_neg fun unbounded => bounded unbounded.symm] at ordered
    exact ordered.symm

theorem overlaps_bounds {window other : TemporalWindow} (overlap : window.overlaps other)
    (bounded : window.stop ≠ 0) :
    other.start ≤ window.stop ∧ (window.start ≤ other.stop ∨ other.stop = 0) := by
  obtain ⟨_, _, ordered⟩ := overlap
  have isBound : window.bound = window.stop := if_neg bounded
  split at ordered
  · rw [isBound] at ordered
    refine ⟨ordered.1, ?_⟩
    by_cases unbounded : other.stop = 0
    · exact Or.inr unbounded
    · have isOtherBound : other.bound = other.stop := if_neg unbounded
      rw [isOtherBound] at ordered
      exact Or.inl ordered.2
  · exact ⟨ordered.2, Or.inl ordered.1⟩

end TemporalWindow

abbrev TxnId := UInt64

inductive IntervalTree where
  | leaf
  | node (start stop : UInt64) (txns : List TxnId) (maxEnd : UInt64) (left right : IntervalTree)
  deriving DecidableEq, Repr

namespace IntervalTree

/-- `max_end` of a child that is there and has more than the value. -/
def raise (value : UInt64) : IntervalTree → UInt64
  | .leaf => value
  | .node _ _ _ maxEnd _ _ => if maxEnd > value then maxEnd else value

def update (start stop : UInt64) (txns : List TxnId) (left right : IntervalTree) : IntervalTree :=
  .node start stop txns (raise (raise stop left) right) left right

def insert (window : TemporalWindow) (txnId : TxnId) : IntervalTree → IntervalTree
  | .leaf => .node window.start window.stop [txnId] window.stop .leaf .leaf
  | .node start stop txns _ left right =>
    if window.start < start then update start stop txns (left.insert window txnId) right
    else update start stop txns left (right.insert window txnId)

/-- `FindMin`: the window and the transactions of the leftmost node. -/
def findMin : IntervalTree → Option (TemporalWindow × List TxnId)
  | .leaf => none
  | .node start stop txns _ .leaf _ => some (⟨start, stop⟩, txns)
  | .node _ _ _ _ (.node start stop txns maxEnd left right) _ =>
    findMin (.node start stop txns maxEnd left right)

/-- `RemoveRecursive`; the end of the window is not looked at. -/
def remove : IntervalTree → UInt64 → TxnId → IntervalTree
  | .leaf, _, _ => .leaf
  | .node nodeStart stop txns _ left right, start, txnId =>
    if start < nodeStart then update nodeStart stop txns (left.remove start txnId) right
    else if start > nodeStart then update nodeStart stop txns left (right.remove start txnId)
    else if txns.filter (· ≠ txnId) = [] then
      if left = .leaf then right
      else if right = .leaf then left
      else
        match right.findMin with
        | none => update nodeStart stop [] left right
        | some (window, moved) =>
          update window.start window.stop moved left (right.remove window.start (moved.headD 0))
    else update nodeStart stop (txns.filter (· ≠ txnId)) left right

/-- A subtree is there and its `max_end` is not before the start. -/
def reaches (start : UInt64) : IntervalTree → Bool
  | .leaf => false
  | .node _ _ _ maxEnd _ _ => maxEnd ≥ start

def query (window : TemporalWindow) : IntervalTree → List TxnId
  | .leaf => []
  | .node start stop txns _ left right =>
    (if (⟨start, stop⟩ : TemporalWindow).overlaps window then txns else []) ++
      (if left.reaches window.start then left.query window else []) ++
      if start ≤ window.stop ∨ window.stop = 0 then right.query window else []

/-! ### What the tree holds -/

def entries : IntervalTree → List (TemporalWindow × TxnId)
  | .leaf => []
  | .node start stop txns _ left right =>
    left.entries ++ txns.map (fun txnId => (⟨start, stop⟩, txnId)) ++ right.entries

@[simp] theorem entries_update
    (start stop : UInt64) (txns : List TxnId) (left right : IntervalTree) :
    (update start stop txns left right).entries =
      left.entries ++ txns.map (fun txnId => (⟨start, stop⟩, txnId)) ++ right.entries :=
  rfl

theorem entries_insert (window : TemporalWindow) (txnId : TxnId) (tree : IntervalTree) :
    (tree.insert window txnId).entries ~ (window, txnId) :: tree.entries := by
  induction tree with
  | leaf => exact .refl _
  | node start stop txns maxEnd left right leftHypothesis rightHypothesis =>
    rw [insert]
    split
    · rw [entries_update, entries, append_assoc, append_assoc]
      exact leftHypothesis.append_right _
    · rw [entries_update, entries]
      exact (rightHypothesis.append_left _).trans perm_middle

theorem mem_entries_insert (window : TemporalWindow) (txnId : TxnId) (tree : IntervalTree)
    (entry : TemporalWindow × TxnId) :
    entry ∈ (tree.insert window txnId).entries ↔ entry = (window, txnId) ∨ entry ∈ tree.entries :=
  (entries_insert window txnId tree).mem_iff.trans mem_cons

/-- Every node has one transaction, the starts are in order, and `max_end` is not below an
end. -/
def Valid : IntervalTree → Prop
  | .leaf => True
  | .node start stop txns maxEnd left right =>
    (∃ txnId, txns = [txnId]) ∧ (∀ entry ∈ left.entries, entry.1.start < start) ∧
      (∀ entry ∈ right.entries, start ≤ entry.1.start) ∧
      (∀ entry ∈ (node start stop txns maxEnd left right).entries, entry.1.stop ≤ maxEnd) ∧
      left.Valid ∧ right.Valid

theorem le_raise (value : UInt64) (tree : IntervalTree) : value ≤ raise value tree := by
  cases tree with
  | leaf => exact UInt64.le_refl value
  | node start stop txns maxEnd left right =>
    rw [raise]
    split
    · rename_i more
      exact UInt64.le_of_lt more
    · exact UInt64.le_refl value

variable {entry : TemporalWindow × TxnId} {tree : IntervalTree} {maxEnd : UInt64}

theorem stop_le_raise (valid : tree.Valid) (value : UInt64) (mem : entry ∈ tree.entries) :
    entry.1.stop ≤ raise value tree := by
  cases tree with
  | leaf => exact absurd mem not_mem_nil
  | node start stop txns maxEnd left right =>
    have capped := valid.2.2.2.1 entry mem
    rw [raise]
    split
    · exact capped
    · rename_i notMore
      exact UInt64.le_trans capped (UInt64.not_lt.mp notMore)

theorem valid_update {start stop : UInt64} {txns : List TxnId} {left right : IntervalTree}
    (single : ∃ txnId, txns = [txnId]) (before : ∀ entry ∈ left.entries, entry.1.start < start)
    (behind : ∀ entry ∈ right.entries, start ≤ entry.1.start) (validLeft : left.Valid)
    (validRight : right.Valid) : (update start stop txns left right).Valid := by
  refine ⟨single, before, behind, ?_, validLeft, validRight⟩
  intro entry mem
  rw [entries, mem_append, mem_append] at mem
  rcases mem with (inLeft | own) | inRight
  · exact UInt64.le_trans (stop_le_raise validLeft stop inLeft) (le_raise _ right)
  · obtain ⟨txnId, _, isEntry⟩ := mem_map.mp own
    rw [← isEntry]
    exact UInt64.le_trans (le_raise stop left) (le_raise _ right)
  · exact stop_le_raise validRight _ inRight

theorem Valid.insert (valid : tree.Valid) (window : TemporalWindow) (txnId : TxnId) :
    (tree.insert window txnId).Valid := by
  induction tree with
  | leaf =>
    refine ⟨⟨txnId, rfl⟩, ?_, ?_, ?_, trivial, trivial⟩
    · simp [entries]
    · simp [entries]
    · simp [entries]
  | node start stop txns maxEnd left right leftHypothesis rightHypothesis =>
    obtain ⟨single, before, behind, _, validLeft, validRight⟩ := valid
    rw [IntervalTree.insert]
    split
    · rename_i less
      apply valid_update single _ behind (leftHypothesis validLeft) validRight
      intro entry mem
      rcases (mem_entries_insert window txnId left entry).mp mem with isNew | old
      · rw [isNew]
        exact less
      · exact before entry old
    · rename_i notLess
      apply valid_update single before _ validLeft (rightHypothesis validRight)
      intro entry mem
      rcases (mem_entries_insert window txnId right entry).mp mem with isNew | old
      · rw [isNew]
        exact UInt64.not_lt.mp notLess
      · exact behind entry old

/-- The leftmost node is what a removal with its start and its transaction takes away. -/
theorem findMin_spec (valid : tree.Valid) (notLeaf : tree ≠ .leaf) :
    ∃ window txnId, tree.findMin = some (window, [txnId]) ∧
      tree.entries = (window, txnId) :: (tree.remove window.start txnId).entries ∧
      ∀ entry ∈ tree.entries, window.start ≤ entry.1.start := by
  induction tree with
  | leaf => exact absurd rfl notLeaf
  | node start stop txns maxEnd left right leftHypothesis _ =>
    obtain ⟨⟨txnId, single⟩, before, behind, _, validLeft, _⟩ := valid
    subst single
    cases left with
    | leaf =>
      have here : ¬ start < start := UInt64.lt_irrefl start
      refine ⟨⟨start, stop⟩, txnId, rfl, by simp [remove, here, entries], ?_⟩
      intro entry mem
      simp only [entries, map_cons, map_nil, nil_append, cons_append, mem_cons] at mem
      rcases mem with isNode | inRight
      · rw [isNode]
        exact UInt64.le_refl start
      · exact behind entry inRight
    | node leftStart leftStop leftTxns leftMax first second =>
      obtain ⟨window, moved, found, front, least⟩ := leftHypothesis validLeft (by simp)
      have less : window.start < start := before (window, moved) (by
        rw [front]
        exact mem_cons_self)
      refine ⟨window, moved, found, ?_, ?_⟩
      · rw [remove, if_pos less, entries_update, entries, front]
        rfl
      · intro entry mem
        rw [entries, mem_append, mem_append] at mem
        rcases mem with (inLeft | own) | inRight
        · exact least entry inLeft
        · obtain ⟨_, _, isEntry⟩ := mem_map.mp own
          rw [← isEntry]
          exact UInt64.le_of_lt less
        · exact UInt64.le_trans (UInt64.le_of_lt less) (behind entry inRight)

def taken : IntervalTree → UInt64 → TxnId → List (TemporalWindow × TxnId)
  | .leaf, _, _ => []
  | .node nodeStart stop txns _ left right, start, txnId =>
    if start < nodeStart then left.taken start txnId
    else if start > nodeStart then right.taken start txnId
    else (txns.filter (· = txnId)).map fun own => (⟨nodeStart, stop⟩, own)

theorem Valid.remove (valid : tree.Valid) (start : UInt64) (txnId : TxnId) :
    (tree.remove start txnId).Valid ∧
      tree.entries ~ tree.taken start txnId ++ (tree.remove start txnId).entries := by
  induction tree generalizing start txnId with
  | leaf => exact ⟨trivial, .refl _⟩
  | node nodeStart stop txns maxEnd left right leftHypothesis rightHypothesis =>
    obtain ⟨⟨own, single⟩, before, behind, _, validLeft, validRight⟩ := valid
    subst single
    rw [IntervalTree.remove, taken]
    split
    · obtain ⟨validRest, parts⟩ := leftHypothesis validLeft start txnId
      refine ⟨valid_update ⟨own, rfl⟩ ?_ behind validRest validRight, ?_⟩
      · intro entry mem
        exact before entry (parts.mem_iff.mpr (mem_append_right _ mem))
      · rw [entries_update, entries, append_assoc, append_assoc, ← append_assoc (taken ..)]
        exact parts.append_right _
    · split
      · obtain ⟨validRest, parts⟩ := rightHypothesis validRight start txnId
        refine ⟨valid_update ⟨own, rfl⟩ before ?_ validLeft validRest, ?_⟩
        · intro entry mem
          exact behind entry (parts.mem_iff.mpr (mem_append_right _ mem))
        · rw [entries_update, entries]
          exact (parts.append_left _).trans (perm_append_comm_assoc _ _ _)
      · have apart : ∀ rest : IntervalTree, rest.entries = left.entries ++ right.entries →
            (node nodeStart stop [own] maxEnd left right).entries ~
              (⟨nodeStart, stop⟩, own) :: rest.entries := by
          intro rest same
          rw [same, entries, append_assoc]
          exact perm_middle
        by_cases isOwn : own = txnId
        · subst isOwn
          simp only [ne_eq, decide_not, filter_cons, decide_true, Bool.not_true,
            Bool.false_eq_true, if_false, filter_nil, if_true, map_cons, map_nil, cons_append,
            nil_append]
          split
          · rename_i noLeft
            exact ⟨validRight, apart _ (by rw [noLeft]; rfl)⟩
          split
          · rename_i noRight
            exact ⟨validLeft, apart _ (by rw [noRight]; exact (append_nil _).symm)⟩
          rename_i isNode
          -- the next transaction in order takes the place of the removed one
          obtain ⟨window, moved, found, front, least⟩ := findMin_spec validRight isNode
          have rest := (rightHypothesis validRight window.start moved).1
          have next : nodeStart ≤ window.start := behind (window, moved) (by
            rw [front]
            exact mem_cons_self)
          rw [found]
          refine ⟨valid_update ⟨moved, rfl⟩ ?_ ?_ validLeft rest, apart _ ?_⟩
          · intro entry mem
            exact UInt64.lt_of_lt_of_le (before entry mem) next
          · intro entry mem
            apply least entry
            rw [front]
            exact mem_cons_of_mem _ mem
          · rw [entries_update, front]
            simp
        · have unchanged : [own].filter (· ≠ txnId) = [own] := by
            simp [isOwn]
          rw [unchanged, if_neg (cons_ne_nil own [])]
          refine ⟨valid_update ⟨own, rfl⟩ before behind validLeft validRight, ?_⟩
          simp [isOwn, entries]

theorem mem_taken {start : UInt64} {txnId : TxnId} (mem : entry ∈ tree.taken start txnId) :
    entry.2 = txnId := by
  induction tree with
  | leaf => exact absurd mem not_mem_nil
  | node nodeStart stop txns maxEnd left right leftHypothesis rightHypothesis =>
    rw [taken] at mem
    split at mem
    · exact leftHypothesis mem
    · split at mem
      · exact rightHypothesis mem
      · obtain ⟨own, isOwn, isEntry⟩ := mem_map.mp mem
        rw [← isEntry]
        exact of_decide_eq_true (mem_filter.mp isOwn).2

structure Removed (tree rest : IntervalTree) (txnId : TxnId) : Prop where
  valid : rest.Valid
  fewer : ∀ entry ∈ rest.entries, entry ∈ tree.entries
  others : ∀ entry ∈ tree.entries, entry.2 ≠ txnId → entry ∈ rest.entries

theorem Valid.removed (valid : tree.Valid) (start : UInt64) (txnId : TxnId) :
    Removed tree (tree.remove start txnId) txnId := by
  obtain ⟨validRest, parts⟩ := valid.remove start txnId
  refine ⟨validRest, fun entry mem => parts.mem_iff.mpr (mem_append_right _ mem), ?_⟩
  intro entry mem ne
  exact (mem_append.mp (parts.mem_iff.mp mem)).resolve_left (fun isTaken => ne (mem_taken isTaken))

theorem reaches_of_mem (valid : tree.Valid)
    (mem : entry ∈ tree.entries) {start : UInt64} (notBefore : start ≤ entry.1.stop) :
    tree.reaches start = true := by
  cases tree with
  | leaf => exact absurd mem not_mem_nil
  | node nodeStart stop txns maxEnd left right =>
    exact decide_eq_true (UInt64.le_trans notBefore (valid.2.2.2.1 entry mem))

/-- A search finds every transaction whose window overlaps and has an end; `max_end` counts
an open window as one that ended at `0`. -/
theorem mem_query (valid : tree.Valid) {window : TemporalWindow} (mem : entry ∈ tree.entries)
    (bounded : entry.1.stop ≠ 0) (overlap : entry.1.overlaps window) :
    entry.2 ∈ tree.query window := by
  have bounds := TemporalWindow.overlaps_bounds overlap bounded
  induction tree with
  | leaf => exact absurd mem not_mem_nil
  | node start stop txns maxEnd left right leftHypothesis rightHypothesis =>
    obtain ⟨_, _, behind, _, validLeft, validRight⟩ := valid
    rw [entries, mem_append, mem_append] at mem
    rw [query, mem_append, mem_append]
    rcases mem with (inLeft | own) | inRight
    · refine Or.inl (Or.inr ?_)
      rw [if_pos (reaches_of_mem validLeft inLeft bounds.1)]
      exact leftHypothesis validLeft inLeft
    · refine Or.inl (Or.inl ?_)
      obtain ⟨txnId, isTxn, isEntry⟩ := mem_map.mp own
      rw [← isEntry] at overlap ⊢
      rw [if_pos overlap]
      exact isTxn
    · refine Or.inr ?_
      have notBefore := behind entry inRight
      have reached : start ≤ window.stop ∨ window.stop = 0 :=
        bounds.2.imp (UInt64.le_trans notBefore) id
      rw [if_pos reached]
      exact rightHypothesis validRight inRight

-- an open window in a left subtree is not found
example :
    (((leaf.insert ⟨150, 160⟩ 1).insert ⟨100, 0⟩ 2).insert ⟨110, 0⟩ 3).query ⟨155, 156⟩ = [1] := by
  decide

end IntervalTree

/-- `operator==` of keys. -/
def CedarKey.sameKey (left right : CedarKey) : Prop :=
  left.compareKeys right = .eq

instance (left right : CedarKey) : Decidable (left.sameKey right) :=
  inferInstanceAs (Decidable (_ = _))

theorem CedarKey.sameKey_symm {left right : CedarKey} (same : left.sameKey right) :
    right.sameKey left := by
  simp only [sameKey, compareKeys, Ordering.then_eq_eq] at same ⊢
  obtain ⟨entity, kind, column, target, ts, sequence, flags⟩ := same
  exact ⟨Std.OrientedCmp.eq_symm entity, Std.OrientedCmp.eq_symm kind,
    Std.OrientedCmp.eq_symm column, Std.OrientedCmp.eq_symm target,
    Std.OrientedCmp.eq_symm ts, Std.OrientedCmp.eq_symm sequence,
    Std.OrientedCmp.eq_symm flags⟩

structure ActiveTxnEntry where
  window : TemporalWindow
  writeSet : List CedarKey
  deriving DecidableEq, Repr

/-- `key_to_txns_` is the set of its pairs. -/
structure TwcdEngine where
  activeTxns : TxnId → Option ActiveTxnEntry
  intervalTree : IntervalTree
  keyToTxns : List (CedarKey × TxnId)

inductive ConflictCheckResult where
  | noConflict
  | readWriteConflict (conflictKeys : List CedarKey) (conflictTxns : List TxnId)
  | writeWriteConflict (conflictKeys : List CedarKey) (conflictTxns : List TxnId)
  deriving DecidableEq, Repr

namespace ConflictCheckResult

def type : ConflictCheckResult → Nat
  | .noConflict => 0
  | .readWriteConflict _ _ => 1
  | .writeWriteConflict _ _ => 2

end ConflictCheckResult

namespace TwcdEngine

def empty : TwcdEngine where
  activeTxns := fun _ => none
  intervalTree := .leaf
  keyToTxns := []

variable (eng : TwcdEngine) (txnId : TxnId)

def registerWindow (window : TemporalWindow) : Except Status TwcdEngine :=
  if txnId = 0 then .error (.invalidArgument "TwcdEngine" "Invalid txn_id")
  else if (eng.activeTxns txnId).isSome then
    .error (.invalidArgument "TwcdEngine" "Txn already registered")
  else
    .ok { eng with
      activeTxns := update eng.activeTxns txnId (some ⟨window, []⟩)
      intervalTree := eng.intervalTree.insert window txnId }

def unregisterWriteSet : TwcdEngine :=
  match eng.activeTxns txnId with
  | none => eng
  | some entry =>
    { eng with
      keyToTxns := eng.keyToTxns.filter fun pair =>
        ¬ (pair.2 = txnId ∧ ∃ key ∈ entry.writeSet, key.sameKey pair.1) }

def unregisterWindow : TwcdEngine :=
  match (eng.unregisterWriteSet txnId).activeTxns txnId with
  | none => eng.unregisterWriteSet txnId
  | some entry =>
    { eng.unregisterWriteSet txnId with
      activeTxns :=
        update (eng.unregisterWriteSet txnId).activeTxns txnId none
      intervalTree :=
        (eng.unregisterWriteSet txnId).intervalTree.remove entry.window.start txnId }

def registerWriteSet (writeSet : List CedarKey) : Except Status TwcdEngine :=
  match eng.activeTxns txnId with
  | none => .error (.notFound "TwcdEngine" "Txn not found")
  | some entry =>
    .ok { eng with
      activeTxns := update eng.activeTxns txnId
        (some { entry with writeSet := entry.writeSet ++ writeSet })
      keyToTxns := eng.keyToTxns ++ writeSet.map (fun key => (key, txnId)) }

/-- The keys that a transaction of the list is about to write; the two detections are the
same loop. -/
def detectConflicts (keys : List CedarKey) (overlapping : List TxnId) : List CedarKey :=
  keys.filter fun key =>
    ∃ pair ∈ eng.keyToTxns, pair.1.sameKey key ∧ pair.2 ≠ txnId ∧ pair.2 ∈ overlapping

def detectReadWriteConflicts (readSet : List CedarKey) (overlapping : List TxnId) : List CedarKey :=
  eng.detectConflicts txnId readSet overlapping

def detectWriteWriteConflicts (writeSet : List CedarKey)
    (overlapping : List TxnId) : List CedarKey :=
  eng.detectConflicts txnId writeSet overlapping

def checkConflict (window : TemporalWindow)
    (readSet writeSet : List CedarKey) : ConflictCheckResult :=
  let overlapping := (eng.intervalTree.query window).filter (· ≠ txnId)
  if overlapping = [] then .noConflict
  else if eng.detectReadWriteConflicts txnId readSet overlapping ≠ [] then
    .readWriteConflict (eng.detectReadWriteConflicts txnId readSet overlapping) overlapping
  else if eng.detectWriteWriteConflicts txnId writeSet overlapping ≠ [] then
    .writeWriteConflict (eng.detectWriteWriteConflicts txnId writeSet overlapping) overlapping
  else .noConflict

/-! ### What the indexes know of the active transactions -/

theorem eq_some_of_update {active : TxnId → Option ActiveTxnEntry} {txnId other : TxnId}
    {value : Option ActiveTxnEntry} {entry : ActiveTxnEntry}
    (isActive : update active txnId value other = some entry) :
    (other = txnId ∧ value = some entry) ∨ (other ≠ txnId ∧ active other = some entry) := by
  by_cases same : other = txnId
  · subst same
    rw [update_self] at isActive
    exact Or.inl ⟨rfl, isActive⟩
  · rw [update_of_ne same] at isActive
    exact Or.inr ⟨same, isActive⟩

/-- The tree has the window and the key index has the keys of every active transaction. -/
structure Indexed (eng : TwcdEngine) : Prop where
  tree : eng.intervalTree.Valid
  windows : ∀ txnId entry, eng.activeTxns txnId = some entry →
    (entry.window, txnId) ∈ eng.intervalTree.entries
  keys : ∀ txnId entry, eng.activeTxns txnId = some entry → ∀ key ∈ entry.writeSet,
    (key, txnId) ∈ eng.keyToTxns

theorem indexed_empty : empty.Indexed where
  tree := trivial
  windows := fun _ _ isActive => absurd isActive.symm (Option.some_ne_none _)
  keys := fun _ _ isActive => absurd isActive.symm (Option.some_ne_none _)

variable {txnId : TxnId} {window : TemporalWindow} {writeSet : List CedarKey}
    {eng : TwcdEngine}

theorem registerWindow_eq_ok
    {eng registered : TwcdEngine} (ok : eng.registerWindow txnId window = .ok registered) :
    eng.activeTxns txnId = none ∧
      registered = { eng with
        activeTxns := update eng.activeTxns txnId (some ⟨window, []⟩)
        intervalTree := eng.intervalTree.insert window txnId } := by
  rw [registerWindow] at ok
  split at ok
  · cases ok
  · split at ok
    · cases ok
    · rename_i free
      rw [Option.not_isSome_iff_eq_none] at free
      exact ⟨free, (Except.ok.inj ok).symm⟩

theorem Indexed.registerWindow {eng registered : TwcdEngine} (indexed : eng.Indexed)
    (ok : eng.registerWindow txnId window = .ok registered) : registered.Indexed := by
  obtain ⟨_, isRegistered⟩ := registerWindow_eq_ok ok
  subst isRegistered
  constructor
  · exact indexed.tree.insert window txnId
  · intro other entry isActive
    rw [IntervalTree.mem_entries_insert]
    rcases eq_some_of_update isActive with ⟨same, isNew⟩ | ⟨_, wasActive⟩
    · rw [same, ← Option.some.inj isNew]
      exact Or.inl rfl
    · exact Or.inr (indexed.windows other entry wasActive)
  · intro other entry isActive
    rcases eq_some_of_update isActive with ⟨_, isNew⟩ | ⟨_, wasActive⟩
    · rw [← Option.some.inj isNew]
      exact fun _ mem => absurd mem not_mem_nil
    · exact indexed.keys other entry wasActive

theorem registerWriteSet_eq_ok
    {eng registered : TwcdEngine}
    (ok : eng.registerWriteSet txnId writeSet = .ok registered) :
    ∃ entry, eng.activeTxns txnId = some entry ∧
      registered = { eng with
        activeTxns := update eng.activeTxns txnId
          (some { entry with writeSet := entry.writeSet ++ writeSet })
        keyToTxns := eng.keyToTxns ++ writeSet.map (fun key => (key, txnId)) } := by
  rw [registerWriteSet] at ok
  split at ok
  · cases ok
  · rename_i entry isActive
    exact ⟨entry, isActive, (Except.ok.inj ok).symm⟩

theorem Indexed.registerWriteSet {eng registered : TwcdEngine} (indexed : eng.Indexed)
    (ok : eng.registerWriteSet txnId writeSet = .ok registered) : registered.Indexed := by
  obtain ⟨own, ownActive, isRegistered⟩ := registerWriteSet_eq_ok ok
  subst isRegistered
  constructor
  · exact indexed.tree
  · intro other entry isActive
    rcases eq_some_of_update isActive with ⟨same, isNew⟩ | ⟨_, wasActive⟩
    · rw [same, ← Option.some.inj isNew]
      exact indexed.windows txnId own ownActive
    · exact indexed.windows other entry wasActive
  · intro other entry isActive key mem
    rw [mem_append]
    rcases eq_some_of_update isActive with ⟨same, isNew⟩ | ⟨_, wasActive⟩
    · rw [← Option.some.inj isNew, mem_append] at mem
      rw [same]
      exact mem.imp (indexed.keys txnId own ownActive key)
        (fun added => mem_map.mpr ⟨key, added, rfl⟩)
    · exact Or.inl (indexed.keys other entry wasActive key mem)

@[simp] theorem activeTxns_unregisterWriteSet (eng : TwcdEngine) (txnId : TxnId) :
    (eng.unregisterWriteSet txnId).activeTxns = eng.activeTxns := by
  rw [unregisterWriteSet]
  split
  · rfl
  · rfl

@[simp] theorem intervalTree_unregisterWriteSet (eng : TwcdEngine) (txnId : TxnId) :
    (eng.unregisterWriteSet txnId).intervalTree = eng.intervalTree := by
  rw [unregisterWriteSet]
  split
  · rfl
  · rfl

theorem mem_keyToTxns_unregisterWriteSet
    {pair : CedarKey × TxnId} (mem : pair ∈ eng.keyToTxns) (ne : pair.2 ≠ txnId) :
    pair ∈ (eng.unregisterWriteSet txnId).keyToTxns := by
  rw [unregisterWriteSet]
  split
  · exact mem
  · rw [mem_filter]
    refine ⟨mem, decide_eq_true ?_⟩
    exact fun gone => ne gone.1

@[simp] theorem activeTxns_unregisterWindow (eng : TwcdEngine) (txnId : TxnId) :
    (eng.unregisterWindow txnId).activeTxns = update eng.activeTxns txnId none := by
  rw [unregisterWindow, activeTxns_unregisterWriteSet]
  split
  · rename_i free
    rw [activeTxns_unregisterWriteSet, ← free, update_eq_self]
  · rfl

theorem mem_keyToTxns_unregisterWindow
    {pair : CedarKey × TxnId} (mem : pair ∈ eng.keyToTxns) (ne : pair.2 ≠ txnId) :
    pair ∈ (eng.unregisterWindow txnId).keyToTxns := by
  have kept := mem_keyToTxns_unregisterWriteSet mem ne
  rw [unregisterWindow]
  split
  · exact kept
  · exact kept

theorem removed_unregisterWindow (valid : eng.intervalTree.Valid) (txnId : TxnId) :
    IntervalTree.Removed eng.intervalTree (eng.unregisterWindow txnId).intervalTree txnId := by
  rw [unregisterWindow, activeTxns_unregisterWriteSet]
  split
  · rw [intervalTree_unregisterWriteSet]
    exact ⟨valid, fun _ => id, fun _ mem _ => mem⟩
  · rw [intervalTree_unregisterWriteSet]
    exact valid.removed _ txnId

def unregister (eng : TwcdEngine) (txnId : TxnId) : TwcdEngine :=
  (eng.unregisterWriteSet txnId).unregisterWindow txnId

@[simp] theorem activeTxns_unregister (eng : TwcdEngine) (txnId : TxnId) :
    (eng.unregister txnId).activeTxns = update eng.activeTxns txnId none := by
  rw [unregister, activeTxns_unregisterWindow, activeTxns_unregisterWriteSet]

theorem Indexed.unregister (indexed : eng.Indexed) (txnId : TxnId) :
    (eng.unregister txnId).Indexed := by
  have valid : (eng.unregisterWriteSet txnId).intervalTree.Valid := by
    rw [intervalTree_unregisterWriteSet]
    exact indexed.tree
  have removed := removed_unregisterWindow valid txnId
  rw [intervalTree_unregisterWriteSet] at removed
  have isOther : ∀ other entry, (eng.unregister txnId).activeTxns other = some entry →
      other ≠ txnId ∧ eng.activeTxns other = some entry := by
    intro other entry isActive
    rw [activeTxns_unregister] at isActive
    exact (eq_some_of_update isActive).resolve_left
      (fun isNew => Option.some_ne_none _ isNew.2.symm)
  constructor
  · exact removed.valid
  · intro other entry isActive
    obtain ⟨ne, wasActive⟩ := isOther other entry isActive
    exact removed.others (entry.window, other) (indexed.windows other entry wasActive) ne
  · intro other entry isActive key mem
    obtain ⟨ne, wasActive⟩ := isOther other entry isActive
    have known := indexed.keys other entry wasActive key mem
    exact mem_keyToTxns_unregisterWindow (mem_keyToTxns_unregisterWriteSet known ne) ne

theorem Indexed.conflict (indexed : eng.Indexed) {txnId other : TxnId}
    {entry : ActiveTxnEntry} (isActive : eng.activeTxns other = some entry)
    (ne : other ≠ txnId) (bounded : entry.window.stop ≠ 0)
    (overlap : entry.window.overlaps window) {key otherKey : CedarKey}
    (written : key ∈ writeSet) (otherWritten : otherKey ∈ entry.writeSet)
    (same : otherKey.sameKey key) (readSet : List CedarKey) :
    eng.checkConflict txnId window readSet writeSet ≠ .noConflict := by
  have found : other ∈ (eng.intervalTree.query window).filter (· ≠ txnId) := by
    rw [mem_filter]
    refine ⟨?_, decide_eq_true ne⟩
    exact IntervalTree.mem_query indexed.tree (indexed.windows other entry isActive) bounded overlap
  have detected : key ∈ eng.detectWriteWriteConflicts txnId writeSet
      ((eng.intervalTree.query window).filter (· ≠ txnId)) := by
    rw [detectWriteWriteConflicts, detectConflicts, mem_filter]
    refine ⟨written, decide_eq_true ?_⟩
    exact ⟨(otherKey, other), indexed.keys other entry isActive otherKey otherWritten, same,
      ne, found⟩
  rw [checkConflict]
  split
  · rename_i isEmpty
    rw [isEmpty] at found
    exact absurd found not_mem_nil
  · split
    · simp
    · rw [if_pos (ne_nil_of_mem detected)]
      simp

theorem checkConflict_of_registerWriteSet {eng registered : TwcdEngine} {written : List CedarKey}
    (ok : eng.registerWriteSet txnId written = .ok registered) (window : TemporalWindow)
    (readSet writeSet : List CedarKey) :
    registered.checkConflict txnId window readSet writeSet =
      eng.checkConflict txnId window readSet writeSet := by
  obtain ⟨entry, _, isRegistered⟩ := registerWriteSet_eq_ok ok
  have tree : registered.intervalTree = eng.intervalTree := by
    rw [isRegistered]
  have same : ∀ keys overlapping, registered.detectConflicts txnId keys overlapping =
      eng.detectConflicts txnId keys overlapping := by
    intro keys overlapping
    rw [detectConflicts, detectConflicts, isRegistered]
    apply filter_congr
    intro key _
    simp only [decide_eq_decide, mem_append, mem_map]
    constructor
    · rintro ⟨pair, known | ⟨_, _, isOwn⟩, equal, ne, overlaps⟩
      · exact ⟨pair, known, equal, ne, overlaps⟩
      · exact absurd (congrArg Prod.snd isOwn).symm ne
    · rintro ⟨pair, known, rest⟩
      exact ⟨pair, Or.inl known, rest⟩
  simp only [checkConflict, detectReadWriteConflicts, detectWriteWriteConflicts, tree, same]
  congr

end TwcdEngine

end CedarGraph
