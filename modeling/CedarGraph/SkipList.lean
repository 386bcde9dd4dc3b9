import CedarGraph.Memtable

/-!
# The skip list of the memtable

Nodes are numbered in the order of their insertion; `next_` and `older_version_` are functions
on the numbers. Every level is a linked list from `head_` to `tail_`. An insertion changes level
0 and the chains as it changes the memtable, and searches from the top level give what the
memtable gives.
-/

namespace CedarGraph

open Function List VSLMemTable

open LinkedLists

inductive NodeRef where
  | head
  | node (id : Nat)
  | tail
  | null
  deriving DecidableEq, Repr

def kMaxHeight : Nat := 16

/-- `size_` is the number of nodes. -/
structure LockedVSL where
  size : Nat
  row : Nat → Row
  height : Nat → Nat
  next : Nat → NodeRef → NodeRef
  older : Nat → Option Nat
  maxHeight : Nat
  rnd : UInt32

namespace LockedVSL

def empty : LockedVSL where
  size := 0
  row := fun _ => ⟨.default, .default, 0⟩
  height := fun _ => 0
  next := fun _ ref => if ref = .head then .tail else .null
  older := fun _ => none
  maxHeight := 1
  rnd := 0

variable (list : LockedVSL)

def heightOf : NodeRef → Nat
  | .head | .tail => kMaxHeight
  | .node id => list.height id
  | .null => 0

def nextOf (level : Nat) (ref : NodeRef) : NodeRef :=
  if list.heightOf ref ≤ level then .null else list.next level ref

def randomHeightFrom (rnd : UInt32) : Nat → Nat → Nat
  | 0, height => height
  | steps + 1, height =>
    if rnd &&& 3 = 0 then randomHeightFrom (rnd >>> 2) steps (height + 1) else height

def randomHeight (rnd : UInt32) : Nat :=
  randomHeightFrom rnd (kMaxHeight - 1) 1

def isBefore (key : CedarKey) : NodeRef → Bool
  | .node id => decide (precedes (list.row id).key key)
  | _ => false

/-- `preds` and `succs`; above `max_height_` they are the ends of the list. -/
def position (key : CedarKey) (level : Nat) : NodeRef × NodeRef :=
  if level < list.maxHeight then
    descend list.nextOf (list.isBefore key) list.size list.maxHeight .head level
  else (.head, .tail)

/-- The version that the new node is linked to. -/
def olderVersion (key : CedarKey) : Option Nat :=
  match (list.position key 0).2 with
  | .node id =>
    if (list.row id).key.entityId = key.entityId ∧ (list.row id).key.columnId = key.columnId ∧
        (list.row id).key.targetId = key.targetId ∧
        (list.row id).key.entityType = key.entityType then some id
    else none
  | _ => none

def insert (row : Row) : LockedVSL :=
  let height := randomHeight list.rnd
  { size := list.size + 1
    row := update list.row list.size row
    height := update list.height list.size height
    next := fun level =>
      if level < height then
        update (update (list.next level) (.node list.size) (list.position row.key level).2)
          (list.position row.key level).1 (.node list.size)
      else list.next level
    older := update list.older list.size (list.olderVersion row.key)
    maxHeight := if height > list.maxHeight then height else list.maxHeight
    rnd := list.rnd + 1 }

/-- The nodes from a node to `tail_` on a level. -/
def nodesFrom (list : LockedVSL) (level : Nat) : Nat → NodeRef → List Nat
  | 0, _ => []
  | fuel + 1, ref =>
    match list.nextOf level ref with
    | .node id => id :: nodesFrom list level fuel (.node id)
    | _ => []

def levelNodes (level : Nat) : List Nat :=
  list.nodesFrom level list.size .head

/-- `GetKey` with the members of a node. -/
def entry (id : Nat) : Row :=
  ⟨LFNode.getKey ⟨list.row id, []⟩, (list.row id).descriptor, (list.row id).txnVersion⟩

def traverse : List Row :=
  (list.levelNodes 0).map list.entry

def isOfEarlierEntity (eid : UInt64) : NodeRef → Bool
  | .node id => decide ((list.row id).key.entityId < eid)
  | _ => false

/-- The loop over the levels that the reads start with. -/
def seek (eid : UInt64) : NodeRef :=
  (descend list.nextOf (list.isOfEarlierEntity eid) list.size list.maxHeight .head 0).1

def entityNodes (eid : UInt64) : List Nat :=
  (list.nodesFrom 0 list.size (list.seek eid)).takeWhile fun id =>
    decide ((list.row id).key.entityId = eid)

def findLatestVersion (eid : UInt64) (entityType : EntityType)
    (col : UInt16) : Option Nat :=
  (list.entityNodes eid).find? fun id =>
    decide ((list.row id).key.columnId = col ∧ (list.row id).key.entityType = entityType.toByte)

def findLatestVersionOf (eid : UInt64) (entityType : EntityType)
    (col : UInt16) (targetId : UInt64) : Option Nat :=
  (list.entityNodes eid).find? fun id =>
    decide ((list.row id).key.columnId = col ∧ (list.row id).key.targetId = targetId ∧
      (list.row id).key.entityType = entityType.toByte)

/-- A node and those that are reached from it by `OlderVersion`. -/
def versionsFrom (list : LockedVSL) : Nat → Nat → List Nat
  | 0, _ => []
  | fuel + 1, id =>
    id :: match list.older id with
      | none => []
      | some ver => list.versionsFrom fuel ver

def versions (id : Nat) : List Nat :=
  list.versionsFrom list.size id

def versionAt (ts : UInt64) (id : Nat) : Option Nat :=
  (list.versions id).find? fun ver => decide ((list.row ver).key.timestamp ≤ ts)

def getAtTime (eid : UInt64) (entityType : EntityType)
    (col : UInt16) (ts : UInt64) : Option Descriptor :=
  ((list.findLatestVersion eid entityType col).bind (list.versionAt ts)).map
    fun id => (list.row id).descriptor

def getAtTimeOf (eid : UInt64) (entityType : EntityType)
    (col : UInt16) (targetId ts : UInt64) : Option Descriptor :=
  ((list.findLatestVersionOf eid entityType col targetId).bind
    (list.versionAt ts)).map fun id => (list.row id).descriptor

/-- The loop of `ScanRange`, with the last target. -/
def scanTargets (list : LockedVSL) (entityType : EntityType) (col : UInt16)
    (start stop : UInt64) : UInt64 → List Nat → List Nat
  | _, [] => []
  | lastTarget, id :: rest =>
    if (list.row id).key.columnId = col ∧ (list.row id).key.entityType = entityType.toByte ∧
        (list.row id).key.targetId ≠ lastTarget then
      (((list.versions id).dropWhile fun ver =>
          decide (stop < (list.row ver).key.timestamp)).takeWhile fun ver =>
          decide (start ≤ (list.row ver).key.timestamp)) ++
        list.scanTargets entityType col start stop (list.row id).key.targetId rest
    else list.scanTargets entityType col start stop lastTarget rest

/-- The versions of which `ScanRange` returns the members. -/
def scanRange (eid : UInt64) (entityType : EntityType)
    (col : UInt16) (start stop : UInt64) : List Nat :=
  list.scanTargets entityType col start stop uint64Max (list.entityNodes eid)

/-- The order of level 0: by the keys, and the later insertion first where they are equal. -/
def isAhead (first second : Nat) : Prop :=
  precedes (list.row first).key (list.row second).key ∨
    (¬ precedes (list.row second).key (list.row first).key ∧ second < first)

variable {list : LockedVSL}

theorem not_precedes_of_isAhead {first second : Nat} (ahead : list.isAhead first second) :
    ¬ precedes (list.row second).key (list.row first).key := by
  rcases ahead with precedes | ⟨notPrecedes, _⟩
  · exact not_precedes_of_precedes precedes
  · exact notPrecedes

/-- The levels are the linked lists of the nodes in this order. -/
structure Represents (list : LockedVSL) (order : List Nat) : Prop where
  levels : Levels list.heightOf list.next .head (order.map .node) .tail kMaxHeight
  perm : order.Perm (List.range list.size)
  sorted : order.Pairwise list.isAhead
  heights : ∀ id, id < list.size → 0 < list.height id ∧ list.height id ≤ list.maxHeight
  top : 0 < list.maxHeight ∧ list.maxHeight ≤ kMaxHeight
  older : ∀ id ver, list.older id = some ver → ver < id

theorem represents_empty : empty.Represents [] where
  levels := fun _ _ => rfl
  perm := List.Perm.nil
  sorted := List.Pairwise.nil
  heights := fun _ below => absurd below (Nat.not_lt_zero _)
  top := by decide
  older := fun _ _ isOlder => absurd isOlder.symm (Option.some_ne_none _)

section Represented

variable {list : LockedVSL} {order : List Nat} {id : Nat} {key : CedarKey}

section

variable (repr : list.Represents order)
include repr

theorem Represents.lt_size (mem : id ∈ order) : id < list.size :=
  mem_range.mp (repr.perm.mem_iff.mp mem)

theorem Represents.length_eq : order.length = list.size := by
  rw [repr.perm.length_eq, length_range]

theorem Represents.nodup : order.Nodup :=
  repr.perm.nodup_iff.mpr nodup_range

theorem Represents.levels_nextOf :
    Levels list.heightOf list.nextOf .head (order.map .node) .tail kMaxHeight := by
  intro level below
  apply (repr.levels level below).congr
  intro ref mem
  have high : level < list.heightOf ref := by
    rcases mem_cons.mp mem with isHead | onLevel
    · rw [isHead]
      exact below
    · exact of_decide_eq_true (mem_filter.mp onLevel).2
  rw [nextOf, if_neg (Nat.not_le_of_lt high)]

end

def preds (list : LockedVSL) (key : CedarKey) (order : List Nat) : List Nat :=
  order.takeWhile fun id => list.isBefore key (.node id)

def succs (list : LockedVSL) (key : CedarKey) (order : List Nat) : List Nat :=
  order.dropWhile fun id => list.isBefore key (.node id)

theorem preds_append_succs (list : LockedVSL) (key : CedarKey) (order : List Nat) :
    list.preds key order ++ list.succs key order = order :=
  takeWhile_append_dropWhile

theorem isBefore_of_mem_preds (mem : id ∈ list.preds key order) :
    list.isBefore key (.node id) = true := by
  rw [preds] at mem
  exact mem_takeWhile_imp (p := fun id => list.isBefore key (.node id)) mem

theorem isBefore_of_isAhead (key : CedarKey) {first second : Nat}
    (ahead : list.isAhead first second) (secondBefore : list.isBefore key (.node second) = true) :
    list.isBefore key (.node first) = true := by
  have precedes : precedes (list.row second).key key := of_decide_eq_true secondBefore
  rcases precedes_or_precedes precedes (list.row first).key with before | before
  · exact absurd before (not_precedes_of_isAhead ahead)
  · exact decide_eq_true before

theorem Represents.not_isBefore_of_mem_succs (repr : list.Represents order)
    (mem : id ∈ list.succs key order) : list.isBefore key (.node id) = false :=
  keep_eq_false_of_mem_dropWhile repr.sorted (fun _ _ => isBefore_of_isAhead key) mem

theorem mem_of_mem_preds (mem : id ∈ list.preds key order) : id ∈ order :=
  (takeWhile_sublist _).subset mem

theorem mem_of_mem_succs (mem : id ∈ list.succs key order) : id ∈ order :=
  (dropWhile_sublist _).subset mem

/-- A search ends between the last node that passes its test and the first one that does
not, on every level. -/
theorem Represents.descend_eq (repr : list.Represents order) {keep : NodeRef → Bool}
    (ends : keep .tail = false)
    (downward : ∀ first second, list.isAhead first second → keep (.node second) = true →
      keep (.node first) = true) {level : Nat} (inUse : level < list.maxHeight) :
    descend list.nextOf keep list.size list.maxHeight .head level =
      ((onLevel list.heightOf level
          ((order.takeWhile fun id => keep (.node id)).map .node)).getLastD .head,
        (onLevel list.heightOf level
          ((order.dropWhile fun id => keep (.node id)).map .node)).headD .tail) := by
  have levels := repr.levels_nextOf
  rw [← @takeWhile_append_dropWhile _ (fun id => keep (.node id)) order, map_append] at levels
  apply levels.descend_eq _ _ ends _ repr.top.2 mem_cons_self inUse
  · rw [forall_mem_map]
    intro id mem
    exact mem_takeWhile_imp (p := fun id => keep (.node id)) mem
  · rw [forall_mem_map]
    intro id mem
    exact @keep_eq_false_of_mem_dropWhile _ _ (fun id => keep (.node id)) _ repr.sorted downward
      id mem
  · rw [length_map, ← repr.length_eq]
    exact (takeWhile_sublist _).length_le

/-- The search finds the last node before the key and the first one that is not, on every
level. -/
theorem Represents.position_eq (repr : list.Represents order) (key : CedarKey) (level : Nat) :
    list.position key level =
      ((onLevel list.heightOf level ((list.preds key order).map .node)).getLastD .head,
        (onLevel list.heightOf level ((list.succs key order).map .node)).headD .tail) := by
  rw [position]
  split
  · rename_i inUse
    exact repr.descend_eq rfl (fun _ _ => isBefore_of_isAhead key) inUse
  · rename_i unused
    have nothing : ∀ ids : List Nat, (∀ id ∈ ids, id ∈ order) →
        onLevel list.heightOf level (ids.map .node) = [] := by
      intro ids members
      rw [onLevel, filter_eq_nil_iff]
      intro ref mem
      obtain ⟨id, inIds, isRef⟩ := mem_map.mp mem
      have low := (repr.heights id (repr.lt_size (members id inIds))).2
      rw [← isRef]
      intro onLevel
      have high : level < list.height id := of_decide_eq_true onLevel
      omega
    rw [nothing _ fun _ => mem_of_mem_preds, nothing _ fun _ => mem_of_mem_succs]
    rfl

theorem randomHeightFrom_bounds (rnd : UInt32) (steps height : Nat) :
    height ≤ randomHeightFrom rnd steps height ∧
      randomHeightFrom rnd steps height ≤ height + steps := by
  induction steps generalizing rnd height with
  | zero => exact ⟨Nat.le_refl _, Nat.le_refl _⟩
  | succ steps ih =>
    rw [randomHeightFrom]
    split
    · have bounds := ih (rnd >>> 2) (height + 1)
      omega
    · omega

theorem randomHeight_bounds (rnd : UInt32) :
    0 < randomHeight rnd ∧ randomHeight rnd ≤ kMaxHeight := by
  have bounds := randomHeightFrom_bounds rnd (kMaxHeight - 1) 1
  rw [randomHeight]
  simp only [kMaxHeight] at bounds ⊢
  omega

def insertOrder (list : LockedVSL) (key : CedarKey) (order : List Nat) : List Nat :=
  list.preds key order ++ list.size :: list.succs key order

theorem insert_row_of_lt (list : LockedVSL) (row : Row) (below : id < list.size) :
    (list.insert row).row id = list.row id :=
  update_of_ne (Nat.ne_of_lt below) _ _

theorem insert_row_size (list : LockedVSL) (row : Row) : (list.insert row).row list.size = row :=
  update_self _ _ _

theorem insert_height_of_lt (list : LockedVSL) (row : Row) (below : id < list.size) :
    (list.insert row).height id = list.height id :=
  update_of_ne (Nat.ne_of_lt below) _ _

theorem insert_height_size (list : LockedVSL) (row : Row) :
    (list.insert row).height list.size = randomHeight list.rnd :=
  update_self _ _ _

theorem insert_older_of_ne (list : LockedVSL) (row : Row) (old : id ≠ list.size) :
    (list.insert row).older id = list.older id :=
  update_of_ne old _ _

theorem insert_older_size (list : LockedVSL) (row : Row) :
    (list.insert row).older list.size = list.olderVersion row.key :=
  update_self _ _ _

section

variable (repr : list.Represents order)
include repr

theorem Represents.sorted_insert (row : Row) :
    (list.insertOrder row.key order).Pairwise (list.insert row).isAhead := by
  have sorted : order.Pairwise (list.insert row).isAhead := by
    apply repr.sorted.imp_of_mem
    intro first second inFirst inSecond
    rw [isAhead, isAhead, insert_row_of_lt _ _ (repr.lt_size inFirst),
      insert_row_of_lt _ _ (repr.lt_size inSecond)]
    exact id
  rw [← preds_append_succs list row.key order, pairwise_append] at sorted
  obtain ⟨predsSorted, succsSorted, across⟩ := sorted
  rw [insertOrder, pairwise_append, pairwise_cons]
  refine ⟨predsSorted, ⟨?_, succsSorted⟩, ?_⟩
  · intro id mem
    have below := repr.lt_size (mem_of_mem_succs mem)
    have notBefore := repr.not_isBefore_of_mem_succs mem
    rw [isAhead, insert_row_size, insert_row_of_lt _ _ below]
    exact Or.inr ⟨of_decide_eq_false notBefore, below⟩
  · intro id mem other inRest
    rcases mem_cons.mp inRest with isNew | inSuccs
    · rw [isNew, isAhead, insert_row_size,
        insert_row_of_lt _ _ (repr.lt_size (mem_of_mem_preds mem))]
      exact Or.inl (of_decide_eq_true (isBefore_of_mem_preds mem))
    · exact across id mem other inSuccs

theorem Represents.perm_insert (row : Row) :
    (list.insertOrder row.key order).Perm (List.range (list.size + 1)) := by
  rw [insertOrder, range_succ]
  refine perm_middle.trans ?_
  rw [preds_append_succs]
  exact (repr.perm.cons list.size).trans (perm_append_singleton _ _).symm

theorem Represents.levels_insert (row : Row) :
    Levels (list.insert row).heightOf (list.insert row).next .head
      ((list.insertOrder row.key order).map .node) .tail kMaxHeight := by
  have sameHeights : ∀ ids : List Nat, (∀ id ∈ ids, id ∈ order) →
      ∀ ref ∈ ids.map NodeRef.node, (list.insert row).heightOf ref = list.heightOf ref := by
    intro ids members ref mem
    obtain ⟨id, inIds, isRef⟩ := mem_map.mp mem
    rw [← isRef]
    exact insert_height_of_lt list row (repr.lt_size (members id inIds))
  have levels : Levels (list.insert row).heightOf list.next .head
      ((list.preds row.key order).map .node ++ (list.succs row.key order).map .node) .tail
      kMaxHeight := by
    intro level below
    rw [← map_append, preds_append_succs, onLevel_congr (sameHeights order fun _ => id)]
    exact repr.levels level below
  have isMap : (list.insertOrder row.key order).map NodeRef.node =
      (list.preds row.key order).map .node ++
        .node list.size :: (list.succs row.key order).map .node := by
    rw [insertOrder, map_append, map_cons]
  rw [isMap]
  apply levels.insert
  · rw [← map_append, preds_append_succs]
    intro mem
    rcases mem_cons.mp mem with isHead | inOrder
    · cases isHead
    · obtain ⟨id, inIds, isNew⟩ := mem_map.mp inOrder
      exact Nat.lt_irrefl _ (NodeRef.node.inj isNew ▸ repr.lt_size inIds)
  · rw [← map_append, preds_append_succs, nodup_cons]
    constructor
    · intro mem
      obtain ⟨id, _, isHead⟩ := mem_map.mp mem
      cases isHead
    · exact repr.nodup.map fun _ _ => NodeRef.node.inj
  · intro level _ high
    have isHeight : (list.insert row).heightOf (.node list.size) = randomHeight list.rnd :=
      insert_height_size list row
    rw [onLevel_congr (sameHeights _ fun _ => mem_of_mem_succs),
      onLevel_congr (sameHeights _ fun _ => mem_of_mem_preds)]
    rw [isHeight] at high
    simp only [insert, if_pos high, repr.position_eq row.key level]
  · intro level _ low
    have isHeight : (list.insert row).heightOf (.node list.size) = randomHeight list.rnd :=
      insert_height_size list row
    rw [isHeight] at low
    simp only [insert, if_neg (Nat.not_lt_of_le low)]

theorem Represents.onLevel_zero {ids : List Nat} (members : ∀ id ∈ ids, id ∈ order) :
    onLevel list.heightOf 0 (ids.map .node) = ids.map .node := by
  rw [onLevel, filter_eq_self]
  intro ref mem
  obtain ⟨id, inIds, isRef⟩ := mem_map.mp mem
  rw [← isRef]
  exact decide_eq_true (repr.heights id (repr.lt_size (members id inIds))).1

theorem Represents.position_zero (key : CedarKey) :
    (list.position key 0).2 = ((list.succs key order).map NodeRef.node).headD .tail := by
  rw [repr.position_eq key 0, repr.onLevel_zero fun _ => mem_of_mem_succs]

theorem Represents.olderVersion_lt
    {ver : Nat} (isOlder : list.olderVersion key = some ver) : ver < list.size := by
  rw [olderVersion, repr.position_zero key] at isOlder
  cases first : list.succs key order with
  | nil =>
    rw [first] at isOlder
    cases isOlder
  | cons id rest =>
    have inSuccs : id ∈ list.succs key order := by
      rw [first]
      exact mem_cons_self
    rw [first] at isOlder
    simp only [map_cons, headD_cons] at isOlder
    split at isOlder
    · rw [← Option.some.inj isOlder]
      exact repr.lt_size (mem_of_mem_succs inSuccs)
    · cases isOlder

theorem Represents.insert (row : Row) :
    (list.insert row).Represents (list.insertOrder row.key order) where
  levels := repr.levels_insert row
  perm := repr.perm_insert row
  sorted := repr.sorted_insert row
  heights := by
    intro id below
    have bounds := randomHeight_bounds list.rnd
    have top : list.maxHeight ≤ (list.insert row).maxHeight ∧
        randomHeight list.rnd ≤ (list.insert row).maxHeight := by
      simp only [LockedVSL.insert]
      split
      · omega
      · omega
    rcases Nat.lt_succ_iff_lt_or_eq.mp below with old | isNew
    · rw [insert_height_of_lt list row old]
      have heights := repr.heights id old
      omega
    · rw [isNew, insert_height_size]
      omega
  top := by
    have bounds := randomHeight_bounds list.rnd
    have top := repr.top
    simp only [LockedVSL.insert]
    split
    · omega
    · exact top
  older := by
    intro id ver isOlder
    by_cases isNew : id = list.size
    · rw [isNew] at isOlder ⊢
      rw [insert_older_size] at isOlder
      exact repr.olderVersion_lt isOlder
    · rw [insert_older_of_ne list row isNew] at isOlder
      exact repr.older id ver isOlder

end

end Represented

def entries (list : LockedVSL) : List Row :=
  (List.range list.size).map list.row

theorem entries_insert (list : LockedVSL) (row : Row) :
    (list.insert row).entries = list.entries ++ [row] := by
  have old : (range list.size).map (list.insert row).row = list.entries := by
    apply map_congr_left
    intro id mem
    exact insert_row_of_lt list row (mem_range.mp mem)
  have isSize : (list.insert row).size = list.size + 1 := rfl
  rw [entries, isSize, range_succ, map_append, old, map_singleton, insert_row_size]

theorem represents_foldl {order : List Nat} (repr : list.Represents order) (rows : List Row) :
    (rows.foldl insert list).entries = list.entries ++ rows ∧
      ∃ later, (rows.foldl insert list).Represents later := by
  induction rows generalizing list order with
  | nil => exact ⟨(append_nil _).symm, order, repr⟩
  | cons row rest ih =>
    obtain ⟨entries, later⟩ := ih (repr.insert row)
    refine ⟨?_, later⟩
    rw [foldl_cons, entries, entries_insert, append_assoc]
    rfl

def ofRows (rows : List Row) : LockedVSL :=
  rows.foldl insert empty

theorem entries_ofRows (rows : List Row) : (ofRows rows).entries = rows :=
  (represents_foldl represents_empty rows).1

theorem represents_ofRows (rows : List Row) : ∃ order, (ofRows rows).Represents order :=
  (represents_foldl represents_empty rows).2

theorem size_ofRows (rows : List Row) : (ofRows rows).size = rows.length := by
  have isRows := congrArg length (entries_ofRows rows)
  rw [entries, length_map, length_range] at isRows
  exact isRows

theorem nodesFrom_eq {level : Nat} {ref : NodeRef} {ids : List Nat}
    (linked : Linked (list.nextOf level) ref (ids.map .node) .tail) {fuel : Nat}
    (enough : ids.length ≤ fuel) : list.nodesFrom level fuel ref = ids := by
  induction ids generalizing ref fuel with
  | nil =>
    have isTail : list.nextOf level ref = .tail := linked
    cases fuel with
    | zero => rfl
    | succ fuel => rw [nodesFrom, isTail]
  | cons id rest ih =>
    cases fuel with
    | zero => exact absurd enough (Nat.not_succ_le_zero _)
    | succ fuel =>
      have isNext : list.nextOf level ref = .node id := linked.1
      rw [nodesFrom, isNext]
      exact congrArg (id :: ·) (ih linked.2 (Nat.le_of_succ_le_succ enough))

theorem onLevel_map_node (list : LockedVSL) (level : Nat) (ids : List Nat) :
    onLevel list.heightOf level (ids.map .node) = (onLevel list.height level ids).map .node := by
  rw [onLevel, filter_map]
  rfl

section Represented

variable {list : LockedVSL} {order : List Nat}

section

variable (repr : list.Represents order)
include repr

theorem Represents.levelNodes_eq {level : Nat} (below : level < kMaxHeight) :
    list.levelNodes level = onLevel list.height level order := by
  have linked := repr.levels_nextOf level below
  rw [onLevel_map_node] at linked
  apply nodesFrom_eq linked
  rw [← repr.length_eq]
  exact length_filter_le _ order

theorem Represents.levelNodes_zero : list.levelNodes 0 = order := by
  rw [repr.levelNodes_eq (by decide), onLevel, filter_eq_self]
  intro id mem
  exact decide_eq_true (repr.heights id (repr.lt_size mem)).1

theorem Represents.sublist (level : Nat) :
    (list.levelNodes (level + 1)).Sublist (list.levelNodes level) := by
  by_cases below : level + 1 < kMaxHeight
  · rw [repr.levelNodes_eq below, repr.levelNodes_eq (Nat.lt_of_succ_lt below)]
    exact onLevel_succ_sublist list.height level order
  have nothing : list.levelNodes (level + 1) = [] := by
    have ends : list.nextOf (level + 1) .head = .null :=
      if_pos (Nat.le_of_not_lt below)
    rw [levelNodes]
    cases list.size with
    | zero => rfl
    | succ size => rw [nodesFrom, ends]
  rw [nothing]
  exact nil_sublist _

end

end Represented

theorem getKey_eq_iff (node : LFNode) :
    node.getKey = node.row.key ↔
      ∃ entityType : EntityType, node.row.key.entityType = entityType.toByte := by
  obtain ⟨⟨⟨eid, ts, targetId, col, sequence, kind, flags, partId⟩, _, _⟩, _⟩ :=
    node
  simp only [LFNode.getKey]
  split
  · rename_i isOut
    exact iff_of_true (by rw [CedarKey.edgeOut, isOut]) ⟨.edgeOut, isOut⟩
  rename_i notOut
  split
  · rename_i isIn
    exact iff_of_true (by rw [CedarKey.edgeIn, isIn]) ⟨.edgeIn, isIn⟩
  rename_i notIn
  constructor
  · intro same
    exact ⟨.vertex, (congrArg CedarKey.entityType same).symm⟩
  · rintro ⟨entityType, isType⟩
    cases entityType with
    | vertex => rw [CedarKey.vertex, isType]
    | edgeOut => exact absurd isType notOut
    | edgeIn => exact absurd isType notIn

theorem Represents.traverse_eq_iff {order : List Nat} (repr : list.Represents order) :
    list.traverse = (list.levelNodes 0).map list.row ↔
      ∀ row ∈ list.entries, ∃ entityType : EntityType, row.key.entityType = entityType.toByte := by
  have entry_eq_iff : ∀ id, list.entry id = list.row id ↔
      ∃ entityType : EntityType, (list.row id).key.entityType = entityType.toByte := by
    intro id
    rw [← getKey_eq_iff ⟨list.row id, []⟩]
    constructor
    · intro same
      exact congrArg Row.key same
    · intro same
      rw [entry, same]
  rw [traverse, map_inj_left, repr.levelNodes_zero, entries, forall_mem_map]
  simp only [entry_eq_iff, repr.perm.mem_iff]

/-- The representation invariant after any insertions.  `Traverse` hands out what was
inserted exactly if every key has one of the three types. -/
theorem ofRows_invariant (rows : List Row) :
    (ofRows rows).entries = rows ∧
      (∀ level, level < kMaxHeight → Linked ((ofRows rows).nextOf level) .head
        (((ofRows rows).levelNodes level).map .node) .tail) ∧
      ((ofRows rows).levelNodes 0).Perm (List.range rows.length) ∧
      ((ofRows rows).levelNodes 0).Pairwise (ofRows rows).isAhead ∧
      (∀ level, ((ofRows rows).levelNodes (level + 1)).Sublist ((ofRows rows).levelNodes level)) ∧
      ((ofRows rows).traverse = ((ofRows rows).levelNodes 0).map (ofRows rows).row ↔
        ∀ row ∈ rows, ∃ entityType : EntityType, row.key.entityType = entityType.toByte) := by
  obtain ⟨order, repr⟩ := represents_ofRows rows
  have isTraverse := repr.traverse_eq_iff
  rw [entries_ofRows] at isTraverse
  refine ⟨entries_ofRows rows, ?_, ?_, ?_, repr.sublist, isTraverse⟩
  · intro level below
    rw [repr.levelNodes_eq below, ← onLevel_map_node]
    exact repr.levels_nextOf level below
  · rw [repr.levelNodes_zero, ← size_ofRows]
    exact repr.perm
  · rw [repr.levelNodes_zero]
    exact repr.sorted

/-- A key with another type comes out as the key of a vertex. -/
theorem traverse_changes_type :
    let rows : List Row := [⟨⟨1, 10, 0, 2, 0, 7, 0, 0⟩, .default, 5⟩]
    (ofRows rows).traverse = [⟨.vertex 1 2 10 0 0 0 0, .default, 5⟩] ∧
      (ofRows rows).traverse ≠ ((ofRows rows).levelNodes 0).map (ofRows rows).row := by
  decide

end LockedVSL

end CedarGraph
