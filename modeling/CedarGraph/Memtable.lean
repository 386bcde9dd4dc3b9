import CedarGraph.Types
import CedarGraph.Lib.Linked
import CedarGraph.Lib.Newest

/-!
# The versioned memtable

`LockedVSL` is a skip list ordered by entity, column and target ascending and timestamp
descending; the list of level 0 is the state kept here. `older_version_` is written once, at the
insertion; the rows it leads to are carried as `older`. After in-order insertions `GetAtTime`
returns the newest version at the query time.
-/

namespace CedarGraph

open Newest List EntityType LinkedLists

structure LFNode where
  row : Row
  older : List Row
  deriving DecidableEq, Repr

namespace LFNode

/-- The version and those reached from it by `OlderVersion`. -/
def chain (node : LFNode) : List Row :=
  node.row :: node.older

/-- `GetKey`: the two edge types are kept, every other type byte becomes a
vertex key. -/
def getKey (node : LFNode) : CedarKey :=
  let key := node.row.key
  if key.entityType = edgeOut.toByte then
    .edgeOut key.entityId key.targetId key.columnId key.timestamp key.sequence key.partId key.flags
  else if key.entityType = edgeIn.toByte then
    .edgeIn key.entityId key.targetId key.columnId key.timestamp key.sequence key.partId key.flags
  else
    .vertex key.entityId key.columnId key.timestamp key.sequence key.partId key.targetId key.flags

end LFNode

structure VSLMemTable where
  nodes : List LFNode
  deriving DecidableEq, Repr

namespace VSLMemTable

variable (mem : VSLMemTable) (id : UInt64) (kind : EntityType) (col : UInt16)

def empty : VSLMemTable := ⟨[]⟩

/-- The condition under which `Insert` steps over a node. -/
def precedes (node key : CedarKey) : Prop :=
  node.entityId < key.entityId ∨
  (node.entityId = key.entityId ∧ node.columnId < key.columnId) ∨
  (node.entityId = key.entityId ∧ node.columnId = key.columnId ∧ node.targetId < key.targetId) ∨
  (node.entityId = key.entityId ∧ node.columnId = key.columnId ∧
    node.targetId = key.targetId ∧ key.timestamp < node.timestamp)

instance (node key : CedarKey) : Decidable (precedes node key) := by
  unfold precedes
  infer_instance

/-- The rows the new node's `older_version_` leads to: the successor's chain when
the successor has the same entity, column, target and type. -/
def olderVersions (key : CedarKey) : List LFNode → List Row
  | [] => []
  | succ :: _ =>
    if succ.row.key.entityId = key.entityId ∧ succ.row.key.columnId = key.columnId ∧
        succ.row.key.targetId = key.targetId ∧
        succ.row.key.entityType = key.entityType then
      succ.chain
    else []

def stepsOver (key : CedarKey) (node : LFNode) : Bool :=
  decide (precedes node.row.key key)

/-- `LockedVSL::Insert` on level 0. -/
def insert (row : Row) (nodes : List LFNode) : List LFNode :=
  let preds := nodes.takeWhile (stepsOver row.key)
  let succs := nodes.dropWhile (stepsOver row.key)
  preds ++ ⟨row, olderVersions row.key succs⟩ :: succs

def put (row : Row) : VSLMemTable :=
  ⟨insert row mem.nodes⟩

def isEmpty : Bool :=
  mem.nodes.isEmpty

def size : Nat :=
  mem.nodes.length

/-- `FindLatestVersion` without a target: the first node of the entity that has
the column and the type. -/
def findLatestVersion : Option LFNode :=
  let fromEntity := mem.nodes.dropWhile fun node => decide (node.row.key.entityId < id)
  let ofEntity := fromEntity.takeWhile fun node => decide (node.row.key.entityId = id)
  ofEntity.find? fun node =>
    decide (node.row.key.columnId = col ∧ node.row.key.entityType = kind.toByte)

/-- `GetAtTime`: walk the chain of the latest version down to the first version
that is not after the query time. -/
def getAtTime (ts : UInt64) : Option Descriptor :=
  match mem.findLatestVersion id kind col with
  | none => none
  | some node =>
    (node.chain.find? fun row => decide (row.key.timestamp ≤ ts)).map Row.descriptor

/-- The loop of `ScanRange` over the nodes of one entity: the chain of the first node
of every target other than the last one seen. -/
def scanTargets (kind : EntityType) (col : UInt16) (start stop : UInt64) :
    UInt64 → List LFNode → List Row
  | _, [] => []
  | lastTarget, node :: rest =>
    if node.row.key.columnId = col ∧ node.row.key.entityType = kind.toByte ∧
        node.row.key.targetId ≠ lastTarget then
      ((node.chain.dropWhile fun row => decide (stop < row.key.timestamp)).takeWhile
        fun row => decide (start ≤ row.key.timestamp)) ++
        scanTargets kind col start stop node.row.key.targetId rest
    else scanTargets kind col start stop lastTarget rest

def scanRange (start stop : UInt64) : List Row :=
  let fromEntity := mem.nodes.dropWhile fun node => decide (node.row.key.entityId < id)
  let ofEntity := fromEntity.takeWhile fun node => decide (node.row.key.entityId = id)
  scanTargets kind col start stop uint64Max ofEntity

/-- `GetAll`, which is also `GetVersionChain`. -/
def getVersionChain : List Row :=
  mem.scanRange id kind col 0 uint64Max

def traverse : List Row :=
  mem.nodes.map fun node => ⟨node.getKey, node.row.descriptor, node.row.txnVersion⟩

theorem precedes_iff (node key : CedarKey) :
    precedes node key ↔ node.entityId.toNat < key.entityId.toNat ∨
      (node.entityId.toNat = key.entityId.toNat ∧ node.columnId.toNat < key.columnId.toNat) ∨
      (node.entityId.toNat = key.entityId.toNat ∧ node.columnId.toNat = key.columnId.toNat ∧
        node.targetId.toNat < key.targetId.toNat) ∨
      (node.entityId.toNat = key.entityId.toNat ∧ node.columnId.toNat = key.columnId.toNat ∧
        node.targetId.toNat = key.targetId.toNat ∧
        key.timestamp.toNat < node.timestamp.toNat) := by
  simp only [precedes, UInt64.lt_iff_toNat_lt, UInt16.lt_iff_toNat_lt,
    UInt64.toNat_inj, UInt16.toNat_inj]

/-- The place of a key in the list: entity, column and target ascending,
timestamp descending. -/
private def place (key : CedarKey) : ℕ ×ₗ ℕ ×ₗ ℕ ×ₗ ℕ :=
  toLex (key.entityId.toNat, toLex (key.columnId.toNat,
    toLex (key.targetId.toNat, 2 ^ 64 - key.timestamp.toNat)))

private theorem precedes_iff_place_lt (node key : CedarKey) :
    precedes node key ↔ place node < place key := by
  have nodeBound := node.timestamp.toNat_lt
  have keyBound := key.timestamp.toNat_lt
  have descending :
      2 ^ 64 - node.timestamp.toNat < 2 ^ 64 - key.timestamp.toNat ↔
        key.timestamp.toNat < node.timestamp.toNat := by
    omega
  rw [precedes_iff, place, place, Prod.Lex.toLex_lt_toLex, Prod.Lex.toLex_lt_toLex,
    Prod.Lex.toLex_lt_toLex]
  simp only [descending]
  tauto

theorem not_precedes_of_precedes {left right : CedarKey} (ahead : precedes left right) :
    ¬ precedes right left := by
  rw [precedes_iff_place_lt] at ahead ⊢
  exact lt_asymm ahead

theorem precedes_or_precedes
    {left right : CedarKey} (ahead : precedes left right) (middle : CedarKey) :
    precedes left middle ∨ precedes middle right := by
  rw [precedes_iff_place_lt] at ahead
  rw [precedes_iff_place_lt, precedes_iff_place_lt]
  rcases lt_or_ge (place left) (place middle) with below | above
  · exact Or.inl below
  · exact Or.inr (lt_of_le_of_lt above ahead)

/-- Level 0 of the skip list is sorted. -/
def Ordered (nodes : List LFNode) : Prop :=
  nodes.Pairwise fun prev later => ¬ precedes later.row.key prev.row.key

variable {node : LFNode} {nodes : List LFNode} {rows : List Row} {mem : VSLMemTable}

theorem not_precedes_of_mem_dropWhile
    (ordered : Ordered nodes) {key : CedarKey} (member : node ∈ nodes.dropWhile (stepsOver key)) :
    ¬ precedes node.row.key key := by
  refine of_decide_eq_false (keep_eq_false_of_mem_dropWhile ordered ?_ member)
  intro first second notBefore secondAhead
  rcases precedes_or_precedes (of_decide_eq_true secondAhead) first.row.key with before | before
  · exact absurd before notBefore
  · exact decide_eq_true before

theorem precedes_of_mem_takeWhile
    {key : CedarKey} (member : node ∈ nodes.takeWhile (stepsOver key)) :
    precedes node.row.key key := by
  simpa [stepsOver] using mem_takeWhile_imp member

theorem ordered_insert (ordered : Ordered nodes) (row : Row) : Ordered (insert row nodes) := by
  have parts :
      Ordered (nodes.takeWhile (stepsOver row.key) ++ nodes.dropWhile (stepsOver row.key)) := by
    rw [takeWhile_append_dropWhile]
    exact ordered
  rcases pairwise_append.mp parts with ⟨predsOrdered, succsOrdered, across⟩
  refine pairwise_append.mpr ⟨predsOrdered, ?_, ?_⟩
  · refine pairwise_cons.mpr ⟨?_, succsOrdered⟩
    intro node member
    exact not_precedes_of_mem_dropWhile ordered member
  · intro pred predMember node nodeMember
    rcases mem_cons.mp nodeMember with rfl | succMember
    · exact not_precedes_of_precedes (precedes_of_mem_takeWhile predMember)
    · exact across pred predMember node succMember

def inColumn (row : Row) : Bool :=
  decide (row.key.entityId = id ∧ row.key.columnId = col)

theorem inColumn_iff {id : UInt64} {col : UInt16} {row : Row} :
    inColumn id col row = true ↔ row.key.entityId = id ∧ row.key.columnId = col := by
  simp [inColumn]

def columnNodes (id : UInt64) (col : UInt16) (nodes : List LFNode) : List LFNode :=
  nodes.filter fun node => inColumn id col node.row

theorem columnNodes_append (front back : List LFNode) :
    columnNodes id col (front ++ back) = columnNodes id col front ++ columnNodes id col back :=
  filter_append front back

theorem columnNodes_cons (id : UInt64) (col : UInt16) (node : LFNode) (nodes : List LFNode) :
    columnNodes id col (node :: nodes) =
      if inColumn id col node.row then node :: columnNodes id col nodes
      else columnNodes id col nodes :=
  filter_cons

/-- If the two rows are versions of one entity and column, `row` has the same
target and type and a strictly larger timestamp. -/
def Follows (row prev : Row) : Prop :=
  prev.key.entityId = row.key.entityId →
  prev.key.columnId = row.key.columnId → prev.key.targetId = row.key.targetId ∧
    prev.key.entityType = row.key.entityType ∧
    prev.key.timestamp.toNat < row.key.timestamp.toNat

/-- What the nodes are after `rows` were inserted in order: for every entity and
column the first node's chain is the whole history, newest first. -/
structure Holds (nodes : List LFNode) (rows : List Row) : Prop where
  perm : (nodes.map LFNode.row).Perm rows
  ordered : Ordered nodes
  column : ∀ id col,
    (columnNodes id col nodes).map LFNode.row = (rows.filter (inColumn id col)).reverse
  chain : ∀ id col head rest,
    columnNodes id col nodes = head :: rest → head.older = rest.map LFNode.row

theorem holds_empty : Holds [] [] :=
  ⟨List.Perm.nil, List.Pairwise.nil, by simp [columnNodes], by simp [columnNodes]⟩

theorem Holds.row_mem (holds : Holds nodes rows) (member : node ∈ nodes) : node.row ∈ rows :=
  holds.perm.mem_iff.mp (mem_map_of_mem member)

theorem insert_perm (row : Row) (nodes : List LFNode) :
    ((insert row nodes).map LFNode.row).Perm (row :: nodes.map LFNode.row) := by
  rw [insert, map_append, map_cons]
  refine perm_middle.trans ?_
  rw [← map_append, takeWhile_append_dropWhile]

section Insertion

variable {nodes : List LFNode} {rows : List Row} {row : Row}

section

variable (holds : Holds nodes rows)
include holds

section

variable (follows : ∀ prev ∈ rows, Follows row prev)
include follows

private theorem columnNodes_preds :
    columnNodes row.key.entityId row.key.columnId (nodes.takeWhile (stepsOver row.key)) = [] := by
  refine filter_eq_nil_iff.mpr ?_
  intro node member inGroup
  have ahead := precedes_of_mem_takeWhile member
  have nodeMember : node ∈ nodes := (takeWhile_sublist _).subset member
  have same := inColumn_iff.mp inGroup
  have facts := follows node.row (holds.row_mem nodeMember) same.1 same.2
  rw [precedes_iff, same.1, same.2, facts.1] at ahead
  omega

private theorem columnNodes_succs :
    columnNodes row.key.entityId row.key.columnId (nodes.dropWhile (stepsOver row.key)) =
      columnNodes row.key.entityId row.key.columnId nodes := by
  conv_rhs => rw [← takeWhile_append_dropWhile (p := stepsOver row.key) (l := nodes)]
  rw [columnNodes_append, columnNodes_preds holds follows, nil_append]

/-- The successor that `Insert` links as the older version is the newest
version of the entity and column so far. -/
private theorem olderVersions_succs :
    olderVersions row.key (nodes.dropWhile (stepsOver row.key)) =
      (columnNodes row.key.entityId row.key.columnId nodes).map LFNode.row := by
  have chainOf := holds.chain row.key.entityId row.key.columnId
  rw [← columnNodes_succs holds follows] at chainOf ⊢
  have sublist := dropWhile_sublist (l := nodes) (stepsOver row.key)
  have behind : ∀ node ∈ nodes.dropWhile (stepsOver row.key),
      ¬ precedes node.row.key row.key := fun node member =>
    not_precedes_of_mem_dropWhile holds.ordered member
  cases shape : nodes.dropWhile (stepsOver row.key) with
  | nil => rfl
  | cons succ tail =>
    rw [shape] at chainOf sublist behind
    have succMember := holds.row_mem (sublist.subset mem_cons_self)
    rw [columnNodes_cons] at chainOf ⊢
    by_cases inGroup : inColumn row.key.entityId row.key.columnId succ.row = true
    · rw [if_pos inGroup] at chainOf ⊢
      have same := inColumn_iff.mp inGroup
      have facts := follows succ.row succMember same.1 same.2
      rw [olderVersions, if_pos ⟨same.1, same.2, facts.1, facts.2.1⟩, LFNode.chain,
        chainOf succ _ rfl, map_cons]
    · have noneLeft : columnNodes row.key.entityId row.key.columnId tail = [] := by
        refine filter_eq_nil_iff.mpr ?_
        intro node nodeMember nodeInGroup
        have same := inColumn_iff.mp nodeInGroup
        have nodeRow := holds.row_mem (sublist.subset (mem_cons_of_mem succ nodeMember))
        have facts := follows node.row nodeRow same.1 same.2
        have succBehind := behind succ mem_cons_self
        have nodeBehind : ¬ precedes node.row.key succ.row.key :=
          (pairwise_cons.mp (holds.ordered.sublist sublist)).1 node nodeMember
        rw [precedes_iff] at succBehind nodeBehind
        rw [same.1, same.2, facts.1] at nodeBehind
        rw [inColumn_iff, ← UInt64.toNat_inj, ← UInt16.toNat_inj] at inGroup
        omega
      rw [if_neg inGroup, noneLeft, olderVersions, if_neg]
      · rfl
      · intro same
        exact inGroup (inColumn_iff.mpr ⟨same.1, same.2.1⟩)

private theorem columnNodes_insert (id : UInt64) (col : UInt16) :
    columnNodes id col (insert row nodes) =
      if inColumn id col row then
        ⟨row, olderVersions row.key (nodes.dropWhile (stepsOver row.key))⟩ ::
          columnNodes id col nodes
      else columnNodes id col nodes := by
  rw [insert, columnNodes_append, columnNodes_cons]
  dsimp only
  by_cases inGroup : inColumn id col row = true
  · rcases inColumn_iff.mp inGroup with ⟨rfl, rfl⟩
    rw [if_pos inGroup, if_pos inGroup, columnNodes_preds holds follows,
      columnNodes_succs holds follows, nil_append]
  · rw [if_neg inGroup, if_neg inGroup, ← columnNodes_append, takeWhile_append_dropWhile]

theorem holds_insert : Holds (insert row nodes) (rows ++ [row]) := by
  constructor
  · refine (insert_perm row nodes).trans ?_
    exact (List.Perm.cons row holds.perm).trans (perm_append_singleton row rows).symm
  · exact ordered_insert holds.ordered row
  · intro id col
    rw [columnNodes_insert holds follows, filter_append, reverse_append]
    by_cases inGroup : inColumn id col row = true
    · rw [if_pos inGroup, map_cons, holds.column, filter_cons_of_pos inGroup]
      rfl
    · rw [if_neg inGroup, holds.column, filter_cons_of_neg inGroup]
      rfl
  · intro id col head rest shape
    rw [columnNodes_insert holds follows] at shape
    by_cases inGroup : inColumn id col row = true
    · rw [if_pos inGroup] at shape
      rcases inColumn_iff.mp inGroup with ⟨rfl, rfl⟩
      cases shape
      exact olderVersions_succs holds follows
    · rw [if_neg inGroup] at shape
      exact holds.chain id col head rest shape

end

end

end Insertion

theorem ordered_foldl_put (ordered : Ordered mem.nodes) (rows : List Row) :
    Ordered (rows.foldl put mem).nodes := by
  induction rows generalizing mem with
  | nil => exact ordered
  | cons row rest ih => exact ih (ordered_insert ordered row)

theorem foldl_put_perm (rows : List Row) (mem : VSLMemTable) :
    ((rows.foldl put mem).nodes.map LFNode.row).Perm (mem.nodes.map LFNode.row ++ rows) := by
  induction rows generalizing mem with
  | nil => simp
  | cons row rest ih =>
    refine (ih (mem.put row)).trans ?_
    refine ((insert_perm row mem.nodes).append_right rest).trans ?_
    exact perm_middle.symm

theorem entity_le_of_not_precedes {first second : CedarKey} (behind : ¬ precedes second first) :
    first.entityId ≤ second.entityId := by
  rw [precedes_iff] at behind
  rw [UInt64.le_iff_toNat_le]
  omega

theorem takeWhile_dropWhile_entity (ordered : Ordered nodes) (id : UInt64) :
    (nodes.dropWhile fun node => decide (node.row.key.entityId < id)).takeWhile
        (fun node => decide (node.row.key.entityId = id)) =
      nodes.filter fun node => decide (node.row.key.entityId = id) :=
  takeWhile_dropWhile_eq_filter (fun node : LFNode => node.row.key.entityId)
    (ordered.imp entity_le_of_not_precedes) id

theorem findLatestVersion_eq (ordered : Ordered nodes)
    (vertices : ∀ node ∈ nodes, node.row.key.entityType = vertex.toByte)
    (id : UInt64) (col : UInt16) :
    findLatestVersion ⟨nodes⟩ id .vertex col = (columnNodes id col nodes).head? := by
  rw [findLatestVersion, takeWhile_dropWhile_entity ordered, ← head?_filter,
    filter_filter, columnNodes]
  congr 1
  apply filter_congr
  intro node member
  simp [inColumn, vertices node member, and_comm]

/-- Down a chain of decreasing timestamps the first version at or before the
query time is the newest one of the history. -/
theorem find_reverse_eq_newestAt
    (increasing : rows.Pairwise fun prev later =>
      prev.key.timestamp.toNat < later.key.timestamp.toNat)
    (ts : UInt64) :
    (rows.reverse.find? fun row => decide (row.key.timestamp ≤ ts)) =
      newestAt (fun row : Row => row.key.timestamp.toNat) ts.toNat rows := by
  induction rows using reverseRecOn with
  | nil => rfl
  | append_singleton front last ih =>
    rcases pairwise_append.mp increasing with ⟨frontIncreasing, _, across⟩
    rw [reverse_append, reverse_singleton, singleton_append, newestAt_concat]
    by_cases within : last.key.timestamp ≤ ts
    · rw [find?_cons_of_pos (by simpa using within)]
      rw [UInt64.le_iff_toNat_le] at within
      cases frontResult : newestAt (fun row : Row => row.key.timestamp.toNat)
          ts.toNat front with
      | none => rw [scanStep, if_pos within]
      | some best =>
        have below := across best (isNewest_of_newestAt frontResult).mem last mem_cons_self
        rw [scanStep, if_pos ⟨within, by omega⟩]
    · rw [find?_cons_of_neg (by simpa using within), ih frontIncreasing]
      rw [UInt64.le_iff_toNat_le] at within
      cases newestAt (fun row : Row => row.key.timestamp.toNat) ts.toNat front with
      | none => rw [scanStep, if_neg within]
      | some best => rw [scanStep, if_neg (by omega)]

theorem increasing_of_follows (inOrder : rows.Pairwise fun prev later => Follows later prev)
    (id : UInt64) (col : UInt16) :
    (rows.filter (inColumn id col)).Pairwise fun prev later =>
      prev.key.timestamp.toNat < later.key.timestamp.toNat := by
  rw [pairwise_filter]
  refine inOrder.imp ?_
  intro prev later follows earlierIn laterIn
  have earlierSame := inColumn_iff.mp earlierIn
  have laterSame := inColumn_iff.mp laterIn
  exact (follows (earlierSame.1.trans laterSame.1.symm) (earlierSame.2.trans laterSame.2.symm)).2.2

/-- After in-order insertions of vertex rows `GetAtTime` returns the newest
version at the query time. -/
theorem getAtTime_of_holds
    (holds : Holds nodes rows) (inOrder : rows.Pairwise fun prev later => Follows later prev)
    (vertices : ∀ row ∈ rows, row.key.entityType = vertex.toByte)
    (id : UInt64) (col : UInt16) (ts : UInt64) :
    getAtTime ⟨nodes⟩ id .vertex col ts =
      (newestAt (fun row : Row => row.key.timestamp.toNat) ts.toNat
        (rows.filter (inColumn id col))).map Row.descriptor := by
  rw [getAtTime, findLatestVersion_eq holds.ordered
    (fun node member => vertices node.row (holds.row_mem member))]
  have column := holds.column id col
  rw [← find_reverse_eq_newestAt (increasing_of_follows inOrder id col), ← column]
  cases shape : columnNodes id col nodes with
  | nil => rfl
  | cons head rest =>
    have older := holds.chain id col head rest shape
    simp only [head?_cons, LFNode.chain, map_cons, older]

/-- A key with a version that has a target other than `UINT64_MAX` has a nonempty
version chain. -/
theorem getVersionChain_ne_nil
    (ordered : Ordered mem.nodes) (member : node ∈ mem.nodes) {kind : EntityType}
    (sameType : node.row.key.entityType = kind.toByte)
    (target : node.row.key.targetId ≠ uint64Max) :
    mem.getVersionChain node.row.key.entityId kind node.row.key.columnId ≠ [] := by
  have whole : ∀ other : LFNode,
      (other.chain.dropWhile fun row => decide (uint64Max < row.key.timestamp)).takeWhile
        (fun row => decide (0 ≤ row.key.timestamp)) ≠ [] := by
    intro other
    have notAfter : ¬ uint64Max < other.row.key.timestamp := by
      have bound := other.row.key.timestamp.toNat_lt
      have maxValue : uint64Max.toNat = 2 ^ 64 - 1 := by decide
      rw [UInt64.lt_iff_toNat_lt, maxValue]
      omega
    simp [LFNode.chain, notAfter]
  have loop : ∀ (nodes : List LFNode) (lastTarget : UInt64), node ∈ nodes →
      node.row.key.targetId ≠ lastTarget →
      scanTargets kind node.row.key.columnId 0 uint64Max lastTarget nodes ≠ [] := by
    intro nodes
    induction nodes with
    | nil =>
      intro lastTarget inNodes
      cases inNodes
    | cons head tail ih =>
      intro lastTarget inNodes ne
      rw [scanTargets]
      split
      · intro nothing
        exact whole head (append_eq_nil_iff.mp nothing).1
      · rename_i skipped
        rcases mem_cons.mp inNodes with rfl | inTail
        · exact absurd ⟨rfl, sameType, ne⟩ skipped
        · exact ih lastTarget inTail ne
  rw [getVersionChain, scanRange, takeWhile_dropWhile_entity ordered]
  refine loop _ uint64Max (mem_filter.mpr ⟨member, ?_⟩) target
  exact decide_eq_true rfl

theorem getKey_of_vertex (isVertex : node.row.key.entityType = vertex.toByte) :
    node.getKey = node.row.key := by
  rcases node with ⟨⟨⟨_, _, _, _, _, kind, _, _⟩, _, _⟩, _⟩
  simp only at isVertex
  subst isVertex
  rfl

theorem traverse_perm (holds : Holds mem.nodes rows)
    (vertices : ∀ row ∈ rows, row.key.entityType = vertex.toByte) : mem.traverse.Perm rows := by
  have sameRows : mem.traverse = mem.nodes.map LFNode.row := by
    rw [traverse]
    apply map_congr_left
    intro node member
    rw [getKey_of_vertex (vertices node.row (holds.row_mem member))]
  rw [sameRows]
  exact holds.perm

end VSLMemTable

end CedarGraph
