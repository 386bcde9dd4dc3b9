import CedarGraph.Lib.Runs
import CedarGraph.SkipList

/-!
# Version chains

The nodes of a group have the same entity, type, column and target. `Insert` links a new node to
the one behind it when that is of the same group, and changes no older link. So the chain from
the first node is whole exactly if every insertion came right before the node that was first
until then.

`ScanRange` starts with `UINT64_MAX` as the last target seen; versions with this target are left
out when they are the first of their entity, type and column. At the end the list is compared to
the memtable.
-/

namespace CedarGraph

open LinkedLists List VSLMemTable

structure VersionGroup where
  entityId : UInt64
  entityType : UInt8
  columnId : UInt16
  targetId : UInt64
  deriving DecidableEq, Repr

def VersionGroup.ofKey (key : CedarKey) : VersionGroup :=
  ⟨key.entityId, key.entityType, key.columnId, key.targetId⟩

namespace LockedVSL

variable (list : LockedVSL)

def groupOf (id : Nat) : VersionGroup :=
  .ofKey (list.row id).key

def timestampOf (id : Nat) : UInt64 :=
  (list.row id).key.timestamp

def groupNodes (group : VersionGroup) : List Nat :=
  (list.levelNodes 0).filter fun id => decide (list.groupOf id = group)

/-- The chain from the first node of a group is the whole group. -/
def ChainOf (group : VersionGroup) : Prop :=
  ∀ id, (list.groupNodes group).head? = some id → list.versions id = list.groupNodes group

def Chained : Prop :=
  ∀ group, list.ChainOf group

/-- An insertion stops at the first node of its group, if the group has a node. -/
def Extends (row : Row) : Prop :=
  ∀ id, (list.groupNodes (.ofKey row.key)).head? = some id → (list.position row.key 0).2 = .node id

section Represented

variable {list : LockedVSL} {order : List Nat}

theorem versionsFrom_eq (decreasing : ∀ id ver, list.older id = some ver → ver < id) {id fuel : Nat}
    (enough : id < fuel) : list.versionsFrom fuel id = list.versionsFrom (id + 1) id := by
  induction id using Nat.strong_induction_on generalizing fuel with
  | _ id ih =>
    cases fuel with
    | zero => exact absurd enough (Nat.not_lt_zero id)
    | succ fuel =>
      rw [versionsFrom, versionsFrom]
      cases isOlder : list.older id with
      | none => rfl
      | some ver =>
        have below := decreasing id ver isOlder
        have first : list.versionsFrom fuel ver = list.versionsFrom (ver + 1) ver :=
          ih ver below (by omega)
        have second := ih ver below below
        simp only [first, second]

variable {id : Nat} (row : Row)

section

variable (repr : list.Represents order)
include repr

theorem Represents.versions_eq (below : id < list.size) :
    list.versions id = id :: match list.older id with
      | none => []
      | some ver => list.versions ver := by
  rw [versions, versionsFrom_eq repr.older below, versionsFrom]
  cases isOlder : list.older id with
  | none => rfl
  | some ver =>
    have prev := repr.older id ver isOlder
    simp only [versions]
    rw [versionsFrom_eq repr.older prev, versionsFrom_eq repr.older (Nat.lt_trans prev below)]

theorem Represents.le_of_mem_versions {id ver : Nat} (below : id < list.size)
    (member : ver ∈ list.versions id) : ver ≤ id := by
  induction id using Nat.strong_induction_on with
  | _ id ih =>
    rw [repr.versions_eq below] at member
    rcases mem_cons.mp member with isFirst | inRest
    · exact Nat.le_of_eq isFirst
    cases isOlder : list.older id with
    | none =>
      rw [isOlder] at inRest
      exact absurd inRest not_mem_nil
    | some prev =>
      rw [isOlder] at inRest
      have less := repr.older id prev isOlder
      have bound := ih prev less (Nat.lt_trans less below) inRest
      omega

theorem Represents.versions_insert (below : id < list.size) :
    (list.insert row).versions id = list.versions id := by
  induction id using Nat.strong_induction_on with
  | _ id ih =>
    rw [repr.versions_eq below, (repr.insert row).versions_eq (Nat.lt_succ_of_lt below),
      insert_older_of_ne list row (Nat.ne_of_lt below)]
    cases isOlder : list.older id with
    | none => rfl
    | some ver =>
      have less := repr.older id ver isOlder
      simp only [ih ver less (Nat.lt_trans less below)]

end

/-- The nodes of the group of a key that an insertion steps over, and those it does not. -/
def groupPreds (list : LockedVSL) (key : CedarKey) (order : List Nat) : List Nat :=
  (list.preds key order).filter fun id => decide (list.groupOf id = .ofKey key)

def groupSuccs (list : LockedVSL) (key : CedarKey) (order : List Nat) : List Nat :=
  (list.succs key order).filter fun id => decide (list.groupOf id = .ofKey key)

theorem Represents.groupNodes_eq (repr : list.Represents order) (key : CedarKey) :
    list.groupNodes (.ofKey key) = list.groupPreds key order ++ list.groupSuccs key order := by
  rw [groupNodes, repr.levelNodes_zero, groupPreds, groupSuccs, ← filter_append, preds_append_succs]

theorem groupOf_insert_size (list : LockedVSL) (row : Row) :
    (list.insert row).groupOf list.size = .ofKey row.key := by
  rw [groupOf, insert_row_size]

section

variable (repr : list.Represents order)
include repr

theorem Represents.filter_insert (group : VersionGroup) {ids : List Nat}
    (members : ∀ id ∈ ids, id ∈ order) :
    (ids.filter fun id => decide ((list.insert row).groupOf id = group)) =
      ids.filter fun id => decide (list.groupOf id = group) := by
  apply filter_congr
  intro id member
  rw [groupOf, groupOf, insert_row_of_lt list row (repr.lt_size (members id member))]

theorem Represents.groupNodes_insert_own :
    (list.insert row).groupNodes (.ofKey row.key) =
      list.groupPreds row.key order ++ list.size :: list.groupSuccs row.key order := by
  rw [groupNodes, (repr.insert row).levelNodes_zero, insertOrder, filter_append,
    filter_cons, groupOf_insert_size, repr.filter_insert row _ fun _ => mem_of_mem_preds,
    repr.filter_insert row _ fun _ => mem_of_mem_succs]
  simp only [decide_true, if_true]
  rfl

theorem Represents.groupNodes_insert_other {group : VersionGroup}
    (other : VersionGroup.ofKey row.key ≠ group) :
    (list.insert row).groupNodes group = list.groupNodes group := by
  rw [groupNodes, groupNodes, (repr.insert row).levelNodes_zero, repr.levelNodes_zero,
    insertOrder, filter_append, filter_cons, groupOf_insert_size,
    repr.filter_insert row _ fun _ => mem_of_mem_preds,
    repr.filter_insert row _ fun _ => mem_of_mem_succs]
  simp only [other, decide_false, Bool.false_eq_true, if_false]
  rw [← filter_append, preds_append_succs]

theorem lt_size_of_mem_groupNodes
    {group : VersionGroup} (member : id ∈ list.groupNodes group) : id < list.size := by
  rw [groupNodes, repr.levelNodes_zero] at member
  exact repr.lt_size (mem_of_mem_filter member)

end

theorem groupOf_eq_iff (list : LockedVSL) (id : Nat) (key : CedarKey) :
    list.groupOf id = .ofKey key ↔
      (list.row id).key.entityId = key.entityId ∧ (list.row id).key.columnId = key.columnId ∧
        (list.row id).key.targetId = key.targetId ∧
        (list.row id).key.entityType = key.entityType := by
  rw [groupOf, VersionGroup.ofKey, VersionGroup.ofKey, VersionGroup.mk.injEq]
  tauto

section

variable (repr : list.Represents order)
include repr

/-- The new node is linked to the node behind it when that one is of its group. -/
theorem Represents.olderVersion_eq (key : CedarKey) :
    list.olderVersion key =
      match list.succs key order with
      | [] => none
      | id :: _ => if list.groupOf id = .ofKey key then some id else none := by
  rw [olderVersion, repr.position_zero key]
  cases list.succs key order with
  | nil => rfl
  | cons id rest => simp only [map_cons, headD_cons, groupOf_eq_iff]

theorem Represents.position_eq_node_iff (key : CedarKey) (id : Nat) :
    (list.position key 0).2 = .node id ↔ (list.succs key order).head? = some id := by
  rw [repr.position_zero key]
  cases list.succs key order with
  | nil => simp
  | cons first rest => simp

theorem Represents.versions_size :
    (list.insert row).versions list.size = list.size ::
      match list.olderVersion row.key with
      | none => []
      | some ver => list.versions ver := by
  rw [(repr.insert row).versions_eq (Nat.lt_succ_self list.size), insert_older_size]
  cases isOlder : list.olderVersion row.key with
  | none => rfl
  | some ver => simp only [repr.versions_insert row (repr.olderVersion_lt isOlder)]

theorem Represents.own_chain_first :
    (list.insert row).versions list.size = list.size :: list.groupSuccs row.key order ↔
      (∀ id, (list.groupSuccs row.key order).head? = some id →
        list.versions id = list.groupSuccs row.key order ∧
          (list.succs row.key order).head? = some id) := by
  rw [repr.versions_size row, repr.olderVersion_eq row.key, cons.injEq]
  simp only [true_and, groupSuccs]
  cases list.succs row.key order with
  | nil => simp
  | cons id rest =>
    by_cases same : list.groupOf id = .ofKey row.key
    · simp [same]
    · simp only [same, if_false, filter_cons, decide_false, Bool.false_eq_true,
        head?_cons, Option.some.injEq]
      constructor
      · intro nothing other isFirst
        rw [← nothing] at isFirst
        cases isFirst
      · intro linked
        cases shape : rest.filter fun id => decide (list.groupOf id = .ofKey row.key) with
        | nil => rfl
        | cons other later =>
          have inGroup : other ∈ rest.filter fun id =>
              decide (list.groupOf id = .ofKey row.key) := by
            rw [shape]
            exact mem_cons_self
          have isOther : id = other := (linked other (by rw [shape]; rfl)).2
          rw [isOther] at same
          exact absurd (of_decide_eq_true (mem_filter.mp inGroup).2) same

/-- The step lemma: an insertion keeps the chains exactly if it extends its own. -/
theorem Represents.chained_insert_iff :
    (list.insert row).Chained ↔ list.Chained ∧ list.Extends row := by
  have others : ∀ group, VersionGroup.ofKey row.key ≠ group →
      ((list.insert row).ChainOf group ↔ list.ChainOf group) := by
    intro group other
    rw [ChainOf, ChainOf, repr.groupNodes_insert_other row other]
    refine forall₂_congr fun id isFirst => ?_
    have below := lt_size_of_mem_groupNodes repr (mem_of_mem_head? isFirst)
    rw [repr.versions_insert row below]
  have own : (list.insert row).ChainOf (.ofKey row.key) ↔
      list.ChainOf (.ofKey row.key) ∧ list.Extends row := by
    rw [Extends, ChainOf, ChainOf, repr.groupNodes_insert_own row, repr.groupNodes_eq row.key]
    simp only [repr.position_eq_node_iff row.key]
    cases first : list.groupPreds row.key order with
    | nil =>
      simp only [nil_append, head?_cons, Option.some.injEq, forall_eq']
      rw [repr.own_chain_first row]
      exact forall₂_and
    | cons before rest =>
      have inPreds : before ∈ list.preds row.key order := by
        have inGroup : before ∈ list.groupPreds row.key order := by
          rw [first]
          exact mem_cons_self
        exact mem_of_mem_filter inGroup
      have below := repr.lt_size (mem_of_mem_preds inPreds)
      apply iff_of_false
      · intro chained
        have whole := chained before rfl
        rw [repr.versions_insert row below] at whole
        have late : list.size ∈ list.versions before := by
          rw [whole]
          simp
        have bound := repr.le_of_mem_versions below late
        omega
      · rintro ⟨_, extended⟩
        have isFirst := extended before rfl
        have notBefore := repr.not_isBefore_of_mem_succs (mem_of_mem_head? isFirst)
        rw [isBefore_of_mem_preds inPreds] at notBefore
        cases notBefore
  constructor
  · intro chained
    refine ⟨?_, (own.mp (chained (.ofKey row.key))).2⟩
    intro group
    by_cases same : VersionGroup.ofKey row.key = group
    · rw [← same]
      exact (own.mp (chained (.ofKey row.key))).1
    · exact (others group same).mp (chained group)
  · rintro ⟨chained, extended⟩ group
    by_cases same : VersionGroup.ofKey row.key = group
    · rw [← same]
      exact own.mpr ⟨chained (.ofKey row.key), extended⟩
    · exact (others group same).mpr (chained group)

end

end Represented

theorem Represents.chained_foldl_iff
    {list : LockedVSL} {order : List Nat} (repr : list.Represents order) (rows : List Row) :
    (rows.foldl LockedVSL.insert list).Chained ↔
      list.Chained ∧ Runs.Admissible LockedVSL.insert Extends list rows := by
  induction rows generalizing list order with
  | nil => simp [Runs.Admissible]
  | cons row rest ih =>
    rw [foldl_cons, ih (repr.insert row), repr.chained_insert_iff row, Runs.Admissible, and_assoc]

section Reads

variable {list : LockedVSL} {order : List Nat}

theorem mem_groupNodes_iff (repr : list.Represents order) {group : VersionGroup} {id : Nat} :
    id ∈ list.groupNodes group ↔ id < list.size ∧ list.groupOf id = group := by
  rw [groupNodes, repr.levelNodes_zero, mem_filter, repr.perm.mem_iff, mem_range, decide_eq_true_eq]

/-- The versions of a group go back in time, later insertions first at equal times. -/
def isNewer (list : LockedVSL) (newer older : Nat) : Prop :=
  list.timestampOf older < list.timestampOf newer ∨
    (list.timestampOf older = list.timestampOf newer ∧ older < newer)

theorem isNewer_of_isAhead {newer older : Nat} (ahead : list.isAhead newer older)
    (same : list.groupOf newer = list.groupOf older) : list.isNewer newer older := by
  simp only [groupOf, VersionGroup.ofKey, VersionGroup.mk.injEq] at same
  obtain ⟨entity, _, column, target⟩ := same
  rw [isAhead, precedes_iff, precedes_iff, entity, column, target] at ahead
  rw [isNewer, timestampOf, timestampOf, UInt64.lt_iff_toNat_lt, ← UInt64.toNat_inj]
  omega

theorem Represents.pairwise_groupNodes (repr : list.Represents order) (group : VersionGroup) :
    (list.groupNodes group).Pairwise list.isNewer := by
  have sorted : (list.groupNodes group).Pairwise list.isAhead := by
    rw [groupNodes, repr.levelNodes_zero]
    exact repr.sorted.filter _
  apply sorted.imp_of_mem
  intro newer older inNewer inOlder ahead
  apply isNewer_of_isAhead ahead
  rw [((mem_groupNodes_iff repr).mp inNewer).2, ((mem_groupNodes_iff repr).mp inOlder).2]

def isEarlier (list : LockedVSL) (eid : UInt64) (id : Nat) : Bool :=
  list.isOfEarlierEntity eid (.node id)

theorem entity_le_of_isAhead {first second : Nat} (ahead : list.isAhead first second) :
    (list.row first).key.entityId ≤ (list.row second).key.entityId :=
  VSLMemTable.entity_le_of_not_precedes (not_precedes_of_isAhead ahead)

section

variable (repr : list.Represents order)
include repr

/-- The search over the levels ends before the first node whose entity is not smaller. -/
theorem Represents.nodesFrom_seek (eid : UInt64) :
    list.nodesFrom 0 list.size (list.seek eid) = order.dropWhile (list.isEarlier eid) := by
  have downward : ∀ first second, list.isAhead first second →
      list.isOfEarlierEntity eid (.node second) = true →
      list.isOfEarlierEntity eid (.node first) = true := by
    intro first second ahead early
    have less : (list.row second).key.entityId < eid := of_decide_eq_true early
    exact decide_eq_true (UInt64.lt_of_le_of_lt (entity_le_of_isAhead ahead) less)
  have isSeek : list.seek eid =
      ((order.takeWhile (list.isEarlier eid)).map NodeRef.node).getLastD .head := by
    rw [seek, repr.descend_eq rfl downward repr.top.1,
      repr.onLevel_zero fun _ mem => (takeWhile_sublist _).subset mem]
    rfl
  have linked := repr.levels_nextOf 0 (by decide)
  rw [repr.onLevel_zero fun _ mem => mem,
    ← @takeWhile_append_dropWhile _ (list.isEarlier eid) order, map_append] at linked
  rw [isSeek]
  apply nodesFrom_eq linked.from_getLastD
  rw [← repr.length_eq]
  exact (dropWhile_sublist _).length_le

theorem Represents.entityNodes_eq (eid : UInt64) :
    list.entityNodes eid = order.filter fun id => decide ((list.row id).key.entityId = eid) := by
  rw [entityNodes, repr.nodesFrom_seek eid]
  exact takeWhile_dropWhile_eq_filter (fun id => (list.row id).key.entityId)
    (repr.sorted.imp entity_le_of_isAhead) eid

theorem Represents.findLatestVersionOf_eq
    (eid : UInt64) (entityType : EntityType) (col : UInt16) (targetId : UInt64) :
    list.findLatestVersionOf eid entityType col targetId =
      (list.groupNodes ⟨eid, entityType.toByte, col, targetId⟩).head? := by
  rw [findLatestVersionOf, repr.entityNodes_eq, ← head?_filter, filter_filter,
    groupNodes, repr.levelNodes_zero]
  congr 1
  apply filter_congr
  intro id _
  simp only [← Bool.decide_and, decide_eq_decide, groupOf, VersionGroup.ofKey,
    VersionGroup.mk.injEq]
  tauto

end

structure IsNewestVersion (list : LockedVSL) (group : VersionGroup) (ts : UInt64)
    (id : Nat) : Prop where
  member : id ∈ list.groupNodes group
  within : list.timestampOf id ≤ ts
  newest : ∀ other ∈ list.groupNodes group, list.timestampOf other ≤ ts →
    other = id ∨ list.isNewer id other

theorem IsNewestVersion.unique {group : VersionGroup} {ts : UInt64} {first second : Nat}
    (isFirst : list.IsNewestVersion group ts first)
    (isSecond : list.IsNewestVersion group ts second) : first = second := by
  rcases isFirst.newest second isSecond.member isSecond.within with same | newer
  · exact same.symm
  · rcases isSecond.newest first isFirst.member isFirst.within with same | older
    · exact same
    · simp only [isNewer, UInt64.lt_iff_toNat_lt, ← UInt64.toNat_inj] at newer older
      omega

theorem Represents.find_groupNodes_iff
    (repr : list.Represents order) (group : VersionGroup) (ts : UInt64) (id : Nat) :
    ((list.groupNodes group).find? fun ver =>
        decide ((list.row ver).key.timestamp ≤ ts)) = some id ↔
      list.IsNewestVersion group ts id := by
  have newest : ∀ found, ((list.groupNodes group).find? fun ver =>
      decide ((list.row ver).key.timestamp ≤ ts)) = some found →
      list.IsNewestVersion group ts found := by
    intro found isFound
    obtain ⟨within, before, behind, isList, later⟩ := find?_eq_some_iff_append.mp isFound
    have sorted := repr.pairwise_groupNodes group
    refine ⟨mem_of_find?_eq_some isFound, of_decide_eq_true within, ?_⟩
    intro other member otherWithin
    rw [isList] at member sorted
    rcases mem_append.mp member with inFront | inBack
    · have notWithin := later other inFront
      simp only [Bool.not_eq_true', decide_eq_false_iff_not] at notWithin
      exact absurd otherWithin notWithin
    · rcases mem_cons.mp inBack with isId | inBehind
      · exact Or.inl isId
      · exact Or.inr ((pairwise_cons.mp (pairwise_append.mp sorted).2.1).1 other inBehind)
  constructor
  · exact newest id
  · intro isNewest
    cases found : (list.groupNodes group).find? fun ver =>
        decide ((list.row ver).key.timestamp ≤ ts) with
    | none =>
      have notWithin := find?_eq_none.mp found id isNewest.member
      exact absurd (decide_eq_true isNewest.within) notWithin
    | some other => rw [(newest other found).unique isNewest]

theorem Represents.getAtTimeOf_eq_some_iff
    (repr : list.Represents order) (chained : list.Chained) (eid : UInt64)
    (entityType : EntityType) (col : UInt16) (targetId ts : UInt64) (desc : Descriptor) :
    list.getAtTimeOf eid entityType col targetId ts = some desc ↔
      ∃ id, list.IsNewestVersion ⟨eid, entityType.toByte, col, targetId⟩ ts id ∧
        (list.row id).descriptor = desc := by
  have versionAt : (list.findLatestVersionOf eid entityType col targetId).bind (list.versionAt ts) =
      (list.groupNodes ⟨eid, entityType.toByte, col, targetId⟩).find? fun ver =>
        decide ((list.row ver).key.timestamp ≤ ts) := by
    rw [repr.findLatestVersionOf_eq]
    cases shape : list.groupNodes ⟨eid, entityType.toByte, col, targetId⟩ with
    | nil => rfl
    | cons first rest =>
      have whole := chained _ first (by rw [shape]; rfl)
      rw [head?_cons, Option.bind_some, versionAt, whole, shape]
  rw [getAtTimeOf, versionAt, Option.map_eq_some_iff]
  simp only [repr.find_groupNodes_iff]

def isScanned (list : LockedVSL) (entityType : EntityType) (col : UInt16) (id : Nat) : Prop :=
  (list.row id).key.columnId = col ∧ (list.row id).key.entityType = entityType.toByte

def versionsWithin (list : LockedVSL) (start stop : UInt64) (id : Nat) : List Nat :=
  ((list.versions id).dropWhile fun ver =>
    decide (stop < (list.row ver).key.timestamp)).takeWhile fun ver =>
      decide (start ≤ (list.row ver).key.timestamp)

variable {col : UInt16} {entityType : EntityType}

/-- The chain of the first node of a target is taken when the scan has seen another target. -/
theorem mem_scanTargets
    {start stop : UInt64} {first ver : Nat} (isFirst : list.isScanned entityType col first)
    (within : ver ∈ list.versionsWithin start stop first) {front : List Nat}
    (others : ∀ id ∈ front, list.isScanned entityType col id →
      (list.row id).key.targetId ≠ (list.row first).key.targetId) {lastTarget : UInt64}
    (seen : lastTarget ≠ (list.row first).key.targetId ∨
      ∃ id ∈ front, list.isScanned entityType col id) (back : List Nat) :
    ver ∈ list.scanTargets entityType col start stop lastTarget (front ++ first :: back) := by
  induction front generalizing lastTarget with
  | nil =>
    have ne : (list.row first).key.targetId ≠ lastTarget := by
      rcases seen with differs | ⟨_, member, _⟩
      · exact differs.symm
      · exact absurd member not_mem_nil
    rw [nil_append, scanTargets, if_pos ⟨isFirst.1, isFirst.2, ne⟩]
    exact mem_append_left _ within
  | cons id rest ih =>
    rw [forall_mem_cons] at others
    rw [cons_append, scanTargets]
    split
    · rename_i taken
      apply mem_append_right
      apply ih others.2
      exact Or.inl (others.1 ⟨taken.1, taken.2.1⟩)
    · rename_i skipped
      apply ih others.2
      rcases seen with differs | ⟨other, member, isOther⟩
      · exact Or.inl differs
      rcases mem_cons.mp member with isId | inRest
      · -- the node is skipped because its target is the last one
        rw [isId] at isOther
        refine Or.inl ?_
        have isLast : (list.row id).key.targetId = lastTarget := by
          by_contra differs
          exact skipped ⟨isOther.1, isOther.2, differs⟩
        rw [← isLast]
        exact others.1 isOther
      · exact Or.inr ⟨other, inRest, isOther⟩

theorem scanTargets_eq_nil {lastTarget : UInt64} {nodes : List Nat}
    (same : ∀ id ∈ nodes, list.isScanned entityType col id →
      (list.row id).key.targetId = lastTarget) (start stop : UInt64) :
    list.scanTargets entityType col start stop lastTarget nodes = [] := by
  induction nodes with
  | nil => rfl
  | cons id rest ih =>
    rw [forall_mem_cons] at same
    rw [scanTargets, if_neg]
    · exact ih same.2
    · rintro ⟨column, isType, ne⟩
      exact ne (same.1 ⟨column, isType⟩)

theorem mem_versionsWithin {start stop : UInt64} {id ver : Nat}
    (sorted : (list.versions id).Pairwise list.isNewer) (member : ver ∈ list.versions id)
    (fromStart : start ≤ list.timestampOf ver) (toStop : list.timestampOf ver ≤ stop) :
    ver ∈ list.versionsWithin start stop id := by
  have dropped : ver ∈ (list.versions id).dropWhile fun ver =>
      decide (stop < (list.row ver).key.timestamp) := by
    rw [← takeWhile_append_dropWhile (l := list.versions id)
      (p := fun ver => decide (stop < (list.row ver).key.timestamp))] at member
    rcases mem_append.mp member with after | inRest
    · have late : stop < list.timestampOf ver := of_decide_eq_true (mem_takeWhile_imp
        (p := fun ver => decide (stop < (list.row ver).key.timestamp)) after)
      exact absurd late (UInt64.not_lt.mpr toStop)
    · exact inRest
  rw [versionsWithin, takeWhile_eq_filter (sorted.sublist (dropWhile_sublist _)), mem_filter]
  · exact ⟨dropped, decide_eq_true fromStart⟩
  · intro newer older isNewer startsOlder
    have bound : start ≤ list.timestampOf older := of_decide_eq_true startsOlder
    apply decide_eq_true
    rcases isNewer with later | ⟨equal, _⟩
    · exact UInt64.le_trans bound (UInt64.le_of_lt later)
    · rw [equal] at bound
      exact bound

/-- Every version of an entity is in the scans over its time. -/
def Scans (list : LockedVSL) : Prop :=
  ∀ id, id < list.size → ∀ entityType : EntityType,
    (list.row id).key.entityType = entityType.toByte → ∀ start stop,
    start ≤ list.timestampOf id → list.timestampOf id ≤ stop →
    id ∈ list.scanRange (list.row id).key.entityId entityType (list.row id).key.columnId start stop

/-- A version with the target `UINT64_MAX` is not alone in its column. -/
def HasOtherTarget (rows : List Row) : Prop :=
  ∀ row ∈ rows, ∀ entityType : EntityType, row.key.entityType = entityType.toByte →
    row.key.targetId = uint64Max → ∃ other ∈ rows,
      other.key.entityId = row.key.entityId ∧ other.key.columnId = row.key.columnId ∧
        other.key.entityType = entityType.toByte ∧ other.key.targetId ≠ uint64Max

theorem mem_entries_iff (row : Row) :
    row ∈ list.entries ↔ ∃ id, id < list.size ∧ list.row id = row := by
  simp only [entries, mem_map, mem_range]

section

variable (repr : list.Represents order)
include repr

theorem Represents.hasOtherTarget_of_scans (scans : list.Scans) : HasOtherTarget list.entries := by
  intro row inEntries entityType isType isMax
  obtain ⟨id, below, isRow⟩ := (mem_entries_iff row).mp inEntries
  rw [← isRow] at isType isMax ⊢
  by_contra alone
  have found := scans id below entityType isType 0 uint64Max UInt64.zero_le (le_uint64Max _)
  rw [scanRange, scanTargets_eq_nil] at found
  · exact not_mem_nil found
  · intro other member isOther
    rw [repr.entityNodes_eq] at member
    obtain ⟨inOrder, sameEntity⟩ := mem_filter.mp member
    by_contra ne
    exact alone ⟨list.row other, (mem_entries_iff _).mpr ⟨other, repr.lt_size inOrder, rfl⟩,
      of_decide_eq_true sameEntity, isOther.1, isOther.2, ne⟩

theorem Represents.mem_front_of_max {eid : UInt64} {first : Nat} {front back : List Nat}
    (isList : list.entityNodes eid = front ++ first :: back)
    (isFirst : list.isScanned entityType col first)
    (isMax : (list.row first).key.targetId = uint64Max)
    (hasOther : ∃ row ∈ list.entries, row.key.entityId = eid ∧ row.key.columnId = col ∧
      row.key.entityType = entityType.toByte ∧ row.key.targetId ≠ uint64Max) :
    ∃ id ∈ front, list.isScanned entityType col id := by
  obtain ⟨row, inEntries, sameEntity, sameColumn, sameType, notMax⟩ := hasOther
  obtain ⟨other, below, isRow⟩ := (mem_entries_iff row).mp inEntries
  rw [← isRow] at sameEntity sameColumn sameType notMax
  have isOther : list.isScanned entityType col other := ⟨sameColumn, sameType⟩
  have member : other ∈ list.entityNodes eid := by
    rw [repr.entityNodes_eq, mem_filter, repr.perm.mem_iff, mem_range]
    exact ⟨below, decide_eq_true sameEntity⟩
  have firstMember : first ∈ list.entityNodes eid := by
    rw [isList]
    exact mem_append_right front mem_cons_self
  have sorted : (list.entityNodes eid).Pairwise list.isAhead := by
    rw [repr.entityNodes_eq]
    exact repr.sorted.filter _
  rw [repr.entityNodes_eq, mem_filter] at firstMember
  have firstEntity : (list.row first).key.entityId = eid := of_decide_eq_true firstMember.2
  rw [isList] at member sorted
  rcases mem_append.mp member with inFront | inRest
  · exact ⟨other, inFront, isOther⟩
  exfalso
  rcases mem_cons.mp inRest with isSame | inBack
  · rw [isSame] at notMax
    exact notMax isMax
  · have ahead := (pairwise_cons.mp (pairwise_append.mp sorted).2.1).1 other inBack
    apply not_precedes_of_isAhead ahead
    have bound := (list.row other).key.targetId.toNat_lt
    have isBound : uint64Max.toNat = 2 ^ 64 - 1 := rfl
    rw [← UInt64.toNat_inj.ne, isBound] at notMax
    rw [precedes_iff, sameEntity, firstEntity, isOther.1, isFirst.1, isMax, isBound]
    omega

theorem Represents.scans_of_chained (chained : list.Chained)
    (hasOther : HasOtherTarget list.entries) : list.Scans := by
  intro id below entityType isType start stop fromStart toStop
  have inGroup : id ∈ list.groupNodes (list.groupOf id) :=
    (mem_groupNodes_iff repr).mpr ⟨below, rfl⟩
  cases shape : list.groupNodes (list.groupOf id) with
  | nil =>
    rw [shape] at inGroup
    exact absurd inGroup not_mem_nil
  | cons first rest =>
    have whole := chained _ first (by rw [shape]; rfl)
    have sorted := repr.pairwise_groupNodes (list.groupOf id)
    rw [← whole] at sorted inGroup
    have within := mem_versionsWithin sorted inGroup fromStart toStop
    have isGroup : list.groupOf id = ⟨(list.row id).key.entityId, entityType.toByte,
        (list.row id).key.columnId, (list.row id).key.targetId⟩ := by
      rw [groupOf, VersionGroup.ofKey, isType]
    have found := repr.findLatestVersionOf_eq (list.row id).key.entityId entityType
      (list.row id).key.columnId (list.row id).key.targetId
    rw [← isGroup, shape, head?_cons, findLatestVersionOf] at found
    obtain ⟨matching, front, back, isList, before⟩ := find?_eq_some_iff_append.mp found
    obtain ⟨column, target, kind⟩ := of_decide_eq_true matching
    have others : ∀ other ∈ front, list.isScanned entityType (list.row id).key.columnId other →
        (list.row other).key.targetId ≠ (list.row first).key.targetId := by
      intro other member isOther same
      have notMatching := before other member
      rw [target] at same
      simp [isOther.1, isOther.2, same] at notMatching
    rw [scanRange, isList]
    apply mem_scanTargets ⟨column, kind⟩ within others
    rw [target]
    by_cases isMax : (list.row id).key.targetId = uint64Max
    · exact Or.inr (repr.mem_front_of_max isList ⟨column, kind⟩ (target.trans isMax)
        (hasOther (list.row id) ((mem_entries_iff _).mpr ⟨id, below, rfl⟩) entityType isType isMax))
    · exact Or.inl (Ne.symm isMax)

end

end Reads

section Memtable

variable {list : LockedVSL} {order : List Nat}

def toNode (list : LockedVSL) (id : Nat) : LFNode :=
  ⟨list.row id, (list.versions id).tail.map list.row⟩

/-- Level 0 with the chains. -/
def toMemtable (list : LockedVSL) : VSLMemTable :=
  ⟨(list.levelNodes 0).map list.toNode⟩

variable {id : Nat}

section

variable (repr : list.Represents order)
include repr

theorem Represents.chain_toNode (below : id < list.size) :
    (list.toNode id).chain = (list.versions id).map list.row := by
  rw [LFNode.chain, toNode, repr.versions_eq below]
  rfl

theorem Represents.map_row_insert (row : Row) (below : id < list.size) :
    (list.versions id).map (list.insert row).row = (list.versions id).map list.row := by
  apply map_congr_left
  intro ver member
  have bound := repr.le_of_mem_versions below member
  exact insert_row_of_lt list row (Nat.lt_of_le_of_lt bound below)

theorem Represents.toNode_insert (row : Row) (below : id < list.size) :
    (list.insert row).toNode id = list.toNode id := by
  rw [toNode, toNode, insert_row_of_lt list row below, repr.versions_insert row below, map_tail,
    repr.map_row_insert row below, map_tail]

theorem Represents.toNode_size (row : Row) :
    (list.insert row).toNode list.size =
      ⟨row, VSLMemTable.olderVersions row.key ((list.succs row.key order).map list.toNode)⟩ := by
  rw [toNode, insert_row_size, repr.versions_size row, repr.olderVersion_eq row.key]
  cases shape : list.succs row.key order with
  | nil => rfl
  | cons id rest =>
    have inSuccs : id ∈ list.succs row.key order := by
      rw [shape]
      exact mem_cons_self
    have below := repr.lt_size (mem_of_mem_succs inSuccs)
    have sameGroup : list.groupOf id = .ofKey row.key ↔
        (list.toNode id).row.key.entityId = row.key.entityId ∧
          (list.toNode id).row.key.columnId = row.key.columnId ∧
          (list.toNode id).row.key.targetId = row.key.targetId ∧
          (list.toNode id).row.key.entityType = row.key.entityType := by
      rw [groupOf_eq_iff]
      rfl
    rw [map_cons, olderVersions]
    by_cases same : list.groupOf id = .ofKey row.key
    · rw [if_pos (sameGroup.mp same), repr.chain_toNode below]
      simp only [same, if_true, tail_cons, repr.map_row_insert row below]
    · rw [if_neg fun equal => same (sameGroup.mpr equal)]
      simp only [same, if_false, tail_cons, map_nil]

theorem Represents.toMemtable_insert (row : Row) :
    (list.insert row).toMemtable = list.toMemtable.put row := by
  have sameNodes : ∀ ids : List Nat, (∀ id ∈ ids, id ∈ order) →
      ids.map (list.insert row).toNode = ids.map list.toNode := by
    intro ids members
    apply map_congr_left
    intro id member
    exact repr.toNode_insert row (repr.lt_size (members id member))
  rw [toMemtable, toMemtable, (repr.insert row).levelNodes_zero, repr.levelNodes_zero,
    VSLMemTable.put, VSLMemTable.insert, insertOrder, map_append, map_cons,
    sameNodes _ fun _ => mem_of_mem_preds, sameNodes _ fun _ => mem_of_mem_succs,
    repr.toNode_size row, takeWhile_map, dropWhile_map]
  rfl

theorem Represents.toMemtable_foldl (rows : List Row) :
    (rows.foldl LockedVSL.insert list).toMemtable = rows.foldl VSLMemTable.put list.toMemtable := by
  induction rows generalizing list order with
  | nil => rfl
  | cons row rest ih =>
    rw [foldl_cons, foldl_cons, ih (repr.insert row), repr.toMemtable_insert row]

theorem Represents.entityNodes_toMemtable
    (eid : UInt64) :
    ((list.toMemtable.nodes.dropWhile fun node =>
        decide (node.row.key.entityId < eid)).takeWhile fun node =>
        decide (node.row.key.entityId = eid)) =
      (list.entityNodes eid).map list.toNode := by
  rw [toMemtable, repr.levelNodes_zero, entityNodes, repr.nodesFrom_seek eid,
    dropWhile_map, takeWhile_map]
  rfl

theorem Represents.lt_size_of_mem_entityNodes
    {eid : UInt64} (member : id ∈ list.entityNodes eid) : id < list.size := by
  rw [repr.entityNodes_eq] at member
  exact repr.lt_size (mem_of_mem_filter member)

theorem Represents.getAtTime_toMemtable
    (eid : UInt64) (entityType : EntityType) (col : UInt16) (ts : UInt64) :
    list.toMemtable.getAtTime eid entityType col ts = list.getAtTime eid entityType col ts := by
  have latest : list.toMemtable.findLatestVersion eid entityType col =
      (list.findLatestVersion eid entityType col).map list.toNode := by
    rw [VSLMemTable.findLatestVersion, repr.entityNodes_toMemtable, find?_map]
    rfl
  rw [VSLMemTable.getAtTime, latest, getAtTime]
  cases found : list.findLatestVersion eid entityType col with
  | none => rfl
  | some id =>
    have below := repr.lt_size_of_mem_entityNodes (mem_of_find?_eq_some found)
    simp only [Option.map_some, Option.bind_some, repr.chain_toNode below, versionAt,
      find?_map, Option.map_map]
    rfl

theorem Represents.scanRange_toMemtable
    (eid : UInt64) (entityType : EntityType) (col : UInt16) (start stop : UInt64) :
    list.toMemtable.scanRange eid entityType col start stop =
      (list.scanRange eid entityType col start stop).map list.row := by
  have targets : ∀ (ids : List Nat), (∀ id ∈ ids, id < list.size) → ∀ lastTarget,
      VSLMemTable.scanTargets entityType col start stop lastTarget (ids.map list.toNode) =
        (list.scanTargets entityType col start stop lastTarget ids).map list.row := by
    intro ids
    induction ids with
    | nil => exact fun _ _ => rfl
    | cons id rest ih =>
      intro below lastTarget
      rw [forall_mem_cons] at below
      have restBelow := ih below.2
      have chain := repr.chain_toNode below.1
      have isRow : (list.toNode id).row = list.row id := rfl
      rw [map_cons, VSLMemTable.scanTargets, scanTargets, chain, isRow]
      by_cases taken : (list.row id).key.columnId = col ∧
          (list.row id).key.entityType = entityType.toByte ∧
          (list.row id).key.targetId ≠ lastTarget
      · rw [if_pos taken, if_pos taken, map_append, dropWhile_map, takeWhile_map, restBelow]
        rfl
      · rw [if_neg taken, if_neg taken, restBelow]
  rw [VSLMemTable.scanRange, repr.entityNodes_toMemtable, scanRange]
  exact targets _ (fun _ => repr.lt_size_of_mem_entityNodes) uint64Max

end

/-- After any insertions the levels and the version pointers hold what the memtable holds after
the same insertions, and the reads of the two agree. -/
theorem ofRows_refines_memtable (rows : List Row) :
    let mem := rows.foldl VSLMemTable.put .empty
    (ofRows rows).toMemtable = mem ∧
      (∀ eid entityType col ts,
        (ofRows rows).getAtTime eid entityType col ts = mem.getAtTime eid entityType col ts) ∧
      ∀ eid entityType col start stop,
        ((ofRows rows).scanRange eid entityType col start stop).map (ofRows rows).row =
          mem.scanRange eid entityType col start stop := by
  obtain ⟨order, repr⟩ := represents_ofRows rows
  have same : (ofRows rows).toMemtable = rows.foldl put .empty :=
    represents_empty.toMemtable_foldl rows
  dsimp only
  rw [← same]
  refine ⟨rfl, ?_, ?_⟩
  · intro eid entityType col ts
    exact (repr.getAtTime_toMemtable eid entityType col ts).symm
  · intro eid entityType col start stop
    exact (repr.scanRange_toMemtable eid entityType col start stop).symm

end Memtable

/-- The chain of every group is the whole group and goes back in time, a read with a target
returns the newest version at its time, and a scan returns every version in its range. -/
structure VersionsHold (list : LockedVSL) : Prop where
  chains : ∀ group id, (list.groupNodes group).head? = some id →
    list.versions id = list.groupNodes group ∧
      (list.versions id).Pairwise fun newer older =>
        list.timestampOf older ≤ list.timestampOf newer
  reads : ∀ eid (entityType : EntityType) col targetId ts desc,
    list.getAtTimeOf eid entityType col targetId ts = some desc ↔
      ∃ id, list.IsNewestVersion ⟨eid, entityType.toByte, col, targetId⟩ ts id ∧
        (list.row id).descriptor = desc
  scans : list.Scans

theorem Represents.versionsHold_iff
    {list : LockedVSL} {order : List Nat} (repr : list.Represents order) :
    list.VersionsHold ↔ list.Chained ∧ HasOtherTarget list.entries := by
  constructor
  · intro hold
    exact ⟨fun group id isFirst => (hold.chains group id isFirst).1,
      repr.hasOtherTarget_of_scans hold.scans⟩
  · rintro ⟨chained, hasOther⟩
    refine ⟨?_, repr.getAtTimeOf_eq_some_iff chained, repr.scans_of_chained chained hasOther⟩
    intro group id isFirst
    have whole := chained group id isFirst
    refine ⟨whole, ?_⟩
    rw [whole]
    apply (repr.pairwise_groupNodes group).imp
    intro newer older isNewer
    rcases isNewer with later | ⟨equal, _⟩
    · exact UInt64.le_of_lt later
    · exact UInt64.le_of_eq equal

/-- The versions are as they should be exactly if every insertion into a group that has nodes
stops at the first of them, and no version with the target `UINT64_MAX` is alone in its
column. -/
theorem versionsHold_ofRows_iff (rows : List Row) :
    (ofRows rows).VersionsHold ↔
      Runs.Admissible insert Extends empty rows ∧ HasOtherTarget rows := by
  obtain ⟨order, repr⟩ := represents_ofRows rows
  have emptyChained : empty.Chained := by
    intro group id isFirst
    cases isFirst
  have chained : (ofRows rows).Chained ↔
      empty.Chained ∧ Runs.Admissible insert Extends empty rows :=
    represents_empty.chained_foldl_iff rows
  rw [repr.versionsHold_iff, entries_ofRows, chained]
  simp only [emptyChained, true_and]

/-- An older version that comes later is not reached, and a read at its time misses it. -/
theorem late_version_not_reached :
    let rows : List Row :=
      [⟨.edgeOut 1 2 3 30 0 0 0, ⟨3⟩, 1⟩, ⟨.edgeOut 1 2 3 10 0 0 0, ⟨1⟩, 2⟩]
    (ofRows rows).groupNodes ⟨1, 1, 3, 2⟩ = [0, 1] ∧ (ofRows rows).versions 0 = [0] ∧
      (ofRows rows).getAtTimeOf 1 .edgeOut 3 2 20 = none ∧ ¬ (ofRows rows).VersionsHold := by
  intro rows
  have nodes : (ofRows rows).groupNodes ⟨1, 1, 3, 2⟩ = [0, 1] := by
    decide +kernel
  have chain : (ofRows rows).versions 0 = [0] := by
    decide +kernel
  refine ⟨nodes, chain, by decide +kernel, ?_⟩
  intro hold
  have whole := (hold.chains ⟨1, 1, 3, 2⟩ 0 (by rw [nodes]; rfl)).1
  rw [nodes, chain] at whole
  cases whole

end LockedVSL

end CedarGraph
