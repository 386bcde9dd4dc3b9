import CedarGraph.Engine.Lsm

/-!
# Inserting a version

What one more row does to the version chain of a key and to the results of `GetAll`. If the row
fits and its version is new, it comes in at one place and every other version stays where it is.
-/

namespace CedarGraph

open List VSLMemTable

namespace VSLMemTable

section Scan

variable (kind : EntityType) (col : UInt16)

def Versions (node : LFNode) : Prop :=
  node.row.key.columnId = col ∧ node.row.key.entityType = kind.toByte

instance (node : LFNode) : Decidable (Versions kind col node) :=
  inferInstanceAs (Decidable (_ ∧ _))

/-- The target at which a scan over the nodes stands. -/
def lastTarget (start : UInt64) (nodes : List LFNode) : UInt64 :=
  nodes.foldl
    (fun last node =>
      if Versions kind col node then node.row.key.targetId else last) start

variable {kind col}

theorem scanTargets_cons (last : UInt64) (node : LFNode) (rest : List LFNode) :
    scanTargets kind col 0 uint64Max last (node :: rest) =
      if Versions kind col node ∧ node.row.key.targetId ≠ last then
        node.chain ++ scanTargets kind col 0 uint64Max node.row.key.targetId rest
      else scanTargets kind col 0 uint64Max last rest := by
  have nothingDropped : (node.chain.dropWhile fun row =>
      decide (uint64Max < row.key.timestamp)) = node.chain := by
    rw [LFNode.chain, dropWhile_cons_of_neg]
    have bound := node.row.key.timestamp.toNat_lt
    have maxValue : uint64Max.toNat = 2 ^ 64 - 1 := by decide
    rw [decide_eq_true_eq, UInt64.lt_iff_toNat_lt, maxValue]
    omega
  have allTaken : (node.chain.takeWhile fun row => decide (0 ≤ row.key.timestamp)) =
      node.chain := by
    apply takeWhile_eq_self_iff.mpr
    intro row _
    rw [decide_eq_true_eq, UInt64.le_iff_toNat_le]
    exact Nat.zero_le _
  rw [scanTargets, nothingDropped, allTaken]
  simp only [Versions, and_assoc]

theorem scanTargets_append (last : UInt64) (front back : List LFNode) :
    scanTargets kind col 0 uint64Max last (front ++ back) =
      scanTargets kind col 0 uint64Max last front ++
        scanTargets kind col 0 uint64Max (lastTarget kind col last front) back := by
  induction front generalizing last with
  | nil => rfl
  | cons node rest ih =>
    rw [cons_append, scanTargets_cons, scanTargets_cons, lastTarget, foldl_cons]
    by_cases isVersion : Versions kind col node
    · by_cases same : node.row.key.targetId = last
      · have skipped : ¬ (Versions kind col node ∧
            node.row.key.targetId ≠ last) := fun both => both.2 same
        rw [if_neg skipped, if_neg skipped, if_pos isVersion, same]
        exact ih last
      · rw [if_pos ⟨isVersion, same⟩, if_pos ⟨isVersion, same⟩, if_pos isVersion, append_assoc, ih]
        rfl
    · have skipped : ¬ (Versions kind col node ∧
          node.row.key.targetId ≠ last) := fun both => isVersion both.1
      rw [if_neg skipped, if_neg skipped, if_neg isVersion]
      exact ih last

theorem scanTargets_start {left right : UInt64} {nodes : List LFNode}
    (apart : ∀ node ∈ nodes, Versions kind col node →
      node.row.key.targetId ≠ left ∧ node.row.key.targetId ≠ right) :
    scanTargets kind col 0 uint64Max left nodes = scanTargets kind col 0 uint64Max right nodes := by
  induction nodes with
  | nil => rfl
  | cons node rest ih =>
    rw [forall_mem_cons] at apart
    rw [scanTargets_cons, scanTargets_cons]
    by_cases isVersion : Versions kind col node
    · obtain ⟨notLeft, notRight⟩ := apart.1 isVersion
      rw [if_pos ⟨isVersion, notLeft⟩, if_pos ⟨isVersion, notRight⟩]
    · rw [if_neg (fun both => isVersion both.1), if_neg (fun both => isVersion both.1)]
      exact ih apart.2

theorem lastTarget_cases (start : UInt64) (nodes : List LFNode) :
    lastTarget kind col start nodes = start ∨
      ∃ node ∈ nodes, Versions kind col node ∧
        node.row.key.targetId = lastTarget kind col start nodes := by
  induction nodes generalizing start with
  | nil => exact Or.inl rfl
  | cons node rest ih =>
    rw [lastTarget, foldl_cons]
    by_cases isVersion : Versions kind col node
    · rw [if_pos isVersion]
      rcases ih node.row.key.targetId with same | ⟨other, member, found⟩
      · exact Or.inr ⟨node, mem_cons_self, isVersion, same.symm⟩
      · exact Or.inr ⟨other, mem_cons_of_mem node member, found⟩
    · rw [if_neg isVersion]
      rcases ih start with same | ⟨other, member, found⟩
      · exact Or.inl same
      · exact Or.inr ⟨other, mem_cons_of_mem node member, found⟩

end Scan

/-- What the row needs so that no other version disappears or appears: targets other
than `UINT64_MAX`, where a scan starts, and one type for each entity, column and
target. -/
structure Fits (mem : VSLMemTable) (row : Row) : Prop where
  target : row.key.targetId ≠ uint64Max
  sameType : ∀ node ∈ mem.nodes, node.row.key.entityId = row.key.entityId →
    node.row.key.columnId = row.key.columnId → node.row.key.targetId = row.key.targetId →
      node.row.key.entityType = row.key.entityType

section Insertion

variable {mem : VSLMemTable} {row : Row} {id : UInt64} {kind : EntityType}
  {col : UInt16}

def ofEntity (id : UInt64) (nodes : List LFNode) : List LFNode :=
  nodes.filter fun node => decide (node.row.key.entityId = id)

variable {node : LFNode}

theorem mem_ofEntity_iff {nodes : List LFNode} :
    node ∈ ofEntity id nodes ↔ node ∈ nodes ∧ node.row.key.entityId = id := by
  rw [ofEntity, mem_filter, decide_eq_true_eq]

theorem ofEntity_cons_of_eq (same : node.row.key.entityId = id) (nodes : List LFNode) :
    ofEntity id (node :: nodes) = node :: ofEntity id nodes :=
  filter_cons_of_pos (by simpa using same)

theorem ofEntity_cons_of_ne (ne : node.row.key.entityId ≠ id) (nodes : List LFNode) :
    ofEntity id (node :: nodes) = ofEntity id nodes :=
  filter_cons_of_neg (by simpa using ne)

section

variable (ordered : Ordered mem.nodes)
include ordered

theorem getVersionChain_eq :
    mem.getVersionChain id kind col =
      scanTargets kind col 0 uint64Max uint64Max (ofEntity id mem.nodes) := by
  rw [getVersionChain, scanRange, takeWhile_dropWhile_entity ordered]
  rfl

/-- Behind the inserted row the scan continues as it would have without it. -/
theorem older_append_scanTargets (fits : mem.Fits row)
    (targets : ∀ node ∈ mem.nodes, node.row.key.targetId ≠ uint64Max)
    (sameEntity : row.key.entityId = id) (sameColumn : row.key.columnId = col)
    (sameType : row.key.entityType = kind.toByte) {last : UInt64}
    (isLast : last = lastTarget kind col uint64Max
      (ofEntity id (mem.nodes.takeWhile (stepsOver row.key))))
    (ne : row.key.targetId ≠ last) :
    olderVersions row.key (mem.nodes.dropWhile (stepsOver row.key)) ++
        scanTargets kind col 0 uint64Max row.key.targetId
          (ofEntity id (mem.nodes.dropWhile (stepsOver row.key))) =
      scanTargets kind col 0 uint64Max last
        (ofEntity id (mem.nodes.dropWhile (stepsOver row.key))) := by
  have behind : ∀ node ∈ mem.nodes.dropWhile (stepsOver row.key),
      ¬ precedes node.row.key row.key := fun node member =>
    not_precedes_of_mem_dropWhile ordered member
  have sublist := dropWhile_sublist (l := mem.nodes) (stepsOver row.key)
  have notLast : ∀ node ∈ mem.nodes.dropWhile (stepsOver row.key),
      node.row.key.entityId = id → Versions kind col node →
      node.row.key.targetId ≠ last := by
    intro node member ofSame isVersion same
    rw [isLast] at same ne
    rcases lastTarget_cases uint64Max
        (ofEntity id (mem.nodes.takeWhile (stepsOver row.key))) with start | found
    · rw [start] at same
      exact targets node (sublist.subset member) same
    · obtain ⟨pred, predMember, predVersion, predTarget⟩ := found
      obtain ⟨inPreds, predEntity⟩ := mem_ofEntity_iff.mp predMember
      have ahead := precedes_of_mem_takeWhile inPreds
      have after := behind node member
      rw [← predTarget] at same ne
      rw [precedes_iff] at ahead after
      rw [ofSame, isVersion.1, sameEntity, sameColumn, same] at after
      rw [predEntity, predVersion.1, sameEntity, sameColumn] at ahead
      rw [ne_eq, ← UInt64.toNat_inj] at ne
      omega
  cases shape : mem.nodes.dropWhile (stepsOver row.key) with
  | nil => rfl
  | cons succ rest =>
    rw [shape] at behind sublist notLast
    have succMember : succ ∈ mem.nodes := sublist.subset mem_cons_self
    by_cases linked : succ.row.key.entityId = row.key.entityId ∧
        succ.row.key.columnId = row.key.columnId ∧
        succ.row.key.targetId = row.key.targetId ∧
        succ.row.key.entityType = row.key.entityType
    · have succEntity : succ.row.key.entityId = id := linked.1.trans sameEntity
      have succVersion : Versions kind col succ :=
        ⟨linked.2.1.trans sameColumn, linked.2.2.2.trans sameType⟩
      have succLast := notLast succ mem_cons_self succEntity succVersion
      have sameTarget := linked.2.2.1
      rw [olderVersions, if_pos linked, ofEntity_cons_of_eq succEntity, scanTargets_cons,
        if_neg (fun both => both.2 sameTarget), scanTargets_cons,
        if_pos ⟨succVersion, succLast⟩, sameTarget]
    · rw [olderVersions, if_neg linked, nil_append]
      apply scanTargets_start
      intro node member isVersion
      obtain ⟨inSuccs, nodeEntity⟩ := mem_ofEntity_iff.mp member
      refine ⟨?_, notLast node inSuccs nodeEntity isVersion⟩
      intro same
      apply linked
      have succBehind := behind succ mem_cons_self
      have between : succ.row.key.entityId = row.key.entityId ∧
          succ.row.key.columnId = row.key.columnId ∧
          succ.row.key.targetId = row.key.targetId := by
        rcases mem_cons.mp inSuccs with rfl | inRest
        · exact ⟨nodeEntity.trans sameEntity.symm, isVersion.1.trans sameColumn.symm, same⟩
        · have nodeBehind : ¬ precedes node.row.key succ.row.key :=
            (pairwise_cons.mp (ordered.sublist sublist)).1 node inRest
          rw [precedes_iff] at succBehind nodeBehind
          rw [nodeEntity, isVersion.1, same, ← sameEntity, ← sameColumn] at nodeBehind
          rw [← UInt64.toNat_inj, ← UInt16.toNat_inj, ← UInt64.toNat_inj]
          omega
      exact ⟨between.1, between.2.1, between.2.2,
        fits.sameType succ succMember between.1 between.2.1 between.2.2⟩

theorem getVersionChain_put (fits : mem.Fits row)
    (targets : ∀ node ∈ mem.nodes, node.row.key.targetId ≠ uint64Max)
    (id : UInt64) (kind : EntityType) (col : UInt16) :
    ∃ front back, mem.getVersionChain id kind col = front ++ back ∧
      ((mem.put row).getVersionChain id kind col = front ++ back ∨
        (row.key.entityId = id ∧ row.key.columnId = col ∧ row.key.entityType = kind.toByte) ∧
        (mem.put row).getVersionChain id kind col = front ++ row :: back) := by
  have parts : ofEntity id mem.nodes =
      ofEntity id (mem.nodes.takeWhile (stepsOver row.key)) ++
        ofEntity id (mem.nodes.dropWhile (stepsOver row.key)) := by
    rw [ofEntity, ofEntity, ofEntity, ← filter_append, takeWhile_append_dropWhile]
  have newParts : ofEntity id (mem.put row).nodes =
      ofEntity id (mem.nodes.takeWhile (stepsOver row.key)) ++
        ofEntity id (⟨row, olderVersions row.key (mem.nodes.dropWhile (stepsOver row.key))⟩ ::
          mem.nodes.dropWhile (stepsOver row.key)) := by
    rw [ofEntity, ofEntity, ofEntity, ← filter_append]
    rfl
  have newOrdered : Ordered (mem.put row).nodes := ordered_insert ordered row
  rw [getVersionChain_eq ordered, getVersionChain_eq newOrdered, parts, newParts,
    scanTargets_append, scanTargets_append]
  refine ⟨_, _, rfl, ?_⟩
  by_cases sameEntity : row.key.entityId = id
  · rw [ofEntity_cons_of_eq sameEntity, scanTargets_cons]
    split
    · rename_i found
      obtain ⟨isVersion, ne⟩ := found
      refine Or.inr ⟨⟨sameEntity, isVersion⟩, ?_⟩
      rw [LFNode.chain, cons_append, older_append_scanTargets ordered fits targets
        sameEntity isVersion.1 isVersion.2 rfl ne]
    · exact Or.inl rfl
  · rw [ofEntity_cons_of_ne sameEntity]
    exact Or.inl rfl

end

end Insertion

end VSLMemTable

/-- No two rows are the same version. -/
def Apart (rows : List Row) : Prop :=
  rows.Pairwise fun left right => ¬ sameVersion left right

theorem apart_perm {left right : List Row} (perm : left.Perm right) : Apart left ↔ Apart right := by
  refine perm.pairwise_iff ?_
  intro first second ne same
  exact ne ⟨same.1.symm, same.2.symm⟩

theorem EntrySort.find?_sort (entrySort : EntrySort) {left right : List Row} {visible : Row → Bool}
    (leftApart : Apart left) (rightApart : Apart right)
    (same : (left.filter visible).Perm (right.filter visible)) :
    ((entrySort.sort left).destutter fun kept next => ¬ sameVersion kept next).find? visible =
      ((entrySort.sort right).destutter fun kept next =>
        ¬ sameVersion kept next).find? visible := by
  have whole : ∀ {rows : List Row}, Apart rows →
      ((entrySort.sort rows).destutter fun kept next => ¬ sameVersion kept next) =
        entrySort.sort rows := by
    intro rows apart
    apply destutter_of_isChain
    exact ((apart_perm (entrySort.perm rows)).mpr apart).isChain
  have samePerm : ((entrySort.sort left).filter visible).Perm
      ((entrySort.sort right).filter visible) :=
    ((entrySort.perm left).filter _).trans (same.trans ((entrySort.perm right).filter _).symm)
  have sameSorted : (entrySort.sort left).filter visible =
      (entrySort.sort right).filter visible := by
    refine samePerm.eq_of_pairwise ?_ ((entrySort.sorted left).filter _)
      ((entrySort.sorted right).filter _)
    intro first second firstMember secondMember notAfter notBefore
    by_contra ne
    have inLeft : first ∈ entrySort.sort left := mem_of_mem_filter firstMember
    have otherLeft : second ∈ entrySort.sort left :=
      mem_of_mem_filter (samePerm.mem_iff.mpr secondMember)
    have apart := (apart_perm (entrySort.perm left)).mpr leftApart
    have symmetric : Std.Symm fun left right : Row => ¬ sameVersion left right :=
      ⟨fun _ _ notSame isSame => notSame ⟨isSame.1.symm, isSame.2.symm⟩⟩
    exact List.Pairwise.forall apart inLeft otherLeft ne
      (sameVersion_of_not_listedBefore notBefore notAfter)
  rw [whole leftApart, whole rightApart, ← head?_filter, ← head?_filter, sameSorted]

namespace LsmEngine

def versions (opts : LsmOptions) (eng : LsmEngine) (id : UInt64)
    (kind : EntityType) (col : UInt16) : List Row :=
  eng.mem.getVersionChain id kind col ++
    (eng.imm.map fun imm => imm.getVersionChain id kind col).getD [] ++
    (eng.accumulatedEntries.filter fun row =>
      decide (row.key.entityId = id ∧ row.key.entityType = kind.toByte ∧ row.key.columnId = col)) ++
    ((eng.compactionEngine.getFilesForEntity id col
      kind.toByte).flatMap fun file =>
      ((eng.disk file.fileNumber).map fun sst =>
        sst.reader.getRange opts.rowSort ⟨id, kind, col, 0, uint64Max⟩).getD [])

/-- The row fits its memtable, and the engine has no version of its key with the same
timestamp and target. -/
structure ArrivesApart (opts : LsmOptions) (eng : LsmEngine) (row : Row) : Prop where
  fits : eng.mem.Fits row
  apart : ∀ kind : EntityType, row.key.entityType = kind.toByte →
    ∀ ver ∈ eng.versions opts row.key.entityId kind row.key.columnId, ¬ sameVersion row ver

/-- The memtable is sorted and no key has two equal versions. -/
structure Steady (opts : LsmOptions) (eng : LsmEngine) : Prop where
  ordered : Ordered eng.mem.nodes
  targets : ∀ node ∈ eng.mem.nodes, node.row.key.targetId ≠ uint64Max
  apart : ∀ id kind col, Apart (eng.versions opts id kind col)

theorem versions_init (opts : LsmOptions) (id : UInt64) (kind : EntityType) (col : UInt16) :
    (init opts).versions opts id kind col = [] := by
  have noFiles : (init opts).compactionEngine.getFilesForEntity id col kind.toByte = [] := by
    rw [CompactionEngine.getFilesForEntity, init, CompactionEngine.all_levels_init]
    rfl
  rw [versions, noFiles]
  rfl

theorem steady_init (opts : LsmOptions) : (init opts).Steady opts := by
  refine ⟨List.Pairwise.nil, (fun _ impossible => nomatch impossible), ?_⟩
  intro id kind col
  rw [versions_init]
  exact List.Pairwise.nil

section Insertion

variable {opts : LsmOptions} {eng : LsmEngine} {row : Row}

section

variable (steady : eng.Steady opts)
include steady

section

variable (arrives : eng.ArrivesApart opts row)
include arrives

theorem Steady.versions_put
    (id : UInt64) (kind : EntityType) (col : UInt16) :
    versions opts { eng with mem := eng.mem.put row } id kind col = eng.versions opts id kind col ∨
      (versions opts { eng with mem := eng.mem.put row } id kind
        col).Perm (row :: eng.versions opts id kind col) ∧
      ∀ ver ∈ eng.versions opts id kind col, ¬ sameVersion row ver := by
  obtain ⟨front, back, chain, newChain⟩ := getVersionChain_put steady.ordered
    arrives.fits steady.targets id kind col
  rcases newChain with same | ⟨⟨sameEntity, sameColumn, sameType⟩, inserted⟩
  · refine Or.inl ?_
    rw [versions, versions, same, chain]
  · refine Or.inr ⟨?_, ?_⟩
    · rw [versions, versions, inserted, chain]
      simp only [append_assoc, cons_append]
      exact perm_middle
    · have apart := arrives.apart kind sameType
      rw [sameEntity, sameColumn] at apart
      exact apart

theorem Steady.put : Steady opts { eng with mem := eng.mem.put row } := by
  refine ⟨ordered_insert steady.ordered row, ?_, ?_⟩
  · intro node member
    have inserted : node.row ∈ row :: eng.mem.nodes.map LFNode.row :=
      (insert_perm row eng.mem.nodes).mem_iff.mp (mem_map_of_mem member)
    rcases mem_cons.mp inserted with isNew | old
    · rw [isNew]
      exact arrives.fits.target
    · obtain ⟨other, otherMember, same⟩ := mem_map.mp old
      rw [← same]
      exact steady.targets other otherMember
  · intro id kind col
    rcases steady.versions_put arrives id kind col with same | ⟨perm, ne⟩
    · rw [same]
      exact steady.apart id kind col
    · exact (apart_perm perm).mpr (pairwise_cons.mpr ⟨ne, steady.apart id kind col⟩)

/-- A row that is not visible changes neither the first visible version of a chain nor
that of `GetAll`. -/
theorem Steady.find?_put (visible : Row → Bool) (invisible : visible row = false)
    (id : UInt64) (kind : EntityType) (col : UInt16) :
    ((eng.mem.put row).getVersionChain id kind col).find? visible =
        (eng.mem.getVersionChain id kind col).find? visible ∧
      (getAll opts { eng with mem := eng.mem.put row } id kind col).find? visible =
        (eng.getAll opts id kind col).find? visible := by
  have hidden : ¬ visible row = true := by
    rw [invisible]
    exact Bool.false_ne_true
  refine ⟨?_, ?_⟩
  · obtain ⟨front, back, chain, newChain⟩ := getVersionChain_put steady.ordered
      arrives.fits steady.targets id kind col
    rcases newChain with same | ⟨-, inserted⟩
    · rw [same, chain]
    · rw [inserted, chain, find?_append, find?_append, find?_cons_of_neg hidden]
  · refine opts.entrySort.find?_sort ((steady.put arrives).apart id kind col)
      (steady.apart id kind col) ?_
    rcases steady.versions_put arrives id kind col with same | ⟨perm, -⟩
    · exact List.Perm.of_eq (congrArg (filter visible) same)
    · have filtered := perm.filter visible
      rw [filter_cons_of_neg hidden] at filtered
      exact filtered

end

end

end Insertion

end LsmEngine

end CedarGraph
