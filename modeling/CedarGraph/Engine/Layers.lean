import CedarGraph.Engine.Lsm

/-!
# The history of an engine in layers

When versions arrive in timestamp order, the places in which the engine keeps rows hold
consecutive stretches of the puts. `Stores` says which rows are where, `Sequential` that the
stretches are in order; together they make `GetAtTime` return the newest put.
-/

namespace CedarGraph

open Newest VSLMemTable FixedWidth List EntityType RangeQuery CompactionEngine UInt64

namespace LsmEngine

def time (row : Row) : Nat :=
  row.key.timestamp.toNat

/-- The descriptor of the last put among those of the entity and column with the
largest timestamp that is not after the query time. -/
def newestPut (history : List Row) (id : UInt64) (col : UInt16) (ts : UInt64) : Option Descriptor :=
  (newestAt time ts.toNat (history.filter (inColumn id col))).map Row.descriptor

/-- Versions of one entity and column have increasing timestamps. -/
def Older (prev later : Row) : Prop :=
  prev.key.entityId = later.key.entityId →
  prev.key.columnId = later.key.columnId → time prev < time later

def NotNewer (prev later : Row) : Prop :=
  prev.key.entityId = later.key.entityId →
  prev.key.columnId = later.key.columnId → time prev ≤ time later

theorem Older.notNewer {prev later : Row} (older : Older prev later) : NotNewer prev later := by
  intro sameEntity sameColumn
  exact Nat.le_of_lt (older sameEntity sameColumn)

theorem increasing_of_older
    {rows : List Row} (older : rows.Pairwise Older)
    (id : UInt64) (col : UInt16) :
    (rows.filter (inColumn id col)).Pairwise fun prev later =>
      time prev < time later := by
  rw [pairwise_filter]
  refine older.imp ?_
  intro prev later isOlder earlierIn laterIn
  have earlierSame := inColumn_iff.mp earlierIn
  have laterSame := inColumn_iff.mp laterIn
  exact isOlder (earlierSame.1.trans laterSame.1.symm) (earlierSame.2.trans laterSame.2.symm)

/-- A flushed file: the rows handed to the flush, and the same rows in the order
in which they were put. -/
structure FileLayer where
  number : Nat
  flushed : List Row
  rows : List Row
  engineFilter : Option Bytes
  zoneFilter : Option Bytes

/-- The history cut into what each place of the engine holds, oldest first. -/
structure Layers where
  files : List FileLayer
  accumulated : List Row
  imm : List Row
  mem : List Row

namespace Layers

def fileRows (layers : Layers) : List Row :=
  (layers.files.map FileLayer.rows).flatten

def memory (layers : Layers) : List Row :=
  layers.accumulated ++ (layers.imm ++ layers.mem)

def history (layers : Layers) : List Row :=
  layers.fileRows ++ layers.memory

end Layers

/-- A file layer as the disk and the two file lists show it. -/
structure FileLayer.Stored (opts : LsmOptions) (disk : Nat → Option SstFile)
    (nextFileNumber : Nat) (layer : FileLayer) : Prop where
  perm : layer.flushed.Perm layer.rows
  onDisk : disk layer.number = some ⟨.default, opts.rowSort.sort layer.flushed⟩
  indexable : SstFile.Indexable ⟨.default, opts.rowSort.sort layer.flushed⟩
  filter : layer.zoneFilter = none ∨ layer.zoneFilter = temporalFilterOf layer.flushed
  number : layer.number < nextFileNumber

/-- What the compaction engine and the disk show of the flushed files: a statement that lasts
when the counter moves on and when a flush adds a file. -/
structure FileInvariant (opts : LsmOptions) where
  Shows : CompactionEngine → (Nat → Option SstFile) → Nat → List FileLayer → Prop
  bump : ∀ {zone disk next files number}, Shows zone disk next files → next ≤ number →
    Shows zone disk number files
  install : ∀ {zone disk next files flushed rows engineFilter zoneFilter},
    Shows zone disk next files → flushed.Perm rows →
    SstFile.Indexable ⟨.default, opts.rowSort.sort flushed⟩ →
    (zoneFilter = none ∨ zoneFilter = temporalFilterOf flushed) →
    Shows (zone.addSSTFile opts.compactionConfig (flushMeta opts next flushed zoneFilter))
      (Function.update disk next (some ⟨.default, opts.rowSort.sort flushed⟩)) (next + 1)
      (files ++ [⟨next, flushed, rows, engineFilter, zoneFilter⟩])

/-- Without a compaction every file is where it was written and listed at level 0. -/
structure Unmerged (opts : LsmOptions) (zone : CompactionEngine) (disk : Nat → Option SstFile)
    (next : Nat) (files : List FileLayer) : Prop where
  stored : ∀ layer ∈ files, layer.Stored opts disk next
  levels : zone.levels =
    (files.map fun layer => flushMeta opts layer.number layer.flushed layer.zoneFilter) ::
      List.replicate (opts.compactionConfig.maxLevels - 1) []

theorem Unmerged.bump {opts : LsmOptions} {zone : CompactionEngine} {disk : Nat → Option SstFile}
    {next number : Nat} {files : List FileLayer} (unmerged : Unmerged opts zone disk next files)
    (larger : next ≤ number) : Unmerged opts zone disk number files := by
  refine ⟨fun layer member => ?_, unmerged.levels⟩
  have stored := unmerged.stored layer member
  exact ⟨stored.perm, stored.onDisk, stored.indexable, stored.filter, stored.number.trans_le larger⟩

theorem Unmerged.install {opts : LsmOptions} {zone : CompactionEngine}
    {disk : Nat → Option SstFile} {next : Nat} {files : List FileLayer} {flushed rows : List Row}
    {engineFilter zoneFilter : Option Bytes} (unmerged : Unmerged opts zone disk next files)
    (perm : flushed.Perm rows)
    (indexable : SstFile.Indexable ⟨.default, opts.rowSort.sort flushed⟩)
    (filter : zoneFilter = none ∨ zoneFilter = temporalFilterOf flushed) :
    Unmerged opts
      (zone.addSSTFile opts.compactionConfig (flushMeta opts next flushed zoneFilter))
      (Function.update disk next (some ⟨.default, opts.rowSort.sort flushed⟩)) (next + 1)
      (files ++ [⟨next, flushed, rows, engineFilter, zoneFilter⟩]) := by
  constructor
  · intro layer member
    rcases mem_append.mp member with prev | isNew
    · have stored := unmerged.stored layer prev
      refine ⟨stored.perm, ?_, stored.indexable, stored.filter, Nat.lt_succ_of_lt stored.number⟩
      exact (Function.update_of_ne stored.number.ne _ _).trans stored.onDisk
    · rw [mem_singleton.mp isNew]
      exact ⟨perm, Function.update_self _ _ _, indexable, filter, Nat.lt_succ_self _⟩
  · have lt : 0 < opts.compactionConfig.maxLevels := by
      have := opts.compactionConfig.twoLevels
      omega
    have isNew : ∀ other ∈ zone.levels.files 0, other.fileNumber ≠ next := by
      intro other member
      rw [unmerged.levels] at member
      rcases mem_map.mp member with ⟨layer, layerMember, rfl⟩
      exact (unmerged.stored layer layerMember).number.ne
    have added : zone.addSSTFile opts.compactionConfig
        (flushMeta opts next flushed zoneFilter) = _ := addSSTFile_of_new lt isNew
    refine (congrArg CompactionEngine.levels added).trans ?_
    rw [unmerged.levels, map_append]
    rfl

def FileInvariant.unmerged (opts : LsmOptions) : FileInvariant opts :=
  ⟨Unmerged opts, Unmerged.bump, Unmerged.install⟩

/-- Which rows the engine keeps where. -/
structure Stores {opts : LsmOptions} (inv : FileInvariant opts) (eng : LsmEngine)
    (layers : Layers) : Prop where
  mem : Holds eng.mem.nodes layers.mem
  imm : match eng.imm with
    | none => layers.imm = []
    | some imm => Holds imm.nodes layers.imm
  accumulated : eng.accumulatedEntries.Perm layers.accumulated
  direct : opts.enableAccumulatedFlush = false → layers.accumulated = []
  level0 : eng.level0 = layers.files.map fun layer =>
    flushMeta opts layer.number layer.flushed layer.engineFilter
  files : inv.Shows eng.compactionEngine eng.disk eng.nextFileNumber layers.files

/-- The layers are consecutive: versions in memory have increasing timestamps, as
have those of each file, and no version is newer than a later one. -/
structure Sequential (layers : Layers) : Prop where
  memFollows : layers.mem.Pairwise fun prev later => VSLMemTable.Follows later prev
  immFollows : layers.imm.Pairwise fun prev later => VSLMemTable.Follows later prev
  memoryOlder : layers.memory.Pairwise Older
  fileOlder : ∀ layer ∈ layers.files, layer.rows.Pairwise Older
  notNewer : layers.history.Pairwise NotNewer
  vertices : ∀ row ∈ layers.history, row.key.entityType = vertex.toByte

section Reads

variable {opts : LsmOptions} {eng : LsmEngine} {layers : Layers}

theorem selectBest_eq (ts : UInt64) (entries : List Row) :
    selectBest ts entries = (newestAt time ts.toNat entries).map Row.descriptor := by
  have loop : ∀ (rows : List Row) (best : Option Row), rows.foldl (fun best row =>
          if row.key.timestamp ≤ ts ∧ best.2 ≤ row.key.timestamp then
            (some row.descriptor, row.key.timestamp)
          else best)
        (best.map Row.descriptor, (best.map fun row => row.key.timestamp).getD 0) =
      ((rows.foldl (scanStep time ts.toNat) best).map Row.descriptor,
        ((rows.foldl (scanStep time ts.toNat) best).map fun row => row.key.timestamp).getD 0) := by
    intro rows
    induction rows with
    | nil =>
      intro best
      rfl
    | cons head tail ih =>
      intro best
      rw [foldl_cons, foldl_cons, ← ih]
      congr 1
      cases best with
      | none =>
        have zeroLe : (0 : UInt64) ≤ head.key.timestamp := by
          rw [le_iff_toNat_le]
          exact Nat.zero_le _
        by_cases within : head.key.timestamp ≤ ts
        · have withinNat := le_iff_toNat_le.mp within
          simp [scanStep, time, within, withinNat, zeroLe]
        · have withinNat : ¬ head.key.timestamp.toNat ≤ ts.toNat := by
            rwa [← le_iff_toNat_le]
          simp [scanStep, time, within, withinNat]
      | some cur =>
        by_cases better : head.key.timestamp ≤ ts ∧ cur.key.timestamp ≤ head.key.timestamp
        · have betterNat : head.key.timestamp.toNat ≤ ts.toNat ∧
              cur.key.timestamp.toNat ≤ head.key.timestamp.toNat := by
            rwa [← le_iff_toNat_le, ← le_iff_toNat_le]
          simp [scanStep, time, better, betterNat]
        · have betterNat : ¬ (time head ≤ ts.toNat ∧ time cur ≤ time head) := by
            rwa [time, time, ← le_iff_toNat_le, ← le_iff_toNat_le]
          simp only [scanStep, Option.map_some, Option.getD_some]
          rw [if_neg betterNat, if_neg better]
          rfl
  have whole := loop entries none
  rw [foldl_scanStep] at whole
  rw [selectBest]
  exact congrArg Prod.fst whole

theorem queryAccumulatedBuffer_eq {rows : List Row} (perm : eng.accumulatedEntries.Perm rows)
    (older : rows.Pairwise Older) (vertices : ∀ row ∈ rows, row.key.entityType = vertex.toByte)
    (id : UInt64) (col : UInt16) (ts : UInt64) :
    eng.queryAccumulatedBuffer id .vertex col ts =
      newestAt time ts.toNat (rows.filter (inColumn id col)) := by
  have distinct := eq_of_time_eq (increasing_of_older older id col)
  have filtered : (eng.accumulatedEntries.filter (inColumn id col)).Perm
      (rows.filter (inColumn id col)) := perm.filter _
  have entriesDistinct : ∀ a ∈ eng.accumulatedEntries.filter (inColumn id col),
      ∀ b ∈ eng.accumulatedEntries.filter (inColumn id col), time a = time b → a = b := by
    intro a aMember b bMember
    exact distinct a (filtered.mem_iff.mp aMember) b (filtered.mem_iff.mp bMember)
  rw [← newestAt_perm distinct filtered, ← foldl_strictScanStep entriesDistinct,
    queryAccumulatedBuffer, foldl_filter]
  have isVertex : ∀ row ∈ eng.accumulatedEntries, row.key.entityType = vertex.toByte := by
    intro row member
    exact vertices row (perm.mem_iff.mp member)
  apply foldl_ext
  intro best row member
  have sameType := isVertex row member
  by_cases inGroup : inColumn id col row = true
  · have same := inColumn_iff.mp inGroup
    rw [if_pos inGroup, strictScanStep]
    refine if_congr ?_ rfl rfl
    simp only [time, same.1, same.2, sameType, true_and, le_iff_toNat_le, lt_iff_toNat_lt]
  · rw [if_neg inGroup, if_neg]
    intro accepted
    exact inGroup (inColumn_iff.mpr ⟨accepted.1, accepted.2.2.1⟩)

variable {col : UInt16} {id : UInt64} {layer : FileLayer}

theorem accepts_vertex (proper : col ≠ uint16Max) (row : Row) :
    accepts ⟨id, .vertex, col, 0, uint64Max⟩ row = inColumn id col row := by
  have lower : (0 : UInt64) ≤ row.key.timestamp := by
    rw [le_iff_toNat_le]
    exact Nat.zero_le _
  simp [accepts, inColumn, proper, lower, le_uint64Max, toByte]

theorem readFile_perm {query : RangeQuery} {file : ZoneSstMeta} {sst : SstFile}
    (onDisk : eng.disk file.fileNumber = some sst) (indexable : sst.Indexable) :
    (eng.readFile opts query file).Perm (sst.rows.filter query.accepts) := by
  rw [readFile, onDisk]
  dsimp only
  split
  · exact SstFile.getRange_perm opts.rowSort indexable query
  · rename_i skipped
    have nothing : sst.rows.filter query.accepts = [] := by
      refine filter_eq_nil_iff.mpr ?_
      intro row member accepted
      rw [accepts, decide_eq_true_eq] at accepted
      rw [← accepted.1] at skipped
      exact skipped (SstFile.mayContainEntity_of_mem member)
    rw [nothing]

theorem FileLayer.Stored.readFile_perm (stored : layer.Stored opts eng.disk eng.nextFileNumber)
    {query : RangeQuery} {file : ZoneSstMeta} (sameNumber : file.fileNumber = layer.number) :
    (eng.readFile opts query file).Perm (layer.rows.filter query.accepts) := by
  have onDisk := stored.onDisk
  rw [← sameNumber] at onDisk
  exact (LsmEngine.readFile_perm onDisk stored.indexable).trans
    (((opts.rowSort.perm _).trans stored.perm).filter _)

private theorem filter_eq_nil_of_skipped
    (stored : layer.Stored opts eng.disk eng.nextFileNumber) {temporalFilter : Option Bytes}
    (filter : temporalFilter = none ∨ temporalFilter = temporalFilterOf layer.flushed)
    (skipped : (fileMatches id col vertex.toByte
        (flushMeta opts layer.number layer.flushed temporalFilter) &&
      passesTemporalFilter id (flushMeta opts layer.number layer.flushed temporalFilter)) = false) :
    layer.rows.filter (inColumn id col) = [] := by
  refine filter_eq_nil_iff.mpr ?_
  intro row member inGroup
  have sameEntity := (inColumn_iff.mp inGroup).1
  have inFlushed : row ∈ layer.flushed := stored.perm.mem_iff.mpr member
  have covered := KeyRange.covers_ofRows inFlushed
  have fileMatch : fileMatches id col vertex.toByte
      (flushMeta opts layer.number layer.flushed temporalFilter) = true := by
    rw [fileMatches, decide_eq_true_eq, ← sameEntity]
    exact ⟨Or.inr rfl, Or.inr rfl, covered.minEntity, covered.maxEntity⟩
  have passes : passesTemporalFilter id
      (flushMeta opts layer.number layer.flushed temporalFilter) = true := by
    rcases filter with rfl | rfl
    · rfl
    · rw [← sameEntity]
      exact TemporalFilter.mayContain_build (mem_map.mpr ⟨row, inFlushed, rfl⟩)
  rw [fileMatch, passes] at skipped
  cases skipped

/-- A pass over listed files that skips only files without a row of the column
finds the newest row of all file layers. -/
private theorem newestAt_files {files : List FileLayer}
    (stored : ∀ layer ∈ files, layer.Stored opts eng.disk eng.nextFileNumber)
    (fileOlder : ∀ layer ∈ files, layer.rows.Pairwise Older)
    (notNewer : (files.map FileLayer.rows).flatten.Pairwise NotNewer)
    (proper : col ≠ uint16Max) (ts : UInt64) (metaOf : FileLayer → ZoneSstMeta)
    (sameNumber : ∀ layer, (metaOf layer).fileNumber = layer.number) (keep : ZoneSstMeta → Bool)
    (skipped : ∀ layer ∈ files, keep (metaOf layer) = false →
      layer.rows.filter (inColumn id col) = []) :
    newestAt time ts.toNat (((files.map metaOf).filter keep).flatMap
        (eng.readFile opts ⟨id, .vertex, col, 0, uint64Max⟩)) =
      newestAt time ts.toNat ((files.map FileLayer.rows).flatten.filter (inColumn id col)) := by
  have parts : ((files.map metaOf).filter keep).flatMap
      (eng.readFile opts ⟨id, .vertex, col, 0, uint64Max⟩) =
      (files.map fun layer => if keep (metaOf layer) then
        eng.readFile opts ⟨id, .vertex, col, 0, uint64Max⟩ (metaOf layer)
        else []).flatten := by
    clear stored fileOlder notNewer skipped
    induction files with
    | nil => rfl
    | cons head tail ih =>
      rw [map_cons, map_cons, flatten_cons, ← ih, filter_cons]
      split
      · rfl
      · rfl
  have pieces : (files.map FileLayer.rows).flatten.filter (inColumn id col) =
      (files.map fun layer => layer.rows.filter (inColumn id col)).flatten := by
    rw [filter_flatten, map_map]
    rfl
  rw [parts, pieces]
  apply newestAt_flatten_perm
  · rw [forall₂_map_left_iff, forall₂_map_right_iff, forall₂_same]
    intro layer member
    by_cases kept : keep (metaOf layer) = true
    · rw [if_pos kept, ← funext (accepts_vertex proper)]
      exact (stored layer member).readFile_perm (sameNumber layer)
    · rw [if_neg kept, skipped layer member (by simpa using kept)]
  · intro rows member
    rcases mem_map.mp member with ⟨layer, layerMember, rfl⟩
    exact eq_of_time_eq (increasing_of_older (fileOlder layer layerMember) id col)
  · rw [pairwise_map]
    have across := (pairwise_flatten.mp notNewer).2
    rw [pairwise_map] at across
    refine across.imp ?_
    intro olderLayer newerLayer ordered a aMember b bMember
    rcases mem_filter.mp aMember with ⟨aRow, aIn⟩
    rcases mem_filter.mp bMember with ⟨bRow, bIn⟩
    have aSame := inColumn_iff.mp aIn
    have bSame := inColumn_iff.mp bIn
    exact ordered a aRow b bRow (aSame.1.trans bSame.1.symm) (aSame.2.trans bSame.2.symm)

theorem Unmerged.listedFiles {zone : CompactionEngine} {disk : Nat → Option SstFile}
    {next : Nat} {files : List FileLayer} (unmerged : Unmerged opts zone disk next files) :
    zone.levels.all = files.map fun layer =>
      flushMeta opts layer.number layer.flushed layer.zoneFilter := by
  have noOther : ∀ count, (replicate count ([] : List ZoneSstMeta)).flatten = [] := by
    intro count
    simp
  rw [unmerged.levels, Levels.all, flatten_cons, noOther, append_nil]

theorem newestAt_sstEntries (stores : Stores (.unmerged opts) eng layers) (seq : Sequential layers)
    (proper : col ≠ uint16Max) (ts : UInt64) :
    newestAt time ts.toNat (eng.sstEntries opts ⟨id, .vertex, col, 0, uint64Max⟩) =
      newestAt time ts.toNat (layers.fileRows.filter (inColumn id col)) := by
  have notNewer : (layers.files.map FileLayer.rows).flatten.Pairwise NotNewer :=
    (pairwise_append.mp seq.notNewer).1
  have zoneSkips : ∀ layer ∈ layers.files, (passesTemporalFilter id
        (flushMeta opts layer.number layer.flushed layer.zoneFilter) &&
      fileMatches id col vertex.toByte
        (flushMeta opts layer.number layer.flushed layer.zoneFilter)) = false →
      layer.rows.filter (inColumn id col) = [] := by
    intro layer member skipped
    rw [Bool.and_comm] at skipped
    have layerStored := stores.files.stored layer member
    exact filter_eq_nil_of_skipped layerStored layerStored.filter skipped
  have engineSkips : ∀ layer ∈ layers.files, fileMatches id col vertex.toByte
        (flushMeta opts layer.number layer.flushed layer.engineFilter) = false →
      layer.rows.filter (inColumn id col) = [] := by
    intro layer member skipped
    have layerStored := stores.files.stored layer member
    have noFilter : (none : Option Bytes) = none ∨ none = temporalFilterOf layer.flushed :=
      Or.inl rfl
    refine filter_eq_nil_of_skipped layerStored noFilter ?_
    have sameMatch : fileMatches id col vertex.toByte
        (flushMeta opts layer.number layer.flushed none) = false := skipped
    rw [sameMatch]
    rfl
  rw [sstEntries]
  dsimp only
  split
  · rw [stores.level0]
    exact newestAt_files stores.files.stored seq.fileOlder notNewer proper ts _
      (fun _ => rfl) _ engineSkips
  · rw [getFilesForEntity, stores.files.listedFiles, filter_filter]
    exact newestAt_files stores.files.stored seq.fileOlder notNewer proper ts _
      (fun _ => rfl) _ zoneSkips

theorem time_le_of_notNewer {front back : List Row} (notNewer : (front ++ back).Pairwise NotNewer)
    (id : UInt64) (col : UInt16) :
    ∀ a ∈ front.filter (inColumn id col), ∀ b ∈ back.filter (inColumn id col), time a ≤ time b := by
  intro a aMember b bMember
  rcases mem_filter.mp aMember with ⟨aRow, aIn⟩
  rcases mem_filter.mp bMember with ⟨bRow, bIn⟩
  have aSame := inColumn_iff.mp aIn
  have bSame := inColumn_iff.mp bIn
  exact (pairwise_append.mp notNewer).2.2 a aRow b bRow
    (aSame.1.trans bSame.1.symm) (aSame.2.trans bSame.2.symm)

theorem getAtTime_of_fileRead {inv : FileInvariant opts} (stores : Stores inv eng layers)
    (seq : Sequential layers) {ts : UInt64}
    (fileRead : (newestAt time ts.toNat
        (eng.sstEntries opts ⟨id, .vertex, col, 0, uint64Max⟩)).map Row.descriptor =
      (newestAt time ts.toNat (layers.fileRows.filter (inColumn id col))).map Row.descriptor) :
    eng.getAtTime opts id .vertex col ts = newestPut layers.history id col ts := by
  have vertices := seq.vertices
  rw [Layers.history, Layers.memory, forall_mem_append, forall_mem_append, forall_mem_append]
    at vertices
  obtain ⟨_, accumulatedVertices, immVertices, memVertices⟩ := vertices
  have notNewer := seq.notNewer
  have memoryNotNewer := (pairwise_append.mp notNewer).2.1
  have tailNotNewer := (pairwise_append.mp memoryNotNewer).2.1
  have accumulatedOlder : layers.accumulated.Pairwise Older :=
    (pairwise_append.mp seq.memoryOlder).1
  have memRead : eng.mem.getAtTime id .vertex col ts =
      (newestAt time ts.toNat (layers.mem.filter (inColumn id col))).map Row.descriptor :=
    getAtTime_of_holds stores.mem seq.memFollows memVertices id col ts
  have immRead : (eng.imm.bind fun imm =>
      imm.getAtTime id .vertex col ts) =
      (newestAt time ts.toNat (layers.imm.filter (inColumn id col))).map Row.descriptor := by
    have immHolds := stores.imm
    cases shape : eng.imm with
    | none =>
      rw [shape] at immHolds
      dsimp only at immHolds
      rw [immHolds]
      rfl
    | some imm =>
      rw [shape] at immHolds
      exact getAtTime_of_holds immHolds seq.immFollows immVertices id col ts
  have bufferRead := queryAccumulatedBuffer_eq stores.accumulated accumulatedOlder
    accumulatedVertices id col ts
  have split : newestAt time ts.toNat (layers.history.filter (inColumn id col)) =
      (((newestAt time ts.toNat (layers.mem.filter (inColumn id col))).or
        (newestAt time ts.toNat (layers.imm.filter (inColumn id col)))).or
        (newestAt time ts.toNat (layers.accumulated.filter (inColumn id col)))).or
        (newestAt time ts.toNat (layers.fileRows.filter (inColumn id col))) := by
    have filesBelow := time_le_of_notNewer notNewer id col
    have bufferBelow := time_le_of_notNewer memoryNotNewer id col
    have immBelow := time_le_of_notNewer tailNotNewer id col
    rw [Layers.history, filter_append, newestAt_append filesBelow, Layers.memory,
      filter_append, newestAt_append bufferBelow, filter_append,
      newestAt_append immBelow]
  rw [newestPut, split, getAtTime, memRead, immRead, bufferRead, selectBest_eq, fileRead]
  cases newestAt time ts.toNat (layers.mem.filter (inColumn id col)) with
  | some row => rfl
  | none =>
    cases newestAt time ts.toNat (layers.imm.filter (inColumn id col)) with
    | some row => rfl
    | none =>
      cases newestAt time ts.toNat
          (layers.accumulated.filter (inColumn id col)) with
      | some row => rfl
      | none => rfl

theorem getAtTime_edge_of_holds {mem : VSLMemTable} {rows : List Row} (holds : Holds mem.nodes rows)
    (vertices : ∀ row ∈ rows, row.key.entityType = vertex.toByte) (id : UInt64) {kind : EntityType}
    (edge : kind.toByte ≠ vertex.toByte) (col : UInt16) (ts : UInt64) :
    mem.getAtTime id kind col ts = none := by
  have missing : mem.findLatestVersion id kind col = none := by
    rw [findLatestVersion, find?_eq_none]
    intro node member found
    have inNodes : node ∈ mem.nodes :=
      (dropWhile_sublist _).subset ((takeWhile_sublist _).subset member)
    have sameType := (of_decide_eq_true found).2
    rw [vertices node.row (holds.row_mem inNodes)] at sameType
    exact edge sameType.symm
  rw [VSLMemTable.getAtTime, missing]

theorem readFile_edge (stored : layer.Stored opts eng.disk eng.nextFileNumber)
    (vertices : ∀ row ∈ layer.rows, row.key.entityType = vertex.toByte)
    {query : RangeQuery} (edge : query.entityType.toByte ≠ vertex.toByte)
    {file : ZoneSstMeta} (sameNumber : file.fileNumber = layer.number) :
    eng.readFile opts query file = [] := by
  have read := @FileLayer.Stored.readFile_perm _ _ _ stored query _ sameNumber
  have nothing : layer.rows.filter query.accepts = [] := by
    rw [filter_eq_nil_iff]
    intro row inLayer accepted
    rw [accepts, decide_eq_true_eq, vertices row inLayer] at accepted
    rcases accepted.2.1 with isVertex | same
    · exact edge isVertex
    · exact edge same.symm
  rw [nothing] at read
  exact read.eq_nil

theorem getAtTime_edge (stores : Stores (.unmerged opts) eng layers) (seq : Sequential layers)
    (id : UInt64) {kind : EntityType}
    (edge : kind.toByte ≠ vertex.toByte) (col : UInt16) (ts : UInt64) :
    eng.getAtTime opts id kind col ts = none := by
  have vertices := seq.vertices
  rw [Layers.history, Layers.memory, forall_mem_append, forall_mem_append, forall_mem_append]
    at vertices
  obtain ⟨fileVertices, accumulatedVertices, immVertices, memVertices⟩ := vertices
  have memRead : eng.mem.getAtTime id kind col ts = none :=
    getAtTime_edge_of_holds stores.mem memVertices id edge col ts
  have immRead : (eng.imm.bind fun imm =>
      imm.getAtTime id kind col ts) = none := by
    have immHolds := stores.imm
    cases shape : eng.imm with
    | none => rfl
    | some imm =>
      rw [shape] at immHolds
      exact getAtTime_edge_of_holds immHolds immVertices id edge col ts
  have bufferRead : eng.queryAccumulatedBuffer id kind col ts = none := by
    have unchanged : ∀ best : Option Row, ∀ row ∈ eng.accumulatedEntries,
        (if row.key.entityId = id ∧ row.key.entityType = kind.toByte ∧
            row.key.columnId = col ∧ row.key.timestamp ≤ ts ∧
            (∀ cur ∈ best, cur.key.timestamp < row.key.timestamp) then some row
          else best) = best := by
      intro best row member
      rw [if_neg]
      intro accepted
      rw [accumulatedVertices row (stores.accumulated.mem_iff.mp member)] at accepted
      exact edge accepted.2.1.symm
    rw [queryAccumulatedBuffer, foldl_ext _ (fun best _ => best) none unchanged, foldl_fixed]
  have listed : ∀ (file : ZoneSstMeta) (layer : FileLayer), layer ∈ layers.files →
      file.fileNumber = layer.number →
      eng.readFile opts ⟨id, kind, col, 0, uint64Max⟩ file = [] := by
    intro file layer member sameNumber
    refine readFile_edge (stores.files.stored layer member) ?_ edge sameNumber
    intro row inLayer
    exact fileVertices row (mem_flatten_of_mem (mem_map_of_mem member) inLayer)
  have fileRead : eng.sstEntries opts ⟨id, kind, col, 0, uint64Max⟩ = [] := by
    rw [sstEntries]
    dsimp only
    split
    · rw [flatMap_eq_nil_iff]
      intro file member
      have inLevel := (mem_filter.mp member).1
      rw [stores.level0] at inLevel
      obtain ⟨layer, inFiles, rfl⟩ := mem_map.mp inLevel
      exact listed _ layer inFiles rfl
    · rename_i found
      rw [List.isEmpty_iff, flatMap_eq_nil_iff] at found
      refine absurd ?_ found
      intro file member
      have inLevels := (mem_filter.mp (mem_filter.mp member).1).1
      rw [stores.files.listedFiles] at inLevels
      obtain ⟨layer, inFiles, rfl⟩ := mem_map.mp inLevels
      exact listed _ layer inFiles rfl
  rw [getAtTime, memRead, immRead, bufferRead, fileRead]
  rfl

end Reads

end LsmEngine

end CedarGraph
