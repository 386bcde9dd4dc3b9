import CedarGraph.Lib.MergeOrder
import CedarGraph.Lib.Runs
import CedarGraph.Sst.Builder

/-!
# Disjoint levels

`DoCompaction` and `DoCompactionRange` merge files of a level with the files of the next level
that overlap their hull. A file that is left alone lies on one side of all that are merged.
-/

namespace CedarGraph

open List

/-- The members of `FileMetaData` that a compaction reads, and the rows of the file. They stay as
they were written: no two files have the same number. -/
structure LevelFile where
  fileNumber : Nat
  level : Nat
  smallestEntityId : UInt64
  largestEntityId : UInt64
  rows : List Row

namespace LevelFile

variable (file other : LevelFile)

def overlaps (entityIdStart entityIdEnd : UInt64) : Bool :=
  !(file.largestEntityId < entityIdStart || file.smallestEntityId > entityIdEnd)

def Covers : Prop :=
  ∀ row ∈ file.rows,
    file.smallestEntityId ≤ row.key.entityId ∧ row.key.entityId ≤ file.largestEntityId

def Apart : Prop :=
  file.largestEntityId < other.smallestEntityId ∨ other.largestEntityId < file.smallestEntityId

end LevelFile

structure LevelOptions where
  maxLevels : Nat
  twoLevels : 2 ≤ maxLevels
  heap : Merging.Policy fun left right : Row => left.key.lessForSorting right.key

theorem lessForSorting_asymm (left right : Row) (less : left.key.lessForSorting right.key = true) :
    right.key.lessForSorting left.key = false := by
  have := transCmp_compareForSorting
  have := @Std.OrientedCmp.eq_swap _ CedarKey.compareForSorting _ right.key left.key
  grind [CedarKey.lessForSorting, Ordering.swap]

def LevelOptions.ofLevels (maxLevels : Nat) (twoLevels : 2 ≤ maxLevels) : LevelOptions :=
  ⟨maxLevels, twoLevels, .firstMinimal _ lessForSorting_asymm fun _ _ _ => trans_of NotAfter⟩

structure LeveledFiles where
  files : Nat → List LevelFile
  nextFileNumber : Nat

namespace LeveledFiles

open LevelFile

def empty : LeveledFiles := ⟨fun _ => [], 1⟩

variable (opts : LevelOptions) (ver : LeveledFiles) (level : Nat)

def addFile (file : LevelFile) : LeveledFiles :=
  { ver with
    files := fun other => if other = level then ver.files level ++ [file] else ver.files other }

def deleteFiles (inputs : List LevelFile) : LeveledFiles :=
  { ver with
    files := fun level => (ver.files level).filter fun file =>
      inputs.all fun input => !(input.level == level && input.fileNumber == file.fileNumber) }

def hull (ranges : List (UInt64 × UInt64)) : UInt64 × UInt64 :=
  ranges.foldl (fun hull range =>
    (if range.1 < hull.1 then range.1 else hull.1, if hull.2 < range.2 then range.2 else hull.2))
    (uint64Max, 0)

def newMeta (rows : List Row) : LevelFile :=
  let (smallest, largest) := hull (rows.map fun row => (row.key.entityId, row.key.entityId))
  ⟨ver.nextFileNumber, level, smallest, largest, rows⟩

def sameKey (last row : Row) : Bool :=
  row.key.compareForSorting last.key == .eq

def mergeRows (sources : List (List Row)) : List Row :=
  Merging.merge opts.heap.top sameKey (fun _ => false) sources.flatten.length none sources

def mergeFiles (outputLevel : Nat) (allInputs : List LevelFile) : LeveledFiles :=
  let sources := (allInputs.map rows).filter (!·.isEmpty)
  let deleted := ver.deleteFiles allInputs
  if sources.isEmpty then deleted
  else
    { deleted.addFile outputLevel (ver.newMeta outputLevel (mergeRows opts sources)) with
      nextFileNumber := ver.nextFileNumber + 1 }

def compactFiles (inputs : List LevelFile) : LeveledFiles :=
  if inputs.isEmpty then ver
  else if level + 1 < opts.maxLevels then
    let (smallest, largest) :=
      hull (inputs.map fun file => (file.smallestEntityId, file.largestEntityId))
    ver.mergeFiles opts (level + 1)
      (inputs ++ (ver.files (level + 1)).filter (·.overlaps smallest largest))
  else ver.mergeFiles opts level inputs

/-- The calls; an added file belongs to level 0, and its rows lie within its range. -/
inductive Call where
  | addFile (file : LevelFile) (ground : file.level = 0) (covers : file.Covers)
  | doCompaction (level : Int)
  | doCompactionRange (level : Int) (startEntityId endEntityId : UInt64)

/-- The exits of a compaction with an error are left out.  Before `ApplyEdits` they leave the
version as it was, with a file number used at most, and behind it the version is this one. -/
def step (ver : LeveledFiles) : Call → LeveledFiles
  | .addFile file _ _ => ver.addFile 0 file
  | .doCompaction (.ofNat level) =>
    ver.compactFiles opts level ((ver.files level).take (if level = 0 then 4 else 1))
  | .doCompactionRange (.ofNat level) first last =>
    ver.compactFiles opts level ((ver.files level).filter (·.overlaps first last))
  -- there is no file on a negative level
  | _ => ver

theorem inside_hull {ranges : List (UInt64 × UInt64)} {range : UInt64 × UInt64}
    (mem : range ∈ ranges) : (hull ranges).1 ≤ range.1 ∧ range.2 ≤ (hull ranges).2 := by
  refine Runs.foldl_of_mem
    (p := fun hull : UInt64 × UInt64 => hull.1 ≤ range.1 ∧ range.2 ≤ hull.2) ?_ ?_ mem _ <;> grind

variable {opts ver level} {rows : List Row} {inputs : List LevelFile}

theorem covers_newMeta : (ver.newMeta level rows).Covers :=
  fun _ mem => inside_hull (mem_map_of_mem mem)

/-- The new file lies on the side of a file on which all rows lie. -/
theorem apart_newMeta (file : LevelFile) {row : Row} (mem : row ∈ rows)
    (side : (∀ row ∈ rows, file.largestEntityId < row.key.entityId) ∨
      ∀ row ∈ rows, row.key.entityId < file.smallestEntityId) :
    file.Apart (ver.newMeta level rows) := by
  have most := le_uint64Max row.key.entityId
  refine side.imp (fun behind => ?_) (fun before => ?_)
  · have first := behind row mem
    refine foldlRecOn (motive := fun hull : UInt64 × UInt64 => file.largestEntityId < hull.1)
      _ _ ?_ ?_ <;> grind
  · have first := before row mem
    refine foldlRecOn (motive := fun hull : UInt64 × UInt64 => hull.2 < file.smallestEntityId)
      _ _ ?_ ?_ <;> grind

structure Sound (files : Nat → List LevelFile) : Prop where
  placed : ∀ level, ∀ file ∈ files level, file.level = level ∧ file.Covers
  proper : ∀ level ≠ 0, ∀ file ∈ files level, file.smallestEntityId ≤ file.largestEntityId
  apart : ∀ level ≠ 0, (files level).Pairwise Apart

theorem Sound.addFile (sound : Sound ver.files) {file : LevelFile} (isLevel : file.level = level)
    (covers : file.Covers) (deeper : level ≠ 0 → file.smallestEntityId ≤ file.largestEntityId ∧
      ∀ other ∈ ver.files level, other.Apart file) : Sound (ver.addFile level file).files := by
  obtain ⟨placed, proper, apart⟩ := sound
  constructor <;> simp only [LeveledFiles.addFile] <;> grind

theorem Sound.deleteFiles (sound : Sound ver.files) (inputs : List LevelFile) :
    Sound (ver.deleteFiles inputs).files :=
  ⟨fun level file mem => sound.placed level file (mem_of_mem_filter mem),
    fun level behind file mem => sound.proper level behind file (mem_of_mem_filter mem),
    fun level behind => (sound.apart level behind).filter _⟩

instance : Std.Symm Apart := ⟨fun _ _ => Or.symm⟩

/-- The inputs overlap a range or lie in it, and the other files of the level do not. -/
theorem Sound.mergeFiles (sound : Sound ver.files) (behind : level ≠ 0) {first last : UInt64}
    (covers : ∀ input ∈ inputs, input.Covers)
    (inside : ∀ input ∈ inputs, first ≤ input.smallestEntityId ∧ input.largestEntityId ≤ last ∨
      input.overlaps first last = true ∧ input ∈ ver.files level)
    (outside : ∀ file ∈ ver.files level, file ∉ inputs → file.overlaps first last = false) :
    Sound (ver.mergeFiles opts level inputs).files := by
  rw [LeveledFiles.mergeFiles]
  dsimp only
  split
  · exact sound.deleteFiles inputs
  rename_i someSource
  generalize isSources : (inputs.map rows).filter _ = sources at someSource ⊢
  have origin : ∀ row ∈ mergeRows opts sources, ∃ input ∈ inputs, row ∈ input.rows := by
    intro row mem
    have := Merging.mem_flatten_of_mem_merge mem
    grind
  obtain ⟨source, mem⟩ := exists_mem_of_ne_nil sources (by simpa using someSource)
  obtain ⟨taken, inSource⟩ := exists_mem_of_ne_nil source (by grind)
  obtain ⟨row, merged, -⟩ := (@Merging.exists_mem_merge _ _ none _ opts.heap sameKey _ _ le_rfl
    _ (mem_flatten.mpr ⟨source, mem, inSource⟩) fun _ _ _ => rfl).resolve_right (by simp)
  have ranged := @covers_newMeta ver level (mergeRows opts sources) row merged
  refine @Sound.addFile _ level (sound.deleteFiles inputs) _ rfl covers_newMeta fun _ =>
    ⟨UInt64.le_trans ranged.1 ranged.2, fun file listed => apart_newMeta file merged ?_⟩
  obtain ⟨listed, stays⟩ := mem_filter.mp listed
  have notInput : file ∉ inputs := by
    intro mem
    have isLevel := (sound.placed level file listed).1
    grind
  have apart : ∀ input ∈ inputs, input ∈ ver.files level → file.Apart input :=
    fun input mem inLevel =>
      (sound.apart level behind).forall listed inLevel fun same => notInput (same ▸ mem)
  have side : (∀ input ∈ inputs, file.largestEntityId < input.smallestEntityId) ∨
      ∀ input ∈ inputs, input.largestEntityId < file.smallestEntityId := by
    have proper := sound.proper level behind file listed
    have isOutside := outside file listed notInput
    grind [overlaps, Apart]
  refine side.imp (fun behind row mem => ?_) fun before row mem => ?_
  all_goals
    obtain ⟨input, isInput, inRows⟩ := origin row mem
    have := covers input isInput row inRows
    grind

theorem Sound.compactFiles
    (sound : Sound ver.files) (listed : ∀ file ∈ inputs, file ∈ ver.files level)
    (range : level ≠ 0 → ∃ first last, ∀ file ∈ ver.files level,
      file ∈ inputs ↔ file.overlaps first last = true) :
    Sound (ver.compactFiles opts level inputs).files := by
  have covers : ∀ level, ∀ file ∈ ver.files level, file.Covers :=
    fun level file mem => (sound.placed level file mem).2
  rw [LeveledFiles.compactFiles]
  split
  · exact sound
  split
  · apply sound.mergeFiles (Nat.succ_ne_zero level)
    · grind
    · exact forall_mem_append.mpr ⟨fun input mem => Or.inl (inside_hull (mem_map_of_mem mem)),
        fun input mem => Or.inr (mem_filter.mp mem).symm⟩
    · grind
  · have behind : level ≠ 0 := by
      have := opts.twoLevels
      omega
    obtain ⟨first, last, isRange⟩ := range behind
    apply sound.mergeFiles behind
    · exact fun input mem => covers _ input (listed input mem)
    · exact fun input mem => Or.inr ⟨(isRange input (listed input mem)).mp mem, listed input mem⟩
    · grind

theorem Sound.step (sound : Sound ver.files) (call : Call) : Sound (ver.step opts call).files := by
  rcases call with ⟨file, ground, covers⟩ | (level | _) | ⟨level | _, first, last⟩
  · exact sound.addFile ground covers fun behind => absurd rfl behind
  · refine sound.compactFiles (fun file => mem_of_mem_take) fun behind => ?_
    have apart := sound.apart level behind
    have proper := sound.proper level behind
    rw [if_neg behind]
    cases files : ver.files level with
    | nil => simp
    | cons first rest =>
      rw [files] at apart proper
      refine ⟨first.smallestEntityId, first.largestEntityId, ?_⟩
      grind [overlaps, Apart, pairwise_cons]
  · exact sound
  · refine sound.compactFiles (fun file => mem_of_mem_filter) fun _ => ⟨first, last, ?_⟩
    grind
  · exact sound

/-- In every state that the calls can reach, the ranges of the files of a level behind level 0 are
disjoint and contain the entity ids of their files. -/
theorem levels_disjoint (opts : LevelOptions) (calls : List Call) (level : Nat) :
    let reached := Runs.run (LeveledFiles.step opts) empty calls
    (reached.files (level + 1)).Pairwise Apart ∧
      ∀ file ∈ reached.files (level + 1), file.Covers := by
  have sound : Sound (Runs.run (step opts) empty calls).files :=
    foldlRecOn (motive := fun ver : LeveledFiles => Sound ver.files) calls _
      ⟨by simp [empty], by simp [empty], by simp [empty]⟩ fun _ sound call _ => sound.step call
  exact ⟨sound.apart _ (Nat.succ_ne_zero level), fun file mem => (sound.placed _ file mem).2⟩

example :
    let row (id : UInt64) : Row := ⟨.vertex id 0 1 0 0 0 0, ⟨16⟩, 1⟩
    let file (number : Nat) (id : UInt64) : Call :=
      .addFile ⟨number, 0, id, id, [row id]⟩ rfl (by simp [Covers, row, CedarKey.vertex])
    let calls := [file 1 5, file 2 3, .doCompaction 0]
    ((Runs.run (step (.ofLevels 7 (by decide))) empty calls).files 1).map LevelFile.rows =
      [[row 3, row 5]] := by
  decide +kernel

def Call.added : Call → List Row
  | .addFile file _ _ => file.rows
  | _ => []

def Within (all : List Row) (files : Nat → List LevelFile) : Prop :=
  ∀ level, ∀ file ∈ files level, file.rows ⊆ all

theorem Within.mergeFiles {all : List Row} (within : Within all ver.files)
    (listed : ∀ input ∈ inputs, ∃ level, input ∈ ver.files level) :
    Within all (ver.mergeFiles opts level inputs).files := by
  intro other file mem
  by_cases old : file ∈ ver.files other
  · exact within other file old
  rw [LeveledFiles.mergeFiles] at mem
  generalize isSources : (inputs.map rows).filter _ = sources at mem
  have isNew : file = ver.newMeta level (mergeRows opts sources) := by
    simp only [addFile, deleteFiles] at mem
    grind
  rw [isNew]
  intro row merged
  have := Merging.mem_flatten_of_mem_merge merged
  grind [Within]

theorem Within.step {all : List Row} (within : Within all ver.files) {call : Call}
    (added : call.added ⊆ all) : Within all (ver.step opts call).files := by
  have merged (level : Nat) {inputs} (listed : ∀ file ∈ inputs, file ∈ ver.files level) :
      Within all (ver.compactFiles opts level inputs).files := by
    rw [compactFiles]
    grind [Within.mergeFiles]
  rcases call with _ | (level | _) | ⟨level | _, first, last⟩
  · intro level file mem
    simp only [LeveledFiles.step, LeveledFiles.addFile] at mem
    grind [Within, Call.added]
  · exact merged level fun _ => mem_of_mem_take
  · exact within
  · exact merged level fun _ => mem_of_mem_filter
  · exact within

/-- No compaction writes a row that was in no added file. -/
theorem rows_subset_added (opts : LevelOptions) (calls : List Call) (level : Nat) :
    ((Runs.run (LeveledFiles.step opts) empty calls).files level).flatMap LevelFile.rows ⊆
      calls.flatMap Call.added := by
  intro row mem
  obtain ⟨file, listed, inRows⟩ := mem_flatMap.mp mem
  refine foldlRecOn (motive := fun ver : LeveledFiles =>
    Within (calls.flatMap Call.added) ver.files) calls _ ?_ ?_ level file listed inRows
  · simp [Within, empty]
  · exact fun ver within call mem => within.step fun row inRows =>
      mem_flatMap.mpr ⟨call, mem, inRows⟩

end LeveledFiles

end CedarGraph
