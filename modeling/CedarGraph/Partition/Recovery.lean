import CedarGraph.Cdc.Paging
import CedarGraph.Partition.Storage

/-!
# Completing commits from their intents

`RecoverCdcIntents` reads the change log page by page for the records of each intent; when not
all are there, it writes the keys again and appends the whole batch. Then the file is removed.
-/

namespace CedarGraph

open FixedWidth List CdcIntentBatch

namespace CdcIntentBatch

/-- `ReadCdcIntentFile` on what `PersistCdcIntent` has written; the number of records is
stored in 32 bits. -/
def readFile (opts : ChangeLogOptions) (batch : CdcIntentBatch) : Except Status CdcIntentBatch :=
  let recs := batch.records.take (batch.records.length % 2 ^ 32)
  if 1000000 < recs.length then
    .error (.corruption "ReadCdcIntentFile" "invalid record count")
  else if recs.any fun entry => opts.serializedSize entry.2 = 0 ∨
      16 * 1024 * 1024 < opts.serializedSize entry.2 then
    .error (.corruption "ReadCdcIntentFile" "invalid record size")
  else .ok { batch with records := recs }

/-- The record of the log is the one that the intent has at its batch index. -/
def matchesRecord (batch : CdcIntentBatch) (rec : ChangeRecord) : Bool :=
  match batch.records[rec.batchIndex]? with
  | none => false
  | some (_, expected) =>
    rec.txnId = batch.txnId && rec.commitVersion = batch.commitVersion &&
      rec.batchSize = batch.records.length &&
      rec.entityId = expected.entityId && rec.targetId = expected.targetId &&
      rec.entityType = expected.entityType && rec.columnId = expected.columnId &&
      rec.operation = expected.operation && rec.payload = expected.payload

def markPage (batch : CdcIntentBatch) (matched : List Bool) (page : List ChangeRecord) :
    List Bool :=
  page.foldl
    (fun matched rec =>
      if batch.matchesRecord rec then matched.set rec.batchIndex true else matched)
    matched

end CdcIntentBatch

namespace PartitionChangeLog

variable (opts : ChangeLogOptions)

def sizeMax : Nat := 2 ^ 64 - 1

/-- The loop over the pages; every page that is not empty moves the offset forward. -/
def scanPages (log : PartitionChangeLog) (batch : CdcIntentBatch) : Nat → Nat → List Bool → Bool
  | 0, _, _ => false
  | fuel + 1, offset, matched =>
    let page := log.readAfter opts offset 4096 sizeMax
    if page.isEmpty then false
    else
      let marked := batch.markPage matched page
      if !marked.isEmpty && marked.all id then true
      else scanPages log batch fuel (pageEnd offset page) marked

def alreadyPublished (log : PartitionChangeLog) (batch : CdcIntentBatch) : Bool :=
  scanPages opts log batch (log.records.length + 1) 0 (List.replicate batch.records.length false)

variable {opts}

/-- The records of the log fit into a page. -/
def Scannable (opts : ChangeLogOptions) (log : PartitionChangeLog) : Prop :=
  ∀ rec ∈ log.records, opts.serializedSize rec ≤ min sizeMax opts.maxFetchBytes

section Scan

variable {batch : CdcIntentBatch} {log : PartitionChangeLog}

theorem length_markPage (matched : List Bool) (page : List ChangeRecord) :
    (batch.markPage matched page).length = matched.length := by
  induction page generalizing matched with
  | nil => simp [markPage]
  | cons rec rest ih =>
    rw [markPage, foldl_cons, ← markPage, ih]
    by_cases found : batch.matchesRecord rec
    · simp [found]
    · simp [found]

theorem getElem?_markPage
    {matched : List Bool} {page : List ChangeRecord} {index : Nat} (lt : index < matched.length)
    (marked : matched[index]? = some true ∨
      ∃ rec ∈ page, batch.matchesRecord rec = true ∧ rec.batchIndex = index) :
    (batch.markPage matched page)[index]? = some true := by
  induction page generalizing matched with
  | nil => simpa [markPage] using marked
  | cons rec rest ih =>
    rw [markPage, foldl_cons, ← markPage]
    by_cases found : batch.matchesRecord rec
    · rw [if_pos found]
      apply ih
      · simpa using lt
      · by_cases same : rec.batchIndex = index
        · left
          simp [same, lt]
        · rcases marked with before | ⟨other, mem, otherFound, otherIndex⟩
          · left
            rw [getElem?_set_ne same]
            exact before
          · rcases mem_cons.mp mem with rfl | later
            · exact absurd otherIndex same
            · exact Or.inr ⟨other, later, otherFound, otherIndex⟩
    · rw [if_neg found]
      refine ih lt ?_
      rcases marked with before | ⟨other, mem, otherFound, otherIndex⟩
      · exact Or.inl before
      · rcases mem_cons.mp mem with rfl | later
        · exact absurd otherFound found
        · exact Or.inr ⟨other, later, otherFound, otherIndex⟩

/-- The scan ends with success when every index is marked or has its record behind the
offset. -/
theorem scanPages_eq_true (limits : 0 < opts.maxFetchRecords ∧ 0 < opts.maxFetchBytes)
    (scannable : Scannable opts log)
    (ascending : log.records.Pairwise fun prev later => prev.offset < later.offset)
    {fuel offset : Nat} {matched : List Bool} (enough : (log.behind offset).length < fuel)
    (unfinished : ¬ matched.all id = true)
    (present : ∀ index < matched.length, matched[index]? = some true ∨
      ∃ rec ∈ log.behind offset, batch.matchesRecord rec = true ∧ rec.batchIndex = index) :
    scanPages opts log batch fuel offset matched = true := by
  induction fuel generalizing offset matched with
  | zero => omega
  | succ fuel ih =>
    obtain ⟨count, page, _, advances⟩ := @readAfter_eq opts log offset 4096 sizeMax
    have nonempty : log.behind offset ≠ [] := by
      intro empty
      apply unfinished
      rw [all_eq_true]
      intro mark mem
      obtain ⟨index, lt, rfl⟩ := getElem_of_mem mem
      rcases present index lt with before | ⟨rec, inNothing, _⟩
      · simpa [lt] using before
      · rw [empty] at inNothing
        simp at inNothing
    have positive : 0 < count := by
      obtain ⟨first, isFirst⟩ := Option.isSome_iff_exists.mp (isSome_head?.mpr nonempty)
      refine advances (by omega) (by rw [sizeMax]; omega) first isFirst ?_
      exact scannable first (mem_filter.mp (mem_of_mem_head? isFirst)).1
    have pageNonempty : ¬ ((log.behind offset).take count).isEmpty = true := by
      rw [List.isEmpty_iff, take_eq_nil_iff]
      intro none
      rcases none with zero | empty
      · omega
      · exact nonempty empty
    rw [scanPages]
    dsimp only
    rw [page, if_neg pageNonempty]
    split
    · rfl
    · rename_i notAll
      have someMark : (batch.markPage matched ((log.behind offset).take count)).isEmpty =
          false := by
        rw [← Bool.not_eq_true, isEmpty_iff_length_eq_zero, length_markPage]
        intro noMarks
        exact unfinished (by simp [eq_nil_of_length_eq_zero noMarks])
      have stillUnfinished : ¬ (batch.markPage matched
          ((log.behind offset).take count)).all id = true := by
        intro all
        simp [someMark, all] at notAll
      refine ih ?_ stillUnfinished ?_
      · rw [behind_pageEnd ascending, length_drop]
        have length := length_pos_iff.mpr nonempty
        omega
      · intro index lt
        rw [length_markPage] at lt
        rw [behind_pageEnd ascending]
        rcases present index lt with before | ⟨rec, mem, found, sameIndex⟩
        · exact Or.inl (getElem?_markPage lt (Or.inl before))
        · rw [← take_append_drop count (log.behind offset)] at mem
          rcases mem_append.mp mem with inPage | later
          · exact Or.inl (getElem?_markPage lt (Or.inr ⟨rec, inPage, found, sameIndex⟩))
          · exact Or.inr ⟨rec, later, found, sameIndex⟩

theorem alreadyPublished_of_present
    (clean : Clean log) (limits : 0 < opts.maxFetchRecords ∧ 0 < opts.maxFetchBytes)
    (scannable : Scannable opts log) (some_record : batch.records ≠ [])
    (present : ∀ index < batch.records.length, ∃ rec ∈ log.records,
      batch.matchesRecord rec = true ∧ rec.batchIndex = index) :
    log.alreadyPublished opts batch = true := by
  have everything : log.behind 0 = log.records := by
    rw [behind, filter_eq_self]
    intro rec mem
    exact decide_eq_true (clean.bounded rec mem).1
  refine scanPages_eq_true limits scannable clean.ascending ?_ ?_ ?_
  · rw [everything]
    omega
  · simpa using some_record
  · intro index lt
    rw [length_replicate] at lt
    rw [everything]
    exact Or.inr (present index lt)

theorem markPage_of_absent
    {page : List ChangeRecord} (absent : ∀ rec ∈ page, rec.txnId ≠ batch.txnId)
    (matched : List Bool) : batch.markPage matched page = matched := by
  induction page with
  | nil => simp [markPage]
  | cons rec rest ih =>
    obtain ⟨other, later⟩ := forall_mem_cons.mp absent
    have unmatched : batch.matchesRecord rec = false := by
      rw [matchesRecord]
      split
      · rfl
      · simp [other]
    rw [markPage, foldl_cons, unmatched, if_neg (by simp), ← markPage]
    exact ih later

theorem alreadyPublished_of_absent (absent : ∀ rec ∈ log.records, rec.txnId ≠ batch.txnId) :
    log.alreadyPublished opts batch = false := by
  have loop : ∀ fuel offset count, scanPages opts log batch fuel offset
      (replicate count false) = false := by
    intro fuel
    induction fuel with
    | zero => simp [scanPages]
    | succ fuel ih =>
      intro offset count
      have unmarked : batch.markPage (replicate count false)
          (log.readAfter opts offset 4096 sizeMax) = replicate count false := by
        apply markPage_of_absent
        intro rec mem
        exact absent rec (mem_of_mem_readAfter mem)
      rw [scanPages]
      dsimp only
      rw [unmarked]
      split
      · rfl
      · rw [if_neg]
        · exact ih _ count
        · cases count with
          | zero => simp
          | succ count => simp [replicate_succ]
  exact loop _ _ _

end Scan

end PartitionChangeLog

structure RecoverOutcomes where
  puts : Nat → PartitionStorage.PutOutcome
  append : PartitionChangeLog.AppendOutcome
  removed : Bool

namespace PartitionStorage

variable (opts : PartitionOptions)

/-- The write for a record of the intent; the payload is the descriptor. -/
def intentWrite (ver : UInt64) (entry : UInt64 × ChangeRecord) : StorageWrite :=
  ⟨entry.2.entityId, entry.1,
    if 8 ≤ entry.2.payload.length then ⟨UInt64.ofNat (leValue (entry.2.payload.take 8))⟩
    else .default,
    ver⟩

/-- The writes and the publication of an intent whose records are not all in the log. -/
def completeIntent (log : PartitionChangeLog) (batch : CdcIntentBatch)
    (outs : RecoverOutcomes) : List PartitionEffect × Except Status Unit :=
  if log.alreadyPublished opts.changeLog batch || batch.records.isEmpty then ([], .ok ())
  else
    let written := putAll batch.txnId outs.puts 0
      (batch.records.map (intentWrite batch.commitVersion))
    match written.2 with
    | .error status => (written.1, .error status)
    | .ok () =>
      let appended := log.appendCommittedBatch opts.changeLog batch.commitVersion
        (batch.records.map Prod.snd) outs.append
      (written.1 ++ appended.1.map .changeLog, appended.2)

def recoverIntent (part : PartitionStorage) (intent : CdcIntentBatch)
    (outs : RecoverOutcomes) : List PartitionEffect × Except Status Unit :=
  match part.changeLog with
  | none => ([], .ok ())
  | some log =>
    match intent.readFile opts.changeLog with
    | .error status => ([], .error status)
    | .ok batch =>
      let completed := completeIntent opts log batch outs
      match completed.2 with
      | .error status => (completed.1, .error status)
      | .ok () =>
        if outs.removed then (completed.1 ++ [.deleteIntent intent.txnId], .ok ())
        else (completed.1, .error (.ioError "remove recovered CDC intent" ""))

/-- `RecoverCdcIntents` over the files in the order in which the directory lists them. -/
def recoverCdcIntents (part : PartitionStorage) :
    List (CdcIntentBatch × RecoverOutcomes) → List PartitionEffect × Except Status Unit
  | [] => ([], .ok ())
  | (intent, outs) :: rest =>
    let first := part.recoverIntent opts intent outs
    match first.2 with
    | .error status => (first.1, .error status)
    | .ok () =>
      let later := recoverCdcIntents (Runs.run (apply opts) part first.1) rest
      (first.1 ++ later.1, later.2)

end PartitionStorage

end CedarGraph
