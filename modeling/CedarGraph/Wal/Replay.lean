import CedarGraph.Wal.TornTail
import CedarGraph.Wal.Writer
import CedarGraph.Memtable

/-!
# Recovery from the log

`ReplayWAL` reads the log files from a given number on and inserts the operations into the
memtable. `Open` passes 1 as the first number, but the first file of an empty directory has the
number 0.
-/

namespace CedarGraph

open FixedWidth List WalWriteOp VSLMemTable WalWriter GroupCommitRequest Log

/-- What the replay loop does with one operation: types other than `kPut` and
`kDelete` are ignored. -/
def WalWriteOp.replayRow (op : WalWriteOp) : Option Row :=
  match op.type with
  | .put => some ⟨op.key, op.descriptor, op.txnVersion⟩
  | .delete => some ⟨op.key, .default, op.txnVersion⟩
  | _ => none

def VSLMemTable.replayOp (mem : VSLMemTable) (op : WalWriteOp) : VSLMemTable :=
  match op.replayRow with
  | some row => mem.put row
  | none => mem

/-- The batches of a file; damaged records are skipped.  Every read advances by at
least one byte. -/
def replayFile (bytes : Bytes) : List WalBatch :=
  Scan.scan readNextRecord Status.isCorruption (bytes.length + 1) bytes

open WalReader in
/-- Every read that returns a batch or reports damage moves the reader forward. The loop comes to
the end of a file exactly if no record with the right checksum has an operation whose key lies
outside the data. A payload that fails its check is passed over by itself: the bytes behind it
are read as those of a file of their own. -/
theorem replay_progress (reader : WalReader) (file : Bytes) :
    (goesOn reader.readNextRecord.1 →
      reader.currentOffset < reader.readNextRecord.2.currentOffset) ∧
    ((∃ passed, passed.length ≤ file.length ∧ (∀ res ∈ passed, goesOn res) ∧
      (openFile file).readRecords (passed.length + 1) =
        passed ++ [.error (.notFound "WalReader" "end of file")] ∧
      replayFile file = passed.filterMap Except.toOption) ↔
      ∀ record ∈ (openFile file).records file.length, ¬ Overruns record) ∧
    ∀ (header : WalRecordHeader) (payload rest : Bytes) (calls : Nat),
      payload.length = header.dataLength.toNat → crc32c payload ≠ header.crc32 →
      reader.remaining = header.encode ++ payload ++ rest →
      reader.readRecords (calls + 1) =
        .error (.corruption "WalReader" "CRC mismatch") :: (openFile rest).readRecords calls := by
  refine ⟨?_, ?_, ?_⟩
  · intro continues
    rcases reader.readNextRecord_cases with ⟨ends, -⟩ | ⟨_, advance, _, _, more, read, -⟩
    · rw [ends] at continues
      cases continues
    · rw [read]
      exact Nat.lt_add_of_pos_right more
  · rw [← @readRecords_end_iff (openFile file) file.length (Nat.sub_le _ _)]
    refine exists_congr fun passed => and_congr_right fun few => and_congr_right fun continues =>
      and_iff_left_of_imp fun reads => ?_
    rw [readRecords_eq] at reads
    exact Scan.scan_eq_filterMap rfl (fun _ mem => continues _ mem) reads (Nat.lt_succ_of_le few)
  · intro header payload rest calls size differs same
    rw [readRecords_eq, same, Scan.results, readNextRecord_of_crc_ne size differs, readRecords_eq]
    rfl

/-- One record with the right checksum whose only operation announces a key of `0xFFFFFFF0`
bytes: with the 16 bytes behind it the length is 0 in 32 bits. -/
theorem replay_leaves_buffer :
    let data : Bytes := [1, 0, 0, 0, 1, 0xF0, 0xFF, 0xFF, 0xFF]
    let header : WalRecordHeader := ⟨crc32c data, 3, 0, 9, 1⟩
    (WalReader.openFile (header.encode ++ data)).readRecords 1 = [.error .outOfBounds] ∧
      WalReader.goesOn (.error .outOfBounds) = false := by
  intro data header
  have overruns : WalBatch.decode data = .error .outOfBounds := by decide
  have whole : data.take header.dataLength.toNat = data := by decide
  have read : (readNextRecord (header.encode ++ data)).1 = .error .outOfBounds := by
    rw [readNextRecord, if_neg (by simp), take_left' header.length_encode,
      WalRecordHeader.decode_encode, drop_left' header.length_encode]
    dsimp only
    rw [if_neg (by decide), whole, if_neg (not_not.mpr rfl), overruns]
  rw [WalReader.readRecords_eq]
  exact ⟨congrArg (fun res => [res]) read, rfl⟩

variable (directory : WalDirectory)

namespace WalDirectory

def contents (number : Nat) : Bytes :=
  ((directory.find? fun file => decide (file.1.toNat = number)).map Prod.snd).getD []

/-- The file numbers that a replay from `startSequence` reads, in ascending order. -/
def replayNumbers (startSequence : Nat) : List Nat :=
  ((directory.map fun file => file.1.toNat).filter fun number =>
    decide (startSequence ≤ number)).insertionSort (· ≤ ·)

def replayWAL (startSequence : Nat) (mem : VSLMemTable) : VSLMemTable :=
  (directory.replayNumbers startSequence).foldl
    (fun mem number =>
      (replayFile (directory.contents number)).foldl
        (fun mem batch => batch.foldl replayOp mem) mem)
    mem

end WalDirectory

/-- The header stores the length in 32 bits. -/
def GroupCommitRequest.Intact (req : GroupCommitRequest) : Prop :=
  (∀ op ∈ req.batch, op.Named) ∧ req.batch.encode.length < 2 ^ 32

theorem replayFile_encode {requests : List GroupCommitRequest}
    (intact : ∀ req ∈ requests, req.Intact) :
    replayFile (requests.flatMap GroupCommitRequest.encode) =
      requests.map GroupCommitRequest.batch := by
  have wide : ∀ req : GroupCommitRequest, 1 ≤ req.encode.length := by
    intro req
    rw [GroupCommitRequest.encode, length_encodeRecord]
    omega
  have enough := Scan.length_mul_le_length_flatMap wide requests
  have ends : readNextRecord [] = (.error (.notFound "WalReader" "end of file"), []) := rfl
  refine Scan.scan_frames ends rfl ?_ (by omega)
  intro req member rest
  have ok := intact req member
  exact readNextRecord_encodeRecord req.sequence ok.1 ok.2 rest

section Files

variable {chunks : List (List GroupCommitRequest)}

private theorem filter_range (start count : Nat) :
    (List.range count).filter (fun number => decide (start ≤ number)) =
      (List.range count).drop start := by
  induction count with
  | zero => simp
  | succ count ih =>
    rw [range_succ, filter_append, ih, drop_append, length_range]
    by_cases reached : start ≤ count
    · simp [reached]
    · have beyond : start - count = (start - count - 1) + 1 := by omega
      rw [beyond]
      simp [reached]

section

variable (bound : chunks.length ≤ 2 ^ 32)
include bound

private theorem number_getElem {index : Nat} (lt : index < chunks.length) :
    (UInt32.ofNat index).toNat = index := by
  rw [UInt32.toNat_ofNat', Nat.mod_eq_of_lt (by omega)]

theorem replayNumbers_files (start : Nat) :
    (Log.files chunks).replayNumbers start = (List.range chunks.length).drop start := by
  have numbers : (files chunks).map (fun file => file.1.toNat) = range chunks.length := by
    apply ext_getElem
    · simp [files]
    · intro index lt _
      have insideChunks : index < chunks.length := by simpa [files] using lt
      have number := number_getElem bound insideChunks
      simpa [files] using number
  have sorted : ((range chunks.length).drop start).Pairwise (· ≤ ·) :=
    (pairwise_lt_range.imp Nat.le_of_lt).sublist (drop_sublist start _)
  rw [WalDirectory.replayNumbers, numbers, filter_range]
  exact sorted.insertionSort_eq

theorem contents_files {index : Nat} (lt : index < chunks.length) :
    (Log.files chunks).contents index = (chunks[index]).flatMap GroupCommitRequest.encode := by
  have insideFiles : index < (files chunks).length := by simpa [files] using lt
  have here : (files chunks)[index] =
      (UInt32.ofNat index, (chunks[index]).flatMap GroupCommitRequest.encode) := by
    simp [files]
  have present : ((files chunks).find? fun file => decide (file.1.toNat = index)).isSome := by
    rw [find?_isSome]
    refine ⟨(files chunks)[index], getElem_mem insideFiles, ?_⟩
    rw [here]
    exact decide_eq_true (number_getElem bound lt)
  obtain ⟨file, found⟩ := Option.isSome_iff_exists.mp present
  obtain ⟨pos, positionInside, same⟩ := getElem_of_mem (mem_of_find?_eq_some found)
  have positionChunks : pos < chunks.length := by simpa [files] using positionInside
  have samePosition : pos = index := by
    have number : file.1.toNat = index := by simpa using find?_some found
    have ofPosition := number_getElem bound positionChunks
    rw [← same] at number
    simp only [files, getElem_map, getElem_zipIdx, Nat.zero_add] at number
    omega
  subst samePosition
  rw [WalDirectory.contents, found, ← same, here]
  rfl

theorem replayWAL_files
    (intact : ∀ req ∈ chunks.flatten, req.Intact) (start : Nat) (mem : VSLMemTable) :
    (Log.files chunks).replayWAL start mem =
      ((chunks.drop start).flatten.flatMap GroupCommitRequest.batch).foldl replayOp mem := by
  have files : (((range chunks.length).drop start).map fun number =>
      replayFile ((Log.files chunks).contents number)) =
      (chunks.drop start).map fun chunk => chunk.map batch := by
    rw [map_drop, map_drop]
    congr 1
    apply ext_getElem
    · simp
    · intro index lt _
      have insideChunks : index < chunks.length := by simpa using lt
      have chunkIntact : ∀ req ∈ chunks[index], req.Intact := by
        intro req member
        exact intact req (mem_flatten.mpr ⟨chunks[index], getElem_mem insideChunks, member⟩)
      rw [getElem_map, getElem_map, getElem_range,
        contents_files bound insideChunks, replayFile_encode chunkIntact]
  have loop : ∀ (batches : List (List WalBatch)) (mem : VSLMemTable),
      batches.foldl (fun mem file => file.foldl
        (fun mem batch => batch.foldl replayOp mem) mem) mem =
      batches.flatten.flatten.foldl replayOp mem := by
    intro batches mem
    rw [foldl_flatten, foldl_flatten]
  rw [WalDirectory.replayWAL, replayNumbers_files bound, ← foldl_map (f := fun number =>
    replayFile ((Log.files chunks).contents number)), files, loop, ← map_flatten]
  rfl

end

end Files

theorem foldl_replayOp_perm (ops : List WalWriteOp) (mem : VSLMemTable) :
    ((ops.foldl replayOp mem).nodes.map LFNode.row).Perm
      (mem.nodes.map LFNode.row ++ ops.filterMap replayRow) := by
  have loop : ops.foldl replayOp mem = (ops.filterMap replayRow).foldl put mem := by
    rw [foldl_filterMap]
    apply foldl_ext
    intro cur op _
    rw [replayOp]
    cases op.replayRow with
    | none => rfl
    | some row => rfl
  rw [loop]
  exact foldl_put_perm _ _

inductive WriteCall where
  | put (row : Row)
  | delete (key : CedarKey) (txnVersion : UInt64)
  | writeBatch (rows : List Row)

namespace WriteCall

def putOp (row : Row) : WalWriteOp :=
  ⟨.put, row.key, row.descriptor, row.txnVersion⟩

/-- The batch that is logged before the memtable is changed. -/
def batch : WriteCall → WalBatch
  | .put row => [putOp row]
  | .delete key txnVersion => [⟨.delete, key, .tombstone 0, txnVersion⟩]
  | .writeBatch rows => rows.map putOp

def rows : WriteCall → List Row
  | .put row => [row]
  | .delete key txnVersion => [⟨key, .default, txnVersion⟩]
  | .writeBatch rows => rows

theorem named_batch (call : WriteCall) : ∀ op ∈ call.batch, op.Named := by
  cases call with
  | put row =>
    intro op member
    rw [mem_singleton.mp member]
    rfl
  | delete key txnVersion =>
    intro op member
    rw [mem_singleton.mp member]
    rfl
  | writeBatch rows =>
    intro op member
    rcases mem_map.mp member with ⟨row, -, rfl⟩
    rfl

theorem filterMap_replayRow (call : WriteCall) : call.batch.filterMap replayRow = call.rows := by
  cases call with
  | put row => rfl
  | delete key txnVersion => rfl
  | writeBatch rows =>
    have identity : replayRow ∘ putOp = some := by
      funext row
      rfl
    rw [batch, filterMap_map, identity, filterMap_some]
    rfl

end WriteCall

/-- Calls whose records are committed together, each with the sequence number of
its header. -/
structure CallGroup where
  calls : List (Nat × WriteCall)
  outcomes : GroupOutcomes

namespace CallGroup

/-- An empty batch returns before anything is logged. -/
def requests (group : CallGroup) : List GroupCommitRequest :=
  (group.calls.map fun call => ⟨call.1, call.2.batch⟩).filter
    fun req : GroupCommitRequest => !req.batch.isEmpty

def rows (group : CallGroup) : List Row :=
  group.calls.flatMap fun call => call.2.rows

end CallGroup

/-- The log after groups of calls all of which returned OK. -/
def writeGroups (opts : WalOptions) : WalWriter → List CallGroup → Option WalWriter
  | writer, [] => some writer
  | writer, group :: rest =>
    match writer.processGroupCommit opts group.outcomes group.requests with
    | (next, .ok ()) => writeGroups opts next rest
    | (_, .error _) => none

/-- `Open` after a crash: a writer is opened before the log is replayed from file 1
into an empty memtable. -/
def recover : VSLMemTable :=
  (openLog directory).directory.replayWAL 1 .empty

variable {groups : List CallGroup}

theorem represents_writeGroups {opts : WalOptions} {writer final : WalWriter} {log : Log}
    (repr : writer.Represents log)
    (bound : log.closed.length + (groups.flatMap CallGroup.requests).length + 1 < 2 ^ 32)
    (writtenOut : ∀ group ∈ groups, ∀ pos, group.outcomes.closed pos = none)
    (acknowledged : writeGroups opts writer groups = some final) :
    final.Represents (log.addAll opts (groups.flatMap CallGroup.requests)) := by
  induction groups generalizing writer log with
  | nil =>
    injection acknowledged with same
    rw [← same]
    exact repr
  | cons group rest ih =>
    rw [flatMap_cons, length_append] at bound
    rw [writeGroups] at acknowledged
    split at acknowledged
    · rename_i next committed
      have nextRepresents := repr.processGroupCommit (by omega)
        (writtenOut group mem_cons_self) committed
      have lengths := length_closed_addAll opts log group.requests
      have res := ih nextRepresents (by omega)
        (fun other member => writtenOut other (mem_cons_of_mem _ member)) acknowledged
      rw [flatMap_cons, addAll, foldl_append]
      exact res
    · cases acknowledged

theorem filterMap_replayRow_requests (groups : List CallGroup) :
    ((groups.flatMap CallGroup.requests).flatMap GroupCommitRequest.batch).filterMap
      replayRow = groups.flatMap CallGroup.rows := by
  induction groups with
  | nil => rfl
  | cons group rest ih =>
    have single : (group.requests.flatMap batch).filterMap replayRow = group.rows := by
      rw [CallGroup.requests, CallGroup.rows]
      induction group.calls with
      | nil => rfl
      | cons call tail tailHypothesis =>
        rw [map_cons, filter_cons, flatMap_cons, ← WriteCall.filterMap_replayRow, ← tailHypothesis]
        by_cases nothing : call.2.batch = []
        · simp [nothing]
        · have kept : (!call.2.batch.isEmpty) = true := by simpa using nothing
          rw [if_pos kept, flatMap_cons, filterMap_append]
    rw [flatMap_cons, flatMap_append, filterMap_append, single, ih, flatMap_cons]

theorem call_of_request
    {req : GroupCommitRequest} (member : req ∈ groups.flatMap CallGroup.requests) :
    req.batch ≠ [] ∧ ∃ group ∈ groups, ∃ call ∈ group.calls, req.batch = call.2.batch := by
  rcases mem_flatMap.mp member with ⟨group, groupMember, inGroup⟩
  rcases mem_filter.mp inGroup with ⟨isCall, kept⟩
  rcases mem_map.mp isCall with ⟨call, callMember, rfl⟩
  refine ⟨?_, group, groupMember, call, callMember, rfl⟩
  simpa using kept

theorem length_requests_le (groups : List CallGroup) :
    (groups.flatMap CallGroup.requests).length ≤ (groups.flatMap CallGroup.calls).length := by
  induction groups with
  | nil => exact le_rfl
  | cons group rest ih =>
    have single : group.requests.length ≤ group.calls.length := by
      rw [CallGroup.requests]
      exact (length_filter_le _ _).trans (length_map _).le
    rw [flatMap_cons, flatMap_cons, length_append, length_append]
    exact Nat.add_le_add single ih

/-- The operations that a batch's replay inserts; every logged request inserts some. -/
def replayedRows (requests : List GroupCommitRequest) : List Row :=
  (requests.flatMap GroupCommitRequest.batch).filterMap replayRow

theorem replayedRows_eq_nil {requests : List GroupCommitRequest}
    (logged : ∀ req ∈ requests, req ∈ groups.flatMap CallGroup.requests)
    (nothing : replayedRows requests = []) : requests = [] := by
  cases requests with
  | nil => rfl
  | cons head tail =>
    obtain ⟨someOps, group, -, call, -, sameBatch⟩ :=
      call_of_request (logged head mem_cons_self)
    rw [replayedRows, flatMap_cons, filterMap_append, append_eq_nil_iff,
      sameBatch, WriteCall.filterMap_replayRow] at nothing
    rw [sameBatch] at someOps
    have noRows := nothing.1
    cases call with
    | mk sequence call =>
      cases call with
      | put row => cases noRows
      | delete key txnVersion => cases noRows
      | writeBatch rows =>
        have noBatch : (WriteCall.writeBatch rows).batch = [] := by
          rw [WriteCall.batch, show rows = [] from noRows]
          rfl
        exact absurd noBatch someOps

theorem recover_perm {writer : WalWriter} {log : Log} (repr : writer.Represents log)
    (bound : log.chunks.length < 2 ^ 32) (intact : ∀ req ∈ log.chunks.flatten, req.Intact) :
    ((recover writer.directory).nodes.map LFNode.row).Perm
      (replayedRows (log.chunks.drop 1).flatten) := by
  have allIntact : ∀ req ∈ (log.chunks ++ [[]]).flatten, req.Intact := by
    simpa using intact
  have longer : (log.chunks ++ [[]]).length ≤ 2 ^ 32 := by
    rw [length_append, length_singleton]
    omega
  have someFile : 1 ≤ log.chunks.length := by
    rw [chunks, length_append, length_singleton]
    omega
  have noNewRows : ((log.chunks ++ [[]]).drop 1).flatten = (log.chunks.drop 1).flatten := by
    rw [drop_append_of_le_length someFile]
    simp
  rw [recover, repr.directory, directory_openLog bound, replayWAL_files longer allIntact, noNewRows]
  exact foldl_replayOp_perm _ _

/-- After calls that all returned OK, with the old log files written out, and a crash, every
operation is back in the memtable exactly when the first record was too large for the first
log file. -/
theorem recover_complete_iff (opts : WalOptions) (groups : List CallGroup) (final : WalWriter)
    (acknowledged : writeGroups opts (openLog []) groups = some final)
    (writtenOut : ∀ group ∈ groups, ∀ pos, group.outcomes.closed pos = none)
    (fits : ∀ group ∈ groups, ∀ call ∈ group.calls, call.2.batch.encode.length < 2 ^ 32)
    (fewCalls : (groups.flatMap CallGroup.calls).length < 2 ^ 32 - 1) :
    (groups.flatMap CallGroup.rows).Subperm ((recover final.directory).nodes.map LFNode.row) ↔
      ∀ req ∈ (groups.flatMap CallGroup.requests).head?, opts.maxFileSize < req.encode.length := by
  have fewRequests := length_requests_le groups
  have repr := represents_writeGroups represents_openLog
    (by simp only [Log.empty, length_nil]; omega) writtenOut acknowledged
  rw [← head_chunks_eq_nil_iff]
  have lengths := length_closed_addAll opts empty (groups.flatMap CallGroup.requests)
  have flattened := flatten_chunks_addAll opts empty (groups.flatMap CallGroup.requests)
  have logged : (empty.addAll opts (groups.flatMap CallGroup.requests)).chunks.flatten =
      groups.flatMap CallGroup.requests := flattened
  generalize empty.addAll opts (groups.flatMap CallGroup.requests) = log at *
  have bound : log.chunks.length < 2 ^ 32 := by
    rw [chunks, length_append, length_singleton]
    simp only [Log.empty, length_nil] at lengths
    omega
  have intact : ∀ req ∈ log.chunks.flatten, req.Intact := by
    intro req member
    rw [logged] at member
    obtain ⟨-, group, groupMember, call, callMember, sameBatch⟩ := call_of_request member
    rw [GroupCommitRequest.Intact, sameBatch]
    exact ⟨call.2.named_batch, fits group groupMember call callMember⟩
  have recovered := recover_perm repr bound intact
  have allRows : groups.flatMap CallGroup.rows = replayedRows log.chunks.flatten := by
    rw [logged]
    exact (filterMap_replayRow_requests groups).symm
  rw [recovered.subperm_left, allRows]
  have someFile : log.chunks ≠ [] := by simp [chunks]
  obtain ⟨first, others, split⟩ := exists_cons_of_ne_nil someFile
  have parts : replayedRows log.chunks.flatten =
      replayedRows first ++ replayedRows others.flatten := by
    rw [split, flatten_cons, replayedRows, flatMap_append, filterMap_append]
    rfl
  rw [parts, split, head?_cons, drop_one, tail_cons]
  constructor
  · intro complete
    have shorter := complete.length_le
    rw [length_append] at shorter
    have noRows : replayedRows first = [] := eq_nil_of_length_eq_zero (by omega)
    have firstLogged : ∀ req ∈ first, req ∈ groups.flatMap CallGroup.requests := by
      intro req member
      rw [← logged, split, flatten_cons]
      exact mem_append_left _ member
    rw [replayedRows_eq_nil firstLogged noRows]
  · intro isEmpty
    injection isEmpty with noRequests
    rw [noRequests]
    exact List.Subperm.refl _

theorem recover_complete_iff_single_put :
    let row : Row := ⟨.vertex 1 0 10 0 0 0 0, ⟨16⟩, 7⟩
    let groups : List CallGroup := [⟨[(1, .put row)], .success⟩]
    ∃ final, writeGroups .default (openLog []) groups = some final ∧
      ((groups.flatMap CallGroup.rows).Subperm ((recover final.directory).nodes.map LFNode.row) ↔
        ∀ req ∈ (groups.flatMap CallGroup.requests).head?,
          WalOptions.default.maxFileSize < req.encode.length) := by
  intro row groups
  refine ⟨_, rfl, recover_complete_iff .default groups _ rfl ?_ ?_ (by decide)⟩
  · intro group groupMember pos
    rw [mem_singleton.mp groupMember]
    rfl
  · intro group groupMember call callMember
    rw [mem_singleton.mp groupMember] at callMember
    rw [mem_singleton.mp callMember]
    simp [WriteCall.batch]

/-- One acknowledged put in an empty directory is not recovered: it is in file 0. -/
theorem recover_skips_first_file :
    let row : Row := ⟨.vertex 1 0 10 0 0 0 0, ⟨16⟩, 7⟩
    let groups : List CallGroup := [⟨[(1, .put row)], .success⟩]
    (writeGroups .default (openLog []) groups).map
        (fun final => (recover final.directory).nodes) = some [] ∧
      groups.flatMap CallGroup.rows = [row] := by
  decide

end CedarGraph
