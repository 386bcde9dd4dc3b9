import CedarGraph.Wal.Record

/-!
# The log writer

`WalWriter` appends records to numbered files and starts a new file before a record that would
exceed the size limit. The buffer of a group is appended when a file is switched and at the end.
`Log` is the requests in order, cut into files by size alone; a group that reports success
extends it by its requests.
-/

namespace CedarGraph

open FixedWidth List

abbrev WalDirectory := List (UInt32 × Bytes)

namespace WalDirectory

/-- `NewWritableFile`: an existing file of that name is truncated. -/
def create (directory : WalDirectory) (number : UInt32) : WalDirectory :=
  directory.filter (fun file => decide (file.1 ≠ number)) ++ [(number, [])]

def append (directory : WalDirectory) (number : UInt32) (data : Bytes) : WalDirectory :=
  directory.map fun file => if file.1 = number then (file.1, file.2 ++ data) else file

def dropEnd (directory : WalDirectory) (number : UInt32) (count : Nat) : WalDirectory :=
  directory.map fun file =>
    if file.1 = number then (file.1, file.2.take (file.2.length - count)) else file

end WalDirectory

structure WalOptions where
  maxFileSize : Nat

def WalOptions.default : WalOptions :=
  ⟨64 * 1024 * 1024⟩

/-- The files are as they will be once written out; the last `buffered` bytes of the current
one are still in the buffer of its `PosixWritableFile`. -/
structure WalWriter where
  directory : WalDirectory
  currentFile : Option UInt32
  currentFileSize : Nat
  buffered : Nat
  fileNumber : UInt32

/-- A queued batch; its header carries a number of the counter that queueing threads
share. -/
structure GroupCommitRequest where
  sequence : Nat
  batch : WalBatch

open GroupCommitRequest

def GroupCommitRequest.encode (req : GroupCommitRequest) : Bytes :=
  encodeRecord req.sequence req.batch

/-- Outcomes of the file operations of a group: for the request at each position the append
of the pending records, the sync of the old file and the creation of a new one, and at the end
the last append, whether a sync is due, and the sync.  A write or sync that fails does so after
some bytes have been written; `none` stands for success. -/
structure GroupOutcomes where
  flushed : Nat → Option Nat
  closed : Nat → Option Nat
  created : Nat → Bool
  appended : Option Nat
  due : Bool
  synced : Option Nat

def GroupOutcomes.success : GroupOutcomes :=
  ⟨fun _ => none, fun _ => none, fun _ => true, none, true, none⟩

/-- No file operation of the group fails. -/
structure GroupOutcomes.Succeeds (outs : GroupOutcomes) : Prop where
  flushed : ∀ pos, outs.flushed pos = none
  closed : ∀ pos, outs.closed pos = none
  created : ∀ pos, outs.created pos = true
  appended : outs.appended = none
  synced : outs.synced = none

theorem GroupOutcomes.succeeds_success : GroupOutcomes.success.Succeeds :=
  ⟨fun _ => rfl, fun _ => rfl, fun _ => rfl, rfl, rfl⟩

namespace WalWriter

/-- A write of `data` and of what is buffered that fails after `kept` bytes: the buffer is
emptied all the same, so that the other bytes are lost. -/
def failedWrite (writer : WalWriter) (data : Bytes) (kept : Nat) : WalWriter :=
  match writer.currentFile with
  | none => writer
  | some number =>
    { writer with
      directory := (writer.directory.append number data).dropEnd number
        (writer.buffered + data.length - kept)
      buffered := 0 }

/-- `SwitchWALFile`: a failing sync of the old file is only warned about; without a new file
the writer has no current file. -/
def switchWALFile (writer : WalWriter) (closed : Option Nat) (created : Bool) : WalWriter :=
  let old := match closed with
    | none => writer
    | some kept => writer.failedWrite [] kept
  if created then
    { directory := old.directory.create old.fileNumber
      currentFile := some old.fileNumber
      currentFileSize := 0
      buffered := 0
      fileNumber := old.fileNumber + 1 }
  else { old with currentFile := none, buffered := 0 }

/-- `Open` on a directory that can be listed and written: the first file gets the
number after the largest one present. -/
def openLog (directory : WalDirectory) : WalWriter :=
  let next := directory.foldl
    (fun number file => if number ≤ file.1 then file.1 + 1 else number) (0 : UInt32)
  switchWALFile ⟨directory, none, 0, 0, next⟩ none true

/-- What `PosixWritableFile::Append` of `size` bytes leaves in the buffer of 64 KB. -/
def bufferedAfter (buffered size : Nat) : Nat :=
  if buffered + size ≤ 65536 then buffered + size
  else if buffered + size - 65536 < 65536 then buffered + size - 65536 else 0

def appendTo (writer : WalWriter) (number : UInt32) (data : Bytes) : WalWriter :=
  { writer with
    directory := writer.directory.append number data
    currentFileSize := writer.currentFileSize + data.length
    buffered := bufferedAfter writer.buffered data.length }

/-- The buffer is appended when there is both something in it and a file. -/
def flushBuffer (writer : WalWriter) (coalesced : Bytes) : WalWriter × Bytes :=
  match writer.currentFile with
  | none => (writer, coalesced)
  | some number =>
    if coalesced.isEmpty then (writer, coalesced) else (writer.appendTo number coalesced, [])

/-- The outcome of an append of the buffer, which is attempted only if there is something to
append and a file. -/
def attempt (writer : WalWriter) (coalesced : Bytes) (outcome : Option Nat) : Option Nat :=
  if writer.currentFile.isSome && !coalesced.isEmpty then outcome else none

/-- The loop over the requests of a group, from the request at `position` on, with
the buffer `coalesced`. -/
def groupLoop (opts : WalOptions) (outs : GroupOutcomes) :
    Nat → WalWriter → Bytes → List GroupCommitRequest → WalWriter × Except Status Bytes
  | _, writer, coalesced, [] => (writer, .ok coalesced)
  | pos, writer, coalesced, req :: rest =>
    let record := req.encode
    if opts.maxFileSize < writer.currentFileSize + coalesced.length + record.length then
      match writer.attempt coalesced (outs.flushed pos) with
      | some kept => (writer.failedWrite coalesced kept, .error (.ioError "WalWriter" "append"))
      | none =>
        let flushed := writer.flushBuffer coalesced
        let switched := flushed.1.switchWALFile (outs.closed pos) (outs.created pos)
        if outs.created pos then
          groupLoop opts outs (pos + 1) switched (flushed.2 ++ record) rest
        else (switched, .error (.ioError "WalWriter" "new file"))
    else groupLoop opts outs (pos + 1) writer (coalesced ++ record) rest

/-- `ProcessGroupCommit`: the status that every request of the group receives. -/
def processGroupCommit (opts : WalOptions) (outs : GroupOutcomes)
    (writer : WalWriter) (reqs : List GroupCommitRequest) : WalWriter × Except Status Unit :=
  if reqs.isEmpty then (writer, .ok ())
  else
    match groupLoop opts outs 0 writer [] reqs with
    | (looped, .error status) => (looped, .error status)
    | (looped, .ok coalesced) =>
      match looped.attempt coalesced outs.appended with
      | some kept => (looped.failedWrite coalesced kept, .error (.ioError "WalWriter" "append"))
      | none =>
        let written := (looped.flushBuffer coalesced).1
        if looped.currentFile.isSome && outs.due then
          match outs.synced with
          | some kept => (written.failedWrite [] kept, .error (.ioError "WalWriter" "sync"))
          | none => ({ written with buffered := 0 }, .ok ())
        else (written, .ok ())

end WalWriter

/-- The requests of the finished files and of the current one. -/
structure Log where
  closed : List (List GroupCommitRequest)
  current : List GroupCommitRequest

open Log

namespace Log

def empty : Log := ⟨[], []⟩

def size (reqs : List GroupCommitRequest) : Nat :=
  (reqs.flatMap encode).length

def chunks (log : Log) : List (List GroupCommitRequest) :=
  log.closed ++ [log.current]

def add (opts : WalOptions) (log : Log) (req : GroupCommitRequest) : Log :=
  if opts.maxFileSize < size log.current + req.encode.length then
    ⟨log.closed ++ [log.current], [req]⟩
  else ⟨log.closed, log.current ++ [req]⟩

def addAll (opts : WalOptions) (log : Log) (reqs : List GroupCommitRequest) : Log :=
  reqs.foldl (add opts) log

section

variable (opts : WalOptions)
include opts

theorem flatten_chunks_addAll (log : Log) (reqs : List GroupCommitRequest) :
    (log.addAll opts reqs).chunks.flatten = log.chunks.flatten ++ reqs := by
  induction reqs generalizing log with
  | nil => simp [addAll]
  | cons head tail ih =>
    have one : (log.add opts head).chunks.flatten = log.chunks.flatten ++ [head] := by
      rw [add]
      split
      · simp [chunks]
      · simp [chunks]
    have rest := ih (log.add opts head)
    rw [one, append_assoc] at rest
    exact rest

theorem length_closed_addAll (log : Log) (reqs : List GroupCommitRequest) :
    (log.addAll opts reqs).closed.length ≤ log.closed.length + reqs.length := by
  induction reqs generalizing log with
  | nil => simp [addAll]
  | cons head tail ih =>
    have one : (log.add opts head).closed.length ≤ log.closed.length + 1 := by
      rw [add]
      split
      · simp
      · simp
    have rest := ih (log.add opts head)
    rw [length_cons]
    exact rest.trans (by omega)

theorem head_chunks_addAll_of_closed {log : Log} {first : List GroupCommitRequest}
    (isClosed : log.closed.head? = some first) (reqs : List GroupCommitRequest) :
    (log.addAll opts reqs).chunks.head? = some first := by
  induction reqs generalizing log with
  | nil =>
    rw [addAll, foldl_nil, chunks, head?_append, isClosed]
    rfl
  | cons head tail ih =>
    have stillClosed : (log.add opts head).closed.head? = some first := by
      rw [add]
      split
      · rw [head?_append, isClosed]
        rfl
      · exact isClosed
    exact ih stillClosed

theorem head_chunks_addAll_of_open (cur reqs : List GroupCommitRequest) :
    ∃ extra, (addAll opts ⟨[], cur⟩ reqs).chunks.head? = some (cur ++ extra) := by
  induction reqs generalizing cur with
  | nil => exact ⟨[], by simp [addAll, chunks]⟩
  | cons head tail ih =>
    rw [addAll, foldl_cons, add]
    split
    · refine ⟨[], ?_⟩
      rw [append_nil]
      exact head_chunks_addAll_of_closed opts rfl tail
    · obtain ⟨extra, same⟩ := ih (cur ++ [head])
      refine ⟨[head] ++ extra, ?_⟩
      rw [← append_assoc]
      exact same

/-- The first file stays empty exactly when the first record is too large for it. -/
theorem head_chunks_eq_nil_iff (reqs : List GroupCommitRequest) :
    (empty.addAll opts reqs).chunks.head? = some [] ↔
      ∀ req ∈ reqs.head?, opts.maxFileSize < req.encode.length := by
  cases reqs with
  | nil => simp [addAll, empty, chunks]
  | cons head tail =>
    have emptySize : size empty.current = 0 := rfl
    rw [addAll, foldl_cons, add, emptySize, Nat.zero_add]
    by_cases large : opts.maxFileSize < head.encode.length
    · rw [if_pos large]
      have stays := head_chunks_addAll_of_closed opts
        (rfl : (mk [[]] [head]).closed.head? = some []) tail
      refine iff_of_true stays ?_
      intro req isHead
      cases isHead
      exact large
    · rw [if_neg large]
      obtain ⟨extra, same⟩ := head_chunks_addAll_of_open opts [head] tail
      refine iff_of_false ?_ ?_
      · intro isEmpty
        rw [show empty.closed = [] from rfl, show empty.current ++ [head] = [head] from rfl]
          at isEmpty
        rw [addAll] at same
        rw [same] at isEmpty
        cases isEmpty
      · intro allLarge
        exact large (allLarge head rfl)

end

end Log

/-- The files that hold the given requests, numbered from 0. -/
def Log.files (chunks : List (List GroupCommitRequest)) : WalDirectory :=
  chunks.zipIdx.map fun chunk =>
    (UInt32.ofNat chunk.2, chunk.1.flatMap encode)

namespace WalWriter

structure Represents (writer : WalWriter) (log : Log) : Prop where
  directory : writer.directory = files log.chunks
  currentFile : writer.currentFile = some (UInt32.ofNat log.closed.length)
  currentFileSize : writer.currentFileSize = size log.current
  fileNumber : writer.fileNumber = UInt32.ofNat (log.closed.length + 1)

theorem files_concat (closed : List (List GroupCommitRequest)) (cur : List GroupCommitRequest) :
    files (closed ++ [cur]) = files closed ++
      [(UInt32.ofNat closed.length, cur.flatMap encode)] := by
  rw [files, files, zipIdx_append, map_append]
  simp

private theorem number_ne {closed : List (List GroupCommitRequest)} (bound : closed.length < 2 ^ 32)
    {file : UInt32 × Bytes} (mem : file ∈ files closed) : file.1 ≠ UInt32.ofNat closed.length := by
  rcases mem_map.mp mem with ⟨chunk, chunkMember, rfl⟩
  have lt : chunk.2 < closed.length := by
    have pos := mem_zipIdx chunkMember
    omega
  intro same
  have sameNat := congrArg UInt32.toNat same
  rw [UInt32.toNat_ofNat', UInt32.toNat_ofNat', Nat.mod_eq_of_lt (by omega),
    Nat.mod_eq_of_lt bound] at sameNat
  omega

variable {writer : WalWriter} {opts : WalOptions} {outs : GroupOutcomes}

theorem Represents.appendTo {closed : List (List GroupCommitRequest)}
    {written : List GroupCommitRequest} (repr : writer.Represents ⟨closed, written⟩)
    (bound : closed.length < 2 ^ 32) (pending : List GroupCommitRequest) :
    (writer.appendTo (UInt32.ofNat closed.length)
      (pending.flatMap encode)).Represents ⟨closed, written ++ pending⟩ := by
  have earlierFiles : (files closed).map (fun file =>
      if file.1 = UInt32.ofNat closed.length then
        (file.1, file.2 ++ pending.flatMap encode) else file) =
      files closed := by
    refine (map_congr_left ?_).trans (map_id _)
    intro file mem
    rw [if_neg (number_ne bound mem), id]
  constructor
  · rw [WalWriter.appendTo, WalDirectory.append]
    dsimp only
    rw [repr.directory, chunks, chunks, files_concat, files_concat, map_append, earlierFiles]
    simp
  · exact repr.currentFile
  · rw [WalWriter.appendTo]
    dsimp only
    rw [repr.currentFileSize, size, size, flatMap_append, length_append]
  · exact repr.fileNumber

theorem create_files {chunks : List (List GroupCommitRequest)} (bound : chunks.length < 2 ^ 32) :
    (files chunks).create (UInt32.ofNat chunks.length) = files (chunks ++ [[]]) := by
  have allKept : (files chunks).filter
      (fun file => decide (file.1 ≠ UInt32.ofNat chunks.length)) = files chunks := by
    refine filter_eq_self.mpr ?_
    intro file mem
    exact decide_eq_true (number_ne bound mem)
  rw [WalDirectory.create, allKept, files_concat]
  rfl

theorem Represents.switchWALFile
    {log : Log} (repr : writer.Represents log) (bound : log.closed.length + 1 < 2 ^ 32) :
    (writer.switchWALFile none true).Represents ⟨log.closed ++ [log.current], []⟩ := by
  have shorter : log.chunks.length < 2 ^ 32 := by
    rw [chunks, length_append, length_singleton]
    exact bound
  have sameNumber : writer.fileNumber = UInt32.ofNat log.chunks.length := by
    rw [repr.fileNumber, chunks, length_append, length_singleton]
  constructor
  · rw [WalWriter.switchWALFile, if_pos rfl]
    dsimp only
    rw [repr.directory, sameNumber, create_files shorter]
    rfl
  · rw [WalWriter.switchWALFile, if_pos rfl]
    exact congrArg some sameNumber
  · rfl
  · rw [WalWriter.switchWALFile, if_pos rfl]
    dsimp only
    rw [repr.fileNumber, length_append, length_singleton,
      UInt32.ofNat_add (log.closed.length + 1) 1]
    rfl

theorem Represents.flushBuffer {closed : List (List GroupCommitRequest)}
    {written : List GroupCommitRequest} (repr : writer.Represents ⟨closed, written⟩)
    (bound : closed.length < 2 ^ 32) (pending : List GroupCommitRequest) :
    (writer.flushBuffer (pending.flatMap encode)).1.Represents ⟨closed, written ++ pending⟩ ∧
      (writer.flushBuffer (pending.flatMap encode)).2 = [] := by
  have appended := repr.appendTo bound pending
  rw [WalWriter.flushBuffer, repr.currentFile]
  dsimp only
  by_cases nothing : (pending.flatMap encode).isEmpty = true
  · rw [if_pos nothing]
    have noBytes : pending.flatMap encode = [] := isEmpty_iff.mp nothing
    refine ⟨?_, noBytes⟩
    have sameFiles : ∀ number, writer.directory.append number [] = writer.directory := by
      intro number
      simp [WalDirectory.append]
    rw [noBytes, WalWriter.appendTo, sameFiles] at appended
    exact ⟨appended.directory, appended.currentFile, appended.currentFileSize, appended.fileNumber⟩
  · rw [if_neg nothing]
    exact ⟨appended, rfl⟩

theorem directory_openLog
    {chunks : List (List GroupCommitRequest)} (bound : chunks.length < 2 ^ 32) :
    (openLog (files chunks)).directory = files (chunks ++ [[]]) := by
  have next : (files chunks).foldl
      (fun number file => if number ≤ file.1 then file.1 + 1 else number) (0 : UInt32) =
      UInt32.ofNat chunks.length := by
    clear bound
    induction chunks using reverseRecOn with
    | nil => rfl
    | append_singleton closed cur ih =>
      have least : UInt32.ofNat closed.length ≤ UInt32.ofNat closed.length := by
        rw [UInt32.le_iff_toNat_le]
      rw [files_concat, foldl_append, ih, foldl_cons,
        foldl_nil, if_pos least, length_append, length_singleton,
        UInt32.ofNat_add]
      rfl
  rw [openLog, switchWALFile, if_pos rfl]
  dsimp only
  rw [next, create_files bound]

theorem represents_openLog : (openLog []).Represents empty :=
  ⟨directory_openLog (by decide : ([] : List (List GroupCommitRequest)).length < 2 ^ 32),
    rfl, rfl, rfl⟩

/-- The loop extends the log; what is not yet written of the current file is in the
buffer. -/
theorem groupLoop_ok {reqs : List GroupCommitRequest}
    {pos : Nat} {writer final : WalWriter} {buffer : Bytes}
    {closed : List (List GroupCommitRequest)} {written pending : List GroupCommitRequest}
    (repr : writer.Represents ⟨closed, written⟩) (bound : closed.length + reqs.length + 1 < 2 ^ 32)
    (writtenOut : ∀ pos, outs.closed pos = none)
    (succeeded : groupLoop opts outs pos writer
      (pending.flatMap encode) reqs = (final, .ok buffer)) :
    ∃ finalClosed finalWritten finalPending, buffer = finalPending.flatMap encode ∧
      addAll opts ⟨closed, written ++ pending⟩ reqs = ⟨finalClosed, finalWritten ++ finalPending⟩ ∧
      final.Represents ⟨finalClosed, finalWritten⟩ := by
  induction reqs generalizing pos writer closed written pending with
  | nil =>
    rw [groupLoop] at succeeded
    injection succeeded with sameWriter sameBuffer
    injection sameBuffer with sameBytes
    subst sameWriter sameBytes
    exact ⟨closed, written, pending, rfl, rfl, repr⟩
  | cons req rest ih =>
    rw [length_cons] at bound
    have currentSize : writer.currentFileSize +
        (pending.flatMap encode).length = size (written ++ pending) := by
      rw [repr.currentFileSize, size, size, flatMap_append, length_append]
    have extended : ∀ front : List GroupCommitRequest, front.flatMap encode ++ req.encode =
          (front ++ [req]).flatMap encode := by
      intro front
      rw [flatMap_append, flatMap_singleton]
    rw [groupLoop] at succeeded
    dsimp only at succeeded
    rw [currentSize] at succeeded
    rw [addAll, foldl_cons]
    by_cases full : opts.maxFileSize < size (written ++ pending) + req.encode.length
    · have added : add opts ⟨closed, written ++ pending⟩ req =
          ⟨closed ++ [written ++ pending], [] ++ [req]⟩ := by
        rw [add, if_pos full]
        rfl
      have nextBound : (closed ++ [written ++ pending]).length + rest.length + 1 < 2 ^ 32 := by
        rw [length_append, length_singleton]
        omega
      obtain ⟨flushed, noBuffer⟩ := repr.flushBuffer (by omega) pending
      rw [if_pos full] at succeeded
      rw [added]
      split at succeeded
      · cases succeeded
      cases create : outs.created pos with
      | false =>
        rw [create] at succeeded
        cases succeeded
      | true =>
        have switched := flushed.switchWALFile (by dsimp only; omega)
        have single : [] ++ req.encode = [req].flatMap encode := extended []
        rw [create, if_pos rfl, noBuffer, single, writtenOut] at succeeded
        exact ih switched nextBound succeeded
    · have added : add opts ⟨closed, written ++ pending⟩ req =
          ⟨closed, written ++ (pending ++ [req])⟩ := by
        rw [add, if_neg full, append_assoc]
      rw [if_neg full, extended] at succeeded
      rw [added]
      exact ih repr (by omega) succeeded

theorem Represents.processGroupCommit
    {reqs : List GroupCommitRequest} {writer final : WalWriter} {log : Log}
    (repr : writer.Represents log) (bound : log.closed.length + reqs.length + 1 < 2 ^ 32)
    (writtenOut : ∀ pos, outs.closed pos = none)
    (succeeded : writer.processGroupCommit opts outs reqs = (final, .ok ())) :
    final.Represents (log.addAll opts reqs) := by
  rw [WalWriter.processGroupCommit] at succeeded
  by_cases nothing : reqs.isEmpty = true
  · rw [if_pos nothing] at succeeded
    injection succeeded with sameWriter
    rw [isEmpty_iff.mp nothing, ← sameWriter]
    exact repr
  rw [if_neg nothing] at succeeded
  split at succeeded
  · cases succeeded
  rename_i looped coalesced loopResult
  have started : groupLoop opts outs 0 writer (([] : List GroupCommitRequest).flatMap encode) reqs =
      (looped, .ok coalesced) := loopResult
  obtain ⟨closed, written, pending, sameBuffer, sameLog, loopRepresents⟩ :=
    groupLoop_ok repr bound writtenOut started
  have shorter : closed.length < 2 ^ 32 := by
    have lengths := length_closed_addAll opts ⟨log.closed, log.current ++ []⟩ reqs
    rw [sameLog] at lengths
    dsimp only at lengths
    omega
  rw [append_nil] at sameLog
  have flushed := (loopRepresents.flushBuffer shorter pending).1
  rw [← sameLog, ← sameBuffer] at flushed
  split at succeeded
  · cases succeeded
  · dsimp only at succeeded
    split at succeeded
    · split at succeeded
      · cases succeeded
      · injection succeeded with sameWriter
        rw [← sameWriter]
        exact ⟨flushed.directory, flushed.currentFile, flushed.currentFileSize, flushed.fileNumber⟩
    · injection succeeded with sameWriter
      rw [← sameWriter]
      exact flushed

theorem processGroupCommit_success
    (writer : WalWriter) (reqs : List GroupCommitRequest) (succeeds : outs.Succeeds) :
    (writer.processGroupCommit opts outs reqs).2 = .ok () := by
  have loop : ∀ (reqs : List GroupCommitRequest) (pos : Nat) (writer : WalWriter)
      (coalesced : Bytes), ∃ final buffer,
        groupLoop opts outs pos writer coalesced reqs = (final, .ok buffer) := by
    intro reqs
    induction reqs with
    | nil =>
      intro pos writer coalesced
      exact ⟨writer, coalesced, rfl⟩
    | cons req rest ih =>
      intro pos writer coalesced
      rw [groupLoop]
      dsimp only
      split
      · rw [attempt, succeeds.flushed pos, succeeds.created pos, ite_self]
        exact ih _ _ _
      · exact ih _ _ _
  rw [processGroupCommit]
  split
  · rfl
  · obtain ⟨final, buffer, res⟩ := loop reqs 0 writer []
    rw [res]
    simp only [attempt, succeeds.appended, succeeds.synced, ite_self]
    split <;> rfl

end WalWriter

end CedarGraph
