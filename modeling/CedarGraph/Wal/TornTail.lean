import CedarGraph.Wal.Record

/-!
# Reading a log file that was cut off

After a crash a log file may end inside a record. `readNextRecord` is about the bytes from the
offset of the reader on. The reader returns the batches of the whole records before the cut, and
then failures.
-/

namespace CedarGraph

open FixedWidth List WalRecordHeader

structure WalReader where
  file : Bytes
  currentOffset : Nat

namespace WalReader

variable (reader : WalReader)

def openFile (file : Bytes) : WalReader :=
  ⟨file, 0⟩

def readNextRecord : Except Status WalBatch × WalReader :=
  if reader.file.length < reader.currentOffset + 16 then
    (.error (.notFound "WalReader" "end of file"), reader)
  else
    match decode ((reader.file.drop reader.currentOffset).take 16) with
    | .error _ =>
      (.error (.corruption "WalReader" "invalid header"),
        { reader with currentOffset := reader.currentOffset + 1 })
    | .ok header =>
      let dataOffset := reader.currentOffset + 16
      let next := { reader with currentOffset := dataOffset + header.dataLength.toNat }
      if reader.file.length < dataOffset + header.dataLength.toNat then
        (.error (.corruption "WalReader" "truncated record"), next)
      else
        let data := (reader.file.drop dataOffset).take header.dataLength.toNat
        if crc32c data ≠ header.crc32 then
          (.error (.corruption "WalReader" "CRC mismatch"), next)
        else
          match WalBatch.decode data with
          | .error .outOfBounds => (.error .outOfBounds, next)
          | .error _ => (.error (.corruption "WalReader" "batch decode failed"), next)
          | .ok batch => (.ok batch, next)

def remaining : Bytes :=
  reader.file.drop reader.currentOffset

def readRecords : Nat → WalReader → List (Except Status WalBatch)
  | 0, _ => []
  | calls + 1, reader => reader.readNextRecord.1 :: readRecords calls reader.readNextRecord.2

theorem readNextRecord_remaining :
    CedarGraph.readNextRecord reader.remaining =
      (reader.readNextRecord.1, reader.readNextRecord.2.remaining) := by
  rw [CedarGraph.readNextRecord, readNextRecord, remaining, length_drop]
  by_cases short : reader.file.length < reader.currentOffset + 16
  · rw [if_pos short, if_pos (by omega)]
    rfl
  rw [if_neg short, if_neg (by omega)]
  cases decode ((reader.file.drop reader.currentOffset).take 16) with
  | error status =>
    dsimp only
    rw [remaining, drop_drop]
  | ok header =>
    dsimp only
    rw [drop_drop, drop_drop, length_drop]
    by_cases truncated :
        reader.file.length < reader.currentOffset + 16 + header.dataLength.toNat
    · rw [if_pos truncated, if_pos (by omega)]
      rfl
    rw [if_neg truncated, if_neg (by omega)]
    split
    · rfl
    · cases WalBatch.decode ((reader.file.drop (reader.currentOffset + 16)).take
          header.dataLength.toNat) with
      | error status => cases status <;> rfl
      | ok batch => rfl

theorem readRecords_eq (calls : Nat) :
    reader.readRecords calls = Scan.results CedarGraph.readNextRecord calls reader.remaining := by
  induction calls generalizing reader with
  | zero => rfl
  | succ calls ih => rw [readRecords, Scan.results, readNextRecord_remaining, ih]

/-- The loop of `ReplayWAL` goes on after a batch and after a corruption. -/
def goesOn : Except Status WalBatch → Bool
  | .ok _ => true
  | .error status => status.isCorruption

/-- The records that the lengths in the headers place behind the reader, those that are cut off
left out. -/
def records : Nat → WalReader → List (WalRecordHeader × Bytes)
  | 0, _ => []
  | count + 1, reader =>
    match decode ((reader.file.drop reader.currentOffset).take 16) with
    | .error _ => []
    | .ok header =>
      let dataOffset := reader.currentOffset + 16
      let size := header.dataLength.toNat
      (if reader.file.length < dataOffset + size then []
        else [(header, (reader.file.drop dataOffset).take size)]) ++
        records count ⟨reader.file, dataOffset + size⟩

/-- The record has the right checksum and an operation whose key lies outside the data. -/
def Overruns (record : WalRecordHeader × Bytes) : Prop :=
  crc32c record.2 = record.1.crc32 ∧ WalBatch.overruns record.2 = true

theorem readNextRecord_cases :
    (reader.readNextRecord = (.error (.notFound "WalReader" "end of file"), reader) ∧
      ∀ count, reader.records count = []) ∨
    ∃ res advance front, reader.currentOffset < reader.file.length ∧ 0 < advance ∧
      reader.readNextRecord = (res, ⟨reader.file, reader.currentOffset + advance⟩) ∧
      (∀ count, reader.records (count + 1) =
        front ++ records count ⟨reader.file, reader.currentOffset + advance⟩) ∧
      ((goesOn res ∧ ∀ record ∈ front, ¬ Overruns record) ∨
        (res = .error .outOfBounds ∧ ∃ record ∈ front, Overruns record)) := by
  rw [readNextRecord]
  by_cases short : reader.file.length < reader.currentOffset + 16
  · have noHeader : decode ((reader.file.drop reader.currentOffset).take 16) =
        .error (.corruption "WalRecordHeader" "truncated") := by
      rw [decode, if_pos]
      rw [length_take, length_drop]
      omega
    refine Or.inl ⟨if_pos short, ?_⟩
    intro count
    cases count with
    | zero => rfl
    | succ count => rw [records, noHeader]
  rw [if_neg short]
  have whole : 16 ≤ ((reader.file.drop reader.currentOffset).take 16).length := by
    rw [length_take, length_drop]
    omega
  obtain ⟨header, decoded⟩ := exists_decode whole
  have inside : reader.currentOffset < reader.file.length := by omega
  have placed : ∀ count, reader.records (count + 1) =
      (if reader.file.length < reader.currentOffset + (16 + header.dataLength.toNat) then []
        else [(header, (reader.file.drop (reader.currentOffset + 16)).take
          header.dataLength.toNat)]) ++
        records count ⟨reader.file, reader.currentOffset + (16 + header.dataLength.toNat)⟩ := by
    intro count
    rw [records, decoded, ← Nat.add_assoc]
  rw [decoded]
  dsimp only
  rw [Nat.add_assoc]
  refine Or.inr ?_
  by_cases truncated :
      reader.file.length < reader.currentOffset + (16 + header.dataLength.toNat)
  · rw [if_pos truncated] at placed ⊢
    exact ⟨_, _, [], inside, by omega, rfl, placed, Or.inl ⟨rfl, by simp⟩⟩
  rw [if_neg truncated] at placed ⊢
  refine ⟨_, _, _, inside, by omega, Prod.ext rfl ?_, placed, ?_⟩
  · split
    · rfl
    · split <;> rfl
  -- the whole record is there, and its checksum is compared before the batch is decoded
  by_cases differs : crc32c ((reader.file.drop (reader.currentOffset + 16)).take
      header.dataLength.toNat) ≠ header.crc32
  · rw [if_pos differs]
    refine Or.inl ⟨rfl, ?_⟩
    intro record member overruns
    rw [mem_singleton.mp member] at overruns
    exact differs overruns.1
  rw [if_neg differs]
  have sound := WalBatch.decode_outOfBounds_iff
    ((reader.file.drop (reader.currentOffset + 16)).take header.dataLength.toNat)
  split
  · rename_i outside
    exact Or.inr ⟨rfl, _, mem_singleton_self _, not_not.mp differs, sound.mp outside⟩
  · rename_i status other failed
    refine Or.inl ⟨rfl, ?_⟩
    intro record member overruns
    rw [mem_singleton.mp member] at overruns
    have same := sound.mpr overruns.2
    rw [failed] at same
    exact other (Except.error.inj same)
  · rename_i batch succeeded
    refine Or.inl ⟨rfl, ?_⟩
    intro record member overruns
    rw [mem_singleton.mp member] at overruns
    have same := sound.mpr overruns.2
    rw [succeeded] at same
    cases same

theorem readRecords_end_iff {reader : WalReader} {size : Nat}
    (left : reader.file.length - reader.currentOffset ≤ size) :
    (∃ passed, passed.length ≤ size ∧ (∀ res ∈ passed, goesOn res) ∧
      reader.readRecords (passed.length + 1) =
        passed ++ [.error (.notFound "WalReader" "end of file")]) ↔
      ∀ record ∈ reader.records size, ¬ Overruns record := by
  induction size generalizing reader with
  | zero =>
    rcases reader.readNextRecord_cases with ⟨ends, -⟩ | ⟨_, _, _, inside, -⟩
    · refine iff_of_true ⟨[], Nat.le_refl 0, nofun, ?_⟩ nofun
      rw [length_nil, readRecords, ends]
      rfl
    · omega
  | succ size ih =>
    rcases reader.readNextRecord_cases with ⟨ends, none⟩ |
      ⟨res, advance, front, inside, more, read, placed, outcome⟩
    · refine iff_of_true ⟨[], Nat.zero_le _, nofun, ?_⟩ (by rw [none]; nofun)
      rw [length_nil, readRecords, ends]
      rfl
    have later := @ih ⟨reader.file, reader.currentOffset + advance⟩ (by dsimp only; omega)
    rw [placed, forall_mem_append, ← later]
    rcases outcome with ⟨passes, sound⟩ | ⟨outside, record, member, overruns⟩
    · constructor
      · rintro ⟨passed, few, continues, reads⟩
        cases passed with
        | nil =>
          rw [length_nil, readRecords, read] at reads
          have isEnd : res = .error (.notFound "WalReader" "end of file") :=
            head_eq_of_cons_eq reads
          rw [isEnd] at passes
          cases passes
        | cons first tail =>
          rw [length_cons, readRecords, read] at reads
          exact ⟨sound, tail, Nat.le_of_succ_le_succ few, (forall_mem_cons.mp continues).2,
            tail_eq_of_cons_eq reads⟩
      · rintro ⟨-, passed, few, continues, reads⟩
        refine ⟨res :: passed, Nat.succ_le_succ few, forall_mem_cons.mpr ⟨passes, continues⟩, ?_⟩
        rw [length_cons, readRecords, read, reads]
        rfl
    · refine iff_of_false ?_ ?_
      · rintro ⟨passed, -, continues, reads⟩
        cases passed with
        | nil =>
          rw [length_nil, readRecords, read, outside] at reads
          cases head_eq_of_cons_eq reads
        | cons first tail =>
          rw [length_cons, readRecords, read, outside] at reads
          have passes := (forall_mem_cons.mp continues).1
          rw [← head_eq_of_cons_eq reads] at passes
          cases passes
      · intro sound
        exact sound.1 record member overruns

theorem readNextRecord_of_crc_ne {header : WalRecordHeader} {payload : Bytes}
    (size : payload.length = header.dataLength.toNat) (differs : crc32c payload ≠ header.crc32)
    (rest : Bytes) :
    CedarGraph.readNextRecord (header.encode ++ payload ++ rest) =
      (.error (.corruption "WalReader" "CRC mismatch"), rest) := by
  rw [CedarGraph.readNextRecord, if_neg (by simp), append_assoc,
    take_left' (length_encode header), decode_encode, drop_left' (length_encode header)]
  dsimp only
  rw [if_neg (by simp [size]), take_left' size, drop_left' size, if_pos differs]

end WalReader

/-- A record as the writer appends it.  The types of the operations are values of the
enumeration, so a named one is not spelled as an unknown byte. -/
structure WalLogged where
  sequence : Nat
  batch : WalBatch
  named : ∀ op ∈ batch, op.Named

def WalLogged.encode (logged : WalLogged) : Bytes :=
  encodeRecord logged.sequence logged.batch

/-- Less than a header, or a header with less data than it announces. -/
def TornRecord (bytes : Bytes) : Prop :=
  bytes.length < 16 ∨ ∃ header : WalRecordHeader,
    bytes.take 16 = header.encode ∧ bytes.length < 16 + header.dataLength.toNat

theorem tornRecord_take {sequence : Nat} {batch : WalBatch} (fits : batch.encode.length < 2 ^ 32)
    {size : Nat} (cut : size < (encodeRecord sequence batch).length) :
    TornRecord ((encodeRecord sequence batch).take size) := by
  have dataLength : (UInt32.ofNat batch.encode.length).toNat = batch.encode.length := by
    rw [UInt32.toNat_ofNat']
    exact Nat.mod_eq_of_lt fits
  have takenLength : ((encodeRecord sequence batch).take size).length = size := by
    rw [length_take]
    omega
  by_cases inHeader : size < 16
  · left
    rw [takenLength]
    exact inHeader
  · right
    refine ⟨?header, ?isHeader, ?missing⟩
    case isHeader =>
      rw [take_take, Nat.min_eq_left (by omega), encodeRecord]
      exact take_left' (length_encode _)
    case missing =>
      rw [takenLength]
      dsimp only
      rw [length_encodeRecord] at cut
      rw [dataLength, WalBatch.length_encode]
      omega

/-- The first read of a torn record may report the damage; what follows it is the end
of the file. -/
theorem readNextRecord_of_torn (bytes : Bytes) (torn : TornRecord bytes) :
    ∃ status, (readNextRecord bytes).1 = .error status ∧
      (status.isCorruption = true ∨ status.isNotFound = true) ∧
      TornRecord (readNextRecord bytes).2 := by
  rcases torn with short | ⟨header, isHeader, missing⟩
  · rw [readNextRecord, if_pos short]
    exact ⟨_, rfl, Or.inr rfl, Or.inl short⟩
  by_cases short : bytes.length < 16
  · rw [readNextRecord, if_pos short]
    exact ⟨_, rfl, Or.inr rfl, Or.inl short⟩
  have truncated : (bytes.drop 16).length < header.dataLength.toNat := by
    rw [length_drop]
    omega
  rw [readNextRecord, if_neg short, isHeader, decode_encode]
  dsimp only
  rw [if_pos truncated]
  refine ⟨_, rfl, Or.inl rfl, Or.inl ?_⟩
  rw [drop_of_length_le (Nat.le_of_lt truncated)]
  exact Nat.zero_lt_succ 15

/-- Of a file that was cut to `size` bytes, the reader returns the batches whose records
are whole, in order, and then only reports damage or the end of the file. -/
theorem WalReader.readRecords_take
    {recs : List WalLogged}
    (fits : ∀ logged ∈ recs, logged.batch.encode.length < 2 ^ 32)
    (size calls : Nat) :
    ∃ failures,
      (WalReader.openFile ((recs.flatMap WalLogged.encode).take size)).readRecords calls =
        ((Scan.within WalLogged.encode size recs).map
          fun logged => .ok logged.batch).take calls ++ failures ∧
      ∀ failure ∈ failures, ∃ status, failure = .error status ∧
        (status.isCorruption = true ∨ status.isNotFound = true) := by
  rw [WalReader.readRecords_eq]
  refine Scan.results_take_frames readNextRecord_of_torn (Or.inl (Nat.zero_lt_succ 15))
    ?_ ?_ size calls
  · intro logged mem rest
    exact readNextRecord_encodeRecord logged.sequence logged.named (fits logged mem) rest
  · intro logged mem size cut
    exact tornRecord_take (fits logged mem) cut

theorem WalReader.readRecords_take_last_byte :
    let op : WalWriteOp := ⟨.put, ⟨1, 5, 2, 0, 0, 0, 0, 0⟩, ⟨7⟩, 9⟩
    let logged : WalLogged := ⟨1, [op], fun _ mem => by
      rw [mem_singleton.mp mem]
      rfl⟩
    let empty : WalLogged := ⟨2, [], fun _ mem => nomatch mem⟩
    ∃ failures,
      (WalReader.openFile (([logged, empty].flatMap WalLogged.encode).take 92)).readRecords 3 =
        [.ok [op]] ++ failures ∧
      ∀ failure ∈ failures, ∃ status, failure = .error status ∧
        (status.isCorruption = true ∨ status.isNotFound = true) := by
  intro op logged empty
  have fits : ∀ rec ∈ [logged, empty], rec.batch.encode.length < 2 ^ 32 := by
    simp [logged, empty]
  have lengths : logged.encode.length = 73 ∧ empty.encode.length = 20 := by
    simp [WalLogged.encode, logged, empty]
  have whole : Scan.within WalLogged.encode 92 [logged, empty] = [logged] := by
    simp [Scan.within, lengths]
  have cut := WalReader.readRecords_take fits 92 3
  rw [whole] at cut
  exact cut

end CedarGraph
