import CedarGraph.Types

/-!
# The catch-up of a migration

`WriteTxnWAL` appends records of a time, a transaction, a length and an operation.
`ReplayWalToTarget` reads the same file, but its records begin with a magic number and have a
checksum.
-/

namespace CedarGraph

open List FixedWidth

/-- A call of `WriteTxnWAL` that returned OK, with the time that it read. -/
structure TxnWalCall where
  timestamp : UInt64
  txnId : UInt64
  operation : Bytes

def TxnWalCall.record (call : TxnWalCall) : Bytes :=
  fields leBytes [(8, call.timestamp.toNat), (8, call.txnId.toNat), (4, call.operation.length)] ++
    call.operation

structure ReplicateWALEntryRequest where
  migrationId : String
  partitionId : UInt16
  timestamp : UInt64
  txnId : UInt64
  opData : Bytes
  deriving DecidableEq, Repr

inductive ReplicateReply where
  | accepted
  | failed (message : String)
  | rejected (message : String)

namespace PartitionMigrator

/-- The batches that were sent, and the result. -/
abbrev Replayed := List (List ReplicateWALEntryRequest) × Except Status Unit

section Replay

variable (migrationId : UInt64) (pid : UInt16)

def readEntry (data : Bytes) : Except Status (ReplicateWALEntryRequest × Bytes) :=
  if leValue (data.take 4) ≠ 0x57414C01 then
    .error (.corruption "Migration WAL" "magic mismatch")
  else if data.length < 28 then
    .error (.corruption "Migration WAL" "truncated header")
  else
    let opLen := leValue ((data.drop 20).take 4)
    let rest := data.drop 28
    if rest.length < opLen then
      .error (.corruption "Migration WAL" "truncated op data")
    else if (crc32c (rest.take opLen)).toNat ≠ leValue ((data.drop 24).take 4) then
      .error (.corruption "Migration WAL" "CRC mismatch")
    else
      .ok (⟨toString migrationId, pid, .ofNat (leValue ((data.drop 4).take 8)),
        .ofNat (leValue ((data.drop 12).take 8)), rest.take opLen⟩, rest.drop opLen)

theorem length_of_readEntry {data rest : Bytes} {entry : ReplicateWALEntryRequest}
    (read : readEntry migrationId pid data = .ok (entry, rest)) :
    28 + entry.opData.length + rest.length = data.length := by
  rw [readEntry] at read
  split at read
  · cases read
  split at read
  · cases read
  rename_i whole
  dsimp only at read
  split at read
  · cases read
  rename_i lt
  split at read
  · cases read
  cases read
  simp only [length_take, length_drop] at lt ⊢
  omega

-- the replies of the target by the number of batches before, or no stub
variable (stub : Option (Nat → ReplicateReply))

def flushBatch (sent : List (List ReplicateWALEntryRequest))
    (batch : List ReplicateWALEntryRequest) : Replayed :=
  match stub with
  | none => (sent, .ok ())
  | some reply =>
    if batch.isEmpty then (sent, .ok ())
    else (sent ++ [batch],
      match reply sent.length with
      | .accepted => .ok ()
      | .failed msg => .error (.ioError ("WAL batch replication RPC failed: " ++ msg) "")
      | .rejected msg => .error (.ioError ("WAL batch replication rejected: " ++ msg) ""))

def replayEntries (sent : List (List ReplicateWALEntryRequest))
    (batch : List ReplicateWALEntryRequest) (data : Bytes) : Replayed :=
  if data.length < 4 then flushBatch stub sent batch
  else
    match read : readEntry migrationId pid data with
    | .error status => (sent, .error status)
    | .ok (entry, rest) =>
      have : rest.length < data.length := by
        have consumed := length_of_readEntry migrationId pid read
        omega
      if stub.isNone then replayEntries sent batch rest
      else if batch.length + 1 < 100 then replayEntries sent (batch ++ [entry]) rest
      else
        match flushBatch stub sent (batch ++ [entry]) with
        | (flushed, .error status) => (flushed, .error status)
        | (flushed, .ok ()) => replayEntries flushed [] rest
termination_by data.length

/-- The file is its bytes, or the message of a failure to open or read it. -/
def replayWalToTarget (file : Except String Bytes) : Replayed :=
  match file with
  | .error msg => ([], .error (.ioError msg ""))
  | .ok data =>
    if data.isEmpty then ([], .ok ())
    else replayEntries migrationId pid stub [] [] data

end Replay

/-- The bytes that the reader takes for the entries. -/
def weight (entries : List ReplicateWALEntryRequest) : Nat :=
  (entries.map fun entry => 28 + entry.opData.length).sum

theorem weight_append (first second : List ReplicateWALEntryRequest) :
    weight (first ++ second) = weight first + weight second := by
  simp [weight]

variable {migrationId : UInt64} {pid : UInt16} {reply : Nat → ReplicateReply}

theorem flatten_flushBatch (sent : List (List ReplicateWALEntryRequest))
    (batch : List ReplicateWALEntryRequest) :
    (flushBatch (some reply) sent batch).1.flatten = sent.flatten ++ batch := by
  cases batch <;> simp [flushBatch]

theorem weight_replayEntries (sent : List (List ReplicateWALEntryRequest))
    (batch : List ReplicateWALEntryRequest) (data : Bytes) :
    weight (replayEntries migrationId pid (some reply) sent batch data).1.flatten ≤
      weight sent.flatten + weight batch + data.length := by
  induction size : data.length using Nat.strong_induction_on generalizing sent batch data with
  | _ size ih =>
    subst size
    rw [replayEntries]
    split
    · rw [flatten_flushBatch, weight_append]
      omega
    split
    · dsimp only
      omega
    rename_i entry rest read
    have consumed := length_of_readEntry migrationId pid read
    have grown : weight (batch ++ [entry]) = weight batch + (28 + entry.opData.length) := by
      simp [weight]
    rw [if_neg (by simp)]
    split
    · have later := ih rest.length (by omega) sent (batch ++ [entry]) rest rfl
      omega
    have flushed := @flatten_flushBatch reply sent (batch ++ [entry])
    generalize flushBatch (some reply) sent (batch ++ [entry]) = done at *
    obtain ⟨batches, res⟩ := done
    have kept : weight batches.flatten = weight sent.flatten + weight (batch ++ [entry]) := by
      rw [← weight_append, ← flushed]
    cases res with
    | error status =>
      dsimp only
      omega
    | ok nothing =>
      have later := ih rest.length (by omega) batches [] rest rfl
      have empty : weight [] = 0 := rfl
      dsimp only
      omega

/-- The replay returns OK and forwards the operations of the calls only when there was no
call: the reader takes eight bytes more for each record than the writer wrote. -/
theorem replayWalToTarget_forwards_iff (migrationId : UInt64) (pid : UInt16)
    (reply : Nat → ReplicateReply) (calls : List TxnWalCall) :
    let replayed := replayWalToTarget migrationId pid (some reply)
      (.ok (calls.flatMap TxnWalCall.record))
    replayed.2 = .ok () ∧
        replayed.1.flatten.map (fun entry => (entry.txnId, entry.opData)) =
          calls.map (fun call => (call.txnId, call.operation)) ↔
      calls = [] := by
  intro replayed
  constructor
  · rintro ⟨-, forwarded⟩
    have written : (calls.flatMap TxnWalCall.record).length =
        (calls.map fun call => 20 + call.operation.length).sum := by
      simp [length_flatMap, TxnWalCall.record, length_fields length_leBytes]
    have sameLengths : weight replayed.1.flatten =
        (calls.map fun call => 28 + call.operation.length).sum := by
      have lengths := congrArg (fun pairs => (pairs.map fun pair => 28 + pair.2.length).sum)
        forwarded
      simp only [map_map] at lengths
      exact lengths
    have read : weight replayed.1.flatten ≤ (calls.flatMap TxnWalCall.record).length := by
      simp only [replayed, replayWalToTarget]
      split
      · simp [weight]
      · exact (weight_replayEntries [] [] _).trans_eq (Nat.zero_add _)
    rw [sameLengths, written] at read
    cases calls with
    | nil => rfl
    | cons call rest =>
      have less : (rest.map fun call => 20 + call.operation.length).sum ≤
          (rest.map fun call => 28 + call.operation.length).sum :=
        sum_le_sum fun _ _ => by omega
      simp only [map_cons, sum_cons] at read
      omega
  · rintro rfl
    exact ⟨rfl, rfl⟩

/-- One record of a commit is refused. -/
theorem replayWalToTarget_refuses_commit :
    replayWalToTarget 1 0 (some fun _ => .accepted)
        (.ok (TxnWalCall.record ⟨1700000000, 7, [67, 79, 77, 77, 73, 84]⟩)) =
      ([], .error (.corruption "Migration WAL" "magic mismatch")) := by
  have read : readEntry 1 0 (TxnWalCall.record ⟨1700000000, 7, [67, 79, 77, 77, 73, 84]⟩) =
      .error (.corruption "Migration WAL" "magic mismatch") := by
    decide
  rw [replayWalToTarget, if_neg (by decide), replayEntries, if_neg (by decide)]
  split
  · rename_i status failed
    rw [read] at failed
    cases failed
    rfl
  · rename_i entry rest done
    rw [read] at done
    cases done

end PartitionMigrator

end CedarGraph
