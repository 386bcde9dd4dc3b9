import CedarGraph.Types

/-!
# The decision log of the commit coordinator

Before it tells any participant to commit, the coordinator writes its decision to a file. The
format has no checksum and no end mark, but every field is read in full, so a file that lacks
bytes is never taken for a decision.
-/

namespace CedarGraph

open FixedWidth List

structure CommitDecision where
  txnId : UInt64
  commitTs : UInt64
  participants : List UInt16
  deriving DecidableEq, Repr

namespace CommitDecision

variable (decision : CommitDecision)

def magic : Nat := 0x44454301

def header : List (Nat × Nat) :=
  [(4, magic), (4, 1), (8, decision.txnId.toNat), (8, decision.commitTs.toNat),
    (4, decision.participants.length)]

/-- The writes of `PersistCommitDecision`, one after the other. -/
def encode : Bytes :=
  fields leBytes decision.header ++
    fields leBytes (decision.participants.map fun participant => (2, participant.toNat))

/-- A sanity limit of the reader; the writer has none. -/
def maxParticipants : Nat := 10000

/-- `LoadCommitDecision`.  A read past the end leaves the variable as far as it was
filled, and the two words of the format are checked before the stream is. -/
def load (path : String) (bytes : Bytes) : Except Status CommitDecision :=
  match readFields leValue [4, 4, 8, 8, 4] bytes with
  | [fileMagic, ver, txnId, commitTs, numParts] =>
    if fileMagic ≠ magic ∨ ver ≠ 1 then
      .error (.ioError "Decision log format mismatch" path)
    else if bytes.length < 28 then
      .error (.ioError "Decision log truncated: cannot read num_parts" path)
    else if maxParticipants < numParts then
      .error (.ioError "Decision log corrupt: num_parts too large" path)
    else if bytes.length < 28 + 2 * numParts then
      .error (.ioError "Decision log truncated: cannot read participant" path)
    else
      .ok
        { txnId := UInt64.ofNat txnId
          commitTs := UInt64.ofNat commitTs
          participants :=
            (readFields leValue (List.replicate numParts 2) (bytes.drop 28)).map UInt16.ofNat }
  | _ => .error (.ioError "Decision log format mismatch" path)

theorem length_header : (fields leBytes decision.header).length = 28 := by
  rw [length_fields length_leBytes]
  rfl

theorem widths_participants (participants : List UInt16) :
    (participants.map fun participant => ((2, participant.toNat) : Nat × Nat)).map Prod.fst =
      List.replicate participants.length 2 := by
  simp [Function.comp_def, map_const']

theorem length_encode : decision.encode.length = 28 + 2 * decision.participants.length := by
  rw [encode, length_append, length_header, length_fields length_leBytes,
    widths_participants, sum_replicate_nat, Nat.mul_comm]

section Header

variable {decision : CommitDecision}

theorem readFields_header (few : decision.participants.length < 2 ^ 32) (rest : Bytes) :
    readFields leValue [4, 4, 8, 8, 4] (fields leBytes decision.header ++ rest) =
      [magic, 1, decision.txnId.toNat, decision.commitTs.toNat, decision.participants.length] := by
  have txn := decision.txnId.toNat_lt
  have stamp := decision.commitTs.toNat_lt
  have bounds : ∀ field ∈ decision.header, field.2 < 256 ^ field.1 := by
    simp only [header, magic, forall_mem_cons, not_mem_nil, IsEmpty.forall_iff,
      implies_true, and_true]
    omega
  exact readFields_fields length_leBytes leValue_leBytes_of_lt bounds rest

theorem load_encode (few : decision.participants.length ≤ maxParticipants) (path : String) :
    load path decision.encode = .ok decision := by
  have small : decision.participants.length < 2 ^ 32 := by
    rw [maxParticipants] at few
    omega
  have length := decision.length_encode
  have cells : ∀ field ∈ decision.participants.map
      (fun participant => ((2, participant.toNat) : Nat × Nat)), field.2 < 256 ^ field.1 := by
    intro field mem
    obtain ⟨participant, -, rfl⟩ := mem_map.mp mem
    exact participant.toNat_lt
  have values := readFields_fields length_leBytes leValue_leBytes_of_lt cells []
  rw [widths_participants, append_nil] at values
  have afterHeader : decision.encode.drop 28 = fields leBytes
      (decision.participants.map fun participant => (2, participant.toNat)) := by
    rw [encode]
    exact drop_left' decision.length_header
  rw [load, afterHeader, encode, readFields_header small]
  dsimp only
  rw [← encode, if_neg (by simp), if_neg (by omega), if_neg (by omega), if_neg (by omega), values]
  simp [Function.comp_def]

theorem load_take_of_cut (small : decision.participants.length < 2 ^ 32) {size : Nat}
    (cut : size < decision.encode.length) (path : String) :
    ∃ status, load path (decision.encode.take size) = .error status := by
  have length := decision.length_encode
  have taken : (decision.encode.take size).length = size := by
    rw [length_take]
    omega
  have shape : ∀ bytes : Bytes, ∃ fileMagic ver txnId commitTs numParts,
      readFields leValue [4, 4, 8, 8, 4] bytes = [fileMagic, ver, txnId, commitTs, numParts] :=
    fun _ => ⟨_, _, _, _, _, rfl⟩
  obtain ⟨fileMagic, ver, txnId, commitTs, numParts, isHeader⟩ :=
    shape (decision.encode.take size)
  rw [load, isHeader]
  dsimp only
  by_cases mismatch : fileMagic ≠ magic ∨ ver ≠ 1
  · rw [if_pos mismatch]
    exact ⟨_, rfl⟩
  rw [if_neg mismatch]
  by_cases short : size < 28
  · rw [if_pos (by omega)]
    exact ⟨_, rfl⟩
  have wholeHeader : decision.encode.take size = fields leBytes decision.header ++
      (fields leBytes (decision.participants.map
        fun participant => (2, participant.toNat))).take (size - 28) := by
    rw [encode, take_append, length_header, take_of_length_le (by rw [length_header]; omega)]
  rw [wholeHeader, readFields_header small] at isHeader
  have count : numParts = decision.participants.length := by
    injection isHeader with _ isHeader
    injection isHeader with _ isHeader
    injection isHeader with _ isHeader
    injection isHeader with _ isHeader
    injection isHeader with same _
    exact same.symm
  rw [if_neg (by omega)]
  split
  · exact ⟨_, rfl⟩
  · rw [if_pos (by omega)]
    exact ⟨_, rfl⟩

theorem load_encode_of_many (many : maxParticipants < decision.participants.length)
    (small : decision.participants.length < 2 ^ 32) (path : String) :
    ∃ status, load path decision.encode = .error status := by
  have length := decision.length_encode
  rw [load, encode, readFields_header small]
  dsimp only
  rw [← encode, if_neg (by simp), if_neg (by omega), if_pos many]
  exact ⟨_, rfl⟩

theorem load_take (small : decision.participants.length < 2 ^ 32) {size : Nat}
    (unreadable : size < decision.encode.length ∨
      maxParticipants < decision.participants.length) (path : String) :
    ∃ status, load path (decision.encode.take size) = .error status := by
  by_cases cut : size < decision.encode.length
  · exact load_take_of_cut small cut path
  · rw [take_of_length_le (by omega)]
    exact load_encode_of_many (unreadable.resolve_left cut) small path

end Header

theorem length_participants_of_load {path : String} {bytes : Bytes} {decision : CommitDecision}
    (loaded : load path bytes = .ok decision) : decision.participants.length ≤ maxParticipants := by
  rw [load] at loaded
  have counted : ∀ (count : Nat) (rest : Bytes),
      (readFields leValue (replicate count 2) rest).length = count := by
    intro count rest
    induction count generalizing rest with
    | zero => rfl
    | succ count ih => rw [replicate_succ, readFields, length_cons, ih]
  split at loaded
  · simp only [ne_eq] at loaded
    split_ifs at loaded with mismatch short many cut
    injection loaded with isDecision
    rw [← isDecision, length_map, counted]
    exact Nat.not_lt.mp many
  · cases loaded

/-- A decision can be read back, and no part of its file passes for it, exactly if the
limit of the reader allows its participants. -/
theorem load_encode_iff (decision : CommitDecision) (path : String) :
    (load path decision.encode = .ok decision ∧
      ∀ size < decision.encode.length, ∃ status,
        load path (decision.encode.take size) = .error status) ↔
      decision.participants.length ≤ maxParticipants := by
  constructor
  · intro roundTrip
    exact length_participants_of_load roundTrip.1
  · intro few
    have small : decision.participants.length < 2 ^ 32 := by
      rw [maxParticipants] at few
      omega
    exact ⟨load_encode few path, fun size cut => load_take_of_cut small cut path⟩

/-- One participant more than the limit: the file is written, and never read back. -/
theorem load_encode_of_10001 :
    ∃ status, load "txn_7.decision" (encode ⟨7, 5, List.replicate 10001 0⟩) = .error status := by
  have length : (replicate 10001 (0 : UInt16)).length = 10001 := length_replicate
  apply load_encode_of_many
  · rw [length, maxParticipants]
    decide
  · rw [length]
    decide

end CommitDecision

end CedarGraph
