import CedarGraph.Lib.FixedWidth

/-!
# Scanning a sequence of frames

`next` reads one item off the front of a log and says what is left; an error skips the damaged
part or ends the scan. When `next` undoes the encoding of every frame, a scan yields the items.
In a log that was cut off, the whole frames are followed by failures only.
-/

namespace Scan

open FixedWidth List

variable {Item Error Frame : Type*}

/-- Read items until the fuel is used up or an error that is not skipped occurs. -/
def scan (next : Bytes → Except Error Item × Bytes) (skips : Error → Bool) : Nat → Bytes → List Item
  | 0, _ => []
  | fuel + 1, bytes =>
    match next bytes with
    | (.ok item, rest) => item :: scan next skips fuel rest
    | (.error error, rest) => if skips error then scan next skips fuel rest else []

theorem scan_frames {next : Bytes → Except Error Item × Bytes} {skips : Error → Bool}
    {encode : Frame → Bytes} {item : Frame → Item}
    {endOfLog : Error} (ends : next [] = (.error endOfLog, [])) (stops : skips endOfLog = false)
    {frames : List Frame}
    (intact : ∀ frame ∈ frames, ∀ rest, next (encode frame ++ rest) = (.ok (item frame), rest))
    {fuel : Nat} (enough : frames.length < fuel) :
    scan next skips fuel (frames.flatMap encode) = frames.map item := by
  induction frames generalizing fuel with
  | nil =>
    obtain ⟨less, rfl⟩ := Nat.exists_eq_succ_of_ne_zero (Nat.ne_of_gt enough)
    simp only [flatMap_nil, map_nil]
    rw [scan, ends]
    simp [stops]
  | cons head tail ih =>
    obtain ⟨less, rfl⟩ := Nat.exists_eq_succ_of_ne_zero (Nat.ne_of_gt (Nat.zero_lt_of_lt enough))
    rw [forall_mem_cons] at intact
    have tailEnough : tail.length < less := by
      rw [length_cons] at enough
      omega
    rw [flatMap_cons, scan, intact.1, map_cons]
    simp only [ih intact.2 tailEnough]

theorem length_mul_le_length_flatMap {encode : Frame → Bytes} {width : Nat}
    (wide : ∀ frame, width ≤ (encode frame).length) (frames : List Frame) :
    frames.length * width ≤ (frames.flatMap encode).length := by
  induction frames with
  | nil => simp
  | cons head tail ih =>
    have headWide := wide head
    rw [flatMap_cons, length_append, length_cons, Nat.succ_mul]
    omega

def results (next : Bytes → Except Error Item × Bytes) : Nat → Bytes → List (Except Error Item)
  | 0, _ => []
  | calls + 1, bytes => (next bytes).1 :: results next calls (next bytes).2

theorem scan_eq_filterMap {next : Bytes → Except Error Item × Bytes} {skips : Error → Bool}
    {stop : Error} (stops : skips stop = false) {passed : List (Except Error Item)}
    (skipped : ∀ error, .error error ∈ passed → skips error = true) {bytes : Bytes}
    (read : results next (passed.length + 1) bytes = passed ++ [.error stop]) {fuel : Nat}
    (enough : passed.length < fuel) :
    scan next skips fuel bytes = passed.filterMap Except.toOption := by
  induction passed generalizing bytes fuel with
  | nil =>
    obtain ⟨less, rfl⟩ := Nat.exists_eq_succ_of_ne_zero (Nat.ne_of_gt enough)
    have first : next bytes = (.error stop, (next bytes).2) :=
      Prod.ext (head_eq_of_cons_eq read) rfl
    rw [scan, first]
    simp [stops]
  | cons head tail ih =>
    obtain ⟨less, rfl⟩ := Nat.exists_eq_succ_of_ne_zero (Nat.ne_of_gt (Nat.zero_lt_of_lt enough))
    have first : next bytes = (head, (next bytes).2) := Prod.ext (head_eq_of_cons_eq read) rfl
    have later := ih (fun error mem => skipped error (mem_cons_of_mem head mem))
      (tail_eq_of_cons_eq read) (Nat.lt_of_succ_lt_succ enough)
    rw [scan, first]
    cases head with
    | ok item => exact congrArg (cons item) later
    | error error =>
      simp only [skipped error mem_cons_self, if_true]
      exact later

/-- The leading frames that end within the first `size` bytes. -/
def within (encode : Frame → Bytes) : Nat → List Frame → List Frame
  | _, [] => []
  | size, frame :: rest =>
    if (encode frame).length ≤ size then
      frame :: within encode (size - (encode frame).length) rest
    else []

section Torn

variable {next : Bytes → Except Error Item × Bytes} {Torn : Bytes → Prop}
  {Reported : Error → Prop}

theorem results_of_torn
    (fails : ∀ bytes, Torn bytes →
      ∃ error, (next bytes).1 = .error error ∧ Reported error ∧ Torn (next bytes).2)
    {bytes : Bytes} (isTorn : Torn bytes) (calls : Nat) :
    ∀ res ∈ results next calls bytes, ∃ error, res = .error error ∧ Reported error := by
  induction calls generalizing bytes with
  | zero =>
    intro res mem
    cases mem
  | succ calls ih =>
    obtain ⟨error, failed, reported, stillTorn⟩ := fails bytes isTorn
    intro res mem
    rcases mem_cons.mp mem with first | later
    · exact ⟨error, first.trans failed, reported⟩
    · exact ih stillTorn res later

/-- Reads of a log that was cut off yield the frames before the cut, then failures. -/
theorem results_take_frames {encode : Frame → Bytes} {item : Frame → Item}
    (fails : ∀ bytes, Torn bytes →
      ∃ error, (next bytes).1 = .error error ∧ Reported error ∧ Torn (next bytes).2)
    (ends : Torn []) {frames : List Frame}
    (intact : ∀ frame ∈ frames, ∀ rest, next (encode frame ++ rest) = (.ok (item frame), rest))
    (cut : ∀ frame ∈ frames, ∀ size < (encode frame).length, Torn ((encode frame).take size))
    (size calls : Nat) :
    ∃ failures : List (Except Error Item),
      results next calls ((frames.flatMap encode).take size) =
        ((within encode size frames).map fun frame => .ok (item frame)).take calls ++ failures ∧
      ∀ failure ∈ failures, ∃ error, failure = .error error ∧ Reported error := by
  induction frames generalizing size calls with
  | nil =>
    rw [flatMap_nil, take_nil, within, map_nil, take_nil]
    exact ⟨results next calls [], rfl, results_of_torn fails ends calls⟩
  | cons head tail ih =>
    rw [forall_mem_cons] at intact cut
    rw [flatMap_cons, within]
    by_cases lt : (encode head).length ≤ size
    · rw [if_pos lt, take_append, take_of_length_le lt]
      cases calls with
      | zero => exact ⟨[], rfl, fun _ mem => nomatch mem⟩
      | succ calls =>
        obtain ⟨failures, same, reported⟩ := ih intact.2 cut.2 (size - (encode head).length) calls
        refine ⟨failures, ?_, reported⟩
        rw [results, intact.1, same]
        rfl
    · have tornHead := cut.1 size (by omega)
      rw [if_neg lt, take_append_of_le_length (by omega), map_nil, take_nil]
      exact ⟨results next calls ((encode head).take size), rfl,
        results_of_torn fails tornHead calls⟩

end Torn

end Scan
