import CedarGraph.Lib.FixedWidth

/-!
# The order of byte strings

`memcmp` on byte strings of one length is the order of the numbers they stand for, the most
significant byte first.  Complementing every byte turns the order around.
-/

namespace FixedWidth

open List Nat

/-- `memcmp`: the first byte that differs decides. -/
def compareBytes : Bytes → Bytes → Ordering
  | [], [] => .eq
  | [], _ :: _ => .lt
  | _ :: _, [] => .gt
  | left :: lefts, right :: rights => (compare left right).then (compareBytes lefts rights)

theorem compareBytes_append
    {left right : Bytes} (sameLength : left.length = right.length) (lefts rights : Bytes) :
    compareBytes (left ++ lefts) (right ++ rights) =
      (compareBytes left right).then (compareBytes lefts rights) := by
  induction left generalizing right with
  | nil =>
    rw [eq_nil_of_length_eq_zero sameLength.symm]
    rfl
  | cons head tail ih =>
    cases right with
    | nil => cases sameLength
    | cons other others =>
      rw [cons_append, cons_append, compareBytes, compareBytes,
        ih (succ.inj sameLength), Ordering.then_assoc]

theorem compareBytes_eq_iff (left right : Bytes) :
    compareBytes left right = .eq ↔ left = right := by
  induction left generalizing right with
  | nil => cases right <;> simp [compareBytes]
  | cons head tail ih =>
    cases right with
    | nil => simp [compareBytes]
    | cons other others =>
      rw [compareBytes, Ordering.then_eq_eq, ih, Std.LawfulEqOrd.compare_eq_iff_eq, List.cons.injEq]

theorem leValue_append (low high : Bytes) :
    leValue (low ++ high) = leValue low + 256 ^ low.length * leValue high := by
  induction low with
  | nil => simp [leValue]
  | cons byte rest ih =>
    rw [cons_append, leValue, leValue, ih, length_cons, pow_succ]
    ring

theorem leValue_lt (bytes : Bytes) : leValue bytes < 256 ^ bytes.length := by
  induction bytes with
  | nil => simp [leValue]
  | cons byte rest ih =>
    have bound := byte.toNat_lt
    rw [leValue, length_cons, pow_succ]
    omega

theorem beValue_cons (byte : UInt8) (rest : Bytes) :
    beValue (byte :: rest) = byte.toNat * 256 ^ rest.length + beValue rest := by
  rw [beValue, reverse_cons, leValue_append, length_reverse, beValue]
  simp only [leValue]
  ring

theorem beValue_lt (bytes : Bytes) : beValue bytes < 256 ^ bytes.length := by
  simpa [beValue] using leValue_lt bytes.reverse

private theorem compare_byte (left right : UInt8) :
    compare left right = compare left.toNat right.toNat := by
  simp only [compare, compareOfLessAndEq, UInt8.lt_iff_toNat_lt, ← UInt8.toNat_inj]

private theorem compare_digits
    {base left right low otherLow : Nat} (bound : low < base) (otherBound : otherLow < base) :
    compare (left * base + low) (right * base + otherLow) =
      (compare left right).then (compare low otherLow) := by
  rcases lt_trichotomy left right with less | same | greater
  · have step : (left + 1) * base ≤ right * base := mul_le_mul_right _ less
    rw [add_mul, one_mul] at step
    rw [compare_lt_iff_lt.mpr less, compare_lt_iff_lt.mpr (by omega), Ordering.lt_then]
  · rw [same, compare_eq_iff_eq.mpr rfl, Ordering.eq_then]
    simp only [compare, compareOfLessAndEq, add_lt_add_iff_left, add_left_cancel_iff]
  · have step : (right + 1) * base ≤ left * base := mul_le_mul_right _ greater
    rw [add_mul, one_mul] at step
    rw [compare_gt_iff_gt.mpr greater, compare_gt_iff_gt.mpr (by omega), Ordering.gt_then]

theorem compareBytes_eq_compare_beValue
    {left right : Bytes} (sameLength : left.length = right.length) :
    compareBytes left right = compare (beValue left) (beValue right) := by
  induction left generalizing right with
  | nil =>
    rw [eq_nil_of_length_eq_zero sameLength.symm]
    rfl
  | cons head tail ih =>
    cases right with
    | nil => cases sameLength
    | cons other others =>
      have tails : tail.length = others.length := succ.inj sameLength
      have leftBound := beValue_lt tail
      rw [tails] at leftBound
      rw [compareBytes, ih tails, beValue_cons, beValue_cons, tails,
        compare_digits leftBound (beValue_lt others), compare_byte]

theorem compareBytes_beBytes
    {width left right : Nat} (leftBound : left < 256 ^ width) (rightBound : right < 256 ^ width) :
    compareBytes (beBytes width left) (beBytes width right) = compare left right := by
  rw [compareBytes_eq_compare_beValue (by simp), beValue_beBytes_of_lt leftBound,
    beValue_beBytes_of_lt rightBound]

/-- Records of big-endian fields are ordered by their fields, from the first one on. -/
theorem compareBytes_fields_cons
    {width left right : Nat} (leftBound : left < 256 ^ width) (rightBound : right < 256 ^ width)
    (lefts rights : List (Nat × Nat)) :
    compareBytes (fields beBytes ((width, left) :: lefts))
        (fields beBytes ((width, right) :: rights)) =
      (compare left right).then
        (compareBytes (fields beBytes lefts) (fields beBytes rights)) := by
  rw [fields, fields, flatMap_cons, flatMap_cons, compareBytes_append (by simp),
    compareBytes_beBytes leftBound rightBound]
  rfl

theorem leBytes_complement {width value : Nat} (bound : value < 256 ^ width) :
    leBytes width (256 ^ width - 1 - value) = (leBytes width value).map fun byte => 255 - byte := by
  induction width generalizing value with
  | zero => rfl
  | succ width ih =>
    rw [pow_succ] at bound
    have high : value / 256 < 256 ^ width := by
      omega
    have low : (256 ^ (width + 1) - 1 - value) / 256 = 256 ^ width - 1 - value / 256 := by
      rw [pow_succ]
      omega
    have byte : UInt8.ofNat (256 ^ (width + 1) - 1 - value) = 255 - UInt8.ofNat value := by
      rw [← UInt8.toNat_inj]
      have below : UInt8.ofNat value ≤ 255 := by
        rw [UInt8.le_iff_toNat_le]
        have bound := (UInt8.ofNat value).toNat_lt
        exact le_of_lt_succ bound
      rw [UInt8.toNat_sub_of_le _ _ below]
      simp only [UInt8.toNat_ofNat', reducePow, UInt8.reduceToNat]
      rw [pow_succ]
      omega
    rw [leBytes, leBytes, map_cons, byte, low, ih high]

theorem compareBytes_map_complement {left right : Bytes} (sameLength : left.length = right.length) :
    compareBytes (left.map fun byte => 255 - byte) (right.map fun byte => 255 - byte) =
      compareBytes right left := by
  have complement : ∀ left right : UInt8,
      compare (255 - left) (255 - right) = compare right left := by
    intro left right
    have leftBelow : left ≤ 255 := UInt8.le_iff_toNat_le.mpr (le_of_lt_succ left.toNat_lt)
    have rightBelow : right ≤ 255 := UInt8.le_iff_toNat_le.mpr (le_of_lt_succ right.toNat_lt)
    have leftBound := left.toNat_lt
    have rightBound := right.toNat_lt
    rw [compare_byte, compare_byte, UInt8.toNat_sub_of_le _ _ leftBelow,
      UInt8.toNat_sub_of_le _ _ rightBelow]
    simp only [compare, compareOfLessAndEq, UInt8.reduceToNat]
    split_ifs <;> first | rfl | omega
  induction left generalizing right with
  | nil =>
    rw [eq_nil_of_length_eq_zero sameLength.symm]
    rfl
  | cons head tail ih =>
    cases right with
    | nil => cases sameLength
    | cons other others =>
      rw [map_cons, map_cons, compareBytes, compareBytes, complement, ih (succ.inj sameLength)]

end FixedWidth
