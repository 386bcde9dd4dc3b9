import CedarGraph.Lib.FixedWidth

/-!
# Bloom filters over a byte bitmap

A filter is a bitmap and a list of probe positions for each key. Adding a key sets its probes; a
lookup asks whether all are set. A key that was added is never denied.
-/

namespace Bloom

open FixedWidth List

def setBit (data : Bytes) (pos : Nat) : Bytes :=
  data.modify (pos / 8) fun byte => byte ||| UInt8.ofNat (2 ^ (pos % 8))

def getBit (data : Bytes) (pos : Nat) : Bool :=
  (data.getD (pos / 8) 0).toNat.testBit (pos % 8)

@[simp]
theorem length_setBit (data : Bytes) (pos : Nat) : (setBit data pos).length = data.length := by
  simp [setBit]

private theorem testBit_or_pow (byte : UInt8) {bit : Nat} (bitBound : bit < 8) (other : Nat) :
    (byte ||| UInt8.ofNat (2 ^ bit)).toNat.testBit other =
      (byte.toNat.testBit other || decide (bit = other)) := by
  have small : 2 ^ bit < 256 := by
    calc 2 ^ bit < 2 ^ 8 := Nat.pow_lt_pow_right (by omega) bitBound
      _ = 256 := by norm_num
  rw [UInt8.toNat_or, Nat.testBit_or, UInt8.toNat_ofNat_of_lt' (by simpa using small),
    Nat.testBit_two_pow]

theorem getBit_setBit (data : Bytes) {pos other : Nat} (lt : other / 8 < data.length) :
    getBit (setBit data pos) other = (getBit data other || decide (pos = other)) := by
  have bitBound : pos % 8 < 8 := Nat.mod_lt _ (by omega)
  rw [getBit, getBit, setBit, getD_eq_getElem?_getD, List.getElem?_modify,
    getD_eq_getElem?_getD, List.getElem?_eq_getElem lt]
  by_cases sameByte : pos / 8 = other / 8
  · simp only [sameByte, if_true, Option.map_eq_map, Option.map_some, Option.getD_some]
    rw [testBit_or_pow _ bitBound]
    congr 1
    rw [decide_eq_decide]
    omega
  · have ne : ¬ pos = other := by
      rintro rfl
      exact sameByte rfl
    simp [sameByte, ne]

section Filter

variable {alpha : Type*} (probes : alpha → List Nat)

def add (data : Bytes) (key : alpha) : Bytes :=
  (probes key).foldl setBit data

def mayContain (data : Bytes) (key : alpha) : Bool :=
  (probes key).all (getBit data)

def addAll (data : Bytes) (keys : List alpha) : Bytes :=
  keys.foldl (add probes) data

private theorem length_foldl_setBit (positions : List Nat) (data : Bytes) :
    (positions.foldl setBit data).length = data.length := by
  induction positions generalizing data with
  | nil => rfl
  | cons head tail ih => rw [foldl_cons, ih, length_setBit]

private theorem getBit_foldl_setBit (positions : List Nat) (data : Bytes) {other : Nat}
    (lt : other / 8 < data.length) :
    getBit (positions.foldl setBit data) other =
      (getBit data other || decide (other ∈ positions)) := by
  induction positions generalizing data with
  | nil => simp
  | cons head tail ih =>
    rw [foldl_cons, ih _ (by simpa using lt), getBit_setBit data lt, Bool.or_assoc]
    congr 1
    simp only [mem_cons, eq_comm, Bool.decide_or]

theorem length_addAll (data : Bytes) (keys : List alpha) :
    (addAll probes data keys).length = data.length := by
  induction keys generalizing data with
  | nil => rfl
  | cons head tail ih =>
    have unfolded : addAll probes data (head :: tail) =
        addAll probes (add probes data head) tail := rfl
    rw [unfolded, ih, add, length_foldl_setBit]

private theorem getBit_addAll_of_getBit (keys : List alpha) {data : Bytes} {other : Nat}
    (lt : other / 8 < data.length) (isSet : getBit data other = true) :
    getBit (addAll probes data keys) other = true := by
  induction keys generalizing data with
  | nil => exact isSet
  | cons head tail ih =>
    apply ih
    · rw [add, length_foldl_setBit]
      exact lt
    · rw [add, getBit_foldl_setBit _ _ lt, isSet, Bool.true_or]

theorem mayContain_addAll {data : Bytes} (lt : ∀ key, ∀ pos ∈ probes key, pos / 8 < data.length)
    {keys : List alpha} {key : alpha} (mem : key ∈ keys) :
    mayContain probes (addAll probes data keys) key = true := by
  induction keys generalizing data with
  | nil => cases mem
  | cons head tail ih =>
    have insideAfter : ∀ other, ∀ pos ∈ probes other, pos / 8 < (add probes data head).length := by
      rw [add, length_foldl_setBit]
      exact lt
    rcases mem_cons.mp mem with rfl | tailMember
    · rw [mayContain, all_eq_true]
      intro pos positionMember
      apply getBit_addAll_of_getBit probes tail (insideAfter key pos positionMember)
      rw [add, getBit_foldl_setBit _ _ (lt key pos positionMember)]
      simp [positionMember]
    · exact ih insideAfter tailMember

end Filter

end Bloom
