import Mathlib

/-!
# Fixed-width integers in byte lists

Naturals as a fixed number of bytes, least or most significant first, reads at an offset, and
the laws by which a decoder runs on the output of its encoder.
-/

namespace FixedWidth

open List

abbrev Bytes := List UInt8

/-- The `width` low bytes of `value`, least significant first. -/
def leBytes : Nat → Nat → Bytes
  | 0, _ => []
  | width + 1, value => UInt8.ofNat value :: leBytes width (value / 256)

/-- The natural whose little-endian bytes are given. -/
def leValue : Bytes → Nat
  | [] => 0
  | byte :: rest => byte.toNat + 256 * leValue rest

variable (width value : Nat)

/-- The `width` low bytes of `value`, most significant first. -/
def beBytes : Bytes :=
  (leBytes width value).reverse

/-- The natural whose big-endian bytes are given. -/
def beValue (bytes : Bytes) : Nat :=
  leValue bytes.reverse

@[simp]
theorem length_leBytes : (leBytes width value).length = width := by
  induction width generalizing value with
  | zero => rfl
  | succ width ih => simp [leBytes, ih]

@[simp]
theorem length_beBytes : (beBytes width value).length = width := by
  simp [beBytes]

theorem leValue_leBytes : leValue (leBytes width value) = value % 256 ^ width := by
  induction width generalizing value with
  | zero => simp [leBytes, leValue, Nat.mod_one]
  | succ width ih =>
    have low : (UInt8.ofNat value).toNat = value % 256 := by
      simp
    rw [leBytes, leValue, ih, low, Nat.pow_succ', Nat.mod_mul]

theorem leValue_leBytes_of_lt {width value : Nat} (bound : value < 256 ^ width) :
    leValue (leBytes width value) = value := by
  rw [leValue_leBytes, Nat.mod_eq_of_lt bound]

theorem beValue_beBytes_of_lt {width value : Nat} (bound : value < 256 ^ width) :
    beValue (beBytes width value) = value := by
  rw [beValue, beBytes, reverse_reverse, leValue_leBytes_of_lt bound]

/-- Encode every item with the same encoder and concatenate the cells. -/
def column {alpha : Type*} (encode : alpha → Bytes) (items : List alpha) : Bytes :=
  items.flatMap encode

/-- A record whose fields are given as widths and values. -/
def fields (encode : Nat → Nat → Bytes) (layout : List (Nat × Nat)) : Bytes :=
  layout.flatMap fun field => encode field.1 field.2

/-- The values of consecutive fields of the given widths. -/
def readFields (decode : Bytes → Nat) : List Nat → Bytes → List Nat
  | [], _ => []
  | width :: widths, bytes =>
    decode (bytes.take width) :: readFields decode widths (bytes.drop width)

theorem length_fields {encode : Nat → Nat → Bytes}
    (exactWidth : ∀ width value, (encode width value).length = width) (layout : List (Nat × Nat)) :
    (fields encode layout).length = (layout.map Prod.fst).sum := by
  rw [fields, length_flatMap]
  simp only [exactWidth]

theorem readFields_fields {encode : Nat → Nat → Bytes} {decode : Bytes → Nat}
    (exactWidth : ∀ width value, (encode width value).length = width)
    (undoes : ∀ {width value}, value < 256 ^ width → decode (encode width value) = value)
    {layout : List (Nat × Nat)} (bounds : ∀ field ∈ layout, field.2 < 256 ^ field.1)
    (rest : Bytes) :
    readFields decode (layout.map Prod.fst) (fields encode layout ++ rest) =
      layout.map Prod.snd := by
  induction layout with
  | nil => rfl
  | cons field tail ih =>
    have shape : fields encode (field :: tail) ++ rest =
        encode field.1 field.2 ++ (fields encode tail ++ rest) := by
      simp only [fields, flatMap_cons, append_assoc]
    rw [forall_mem_cons] at bounds
    rw [shape, map_cons, map_cons, readFields, take_left' (exactWidth field.1 field.2),
      drop_left' (exactWidth field.1 field.2),
      undoes bounds.1, ih bounds.2]

end FixedWidth
