import CedarGraph.Lib.ByteOrder
import CedarGraph.Wal.Record

/-!
# The orders of keys

A key is compared by `CompareForSorting`, by `Compare`, and by `memcmp` on its 32 bytes. The
first two read some members as they are stored, which on a little-endian host orders them by the
least significant byte of their value first.
-/

namespace CedarGraph

open FixedWidth

section Values

variable {alpha : Type} [LT alpha] [DecidableLT alpha] [DecidableEq alpha] {value : alpha → Nat}

theorem compare_value (lt : ∀ {left right}, left < right ↔ value left < value right)
    (inj : ∀ {left right}, value left = value right ↔ left = right) (left right : alpha) :
    compare (value left) (value right) = compareOfLessAndEq left right := by
  simp only [compare, compareOfLessAndEq, lt, ← inj]

/-- Numbers read in the opposite byte order are compared by the least significant byte first. -/
theorem compare_swapped (lt : ∀ {left right}, left < right ↔ value left < value right)
    (inj : ∀ {left right}, value left = value right ↔ left = right) {ofNat : Nat → alpha}
    {width : Nat} (read : ∀ {number}, number < 256 ^ width → value (ofNat number) = number)
    (left right : alpha) :
    compareOfLessAndEq (ofNat (beValue (leBytes width (value left))))
        (ofNat (beValue (leBytes width (value right)))) =
      compareBytes (leBytes width (value left)) (leBytes width (value right)) := by
  have stored : ∀ item, value (ofNat (beValue (leBytes width (value item)))) =
      beValue (leBytes width (value item)) := by
    intro item
    have bound := beValue_lt (leBytes width (value item))
    rw [length_leBytes] at bound
    exact read bound
  rw [compareBytes_eq_compare_beValue (by simp), ← compare_value lt inj, stored, stored]

end Values

theorem compare_toNat64 (left right : UInt64) :
    compare left.toNat right.toNat = compare left right :=
  compare_value UInt64.lt_iff_toNat_lt UInt64.toNat_inj left right

theorem compare_toNat16 (left right : UInt16) :
    compare left.toNat right.toNat = compare left right :=
  compare_value UInt16.lt_iff_toNat_lt UInt16.toNat_inj left right

theorem compare_toNat8 (left right : UInt8) :
    compare left.toNat right.toNat = compare left right :=
  compare_value UInt8.lt_iff_toNat_lt UInt8.toNat_inj left right

theorem compare_bswap64 (left right : UInt64) :
    compare (bswap64 left) (bswap64 right) =
      compareBytes (leBytes 8 left.toNat) (leBytes 8 right.toNat) :=
  compare_swapped UInt64.lt_iff_toNat_lt UInt64.toNat_inj UInt64.toNat_ofNat_of_lt' left right

theorem compare_bswap16 (left right : UInt16) :
    compare (bswap16 left) (bswap16 right) =
      compareBytes (leBytes 2 left.toNat) (leBytes 2 right.toNat) :=
  compare_swapped UInt16.lt_iff_toNat_lt UInt16.toNat_inj UInt16.toNat_ofNat_of_lt' left right

namespace CedarKey

variable (left right : CedarKey)

theorem toNat_complement (ts : UInt64) : (uint64Max - ts).toNat = 256 ^ 8 - 1 - ts.toNat := by
  rw [UInt64.toNat_sub_of_le _ _ (le_uint64Max ts)]
  rfl

theorem compare_complement (left right : UInt64) :
    compare (uint64Max - left) (uint64Max - right) = compare right left := by
  have leftBound := left.toNat_lt
  have rightBound := right.toNat_lt
  rw [← compare_toNat64, ← compare_toNat64, toNat_complement, toNat_complement]
  simp only [compare, compareOfLessAndEq]
  split_ifs <;> first | rfl | omega

/-- The stored timestamps are ordered by the bytes of the timestamps, the least significant one
first, in the opposite direction. -/
theorem compare_timestampBe :
    compare left.timestampBe right.timestampBe =
      compareBytes (leBytes 8 right.timestamp.toNat) (leBytes 8 left.timestamp.toNat) := by
  rw [timestampBe, timestampBe, compare_bswap64, toNat_complement, toNat_complement,
    leBytes_complement left.timestamp.toNat_lt, leBytes_complement right.timestamp.toNat_lt,
    compareBytes_map_complement (by simp)]

/-- Entity, type, column and target, in this order. -/
def compareVersioned : Ordering :=
  (compare left.entityId right.entityId).then <|
  (compare left.entityType right.entityType).then <|
  (compare left.columnId right.columnId).then <|
  compare left.targetId right.targetId

/-- The contract of the sort order: the newest version of an item first, and versions of one
time by their sequence. -/
def NewestFirst : Prop :=
  left.compareVersioned right = .lt ∨
    left.compareVersioned right = .eq ∧
      (right.timestamp < left.timestamp ∨
        left.timestamp = right.timestamp ∧ left.sequence < right.sequence)

instance (left right : CedarKey) : Decidable (left.NewestFirst right) :=
  inferInstanceAs (Decidable (_ ∨ _))

theorem compareForSorting_eq :
    left.compareForSorting right =
      (left.compareVersioned right).then
        ((compareBytes (leBytes 8 left.timestamp.toNat) (leBytes 8 right.timestamp.toNat)).then
          (compare left.sequence right.sequence)) := by
  rw [compareForSorting, compareVersioned, compare_timestampBe]
  simp only [Ordering.then_assoc]

theorem compareBytes_timestamp_eq_iff (left right : UInt64) :
    compareBytes (leBytes 8 left.toNat) (leBytes 8 right.toNat) = .eq ↔ left = right := by
  rw [compareBytes_eq_iff, ← UInt64.toNat_inj]
  constructor
  · intro same
    have values := congrArg leValue same
    rwa [leValue_leBytes_of_lt left.toNat_lt, leValue_leBytes_of_lt right.toNat_lt] at values
  · intro same
    rw [same]

/-- Versions of one item are sorted newest first exactly if the bytes of their timestamps, the
least significant one first, are in the opposite order to the timestamps. -/
theorem sorts_newestFirst_iff (left right : CedarKey) :
    (left.compareForSorting right = .lt ↔ left.NewestFirst right) ↔
      (left.compareVersioned right = .eq →
        (compareBytes (leBytes 8 left.timestamp.toNat) (leBytes 8 right.timestamp.toNat) = .lt ↔
          right.timestamp < left.timestamp)) := by
  rw [compareForSorting_eq, NewestFirst]
  cases left.compareVersioned right with
  | lt => simp
  | gt => simp
  | eq =>
    by_cases sameTime : left.timestamp = right.timestamp
    · have sameBytes :=
        (compareBytes_timestamp_eq_iff left.timestamp right.timestamp).mpr sameTime
      have bySequence : compare left.sequence right.sequence = .lt ↔
          left.sequence < right.sequence := Std.compare_eq_lt
      rw [sameBytes, Ordering.eq_then, Ordering.eq_then, bySequence, sameTime]
      simp [UInt64.lt_irrefl]
    · have differ :=
        mt (compareBytes_timestamp_eq_iff left.timestamp right.timestamp).mp sameTime
      cases bytes : compareBytes (leBytes 8 left.timestamp.toNat)
          (leBytes 8 right.timestamp.toNat) with
      | lt => simp [sameTime]
      | gt => simp [sameTime]
      | eq => exact absurd bytes differ

theorem older_before_newer :
    ¬ ((vertex 1 1 2 0 0 0 0).compareForSorting (vertex 1 1 1 0 0 0 0) = .lt ↔
      (vertex 1 1 2 0 0 0 0).NewestFirst (vertex 1 1 1 0 0 0 0)) := by
  decide

/-- `CedarKeyComparator::Compare` on two slices. -/
def comparatorCompare (left right : Bytes) : Ordering :=
  if left.length < 32 ∨ right.length < 32 then compare left.length right.length
  else compareBytes (left.take 32) (right.take 32)

/-- The members behind the entity in the order of their bytes: later timestamps first, then
target, column, sequence, type and flags. -/
def compareLayout : Ordering :=
  (compare right.timestamp left.timestamp).then <|
  (compare left.targetId right.targetId).then <|
  (compare left.columnId right.columnId).then <|
  (compare left.sequence right.sequence).then <|
  (compare left.entityType right.entityType).then <|
  compare left.flags right.flags

/-- The members behind the entity in the order of `Compare`: type, column, target, later
timestamps first, sequence and flags, where those of several bytes are compared by the least
significant byte first. -/
def compareReversed : Ordering :=
  (compare left.entityType right.entityType).then <|
  (compareBytes (leBytes 2 left.columnId.toNat) (leBytes 2 right.columnId.toNat)).then <|
  (compareBytes (leBytes 8 left.targetId.toNat) (leBytes 8 right.targetId.toNat)).then <|
  (compareBytes (leBytes 8 right.timestamp.toNat) (leBytes 8 left.timestamp.toNat)).then <|
  (compareBytes (leBytes 2 left.sequence.toNat) (leBytes 2 right.sequence.toNat)).then <|
  compare left.flags right.flags

theorem compareKeys_eq :
    left.compareKeys right =
      (compare left.entityId right.entityId).then (left.compareReversed right) := by
  rw [compareKeys, compareReversed, compare_bswap16, compare_bswap64, compare_timestampBe,
    compare_bswap16]

theorem comparatorCompare_encode
    {left right : CedarKey} (samePartition : left.partId = right.partId) :
    comparatorCompare left.encode right.encode =
      (compare left.entityId right.entityId).then (left.compareLayout right) := by
  have leftWhole : left.encode.take 32 = left.encode := List.take_of_length_le (by simp)
  have rightWhole : right.encode.take 32 = right.encode := List.take_of_length_le (by simp)
  have partitions : compare left.partId right.partId = .eq :=
    Std.LawfulEqOrd.compare_eq_iff_eq.mpr samePartition
  rw [comparatorCompare, if_neg (by simp), leftWhole, rightWhole, encode, encode, layout, layout,
    compareLayout,
    compareBytes_fields_cons left.entityId.toNat_lt right.entityId.toNat_lt,
    compareBytes_fields_cons (UInt64.toNat_lt _) (UInt64.toNat_lt _),
    compareBytes_fields_cons left.targetId.toNat_lt right.targetId.toNat_lt,
    compareBytes_fields_cons left.columnId.toNat_lt right.columnId.toNat_lt,
    compareBytes_fields_cons left.sequence.toNat_lt right.sequence.toNat_lt,
    compareBytes_fields_cons left.entityType.toNat_lt right.entityType.toNat_lt,
    compareBytes_fields_cons left.flags.toNat_lt right.flags.toNat_lt,
    compareBytes_fields_cons left.partId.toNat_lt right.partId.toNat_lt]
  simp only [compare_toNat64, compare_toNat16, compare_toNat8, compare_complement, partitions,
    fields, List.flatMap_nil, compareBytes, Ordering.then_eq]

/-- For keys of one entity the two orders have to agree on the remaining members. -/
theorem comparator_agrees_iff
    (left right : CedarKey) (samePartition : left.partId = right.partId) :
    comparatorCompare left.encode right.encode = left.compareKeys right ↔
      left.entityId ≠ right.entityId ∨ left.compareLayout right = left.compareReversed right := by
  rw [comparatorCompare_encode samePartition, compareKeys_eq]
  by_cases sameEntity : left.entityId = right.entityId
  · rw [Std.LawfulEqOrd.compare_eq_iff_eq.mpr sameEntity, Ordering.eq_then, Ordering.eq_then]
    simp [sameEntity]
  · have differ := mt Std.LawfulEqOrd.compare_eq_iff_eq.mp sameEntity
    cases order : compare left.entityId right.entityId with
    | lt => simp [sameEntity]
    | gt => simp [sameEntity]
    | eq => exact absurd order differ

theorem comparator_agrees_small_columns :
    (vertex 1 1 100 0 0 0 0).partId = (vertex 1 2 100 0 0 0 0).partId ∧
      comparatorCompare (vertex 1 1 100 0 0 0 0).encode (vertex 1 2 100 0 0 0 0).encode =
        (vertex 1 1 100 0 0 0 0).compareKeys (vertex 1 2 100 0 0 0 0) ∧
      comparatorCompare (vertex 1 1 100 0 0 0 0).encode (vertex 2 1 100 0 0 0 0).encode =
        (vertex 1 1 100 0 0 0 0).compareKeys (vertex 2 1 100 0 0 0 0) :=
  ⟨by decide, (comparator_agrees_iff _ _ (by decide)).mpr (.inr (by decide)),
    (comparator_agrees_iff _ _ (by decide)).mpr (.inl (by decide))⟩

theorem comparator_disagrees :
    (vertex 1 1 100 0 0 0 0).partId = (vertex 1 256 100 0 0 0 0).partId ∧
      comparatorCompare (vertex 1 1 100 0 0 0 0).encode (vertex 1 256 100 0 0 0 0).encode = .lt ∧
      (vertex 1 1 100 0 0 0 0).compareKeys (vertex 1 256 100 0 0 0 0) = .gt := by
  decide

end CedarKey

end CedarGraph
