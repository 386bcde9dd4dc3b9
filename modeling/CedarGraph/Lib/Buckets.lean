import Mathlib

/-!
# Items in buckets

A map from keys to lists, in the order in which a walk meets the keys.  Each item lies in the
bucket of its own key, so that an operation on one bucket filters the items by their keys.
-/

namespace Buckets

open List

variable {κ α : Type*} [DecidableEq κ]

def find (buckets : List (κ × List α)) (key : κ) : List α :=
  (buckets.lookup key).getD []

def items (buckets : List (κ × List α)) : List α :=
  buckets.flatMap Prod.snd

def push (key : κ) (item : α) : List (κ × List α) → List (κ × List α)
  | [] => [(key, [item])]
  | bucket :: rest =>
    if bucket.1 = key then (bucket.1, bucket.2 ++ [item]) :: rest
    else bucket :: push key item rest

/-- The items of one bucket that pass the test go, and the bucket when nothing is left. -/
def removeIf (key : κ) (test : α → Bool) (buckets : List (κ × List α)) : List (κ × List α) :=
  buckets.filterMap fun bucket =>
    if bucket.1 = key then
      let kept := bucket.2.filter fun item => !test item
      if kept.isEmpty then none else some (bucket.1, kept)
    else some bucket

def eraseKey (key : κ) (buckets : List (κ × List α)) : List (κ × List α) :=
  buckets.filterMap fun bucket => if bucket.1 = key then none else some bucket

def removeAll (test : α → Bool) (buckets : List (κ × List α)) : List (κ × List α) :=
  buckets.filterMap fun bucket => some (bucket.1, bucket.2.filter fun item => !test item)

/-- Every item satisfies the property at the key under which it is found. -/
def Each (property : κ → α → Prop) (buckets : List (κ × List α)) : Prop :=
  ∀ bucket ∈ buckets, ∀ item ∈ bucket.2, property bucket.1 item

variable {buckets : List (κ × List α)} {key : κ} {item : α} {property : κ → α → Prop}
  {keyOf : α → κ} {test : α → Bool}

theorem Each.find (each : Each property buckets) (mem : item ∈ find buckets key) :
    property key item := by
  induction buckets with
  | nil => cases mem
  | cons bucket rest ih =>
    obtain ⟨own, others⟩ := forall_mem_cons.mp each
    rw [Buckets.find, lookup_cons] at mem
    split at mem
    · rename_i same
      rw [eq_of_beq same]
      exact own item mem
    · exact ih others mem

theorem Each.push (each : Each property buckets) (new : property key item) :
    Each property (push key item buckets) := by
  induction buckets with
  | nil => simpa [Each, Buckets.push] using new
  | cons bucket rest ih =>
    obtain ⟨own, others⟩ := forall_mem_cons.mp each
    rw [Buckets.push]
    split
    · rename_i same
      refine forall_mem_cons.mpr ⟨?_, others⟩
      rw [forall_mem_append]
      exact ⟨own, by simpa [same] using new⟩
    · exact forall_mem_cons.mpr ⟨own, ih others⟩

theorem items_push (key : κ) (item : α) (buckets : List (κ × List α)) :
    (items (push key item buckets)).Perm (item :: items buckets) := by
  induction buckets with
  | nil => simp [push, items]
  | cons bucket rest ih =>
    rw [push]
    split
    · simp only [items, flatMap_cons, append_assoc]
      exact perm_middle
    · simp only [items, flatMap_cons] at ih ⊢
      exact (ih.append_left _).trans perm_middle

/-- The operation leaves of each bucket the items that are to be kept. -/
def Sweeps (keep : α → Bool) (change : κ × List α → Option (κ × List α))
    (buckets : List (κ × List α)) : Prop :=
  ∀ bucket ∈ buckets, match change bucket with
    | none => bucket.2.filter keep = []
    | some new => new.1 = bucket.1 ∧ new.2 = bucket.2.filter keep

variable {keep : α → Bool} {change : κ × List α → Option (κ × List α)}

omit [DecidableEq κ] in
theorem Sweeps.items (sweeps : Sweeps keep change buckets) :
    items (buckets.filterMap change) = (items buckets).filter keep := by
  induction buckets with
  | nil => rfl
  | cons bucket rest ih =>
    obtain ⟨head, others⟩ := forall_mem_cons.mp sweeps
    have later := ih others
    simp only [Buckets.items, filterMap_cons, flatMap_cons, filter_append] at later ⊢
    cases shape : change bucket with
    | none => simpa [shape, later] using head
    | some new => simp_all

omit [DecidableEq κ] in
theorem Sweeps.each (sweeps : Sweeps keep change buckets) (each : Each property buckets) :
    Each property (buckets.filterMap change) := by
  intro new mem item inNew
  obtain ⟨bucket, inBuckets, isNew⟩ := mem_filterMap.mp mem
  have swept := sweeps bucket inBuckets
  rw [isNew] at swept
  rw [swept.2] at inNew
  rw [swept.1]
  exact each bucket inBuckets item (mem_of_mem_filter inNew)

section Own

variable (own : Each (fun key item => keyOf item = key) buckets)
include own

theorem sweeps_removeIf (key : κ) (test : α → Bool) :
    Sweeps (fun item => !(decide (keyOf item = key) && test item)) (fun bucket =>
      if bucket.1 = key then
        let kept := bucket.2.filter fun item => !test item
        if kept.isEmpty then none else some (bucket.1, kept)
      else some bucket) buckets := by
  intro bucket mem
  have kept : bucket.2.filter (fun item => !(decide (keyOf item = key) && test item)) =
      bucket.2.filter fun item => !(decide (bucket.1 = key) && test item) :=
    filter_congr fun item inBucket => by rw [own bucket mem item inBucket]
  by_cases same : bucket.1 = key
  · grind
  · simp only [if_neg same, kept]
    simp [same]

theorem sweeps_eraseKey (key : κ) :
    Sweeps (fun item => keyOf item ≠ key)
      (fun bucket => if bucket.1 = key then none else some bucket) buckets := by
  intro bucket mem
  have kept : bucket.2.filter (fun item => decide (keyOf item ≠ key)) =
      bucket.2.filter fun _ => decide (bucket.1 ≠ key) :=
    filter_congr fun item inBucket => by rw [own bucket mem item inBucket]
  by_cases same : bucket.1 = key
  · simp only [if_pos same, kept]
    simp [same]
  · simp only [if_neg same, kept]
    simp [same]

end Own

omit [DecidableEq κ] in
theorem sweeps_removeAll (test : α → Bool) (buckets : List (κ × List α)) :
    Sweeps (fun item => !test item)
      (fun bucket => some (bucket.1, bucket.2.filter fun item => !test item)) buckets :=
  fun _ _ => ⟨rfl, rfl⟩

end Buckets
