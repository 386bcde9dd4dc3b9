import Mathlib

/-!
# The newest item at a bound

`newestAt time bound items` is the last item among those with the largest time that does not
exceed `bound`: the answer of a versioned store to a read as of `bound`. Stores find it by a
scan, by a walk down a chain of decreasing times, or by asking several layers in turn.
-/

namespace Newest

open List

variable {alpha : Type*} (time : alpha → Nat)

def newestAt (bound : Nat) : List alpha → Option alpha
  | [] => none
  | item :: rest =>
    match newestAt bound rest with
    | some best => if time item ≤ bound ∧ time best < time item then some item else some best
    | none => if time item ≤ bound then some item else none

/-- `best` is in the list, is not after the bound, and no item of the list
within the bound has a larger time. -/
structure IsNewest (bound : Nat) (items : List alpha) (best : alpha) : Prop where
  mem : best ∈ items
  within : time best ≤ bound
  largest : ∀ item ∈ items, time item ≤ bound → time item ≤ time best

variable {time} {bound : Nat}

variable {items : List alpha}

theorem newestAt_spec (items : List alpha) :
    newestAt time bound items = none ∧ (∀ item ∈ items, bound < time item) ∨
      ∃ best, newestAt time bound items = some best ∧ IsNewest time bound items best := by
  induction items with
  | nil => exact Or.inl ⟨rfl, forall_mem_nil _⟩
  | cons head tail ih =>
    rw [newestAt]
    rcases ih with ⟨nothing, tailAfter⟩ | ⟨tailBest, found, tailNewest⟩
    · rw [nothing]
      by_cases headWithin : time head ≤ bound
      · refine Or.inr ⟨head, if_pos headWithin, mem_cons_self, headWithin, ?_⟩
        rw [forall_mem_cons]
        refine ⟨fun _ => le_rfl, ?_⟩
        intro item itemTail itemWithin
        have := tailAfter item itemTail
        omega
      · exact Or.inl ⟨if_neg headWithin, forall_mem_cons.mpr ⟨by omega, tailAfter⟩⟩
    · rw [found]
      by_cases headNewer : time head ≤ bound ∧ time tailBest < time head
      · refine Or.inr ⟨head, if_pos headNewer, mem_cons_self, headNewer.1, ?_⟩
        rw [forall_mem_cons]
        refine ⟨fun _ => le_rfl, ?_⟩
        intro item itemTail itemWithin
        have := tailNewest.largest item itemTail itemWithin
        omega
      · refine Or.inr ⟨tailBest, if_neg headNewer, mem_cons_of_mem head tailNewest.mem,
          tailNewest.within, ?_⟩
        rw [forall_mem_cons]
        exact ⟨by omega, tailNewest.largest⟩

theorem newestAt_eq_none_iff :
    newestAt time bound items = none ↔ ∀ item ∈ items, bound < time item := by
  rcases newestAt_spec items with ⟨nothing, after⟩ | ⟨best, found, newest⟩
  · exact iff_of_true nothing after
  · refine iff_of_false (by simp [found]) ?_
    intro after
    exact absurd newest.within (Nat.not_le_of_lt (after best newest.mem))

theorem isNewest_of_newestAt {best : alpha}
    (found : newestAt time bound items = some best) : IsNewest time bound items best := by
  rcases newestAt_spec items with ⟨nothing, _⟩ | ⟨other, isOther, newest⟩
  · rw [nothing] at found
    cases found
  · rw [isOther] at found
    cases found
    exact newest

theorem isNewest_unique {left right : alpha}
    (distinct : ∀ a ∈ items, ∀ b ∈ items, time a = time b → a = b)
    (leftNewest : IsNewest time bound items left) (rightNewest : IsNewest time bound items right) :
    left = right := by
  have leftLe := rightNewest.largest left leftNewest.mem leftNewest.within
  have rightLe := leftNewest.largest right rightNewest.mem rightNewest.within
  exact distinct left leftNewest.mem right rightNewest.mem (by omega)

theorem eq_of_time_eq (increasing : items.Pairwise fun prev later => time prev < time later) :
    ∀ a ∈ items, ∀ b ∈ items, time a = time b → a = b := by
  have distinctTimes : (items.map time).Nodup := (pairwise_map.mpr increasing).imp Nat.ne_of_lt
  intro a aMember b bMember
  exact inj_on_of_nodup_map distinctTimes aMember bMember

theorem newestAt_eq_of_isNewest {best : alpha}
    (distinct : ∀ a ∈ items, ∀ b ∈ items, time a = time b → a = b)
    (bestNewest : IsNewest time bound items best) : newestAt time bound items = some best := by
  cases res : newestAt time bound items with
  | none =>
    have after := newestAt_eq_none_iff.mp res best bestNewest.mem
    have within := bestNewest.within
    omega
  | some found =>
    have foundNewest := isNewest_of_newestAt res
    rw [isNewest_unique distinct foundNewest bestNewest]

theorem newestAt_perm {items others : List alpha}
    (distinct : ∀ a ∈ items, ∀ b ∈ items, time a = time b → a = b) (perm : others.Perm items) :
    newestAt time bound others = newestAt time bound items := by
  cases res : newestAt time bound others with
  | none =>
    symm
    rw [newestAt_eq_none_iff] at res ⊢
    intro item itemMember
    exact res item (perm.mem_iff.mpr itemMember)
  | some found =>
    symm
    have foundNewest := isNewest_of_newestAt res
    apply newestAt_eq_of_isNewest distinct
    refine ⟨perm.mem_iff.mp foundNewest.mem, foundNewest.within, ?_⟩
    intro item itemMember
    exact foundNewest.largest item (perm.mem_iff.mpr itemMember)

/-- Lists with the same images have the same newest image, if it tells the time. -/
theorem map_newestAt_congr {beta : Type*} {image : alpha → beta} {stamp : beta → Nat}
    (times : ∀ item, time item = stamp (image item)) {others : List alpha}
    (same : ∀ item, item ∈ items.map image ↔ item ∈ others.map image)
    (distinct : ∀ a ∈ others, ∀ b ∈ others, time a = time b → a = b) :
    (newestAt time bound items).map image = (newestAt time bound others).map image := by
  cases res : newestAt time bound items with
  | none =>
    have nothing : newestAt time bound others = none := by
      rw [newestAt_eq_none_iff] at res ⊢
      intro other otherMember
      obtain ⟨item, itemMember, sameImage⟩ :=
        mem_map.mp ((same _).mpr (mem_map_of_mem otherMember))
      rw [times, ← sameImage, ← times]
      exact res item itemMember
    rw [nothing]
  | some best =>
    have newest := isNewest_of_newestAt res
    obtain ⟨other, otherMember, sameImage⟩ :=
      mem_map.mp ((same _).mp (mem_map_of_mem newest.mem))
    have sameTime : time other = time best := by rw [times, sameImage, ← times]
    have otherNewest : IsNewest time bound others other := by
      refine ⟨otherMember, sameTime ▸ newest.within, ?_⟩
      intro rival rivalMember rivalWithin
      obtain ⟨item, itemMember, rivalImage⟩ :=
        mem_map.mp ((same _).mpr (mem_map_of_mem rivalMember))
      have rivalTime : time rival = time item := by rw [times, ← rivalImage, ← times]
      rw [sameTime, rivalTime]
      exact newest.largest item itemMember (rivalTime ▸ rivalWithin)
    rw [newestAt_eq_of_isNewest distinct otherNewest, Option.map_some, Option.map_some, sameImage]

/-- When every item of `older` is at most as new as every item of `newer`, the
newer layer answers first and the older one only when the newer has nothing. -/
theorem newestAt_append {older newer : List alpha}
    (ordered : ∀ a ∈ older, ∀ b ∈ newer, time a ≤ time b) :
    newestAt time bound (older ++ newer) =
      (newestAt time bound newer).or (newestAt time bound older) := by
  induction older with
  | nil => simp [newestAt]
  | cons head tail ih =>
    rw [forall_mem_cons] at ordered
    rw [cons_append, newestAt, ih ordered.2]
    cases newerResult : newestAt time bound newer with
    | none => rw [Option.none_or, Option.none_or, newestAt]
    | some best =>
      have bestMember := (isNewest_of_newestAt newerResult).mem
      have headLe := ordered.1 best bestMember
      simp only [Option.some_or]
      rw [if_neg (by omega)]

/-- Layers of distinct times, each read in any order: the newest item of the
concatenation only depends on the layers. -/
theorem newestAt_flatten_perm
    {parts layers : List (List alpha)}
    (perm : List.Forall₂ List.Perm parts layers)
    (distinct : ∀ layer ∈ layers, ∀ a ∈ layer, ∀ b ∈ layer, time a = time b → a = b)
    (ordered : layers.Pairwise fun older newer =>
      ∀ a ∈ older, ∀ b ∈ newer, time a ≤ time b) :
    newestAt time bound parts.flatten = newestAt time bound layers.flatten := by
  induction perm with
  | nil => rfl
  | cons headPerm tailPerm ih =>
    rename_i part layer parts layers
    rcases pairwise_cons.mp ordered with ⟨headOrdered, tailOrdered⟩
    rw [forall_mem_cons] at distinct
    have layerOrdered : ∀ a ∈ layer, ∀ b ∈ layers.flatten, time a ≤ time b := by
      intro a aMember b bMember
      rcases mem_flatten.mp bMember with ⟨other, otherMember, inOther⟩
      exact headOrdered other otherMember a aMember b inOther
    have sameTail : parts.flatten.Perm layers.flatten := List.Perm.flatten_congr tailPerm
    have partOrdered : ∀ a ∈ part, ∀ b ∈ parts.flatten, time a ≤ time b := by
      intro a aMember b bMember
      exact layerOrdered a (headPerm.mem_iff.mp aMember) b (sameTail.mem_iff.mp bMember)
    have headSame : newestAt time bound part = newestAt time bound layer :=
      newestAt_perm distinct.1 headPerm
    rw [flatten_cons, flatten_cons, newestAt_append partOrdered,
      newestAt_append layerOrdered, headSame, ih distinct.2 tailOrdered]

/-- A scan that replaces its candidate by every later item that is within the
bound and not older. -/
def scanStep (time : alpha → Nat) (bound : Nat) (best : Option alpha) (item : alpha) :
    Option alpha :=
  match best with
  | none => if time item ≤ bound then some item else none
  | some cur => if time item ≤ bound ∧ time cur ≤ time item then some item else some cur

theorem newestAt_concat (items : List alpha) (last : alpha) :
    newestAt time bound (items ++ [last]) =
      scanStep time bound (newestAt time bound items) last := by
  induction items with
  | nil => rfl
  | cons head tail ih =>
    rw [cons_append, newestAt, ih, newestAt]
    cases tailResult : newestAt time bound tail with
    | none =>
      by_cases lastWithin : time last ≤ bound <;> by_cases headWithin : time head ≤ bound <;>
          simp only [scanStep, lastWithin, headWithin, if_true, if_false, true_and, false_and]
      by_cases newer : time last < time head
      · rw [if_pos newer, if_neg (by omega)]
      · rw [if_neg newer, if_pos (by omega)]
    | some found =>
      simp only [scanStep]
      by_cases lastWins : time last ≤ bound ∧ time found ≤ time last
      · rw [if_pos lastWins]
        by_cases headWins : time head ≤ bound ∧ time found < time head
        · rw [if_pos headWins]
          dsimp only
          by_cases newer : time last < time head
          · rw [if_pos ⟨headWins.1, newer⟩, if_neg (by omega)]
          · rw [if_neg (by omega), if_pos (by omega)]
        · rw [if_neg headWins]
          dsimp only
          rw [if_neg (by omega), if_pos lastWins]
      · rw [if_neg lastWins]
        by_cases headWins : time head ≤ bound ∧ time found < time head
        · simp only [if_pos headWins]
          rw [if_neg (by omega)]
        · simp only [if_neg headWins, if_neg lastWins]

/-- Items at the bound itself win over everything before them: the last one is found. -/
theorem newestAt_append_of_mem
    (old : List alpha) {new : List alpha} (reached : ∃ item ∈ new, time item = bound) :
    newestAt time bound (old ++ new) =
      (new.filter fun item => decide (time item = bound)).getLast? := by
  induction new using List.reverseRecOn with
  | nil => simp at reached
  | append_singleton front last ih =>
    rw [← append_assoc, newestAt_concat, filter_append]
    by_cases atBound : time last = bound
    · have final : scanStep time bound (newestAt time bound (old ++ front)) last = some last := by
        cases before : newestAt time bound (old ++ front) with
        | none => simp [scanStep, atBound]
        | some best =>
          have within := (isNewest_of_newestAt before).within
          simp [scanStep, atBound, within]
      simp [final, atBound]
    · have prev : ∃ item ∈ front, time item = bound := by
        obtain ⟨item, member, same⟩ := reached
        rcases mem_append.mp member with inFront | isLast
        · exact ⟨item, inFront, same⟩
        · rw [mem_singleton.mp isLast] at same
          exact absurd same atBound
      rw [ih prev]
      cases found : (front.filter fun item => decide (time item = bound)).getLast? with
      | none =>
        obtain ⟨item, member, same⟩ := prev
        rw [List.getLast?_eq_none_iff, filter_eq_nil_iff] at found
        exact absurd (decide_eq_true same) (found item member)
      | some best =>
        have bestAt : time best = bound := by
          simpa using (mem_filter.mp (mem_of_getLast? found)).2
        have skipped : ¬ (time last ≤ bound ∧ time best ≤ time last) := by
          omega
        simp [scanStep, skipped, atBound, found]

theorem foldl_scanStep (items : List alpha) :
    items.foldl (scanStep time bound) none = newestAt time bound items := by
  induction items using List.reverseRecOn with
  | nil => rfl
  | append_singleton front last ih => rw [foldl_concat, ih, newestAt_concat]

/-- A scan that keeps the first of several items with the largest time. -/
def strictScanStep (time : alpha → Nat) (bound : Nat) (best : Option alpha) (item : alpha) :
    Option alpha :=
  if time item ≤ bound ∧ ∀ cur ∈ best, time cur < time item then some item else best

theorem foldl_strictScanStep (distinct : ∀ a ∈ items, ∀ b ∈ items, time a = time b → a = b) :
    items.foldl (strictScanStep time bound) none = newestAt time bound items := by
  induction items using List.reverseRecOn with
  | nil => rfl
  | append_singleton front last ih =>
    have frontDistinct : ∀ a ∈ front, ∀ b ∈ front, time a = time b → a = b := by
      intro a aMember b bMember
      exact distinct a (mem_append_left _ aMember) b (mem_append_left _ bMember)
    rw [foldl_concat, ih frontDistinct, newestAt_concat]
    cases frontResult : newestAt time bound front with
    | none =>
      by_cases within : time last ≤ bound
      · simp [strictScanStep, scanStep, within]
      · simp [strictScanStep, scanStep, within]
    | some best =>
      have bestMember := (isNewest_of_newestAt frontResult).mem
      by_cases within : time last ≤ bound
      · by_cases newer : time best < time last
        · have notOlder : time best ≤ time last := Nat.le_of_lt newer
          simp [strictScanStep, scanStep, within, newer, notOlder]
        · by_cases same : time best = time last
          · have equal : best = last :=
              distinct best (mem_append_left _ bestMember) last (by simp) same
            simp [strictScanStep, scanStep, equal]
          · have older : ¬ time best ≤ time last := by omega
            simp [strictScanStep, scanStep, newer, older]
      · simp [strictScanStep, scanStep, within]

end Newest
