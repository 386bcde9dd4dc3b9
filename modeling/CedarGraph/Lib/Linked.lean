import Mathlib

/-!
# Singly linked lists

`Linked next start cells stop` says that the cells follow `start` in this order and that `stop`
follows the last of them. A walk goes on while the next cell passes a test. A skip list has one
linked list for each level, in one common order; a search walks the levels from the top, each
from where the level above ended.
-/

namespace LinkedLists

open List Function

variable {Cell : Type*}

def Linked (next : Cell → Cell) : Cell → List Cell → Cell → Prop
  | start, [], stop => next start = stop
  | start, cell :: rest, stop => next start = cell ∧ Linked next cell rest stop

variable {next : Cell → Cell} {cells : List Cell}

theorem linked_append_cons {start stop middle : Cell} {front back : List Cell} :
    Linked next start (front ++ middle :: back) stop ↔
      Linked next start front middle ∧ Linked next middle back stop := by
  induction front generalizing start with
  | nil => exact Iff.rfl
  | cons cell rest ih => rw [cons_append, Linked, Linked, ih, and_assoc]

theorem Linked.congr
    {next changed : Cell → Cell} {start stop : Cell} (linked : Linked next start cells stop)
    (same : ∀ cell ∈ start :: cells, changed cell = next cell) :
    Linked changed start cells stop := by
  induction cells generalizing start with
  | nil => exact (same start mem_cons_self).trans linked
  | cons cell rest ih =>
    exact ⟨(same start mem_cons_self).trans linked.1, ih linked.2 fun other mem =>
        same other (mem_cons_of_mem start mem)⟩

/-- The next cell of the last cell of a front part is the first of the rest. -/
theorem Linked.next_getLastD
    {start stop : Cell} {front back : List Cell} (linked : Linked next start (front ++ back) stop) :
    next (front.getLastD start) = back.headD stop := by
  induction front generalizing start with
  | nil =>
    cases back with
    | nil => exact linked
    | cons cell rest => exact linked.1
  | cons cell rest ih =>
    rw [getLastD_cons]
    exact ih linked.2

theorem Linked.from_getLastD
    {start stop : Cell} {front back : List Cell} (linked : Linked next start (front ++ back) stop) :
    Linked next (front.getLastD start) back stop := by
  induction front generalizing start with
  | nil => exact linked
  | cons cell rest ih =>
    rw [getLastD_cons]
    exact ih linked.2

section Insert

variable [DecidableEq Cell]

/-- A new cell is linked in by two writes: its own successor, and that of the cell before. -/
theorem Linked.insert {next : Cell → Cell} {start stop cell : Cell} {front back : List Cell}
    (linked : Linked next start (front ++ back) stop)
    (fresh : cell ∉ start :: (front ++ back)) (nodup : (start :: (front ++ back)).Nodup) :
    Linked (update (update next cell (back.headD stop))
      (front.getLastD start) cell) start (front ++ cell :: back) stop := by
  induction front generalizing start with
  | nil =>
    have isStart : List.getLastD [] start = start := rfl
    rw [isStart]
    refine ⟨by simp, ?_⟩
    have differs : cell ≠ start := fun same => fresh (same ▸ mem_cons_self)
    cases back with
    | nil => simp [Linked, differs]
    | cons first rest =>
      refine ⟨by simp [differs], ?_⟩
      apply linked.2.congr
      intro other mem
      have notStart : other ≠ start :=
        fun same => (nodup_cons.mp nodup).1 (same ▸ mem)
      have notCell : other ≠ cell :=
        fun same => fresh (mem_cons_of_mem start (same ▸ mem))
      rw [update_of_ne notStart, update_of_ne notCell]
  | cons first rest ih =>
    rw [getLastD_cons, cons_append]
    have freshRest : cell ∉ first :: (rest ++ back) :=
      fun mem => fresh (mem_cons_of_mem start mem)
    have later := ih linked.2 freshRest (nodup_cons.mp nodup).2
    have lastMember : rest.getLastD first ∈ first :: (rest ++ back) := by
      rw [← cons_append]
      exact mem_append_left back getLastD_mem_cons
    have notLast : start ≠ rest.getLastD first :=
      fun same => (nodup_cons.mp nodup).1 (same ▸ lastMember)
    have notCell : start ≠ cell := fun same => fresh (same ▸ mem_cons_self)
    refine ⟨?_, later⟩
    rw [update_of_ne notLast, update_of_ne notCell]
    exact linked.1

end Insert

/-- The last cell of a walk and the one behind it. -/
def walk (next : Cell → Cell) (keep : Cell → Bool) : Nat → Cell → Cell × Cell
  | 0, cell => (cell, next cell)
  | fuel + 1, cell =>
    if keep (next cell) then walk next keep fuel (next cell) else (cell, next cell)

variable {next : Cell → Cell} {keep : Cell → Bool} {start stop : Cell} {front back : List Cell}

theorem walk_of_stop (stops : keep (next start) = false) (fuel : Nat) :
    walk next keep fuel start = (start, next start) := by
  cases fuel with
  | zero => rfl
  | succ fuel => simp [walk, stops]

theorem Linked.walk_eq
    (linked : Linked next start (front ++ back) stop) (keeps : ∀ cell ∈ front, keep cell = true)
    (stops : keep (back.headD stop) = false) {fuel : Nat} (enough : front.length ≤ fuel) :
    walk next keep fuel start = (front.getLastD start, back.headD stop) := by
  induction front generalizing start fuel with
  | nil =>
    have following : next start = back.headD stop := linked.next_getLastD
    rw [walk_of_stop (following ▸ stops), following]
    rfl
  | cons cell rest ih =>
    cases fuel with
    | zero => exact absurd enough (Nat.not_succ_le_zero _)
    | succ fuel =>
      have isNext : next start = cell := linked.1
      rw [forall_mem_cons] at keeps
      rw [walk, isNext, if_pos keeps.1, getLastD_cons]
      exact ih linked.2 keeps.2 (Nat.le_of_succ_le_succ enough)

theorem Linked.walk_from
    (linked : Linked next start (front ++ back) stop) (keeps : ∀ cell ∈ front, keep cell = true)
    (stops : keep (back.headD stop) = false) {fuel : Nat} (enough : front.length ≤ fuel)
    {cell : Cell} (mem : cell ∈ start :: front) :
    walk next keep fuel cell = (front.getLastD start, back.headD stop) := by
  rcases mem_cons.mp mem with isStart | inFront
  · rw [isStart]
    exact linked.walk_eq keeps stops enough
  obtain ⟨before, behind, isFront⟩ := append_of_mem inFront
  subst isFront
  rw [append_assoc, cons_append, linked_append_cons] at linked
  rw [linked.2.walk_eq (fun other inBehind => keeps other (mem_append_right before
    (mem_cons_of_mem cell inBehind))) stops]
  · simp [getLastD_eq_getLast?, List.getLast?_cons]
  · rw [length_append, length_cons] at enough
    omega

/-- In a sorted list everything behind the first cell that stops a walk would stop it too. -/
theorem keep_eq_false_of_mem_dropWhile {order : Cell → Cell → Prop} (sorted : cells.Pairwise order)
    (downward : ∀ first second, order first second → keep second = true → keep first = true)
    {cell : Cell} (mem : cell ∈ cells.dropWhile keep) : keep cell = false := by
  induction cells with
  | nil => exact absurd mem not_mem_nil
  | cons first rest ih =>
    have parts := pairwise_cons.mp sorted
    cases passes : keep first with
    | true =>
      rw [dropWhile_cons_of_pos passes] at mem
      exact ih parts.2 mem
    | false =>
      rw [dropWhile_cons_of_neg (by simp [passes])] at mem
      rcases mem_cons.mp mem with isFirst | inRest
      · rw [isFirst]
        exact passes
      · by_contra keeps
        rw [Bool.not_eq_false] at keeps
        have firstKeeps := downward first cell (parts.1 cell inRest) keeps
        rw [passes] at firstKeeps
        cases firstKeeps

theorem takeWhile_eq_filter {order : Cell → Cell → Prop} (sorted : cells.Pairwise order)
    (downward : ∀ first second, order first second → keep second = true → keep first = true) :
    cells.takeWhile keep = cells.filter keep := by
  have behind : (cells.dropWhile keep).filter keep = [] := by
    rw [filter_eq_nil_iff]
    intro cell mem
    simp [keep_eq_false_of_mem_dropWhile sorted downward mem]
  have front : (cells.takeWhile keep).filter keep = cells.takeWhile keep :=
    filter_eq_self.mpr fun _ mem => mem_takeWhile_imp mem
  conv_rhs =>
    rw [← @takeWhile_append_dropWhile _ keep cells, filter_append, front, behind, append_nil]

/-- In a list that is sorted by a key, the cells of one key follow those of smaller ones. -/
theorem takeWhile_dropWhile_eq_filter {Key : Type*} [LT Key] [LE Key] [DecidableLT Key]
    [DecidableEq Key] [Std.IsLinearOrder Key] [Std.LawfulOrderLT Key] (key : Cell → Key)
    (sorted : cells.Pairwise fun first second => key first ≤ key second) (wanted : Key) :
    (cells.dropWhile fun cell => decide (key cell < wanted)).takeWhile
        (fun cell => decide (key cell = wanted)) =
      cells.filter fun cell => decide (key cell = wanted) := by
  induction cells with
  | nil => rfl
  | cons first rest ih =>
    obtain ⟨smallest, restSorted⟩ := pairwise_cons.mp sorted
    by_cases below : key first < wanted
    · rw [dropWhile_cons_of_pos (by simpa using below),
        filter_cons_of_neg (by simpa using (Std.ne_of_lt below)), ih restSorted]
    · have behind : ∀ cell ∈ first :: rest, wanted ≤ key cell := by
        rw [forall_mem_cons]
        exact ⟨Std.not_lt.mp below,
          fun cell mem => Std.le_trans (Std.not_lt.mp below) (smallest cell mem)⟩
      rw [dropWhile_cons_of_neg (by simpa using below)]
      refine takeWhile_eq_filter
        (sorted.imp_of_mem fun inFirst _ le => And.intro (behind _ inFirst) le) ?_
      intro cell later order isWanted
      have same : key later = wanted := of_decide_eq_true isWanted
      rw [same] at order
      exact decide_eq_true (Std.le_antisymm order.2 order.1)

section Levels

variable {Cell : Type*} (height : Cell → Nat)

def onLevel (level : Nat) (cells : List Cell) : List Cell :=
  cells.filter fun cell => decide (level < height cell)

variable {height} in
theorem onLevel_congr
    {other : Cell → Nat} {cells : List Cell} (same : ∀ cell ∈ cells, height cell = other cell)
    (level : Nat) : onLevel height level cells = onLevel other level cells := by
  apply filter_congr
  intro cell mem
  rw [same cell mem]

theorem onLevel_succ_sublist (level : Nat) (cells : List Cell) :
    (onLevel height (level + 1) cells).Sublist (onLevel height level cells) := by
  apply monotone_filter_right
  intro cell above
  simp only [decide_eq_true_eq] at above ⊢
  omega

def Levels (next : Nat → Cell → Cell) (head : Cell) (cells : List Cell) (tail : Cell)
    (count : Nat) : Prop :=
  ∀ level, level < count → Linked (next level) head (onLevel height level cells) tail

/-- The search from level `count - 1` down to `level`. -/
def descend (next : Nat → Cell → Cell) (keep : Cell → Bool) (fuel : Nat) :
    Nat → Cell → Nat → Cell × Cell
  | 0, cell, level => (cell, next level cell)
  | top + 1, cell, level =>
    if level = top then walk (next top) keep fuel cell
    else descend next keep fuel top (walk (next top) keep fuel cell).1 level

variable {height} {next : Nat → Cell → Cell} {keep : Cell → Bool} {head tail : Cell}
  {front back : List Cell}

variable {cell : Cell} {count : Nat}

section

variable (levels : Levels height next head (front ++ back) tail count)
include levels

theorem Levels.walk_eq
    (keeps : ∀ cell ∈ front, keep cell = true) (stops : ∀ cell ∈ back, keep cell = false)
    (ends : keep tail = false) {fuel : Nat} (enough : front.length ≤ fuel)
    {level : Nat} (below : level < count) (mem : cell ∈ head :: onLevel height level front) :
    walk (next level) keep fuel cell =
      ((onLevel height level front).getLastD head, (onLevel height level back).headD tail) := by
  have linked := levels level below
  rw [onLevel, filter_append] at linked
  apply linked.walk_from _ _ _ mem
  · intro other inFront
    exact keeps other (mem_of_mem_filter inFront)
  · cases first : onLevel height level back with
    | nil =>
      rw [onLevel] at first
      rw [first]
      exact ends
    | cons other rest =>
      have inBack : other ∈ onLevel height level back := by
        rw [first]
        exact mem_cons_self
      rw [onLevel] at first
      rw [first]
      exact stops other (mem_of_mem_filter inBack)
  · exact (length_filter_le _ front).trans enough

/-- The search ends on every level between the cells that pass and those that do not. -/
theorem Levels.descend_eq
    (keeps : ∀ cell ∈ front, keep cell = true) (stops : ∀ cell ∈ back, keep cell = false)
    (ends : keep tail = false) {fuel : Nat} (enough : front.length ≤ fuel) {top : Nat}
    (low : top ≤ count) (mem : cell ∈ head :: onLevel height top front)
    {level : Nat} (below : level < top) :
    descend next keep fuel top cell level =
      ((onLevel height level front).getLastD head, (onLevel height level back).headD tail) := by
  induction top generalizing cell with
  | zero => exact absurd below (Nat.not_lt_zero level)
  | succ top ih =>
    have higher : ∀ other, other ∈ head :: onLevel height (top + 1) front →
        other ∈ head :: onLevel height top front := by
      intro other inHigher
      exact ((onLevel_succ_sublist height top front).cons_cons head).subset inHigher
    have here := levels.walk_eq keeps stops ends enough low (higher cell mem)
    rw [descend, here]
    split
    · rename_i isTop
      rw [isTop]
    · rename_i notTop
      apply ih (Nat.le_of_succ_le low) _ (by omega)
      exact getLastD_mem_cons

end

variable [DecidableEq Cell]

theorem Levels.insert (levels : Levels height next head (front ++ back) tail count)
    (fresh : cell ∉ head :: (front ++ back))
    (nodup : (head :: (front ++ back)).Nodup) {changed : Nat → Cell → Cell}
    (below : ∀ level, level < count → level < height cell →
      changed level = update (update (next level) cell ((onLevel height level back).headD tail))
        ((onLevel height level front).getLastD head) cell)
    (above : ∀ level, level < count → height cell ≤ level → changed level = next level) :
    Levels height changed head (front ++ cell :: back) tail count := by
  intro level inCount
  have linked := levels level inCount
  rw [onLevel, filter_append] at linked
  have sublist : (head :: (onLevel height level front ++ onLevel height level back)).Sublist
      (head :: (front ++ back)) :=
    (filter_sublist.append filter_sublist).cons_cons head
  rw [onLevel, filter_append, filter_cons]
  by_cases high : level < height cell
  · rw [if_pos (decide_eq_true high), below level inCount high]
    apply linked.insert
    · exact fun mem => fresh (sublist.subset mem)
    · exact List.Nodup.sublist sublist nodup
  · rw [if_neg (by simpa using high), above level inCount (Nat.le_of_not_lt high)]
    exact linked

end Levels

end LinkedLists
