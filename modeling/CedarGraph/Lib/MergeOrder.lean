import CedarGraph.Lib.Merging

/-!
# The order of a merge

The heads are taken in some order, and of the items in this order the repetitions of their
predecessor and the dropped ones are left out. An item whose repetitions do not follow one
another is put out once for each group of them.
-/

namespace Merging

open List

variable {Item : Type*}

def popped (top : List (List Item) → Nat) : Nat → List (List Item) → List Item
  | 0, _ => []
  | fuel + 1, streams =>
    match streams[top streams]? with
    | none => []
    | some [] => []
    | some (item :: rest) => item :: popped top fuel (streams.set (top streams) rest)

/-- What a merge does with the items it takes. -/
def compact (same : Item → Item → Bool) (drop : Item → Bool) : Option Item → List Item → List Item
  | _, [] => []
  | last, item :: rest =>
    if last.any fun seen => same seen item then compact same drop last rest
    else if drop item then compact same drop (some item) rest
    else item :: compact same drop (some item) rest

theorem merge_eq_compact
    (top : List (List Item) → Nat) (same : Item → Item → Bool) (drop : Item → Bool)
    (fuel : Nat) (last : Option Item) (streams : List (List Item)) :
    merge top same drop fuel last streams = compact same drop last (popped top fuel streams) := by
  induction fuel generalizing last streams with
  | zero => rw [merge, popped, compact]
  | succ fuel ih =>
    rw [merge, popped]
    cases streams[top streams]? with
    | none => rfl
    | some stream =>
      cases stream with
      | nil => rfl
      | cons item rest =>
        dsimp only
        rw [compact, ih, ih]

section Popped

variable {less : Item → Item → Bool} (policy : Policy less)

theorem heads_ne_nil {streams : List (List Item)} (someItem : streams.flatten ≠ []) :
    heads streams ≠ [] := by
  obtain ⟨item, mem⟩ := exists_mem_of_ne_nil _ someItem
  obtain ⟨stream, streamMember, inStream⟩ := mem_flatten.mp mem
  obtain ⟨first, rest, rfl⟩ := exists_cons_of_ne_nil (ne_nil_of_mem inStream)
  exact ne_nil_of_mem (mem_filterMap.mpr ⟨_, streamMember, rfl⟩)

theorem popped_succ (fuel : Nat) {streams : List (List Item)} (someItem : streams.flatten ≠ []) :
    ∃ first rest, streams[policy.top streams]? = some (first :: rest) ∧
      (∀ other ∈ heads streams, less other first = false) ∧
      popped policy.top (fuel + 1) streams =
        first :: popped policy.top fuel (streams.set (policy.top streams) rest) := by
  obtain ⟨first, rest, found, minimal⟩ := policy.minimal streams (heads_ne_nil someItem)
  refine ⟨first, rest, found, minimal, ?_⟩
  rw [popped, found]

variable {fuel : Nat} {first : Item} {relation : Item → Item → Prop} {rest : List Item}

theorem popped_subperm (top : List (List Item) → Nat) (fuel : Nat) (streams : List (List Item)) :
    (popped top fuel streams).Subperm streams.flatten := by
  induction fuel generalizing streams with
  | zero => exact nil_subperm
  | succ fuel ih =>
    rw [popped]
    split
    · exact nil_subperm
    · exact nil_subperm
    · rename_i first rest found
      have behind := ih (streams.set (top streams) rest)
      exact ((subperm_cons first).mpr behind).trans (flatten_perm_set found).symm.subperm

theorem popped_nil
    {top : List (List Item) → Nat} {streams : List (List Item)} (noItem : streams.flatten = []) :
    popped top fuel streams = [] := by
  have taken := popped_subperm top fuel streams
  rw [noItem] at taken
  exact subperm_nil.mp taken

variable {streams : List (List Item)}

theorem popped_perm (enough : streams.flatten.length ≤ fuel) :
    (popped policy.top fuel streams).Perm streams.flatten := by
  induction fuel generalizing streams with
  | zero =>
    rw [eq_nil_of_length_eq_zero (Nat.le_zero.mp enough)]
    exact List.Perm.refl _
  | succ fuel ih =>
    by_cases noItem : streams.flatten = []
    · rw [popped_nil noItem, noItem]
    · obtain ⟨first, rest, found, -, taken⟩ := popped_succ policy fuel noItem
      have perm := flatten_perm_set found
      have shorter : (streams.set (policy.top streams) rest).flatten.length ≤ fuel := by
        have lengths := perm.length_eq
        rw [length_cons] at lengths
        omega
      rw [taken]
      exact ((ih shorter).cons first).trans perm.symm

theorem sorted_set {index : Nat} (sorted : ∀ stream ∈ streams, stream.Pairwise relation)
    (found : streams[index]? = some (first :: rest)) :
    ∀ stream ∈ streams.set index rest, stream.Pairwise relation := by
  intro stream mem
  rcases mem_or_eq_of_mem_set mem with old | isRest
  · exact sorted stream old
  · rw [isRest]
    exact (pairwise_cons.mp (sorted _ (mem_of_getElem? found))).2

/-- A head that is related to all heads is related to all items behind them. -/
theorem related_of_heads [IsTrans Item relation] {streams : List (List Item)}
    {first item : Item} (sorted : ∀ stream ∈ streams, stream.Pairwise relation)
    (toHeads : ∀ other ∈ heads streams, relation first other) (mem : item ∈ streams.flatten) :
    relation first item := by
  obtain ⟨stream, streamMember, inStream⟩ := mem_flatten.mp mem
  cases stream with
  | nil => cases inStream
  | cons head tail =>
    have toHead : relation first head :=
      toHeads head (mem_filterMap.mpr ⟨_, streamMember, rfl⟩)
    rcases mem_cons.mp inStream with rfl | inTail
    · exact toHead
    · have behind := (pairwise_cons.mp (sorted _ streamMember)).1 item inTail
      exact trans_of relation toHead behind

/-- A merge keeps any order in which its streams are and in which a minimal head comes before
the other heads. -/
theorem pairwise_popped [IsTrans Item relation]
    (before : ∀ first other, less other first = false → relation first other)
    (fuel : Nat) {streams : List (List Item)}
    (sorted : ∀ stream ∈ streams, stream.Pairwise relation) :
    (popped policy.top fuel streams).Pairwise relation := by
  induction fuel generalizing streams with
  | zero => exact List.Pairwise.nil
  | succ fuel ih =>
    by_cases noItem : streams.flatten = []
    · rw [popped_nil noItem]
      exact List.Pairwise.nil
    obtain ⟨first, rest, found, minimal, taken⟩ := popped_succ policy fuel noItem
    rw [taken, pairwise_cons]
    refine ⟨?_, ih (sorted_set sorted found)⟩
    intro item mem
    refine related_of_heads sorted (fun other isHead => before first other
      (minimal other isHead)) ?_
    exact (flatten_perm_set found).mem_iff.mpr
      (mem_cons_of_mem _ ((popped_subperm _ _ _).subset mem))

@[simp]
theorem heads_cons_nil (others : List (List Item)) : heads ([] :: others) = heads others :=
  rfl

@[simp]
theorem heads_cons_cons (first : Item) (rest : List Item) (others : List (List Item)) :
    heads ((first :: rest) :: others) = first :: heads others :=
  rfl

theorem flatten_others_eq_nil
    {others : List (List Item)} (oneHead : (heads ((first :: rest) :: others)).length ≤ 1) :
    others.flatten = [] := by
  by_contra someItem
  have otherHead := length_pos_iff.mpr (heads_ne_nil someItem)
  rw [heads_cons_cons, length_cons] at oneHead
  omega

theorem flatten_of_one_head {index : Nat}
    (oneHead : (heads streams).length ≤ 1) (found : streams[index]? = some (first :: rest)) :
    streams.flatten = first :: rest ∧ (streams.set index rest).flatten = rest ∧
      (heads (streams.set index rest)).length ≤ 1 := by
  induction streams generalizing index with
  | nil => cases found
  | cons stream others ih =>
    cases index with
    | zero =>
      injection found with isFirst
      subst isFirst
      have noOther := flatten_others_eq_nil oneHead
      have noHead : heads others = [] := by
        by_contra someHead
        rw [heads_cons_cons, length_cons] at oneHead
        have positive := length_pos_iff.mpr someHead
        omega
      refine ⟨by simp [noOther], by simp [noOther], ?_⟩
      cases rest with
      | nil => simp [noHead]
      | cons next later => simp [noHead]
    | succ index =>
      cases stream with
      | nil => exact ih oneHead found
      | cons head tail =>
        have mem : first ∈ others.flatten :=
          mem_flatten.mpr ⟨_, mem_of_getElem? found, mem_cons_self⟩
        rw [flatten_others_eq_nil oneHead] at mem
        cases mem

theorem popped_one_stream (enough : streams.flatten.length ≤ fuel)
    (oneHead : (heads streams).length ≤ 1) : popped policy.top fuel streams = streams.flatten := by
  induction fuel generalizing streams with
  | zero =>
    rw [eq_nil_of_length_eq_zero (Nat.le_zero.mp enough)]
    rfl
  | succ fuel ih =>
    by_cases noItem : streams.flatten = []
    · rw [popped_nil noItem, noItem]
    · obtain ⟨first, rest, found, -, taken⟩ := popped_succ policy fuel noItem
      obtain ⟨all, behind, oneLeft⟩ := flatten_of_one_head oneHead found
      rw [all, length_cons] at enough
      rw [taken, ih (by rw [behind]; omega) oneLeft, behind, all]

end Popped

section Compact

variable {same : Item → Item → Bool} {drop : Item → Bool}

theorem compact_sublist (last : Option Item) (items : List Item) :
    (compact same drop last items).Sublist items := by
  induction items generalizing last with
  | nil => exact List.Sublist.refl _
  | cons item rest ih =>
    rw [compact]
    split
    · exact (ih last).cons item
    · split
      · exact (ih (some item)).cons item
      · exact (ih (some item)).cons_cons item

theorem mem_flatten_of_mem_merge
    {top : List (List Item) → Nat} {fuel : Nat} {last : Option Item} {streams : List (List Item)}
    {item : Item} (mem : item ∈ merge top same drop fuel last streams) :
    item ∈ streams.flatten := by
  rw [merge_eq_compact] at mem
  exact (popped_subperm _ _ _).subset ((compact_sublist _ _).subset mem)

theorem length_merge_le {top : List (List Item) → Nat} (fuel : Nat) (last : Option Item)
    (streams : List (List Item)) :
    (merge top same drop fuel last streams).length ≤ streams.flatten.length := by
  rw [merge_eq_compact]
  exact (compact_sublist _ _).length_le.trans (popped_subperm _ _ _).length_le

variable {last : Option Item} {items : List Item}

theorem not_dropped_of_mem_compact {item : Item} (mem : item ∈ compact same drop last items) :
    drop item = false := by
  induction items generalizing last with
  | nil => cases mem
  | cons first rest ih =>
    rw [compact] at mem
    split at mem
    · exact ih mem
    · split at mem
      · exact ih mem
      · rename_i kept
        rcases mem_cons.mp mem with rfl | inRest
        · simpa using kept
        · exact ih inRest

/-- An item of which no repetition is dropped is put out or repeats one that is or was put out. -/
theorem exists_mem_compact {item : Item} (mem : item ∈ items)
    (kept : ∀ other ∈ items, other = item ∨ same other item = true → drop other = false) :
    (∃ output ∈ compact same drop last items, output = item ∨ same output item = true) ∨
      ∃ seen ∈ last, same seen item = true := by
  induction items generalizing last with
  | nil => cases mem
  | cons first rest ih =>
    rw [forall_mem_cons] at kept
    rw [compact]
    by_cases repeated : (last.any fun seen => same seen first) = true
    · rw [if_pos repeated]
      rcases mem_cons.mp mem with rfl | inRest
      · right
        simpa [Option.any_eq_true] using repeated
      · exact ih inRest kept.2
    · rw [if_neg repeated]
      left
      by_cases group : first = item ∨ same first item = true
      · rw [if_neg (by simp [kept.1 group])]
        exact ⟨first, mem_cons_self, group⟩
      · have inRest := (mem_cons.mp mem).resolve_left fun isFirst => group (Or.inl isFirst.symm)
        rcases @ih (some first) inRest kept.2 with ⟨output, outputMember, matching⟩ | found
        · refine ⟨output, ?_, matching⟩
          split
          · exact outputMember
          · exact mem_cons_of_mem _ outputMember
        · obtain ⟨seen, isFirst, matching⟩ := found
          rw [← Option.some.inj isFirst] at matching
          exact absurd (Or.inr matching) group

theorem exists_mem_merge
    {less : Item → Item → Bool} (policy : Policy less) (same : Item → Item → Bool)
    {fuel : Nat} {streams : List (List Item)} (enough : streams.flatten.length ≤ fuel)
    {item : Item} (mem : item ∈ streams.flatten)
    (kept : ∀ other ∈ streams.flatten, other = item ∨ same other item = true → drop other = false) :
    (∃ output ∈ merge policy.top same drop fuel last streams,
      output = item ∨ same output item = true) ∨
    ∃ seen ∈ last, same seen item = true := by
  have perm := popped_perm policy enough
  rw [merge_eq_compact]
  exact exists_mem_compact (perm.mem_iff.mpr mem)
    fun other taken => kept other (perm.mem_iff.mp taken)

end Compact

end Merging
