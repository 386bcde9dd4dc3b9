import CedarGraph.Cdc.Maintenance

/-!
# Reading a log in pages

A reader goes on from the last offset of a page and takes an empty page for the end of the log,
but a record that does not fit into a page by itself makes the page empty. A page shows the
records in memory, also those that a failed append left there.
-/

namespace CedarGraph

open List Runs

namespace PartitionChangeLog

variable (opts : ChangeLogOptions)

def pageEnd (offset : Nat) (page : List ChangeRecord) : Nat :=
  page.foldl (fun offset rec => max offset rec.offset) offset

/-- The calls of a reader until a page is empty, unless the fuel runs out before. -/
def readPages (log : PartitionChangeLog) (limitRecords limitBytes : Nat) :
    Nat → Nat → Option (List ChangeRecord)
  | 0, _ => none
  | fuel + 1, offset =>
    let page := log.readAfter opts offset limitRecords limitBytes
    if page.isEmpty then some []
    else (readPages log limitRecords limitBytes fuel (pageEnd offset page)).map (page ++ ·)

variable {opts}

def behind (log : PartitionChangeLog) (offset : Nat) : List ChangeRecord :=
  log.records.filter fun rec => offset < rec.offset

theorem readPage_eq {offset limitRecords limitBytes : Nat} {recs new : List ChangeRecord}
    (isNew : (recs.filter fun rec => offset < rec.offset) = new)
    (out : List ChangeRecord) (bytes : Nat) :
    ∃ count, readPage opts offset limitRecords limitBytes recs out bytes = out ++ new.take count ∧
      (∀ rec ∈ new.take count, opts.serializedSize rec ≤ limitBytes) ∧
      (out = [] → ∀ first ∈ new.head?, opts.serializedSize first ≤ limitBytes → 0 < count) := by
  induction recs generalizing out bytes new with
  | nil =>
    subst isNew
    exact ⟨0, by simp [readPage], by simp, by simp⟩
  | cons rec rest ih =>
    rw [readPage]
    by_cases seen : rec.offset ≤ offset
    · rw [filter_cons_of_neg (by simpa using seen)] at isNew
      rw [if_pos seen]
      exact ih isNew out bytes
    · rw [filter_cons_of_pos (by simpa using seen)] at isNew
      subst isNew
      rw [if_neg seen]
      dsimp only
      split
      · rename_i full
        exact ⟨0, by simp, by simp, fun empty => absurd empty full.1⟩
      rename_i room
      split
      · rename_i oversized
        refine ⟨0, by simp, by simp, ?_⟩
        intro _ first isFirst small
        obtain rfl := Option.some.inj isFirst
        omega
      · rename_i notOversized
        have fits : opts.serializedSize rec ≤ limitBytes := by
          by_cases empty : out = []
          · exact Nat.le_of_not_lt fun large => notOversized ⟨empty, large⟩
          · have within := Nat.le_of_not_lt fun large => room ⟨empty, large⟩
            omega
        split
        · exact ⟨1, by simp, by simpa using fits, by simp⟩
        · obtain ⟨count, page, within, _⟩ := ih rfl (out ++ [rec]) (bytes + opts.serializedSize rec)
          refine ⟨count + 1, by simp [page], ?_, by simp⟩
          rw [take_succ_cons, forall_mem_cons]
          exact ⟨fits, within⟩

/-- A page is a front part of the records behind the offset, and an empty one only when the
first of them does not fit. -/
theorem readAfter_eq (log : PartitionChangeLog) (offset limitRecords limitBytes : Nat) :
    ∃ count, log.readAfter opts offset limitRecords limitBytes = (log.behind offset).take count ∧
      (∀ rec ∈ (log.behind offset).take count,
        opts.serializedSize rec ≤ min limitBytes opts.maxFetchBytes) ∧
      (0 < min limitRecords opts.maxFetchRecords → 0 < min limitBytes opts.maxFetchBytes →
        ∀ first ∈ (log.behind offset).head?,
          opts.serializedSize first ≤ min limitBytes opts.maxFetchBytes → 0 < count) := by
  rw [readAfter]
  split
  · exact ⟨0, by simp, by simp, by omega⟩
  · obtain ⟨count, page, within, advances⟩ := @readPage_eq opts offset
      (min limitRecords opts.maxFetchRecords) (min limitBytes opts.maxFetchBytes) log.records _
      rfl [] 0
    exact ⟨count, page, within, fun _ _ => advances rfl⟩

theorem mem_of_mem_readAfter {log : PartitionChangeLog} {offset limitRecords limitBytes : Nat}
    {rec : ChangeRecord} (mem : rec ∈ log.readAfter opts offset limitRecords limitBytes) :
    rec ∈ log.records := by
  obtain ⟨count, page, _⟩ := log.readAfter_eq offset limitRecords limitBytes
  rw [page] at mem
  exact (mem_filter.mp (mem_of_mem_take mem)).1

theorem le_pageEnd (offset : Nat) (page : List ChangeRecord) :
    offset ≤ pageEnd offset page ∧ ∀ rec ∈ page, rec.offset ≤ pageEnd offset page := by
  induction page generalizing offset with
  | nil => simp [pageEnd]
  | cons rec rest ih =>
    obtain ⟨start, others⟩ := ih (max offset rec.offset)
    rw [pageEnd, foldl_cons, ← pageEnd, forall_mem_cons]
    exact ⟨by omega, by omega, others⟩

theorem pageEnd_lt {offset bound : Nat} {page : List ChangeRecord} (start : offset < bound)
    (others : ∀ rec ∈ page, rec.offset < bound) : pageEnd offset page < bound := by
  induction page generalizing offset with
  | nil => exact start
  | cons rec rest ih =>
    rw [forall_mem_cons] at others
    exact ih (max_lt start others.1) others.2

theorem behind_pageEnd {log : PartitionChangeLog}
    (ascending : log.records.Pairwise fun prev later => prev.offset < later.offset)
    (offset count : Nat) :
    log.behind (pageEnd offset ((log.behind offset).take count)) =
      (log.behind offset).drop count := by
  let page := (log.behind offset).take count
  have parts : (page ++ (log.behind offset).drop count).Pairwise
      fun prev later => prev.offset < later.offset := by
    rw [take_append_drop]
    exact ascending.sublist filter_sublist
  obtain ⟨start, inPage⟩ := le_pageEnd offset page
  have narrowed : log.behind (pageEnd offset page) =
      (log.behind offset).filter fun rec => pageEnd offset page < rec.offset := by
    rw [behind, behind, filter_filter]
    apply filter_congr
    intro rec _
    rw [← Bool.decide_and, decide_eq_decide]
    omega
  have pageGone : (page.filter fun rec => pageEnd offset page < rec.offset) = [] := by
    rw [filter_eq_nil_iff]
    intro rec mem
    have atMost := inPage rec mem
    simpa using atMost
  have restStays : (((log.behind offset).drop count).filter
      fun rec => pageEnd offset page < rec.offset) = (log.behind offset).drop count := by
    rw [filter_eq_self]
    intro rec mem
    apply decide_eq_true
    apply pageEnd_lt
    · have inBehind := mem_of_mem_drop mem
      simpa using (mem_filter.mp inBehind).2
    · intro prev before
      exact (pairwise_append.mp parts).2.2 prev before rec mem
  rw [narrowed]
  nth_rewrite 1 [← take_append_drop count (log.behind offset)]
  rw [filter_append, pageGone, restStays, nil_append]

section Completeness

variable {log : PartitionChangeLog} {offset limitRecords limitBytes : Nat}

theorem readPages_of_fits
    (ascending : log.records.Pairwise fun prev later => prev.offset < later.offset)
    (someRecords : 0 < min limitRecords opts.maxFetchRecords)
    (someBytes : 0 < min limitBytes opts.maxFetchBytes)
    (fits : ∀ rec ∈ log.behind offset, opts.serializedSize rec ≤ min limitBytes opts.maxFetchBytes)
    {fuel : Nat} (enough : (log.behind offset).length < fuel) :
    log.readPages opts limitRecords limitBytes fuel offset = some (log.behind offset) := by
  induction fuel generalizing offset with
  | zero => omega
  | succ fuel ih =>
    obtain ⟨count, page, _, advances⟩ := log.readAfter_eq offset limitRecords limitBytes
    rw [readPages, page]
    cases shape : log.behind offset with
    | nil => simp
    | cons first rest =>
      rw [shape] at fits advances enough
      have positive : 0 < count :=
        advances someRecords someBytes first rfl (fits first mem_cons_self)
      have later := behind_pageEnd ascending offset count
      rw [shape] at later
      have nonempty : ¬ ((first :: rest).take count).isEmpty = true := by
        simp [List.isEmpty_iff, Nat.pos_iff_ne_zero.mp positive]
      rw [if_neg nonempty, ih, later, Option.map_some, take_append_drop]
      · rw [later]
        exact fun rec mem => fits rec (mem_of_mem_drop mem)
      · rw [later, length_drop]
        simp only [length_cons] at enough ⊢
        omega

theorem fits_of_readPages {fuel : Nat} {pages : List ChangeRecord}
    (read : log.readPages opts limitRecords limitBytes fuel offset = some pages) :
    ∀ rec ∈ pages, opts.serializedSize rec ≤ min limitBytes opts.maxFetchBytes := by
  induction fuel generalizing offset pages with
  | zero => simp [readPages] at read
  | succ fuel ih =>
    obtain ⟨count, page, within, _⟩ := log.readAfter_eq offset limitRecords limitBytes
    rw [readPages, page] at read
    split at read
    · simp [← Option.some.inj read]
    · obtain ⟨others, later, rfl⟩ := Option.map_eq_some_iff.mp read
      rw [forall_mem_append]
      exact ⟨within, ih later⟩

end Completeness

/-- The pages up to the first empty one are all records behind the offset only when each of
these fits into a page, and always then when the offsets ascend. -/
theorem paging_completeness (opts : ChangeLogOptions) (log : PartitionChangeLog)
    (limits : 0 < opts.maxFetchRecords ∧ 0 < opts.maxFetchBytes)
    (offset limitRecords limitBytes : Nat) (positive : 0 < limitRecords ∧ 0 < limitBytes) :
    let Complete := ∃ fuel,
      log.readPages opts limitRecords limitBytes fuel offset = some (log.behind offset)
    let Fits := ∀ rec ∈ log.behind offset,
      opts.serializedSize rec ≤ min limitBytes opts.maxFetchBytes
    (Complete → Fits) ∧
      (log.records.Pairwise (fun prev later => prev.offset < later.offset) → Fits → Complete) := by
  refine ⟨?_, ?_⟩
  · rintro ⟨fuel, read⟩
    exact fits_of_readPages read
  · intro ascending fits
    exact ⟨(log.behind offset).length + 1,
      readPages_of_fits ascending (by omega) (by omega) fits (by omega)⟩

theorem paging_complete_two_records :
    let opts : ChangeLogOptions := ⟨0, 0, 100, 10, 1000, fun _ => 20⟩
    let record : ChangeRecord := ⟨0, 0, 1, 5, 7, 0, 1, 1, 2, 1, 0, 0, .create, 0, 0, []⟩
    let log := { emptyLog opts with records := [record, { record with offset := 2 }] }
    ∃ fuel, log.readPages opts 1 20 fuel 0 = some log.records := by
  intro opts record log
  exact (paging_completeness opts log (by decide) 0 1 20 (by decide)).2 (by decide) (by decide)

/-- One record is larger than a page may be; the reader takes the log for empty. -/
theorem large_record_stalls_reader :
    let opts : ChangeLogOptions := ⟨0, 0, 100, 10, 1000, fun _ => 2000⟩
    let record : ChangeRecord := ⟨0, 0, 1, 5, 7, 0, 1, 1, 2, 1, 0, 0, .create, 0, 0, []⟩
    let log := run (apply opts) (emptyLog opts)
      ((emptyLog opts).appendCommittedBatch opts 5 [record] ⟨fun _ => .written, true, true⟩).1
    log.behind 0 ≠ [] ∧ ∀ fuel, log.readPages opts 10 (2 ^ 64 - 1) (fuel + 1) 0 = some [] := by
  intro opts record log
  exact ⟨by decide, fun fuel => rfl⟩

end PartitionChangeLog

end CedarGraph
