import CedarGraph.Sst.Builder
import CedarGraph.Sst.Filter

/-!
# The entity hash index on disk

`WriteFile` stores the map from entities to blocks as a count and one record for each entity:
the id, the number of blocks and the block numbers. Counts and block numbers have sixteen bits,
so the map survives only in files with fewer than 65536 blocks, and offsets have 32 bits.
-/

namespace CedarGraph

open FixedWidth List BuilderOptions

def encodeEntityEntry (entry : UInt64 × List Nat) : Bytes :=
  leBytes 8 entry.1.toNat ++ (leBytes 2 entry.2.length ++ column (leBytes 2) entry.2)

def encodeEntityIndex (index : EntityBlocks) : Bytes :=
  leBytes 4 index.length ++ index.flatMap encodeEntityEntry

/-- The loop over `block_count` ids, cut short at the end of the data. -/
def parseBlockIds : Nat → Bytes → List Nat × Bytes
  | 0, bytes => ([], bytes)
  | count + 1, bytes =>
    if 2 ≤ bytes.length then
      let rest := parseBlockIds count (bytes.drop 2)
      (leValue (bytes.take 2) :: rest.1, rest.2)
    else ([], bytes)

/-- The loop over the entries, cut short at the end of the data. -/
def parseEntries : Nat → EntityBlocks → Bytes → EntityBlocks
  | 0, index, _ => index
  | count + 1, index, bytes =>
    if 10 ≤ bytes.length then
      let eid := UInt64.ofNat (leValue (bytes.take 8))
      let afterId := bytes.drop 8
      let parsed := parseBlockIds (leValue (afterId.take 2)) (afterId.drop 2)
      parseEntries count (index.append eid parsed.1) parsed.2
    else index

def parseEntityIndex (bytes : Bytes) : EntityBlocks :=
  if 4 ≤ bytes.length then parseEntries (leValue (bytes.take 4)) [] (bytes.drop 4) else []

theorem parseBlockIds_column {ids : List Nat} (small : ∀ id ∈ ids, id < 256 ^ 2) (after : Bytes) :
    parseBlockIds ids.length (column (leBytes 2) ids ++ after) = (ids, after) := by
  induction ids with
  | nil => rfl
  | cons head tail ih =>
    obtain ⟨headSmall, tailSmall⟩ := forall_mem_cons.mp small
    have unfolded : column (leBytes 2) (head :: tail) ++ after =
        leBytes 2 head ++ (column (leBytes 2) tail ++ after) := by
      simp [column]
    have headLength : (leBytes 2 head).length = 2 := length_leBytes 2 head
    have longEnough :
        2 ≤ (leBytes 2 head ++ (column (leBytes 2) tail ++ after)).length := by
      rw [length_append, headLength]
      omega
    rw [unfolded, length_cons, parseBlockIds, if_pos longEnough,
      drop_left' headLength, take_left' headLength,
      ih tailSmall, leValue_leBytes_of_lt headSmall]

private theorem append_of_not_mem {index : EntityBlocks} {eid : UInt64}
    (fresh : eid ∉ index.map Prod.fst) (ids : List Nat) :
    index.append eid ids = index ++ [(eid, ids)] := by
  induction index with
  | nil => rfl
  | cons entry rest ih =>
    rw [map_cons, mem_cons, not_or] at fresh
    rw [EntityBlocks.append, if_neg (fun same => fresh.1 same.symm), ih fresh.2]
    rfl

private theorem parseEntries_flatMap (index parsed : EntityBlocks)
    (nodup : ((parsed ++ index).map Prod.fst).Nodup)
    (counts : ∀ entry ∈ index, entry.2.length < 256 ^ 2)
    (small : ∀ entry ∈ index, ∀ id ∈ entry.2, id < 256 ^ 2) :
    parseEntries index.length parsed (index.flatMap encodeEntityEntry) = parsed ++ index := by
  induction index generalizing parsed with
  | nil => simp [parseEntries]
  | cons entry rest ih =>
    obtain ⟨entryCount, restCounts⟩ := forall_mem_cons.mp counts
    obtain ⟨entrySmall, restSmall⟩ := forall_mem_cons.mp small
    have bytesEq : (entry :: rest).flatMap encodeEntityEntry =
        leBytes 8 entry.1.toNat ++ (leBytes 2 entry.2.length ++
          (column (leBytes 2) entry.2 ++ rest.flatMap encodeEntityEntry)) := by
      simp [encodeEntityEntry]
    have idLength : (leBytes 8 entry.1.toNat).length = 8 := length_leBytes 8 _
    have countLength : (leBytes 2 entry.2.length).length = 2 := length_leBytes 2 _
    have idValue : UInt64.ofNat (leValue (leBytes 8 entry.1.toNat)) = entry.1 := by
      rw [leValue_leBytes_of_lt (by simpa using entry.1.toNat_lt), UInt64.ofNat_toNat]
    have longEnough : 10 ≤ ((entry :: rest).flatMap encodeEntityEntry).length := by
      rw [bytesEq, length_append, length_append, idLength, countLength]
      omega
    have fresh : entry.1 ∉ parsed.map Prod.fst := by
      intro mem
      rw [map_append, map_cons] at nodup
      exact (nodup_append.mp nodup).2.2 entry.1 mem entry.1 mem_cons_self rfl
    have restNodup : (((parsed ++ [entry]) ++ rest).map Prod.fst).Nodup := by
      rw [append_assoc]
      exact nodup
    rw [length_cons, parseEntries, if_pos longEnough, bytesEq]
    simp only [take_left' idLength, drop_left' idLength,
      take_left' countLength, drop_left' countLength, idValue,
      leValue_leBytes_of_lt entryCount, parseBlockIds_column entrySmall]
    rw [append_of_not_mem fresh, ih _ restNodup restCounts restSmall, append_assoc]
    rfl

/-- The index is read back as it was written when no count and no block number
needs more than sixteen bits. -/
theorem parseEntityIndex_encode {index : EntityBlocks} (entries : index.length < 256 ^ 4)
    (nodup : (index.map Prod.fst).Nodup) (counts : ∀ entry ∈ index, entry.2.length < 256 ^ 2)
    (small : ∀ entry ∈ index, ∀ id ∈ entry.2, id < 256 ^ 2) :
    parseEntityIndex (encodeEntityIndex index) = index := by
  have countLength : (leBytes 4 index.length).length = 4 := length_leBytes 4 _
  have longEnough : 4 ≤ (encodeEntityIndex index).length := by
    rw [encodeEntityIndex, length_append, countLength]
    omega
  rw [parseEntityIndex, if_pos longEnough, encodeEntityIndex, take_left' countLength,
    drop_left' countLength, leValue_leBytes_of_lt entries,
    parseEntries_flatMap index [] nodup counts small, nil_append]

namespace SstFile

/-- No more bytes than this lie in front of the footer: the header, the blocks, uncompressed, and
their index; the temporal filter, in which a row sets at most twelve bytes, stored in five each;
the Bloom filter; and the entity index. -/
def sizeBound (file : SstFile) : Nat :=
  64 + (50 * file.blocks.length + 48 * file.rows.length) + 48 * file.blocks.length +
    (48 + 16 * (KeyRange.ofRows file.rows).hours + 60 * file.rows.length) +
    BloomFilter.dataSize file.rows.length + (4 + 12 * file.rows.length)

/-- Block numbers, the number of entities and all offsets fit their fields. -/
structure Indexable (file : SstFile) : Prop where
  blocks : file.blocks.length < 256 ^ 2
  rows : file.rows.length < 256 ^ 4
  offsets : file.sizeBound < 2 ^ 32

/-- Few enough rows, not too far apart in time, for the offsets of a file. -/
def Small (rows : List Row) : Prop :=
  ∃ hours, (∀ first ∈ rows, ∀ last ∈ rows,
    last.key.timestamp.toNat ≤ first.key.timestamp.toNat + hours * 3600000000) ∧
    123 * rows.length + 16 * hours + 294 < 2 ^ 32

theorem Small.of_keys {rows others : List Row} (small : Small rows)
    (fewer : others.length ≤ rows.length)
    (keys : ∀ row ∈ others, ∃ source ∈ rows, row.key = source.key) : Small others := by
  obtain ⟨hours, near, few⟩ := small
  refine ⟨hours, fun first isFirst last isLast => ?_, by omega⟩
  obtain ⟨firstSource, firstMember, firstKey⟩ := keys first isFirst
  obtain ⟨lastSource, lastMember, lastKey⟩ := keys last isLast
  rw [firstKey, lastKey]
  exact near firstSource firstMember lastSource lastMember

theorem Small.of_subperm {rows others : List Row} (small : Small rows)
    (included : others.Subperm rows) : Small others :=
  small.of_keys included.length_le fun row mem => ⟨row, included.subset mem, rfl⟩

theorem map_fst_entityBlocks (file : SstFile) :
    file.entityBlocks.map Prod.fst = file.builder.entityBlocks.map Prod.fst := by
  rw [entityBlocks, map_map]
  rfl

private theorem length_entityBlocks_le (file : SstFile) :
    file.entityBlocks.length ≤ file.rows.length := by
  have distinct : (file.entityBlocks.map Prod.fst).Nodup := by
    rw [map_fst_entityBlocks]
    exact file.valid_builder.nodup
  have included : file.entityBlocks.map Prod.fst ⊆ file.rows.map (·.key.entityId) := by
    intro eid mem
    have isSome : (file.entityBlocks.lookup eid).isSome := by
      rw [lookup_isSome_iff]
      rcases mem_map.mp mem with ⟨entry, entryMember, rfl⟩
      exact ⟨entry, entryMember, by simp⟩
    obtain ⟨row, rowMember, same⟩ := (file.isSome_lookup_entityBlocks eid).mp isSome
    exact mem_map.mpr ⟨row, rowMember, same⟩
  have bound := (subperm_of_subset distinct included).length_le
  rwa [length_map, length_map] at bound

private theorem lookup_of_mem_entityBlocks
    (file : SstFile) {entry : UInt64 × List Nat} (mem : entry ∈ file.entityBlocks) :
    file.entityBlocks.lookup entry.1 = some entry.2 := by
  have distinct : (file.entityBlocks.map Prod.fst).Nodup := by
    rw [map_fst_entityBlocks]
    exact file.valid_builder.nodup
  generalize file.entityBlocks = index at mem distinct
  induction index with
  | nil => cases mem
  | cons head tail ih =>
    rcases mem_cons.mp mem with rfl | tailMember
    · rw [lookup_cons_self]
    · rw [map_cons, nodup_cons] at distinct
      have differs : (entry.1 == head.1) = false := by
        rw [beq_eq_false_iff_ne]
        intro same
        exact distinct.1 (mem_map.mpr ⟨entry, tailMember, same⟩)
      rw [lookup_cons, differs]
      exact ih tailMember distinct.2

theorem parse_entityIndex {file : SstFile} (indexable : file.Indexable) :
    parseEntityIndex (encodeEntityIndex file.entityBlocks) = file.entityBlocks := by
  have idBound : ∀ entry ∈ file.entityBlocks, ∀ id ∈ entry.2, id < file.blocks.length := by
    intro entry mem id idMember
    have listed : id ∈ (file.entityBlocks.lookup entry.1).getD [] := by
      rw [lookup_of_mem_entityBlocks file mem]
      exact idMember
    obtain ⟨block, found, _⟩ := (file.mem_entityBlocks entry.1 id).mp listed
    exact (List.getElem?_eq_some_iff.mp found).1
  have blockBound := indexable.blocks
  apply parseEntityIndex_encode
  · have entries := file.length_entityBlocks_le
    have rowBound := indexable.rows
    omega
  · rw [map_fst_entityBlocks]
    exact file.valid_builder.nodup
  · intro entry mem
    have distinct : entry.2.Nodup := by
      have nodup := file.nodup_entityBlocks entry.1
      rw [lookup_of_mem_entityBlocks file mem] at nodup
      exact nodup
    have included : entry.2 ⊆ List.range file.blocks.length := by
      intro id idMember
      exact mem_range.mpr (idBound entry mem id idMember)
    have bound := (subperm_of_subset distinct included).length_le
    rw [length_range] at bound
    omega
  · intro entry mem id idMember
    have bound := idBound entry mem id idMember
    omega

theorem hours_ofRows_le {rows : List Row} {hours : Nat}
    (near : ∀ first ∈ rows, ∀ last ∈ rows,
      last.key.timestamp.toNat ≤ first.key.timestamp.toNat + hours * 3600000000) :
    (KeyRange.ofRows rows).hours ≤ hours + 1 := by
  have span : (KeyRange.ofRows rows).maxTimestamp.toNat ≤
      (KeyRange.ofRows rows).minTimestamp.toNat + hours * 3600000000 := by
    by_cases empty : rows = []
    · rw [empty]
      exact Nat.zero_le _
    · obtain ⟨⟨first, isFirst, isMin⟩, last, isLast, isMax⟩ := KeyRange.timestamps_ofRows empty
      rw [← isMin, ← isMax]
      exact near first isFirst last isLast
  rw [KeyRange.hours]
  omega

theorem indexable_forLevel (outputLevel : Int) {rows : List Row} (small : Small rows) :
    Indexable ⟨.forLevel outputLevel, rows⟩ := by
  obtain ⟨hours, near, few⟩ := small
  have cutSize : ∀ count, (forLevel outputLevel).blockRowLimit ≤ count ∨
      (forLevel outputLevel).targetBlockSize ≤ count * 40 → 0 < count →
      6554 ≤ count := by
    intro count cut _
    dsimp only [forLevel] at cut
    omega
  have blocks := length_blocks_le ⟨.forLevel outputLevel, rows⟩ cutSize
  have inTime := hours_ofRows_le near
  dsimp only at blocks
  refine ⟨by omega, by dsimp only; omega, ?_⟩
  rw [sizeBound, BloomFilter.dataSize]
  dsimp only
  omega

end SstFile

end CedarGraph
