import CedarGraph.Lib.Scan
import CedarGraph.Manifest.Reload

/-!
# A manifest that was cut off

A crash can leave any front part of the bytes that were logged. `LoadCurrentVersion` then applies
the edits whose records are whole, and no part of the record behind them.
-/

namespace CedarGraph

open FixedWidth List ManifestEdit ManifestManager

namespace LoadedVersion

variable {edit : ManifestEdit} {edits : List ManifestEdit}

theorem loadRecords_cut (fits : edit.Fits) {size : Nat} (cut : size < (frame edit).length)
    (fuel : Nat) (loaded : LoadedVersion) :
    loadRecords fuel ((frame edit).take size) loaded = loaded := by
  have bound : edit.encodeTo.length ≤ 64 * 1024 * 1024 := fits
  have width : (frame edit).length = 4 + edit.encodeTo.length := by
    rw [frame, length_append, length_leBytes]
  cases fuel with
  | zero => rfl
  | succ fuel =>
    rw [loadRecords]
    by_cases short : size < 4
    · rw [if_pos (by rw [length_take]; omega)]
    · have announced : leValue (((frame edit).take size).take 4) = edit.encodeTo.length := by
        rw [take_take, Nat.min_eq_left (Nat.le_of_not_lt short), frame]
        exact leValue_take_leBytes 4 (by omega) _
      rw [if_neg (by rw [length_take]; omega), announced]
      split
      · rfl
      · rw [if_pos (by rw [length_drop, length_take]; omega)]

theorem loadRecords_take (fits : ∀ edit ∈ edits, edit.Fits) (size : Nat) {fuel : Nat}
    (enough : ((edits.flatMap frame).take size).length ≤ fuel) (loaded : LoadedVersion) :
    loadRecords fuel ((edits.flatMap frame).take size) loaded =
      (Scan.within frame size edits).foldl
        (fun loaded edit => loaded.loadRecord edit.encodeTo) loaded := by
  induction edits generalizing size fuel loaded with
  | nil =>
    rw [flatMap_nil, take_nil, Scan.within, foldl_nil]
    cases fuel with
    | zero => rfl
    | succ fuel => rfl
  | cons edit rest ih =>
    rw [forall_mem_cons] at fits
    rw [flatMap_cons, Scan.within]
    rw [flatMap_cons] at enough
    by_cases whole : (frame edit).length ≤ size
    · rw [take_append, take_of_length_le whole] at enough ⊢
      rw [length_append] at enough
      have nonempty : 4 ≤ (frame edit).length := by
        rw [frame, length_append, length_leBytes]
        omega
      cases fuel with
      | zero => omega
      | succ fuel =>
        rw [if_pos whole, foldl_cons, loadRecords_frame fits.1]
        exact ih fits.2 _ (by omega) _
    · rw [if_neg whole, foldl_nil, take_append_of_le_length (by omega)]
      exact loadRecords_cut fits.1 (by omega) fuel loaded

end LoadedVersion

/-- Of a manifest that ends after `size` bytes, the edits are loaded whose records are whole; no
version is loaded without the header. -/
theorem ManifestManager.loadCurrentVersion_take (manager : ManifestManager) (number : UInt64)
    (opened : manager.manifestFile = some number) (edits : List ManifestEdit)
    (fits : ∀ edit ∈ edits, edit.Fits) (size : Nat)
    (cut : manager.directory.manifests number = some ((header ++ edits.flatMap frame).take size)) :
    manager.loadCurrentVersion =
      if size < 12 then .error (.corruption "Manifest" "Cannot read header")
      else .ok ((Scan.within frame (size - 12) edits).foldl
        (fun loaded edit => loaded.loadRecord edit.encodeTo) .new) := by
  have headerLength : header.length = 12 := rfl
  simp only [loadCurrentVersion, opened, cut]
  by_cases short : size < 12
  · rw [if_pos (by rw [length_take]; omega), if_pos short]
  · have content : ((header ++ edits.flatMap frame).take size).drop 12 =
        (edits.flatMap frame).take (size - 12) := by
      rw [take_append, take_of_length_le (by omega), drop_left' headerLength, headerLength]
    rw [if_neg (by rw [length_take, length_append]; omega), if_neg short, content]
    refine congrArg Except.ok (LoadedVersion.loadRecords_take fits _ ?_ _)
    rw [← content, length_drop]
    omega

theorem ManifestManager.loadCurrentVersion_take_last_byte :
    let edits : List ManifestEdit := [.addColumnFamily [0x63, 0x66], .nextFileNumber 7]
    let manager : ManifestManager := ⟨"db", ⟨some 1, fun _ =>
      some ((header ++ edits.flatMap frame).take 35)⟩, some 1⟩
    manager.loadCurrentVersion =
      .ok (LoadedVersion.new.loadRecord (ManifestEdit.addColumnFamily [0x63, 0x66]).encodeTo) := by
  intro edits manager
  have fits : ∀ edit ∈ edits, edit.Fits := by
    decide +kernel
  rw [loadCurrentVersion_take manager 1 rfl edits fits 35 rfl, if_neg (by decide)]
  rfl

end CedarGraph
