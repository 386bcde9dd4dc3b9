import CedarGraph.Lib.Runs
import CedarGraph.Types

/-!
# The index of version chains

Every key has a chain of versions, the newest first. A commit links its version in front and
makes it visible afterwards. A read is validated by the front of the chain, or by a walk to the
version that was read. The garbage collection decides for each version alone.
-/

namespace CedarGraph

open List Runs

/-- The address stands for the pointer to the node. -/
structure VersionChainNode where
  address : Nat
  txnId : UInt64
  commitTs : UInt64
  version : UInt64
  visible : Bool
  deriving DecidableEq, Repr

abbrev VersionChain := List VersionChainNode

namespace VersionChain

def getLatestVisible (chain : VersionChain) : Option VersionChainNode :=
  chain.find? fun node => node.visible

/-- The newest visible version that was committed at the time. -/
def newestAt (chain : VersionChain) (time : UInt64) : Option VersionChainNode :=
  chain.find? fun node => node.visible && decide (node.commitTs ≤ time)

/-- The loop of `RunGC` over a chain; `prev` says that there is a node in front. -/
def collect (safe : UInt64) : Bool → VersionChain → VersionChain
  | _, [] => []
  | prev, cur :: next =>
    if cur.visible ∧ cur.commitTs < safe ∧ prev then collect safe prev next
    else cur :: collect safe true next

end VersionChain

open VersionChain

abbrev VersionChainIndex := CedarKey → Option VersionChain

inductive VersionStep where
  | insertVersion (key : CedarKey) (address : Nat) (txnId commitTs ver : UInt64)
  | markVisible (key : CedarKey) (address : Nat)
  | runGC (safe : UInt64) (busy : CedarKey → Bool)

namespace VersionChainIndex

def readLatestVisible (index : VersionChainIndex) (key : CedarKey) :
    Except Status VersionChainNode :=
  match index key with
  | none => .error (.notFound "VersionChainIndex" "Key not found")
  | some chain =>
    match chain.getLatestVisible with
    | none => .error (.notFound "VersionChainIndex" "No visible version")
    | some node => .ok node

/-- The two steps of `CommitVersion`, and `RunGC` with the keys that have readers. -/
def step (index : VersionChainIndex) : VersionStep → VersionChainIndex
  | .insertVersion key address txnId commitTs ver =>
    Function.update index key (some (⟨address, txnId, commitTs, ver, false⟩ :: (index key).getD []))
  | .markVisible key address =>
    Function.update index key ((index key).map fun chain => chain.map fun node =>
      if node.address = address then { node with visible := true } else node)
  | .runGC safe busy => fun key =>
    if busy key then index key else (index key).map (collect safe false)

end VersionChainIndex

namespace VersionChain

def keeps (safe : UInt64) (node : VersionChainNode) : Bool :=
  !(node.visible && decide (node.commitTs < safe))

theorem collect_true (safe : UInt64) (chain : VersionChain) :
    collect safe true chain = chain.filter (keeps safe) := by
  induction chain with
  | nil => rfl
  | cons cur next ih =>
    rw [collect, filter_cons, ih]
    grind [keeps]

theorem mem_collect_iff {safe : UInt64} {chain : VersionChain} {node : VersionChainNode} :
    node ∈ collect safe false chain ↔
      node ∈ chain ∧ (chain.head? = some node ∨ keeps safe node = true) := by
  cases chain with
  | nil => simp [collect]
  | cons latest older =>
    rw [collect, if_neg (by simp), collect_true]
    grind

theorem find?_filter_of_kept {Item : Type*} {kept wanted : Item → Bool} {items : List Item}
    (first : ∀ item, items.find? wanted = some item → kept item = true) :
    (items.filter kept).find? wanted = items.find? wanted := by
  induction items with
  | nil => rfl
  | cons item rest ih => grind

theorem getLatestVisible_collect {safe : UInt64} {chain : VersionChain}
    (kept : ∀ node, chain.getLatestVisible = some node →
      chain.head? = some node ∨ keeps safe node = true) :
    (collect safe false chain).getLatestVisible = chain.getLatestVisible := by
  cases chain with
  | nil => rfl
  | cons latest older =>
    rw [collect, if_neg (by simp), collect_true]
    rw [getLatestVisible, getLatestVisible, find?_cons] at *
    split at kept
    · rename_i visible
      rw [find?_cons, visible]
    · rename_i hidden
      rw [find?_cons, hidden]
      apply find?_filter_of_kept
      intro node found
      rcases kept node found with isLatest | stays
      · have visible := find?_some found
        grind
      · exact stays

theorem find?_of_imp {Item : Type*} {wanted wider : Item → Bool} {items : List Item} {item : Item}
    (found : items.find? wider = some item) (implies : ∀ other, wanted other → wider other)
    (holds : wanted item = true) : items.find? wanted = some item := by
  induction items with
  | nil => cases found
  | cons first rest ih => grind

/-- The collection takes nothing away that a reader can see exactly if the newest version
at the safe point is the first of the chain or was committed at that very time. -/
theorem collect_keeps_iff (safe : UInt64) (chain : VersionChain) :
    ((collect safe false chain).getLatestVisible = chain.getLatestVisible ∧
      ∀ time, safe ≤ time → ∀ node, chain.newestAt time = some node →
        node ∈ collect safe false chain) ↔
      ∀ node, chain.newestAt safe = some node → chain.head? = some node ∨ node.commitTs = safe := by
  constructor
  · intro keeping node newest
    have isThere := find?_some newest
    have stays := mem_collect_iff.mp (keeping.2 safe (UInt64.le_refl safe) node newest)
    grind [keeps]
  · intro safely
    -- whatever is found first and is older than the safe point is the newest one there
    have stays : ∀ (wider : VersionChainNode → Bool) (node : VersionChainNode),
        (∀ other, (other.visible && decide (other.commitTs ≤ safe)) = true → wider other = true) →
        chain.find? wider = some node → chain.head? = some node ∨ keeps safe node = true := by
      intro wider node implies found
      by_cases kept : keeps safe node = true
      · exact Or.inr kept
      · have newest := find?_of_imp found implies (by grind [keeps])
        grind [keeps, newestAt]
    refine ⟨getLatestVisible_collect fun node => stays _ node (by grind), ?_⟩
    intro time later node newest
    refine mem_collect_iff.mpr ⟨mem_of_find?_eq_some newest, stays _ node ?_ newest⟩
    grind

end VersionChain

namespace VersionChainIndex

/-- `RunGC` keeps the latest visible version of every key, and every version that is the
newest one at a time from the safe point on, exactly if this holds of the safe point. -/
theorem runGC_keeps_iff (index : VersionChainIndex) (safe : UInt64) (busy : CedarKey → Bool) :
    (∀ key, (index.step (.runGC safe busy)).readLatestVisible key = index.readLatestVisible key ∧
      ∀ chain ∈ index key, ∀ time, safe ≤ time → ∀ node, chain.newestAt time = some node →
        ∃ collected ∈ index.step (.runGC safe busy) key, node ∈ collected) ↔
      ∀ key, busy key = false → ∀ chain ∈ index key, ∀ node, chain.newestAt safe = some node →
        chain.head? = some node ∨ node.commitTs = safe := by
  refine forall_congr' fun key => ?_
  rw [readLatestVisible, readLatestVisible, step]
  cases isBusy : busy key with
  | true =>
    refine iff_of_true ⟨by simp [isBusy], fun chain isChain time _ node newest => ?_⟩ nofun
    exact ⟨chain, by simpa [isBusy] using isChain, mem_of_find?_eq_some newest⟩
  | false =>
    cases isChain : index key with
    | none => simp [isBusy, isChain]
    | some chain =>
      have whole := collect_keeps_iff safe chain
      simp only [isBusy, Bool.false_eq_true, if_false, isChain, Option.map_some,
        Option.mem_some_iff, forall_eq', exists_eq_left', true_imp_iff]
      rw [← whole]
      refine and_congr_left' ?_
      grind

/-- The oldest version is still the newest one at the safe point, and the one in front of
the second chain is not visible yet. -/
theorem runGC_loses_versions :
    let key : CedarKey := .vertex 1 0 5 0 0 0 0
    let run := fun steps => (run step (fun _ => none) steps : VersionChainIndex)
    let newer : VersionChainIndex := run [.insertVersion key 0 1 3 1, .markVisible key 0,
      .insertVersion key 1 2 10 2, .markVisible key 1]
    let hidden : VersionChainIndex := run [.insertVersion key 0 1 3 1, .markVisible key 0,
      .insertVersion key 1 2 10 2]
    let gc : VersionStep := .runGC 5 fun _ => false
    ((newer key).bind fun chain => chain.newestAt 5) = some ⟨0, 1, 3, 1, true⟩ ∧
      newer.step gc key = some [⟨1, 2, 10, 2, true⟩] ∧
      hidden.readLatestVisible key = .ok ⟨0, 1, 3, 1, true⟩ ∧
      (hidden.step gc).readLatestVisible key =
        .error (.notFound "VersionChainIndex" "No visible version") := by
  decide +kernel

end VersionChainIndex

inductive ValidationResult where
  | valid
  | invalid
  | needFullCheck
  deriving DecidableEq, Repr

namespace VersionChain

section Validation

variable (readVersion commitTs : UInt64)

def validateWithHead : VersionChain → ValidationResult
  | [] => .valid
  | latest :: _ =>
    if latest.version = readVersion ∧ latest.visible then .valid
    else if latest.commitTs > commitTs then .needFullCheck
    else if latest.visible ∧ latest.version ≠ readVersion then .invalid
    else .needFullCheck

/-- The walk of `FullValidate`. -/
def walk : VersionChain → ValidationResult
  | [] => .invalid
  | node :: next =>
    if node.version = readVersion then .valid
    else if node.commitTs > commitTs ∧ node.visible then .invalid
    else walk next

/-- `BatchValidate` for one key with a chain, which other threads may change between the
two looks at its front and the walk: the result, and the chain that it is about. -/
def batchValidate (fast full walked : VersionChain) : ValidationResult × VersionChain :=
  match validateWithHead readVersion commitTs fast with
  | .needFullCheck =>
    match validateWithHead readVersion commitTs full with
    | .needFullCheck => (walk readVersion commitTs walked, walked)
    | res => (res, full)
  | res => (res, fast)

/-- The version in front is visible and not after the commit. -/
def Settled (commitTs : UInt64) (chain : VersionChain) : Prop :=
  ∃ latest ∈ chain.head?, latest.visible = true ∧ latest.commitTs ≤ commitTs

variable {readVersion commitTs} {chain : VersionChain}

/-- The front decides, whatever happens to the chain afterwards. -/
theorem batchValidate_of_settled {latest : VersionChainNode} {older : VersionChain}
    (visible : latest.visible = true) (inTime : latest.commitTs ≤ commitTs)
    (full walked : VersionChain) :
    batchValidate readVersion commitTs (latest :: older) full walked =
      (if latest.version = readVersion then .valid else .invalid, latest :: older) := by
  have notLater : ¬ latest.commitTs > commitTs := UInt64.not_lt.mpr inTime
  rw [batchValidate, validateWithHead]
  by_cases isRead : latest.version = readVersion
  · simp [isRead, visible]
  · simp [isRead, visible, notLater]

/-- A read of the version in front is valid, also when that version is not visible. -/
theorem batchValidate_of_front (latest : VersionChainNode) (older : VersionChain) :
    batchValidate latest.version commitTs (latest :: older) (latest :: older) (latest :: older) =
      (.valid, latest :: older) := by
  rw [batchValidate, validateWithHead, walk]
  cases latest.visible with
  | true => simp
  | false => by_cases later : latest.commitTs > commitTs <;> simp [later]

/-- Every read that is reported as valid was of the newest visible version that is not after
the commit exactly if the version in front is such a version at the first look. -/
theorem batchValidate_sound_iff_settled (commitTs : UInt64) (fast : VersionChain)
    (distinct : (fast.map VersionChainNode.version).Nodup) :
    (∀ (readVersion : UInt64) (full walked : VersionChain),
      (batchValidate readVersion commitTs fast full walked).1 = .valid →
        ∃ node, (batchValidate readVersion commitTs fast full walked).2.newestAt commitTs =
          some node ∧ node.version = readVersion) ↔
      Settled commitTs fast := by
  cases fast with
  | nil =>
    refine iff_of_false ?_ ?_
    · intro sound
      obtain ⟨node, newest, -⟩ := sound 0 [] [] rfl
      cases newest
    · rintro ⟨latest, isLatest, -⟩
      cases isLatest
  | cons latest older =>
    constructor
    · intro sound
      have read := @batchValidate_of_front commitTs latest older
      obtain ⟨node, newest, isRead⟩ := sound latest.version _ _ (congrArg Prod.fst read)
      rw [read] at newest
      have same : node = latest :=
        inj_on_of_nodup_map distinct (mem_of_find?_eq_some newest) mem_cons_self isRead
      have isThere := find?_some newest
      rw [same, Bool.and_eq_true, decide_eq_true_eq] at isThere
      exact ⟨latest, rfl, isThere⟩
    · rintro ⟨front, isFront, visible, inTime⟩ readVersion full walked valid
      cases isFront
      rw [batchValidate_of_settled visible inTime] at valid ⊢
      dsimp only at valid ⊢
      refine ⟨latest, by simp [newestAt, visible, inTime], ?_⟩
      by_contra isOther
      rw [if_neg isOther] at valid
      cases valid

theorem batchValidate_sound_of_two_versions :
    let chain : VersionChain := [⟨1, 2, 4, 2, true⟩, ⟨0, 1, 3, 1, true⟩]
    (batchValidate 2 5 chain [] []).1 = .valid ∧ (batchValidate 1 5 chain [] []).1 = .invalid ∧
      ∃ node, chain.newestAt 5 = some node ∧ node.version = 2 :=
  let chain : VersionChain := [⟨1, 2, 4, 2, true⟩, ⟨0, 1, 3, 1, true⟩]
  ⟨rfl, rfl, (batchValidate_sound_iff_settled 5 chain (by decide)).mpr
    ⟨_, rfl, rfl, by decide⟩ 2 [] [] rfl⟩

end Validation

end VersionChain

/-- A third transaction has linked its version and not made it visible: the walk passes
over a newer visible version.  And before that the newest version is after the commit. -/
theorem VersionChainIndex.batchValidate_accepts_old_read :
    let key : CedarKey := .vertex 1 0 5 0 0 0 0
    let both : VersionChainIndex := run step (fun _ => none)
      [.insertVersion key 0 1 3 1, .markVisible key 0, .insertVersion key 1 2 4 2,
        .markVisible key 1]
    (∃ chain ∈ both.step (.insertVersion key 2 3 5 3) key,
      (batchValidate 1 6 chain chain chain).1 = .valid ∧
        chain.newestAt 6 = some ⟨1, 2, 4, 2, true⟩) ∧
    ∃ chain ∈ both key, (batchValidate 2 3 chain chain chain).1 = .valid ∧
      chain.newestAt 3 = some ⟨0, 1, 3, 1, true⟩ :=
  ⟨⟨_, rfl, rfl, rfl⟩, _, rfl, rfl, rfl⟩

end CedarGraph
