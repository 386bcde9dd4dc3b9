import CedarGraph.Txn.Concurrent
import CedarGraph.Engine.Versions
import CedarGraph.Lib.Runs

/-!
# Repeatable reads

A transaction reads up to the last timestamp drawn when it began. A commit that had drawn its
timestamp by then but writes its rows later changes what it sees. When none is on its way at
`Begin`, the rows that others write are newer than the snapshot and move no visible version.
-/

namespace CedarGraph

open Function List Runs LsmEngine

namespace ConcurrentEngine

theorem eq_or_update {clients : Nat → Option Client} {name other : Nat} {client found : Client}
    (isFound : update clients name (some client) other = some found) :
    other = name ∧ client = found ∨ clients other = some found := by
  by_cases same : other = name
  · subst same
    rw [update_self] at isFound
    injection isFound with sameClient
    exact Or.inl ⟨rfl, sameClient⟩
  · rw [update_of_ne same] at isFound
    exact Or.inr isFound

theorem progress_writeToMemTable (sys : ConcurrentEngine) (name : Nat) :
    sys.Progress (sys.writeToMemTable name) name False := by
  rw [writeToMemTable]
  split
  · exact .same rfl rfl
  · rename_i client isClient
    split
    · exact .moved client _ isClient rfl rfl rfl rfl (Or.inl rfl)
    · exact .same rfl rfl

/-- Every client holds the active memtable, and the commits on their way have drawn
their timestamps after the reader took its snapshot. -/
structure Snapshots (opts : LsmOptions) (reader : Nat) (sys : ConcurrentEngine) :
    Prop where
  steady : sys.engine.Steady opts
  immApart : ∀ object ∈ sys.immObject, object ≠ sys.memObject
  holders : ∀ name client, sys.clients name = some client → client.memtable = sys.memObject
  counter : sys.manager.globalNext ≠ 0
  ahead : ∀ client, sys.clients reader = some client →
    client.transaction.readTimestamp < sys.manager.globalNext ∧
    ∀ name writer, sys.clients name = some writer → writer.stage ≠ none →
      ∀ entry ∈ writer.transaction.writeSet, client.transaction.readTimestamp < entry.txnVersion

/-- The condition on a step for a given reader.  No commit is on its way when it
begins; the rows of a commit fit the memtable and are new versions; the counter does
not overflow.  Rotations and direct writes are not steps of transactions. -/
def SnapshotAllowed (opts : LsmOptions) (reader : Nat) (sys : ConcurrentEngine)
    (op : Operation) : Prop :=
  sys.manager.globalNext ≠ uint64Max ∧
  match op with
  | .begin name => name = reader → sys.clients name = none →
      ∀ other client, sys.clients other = some client → client.stage = none
  | .writeToMemTable name =>
    ∀ client ∈ sys.clients name, client.reached .logged = true →
      sys.engine.EachPut (ArrivesApart opts) (client.transaction.writeSet.map WriteSetEntry.row)
  | .write _ => False
  | .maybeScheduleFlush _ => False
  | .forceFlush => False
  | .flushTable _ _ => False
  | .completeFlush _ => False
  | _ => True

section Invariant

variable {opts : LsmOptions} {walOpts : WalOptions} {reader : Nat}
  {sys : ConcurrentEngine}

variable {after : ConcurrentEngine} {begins : Prop} {name : Nat} {op : Operation}

/-- A client goes on with the same snapshot, and its commit is ahead of that of the reader. -/
theorem Snapshots.goOn
    (snapshots : sys.Snapshots opts reader) (sameMem : after.memObject = sys.memObject)
    (apart : ∀ object ∈ after.immObject, object ≠ after.memObject)
    (steady : after.engine.Steady opts) {old client : Client} (was : sys.clients name = some old)
    (clients : after.clients = update sys.clients name (some client))
    (memtable : client.memtable = old.memtable)
    (readTimestamp : client.transaction.readTimestamp = old.transaction.readTimestamp)
    (counter : after.manager.globalNext ≠ 0)
    (grows : ∀ stamp, stamp < sys.manager.globalNext → stamp < after.manager.globalNext)
    (ahead : ∀ found, sys.clients reader = some found → client.stage ≠ none →
      ∀ entry ∈ client.transaction.writeSet,
        found.transaction.readTimestamp < entry.txnVersion) : after.Snapshots opts reader := by
  refine ⟨steady, apart, ?_, counter, ?_⟩
  · rw [clients, sameMem]
    intro other found isFound
    rcases eq_or_update isFound with ⟨rfl, rfl⟩ | oldFound
    · exact memtable.trans (snapshots.holders other old was)
    · exact snapshots.holders other found oldFound
  · intro found isFound
    have before : ∃ prev, sys.clients reader = some prev ∧
        found.transaction.readTimestamp = prev.transaction.readTimestamp := by
      rw [clients] at isFound
      rcases eq_or_update isFound with ⟨sameName, rfl⟩ | oldFound
      · exact ⟨old, sameName ▸ was, readTimestamp⟩
      · exact ⟨found, oldFound, rfl⟩
    obtain ⟨prev, isEarlier, sameTimestamp⟩ := before
    obtain ⟨below, writers⟩ := snapshots.ahead prev isEarlier
    rw [sameTimestamp, clients]
    refine ⟨grows _ below, ?_⟩
    intro other writer isWriter staged
    rcases eq_or_update isWriter with ⟨-, rfl⟩ | oldWriter
    · exact ahead prev isEarlier staged
    · exact writers other writer oldWriter staged

theorem Snapshots.progress
    (snapshots : sys.Snapshots opts reader) (progress : sys.Progress after name begins)
    (bounded : sys.manager.globalNext ≠ uint64Max)
    (noCommit : begins → name = reader → sys.clients name = none →
      ∀ other client, sys.clients other = some client → client.stage = none)
    (sameMem : after.memObject = sys.memObject) (sameImm : after.immObject = sys.immObject)
    (steady : after.engine.Steady opts) : after.Snapshots opts reader := by
  have apart : ∀ object ∈ after.immObject, object ≠ after.memObject := by
    rw [sameMem, sameImm]
    exact snapshots.immApart
  cases progress with
  | same clients counter =>
    refine ⟨steady, apart, ?_, ?_, ?_⟩
    · rw [clients, sameMem]
      exact snapshots.holders
    · rw [counter]
      exact snapshots.counter
    · rw [clients, counter]
      exact snapshots.ahead
  | began client begins fresh clients counter memtable readTimestamp idle =>
    refine ⟨steady, apart, ?_, ?_, ?_⟩
    · rw [clients, sameMem]
      intro other found isFound
      rcases eq_or_update isFound with ⟨rfl, rfl⟩ | old
      · exact memtable
      · exact snapshots.holders other found old
    · rw [counter]
      exact snapshots.counter
    · rw [clients, counter]
      intro found isFound
      rcases eq_or_update isFound with ⟨sameName, rfl⟩ | old
      · have positive := snapshots.counter
        rw [readTimestamp]
        refine ⟨by grind, ?_⟩
        intro other writer isWriter staged
        rcases eq_or_update isWriter with ⟨-, rfl⟩ | oldWriter
        · exact absurd idle staged
        · exact absurd (noCommit begins sameName.symm fresh other writer oldWriter) staged
      · obtain ⟨below, writers⟩ := snapshots.ahead found old
        refine ⟨below, ?_⟩
        intro other writer isWriter staged
        rcases eq_or_update isWriter with ⟨-, rfl⟩ | oldWriter
        · exact absurd idle staged
        · exact writers other writer oldWriter staged
  | moved old client was clients counter memtable readTimestamp stages =>
    refine snapshots.goOn sameMem apart steady was clients memtable readTimestamp ?_ ?_ ?_
    · rw [counter]
      exact snapshots.counter
    · rw [counter]
      exact fun stamp below => below
    · intro found isFound staged
      rcases stages with idle | ⟨oldStaged, sameWrites⟩
      · exact absurd idle staged
      · rw [sameWrites]
        exact (snapshots.ahead found isFound).2 name old was oldStaged
  | drew old client was clients counter memtable readTimestamp stamped =>
    obtain ⟨grows, notZero⟩ : sys.manager.globalNext < sys.manager.globalNext + 1 ∧
        sys.manager.globalNext + 1 ≠ 0 := by
      grind [uint64Max]
    refine snapshots.goOn sameMem apart steady was clients memtable readTimestamp ?_ ?_ ?_
    · rw [counter]
      exact notZero
    · rw [counter]
      exact fun stamp below => UInt64.lt_trans below grows
    · intro found isFound _ entry member
      rw [stamped entry member]
      exact (snapshots.ahead found isFound).1

/-! ## Rows that are newer than the snapshot -/

theorem findVisible_of_sameTables (same : sys.SameTables after) (client : Client)
    (id : UInt64) (kind : EntityType) (col : UInt16) :
    after.findVisible opts client id kind col = sys.findVisible opts client id kind col := by
  rw [findVisible, findVisible, same.engine, same.tables]

/-- The rows of a commit leave the memtable in order and are invisible to a client
whose snapshot is older. -/
theorem foldl_write_invisible (steady : sys.engine.Steady opts)
    (apart : ∀ object ∈ sys.immObject, object ≠ sys.memObject) {rows : List Row}
    (arrive : sys.engine.EachPut (ArrivesApart opts) rows) :
    (rows.foldl ConcurrentEngine.write sys).engine.Steady opts ∧
    ∀ client : Client, client.memtable = sys.memObject →
      (∀ row ∈ rows, client.transaction.readTimestamp < row.txnVersion) →
      ∀ id kind col,
        (rows.foldl ConcurrentEngine.write sys).findVisible opts client id kind col =
          sys.findVisible opts client id kind col := by
  induction rows generalizing sys with
  | nil => exact ⟨steady, fun _ _ _ _ _ _ => rfl⟩
  | cons row rest ih =>
    have sameEngine := engine_write apart row
    have newSteady : (sys.write row).engine.Steady opts := by
      rw [sameEngine]
      exact steady.put arrive.1
    have restArrive : (sys.write row).engine.EachPut (ArrivesApart opts) rest := by
      rw [sameEngine]
      exact arrive.2
    obtain ⟨finalSteady, restInvisible⟩ := ih newSteady apart restArrive
    refine ⟨finalSteady, ?_⟩
    intro client holdsMem newer id kind col
    obtain ⟨newerRow, newerRest⟩ := forall_mem_cons.mp newer
    have invisible : decide (row.txnVersion ≤ client.transaction.readTimestamp) = false :=
      decide_eq_false (UInt64.not_le.mpr newerRow)
    have kept := restInvisible client holdsMem newerRest id kind col
    have sameTable : (sys.write row).tables client.memtable = sys.engine.mem.put row := by
      rw [holdsMem]
      exact update_self _ _ _
    have oldTable : sys.tables client.memtable = sys.engine.mem := by
      rw [holdsMem]
      rfl
    obtain ⟨sameChain, sameAll⟩ := steady.find?_put arrive.1
      (fun ver => decide (ver.txnVersion ≤ client.transaction.readTimestamp))
      invisible id kind col
    rw [foldl_cons, kept, findVisible, findVisible, sameTable, oldTable, sameEngine]
    dsimp only
    rw [sameChain, sameAll]

/-- A step keeps the invariant, and whatever a client of an older snapshot sees. -/
structure Keeps (opts : LsmOptions) (reader : Nat) (sys after : ConcurrentEngine) :
    Prop where
  snapshots : after.Snapshots opts reader
  visible : ∀ client, sys.clients reader = some client →
    ∀ id kind col,
      after.findVisible opts client id kind col = sys.findVisible opts client id kind col

section

variable (snapshots : sys.Snapshots opts reader)
include snapshots

theorem Snapshots.keeps_clientStep (bounded : sys.manager.globalNext ≠ uint64Max)
    (noCommit : begins → name = reader → sys.clients name = none →
      ∀ other client, sys.clients other = some client → client.stage = none)
    (only : sys.ClientStep after name begins) : sys.Keeps opts reader after := by
  have steady : after.engine.Steady opts := by
    rw [only.toSameTables.engine]
    exact snapshots.steady
  refine ⟨snapshots.progress only.progress bounded noCommit only.memObject only.immObject
    steady, ?_⟩
  intro client _
  exact findVisible_of_sameTables only.toSameTables client

theorem Snapshots.keeps_writeToMemTable
    (allowed : sys.SnapshotAllowed opts reader (.writeToMemTable name)) :
    sys.Keeps opts reader (sys.writeToMemTable name) := by
  have progress := progress_writeToMemTable sys name
  rcases writeToMemTable_cases (fun client isClient _ => snapshots.holders name client isClient)
    with same | ⟨writer, isWriter, logged, same⟩
  · rw [same]
    exact ⟨snapshots, fun _ _ _ _ _ => rfl⟩
  · obtain ⟨newSteady, invisible⟩ := foldl_write_invisible snapshots.steady snapshots.immApart
      (allowed.2 writer isWriter logged)
    rw [← same.engine] at newSteady
    rw [foldl_write] at same
    refine ⟨snapshots.progress progress allowed.1 (fun impossible => impossible.elim)
      same.memObject same.immObject newSteady, ?_⟩
    intro client isClient id kind col
    have staged : writer.stage ≠ none := by
      rw [Client.reached, Bool.and_eq_true, decide_eq_true_eq] at logged
      rw [logged.1]
      simp
    have newer : ∀ row ∈ writer.transaction.writeSet.map WriteSetEntry.row,
        client.transaction.readTimestamp < row.txnVersion := by
      intro row member
      obtain ⟨entry, entryMember, rfl⟩ := mem_map.mp member
      exact (snapshots.ahead client isClient).2 name writer isWriter staged entry entryMember
    have kept := invisible client (snapshots.holders reader client isClient) newer id kind col
    rw [foldl_write] at kept
    rw [findVisible_of_sameTables same, kept]

theorem keeps_step (allowed : sys.SnapshotAllowed opts reader op) :
    sys.Keeps opts reader (sys.step opts walOpts op) := by
  cases named : op.client with
  | some name =>
    refine snapshots.keeps_clientStep allowed.1 ?_ (clientStep_step sys opts walOpts named)
    rintro rfl
    exact allowed.2
  | none =>
    cases op with
    | writeToMemTable name => exact snapshots.keeps_writeToMemTable allowed
    | _ => first | exact allowed.2.elim | cases named

end

theorem engine_start (eng : LsmEngine) (shards : UInt32) (wal : Option WalWriter) :
    (start eng shards wal).engine = eng := by
  rcases eng with ⟨mem, imm⟩
  cases imm with
  | none => rfl
  | some table => rfl

theorem snapshots_start {eng : LsmEngine} (steady : eng.Steady opts) (shards : UInt32)
    (wal : Option WalWriter) (reader : Nat) : (start eng shards wal).Snapshots opts reader := by
  refine ⟨by rw [engine_start]; exact steady, ?_, ?_, ?_, ?_⟩
  · intro object isImm
    obtain ⟨table, -, same⟩ := Option.map_eq_some_iff.mp isImm
    rw [← same]
    exact Nat.one_ne_zero
  · intro name client impossible
    cases impossible
  · intro isZero
    have bound := shards.toNat_lt
    have size : UInt64.size = 2 ^ 64 := rfl
    have value : (UInt64.ofNat (1 + 1000 * shards.toNat)).toNat = (0 : UInt64).toNat :=
      congrArg UInt64.toNat isZero
    rw [UInt64.toNat_ofNat_of_lt' (by omega), UInt64.toNat_zero] at value
    omega
  · intro client impossible
    cases impossible

/-- The step is not one of the reader, or it is a `Get`. -/
def QuietFor (reader : Nat) : Operation → Prop
  | .begin name => name ≠ reader
  | .put name _ => name ≠ reader
  | .startCommit name => name ≠ reader
  | .writeToWAL name _ => name ≠ reader
  | .writeToMemTable name => name ≠ reader
  | .abort name _ => name ≠ reader
  | _ => True

/-- The clients differ at most in what they have recorded as read. -/
def SameReader (client later : Client) : Prop :=
  ∃ readSet, later = { client with
    transaction := { client.transaction with readSet := readSet } }

theorem sameReader_step
    (walOpts : WalOptions) {client : Client} (isClient : sys.clients reader = some client)
    (allowed : sys.SnapshotAllowed opts reader op) (quiet : QuietFor reader op) :
    ∃ later, (sys.step opts walOpts op).clients reader = some later ∧ SameReader client later := by
  have unchanged : ∀ {after : ConcurrentEngine} {name : Nat} {begins : Prop},
      sys.Progress after name begins → name ≠ reader →
      ∃ later, after.clients reader = some later ∧ SameReader client later := by
    intro after name begins progress ne
    exact ⟨client, (progress.others (Ne.symm ne)).trans isClient, _, rfl⟩
  cases op with
  | get name id kind col =>
    by_cases same : name = reader
    · subst same
      rw [step, get, onRunning, isClient]
      dsimp only
      split
      · refine ⟨_, clients_setClient _ _ _, ?_⟩
        rw [recordRead]
        split
        · exact ⟨_, rfl⟩
        · split
          · exact ⟨_, rfl⟩
          · exact ⟨_, rfl⟩
      · exact ⟨client, isClient, _, rfl⟩
    · exact unchanged (clientStep_step sys opts walOpts rfl).progress same
  | writeToMemTable name => exact unchanged (progress_writeToMemTable sys name) quiet
  | _ =>
    first
    | exact unchanged (clientStep_step sys opts walOpts rfl).progress quiet
    | exact allowed.2.elim

theorem findVisible_of_sameReader
    {client later : Client} (same : SameReader client later) (id : UInt64)
    (kind : EntityType) (col : UInt16) :
    sys.findVisible opts later id kind col = sys.findVisible opts client id kind col := by
  obtain ⟨readSet, rfl⟩ := same
  rfl

/-- What the reader saw in the first state, and still sees. -/
structure StillSees (opts : LsmOptions) (reader : Nat) (first : ConcurrentEngine)
    (client : Client) (sys : ConcurrentEngine) : Prop where
  snapshots : sys.Snapshots opts reader
  later : ∃ later, sys.clients reader = some later ∧ SameReader client later
  visible : ∀ id kind col,
    sys.findVisible opts client id kind col = first.findVisible opts client id kind col

theorem StillSees.step {first : ConcurrentEngine} {client : Client}
    (sees : StillSees opts reader first client sys) (allowed : sys.SnapshotAllowed opts reader op)
    (quiet : QuietFor reader op) :
    StillSees opts reader first client (sys.step opts walOpts op) := by
  obtain ⟨cur, isCurrent, sameCurrent⟩ := sees.later
  obtain ⟨later, isLater, sameLater⟩ :=
    sameReader_step walOpts isCurrent allowed quiet
  have keeps : sys.Keeps opts reader (sys.step opts walOpts op) :=
    keeps_step sees.snapshots allowed
  refine ⟨keeps.snapshots, ⟨later, isLater, ?_⟩, ?_⟩
  · obtain ⟨currentReads, rfl⟩ := sameCurrent
    obtain ⟨laterReads, rfl⟩ := sameLater
    exact ⟨laterReads, rfl⟩
  · intro id kind col
    have kept := keeps.visible cur isCurrent id kind col
    rw [findVisible_of_sameReader sameCurrent, findVisible_of_sameReader sameCurrent] at kept
    rw [kept]
    exact sees.visible id kind col

end Invariant

/-- In every run whose steps meet the condition, two reads of one transaction between
which it makes no call other than `Get` return the same. -/
theorem reads_repeat (opts : LsmOptions) (walOpts : WalOptions) (eng : LsmEngine)
    (steady : eng.Steady opts) (shards : UInt32) (wal : Option WalWriter)
    (reader : Nat) (before between : List Operation)
    (beforeAllowed : Admissible (step opts walOpts)
      (SnapshotAllowed opts reader) (start eng shards wal) before)
    (betweenAllowed : Admissible (step opts walOpts)
      (fun sys op =>
        sys.SnapshotAllowed opts reader op ∧ QuietFor reader op)
      (run (step opts walOpts) (start eng shards wal) before) between) :
    let first := run (step opts walOpts) (start eng shards wal) before
    let second := run (step opts walOpts) first between
    ∀ client, first.clients reader = some client →
      ∃ later, second.clients reader = some later ∧
        ∀ id kind col, second.read opts later id kind col = first.read opts client id kind col := by
  intro first second client isClient
  have kept : ∀ (sys : ConcurrentEngine) (op : Operation),
      sys.Snapshots opts reader → sys.SnapshotAllowed opts reader op →
      (sys.step opts walOpts op).Snapshots opts reader := by
    intro sys op snapshots allowed
    exact (keeps_step snapshots allowed).snapshots
  have snapshots : first.Snapshots opts reader :=
    invariant_run kept (snapshots_start steady shards wal reader) beforeAllowed
  have seen : ∀ (sys : ConcurrentEngine) (op : Operation), StillSees opts reader first client sys →
      sys.SnapshotAllowed opts reader op ∧ QuietFor reader op →
      StillSees opts reader first client (sys.step opts walOpts op) := by
    intro sys op sees allowed
    exact sees.step allowed.1 allowed.2
  have sees : StillSees opts reader first client second :=
    invariant_run seen ⟨snapshots, ⟨client, isClient, _, rfl⟩, fun _ _ _ => rfl⟩ betweenAllowed
  obtain ⟨later, isLater, same⟩ := sees.later
  refine ⟨later, isLater, ?_⟩
  intro id kind col
  have visible := sees.visible id kind col
  rw [← findVisible_of_sameReader same] at visible
  obtain ⟨readSet, rfl⟩ := same
  rw [read, read, visible]
  rfl

theorem reads_repeat_across_commit :
    let first := run (step .default .default) (start (.init .default) 1 none) [.begin 1]
    let second := run (step .default .default) first
      [.begin 2, .put 2 (.put 7 .vertex 0 ⟨16⟩ 10 0 0), .startCommit 2, .writeToWAL 2 .success,
        .writeToMemTable 2]
    ∀ client, first.clients 1 = some client →
      ∃ later, second.clients 1 = some later ∧
        ∀ id kind col,
          second.read .default later id kind col = first.read .default client id kind col := by
  have other : (2 : Nat) ≠ 1 := by decide
  refine reads_repeat .default .default (.init .default) (steady_init .default) 1 none
    1 _ _ ⟨⟨by decide, ?_⟩, trivial⟩ ⟨⟨⟨by decide, ?_⟩, other⟩, ⟨⟨by decide, trivial⟩, other⟩,
      ⟨⟨by decide, trivial⟩, other⟩, ⟨⟨by decide, trivial⟩, other⟩,
      ⟨⟨by decide, ?_⟩, other⟩, trivial⟩
  · intro _ _ other client impossible
    cases impossible
  · intro impossible
    exact absurd impossible other
  · intro client isClient _
    injection isClient with same
    subst same
    refine ⟨⟨⟨by decide, by decide⟩, ?_⟩, trivial⟩
    intro kind _ ver member
    have nothing : ver ∈ (init .default).versions .default 7 kind 0 := member
    rw [versions_init] at nothing
    cases nothing

/-- A commit has drawn its timestamp before the reader begins and writes its row
between the two reads. -/
theorem read_changes_within_transaction :
    let first := run (step .default .default) (start (.init .default) 1 none)
      [.begin 2, .put 2 (.put 7 .vertex 0 ⟨16⟩ 10 0 0), .startCommit 2, .begin 1]
    let second := run (step .default .default) first
      [.get 1 7 .vertex 0, .writeToWAL 2 .success, .writeToMemTable 2]
    ((first.clients 1).map fun client => first.read .default client 7 .vertex 0) =
        some (.error (.notFound "OCCTransaction" "no valid version found")) ∧
      ((second.clients 1).map fun client => second.read .default client 7 .vertex 0) =
        some (.ok (⟨16⟩, 10)) := by
  decide +kernel

end ConcurrentEngine

end CedarGraph
