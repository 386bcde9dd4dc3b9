import CedarGraph.Dtx.NativeOcc

/-!
# Transactions that write the same key

Transactions of several coordinators share one `TwcdEngine`. A transaction looks for conflicts
once, among those that are registered at that moment, and one that has committed is not. So two
with overlapping windows and a common key can both commit, unless the first leaves only when no
conflicting one is on its way to the validation.
-/

namespace CedarGraph

open Function Runs OccSession TwcdEngine

namespace DistributedTxnContext

/-- The windows overlap and a key is in both write sets. -/
def conflictsWith (ctx other : DistributedTxnContext) : Prop :=
  ctx.temporalWindow.overlaps other.temporalWindow ∧
    ∃ key ∈ ctx.writeSet, ∃ otherKey ∈ other.writeSet, key.sameKey otherKey

instance (ctx other : DistributedTxnContext) : Decidable (ctx.conflictsWith other) :=
  inferInstanceAs (Decidable (_ ∧ _))

theorem conflictsWith_symm
    {ctx other : DistributedTxnContext} (conflict : ctx.conflictsWith other) :
    other.conflictsWith ctx := by
  obtain ⟨overlap, key, written, otherKey, otherWritten, same⟩ := conflict
  exact ⟨TemporalWindow.overlaps_symm overlap, otherKey, otherWritten, key, written,
    CedarKey.sameKey_symm same⟩

end DistributedTxnContext

/-! ## The steps of the transactions -/

/-- How far a transaction is: `BeginTransaction` and `Commit` are cut where another
transaction can take a step. -/
inductive TwcdPhase where
  | idle
  | refused
  | started
  | registered
  | validated
  | written
  | committed
  | aborting
  | aborted
  deriving DecidableEq, Repr

namespace TwcdPhase

/-- The window is registered. -/
def isActive : TwcdPhase → Bool
  | .started | .registered | .validated | .written | .aborting => true
  | _ => false

/-- The write set is registered and will be as long as the transaction can succeed. -/
def isKnown : TwcdPhase → Bool
  | .registered | .validated | .written => true
  | _ => false

/-- The validation is still to come. -/
def isPending : TwcdPhase → Bool
  | .started | .registered => true
  | _ => false

/-- The validation has succeeded. -/
def isSettled : TwcdPhase → Bool
  | .validated | .written | .committed => true
  | _ => false

end TwcdPhase

inductive TwcdStep (Txn : Type) where
  | begin (txn : Txn) (nextTxnId now : UInt64)
  | registerWriteSet (txn : Txn)
  | checkConflict (txn : Txn)
  | write (txn : Txn) (around : Surroundings)
  | unregister (txn : Txn)
  | abort (txn : Txn)

/-- `finishedBefore` records which transactions had returned from `Commit` with success when
a transaction began. -/
structure TwcdSystem (Txn : Type) where
  engine : TwcdEngine
  ctx : Txn → DistributedTxnContext
  partition : Txn → UInt16
  memtables : UInt16 → VSLMemTable
  phase : Txn → TwcdPhase
  finishedBefore : Txn → Txn → Bool

namespace TwcdSystem

variable {Txn : Type}

section Steps

variable [DecidableEq Txn] (sys : TwcdSystem Txn) (txn : Txn)

def session : OccSession :=
  ⟨sys.engine, sys.ctx txn⟩

def place (phase : TwcdPhase) (session : OccSession) : TwcdSystem Txn :=
  { sys with
    engine := session.engine
    ctx := update sys.ctx txn session.ctx
    phase := update sys.phase txn phase }

def putMemtable (part : UInt16) (memtable : VSLMemTable) : TwcdSystem Txn :=
  { sys with memtables := update sys.memtables part memtable }

def stepBegin (nextTxnId now : UInt64) : TwcdSystem Txn :=
  match (sys.session txn).beginTransaction nextTxnId now with
  | (.error _, session) => sys.place txn .refused session
  | (.ok (), session) =>
    { sys.place txn .started session with
      finishedBefore := update sys.finishedBefore txn fun other => sys.phase other = .committed }

def stepRegister : TwcdSystem Txn :=
  match ((sys.session txn).setState .preparing).registerWrites with
  | .error _ => sys.place txn .aborting ((sys.session txn).setState .aborting)
  | .ok session => sys.place txn .registered session

def stepCheck : TwcdSystem Txn :=
  match (sys.session txn).checkConflicts with
  | .error _ => sys.place txn .aborting ((sys.session txn).setState .aborting)
  | .ok () => sys.place txn .validated (sys.session txn)

def stepWrite (around : Surroundings) : TwcdSystem Txn :=
  let committing := (sys.session txn).setCommitting around.now
  match around.wal with
  | .error _ => sys.place txn .aborting (committing.setState .aborting)
  | .ok () =>
    (sys.place txn .written committing).putMemtable (sys.partition txn)
      (committing.writeMemtable around.now (sys.memtables (sys.partition txn)))

/-- A transaction that is not at the step stays where it is. -/
def step : TwcdStep Txn → TwcdSystem Txn
  | .begin txn nextTxnId now =>
    if sys.phase txn = .idle then sys.stepBegin txn nextTxnId now else sys
  | .registerWriteSet txn => if sys.phase txn = .started then sys.stepRegister txn else sys
  | .checkConflict txn => if sys.phase txn = .registered then sys.stepCheck txn else sys
  | .write txn around =>
    if sys.phase txn = .validated then sys.stepWrite txn around else sys
  | .unregister txn =>
    if sys.phase txn = .written then
      sys.place txn .committed ((sys.session txn).finish .committed)
    else if sys.phase txn = .aborting then
      sys.place txn .aborted ((sys.session txn).finish .aborted)
    else sys
  | .abort txn =>
    if sys.phase txn = .started then
      sys.place txn .aborting ((sys.session txn).setState .aborting)
    else sys

end Steps

structure Initial (sys : TwcdSystem Txn) : Prop where
  engine : sys.engine = .empty
  idle : ∀ txn, sys.phase txn = .idle

/-- Each of the two began before the other had committed. -/
def concurrent (sys : TwcdSystem Txn) (txn other : Txn) : Prop :=
  sys.finishedBefore txn other = false ∧ sys.finishedBefore other txn = false

/-- At most one of two concurrent transactions that conflict has committed. -/
def WriteWriteSafe (sys : TwcdSystem Txn) : Prop :=
  ∀ txn other, txn ≠ other → (sys.ctx txn).conflictsWith (sys.ctx other) →
    sys.concurrent txn other → ¬ (sys.phase txn = .committed ∧ sys.phase other = .committed)

/-- A window that is not empty has an end, and a transaction that has written leaves when no
other one that it conflicts with has begun and not yet looked for conflicts. -/
def Allowed (sys : TwcdSystem Txn) : TwcdStep Txn → Prop
  | .begin txn _ _ =>
    (sys.ctx txn).temporalWindow.isEmpty ∨ (sys.ctx txn).temporalWindow.stop ≠ 0
  | .unregister txn =>
    sys.phase txn = .written → ∀ other, (sys.phase other).isPending →
      ¬ (sys.ctx txn).conflictsWith (sys.ctx other)
  | _ => True

instance [Fintype Txn] (sys : TwcdSystem Txn) :
    (op : TwcdStep Txn) → Decidable (sys.Allowed op)
  | .begin _ _ _ => inferInstanceAs (Decidable (_ ∨ _))
  | .unregister _ => inferInstanceAs (Decidable (_ → ∀ _, _))
  | .registerWriteSet _ | .checkConflict _ | .write _ _ | .abort _ =>
    inferInstanceAs (Decidable True)

/-! ## What the steps keep -/

/-- The engine knows the window of a transaction and, when it has come that far, its keys. -/
def Registered (eng : TwcdEngine) (ctx : DistributedTxnContext) (known : Bool) : Prop :=
  ∃ entry, eng.activeTxns ctx.txnId = some entry ∧ entry.window = ctx.temporalWindow ∧
    (known → ∀ key ∈ ctx.writeSet, key ∈ entry.writeSet)

structure Guarded (sys : TwcdSystem Txn) : Prop where
  indexed : sys.engine.Indexed
  registered : ∀ txn, (sys.phase txn).isActive →
    Registered sys.engine (sys.ctx txn) (sys.phase txn).isKnown
  distinct : ∀ txn other, txn ≠ other → (sys.phase txn).isActive →
    (sys.phase other).isActive → (sys.ctx txn).txnId ≠ (sys.ctx other).txnId
  bounded : ∀ txn, (sys.phase txn).isActive →
    (sys.ctx txn).temporalWindow.isEmpty ∨ (sys.ctx txn).temporalWindow.stop ≠ 0
  settled : ∀ txn other, txn ≠ other → (sys.ctx txn).conflictsWith (sys.ctx other) →
    (sys.phase txn).isSettled → (sys.phase other).isSettled →
    ¬ sys.concurrent txn other
  pending : ∀ txn other, txn ≠ other → (sys.ctx txn).conflictsWith (sys.ctx other) →
    sys.phase txn = .committed → (sys.phase other).isPending →
    sys.finishedBefore other txn = true

variable {sys : TwcdSystem Txn} {phase : TwcdPhase} {session : OccSession} {txn : Txn}

theorem Initial.guarded (initial : sys.Initial) : sys.Guarded where
  indexed := by
    rw [initial.engine]
    exact indexed_empty
  registered := by
    intro txn active
    rw [initial.idle txn] at active
    cases active
  distinct := by
    intro txn other _ active
    rw [initial.idle txn] at active
    cases active
  bounded := by
    intro txn active
    rw [initial.idle txn] at active
    cases active
  settled := by
    intro txn other _ _ isSettled
    rw [initial.idle txn] at isSettled
    cases isSettled
  pending := by
    intro txn other _ _ isCommitted
    rw [initial.idle txn] at isCommitted
    cases isCommitted

theorem Guarded.writeWriteSafe (guarded : sys.Guarded) : sys.WriteWriteSafe := by
  intro txn other ne conflict concurrent both
  apply guarded.settled txn other ne conflict _ _ concurrent
  · rw [both.1]
    rfl
  · rw [both.2]
    rfl

theorem session_putMemtable
    (sys : TwcdSystem Txn) (part : UInt16) (memtable : VSLMemTable) (txn : Txn) :
    (sys.putMemtable part memtable).session txn = sys.session txn :=
  rfl

theorem phase_putMemtable (sys : TwcdSystem Txn) (part : UInt16) (memtable : VSLMemTable) :
    (sys.putMemtable part memtable).phase = sys.phase :=
  rfl

variable [DecidableEq Txn]

@[simp] theorem place_phase_self
    (sys : TwcdSystem Txn) (txn : Txn) (phase : TwcdPhase) (session : OccSession) :
    (sys.place txn phase session).phase txn = phase := by
  simp [place]

@[simp] theorem place_ctx_self
    (sys : TwcdSystem Txn) (txn : Txn) (phase : TwcdPhase) (session : OccSession) :
    (sys.place txn phase session).ctx txn = session.ctx := by
  simp [place]

theorem place_phase_of_ne
    (sys : TwcdSystem Txn) {txn other : Txn} (ne : other ≠ txn) (phase : TwcdPhase)
    (session : OccSession) : (sys.place txn phase session).phase other = sys.phase other := by
  simp [place, ne]

theorem place_ctx_of_ne
    (sys : TwcdSystem Txn) {txn other : Txn} (ne : other ≠ txn) (phase : TwcdPhase)
    (session : OccSession) : (sys.place txn phase session).ctx other = sys.ctx other := by
  simp [place, ne]

/-- What a step of one transaction has to give for the others to be as before: the engine
changes for this transaction alone, and the order with the others is known. -/
structure Placeable (sys : TwcdSystem Txn) (txn : Txn) (phase : TwcdPhase)
    (session : OccSession) : Prop where
  indexed : session.engine.Indexed
  unchanged : ∀ other, other ≠ txn → (sys.phase other).isActive →
    session.engine.activeTxns (sys.ctx other).txnId = sys.engine.activeTxns (sys.ctx other).txnId
  registered : phase.isActive → Registered session.engine session.ctx phase.isKnown
  distinct : phase.isActive → ∀ other, other ≠ txn → (sys.phase other).isActive →
    (sys.ctx other).txnId ≠ session.ctx.txnId
  bounded : phase.isActive →
    session.ctx.temporalWindow.isEmpty ∨ session.ctx.temporalWindow.stop ≠ 0
  settled : phase.isSettled → ∀ other, other ≠ txn → session.ctx.conflictsWith (sys.ctx other) →
    (sys.phase other).isSettled → ¬ sys.concurrent txn other
  waits : phase.isPending → ∀ other, other ≠ txn → session.ctx.conflictsWith (sys.ctx other) →
    sys.phase other = .committed → sys.finishedBefore txn other = true
  leaves : phase = .committed → ∀ other, other ≠ txn →
    session.ctx.conflictsWith (sys.ctx other) → (sys.phase other).isPending →
    sys.finishedBefore other txn = true

theorem Registered.congr {eng changed : TwcdEngine} {ctx : DistributedTxnContext} {known : Bool}
    (registered : Registered eng ctx known)
    (same : changed.activeTxns ctx.txnId = eng.activeTxns ctx.txnId) :
    Registered changed ctx known := by
  obtain ⟨entry, isActive, rest⟩ := registered
  exact ⟨entry, same.trans isActive, rest⟩

theorem Guarded.place (guarded : sys.Guarded) (placeable : sys.Placeable txn phase session) :
    (sys.place txn phase session).Guarded := by
  constructor
  · exact placeable.indexed
  · intro other
    by_cases same : other = txn
    · rw [same, place_phase_self, place_ctx_self]
      exact placeable.registered
    · rw [place_phase_of_ne _ same, place_ctx_of_ne _ same]
      intro active
      exact (guarded.registered other active).congr (placeable.unchanged other same active)
  · intro first second ne
    by_cases isFirst : first = txn
    · have otherSecond : second ≠ txn := fun isSecond => ne (isFirst.trans isSecond.symm)
      rw [isFirst, place_ctx_self, place_phase_self, place_phase_of_ne _ otherSecond,
        place_ctx_of_ne _ otherSecond]
      exact fun isActive active => (placeable.distinct isActive second otherSecond active).symm
    · rw [place_phase_of_ne _ isFirst, place_ctx_of_ne _ isFirst]
      by_cases isSecond : second = txn
      · rw [isSecond, place_ctx_self, place_phase_self]
        exact fun active isActive => placeable.distinct isActive first isFirst active
      · rw [place_phase_of_ne _ isSecond, place_ctx_of_ne _ isSecond]
        exact guarded.distinct first second ne
  · intro other
    by_cases same : other = txn
    · rw [same, place_phase_self, place_ctx_self]
      exact placeable.bounded
    · rw [place_phase_of_ne _ same, place_ctx_of_ne _ same]
      exact guarded.bounded other
  · intro first second ne
    by_cases isFirst : first = txn
    · have otherSecond : second ≠ txn := fun isSecond => ne (isFirst.trans isSecond.symm)
      rw [isFirst, place_ctx_self, place_phase_self, place_phase_of_ne _ otherSecond,
        place_ctx_of_ne _ otherSecond]
      exact fun conflict isSettled otherSettled =>
        placeable.settled isSettled second otherSecond conflict otherSettled
    · rw [place_phase_of_ne _ isFirst, place_ctx_of_ne _ isFirst]
      by_cases isSecond : second = txn
      · rw [isSecond, place_ctx_self, place_phase_self]
        intro conflict otherSettled isSettled concurrent
        exact placeable.settled isSettled first isFirst
          (DistributedTxnContext.conflictsWith_symm conflict) otherSettled
          (And.symm concurrent)
      · rw [place_phase_of_ne _ isSecond, place_ctx_of_ne _ isSecond]
        exact guarded.settled first second ne
  · intro first second ne
    by_cases isFirst : first = txn
    · have otherSecond : second ≠ txn := fun isSecond => ne (isFirst.trans isSecond.symm)
      rw [isFirst, place_ctx_self, place_phase_self, place_phase_of_ne _ otherSecond,
        place_ctx_of_ne _ otherSecond]
      exact fun conflict isCommitted isPending =>
        placeable.leaves isCommitted second otherSecond conflict isPending
    · rw [place_phase_of_ne _ isFirst, place_ctx_of_ne _ isFirst]
      by_cases isSecond : second = txn
      · rw [isSecond, place_ctx_self, place_phase_self]
        exact fun conflict isCommitted isPending => placeable.waits isPending first isFirst
          (DistributedTxnContext.conflictsWith_symm conflict) isCommitted
      · rw [place_phase_of_ne _ isSecond, place_ctx_of_ne _ isSecond]
        exact guarded.pending first second ne

/-! ### The steps one by one -/

/-- The parts of a context on which the conflicts depend are the same. -/
structure SameTxn (ctx other : DistributedTxnContext) : Prop where
  txnId : ctx.txnId = other.txnId
  window : ctx.temporalWindow = other.temporalWindow
  writeSet : ctx.writeSet = other.writeSet

omit [DecidableEq Txn] in
theorem SameTxn.conflictsWith {ctx other third : DistributedTxnContext} (same : SameTxn ctx other)
    (conflict : ctx.conflictsWith third) : other.conflictsWith third := by
  rw [DistributedTxnContext.conflictsWith, same.window, same.writeSet] at conflict
  exact conflict

omit [DecidableEq Txn] in
theorem Guarded.placeable_of_engine (guarded : sys.Guarded) (active : (sys.phase txn).isActive)
    (eng : session.engine = sys.engine) (same : SameTxn session.ctx (sys.ctx txn))
    (known : phase.isKnown → (sys.phase txn).isKnown)
    (settled : phase.isSettled → ∀ other, other ≠ txn →
      (sys.ctx txn).conflictsWith (sys.ctx other) → (sys.phase other).isSettled →
      ¬ sys.concurrent txn other)
    (notPending : phase.isPending = false) (notCommitted : phase ≠ .committed) :
    sys.Placeable txn phase session := by
  constructor
  · rw [eng]
    exact guarded.indexed
  · intro other _ _
    rw [eng]
  · intro _
    obtain ⟨entry, isActive, sameWindow, keys⟩ := guarded.registered txn active
    rw [Registered, eng, same.txnId, same.window, same.writeSet]
    exact ⟨entry, isActive, sameWindow, fun isKnown => keys (known isKnown)⟩
  · intro _ other ne otherActive
    rw [same.txnId]
    exact guarded.distinct other txn ne otherActive active
  · intro _
    rw [same.window]
    exact guarded.bounded txn active
  · intro isSettled other ne conflict
    exact settled isSettled other ne (same.conflictsWith conflict)
  · intro isPending
    rw [notPending] at isPending
    cases isPending
  · intro isCommitted
    exact absurd isCommitted notCommitted

theorem Guarded.place_aborting (guarded : sys.Guarded) (active : (sys.phase txn).isActive)
    (eng : session.engine = sys.engine) (same : SameTxn session.ctx (sys.ctx txn)) :
    (sys.place txn .aborting session).Guarded := by
  apply guarded.place
  apply guarded.placeable_of_engine active eng same
  · intro isKnown
    cases isKnown
  · intro isSettled
    cases isSettled
  · rfl
  · simp

theorem Guarded.place_finish
    (guarded : sys.Guarded) (active : (sys.phase txn).isActive) (state : DistributedTxnState)
    (inactive : phase.isActive = false) (notPending : phase.isPending = false)
    (settled : phase.isSettled → (sys.phase txn).isSettled)
    (leaves : phase = .committed → ∀ other, (sys.phase other).isPending →
      ¬ (sys.ctx txn).conflictsWith (sys.ctx other)) :
    (sys.place txn phase ((sys.session txn).finish state)).Guarded := by
  apply guarded.place
  constructor
  · exact guarded.indexed.unregister _
  · intro other ne otherActive
    have distinct : (sys.ctx other).txnId ≠ (sys.session txn).ctx.txnId :=
      guarded.distinct other txn ne otherActive active
    rw [finish, setState, activeTxns_unregister, update_of_ne distinct]
    rfl
  · intro isActive
    rw [inactive] at isActive
    cases isActive
  · intro isActive
    rw [inactive] at isActive
    cases isActive
  · intro isActive
    rw [inactive] at isActive
    cases isActive
  · intro isSettled other ne conflict otherSettled
    exact guarded.settled txn other ne.symm conflict (settled isSettled) otherSettled
  · intro isPending
    rw [notPending] at isPending
    cases isPending
  · intro isCommitted other _ conflict isPending
    exact absurd conflict (leaves isCommitted other isPending)

theorem Guarded.begun
    (guarded : sys.Guarded) (idle : sys.phase txn = .idle) (before : Txn → Bool) :
    ({ sys with
      finishedBefore := update sys.finishedBefore txn before }).Guarded where
  indexed := guarded.indexed
  registered := guarded.registered
  distinct := guarded.distinct
  bounded := guarded.bounded
  settled := by
    intro first second ne conflict isSettled otherSettled together
    have notFirst : first ≠ txn := by
      rintro rfl
      simp [idle, TwcdPhase.isSettled] at isSettled
    have notSecond : second ≠ txn := by
      rintro rfl
      simp [idle, TwcdPhase.isSettled] at otherSettled
    simp only [concurrent, update_of_ne notFirst, update_of_ne notSecond] at together
    exact guarded.settled first second ne conflict isSettled otherSettled together
  pending := by
    intro first second ne conflict isCommitted isPending
    have notSecond : second ≠ txn := by
      rintro rfl
      simp [idle, TwcdPhase.isPending] at isPending
    simp only [update_of_ne notSecond]
    exact guarded.pending first second ne conflict isCommitted isPending

theorem Guarded.stepBegin
    (guarded : sys.Guarded) (idle : sys.phase txn = .idle) (nextTxnId now : UInt64)
    (bounded : (sys.ctx txn).temporalWindow.isEmpty ∨
      (sys.ctx txn).temporalWindow.stop ≠ 0) : (sys.stepBegin txn nextTxnId now).Guarded := by
  rw [TwcdSystem.stepBegin]
  split
  · rename_i status session error
    apply guarded.place
    have eng : session.engine = sys.engine := beginTransaction_error error
    constructor
    · rw [eng]
      exact guarded.indexed
    · intro other _ _
      rw [eng]
    all_goals
      intro impossible
      cases impossible
  · rename_i session ok
    obtain ⟨registered, window, writeSet⟩ := beginTransaction_ok ok
    obtain ⟨free, isEngine⟩ := registerWindow_eq_ok registered
    -- an active transaction with the same id would have refused the window
    have distinct : ∀ other, other ≠ txn → (sys.phase other).isActive →
        (sys.ctx other).txnId ≠ session.ctx.txnId := by
      intro other _ active same
      obtain ⟨entry, isActive, _⟩ := guarded.registered other active
      rw [same] at isActive
      exact Option.some_ne_none entry (isActive.symm.trans free)
    apply (guarded.begun idle _).place
    constructor
    · exact guarded.indexed.registerWindow registered
    · intro other ne active
      rw [isEngine]
      exact update_of_ne (distinct other ne active) _ _
    · intro _
      rw [Registered, isEngine, window]
      exact ⟨_, update_self _ _ _, rfl, fun isKnown => by cases isKnown⟩
    · exact fun _ => distinct
    · intro _
      rw [window]
      exact bounded
    · intro impossible
      cases impossible
    · intro _ other _ _ isCommitted
      simpa using isCommitted
    · intro impossible
      cases impossible

omit [DecidableEq Txn] in
theorem Guarded.registerWrites
    (guarded : sys.Guarded) (active : (sys.phase txn).isActive) {eng : TwcdEngine}
    (added : ((sys.ctx txn).writeSet = [] ∧ eng = sys.engine) ∨
      sys.engine.registerWriteSet (sys.ctx txn).txnId (sys.ctx txn).writeSet = .ok eng) :
    eng.Indexed ∧
      (∀ txnId, txnId ≠ (sys.ctx txn).txnId → eng.activeTxns txnId = sys.engine.activeTxns txnId) ∧
      Registered eng (sys.ctx txn) true := by
  obtain ⟨entry, isActive, window, _⟩ := guarded.registered txn active
  rcases added with ⟨nothing, same⟩ | ok
  · rw [same]
    refine ⟨guarded.indexed, fun _ _ => rfl, entry, isActive, window, ?_⟩
    rw [nothing]
    exact fun _ _ mem => absurd mem List.not_mem_nil
  · obtain ⟨own, ownActive, isEngine⟩ := registerWriteSet_eq_ok ok
    have sameEntry : own = entry := Option.some.inj (ownActive.symm.trans isActive)
    refine ⟨guarded.indexed.registerWriteSet ok, ?_, ?_⟩
    · intro txnId ne
      rw [isEngine]
      exact update_of_ne ne _ _
    · rw [Registered, isEngine]
      refine ⟨_, update_self _ _ _, ?_, ?_⟩
      · rw [sameEntry]
        exact window
      · exact fun _ key mem => List.mem_append_right _ mem

theorem Guarded.stepRegister (guarded : sys.Guarded)
    (started : sys.phase txn = .started) : (sys.stepRegister txn).Guarded := by
  have active : (sys.phase txn).isActive := by
    rw [started]
    rfl
  have waits : ∀ other, other ≠ txn → (sys.ctx txn).conflictsWith (sys.ctx other) →
      sys.phase other = .committed → sys.finishedBefore txn other = true := by
    intro other ne conflict isCommitted
    apply guarded.pending other txn ne
      (DistributedTxnContext.conflictsWith_symm conflict) isCommitted
    rw [started]
    rfl
  rw [TwcdSystem.stepRegister]
  split
  · exact guarded.place_aborting active rfl ⟨rfl, rfl, rfl⟩
  rename_i session ok
  obtain ⟨ctx, added⟩ := registerWrites_ok ok
  have same : SameTxn session.ctx (sys.ctx txn) := by
    rw [ctx]
    exact ⟨rfl, rfl, rfl⟩
  have indexed : session.engine.Indexed ∧ (∀ txnId, txnId ≠ (sys.ctx txn).txnId →
        session.engine.activeTxns txnId = sys.engine.activeTxns txnId) ∧
      Registered session.engine (sys.ctx txn) true :=
    guarded.registerWrites active added
  apply guarded.place
  constructor
  · exact indexed.1
  · intro other ne otherActive
    exact indexed.2.1 _ (guarded.distinct other txn ne otherActive active)
  · intro _
    rw [Registered, same.txnId, same.window, same.writeSet]
    exact indexed.2.2
  · intro _ other ne otherActive
    rw [same.txnId]
    exact guarded.distinct other txn ne otherActive active
  · intro _
    rw [same.window]
    exact guarded.bounded txn active
  · intro impossible
    cases impossible
  · intro _ other ne conflict isCommitted
    exact waits other ne (same.conflictsWith conflict) isCommitted
  · intro impossible
    cases impossible

omit [DecidableEq Txn] in
/-- A transaction that has registered its keys is a conflict for every other one. -/
theorem Guarded.not_isKnown
    (guarded : sys.Guarded) {txn other : Txn} (ok : (sys.session txn).checkConflicts = .ok ())
    (conflict : (sys.ctx txn).conflictsWith (sys.ctx other))
    (active : (sys.phase txn).isActive) (ne : other ≠ txn) : (sys.phase other).isKnown = false := by
  by_contra known
  rw [Bool.not_eq_false] at known
  have otherActive : (sys.phase other).isActive := by
    cases phase : sys.phase other <;> simp_all [TwcdPhase.isKnown, TwcdPhase.isActive]
  obtain ⟨entry, isActive, window, keys⟩ := guarded.registered other otherActive
  obtain ⟨overlap, key, written, otherKey, otherWritten, same⟩ := conflict
  have otherOverlap := TemporalWindow.overlaps_symm overlap
  have bounded : (sys.ctx other).temporalWindow.stop ≠ 0 :=
    (guarded.bounded other otherActive).resolve_left otherOverlap.1
  rw [← window] at otherOverlap bounded
  exact guarded.indexed.conflict isActive
    (guarded.distinct other txn ne otherActive active) bounded otherOverlap written
    (keys known otherKey otherWritten) (CedarKey.sameKey_symm same) _
    (checkConflicts_ok ok)

theorem Guarded.stepCheck (guarded : sys.Guarded)
    (registered : sys.phase txn = .registered) : (sys.stepCheck txn).Guarded := by
  have active : (sys.phase txn).isActive := by
    rw [registered]
    rfl
  rw [TwcdSystem.stepCheck]
  split
  · exact guarded.place_aborting active rfl ⟨rfl, rfl, rfl⟩
  rename_i ok
  apply guarded.place
  apply guarded.placeable_of_engine active rfl ⟨rfl, rfl, rfl⟩
  · intro _
    rw [registered]
    rfl
  · intro _ other ne conflict otherSettled together
    have unknown := guarded.not_isKnown ok conflict active ne
    have isCommitted : sys.phase other = .committed := by
      cases phase : sys.phase other <;> simp_all [TwcdPhase.isKnown, TwcdPhase.isSettled]
    have before := guarded.pending other txn ne
      (DistributedTxnContext.conflictsWith_symm conflict) isCommitted (by
        rw [registered]
        rfl)
    rw [together.1] at before
    cases before
  · rfl
  · simp

theorem Guarded.stepWrite (guarded : sys.Guarded)
    (validated : sys.phase txn = .validated) (around : Surroundings) :
    (sys.stepWrite txn around).Guarded := by
  have active : (sys.phase txn).isActive := by
    rw [validated]
    rfl
  rw [TwcdSystem.stepWrite]
  split
  · exact guarded.place_aborting active rfl ⟨rfl, rfl, rfl⟩
  have written : (sys.place txn .written ((sys.session txn).setCommitting around.now)).Guarded := by
    apply guarded.place
    apply guarded.placeable_of_engine active rfl ⟨rfl, rfl, rfl⟩
    · intro _
      rw [validated]
      rfl
    · intro _ other ne conflict otherSettled
      apply guarded.settled txn other ne.symm conflict _ otherSettled
      rw [validated]
      rfl
    · rfl
    · simp
  exact ⟨written.indexed, written.registered, written.distinct, written.bounded,
    written.settled, written.pending⟩

theorem Guarded.step (guarded : sys.Guarded) (op : TwcdStep Txn)
    (allowed : sys.Allowed op) : (sys.step op).Guarded := by
  cases op with
  | begin txn nextTxnId now =>
    rw [TwcdSystem.step]
    split
    · rename_i idle
      exact guarded.stepBegin idle nextTxnId now allowed
    · exact guarded
  | registerWriteSet txn =>
    rw [TwcdSystem.step]
    split
    · rename_i started
      exact guarded.stepRegister started
    · exact guarded
  | checkConflict txn =>
    rw [TwcdSystem.step]
    split
    · rename_i registered
      exact guarded.stepCheck registered
    · exact guarded
  | write txn around =>
    rw [TwcdSystem.step]
    split
    · rename_i validated
      exact guarded.stepWrite validated around
    · exact guarded
  | unregister txn =>
    rw [TwcdSystem.step]
    split
    · rename_i written
      apply guarded.place_finish
      · rw [written]
        rfl
      · rfl
      · rfl
      · intro _
        rw [written]
        rfl
      · intro _
        exact allowed written
    · split
      · rename_i aborting
        apply guarded.place_finish
        · rw [aborting]
          rfl
        · rfl
        · rfl
        · intro impossible
          cases impossible
        · intro impossible
          cases impossible
      · exact guarded
  | abort txn =>
    rw [TwcdSystem.step]
    split
    · rename_i started
      apply guarded.place_aborting _ rfl ⟨rfl, rfl, rfl⟩
      rw [started]
      rfl
    · exact guarded

/-! ### The steps in a row are the commit -/

@[simp] theorem session_place
    (sys : TwcdSystem Txn) (txn : Txn) (phase : TwcdPhase) (session : OccSession) :
    (sys.place txn phase session).session txn = session := by
  rw [TwcdSystem.session, place_ctx_self]
  rfl

/-- The steps of a commit without a step of another transaction between them. -/
def commitSteps (txn : Txn) (around : Surroundings) : List (TwcdStep Txn) :=
  [.registerWriteSet txn, .checkConflict txn, .write txn around, .unregister txn]

theorem run_commitSteps
    (started : sys.phase txn = .started) (around : Surroundings) :
    let ended := run TwcdSystem.step sys (commitSteps txn around)
    let (res, memtable, session) :=
      (sys.session txn).commit around (sys.memtables (sys.partition txn))
    ended.session txn = session ∧ ended.memtables (sys.partition txn) = memtable ∧
      ended.phase txn = match res with
        | .ok _ => .committed
        | .error _ => .aborted := by
  dsimp only [run, commitSteps, List.foldl_cons, List.foldl_nil]
  cases writes : ((sys.session txn).setState .preparing).registerWrites with
  | error status =>
    have first : sys.step (.registerWriteSet txn) =
        sys.place txn .aborting ((sys.session txn).setState .aborting) := by
      rw [step, if_pos started, stepRegister, writes]
    rw [first, commit, validate, writes]
    simp only [step, place_phase_self, reduceCtorEq, if_false, if_true, session_place]
    exact ⟨rfl, rfl, trivial⟩
  | ok registered =>
    have first : sys.step (.registerWriteSet txn) = sys.place txn .registered registered := by
      rw [step, if_pos started, stepRegister, writes]
    rw [first, commit, validate, writes]
    cases checks : registered.checkConflicts with
    | error status =>
      simp only [step, stepCheck, place_phase_self, session_place, checks,
        reduceCtorEq, if_false, if_true]
      exact ⟨rfl, rfl, trivial⟩
    | ok nothing =>
      cases log : around.wal with
      | error status =>
        simp only [step, stepCheck, stepWrite, place_phase_self, session_place,
          checks, log, reduceCtorEq, if_false, if_true]
        exact ⟨rfl, rfl, trivial⟩
      | ok nothing =>
        simp only [step, stepCheck, stepWrite, place_phase_self, session_place,
          checks, log, session_putMemtable, phase_putMemtable, reduceCtorEq, if_false,
          if_true]
        exact ⟨trivial, update_self _ _ _, trivial⟩

/-- In a run in which every window has an end and no transaction leaves while one that it
conflicts with is on its way to the validation, concurrent transactions that conflict do not
both commit. -/
theorem writeWriteSafe_run
    {sys : TwcdSystem Txn} (initial : sys.Initial) (ops : List (TwcdStep Txn))
    (allowed : Admissible TwcdSystem.step Allowed sys ops) :
    (run TwcdSystem.step sys ops).WriteWriteSafe :=
  (invariant_run (fun _ op guarded => guarded.step op) initial.guarded allowed).writeWriteSafe

section Pair

/-- Both transactions write the same key in the same window. -/
def pairOfWriters : TwcdSystem Bool where
  engine := .empty
  ctx := fun txn => ⟨if txn then 1001 else 1000, 10, ⟨100, 200⟩, [], [.vertex 1 2 150 0 0 0 0],
    .started, 0⟩
  partition := fun _ => 0
  memtables := fun _ => .empty
  phase := fun _ => .idle
  finishedBefore := fun _ _ => false

def bothBegin : List (TwcdStep Bool) :=
  [.begin false 1002 10, .begin true 1003 11]

theorem run_commitSteps_alone :
    (run step (run step pairOfWriters [.begin false 1002 10])
      (commitSteps false ⟨20, .ok ()⟩)).phase false = .committed :=
  (run_commitSteps (by decide) ⟨20, .ok ()⟩).2.2

/-- The one that looks first finds the other and leaves. -/
theorem writeWriteSafe_pair :
    (run step pairOfWriters (bothBegin ++
      [.registerWriteSet false, .registerWriteSet true, .checkConflict false, .unregister false,
        .checkConflict true, .write true ⟨30, .ok ()⟩, .unregister true])).WriteWriteSafe :=
  writeWriteSafe_run ⟨rfl, fun _ => rfl⟩ _ (by decide)

/-- The second one looks when the first is gone. -/
theorem sequential_commits_both_succeed :
    pairOfWriters.Initial ∧
      ¬ (run step pairOfWriters (bothBegin ++ commitSteps false ⟨20, .ok ()⟩ ++
        commitSteps true ⟨30, .ok ()⟩)).WriteWriteSafe := by
  refine ⟨⟨rfl, fun _ => rfl⟩, ?_⟩
  intro safe
  exact safe false true (by decide) (by decide) ⟨by decide, by decide⟩ (by decide)

end Pair

end TwcdSystem

end CedarGraph
