import CedarGraph.Lib.Causality

/-!
# The hybrid logical clock

`Now` follows the physical clock of the node while it moves forward and counts while it does
not; `Update` moves the clock beyond a received timestamp. The counter is stopped in `Now` only,
so it is the number of events that keeps it from running over.
-/

namespace CedarGraph

open List Causality Relation

structure HlcTimestamp where
  physical : UInt64
  logical : UInt64
  deriving DecidableEq, Repr

namespace HlcTimestamp

instance : LT HlcTimestamp where
  lt first second := first.physical < second.physical ∨
    (first.physical = second.physical ∧ first.logical < second.logical)

instance (first second : HlcTimestamp) : Decidable (first < second) :=
  inferInstanceAs (Decidable (_ ∨ _))

instance : LE HlcTimestamp where
  le first second := ¬ second < first

theorem lt_iff (first second : HlcTimestamp) :
    first < second ↔ first.physical.toNat < second.physical.toNat ∨
      (first.physical.toNat = second.physical.toNat ∧
        first.logical.toNat < second.logical.toNat) := by
  rw [← UInt64.lt_iff_toNat_lt, ← UInt64.lt_iff_toNat_lt, UInt64.toNat_inj]
  exact Iff.rfl

theorem le_iff (first second : HlcTimestamp) : first ≤ second ↔ ¬ second < first :=
  Iff.rfl

instance : Preorder HlcTimestamp where
  le_refl := by
    intro timestamp
    rw [le_iff, lt_iff]
    omega
  le_trans := by
    intro first second third
    simp only [le_iff, lt_iff]
    omega
  lt_iff_le_not_ge := by
    intro first second
    simp only [le_iff, lt_iff]
    omega

end HlcTimestamp

namespace HybridLogicalClock

def maxLogicalCounter : UInt64 := 0xFFFFFFFF

/-- `Now` with the last timestamp of the clock and two readings of the physical clock; the
second one is taken where the counter has run up to its limit. -/
def now (last : HlcTimestamp) (physical second : UInt64) : HlcTimestamp :=
  if physical > last.physical then ⟨physical, 0⟩
  else if physical = last.physical then
    if last.logical ≥ maxLogicalCounter then
      ⟨if second > last.physical then second else last.physical + 1, 0⟩
    else ⟨last.physical, last.logical + 1⟩
  else if last.logical ≥ maxLogicalCounter then
    if physical ≤ last.physical then ⟨last.physical + 1, 0⟩ else ⟨physical, 0⟩
  else ⟨last.physical, last.logical + 1⟩

def update (last received : HlcTimestamp) (physical : UInt64) : HlcTimestamp :=
  let newPhysical := max (max last.physical received.physical) physical
  if newPhysical = last.physical ∧ newPhysical = received.physical then
    ⟨newPhysical, max last.logical received.logical + 1⟩
  else if newPhysical = last.physical then ⟨newPhysical, last.logical + 1⟩
  else if newPhysical = received.physical then ⟨newPhysical, received.logical + 1⟩
  else ⟨newPhysical, 0⟩

/-- What the clock can have reached after this many events. -/
def Within (count : Nat) (timestamp : HlcTimestamp) : Prop :=
  timestamp.physical.toNat ≤ 2 ^ 63 + count ∧ timestamp.logical.toNat ≤ count

theorem toNat_next {value : UInt64} (small : value.toNat < 2 ^ 64 - 1) :
    (value + 1).toNat = value.toNat + 1 := by
  rw [UInt64.toNat_add, UInt64.toNat_one]
  exact Nat.mod_eq_of_lt (by omega)

theorem toNat_larger (first second : UInt64) :
    (max first second).toNat = max first.toNat second.toNat := by
  by_cases ordered : first ≤ second
  · have larger : max first second = second := if_pos ordered
    rw [larger, Nat.max_eq_right (UInt64.le_iff_toNat_le.mp ordered)]
  · have larger : max first second = first := if_neg ordered
    have less := UInt64.not_le.mp ordered
    rw [larger, Nat.max_eq_left (UInt64.le_iff_toNat_le.mp (UInt64.le_of_lt less))]

variable {count : Nat} {last : HlcTimestamp}

theorem jump_spec {physical : UInt64}
    (ahead : last.physical.toNat < physical.toNat) (bound : physical.toNat ≤ 2 ^ 63 + (count + 1)) :
    last < ⟨physical, 0⟩ ∧ Within (count + 1) ⟨physical, 0⟩ := by
  rw [HlcTimestamp.lt_iff]
  exact ⟨Or.inl ahead, bound, Nat.zero_le _⟩

theorem count_spec (few : count < 2 ^ 62) (within : Within count last) :
    last < ⟨last.physical, last.logical + 1⟩ ∧
      Within (count + 1) ⟨last.physical, last.logical + 1⟩ := by
  obtain ⟨physicalBound, logicalBound⟩ := within
  have next := @toNat_next last.logical (by omega)
  rw [HlcTimestamp.lt_iff, Within, next]
  dsimp only
  omega

theorem now_spec (few : count < 2 ^ 62) (within : Within count last)
    {physical second : UInt64} (reading : physical.toNat < 2 ^ 63)
    (secondReading : second.toNat < 2 ^ 63) :
    last < now last physical second ∧ Within (count + 1) (now last physical second) := by
  have bound := within.1
  have next := @toNat_next last.physical (by omega)
  have forced : last < ⟨last.physical + 1, 0⟩ ∧ Within (count + 1) ⟨last.physical + 1, 0⟩ :=
    jump_spec (by omega) (by omega)
  rw [now]
  split
  · rename_i ahead
    exact jump_spec (UInt64.lt_iff_toNat_lt.mp ahead) (by omega)
  rename_i notAhead
  split
  · split
    · split
      · rename_i secondAhead
        exact jump_spec (UInt64.lt_iff_toNat_lt.mp secondAhead) (by omega)
      · exact forced
    · exact count_spec few within
  · split
    · rw [if_pos (UInt64.not_lt.mp notAhead)]
      exact forced
    · exact count_spec few within

theorem update_spec (few : count < 2 ^ 62) {last received : HlcTimestamp}
    (within : Within count last) (withinReceived : Within count received)
    {physical : UInt64} (reading : physical.toNat < 2 ^ 63) :
    last < update last received physical ∧ received < update last received physical ∧
      Within (count + 1) (update last received physical) := by
  obtain ⟨physicalBound, logicalBound⟩ := within
  obtain ⟨receivedPhysical, receivedLogical⟩ := withinReceived
  have largest := toNat_larger (max last.physical received.physical) physical
  have known := toNat_larger last.physical received.physical
  have nextLast := @toNat_next last.logical (by omega)
  have nextReceived := @toNat_next received.logical (by omega)
  have larger := toNat_larger last.logical received.logical
  have nextLarger := @toNat_next (max last.logical received.logical) (by omega)
  simp only [HlcTimestamp.lt_iff, Within, update]
  split
  · rename_i both
    have sameLast := congrArg UInt64.toNat both.1
    have sameReceived := congrArg UInt64.toNat both.2
    dsimp only
    omega
  · rename_i notBoth
    split
    · rename_i isLast
      have sameLast := congrArg UInt64.toNat isLast
      have ne : (max (max last.physical received.physical) physical).toNat ≠
          received.physical.toNat := by
        rw [Ne, UInt64.toNat_inj]
        exact fun same => notBoth ⟨isLast, same⟩
      dsimp only
      omega
    · rename_i notLast
      have beyondLast : (max (max last.physical received.physical) physical).toNat ≠
          last.physical.toNat := by
        rw [Ne, UInt64.toNat_inj]
        exact notLast
      split
      · rename_i isReceived
        have sameReceived := congrArg UInt64.toNat isReceived
        dsimp only
        omega
      · rename_i notReceived
        have beyondReceived : (max (max last.physical received.physical) physical).toNat ≠
            received.physical.toNat := by
          rw [Ne, UInt64.toNat_inj]
          exact notReceived
        dsimp only
        rw [UInt64.toNat_zero]
        omega

end HybridLogicalClock

/-- A call of `Now`, or of `Update` with the result of an earlier call of `Now`; each with
what the node reads from its physical clock. -/
inductive ClockEvent (Node : Type) where
  | now (node : Node) (physical second : UInt64)
  | receive (node : Node) (physical : UInt64) (sender : Nat)
  deriving DecidableEq

namespace ClockEvent

variable {Node : Type}

def node : ClockEvent Node → Node
  | .now node _ _ => node
  | .receive node _ _ => node

def sender : ClockEvent Node → Option Nat
  | .now _ _ _ => none
  | .receive _ _ sender => some sender

def isNow : ClockEvent Node → Bool
  | .now _ _ _ => true
  | .receive _ _ _ => false

def readings : ClockEvent Node → List UInt64
  | .now _ physical second => [physical, second]
  | .receive _ physical _ => [physical]

def tick (event : ClockEvent Node) (last : HlcTimestamp) (received : Option HlcTimestamp) :
    HlcTimestamp :=
  match event, received with
  | .now _ physical second, _ => HybridLogicalClock.now last physical second
  | .receive _ physical _, some received => HybridLogicalClock.update last received physical
  | .receive _ _ _, none => last

def system : System Node (ClockEvent Node) HlcTimestamp :=
  ⟨node, sender, tick⟩

def start : Trace Node HlcTimestamp :=
  ⟨fun _ => ⟨0, 0⟩, []⟩

/-- The result of the call of `Now` at this place. -/
def timestamp [DecidableEq Node] (events : List (ClockEvent Node)) (index : Nat) :
    Option HlcTimestamp :=
  match events[index]? with
  | some (.now _ _ _) => (Runs.run system.step start events).stamps[index]?
  | _ => none

/-- Every message was sent with the result of an earlier call of `Now`. -/
def Sent (events : List (ClockEvent Node)) : Prop :=
  ∀ index < events.length, ∀ event ∈ events[index]?, ∀ sender ∈ event.sender,
    sender < index ∧ events[sender]?.any isNow

instance (events : List (ClockEvent Node)) : Decidable (Sent events) :=
  inferInstanceAs (Decidable (∀ index < events.length, _))

structure Bounded (trace : Trace Node HlcTimestamp) : Prop where
  clocks : ∀ node, HybridLogicalClock.Within trace.stamps.length (trace.clocks node)
  stamps : ∀ stamp ∈ trace.stamps, HybridLogicalClock.Within trace.stamps.length stamp

theorem within_mono {count more : Nat} (le : count ≤ more) {timestamp : HlcTimestamp}
    (within : HybridLogicalClock.Within count timestamp) :
    HybridLogicalClock.Within more timestamp :=
  ⟨Nat.le_trans within.1 (Nat.add_le_add_left le _), Nat.le_trans within.2 le⟩

variable {trace : Trace Node HlcTimestamp}

theorem Bounded.advances
    (bounded : Bounded trace) (few : trace.stamps.length < 2 ^ 62) {event : ClockEvent Node}
    (readings : ∀ reading ∈ event.readings, reading.toNat < 2 ^ 63)
    (known : ∀ sender ∈ event.sender, sender < trace.stamps.length) :
    system.Advances trace event ∧
      HybridLogicalClock.Within (trace.stamps.length + 1) (system.stamp trace event) := by
  cases event with
  | now node physical second =>
    obtain ⟨forward, within⟩ := HybridLogicalClock.now_spec few (bounded.clocks node)
      (readings physical (by simp [ClockEvent.readings]))
      (readings second (by simp [ClockEvent.readings]))
    exact ⟨⟨forward, by simp [System.received, system, sender]⟩, within⟩
  | receive node physical sender =>
    have inside := known sender rfl
    have received : system.received trace (.receive node physical sender) =
        some trace.stamps[sender] :=
      getElem?_eq_getElem inside
    obtain ⟨forward, beyond, within⟩ := HybridLogicalClock.update_spec few
      (bounded.clocks node) (bounded.stamps _ (getElem_mem inside))
      (readings physical (by simp [ClockEvent.readings]))
    have stamp : system.stamp trace (.receive node physical sender) =
        HybridLogicalClock.update (trace.clocks node) trace.stamps[sender] physical := by
      rw [System.stamp, received]
      rfl
    rw [stamp, System.Advances, stamp, received]
    refine ⟨⟨forward, ?_⟩, within⟩
    intro msg isMessage
    rw [← Option.mem_some_iff.mp isMessage]
    exact beyond

variable [DecidableEq Node]

theorem Bounded.step (bounded : Bounded trace) {event : ClockEvent Node}
    (within : HybridLogicalClock.Within (trace.stamps.length + 1) (system.stamp trace event)) :
    Bounded (system.step trace event) := by
  have length : (system.step trace event).stamps.length = trace.stamps.length + 1 := by
    simp [System.step]
  refine ⟨?_, ?_⟩
  · intro node
    rw [length]
    dsimp only [System.step]
    rw [Function.update_apply]
    split
    · exact within
    · exact within_mono (Nat.le_succ _) (bounded.clocks node)
  · intro stamp mem
    rw [length]
    rcases mem_append.mp mem with old | new
    · exact within_mono (Nat.le_succ _) (bounded.stamps stamp old)
    · rw [mem_singleton.mp new]
      exact within

theorem Bounded.admissible (bounded : Bounded trace)
    {events : List (ClockEvent Node)} (few : trace.stamps.length + events.length < 2 ^ 62)
    (readings : ∀ event ∈ events, ∀ reading ∈ event.readings, reading.toNat < 2 ^ 63)
    (known : ∀ index : Nat, ∀ event ∈ events[index]?, ∀ sender ∈ event.sender,
      sender < trace.stamps.length + index) :
    Runs.Admissible system.step system.Advances trace events := by
  induction events generalizing trace with
  | nil => exact trivial
  | cons event rest ih =>
    rw [forall_mem_cons] at readings
    rw [length_cons] at few
    obtain ⟨advances, within⟩ := bounded.advances (by omega) readings.1 (known 0 event rfl)
    refine ⟨advances, ?_⟩
    have length : (system.step trace event).stamps.length = trace.stamps.length + 1 := by
      simp [System.step]
    apply ih (bounded.step within)
    · omega
    · exact readings.2
    · intro index later isLater sender isSender
      have prev := known (index + 1) later isLater sender isSender
      omega

/-- Timestamps respect causality, whatever the physical clocks show. -/
theorem timestamp_lt_of_happensBefore
    {events : List (ClockEvent Node)} (sent : Sent events) (few : events.length < 2 ^ 62)
    (readings : ∀ event ∈ events, ∀ reading ∈ event.readings, reading.toNat < 2 ^ 63) :
    (∀ first second, system.HappensBefore events first second →
      ∀ prev ∈ timestamp events first, ∀ later ∈ timestamp events second, prev < later) ∧
    ∀ first second, first < second →
      ∀ event ∈ events[first]?, ∀ other ∈ events[second]?, event.node = other.node →
      ∀ prev ∈ timestamp events first, ∀ later ∈ timestamp events second, prev < later := by
  have bounded : Bounded (start : Trace Node HlcTimestamp) :=
    ⟨fun _ => ⟨Nat.zero_le _, Nat.zero_le _⟩, by simp [start]⟩
  have advances : Runs.Admissible system.step system.Advances start events := by
    apply bounded.admissible
    · simpa [start] using few
    · exact readings
    · intro index event isEvent sender isSender
      obtain ⟨inside, _⟩ := List.getElem?_eq_some_iff.mp isEvent
      simpa [start] using (sent index inside event isEvent sender isSender).1
  have stamped : ∀ index : Nat, ∀ res ∈ timestamp events index,
      res ∈ (Runs.run system.step start events).stamps[index]? := by
    intro index res isResult
    rw [timestamp] at isResult
    split at isResult
    · exact isResult
    · exact absurd isResult (by simp)
  have causal : ∀ first second, system.HappensBefore events first second →
      ∀ prev ∈ timestamp events first, ∀ later ∈ timestamp events second, prev < later := by
    intro first second before prev isEarlier later isLater
    obtain ⟨stamp, isStamp, other, isOther, less⟩ :=
      System.stamp_lt_of_happensBefore advances before
    have same : stamp = prev := Option.some.inj (isStamp.symm.trans (stamped _ _ isEarlier))
    have sameOther : other = later := Option.some.inj (isOther.symm.trans (stamped _ _ isLater))
    rw [← same, ← sameOther]
    exact less
  refine ⟨causal, ?_⟩
  intro first second order event isEvent other isOther sameNode
  apply causal
  exact TransGen.single ⟨order, event, isEvent, other, isOther, Or.inl sameNode⟩

/-- Node 0 sends to node 1 and node 1 to node 2, where the physical clock is behind. -/
theorem timestamp_lt_across_nodes :
    let events : List (ClockEvent Nat) :=
      [.now 0 900 900, .receive 1 100 0, .now 1 101 101, .receive 2 50 2, .now 2 40 41]
    timestamp events 0 = some ⟨900, 0⟩ ∧ timestamp events 4 = some ⟨900, 4⟩ ∧
      system.HappensBefore events 0 4 ∧ (⟨900, 0⟩ : HlcTimestamp) < ⟨900, 4⟩ := by
  intro events
  have first : timestamp events 0 = some ⟨900, 0⟩ := by decide
  have last : timestamp events 4 = some ⟨900, 4⟩ := by decide
  have before : system.HappensBefore events 0 4 := by
    apply TransGen.tail (b := 3)
    · apply TransGen.tail (b := 2)
      · apply TransGen.tail (b := 1)
        · exact TransGen.single ⟨by decide, _, rfl, _, rfl, Or.inr rfl⟩
        · exact ⟨by decide, _, rfl, _, rfl, Or.inl rfl⟩
      · exact ⟨by decide, _, rfl, _, rfl, Or.inr rfl⟩
    · exact ⟨by decide, _, rfl, _, rfl, Or.inl rfl⟩
  have small : ∀ event ∈ events, ∀ reading ∈ event.readings, reading.toNat < 2 ^ 63 := by
    simp [events, readings]
  have causal := @timestamp_lt_of_happensBefore Nat _ events (by decide) (by decide) small
  exact ⟨first, last, before, causal.1 0 4 before _ first _ last⟩

end ClockEvent

end CedarGraph
