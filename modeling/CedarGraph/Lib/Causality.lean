import CedarGraph.Lib.Runs

/-!
# Logical clocks

Every event moves the clock of its node on, and its stamp is the new value. One event happens
before another when they are linked by the order at a node and by messages. If every event moves
the clock forward and beyond the message it receives, stamps grow along the relation.
-/

namespace Causality

open Runs

variable {Node Event Stamp : Type*}

structure System (Node Event Stamp : Type*) where
  node : Event → Node
  /-- The event whose message this one receives. -/
  source : Event → Option Nat
  tick : Event → Stamp → Option Stamp → Stamp

structure Trace (Node Stamp : Type*) where
  clocks : Node → Stamp
  /-- The stamps of the events so far. -/
  stamps : List Stamp

namespace System

variable (sys : System Node Event Stamp)

def received (trace : Trace Node Stamp) (event : Event) : Option Stamp :=
  (sys.source event).bind fun index => trace.stamps[index]?

def stamp (trace : Trace Node Stamp) (event : Event) : Stamp :=
  sys.tick event (trace.clocks (sys.node event)) (sys.received trace event)

def step [DecidableEq Node] (trace : Trace Node Stamp) (event : Event) : Trace Node Stamp where
  clocks := Function.update trace.clocks (sys.node event) (sys.stamp trace event)
  stamps := trace.stamps ++ [sys.stamp trace event]

/-- The two events are at one node, or the later one receives the message of the other. -/
def Direct (events : List Event) (first second : Nat) : Prop :=
  first < second ∧ ∃ prev ∈ events[first]?, ∃ later ∈ events[second]?,
    sys.node prev = sys.node later ∨ sys.source later = some first

def HappensBefore (events : List Event) : Nat → Nat → Prop :=
  Relation.TransGen (sys.Direct events)

/-- The clock moves forward and beyond the message. -/
def Advances [LT Stamp] (trace : Trace Node Stamp) (event : Event) : Prop :=
  trace.clocks (sys.node event) < sys.stamp trace event ∧
    ∀ msg ∈ sys.received trace event, msg < sys.stamp trace event

section Growth

variable [Preorder Stamp]

/-- The stamps of the events so far grow along the direct links and are not beyond the
clocks. -/
structure Grows (events : List Event) (trace : Trace Node Stamp) : Prop where
  length : trace.stamps.length = events.length
  bounded : ∀ index : Nat, ∀ event ∈ events[index]?, ∀ stamp ∈ trace.stamps[index]?,
    stamp ≤ trace.clocks (sys.node event)
  direct : ∀ first second : Nat, sys.Direct events first second →
    ∀ before ∈ trace.stamps[first]?, ∀ after ∈ trace.stamps[second]?, before < after

variable {sys}

theorem mem_of_mem_concat {Item : Type*} {items : List Item} {last item : Item} {index : Nat}
    (mem : item ∈ (items ++ [last])[index]?) :
    item ∈ items[index]? ∨ index = items.length ∧ item = last := by
  by_cases lt : index < items.length
  · rw [List.getElem?_append_left lt] at mem
    exact Or.inl mem
  · rw [List.getElem?_append_right (Nat.le_of_not_lt lt)] at mem
    obtain ⟨small, isLast⟩ := List.getElem?_eq_some_iff.mp mem
    rw [List.length_singleton] at small
    rw [List.getElem_singleton] at isLast
    exact Or.inr ⟨by omega, isLast.symm⟩

variable [DecidableEq Node]

theorem Grows.step {events : List Event} {trace : Trace Node Stamp} (grows : sys.Grows events trace)
    {event : Event} (advances : sys.Advances trace event) :
    sys.Grows (events ++ [event]) (sys.step trace event) where
  length := by
    simp [System.step, grows.length]
  bounded := by
    intro index acted isActed stamp isStamp
    dsimp only [System.step] at isStamp ⊢
    rw [Function.update_apply]
    rcases mem_of_mem_concat isActed with old | ⟨isLast, isEvent⟩
    · obtain ⟨lt, _⟩ := List.getElem?_eq_some_iff.mp old
      rcases mem_of_mem_concat isStamp with oldStamp | ⟨atEnd, _⟩
      · have before := grows.bounded index acted old stamp oldStamp
        split
        · rename_i same
          rw [same] at before
          exact before.trans advances.1.le
        · exact before
      · have length := grows.length
        omega
    · rcases mem_of_mem_concat isStamp with oldStamp | ⟨_, isNew⟩
      · obtain ⟨lt, _⟩ := List.getElem?_eq_some_iff.mp oldStamp
        have length := grows.length
        omega
      · rw [isEvent, if_pos rfl, isNew]
  direct := by
    rintro first second ⟨order, prev, isEarlier, later, isLater, linked⟩ before isBefore after
      isAfter
    dsimp only [System.step] at isBefore isAfter
    have length := grows.length
    rcases mem_of_mem_concat isLater with oldLater | ⟨isLast, isEvent⟩
    · obtain ⟨insideLater, _⟩ := List.getElem?_eq_some_iff.mp oldLater
      rw [List.getElem?_append_left (by omega)] at isEarlier isBefore isAfter
      exact grows.direct first second ⟨order, prev, isEarlier, later, oldLater, linked⟩
        before isBefore after isAfter
    · rw [isLast, ← length, List.getElem?_concat_length, Option.mem_some_iff] at isAfter
      rw [isLast] at order
      rw [List.getElem?_append_left (by omega)] at isEarlier isBefore
      rw [← isAfter]
      rcases linked with sameNode | sent
      · have bounded := grows.bounded first prev isEarlier before isBefore
        rw [sameNode, isEvent] at bounded
        exact lt_of_le_of_lt bounded advances.1
      · apply advances.2
        rw [isEvent] at sent
        rw [received, sent]
        exact isBefore

theorem Grows.run
    {events rest : List Event} {trace : Trace Node Stamp} (grows : sys.Grows events trace)
    (advances : Admissible sys.step sys.Advances trace rest) :
    sys.Grows (events ++ rest) (run sys.step trace rest) := by
  induction rest generalizing events trace with
  | nil =>
    rw [List.append_nil]
    exact grows
  | cons event rest ih =>
    have next := ih (grows.step advances.1) advances.2
    rw [List.append_assoc] at next
    exact next

theorem stamp_lt_of_happensBefore {events : List Event} {clocks : Node → Stamp}
    (advances : Admissible sys.step sys.Advances ⟨clocks, []⟩ events)
    {first second : Nat} (before : sys.HappensBefore events first second) :
    ∃ prev ∈ (run sys.step ⟨clocks, []⟩ events).stamps[first]?,
      ∃ later ∈ (run sys.step ⟨clocks, []⟩ events).stamps[second]?, prev < later := by
  have start : sys.Grows [] ⟨clocks, []⟩ := ⟨rfl, by simp, by simp [Direct]⟩
  have grows : sys.Grows events (run sys.step ⟨clocks, []⟩ events) := start.run advances
  have stamped : ∀ index : Nat, ∀ event ∈ events[index]?,
      ∃ stamp, stamp ∈ (run sys.step ⟨clocks, []⟩ events).stamps[index]? := by
    intro index event isEvent
    obtain ⟨lt, _⟩ := List.getElem?_eq_some_iff.mp isEvent
    rw [← grows.length] at lt
    exact ⟨_, List.getElem?_eq_getElem lt⟩
  have directly : ∀ first second : Nat, sys.Direct events first second →
      ∃ prev ∈ (run sys.step ⟨clocks, []⟩ events).stamps[first]?,
        ∃ later ∈ (run sys.step ⟨clocks, []⟩ events).stamps[second]?, prev < later := by
    intro first second direct
    have ⟨_, event, isEvent, other, isOther, _⟩ := direct
    obtain ⟨prev, isEarlier⟩ := stamped first event isEvent
    obtain ⟨later, isLater⟩ := stamped second other isOther
    exact ⟨prev, isEarlier, later, isLater,
      grows.direct first second direct prev isEarlier later isLater⟩
  induction before with
  | single direct => exact directly _ _ direct
  | tail _ direct ih =>
    obtain ⟨prev, isEarlier, middle, isMiddle, less⟩ := ih
    obtain ⟨same, isSame, later, isLater, lessLater⟩ := directly _ _ direct
    have equal : middle = same := Option.some.inj (isMiddle.symm.trans isSame)
    rw [equal] at less
    exact ⟨prev, isEarlier, later, isLater, less.trans lessLater⟩

end Growth

end System

end Causality
