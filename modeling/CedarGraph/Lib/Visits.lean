import Mathlib

/-!
# Programs that can stop anywhere

A process can stop after any step of a program, so a run has the states it went through. `Keeps
invariant before program after` says that the invariant holds in all of them and, after an
error, at the end; a run without an error ends with `after`.
-/

/-- The states on the way, the state at the end and the outcome. -/
def Visits (State Error Value : Type) : Type :=
  State → List State × State × Except Error Value

namespace Visits

variable {State Error Value Other : Type}

def attempt (step : State → State × Except Error Value) : Visits State Error Value :=
  fun state => ([(step state).1], step state)

def modify (change : State → State) : Visits State Error Unit :=
  attempt fun state => (change state, .ok ())

def read (value : State → Value) : Visits State Error Value :=
  fun state => ([], state, .ok (value state))

def ofExcept (out : Except Error Value) : Visits State Error Value :=
  fun state => ([], state, out)

def require (condition : Prop) [Decidable condition] (error : Error) : Visits State Error Unit :=
  ofExcept (if condition then .ok () else .error error)

instance : Monad (Visits State Error) where
  pure value := ofExcept (.ok value)
  bind program next := fun state =>
    match program state with
    | (visited, later, .error error) => (visited, later, .error error)
    | (visited, later, .ok value) => (visited ++ (next value later).1, (next value later).2)

def Keeps (invariant before : State → Prop) (program : Visits State Error Value)
    (after : Value → State → Prop) : Prop :=
  ∀ state, before state → (∀ visited ∈ (program state).1, invariant visited) ∧
    match (program state).2 with
    | (later, .ok value) => after value later
    | (later, .error _) => invariant later

variable {invariant before : State → Prop} {after : Value → State → Prop}

theorem Keeps.imp {program : Visits State Error Value} {stronger : State → Prop}
    {weaker : Value → State → Prop} (keeps : Keeps invariant before program after)
    (implied : ∀ state, stronger state → before state)
    (implies : ∀ value state, after value state → weaker value state) :
    Keeps invariant stronger program weaker := by
  intro state holds
  obtain ⟨visited, final⟩ := keeps state (implied state holds)
  refine ⟨visited, ?_⟩
  split
  · rename_i later value done
    rw [done] at final
    exact implies value later final
  · rename_i later error done
    rw [done] at final
    exact final

theorem keeps_pure {value : Value} (implies : ∀ state, before state → after value state) :
    Keeps invariant before (pure value : Visits State Error Value) after := by
  intro state assumed
  exact ⟨fun visited mem => absurd mem List.not_mem_nil, implies state assumed⟩

theorem keeps_attempt {step : State → State × Except Error Value}
    (holds : ∀ state, before state → invariant (step state).1 ∧
      ∀ value, (step state).2 = .ok value → after value (step state).1) :
    Keeps invariant before (attempt step) after := by
  intro state assumed
  obtain ⟨kept, ok⟩ := holds state assumed
  refine ⟨?_, ?_⟩
  · intro visited mem
    rw [List.mem_singleton.mp mem]
    exact kept
  · split
    · rename_i later value done
      have stepped : step state = (later, .ok value) := done
      rw [stepped] at ok
      exact ok value rfl
    · rename_i later error done
      have stepped : step state = (later, .error error) := done
      rw [stepped] at kept
      exact kept

theorem keeps_modify {change : State → State} {after : Unit → State → Prop}
    (holds : ∀ state, before state → invariant (change state) ∧ after () (change state)) :
    Keeps invariant before (modify change : Visits State Error Unit) after :=
  keeps_attempt fun state assumed =>
    ⟨(holds state assumed).1, fun _ _ => (holds state assumed).2⟩

variable {after : Other → State → Prop} {next : Value → Visits State Error Other}

theorem Keeps.bind {program : Visits State Error Value} {between : Value → State → Prop}
    (keeps : Keeps invariant before program between)
    (keepsNext : ∀ value, Keeps invariant (between value) (next value) after) :
    Keeps invariant before (program >>= next) after := by
  intro state assumed
  obtain ⟨visited, final⟩ := keeps state assumed
  cases res : program state with
  | mk states out =>
    obtain ⟨later, out⟩ := out
    rw [res] at visited final
    have unfolded : (program >>= next) state = match program state with
        | (visited, later, .error error) => (visited, later, .error error)
        | (visited, later, .ok value) =>
          (visited ++ (next value later).1, (next value later).2) := rfl
    rw [unfolded, res]
    cases out with
    | error error => exact ⟨visited, final⟩
    | ok value =>
      obtain ⟨visitedNext, finalNext⟩ := keepsNext value later final
      exact ⟨List.forall_mem_append.mpr ⟨visited, visitedNext⟩, finalNext⟩

theorem keeps_ofExcept_bind
    {out : Except Error Value} (holds : ∀ state, before state → invariant state)
    (keepsNext : ∀ value, out = .ok value → Keeps invariant before (next value) after) :
    Keeps invariant before (ofExcept out >>= next) after := by
  intro state assumed
  cases out with
  | error error => exact ⟨fun visited mem => absurd mem List.not_mem_nil, holds state assumed⟩
  | ok value => exact keepsNext value rfl state assumed

theorem keeps_require_bind {condition : Prop} [Decidable condition] {error : Error}
    {next : Unit → Visits State Error Other} (holds : ∀ state, before state → invariant state)
    (keepsNext : condition → Keeps invariant before (next ()) after) :
    Keeps invariant before (require condition error >>= next) after := by
  apply keeps_ofExcept_bind holds
  intro value passed
  by_cases met : condition
  · exact keepsNext met
  · rw [if_neg met] at passed
    exact absurd passed (by simp)

theorem keeps_read_bind {value : State → Value}
    (keepsNext : ∀ res,
      Keeps invariant (fun state => before state ∧ value state = res) (next res) after) :
    Keeps invariant before (read value >>= next) after := by
  intro state assumed
  exact keepsNext (value state) state ⟨assumed, rfl⟩

end Visits
