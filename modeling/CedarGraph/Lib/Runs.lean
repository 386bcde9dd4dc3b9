import Mathlib

/-!
# Runs of a step function

A run applies a list of operations; it is admissible when every operation meets a side condition
in the state in which it is applied. An invariant that every admissible step keeps holds at the
end. What holds throughout a run holds wherever the process stops.
-/

namespace Runs

variable {State Operation : Type*}

section Definitions

variable (step : State → Operation → State)

def run (state : State) (ops : List Operation) : State :=
  ops.foldl step state

def Admissible (allowed : State → Operation → Prop) : State → List Operation → Prop
  | _, [] => True
  | state, op :: rest =>
    allowed state op ∧ Admissible allowed (step state op) rest

instance decidableAdmissible (allowed : State → Operation → Prop)
    [∀ state op, Decidable (allowed state op)] :
    ∀ (state : State) (ops : List Operation), Decidable (Admissible step allowed state ops)
  | _, [] => .isTrue trivial
  | state, op :: rest =>
    have : Decidable (Admissible step allowed (step state op) rest) :=
      decidableAdmissible allowed (step state op) rest
    inferInstanceAs (Decidable (_ ∧ _))

end Definitions

variable {step : State → Operation → State} {allowed : State → Operation → Prop}

theorem invariant_run {invariant : State → Prop}
    (preserved : ∀ state op, invariant state → allowed state op → invariant (step state op))
    {state : State} {ops : List Operation} (start : invariant state)
    (admissible : Admissible step allowed state ops) : invariant (run step state ops) := by
  induction ops generalizing state with
  | nil => exact start
  | cons op rest ih => exact ih (preserved state op start admissible.1) admissible.2

/-- What one operation establishes and the others keep. -/
theorem foldl_of_mem {p : State → Prop}
    (keeps : ∀ state other, p state → p (step state other)) {op : Operation}
    (sets : ∀ state, p (step state op)) {ops : List Operation} (mem : op ∈ ops) (start : State) :
    p (ops.foldl step start) := by
  obtain ⟨before, after, rfl⟩ := List.append_of_mem mem
  rw [List.foldl_append, List.foldl_cons]
  exact List.foldlRecOn after step (sets _) fun state held other _ => keeps state other held

section Throughout

variable (step)

def Throughout (property : State → Prop) : State → List Operation → Prop
  | state, [] => property state
  | state, op :: rest => property state ∧ Throughout property (step state op) rest

variable {step} {property : State → Prop}

variable {ops : List Operation} {state : State}

theorem Throughout.take (always : Throughout step property state ops) (count : Nat) :
    property (run step state (ops.take count)) := by
  induction ops generalizing state count with
  | nil =>
    rw [List.take_nil]
    exact always
  | cons op rest ih =>
    cases count with
    | zero => exact always.1
    | succ count => exact ih always.2 count

theorem Throughout.imp {weaker : State → Prop} (implies : ∀ state, property state → weaker state)
    (always : Throughout step property state ops) : Throughout step weaker state ops := by
  induction ops generalizing state with
  | nil => exact implies state always
  | cons op rest ih => exact ⟨implies state always.1, ih always.2⟩

theorem Throughout.append
    {first second : List Operation} (always : Throughout step property state first)
    (later : Throughout step property (run step state first) second) :
    Throughout step property state (first ++ second) := by
  induction first generalizing state with
  | nil => exact later
  | cons op rest ih => exact ⟨always.1, ih always.2 later⟩

theorem throughout_of_preserved
    (preserved : ∀ state, ∀ op ∈ ops, property state → property (step state op))
    (start : property state) : Throughout step property state ops := by
  induction ops generalizing state with
  | nil => exact start
  | cons op rest ih =>
    have next := preserved state op List.mem_cons_self start
    exact ⟨start, ih (fun other later mem => preserved other later (List.mem_cons_of_mem op mem))
      next⟩

/-- Where the property after a step says exactly that the step was allowed, it holds
throughout the admissible runs and no others. -/
theorem throughout_iff_admissible {allowed : State → Operation → Prop} {invariant : State → Prop}
    (holds : ∀ state, invariant state → property state)
    (exact_step : ∀ state op, invariant state → (property (step state op) ↔ allowed state op))
    (preserved : ∀ state op, invariant state → allowed state op → invariant (step state op))
    {state : State} (start : invariant state) (ops : List Operation) :
    Throughout step property state ops ↔ Admissible step allowed state ops := by
  induction ops generalizing state with
  | nil => exact iff_of_true (holds state start) trivial
  | cons op rest ih =>
    constructor
    · intro always
      have next : property (step state op) := always.2.take 0
      have permitted := (exact_step state op start).mp next
      exact ⟨permitted, (ih (preserved state op start permitted)).mp always.2⟩
    · intro admissible
      exact ⟨holds state start, (ih (preserved state op start admissible.1)).mpr admissible.2⟩

end Throughout

end Runs
