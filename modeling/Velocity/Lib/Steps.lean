import Mathlib.Tactic

/-! Runs of a deterministic machine over a list of inputs, with the state that each input
met. -/

namespace Steps

variable {State Input : Type} (step : State → Input → State) {s : State} {inputs : List Input}

def run (s : State) (inputs : List Input) : State := inputs.foldl step s

def steps : State → List Input → List (State × Input)
  | _, [] => []
  | s, i :: inputs => (s, i) :: steps (step s i) inputs

variable {step}

@[simp] theorem run_nil (s : State) : run step s [] = s := rfl

@[simp] theorem run_cons (s : State) (i : Input) (inputs : List Input) :
    run step s (i :: inputs) = run step (step s i) inputs := rfl

theorem run_concat (s : State) (inputs : List Input) (i : Input) :
    run step s (inputs ++ [i]) = step (run step s inputs) i := by
  simp [run]

theorem steps_concat (s : State) (inputs : List Input) (i : Input) :
    steps step s (inputs ++ [i]) = steps step s inputs ++ [(run step s inputs, i)] := by
  induction inputs generalizing s with
  | nil => rfl
  | cons j inputs ih => simp [steps, ih]

theorem mem_steps_iff {t : State} {i : Input} :
    (t, i) ∈ steps step s inputs ↔ ∃ past rest, inputs = past ++ i :: rest ∧ t = run step s past := by
  induction inputs generalizing s with
  | nil => simp [steps]
  | cons j inputs ih =>
    rw [steps, List.mem_cons, ih]
    constructor
    · rintro (hhead | ⟨past, rest, rfl, rfl⟩)
      · obtain ⟨rfl, rfl⟩ := Prod.mk.inj hhead
        exact ⟨[], inputs, rfl, rfl⟩
      · exact ⟨j :: past, rest, rfl, rfl⟩
    · rintro ⟨past, rest, hinputs, rfl⟩
      cases past with
      | nil =>
        obtain ⟨rfl, rfl⟩ := List.cons.inj hinputs
        exact .inl rfl
      | cons k past =>
        obtain ⟨rfl, rfl⟩ := List.cons.inj hinputs
        exact .inr ⟨past, rest, rfl, rfl⟩

/-- What holds at the start and is kept by every step that meets its condition holds after every run
whose steps meet theirs. -/
theorem invariant {P : State → Input → Prop} {I : State → List (State × Input) → Prop}
    (hstep : ∀ s past i, I s past → P s i → I (step s i) (past ++ [(s, i)]))
    (h : I s []) (hP : ∀ x ∈ steps step s inputs, P x.1 x.2) :
    I (run step s inputs) (steps step s inputs) := by
  suffices hh : ∀ past, I s past → I (run step s inputs) (past ++ steps step s inputs) from
    hh [] h
  clear h
  induction inputs generalizing s with
  | nil =>
    intro past h
    simpa [steps] using h
  | cons i inputs ih =>
    intro past h
    have hi := hstep s past i h (hP (s, i) (by simp [steps]))
    have hrest := ih (fun x hx => hP x (by simp [steps, hx])) _ hi
    simpa [steps] using hrest

end Steps
