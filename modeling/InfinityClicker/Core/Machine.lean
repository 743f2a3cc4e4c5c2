import Mathlib.Data.List.Basic

namespace Machines

/-!
# Input-driven machines and the rules for their runs

A machine moves from state to state on inputs and says, at each move, what it did.  Every
long-running component of a program is one: its inputs are what the environment does next,
its outputs are the calls it makes.

* `Machine.after` / `Machine.trace` — the state and the outputs of a whole run;
* `Machine.Meets` — every move of a run meets a condition on its state and input;
* `Machine.invariant`, `Machine.invariant_of_meets`, `Machine.meets_of_meets` — the induction
  over runs, once;
* `Machine.history`, `Machine.history_of_meets` — the same for facts that relate the state
  to everything output so far;
* `Machine.record`, `Machine.record_of_meets` — the same for facts that relate the state to
  every input so far;
* `Machine.SimulatedBy` — every move of one machine is a run of another;
* `Machine.watch` — a machine with a monitor beside it, for facts about the order of outputs.
-/

/-- A machine with states `σ`, inputs `ι` and outputs `ω`. -/
structure Machine (σ ι ω : Type*) where
  /-- The state after an input, and the outputs of that move in order. -/
  step : σ → ι → σ × List ω

namespace Machine

variable {σ ι ω : Type*} (M : Machine σ ι ω)

/-- The state after one input. -/
def next (s : σ) (i : ι) : σ := (M.step s i).1

/-- The outputs of one move. -/
def out (s : σ) (i : ι) : List ω := (M.step s i).2

/-- The state after a list of inputs. -/
def after (s : σ) : List ι → σ
  | [] => s
  | i :: is => after (M.next s i) is

/-- Everything output along a list of inputs. -/
def trace (s : σ) : List ι → List ω
  | [] => []
  | i :: is => M.out s i ++ trace (M.next s i) is

/-- Every move of the run meets `P` in the state it starts from. -/
def Meets (P : σ → ι → Prop) (s : σ) : List ι → Prop
  | [] => True
  | i :: is => P s i ∧ Meets P (M.next s i) is

/-- No input, no move. -/
@[simp] theorem after_nil (s : σ) : M.after s [] = s := rfl

/-- The state follows the inputs in their order. -/
@[simp] theorem after_cons (s : σ) (i : ι) (is : List ι) :
    M.after s (i :: is) = M.after (M.next s i) is := rfl

/-- No input, no output. -/
@[simp] theorem trace_nil (s : σ) : M.trace s [] = [] := rfl

/-- The outputs come in the order of the inputs. -/
@[simp] theorem trace_cons (s : σ) (i : ι) (is : List ι) :
    M.trace s (i :: is) = M.out s i ++ M.trace (M.next s i) is := rfl

/-- No input, no condition. -/
@[simp] theorem meets_nil (P : σ → ι → Prop) (s : σ) : M.Meets P s [] := trivial

/-- Each input is judged where it is taken. -/
@[simp] theorem meets_cons (P : σ → ι → Prop) (s : σ) (i : ι) (is : List ι) :
    M.Meets P s (i :: is) ↔ P s i ∧ M.Meets P (M.next s i) is := Iff.rfl

/-- Running two input lists one after the other. -/
theorem after_append (s : σ) (is js : List ι) :
    M.after s (is ++ js) = M.after (M.after s is) js := by
  induction is generalizing s with
  | nil => rfl
  | cons i is ih => exact ih (M.next s i)

/-- A trace goes on where its first part ended. -/
theorem trace_append (s : σ) (is js : List ι) :
    M.trace s (is ++ js) = M.trace s is ++ M.trace (M.after s is) js := by
  induction is generalizing s with
  | nil => rfl
  | cons i is ih => simp [ih, List.append_assoc]

/-- Whatever is output is the output of one of the moves. -/
theorem mem_trace {s : σ} {is : List ι} {o : ω} (h : o ∈ M.trace s is) :
    ∃ before i later, is = before ++ i :: later ∧ o ∈ M.out (M.after s before) i := by
  induction is generalizing s with
  | nil => simp at h
  | cons i is ih =>
    rcases List.mem_append.mp h with hnow | hlater
    · exact ⟨[], i, is, rfl, hnow⟩
    · obtain ⟨before, j, later, rfl, hj⟩ := ih hlater
      exact ⟨i :: before, j, later, rfl, hj⟩

/-- A condition on inputs goes on where the first part ended. -/
theorem meets_append (P : σ → ι → Prop) (s : σ) (is js : List ι) :
    M.Meets P s (is ++ js) ↔ M.Meets P s is ∧ M.Meets P (M.after s is) js := by
  induction is generalizing s with
  | nil => simp
  | cons i is ih => simp [ih, and_assoc]

/-- Whether a run meets a condition can be computed. -/
instance decidableMeets {P : σ → ι → Prop} [∀ s i, Decidable (P s i)] (s : σ) :
    ∀ is : List ι, Decidable (M.Meets P s is)
  | [] => isTrue trivial
  | i :: is => @instDecidableAnd _ _ _ (decidableMeets (M.next s i) is)

/-- A condition that asks less is met by more runs. -/
theorem Meets.mono {P Q : σ → ι → Prop} (hPQ : ∀ s i, P s i → Q s i) :
    ∀ {s : σ} {is : List ι}, M.Meets P s is → M.Meets Q s is
  | _, [], _ => trivial
  | _, _ :: _, h => ⟨hPQ _ _ h.1, Meets.mono hPQ h.2⟩

/-- A condition on the inputs alone is met when every input has it. -/
theorem meets_of_forall {P : ι → Prop} {s : σ} {is : List ι} (h : ∀ i ∈ is, P i) :
    M.Meets (fun _ i => P i) s is := by
  induction is generalizing s with
  | nil => trivial
  | cons i is ih =>
    exact ⟨h i (by simp), ih (fun j hj => h j (by simp [hj]))⟩

/-! ### Facts about the state -/

/-- What holds at the start and is kept by every move that meets `P` holds after every run
    whose moves meet `P`. -/
theorem invariant_of_meets {I : σ → Prop} {P : σ → ι → Prop}
    (hstep : ∀ s i, I s → P s i → I (M.next s i)) {s : σ} {is : List ι} (h0 : I s)
    (hP : M.Meets P s is) : I (M.after s is) := by
  induction is generalizing s with
  | nil => exact h0
  | cons i is ih => exact ih (hstep s i h0 hP.1) hP.2

/-- A run that meets `P` meets what follows from `P` and from what it keeps. -/
theorem meets_of_meets {I : σ → Prop} {P Q : σ → ι → Prop}
    (hstep : ∀ s i, I s → P s i → I (M.next s i)) (hQ : ∀ s i, I s → P s i → Q s i) {s : σ}
    {is : List ι} (h0 : I s) (hP : M.Meets P s is) : M.Meets Q s is := by
  induction is generalizing s with
  | nil => trivial
  | cons i is ih => exact ⟨hQ s i h0 hP.1, ih (hstep s i h0 hP.1) hP.2⟩

/-- What holds at the start and is kept by every move holds after every run. -/
theorem invariant {I : σ → Prop} (hstep : ∀ s i, I s → I (M.next s i)) {s : σ}
    (h0 : I s) (is : List ι) : I (M.after s is) := by
  induction is generalizing s with
  | nil => exact h0
  | cons i is ih => exact ih (hstep s i h0)

/-! ### Facts about the state and everything output so far -/

/-- The history rule: a fact about the state and the outputs so far that holds at the start
    and is kept by every move that meets `P` holds after every such run. -/
theorem history_of_meets {I : σ → List ω → Prop} {P : σ → ι → Prop}
    (hstep : ∀ s h i, I s h → P s i → I (M.next s i) (h ++ M.out s i)) {s : σ} {h : List ω}
    {is : List ι} (h0 : I s h) (hP : M.Meets P s is) :
    I (M.after s is) (h ++ M.trace s is) := by
  induction is generalizing s h with
  | nil => simpa using h0
  | cons i is ih =>
    -- The outputs of this move join the history of those after it.
    have hlater := ih (hstep s h i h0 hP.1) hP.2
    simpa [List.append_assoc] using hlater

/-- The history rule with no condition on the moves. -/
theorem history {I : σ → List ω → Prop}
    (hstep : ∀ s h i, I s h → I (M.next s i) (h ++ M.out s i)) {s : σ} (h0 : I s [])
    (is : List ι) : I (M.after s is) (M.trace s is) := by
  have hmeets : M.Meets (fun _ _ => True) s is := M.meets_of_forall (by simp)
  simpa using M.history_of_meets (fun s h i hI _ => hstep s h i hI) h0 hmeets

/-! ### Facts about the state and every input so far -/

/-- The record rule: a fact about the state and the inputs so far that holds at the start and
    is kept by every move that meets `P` holds after every such run. -/
theorem record_of_meets {I : σ → List ι → Prop} {P : σ → ι → Prop}
    (hstep : ∀ s h i, I s h → P s i → I (M.next s i) (h ++ [i])) {s : σ} {h : List ι}
    {is : List ι} (h0 : I s h) (hP : M.Meets P s is) : I (M.after s is) (h ++ is) := by
  induction is generalizing s h with
  | nil => simpa using h0
  | cons i is ih =>
    have hlater := ih (hstep s h i h0 hP.1) hP.2
    simpa [List.append_assoc] using hlater

/-- The record rule with no condition on the moves. -/
theorem record {I : σ → List ι → Prop}
    (hstep : ∀ s h i, I s h → I (M.next s i) (h ++ [i])) {s : σ} (h0 : I s [])
    (is : List ι) : I (M.after s is) is := by
  have hmeets : M.Meets (fun _ _ => True) s is := M.meets_of_forall (by simp)
  simpa using M.record_of_meets (fun s h i hI _ => hstep s h i hI) h0 hmeets

/-! ### Simulations -/

/-- Every move of `M` is matched by a run of `N`, between states related by `R`. -/
def SimulatedBy {σ' ι' ω' : Type*} (N : Machine σ' ι' ω') (R : σ → σ' → Prop) : Prop :=
  ∀ s s' i, R s s' → ∃ is', R (M.next s i) (N.after s' is')

/-- What is matched move by move is matched run by run. -/
theorem SimulatedBy.run {σ' ι' ω' : Type*} {N : Machine σ' ι' ω'} {R : σ → σ' → Prop}
    (h : M.SimulatedBy N R) {s : σ} {s' : σ'} (hR : R s s') (is : List ι) :
    ∃ is', R (M.after s is) (N.after s' is') := by
  induction is generalizing s s' with
  | nil => exact ⟨[], hR⟩
  | cons i is ih =>
    obtain ⟨is₁, hone⟩ := h s s' i hR
    obtain ⟨is₂, hrest⟩ := ih hone
    refine ⟨is₁ ++ is₂, ?_⟩
    rw [N.after_append]
    exact hrest

/-! ### Monitors -/

/-- The machine with a monitor beside it, which reads every state, input and the outputs of
    its move. -/
def watch {μ : Type*} (u : σ → μ → ι → List ω → μ) : Machine (σ × μ) ι ω where
  step x i := ((M.next x.1 i, u x.1 x.2 i (M.out x.1 i)), M.out x.1 i)

variable {μ : Type*} (u : σ → μ → ι → List ω → μ)

/-- The watched machine moves as it did. -/
@[simp] theorem watch_next (x : σ × μ) (i : ι) :
    (M.watch u).next x i = (M.next x.1 i, u x.1 x.2 i (M.out x.1 i)) := rfl

/-- It shows what it did. -/
@[simp] theorem watch_out (x : σ × μ) (i : ι) : (M.watch u).out x i = M.out x.1 i := rfl

/-- A monitor changes nothing about the run. -/
@[simp] theorem watch_after (x : σ × μ) (is : List ι) :
    ((M.watch u).after x is).1 = M.after x.1 is := by
  induction is generalizing x with
  | nil => rfl
  | cons i is ih => exact ih _

/-- Its traces are those it had. -/
@[simp] theorem watch_trace (x : σ × μ) (is : List ι) :
    (M.watch u).trace x is = M.trace x.1 is := by
  induction is generalizing x with
  | nil => rfl
  | cons i is ih => rw [trace_cons, ih, trace_cons]; rfl

end Machine

end Machines
