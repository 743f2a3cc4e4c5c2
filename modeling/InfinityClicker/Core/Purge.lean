import InfinityClicker.Core.Machine

namespace Machines

/-!
# Hidden inputs

Some inputs of a machine are to have no influence on what it does on the others.  Which inputs
these are may depend on the state they arrive in.

* `Machine.purge` — a run's inputs without the hidden ones;
* `Machine.shown` — what each of the other inputs makes the machine output;
* `Machine.Hides` — the conditions on single moves, up to a relation between states;
* `Machine.Hides.run` — runs with the same inputs but for hidden ones show the same.
-/

namespace Machine

variable {σ ι ω : Type*} (M : Machine σ ι ω) (hidden : σ → ι → Bool)

/-- The inputs of a run that are not hidden where they arrive. -/
def purge (s : σ) : List ι → List ι
  | [] => []
  | i :: is => if hidden s i then purge (M.next s i) is else i :: purge (M.next s i) is

/-- The outputs of each input that is not hidden. -/
def shown (s : σ) : List ι → List (List ω)
  | [] => []
  | i :: is => if hidden s i then shown (M.next s i) is else M.out s i :: shown (M.next s i) is

/-- A hidden input outputs nothing and leaves the machine in the same state up to `same`; up to
    `same`, the others do the same. -/
structure Hides (same : σ → σ → Prop) : Prop where
  refl : ∀ s, same s s
  symm : ∀ {s s'}, same s s' → same s' s
  trans : ∀ {s s' s''}, same s s' → same s' s'' → same s s''
  agrees : ∀ {s s'} i, same s s' → hidden s i = hidden s' i
  quiet : ∀ {s i}, hidden s i = true → M.out s i = [] ∧ same s (M.next s i)
  consistent : ∀ {s s' i}, same s s' → hidden s i = false →
    M.out s i = M.out s' i ∧ same (M.next s i) (M.next s' i)

namespace Hides

variable {M hidden} {same : σ → σ → Prop} (h : M.Hides hidden same)

include h

/-- A run shows what its purged inputs show, from any state that is the same. -/
theorem purged {s s' : σ} (hs : same s s') (is : List ι) :
    M.shown hidden s is = M.shown hidden s' (M.purge hidden s is) ∧
      same (M.after s is) (M.after s' (M.purge hidden s is)) := by
  induction is generalizing s s' with
  | nil => exact ⟨rfl, hs⟩
  | cons i is ih =>
    simp only [purge, shown, after_cons]
    cases hi : hidden s i with
    | true => exact ih (h.trans (h.symm (h.quiet hi).2) hs)
    | false =>
      obtain ⟨hout, hnext⟩ := h.consistent hs hi
      obtain ⟨hshown, hafter⟩ := ih hnext
      have hi' : hidden s' i = false := by rw [← h.agrees i hs, hi]
      simp only [Bool.false_eq_true, if_false, shown, hi', after_cons]
      exact ⟨by rw [hout, hshown], hafter⟩

/-- **Two runs** whose inputs differ by hidden ones show the same and end in the same state. -/
theorem run {s : σ} {is js : List ι} (hij : M.purge hidden s is = M.purge hidden s js) :
    M.shown hidden s is = M.shown hidden s js ∧ same (M.after s is) (M.after s js) := by
  have hi := h.purged (h.refl s) is
  have hj := h.purged (h.refl s) js
  rw [← hij] at hj
  exact ⟨hi.1.trans hj.1.symm, h.trans hi.2 (h.symm hj.2)⟩

/-- All outputs of a run are those of its inputs that are not hidden. -/
theorem trace_eq_shown (s : σ) (is : List ι) : M.trace s is = (M.shown hidden s is).flatten := by
  induction is generalizing s with
  | nil => rfl
  | cons i is ih =>
    simp only [trace_cons, shown]
    cases hi : hidden s i with
    | true => simpa [(h.quiet hi).1] using ih (M.next s i)
    | false => simp [ih (M.next s i)]

end Hides

end Machine

end Machines
