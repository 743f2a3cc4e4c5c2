import Mathlib.Logic.Function.Basic
import Mathlib.Data.List.Basic
import Mathlib.Data.List.Perm.Subperm

namespace Presses

/-!
# Controls that go down and up

A control (a key, a button) is held or not; an edge `(c, true)` puts it down and `(c, false)`
lets it up.  `hold` folds a list of edges over the held set.

* `Balanced` — a list of edges that leaves nothing down that was not down before;
* `Balanced.append`, `Balanced.replicate`, `Balanced.nest` — balanced lists follow one another
  and may be nested in presses and their releases, which is how every chord is built;
* `hold_eq_true` — what ends up held was held before or was pressed by the list.
-/

variable {κ : Type*} [DecidableEq κ]

/-- The held set after one edge. -/
def edge (h : κ → Bool) (e : κ × Bool) : κ → Bool := Function.update h e.1 e.2

/-- The held set after a list of edges, in order. -/
def hold (h : κ → Bool) (es : List (κ × Bool)) : κ → Bool := es.foldl edge h

/-- The empty held set. -/
def nothing : κ → Bool := fun _ => false

omit [DecidableEq κ] in
@[simp] theorem nothing_apply (c : κ) : (nothing : κ → Bool) c = false := rfl
@[simp] theorem hold_nil (h : κ → Bool) : hold h [] = h := rfl
@[simp] theorem hold_cons (h : κ → Bool) (e : κ × Bool) (es : List (κ × Bool)) :
    hold h (e :: es) = hold (edge h e) es := rfl

theorem hold_append (h : κ → Bool) (es fs : List (κ × Bool)) :
    hold h (es ++ fs) = hold (hold h es) fs := List.foldl_append

theorem edge_same (h : κ → Bool) (c : κ) (d : Bool) : edge h (c, d) c = d := by
  rw [edge, Function.update_self]

theorem edge_ne (h : κ → Bool) {c c' : κ} (d : Bool) (hc : c' ≠ c) :
    edge h (c, d) c' = h c' := by
  rw [edge, Function.update_of_ne hc]

/-- A held control was held before the list or is pressed by one of its edges. -/
theorem hold_eq_true {h : κ → Bool} {es : List (κ × Bool)} {c : κ} (hc : hold h es c = true) :
    h c = true ∨ (c, true) ∈ es := by
  induction es generalizing h with
  | nil => exact .inl hc
  | cons e es ih =>
    -- Held after the rest: down after this edge, or pressed in the rest.
    rcases ih hc with hedge | hmem
    · by_cases heq : c = e.1
      · subst heq
        have hdown : e.2 = true := by rwa [edge, Function.update_self] at hedge
        exact .inr (by simp [← hdown])
      · rw [edge, Function.update_of_ne heq] at hedge
        exact .inl hedge
    · exact .inr (List.mem_cons_of_mem _ hmem)

/-- More held before is more held after. -/
theorem hold_mono {h h' : κ → Bool} (hle : ∀ c, h c = true → h' c = true)
    (es : List (κ × Bool)) {c : κ} (hc : hold h es c = true) : hold h' es c = true := by
  induction es generalizing h h' with
  | nil => exact hle c hc
  | cons e es ih =>
    refine ih (fun c' hc' => ?_) hc
    by_cases heq : c' = e.1
    · subst heq
      rwa [edge, Function.update_self] at hc' ⊢
    · rw [edge, Function.update_of_ne heq] at hc' ⊢
      exact hle c' hc'

/-- What is held stays held until it is let up. -/
theorem hold_of_up_notMem {h : κ → Bool} {es : List (κ × Bool)} {c : κ} (hc : h c = true)
    (hup : (c, false) ∉ es) : hold h es c = true := by
  induction es generalizing h with
  | nil => exact hc
  | cons e es ih =>
    rw [List.mem_cons, not_or] at hup
    obtain ⟨c', d⟩ := e
    refine ih ?_ hup.2
    by_cases hsame : c = c'
    · subst hsame
      cases d with
      | true => exact edge_same h c true
      | false => exact absurd rfl hup.1
    · rw [edge_ne h d hsame]
      exact hc

/-- A control no edge is about stays as it was. -/
theorem hold_of_forall_ne {h : κ → Bool} {es : List (κ × Bool)} {c : κ}
    (hne : ∀ e ∈ es, e.1 ≠ c) : hold h es c = h c := by
  induction es generalizing h with
  | nil => rfl
  | cons e es ih =>
    rw [hold_cons, ih (fun f hf => hne f (List.mem_cons_of_mem _ hf)), edge,
      Function.update_of_ne (hne e (by simp)).symm]

/-- After a list of releases a control is held iff it was and none of them is its own. -/
theorem hold_ups {h : κ → Bool} {es : List (κ × Bool)} (hup : ∀ e ∈ es, e.2 = false) (c : κ) :
    hold h es c = true ↔ h c = true ∧ (c, false) ∉ es := by
  induction es generalizing h with
  | nil => simp
  | cons e es ih =>
    have he : e = (e.1, false) := Prod.ext rfl (hup e (by simp))
    rw [hold_cons, ih (fun f hf => hup f (List.mem_cons_of_mem _ hf)), he]
    by_cases heq : c = e.1
    · simp [heq, edge_same]
    · simp [edge_ne _ _ heq, heq]

/-- The list leaves nothing down that was not down before it. -/
def Balanced (es : List (κ × Bool)) : Prop := ∀ h c, hold h es c = true → h c = true

theorem Balanced.nil : Balanced ([] : List (κ × Bool)) := fun _ _ hc => hc

theorem Balanced.append {es fs : List (κ × Bool)} (he : Balanced es) (hf : Balanced fs) :
    Balanced (es ++ fs) := by
  intro h c hc
  rw [hold_append] at hc
  exact he h c (hf _ c hc)

/-- A balanced list between a press of `c` and its release is balanced. -/
theorem Balanced.wrap {es : List (κ × Bool)} (he : Balanced es) (c : κ) :
    Balanced ((c, true) :: es ++ [(c, false)]) := by
  intro h c' hc'
  rw [hold_append] at hc'
  -- `c` itself is let up last; every other control sees the inner list alone.
  by_cases heq : c' = c
  · subst heq
    simp [edge_same] at hc'
  · rw [hold_cons, hold_nil, edge_ne _ _ heq] at hc'
    have hbefore := he _ c' hc'
    rwa [edge_ne _ _ heq] at hbefore

/-- A press and its release. -/
theorem Balanced.tap (c : κ) : Balanced [(c, true), (c, false)] := Balanced.nil.wrap c

/-- A balanced list between presses of `cs` and their releases in the reverse order. -/
theorem Balanced.nest {es : List (κ × Bool)} (he : Balanced es) (cs : List κ) :
    Balanced (cs.map (·, true) ++ es ++ cs.reverse.map (·, false)) := by
  induction cs with
  | nil => simpa using he
  | cons c cs ih => simpa using ih.wrap c

/-- A balanced list any number of times over. -/
theorem Balanced.replicate {es : List (κ × Bool)} (he : Balanced es) (n : ℕ) :
    Balanced (List.replicate n es).flatten := by
  induction n with
  | zero => exact Balanced.nil
  | succ n ih => simpa [List.replicate_succ] using he.append ih

/-- From nothing held, a balanced list ends with nothing held. -/
theorem Balanced.hold_nothing {es : List (κ × Bool)} (he : Balanced es) :
    hold nothing es = nothing := by
  funext c
  cases hc : hold nothing es c with
  | false => rfl
  | true => exact absurd (he nothing c hc) (by simp)

/-- A list is balanced when the releases it makes cover everything held after it. -/
theorem hold_eq_nothing {h : κ → Bool} {es : List (κ × Bool)} (hup : ∀ e ∈ es, e.2 = false)
    (hcover : ∀ c, h c = true → (c, false) ∈ es) : hold h es = nothing := by
  induction es generalizing h with
  | nil =>
    funext c
    cases hc : h c with
    | false => exact hc
    | true => simpa using hcover c hc
  | cons e es ih =>
    have hcons : hold h (e :: es) = hold (edge h e) es := rfl
    rw [hcons]
    -- This release takes its own control out of what the rest has to cover.
    refine ih (fun f hf => hup f (List.mem_cons_of_mem _ hf)) (fun c hc => ?_)
    have he : e.2 = false := hup e (by simp)
    by_cases heq : c = e.1
    · subst heq
      rw [edge, Function.update_self, he] at hc
      exact absurd hc (by simp)
    · rw [edge, Function.update_of_ne heq] at hc
      have hmem := hcover c hc
      rcases List.mem_cons.mp hmem with rfl | hmem
      · exact absurd rfl heq
      · exact hmem

end Presses
