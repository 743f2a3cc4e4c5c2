import Mathlib.Logic.Function.Basic
import InfinityClicker.Core.Machine

namespace Mailboxes

/-!
# Mailboxes: a queue with a flag and an auto-reset event

Any number of threads post to one consumer.  A post is three separate moves: the item is pushed
under the queue's lock, the flag is raised, the event is set.  The consumer takes the whole queue
out and clears the flag under the lock, reads the flag to see whether that is worth it, and sleeps
on the event, which a wait that wakes up resets.

* `lastOf` — the last value the items of a queue carry;
* `Mailbox.Flagged` — what is queued is flagged, or its post is about to raise the flag;
* `Mailbox.Owed` — what is queued has its event set, or its post is about to set it: what must
  hold where the consumer sleeps;
* `Mailbox.Flagged.owed` — a consumer that finds the flag down may go to sleep.
-/

/-! ### The last value carried -/

section LastOf

variable {α β : Type*} (f : α → Option β)

/-- The last value that items carry, `b` when none does. -/
def lastOf (b : β) (items : List α) : β := ((items.filterMap f).getLast?).getD b

/-- Nothing seen leaves the first value. -/
@[simp] theorem lastOf_nil (b : β) : lastOf f b [] = b := rfl

/-- A list is read piece by piece. -/
theorem lastOf_append (b : β) (xs ys : List α) :
    lastOf f b (xs ++ ys) = lastOf f (lastOf f b xs) ys := by
  unfold lastOf
  rw [List.filterMap_append, List.getLast?_append]
  cases (ys.filterMap f).getLast? with
  | none => rfl
  | some d => rfl

/-- The first item decides for the later ones. -/
theorem lastOf_cons (b : β) (x : α) (xs : List α) :
    lastOf f b (x :: xs) = lastOf f ((f x).getD b) xs := by
  have hone : lastOf f b [x] = (f x).getD b := by
    unfold lastOf
    cases h : f x <;> simp [h]
  rw [← hone, ← lastOf_append]
  rfl

end LastOf

/-! ### The mailbox -/

/-- How far a thread has come in its post: nothing under way, pushed, or flagged. -/
inductive Stage where
  | idle
  | pushed
  | raised
deriving DecidableEq, Repr

/-- The mailbox of items `α` with posting threads `τ`. -/
structure Mailbox (τ α : Type*) where
  queue : List α := []
  flag : Bool := false
  event : Bool := false
  stage : τ → Stage := fun _ => .idle

namespace Mailbox

variable {τ α : Type*} (m : Mailbox τ α)

/-- What is queued is flagged, or its post is about to raise the flag. -/
def Flagged : Prop := m.queue ≠ [] → m.flag = true ∨ ∃ i, m.stage i = .pushed

/-- What is queued has its event set, or a post is about to set it. -/
def Owed : Prop := m.queue ≠ [] → m.event = true ∨ ∃ i, m.stage i ≠ .idle

/-! ### The consumer -/

/-- The consumer takes out the queue and clears the flag. -/
def drain : Mailbox τ α := { m with queue := [], flag := false }

/-- A wait wakes up on the event and resets it. -/
def consume : Mailbox τ α := { m with event := false }

/-- A drained queue is empty. -/
@[simp] theorem drain_queue : m.drain.queue = [] := rfl

/-- Draining is no move of a post. -/
@[simp] theorem drain_stage : m.drain.stage = m.stage := rfl

/-- A wake-up takes no item. -/
@[simp] theorem consume_queue : m.consume.queue = m.queue := rfl

/-- A wake-up is no move of a post. -/
@[simp] theorem consume_stage : m.consume.stage = m.stage := rfl

/-- Nothing queued needs no flag. -/
theorem drain_flagged : m.drain.Flagged := fun h => absurd rfl h

/-- Nothing queued needs no event. -/
theorem drain_owed : m.drain.Owed := fun h => absurd rfl h

variable {m}

/-- A wake-up keeps what is queued flagged. -/
theorem Flagged.consume (h : m.Flagged) : m.consume.Flagged := h

/-- **A consumer that finds the flag down may sleep.** -/
theorem Flagged.owed (h : m.Flagged) (hdown : m.flag = false) : m.Owed := by
  intro hne
  rcases h hne with hflag | ⟨i, hi⟩
  · exact absurd hflag (by simp [hdown])
  · exact .inr ⟨i, by simp [hi]⟩

/-! ### The posting threads -/

variable [DecidableEq τ] (m)

/-- Thread `i` pushes an item. -/
def push (i : τ) (a : α) : Mailbox τ α :=
  { m with queue := m.queue ++ [a], stage := Function.update m.stage i .pushed }

/-- Thread `i` raises the flag. -/
def raise (i : τ) : Mailbox τ α :=
  { m with flag := true, stage := Function.update m.stage i .raised }

/-- Thread `i` sets the event, and its post is over. -/
def signal (i : τ) : Mailbox τ α :=
  { m with event := true, stage := Function.update m.stage i .idle }

/-- The next move of a post that has begun. -/
def proceed (i : τ) : Mailbox τ α :=
  match m.stage i with
  | .idle => m
  | .pushed => m.raise i
  | .raised => m.signal i

/-- A pushed item is the last of the queue. -/
@[simp] theorem push_queue (i : τ) (a : α) : (m.push i a).queue = m.queue ++ [a] := rfl

/-- The post is under way at its thread. -/
@[simp] theorem push_stage_self (i : τ) (a : α) : (m.push i a).stage i = .pushed :=
  Function.update_self _ _ _

/-- The rest of a post queues nothing. -/
@[simp] theorem proceed_queue (i : τ) : (m.proceed i).queue = m.queue := by
  unfold proceed
  split <;> rfl

/-- Whatever a thread does, the posts of the others stay where they are. -/
theorem push_stage_ne {i j : τ} (h : j ≠ i) (a : α) : (m.push i a).stage j = m.stage j :=
  Function.update_of_ne h _ _

/-- A thread's post is its own affair. -/
theorem proceed_stage_ne {i j : τ} (h : j ≠ i) : (m.proceed i).stage j = m.stage j := by
  unfold proceed
  split
  · rfl
  · exact Function.update_of_ne h _ _
  · exact Function.update_of_ne h _ _

/-- An item that was just pushed is about to be flagged. -/
theorem push_flagged (i : τ) (a : α) : (m.push i a).Flagged :=
  fun _ => .inr ⟨i, m.push_stage_self i a⟩

/-- An item that was just pushed is about to set the event. -/
theorem push_owed (i : τ) (a : α) : (m.push i a).Owed := fun _ => .inr ⟨i, by simp⟩

variable {m}

/-- A post that goes on keeps what is queued flagged. -/
theorem Flagged.proceed (h : m.Flagged) (i : τ) : (m.proceed i).Flagged := by
  intro hne
  rw [m.proceed_queue i] at hne
  unfold Mailbox.proceed
  split
  · exact h hne
  · exact .inl rfl
  · next hraised =>
    -- The post that ends had raised the flag before.
    rcases h hne with hflag | ⟨j, hj⟩
    · exact .inl hflag
    · have hji : j ≠ i := by
        rintro rfl
        rw [hraised] at hj
        exact absurd hj (by simp)
      refine .inr ⟨j, ?_⟩
      show Function.update m.stage i .idle j = .pushed
      rw [Function.update_of_ne hji]
      exact hj

/-- A post that goes on keeps what is queued owed its event. -/
theorem Owed.proceed (h : m.Owed) (i : τ) : (m.proceed i).Owed := by
  intro hne
  rw [m.proceed_queue i] at hne
  unfold Mailbox.proceed
  split
  · exact h hne
  · exact .inr ⟨i, by simp [raise]⟩
  · exact .inl rfl

end Mailbox

end Mailboxes
