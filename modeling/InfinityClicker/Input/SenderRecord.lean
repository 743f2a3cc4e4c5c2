import InfinityClicker.Core.Machine
import InfinityClicker.Input.HeldKeys

namespace InfinityClicker

open Presses Machines

/-!
# When the held-key record tells the truth

The sender is run as a machine on arbitrary calls (`SenderOp`), its outputs the `SendInput`
calls it makes.  `Truthful` compares its record and counters with what Windows really accepted:
the fold of the accepted events and the sums over the calls.

`send` keeps the record truthful under every acceptance.  `releaseAll` keeps it truthful only
while it needs no retry: its retry is neither counted nor looked at before the record is
cleared.  So a sequence of calls is truthful throughout iff no release is cut short
(`record_truthful_iff`).
-/

/-- A call of the sender, with how its `SendInput` calls go. -/
inductive SenderOp where
  | send (ins : List INPUT) (r : SendResult)
  | releaseAll (r retry : SendResult)

/-- The sender on one call. -/
def InputSender.call (s : InputSender) : SenderOp → InputSender.Result
  | .send ins r => s.send ins r
  | .releaseAll r retry => s.releaseAll r retry

/-- The sender as a machine; it outputs its `SendInput` calls. -/
def senderMachine : Machine InputSender SenderOp SendCall where
  step s op := ((s.call op).sender, (s.call op).calls)

/-- The sender at startup. -/
def InputSender.fresh (shared : Option HeldShared) : InputSender := { shared := shared }

/-- The real key state: the fold of what Windows accepted, in order. -/
def realHeld (calls : List SendCall) : Control → Bool :=
  hold nothing (edgesOf (calls.flatMap SendCall.acceptedEvents))

/-- Events passed to `SendInput`. -/
def passedEvents (calls : List SendCall) : ℕ := (calls.map fun c => c.events.length).sum

/-- Events `SendInput` accepted. -/
def okEvents (calls : List SendCall) : ℕ := (calls.map SendCall.ok).sum

/-- The record is the real key state, and the counters count the calls. -/
structure InputSender.Truthful (s : InputSender) (calls : List SendCall) : Prop where
  held : s.held = realHeld calls
  requested : s.requested = passedEvents calls
  accepted : s.accepted = okEvents calls

/-- The call needs no retry: a release is accepted whole at once. -/
def InputSender.NoRetry (s : InputSender) : SenderOp → Prop
  | .send _ _ => True
  | .releaseAll r _ => r.accepted s.releases.length = s.releases.length

namespace InputSender

/-! ### What one `send` does -/

@[simp] theorem setMouseIf_requested (s : InputSender) (c : Bool) (b : Fin 5) (d : Bool) :
    (s.setMouseIf c b d).requested = s.requested := by cases c <;> rfl
@[simp] theorem setMouseIf_accepted (s : InputSender) (c : Bool) (b : Fin 5) (d : Bool) :
    (s.setMouseIf c b d).accepted = s.accepted := by cases c <;> rfl

/-- Tracking an event touches no counter. -/
theorem track_counters (s : InputSender) (i : INPUT) :
    (s.track i).requested = s.requested ∧ (s.track i).accepted = s.accepted := by
  cases i with
  | hardware => exact ⟨rfl, rfl⟩
  | mouse mi => simp only [track]; split <;> simp
  | keyboard ki =>
    simp only [track]
    split
    · exact ⟨rfl, rfl⟩
    · split
      · exact ⟨rfl, rfl⟩
      · split <;> exact ⟨rfl, rfl⟩

theorem trackAll_counters (s : InputSender) (ins : List INPUT) :
    (s.trackAll ins).requested = s.requested ∧ (s.trackAll ins).accepted = s.accepted := by
  induction ins generalizing s with
  | nil => exact ⟨rfl, rfl⟩
  | cons i ins ih =>
    have htail := ih (s.track i)
    have hhead := s.track_counters i
    exact ⟨htail.1.trans hhead.1, htail.2.trans hhead.2⟩

theorem publishIfDirty_counters (s : InputSender) :
    s.publishIfDirty.requested = s.requested ∧ s.publishIfDirty.accepted = s.accepted := by
  unfold publishIfDirty
  split <;> exact ⟨rfl, rfl⟩

/-- `send` makes its one call, unless it has nothing to send, and counts it. -/
theorem send_spec (s : InputSender) (ins : List INPUT) (r : SendResult) :
    (s.send ins r).ok = r.accepted ins.length ∧
      (s.send ins r).calls = (if ins = [] then [] else [sendInput ins r]) ∧
      (s.send ins r).sender.requested = s.requested + ins.length ∧
      (s.send ins r).sender.accepted = s.accepted + r.accepted ins.length := by
  by_cases hnil : ins = []
  · have hzero : r.accepted 0 = 0 := Nat.le_zero.mp (r.accepted_le 0)
    simp [send, hnil, hzero]
  · have hcount := trackAll_counters (s.countCall ins.length (r.accepted ins.length) r.error)
      (ins.take (r.accepted ins.length))
    simp only [send, hnil, if_false, sendInput, SendCall.acceptedEvents,
      (publishIfDirty_counters _).1, (publishIfDirty_counters _).2, hcount.1, hcount.2]
    exact ⟨trivial, trivial, rfl, rfl⟩

/-- What a call adds to the real key state. -/
theorem realHeld_append (calls more : List SendCall) :
    realHeld (calls ++ more) =
      hold (realHeld calls) (edgesOf (more.flatMap SendCall.acceptedEvents)) := by
  rw [realHeld, List.flatMap_append, edgesOf_append, hold_append]
  rfl

theorem passedEvents_append (calls more : List SendCall) :
    passedEvents (calls ++ more) = passedEvents calls + passedEvents more := by
  simp [passedEvents]

theorem okEvents_append (calls more : List SendCall) :
    okEvents (calls ++ more) = okEvents calls + okEvents more := by
  simp [okEvents]

/-- **`send` keeps the record truthful**, whatever prefix of its events is accepted. -/
theorem Truthful.send {s : InputSender} {calls : List SendCall} (h : s.Truthful calls)
    (ins : List INPUT) (r : SendResult) :
    (s.send ins r).sender.Truthful (calls ++ (s.send ins r).calls) := by
  obtain ⟨-, hcalls, hreq, hacc⟩ := s.send_spec ins r
  refine ⟨?_, ?_, ?_⟩
  · rw [send_held, realHeld_append, hcalls, h.held]
    split
    · next hnil => simp [hnil]
    · simp [sendInput, SendCall.acceptedEvents]
  · rw [hreq, passedEvents_append, hcalls, h.requested]
    split
    · next hnil => simp [hnil, passedEvents]
    · simp [passedEvents, sendInput]
  · rw [hacc, okEvents_append, hcalls, h.accepted]
    split
    · next hnil =>
      have hzero : r.accepted 0 = 0 := Nat.le_zero.mp (r.accepted_le 0)
      simp [hnil, okEvents, hzero]
    · simp [okEvents, sendInput]

/-! ### What one `releaseAll` does -/

/-- Without a retry, `releaseAll` is one `send` of the releases. -/
theorem releaseAll_of_noRetry (s : InputSender) (r retry : SendResult)
    (h : s.NoRetry (.releaseAll r retry)) : s.releaseAll r retry = s.send s.releases r := by
  have hok : (s.send s.releases r).ok = s.releases.length := (s.send_spec s.releases r).1.trans h
  by_cases hnil : s.releases = []
  · simp [releaseAll, hnil, send]
  · simp [releaseAll, hnil, hok]

/-- With a retry, the rest of the releases is passed again and all of them are tracked. -/
theorem releaseAll_of_retry (s : InputSender) (r retry : SendResult)
    (h : ¬ s.NoRetry (.releaseAll r retry)) :
    (s.releaseAll r retry).sender =
        ((s.send s.releases r).sender.trackAll s.releases).publish ∧
      (s.releaseAll r retry).calls =
        [sendInput s.releases r,
          sendInput (s.releases.drop (r.accepted s.releases.length)) retry] ∧
      r.accepted s.releases.length < s.releases.length := by
  have hlt : r.accepted s.releases.length < s.releases.length :=
    lt_of_le_of_ne (r.accepted_le s.releases.length) h
  have hnil : s.releases ≠ [] := by
    intro hnil
    simp [hnil] at hlt
  obtain ⟨hok, hcalls, -, -⟩ := s.send_spec s.releases r
  have hne : r.accepted s.releases.length ≠ s.releases.length := h
  simp [releaseAll, hnil, hok, hcalls, hne, hlt]

/-- A retry passes events to `SendInput` that the counters never see. -/
theorem releaseAll_uncounted (s : InputSender) (r retry : SendResult)
    (h : ¬ s.NoRetry (.releaseAll r retry)) :
    (s.releaseAll r retry).sender.requested <
      s.requested + passedEvents (s.releaseAll r retry).calls := by
  obtain ⟨hsender, hcalls, hlt⟩ := s.releaseAll_of_retry r retry h
  obtain ⟨-, -, hreq, -⟩ := s.send_spec s.releases r
  have htrack := trackAll_counters (s.send s.releases r).sender s.releases
  have hpub : ∀ s' : InputSender, s'.publish.requested = s'.requested := fun _ => rfl
  rw [hsender, hpub, htrack.1, hreq, hcalls]
  simp only [passedEvents, sendInput, List.map_cons, List.map_nil, List.sum_cons, List.sum_nil,
    List.length_drop]
  omega

/-! ### Whole sequences of calls -/

theorem Truthful.step {s : InputSender} {calls : List SendCall} {op : SenderOp}
    (h : s.Truthful calls) (hno : s.NoRetry op) :
    (senderMachine.next s op).Truthful (calls ++ senderMachine.out s op) := by
  cases op with
  | send ins r => exact h.send ins r
  | releaseAll r retry =>
    have heq := s.releaseAll_of_noRetry r retry hno
    simpa only [Machine.next, Machine.out, senderMachine, call, heq] using h.send s.releases r

/-- A call that needs a retry leaves an untrue record: the retry is not counted. -/
theorem Truthful.not_step {s : InputSender} {calls : List SendCall} {op : SenderOp}
    (h : s.Truthful calls) (hretry : ¬ s.NoRetry op) :
    ¬ (senderMachine.next s op).Truthful (calls ++ senderMachine.out s op) := by
  intro hafter
  cases op with
  | send ins r => exact hretry trivial
  | releaseAll r retry =>
    have hlt := s.releaseAll_uncounted r retry hretry
    -- The requested counter alone gives it away.
    have hreq := hafter.requested
    rw [passedEvents_append, ← h.requested] at hreq
    simp only [Machine.next, Machine.out, senderMachine, call] at hreq
    omega

/-- **The record tells the truth after every call iff no release needs a retry.**  The record
    and the counters are compared with the accepted and passed events after each prefix of an
    arbitrary sequence of calls, each `SendInput` call accepting an arbitrary prefix. -/
theorem record_truthful_iff (shared : Option HeldShared) (ops : List SenderOp) :
    (∀ p, p <+: ops →
      (senderMachine.after (fresh shared) p).Truthful (senderMachine.trace (fresh shared) p)) ↔
      senderMachine.Meets NoRetry (fresh shared) ops := by
  suffices hgen : ∀ (s : InputSender) (calls : List SendCall), s.Truthful calls →
      ((∀ p, p <+: ops →
        (senderMachine.after s p).Truthful (calls ++ senderMachine.trace s p)) ↔
        senderMachine.Meets NoRetry s ops) by
    have hfresh : (fresh shared).Truthful [] := by
      refine ⟨?_, rfl, rfl⟩
      funext c
      cases c <;> rfl
    simpa using hgen (fresh shared) [] hfresh
  -- Along the calls, from any truthful state.
  induction ops with
  | nil =>
    intro s calls h
    constructor
    · intro _; trivial
    · intro _ p hp
      rw [List.prefix_nil.mp hp]
      simpa using h
  | cons op ops ih =>
    intro s calls h
    constructor
    · intro hall
      have hno : s.NoRetry op := by
        by_contra hretry
        have hone := hall [op] ⟨ops, rfl⟩
        exact h.not_step hretry (by simpa using hone)
      refine ⟨hno, (ih _ _ (h.step hno)).mp fun p hp => ?_⟩
      -- A prefix of the later calls is one of all calls, after this one.
      have hcons := hall (op :: p) (List.cons_prefix_cons.mpr ⟨rfl, hp⟩)
      simpa [List.append_assoc] using hcons
    · rintro ⟨hno, hmeets⟩ p hp
      cases p with
      | nil => simpa using h
      | cons op' p =>
        obtain ⟨rfl, hp'⟩ := List.cons_prefix_cons.mp hp
        have htail := (ih _ _ (h.step hno)).mpr hmeets p hp'
        simpa [List.append_assoc] using htail

/-- The left button is pressed; its release and the retry are both rejected. -/
def rejectedRelease : List SenderOp :=
  [.send [makeMouseInput (some .left) true 0 kTagInfClick] {},
    .releaseAll { limit := some 0 } { limit := some 0 }]

/-- After a rejected release the record says nothing is held while the button still is. -/
theorem record_lies_after_rejected_release :
    ¬ ∀ ops : List SenderOp,
      (senderMachine.after (fresh none) ops).Truthful (senderMachine.trace (fresh none) ops) := by
  intro hall
  have hheld := congrFun (hall rejectedRelease).held (.button 0)
  have hrecord : (senderMachine.after (fresh none) rejectedRelease).held (.button 0) = false := by
    decide +kernel
  have hreal : realHeld (senderMachine.trace (fresh none) rejectedRelease) (.button 0) = true := by
    decide +kernel
  rw [hrecord, hreal] at hheld
  exact absurd hheld (by decide)

end InputSender

end InfinityClicker
