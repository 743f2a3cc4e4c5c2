import InfinityClicker.Core.Mailbox
import InfinityClicker.Scheduler.EngineLoop

namespace InfinityClicker

open Machines Mailboxes

/-!
# The command protocol, one atomic step at a time

The calls of `Engine` on other threads and the engine's thread, cut into their atomic steps: the
push under the lock, the store of the flag and `SetEvent` of a `post`; the store of `armed_`
before it in `arm` and `emergency`; the consuming waits, the load of the flag, the drain, the
stores of `armed_` and `state_` of the engine.  What a run does between two polls is any choice:
it waits on the event, pauses, resumes, stops.

* `Protocol` — the mailbox, `armed_`, `state_`, and where every thread is;
* `protocolMachine` — all of them in any interleaving;
* `Protocol.Sound` — the flag is owed, and so is the event wherever the engine goes to sleep
  without another look at the flag;
* `commands_delivered` — no command is lost, duplicated, reordered or left sleeping.
-/

/-- The value an `Arm` or an `Emergency` asks for. -/
def Command.arms : Command → Option Bool
  | .arm on => some on
  | .emergency _ => some false
  | _ => none

/-- Where the engine's thread is among its atomic steps. -/
inductive Pc where
  /-- `WaitForSingleObject(cmdEvent_, INFINITE)`. -/
  | waiting
  /-- Woken, before `drain`. -/
  | woken
  /-- In the idle loop, with the commands of the batch still to come. -/
  | batch (cmds : List Command) (quit : Bool)
  /-- `armed_` is stored and `setState` comes next. -/
  | settling (on : Bool) (cmds : List Command) (quit : Bool)
  /-- Before the poll of the command flag in a run. -/
  | top
  /-- The flag was up, `drain` comes next. -/
  | taking
  /-- In `handleRunCommands`, with the commands still to come. -/
  | handling (cmds : List Command)
  /-- In the `post` of a `Quit` met in a run. -/
  | requeue
  /-- In a run between two polls, or before the first. -/
  | body
  /-- `doRun` after the run's loop. -/
  | ending
  /-- `armed_` is loaded, the store of the final state comes next. -/
  | loaded (on : Bool)
  /-- The thread has returned. -/
  | done
deriving DecidableEq

/-- What the engine's thread does where the protocol leaves it open. -/
inductive Choice where
  | goOn
  /-- Start a run. -/
  | start
  /-- Wait on the event, in `timerSleep` or `pauseUntilGate`. -/
  | wait
  | pause
  | resume
  /-- Leave the run. -/
  | stop
deriving DecidableEq, Repr

/-- The state `setState` stores for a value of `armed_`. -/
def EngineState.ofArmed (on : Bool) : EngineState := if on then .armed else .disarmed

/-- What the threads share, and where each of them is; `none` posts for the engine itself. -/
structure Protocol (τ : Type) where
  box : Mailbox (Option τ) Command := {}
  /-- The command of a call between its store of `armed_` and its `post`. -/
  held : τ → Option Command := fun _ => none
  armed : Bool := false
  state : EngineState := .disarmed
  pc : Pc := .waiting

/-- What goes into the queue and out of it. -/
inductive Traffic where
  | pushed (c : Command)
  | drained (c : Command)
deriving DecidableEq

/-- The next step of a thread. -/
inductive Move (τ : Type) where
  /-- Thread `i` calls the engine with a command, when it is not in a call. -/
  | call (i : τ) (c : Command)
  /-- The next step of a call that has begun. -/
  | next (i : τ)
  | engine (choice : Choice)

namespace Protocol

variable {τ : Type} [DecidableEq τ] (p : Protocol τ)

/-- The thread is in a call. -/
def busy (i : τ) : Bool := (p.held i).isSome || decide (p.box.stage (some i) ≠ .idle)

/-- The first step of a call: `arm` and `emergency` store `armed_`, the others push. -/
def begin_ (i : τ) (c : Command) : Protocol τ × List Traffic :=
  if p.busy i then (p, [])
  else
    match c.arms with
    | some on => ({ p with armed := on, held := Function.update p.held i (some c) }, [])
    | none => ({ p with box := p.box.push (some i) c }, [.pushed c])

/-- A later step of a call. -/
def continue_ (i : τ) : Protocol τ × List Traffic :=
  match p.held i with
  | some c =>
    ({ p with box := p.box.push (some i) c, held := Function.update p.held i none }, [.pushed c])
  | none => ({ p with box := p.box.proceed (some i) }, [])

/-- A step of the engine's thread. -/
def engine (choice : Choice) : Protocol τ × List Traffic :=
  match p.pc with
  | .waiting =>
    if p.box.event then ({ p with box := p.box.consume, pc := .woken }, []) else (p, [])
  | .woken =>
    ({ p with box := p.box.drain, pc := .batch p.box.queue false }, p.box.queue.map .drained)
  | .batch (c :: cs) quit =>
    match c.arms with
    | some on => ({ p with armed := on, pc := .settling on cs quit }, [])
    | none => ({ p with pc := .batch cs (quit || decide (c = .quit)) }, [])
  | .settling on cs quit => ({ p with state := .ofArmed on, pc := .batch cs quit }, [])
  | .batch [] quit =>
    if quit then ({ p with pc := .done }, [])
    else if choice = .start then ({ p with state := .running, pc := .body }, [])
    else ({ p with pc := .waiting }, [])
  | .top => ({ p with pc := if p.box.flag then .taking else .body }, [])
  | .taking =>
    ({ p with box := p.box.drain, pc := .handling p.box.queue }, p.box.queue.map .drained)
  | .handling [] => ({ p with pc := if choice = .stop then .ending else .body }, [])
  | .handling (c :: cs) =>
    -- `Quit` is posted again, and the rest of the batch dropped.
    if c = .quit then ({ p with box := p.box.push none .quit, pc := .requeue }, [.pushed .quit])
    else ({ p with armed := c.arms.getD p.armed, pc := .handling cs }, [])
  | .requeue =>
    ({ p with
        box := p.box.proceed none
        pc := if p.box.stage none = .raised then .ending else .requeue }, [])
  | .body =>
    match choice with
    | .wait => if p.box.event then ({ p with box := p.box.consume, pc := .top }, []) else (p, [])
    | .pause => ({ p with state := .paused }, [])
    | .resume => ({ p with state := .running }, [])
    | .stop => ({ p with pc := .ending }, [])
    | _ => ({ p with pc := .top }, [])
  | .ending => ({ p with pc := .loaded p.armed }, [])
  | .loaded on => ({ p with state := .ofArmed on, pc := .waiting }, [])
  | .done => (p, [])

end Protocol

/-- The calling threads `τ` and the engine's thread in any interleaving. -/
def protocolMachine (τ : Type) [DecidableEq τ] : Machine (Protocol τ) (Move τ) Traffic where
  step p
    | .call i c => p.begin_ i c
    | .next i => p.continue_ i
    | .engine choice => p.engine choice

/-- The commands pushed, and those drained, in order. -/
def pushedOf (traffic : List Traffic) : List Command :=
  traffic.filterMap fun
    | .pushed c => some c
    | .drained _ => none

/-- The commands taken out of the queue. -/
def drainedOf (traffic : List Traffic) : List Command :=
  traffic.filterMap fun
    | .drained c => some c
    | .pushed _ => none

/-- What was pushed, piece by piece. -/
@[simp] theorem pushedOf_append (a b : List Traffic) :
    pushedOf (a ++ b) = pushedOf a ++ pushedOf b := List.filterMap_append

/-- What was taken, piece by piece. -/
@[simp] theorem drainedOf_append (a b : List Traffic) :
    drainedOf (a ++ b) = drainedOf a ++ drainedOf b := List.filterMap_append

/-- Taking commands pushes none. -/
@[simp] theorem pushedOf_drained (cs : List Command) : pushedOf (cs.map .drained) = [] := by
  simp [pushedOf, List.filterMap_map]

/-- Taking them takes them. -/
@[simp] theorem drainedOf_drained (cs : List Command) : drainedOf (cs.map .drained) = cs := by
  simp [drainedOf, List.filterMap_map]

/-- Pushing one pushes it. -/
@[simp] theorem pushedOf_pushed (c : Command) : pushedOf [.pushed c] = [c] := rfl

/-- Pushing takes none. -/
@[simp] theorem drainedOf_pushed (c : Command) : drainedOf [.pushed c] = [] := rfl

/-- Nothing happened, nothing pushed. -/
@[simp] theorem pushedOf_nil : pushedOf [] = [] := rfl

/-- Nothing happened, nothing taken. -/
@[simp] theorem drainedOf_nil : drainedOf [] = [] := rfl

/-! ### The queue in order -/

/-- What a step pushes and drains is what it does to the queue. -/
theorem Protocol.step_queue {τ : Type} [DecidableEq τ] (p : Protocol τ) (move : Move τ) :
    drainedOf ((protocolMachine τ).out p move) ++ ((protocolMachine τ).next p move).box.queue =
      p.box.queue ++ pushedOf ((protocolMachine τ).out p move) := by
  -- A call pushes one command, if its thread is free for one.
  cases move with
  | call i c =>
    show drainedOf (p.begin_ i c).2 ++ (p.begin_ i c).1.box.queue = _ ++ pushedOf (p.begin_ i c).2
    unfold begin_
    split
    · simp
    · split <;> simp
  | next i =>
    show drainedOf (p.continue_ i).2 ++ (p.continue_ i).1.box.queue =
      _ ++ pushedOf (p.continue_ i).2
    unfold continue_
    split <;> simp
  -- Waking up and polling take the whole queue; a `Quit` that is found in a run is pushed back.
  | engine choice =>
    show drainedOf (p.engine choice).2 ++ (p.engine choice).1.box.queue =
      _ ++ pushedOf (p.engine choice).2
    unfold engine
    split
    · split <;> simp
    · simp
    · split <;> simp
    · simp
    · split
      · simp
      · split <;> simp
    · simp
    · simp
    · simp
    · split <;> simp
    · simp
    · split
      · split <;> simp
      · simp
      · simp
      · simp
      · simp
    · simp
    · simp
    · simp

/-! ### Nothing sleeps -/

/-- Between a consumed event and the next look at the queue. -/
def Pc.attentive : Pc → Bool
  | .woken | .top | .taking => true
  | _ => false

/-- What the flag and the event owe to the queue. -/
structure Protocol.Sound {τ : Type} (p : Protocol τ) : Prop where
  flagged : p.box.Flagged
  owed : p.pc.attentive = true ∨ p.box.Owed
  /-- The engine posts only a `Quit` of its own. -/
  own : p.pc = .requeue ∨ p.box.stage none = .idle

namespace Protocol.Sound

variable {τ : Type} {p : Protocol τ}

/-- At startup nothing is queued. -/
theorem start : ({} : Protocol τ).Sound :=
  ⟨fun hne => absurd rfl hne, .inr fun hne => absurd rfl hne, .inr rfl⟩

/-- A step of the engine that leaves the mailbox alone, and forgets no look it owes. -/
theorem of_same (h : p.Sound) {p' : Protocol τ} (hbox : p'.box = p.box) (hpc : p.pc ≠ .requeue)
    (howed : p.pc.attentive = true → p'.pc.attentive = true) : p'.Sound := by
  refine ⟨by rw [hbox]; exact h.flagged, ?_, .inr ?_⟩
  · rcases h.owed with hattentive | ho
    · exact .inl (howed hattentive)
    · rw [hbox]
      exact .inr ho
  · rw [hbox]
    exact h.own.resolve_left hpc

/-- **Nothing sleeps**: where the engine waits with the event unsignalled, nothing is queued or a
    call has not come to its `SetEvent`. -/
theorem awake (h : p.Sound) (hwaiting : p.pc = .waiting) (hevent : p.box.event = false) :
    p.box.queue = [] ∨ ∃ i : τ, p.box.stage (some i) ≠ .idle := by
  by_cases hempty : p.box.queue = []
  · exact .inl hempty
  · have howed := h.owed.resolve_left (by simp [hwaiting, Pc.attentive])
    rcases howed hempty with hset | ⟨i, hi⟩
    · exact absurd hset (by simp [hevent])
    · -- The engine itself posts nothing while it waits.
      cases i with
      | none => exact absurd (h.own.resolve_left (by simp [hwaiting])) hi
      | some i => exact .inr ⟨i, hi⟩

variable [DecidableEq τ]

/-- The first step of a call. -/
theorem begin_ (h : p.Sound) (i : τ) (c : Command) : (p.begin_ i c).1.Sound := by
  unfold Protocol.begin_
  split
  · exact h
  · split
    · exact ⟨h.flagged, h.owed, h.own⟩
    · refine ⟨p.box.push_flagged _ c, .inr (p.box.push_owed _ c), ?_⟩
      rw [Mailbox.push_stage_ne _ (by simp)]
      exact h.own

/-- The rest of a call keeps the protocol sound. -/
theorem continue_ (h : p.Sound) (i : τ) : (p.continue_ i).1.Sound := by
  unfold Protocol.continue_
  split
  · next c _ =>
    refine ⟨p.box.push_flagged _ c, .inr (p.box.push_owed _ c), ?_⟩
    rw [Mailbox.push_stage_ne _ (by simp)]
    exact h.own
  · refine ⟨h.flagged.proceed _, h.owed.imp_right fun howed => howed.proceed _, ?_⟩
    rw [Mailbox.proceed_stage_ne _ (by simp)]
    exact h.own

/-- A step of the engine keeps it sound. -/
theorem engine (h : p.Sound) (choice : Choice) : (p.engine choice).1.Sound := by
  have hnot : p.pc.attentive = false → p.box.Owed := fun hn => h.owed.resolve_left (by simp [hn])
  have hown : p.pc ≠ .requeue → p.box.stage none = .idle := h.own.resolve_left
  unfold Protocol.engine
  split
  case h_1 hpc =>
    split
    · exact ⟨h.flagged.consume, .inl rfl, .inr (hown (by simp [hpc]))⟩
    · exact h
  case h_2 hpc => exact ⟨p.box.drain_flagged, .inr p.box.drain_owed, .inr (hown (by simp [hpc]))⟩
  case h_3 hpc =>
    split <;> exact h.of_same rfl (by simp [hpc]) (by simp [hpc, Pc.attentive])
  case h_4 hpc => exact h.of_same rfl (by simp [hpc]) (by simp [hpc, Pc.attentive])
  case h_5 hpc =>
    split
    · exact h.of_same rfl (by simp [hpc]) (by simp [hpc, Pc.attentive])
    · split
      · exact h.of_same rfl (by simp [hpc]) (by simp [hpc, Pc.attentive])
      · exact h.of_same rfl (by simp [hpc]) (by simp [hpc, Pc.attentive])
  case h_6 hpc =>
    -- With the flag down nothing is queued, or a post is on its way to its event.
    cases hflag : p.box.flag with
    | true => exact ⟨h.flagged, .inl rfl, .inr (hown (by simp [hpc]))⟩
    | false => exact ⟨h.flagged, .inr (h.flagged.owed hflag), .inr (hown (by simp [hpc]))⟩
  case h_7 hpc => exact ⟨p.box.drain_flagged, .inr p.box.drain_owed, .inr (hown (by simp [hpc]))⟩
  case h_8 hpc => exact h.of_same rfl (by simp [hpc]) (by simp [hpc, Pc.attentive])
  case h_9 hpc =>
    split
    · exact ⟨p.box.push_flagged _ _, .inr (p.box.push_owed _ _), .inl rfl⟩
    · exact h.of_same rfl (by simp [hpc]) (by simp [hpc, Pc.attentive])
  case h_10 hpc =>
    have howed := (hnot (by simp [hpc, Pc.attentive])).proceed none
    refine ⟨h.flagged.proceed none, .inr howed, ?_⟩
    by_cases hraised : p.box.stage none = .raised
    · -- The post ends with its event.
      refine .inr ?_
      simp [Mailbox.proceed, hraised, Mailbox.signal]
    · rw [if_neg hraised]
      exact .inl rfl
  case h_11 hpc =>
    split
    · split
      · exact ⟨h.flagged.consume, .inl rfl, .inr (hown (by simp [hpc]))⟩
      · exact h
    · exact h.of_same rfl (by simp [hpc]) (by simp [hpc, Pc.attentive])
    · exact h.of_same rfl (by simp [hpc]) (by simp [hpc, Pc.attentive])
    · exact h.of_same rfl (by simp [hpc]) (by simp [hpc, Pc.attentive])
    · exact h.of_same rfl (by simp [hpc]) (by simp [hpc, Pc.attentive])
  case h_12 hpc => exact h.of_same rfl (by simp [hpc]) (by simp [hpc, Pc.attentive])
  case h_13 hpc => exact h.of_same rfl (by simp [hpc]) (by simp [hpc, Pc.attentive])
  case h_14 => exact h

/-- Every step keeps what the flag and the event owe. -/
theorem step (h : p.Sound) (move : Move τ) : ((protocolMachine τ).next p move).Sound := by
  cases move with
  | call i c => exact h.begin_ i c
  | next i => exact h.continue_ i
  | engine choice => exact h.engine choice

/-- The flag and the event keep their promise in every run. -/
theorem after (moves : List (Move τ)) : ((protocolMachine τ).after {} moves).Sound :=
  (protocolMachine τ).invariant (fun _ move h => h.step move) start moves

end Protocol.Sound

/-- What the queue, the flag and the event promise at a state with its traffic so far. -/
structure Protocol.Delivers {τ : Type} [DecidableEq τ] (p : Protocol τ)
    (traffic : List Traffic) : Prop where
  /-- What was pushed has been drained, once and in order, or is still queued. -/
  order : drainedOf traffic ++ p.box.queue = pushedOf traffic
  flag : p.box.queue ≠ [] → (∀ i, p.box.stage i ≠ .pushed) → p.box.flag = true
  awake : p.pc = .waiting → p.box.event = false →
    p.box.queue = [] ∨ ∃ i : τ, p.box.stage (some i) ≠ .idle
  /-- With no call under way the next two steps of a waiting engine drain what is queued. -/
  wakes : p.pc = .waiting → (∀ i : τ, p.box.stage (some i) = .idle) →
    drainedOf ((protocolMachine τ).trace p [.engine .goOn, .engine .goOn]) = p.box.queue

/-- **No command is lost, duplicated or left sleeping**, for any number of calling threads and in
    every interleaving. -/
theorem commands_delivered (τ : Type) [DecidableEq τ] (moves : List (Move τ)) :
    ((protocolMachine τ).after {} moves).Delivers ((protocolMachine τ).trace {} moves) := by
  have hsound := Protocol.Sound.after moves
  have horder := (protocolMachine τ).history
    (I := fun p traffic => drainedOf traffic ++ p.box.queue = pushedOf traffic)
    (fun p traffic move h => by
      rw [drainedOf_append, pushedOf_append, List.append_assoc, p.step_queue,
        ← List.append_assoc, h])
    (s := {}) rfl moves
  generalize (protocolMachine τ).after {} moves = p at hsound horder
  refine ⟨horder, fun hne hno => ?_, hsound.awake, fun hwaiting hidle => ?_⟩
  · rcases hsound.flagged hne with hflag | ⟨i, hi⟩
    · exact hflag
    · exact absurd hi (hno i)
  · cases hevent : p.box.event with
    | true =>
      simp [protocolMachine, Machine.out, Machine.next, Protocol.engine, hwaiting, hevent]
    | false =>
      rcases hsound.awake hwaiting hevent with hempty | ⟨i, hi⟩
      · simp [protocolMachine, Machine.out, Machine.next, Protocol.engine, hwaiting, hevent, hempty]
      · exact absurd (hidle i) hi

end InfinityClicker
