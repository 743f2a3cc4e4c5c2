import InfinityClicker.Scheduler.CommandProtocol

namespace InfinityClicker

open Machines Mailboxes

/-!
# The armed flag and the published state agree at rest

`armed_` is stored by `arm` and `emergency` on any thread before their command is posted, and by
the engine when it handles the command; `state_` is computed from it at other times.

* `Protocol.ahead` — the commands the engine has still to handle;
* `Protocol.Agrees` — behind the stores on their way and the commands ahead, `armed_` is the value
  asked for last and `state_` shows it;
* `armed_agrees_at_rest` — at rest nothing is on its way and nothing ahead.
-/

/-- The commands of the batch in hand. -/
def Pc.rest : Pc → List Command
  | .batch cmds _ | .settling _ cmds _ | .handling cmds => cmds
  | _ => []

/-- The thread has met its `Quit` in the idle loop. -/
def Pc.quits : Pc → Bool
  | .batch _ quit | .settling _ _ quit => quit
  | .done => true
  | _ => false

/-- What `state_`, or the value on its way to it, shows of `armed_`. -/
def Pc.Shows (armed : Bool) (state : EngineState) : Pc → Prop
  | .waiting | .woken | .batch _ _ => state = .ofArmed armed
  | .settling on _ _ | .loaded on => armed = on
  | _ => True

namespace Protocol

variable {τ : Type} (p : Protocol τ)

/-- The commands the engine has still to handle, in order. -/
def ahead : List Command := p.pc.rest ++ p.box.queue

/-- The engine is on its way to its return. -/
def Quits : Prop := .quit ∈ p.ahead ∨ p.pc.quits = true

/-- A call is between its store of `armed_` and its push. -/
def Storing : Prop := ∃ i, p.held i ≠ none

/-- `armed_` is still going to be stored. -/
def Unsettled : Prop := p.Storing ∨ ∃ c ∈ p.ahead, c.arms ≠ none

/-- `armed_` will be `last` once what is ahead is handled, and `state_` shows it unless it is
    going to change. -/
structure Agrees (last : Bool) : Prop where
  held : ∀ i c, p.held i = some c → c.arms ≠ none
  armed : p.Quits ∨ p.Storing ∨ lastOf Command.arms p.armed p.ahead = last
  state : p.Unsettled ∨ p.pc.Shows p.armed p.state

namespace Agrees

variable {p} {p' : Protocol τ} {last : Bool}

/-- At startup the engine is disarmed and says so. -/
theorem start : ({} : Protocol τ).Agrees false :=
  ⟨by simp, .inr (.inr rfl), .inr rfl⟩

/-- A push onto the queue, with the call's store behind it. -/
theorem push (h : p.Agrees last) (c : Command) (hahead : p'.ahead = p.ahead ++ [c])
    (hpc : p'.pc = p.pc) (harmed : p'.armed = p.armed) (hstate : p'.state = p.state)
    (hheld : ∀ i c, p'.held i = some c → c.arms ≠ none)
    (hstoring : c.arms = none → p.Storing → p'.Storing) :
    p'.Agrees (lastOf Command.arms last [c]) := by
  have hmem : ∀ d ∈ p.ahead, d ∈ p'.ahead := by
    intro d hd
    rw [hahead]
    exact List.mem_append_left _ hd
  refine ⟨hheld, ?_, ?_⟩
  · rw [hahead, harmed, lastOf_append, lastOf_cons, lastOf_cons, lastOf_nil, lastOf_nil]
    cases hc : c.arms with
    | some on => exact .inr (.inr rfl)
    | none =>
      rcases h.armed with (hquit | hquit) | hstoring' | hlast
      · exact .inl (.inl (hmem _ hquit))
      · exact .inl (.inr (by rw [hpc]; exact hquit))
      · exact .inr (.inl (hstoring hc hstoring'))
      · exact .inr (.inr hlast)
  · by_cases hc : c.arms = none
    · rcases h.state with (hstoring' | ⟨d, hd, hd'⟩) | hshows
      · exact .inl (.inl (hstoring hc hstoring'))
      · exact .inl (.inr ⟨d, hmem d hd, hd'⟩)
      · rw [hpc, harmed, hstate]
        exact .inr hshows
    · refine .inl (.inr ⟨c, ?_, hc⟩)
      rw [hahead]
      exact List.mem_append_right _ (by simp)

/-- A step that leaves what is ahead, `armed_` and the calls alone. -/
theorem of_same (h : p.Agrees last) (hahead : p'.ahead = p.ahead) (harmed : p'.armed = p.armed)
    (hheld : p'.held = p.held) (hquits : p.pc.quits = true → p'.pc.quits = true)
    (hshows : p.pc.Shows p.armed p.state → p'.pc.Shows p'.armed p'.state) : p'.Agrees last := by
  have hstoring : p'.Storing = p.Storing := by rw [Storing, Storing, hheld]
  refine ⟨by rw [hheld]; exact h.held, ?_, ?_⟩
  · unfold Quits
    rw [hahead, harmed, hstoring]
    exact h.armed.imp_left (Or.imp_right hquits)
  · unfold Unsettled
    rw [hahead, hstoring]
    exact h.state.imp_right hshows

/-- A command of the batch in hand is handled: `armed_` takes its value. -/
theorem handle (h : p.Agrees last) {c : Command} (hahead : p.ahead = c :: p'.ahead)
    (harmed : p'.armed = c.arms.getD p.armed) (hheld : p'.held = p.held)
    (hquits : c = .quit ∨ p.pc.quits = true → p'.pc.quits = true)
    (hshows : (c.arms = none → p.pc.Shows p.armed p.state) →
      p'.pc.Shows p'.armed p'.state) : p'.Agrees last := by
  have hstoring : p'.Storing = p.Storing := by rw [Storing, Storing, hheld]
  refine ⟨by rw [hheld]; exact h.held, ?_, ?_⟩
  · rcases h.armed with (hquit | hquit) | hs | hlast
    · rw [hahead] at hquit
      rcases List.mem_cons.mp hquit with heq | hmem
      · exact .inl (.inr (hquits (.inl heq.symm)))
      · exact .inl (.inl hmem)
    · exact .inl (.inr (hquits (.inr hquit)))
    · exact .inr (.inl (by rw [hstoring]; exact hs))
    · rw [hahead, lastOf_cons, ← harmed] at hlast
      exact .inr (.inr hlast)
  · rcases h.state with (hs | ⟨d, hd, hd'⟩) | hshows'
    · exact .inl (.inl (by rw [hstoring]; exact hs))
    · rw [hahead] at hd
      rcases List.mem_cons.mp hd with rfl | hmem
      · exact .inr (hshows fun hnone => absurd hnone hd')
      · exact .inl (.inr ⟨d, hmem, hd'⟩)
    · exact .inr (hshows fun _ => hshows')

variable [DecidableEq τ]

theorem begin_ (h : p.Agrees last) (i : τ) (c : Command) :
    (p.begin_ i c).1.Agrees (lastOf Command.arms last (pushedOf (p.begin_ i c).2)) := by
  unfold Protocol.begin_
  split
  · exact h
  · split
    · next on hon =>
      -- The store is on its way to its command.
      have hstoring : Storing
          { p with armed := on, held := Function.update p.held i (some c) } :=
        ⟨i, by simp⟩
      refine ⟨fun j d hd => ?_, .inr (.inl hstoring), .inl (.inl hstoring)⟩
      by_cases hj : j = i
      · subst hj
        obtain rfl : c = d := by simpa using hd
        simp [hon]
      · exact h.held j d (by simpa [Function.update_of_ne hj] using hd)
    · exact h.push c (List.append_assoc _ _ _).symm rfl rfl rfl h.held fun _ hs => hs

theorem continue_ (h : p.Agrees last) (i : τ) :
    (p.continue_ i).1.Agrees (lastOf Command.arms last (pushedOf (p.continue_ i).2)) := by
  unfold Protocol.continue_
  split
  · next c hc =>
    refine h.push c (List.append_assoc _ _ _).symm rfl rfl rfl (fun j d hd => ?_) fun hnone _ => ?_
    · by_cases hj : j = i
      · subst hj
        simp at hd
      · exact h.held j d (by simpa [Function.update_of_ne hj] using hd)
    · exact absurd hnone (h.held i c hc)
  · refine h.of_same ?_ rfl rfl id id
    show p.pc.rest ++ (p.box.proceed (some i)).queue = _
    rw [Mailbox.proceed_queue]
    rfl

theorem engine (h : p.Agrees last) (choice : Choice) :
    (p.engine choice).1.Agrees (lastOf Command.arms last (pushedOf (p.engine choice).2)) := by
  have hahead : ∀ pc, p.pc = pc → p.ahead = pc.rest ++ p.box.queue := by
    rintro pc rfl
    rfl
  unfold Protocol.engine
  split
  case h_1 hpc =>
    split
    · exact h.of_same (by rw [hahead _ hpc]; rfl) rfl rfl (by simp [hpc, Pc.quits])
        (by simp [hpc, Pc.Shows])
    · exact h
  case h_2 hpc =>
    -- What was queued is the batch.
    rw [pushedOf_drained]
    refine h.of_same ?_ rfl rfl (by simp [hpc, Pc.quits]) (by simp [hpc, Pc.Shows])
    rw [hahead _ hpc]
    exact List.append_nil _
  case h_3 c cs quit hpc =>
    have hcons := hahead _ hpc
    cases hc : c.arms with
    | some on =>
      refine h.handle hcons (by simp [hc]) rfl ?_ fun _ => rfl
      rintro (rfl | hq)
      · simp [Command.arms] at hc
      · rw [hpc] at hq
        exact hq
    | none =>
      refine h.handle hcons (by simp [hc]) rfl ?_ fun hshows => ?_
      · rintro (rfl | hq)
        · simp [Pc.quits]
        · rw [hpc] at hq
          have hquit : quit = true := hq
          simp [Pc.quits, hquit]
      · have hbefore := hshows hc
        rw [hpc] at hbefore
        exact hbefore
  case h_4 on cs quit hpc =>
    refine h.of_same (by rw [hahead _ hpc]; rfl) rfl rfl (by rw [hpc]; exact id) fun hshows => ?_
    rw [hpc] at hshows
    exact congrArg EngineState.ofArmed hshows.symm
  case h_5 quit hpc =>
    split
    · exact h.of_same (by rw [hahead _ hpc]; rfl) rfl rfl (fun _ => rfl) fun _ => trivial
    · next hquit =>
      have hno : p.pc.quits = true → False := by
        rw [hpc]
        exact hquit
      split
      · exact h.of_same (by rw [hahead _ hpc]; rfl) rfl rfl (fun hq => (hno hq).elim)
          fun _ => trivial
      · exact h.of_same (by rw [hahead _ hpc]; rfl) rfl rfl (fun hq => (hno hq).elim)
          (by rw [hpc]; exact id)
  case h_6 hpc =>
    cases p.box.flag with
    | true =>
      exact h.of_same (by rw [hahead _ hpc]; rfl) rfl rfl (by simp [hpc, Pc.quits])
        fun _ => trivial
    | false =>
      exact h.of_same (by rw [hahead _ hpc]; rfl) rfl rfl (by simp [hpc, Pc.quits])
        fun _ => trivial
  case h_7 hpc =>
    rw [pushedOf_drained]
    refine h.of_same ?_ rfl rfl (by simp [hpc, Pc.quits]) fun _ => trivial
    rw [hahead _ hpc]
    exact List.append_nil _
  case h_8 hpc =>
    by_cases hstop : choice = .stop
    · rw [if_pos hstop]
      exact h.of_same (by rw [hahead _ hpc]; rfl) rfl rfl (by simp [hpc, Pc.quits])
        fun _ => trivial
    · rw [if_neg hstop]
      exact h.of_same (by rw [hahead _ hpc]; rfl) rfl rfl (by simp [hpc, Pc.quits])
        fun _ => trivial
  case h_9 c cs hpc =>
    split
    · -- The rest of the batch is dropped, and the thread on its way out.
      refine ⟨h.held, .inl (.inl ?_), .inr trivial⟩
      show Command.quit ∈ [] ++ (p.box.queue ++ [.quit])
      simp
    · next hquit =>
      refine h.handle (hahead _ hpc) rfl rfl ?_ fun _ => trivial
      rintro (heq | hq)
      · exact absurd heq hquit
      · simp [hpc, Pc.quits] at hq
  case h_10 hpc =>
    have hsame : ∀ pc : Pc, pc.rest = [] →
        ({ p with box := p.box.proceed none, pc := pc } : Protocol τ).ahead = p.ahead := by
      intro pc hrest
      rw [hahead _ hpc, ahead, hrest]
      exact congrArg _ (Mailbox.proceed_queue _ _)
    by_cases hraised : p.box.stage none = .raised
    · rw [if_pos hraised]
      exact h.of_same (hsame _ rfl) rfl rfl (by simp [hpc, Pc.quits]) fun _ => trivial
    · rw [if_neg hraised]
      exact h.of_same (hsame _ rfl) rfl rfl (by simp [hpc, Pc.quits]) fun _ => trivial
  case h_11 hpc =>
    split
    · split
      · exact h.of_same (by rw [hahead _ hpc]; rfl) rfl rfl (by simp [hpc, Pc.quits])
          fun _ => trivial
      · exact h
    · exact h.of_same rfl rfl rfl id (by simp [hpc, Pc.Shows])
    · exact h.of_same rfl rfl rfl id (by simp [hpc, Pc.Shows])
    · exact h.of_same (by rw [hahead _ hpc]; rfl) rfl rfl (by simp [hpc, Pc.quits])
        fun _ => trivial
    · exact h.of_same (by rw [hahead _ hpc]; rfl) rfl rfl (by simp [hpc, Pc.quits])
        fun _ => trivial
  case h_12 hpc =>
    exact h.of_same (by rw [hahead _ hpc]; rfl) rfl rfl (by simp [hpc, Pc.quits]) fun _ => rfl
  case h_13 on hpc =>
    refine h.of_same (by rw [hahead _ hpc]; rfl) rfl rfl (by simp [hpc, Pc.quits])
      fun hshows => ?_
    rw [hpc] at hshows
    exact congrArg EngineState.ofArmed hshows.symm
  case h_14 => exact h

/-- Every step keeps the agreement with the value asked for last. -/
theorem step (h : p.Agrees last) (move : Move τ) :
    ((protocolMachine τ).next p move).Agrees
      (lastOf Command.arms last (pushedOf ((protocolMachine τ).out p move))) := by
  cases move with
  | call i c => exact h.begin_ i c
  | next i => exact h.continue_ i
  | engine choice => exact h.engine choice

/-- The agreement holds in every run. -/
theorem after (moves : List (Move τ)) : ((protocolMachine τ).after {} moves).Agrees
    (lastOf Command.arms false (pushedOf ((protocolMachine τ).trace {} moves))) :=
  (protocolMachine τ).history
    (I := fun p traffic => p.Agrees (lastOf Command.arms false (pushedOf traffic)))
    (fun p traffic move h => by
      rw [pushedOf_append, lastOf_append]
      exact h.step move)
    (s := {}) start moves

end Agrees

/-- The engine waits, nothing is queued, and no call is between its store and its post. -/
structure Rests : Prop where
  waiting : p.pc = .waiting
  empty : p.box.queue = []
  held : ∀ i, p.held i = none

end Protocol

/-- At rest nothing is on its way to `armed_` and nothing ahead. -/
theorem Protocol.Agrees.rests {τ : Type} {p : Protocol τ} {last : Bool} (h : p.Agrees last)
    (hrest : p.Rests) : p.armed = last ∧ p.state = .ofArmed p.armed := by
  have hahead : p.ahead = [] := by
    rw [Protocol.ahead, hrest.waiting, hrest.empty]
    rfl
  have hstoring : ¬ p.Storing := fun ⟨i, hi⟩ => hi (hrest.held i)
  constructor
  · rcases h.armed with hquits | hs | hlast
    · rcases hquits with hquit | hquit
      · simp [hahead] at hquit
      · simp [hrest.waiting, Pc.quits] at hquit
    · exact absurd hs hstoring
    · rw [hahead] at hlast
      exact hlast
  · rcases h.state with (hs | ⟨c, hc, -⟩) | hshows
    · exact absurd hs hstoring
    · simp [hahead] at hc
    · rw [hrest.waiting] at hshows
      exact hshows

/-- **Armed flag and state agree at rest**: for any number of calling threads and in every
    interleaving, at rest `armed_` has the value the last `Arm` or `Emergency` in queue order asks
    for, and `state_` shows it. -/
theorem armed_agrees_at_rest (τ : Type) [DecidableEq τ] (moves : List (Move τ))
    (hrest : ((protocolMachine τ).after {} moves).Rests) :
    ((protocolMachine τ).after {} moves).armed =
        lastOf Command.arms false (pushedOf ((protocolMachine τ).trace {} moves)) ∧
      ((protocolMachine τ).after {} moves).state =
        .ofArmed ((protocolMachine τ).after {} moves).armed :=
  (Protocol.Agrees.after moves).rests hrest

/-- Two calls whose stores and posts cross: `arm(true)` stores first and posts last. -/
def crossedArms : List (Move Bool) :=
  [.call true (.arm true), .call false (.arm false), .next false, .next true, .next true,
    .next false, .next true, .next false] ++ List.replicate 8 (.engine .goOn)

theorem crossedArms_agree :
    ((protocolMachine Bool).after {} crossedArms).armed =
        lastOf Command.arms false (pushedOf ((protocolMachine Bool).trace {} crossedArms)) ∧
      ((protocolMachine Bool).after {} crossedArms).state =
        .ofArmed ((protocolMachine Bool).after {} crossedArms).armed :=
  armed_agrees_at_rest Bool crossedArms
    ⟨by decide +kernel, by decide +kernel, by decide +kernel⟩

end InfinityClicker
