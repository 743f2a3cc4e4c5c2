import InfinityClicker.Input.ProgramTiming
import InfinityClicker.Scheduler.ActionCount
import InfinityClicker.Scheduler.Backpressure
import InfinityClicker.Scheduler.Totals

namespace InfinityClicker

open Machines

/-!
# What a MAX run counts

A MAX run checks its program once, when it is entered, and builds its batch anew from every
configuration applied in it.

* `Thread.CountsSent` — a step of a MAX run counts what it passes to `SendInput`, and no boundary is
  passed with an action that does not compile;
* `Thread.GoesOnValid` — at a boundary that neither of a run's ends stops, the action has a key or
  button;
* `Thread.MaxValid` — what such runs keep: past a boundary the program compiles;
* `max_counts_iff` — a run counts what it sends exactly when no MAX run goes on with a configuration
  that does not compile.
-/

variable {P : Platform}

/-! ### Polls -/

namespace Engine

variable {e : Engine} {o : Obs}

/-- A poll that consumes nothing leaves what remains. -/
theorem poll_remaining_eq (h : commandsOf e.poll.2.1 = []) :
    e.poll.1.run.remaining = e.run.remaining := by
  unfold poll at h ⊢
  split
  · next hflag =>
    rw [if_pos hflag, commandsOf_consumed] at h
    show (e.drained.runCommands e.queue).run.remaining = e.run.remaining
    cases hqueue : e.queue with
    | nil => rfl
    | cons c cs =>
      -- Only `Quit` is consumed without a word.
      rw [hqueue] at h
      cases c with
      | quit => rfl
      | _ => simp [handled] at h
  · rfl

/-- A command during an unlimited run leaves it unlimited. -/
theorem runCommand_unlimited (c : Command) (h : e.run.remaining = kUnlimited) :
    (e.runCommand c).run.remaining = kUnlimited := by
  cases c with
  | arm on => cases on <;> exact h
  | triggerDown q =>
    simp only [runCommand]
    split
    · exact h
    · rw [if_neg fun hextend => hextend.2 h]
      exact h
  | triggerUp q =>
    simp only [runCommand]
    split <;> exact h
  | _ => exact h

theorem poll_unlimited (h : e.run.remaining = kUnlimited) :
    e.poll.1.run.remaining = kUnlimited := by
  have hcommands : ∀ (cs : List Command) (e : Engine), e.run.remaining = kUnlimited →
      (e.runCommands cs).run.remaining = kUnlimited := by
    intro cs e he
    fun_induction runCommands e cs with
    | case1 => exact he
    | case2 e => exact runCommand_unlimited .quit he
    | case3 e c cs _ ih => exact ih (runCommand_unlimited c he)
  unfold poll
  split
  · exact hcommands e.queue e.drained h
  · exact h

/-- `useUp 0` leaves what remains. -/
theorem useUp_zero : (e.useUp 0).run = e.run := by
  rw [useUp_run]
  split
  · show ({ e.run with remaining := e.run.remaining - 0#64 } : RunCtl) = e.run
    rw [BitVec.sub_zero]
  · rfl

end Engine

/-! ### What is counted -/

/-- The commands consumed in a step only add to what remains: the presses of a Burst, while the
    counter does not overflow. -/
structure Engine.Extends (e : Engine) (x : Thread × List Event) : Prop where
  limited : e.run.remaining.toNat + extensionsOf e.cfg.mode (commandsOf x.2) < 2 ^ 64 - 1 →
    x.1.e.run.remaining.toNat =
      e.run.remaining.toNat + extensionsOf e.cfg.mode (commandsOf x.2)
  unlimited : e.run.remaining = kUnlimited → x.1.e.run.remaining = kUnlimited

/-- A step records `n` actions: it passes the whole program `n` times to `SendInput`, and takes `n`
    off what remains; a step that consumes commands records none. -/
structure Thread.CountsCalls (t : Thread) (o : Obs) (x : Thread × List Event) (n : ℕ) : Prop where
  recorded : x.1.e.books.actions = t.e.books.actions + n
  sent : n ≠ 0 → 1 ≤ t.e.maxProg.inputsPerAction ∧
    t.e.maxProg.flat.length = t.e.maxProg.inputsPerAction ∧
      sentOf x.2 = [sendInput (List.replicate n t.e.maxProg.flat).flatten o.sent]
  remaining : commandsOf x.2 = [] → x.1.e.run.remaining = (t.e.useUp n).run.remaining
  commands : commandsOf x.2 ≠ [] → n = 0 ∧ t.e.Extends x

/-- **What a step of a MAX run should do**: count what it passes to `SendInput`, and end the run
    before it records anything with an action that does not compile. -/
structure Thread.CountsSent (t : Thread) (o : Obs) (x : Thread × List Event) : Prop where
  calls : ∃ n, t.CountsCalls o x n
  /-- A configuration that is applied comes straight to a boundary, unless it ends the run. -/
  applies : ∀ l c, t.loc = .maxConfig l → t.e.pendingCfg = some c →
    x.1.loc = .ending ∨ (∃ l', x.1.loc = .maxGate l') ∧ x.1.e.cfg = c
  /-- A boundary with an action that does not compile ends the run, as in `runTimed`. -/
  ends : ∀ l, t.loc = .maxGate l → t.e.cfg.action.chord.valid = false → x.1.loc = .ending

/-- A step in a MAX run is as it should be. -/
def Thread.MaxStep (P : Platform) (t : Thread) : Act → Prop
  | .thread o => t.loc.maxLocals.isSome = true → t.CountsSent o (t.step P o)
  | _ => True

/-- A MAX run that goes on at a boundary, with actions and time left, has an action with a key or
    button assigned. -/
def Thread.GoesOnValid (t : Thread) : Act → Prop
  | .thread o => ∀ l, t.loc = .maxGate l → t.e.run.remaining ≠ 0 →
      t.e.clock + o.dt 0 < t.e.run.endQpc → t.e.cfg.action.chord.valid = true
  | _ => True

namespace Engine

variable {e : Engine} {o : Obs}

/-- A step that records nothing, and consumes nothing. -/
theorem countsCalls_zero {loc : Loc} {x : Thread × List Event} (hidles : e.Idles x.1.e)
    (hcommands : commandsOf x.2 = []) (hrun : x.1.e.run.remaining = e.run.remaining) :
    Thread.CountsCalls ⟨e, loc⟩ o x 0 := by
  refine ⟨?_, fun h => absurd rfl h, ?_, fun h => absurd hcommands h⟩
  · show x.1.e.books.actions = e.books.actions + 0
    rw [hidles.books, Nat.add_zero]
  · intro _
    show x.1.e.run.remaining = (e.useUp 0).run.remaining
    rw [hrun, useUp_zero]

/-- A poll records nothing and takes nothing off what remains. -/
theorem countsCalls_poll {e' : Engine} {loc : Loc} {x : Thread × List Event}
    (hidles : e.Idles x.1.e) (hrun : e'.run = e.run) (hcfg : e'.cfg = e.cfg)
    (hpoll : x.1.e.run = e'.poll.1.run) (hcommands : commandsOf x.2 = commandsOf e'.poll.2.1) :
    Thread.CountsCalls ⟨e, loc⟩ o x 0 := by
  refine ⟨?_, fun h => absurd rfl h, ?_, fun _ => ⟨rfl, ?_, ?_⟩⟩
  · show x.1.e.books.actions = e.books.actions + 0
    rw [hidles.books, Nat.add_zero]
  · intro hnil
    rw [hcommands] at hnil
    show x.1.e.run.remaining = (e.useUp 0).run.remaining
    rw [hpoll, poll_remaining_eq hnil, useUp_zero, hrun]
  · intro hbound
    rw [hcommands] at hbound ⊢
    show x.1.e.run.remaining.toNat = e.run.remaining.toNat + extensionsOf e.cfg.mode _
    rw [hpoll, ← hrun, ← hcfg]
    apply poll_remaining
    rw [hrun, hcfg]
    exact hbound
  · intro hunlimited
    show x.1.e.run.remaining = kUnlimited
    rw [hpoll]
    apply poll_unlimited
    rw [hrun]
    exact hunlimited

theorem stepMax_countsCalls (l : MaxLocals) :
    Thread.CountsCalls ⟨e, .max l⟩ o (e.stepMax l) 0 := by
  refine countsCalls_poll (stepMax_idles l) (rfl : e.run = e.run) rfl ?_
    (polled_stepMax l).commands
  simp only [stepMax]
  split <;> rfl

theorem stepMaxPause_countsCalls (hactive : e.state.active = true) (l : MaxLocals) (now : ℤ) :
    Thread.CountsCalls ⟨e, .maxPause l now⟩ o (e.stepMaxPause P l now o) 0 := by
  refine countsCalls_poll (stepMaxPause_idles hactive l now) (rfl : (e.woken o).run = e.run) rfl
    ?_ (polled_stepMaxPause l now o).commands
  unfold stepMaxPause
  rcases e.stepPause_cases o _ _ with ⟨-, e', hp, heq⟩ | ⟨-, e', go, isOpen, hp, hor, -, heq⟩
  · rw [heq]
    exact hp.run
  · rw [heq]
    rcases hor with ⟨-, rfl⟩ | ⟨-, rfl⟩
    · exact hp.run
    · exact (publish_run _ _).trans hp.run

theorem stepMaxConfig_countsCalls (l : MaxLocals) :
    Thread.CountsCalls ⟨e, .maxConfig l⟩ o (e.stepMaxConfig P l) 0 := by
  have hcommands := Thread.quiet_commands P (t := ⟨e, .maxConfig l⟩) rfl rfl o
  refine countsCalls_zero (stepMaxConfig_idles l) hcommands ?_
  unfold stepMaxConfig
  split
  · rfl
  · dsimp only
    split <;> rfl

theorem stepMaxGate_countsCalls (hactive : e.state.active = true) (l : MaxLocals) :
    Thread.CountsCalls ⟨e, .maxGate l⟩ o (e.stepMaxGate P l o) 0 := by
  have hcommands := Thread.quiet_commands P (t := ⟨e, .maxGate l⟩) rfl rfl o
  refine countsCalls_zero (stepMaxGate_idles hactive l) hcommands ?_
  simp only [stepMaxGate]
  split
  · rfl
  · split
    · rfl
    · split
      · split
        · rfl
        · rw [(enterPause_frame P _ _ o).2.2.2.2.1]
          rfl
      · rfl

/-- The programs compile when the action has a key or button. -/
theorem Built.ok (h : e.Built P) :
    e.prog.ok = e.cfg.action.chord.valid ∧ e.maxProg.ok = e.cfg.action.chord.valid := by
  refine ⟨?_, ?_⟩
  · rw [h.prog]
    simp only [rebuildProgram]
    split <;> rw [compileAction_ok]
    rfl
  · rw [h.maxProg]
    simp only [rebuildProgram]
    rw [compileAction_ok]

/-- **A call of a MAX run** passes the whole program for every action it counts. -/
theorem stepMaxSend_countsCalls (hactive : e.state.active = true) (l : MaxLocals) (now : ℤ)
    (hplaced : l.Batches e.maxProg) (hmax : Compiled P e.maxProg) (hok : e.maxProg.ok = true) :
    Thread.CountsCalls ⟨e, .maxSend l now⟩ o (e.stepMaxSend P l now o)
      (if e.behind l o then 0 else e.maxActions l) := by
  have hcommands := Thread.quiet_commands P (t := ⟨e, .maxSend l now⟩) rfl rfl o
  have hbooks := (stepMaxSend_books (P := P) (o := o) hactive l now).1
  have hrecorded := congrArg Books.actions hbooks
  -- The round waits for the target: nothing is sent and nothing is counted.
  by_cases hbehind : e.behind l o = true
  · have hsame : (e.stepMaxSend P l now o).1.e = e.publishDue P now := by
      rw [stepMaxSend, if_pos hbehind]
    rw [if_pos hbehind] at hrecorded ⊢
    refine ⟨hrecorded, fun h => absurd rfl h, ?_, fun h => absurd hcommands h⟩
    intro _
    show (e.stepMaxSend P l now o).1.e.run.remaining = (e.useUp 0).run.remaining
    rw [hsame, (publishDue_frame P e now).2.2.2.2.2.2.1, useUp_zero]
  -- The batch is cut to what remains; the cut is by whole programs.
  · have hfire : e.stepMaxSend P l now o = e.fireMax P l o := by rw [stepMaxSend, if_neg hbehind]
    have hle : e.maxActions l ≤ l.B := by
      unfold maxActions
      split
      · exact le_refl _
      · exact Nat.min_le_left _ _
    have hlength : e.maxProg.flat.length = e.maxProg.inputsPerAction := hmax.per_eq.symm
    have hper := hmax.per_pos hok
    have hinputs : e.maxInputs l = (List.replicate (e.maxActions l) e.maxProg.flat).flatten := by
      rw [maxInputs, hplaced.batch, hplaced.per, ← hlength, take_flatten_replicate _ hle]
    rw [if_neg hbehind] at hrecorded ⊢
    refine ⟨hrecorded, ?_, ?_, fun h => absurd hcommands h⟩
    · intro hn
      refine ⟨hper, hlength, ?_⟩
      show sentOf (e.stepMaxSend P l now o).2 = _
      rw [hfire, fireMax_events, sentOf_sent, hinputs]
      apply InputSender.send_calls
      apply List.ne_nil_of_length_pos
      have hpos := Nat.mul_pos (Nat.pos_of_ne_zero hn) (hlength ▸ hper)
      simpa using hpos
    · intro _
      show (e.stepMaxSend P l now o).1.e.run.remaining = _
      rw [hfire, fireMax_run]

end Engine

/-! ### Runs -/

/-- The places of a MAX run from its entry or a boundary on, up to the next configuration. -/
def Loc.pastBoundary : Loc → Bool
  | .max _ | .maxConfig _ | .maxPause _ _ | .maxSend _ _ => true
  | _ => false

namespace Thread

variable {t : Thread}

/-- Past its entry or a boundary, a MAX run has a program that compiles. -/
def MaxValid (t : Thread) : Prop := t.loc.pastBoundary = true → t.e.maxProg.ok = true

/-- What a run keeps that goes on with no invalid configuration in MAX mode. -/
structure CountsWell (P : Platform) (t : Thread) : Prop where
  follows : ∃ m, t.Follows P m
  placed : t.Placed
  active : t.Active
  valid : t.MaxValid

/-- **A step of a MAX run** counts what it sends. -/
theorem CountsWell.counts (h : t.CountsWell P) (o : Obs)
    (hplace : t.loc.maxLocals.isSome = true) : ∃ n, t.CountsCalls o (t.step P o) n := by
  obtain ⟨m, hfollows⟩ := h.follows
  have hvalid := h.valid
  have hplaced := h.placed
  have hactive := h.active
  have hbuilt := hfollows.built
  obtain ⟨e, loc⟩ := t
  cases loc with
  | max l => exact ⟨0, Engine.stepMax_countsCalls l⟩
  | maxConfig l => exact ⟨0, Engine.stepMaxConfig_countsCalls l⟩
  | maxGate l => exact ⟨0, Engine.stepMaxGate_countsCalls hactive l⟩
  | maxPause l now => exact ⟨0, Engine.stepMaxPause_countsCalls hactive l now⟩
  | maxSend l now =>
    -- Only here are actions recorded, and only past a boundary.
    have hmax : Compiled P e.maxProg := hbuilt.maxProg ▸ (e.rebuildProgram_compiled P).2
    exact ⟨_, Engine.stepMaxSend_countsCalls hactive l now hplaced hmax (hvalid rfl)⟩
  | _ => simp [Loc.maxLocals] at hplace

/-- A place past a boundary is reached from one, from the boundary, or where a run is entered: from
    a batch or from a timed run. -/
theorem pastBoundary_of_leads {loc loc' : Loc} (h : loc.leads loc' = true)
    (hpast : loc'.pastBoundary = true) : loc.pastBoundary = true ∨ (∃ l, loc = .maxGate l) ∨
      (∃ cmds b, loc = .commands cmds b) ∨ ∃ l, loc = .timedConfig l := by
  cases loc <;> cases loc' <;> simp_all [Loc.leads, Loc.pastBoundary]

/-- A boundary that is passed has actions and time left. -/
theorem stepMaxGate_passed {e : Engine} {l : MaxLocals} {o : Obs}
    (hpast : (e.stepMaxGate P l o).1.loc.pastBoundary = true) :
    e.run.remaining ≠ 0 ∧ e.clock + o.dt 0 < e.run.endQpc := by
  unfold Engine.stepMaxGate at hpast
  refine ⟨fun hnone => ?_, not_le.mp fun hlate => ?_⟩
  · rw [if_pos hnone] at hpast
    simp [Loc.pastBoundary] at hpast
  · have htime : (e.tick (o.dt 0)).run.endQpc ≤ (e.tick (o.dt 0)).clock := hlate
    split at hpast
    · simp [Loc.pastBoundary] at hpast
    · dsimp only at hpast
      rw [if_pos htime] at hpast
      simp [Loc.pastBoundary] at hpast

/-- A run switched to MAX mode goes on only with a program that compiles. -/
theorem stepTimedConfig_valid {e : Engine} {l : TimedLocals} {o : Obs}
    (hpast : (e.stepTimedConfig P l o).1.loc.pastBoundary = true) :
    (e.stepTimedConfig P l o).1.e.maxProg.ok = true := by
  unfold Engine.stepTimedConfig at hpast ⊢
  cases hpending : e.pendingCfg with
  | none => simp [hpending, Loc.pastBoundary] at hpast
  | some c =>
    simp only [hpending] at hpast ⊢
    split at hpast
    · next hmode =>
      rw [if_pos hmode]
      unfold Engine.enterMax at hpast ⊢
      split at hpast
      · simp [Loc.pastBoundary] at hpast
      · next hok =>
        rw [if_neg hok]
        simpa using hok
    · split at hpast <;> simp [Loc.pastBoundary] at hpast

/-- An application of a configuration in a MAX run comes to the next boundary, or to the run's
    end. -/
theorem stepMaxConfig_pastBoundary {e : Engine} (l : MaxLocals) :
    (e.stepMaxConfig P l).1.loc.pastBoundary = false := by
  unfold Engine.stepMaxConfig
  split
  · rfl
  · dsimp only
    split <;> rfl

/-- What is applied in a MAX run is in force at the next boundary, if the run comes to one. -/
theorem stepMaxConfig_applies {e : Engine} (l : MaxLocals) {c : EngineConfig}
    (hpending : e.pendingCfg = some c) : (e.stepMaxConfig P l).1.loc = .ending ∨
      (∃ l', (e.stepMaxConfig P l).1.loc = .maxGate l') ∧ (e.stepMaxConfig P l).1.e.cfg = c := by
  simp only [Engine.stepMaxConfig, hpending]
  split
  · exact .inl rfl
  · exact .inr ⟨⟨_, rfl⟩, by simp⟩

/-- **Past a boundary the program compiles.** -/
theorem MaxValid.step (h : t.MaxValid) (hb : t.e.Built P) (o : Obs)
    (hgoes : t.GoesOnValid (.thread o)) : (t.step P o).1.MaxValid := by
  intro hpast
  rcases pastBoundary_of_leads (t.step_leads P o) hpast with
    hplace | ⟨l, hgate⟩ | ⟨cmds, b, hcommands⟩ | ⟨l, hconfig⟩
  · -- Up to the next boundary the programs stay.
    have hconf : t.loc.configures = false := by
      obtain ⟨e, loc⟩ := t
      cases loc with
      | maxConfig l =>
        have hgate : (e.stepMaxConfig P l).1.loc.pastBoundary = true := hpast
        rw [stepMaxConfig_pastBoundary] at hgate
        exact absurd hgate (by simp)
      | _ => simp_all [Loc.pastBoundary, Loc.configures]
    have hrun : t.loc.inRun = true := by
      cases hloc : t.loc <;> simp_all [Loc.pastBoundary, Loc.inRun]
    rw [(t.step_programs P o hrun hconf).2]
    exact h hplace
  · -- The boundary is passed, so its configuration is a valid one.
    rw [(t.step_programs P o (by rw [hgate]; rfl) (by rw [hgate]; rfl)).2, hb.ok.2]
    obtain ⟨e, loc⟩ := t
    obtain rfl : loc = .maxGate l := hgate
    obtain ⟨hleft, htime⟩ := stepMaxGate_passed hpast
    exact hgoes l rfl hleft htime
  · -- `doRun` has looked at the program.
    cases t.step_moves P o with
    | starts hloc hquit hstart hok hkeeps =>
      rw [hkeeps.maxProg, hb.ok.2, ← hb.ok.1]
      exact hok
    | command hloc h' => simp [h', Loc.pastBoundary] at hpast
    | returns hloc hquit hkeeps hstate hloc' => simp [hloc', Loc.pastBoundary] at hpast
    | rests hloc hquit hstart hkeeps hstate hloc' => simp [hloc', Loc.pastBoundary] at hpast
    | sleeps hloc | wakes hloc | ends hloc | stays hloc => simp [hcommands] at hloc
    | polls hloc => simp [hcommands, Loc.polls] at hloc
    | applies hloc => simp [hcommands, Loc.configures] at hloc
    | runs hrun => simp [hcommands, Loc.inRun] at hrun
  · obtain ⟨e, loc⟩ := t
    obtain rfl : loc = .timedConfig l := hconfig
    exact stepTimedConfig_valid hpast

theorem CountsWell.next (h : t.CountsWell P) (act : Act) (hgoes : t.GoesOnValid act) :
    ((engineMachine P).next t act).CountsWell P := by
  obtain ⟨m, hfollows⟩ := h.follows
  refine ⟨⟨_, hfollows.next P act⟩, ?_, ?_, ?_⟩
  · cases act with
    | thread o => exact h.placed.step o
    | _ => exact h.placed
  · cases act with
    | thread o => exact h.active.step o
    | _ => exact h.active
  · cases act with
    | thread o => exact h.valid.step hfollows.built o hgoes
    | _ => exact h.valid

theorem CountsWell.start (waiter : PreciseWaiter) (clock : ℤ) :
    (Thread.start P waiter clock).CountsWell P := by
  refine ⟨⟨_, Follows.start waiter clock⟩, trivial, Ledger.start_active waiter clock, ?_⟩
  intro hpast
  simp [Thread.start, Loc.pastBoundary] at hpast

/-- A boundary ends the run when no actions or no time are left, and not otherwise. -/
theorem ends_iff_goesOn (o : Obs) :
    (∀ l, t.loc = .maxGate l → t.e.cfg.action.chord.valid = false →
      (t.step P o).1.loc = .ending) ↔ t.GoesOnValid (.thread o) := by
  constructor
  · intro hends l hloc hleft htime
    by_contra hvalid
    have hend := hends l hloc (by simpa using hvalid)
    obtain ⟨e, loc⟩ := t
    obtain rfl : loc = .maxGate l := hloc
    have hgoes : (e.stepMaxGate P l o).1.loc ≠ .ending := by
      have hearly : ¬(e.tick (o.dt 0)).run.endQpc ≤ (e.tick (o.dt 0)).clock := not_le.mpr htime
      unfold Engine.stepMaxGate
      rw [if_neg hleft]
      dsimp only
      rw [if_neg hearly]
      split
      · split <;> simp
      · simp
    exact hgoes hend
  · intro hgoes l hloc hvalid
    obtain ⟨e, loc⟩ := t
    obtain rfl : loc = .maxGate l := hloc
    show (e.stepMaxGate P l o).1.loc = .ending
    unfold Engine.stepMaxGate
    split
    · rfl
    · next hleft =>
      have hlate : (e.tick (o.dt 0)).run.endQpc ≤ (e.tick (o.dt 0)).clock := by
        by_contra htime
        have hyes : e.cfg.action.chord.valid = true := hgoes l rfl hleft (not_le.mp htime)
        exact absurd (hvalid.symm.trans hyes) (by simp)
      dsimp only
      rw [if_pos hlate]

end Thread

/-- **A MAX run counts what it sends** exactly when it goes on at no boundary with a configuration
    that does not compile. -/
theorem max_counts_iff (P : Platform) (waiter : PreciseWaiter) (clock : ℤ) (acts : List Act) :
    (engineMachine P).Meets (Thread.MaxStep P) (Thread.start P waiter clock) acts ↔
      (engineMachine P).Meets Thread.GoesOnValid (Thread.start P waiter clock) acts := by
  constructor
  · apply Machine.Meets.mono
    intro t act hstep
    cases act with
    | thread o =>
      cases hplace : t.loc.maxLocals with
      | some l => exact (Thread.ends_iff_goesOn o).mp (hstep (by rw [hplace]; rfl)).ends
      | none =>
        intro l hloc
        simp [hloc, Loc.maxLocals] at hplace
    | _ => trivial
  · intro hmeets
    apply (engineMachine P).meets_of_meets (I := fun t => t.CountsWell P)
    · intro t act h hgoes
      exact h.next act hgoes
    · intro t act h hgoes
      cases act with
      | thread o =>
        intro hplace
        refine ⟨h.counts o hplace, fun l c hloc hpending => ?_,
          (Thread.ends_iff_goesOn o).mpr hgoes⟩
        obtain ⟨e, loc⟩ := t
        obtain rfl : loc = .maxConfig l := hloc
        exact Thread.stepMaxConfig_applies l hpending
      | _ => trivial
    · exact Thread.CountsWell.start waiter clock
    · exact hmeets

/-- A MAX run, and in it a configuration without a key or button, up to the next call. -/
def unsetInMax : List Act :=
  Act.post (.setConfig { maxMode := true }) ++ Act.steps 3 ++ Act.post (.startRun {} 1) ++
    Act.steps 4 ++ Act.post (.setConfig { maxMode := true, action := { chord := {} } }) ++
    Act.steps 6

/-- The next call counts eight actions and passes nothing. -/
theorem unsetInMax_counts : ¬ ∀ acts : List Act,
    (engineMachine .tenMegahertz).Meets (Thread.MaxStep .tenMegahertz)
      (Thread.start .tenMegahertz {} 1000000000) acts := by
  intro hall
  have hrun := hall (unsetInMax ++ [.thread {}])
  rw [Machine.meets_append] at hrun
  obtain ⟨⟨n, hcalls⟩, -⟩ := hrun.2.1 (by decide +kernel)
  have hrecorded := hcalls.recorded
  have hn : n ≠ 0 := by
    rintro rfl
    exact absurd hrecorded (by decide +kernel)
  exact absurd (hcalls.sent hn).1 (by decide +kernel)

end InfinityClicker
