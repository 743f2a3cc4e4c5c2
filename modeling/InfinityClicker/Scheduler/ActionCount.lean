import InfinityClicker.Scheduler.ConfigUpdates
import InfinityClicker.Scheduler.Grid
import InfinityClicker.Scheduler.NothingHeld

namespace InfinityClicker

open Machines

/-!
# Exact action counts

A run with a limit counts its actions down in `run_.remaining`: by batches of a timed run, by
calls of a MAX run, up again by presses in Burst mode, across a switch from one loop to the other.

* `Tally` — what is counted beside a run: its limit, the increments, the actions whose first and
  whose last inputs went to `SendInput`;
* `Thread.Placed` — what the locals of a place say: the boundary places stand between actions,
  and a MAX batch is the program in use, `B` times over;
* `Thread.Counts` — a step of a run waits, or fires a timed step, or makes a MAX call;
* `Thread.Balanced` — what is left and what is finished make up the limit;
* `exact_action_counts` — a run never sends more than its limit, and one that has used it up has
  sent exactly that many.
-/

/-! ### The counter -/

/-- The increment of a press accepted in a run. -/
def extensionOf (m : ModeParams) : Command → ℕ
  | .triggerDown _ =>
    if (decideOnTriggerDown m true).kind = .extend then
      (decideOnTriggerDown m true).extendBy.toNat
    else 0
  | _ => 0

/-- The increments of a list of commands. -/
def extensionsOf (m : ModeParams) (cs : List Command) : ℕ := (cs.map (extensionOf m)).sum

/-- No commands add nothing. -/
@[simp] theorem extensionsOf_nil (m : ModeParams) : extensionsOf m [] = 0 := rfl

/-- The increments of a list, command by command. -/
@[simp] theorem extensionsOf_cons (m : ModeParams) (c : Command) (cs : List Command) :
    extensionsOf m (c :: cs) = extensionOf m c + extensionsOf m cs := rfl

/-- Below this a counter is no `kUnlimited` and does not wrap. -/
theorem ne_kUnlimited {x : BitVec 64} (h : x.toNat < 2 ^ 64 - 1) : x ≠ kUnlimited := by
  intro hx
  rw [hx] at h
  exact absurd h (by decide)

namespace Engine

variable (P : Platform) (e : Engine)

/-- A command during a run adds its increment to what remains. -/
theorem runCommand_remaining (c : Command)
    (h : e.run.remaining.toNat + extensionOf e.cfg.mode c < 2 ^ 64 - 1) :
    (e.runCommand c).run.remaining.toNat =
      e.run.remaining.toNat + extensionOf e.cfg.mode c := by
  cases c with
  | triggerDown qpc =>
    have hne : e.run.remaining ≠ kUnlimited := ne_kUnlimited (by omega)
    simp only [extensionOf] at h ⊢
    simp only [runCommand]
    split
    · next hstop => simp [hstop]
    · split
      · next hextend =>
        rw [if_pos hextend.1] at h ⊢
        show (e.run.remaining + (decideOnTriggerDown e.cfg.mode true).extendBy).toNat = _
        rw [BitVec.toNat_add]
        omega
      · next hno =>
        have hkind : (decideOnTriggerDown e.cfg.mode true).kind ≠ .extend :=
          fun hk => hno ⟨hk, hne⟩
        rw [if_neg hkind]
        rfl
  | triggerUp qpc =>
    simp only [runCommand]
    split <;> rfl
  | arm on => cases on <;> rfl
  | _ => rfl

/-- The commands of a batch add their increments, up to a `Quit`. -/
theorem runCommands_remaining (cs : List Command)
    (h : e.run.remaining.toNat + extensionsOf e.cfg.mode (handled cs) < 2 ^ 64 - 1) :
    (e.runCommands cs).run.remaining.toNat =
      e.run.remaining.toNat + extensionsOf e.cfg.mode (handled cs) := by
  fun_induction runCommands e cs with
  | case1 e => rfl
  | case2 e => rfl
  | case3 e c cs hquit ih =>
    rw [handled_cons hquit, extensionsOf_cons] at h ⊢
    have hone := e.runCommand_remaining c (by omega)
    have hcfg : (e.runCommand c).cfg = e.cfg := (e.runCommand_frame c).2.1
    rw [hcfg, hone] at ih
    rw [ih (by omega)]
    omega

/-- **The poll adds the increments of what it consumes.** -/
theorem poll_remaining
    (h : e.run.remaining.toNat + extensionsOf e.cfg.mode (commandsOf e.poll.2.1) < 2 ^ 64 - 1) :
    e.poll.1.run.remaining.toNat =
      e.run.remaining.toNat + extensionsOf e.cfg.mode (commandsOf e.poll.2.1) := by
  unfold poll at h ⊢
  split
  · next hflag =>
    rw [if_pos hflag] at h
    rw [commandsOf_consumed] at h ⊢
    exact e.drained.runCommands_remaining e.queue h
  · rfl

/-- What an action uses up is taken off what remains. -/
theorem useUp_remaining {n : ℕ} (hn : n ≤ e.run.remaining.toNat)
    (h : e.run.remaining.toNat < 2 ^ 64 - 1) :
    (e.useUp n).run.remaining.toNat + n = e.run.remaining.toNat := by
  unfold useUp
  rw [if_pos (ne_kUnlimited h)]
  show (e.run.remaining - BitVec.ofNat 64 n).toNat + n = _
  rw [BitVec.toNat_sub, BitVec.toNat_ofNat]
  omega

/-- A batch of a timed run is one of the actions that remain. -/
theorem batchSize_le (l : TimedLocals) (fire : ℤ) (h : e.run.remaining ≠ 0) :
    e.batchSize l fire ≤ e.run.remaining.toNat := by
  have hpos : 0 < e.run.remaining.toNat := by
    rw [Nat.pos_iff_ne_zero]
    intro hz
    exact h (BitVec.eq_of_toNat_eq hz)
  unfold batchSize
  split
  · have hgrow := growBatch_le l.tl fire e.run.endQpc
      (Min.min kMaxCatchUpBatch e.run.remaining.toNat) kMaxCatchUpBatch 1
    omega
  · omega

end Engine

/-! ### What is counted -/

/-- What is counted beside a run: its limit, the increments accepted in it, and the actions whose
    first and whose last inputs were passed to `SendInput`. -/
structure Tally where
  limit : ℕ
  extended : ℕ := 0
  started : ℕ := 0
  finished : ℕ := 0
  /-- The programs were valid at every step. -/
  valid : Bool := true
deriving DecidableEq, Repr

/-- The inputs of the step `n` of a program. -/
def ActionProgram.stepSize (p : ActionProgram) (n : ℕ) : ℕ :=
  (p.steps[n]?.map ActionStep.count).getD 0

namespace Thread

variable (t : Thread)

/-- The actions a call starts: those whose first step it carries. -/
def starts (c : SendCall) : ℕ :=
  match t.loc with
  | .timedAct l => if l.step = 0 then c.events.length / t.e.prog.stepSize 0 else 0
  | .maxSend _ _ => c.events.length / t.e.maxProg.inputsPerAction
  | _ => 0

/-- The actions a call finishes: those whose last step it carries. -/
def finishes (c : SendCall) : ℕ :=
  match t.loc with
  | .timedAct l =>
    if l.step + 1 = t.e.prog.steps.length then c.events.length / t.e.prog.stepSize l.step else 0
  | .maxSend _ _ => c.events.length / t.e.maxProg.inputsPerAction
  | _ => 0

/-- The programs in use are valid. -/
def valid : Bool := t.e.prog.ok && t.e.maxProg.ok

end Thread

/-- The tally after a step of a run with its events. -/
def Tally.counted (r : Tally) (t : Thread) (events : List Event) : Tally :=
  { limit := r.limit
    extended := r.extended + extensionsOf t.e.cfg.mode (commandsOf events)
    started := r.started + ((sentOf events).map t.starts).sum
    finished := r.finished + ((sentOf events).map t.finishes).sum
    valid := r.valid && t.valid }

/-- The tally after a step with its events; a run that starts has a new one. -/
def Tally.next (t : Thread) (r : Option Tally) (act : Act) (events : List Event) :
    Option Tally :=
  match act with
  | .thread _ =>
    if t.loc.inRun then r.map fun r => r.counted t events
    else
      match t.loc with
      | .commands _ b =>
        if actionsOf events = [] then r else some { limit := b.lim.maxActions.toNat }
      | _ => r
  | _ => r

/-- The engine with the tally of its latest run. -/
def tallyMachine (P : Platform) : Machine (Thread × Option Tally) Act Event :=
  (engineMachine P).watch Tally.next

/-! ### Places -/

namespace Loc

/-- An action is under way. -/
def underway : Loc → ℕ
  | .timed l | .timedAct l => if l.step = 0 then 0 else 1
  | _ => 0

/-- Here an action remains to be sent or finished. -/
def needs : Loc → Bool
  | .timed l => l.step != 0
  | .timedLate _ _ | .timedAct _ | .maxPause _ _ | .maxSend _ _ => true
  | _ => false

/-- At most one action is under way. -/
theorem underway_le (loc : Loc) : loc.underway ≤ 1 := by
  cases loc <;> simp [underway] <;> split <;> omega

/-- An action under way still has to be finished. -/
theorem needs_of_underway {loc : Loc} (h : loc.underway ≠ 0) : loc.needs = true := by
  cases loc <;> simp_all [underway, needs]

end Loc

/-- The batch of a MAX run is the program, `B` times over. -/
structure MaxLocals.Batches (l : MaxLocals) (p : ActionProgram) : Prop where
  batch : l.batch = (List.replicate l.B p.flat).flatten
  per : l.per = p.inputsPerAction
  pos : 1 ≤ l.B

/-- What the locals of a place say. -/
def Thread.Placed (t : Thread) : Prop :=
  match t.loc with
  | .timedConfig l | .timedGate l | .timedPause l | .timedLate l _ => l.step = 0
  | .max l | .maxConfig l | .maxGate l | .maxPause l _ | .maxSend l _ => l.Batches t.e.maxProg
  | _ => True

/-! ### Steps that send nothing -/

/-- A step of a run at `loc` that sends nothing: what remains grows by the increments of what is
    consumed, and no action starts or ends. -/
structure Engine.WaitsAt (e : Engine) (loc : Loc) (x : Thread × List Event) : Prop where
  remaining : e.run.remaining.toNat + extensionsOf e.cfg.mode (commandsOf x.2) < 2 ^ 64 - 1 →
    x.1.e.run.remaining.toNat =
      e.run.remaining.toNat + extensionsOf e.cfg.mode (commandsOf x.2)
  loc : x.1.loc = .ending ∨ x.1.loc.inRun = true ∧ x.1.loc.underway = loc.underway ∧
    (x.1.loc.needs = true → loc.needs = true ∨ e.run.remaining ≠ 0)
  sent : sentOf x.2 = []
  placed : x.1.Placed

namespace Engine

variable {P : Platform} {e : Engine} {o : Obs}

/-- A step that consumes nothing and keeps the counter. -/
theorem WaitsAt.of_same {loc : Loc} {x : Thread × List Event}
    (hrun : x.1.e.run = e.run) (hquiet : commandsOf x.2 = [] ∧ sentOf x.2 = [])
    (hloc : x.1.loc = .ending ∨ x.1.loc.inRun = true ∧ x.1.loc.underway = loc.underway ∧
      (x.1.loc.needs = true → loc.needs = true ∨ e.run.remaining ≠ 0))
    (hplaced : x.1.Placed) : e.WaitsAt loc x := by
  refine ⟨fun _ => ?_, hloc, hquiet.2, hplaced⟩
  rw [hrun, hquiet.1]
  rfl

/-- A step that ends the run. -/
theorem WaitsAt.of_ending {loc : Loc} {e' : Engine} {events : List Event} (hrun : e'.run = e.run)
    (hquiet : commandsOf events = [] ∧ sentOf events = []) :
    e.WaitsAt loc (({ e := e', loc := .ending } : Thread), events) :=
  of_same hrun hquiet (.inl rfl) trivial

/-- A poll and entering a pause send nothing. -/
theorem poll_sent (e : Engine) : sentOf e.poll.2.1 = [] := by
  apply sentOf_eq_nil
  intro ev hev c hc
  obtain ⟨c', rfl⟩ := poll_emits e ev hev
  exact absurd hc (by simp)

/-- Going into a pause consumes nothing and sends nothing. -/
theorem enterPause_quiet (e : Engine) (why : PauseReason) (now : ℤ) (isOpen : Bool) :
    commandsOf (.looked now isOpen :: (e.enterPause P why o).2) = [] ∧
      sentOf (.looked now isOpen :: (e.enterPause P why o).2) = [] := by
  refine ⟨by simp [enterPause], sentOf_eq_nil ?_⟩
  intro ev hev c hc
  subst hc
  rcases List.mem_cons.mp hev with h | h
  · exact absurd h (by simp)
  · obtain ⟨c', h'⟩ := releaseEvents_emits e _ _ _ h
    exact absurd h' (by simp)

/-- The batch that is built for MAX is the program repeated. -/
theorem buildBatch_batches (l : MaxLocals) (hbatch : l.batch = e.buildBatch.1)
    (hper : l.per = e.buildBatch.2.1) (hB : l.B = e.buildBatch.2.2) : l.Batches e.maxProg := by
  refine ⟨?_, hper, ?_⟩
  · rw [hbatch, hB]
    rfl
  · rw [hB]
    exact Nat.le_max_left 1 _

/-- Entering MAX sends nothing. -/
theorem enterMax_waits {loc : Loc} {e' : Engine} (q : ℤ) (hrun : e'.run = e.run)
    (hunder : loc.underway = 0) : e.WaitsAt loc (e'.enterMax q o) := by
  unfold enterMax
  split
  · exact WaitsAt.of_ending hrun ⟨rfl, rfl⟩
  · refine WaitsAt.of_same hrun ⟨rfl, rfl⟩ (.inr ⟨rfl, hunder.symm, fun h => ?_⟩)
      (buildBatch_batches _ rfl rfl rfl)
    exact absurd h (by simp [Loc.needs])

/-- Polling at the head of a slot sends nothing. -/
theorem stepTimed_waits (l : TimedLocals) : e.WaitsAt (.timed l) (e.stepTimed l) := by
  have hpoll := e.poll_remaining
  unfold stepTimed
  dsimp only
  split
  · exact ⟨hpoll, .inl rfl, e.poll_sent, trivial⟩
  · split
    · next hzero =>
      refine ⟨hpoll, .inr ⟨rfl, ?_, fun h => absurd h (by simp [Loc.needs])⟩, e.poll_sent, hzero⟩
      simp [Loc.underway, hzero]
    · next hstep =>
      refine ⟨hpoll, .inr ⟨rfl, rfl, fun _ => .inl ?_⟩, e.poll_sent, trivial⟩
      simp [Loc.needs, hstep]

/-- Taking over a configuration in a slot sends nothing. -/
theorem stepTimedConfig_waits (l : TimedLocals) (hplaced : l.step = 0) :
    e.WaitsAt (.timedConfig l) (e.stepTimedConfig P l o) := by
  have hno : ∀ l', (Loc.timedGate l').needs = true → (Loc.timedConfig l).needs = true ∨
      e.run.remaining ≠ 0 := fun _ h => absurd h (by simp [Loc.needs])
  unfold stepTimedConfig
  split
  · exact WaitsAt.of_same rfl ⟨rfl, rfl⟩ (.inr ⟨rfl, rfl, hno l⟩) hplaced
  · dsimp only
    split
    · exact enterMax_waits 0 rfl rfl
    · split
      · exact WaitsAt.of_same rfl ⟨rfl, rfl⟩ (.inr ⟨rfl, rfl, hno _⟩) hplaced
      · exact WaitsAt.of_same rfl ⟨rfl, rfl⟩ (.inr ⟨rfl, rfl, hno l⟩) hplaced

/-- The gate of a slot sends nothing. -/
theorem stepTimedGate_waits (l : TimedLocals) (hplaced : l.step = 0) :
    e.WaitsAt (.timedGate l) (e.stepTimedGate P l o) := by
  unfold stepTimedGate
  split
  · exact WaitsAt.of_ending rfl ⟨rfl, rfl⟩
  · next hgo =>
    rw [not_or] at hgo
    dsimp only
    split
    · split
      · exact WaitsAt.of_same rfl ⟨rfl, rfl⟩ (.inr ⟨rfl, rfl, fun _ => .inr hgo.2⟩) hplaced
      · next why _ =>
        obtain ⟨-, -, -, -, hrun, -⟩ := (e.tick (o.dt 0)).enterPause_frame P why o
        refine WaitsAt.of_same hrun (enterPause_quiet _ why _ _) (.inr ⟨rfl, rfl, ?_⟩) hplaced
        exact fun h => absurd h (by simp [Loc.needs])
    · exact WaitsAt.of_same rfl ⟨rfl, rfl⟩ (.inr ⟨rfl, rfl, fun _ => .inr hgo.2⟩) hplaced

/-- Skipping late slots sends nothing. -/
theorem stepTimedLate_waits (l : TimedLocals) (now : ℤ) (hplaced : l.step = 0) :
    e.WaitsAt (.timedLate l now) (e.stepTimedLate P l now) := by
  unfold stepTimedLate
  dsimp only
  split
  · exact WaitsAt.of_ending rfl ⟨rfl, rfl⟩
  · refine WaitsAt.of_same rfl ⟨rfl, rfl⟩ (.inr ⟨rfl, ?_, fun _ => .inl rfl⟩) trivial
    simp [Loc.underway, hplaced]

/-- Polling in MAX sends nothing. -/
theorem stepMax_waits (l : MaxLocals) (hplaced : l.Batches e.maxProg) :
    e.WaitsAt (.max l) (e.stepMax l) := by
  have hpoll := e.poll_remaining
  unfold stepMax
  dsimp only
  split
  · exact ⟨hpoll, .inl rfl, e.poll_sent, trivial⟩
  · refine ⟨hpoll, .inr ⟨rfl, rfl, fun h => absurd h (by simp [Loc.needs])⟩, e.poll_sent, ?_⟩
    show l.Batches e.poll.1.maxProg
    rw [e.poll_frame.2.2.2.1]
    exact hplaced

/-- Taking over a configuration in MAX sends nothing. -/
theorem stepMaxConfig_waits (l : MaxLocals) (hplaced : l.Batches e.maxProg) :
    e.WaitsAt (.maxConfig l) (e.stepMaxConfig P l) := by
  have hno : ∀ l', (Loc.maxGate l').needs = true → (Loc.maxConfig l).needs = true ∨
      e.run.remaining ≠ 0 := fun _ h => absurd h (by simp [Loc.needs])
  unfold stepMaxConfig
  split
  · exact WaitsAt.of_same rfl ⟨rfl, rfl⟩ (.inr ⟨rfl, rfl, hno l⟩) hplaced
  · dsimp only
    split
    · exact WaitsAt.of_ending rfl ⟨rfl, rfl⟩
    · exact WaitsAt.of_same rfl ⟨rfl, rfl⟩ (.inr ⟨rfl, rfl, hno _⟩)
        (buildBatch_batches _ rfl rfl rfl)

/-- The gate of MAX sends nothing. -/
theorem stepMaxGate_waits (l : MaxLocals) (hplaced : l.Batches e.maxProg) :
    e.WaitsAt (.maxGate l) (e.stepMaxGate P l o) := by
  have hbatches : ∀ (l' : MaxLocals) (p : ActionProgram), l'.batch = l.batch → l'.per = l.per →
      l'.B = l.B → p = e.maxProg → l'.Batches p := by
    intro l' p hbatch hper hB hp
    subst hp
    exact ⟨by rw [hbatch, hB]; exact hplaced.batch, hper.trans hplaced.per,
      by rw [hB]; exact hplaced.pos⟩
  unfold stepMaxGate
  split
  · exact WaitsAt.of_ending rfl ⟨rfl, rfl⟩
  · next hgo =>
    dsimp only
    split
    · exact WaitsAt.of_ending rfl ⟨rfl, rfl⟩
    · split
      · split
        · exact WaitsAt.of_same rfl ⟨rfl, rfl⟩ (.inr ⟨rfl, rfl, fun _ => .inr hgo⟩)
            (hbatches _ _ rfl rfl rfl rfl)
        · next why _ =>
          obtain ⟨-, -, hmax, -, hrun, -⟩ := (e.tick (o.dt 0)).enterPause_frame P why o
          exact WaitsAt.of_same hrun (enterPause_quiet _ why _ _)
            (.inr ⟨rfl, rfl, fun _ => .inr hgo⟩) (hbatches _ _ rfl rfl rfl hmax)
      · exact WaitsAt.of_same rfl ⟨rfl, rfl⟩ (.inr ⟨rfl, rfl, fun _ => .inr hgo⟩) hplaced

/-- A round of a pause, whatever its two ways on do beside their own places. -/
theorem stepPause_waits {loc : Loc} {resume stay : Engine → Thread × List Event}
    (hgo : ∀ e' : Engine, e'.maxProg = e.maxProg → ∀ go, go = resume ∨ go = stay →
      (go e').1.e.run = e'.run ∧ (commandsOf (go e').2 = [] ∧ sentOf (go e').2 = []) ∧
        (go e').1.loc.inRun = true ∧
        (go e').1.loc.underway = loc.underway ∧
        ((go e').1.loc.needs = true → loc.needs = true) ∧ (go e').1.Placed) :
    e.WaitsAt loc (e.stepPause o resume stay) := by
  have hsent := (e.woken o).poll_sent
  have hpoll : e.run.remaining.toNat +
        extensionsOf e.cfg.mode (commandsOf (e.woken o).poll.2.1) < 2 ^ 64 - 1 →
      (e.woken o).poll.1.run.remaining.toNat = e.run.remaining.toNat +
        extensionsOf e.cfg.mode (commandsOf (e.woken o).poll.2.1) :=
    (e.woken o).poll_remaining
  have hmax : (e.woken o).poll.1.maxProg = e.maxProg := (e.woken o).poll_frame.2.2.2.1
  unfold stepPause
  dsimp only
  split
  · exact ⟨hpoll, .inl rfl, hsent, trivial⟩
  · split
    · obtain ⟨hrun, ⟨hcommands, hquiet⟩, hin, hunder, hneeds, hplaced⟩ := hgo
        { (e.woken o).poll.1 with pause := .none, state := .running } hmax resume (.inl rfl)
      refine ⟨?_, .inr ⟨hin, hunder, fun h => .inl (hneeds h)⟩, ?_, hplaced⟩
      · rw [hrun]
        simpa only [commandsOf_append, commandsOf_cons, hcommands, Event.command?,
          Option.toList_none, List.append_nil] using hpoll
      · rw [sentOf_append, hsent]
        exact hquiet
    · next why _ =>
      obtain ⟨hrun, ⟨hcommands, hquiet⟩, hin, hunder, hneeds, hplaced⟩ := hgo
        { (e.woken o).poll.1 with pause := why } hmax stay (.inr rfl)
      refine ⟨?_, .inr ⟨hin, hunder, fun h => .inl (hneeds h)⟩, ?_, hplaced⟩
      · rw [hrun]
        simpa only [commandsOf_append, commandsOf_cons, hcommands, Event.command?,
          Option.toList_none, List.append_nil] using hpoll
      · rw [sentOf_append, hsent]
        exact hquiet

/-- Publishing does not touch the run. -/
theorem publish_run (now : ℤ) (force : Bool) : (e.publish P now force).run = e.run := by simp

/-- A pause in a slot sends nothing but the release. -/
theorem stepTimedPause_waits (l : TimedLocals) (hplaced : l.step = 0) :
    e.WaitsAt (.timedPause l) (e.stepTimedPause P l o) := by
  apply stepPause_waits
  rintro e' - go (rfl | rfl)
  · refine ⟨rfl, ⟨rfl, rfl⟩, rfl, ?_, fun h => ?_, trivial⟩
    · simp [Loc.underway, hplaced]
    · simp [Loc.needs, hplaced] at h
  · exact ⟨publish_run _ _, ⟨rfl, rfl⟩, rfl, rfl, id, hplaced⟩

/-- A pause in MAX sends nothing but the release. -/
theorem stepMaxPause_waits (l : MaxLocals) (now : ℤ) (hplaced : l.Batches e.maxProg) :
    e.WaitsAt (.maxPause l now) (e.stepMaxPause P l now o) := by
  apply stepPause_waits
  rintro e' hmax go (rfl | rfl)
  · refine ⟨rfl, ⟨rfl, rfl⟩, rfl, rfl, fun _ => rfl, ?_⟩
    show l.Batches e'.maxProg
    rw [hmax]
    exact hplaced
  · refine ⟨publish_run _ _, ⟨rfl, rfl⟩, rfl, rfl, id, ?_⟩
    show l.Batches ((e'.tick (o.dt 1)).publish P (e'.tick (o.dt 1)).clock false).maxProg
    rw [((e'.tick (o.dt 1)).publish_frame P _ false).2.2.2.1]
    show l.Batches e'.maxProg
    rw [hmax]
    exact hplaced

end Engine

/-! ### Steps that send -/

/-- A step of a run that passes inputs of actions to `SendInput`: an action under way after it
    was under way before it or starts in it, and what it finishes is taken off what remains. -/
structure Thread.Fires (t : Thread) (x : Thread × List Event) : Prop where
  needs : t.loc.needs = true
  commands : commandsOf x.2 = []
  loc : x.1.loc.inRun = true
  balance : x.1.loc.underway + ((sentOf x.2).map t.finishes).sum =
    t.loc.underway + ((sentOf x.2).map t.starts).sum
  remaining : t.e.run.remaining.toNat < 2 ^ 64 - 1 → t.e.run.remaining ≠ 0 →
    x.1.e.run.remaining.toNat + ((sentOf x.2).map t.finishes).sum = t.e.run.remaining.toNat ∧
      (x.1.loc.needs = true → x.1.e.run.remaining ≠ 0)

/-- A send of at least one input is one call. -/
theorem InputSender.send_calls (s : InputSender) {ins : List INPUT} (h : ins ≠ [])
    (r : SendResult) : (s.send ins r).calls = [sendInput ins r] := by
  rw [send, if_neg h]

/-- A step of a compiled program is never empty. -/
theorem Compiled.inputs_ne_nil {P : Platform} {p : ActionProgram} (h : Compiled P p)
    {st : ActionStep} (hst : st ∈ p.steps) : st.inputs ≠ [] := by
  obtain ⟨a, rfl⟩ := h
  exact compileAction_inputs_ne_nil P a kTagInfClick st hst

/-- A valid program has inputs. -/
theorem Compiled.per_pos {P : Platform} {p : ActionProgram} (h : Compiled P p)
    (hok : p.ok = true) : 0 < p.inputsPerAction := by
  rw [h.per_eq, h.flat_eq, List.length_pos_iff]
  cases hsteps : p.steps with
  | nil => simp [ActionProgram.ok, hsteps] at hok
  | cons st sts =>
    have hst : st ∈ p.steps := by simp [hsteps]
    have hne := h.inputs_ne_nil hst
    simp [hne]

namespace Engine

variable {P : Platform} {e : Engine} {o : Obs}

/-- Counting off changes what remains, unless there is no limit. -/
theorem useUp_run (e : Engine) (n : ℕ) :
    (e.useUp n).run =
      if e.run.remaining ≠ kUnlimited then
        { e.run with remaining := e.run.remaining - BitVec.ofNat 64 n }
      else e.run := by
  unfold useUp
  split <;> rfl

/-- What remains depends on the run's controls alone. -/
theorem useUp_run_congr {e e' : Engine} (h : e'.run = e.run) (n : ℕ) :
    (e'.useUp n).run = (e.useUp n).run := by
  rw [useUp_run, useUp_run, h]

/-- Only the last step of an action takes something off what remains. -/
theorem fireStep_run (l : TimedLocals) (st : ActionStep) :
    (e.fireStep P l st o).1.e.run =
      if l.step + 1 = e.prog.steps.length then
        (e.useUp (e.batchSize l (e.clock + o.dt 1))).run
      else e.run := by
  unfold fireStep
  dsimp only
  rw [(publishDue_frame P _ _).2.2.2.2.2.2.1]
  by_cases hlast : l.step + 1 = e.prog.steps.length
  · rw [if_pos (by simpa using hlast), if_pos hlast]
    apply useUp_run_congr
    rw [(onStarted_frame P _ _ _ _).2.2.2.2.2.2.1]
    rfl
  · rw [if_neg (by simpa using hlast), if_neg hlast, (onStarted_frame P _ _ _ _).2.2.2.2.2.2.1]
    rfl

/-- What a slot sends is one call for its step. -/
theorem sentOf_fireStep (l : TimedLocals) (st : ActionStep) :
    sentOf (e.fireStep P l st o).2 = (e.sender.send (e.stepInputs l st o) o.sent).calls := by
  rw [fireStep_events]
  split
  · exact sentOf_sent _
  · exact sentOf_sent _

/-- Sending in a slot takes no command. -/
theorem commandsOf_fireStep (l : TimedLocals) (st : ActionStep) :
    commandsOf (e.fireStep P l st o).2 = [] := by
  rw [fireStep_events]
  split <;> simp

/-- **A timed step** starts and finishes the actions of its batch. -/
theorem fireStep_fires {e' : Engine} (hprog : Compiled P e.prog) (hsame : e.WaitedTo e')
    (l : TimedLocals) {st : ActionStep} (hst : e.prog.steps[l.step]? = some st) :
    Thread.Fires ⟨e, .timedAct l⟩ (e'.fireStep P l st o) := by
  have hloc := e'.fireStep_loc P l st o
  have hrun := fireStep_run (P := P) (e := e') (o := o) l st
  generalize hn : e'.batchSize l (e'.clock + o.dt 1) = n at hrun
  have hnpos : 1 ≤ n := hn ▸ (e'.batchSize_spec l _).1
  have hinputs := hprog.inputs_ne_nil (List.mem_of_getElem? hst)
  -- One call with the inputs of the step, `n` times over.
  have hlength : (e'.stepInputs l st o).length = n * st.count := by
    simp [stepInputs, hn, ActionStep.count]
  have hcount : 0 < st.count := List.length_pos_iff.mpr hinputs
  have hone : sentOf (e'.fireStep P l st o).2 = [sendInput (e'.stepInputs l st o) o.sent] := by
    rw [sentOf_fireStep]
    apply InputSender.send_calls
    apply List.ne_nil_of_length_pos
    rw [hlength]
    exact Nat.mul_pos hnpos hcount
  have hsize : e.prog.stepSize l.step = st.count := by simp [ActionProgram.stepSize, hst]
  have hdiv : (e'.stepInputs l st o).length / st.count = n := by
    rw [hlength]
    exact Nat.mul_div_cancel n hcount
  have hstarts : ((sentOf (e'.fireStep P l st o).2).map
      (Thread.starts ⟨e, .timedAct l⟩)).sum = if l.step = 0 then n else 0 := by
    rw [hone]
    simp only [List.map_cons, List.map_nil, List.sum_cons, List.sum_nil, Thread.starts, sendInput]
    split
    · next hzero =>
      rw [hzero] at hsize
      rw [hsize, hdiv, Nat.add_zero]
    · rfl
  have hfinishes : ((sentOf (e'.fireStep P l st o).2).map
      (Thread.finishes ⟨e, .timedAct l⟩)).sum =
        if l.step + 1 = e.prog.steps.length then n else 0 := by
    rw [hone]
    simp only [List.map_cons, List.map_nil, List.sum_cons, List.sum_nil, Thread.finishes,
      sendInput, hsize, hdiv, add_zero]
  -- Only a program of one step goes out several times at once.
  have hsingle : ¬ (l.step = 0 ∧ e.prog.steps.length = 1) → n = 1 := by
    intro hmore
    rw [← hn]
    apply batchSize_eq_one
    rwa [hsame.prog]
  rw [hsame.prog] at hrun
  refine ⟨rfl, commandsOf_fireStep l st, by rw [hloc]; rfl, ?_, ?_⟩
  · rw [hstarts, hfinishes, hloc]
    show (if (e'.stepLocals l o).step = 0 then 0 else 1) + _ = (if l.step = 0 then 0 else 1) + _
    have hstep : (e'.stepLocals l o).step =
        if l.step + 1 = e.prog.steps.length then 0 else l.step + 1 := by
      rw [stepLocals, hsame.prog]
    rw [hstep]
    have hmiddle : l.step ≠ 0 → n = 1 := fun hstep => hsingle fun h => hstep h.1
    have hmore : l.step + 1 ≠ e.prog.steps.length → n = 1 := fun hlast =>
      hsingle fun h => hlast (by omega)
    by_cases hlast : l.step + 1 = e.prog.steps.length
    · rw [if_pos hlast, if_pos hlast, if_pos rfl]
      split <;> omega
    · rw [if_neg hlast, if_neg hlast, if_neg (by omega)]
      split <;> omega
  · intro hbound hne
    rw [hfinishes, hrun, hloc]
    have hle : n ≤ e.run.remaining.toNat := by
      rw [← hn, ← hsame.run]
      apply batchSize_le
      rw [hsame.run]
      exact hne
    by_cases hlast : l.step + 1 = e.prog.steps.length
    · rw [if_pos hlast, if_pos hlast, useUp_run_congr hsame.run]
      refine ⟨e.useUp_remaining hle hbound, fun hneeds => ?_⟩
      simp [Loc.needs, stepLocals, hsame.prog, hlast] at hneeds
    · rw [if_neg hlast, if_neg hlast, hsame.run]
      exact ⟨rfl, fun _ => hne⟩

/-- The wait for a timed step sends nothing until it is over. -/
theorem stepTimedAct_counts (hprog : Compiled P e.prog) (l : TimedLocals) :
    e.WaitsAt (.timedAct l) (e.stepTimedAct P l o) ∨
      Thread.Fires ⟨e, .timedAct l⟩ (e.stepTimedAct P l o) := by
  rcases e.stepTimedAct_cases P l o with ⟨-, heq⟩ |
    ⟨st, hst, heq | ⟨e', hsame, heq⟩ | ⟨e', hsame, -, heq⟩⟩
  · rw [heq]
    exact .inl (WaitsAt.of_ending rfl ⟨rfl, rfl⟩)
  · rw [heq]
    exact .inl (WaitsAt.of_same rfl ⟨rfl, rfl⟩ (.inr ⟨rfl, rfl, fun _ => .inl rfl⟩) trivial)
  · rw [heq]
    exact .inl (WaitsAt.of_same hsame.run ⟨rfl, rfl⟩ (.inr ⟨rfl, rfl, fun _ => .inl rfl⟩) trivial)
  · rw [heq]
    exact .inr (fireStep_fires hprog hsame l hst)

/-- A call of a MAX run takes its actions off what remains. -/
theorem fireMax_run (l : MaxLocals) :
    (e.fireMax P l o).1.e.run = (e.useUp (e.maxActions l)).run := by
  unfold fireMax
  dsimp only
  rw [(publishDue_frame P _ _).2.2.2.2.2.2.1]
  apply useUp_run_congr
  split
  · rw [(recordTriggerLatency_frame P _ _ _).2.2.2.2.2.2.1]
    rfl
  · rfl

/-- **A MAX call** starts and finishes its actions. -/
theorem fireMax_fires (l : MaxLocals) (now : ℤ) (hplaced : l.Batches e.maxProg)
    (hmax : Compiled P e.maxProg) (hok : e.maxProg.ok = true)
    (hbound : e.run.remaining.toNat < 2 ^ 64 - 1) (hne : e.run.remaining ≠ 0) :
    Thread.Fires ⟨e, .maxSend l now⟩ (e.fireMax P l o) := by
  have hpos : 0 < e.run.remaining.toNat := by
    rw [Nat.pos_iff_ne_zero]
    exact fun hz => hne (BitVec.eq_of_toNat_eq hz)
  have hn : e.maxActions l = Min.min l.B e.run.remaining.toNat := by
    rw [maxActions, if_neg (ne_kUnlimited hbound)]
  have hBpos := hplaced.pos
  have hnpos : 1 ≤ e.maxActions l := by omega
  have hper : 0 < l.per := by
    rw [hplaced.per]
    exact hmax.per_pos hok
  -- The batch has room for the actions of the call.
  have hlength : (e.maxInputs l).length = e.maxActions l * l.per := by
    have hbatch : l.batch.length = l.B * l.per := by
      rw [hplaced.batch, hplaced.per, hmax.per_eq]
      simp
    have hle : e.maxActions l * l.per ≤ l.B * l.per := Nat.mul_le_mul_right _ (by omega)
    rw [maxInputs, List.length_take, hbatch]
    omega
  have hone : sentOf (e.fireMax P l o).2 = [sendInput (e.maxInputs l) o.sent] := by
    rw [fireMax_events, sentOf_sent]
    apply InputSender.send_calls
    apply List.ne_nil_of_length_pos
    rw [hlength]
    exact Nat.mul_pos hnpos hper
  have hdiv : (e.maxInputs l).length / e.maxProg.inputsPerAction = e.maxActions l := by
    rw [hlength, ← hplaced.per]
    exact Nat.mul_div_cancel _ hper
  have hstarts : ((sentOf (e.fireMax P l o).2).map
      (Thread.starts ⟨e, .maxSend l now⟩)).sum = e.maxActions l := by
    rw [hone]
    simpa [Thread.starts, sendInput] using hdiv
  have hfinishes : ((sentOf (e.fireMax P l o).2).map
      (Thread.finishes ⟨e, .maxSend l now⟩)).sum = e.maxActions l := by
    rw [hone]
    simpa [Thread.finishes, sendInput] using hdiv
  refine ⟨rfl, ?_, rfl, ?_, ?_⟩
  · rw [fireMax_events]
    exact commandsOf_sent _
  · rw [hstarts, hfinishes]
    rfl
  · intro _ _
    rw [hfinishes, fireMax_run]
    refine ⟨e.useUp_remaining (by omega) hbound, fun hneeds => ?_⟩
    exact absurd hneeds (by simp [fireMax_loc, Loc.needs])

/-- A send of MAX either waits or starts and finishes its batch. -/
theorem stepMaxSend_counts (l : MaxLocals) (now : ℤ) (hplaced : l.Batches e.maxProg)
    (hmax : Compiled P e.maxProg) (hok : e.maxProg.ok = true)
    (hbound : e.run.remaining.toNat < 2 ^ 64 - 1) (hne : e.run.remaining ≠ 0) :
    e.WaitsAt (.maxSend l now) (e.stepMaxSend P l now o) ∨
      Thread.Fires ⟨e, .maxSend l now⟩ (e.stepMaxSend P l now o) := by
  unfold stepMaxSend
  split
  · refine .inl (WaitsAt.of_same ?_ ⟨rfl, rfl⟩ (.inr ⟨rfl, rfl, fun h => ?_⟩) ?_)
    · exact (publishDue_frame P e now).2.2.2.2.2.2.1
    · exact absurd h (by simp [Loc.needs])
    · show MaxLocals.Batches _ (e.publishDue P now).maxProg
      rw [(publishDue_frame P e now).2.2.2.1]
      exact ⟨hplaced.batch, hplaced.per, hplaced.pos⟩
  · exact .inr (fireMax_fires l now hplaced hmax hok hbound hne)

/-- **The start of a run**: refused, or a run with its whole limit remaining. -/
theorem doRun_starts (lim : RunLimits) (q : ℤ) :
    (actionsOf (e.doRun P lim q o).2 = [] ∧ (e.doRun P lim q o).1.loc = .idle) ∨
      (actionsOf (e.doRun P lim q o).2 ≠ [] ∧
        (e.doRun P lim q o).1.e.run.remaining = lim.remaining ∧ (e.doRun P lim q o).1.Placed ∧
        ((e.doRun P lim q o).1.loc = .ending ∨ (e.doRun P lim q o).1.loc.inRun = true ∧
          (e.doRun P lim q o).1.loc.underway = 0 ∧ (e.doRun P lim q o).1.loc.needs = false)) := by
  unfold doRun
  split
  · exact .inl ⟨rfl, rfl⟩
  · refine .inr ?_
    dsimp only
    generalize hb : ((e.tick (o.dt 1)).beginRun P lim (e.tick (o.dt 1)).clock).publish P
      (e.tick (o.dt 1)).clock true = b
    have hrem : b.run.remaining = lim.remaining := by
      rw [← hb, publish_run]
      rfl
    split
    · have hwaits : b.WaitsAt .idle (b.enterMax q o) := enterMax_waits q rfl rfl
      obtain ⟨he, -, -⟩ := b.enterMax_spec q o
      refine ⟨by simp, by rw [he]; exact hrem, hwaits.placed, ?_⟩
      rcases hwaits.loc with hend | ⟨hin, hunder, -⟩
      · exact .inl hend
      · refine .inr ⟨hin, hunder, ?_⟩
        rcases (b.enterMax_spec q o).2.2 with hend | ⟨l, hl⟩
        · rw [hend]
          rfl
        · rw [hl]
          rfl
    · exact ⟨by simp, hrem, trivial, .inr ⟨rfl, rfl, rfl⟩⟩

end Engine

/-! ### Every step -/

namespace Thread

variable {P : Platform} {t : Thread}

/-- What the locals say is kept by every step. -/
theorem Placed.step (h : t.Placed) (o : Obs) : (t.step P o).1.Placed := by
  obtain ⟨e, loc⟩ := t
  cases loc with
  | idle =>
    simp only [Thread.step]
    split <;> trivial
  | commands cmds b =>
    cases cmds with
    | cons c cs => trivial
    | nil =>
      simp only [Thread.step, Engine.stepCommands]
      split
      · trivial
      · split
        · rcases Engine.doRun_starts (P := P) (o := o)
            (e := (e.tick (o.dt 0)).publish P (e.tick (o.dt 0)).clock true) b.lim b.trigQ
            with ⟨-, hloc⟩ | ⟨-, -, hplaced, -⟩
          · rw [Placed, hloc]
            trivial
          · exact hplaced
        · trivial
  | timed l => exact (Engine.stepTimed_waits l).placed
  | timedConfig l => exact (Engine.stepTimedConfig_waits l h).placed
  | timedGate l => exact (Engine.stepTimedGate_waits l h).placed
  | timedPause l => exact (Engine.stepTimedPause_waits l h).placed
  | timedLate l now => exact (Engine.stepTimedLate_waits l now h).placed
  -- Only firing reaches a new place, and its locals are at the step behind it.
  | timedAct l =>
    rcases e.stepTimedAct_cases P l o with ⟨-, heq⟩ | ⟨st, -, heq | ⟨e', -, heq⟩ | ⟨e', -, -, heq⟩⟩
    · simp only [Thread.step, heq]
      trivial
    · simp only [Thread.step, heq]
      trivial
    · simp only [Thread.step, heq]
      trivial
    · simp only [Thread.step, heq, Placed, Engine.fireStep_loc]
  | max l => exact (Engine.stepMax_waits l h).placed
  | maxConfig l => exact (Engine.stepMaxConfig_waits l h).placed
  | maxGate l => exact (Engine.stepMaxGate_waits l h).placed
  | maxPause l now => exact (Engine.stepMaxPause_waits l now h).placed
  -- Neither way of the send touches the program that the batch was built of.
  | maxSend l now =>
    have hbatches : ∀ p : ActionProgram, p = e.maxProg → l.Batches p := by
      rintro p rfl
      exact h
    simp only [Thread.step, Engine.stepMaxSend]
    split
    · have hb := hbatches _ (Engine.publishDue_frame P e now).2.2.2.1
      exact ⟨hb.batch, hb.per, hb.pos⟩
    · have hb := hbatches _ (e.fireMax_sends P l o).maxProg
      exact ⟨hb.batch, hb.per, hb.pos⟩
  | ending => trivial
  | done => trivial

/-- **A step of a run** sends nothing, or sends what its program says. -/
theorem step_counts (hplaced : t.Placed) (hbuilt : t.e.Built P) (hrun : t.loc.inRun = true)
    (hvalid : t.valid = true) (hbound : t.e.run.remaining.toNat < 2 ^ 64 - 1)
    (hneeds : t.loc.needs = true → t.e.run.remaining ≠ 0) (o : Obs) :
    t.e.WaitsAt t.loc (t.step P o) ∨ t.Fires (t.step P o) := by
  have hprog : Compiled P t.e.prog := hbuilt.prog ▸ (t.e.rebuildProgram_compiled P).1
  have hmax : Compiled P t.e.maxProg := hbuilt.maxProg ▸ (t.e.rebuildProgram_compiled P).2
  obtain ⟨e, loc⟩ := t
  -- All places but the two sends leave the counters of actions alone.
  cases loc with
  | timed l => exact .inl (Engine.stepTimed_waits l)
  | timedConfig l => exact .inl (Engine.stepTimedConfig_waits l hplaced)
  | timedGate l => exact .inl (Engine.stepTimedGate_waits l hplaced)
  | timedPause l => exact .inl (Engine.stepTimedPause_waits l hplaced)
  | timedLate l now => exact .inl (Engine.stepTimedLate_waits l now hplaced)
  | timedAct l => exact Engine.stepTimedAct_counts hprog l
  | max l => exact .inl (Engine.stepMax_waits l hplaced)
  | maxConfig l => exact .inl (Engine.stepMaxConfig_waits l hplaced)
  | maxGate l => exact .inl (Engine.stepMaxGate_waits l hplaced)
  | maxPause l now => exact .inl (Engine.stepMaxPause_waits l now hplaced)
  | maxSend l now =>
    have hok : e.maxProg.ok = true := by
      have hboth : e.prog.ok = true ∧ e.maxProg.ok = true := by simpa [valid] using hvalid
      exact hboth.2
    exact Engine.stepMaxSend_counts l now hplaced hmax hok hbound (hneeds rfl)
  | idle | commands cmds b | ending | done => exact absurd hrun (by simp [Loc.inRun])

end Thread

/-! ### The balance of a run -/

/-- What is finished and what remains make up the limit of the run with its increments. -/
structure Thread.Balanced (t : Thread) (r : Tally) : Prop where
  finished : r.finished ≤ r.started
  started : r.started ≤ r.limit + r.extended
  balance : t.loc = .ending ∨ t.loc.inRun = true →
    t.e.run.remaining.toNat + r.finished = r.limit + r.extended
  underway : t.loc.inRun = true → r.started = r.finished + t.loc.underway
  needs : t.loc.needs = true → t.e.run.remaining ≠ 0
  used : t.loc = .ending → t.e.run.remaining = 0 → r.started = r.finished

/-- A run with a limit that stays below `kUnlimited` with its increments, all its programs
    valid. -/
structure Tally.Limited (r : Tally) : Prop where
  limit : 1 ≤ r.limit
  room : r.limit + r.extended < 2 ^ 64 - 1
  valid : r.valid = true

namespace Thread.Balanced

variable {P : Platform} {t : Thread} {r : Tally}

/-- Outside runs the tally only has to be in bounds. -/
theorem of_rest (hfinished : r.finished ≤ r.started) (hstarted : r.started ≤ r.limit + r.extended)
    (hend : t.loc ≠ .ending) (hrun : t.loc.inRun = false) : t.Balanced r := by
  refine ⟨hfinished, hstarted, ?_, ?_, ?_, fun h => absurd h hend⟩
  · rintro (h | h)
    · exact absurd h hend
    · exact absurd h (by simp [hrun])
  · intro h
    exact absurd h (by simp [hrun])
  · intro h
    cases hloc : t.loc <;> simp_all [Loc.needs, Loc.inRun]

/-- A step that sends nothing keeps the balance. -/
theorem waits (h : t.Balanced r) (hrun : t.loc.inRun = true) {x : Thread × List Event}
    (hx : t.e.WaitsAt t.loc x)
    (hroom : (r.counted t x.2).limit + (r.counted t x.2).extended < 2 ^ 64 - 1) :
    x.1.Balanced (r.counted t x.2) := by
  have hbalance := h.balance (.inr hrun)
  have hunder := h.underway hrun
  have hstarted := h.started
  have hsame : (r.counted t x.2).started = r.started ∧
      (r.counted t x.2).finished = r.finished := by
    simp [Tally.counted, hx.sent]
  have hext : (r.counted t x.2).extended =
      r.extended + extensionsOf t.e.cfg.mode (commandsOf x.2) := rfl
  have hlimit : (r.counted t x.2).limit = r.limit := rfl
  have hremaining := hx.remaining (by omega)
  have hzero : ∀ y : BitVec 64, y ≠ 0 → y.toNat ≠ 0 := by
    intro y hy hz
    exact hy (BitVec.eq_of_toNat_eq hz)
  refine ⟨?_, ?_, ?_, ?_, ?_, ?_⟩
  · omega
  · omega
  · intro _
    omega
  · intro hin
    rcases hx.loc with hend | ⟨-, hloc, -⟩
    · simp [hend, Loc.inRun] at hin
    · omega
  · intro hneeds hnone
    rcases hx.loc with hend | ⟨-, -, hn⟩
    · simp [hend, Loc.needs] at hneeds
    · -- What is still to be sent keeps the counter from zero.
      have hpos : t.e.run.remaining.toNat ≠ 0 := by
        rcases hn hneeds with hbefore | hne
        · exact hzero _ (h.needs hbefore)
        · exact hzero _ hne
      rw [hnone] at hremaining
      simp at hremaining
      omega
  · intro _ hnone
    rw [hnone] at hremaining
    have hnothing : t.e.run.remaining.toNat = 0 := by
      simp at hremaining
      omega
    -- With an action under way something would remain.
    have hrest : t.loc.underway = 0 := by
      by_contra hon
      exact hzero _ (h.needs (Loc.needs_of_underway hon)) hnothing
    omega

/-- A step that sends keeps the balance. -/
theorem fires (h : t.Balanced r) (hrun : t.loc.inRun = true) {x : Thread × List Event}
    (hx : t.Fires x)
    (hroom : (r.counted t x.2).limit + (r.counted t x.2).extended < 2 ^ 64 - 1) :
    x.1.Balanced (r.counted t x.2) := by
  have hbalance := h.balance (.inr hrun)
  have hunder := h.underway hrun
  have hext : (r.counted t x.2).extended = r.extended := by
    simp [Tally.counted, hx.commands]
  have hlimit : (r.counted t x.2).limit = r.limit := rfl
  have hstarted : (r.counted t x.2).started =
      r.started + ((sentOf x.2).map t.starts).sum := rfl
  have hfinished : (r.counted t x.2).finished =
      r.finished + ((sentOf x.2).map t.finishes).sum := rfl
  obtain ⟨hremaining, hleft⟩ := hx.remaining (by omega) (h.needs hx.needs)
  have hmoves := hx.balance
  have hstep : (r.counted t x.2).started = (r.counted t x.2).finished + x.1.loc.underway := by
    omega
  have hsum : x.1.e.run.remaining.toNat + (r.counted t x.2).finished =
      (r.counted t x.2).limit + (r.counted t x.2).extended := by
    omega
  refine ⟨by omega, ?_, fun _ => hsum, fun _ => hstep, hleft, ?_⟩
  · -- An action under way still counts among those that remain.
    by_cases hon : x.1.loc.underway = 0
    · omega
    · have hne := hleft (Loc.needs_of_underway hon)
      have hpos : x.1.e.run.remaining.toNat ≠ 0 := fun hz => hne (BitVec.eq_of_toNat_eq hz)
      have hone := x.1.loc.underway_le
      omega
  · intro hend
    have hin := hx.loc
    rw [hend] at hin
    exact absurd hin (by simp [Loc.inRun])

/-- What other threads change is no matter of the balance. -/
theorem congr (h : t.Balanced r) {t' : Thread} (hloc : t'.loc = t.loc) (hrun : t'.e.run = t.e.run) :
    t'.Balanced r := by
  constructor
  · exact h.finished
  · exact h.started
  · rw [hloc, hrun]
    exact h.balance
  · rw [hloc]
    exact h.underway
  · rw [hloc, hrun]
    exact h.needs
  · rw [hloc, hrun]
    exact h.used

/-- A run that starts has its whole limit before it. -/
theorem starts {lim : RunLimits} (hrem : t.e.run.remaining = lim.remaining)
    (hlimit : 1 ≤ lim.maxActions.toNat)
    (hloc : t.loc = .ending ∨ t.loc.inRun = true ∧ t.loc.underway = 0 ∧ t.loc.needs = false) :
    t.Balanced { limit := lim.maxActions.toNat } := by
  have hne : lim.maxActions ≠ 0 := by
    intro hz
    rw [hz] at hlimit
    exact absurd hlimit (by decide)
  have hall : t.e.run.remaining.toNat = lim.maxActions.toNat := by
    rw [hrem, RunLimits.remaining, if_pos hne]
  have hunder : t.loc.underway = 0 := by
    rcases hloc with hend | ⟨-, hunder, -⟩
    · rw [hend]
      rfl
    · exact hunder
  refine ⟨le_refl 0, Nat.zero_le _, fun _ => hall, fun _ => ?_, fun hneeds => ?_, fun _ _ => rfl⟩
  · rw [hunder]
  · rcases hloc with hend | ⟨-, -, hno⟩
    · simp [hend, Loc.needs] at hneeds
    · simp [hno] at hneeds

end Thread.Balanced

/-! ### Every run -/

/-- The tally of the latest run is right, and what it rests on. -/
structure Accounted (P : Platform) (x : Thread × Option Tally) : Prop where
  placed : x.1.Placed
  follows : ∃ m, x.1.Follows P m
  tally : ∀ r, x.2 = some r → r.Limited → x.1.Balanced r

namespace Accounted

variable {P : Platform} {x : Thread × Option Tally}

/-- A step of a run that has a tally. -/
theorem run_step (h : Accounted P x) (hrun : x.1.loc.inRun = true) (o : Obs) {r : Tally}
    (hr : x.2 = some r) (hlimited : (r.counted x.1 (x.1.step P o).2).Limited) :
    (x.1.step P o).1.Balanced (r.counted x.1 (x.1.step P o).2) := by
  have hlimit : 1 ≤ r.limit := hlimited.limit
  have hroom := hlimited.room
  have hvalid : r.valid = true ∧ x.1.valid = true := by
    simpa [Tally.counted] using hlimited.valid
  have hbefore : r.limit + r.extended < 2 ^ 64 - 1 := by
    have hext : (r.counted x.1 (x.1.step P o).2).extended =
      r.extended + extensionsOf x.1.e.cfg.mode (commandsOf (x.1.step P o).2) := rfl
    have hlim : (r.counted x.1 (x.1.step P o).2).limit = r.limit := rfl
    omega
  have hbalanced := h.tally r hr ⟨hlimit, hbefore, hvalid.1⟩
  have hbound : x.1.e.run.remaining.toNat < 2 ^ 64 - 1 := by
    have hsum := hbalanced.balance (.inr hrun)
    omega
  obtain ⟨m, hfollows⟩ := h.follows
  rcases Thread.step_counts h.placed hfollows.built hrun hvalid.2 hbound hbalanced.needs o with
    hwaits | hfires
  · exact hbalanced.waits hrun hwaits hroom
  · exact hbalanced.fires hrun hfires hroom

/-- The end of a batch, which may start a run. -/
theorem batch_step {e : Engine} {b : Engine.Batch} {tally : Option Tally}
    (h : Accounted P (⟨e, .commands [] b⟩, tally)) (o : Obs) {r : Tally}
    (hr : Tally.next ⟨e, .commands [] b⟩ tally (.thread o)
      (Thread.step P ⟨e, .commands [] b⟩ o).2 = some r) (hlimited : r.Limited) :
    (Thread.step P ⟨e, .commands [] b⟩ o).1.Balanced r := by
  -- Unless a run starts the tally is the one before.
  have hrest : ∀ t' : Thread, t'.loc ≠ .ending → t'.loc.inRun = false → tally = some r →
      t'.Balanced r := by
    intro t' hend hrun hsame
    have hbalanced := h.tally r hsame hlimited
    exact Thread.Balanced.of_rest hbalanced.finished hbalanced.started hend hrun
  simp only [Tally.next, Thread.step, Engine.stepCommands] at hr ⊢
  by_cases hquit : b.quit = true
  · rw [if_pos hquit] at hr ⊢
    rw [if_pos (Engine.actionsOf_releaseEvents _ _ _)] at hr
    exact hrest _ (by simp) rfl hr
  · rw [if_neg hquit] at hr ⊢
    by_cases hstart : b.start = true
    · rw [if_pos hstart] at hr ⊢
      rcases Engine.doRun_starts (P := P) (o := o)
        (e := (e.tick (o.dt 0)).publish P (e.tick (o.dt 0)).clock true) b.lim b.trigQ
        with ⟨hnone, hloc⟩ | ⟨hsome, hrem, -, hloc⟩
      · rw [if_pos hnone] at hr
        exact hrest _ (by rw [hloc]; simp) (by rw [hloc]; rfl) hr
      · rw [if_neg hsome] at hr
        obtain rfl := Option.some.inj hr
        exact Thread.Balanced.starts hrem hlimited.limit hloc
    · rw [if_neg hstart] at hr ⊢
      rw [if_pos actionsOf_nil] at hr
      exact hrest _ (by simp [Engine.backToIdle]) rfl hr

/-- Every step keeps the tally right. -/
theorem step (h : Accounted P x) (act : Act) : Accounted P ((tallyMachine P).next x act) := by
  obtain ⟨m, hfollows⟩ := h.follows
  have hnext := hfollows.next P act
  obtain ⟨t, tally⟩ := x
  cases act with
  | push c | storeFlag | setEvent | storeArmed on =>
    refine ⟨?_, ⟨_, hnext⟩, ?_⟩
    · exact h.placed
    · intro r hr hlimited
      exact (h.tally r hr hlimited).congr rfl rfl
  | thread o =>
    refine ⟨h.placed.step o, ⟨_, hnext⟩, ?_⟩
    intro r hr hlimited
    show (t.step P o).1.Balanced r
    replace hr : Tally.next t tally (.thread o) (t.step P o).2 = some r := hr
    -- Outside runs and batches the tally is the one before.
    have hrest : (t.step P o).1.loc ≠ .ending → (t.step P o).1.loc.inRun = false →
        tally = some r → (t.step P o).1.Balanced r := by
      intro hend hrun hsame
      have hbalanced := h.tally r hsame hlimited
      exact Thread.Balanced.of_rest hbalanced.finished hbalanced.started hend hrun
    by_cases hrun : t.loc.inRun = true
    · rw [Tally.next, if_pos hrun] at hr
      obtain ⟨r', htally, rfl⟩ := Option.map_eq_some_iff.mp hr
      exact h.run_step hrun o htally hlimited
    · rw [Tally.next, if_neg hrun] at hr
      obtain ⟨e, loc⟩ := t
      cases loc with
      | commands cmds b =>
        cases cmds with
        | nil => exact batch_step h o hr hlimited
        | cons c cs =>
          apply hrest
          · simp [Thread.step, Engine.stepCommands]
          · rfl
          · have hnone : actionsOf (Thread.step P ⟨e, .commands (c :: cs) b⟩ o).2 = [] :=
              (e.stepCommands_cons P c cs b o).2.2
            simpa [hnone] using hr
      | idle =>
        apply hrest
        · simp only [Thread.step]
          split <;> simp
        · simp only [Thread.step]
          split <;> rfl
        · exact hr
      | ending => exact hrest (by simp [Thread.step, Engine.stepEnding, Engine.backToIdle]) rfl hr
      | done => exact hrest (by simp [Thread.step]) rfl hr
      | _ => exact absurd rfl hrun

end Accounted

/-- What the tally of a run says at a place: no more is sent than the limit with its increments,
    what remains is exactly what is not finished, and a run that ends with nothing remaining has
    sent all of it. -/
structure Thread.Exact (t : Thread) (r : Tally) : Prop where
  sent : r.finished ≤ r.started ∧ r.started ≤ r.limit + r.extended
  remaining : t.loc.inRun = true → t.e.run.remaining.toNat + r.finished = r.limit + r.extended
  ended : t.loc = .ending → t.e.run.remaining = 0 →
    r.started = r.limit + r.extended ∧ r.finished = r.limit + r.extended

variable (P : Platform)

/-- **Exact action counts**: in every interleaving, for every clock, gate and wait, through
    configurations, batches and switches to MAX, the latest run has sent at most its limit with
    the increments accepted so far, the counter never wraps, and a run that has used it up has
    sent exactly that many. -/
theorem exact_action_counts (waiter : PreciseWaiter) (clock : ℤ) (acts : List Act) (r : Tally)
    (hr : ((tallyMachine P).after (Thread.start P waiter clock, none) acts).2 = some r)
    (hlimited : r.Limited) :
    ((tallyMachine P).after (Thread.start P waiter clock, none) acts).1.Exact r := by
  have hstart : Accounted P (Thread.start P waiter clock, none) :=
    ⟨trivial, ⟨{}, Thread.Follows.start waiter clock⟩, fun _ h => absurd h (by simp)⟩
  have haccounted := (tallyMachine P).invariant (I := Accounted P) (fun _ act h => h.step act)
    hstart acts
  have hbalanced := haccounted.tally r hr hlimited
  refine ⟨⟨hbalanced.finished, hbalanced.started⟩, fun hrun => hbalanced.balance (.inr hrun), ?_⟩
  intro hend hnone
  have hsum := hbalanced.balance (.inl hend)
  have hused := hbalanced.used hend hnone
  rw [hnone] at hsum
  simp at hsum
  omega

/-- A burst of two actions with a press in the middle of it, up to its end; the clock is late. -/
def extendedBurst : List Act :=
  Act.post (.setConfig { mode := { mode := .burst, burstCount := 2 } }) ++ Act.arm true ++
    Act.post (.triggerDown 1) ++ Act.steps 7 ++ Act.post (.triggerDown 2) ++
    List.replicate 11 (.thread { dt := fun _ => 600000 })

/-- The burst of `extendedBurst` plays four actions. -/
theorem extendedBurst_exact :
    ((tallyMachine .tenMegahertz).after (Thread.start .tenMegahertz {} 1000000000, none)
      extendedBurst).1.Exact { limit := 2, extended := 2, started := 4, finished := 4 } :=
  exact_action_counts .tenMegahertz {} 1000000000 extendedBurst
    { limit := 2, extended := 2, started := 4, finished := 4 } (by decide +kernel)
    ⟨by decide, by decide, rfl⟩

end InfinityClicker
