import InfinityClicker.Scheduler.EngineLoop

namespace InfinityClicker

open Machines

/-!
# Trigger edges in batches

The trigger's edges reach the engine as commands, and how they fall into drained batches is a
matter of timing.  `batchMachine` takes one batch at a time, in the idle loop or in the run, as
`threadMain` and `handleRunCommands` do; its state is the `Outcome`.

* `Outcome.alone` — what one edge does in a batch of its own, in each mode;
* `Agrees` — when a batch has the outcome of its edges one by one (`together_eq_iff`);
* `Delivers` — what the modes promise of the edges one by one, and `BurstFits`, exactly when
  they keep it (`delivers_iff`): only the 64-bit count of Burst can break it;
* `batches_agree_iff` — a cut into batches has the outcome of the edges one by one, and the
  promised one, throughout iff all its batches agree and the presses fit.
-/

/-- A trigger edge as the hook reports it. -/
inductive TriggerEdge where
  | down (qpc : ℤ)
  | up (qpc : ℤ)
deriving DecidableEq, Repr

namespace TriggerEdge

/-- The command that `App` posts for an edge. -/
def command : TriggerEdge → Command
  | .down qpc => .triggerDown qpc
  | .up qpc => .triggerUp qpc

/-- The edge is a press. -/
def isDown : TriggerEdge → Bool
  | .down _ => true
  | .up _ => false

/-- The number of presses. -/
def downs (es : List TriggerEdge) : ℕ := es.countP isDown

/-- No edges, no press. -/
@[simp] theorem downs_nil : downs [] = 0 := rfl

/-- A press counts one. -/
@[simp] theorem downs_down (q : ℤ) (es : List TriggerEdge) :
    downs (.down q :: es) = downs es + 1 := List.countP_cons_of_pos rfl

/-- A release counts none. -/
@[simp] theorem downs_up (q : ℤ) (es : List TriggerEdge) : downs (.up q :: es) = downs es :=
  List.countP_cons_of_neg (by simp [isDown])

end TriggerEdge

/-- Where a batch leaves the engine.  `run_.remaining` means something in a run only: `doRun`
    sets it afresh. -/
inductive Outcome where
  | idle
  | running (remaining : BitVec 64)
deriving DecidableEq, Repr

namespace Engine

variable (P : Platform)

/-- A batch drained while the engine is idle, or during a run with a count of actions left. -/
def takeBatch (e : Engine) : Outcome → List Command → Outcome
  | .idle, cmds =>
    let (e', b) := e.idleCommands P {} {} {} cmds
    if b.start ∧ e'.prog.ok then .running b.lim.remaining else .idle
  | .running n, cmds =>
    let e' := runCommands { e with run := { e.run with stop := false, remaining := n } } cmds
    if e'.run.stop then .idle else .running e'.run.remaining

/-- The engine taking batches of trigger edges, with nothing else going on. -/
def batchMachine (e : Engine) : Machine Outcome (List TriggerEdge) Empty where
  step o es := (e.takeBatch P o (es.map TriggerEdge.command), [])

/-- The thread goes through an idle batch one command at a time. -/
theorem after_commands (e : Engine) (b : Batch) (o : Obs) (cmds : List Command) :
    (engineMachine P).after ⟨e, .commands cmds b⟩ (List.replicate cmds.length (.thread o)) =
      { e := (e.idleCommands P b o.release o.retry cmds).1
        loc := .commands [] (e.idleCommands P b o.release o.retry cmds).2 } := by
  induction cmds generalizing e b with
  | nil => rfl
  | cons c cs ih => exact ih _ _

end Engine

/-! ### One edge at a time -/

/-- The limits a press starts a run with. -/
def ModeParams.startLimits (p : ModeParams) : RunLimits := (decideOnTriggerDown p false).limits

/-- A press during a Burst run queues more actions, unless the run is unlimited. -/
def ModeParams.extend (p : ModeParams) (n : BitVec 64) : BitVec 64 :=
  if n ≠ kUnlimited then n + p.burstCount else n

/-- A press in these modes stops a run. -/
def TriggerMode.toggles : TriggerMode → Bool
  | .toggle | .count | .duration => true
  | .hold | .burst => false

/-- The modes that stop by a press are neither Hold nor Burst. -/
theorem TriggerMode.ne_of_toggles {m : TriggerMode} (h : m.toggles = true) :
    m ≠ .hold ∧ m ≠ .burst := by
  cases m <;> simp_all [toggles]

namespace Outcome

/-- What an edge does in a batch of its own. -/
def alone (p : ModeParams) : Outcome → TriggerEdge → Outcome
  | .idle, .down _ => .running p.startLimits.remaining
  | .idle, .up _ => .idle
  | .running n, .down _ =>
    match p.mode with
    | .hold => .running n
    | .burst => .running (p.extend n)
    | .toggle | .count | .duration => .idle
  | .running n, .up _ => if p.mode = .hold then .idle else .running n

end Outcome

/-! ### A batch in the idle loop -/

namespace Engine

variable {P : Platform} {e : Engine}

/-- What waits to be started after an edge in the idle loop. -/
def pressed (p : ModeParams) (waiting : Option RunLimits) : TriggerEdge → Option RunLimits
  | .down _ => some p.startLimits
  | .up _ => if p.mode = .hold then none else waiting

/-- The locals of a batch as what waits to be started. -/
def Batch.waiting (b : Batch) : Option RunLimits := if b.start then some b.lim else none

/-- An edge in the idle loop changes nothing but what waits to be started. -/
theorem idleCommand_edge (harmed : e.armed = true) (b : Batch) (r retry : SendResult)
    (x : TriggerEdge) :
    ∃ b', e.idleCommand P b r retry x.command = (e, b') ∧
      b'.waiting = pressed e.cfg.mode b.waiting x := by
  cases x with
  | down q =>
    refine ⟨{ b with start := true, lim := e.cfg.mode.startLimits, trigQ := q }, ?_, rfl⟩
    simp [TriggerEdge.command, idleCommand, harmed, decideOnTriggerDown_idle,
      ModeParams.startLimits]
  | up q =>
    by_cases hhold : e.cfg.mode.mode = .hold
    · cases hs : b.start with
      | false =>
        refine ⟨b, ?_, ?_⟩
        · simp [TriggerEdge.command, idleCommand, hs]
        · simp [pressed, hhold, Batch.waiting, hs]
      | true =>
        refine ⟨{ b with start := false }, ?_, ?_⟩
        · simp [TriggerEdge.command, idleCommand, hs, hhold]
        · simp [pressed, hhold, Batch.waiting]
    · refine ⟨b, ?_, ?_⟩
      · simp [TriggerEdge.command, idleCommand, hhold]
      · simp [pressed, hhold]

/-- Edges taken while idle leave the engine alone; what they ask for is gathered. -/
theorem idleCommands_edges (harmed : e.armed = true) (b : Batch) (r retry : SendResult)
    (es : List TriggerEdge) :
    (e.idleCommands P b r retry (es.map TriggerEdge.command)).1 = e ∧
      (e.idleCommands P b r retry (es.map TriggerEdge.command)).2.waiting =
        es.foldl (pressed e.cfg.mode) b.waiting := by
  induction es generalizing b with
  | nil => exact ⟨rfl, rfl⟩
  | cons x es ih =>
    obtain ⟨b', hcmd, hwait⟩ := idleCommand_edge (P := P) harmed b r retry x
    simp only [List.map_cons, idleCommands, hcmd, List.foldl_cons, ← hwait]
    exact ih b'

end Engine

/-- What waits at the end of an idle batch is started. -/
def Outcome.ofWaiting : Option RunLimits → Outcome
  | none => .idle
  | some lim => .running lim.remaining

namespace Engine

variable {P : Platform} {e : Engine}

/-- An idle batch of edges ends in what was gathered. -/
theorem takeBatch_idle (harmed : e.armed = true) (hok : e.prog.ok = true)
    (es : List TriggerEdge) :
    e.takeBatch P .idle (es.map TriggerEdge.command) =
      .ofWaiting (es.foldl (pressed e.cfg.mode) none) := by
  obtain ⟨he, hwait⟩ := idleCommands_edges (P := P) harmed {} {} {} es
  have hnone : ({} : Batch).waiting = none := rfl
  rw [hnone] at hwait
  simp only [takeBatch, he, hok, and_true]
  rw [← hwait]
  simp only [Batch.waiting]
  split <;> rfl

/-! ### A batch during a run -/

/-- An edge that stops a run. -/
def stops (p : ModeParams) : TriggerEdge → Bool
  | .down _ => p.mode.toggles
  | .up _ => p.mode = .hold

/-- An edge during a run on the count of actions left. -/
def heard (p : ModeParams) (n : BitVec 64) : TriggerEdge → BitVec 64
  | .down _ => if p.mode = .burst then p.extend n else n
  | .up _ => n

/-- An edge in a run may stop it or extend it. -/
theorem runCommand_edge (e : Engine) (x : TriggerEdge) :
    e.runCommand x.command =
      { e with run := { e.run with
          stop := e.run.stop || stops e.cfg.mode x
          remaining := heard e.cfg.mode e.run.remaining x } } := by
  cases x with
  | down q =>
    simp only [TriggerEdge.command, runCommand, decideOnTriggerDown, stops, heard,
      ModeParams.extend]
    cases hmode : e.cfg.mode.mode with
    | burst =>
      by_cases hr : e.run.remaining = kUnlimited
      · simp only [TriggerMode.toggles, hr]
        simp [← hr]
      · simp [TriggerMode.toggles, hr]
    | _ => simp [TriggerMode.toggles]
  | up q =>
    simp only [TriggerEdge.command, runCommand, decideOnTriggerUp, stops, heard]
    by_cases hmode : e.cfg.mode.mode = .hold <;> simp [hmode]

/-- The edges of a batch stop a run together, and extend it one after the other. -/
theorem runCommands_edges (e : Engine) (es : List TriggerEdge) :
    (e.runCommands (es.map TriggerEdge.command)).run.stop =
        (e.run.stop || es.any (stops e.cfg.mode)) ∧
      (e.runCommands (es.map TriggerEdge.command)).run.remaining =
        es.foldl (heard e.cfg.mode) e.run.remaining := by
  induction es generalizing e with
  | nil => simp [runCommands]
  | cons x es ih =>
    -- An edge is no `Quit`, so the batch goes on after it.
    have hcons : e.runCommands (x.command :: es.map TriggerEdge.command) =
        (e.runCommand x.command).runCommands (es.map TriggerEdge.command) := by
      cases x <;> rfl
    obtain ⟨hstop, hrem⟩ := ih (e.runCommand x.command)
    rw [List.map_cons, hcons, hstop, hrem, runCommand_edge]
    simp [Bool.or_assoc]

/-- A batch of edges on an outcome. -/
def together (p : ModeParams) (o : Outcome) (es : List TriggerEdge) : Outcome :=
  match o with
  | .idle => .ofWaiting (es.foldl (pressed p) none)
  | .running n => if es.any (stops p) then .idle else .running (es.foldl (heard p) n)

/-- A running batch of edges ends as its presses have it. -/
theorem takeBatch_running (n : BitVec 64) (es : List TriggerEdge) :
    e.takeBatch P (.running n) (es.map TriggerEdge.command) =
      if es.any (stops e.cfg.mode) then .idle
      else .running (es.foldl (heard e.cfg.mode) n) := by
  obtain ⟨hstop, hrem⟩ := runCommands_edges
    { e with run := { e.run with stop := false, remaining := n } } es
  simp only [takeBatch, hstop, hrem, Bool.false_or]

/-- **A batch of edges in one place**, in the idle loop or in the run. -/
theorem takeBatch_edges (harmed : e.armed = true) (hok : e.prog.ok = true) (o : Outcome)
    (es : List TriggerEdge) :
    e.takeBatch P o (es.map TriggerEdge.command) = together e.cfg.mode o es := by
  cases o with
  | idle => exact takeBatch_idle harmed hok es
  | running n => exact takeBatch_running n es

/-- A batch of one edge. -/
theorem together_alone (p : ModeParams) (o : Outcome) (x : TriggerEdge) :
    together p o [x] = o.alone p x := by
  cases o with
  | idle =>
    cases x with
    | down q => rfl
    | up q => by_cases hm : p.mode = .hold <;> simp [together, pressed, hm, Outcome.alone,
        Outcome.ofWaiting]
  | running n =>
    cases x with
    | down q => cases hm : p.mode <;> simp [together, stops, heard, hm, Outcome.alone,
        TriggerMode.toggles]
    | up q => by_cases hm : p.mode = .hold <;> simp [together, stops, heard, hm, Outcome.alone]

end Engine

/-! ### The edges one by one, in each mode -/

/-- All edges of a batch, each in a batch of its own. -/
def Outcome.oneByOne (p : ModeParams) (o : Outcome) (es : List TriggerEdge) : Outcome :=
  es.foldl (Outcome.alone p) o

/-- The first edge decides for the later ones. -/
theorem Outcome.oneByOne_cons (p : ModeParams) (o : Outcome) (x : TriggerEdge)
    (es : List TriggerEdge) : o.oneByOne p (x :: es) = (o.alone p x).oneByOne p es := rfl

section Toggle

variable {p : ModeParams} (ht : p.mode.toggles = true)
include ht

/-- A press alone starts or stops. -/
theorem alone_down_of_toggles (o : Outcome) (q : ℤ) :
    o.alone p (.down q) = if o = .idle then .running p.startLimits.remaining else .idle := by
  cases o with
  | idle => rfl
  | running n =>
    cases hm : p.mode <;> simp [Outcome.alone, hm, TriggerMode.toggles] at ht ⊢

/-- A release alone does nothing. -/
theorem alone_up_of_toggles (o : Outcome) (q : ℤ) : o.alone p (.up q) = o := by
  cases o with
  | idle => rfl
  | running n => simp [Outcome.alone, (TriggerMode.ne_of_toggles ht).1]

/-- Presses one by one switch the run on and off: what counts is their parity. -/
theorem oneByOne_of_toggles (o : Outcome) (es : List TriggerEdge) :
    o.oneByOne p es =
      if TriggerEdge.downs es = 0 then o
      else if (Odd (TriggerEdge.downs es) ↔ o = .idle) then .running p.startLimits.remaining
      else .idle := by
  induction es generalizing o with
  | nil => rfl
  | cons x es ih =>
    rw [Outcome.oneByOne_cons, ih]
    cases x with
    | up q => simp [alone_up_of_toggles ht]
    | down q =>
      rw [alone_down_of_toggles ht, TriggerEdge.downs_down]
      -- One press more: the parity changes, and so does the outcome.
      by_cases hd : TriggerEdge.downs es = 0 <;> by_cases ho : o = .idle <;>
        simp [hd, ho, Nat.odd_add_one]

end Toggle

/-! ### When a batch agrees with its edges one by one -/

/-- The batch has the outcome of its edges one by one.

    * Hold: in the idle loop always; during a run iff it has no release or ends with one.
    * Toggle, Count, Duration: iff it has no press or an odd number of them.
    * Burst: during a run always; in the idle loop iff it has at most one press. -/
def Agrees (p : ModeParams) (o : Outcome) (es : List TriggerEdge) : Prop :=
  match p.mode, o with
  | .hold, .idle | .burst, .running _ => True
  | .hold, .running _ =>
    (∀ x ∈ es, x.isDown = true) ∨ ∃ q, es.getLast? = some (.up q)
  | .toggle, _ | .count, _ | .duration, _ =>
    TriggerEdge.downs es = 0 ∨ Odd (TriggerEdge.downs es)
  | .burst, .idle => TriggerEdge.downs es ≤ 1

/-- The actions a run has left, unless it is unlimited; an idle engine has none. -/
def Outcome.actions : Outcome → Option ℕ
  | .idle => some 0
  | .running n => if n = kUnlimited then none else some n.toNat

/-- What the edges lead to from an outcome.

    * Toggle, Count, Duration: the parity of the presses decides whether the engine runs.
    * Hold: it runs iff the last edge was a press.
    * Burst: every press adds its count of actions to those of a run with an end. -/
def Delivers (p : ModeParams) (o : Outcome) (es : List TriggerEdge) (o' : Outcome) : Prop :=
  match p.mode with
  | .toggle | .count | .duration => o' = .idle ↔ (o = .idle ↔ Even (TriggerEdge.downs es))
  | .hold => ∀ x, es.getLast? = some x → (o' ≠ .idle ↔ x.isDown = true)
  | .burst =>
    o'.actions = o.actions.map (· + TriggerEdge.downs es * p.burstCount.toNat)

/-- The presses of Burst mode add up: a run starts with a count of its own, and below the value
    that stands for no limit. -/
def BurstFits (p : ModeParams) (o : Outcome) (es : List TriggerEdge) : Prop :=
  p.mode = .burst →
    (o = .idle → TriggerEdge.downs es = 0 ∨ p.burstCount ≠ 0) ∧
    ∀ m ∈ o.actions, m + TriggerEdge.downs es * p.burstCount.toNat < 2 ^ 64 - 1

namespace Engine

variable {p : ModeParams}

/-- Outside Hold a release in the idle loop means nothing, and every press starts. -/
theorem foldl_pressed (hm : p.mode ≠ .hold) (w : Option RunLimits) (es : List TriggerEdge) :
    es.foldl (pressed p) w = if TriggerEdge.downs es = 0 then w else some p.startLimits := by
  induction es generalizing w with
  | nil => rfl
  | cons x es ih =>
    rw [List.foldl_cons, ih]
    cases x with
    | up q => simp [pressed, hm]
    | down q => by_cases hd : TriggerEdge.downs es = 0 <;> simp [pressed, hd]

/-- A batch stops a run when it has a press. -/
theorem any_stops_of_toggles (ht : p.mode.toggles = true) (es : List TriggerEdge) :
    es.any (stops p) = decide (TriggerEdge.downs es ≠ 0) := by
  have hm := (TriggerMode.ne_of_toggles ht).1
  induction es with
  | nil => rfl
  | cons x es ih =>
    rw [List.any_cons, ih]
    cases x with
    | up q => simp [stops, hm]
    | down q => simp [stops, ht]

/-- Only Burst presses extend. -/
theorem foldl_heard (es : List TriggerEdge) (n : BitVec 64) :
    es.foldl (heard p) n =
      if p.mode = .burst then p.extend^[TriggerEdge.downs es] n else n := by
  induction es generalizing n with
  | nil => simp
  | cons x es ih =>
    rw [List.foldl_cons, ih]
    cases x with
    | up q => simp [heard]
    | down q => by_cases hb : p.mode = .burst <;> simp [heard, hb]

/-- Toggle, Count and Duration: a batch knows whether a press came, not how many. -/
theorem together_of_toggles (ht : p.mode.toggles = true) (o : Outcome) (es : List TriggerEdge) :
    together p o es =
      if TriggerEdge.downs es = 0 then o
      else if o = .idle then .running p.startLimits.remaining
      else .idle := by
  obtain ⟨hhold, hburst⟩ := TriggerMode.ne_of_toggles ht
  cases o with
  | idle =>
    rw [together, foldl_pressed hhold]
    by_cases hd : TriggerEdge.downs es = 0 <;> simp [hd, Outcome.ofWaiting]
  | running n =>
    rw [together, any_stops_of_toggles ht, foldl_heard, if_neg hburst]
    by_cases hd : TriggerEdge.downs es = 0 <;> simp [hd]

/-- A batch agrees with its edges one by one when it has an odd number of presses, or none. -/
theorem agrees_of_toggles (ht : p.mode.toggles = true) (o : Outcome) (es : List TriggerEdge) :
    together p o es = o.oneByOne p es ↔
      TriggerEdge.downs es = 0 ∨ Odd (TriggerEdge.downs es) := by
  rw [together_of_toggles ht, oneByOne_of_toggles ht]
  by_cases hd : TriggerEdge.downs es = 0 <;> by_cases hodd : Odd (TriggerEdge.downs es) <;>
    by_cases ho : o = .idle <;> simp [hd, hodd, ho]

/-- Hold in the idle loop: a batch and its edges one by one keep the same last edge. -/
theorem oneByOne_hold (hm : p.mode = .hold) (w : Option RunLimits)
    (hw : w = none ∨ w = some p.startLimits) (es : List TriggerEdge) :
    (Outcome.ofWaiting w).oneByOne p es = .ofWaiting (es.foldl (pressed p) w) := by
  induction es generalizing w with
  | nil => rfl
  | cons x es ih =>
    have hstep : (Outcome.ofWaiting w).alone p x = .ofWaiting (pressed p w x) := by
      rcases hw with rfl | rfl <;> cases x <;>
        simp [Outcome.ofWaiting, Outcome.alone, pressed, hm]
    -- What waits stays one of the two, which is the invariant of the induction.
    have hnext : pressed p w x = none ∨ pressed p w x = some p.startLimits := by
      cases x <;> simp [pressed, hm]
    rw [Outcome.oneByOne_cons, hstep, ih _ hnext, List.foldl_cons]

/-- Hold: what waits after a batch is decided by its last edge. -/
theorem foldl_pressed_hold (hm : p.mode = .hold) (es : List TriggerEdge) (hne : es ≠ []) :
    es.foldl (pressed p) none = none ↔ ∃ q, es.getLast? = some (.up q) := by
  obtain ⟨init, x, rfl⟩ := List.eq_nil_or_concat es |>.resolve_left hne
  rw [List.concat_eq_append, List.foldl_append]
  cases x <;> simp [pressed, hm]

/-- Hold during a run: the batch stops at any release, the edges one by one start again at a
    press after it. -/
theorem agrees_of_hold_running (hm : p.mode = .hold) (n : BitVec 64) (es : List TriggerEdge) :
    together p (.running n) es = (Outcome.running n).oneByOne p es ↔
      (∀ x ∈ es, x.isDown = true) ∨ ∃ q, es.getLast? = some (.up q) := by
  have hburst : p.mode ≠ .burst := by simp [hm]
  induction es with
  | nil => simp [together, Outcome.oneByOne]
  | cons x es ih =>
    cases x with
    | down q =>
      have htogether : together p (.running n) (.down q :: es) = together p (.running n) es := by
        simp [together, stops, heard, hm, TriggerMode.toggles]
      have hone : (Outcome.running n).oneByOne p (.down q :: es) =
          (Outcome.running n).oneByOne p es := by
        simp [Outcome.oneByOne_cons, Outcome.alone, hm]
      rw [htogether, hone]
      refine ih.trans ?_
      cases es with
      | nil => simp [TriggerEdge.isDown]
      | cons y es => simp [TriggerEdge.isDown]
    | up q =>
      have htogether : together p (.running n) (.up q :: es) = .idle := by
        simp [together, stops, hm]
      have hone : (Outcome.running n).oneByOne p (.up q :: es) =
          .ofWaiting (es.foldl (pressed p) none) := by
        rw [← oneByOne_hold hm none (.inl rfl)]
        simp [Outcome.oneByOne_cons, Outcome.alone, Outcome.ofWaiting, hm]
      -- Stopped by the release: agreed iff the edges after it, one by one, end idle too.
      have hidle : ∀ w, .idle = Outcome.ofWaiting w ↔ w = none := by
        intro w
        cases w <;> simp [Outcome.ofWaiting]
      rw [htogether, hone, hidle]
      cases es with
      | nil => simp
      | cons y es =>
        rw [foldl_pressed_hold hm _ (by simp)]
        simp [TriggerEdge.isDown]

/-- Burst during a run: every press extends the run. -/
theorem oneByOne_burst (hm : p.mode = .burst) (n : BitVec 64) (es : List TriggerEdge) :
    (Outcome.running n).oneByOne p es = .running (p.extend^[TriggerEdge.downs es] n) := by
  induction es generalizing n with
  | nil => rfl
  | cons x es ih =>
    rw [Outcome.oneByOne_cons]
    cases x with
    | down q => simp [Outcome.alone, hm, ih]
    | up q => simp [Outcome.alone, hm, ih]

/-- Burst in the idle loop: the first press starts the run, the others extend it. -/
theorem oneByOne_burst_idle (hm : p.mode = .burst) (es : List TriggerEdge) :
    Outcome.idle.oneByOne p es =
      if TriggerEdge.downs es = 0 then .idle
      else .running (p.extend^[TriggerEdge.downs es - 1] p.startLimits.remaining) := by
  induction es with
  | nil => rfl
  | cons x es ih =>
    rw [Outcome.oneByOne_cons]
    cases x with
    | down q => simp [Outcome.alone, oneByOne_burst hm]
    | up q => simpa [Outcome.alone] using ih

/-- Below the value that stands for no limit, extending adds. -/
theorem toNat_extend (n : BitVec 64) (k : ℕ)
    (hfit : n.toNat + k * p.burstCount.toNat < 2 ^ 64 - 1) :
    (p.extend^[k] n).toNat = n.toNat + k * p.burstCount.toNat := by
  induction k with
  | zero => simp
  | succ k ih =>
    have hstep : (k + 1) * p.burstCount.toNat = k * p.burstCount.toNat + p.burstCount.toNat := by
      ring
    have ih' := ih (by omega)
    -- No wrap-around and no collision with `kUnlimited` on the way.
    have hlimited : p.extend^[k] n ≠ kUnlimited := by
      intro h
      have hmax : kUnlimited.toNat = 2 ^ 64 - 1 := by decide
      rw [h, hmax] at ih'
      omega
    rw [Function.iterate_succ_apply', ModeParams.extend, if_pos hlimited, BitVec.toNat_add, ih',
      Nat.mod_eq_of_lt (by omega)]
    omega

/-- An unlimited run stays unlimited. -/
theorem extend_unlimited (k : ℕ) : p.extend^[k] kUnlimited = kUnlimited := by
  induction k with
  | zero => rfl
  | succ k ih =>
    rw [Function.iterate_succ_apply', ih]
    simp [ModeParams.extend]

/-- A Burst run starts with the count of a press, or with one action. -/
theorem startLimits_burst (hm : p.mode = .burst) :
    p.startLimits.remaining = if p.burstCount ≠ 0 then p.burstCount else 1 := by
  by_cases h : p.burstCount = 0#64 <;>
    simp [ModeParams.startLimits, decideOnTriggerDown, hm, RunLimits.remaining, h]

/-- In an idle batch the presses after the first are lost: while they fit, they would count. -/
theorem extend_startLimits_eq_iff (hm : p.mode = .burst) (hpos : p.burstCount ≠ 0) (k : ℕ)
    (hfit : (k + 1) * p.burstCount.toNat < 2 ^ 64 - 1) :
    p.extend^[k] p.startLimits.remaining = p.startLimits.remaining ↔ k = 0 := by
  have hbc : 0 < p.burstCount.toNat := by
    rw [Nat.pos_iff_ne_zero]
    intro h
    exact hpos (BitVec.eq_of_toNat_eq h)
  have hexpand : (k + 1) * p.burstCount.toNat = p.burstCount.toNat + k * p.burstCount.toNat := by
    ring
  rw [startLimits_burst hm, if_pos hpos]
  constructor
  · intro h
    have hnat := congrArg BitVec.toNat h
    rw [toNat_extend _ _ (by omega)] at hnat
    have hzero : k * p.burstCount.toNat = 0 := by omega
    exact (Nat.mul_eq_zero.mp hzero).resolve_right (by omega)
  · rintro rfl
    rfl

/-- **A batch has the outcome of its edges one by one iff it `Agrees`.** -/
theorem together_eq_iff (p : ModeParams) (o : Outcome) (es : List TriggerEdge)
    (hfits : BurstFits p o es) :
    together p o es = o.oneByOne p es ↔ Agrees p o es := by
  unfold Agrees
  cases hm : p.mode with
  -- The modes that a press stops: an odd number of presses, or none.
  | toggle | count | duration =>
    exact agrees_of_toggles (by rw [hm]; rfl) o es
  | hold =>
    cases o with
    | idle =>
      exact iff_of_true (oneByOne_hold hm none (.inl rfl) es).symm trivial
    | running n => exact agrees_of_hold_running hm n es
  | burst =>
    -- Burst: no edge stops a run, and each press adds its count as long as nothing wraps.
    have hnh : p.mode ≠ .hold := by simp [hm]
    cases o with
    | running n =>
      have hstops : es.any (stops p) = false := by
        rw [List.any_eq_false]
        intro x _
        cases x <;> simp [stops, hm, TriggerMode.toggles]
      simp [together, hstops, foldl_heard, hm, oneByOne_burst hm]
    | idle =>
      rw [together, foldl_pressed hnh, oneByOne_burst_idle hm]
      by_cases hd : TriggerEdge.downs es = 0
      · simp [hd, Outcome.ofWaiting]
      · obtain ⟨k, hk⟩ := Nat.exists_eq_succ_of_ne_zero hd
        obtain ⟨hpos, hroom⟩ := hfits hm
        have hk' := hroom 0 rfl
        rw [hk, Nat.zero_add] at hk'
        have hiff := extend_startLimits_eq_iff hm ((hpos rfl).resolve_left hd) k hk'
        simp only [hk, Nat.succ_ne_zero, if_false, Outcome.ofWaiting, Nat.succ_sub_one,
          Outcome.running.injEq]
        rw [eq_comm, hiff]
        omega

end Engine

/-! ### What the edges one by one lead to -/

namespace Outcome

/-- The count of actions left stays below the value that stands for no limit. -/
theorem actions_lt {o : Outcome} {m : ℕ} (h : o.actions = some m) : m < 2 ^ 64 - 1 := by
  cases o with
  | idle =>
    cases h
    decide
  | running n =>
    by_cases hn : n = kUnlimited
    · simp [actions, hn] at h
    · have hm : n.toNat = m := by simpa [actions, hn] using h
      have hmax : n.toNat ≠ 2 ^ 64 - 1 := fun heq =>
        hn (BitVec.eq_of_toNat_eq (heq.trans (by decide)))
      have := n.isLt
      omega

/-- A run with an end keeps one while the presses fit, and they add up. -/
theorem actions_extend (p : ModeParams) {n : BitVec 64} (k : ℕ)
    (hfit : n.toNat + k * p.burstCount.toNat < 2 ^ 64 - 1) :
    (Outcome.running (p.extend^[k] n)).actions = some (n.toNat + k * p.burstCount.toNat) := by
  have hnat := Engine.toNat_extend n k hfit
  have hlimited : p.extend^[k] n ≠ kUnlimited := by
    intro h
    have hmax : kUnlimited.toNat = 2 ^ 64 - 1 := by decide
    rw [h, hmax] at hnat
    omega
  rw [actions, if_neg hlimited, hnat]

/-- Edges go one by one piece by piece. -/
theorem oneByOne_append (p : ModeParams) (o : Outcome) (es fs : List TriggerEdge) :
    o.oneByOne p (es ++ fs) = (o.oneByOne p es).oneByOne p fs := List.foldl_append

end Outcome

section Burst

variable {p : ModeParams} (hm : p.mode = .burst)
include hm

/-- Burst during a run: the presses add up iff the sum stays below the value for no limit. -/
theorem actions_burst_running (n : BitVec 64) (es : List TriggerEdge) :
    ((Outcome.running n).oneByOne p es).actions =
        (Outcome.running n).actions.map (· + TriggerEdge.downs es * p.burstCount.toNat) ↔
      ∀ m ∈ (Outcome.running n).actions,
        m + TriggerEdge.downs es * p.burstCount.toNat < 2 ^ 64 - 1 := by
  rw [Engine.oneByOne_burst hm]
  by_cases hn : n = kUnlimited
  · subst hn
    simp [Engine.extend_unlimited, Outcome.actions]
  · have hleft : (Outcome.running n).actions = some n.toNat := by simp [Outcome.actions, hn]
    rw [hleft]
    constructor
    · rintro h m hmem
      cases hmem
      exact Outcome.actions_lt h
    · intro hfit
      exact Outcome.actions_extend p _ (hfit _ rfl)

/-- Burst from idle: without a count of its own a press still starts one action. -/
theorem actions_burst_idle (es : List TriggerEdge) :
    (Outcome.idle.oneByOne p es).actions =
        some (TriggerEdge.downs es * p.burstCount.toNat) ↔
      (TriggerEdge.downs es = 0 ∨ p.burstCount ≠ 0) ∧
        TriggerEdge.downs es * p.burstCount.toNat < 2 ^ 64 - 1 := by
  rw [Engine.oneByOne_burst_idle hm]
  by_cases hd : TriggerEdge.downs es = 0
  · simp [hd, Outcome.actions]
  · obtain ⟨k, hk⟩ := Nat.exists_eq_succ_of_ne_zero hd
    rw [if_neg hd, hk, Nat.succ_sub_one, Engine.startLimits_burst hm]
    by_cases hpos : p.burstCount = 0
    · -- One action is started, and nothing is added to it.
      have hone : (1 : BitVec 64).toNat + k * p.burstCount.toNat < 2 ^ 64 - 1 := by
        simp [hpos]
      rw [if_neg (by simp [hpos]), Outcome.actions_extend p k hone]
      simp [hpos]
    · rw [if_pos hpos]
      have hexpand : (k + 1) * p.burstCount.toNat =
          p.burstCount.toNat + k * p.burstCount.toNat := by ring
      constructor
      · intro h
        exact ⟨.inr hpos, Outcome.actions_lt h⟩
      · rintro ⟨-, hfit⟩
        rw [hexpand] at hfit
        rw [Outcome.actions_extend p k hfit, hexpand]

end Burst

/-- Hold: one edge after the other, the last one decides. -/
theorem oneByOne_hold_last {p : ModeParams} (hm : p.mode = .hold) (o : Outcome)
    (es : List TriggerEdge) (x : TriggerEdge) (hlast : es.getLast? = some x) :
    o.oneByOne p es ≠ .idle ↔ x.isDown = true := by
  obtain ⟨init, rfl⟩ := List.getLast?_eq_some_iff.mp hlast
  rw [Outcome.oneByOne_append]
  cases o.oneByOne p init <;> cases x <;>
    simp [Outcome.oneByOne, Outcome.alone, hm, TriggerEdge.isDown]

/-- **The edges one by one lead where the mode promises iff the presses of Burst fit.** -/
theorem delivers_iff (p : ModeParams) (o : Outcome) (es : List TriggerEdge) :
    Delivers p o es (o.oneByOne p es) ↔ BurstFits p o es := by
  unfold Delivers BurstFits
  cases hm : p.mode with
  | toggle | count | duration =>
    refine iff_of_true ?_ (by simp)
    rw [oneByOne_of_toggles (by rw [hm]; rfl)]
    by_cases hd : TriggerEdge.downs es = 0 <;> by_cases ho : o = .idle <;>
      by_cases hodd : Even (TriggerEdge.downs es) <;>
      simp [hd, ho, hodd, ← Nat.not_even_iff_odd]
  | hold => exact iff_of_true (oneByOne_hold_last hm o es) (by simp)
  | burst =>
    cases o with
    | idle => simpa [Outcome.actions] using actions_burst_idle hm es
    | running n => simpa using actions_burst_running hm n es

namespace BurstFits

variable {p : ModeParams} {o : Outcome} {es fs : List TriggerEdge}

/-- What fits together fits from the start. -/
theorem left (h : BurstFits p o (es ++ fs)) : BurstFits p o es := by
  intro hm
  obtain ⟨hpos, hroom⟩ := h hm
  have hadd : TriggerEdge.downs (es ++ fs) = TriggerEdge.downs es + TriggerEdge.downs fs :=
    List.countP_append
  rw [hadd] at hpos hroom
  refine ⟨fun ho => (hpos ho).imp (fun h => by omega) id, fun m hmem => ?_⟩
  have := hroom m hmem
  rw [Nat.add_mul] at this
  omega

/-- What comes later fits on what the first edges have led to. -/
theorem right (h : BurstFits p o (es ++ fs)) : BurstFits p (o.oneByOne p es) fs := by
  intro hm
  obtain ⟨hpos, hroom⟩ := h hm
  have hadd : TriggerEdge.downs (es ++ fs) = TriggerEdge.downs es + TriggerEdge.downs fs :=
    List.countP_append
  rw [hadd] at hpos hroom
  constructor
  · intro hidle
    -- No edge of Burst mode stops a run, so the engine was idle from the start.
    have ho : o = .idle := by
      cases o with
      | idle => rfl
      | running n =>
        rw [Engine.oneByOne_burst hm] at hidle
        cases hidle
    exact (hpos ho).imp (fun h => by omega) id
  · intro m hmem
    have hfirst := (delivers_iff p o es).mpr h.left
    simp only [Delivers, hm] at hfirst
    rw [hfirst] at hmem
    obtain ⟨m₀, hm₀, rfl⟩ := Option.mem_map.mp hmem
    have hsum := hroom m₀ hm₀
    rw [Nat.add_mul] at hsum
    omega

end BurstFits

/-! ### Whole cuts -/

variable (P : Platform)

/-- A batch of edges is taken as a whole. -/
theorem next_batch {e : Engine} (harmed : e.armed = true) (hok : e.prog.ok = true) (o : Outcome)
    (es : List TriggerEdge) : (e.batchMachine P).next o es = Engine.together e.cfg.mode o es :=
  Engine.takeBatch_edges harmed hok o es

/-- Batches of one edge each are the edges one by one. -/
theorem after_singles {e : Engine} (harmed : e.armed = true) (hok : e.prog.ok = true)
    (o : Outcome) (es : List TriggerEdge) :
    (e.batchMachine P).after o (es.map fun x => [x]) = o.oneByOne e.cfg.mode es := by
  induction es generalizing o with
  | nil => rfl
  | cons x es ih =>
    rw [List.map_cons, Machine.after_cons, next_batch P harmed hok, Engine.together_alone, ih]
    rfl

/-- While the presses of Burst fit, a cut has after each batch the outcome of the edges one by
    one iff each batch agrees. -/
theorem cuts_agree_iff {e : Engine} (harmed : e.armed = true) (hok : e.prog.ok = true)
    (o : Outcome) (batches : List (List TriggerEdge))
    (hfits : BurstFits e.cfg.mode o batches.flatten) :
    (∀ cut, cut <+: batches →
      (e.batchMachine P).after o cut =
        (e.batchMachine P).after o (cut.flatten.map fun x => [x])) ↔
      (e.batchMachine P).Meets (Agrees e.cfg.mode) o batches := by
  induction batches generalizing o with
  | nil =>
    refine ⟨fun _ => trivial, fun _ cut hcut => ?_⟩
    rw [List.prefix_nil.mp hcut]
    rfl
  | cons es batches ih =>
    have hflat : ∀ (o : Outcome) (cut : List (List TriggerEdge)),
        (e.batchMachine P).after o ((es :: cut).flatten.map fun x => [x]) =
          (e.batchMachine P).after (o.oneByOne e.cfg.mode es)
            (cut.flatten.map fun x => [x]) := by
      intro o cut
      rw [List.flatten_cons, List.map_append, Machine.after_append,
        after_singles P harmed hok o es]
    rw [List.flatten_cons] at hfits
    have hone := Engine.together_eq_iff e.cfg.mode o es hfits.left
    -- The later batches start where the first one led, and their presses fit there too.
    have hlater : Agrees e.cfg.mode o es →
        BurstFits e.cfg.mode ((e.batchMachine P).next o es) batches.flatten := by
      intro hag
      rw [next_batch P harmed hok, hone.mpr hag]
      exact hfits.right
    rw [Machine.meets_cons]
    refine Iff.trans ?_ (and_congr_right fun hag => ih _ (hlater hag))
    rw [← hone]
    constructor
    · intro hall
      have hfirst : Engine.together e.cfg.mode o es = o.oneByOne e.cfg.mode es := by
        have hone := hall [es] ⟨batches, rfl⟩
        rw [hflat] at hone
        simpa [next_batch P harmed hok] using hone
      refine ⟨hfirst, fun cut hcut => ?_⟩
      -- A cut of the later batches is one of all batches, after the first.
      have hlonger := hall (es :: cut) (List.cons_prefix_cons.mpr ⟨rfl, hcut⟩)
      rw [hflat, ← hfirst, Machine.after_cons, next_batch P harmed hok] at hlonger
      rw [next_batch P harmed hok]
      exact hlonger
    · rintro ⟨hfirst, hrest⟩ cut hcut
      cases cut with
      | nil => rfl
      | cons es' cut =>
        obtain ⟨rfl, hcut'⟩ := List.cons_prefix_cons.mp hcut
        have htail := hrest cut hcut'
        rw [next_batch P harmed hok] at htail
        rw [hflat, ← hfirst, Machine.after_cons, next_batch P harmed hok, htail]

/-- **Batching independence, exactly**: for an armed engine with a program that compiles, every
    cut of the edges into batches has after each batch the outcome of the edges one by one, and
    the one that the mode promises, iff each batch agrees and the presses of Burst fit. -/
theorem batches_agree_iff (e : Engine) (harmed : e.armed = true) (hok : e.prog.ok = true)
    (o : Outcome) (batches : List (List TriggerEdge)) :
    (∀ cut, cut <+: batches →
      (e.batchMachine P).after o cut =
        (e.batchMachine P).after o (cut.flatten.map fun x => [x]) ∧
      Delivers e.cfg.mode o cut.flatten ((e.batchMachine P).after o cut)) ↔
      (e.batchMachine P).Meets (Agrees e.cfg.mode) o batches ∧
        BurstFits e.cfg.mode o batches.flatten := by
  constructor
  · intro hall
    have hfits : BurstFits e.cfg.mode o batches.flatten := by
      obtain ⟨heq, hdelivers⟩ := hall batches (List.prefix_refl _)
      rw [heq, after_singles P harmed hok] at hdelivers
      exact (delivers_iff _ _ _).mp hdelivers
    exact ⟨(cuts_agree_iff P harmed hok o batches hfits).mp fun cut hcut => (hall cut hcut).1,
      hfits⟩
  · rintro ⟨hmeets, hfits⟩ cut hcut
    have heq := (cuts_agree_iff P harmed hok o batches hfits).mpr hmeets cut hcut
    refine ⟨heq, ?_⟩
    obtain ⟨rest, rfl⟩ := hcut
    rw [List.flatten_append] at hfits
    rw [heq, after_singles P harmed hok]
    exact (delivers_iff _ _ _).mpr hfits.left

/-- An armed engine with the default configuration, in Toggle mode. -/
def toggleEngine : Engine := ({ armed := true } : Engine).rebuildProgram .tenMegahertz

/-- Four edges with three presses, then one press: the run is on after the first batch and off
    after the second, as it is one by one and as four presses promise. -/
theorem three_presses_agree :
    (toggleEngine.batchMachine .tenMegahertz).after .idle
        [[.down 1, .down 2, .up 3, .down 4], [.down 5]] =
      (toggleEngine.batchMachine .tenMegahertz).after .idle
        [[.down 1], [.down 2], [.up 3], [.down 4], [.down 5]] ∧
    Delivers toggleEngine.cfg.mode .idle [.down 1, .down 2, .up 3, .down 4, .down 5]
      ((toggleEngine.batchMachine .tenMegahertz).after .idle
        [[.down 1, .down 2, .up 3, .down 4], [.down 5]]) :=
  (batches_agree_iff .tenMegahertz toggleEngine rfl (by decide +kernel) .idle
    [[.down 1, .down 2, .up 3, .down 4], [.down 5]]).mpr
    ⟨⟨.inr (by decide), .inr (by decide), trivial⟩, fun h => absurd h (by decide +kernel)⟩ _
    (List.prefix_refl _)

/-- Two Toggle presses in one idle batch start a run; one by one they do not. -/
theorem double_press_disagrees :
    ¬ ∀ (e : Engine), e.armed = true → e.prog.ok = true →
      ∀ (o : Outcome) (batches : List (List TriggerEdge)),
        (e.batchMachine .tenMegahertz).after o batches =
          (e.batchMachine .tenMegahertz).after o (batches.flatten.map fun x => [x]) := by
  intro hall
  have hcut := hall toggleEngine rfl (by decide +kernel) .idle [[.down 1, .down 2]]
  exact absurd hcut (by decide +kernel)

end InfinityClicker
