import InfinityClicker.Scheduler.EngineLoop
import InfinityClicker.Scheduler.SpinBudget

namespace InfinityClicker

open Machines

/-!
# Kernel sleeps before an action

A step of a timed run waits in two ways: for its deadline, with the precision of the
configuration, and, when the deadline is far, first for the next telemetry publish, with the
ECO wait.  The wait for the deadline wakes up a margin before it, so that an oversleep the margin
covers costs nothing.  The wait for telemetry wakes up at `nextPublish_` wherever that lies.

* `Engine.timedActPhases` — the phases of a step's wait, beside the step (`timedActPhases_snd`);
* `Engine.sparesMargin_iff` — every kernel sleep of a step spares the margin unless a publish is
  due inside it;
* `sleeps_spare_margin_iff` — the same over runs of the engine and the threads around it.
-/

namespace Engine

variable (P : Platform)

/-- The step waits for telemetry first. -/
def WaitsForPublish (e : Engine) (deadline now : ℤ) : Prop :=
  now < deadline ∧ (Clk.msToTicks P kPublishMs).tdiv 2 < deadline - now ∧
    e.nextPublish < deadline

instance (e : Engine) (deadline now : ℤ) : Decidable (e.WaitsForPublish P deadline now) :=
  inferInstanceAs (Decidable (_ ∧ _ ∧ _))

/-- `stepTimedAct` with the phases its wait goes through. -/
def timedActPhases (e : Engine) (l : TimedLocals) (o : Obs) :
    List WaitPhase × (Thread × List Event) :=
  match e.prog.steps[l.step]? with
  | none => ([], ({ e := e, loc := .ending }, []))
  | some st =>
    let deadline := l.tl.next + st.offsetTicks
    let e' := e.tick (o.dt 0)
    let now := e'.clock
    if now < deadline then
      if (Clk.msToTicks P kPublishMs).tdiv 2 < deadline - now ∧ e.nextPublish < deadline then
        let wait := e.waiter.waitPhases now e.nextPublish .eco o.waits
        (wait.1, match wait.2 with
          | none => ({ e := e, loc := .timedAct l }, [])
          | some w =>
            let e := { e with
              waiter := w.waiter, clock := w.now, cmdEvent := e.cmdEvent && !w.event }
            let e := e.tick (o.dt 1)
            ({ e := e.publish P e.clock false, loc := .timed l }, []))
      else
        let wait := e.waiter.waitPhases now deadline e.cfg.precision o.waits
        (wait.1, match wait.2 with
          | none => ({ e := e, loc := .timedAct l }, [])
          | some w =>
            let e := { e with
              waiter := w.waiter, clock := w.now, cmdEvent := e.cmdEvent && !w.event }
            match w.result with
            | .interrupted => ({ e := e, loc := .timed l }, [])
            | .reached => e.fireStep P l st o)
    else ([], e'.fireStep P l st o)

/-- The phases leave the step as it is. -/
theorem timedActPhases_snd (e : Engine) (l : TimedLocals) (o : Obs) :
    (e.timedActPhases P l o).2 = e.stepTimedAct P l o := by
  unfold timedActPhases stepTimedAct
  cases e.prog.steps[l.step]? with
  | none => rfl
  | some st =>
    dsimp only
    split
    · split
      · rewrite [PreciseWaiter.waitPhases_snd]
        rfl
      · rewrite [PreciseWaiter.waitPhases_snd]
        rfl
    · rfl

/-- Every kernel sleep of the step's wait is to end no later than the margin before the deadline,
    for the margin as it is when the sleep starts. -/
def SparesMargin (e : Engine) (l : TimedLocals) (o : Obs) : Prop :=
  ∀ st, e.prog.steps[l.step]? = some st →
    ∀ w now sleepFor, .sleep w now sleepFor ∈ (e.timedActPhases P l o).1 →
      now + sleepFor ≤ l.tl.next + st.offsetTicks - w.marginTicks e.cfg.precision

/-- A publish falls due inside the margin while the step waits for it: the deadline is more than
    half a publish interval away, and a round of the wait reads a time at which the publish is
    worth a kernel wait. -/
def PublishInMargin (e : Engine) (l : TimedLocals) (o : Obs) : Prop :=
  ∃ st, e.prog.steps[l.step]? = some st ∧
    e.WaitsForPublish P (l.tl.next + st.offsetTicks) (e.clock + o.dt 0) ∧
    ∃ ph ∈ (e.waiter.waitPhases (e.clock + o.dt 0) e.nextPublish .eco o.waits).1,
      toInt64 (30 * ph.waiter.perUs) ≤ e.nextPublish - ph.now ∧
        l.tl.next + st.offsetTicks - ph.waiter.marginTicks e.cfg.precision < e.nextPublish

variable {P} {e : Engine} {l : TimedLocals} {o : Obs}

theorem timedActPhases_publish {st : ActionStep} (hst : e.prog.steps[l.step]? = some st)
    (hpub : e.WaitsForPublish P (l.tl.next + st.offsetTicks) (e.clock + o.dt 0)) :
    (e.timedActPhases P l o).1 =
      (e.waiter.waitPhases (e.clock + o.dt 0) e.nextPublish .eco o.waits).1 := by
  obtain ⟨hearly, hfar, hnext⟩ := hpub
  rw [timedActPhases, hst]
  dsimp only
  rw [tick_clock, if_pos hearly, if_pos ⟨hfar, hnext⟩]

/-- Where the step does not wait for telemetry, its sleeps aim at the margin. -/
theorem sleep_before_margin {st : ActionStep} (hst : e.prog.steps[l.step]? = some st)
    (hpub : ¬ e.WaitsForPublish P (l.tl.next + st.offsetTicks) (e.clock + o.dt 0))
    {w : PreciseWaiter} {now sleepFor : ℤ}
    (hsleep : .sleep w now sleepFor ∈ (e.timedActPhases P l o).1) :
    now + sleepFor = l.tl.next + st.offsetTicks - w.marginTicks e.cfg.precision := by
  rw [timedActPhases, hst] at hsleep
  dsimp only at hsleep
  rw [tick_clock] at hsleep
  by_cases hearly : e.clock + o.dt 0 < l.tl.next + st.offsetTicks
  · rw [if_pos hearly, if_neg fun hfar => hpub ⟨hearly, hfar⟩] at hsleep
    obtain ⟨-, hfor, -⟩ := (PreciseWaiter.waitPhases_decided hsleep).1
    omega
  · rw [if_neg hearly] at hsleep
    exact absurd hsleep (by simp)

/-- A sleep of the telemetry wait ends at the publish. -/
theorem sleep_until_publish {deadline clock : ℤ} {os : List WaitObs} {w w' : PreciseWaiter}
    {now sleepFor : ℤ}
    (hsleep : .sleep w' now sleepFor ∈ (w.waitPhases clock deadline .eco os).1) :
    now + sleepFor = deadline ∧ toInt64 (30 * w'.perUs) ≤ deadline - now := by
  obtain ⟨-, hfor, hmin⟩ := (PreciseWaiter.waitPhases_decided hsleep).1
  rw [PreciseWaiter.marginTicks_eco] at hfor
  have hleast : w'.minSleep .eco = toInt64 (30 * w'.perUs) := rfl
  omega

/-- **The margin of a step.** The kernel sleeps on the way to an action spare the margin exactly
    when no publish falls due inside it. -/
theorem sparesMargin_iff : e.SparesMargin P l o ↔ ¬ e.PublishInMargin P l o := by
  constructor
  · rintro hspares ⟨st, hst, hpub, ph, hph, hworth, hin⟩
    rw [SparesMargin, timedActPhases_publish hst hpub] at hspares
    cases ph with
    | sleep w now sleepFor =>
      have hbefore := hspares st hst w now sleepFor hph
      obtain ⟨htarget, -⟩ := sleep_until_publish hph
      rw [htarget] at hbefore
      exact absurd hin (not_lt.mpr hbefore)
    | spin w now =>
      -- A round with that much to go sleeps.
      have hshort := PreciseWaiter.short_of_spin (PreciseWaiter.waitPhases_decided hph).1
      rw [PreciseWaiter.marginTicks_eco, zero_add] at hshort
      exact absurd hworth (not_le.mpr hshort)
  · intro hnone st hst w now sleepFor hsleep
    by_cases hpub : e.WaitsForPublish P (l.tl.next + st.offsetTicks) (e.clock + o.dt 0)
    · rw [timedActPhases_publish hst hpub] at hsleep
      obtain ⟨htarget, hworth⟩ := sleep_until_publish hsleep
      rw [htarget]
      by_contra hin
      exact hnone ⟨st, hst, hpub, _, hsleep, hworth, not_le.mp hin⟩
    · exact le_of_eq (sleep_before_margin hst hpub hsleep)

end Engine

/-! ### Over runs -/

variable (P : Platform)

/-- Where this move is a step's wait, its kernel sleeps spare the margin. -/
def Thread.SparesMargin (t : Thread) : Act → Prop
  | .thread o => ∀ l, t.loc = .timedAct l → t.e.SparesMargin P l o
  | _ => True

/-- This move is a step's wait, and a publish falls due inside the margin. -/
def Thread.PublishInMargin (t : Thread) : Act → Prop
  | .thread o => ∃ l, t.loc = .timedAct l ∧ t.e.PublishInMargin P l o
  | _ => False

theorem Thread.sparesMargin_iff (t : Thread) (a : Act) :
    t.SparesMargin P a ↔ ¬ t.PublishInMargin P a := by
  cases a with
  | thread o =>
    rw [SparesMargin, PublishInMargin, not_exists]
    refine forall_congr' fun l => ?_
    rw [not_and, Engine.sparesMargin_iff]
  | push => exact iff_of_true trivial id
  | storeFlag => exact iff_of_true trivial id
  | setEvent => exact iff_of_true trivial id
  | storeArmed => exact iff_of_true trivial id

/-- **Housekeeping and the margin.** From any state of the engine and along any interleaving, all
    the kernel sleeps on the way to actions spare the margin exactly when no step waits for a
    publish that falls due inside it. -/
theorem sleeps_spare_margin_iff (t : Thread) (acts : List Act) :
    (engineMachine P).Meets (fun t a => t.SparesMargin P a) t acts ↔
      (engineMachine P).Meets (fun t a => ¬ t.PublishInMargin P a) t acts :=
  ⟨Machine.Meets.mono _ fun t a => (t.sparesMargin_iff P a).mp,
    Machine.Meets.mono _ fun t a => (t.sparesMargin_iff P a).mpr⟩

/-- A run that clicks every 100 ms, 100 ms before its next slot and 99.5 ms before the next
    publish. -/
def publishBeforeSlot : Thread where
  e := { waiter := PreciseWaiter.create Platform.tenMegahertz
         cfg := { precision := .ultra }
         prog := { steps := [{ }] }
         nextPublish := 995000
         state := .running }
  loc := .timedAct { tl := { t0 := 0, period := 1000000, k := 1 } }

/-- ULTRA is to wake up 1 ms before the slot; the telemetry wait sleeps until 0.5 ms before it. -/
theorem sleeps_into_margin :
    ¬ (engineMachine Platform.tenMegahertz).Meets
      (fun t a => t.SparesMargin Platform.tenMegahertz a) publishBeforeSlot
      [.thread { waits := [{ slept := 995000 }, { }] }] := by
  rintro ⟨hspares, -⟩
  have hslot : ({ t0 := 0, period := 1000000, k := 1 } : Timeline).next + 0 = 1000000 := by
    decide +kernel
  have hwaits : publishBeforeSlot.e.WaitsForPublish Platform.tenMegahertz
      (({ t0 := 0, period := 1000000, k := 1 } : Timeline).next + 0) 0 := by
    decide +kernel
  have hmargin : (PreciseWaiter.create Platform.tenMegahertz).marginTicks .ultra = 10000 := by
    decide +kernel
  have hmin : (PreciseWaiter.create Platform.tenMegahertz).minSleep .eco = 300 := by
    decide +kernel
  have hsleep : WaitPhase.sleep (PreciseWaiter.create Platform.tenMegahertz) 0 995000 ∈
      ((PreciseWaiter.create Platform.tenMegahertz).waitPhases 0 995000 .eco
        [{ slept := 995000 }, { }]).1 := by
    simp [PreciseWaiter.waitPhases, PreciseWaiter.marginTicks_eco, hmin]
  have hbefore := hspares _ rfl _ rfl _ 0 995000 (by
    rw [Engine.timedActPhases_publish rfl hwaits]
    exact hsleep)
  replace hbefore : (0 : ℤ) + 995000 ≤ ({ t0 := 0, period := 1000000, k := 1 } : Timeline).next
    + 0 - (PreciseWaiter.create Platform.tenMegahertz).marginTicks .ultra := hbefore
  omega

end InfinityClicker
