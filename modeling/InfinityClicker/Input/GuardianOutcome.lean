import InfinityClicker.Input.Guardian

namespace InfinityClicker

open Presses Machines

/-!
# What the guardian makes of a death

* `Releaser.Toward.step` — one step of a release gets on or sends what `releaseHeldFrom` sends;
* `Guarded.early` — while the process lives its guardian sends nothing;
* `Guarded.Since` — what the guardian has done about a death, at each of its phases;
* `Guarded.guardian_outcome` — at its end: exactly the releases of the record at the death, once,
  if it had the section open and no clean exit was marked.
-/

/-! ### The guardian alone -/

namespace Releaser

/-- On the way from the record `h₀`: the rest of the record still lists what `h₀` listed. -/
structure Toward (h₀ h : HeldShared) (rl : Releaser) : Prop where
  running : ∀ n, rl ≠ .done n
  wellFormed : rl.WellFormed
  list : rl.list h = InputSender.releasesFrom h₀
  emptied : rl.Emptied h
  keyScan : h.keyScan = h₀.keyScan
  magic : h.magic = h₀.magic
  magic₀ : h₀.magic = kMagic

/-- Returned `n`, having made of `h₀` what `releaseHeldFrom` makes of it. -/
structure Finished (h₀ h : HeldShared) (calls : List SendCall) (n : ℕ) : Prop where
  released : ∃ r, releaseHeldFrom h₀ r = (h, calls)
  count : n = (calls.map SendCall.ok).sum

/-- A record that shows nothing is the emptied one. -/
theorem eq_emptied {h₀ h : HeldShared} (hempty : ∀ c, h.bit c = false)
    (hscan : h.keyScan = h₀.keyScan) (hmagic : h.magic = h₀.magic) :
    h = { h₀ with keyBits := fun _ => false, mouseMask := fun _ => false } := by
  have hkeys : h.keyBits = fun _ => false := funext fun vk => hempty (.key vk)
  have hmouse : h.mouseMask = fun _ => false := funext fun b => hempty (.button b)
  cases h
  simp_all

theorem enter_toward {h : HeldShared} (hmagic : h.magic = kMagic) : Toward h h (enter h) where
  running := by
    intro n hdone
    rw [enter, if_neg (not_not.mpr hmagic)] at hdone
    cases hdone
  wellFormed := enter_wellFormed h
  list := enter_list hmagic
  emptied := enter_emptied hmagic
  keyScan := rfl
  magic := rfl
  magic₀ := hmagic

theorem enter_finished {h : HeldShared} (hmagic : h.magic ≠ kMagic) :
    enter h = .done 0 ∧ Finished h h [] 0 := by
  refine ⟨by rw [enter, if_pos hmagic], ⟨{}, ?_⟩, rfl⟩
  rw [releaseHeldFrom, if_pos hmagic]

/-- **One step of a release**: it gets on, or it sends what `releaseHeldFrom` sends. -/
theorem Toward.step {h₀ h : HeldShared} {rl : Releaser} (ht : Toward h₀ h rl)
    (r : SendResult) :
    (Toward h₀ (rl.step h r).1 (rl.step h r).2.1 ∧ (rl.step h r).2.2 = []) ∨
      ∃ n, (rl.step h r).2.1 = .done n ∧ Finished h₀ (rl.step h r).1 (rl.step h r).2.2 n := by
  obtain ⟨hscan, hmagic⟩ := rl.step_frame h r
  match rl with
  -- The list is still being made: it stays the same, though more of it is in the buffer.
  | .keys words taken buf =>
    refine .inl ⟨⟨?_, step_wellFormed ht.wellFormed h r, ?_, ht.emptied.step r,
      hscan.trans ht.keyScan, hmagic.trans ht.magic, ht.magic₀⟩, ?_⟩
    · intro n hdone
      match words, taken with
      | _, _ :: _ => cases hdone
      | _ :: _, [] => cases hdone
      | [], [] => cases hdone
    · rw [step_list ht.wellFormed h r]
      exact ht.list
    · rw [step_calls]
  -- The buffer is the whole list, and one call sends it.
  | .full buf =>
    have hbuf : buf = InputSender.releasesFrom h₀ := ht.list
    have hempty := eq_emptied ht.emptied ht.keyScan ht.magic
    right
    simp only [Releaser.step]
    split
    · next hnil =>
      refine ⟨0, rfl, ⟨r, ?_⟩, rfl⟩
      rw [InputSender.releaseHeldFrom_of_magic ht.magic₀, if_pos (hbuf.symm.trans hnil), ← hempty]
    · next hne =>
      refine ⟨(sendInput buf r).ok, rfl, ⟨r, ?_⟩, by simp⟩
      rw [InputSender.releaseHeldFrom_of_magic ht.magic₀, if_neg (by rwa [← hbuf]), ← hempty,
        ← hbuf]
  | .done n => exact absurd rfl (ht.running n)

end Releaser

/-! ### From the death on -/

namespace Guarded

/-- The `SendInput` calls of the guardian among the calls of all. -/
def fromGuardian (calls : List (Caller × SendCall)) : List SendCall :=
  (calls.filter fun c => c.1 = .guardian).map Prod.snd

theorem fromGuardian_append (calls more : List (Caller × SendCall)) :
    fromGuardian (calls ++ more) = fromGuardian calls ++ fromGuardian more := by
  simp [fromGuardian]

@[simp] theorem fromGuardian_guardian (calls : List SendCall) :
    fromGuardian (calls.map (Prod.mk .guardian)) = calls := by
  simp [fromGuardian, List.filter_map, Function.comp_def]

@[simp] theorem fromGuardian_crash (calls : List SendCall) :
    fromGuardian (calls.map (Prod.mk .crash)) = [] := by
  simp [fromGuardian, List.filter_map, Function.comp_def]

/-- At its death the process is watched and left no clean exit. -/
def Watching (d : Guarded) : Prop := d.guardian = .waiting ∧ d.cleanExit = false

instance (d : Guarded) : Decidable d.Watching := inferInstanceAs (Decidable (_ ∧ _))

/-- What becomes of the record of a process that dies as `d`, with the calls made for it. -/
def outcome (d : Guarded) (r : SendResult) : HeldShared × List SendCall :=
  if d.Watching then releaseHeldFrom d.record r else (d.record, [])

/-- What the guardian has done about the death `d` when it stands at a phase. -/
def Phase (d : Guarded) (record : HeldShared) (calls : List SendCall) : Guardian → Prop
  | .start | .opening _ => d.guardian ≠ .waiting ∧ record = d.record ∧ calls = []
  | .waiting => d.guardian = .waiting ∧ record = d.record ∧ calls = []
  | .releasing (.done n) => d.Watching ∧ Releaser.Finished d.record record calls n
  | .releasing rl => d.Watching ∧ Releaser.Toward d.record record rl ∧ calls = []
  | .exited rc =>
    (∃ r, d.outcome r = (record, calls)) ∧ (rc = 10 ↔ (calls.map SendCall.ok).sum ≠ 0) ∧
      (d.guardian = .waiting ↔ rc ≠ 2 ∧ rc ≠ 3)

/-- The state `w` some steps after the death of `d`. -/
structure Since (d w : Guarded) (calls : List SendCall) : Prop where
  dead : w.alive = false
  clean : w.cleanExit = d.cleanExit
  real : w.real = accept d.real calls
  phase : d.Phase w.record calls w.guardian

theorem accept_append (k : RealKeys) (calls more : List SendCall) :
    accept k (calls ++ more) = accept (accept k calls) more := by
  rw [accept, List.flatMap_append, RealKeys.acceptAll_append]
  rfl

theorem phase_releasing {d : Guarded} {record : HeldShared} {calls : List SendCall}
    {rl : Releaser} (hrun : ∀ n, rl ≠ .done n) :
    d.Phase record calls (.releasing rl) ↔
      d.Watching ∧ Releaser.Toward d.record record rl ∧ calls = [] := by
  cases rl with
  | keys words taken buf => rfl
  | full buf => rfl
  | done n => exact absurd rfl (hrun n)

/-- A release in progress makes its step. -/
theorem guardianStep_releasing {w : Guarded} {rl : Releaser} (hrun : ∀ n, rl ≠ .done n)
    (hw : w.guardian = .releasing rl) (ok : Bool) (r : SendResult) :
    w.guardianStep ok r =
      ({ w with
          record := (rl.step w.record r).1
          guardian := .releasing (rl.step w.record r).2.1
          real := accept w.real (rl.step w.record r).2.2 },
        (rl.step w.record r).2.2.map (Prod.mk .guardian)) := by
  cases rl with
  | keys words taken buf => simp [guardianStep, hw]
  | full buf => simp [guardianStep, hw]
  | done n => exact absurd rfl (hrun n)

/-- **What the guardian does after the death**, one step of it. -/
theorem Since.guardianStep {d w : Guarded} {calls : List SendCall} (h : Since d w calls)
    (ok : Bool) (r : SendResult) :
    Since d (w.guardianStep ok r).1 (calls ++ fromGuardian (w.guardianStep ok r).2) := by
  obtain ⟨hdead, hclean, hreal, hphase⟩ := h
  cases hg : w.guardian with
  | start =>
    rw [hg] at hphase
    obtain ⟨hnot, hrecord, rfl⟩ := hphase
    cases ok with
    | true =>
      simp only [Guarded.guardianStep, hg, if_true]
      exact ⟨hdead, hclean, hreal, hnot, hrecord, rfl⟩
    -- Without the parent's handle there is nothing to watch, and the record stays.
    | false =>
      simp only [Guarded.guardianStep, hg]
      refine ⟨hdead, hclean, hreal, ⟨r, ?_⟩, by simp [fromGuardian], by simp [hnot]⟩
      rw [outcome, if_neg fun hwatch => hnot hwatch.1, hrecord]
      rfl
  | opening tries =>
    rw [hg] at hphase
    obtain ⟨hnot, hrecord, rfl⟩ := hphase
    by_cases htries : tries < 50
    · have hstep : w.guardianStep ok r = ({ w with guardian := .opening (tries + 1) }, []) := by
        simp [Guarded.guardianStep, hg, htries, hdead]
      rw [hstep]
      exact ⟨hdead, hclean, hreal, hnot, hrecord, rfl⟩
    -- After fifty tries the mapping is given up.
    · simp only [Guarded.guardianStep, hg, if_neg htries]
      refine ⟨hdead, hclean, hreal, ⟨r, ?_⟩, by simp [fromGuardian], by simp [hnot]⟩
      rw [outcome, if_neg fun hwatch => hnot hwatch.1, hrecord]
      rfl
  | waiting =>
    rw [hg] at hphase
    obtain ⟨hwait, hrecord, rfl⟩ := hphase
    cases hexit : w.cleanExit with
    | true =>
      have hstep : w.guardianStep ok r = ({ w with guardian := .exited 0 }, []) := by
        simp [Guarded.guardianStep, hg, hdead, hexit]
      rw [hstep]
      refine ⟨hdead, hclean, hreal, ⟨r, ?_⟩, by simp [fromGuardian], by simp [hwait]⟩
      -- A clean exit was marked before the death, so the guardian lets the record be.
      have hnot : ¬ d.Watching := fun hwatch => by
        rw [hexit, hwatch.2] at hclean
        exact absurd hclean (by simp)
      rw [outcome, if_neg hnot, hrecord]
      rfl
    | false =>
      have hwatch : d.Watching := ⟨hwait, by rw [← hclean, hexit]⟩
      have hstep : w.guardianStep ok r =
          ({ w with guardian := .releasing (Releaser.enter w.record) }, []) := by
        simp [Guarded.guardianStep, hg, hdead, hexit]
      rw [hstep]
      refine ⟨hdead, hclean, hreal, ?_⟩
      show d.Phase w.record _ (.releasing (Releaser.enter w.record))
      rw [hrecord]
      -- A record that was never set up is given up before the first release.
      by_cases hmagic : d.record.magic = kMagic
      · have htoward := Releaser.enter_toward hmagic
        exact (phase_releasing htoward.running).mpr ⟨hwatch, htoward, rfl⟩
      · obtain ⟨henter, hfinished⟩ := Releaser.enter_finished hmagic
        rw [henter]
        exact ⟨hwatch, hfinished⟩
  | releasing rl =>
    rw [hg] at hphase
    by_cases hrun : ∀ n, rl ≠ .done n
    · obtain ⟨hwatch, htoward, rfl⟩ := (phase_releasing hrun).mp hphase
      rw [guardianStep_releasing hrun hg, fromGuardian_guardian]
      refine ⟨hdead, hclean, ?_, ?_⟩
      · rw [accept_append, ← hreal]
      · show d.Phase (rl.step w.record r).1 ([] ++ (rl.step w.record r).2.2)
          (.releasing (rl.step w.record r).2.1)
        rw [List.nil_append]
        -- The pass goes on towards the whole release, or has just finished it.
        rcases htoward.step r with ⟨hnext, hcalls⟩ | ⟨n, hdone, hfinished⟩
        · exact (phase_releasing hnext.running).mpr ⟨hwatch, hnext, hcalls⟩
        · rw [hdone]
          exact ⟨hwatch, hfinished⟩
    · obtain ⟨n, rfl⟩ := not_forall_not.mp hrun
      obtain ⟨hwatch, ⟨r', hreleased⟩, hcount⟩ := hphase
      simp only [Guarded.guardianStep, hg]
      refine ⟨hdead, hclean, by simpa [fromGuardian] using hreal, ⟨r', ?_⟩, ?_, ?_⟩
      · rw [outcome, if_pos hwatch, hreleased]
        simp [fromGuardian]
      -- The number of releases decides nothing but the exit code.
      · by_cases hn : n = 0
        · simp [fromGuardian, hn, ← hcount]
        · simp [fromGuardian, hn, ← hcount]
      · by_cases hn : n = 0 <;> simp [hn, hwatch.1]
  | exited rc =>
    rw [hg] at hphase
    simp only [Guarded.guardianStep, hg]
    exact ⟨hdead, hclean, by simpa [fromGuardian] using hreal, by simpa [fromGuardian] using hphase⟩

/-- Of a dead process only the guardian moves. -/
theorem step_dead {w : Guarded} (hdead : w.alive = false) (a : GuardAct) :
    w.step a = (w, []) ∨ ∃ ok r, a = .guardian ok r := by
  cases a with
  | call op => exact .inl (by simp [step, hdead])
  | go => exact .inl (by simp [step, hdead])
  | crash r => exact .inl (by simp [step, hdead])
  | markCleanExit => exact .inl (by simp [step, hdead])
  | die =>
    left
    obtain ⟨sender, work, record, cleanExit, inCrash, alive, guardian, real⟩ := w
    obtain rfl : alive = false := hdead
    rfl
  | guardian ok r => exact .inr ⟨ok, r, rfl⟩

theorem Since.step {d w : Guarded} {calls : List SendCall} (h : Since d w calls)
    (a : GuardAct) :
    Since d (guardedMachine.next w a) (calls ++ fromGuardian (guardedMachine.out w a)) := by
  rcases step_dead h.dead a with hstep | ⟨ok, r, rfl⟩
  · simp only [Machine.next, Machine.out, guardedMachine, hstep]
    simpa [fromGuardian] using h
  · exact h.guardianStep ok r

/-- Where the guardian of a living process can stand. -/
def Early : Guardian → Prop
  | .releasing _ => False
  | .exited rc => rc = 2 ∨ rc = 3
  | _ => True

/-- A step of the process leaves the guardian where it is. -/
structure Others (w : Guarded) (out : Guarded × List (Caller × SendCall)) : Prop where
  guardian : out.1.guardian = w.guardian
  calls : fromGuardian out.2 = []
  alive : out.1.alive = true → w.alive = true

theorem others_sent (w : Guarded) (ins : List INPUT) (r : SendResult) (again : Option Retry) :
    Others w (w.sent ins r again) := by
  unfold sent
  split <;> exact ⟨rfl, rfl, id⟩

theorem others_step (w : Guarded) {a : GuardAct} (hnot : ∀ ok r, a ≠ .guardian ok r) :
    Others w (w.step a) := by
  cases a with
  | call op =>
    simp only [step]
    split
    · cases op with
      | send ins r => exact others_sent w ins r none
      | releaseAll r retry => exact others_sent w _ r _
    · exact ⟨rfl, rfl, id⟩
  | go =>
    simp only [step, go]
    split
    · split <;> exact ⟨rfl, rfl, id⟩
    · exact ⟨rfl, rfl, id⟩
  | crash r =>
    simp only [step, crashStep]
    split
    · split
      · exact ⟨rfl, rfl, id⟩
      · exact ⟨rfl, fromGuardian_crash _, id⟩
    · exact ⟨rfl, rfl, id⟩
  | markCleanExit =>
    simp only [step]
    split <;> exact ⟨rfl, rfl, id⟩
  | die => exact ⟨rfl, rfl, fun h => absurd h (by simp [step])⟩
  | guardian ok r => exact absurd rfl (hnot ok r)

theorem guardianStep_frame (w : Guarded) (ok : Bool) (r : SendResult) :
    (w.guardianStep ok r).1.alive = w.alive ∧
      (w.guardianStep ok r).1.cleanExit = w.cleanExit ∧
      (w.guardianStep ok r).1.sender = w.sender ∧ (w.guardianStep ok r).1.work = w.work ∧
      (w.guardianStep ok r).1.inCrash = w.inCrash := by
  unfold guardianStep
  split
  · exact ⟨rfl, rfl, rfl, rfl, rfl⟩
  · split <;> exact ⟨rfl, rfl, rfl, rfl, rfl⟩
  · split
    · exact ⟨rfl, rfl, rfl, rfl, rfl⟩
    · split <;> exact ⟨rfl, rfl, rfl, rfl, rfl⟩
  · exact ⟨rfl, rfl, rfl, rfl, rfl⟩
  · exact ⟨rfl, rfl, rfl, rfl, rfl⟩
  · exact ⟨rfl, rfl, rfl, rfl, rfl⟩

/-- The guardian of a living process does not get to release. -/
theorem early_guardianStep {w : Guarded} (halive : w.alive = true) (h : Early w.guardian)
    (ok : Bool) (r : SendResult) :
    Early (w.guardianStep ok r).1.guardian ∧ fromGuardian (w.guardianStep ok r).2 = [] := by
  cases hg : w.guardian with
  | start =>
    simp only [guardianStep, hg]
    cases ok <;> simp [Early, fromGuardian]
  | opening tries =>
    simp only [guardianStep, hg]
    split
    · cases w.alive && ok <;> simp [Early, fromGuardian]
    · simp [Early, fromGuardian]
  | waiting => simp [guardianStep, hg, halive, Early, fromGuardian]
  | releasing rl =>
    rw [hg] at h
    exact absurd h id
  | exited rc =>
    rw [hg] at h
    simpa [guardianStep, hg, fromGuardian] using h

/-- **While the process lives its guardian sends nothing.** -/
theorem early (acts : List GuardAct) (halive : (guardedMachine.after {} acts).alive = true) :
    Early (guardedMachine.after {} acts).guardian ∧
      fromGuardian (guardedMachine.trace {} acts) = [] := by
  have hrun := guardedMachine.history
    (I := fun w calls => w.alive = true → Early w.guardian ∧ fromGuardian calls = [])
    (fun w calls a h halive => ?_) (s := {}) (fun _ => ⟨trivial, rfl⟩) acts
  · exact hrun halive
  · by_cases ha : ∃ ok r, a = .guardian ok r
    · obtain ⟨ok, r, rfl⟩ := ha
      have hw : w.alive = true := by
        rw [← (w.guardianStep_frame ok r).1]
        exact halive
      obtain ⟨hearly, hcalls⟩ := h hw
      obtain ⟨hnext, hout⟩ := early_guardianStep hw hearly ok r
      refine ⟨hnext, ?_⟩
      rw [fromGuardian_append, hcalls]
      exact hout
    · have hothers := w.others_step (a := a) fun ok r heq => ha ⟨ok, r, heq⟩
      obtain ⟨hearly, hcalls⟩ := h (hothers.alive halive)
      refine ⟨?_, ?_⟩
      · show Early (w.step a).1.guardian
        rwa [hothers.guardian]
      · rw [fromGuardian_append, hcalls]
        exact hothers.calls

/-- At the death nothing is done about it yet. -/
theorem since_die {d : Guarded} (hearly : Early d.guardian) :
    Since d (guardedMachine.next d .die) [] := by
  refine ⟨rfl, rfl, rfl, ?_⟩
  show d.Phase d.record [] d.guardian
  cases hg : d.guardian with
  | start => exact ⟨by simp [hg], rfl, rfl⟩
  | opening tries => exact ⟨by simp [hg], rfl, rfl⟩
  | waiting => exact ⟨hg, rfl, rfl⟩
  | releasing rl =>
    rw [hg] at hearly
    exact absurd hearly id
  | exited rc =>
    rw [hg] at hearly
    have hnot : ¬ d.Watching := fun hwatch => by
      rw [Watching, hg] at hwatch
      exact absurd hwatch.1 (by simp)
    refine ⟨⟨{}, ?_⟩, ?_, ?_⟩
    · rw [outcome, if_neg hnot]
    · rcases hearly with rfl | rfl <;> simp
    · rcases hearly with rfl | rfl <;> simp [hg]

theorem since_after {d w : Guarded} {calls : List SendCall} (h : Since d w calls)
    (acts : List GuardAct) :
    Since d (guardedMachine.after w acts)
      (calls ++ fromGuardian (guardedMachine.trace w acts)) := by
  induction acts generalizing w calls with
  | nil => simpa [fromGuardian] using h
  | cons a acts ih =>
    have hlater := ih (h.step a)
    rw [Machine.trace_cons, fromGuardian_append, ← List.append_assoc]
    exact hlater

/-- **What the guardian makes of a death.**  However the threads of the process, its crash
    handler and the guardian were interleaved before, when the process dies as `d` and the
    guardian comes to its end, the guardian has sent exactly the releases of the record of
    `d`, once, and emptied it, if it had the section open and no clean exit was marked, and
    has sent nothing otherwise; its exit code says which. -/
theorem guardian_outcome (before later : List GuardAct) (rc : ℕ)
    (halive : (guardedMachine.after {} before).alive = true)
    (hexit : (guardedMachine.after {} (before ++ .die :: later)).guardian = .exited rc) :
    ∃ r, fromGuardian (guardedMachine.trace {} (before ++ .die :: later)) =
        ((guardedMachine.after {} before).outcome r).2 ∧
      (guardedMachine.after {} (before ++ .die :: later)).record =
        ((guardedMachine.after {} before).outcome r).1 ∧
      (guardedMachine.after {} (before ++ .die :: later)).real =
        accept (guardedMachine.after {} before).real
          ((guardedMachine.after {} before).outcome r).2 ∧
      (rc = 10 ↔ ((((guardedMachine.after {} before).outcome r).2).map SendCall.ok).sum ≠ 0) ∧
      ((guardedMachine.after {} before).guardian = .waiting ↔ rc ≠ 2 ∧ rc ≠ 3) := by
  -- Up to the death the guardian has sent nothing, so all its calls come after it.
  obtain ⟨hearly, hsilent⟩ := early before halive
  rw [Machine.after_append, Machine.after_cons] at hexit
  rw [Machine.after_append, Machine.after_cons, Machine.trace_append, fromGuardian_append, hsilent,
    Machine.trace_cons, fromGuardian_append]
  generalize guardedMachine.after {} before = d at halive hexit hearly ⊢
  have hsince := since_after (since_die hearly) later
  obtain ⟨-, -, hreal, hphase⟩ := hsince
  rw [hexit] at hphase
  obtain ⟨⟨r, houtcome⟩, hten, hwaiting⟩ := hphase
  rw [List.nil_append] at houtcome hten hreal
  refine ⟨r, ?_, ?_, ?_, ?_, hwaiting⟩
  · rw [houtcome]
    rfl
  · rw [houtcome]
  · rw [houtcome]
    exact hreal
  · rw [houtcome]
    exact hten

/-- The guardian opens the section and the left button goes down and is recorded. -/
def heldLeft : List GuardAct :=
  [.guardian true {}, .guardian true {}, .call InputSender.leftPress] ++ List.replicate 9 .go

/-- The steps of a guardian that finds one button recorded. -/
def watched : List GuardAct := List.replicate 12 (.guardian true {})

/-- Killed with the left button down, the process leaves its release to the guardian. -/
theorem guardian_outcome_heldLeft :
    ∃ r, fromGuardian (guardedMachine.trace {} (heldLeft ++ .die :: watched)) =
        ((guardedMachine.after {} heldLeft).outcome r).2 ∧
      (guardedMachine.after {} (heldLeft ++ .die :: watched)).record =
        ((guardedMachine.after {} heldLeft).outcome r).1 ∧
      (guardedMachine.after {} (heldLeft ++ .die :: watched)).real =
        accept (guardedMachine.after {} heldLeft).real
          ((guardedMachine.after {} heldLeft).outcome r).2 ∧
      (10 = 10 ↔
        ((((guardedMachine.after {} heldLeft).outcome r).2).map SendCall.ok).sum ≠ 0) ∧
      ((guardedMachine.after {} heldLeft).guardian = .waiting ↔ 10 ≠ 2 ∧ 10 ≠ 3) :=
  guardian_outcome heldLeft watched 10 (by decide +kernel) (by decide +kernel)

end Guarded

end InfinityClicker
