import InfinityClicker.Scheduler.ThreadMoves

namespace InfinityClicker

open Machines InputSender

/-!
# Backpressure of MAX runs

A MAX run holds its next call back while more than `maxInflight` of its own events are accepted
and not yet seen by the hook, counted from what was in flight when the run started.

* `hookMachine` — the engine with the hook's counter beside it, which sees accepted events late
  and in any order;
* `Backlog` — what is counted beside it: the runs, what was in flight when the latest one
  started, and the release events;
* `Thread.step_accepts` — a step adds release events to what is accepted, or a batch below the
  limit;
* `in_flight_bound` — a run keeps what is in flight within its limit, one batch and the releases
  above where it started; and so do all of them together.
-/

/-! ### The hook's counter -/

/-- What happens next beside the engine's hook. -/
inductive HookAct where
  | engine (a : Act)
  /-- The hook sees one more of the accepted events. -/
  | sees

/-- The engine and `observedOurs`; the engine's thread reads the counter where it looks. -/
def hookMachine (P : Platform) : Machine (Thread × ℕ) HookAct Event where
  step x
    | .engine (.thread o) =>
      let r := x.1.step P { o with observed := some x.2 }
      ((r.1, x.2), r.2)
    | .engine a => (((engineMachine P).next x.1 a, x.2), [])
    | .sees => ((x.1, if x.2 < x.1.e.sender.accepted then x.2 + 1 else x.2), [])

/-- The accepted events the hook has not seen. -/
def inFlight (x : Thread × ℕ) : ℤ := x.1.e.sender.accepted - x.2

/-- The calls of `SendInput` among the events of a step that carry releases. -/
def releasedOf (events : List Event) : List SendCall :=
  events.filterMap fun
    | .released c => some c
    | _ => none

def Event.startsRun : Event → Bool
  | .runStarted _ _ => true
  | _ => false

/-- What is counted beside the engine. -/
structure Backlog where
  /-- Runs started. -/
  runs : ℕ := 0
  /-- In flight when the latest of them started. -/
  base : ℤ := 0
  /-- Release events accepted since then. -/
  released : ℕ := 0
  /-- Release events accepted before. -/
  before : ℕ := 0
deriving DecidableEq, Repr

/-- All release events accepted. -/
def Backlog.releases (r : Backlog) : ℕ := r.before + r.released

/-- The count after a step with its events. -/
def Backlog.next (x : Thread × ℕ) (r : Backlog) (_ : HookAct) (events : List Event) : Backlog :=
  if events.any Event.startsRun then
    { runs := r.runs + 1
      base := inFlight x
      released := okEvents (releasedOf events)
      before := r.releases }
  else { r with released := r.released + okEvents (releasedOf events) }

/-- The engine and the hook with the count beside them. -/
def backlogMachine (P : Platform) : Machine ((Thread × ℕ) × Backlog) HookAct Event :=
  (hookMachine P).watch Backlog.next

/-- The events of one call of a MAX run. -/
def Engine.batchEvents (e : Engine) : ℕ := e.buildBatch.2.2 * e.buildBatch.2.1

/-- A run of the thread is a MAX run with the limit `M`, in batches of at most `K` events. -/
def Thread.RunsMax (M K : ℕ) (t : Thread) : Prop :=
  t.loc.inRun = true →
    t.e.cfg.maxMode = true ∧ t.e.cfg.maxInflight.toNat = M ∧ t.e.batchEvents ≤ K

/-- Every run is a MAX run with the limit `M`, in batches of at most `K` events. -/
def KeepsLimit (P : Platform) (M K : ℕ) (x : (Thread × ℕ) × Backlog) (a : HookAct) : Prop :=
  ((backlogMachine P).next x a).1.1.RunsMax M K

instance (M K : ℕ) (t : Thread) : Decidable (t.RunsMax M K) :=
  inferInstanceAs (Decidable (_ → _))

instance (P : Platform) (M K : ℕ) (x : (Thread × ℕ) × Backlog) (a : HookAct) :
    Decidable (KeepsLimit P M K x a) := inferInstanceAs (Decidable (Thread.RunsMax _ _ _))

/-! ### What a step adds to the accepted events -/

theorem okEvents_callsOf (events : List Event) (h : sentOf events = []) :
    okEvents (callsOf events) = okEvents (releasedOf events) := by
  have hsame : callsOf events = releasedOf events := by
    induction events with
    | nil => rfl
    | cons ev events ih =>
      cases ev with
      | sent c => simp [sentOf] at h
      | released c =>
        have htail := ih (by simpa [sentOf] using h)
        simpa [releasedOf] using htail
      | _ => simpa [releasedOf] using ih (by simpa [sentOf] using h)
  rw [hsame]

/-- A move of the sender accepts at most what its calls accept. -/
theorem SenderMove.accepted {o : Obs} {s s' : InputSender} {calls : List SendCall}
    (h : SenderMove o s s' calls) :
    s.accepted ≤ s'.accepted ∧ s'.accepted ≤ s.accepted + okEvents calls := by
  have hsend : ∀ ins r, (s.send ins r).sender.accepted = s.accepted + r.accepted ins.length ∧
      okEvents (s.send ins r).calls = r.accepted ins.length := by
    intro ins r
    obtain ⟨-, hcalls, -, hacc⟩ := s.send_spec ins r
    refine ⟨hacc, ?_⟩
    rw [hcalls]
    split
    · next hnil =>
      have hzero := r.accepted_le 0
      simp only [hnil, List.length_nil, okEvents, List.map_nil, List.sum_nil]
      omega
    · simp [okEvents, sendInput]
  cases h with
  | stay => exact ⟨le_refl _, Nat.le_add_right _ _⟩
  | send ins =>
    obtain ⟨hacc, hcalls⟩ := hsend ins o.sent
    rw [hacc, hcalls]
    exact ⟨Nat.le_add_right _ _, le_refl _⟩
  | releaseAll =>
    obtain ⟨hacc, hcalls⟩ := hsend s.releases o.release
    by_cases hno : s.NoRetry (.releaseAll o.release o.retry)
    · rw [s.releaseAll_of_noRetry _ _ hno, hacc, hcalls]
      exact ⟨Nat.le_add_right _ _, le_refl _⟩
    · -- The retry's events are accepted and not counted.
      obtain ⟨hsender, hcalls', -⟩ := s.releaseAll_of_retry _ _ hno
      have htrack := (trackAll_counters (s.send s.releases o.release).sender s.releases).2
      have hsame : (s.releaseAll o.release o.retry).sender.accepted =
          s.accepted + o.release.accepted s.releases.length := by
        rw [hsender, ← hacc, ← htrack]
        rfl
      rw [hsame, hcalls']
      simp only [okEvents, sendInput, List.map_cons, List.sum_cons]
      omega

namespace Loc

/-- The locals of `runMax`. -/
def maxLocals : Loc → Option MaxLocals
  | .max l | .maxConfig l | .maxGate l | .maxPause l _ | .maxSend l _ => some l
  | _ => none

end Loc

variable {P : Platform}

/-- The call of a MAX run passes at most a batch. -/
theorem Engine.maxInputs_length (e : Engine) (l : MaxLocals) :
    (e.maxInputs l).length ≤ l.B * l.per := by
  have hactions : e.maxActions l ≤ l.B := by
    unfold maxActions
    split
    · exact le_refl _
    · exact Nat.min_le_left _ _
  rw [maxInputs, List.length_take]
  exact (Nat.min_le_left _ _).trans (Nat.mul_le_mul_right _ hactions)

/-- **What a step accepts**: release events, or a batch of a MAX run that is not behind. -/
theorem Thread.step_accepts {t : Thread} {o : Obs}
    (hplace : t.loc.inRun = true → t.loc.maxLocals.isSome = true) :
    t.e.sender.accepted ≤ (t.step P o).1.e.sender.accepted ∧
      ((t.step P o).1.e.sender.accepted ≤
          t.e.sender.accepted + okEvents (releasedOf (t.step P o).2) ∨
        ∃ l now, t.loc = .maxSend l now ∧ t.e.behind l o = false ∧
          (t.step P o).1.e.sender.accepted ≤ t.e.sender.accepted + l.B * l.per) := by
  have hmove := (t.step_sender P o).accepted
  refine ⟨hmove.1, ?_⟩
  -- A step without a send of its own accepts no more than its releases.
  by_cases hsent : sentOf (t.step P o).2 = []
  · rw [okEvents_callsOf _ hsent] at hmove
    exact .inl hmove.2
  · -- Only the send of a MAX run is left.
    have hloc : ∃ l now, t.loc = .maxSend l now := by
      by_contra hno
      apply hsent
      apply sentOf_eq_nil
      intro ev hev c hc
      have hemits := t.step_emits P o ev hev
      subst hc
      cases hloc : t.loc with
      | maxSend l now => exact hno ⟨l, now, hloc⟩
      | timedAct l =>
        have hmax := hplace (by rw [hloc]; rfl)
        simp [hloc, Loc.maxLocals] at hmax
      | _ => simp [hloc, Loc.emits] at hemits
    obtain ⟨l, now, hloc⟩ := hloc
    refine .inr ⟨l, now, hloc, ?_⟩
    obtain ⟨e, loc⟩ := t
    obtain rfl : loc = .maxSend l now := hloc
    cases hbehind : e.behind l o with
    | true =>
      refine absurd ?_ hsent
      simp [Thread.step, Engine.stepMaxSend, hbehind]
    | false =>
      refine ⟨rfl, ?_⟩
      have hfire : Thread.step P ⟨e, .maxSend l now⟩ o = e.fireMax P l o := by
        simp [Thread.step, Engine.stepMaxSend, hbehind]
      -- A send of MAX accepts at most its batch.
      obtain ⟨-, -, -, hacc⟩ := e.sender.send_spec (e.maxInputs l) o.sent
      have hle := o.sent.accepted_le (e.maxInputs l).length
      have hlength := e.maxInputs_length l
      rw [hfire, (e.fireMax_sends P l o).sender, hacc]
      show e.sender.accepted + _ ≤ e.sender.accepted + _
      omega

/-- The locals `l'` come of `l` in a step that leaves the engine `e`: the base stays, and so does
    the batch unless it is built anew. -/
structure MaxLocals.Follows (l : MaxLocals) (e : Engine) (l' : MaxLocals) : Prop where
  base : l'.bpBase = l.bpBase
  batch : l'.B * l'.per = l.B * l.per ∨ l'.B * l'.per = e.batchEvents

/-- **The places of a MAX run** lead to one another, and to the run's end. -/
theorem Thread.step_maxLocals {t : Thread} {o : Obs} {l : MaxLocals}
    (hplace : t.loc.maxLocals = some l) : (t.step P o).1.loc = .ending ∨
      ∃ l', (t.step P o).1.loc.maxLocals = some l' ∧ l.Follows (t.step P o).1.e l' := by
  obtain ⟨e, loc⟩ := t
  cases loc with
  | max l' =>
    obtain rfl : l' = l := Option.some.inj hplace
    simp only [step, Engine.stepMax]
    split
    · exact .inl rfl
    · exact .inr ⟨l', rfl, rfl, .inl rfl⟩
  | maxConfig l' =>
    obtain rfl : l' = l := Option.some.inj hplace
    simp only [step, Engine.stepMaxConfig]
    split
    · exact .inr ⟨l', rfl, rfl, .inl rfl⟩
    · split
      · exact .inl rfl
      -- The programs were rebuilt, and the batch with them.
      · exact .inr ⟨_, rfl, rfl, .inr rfl⟩
  | maxGate l' =>
    obtain rfl : l' = l := Option.some.inj hplace
    simp only [step, Engine.stepMaxGate]
    split
    · exact .inl rfl
    · split
      · exact .inl rfl
      · split
        · split <;> exact .inr ⟨_, rfl, rfl, .inl rfl⟩
        · exact .inr ⟨l', rfl, rfl, .inl rfl⟩
  | maxPause l' now =>
    obtain rfl : l' = l := Option.some.inj hplace
    apply e.stepPause_rule
      (I := fun t => t.loc = .ending ∨ ∃ l, t.loc.maxLocals = some l ∧ l'.Follows t.e l) o
    · intro e' _
      exact .inl rfl
    · intro e' _
      exact ⟨.inr ⟨l', rfl, rfl, .inl rfl⟩, .inr ⟨l', rfl, rfl, .inl rfl⟩⟩
  | maxSend l' now =>
    obtain rfl : l' = l := Option.some.inj hplace
    simp only [step, Engine.stepMaxSend]
    split
    · exact .inr ⟨_, rfl, rfl, .inl rfl⟩
    · exact .inr ⟨_, rfl, rfl, .inl rfl⟩
  | _ => simp [Loc.maxLocals] at hplace

/-! ### The start of a run -/

/-- A release starts no run. -/
theorem Engine.releaseEvents_start (e : Engine) (r retry : SendResult) :
    (e.releaseEvents r retry).any Event.startsRun = false := by
  simp [releaseEvents, Event.startsRun]

/-- A step with its events from outside a run, with `base` in flight: it stays outside, or it
    starts a run, with the sender left alone; a MAX run takes `base` for its base. -/
def StartsAt (s : InputSender) (base : ℤ) (x : Thread × List Event) : Prop :=
  (x.2.any Event.startsRun = false ∧ x.1.loc.inRun = false) ∨
    (x.2.any Event.startsRun = true ∧ x.1.e.sender = s ∧
      (x.1.loc.inRun = true → x.1.e.cfg.maxMode = true →
        ∃ l, x.1.loc.maxLocals = some l ∧ l.bpBase = base ∧ l.B * l.per = x.1.e.batchEvents))

theorem Engine.doRun_base {e : Engine} {o : Obs} {seen : ℕ} (hseen : o.observed = some seen)
    (lim : RunLimits) (q : ℤ) :
    StartsAt e.sender ((e.sender.accepted : ℤ) - seen) (e.doRun P lim q o) := by
  unfold doRun
  split
  · exact .inl ⟨rfl, rfl⟩
  · refine .inr ⟨rfl, ?_⟩
    dsimp only
    generalize hb : ((e.tick (o.dt 1)).beginRun P lim (e.tick (o.dt 1)).clock).publish P
      (e.tick (o.dt 1)).clock true = b
    have hsender : b.sender = e.sender := by
      rw [← hb]
      simp
    split
    · unfold enterMax
      split
      · exact ⟨hsender, fun hin => absurd hin (by simp [Loc.inRun])⟩
      · rw [hseen]
        refine ⟨hsender, fun _ _ => ⟨_, rfl, ?_, rfl⟩⟩
        show (b.sender.accepted : ℤ) - seen = _
        rw [hsender]
    · next hmode => exact ⟨hsender, fun _ hmax => absurd hmax hmode⟩

/-- **A step from outside a run.** -/
theorem Thread.step_starts {t : Thread} {o : Obs} {seen : ℕ} (hseen : o.observed = some seen)
    (hout : t.loc.inRun = false) :
    StartsAt t.e.sender (inFlight (t, seen)) (t.step P o) := by
  obtain ⟨e, loc⟩ := t
  cases loc with
  | idle =>
    simp only [step]
    split <;> exact .inl ⟨rfl, rfl⟩
  | commands cmds b =>
    cases cmds with
    | cons c cs =>
      refine .inl ⟨?_, rfl⟩
      cases c with
      | emergency q => exact e.releaseEvents_start o.release o.retry
      | _ => rfl
    | nil =>
      simp only [step, Engine.stepCommands]
      split
      · exact .inl ⟨Engine.releaseEvents_start _ _ _, rfl⟩
      · split
        · have hrun := Engine.doRun_base (P := P)
            (e := (e.tick (o.dt 0)).publish P (e.tick (o.dt 0)).clock true) hseen b.lim b.trigQ
          simpa [inFlight] using hrun
        · exact .inl ⟨rfl, rfl⟩
  | ending =>
    refine .inl ⟨?_, rfl⟩
    show (_ ++ [Event.runEnded]).any Event.startsRun = false
    rw [List.any_append, Engine.releaseEvents_start]
    rfl
  | done => exact .inl ⟨rfl, rfl⟩
  | _ => simp [Loc.inRun] at hout

/-- A step inside a run starts none. -/
theorem Thread.step_in_run {t : Thread} {o : Obs} (hin : t.loc.inRun = true) :
    (t.step P o).2.any Event.startsRun = false := by
  apply List.any_eq_false.mpr
  intro ev hev hstart
  have hemits := t.step_emits P o ev hev
  cases ev with
  | runStarted q endQpc =>
    cases hloc : t.loc with
    | commands cmds b => simp [hloc, Loc.inRun] at hin
    | _ => simp [hloc, Loc.emits] at hemits
  | _ => simp [Event.startsRun] at hstart

/-! ### The invariant -/

/-- What a run may add to what is in flight, beside its releases. -/
def Backlog.window (r : Backlog) (M K : ℕ) : ℤ := if r.runs = 0 then 0 else M + K

/-- The count is what the thread goes by, and the limits are kept. -/
structure Within (M K : ℕ) (x : Thread × ℕ) (r : Backlog) : Prop where
  seen : x.2 ≤ x.1.e.sender.accepted
  base : x.1.loc.inRun = true → r.runs ≠ 0 ∧
    ∃ l, x.1.loc.maxLocals = some l ∧ l.bpBase = r.base ∧ l.B * l.per ≤ K
  inFlight : inFlight x ≤ r.base + r.window M K + r.released
  total : r.base + r.window M K + r.released ≤ r.runs * (M + K : ℕ) + r.releases

namespace Within

variable {M K : ℕ} {x : Thread × ℕ} {r : Backlog}

/-- The hook sees an event. -/
theorem sees (h : Within M K x r) : Within M K
    (x.1, if x.2 < x.1.e.sender.accepted then x.2 + 1 else x.2) r := by
  have hseen := h.seen
  have hin := h.inFlight
  refine ⟨?_, h.base, ?_, h.total⟩
  · dsimp only
    split <;> omega
  · simp only [InfinityClicker.inFlight] at hin ⊢
    split <;> push_cast <;> omega

/-- A step that starts no run adds release events, or stays within the window. -/
theorem go_on (h : Within M K x r) {t' : Thread} {n : ℕ}
    (hmono : x.1.e.sender.accepted ≤ t'.e.sender.accepted)
    (hadd : t'.e.sender.accepted ≤ x.1.e.sender.accepted + n ∨
      InfinityClicker.inFlight (t', x.2) ≤ r.base + r.window M K)
    (hbase : t'.loc.inRun = true → r.runs ≠ 0 ∧
      ∃ l, t'.loc.maxLocals = some l ∧ l.bpBase = r.base ∧ l.B * l.per ≤ K) :
    Within M K (t', x.2) { r with released := r.released + n } := by
  have hseen := h.seen
  have hin := h.inFlight
  have htotal := h.total
  have hwindow : Backlog.window { r with released := r.released + n } M K = r.window M K := rfl
  refine ⟨hseen.trans hmono, hbase, ?_, ?_⟩
  · rw [hwindow]
    simp only [InfinityClicker.inFlight] at hin hadd ⊢
    push_cast
    omega
  · rw [hwindow]
    simp only [Backlog.releases] at htotal ⊢
    push_cast at htotal ⊢
    omega

/-- A step inside a MAX run. -/
theorem step_run (h : Within M K x r) (hM : 0 < M) {o : Obs} (ho : o.observed = some x.2)
    (hin : x.1.loc.inRun = true) (hruns : x.1.RunsMax M K)
    (hruns' : (x.1.step P o).1.RunsMax M K) :
    Within M K ((x.1.step P o).1, x.2) (r.next x (.engine (.thread o)) (x.1.step P o).2) := by
  obtain ⟨hne, l, hplace, hbase, hbatch⟩ := h.base hin
  have hnext : r.next x (.engine (.thread o)) (x.1.step P o).2 =
      { r with released := r.released + okEvents (releasedOf (x.1.step P o).2) } := by
    rw [Backlog.next, Thread.step_in_run hin]
    rfl
  obtain ⟨hmono, hadd⟩ := Thread.step_accepts (P := P) (t := x.1) (o := o)
    fun _ => by rw [hplace]; rfl
  rw [hnext]
  apply h.go_on hmono
  -- A release is counted as one, a batch is limited by the check before it.
  · rcases hadd with hadd | ⟨l', now, hloc, hbehind, hadd⟩
    · exact .inl hadd
    · -- Not behind: before the call no more than `M` above the base.
      refine .inr ?_
      obtain rfl : l' = l := by
        rw [hloc] at hplace
        exact Option.some.inj hplace
      have hlimit : (x.1.e.sender.accepted : ℤ) - x.2 - r.base ≤ M := by
        have hinflight := (hruns hin).2.1
        have hpos : x.1.e.cfg.maxInflight ≠ 0 := by
          intro hzero
          rw [hzero] at hinflight
          exact absurd hinflight.symm (by simpa using hM.ne')
        have hfew : ¬ x.1.e.cfg.maxInflight = 0 →
            (x.1.e.sender.accepted : ℤ) ≤ M + r.base + x.2 := by
          simpa [Engine.behind, ho, hinflight, hbase] using hbehind
        have hle := hfew hpos
        omega
      rw [Backlog.window, if_neg hne]
      simp only [InfinityClicker.inFlight]
      omega
  · intro hin'
    refine ⟨hne, ?_⟩
    rcases Thread.step_maxLocals (P := P) (o := o) hplace with hend | ⟨l', hplace', hfollows⟩
    · rw [hend] at hin'
      exact absurd hin' (by simp [Loc.inRun])
    · refine ⟨l', hplace', hfollows.base.trans hbase, ?_⟩
      rcases hfollows.batch with hsame | hnew
      · rw [hsame]
        exact hbatch
      · rw [hnew]
        exact (hruns' hin').2.2

/-- A step outside a run: the next one starts from what is in flight. -/
theorem step_out (h : Within M K x r) {o : Obs} (ho : o.observed = some x.2)
    (hout : x.1.loc.inRun = false) (hruns' : (x.1.step P o).1.RunsMax M K) :
    Within M K ((x.1.step P o).1, x.2) (r.next x (.engine (.thread o)) (x.1.step P o).2) := by
  rcases Thread.step_starts (P := P) ho hout with ⟨hstart, hout'⟩ | ⟨hstart, hsender, hplace⟩
  · have hnext : r.next x (.engine (.thread o)) (x.1.step P o).2 =
        { r with released := r.released + okEvents (releasedOf (x.1.step P o).2) } := by
      rw [Backlog.next, hstart]
      rfl
    obtain ⟨hmono, hadd⟩ := Thread.step_accepts (P := P) (t := x.1) (o := o)
      fun hin => absurd hin (by simp [hout])
    rw [hnext]
    apply h.go_on hmono
    -- Outside a run nothing but a release is sent.
    · rcases hadd with hadd | ⟨l, now, hloc, -, -⟩
      · exact .inl hadd
      · simp [hloc, Loc.inRun] at hout
    · intro hin'
      simp [hout'] at hin'
  -- A run begins, and takes what is in flight for its base.
  · have hnext : r.next x (.engine (.thread o)) (x.1.step P o).2 =
        { runs := r.runs + 1
          base := InfinityClicker.inFlight x
          released := okEvents (releasedOf (x.1.step P o).2)
          before := r.releases } := by
      rw [Backlog.next, hstart]
      rfl
    have hin := h.inFlight
    have htotal := h.total
    rw [hnext]
    refine ⟨?_, ?_, ?_, ?_⟩
    · rw [hsender]
      exact h.seen
    · intro hin'
      obtain ⟨hmode, -, hK⟩ := hruns' hin'
      obtain ⟨l, hl, hbase, hbatch⟩ := hplace hin' hmode
      refine ⟨Nat.succ_ne_zero _, l, hl, hbase, ?_⟩
      rw [hbatch]
      exact hK
    · rw [Backlog.window, if_neg (Nat.succ_ne_zero _)]
      simp only [InfinityClicker.inFlight, hsender]
      omega
    · rw [Backlog.window, if_neg (Nat.succ_ne_zero _)]
      simp only [Backlog.releases] at htotal ⊢
      push_cast at htotal ⊢
      rw [add_mul]
      omega

/-- Every step keeps the limits. -/
theorem step (h : Within M K x r) (hM : 0 < M) (a : HookAct) (hruns : x.1.RunsMax M K)
    (hruns' : KeepsLimit P M K (x, r) a) :
    Within M K ((backlogMachine P).next (x, r) a).1 ((backlogMachine P).next (x, r) a).2 := by
  cases a with
  | sees => exact h.sees
  | engine a =>
    cases a with
    | thread o =>
      cases hin : x.1.loc.inRun with
      | true => exact h.step_run hM (o := { o with observed := some x.2 }) rfl hin hruns hruns'
      | false => exact h.step_out (o := { o with observed := some x.2 }) rfl hin hruns'
    | _ => exact ⟨h.seen, h.base, h.inFlight, h.total⟩

/-- Nothing is in flight at startup. -/
theorem start (waiter : PreciseWaiter) (clock : ℤ) :
    Within M K (Thread.start P waiter clock, 0) {} := by
  refine ⟨Nat.zero_le _, fun hin => absurd hin (by simp [Thread.start, Loc.inRun]), ?_, ?_⟩
  · simp [InfinityClicker.inFlight, Backlog.window]
  · simp [Backlog.window, Backlog.releases]

end Within

/-! ### The bound -/

/-- What is in flight, against the latest run and against all of them. -/
structure InFlightBound (M K : ℕ) (x : Thread × ℕ) (r : Backlog) : Prop where
  run : inFlight x ≤ r.base + M + K + r.released
  all : inFlight x ≤ r.runs * (M + K : ℕ) + r.releases

theorem Within.bound {M K : ℕ} {x : Thread × ℕ} {r : Backlog} (h : Within M K x r) :
    InFlightBound M K x r := by
  have hin := h.inFlight
  have htotal := h.total
  have hwindow : r.window M K ≤ M + K := by
    unfold Backlog.window
    split <;> omega
  constructor <;> omega

/-- **Backpressure**: with every run a MAX run with the limit `M > 0` in batches of at most `K`
    events, started, stopped and restarted at any time, and with the hook seeing the accepted
    events at any time, what is in flight is at most what was when the latest run started, the
    limit, one batch and the releases since; and at most a limit and a batch for every run
    started, and the releases. -/
theorem in_flight_bound (P : Platform) (waiter : PreciseWaiter) (clock : ℤ) (M K : ℕ)
    (hM : 0 < M) (acts : List HookAct)
    (hmax : (backlogMachine P).Meets (KeepsLimit P M K)
      ((Thread.start P waiter clock, 0), {}) acts) :
    InFlightBound M K
      ((backlogMachine P).after ((Thread.start P waiter clock, 0), {}) acts).1
      ((backlogMachine P).after ((Thread.start P waiter clock, 0), {}) acts).2 := by
  have hinv : ((backlogMachine P).after ((Thread.start P waiter clock, 0), {}) acts).1.1.RunsMax
        M K ∧
      Within M K ((backlogMachine P).after ((Thread.start P waiter clock, 0), {}) acts).1
        ((backlogMachine P).after ((Thread.start P waiter clock, 0), {}) acts).2 := by
    apply (backlogMachine P).invariant_of_meets
      (I := fun y => y.1.1.RunsMax M K ∧ Within M K y.1 y.2) (P := KeepsLimit P M K)
    · intro y a hy ha
      exact ⟨ha, hy.2.step hM a hy.1 ha⟩
    · refine ⟨fun hin => absurd hin ?_, Within.start waiter clock⟩
      simp [Thread.start, Loc.inRun]
    · exact hmax
  exact hinv.2.bound

/-- Engine steps with the gate open. -/
def HookAct.steps (n : ℕ) : List HookAct := (Act.steps n).map .engine

def HookAct.post (c : Command) : List HookAct := (Act.post c).map .engine

/-- Two MAX runs of left clicks, the first stopped when it is held back, with nothing seen by the
    hook in between. -/
def restartedMax : List HookAct :=
  HookAct.post (.setConfig { maxMode := true, maxInflight := 16 }) ++ HookAct.steps 3 ++
    HookAct.post (.startRun {} 1) ++ HookAct.steps 15 ++ HookAct.post .stopRun ++
    HookAct.steps 4 ++ HookAct.post (.startRun {} 2) ++ HookAct.steps 11

theorem restartedMax_bound :
    InFlightBound 16 16
      ((backlogMachine .tenMegahertz).after
        ((Thread.start .tenMegahertz {} 1000000000, 0), {}) restartedMax).1
      ((backlogMachine .tenMegahertz).after
        ((Thread.start .tenMegahertz {} 1000000000, 0), {}) restartedMax).2 :=
  in_flight_bound .tenMegahertz {} 1000000000 16 16 (by decide) restartedMax (by decide +kernel)

/-- The limit and a batch bound what is in flight in one run, and not over a restart. -/
theorem restartedMax_exceeds :
    ¬ ∀ acts : List HookAct,
      (backlogMachine .tenMegahertz).Meets (KeepsLimit .tenMegahertz 16 16)
        ((Thread.start .tenMegahertz {} 1000000000, 0), {}) acts →
      inFlight ((backlogMachine .tenMegahertz).after
          ((Thread.start .tenMegahertz {} 1000000000, 0), {}) acts).1 ≤
        16 + 16 + ((backlogMachine .tenMegahertz).after
          ((Thread.start .tenMegahertz {} 1000000000, 0), {}) acts).2.releases := by
  intro hall
  have hbound := hall restartedMax (by decide +kernel)
  exact absurd hbound (by decide +kernel)

end InfinityClicker
