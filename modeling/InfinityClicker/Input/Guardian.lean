import InfinityClicker.Input.CrashPath

namespace InfinityClicker

open Presses Machines

/-!
# The guardian, the crash handler and the process they watch

Three parties meet at the shared record: the engine thread of the process writes it store by
store, a crash handler of the same process empties it word by word, and the guardian process
empties it once the process is dead.  `Guarded` is the state of all of them, `guardedMachine`
takes one step of one of them at a time.

* `Releaser` — `releaseHeldFrom` cut into its exchanges, reads and its `SendInput`;
* `Releaser.step_list` — no step of it changes the list it will send, as long as nobody else
  writes the record;
* `SenderWork` — what the engine thread still has to do of a call of the sender;
* `Guardian` — the phases of `runGuardian`;
* `Guarded.go_alone` — the engine thread alone is `InputSender.call`.
-/

/-! ### `releaseHeldFrom`, step by step -/

/-- Where a `releaseHeldFrom` stands. -/
inductive Releaser where
  /-- The words still to be exchanged, and the keys of the last one still to be looked at. -/
  | keys (words : List (Fin 8)) (taken : List Vk) (buf : List INPUT)
  /-- Every word is exchanged, `SendInput` is next. -/
  | full (buf : List INPUT)
  /-- It returned `n`. -/
  | done (n : ℕ)
deriving DecidableEq

namespace Releaser

/-- `if (n < std::size(buf)) buf[n++] = ..`. -/
def push (buf : List INPUT) (i : INPUT) : List INPUT :=
  if buf.length < InputSender.releaseRoom then buf ++ [i] else buf

/-- The keys of a word in the order of its bits. -/
def wordKeys (w : Fin 8) : List Vk := (List.range 32).map fun b => BitVec.ofNat 8 (w * 32 + b)

/-- The buttons recorded in `mouseMask`, as releases. -/
def mouseUps (h : HeldShared) : List INPUT :=
  ((List.finRange 5).filter h.mouseMask).map InputSender.mouseUpFor

/-- The first thing `releaseHeldFrom` does is to look at the magic. -/
def enter (h : HeldShared) : Releaser :=
  if h.magic ≠ kMagic then .done 0 else .keys (List.finRange 8) [] []

/-- One step: the record after it, where the release stands, and its `SendInput` call. -/
def step (h : HeldShared) (r : SendResult) : Releaser → HeldShared × Releaser × List SendCall
  | .keys words (vk :: taken) buf =>
    (h, .keys words taken (push buf (InputSender.keyUpFor h.keyScan vk)), [])
  | .keys (w :: words) [] buf =>
    (Store.apply h (.keyWord w fun _ => false), .keys words ((wordKeys w).filter h.keyBits) buf,
      [])
  | .keys [] [] buf =>
    (Store.apply h (.mouseMask fun _ => false), .full ((mouseUps h).foldl push buf), [])
  | .full buf =>
    if buf = [] then (h, .done 0, [])
    else (h, .done (sendInput buf r).ok, [sendInput buf r])
  | .done n => (h, .done n, [])

/-- What it will pass to `SendInput` when the record stays as it is. -/
def list (h : HeldShared) : Releaser → List INPUT
  | .keys words taken buf =>
    (buf ++ ((taken ++ words.flatMap fun w => (wordKeys w).filter h.keyBits).map
      (InputSender.keyUpFor h.keyScan) ++ mouseUps h)).take InputSender.releaseRoom
  | .full buf => buf
  | .done _ => []

/-- No word is exchanged twice, and the buffer is within its room. -/
def WellFormed : Releaser → Prop
  | .keys words _ buf => words.Nodup ∧ buf.length ≤ InputSender.releaseRoom
  | .full buf => buf.length ≤ InputSender.releaseRoom
  | .done _ => True

/-- What it has passed is empty in the record. -/
def Emptied (h : HeldShared) : Releaser → Prop
  | .keys words _ _ => ∀ vk, Vk.word vk ∉ words → h.keyBits vk = false
  | _ => ∀ c, h.bit c = false

/-- The watchdog starts within its buffer. -/
theorem enter_wellFormed (h : HeldShared) : (enter h).WellFormed := by
  unfold enter
  split
  · trivial
  · exact ⟨List.nodup_finRange 8, Nat.zero_le _⟩

/-- A full buffer takes nothing more. -/
theorem length_push {buf : List INPUT} (hbuf : buf.length ≤ InputSender.releaseRoom)
    (i : INPUT) : (push buf i).length ≤ InputSender.releaseRoom := by
  unfold push
  split
  · rw [List.length_append, List.length_singleton]
    omega
  · exact hbuf

/-- Pushing is appending, cut off at the room. -/
theorem push_append_take {buf : List INPUT} (hbuf : buf.length ≤ InputSender.releaseRoom)
    (i : INPUT) (rest : List INPUT) :
    (push buf i ++ rest).take InputSender.releaseRoom =
      (buf ++ i :: rest).take InputSender.releaseRoom := by
  unfold push
  split
  · simp
  · -- A full buffer leaves room for nothing that follows.
    have hfull : InputSender.releaseRoom ≤ buf.length := by omega
    rw [List.take_append_of_le_length hfull, List.take_append_of_le_length hfull]

/-- Pushed inputs fill the buffer up to its end. -/
theorem foldl_push {buf : List INPUT} (hbuf : buf.length ≤ InputSender.releaseRoom)
    (ins : List INPUT) : ins.foldl push buf = (buf ++ ins).take InputSender.releaseRoom := by
  induction ins generalizing buf with
  | nil => simp [List.take_of_length_le hbuf]
  | cons i ins ih => rw [List.foldl_cons, ih (length_push hbuf i), push_append_take hbuf]

/-- A pass keeps to the buffer. -/
theorem step_wellFormed {rl : Releaser} (hwf : rl.WellFormed) (h : HeldShared) (r : SendResult) :
    (rl.step h r).2.1.WellFormed := by
  match rl with
  | .keys words (vk :: taken) buf => exact ⟨hwf.1, length_push hwf.2 _⟩
  | .keys (w :: words) [] buf => exact ⟨(List.nodup_cons.mp hwf.1).2, hwf.2⟩
  | .keys [] [] buf =>
    show ((mouseUps h).foldl push buf).length ≤ InputSender.releaseRoom
    rw [foldl_push hwf.2, List.length_take]
    exact Nat.min_le_left _ _
  | .full buf =>
    simp only [step]
    split <;> trivial
  | .done n => trivial

/-- The keys of a word are those whose bit is in it. -/
theorem mem_wordKeys (w : Fin 8) (vk : Vk) : vk ∈ wordKeys w ↔ Vk.word vk = w := by
  rw [wordKeys, List.mem_map]
  constructor
  · rintro ⟨b, hb, rfl⟩
    have hb' := List.mem_range.mp hb
    have hw := w.isLt
    apply Fin.ext
    show (BitVec.ofNat 8 (w * 32 + b)).toNat / 32 = w
    rw [BitVec.toNat_ofNat]
    omega
  · rintro rfl
    refine ⟨vk.toNat % 32, List.mem_range.mpr (by omega), ?_⟩
    apply BitVec.eq_of_toNat_eq
    have hvk := vk.isLt
    show (BitVec.ofNat 8 (vk.toNat / 32 * 32 + vk.toNat % 32)).toNat = vk.toNat
    rw [BitVec.toNat_ofNat]
    omega

/-- The words of the record in order are its keys in order. -/
theorem wordKeys_flatMap : (List.finRange 8).flatMap wordKeys = InputSender.vks := by
  decide +kernel

/-- All in all the watchdog releases what the sender would. -/
theorem enter_list {h : HeldShared} (hmagic : h.magic = kMagic) :
    (enter h).list h = InputSender.releasesFrom h := by
  have hkeys : ((List.finRange 8).flatMap fun w => (wordKeys w).filter h.keyBits) =
      InputSender.vks.filter h.keyBits := by
    rw [← wordKeys_flatMap, List.filter_flatMap]
  rw [enter, if_neg (not_not.mpr hmagic)]
  simp only [list, List.nil_append, hkeys]
  rfl

/-- An exchanged word changes the bits of its own keys only. -/
theorem exchange_filter {h : HeldShared} {w w' : Fin 8} (hne : w' ≠ w) :
    (wordKeys w').filter (Store.apply h (.keyWord w fun _ => false)).keyBits =
      (wordKeys w').filter h.keyBits := by
  apply List.filter_congr
  intro vk hvk
  have hword : Vk.word vk ≠ w := by
    rw [(mem_wordKeys w' vk).mp hvk]
    exact hne
  simp [Store.apply, hword]

/-- **The list is settled when the release begins**: the steps that fill the buffer leave what
    will be sent as it was. -/
theorem step_list {words : List (Fin 8)} {taken : List Vk} {buf : List INPUT}
    (hwf : (Releaser.keys words taken buf).WellFormed) (h : HeldShared) (r : SendResult) :
    ((Releaser.keys words taken buf).step h r).2.1.list
        ((Releaser.keys words taken buf).step h r).1 =
      (Releaser.keys words taken buf).list h := by
  match words, taken with
  | words, vk :: taken =>
    simp only [step, list, List.cons_append, List.map_cons]
    exact push_append_take hwf.2 _ _
  | w :: words, [] =>
    have hw : w ∉ words := (List.nodup_cons.mp hwf.1).1
    have hothers : (words.flatMap fun w' =>
        (wordKeys w').filter (Store.apply h (.keyWord w fun _ => false)).keyBits) =
        words.flatMap fun w' => (wordKeys w').filter h.keyBits := by
      apply List.flatMap_congr
      intro w' hw'
      exact exchange_filter fun heq => hw (heq ▸ hw')
    simp only [step, list, hothers, List.nil_append, List.flatMap_cons]
    rfl
  | [], [] => simp [step, list, foldl_push hwf.2]

/-- A release touches neither the metadata nor the magic. -/
theorem step_frame (rl : Releaser) (h : HeldShared) (r : SendResult) :
    (rl.step h r).1.keyScan = h.keyScan ∧ (rl.step h r).1.magic = h.magic := by
  match rl with
  | .keys words (vk :: taken) buf => exact ⟨rfl, rfl⟩
  | .keys (w :: words) [] buf => exact ⟨rfl, rfl⟩
  | .keys [] [] buf => exact ⟨rfl, rfl⟩
  | .full buf =>
    simp only [step]
    split <;> exact ⟨rfl, rfl⟩
  | .done n => exact ⟨rfl, rfl⟩

/-- What it has taken is taken out of the record. -/
theorem enter_emptied {h : HeldShared} (hmagic : h.magic = kMagic) : (enter h).Emptied h := by
  rw [enter, if_neg (not_not.mpr hmagic)]
  intro vk hvk
  exact absurd (List.mem_finRange _) hvk

/-- What a release has passed stays empty. -/
theorem Emptied.step {rl : Releaser} {h : HeldShared} (he : rl.Emptied h) (r : SendResult) :
    (rl.step h r).2.1.Emptied (rl.step h r).1 := by
  match rl with
  | .keys words (vk :: taken) buf => exact he
  | .keys (w :: words) [] buf =>
    intro vk hvk
    by_cases hword : Vk.word vk = w
    · simp [Releaser.step, Store.apply, hword]
    · have hbefore := he vk (by simp [hword, hvk])
      simpa [Releaser.step, Store.apply, hword] using hbefore
  | .keys [] [] buf =>
    intro c
    cases c with
    | key vk => exact he vk (by simp)
    | button b => rfl
  | .full buf =>
    simp only [Releaser.step]
    split <;> exact he
  | .done n => exact he

/-- Only the last step sends, and it sends the buffer. -/
theorem step_calls (rl : Releaser) (h : HeldShared) (r : SendResult) :
    (rl.step h r).2.2 =
      match rl with
      | .full buf => if buf = [] then [] else [sendInput buf r]
      | _ => [] := by
  match rl with
  | .keys words (vk :: taken) buf => rfl
  | .keys (w :: words) [] buf => rfl
  | .keys [] [] buf => rfl
  | .full buf =>
    simp only [step]
    split <;> rfl
  | .done n => rfl

end Releaser

/-! ### The three parties -/

/-- The retry of a `releaseAll` whose first `SendInput` accepted `ok` of `buf`. -/
structure Retry where
  buf : List INPUT
  ok : ℕ
  result : SendResult

/-- What the engine thread still has to do of its call of the sender. -/
structure SenderWork where
  /-- The stores of the `publish` it is in. -/
  stores : List Store := []
  again : Option Retry := none

/-- Where `runGuardian` stands. -/
inductive Guardian where
  | start
  /-- It has a handle on the parent and tried `tries` times to open the section. -/
  | opening (tries : ℕ)
  /-- It has the section and waits for the parent to end. -/
  | waiting
  | releasing (rl : Releaser)
  | exited (rc : ℕ)
deriving DecidableEq

/-- Who calls `SendInput`. -/
inductive Caller where
  | engine
  | crash
  | guardian
deriving DecidableEq

/-- A watched process, its guardian, the record between them and the keys really down. -/
structure Guarded where
  sender : InputSender := {}
  work : SenderWork := {}
  record : HeldShared := InputSender.createdShared
  cleanExit : Bool := false
  /-- `g_inCrash`, and where the release of the thread that set it stands. -/
  inCrash : Option Releaser := none
  alive : Bool := true
  guardian : Guardian := .start
  real : RealKeys := {}

/-- What happens next. -/
inductive GuardAct where
  /-- The engine thread calls the sender. -/
  | call (op : SenderOp)
  /-- The engine thread moves on in its call. -/
  | go
  /-- A crash handler moves on; `r` is what its `SendInput` does. -/
  | crash (r : SendResult)
  | markCleanExit
  /-- The process ends, whatever its threads are doing. -/
  | die
  /-- The guardian moves on; `ok` tells whether what it opens can be opened. -/
  | guardian (ok : Bool) (r : SendResult)

namespace Guarded

/-- Windows accepts what `calls` got accepted. -/
def accept (k : RealKeys) (calls : List SendCall) : RealKeys :=
  k.acceptAll (calls.flatMap SendCall.acceptedEvents)

/-- The first `SendInput` of a call, up to the first store of its `publish`. -/
def sent (w : Guarded) (ins : List INPUT) (r : SendResult) (again : Option Retry) :
    Guarded × List (Caller × SendCall) :=
  if ins = [] then (w, [])
  else
    let c := sendInput ins r
    let s := w.sender.tracked ins r
    ({ w with
        sender := { s with dirty := false }
        work := { stores := if s.dirty then s.publishStores else [], again := again }
        real := accept w.real [c] }, [(.engine, c)])

/-- A call of the engine's, with the work it leaves for the shared record. -/
def call (w : Guarded) : SenderOp → Guarded × List (Caller × SendCall)
  | .send ins r => w.sent ins r none
  | .releaseAll r retry =>
    let buf := w.sender.releases
    let ok := r.accepted buf.length
    w.sent buf r (if ok ≠ buf.length then some ⟨buf, ok, retry⟩ else none)

/-- The engine thread's next step: a store, or the retry with its own `publish`. -/
def go (w : Guarded) : Guarded × List (Caller × SendCall) :=
  match w.work.stores, w.work.again with
  | st :: stores, again =>
    ({ w with record := Store.apply w.record st, work := { stores := stores, again := again } },
      [])
  | [], some a =>
    let c := sendInput (a.buf.drop a.ok) a.result
    let s := w.sender.trackAll a.buf
    ({ w with
        sender := { s with dirty := false }
        work := { stores := s.publishStores }
        real := accept w.real [c] }, [(.engine, c)])
  | [], none => (w, [])

/-- `crashRelease`: the first thread to set `g_inCrash` releases. -/
def crashStep (w : Guarded) (r : SendResult) : Guarded × List (Caller × SendCall) :=
  match w.inCrash with
  | none => ({ w with inCrash := some (Releaser.enter w.record) }, [])
  | some rl =>
    let out := rl.step w.record r
    ({ w with record := out.1, inCrash := some out.2.1, real := accept w.real out.2.2 },
      out.2.2.map (Prod.mk .crash))

/-- `runGuardian`.  The section exists as long as somebody has it open: a guardian that has not
    opened it when the process ends never will. -/
def guardianStep (w : Guarded) (ok : Bool) (r : SendResult) :
    Guarded × List (Caller × SendCall) :=
  match w.guardian with
  | .start => ({ w with guardian := if ok then .opening 0 else .exited 2 }, [])
  | .opening tries =>
    if tries < 50 then
      ({ w with guardian := if w.alive && ok then .waiting else .opening (tries + 1) }, [])
    else ({ w with guardian := .exited 3 }, [])
  | .waiting =>
    if w.alive then (w, [])
    else if w.cleanExit then ({ w with guardian := .exited 0 }, [])
    else ({ w with guardian := .releasing (Releaser.enter w.record) }, [])
  | .releasing (.done n) => ({ w with guardian := .exited (if n ≠ 0 then 10 else 0) }, [])
  | .releasing rl =>
    let out := rl.step w.record r
    ({ w with record := out.1, guardian := .releasing out.2.1, real := accept w.real out.2.2 },
      out.2.2.map (Prod.mk .guardian))
  | .exited rc => ({ w with guardian := .exited rc }, [])

/-- No thread of a dead process moves, and the engine thread makes one call at a time. -/
def step (w : Guarded) : GuardAct → Guarded × List (Caller × SendCall)
  | .call op =>
    if w.alive ∧ w.work.stores = [] ∧ w.work.again.isNone then w.call op else (w, [])
  | .go => if w.alive then w.go else (w, [])
  | .crash r => if w.alive then w.crashStep r else (w, [])
  | .markCleanExit => if w.alive then ({ w with cleanExit := true }, []) else (w, [])
  | .die => ({ w with alive := false }, [])
  | .guardian ok r => w.guardianStep ok r

end Guarded

/-- The watched process and its guardian as a machine; it outputs the `SendInput` calls. -/
def guardedMachine : Machine Guarded GuardAct (Caller × SendCall) where
  step := Guarded.step

/-! ### The engine thread alone -/

namespace InputSender

/-- Where the shared record lies makes no difference to tracking. -/
theorem track_setShared (s : InputSender) (x : Option HeldShared) (i : INPUT) :
    ({ s with shared := x } : InputSender).track i = { s.track i with shared := x } := by
  have hset : ∀ (s : InputSender) (c : Bool) (b : Fin 5) (d : Bool),
      ({ s with shared := x } : InputSender).setMouseIf c b d =
        { s.setMouseIf c b d with shared := x } := by
    intro s c b d
    cases c <;> rfl
  cases i with
  | hardware => rfl
  | mouse mi =>
    simp only [track, hset]
    split <;> rfl
  | keyboard ki =>
    simp only [track]
    split
    · rfl
    · split
      · rfl
      · split <;> rfl

/-- Tracking does not look at the shared record. -/
theorem trackAll_setShared (s : InputSender) (x : Option HeldShared) (ins : List INPUT) :
    ({ s with shared := x } : InputSender).trackAll ins =
      { s.trackAll ins with shared := x } := by
  induction ins generalizing s with
  | nil => rfl
  | cons i ins ih =>
    have hone := track_setShared s x i
    simp only [trackAll, List.foldl_cons, hone] at ih ⊢
    exact ih (s.track i)

/-- Nor does tracking what was accepted. -/
theorem tracked_setShared (s : InputSender) (x : Option HeldShared) (ins : List INPUT)
    (r : SendResult) :
    ({ s with shared := x } : InputSender).tracked ins r =
      { s.tracked ins r with shared := x } :=
  trackAll_setShared (s.countCall ins.length (r.accepted ins.length) r.error) x _

end InputSender

namespace Guarded

/-- The sender with the record it is attached to. -/
def attached (w : Guarded) : InputSender := { w.sender with shared := some w.record }

/-- The engine thread makes its stores one by one. -/
theorem go_stores {w : Guarded} (halive : w.alive = true) :
    guardedMachine.after w (List.replicate w.work.stores.length .go) =
        { w with
          record := w.work.stores.foldl Store.apply w.record
          work := { again := w.work.again } } ∧
      guardedMachine.trace w (List.replicate w.work.stores.length .go) = [] := by
  obtain ⟨sender, ⟨stores, again⟩, record, cleanExit, inCrash, alive, guardian, real⟩ := w
  obtain rfl : alive = true := halive
  induction stores generalizing record with
  | nil => exact ⟨rfl, rfl⟩
  | cons st stores ih => exact ih (Store.apply record st)

/-- The first half of a call alone: `SendInput`, tracking, and every store. -/
theorem sent_alone {w : Guarded} (halive : w.alive = true) {ins : List INPUT} (hne : ins ≠ [])
    (r : SendResult) (again : Option Retry) :
    ∃ n, (guardedMachine.after (w.sent ins r again).1 (List.replicate n .go)).attached =
        (w.attached.send ins r).sender ∧
      (guardedMachine.after (w.sent ins r again).1 (List.replicate n .go)).work =
        { again := again } ∧
      (guardedMachine.after (w.sent ins r again).1 (List.replicate n .go)).alive = true ∧
      guardedMachine.trace (w.sent ins r again).1 (List.replicate n .go) = [] := by
  have hstate : (w.sent ins r again).1.alive = true := by
    rw [sent, if_neg hne]
    exact halive
  obtain ⟨hafter, htrace⟩ := go_stores hstate
  refine ⟨(w.sent ins r again).1.work.stores.length, ?_, ?_, ?_, htrace⟩
  · rw [hafter, InputSender.send_sender _ _ hne]
    rw [attached, attached, InputSender.tracked_setShared]
    simp only [sent, if_neg hne, InputSender.publishIfDirty]
    cases hdirty : (w.sender.tracked ins r).dirty with
    | true => simp [InputSender.publish, InputSender.publishStores]
    | false => simp
  · rw [hafter, sent, if_neg hne]
  · rw [hafter]
    exact hstate

/-- The retry of a release alone: `SendInput`, tracking of the whole list, and every store. -/
theorem retry_alone {w : Guarded} {a : Retry} (halive : w.alive = true)
    (hwork : w.work = { again := some a }) :
    ∃ n, (guardedMachine.after w (List.replicate n .go)).attached =
        (w.attached.trackAll a.buf).publish ∧
      (guardedMachine.after w (List.replicate n .go)).work = {} ∧
      guardedMachine.trace w (List.replicate n .go) =
        [(.engine, sendInput (a.buf.drop a.ok) a.result)] := by
  have hgo : w.step .go =
      ({ w with
          sender := { w.sender.trackAll a.buf with dirty := false }
          work := { stores := (w.sender.trackAll a.buf).publishStores }
          real := accept w.real [sendInput (a.buf.drop a.ok) a.result] },
        [(.engine, sendInput (a.buf.drop a.ok) a.result)]) := by
    simp only [step, halive, if_true, go, hwork]
  obtain ⟨hafter, htrace⟩ := go_stores (w := (w.step .go).1) (by rw [hgo]; exact halive)
  refine ⟨(w.step .go).1.work.stores.length + 1, ?_, ?_, ?_⟩
  · rw [List.replicate_succ, Machine.after_cons]
    show (guardedMachine.after (w.step .go).1 _).attached = _
    have htracked : w.attached.trackAll a.buf =
        { w.sender.trackAll a.buf with shared := some w.record } :=
      InputSender.trackAll_setShared _ _ _
    rw [hafter, hgo, htracked]
    rfl
  · rw [List.replicate_succ, Machine.after_cons]
    show (guardedMachine.after (w.step .go).1 _).work = _
    rw [hafter, hgo]
  · rw [List.replicate_succ, Machine.trace_cons]
    show (w.step .go).2 ++ guardedMachine.trace (w.step .go).1 _ = _
    rw [htrace, hgo, List.append_nil]

/-- **The engine thread alone is the sender**: when no other party moves, a call ends with the
    sender, the record and the `SendInput` calls of `InputSender.call`. -/
theorem call_alone {w : Guarded} (hidle : w.work = {}) (halive : w.alive = true)
    (op : SenderOp) :
    ∃ n, (guardedMachine.after w (.call op :: List.replicate n .go)).attached =
        (w.attached.call op).sender ∧
      (guardedMachine.after w (.call op :: List.replicate n .go)).work = {} ∧
      guardedMachine.trace w (.call op :: List.replicate n .go) =
        (w.attached.call op).calls.map (Prod.mk .engine) := by
  have hcall : w.step (.call op) = w.call op := by
    show (if _ then _ else _ : Guarded × List (Caller × SendCall)) = _
    rw [if_pos ⟨halive, by simp [hidle], by simp [hidle]⟩]
  suffices hrest : ∃ n,
      (guardedMachine.after (w.call op).1 (List.replicate n .go)).attached =
        (w.attached.call op).sender ∧
      (guardedMachine.after (w.call op).1 (List.replicate n .go)).work = {} ∧
      (w.call op).2 ++ guardedMachine.trace (w.call op).1 (List.replicate n .go) =
        (w.attached.call op).calls.map (Prod.mk .engine) by
    simpa only [Machine.after_cons, Machine.trace_cons, Machine.next, Machine.out,
      guardedMachine, hcall] using hrest
  -- A call that has nothing to send does nothing.
  have hnothing : ∀ (r : SendResult) again, w.sent [] r again = (w, []) := fun _ _ => rfl
  have hfirst : ∀ {ins : List INPUT} (r : SendResult) (again : Option Retry), ins ≠ [] →
      (w.sent ins r again).2 = [(.engine, sendInput ins r)] := by
    intro ins r again hne
    rw [sent, if_neg hne]
  cases op with
  | send ins r =>
    by_cases hne : ins = []
    · subst hne
      exact ⟨0, by simp [call, hnothing, InputSender.call, InputSender.send, hidle]⟩
    · obtain ⟨n, hattached, hwork, -, htrace⟩ := sent_alone halive hne r none
      refine ⟨n, hattached, hwork, ?_⟩
      show (w.sent ins r none).2 ++ guardedMachine.trace (w.sent ins r none).1 _ = _
      rw [htrace, hfirst r none hne]
      simp [InputSender.call, (w.attached.send_spec ins r).2.1, hne]
  | releaseAll r retry =>
    have hreleases : w.attached.releases = w.sender.releases := rfl
    by_cases hne : w.sender.releases = []
    · refine ⟨0, ?_⟩
      simp [call, hne, hnothing, InputSender.call, InputSender.releaseAll, hreleases, hidle]
    · by_cases hno : w.attached.NoRetry (.releaseAll r retry)
      · -- One `SendInput` took everything.
        have hagain : w.call (.releaseAll r retry) = w.sent w.sender.releases r none := by
          have hok : r.accepted w.sender.releases.length = w.sender.releases.length := hno
          simp [call, hok]
        obtain ⟨n, hattached, hwork, -, htrace⟩ := sent_alone halive hne r none
        refine ⟨n, ?_, ?_, ?_⟩
        · rw [hagain, hattached, InputSender.call, w.attached.releaseAll_of_noRetry r retry hno,
            hreleases]
        · rw [hagain, hwork]
        · rw [hagain, htrace, hfirst r none hne, InputSender.call,
            w.attached.releaseAll_of_noRetry r retry hno, hreleases,
            (w.attached.send_spec _ r).2.1, if_neg hne]
          rfl
      · -- The rest is sent again: a second `SendInput` and a second `publish`.
        obtain ⟨hsender, hcalls, hlt⟩ := w.attached.releaseAll_of_retry r retry hno
        rw [hreleases] at hsender hcalls hlt
        have hagain : w.call (.releaseAll r retry) = w.sent w.sender.releases r
            (some ⟨w.sender.releases, r.accepted w.sender.releases.length, retry⟩) := by
          simp [call, hlt.ne]
        obtain ⟨n, hattached, hwork, halive', htrace⟩ := sent_alone halive hne r
          (some ⟨w.sender.releases, r.accepted w.sender.releases.length, retry⟩)
        obtain ⟨m, hattached', hwork', htrace'⟩ := retry_alone halive' hwork
        refine ⟨n + m, ?_, ?_, ?_⟩
        · rw [hagain, List.replicate_add, Machine.after_append, hattached', hattached,
            InputSender.call, hsender]
        · rw [hagain, List.replicate_add, Machine.after_append, hwork']
        · rw [hagain, List.replicate_add, Machine.trace_append, htrace, htrace',
            hfirst r _ hne, InputSender.call, hcalls]
          rfl

end Guarded

end InfinityClicker
