import InfinityClicker.Input.SharedRecord

namespace InfinityClicker

open Presses Machines

/-!
# What the watchdog knows when the process is killed

The process can be killed between the return of a `SendInput` and any store of the `publish`
that follows it.  What is left is a `Wreck`: the shared record as far as it was written, and
the keys really down.

* `InputSender.Synced` — between two calls the shared record is exact, as long as every release
  is accepted in the end (`InputSender.Released`);
* `InputSender.Covered` — no control that is down after the call still waits for its store;
  exactly then is everything that is down recorded;
* `InputSender.HasRoom` — every control that is down is among the first 64 entries of the
  record; exactly then the watchdog has the room to release what is recorded;
* `InputSender.killed_recorded_iff` — recorded and released iff covered and with room.
-/

/-! ### Between two calls -/

namespace InputSender

/-- The sender, the keys really down and the shared record agree. -/
structure Synced (s : InputSender) (k : RealKeys) : Prop where
  clean : s.dirty = false
  knows : s.Knows k
  shared : ∃ h, s.shared = some h ∧ h.magic = kMagic ∧ s.Mirrors h

/-- Every release is accepted whole, by the first `SendInput` or by the retry. -/
def Released (s : InputSender) : SenderOp → Prop
  | .send _ _ => True
  | .releaseAll r retry =>
    let n := s.releases.length
    r.accepted n = n ∨ retry.accepted (n - r.accepted n) = n - r.accepted n

/-- The sender after `send` has tracked what was accepted, before it publishes. -/
def tracked (s : InputSender) (ins : List INPUT) (r : SendResult) : InputSender :=
  (s.countCall ins.length (r.accepted ins.length) r.error).trackAll
    (ins.take (r.accepted ins.length))

/-- A call that sends something tracks and publishes. -/
theorem send_sender (s : InputSender) {ins : List INPUT} (r : SendResult) (hne : ins ≠ []) :
    (s.send ins r).sender = (s.tracked ins r).publishIfDirty := by
  simp [send, hne, tracked, sendInput, SendCall.acceptedEvents]

/-- Tracking what was accepted keeps the record true. -/
theorem Knows.tracked {s : InputSender} {k : RealKeys} (h : s.Knows k) (ins : List INPUT)
    (r : SendResult) :
    (s.tracked ins r).Knows (k.acceptAll (ins.take (r.accepted ins.length))) := by
  have hcount : (s.countCall ins.length (r.accepted ins.length) r.error).Knows k :=
    ⟨h.held, h.keyMeta⟩
  exact hcount.trackAll _

/-- Tracking is no store to the shared record. -/
theorem tracked_shared (s : InputSender) (ins : List INPUT) (r : SendResult) :
    (s.tracked ins r).shared = s.shared := trackAll_shared _ _

/-- Events that leave the record clean were there already. -/
theorem tracked_clean (s : InputSender) (ins : List INPUT) (r : SendResult)
    (hclean : (s.tracked ins r).dirty = false) : SameRecord s (s.tracked ins r) := by
  have h := trackAll_clean _ _ hclean
  exact ⟨h.dirty, h.held, h.keyMeta⟩

/-- A `publish` leaves the shared record a mirror. -/
theorem publish_synced {s : InputSender} {k : RealKeys} (hk : s.Knows k) {h : HeldShared}
    (hs : s.shared = some h) (hmagic : h.magic = kMagic) : s.publish.Synced k := by
  have hm := s.published_mirrors h (le_refl _)
  refine ⟨rfl, ⟨hk.held, hk.keyMeta⟩, s.published h s.publishStores.length, ?_, ?_,
    ⟨hm.bit, hm.keyScan⟩⟩
  · simp [publish, hs, published]
  · exact (s.published_magic h _).trans hmagic

/-- After a call the shared record is up to date again. -/
theorem Synced.send {s : InputSender} {k : RealKeys} (h : s.Synced k) (ins : List INPUT)
    (r : SendResult) :
    (s.send ins r).sender.Synced
      (k.acceptAll ((s.send ins r).calls.flatMap SendCall.acceptedEvents)) := by
  obtain ⟨h₀, hs, hmagic, hm⟩ := h.shared
  by_cases hnil : ins = []
  · simpa [hnil, InputSender.send, RealKeys.acceptAll] using h
  · have hcalls := (s.send_spec ins r).2.1
    rw [send_sender s r hnil, hcalls, if_neg hnil]
    have hknows := h.knows.tracked ins r
    have hshared := (s.tracked_shared ins r).trans hs
    simp only [List.flatMap_cons, List.flatMap_nil, List.append_nil, sendInput,
      SendCall.acceptedEvents, publishIfDirty]
    cases hdirty : (s.tracked ins r).dirty with
    | true => simpa using publish_synced hknows hshared hmagic
    | false =>
      have hsame := s.tracked_clean ins r hdirty
      simpa using (⟨hdirty, hknows, h₀, hshared, hmagic, hsame.mirrors hm⟩ : Synced _ _)

/-! ### Releases -/

/-- Up edges press nothing. -/
theorem accept_press_of_up (k : RealKeys) (i : INPUT) (hup : ∀ e ∈ inputEdges i, e.2 = false) :
    (k.accept i).press = k.press := by
  cases i with
  | hardware => rfl
  | mouse mi => rfl
  | keyboard ki =>
    simp only [RealKeys.accept]
    by_cases hzero : ki.wVk.setWidth 8 = (0 : Vk)
    · rw [if_pos (.inl hzero)]
    · have hkey := hup (.key (ki.wVk.setWidth 8), !hasFlag ki.dwFlags KEYEVENTF_KEYUP)
        (by simp only [inputEdges, if_neg hzero, List.mem_singleton])
      rw [if_pos (.inr (.inl (by simpa using hkey)))]

/-- Releases press nothing. -/
theorem acceptAll_press_of_up (k : RealKeys) (ins : List INPUT)
    (hup : ∀ e ∈ edgesOf ins, e.2 = false) : (k.acceptAll ins).press = k.press := by
  induction ins generalizing k with
  | nil => rfl
  | cons i ins ih =>
    have hhead := accept_press_of_up k i fun e he => hup e (by simp [he])
    exact (ih (k.accept i) fun e he => hup e (by simp [he])).trans hhead

/-- Tracking a release leaves the metadata alone. -/
theorem track_keyMeta_of_up (s : InputSender) (i : INPUT)
    (hup : ∀ e ∈ inputEdges i, e.2 = false) : (s.track i).keyMeta = s.keyMeta := by
  cases i with
  | hardware => rfl
  | mouse mi => exact (s.track_mouse mi).2.1
  | keyboard ki =>
    simp only [track]
    by_cases hzero : ki.wVk.setWidth 8 = (0 : Vk)
    · rw [if_pos hzero]
    · have hkey := hup (.key (ki.wVk.setWidth 8), !hasFlag ki.dwFlags KEYEVENTF_KEYUP)
        (by simp only [inputEdges, if_neg hzero, List.mem_singleton])
      have hflag : hasFlag ki.dwFlags KEYEVENTF_KEYUP = true := by simpa using hkey
      rw [if_neg hzero, hflag]
      cases s.heldKeys (ki.wVk.setWidth 8) <;> rfl

/-- Releases leave the scan codes of the presses. -/
theorem trackAll_keyMeta_of_up (s : InputSender) (ins : List INPUT)
    (hup : ∀ e ∈ edgesOf ins, e.2 = false) : (s.trackAll ins).keyMeta = s.keyMeta := by
  induction ins generalizing s with
  | nil => rfl
  | cons i ins ih =>
    have hhead := s.track_keyMeta_of_up i fun e he => hup e (by simp [he])
    exact (ih (s.track i) fun e he => hup e (by simp [he])).trans hhead

/-- The first half of a release that needs a retry: what was accepted is tracked and
    published. -/
theorem Synced.sent {s : InputSender} {k : RealKeys} (h : s.Synced k) {ins : List INPUT}
    (r : SendResult) (hne : ins ≠ []) :
    (s.send ins r).sender.Synced (k.acceptAll (ins.take (r.accepted ins.length))) := by
  have hsent := h.send ins r
  rw [(s.send_spec ins r).2.1, if_neg hne] at hsent
  simpa [sendInput, SendCall.acceptedEvents] using hsent

/-- The record after the retry: every release is tracked, accepted or not. -/
theorem Synced.retried_held {s : InputSender} {k : RealKeys} (h : s.Synced k) (r : SendResult)
    (hne : s.releases ≠ []) :
    ((s.send s.releases r).sender.trackAll s.releases).held =
      hold k.held (edgesOf s.releases) := by
  rw [trackAll_held, (h.sent r hne).knows.held, RealKeys.acceptAll_held]
  exact hold_subset_all (List.take_subset _ _) s.releases_up

/-- What the record still shows held after the retry, it shows with its metadata. -/
theorem Synced.retried_keyMeta {s : InputSender} {k : RealKeys} (h : s.Synced k)
    (r : SendResult) (hne : s.releases ≠ []) {vk : Vk}
    (hdown : (s.send s.releases r).sender.heldKeys vk = true) :
    ((s.send s.releases r).sender.trackAll s.releases).keyMeta vk = k.press vk := by
  have hpart : ∀ e ∈ edgesOf (s.releases.take (r.accepted s.releases.length)), e.2 = false := by
    intro e he
    exact s.releases_up e (edgesOf_subset (List.take_subset _ _) he)
  rw [trackAll_keyMeta_of_up _ _ s.releases_up, (h.sent r hne).knows.keyMeta vk hdown,
    acceptAll_press_of_up _ _ hpart]

/-- **Between two calls everything agrees**, as long as every release is accepted in the
    end. -/
theorem Synced.step {s : InputSender} {calls : List SendCall} {op : SenderOp}
    (h : s.Synced (RealKeys.ofCalls calls)) (hop : s.Released op) :
    (senderMachine.next s op).Synced (RealKeys.ofCalls (calls ++ senderMachine.out s op)) := by
  rw [RealKeys.ofCalls_append]
  cases op with
  | send ins r => exact h.send ins r
  | releaseAll r retry =>
    by_cases hno : s.NoRetry (.releaseAll r retry)
    · have heq := s.releaseAll_of_noRetry r retry hno
      simpa only [Machine.next, Machine.out, senderMachine, call, heq] using h.send s.releases r
    · obtain ⟨hsender, hcalls, hlt⟩ := s.releaseAll_of_retry r retry hno
      have hretry := hop.resolve_left hno
      have hup := s.releases_up
      have hne : s.releases ≠ [] := by
        intro hnil
        simp [hnil] at hlt
      obtain ⟨h₁, hs₁, hmagic₁, -⟩ := (h.sent r hne).shared
      -- Both calls together accept exactly the releases.
      have haccepted : [sendInput s.releases r, sendInput (s.releases.drop
          (r.accepted s.releases.length)) retry].flatMap SendCall.acceptedEvents = s.releases := by
        simp only [List.flatMap_cons, List.flatMap_nil, List.append_nil, sendInput,
          SendCall.acceptedEvents, List.length_drop, hretry]
        rw [← List.length_drop, List.take_length, List.take_append_drop]
      simp only [Machine.next, Machine.out, senderMachine, call, hsender, hcalls, haccepted]
      refine publish_synced ⟨?_, fun vk hvk => ?_⟩ ((trackAll_shared _ _).trans hs₁) hmagic₁
      · rw [h.retried_held r hne, RealKeys.acceptAll_held]
      · have hafter : ((s.send s.releases r).sender.trackAll s.releases).held (.key vk) = true :=
          hvk
        rw [trackAll_held, hold_ups hup] at hafter
        rw [h.retried_keyMeta r hne hafter.1, acceptAll_press_of_up _ _ hup]

/-- The record at startup: `openHeldShared` zeroes it. -/
def createdShared : HeldShared :=
  { magic := kMagic, mouseMask := fun _ => false, keyBits := fun _ => false,
    keyScan := fun _ => 0 }

/-- A fresh record is up to date. -/
theorem fresh_synced : (fresh (some createdShared)).Synced (RealKeys.ofCalls []) := by
  have hheld : (fresh (some createdShared)).held = nothing := by
    funext c
    cases c <;> rfl
  refine ⟨rfl, ⟨hheld, fun vk hvk => absurd hvk (by simp [fresh])⟩, createdShared, rfl, rfl,
    ⟨fun c => ?_, fun vk _ => rfl⟩⟩
  rw [hheld]
  cases c <;> rfl

/-- It stays so in every run whose releases are accepted in the end. -/
theorem synced_after {ops : List SenderOp}
    (hops : senderMachine.Meets Released (fresh (some createdShared)) ops) :
    (senderMachine.after (fresh (some createdShared)) ops).Synced
      (RealKeys.ofCalls (senderMachine.trace (fresh (some createdShared)) ops)) := by
  have hrun := senderMachine.history_of_meets
    (I := fun s calls => s.Synced (RealKeys.ofCalls calls)) (fun _ _ _ h hop => h.step hop)
    fresh_synced hops
  simpa using hrun

end InputSender

/-! ### The wreck of a killed call -/

/-- When a call is killed. -/
inductive Kill where
  /-- Its first `SendInput` has returned and `j` stores of the `publish` after it are made. -/
  | sent (j : ℕ)
  /-- The retry of `releaseAll` has returned and `j` stores of its `publish` are made. -/
  | retried (j : ℕ)

/-- What a killed process leaves: the shared record and the keys really down. -/
structure Wreck where
  shared : HeldShared
  real : RealKeys

namespace InputSender

/-- The events of a call's first `SendInput`. -/
def passed (s : InputSender) : SenderOp → List INPUT
  | .send ins _ => ins
  | .releaseAll _ _ => s.releases

/-- How that `SendInput` goes. -/
def firstResult : SenderOp → SendResult
  | .send _ r => r
  | .releaseAll r _ => r

/-- The events it accepts. -/
def firstAccepted (s : InputSender) (op : SenderOp) : List INPUT :=
  (sendInput (s.passed op) (firstResult op)).acceptedEvents

/-- What is left of a call killed at a moment, from the shared record `h` before it; `none` when
    the call has no such moment: it sends nothing, or it needs no retry.  The tracking before
    the stores changes nothing outside the process. -/
def wreckFrom (s : InputSender) (h : HeldShared) (k : RealKeys) (op : SenderOp) :
    Kill → Option Wreck
  | .sent j =>
    if s.passed op = [] then none
    else
      let s' := s.tracked (s.passed op) (firstResult op)
      some { shared := if s'.dirty then s'.published h j else h
             real := k.acceptAll (s.firstAccepted op) }
  | .retried j =>
    match op with
    | .send _ _ => none
    | .releaseAll r retry =>
      let sent := s.send s.releases r
      if sent.ok = s.releases.length then none
      else
        some { shared := (sent.sender.trackAll s.releases).published (sent.sender.shared.getD h) j
               real := (k.acceptAll (s.firstAccepted op)).acceptAll
                 (sendInput (s.releases.drop sent.ok) retry).acceptedEvents }

/-- The wreck of a call killed while the sender is attached to a shared record. -/
def wreckAt (s : InputSender) (k : RealKeys) (op : SenderOp) (kill : Kill) : Option Wreck :=
  s.shared.bind fun h => s.wreckFrom h k op kill

end InputSender

/-- **Recorded**: everything really down has its bit in the shared record, and every key the
    metadata of its press. -/
def Wreck.Recorded (w : Wreck) : Prop :=
  ∀ c, w.real.held c = true →
    w.shared.bit c = true ∧ ∀ vk, c = .key vk → w.shared.keyScan vk = w.real.press vk

/-! ### What the watchdog sends -/

namespace InputSender

/-- All keys and buttons, in the order a release visits them. -/
def controls : List Control := vks.map .key ++ (List.finRange 5).map .button

/-- Every control is among them. -/
theorem mem_controls (c : Control) : c ∈ controls := by
  cases c with
  | key vk => simp [controls, mem_vks]
  | button b => simp [controls]

/-- The UP for a control, for a key with its metadata. -/
def upOf (keyMeta : Vk → BitVec 16) : Control → INPUT
  | .key vk => keyUpFor keyMeta vk
  | .button b => mouseUpFor b

/-- The release of a control has the one edge. -/
theorem upOf_edges (keyMeta : Vk → BitVec 16) {c : Control} (hc : c ≠ .key 0) :
    inputEdges (upOf keyMeta c) = [(c, false)] := by
  cases c with
  | key vk =>
    have hvk : vk ≠ 0 := fun h => hc (by rw [h])
    rw [upOf, keyUpFor_edges, if_neg hvk]
  | button b => exact mouseUpFor_edges b

/-- An UP tells the control it is for. -/
theorem eq_of_upOf_eq {m m' : Vk → BitVec 16} {c c' : Control} (hc : c ≠ .key 0)
    (h : upOf m c = upOf m' c') : c = c' := by
  have hedges := congrArg inputEdges h
  rw [upOf_edges m hc] at hedges
  by_cases hc' : c' = .key 0
  · subst hc'
    rw [upOf, keyUpFor_edges, if_pos rfl] at hedges
    exact absurd hedges (by simp)
  · rw [upOf_edges m' hc'] at hedges
    simpa using hedges

/-- The releases that `releaseHeldFrom` builds from the record `h`. -/
def releasesFrom (h : HeldShared) : List INPUT :=
  ((vks.filter h.keyBits).map (keyUpFor h.keyScan) ++
    ((List.finRange 5).filter h.mouseMask).map mouseUpFor).take releaseRoom

/-- The first 64 controls of the record, each with its UP. -/
theorem releasesFrom_eq_map (h : HeldShared) :
    releasesFrom h = ((controls.filter h.bit).take releaseRoom).map (upOf h.keyScan) := by
  rw [List.map_take, releasesFrom, controls, List.filter_append, List.filter_map,
    List.filter_map, List.map_append, List.map_map, List.map_map]
  rfl

/-- A release empties the record and makes one call, if there is anything in it. -/
theorem releaseHeldFrom_of_magic {h : HeldShared} (hmagic : h.magic = kMagic) (r : SendResult) :
    releaseHeldFrom h r =
      ({ h with keyBits := fun _ => false, mouseMask := fun _ => false },
        if releasesFrom h = [] then []
        else [sendInput (releasesFrom h) r]) := by
  rw [releaseHeldFrom, if_neg (not_not.mpr hmagic)]
  show (if releasesFrom h = [] then _ else _ : HeldShared × List SendCall) = _
  split <;> rfl

end InputSender

/-- **Released**: for everything really down the watchdog hands `SendInput` the matching UP, for
    a key with the metadata of its press. -/
def Wreck.Released (w : Wreck) : Prop :=
  ∀ c, w.real.held c = true → ∀ r,
    ∃ call ∈ (releaseHeldFrom w.shared r).2, InputSender.upOf w.real.press c ∈ call.events

/-- **What is recorded is released iff there is room for it** in the watchdog's buffer. -/
theorem Wreck.Recorded.released_iff {w : Wreck} (h : w.Recorded)
    (hmagic : w.shared.magic = kMagic) (hzero : w.real.held (.key 0) = false) :
    w.Released ↔ ∀ c, w.real.held c = true →
      c ∈ (InputSender.controls.filter w.shared.bit).take InputSender.releaseRoom := by
  refine forall_congr' fun c => forall_congr' fun hc => ?_
  obtain ⟨-, hmeta⟩ := h c hc
  have hne : c ≠ .key 0 := by
    rintro rfl
    exact absurd (hzero.symm.trans hc) (by simp)
  -- The UP is the same from the record's metadata as from the press's.
  have hup : InputSender.upOf w.real.press c = InputSender.upOf w.shared.keyScan c := by
    cases c with
    | key vk => simp only [InputSender.upOf, InputSender.keyUpFor, hmeta vk rfl]
    | button b => rfl
  have hmem : InputSender.upOf w.real.press c ∈ InputSender.releasesFrom w.shared ↔
      c ∈ (InputSender.controls.filter w.shared.bit).take InputSender.releaseRoom := by
    rw [InputSender.releasesFrom_eq_map, hup]
    constructor
    · intro hin
      obtain ⟨c', hc', heq⟩ := List.mem_map.mp hin
      rwa [InputSender.eq_of_upOf_eq hne heq.symm]
    · exact List.mem_map_of_mem
  rw [← hmem]
  simp only [InputSender.releaseHeldFrom_of_magic hmagic]
  constructor
  · intro hall
    obtain ⟨call, hcall, hevents⟩ := hall {}
    split at hcall
    · exact absurd hcall (by simp)
    · rwa [List.mem_singleton.mp hcall] at hevents
  · intro hin r
    rw [if_neg (List.ne_nil_of_mem hin)]
    exact ⟨_, List.mem_singleton_self _, hin⟩

namespace InputSender

/-- The keys really down at the kill: what has been accepted by then. -/
def realAt (s : InputSender) (k : RealKeys) (op : SenderOp) : Kill → RealKeys
  | .sent _ => k.acceptAll (s.firstAccepted op)
  | .retried _ =>
    match op with
    | .send _ _ => k
    | .releaseAll r retry =>
      (k.acceptAll (s.firstAccepted op)).acceptAll
        (sendInput (s.releases.drop (r.accepted s.releases.length)) retry).acceptedEvents

/-- The bits of the record at the kill: new where the store was made, and otherwise as they were
    before the call or, during a retry, after its first `SendInput`. -/
def bitsAt (s : InputSender) (k : RealKeys) (op : SenderOp) : Kill → Control → Bool
  | .sent j => fun c =>
    let k' := k.acceptAll (s.firstAccepted op)
    if BitStored k'.held j c then k'.held c else k.held c
  | .retried j => fun c =>
    let cleared := hold k.held (edgesOf s.releases)
    if BitStored cleared j c then cleared c else (k.acceptAll (s.firstAccepted op)).held c

/-- Every control that is down is among the first 64 entries of the record. -/
def HasRoom (s : InputSender) (k : RealKeys) (op : SenderOp) (kill : Kill) : Prop :=
  ∀ c, (s.realAt k op kill).held c = true →
    c ∈ (controls.filter (s.bitsAt k op kill)).take releaseRoom

end InputSender

/-- No control that is down after the killed call waits for a store.  After the first
    `SendInput` of `send`: it was down before, or its bit is stored; and a key pressed anew has
    its metadata stored.  A release presses nothing.  After its retry: what the retry failed to
    release is not yet cleared. -/
def InputSender.Covered (s : InputSender) (k : RealKeys) (op : SenderOp) : Kill → Prop
  | .sent j =>
    match op with
    | .send _ _ =>
      let k' := s.realAt k op (.sent j)
      ∀ c, k'.held c = true →
        (k.held c = true ∨ BitStored k'.held j c) ∧
          ∀ vk, c = .key vk → k'.press vk = k.press vk ∨ MetaStored k'.held j vk
    | .releaseAll _ _ => True
  | .retried j =>
    match op with
    | .send _ _ => True
    | .releaseAll _ _ =>
      ∀ c, (s.realAt k op (.retried j)).held c = true → (c, false) ∈ edgesOf s.releases →
        ¬ BitStored (hold k.held (edgesOf s.releases)) j c

namespace InputSender

/-! ### Recorded iff covered -/

/-- The record part of the way through a `publish`: what is down must have its bit from before
    or from a store, and the metadata of its press likewise. -/
theorem recorded_published_iff {s' : InputSender} {k k' : RealKeys} {h : HeldShared}
    (hknows : s'.Knows k') (hshows : Shows h k) (j : ℕ) :
    Wreck.Recorded ⟨s'.published h j, k'⟩ ↔ ∀ c, k'.held c = true →
      (k.held c = true ∨ BitStored k'.held j c) ∧
        ∀ vk, c = .key vk → k'.press vk = k.press vk ∨ MetaStored k'.held j vk := by
  -- A store of the `publish` is new when it is among the first `j`, and old otherwise.
  obtain ⟨hbit, hscan⟩ := published_apply s' h j
  rw [hknows.held] at hbit hscan
  simp only [Wreck.Recorded, hbit, hscan, hshows.bit]
  refine forall_congr' fun c => forall_congr' fun hc => ?_
  have hiff : (if BitStored k'.held j c then k'.held c else k.held c) = true ↔
      k.held c = true ∨ BitStored k'.held j c := by
    by_cases hst : BitStored k'.held j c <;> simp [hst, hc]
  rw [hiff]
  refine and_congr_right fun hcover => forall_congr' fun vk => forall_congr' fun hvk => ?_
  subst hvk
  by_cases hst : MetaStored k'.held j vk
  · have hdown : s'.heldKeys vk = true := by
      rw [← hknows.held] at hc
      exact hc
    simp [hst, hknows.keyMeta vk hdown]
  · -- Its metadata comes before its word: the key was down before.
    have hbefore := hcover.resolve_right fun hb => hst (metaStored_of_bitStored hc hb)
    simp only [hst, if_false, or_false, hshows.keyScan vk hbefore]
    exact eq_comm

/-- Events that leave the record clean changed no key that is down. -/
theorem Shows.of_clean {s s' : InputSender} {k k' : RealKeys} {h : HeldShared}
    (hknows : s.Knows k) (hknows' : s'.Knows k') (hsame : SameRecord s s') (hshows : Shows h k) :
    Shows h k' ∧ k'.held = k.held ∧ ∀ vk, k.held (.key vk) = true → k'.press vk = k.press vk := by
  have hheld : k'.held = k.held := by rw [← hknows'.held, hsame.held, hknows.held]
  have hpress : ∀ vk, k.held (.key vk) = true → k'.press vk = k.press vk := by
    intro vk hvk
    have hdown : s.held (.key vk) = true := by
      rw [hknows.held]
      exact hvk
    have hdown' : s'.held (.key vk) = true := by
      rw [hsame.held]
      exact hdown
    rw [← hknows'.keyMeta vk hdown', hsame.keyMeta, hknows.keyMeta vk hdown]
  refine ⟨⟨fun c => by rw [hheld]; exact hshows.bit c, fun vk hvk => ?_⟩, hheld, hpress⟩
  rw [hheld] at hvk
  rw [hshows.keyScan vk hvk, hpress vk hvk]

/-- A release is covered at every store after its first `SendInput`: what it leaves down was
    down before, with the same metadata. -/
theorem release_covered (s : InputSender) (k : RealKeys) (r retry : SendResult) {j : ℕ}
    {c : Control} (hc : (k.acceptAll (s.firstAccepted (.releaseAll r retry))).held c = true) :
    let k' := k.acceptAll (s.firstAccepted (.releaseAll r retry))
    (k.held c = true ∨ BitStored k'.held j c) ∧
      ∀ vk, c = .key vk → k'.press vk = k.press vk ∨ MetaStored k'.held j vk := by
  have hup : ∀ e ∈ edgesOf (s.firstAccepted (.releaseAll r retry)), e.2 = false := by
    intro e he
    exact s.releases_up e (edgesOf_subset (List.take_subset _ _) he)
  rw [RealKeys.acceptAll_held, hold_ups hup] at hc
  exact ⟨.inl hc.1, fun vk _ => .inl (congrFun (acceptAll_press_of_up _ _ hup) vk)⟩

/-- The wreck of a call killed after its first `SendInput`. -/
theorem Synced.sent_wreck {s : InputSender} {k : RealKeys} (h : s.Synced k) {op : SenderOp}
    {j : ℕ} {w : Wreck} (hw : s.wreckAt k op (.sent j) = some w) :
    ∃ h₀, h₀.magic = kMagic ∧ s.Mirrors h₀ ∧
      w = { shared :=
              if (s.tracked (s.passed op) (firstResult op)).dirty then
                (s.tracked (s.passed op) (firstResult op)).published h₀ j
              else h₀
            real := s.realAt k op (.sent j) } := by
  obtain ⟨h₀, hs, hmagic, hm⟩ := h.shared
  simp only [wreckAt, hs, Option.bind_some, wreckFrom] at hw
  split at hw
  · exact absurd hw (by simp)
  exact ⟨h₀, hmagic, hm, (Option.some.inj hw).symm⟩

/-- The wreck of a release killed after its retry. -/
theorem Synced.retried_wreck {s : InputSender} {k : RealKeys} (h : s.Synced k)
    {r retry : SendResult} {j : ℕ} {w : Wreck}
    (hw : s.wreckAt k (.releaseAll r retry) (.retried j) = some w) :
    s.releases ≠ [] ∧ ∃ h₁, h₁.magic = kMagic ∧ (s.send s.releases r).sender.Mirrors h₁ ∧
      w = { shared := ((s.send s.releases r).sender.trackAll s.releases).published h₁ j
            real := s.realAt k (.releaseAll r retry) (.retried j) } := by
  obtain ⟨h₀, hs, -⟩ := h.shared
  have hok := (s.send_spec s.releases r).1
  simp only [wreckAt, hs, Option.bind_some, wreckFrom, hok] at hw
  split at hw
  · exact absurd hw (by simp)
  next hretry =>
  have hne : s.releases ≠ [] := by
    intro hnil
    have hle := r.accepted_le s.releases.length
    simp only [hnil, List.length_nil] at hle hretry
    omega
  obtain ⟨h₁, hs₁, hmagic₁, hm₁⟩ := (h.sent r hne).shared
  refine ⟨hne, h₁, hmagic₁, hm₁, ?_⟩
  rw [hs₁] at hw
  exact (Option.some.inj hw).symm

/-- A kill after the first `SendInput` of a call. -/
theorem recorded_iff_of_sent {s : InputSender} {k : RealKeys} (h : s.Synced k) (op : SenderOp)
    (j : ℕ) {w : Wreck} (hw : s.wreckAt k op (.sent j) = some w) :
    w.Recorded ↔ s.Covered k op (.sent j) := by
  obtain ⟨h₀, -, hm, rfl⟩ := h.sent_wreck hw
  have hshows := hm.shows h.knows
  have hknows : (s.tracked (s.passed op) (firstResult op)).Knows
      (k.acceptAll (s.firstAccepted op)) := h.knows.tracked _ _
  have hiff : Wreck.Recorded
      { shared :=
          if (s.tracked (s.passed op) (firstResult op)).dirty then
            (s.tracked (s.passed op) (firstResult op)).published h₀ j
          else h₀
        real := s.realAt k op (.sent j) } ↔
      ∀ c, (s.realAt k op (.sent j)).held c = true →
        (k.held c = true ∨ BitStored (s.realAt k op (.sent j)).held j c) ∧
          ∀ vk, c = .key vk → (s.realAt k op (.sent j)).press vk = k.press vk ∨
            MetaStored (s.realAt k op (.sent j)).held j vk := by
    cases hdirty : (s.tracked (s.passed op) (firstResult op)).dirty with
    | false =>
      -- No `publish` is due, and the old record is still right: both sides hold.
      obtain ⟨hshows', hheld, hpress⟩ :=
        Shows.of_clean h.knows hknows (s.tracked_clean _ _ hdirty) hshows
      refine iff_of_true (fun c hc => ?_) (fun c hc => ?_)
      · exact ⟨(hshows'.bit c).trans hc, fun vk hvk => hshows'.keyScan vk (hvk ▸ hc)⟩
      · rw [realAt, hheld] at hc
        exact ⟨.inl hc, fun vk hvk => .inl (hpress vk (hvk ▸ hc))⟩
    -- A `publish` was due and was cut off at store `j`: the words up to there decide.
    | true => exact recorded_published_iff hknows hshows j
  rw [hiff]
  cases op with
  | send ins r => rfl
  | releaseAll r retry => exact iff_of_true (fun c hc => s.release_covered k r retry hc) trivial

/-- A kill after the retry of a release. -/
theorem recorded_iff_of_retried {s : InputSender} {k : RealKeys} (h : s.Synced k)
    (op : SenderOp) (j : ℕ) {w : Wreck} (hw : s.wreckAt k op (.retried j) = some w) :
    w.Recorded ↔ s.Covered k op (.retried j) := by
  cases op with
  | send ins r =>
    obtain ⟨h₀, hs, -⟩ := h.shared
    exact absurd hw (by simp [wreckAt, hs, wreckFrom])
  | releaseAll r retry =>
    obtain ⟨hne, h₁, -, hm₁, rfl⟩ := h.retried_wreck hw
    have hup := s.releases_up
    have hsent := h.sent r hne
    obtain ⟨hbit, hscan⟩ :=
      published_apply ((s.send s.releases r).sender.trackAll s.releases) h₁ j
    rw [h.retried_held r hne] at hbit hscan
    -- What is still down was down before the release, with the same metadata.
    have hrest : (sendInput (s.releases.drop (r.accepted s.releases.length)) retry).acceptedEvents ⊆
        s.releases := List.Subset.trans (List.take_subset _ _) (List.drop_subset _ _)
    have hupRest := fun e he => hup e (edgesOf_subset hrest he)
    have hupFirst : ∀ e ∈ edgesOf (s.firstAccepted (.releaseAll r retry)), e.2 = false := by
      intro e he
      exact hup e (edgesOf_subset (List.take_subset _ _) he)
    simp only [Wreck.Recorded, Covered, realAt, hbit, hscan]
    refine forall_congr' fun c => forall_congr' fun hc => ?_
    rw [RealKeys.acceptAll_held, hold_ups hupRest] at hc
    have hdown : k.held c = true := by
      have hfirst := hc.1
      rw [RealKeys.acceptAll_held, hold_ups hupFirst] at hfirst
      exact hfirst.1
    have hdown₁ : (s.send s.releases r).sender.held c = true := by
      rw [hsent.knows.held]
      exact hc.1
    rw [acceptAll_press_of_up _ _ hupRest, acceptAll_press_of_up _ _ hupFirst, hm₁.bit, hdown₁]
    have hmetas : ∀ vk, c = .key vk →
        (if MetaStored (hold k.held (edgesOf s.releases)) j vk then
          ((s.send s.releases r).sender.trackAll s.releases).keyMeta vk
        else h₁.keyScan vk) = k.press vk := by
      intro vk hvk
      subst hvk
      have hkey := h.retried_keyMeta r hne hdown₁
      rw [hkey, hm₁.keyScan vk hdown₁]
      rw [trackAll_keyMeta_of_up _ _ hup] at hkey
      rw [hkey, ite_self]
    -- So the metadata is right in any case, and the bits decide.
    rw [and_iff_left hmetas]
    have hall : hold k.held (edgesOf s.releases) c = true ↔ (c, false) ∉ edgesOf s.releases := by
      rw [hold_ups hup]
      simp [hdown]
    by_cases hst : BitStored (hold k.held (edgesOf s.releases)) j c
    · simp [hst, hall]
    · simp [hst]

/-- What the wreck of a killed call shows, and what is really down in it. -/
theorem Synced.wreck_shows {s : InputSender} {k : RealKeys} (h : s.Synced k) {op : SenderOp}
    {kill : Kill} {w : Wreck} (hw : s.wreckAt k op kill = some w) :
    w.real = s.realAt k op kill ∧ w.shared.magic = kMagic ∧
      w.shared.bit = s.bitsAt k op kill := by
  cases kill with
  | sent j =>
    obtain ⟨h₀, hmagic, hm, rfl⟩ := h.sent_wreck hw
    have hknows : (s.tracked (s.passed op) (firstResult op)).Knows
        (k.acceptAll (s.firstAccepted op)) := h.knows.tracked _ _
    have hshows := hm.shows h.knows
    cases hdirty : (s.tracked (s.passed op) (firstResult op)).dirty with
    | false =>
      -- Nothing has changed, so the old record has the new bits too.
      obtain ⟨-, hheld, -⟩ :=
        Shows.of_clean h.knows hknows (s.tracked_clean _ _ hdirty) hshows
      refine ⟨rfl, hmagic, funext fun c => ?_⟩
      simp only [bitsAt, hheld, ite_self]
      exact hshows.bit c
    | true =>
      refine ⟨rfl, (published_magic _ h₀ j).trans hmagic, funext fun c => ?_⟩
      have hbit := (published_apply (s.tracked (s.passed op) (firstResult op)) h₀ j).1 c
      rw [hknows.held, hshows.bit c] at hbit
      exact hbit
  | retried j =>
    cases op with
    | send ins r =>
      obtain ⟨h₀, hs, -⟩ := h.shared
      exact absurd hw (by simp [wreckAt, hs, wreckFrom])
    | releaseAll r retry =>
      obtain ⟨hne, h₁, hmagic₁, hm₁, rfl⟩ := h.retried_wreck hw
      refine ⟨rfl, (published_magic _ h₁ j).trans hmagic₁, funext fun c => ?_⟩
      have hbit := (published_apply ((s.send s.releases r).sender.trackAll s.releases) h₁ j).1 c
      rw [h.retried_held r hne, hm₁.bit, (h.sent r hne).knows.held] at hbit
      exact hbit

/-- Key 0 is no key: nothing Windows accepts presses it. -/
theorem realAt_zero (s : InputSender) (k : RealKeys) (op : SenderOp) (kill : Kill) :
    (s.realAt k op kill).held (.key 0) = k.held (.key 0) := by
  have hkeep : ∀ (k : RealKeys) (ins : List INPUT),
      (k.acceptAll ins).held (.key 0) = k.held (.key 0) := by
    intro k ins
    rw [RealKeys.acceptAll_held, hold_of_forall_ne fun e he => edgesOf_ne_zero he]
  cases kill with
  | sent j => exact hkeep _ _
  | retried j =>
    cases op with
    | send ins r => rfl
    | releaseAll r retry => exact (hkeep _ _).trans (hkeep _ _)

/-- **Kill-safety of the shared record, exactly**: after any calls that release everything in
    the end, a process killed in the next call leaves every key and button that is down
    recorded, with the metadata of its press, and the watchdog sends the matching UP for each,
    iff none of them waits for its store and there is room for their releases. -/
theorem killed_recorded_iff (ops : List SenderOp) (op : SenderOp) (kill : Kill) (w : Wreck)
    (hops : senderMachine.Meets Released (fresh (some createdShared)) ops)
    (hw : (senderMachine.after (fresh (some createdShared)) ops).wreckAt
      (RealKeys.ofCalls (senderMachine.trace (fresh (some createdShared)) ops)) op kill = some w) :
    w.Recorded ∧ w.Released ↔
      (senderMachine.after (fresh (some createdShared)) ops).Covered
        (RealKeys.ofCalls (senderMachine.trace (fresh (some createdShared)) ops)) op kill ∧
      (senderMachine.after (fresh (some createdShared)) ops).HasRoom
        (RealKeys.ofCalls (senderMachine.trace (fresh (some createdShared)) ops)) op kill := by
  have h := synced_after hops
  obtain ⟨hreal, hmagic, hbits⟩ := h.wreck_shows hw
  have hzero : w.real.held (.key 0) = false := by
    rw [hreal, realAt_zero, RealKeys.ofCalls, RealKeys.acceptAll_held,
      hold_of_forall_ne fun e he => edgesOf_ne_zero he]
    rfl
  have hrecorded : w.Recorded ↔ (senderMachine.after (fresh (some createdShared)) ops).Covered
      (RealKeys.ofCalls (senderMachine.trace (fresh (some createdShared)) ops)) op kill := by
    cases kill with
    | sent j => exact recorded_iff_of_sent h op j hw
    | retried j => exact recorded_iff_of_retried h op j hw
  rw [← hrecorded]
  refine and_congr_right fun hrec => ?_
  rw [hrec.released_iff hmagic hzero, hreal, hbits]
  rfl

/-- The press of the left button. -/
def leftPress : SenderOp := .send [makeMouseInput (some .left) true 0 kTagInfClick] {}

/-- The left button is pressed and released. -/
def leftTap : List SenderOp := [leftPress, .releaseAll {} {}]

/-- Pressed again after a tap and killed after all nine stores, the left button is recorded and
    let up. -/
theorem left_press_recorded :
    ∃ w, (senderMachine.after (fresh (some createdShared)) leftTap).wreckAt
      (RealKeys.ofCalls (senderMachine.trace (fresh (some createdShared)) leftTap)) leftPress
      (.sent 9) = some w ∧ w.Recorded ∧ w.Released := by
  have hmetas : metaStores ((RealKeys.ofCalls (senderMachine.trace (fresh (some createdShared))
      leftTap)).acceptAll ((senderMachine.after (fresh (some createdShared)) leftTap).firstAccepted
        leftPress)).held = 0 := by
    decide +kernel
  have hstored : ∀ c, BitStored ((RealKeys.ofCalls (senderMachine.trace
      (fresh (some createdShared)) leftTap)).acceptAll ((senderMachine.after
        (fresh (some createdShared)) leftTap).firstAccepted leftPress)).held 9 c := by
    intro c
    cases c with
    | key vk =>
      have hword := (Vk.word vk).isLt
      simp only [BitStored, hmetas]
      omega
    | button b =>
      simp only [BitStored, hmetas]
      omega
  refine ⟨_, rfl, (killed_recorded_iff leftTap leftPress (.sent 9) _
    ⟨trivial, .inl rfl, trivial⟩ rfl).mpr ⟨fun c _ => ⟨.inr (hstored c), fun vk _ => .inl rfl⟩,
      fun c hc => ?_⟩⟩
  have hfew : (controls.filter ((senderMachine.after (fresh (some createdShared)) leftTap).bitsAt
      (RealKeys.ofCalls (senderMachine.trace (fresh (some createdShared)) leftTap)) leftPress
      (.sent 9))).length ≤ releaseRoom := by
    decide +kernel
  rw [List.take_of_length_le hfew]
  refine List.mem_filter.mpr ⟨mem_controls c, ?_⟩
  exact (if_pos (hstored c)).trans hc

/-- Killed before the first store, the left button is down and recorded nowhere. -/
theorem left_press_unrecorded :
    ¬ ∀ (ops : List SenderOp) (op : SenderOp) (kill : Kill) (w : Wreck),
      (senderMachine.after (fresh (some createdShared)) ops).wreckAt
        (RealKeys.ofCalls (senderMachine.trace (fresh (some createdShared)) ops)) op kill =
          some w → w.Recorded ∧ w.Released := by
  intro hall
  have hrecorded := (hall [] leftPress (.sent 0) _ rfl).1 (.button 0)
  exact absurd (hrecorded (by decide +kernel)).1 (by decide +kernel)

end InputSender

end InfinityClicker
