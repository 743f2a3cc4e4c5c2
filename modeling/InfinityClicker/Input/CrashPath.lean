import InfinityClicker.Input.KillSafety

namespace InfinityClicker

open Presses Machines

/-!
# The crash path releases what the normal path would

`releaseAll` works on the private record, `releaseHeldFrom` on the shared one.  Between two
calls of the sender both build the same list of releases, however the calls before went.

* `InputSender.heldBits` — the number of bits set in the key record;
* `InputSender.Mirrored` — the record is clean, its counter counts its bits, and the shared
  record shows it;
* `InputSender.Mirrored.call` — every call keeps it, under every acceptance and with the retry;
* `InputSender.Mirrored.releaseHeldFrom_list` — the two lists are one.
-/

namespace InputSender

/-! ### The key counter -/

/-- The number of bits set in `heldKeys_`. -/
def heldBits (s : InputSender) : ℕ := vks.countP s.heldKeys

/-- Setting one entry adds one to the number of entries that are set. -/
theorem countP_update {κ : Type*} [DecidableEq κ] {l : List κ} (hl : l.Nodup) {c : κ}
    (hc : c ∈ l) (h : κ → Bool) :
    l.countP (Function.update h c true) = l.countP (Function.update h c false) + 1 := by
  induction l with
  | nil => simp at hc
  | cons x l ih =>
    obtain ⟨hx, hl⟩ := List.nodup_cons.mp hl
    rw [List.countP_cons, List.countP_cons]
    by_cases heq : x = c
    · subst heq
      -- The rest of the list does not meet the entry again.
      have hrest : ∀ d d' : Bool,
          l.countP (Function.update h x d) = l.countP (Function.update h x d') := by
        intro d d'
        apply List.countP_congr
        intro y hy
        have hne : y ≠ x := fun hyx => hx (hyx ▸ hy)
        rw [Function.update_of_ne hne, Function.update_of_ne hne]
      simp [hrest true false]
    · have hmem : c ∈ l := (List.mem_cons.mp hc).resolve_left (Ne.symm heq)
      rw [ih hl hmem, Function.update_of_ne heq, Function.update_of_ne heq]
      omega

/-- A key that goes down adds one bit. -/
theorem heldBits_press {h : Vk → Bool} {vk : Vk} (hup : h vk = false) :
    vks.countP (Function.update h vk true) = vks.countP h + 1 := by
  have hone := countP_update vks_nodup (mem_vks vk) h
  rwa [show Function.update h vk false = h from by rw [← hup, Function.update_eq_self]] at hone

theorem heldBits_release {h : Vk → Bool} {vk : Vk} (hdown : h vk = true) :
    vks.countP h = vks.countP (Function.update h vk false) + 1 := by
  have hone := countP_update vks_nodup (mem_vks vk) h
  rwa [show Function.update h vk true = h from by rw [← hdown, Function.update_eq_self]] at hone

/-- The counter counts the bits. -/
def Counts (s : InputSender) : Prop := s.heldKeyCount = s.heldBits

@[simp] theorem setMouseIf_heldKeyCount (s : InputSender) (c : Bool) (b : Fin 5) (d : Bool) :
    (s.setMouseIf c b d).heldKeyCount = s.heldKeyCount := by cases c <;> rfl

/-- **An event keeps the counter right**: it moves with the bit of its key. -/
theorem Counts.track {s : InputSender} (h : s.Counts) (i : INPUT) : (s.track i).Counts := by
  cases i with
  | hardware => exact h
  | mouse mi =>
    have hcount : (s.track (.mouse mi)).heldKeyCount = s.heldKeyCount := by
      simp only [InputSender.track]
      split <;> simp
    unfold Counts heldBits
    rw [hcount, (s.track_mouse mi).1]
    exact h
  | keyboard ki =>
    simp only [InputSender.track]
    split
    · exact h
    · split
      · next hpress =>
        rw [Bool.and_eq_true, Bool.not_eq_true', Bool.not_eq_true'] at hpress
        have hbits := heldBits_press hpress.2
        show s.heldKeyCount + 1 = _
        rw [heldBits, hbits, show s.heldKeyCount = s.heldBits from h]
        push_cast
        rfl
      · split
        · next hrelease =>
          rw [Bool.and_eq_true] at hrelease
          have hbits := heldBits_release hrelease.2
          show s.heldKeyCount - 1 = _
          rw [show s.heldKeyCount = s.heldBits from h, heldBits, heldBits, hbits]
          push_cast
          omega
        · exact h

theorem Counts.trackAll {s : InputSender} (h : s.Counts) (ins : List INPUT) :
    (s.trackAll ins).Counts := by
  induction ins generalizing s with
  | nil => exact h
  | cons i ins ih => exact ih (h.track i)

/-! ### Between two calls -/

/-- The record is clean and counted, and the attached shared record shows it. -/
structure Mirrored (s : InputSender) : Prop where
  clean : s.dirty = false
  counts : s.Counts
  shared : ∃ h, s.shared = some h ∧ h.magic = kMagic ∧ s.Mirrors h

/-- After a `publish` everything agrees, whatever was tracked before it. -/
theorem publish_mirrored {s : InputSender} (hc : s.Counts) {h : HeldShared}
    (hs : s.shared = some h) (hmagic : h.magic = kMagic) : s.publish.Mirrored := by
  have hm := s.published_mirrors h (le_refl _)
  refine ⟨rfl, hc, s.published h s.publishStores.length, ?_, ?_, ⟨hm.bit, hm.keyScan⟩⟩
  · simp [publish, hs, published]
  · exact (s.published_magic h _).trans hmagic

theorem Mirrored.send {s : InputSender} (h : s.Mirrored) (ins : List INPUT) (r : SendResult) :
    (s.send ins r).sender.Mirrored := by
  obtain ⟨h₀, hs, hmagic, hm⟩ := h.shared
  by_cases hnil : ins = []
  · simpa [hnil, InputSender.send] using h
  · have hcount : (s.tracked ins r).Counts := by
      have hcalled : (s.countCall ins.length (r.accepted ins.length) r.error).Counts := h.counts
      exact hcalled.trackAll _
    have hshared := (s.tracked_shared ins r).trans hs
    rw [send_sender s r hnil, publishIfDirty]
    cases hdirty : (s.tracked ins r).dirty with
    | true => simpa using publish_mirrored hcount hshared hmagic
    | false =>
      -- Nothing to publish: what was accepted changed nothing in the record.
      have hsame := s.tracked_clean ins r hdirty
      simpa using (⟨hdirty, hcount, h₀, hshared, hmagic, hsame.mirrors hm⟩ : Mirrored _)

theorem Mirrored.releaseAll {s : InputSender} (h : s.Mirrored) (r retry : SendResult) :
    (s.releaseAll r retry).sender.Mirrored := by
  by_cases hno : s.NoRetry (.releaseAll r retry)
  · rw [s.releaseAll_of_noRetry r retry hno]
    exact h.send s.releases r
  · -- The retry tracks the whole list again and always publishes.
    obtain ⟨hsender, -, -⟩ := s.releaseAll_of_retry r retry hno
    have hsent := h.send s.releases r
    obtain ⟨h₁, hs₁, hmagic₁, -⟩ := hsent.shared
    rw [hsender]
    apply publish_mirrored (hsent.counts.trackAll s.releases) _ hmagic₁
    exact (trackAll_shared _ _).trans hs₁

/-- **Every call keeps the two records in agreement.** -/
theorem Mirrored.call {s : InputSender} (h : s.Mirrored) (op : SenderOp) :
    (senderMachine.next s op).Mirrored := by
  cases op with
  | send ins r => exact h.send ins r
  | releaseAll r retry => exact h.releaseAll r retry

theorem fresh_mirrored : (fresh (some createdShared)).Mirrored := by
  refine ⟨rfl, ?_, createdShared, rfl, rfl, fun c => ?_, fun vk _ => rfl⟩
  · show (0 : ℤ) = (vks.countP fun _ => false : ℕ)
    simp
  · cases c <;> rfl

/-! ### The two releases -/

/-- The first list that goes to `SendInput`, empty when there is no call. -/
def firstList (calls : List SendCall) : List INPUT := (calls.head?.map SendCall.events).getD []

theorem releaseHeldFrom_firstList {h : HeldShared} (hmagic : h.magic = kMagic)
    (r : SendResult) : firstList (releaseHeldFrom h r).2 = releasesFrom h := by
  rw [releaseHeldFrom_of_magic hmagic]
  dsimp only
  split
  · next hnil =>
    rw [hnil]
    rfl
  · rfl

theorem releaseAll_firstList (s : InputSender) (r retry : SendResult) :
    firstList (s.releaseAll r retry).calls = s.releases := by
  by_cases hno : s.NoRetry (.releaseAll r retry)
  · rw [s.releaseAll_of_noRetry r retry hno, (s.send_spec s.releases r).2.1]
    split
    · next hnil =>
      rw [hnil]
      rfl
    · rfl
  · rw [(s.releaseAll_of_retry r retry hno).2.1]
    rfl

/-- **The two routines build one list**: the keys in order with the metadata of each, then the
    buttons, as far as the buffer has room. -/
theorem Mirrors.releasesFrom_eq {s : InputSender} {h : HeldShared} (hm : s.Mirrors h) :
    releasesFrom h = s.releases := by
  have hkeys : h.keyBits = s.heldKeys := funext fun vk => hm.bit (.key vk)
  have hmouse : h.mouseMask = s.heldMouse := funext fun b => hm.bit (.button b)
  have hmeta : (vks.filter s.heldKeys).map (keyUpFor h.keyScan) =
      (vks.filter s.heldKeys).map (keyUpFor s.keyMeta) := by
    apply List.map_congr_left
    intro vk hvk
    have hscan := hm.keyScan vk (List.mem_filter.mp hvk).2
    simp only [keyUpFor, hscan]
  rw [releasesFrom, releases, hkeys, hmouse, hmeta]

/-- **The crash path equals the normal path.**  After any calls of the sender, each `SendInput`
    accepting an arbitrary prefix, the counter counts the bits, the shared record shows the
    private one, and a crash handler would pass to `SendInput` the very list that `releaseAll`
    would. -/
theorem crash_path_eq_releaseAll (ops : List SenderOp) :
    ∃ h, (senderMachine.after (fresh (some createdShared)) ops).shared = some h ∧
      (senderMachine.after (fresh (some createdShared)) ops).heldKeyCount =
        (senderMachine.after (fresh (some createdShared)) ops).heldBits ∧
      h.keyBits = (senderMachine.after (fresh (some createdShared)) ops).heldKeys ∧
      h.mouseMask = (senderMachine.after (fresh (some createdShared)) ops).heldMouse ∧
      (∀ vk, (senderMachine.after (fresh (some createdShared)) ops).heldKeys vk = true →
        h.keyScan vk = (senderMachine.after (fresh (some createdShared)) ops).keyMeta vk) ∧
      ∀ crash r retry, firstList (releaseHeldFrom h crash).2 =
        firstList ((senderMachine.after (fresh (some createdShared)) ops).releaseAll r
          retry).calls := by
  have hmirrored := senderMachine.invariant (I := Mirrored) (fun _ op h => h.call op)
    fresh_mirrored ops
  generalize senderMachine.after (fresh (some createdShared)) ops = s at hmirrored ⊢
  obtain ⟨h, hs, hmagic, hm⟩ := hmirrored.shared
  refine ⟨h, hs, hmirrored.counts, ?_, ?_, hm.keyScan, fun crash r retry => ?_⟩
  · funext vk
    exact hm.bit (.key vk)
  · funext b
    exact hm.bit (.button b)
  · rw [releaseHeldFrom_firstList hmagic, releaseAll_firstList, hm.releasesFrom_eq]

end InputSender

end InfinityClicker
