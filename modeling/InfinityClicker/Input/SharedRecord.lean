import InfinityClicker.Input.Releases
import InfinityClicker.Input.SenderRecord

namespace InfinityClicker

open Presses Machines

/-!
# The real keys, the private record and the shared one

Three views of the same keys: what is down in the system (`RealKeys`), what the sender records
(`InputSender.Knows`) and what the watchdog reads (`InputSender.Mirrors`).

* `InputSender.Knows.track` — tracking an accepted event keeps the private record exact;
* `InputSender.published_apply` — the shared record between any two stores of `publish`;
* `InputSender.trackAll_clean` — events that leave the record clean changed nothing in it.
-/

/-! ### The keys really down -/

/-- The keys and buttons that are down in the system, and the metadata each key was pressed
    with. -/
structure RealKeys where
  held : Control → Bool := nothing
  press : Vk → BitVec 16 := fun _ => 0

/-- Windows accepts one event.  A DOWN of a key that is up is a new press. -/
def RealKeys.accept (k : RealKeys) (i : INPUT) : RealKeys :=
  { held := hold k.held (inputEdges i)
    press :=
      match i with
      | .keyboard ki =>
        let vk : Vk := ki.wVk.setWidth 8
        if vk = 0 ∨ hasFlag ki.dwFlags KEYEVENTF_KEYUP ∨ k.held (.key vk) then k.press
        else Function.update k.press vk (InputSender.packMeta ki)
      | _ => k.press }

/-- Windows accepts events in their order. -/
def RealKeys.acceptAll (k : RealKeys) (ins : List INPUT) : RealKeys := ins.foldl accept k

/-- The keys really down after a list of `SendInput` calls. -/
def RealKeys.ofCalls (calls : List SendCall) : RealKeys :=
  acceptAll {} (calls.flatMap SendCall.acceptedEvents)

/-- Accepted events act piece by piece. -/
theorem RealKeys.acceptAll_append (k : RealKeys) (ins js : List INPUT) :
    k.acceptAll (ins ++ js) = (k.acceptAll ins).acceptAll js := List.foldl_append

/-- What is held after accepted events is what their edges make of it. -/
theorem RealKeys.acceptAll_held (k : RealKeys) (ins : List INPUT) :
    (k.acceptAll ins).held = hold k.held (edgesOf ins) := by
  induction ins generalizing k with
  | nil => rfl
  | cons i ins ih =>
    rw [edgesOf_cons, hold_append]
    exact ih (k.accept i)

/-- What the calls of two sends make of the real keys. -/
theorem RealKeys.ofCalls_append (calls more : List SendCall) :
    ofCalls (calls ++ more) =
      (ofCalls calls).acceptAll (more.flatMap SendCall.acceptedEvents) := by
  rw [ofCalls, List.flatMap_append, acceptAll_append]
  rfl

/-! ### The shared record between the stores of `publish` -/

/-- The number of metadata stores of a `publish`: one for each held key. -/
def metaStores (held : Control → Bool) : ℕ :=
  (InputSender.vks.filter fun vk => held (.key vk)).length

/-- The store that carries the bit of a control is among the first `j` stores of the `publish`
    that writes `held`: the key words follow the metadata, the mouse word follows them. -/
def BitStored (held : Control → Bool) (j : ℕ) : Control → Prop
  | .key vk => metaStores held + (Vk.word vk).val < j
  | .button _ => metaStores held + 8 < j

/-- The store of a key's metadata is among the first `j` stores. -/
def MetaStored (held : Control → Bool) (j : ℕ) (vk : Vk) : Prop :=
  vk ∈ (InputSender.vks.filter fun vk => held (.key vk)).take j

instance (held : Control → Bool) (j : ℕ) : ∀ c : Control, Decidable (BitStored held j c)
  | .key _ => inferInstanceAs (Decidable (_ < _))
  | .button _ => inferInstanceAs (Decidable (_ < _))

instance (held : Control → Bool) (j : ℕ) (vk : Vk) : Decidable (MetaStored held j vk) :=
  inferInstanceAs (Decidable (_ ∈ _))

/-- The bit of a control in the shared record. -/
def HeldShared.bit (h : HeldShared) : Control → Bool
  | .key vk => h.keyBits vk
  | .button b => h.mouseMask b

namespace InputSender

/-- Scan codes are stored for the keys of a list. -/
theorem foldl_keyScan (value : Vk → BitVec 16) (l : List Vk) (h : HeldShared) :
    (l.map fun vk => Store.keyScan vk (value vk)).foldl Store.apply h =
      { h with keyScan := fun vk => if vk ∈ l then value vk else h.keyScan vk } := by
  induction l generalizing h with
  | nil => simp
  | cons x l ih =>
    rw [List.map_cons, List.foldl_cons, ih]
    simp only [Store.apply, HeldShared.mk.injEq, true_and]
    funext vk
    by_cases hmem : vk ∈ l
    · simp [hmem]
    · by_cases hx : vk = x
      · subst hx; simp
      · simp [hmem, hx]

/-- Words are stored for the words of a list. -/
theorem foldl_keyWord (bits : Vk → Bool) (l : List (Fin 8)) (h : HeldShared) :
    (l.map fun w => Store.keyWord w bits).foldl Store.apply h =
      { h with
        keyBits := fun vk => if l.contains (Vk.word vk) then bits vk else h.keyBits vk } := by
  induction l generalizing h with
  | nil => simp
  | cons x l ih =>
    rw [List.map_cons, List.foldl_cons, ih]
    simp only [Store.apply, HeldShared.mk.injEq, and_true, true_and]
    funext vk
    by_cases hmem : Vk.word vk ∈ l
    · simp [hmem]
    · by_cases hx : Vk.word vk = x <;> simp [hmem, hx]

/-- The first words are those with a small number. -/
theorem mem_take_finRange {n : ℕ} (w : Fin n) (k : ℕ) :
    w ∈ (List.finRange n).take k ↔ w.val < k := by
  rw [List.mem_take_iff_getElem]
  constructor
  · rintro ⟨i, hi, rfl⟩
    simp only [List.getElem_finRange, Fin.val_cast]
    omega
  · intro hw
    refine ⟨w.val, ?_, ?_⟩
    · simp only [List.length_finRange]
      omega
    · simp

/-- The record after the first `j` stores of `publish`. -/
def published (s : InputSender) (h : HeldShared) (j : ℕ) : HeldShared :=
  (s.publishStores.take j).foldl Store.apply h

/-- No store of `publish` touches the magic. -/
theorem published_magic (s : InputSender) (h : HeldShared) (j : ℕ) :
    (s.published h j).magic = h.magic := by
  unfold published
  generalize s.publishStores.take j = stores
  induction stores generalizing h with
  | nil => rfl
  | cons st stores ih =>
    have hone : (Store.apply h st).magic = h.magic := by cases st <;> rfl
    exact (ih (Store.apply h st)).trans hone

/-- **The record between two stores**: what the first `j` stores carry is new, the rest is
    what it was. -/
theorem published_apply (s : InputSender) (h : HeldShared) (j : ℕ) :
    (∀ c, (s.published h j).bit c = if BitStored s.held j c then s.held c else h.bit c) ∧
      (∀ vk, (s.published h j).keyScan vk =
        if MetaStored s.held j vk then s.keyMeta vk else h.keyScan vk) := by
  have hkeys : (vks.filter s.heldKeys) = vks.filter fun vk => s.held (.key vk) := rfl
  -- The first `j` stores, by kind: metadata, key words, the mouse word.
  have hsplit : s.publishStores.take j =
      ((vks.filter s.heldKeys).take j).map (fun vk => .keyScan vk (s.keyMeta vk)) ++
        ((List.finRange 8).take (j - metaStores s.held)).map (fun w => .keyWord w s.heldKeys) ++
        [Store.mouseMask s.heldMouse].take (j - (metaStores s.held + 8)) := by
    rw [publishStores, List.take_append, List.take_append, ← List.map_take, ← List.map_take]
    simp [metaStores, hkeys]
  simp only [published, hsplit, List.foldl_append, foldl_keyScan, foldl_keyWord]
  have hmouse : ∀ h' : HeldShared,
      (([Store.mouseMask s.heldMouse].take (j - (metaStores s.held + 8))).foldl
        Store.apply h') =
        { h' with
          mouseMask := if metaStores s.held + 8 < j then s.heldMouse else h'.mouseMask } := by
    intro h'
    by_cases hj : metaStores s.held + 8 < j
    · obtain ⟨k, hk⟩ := Nat.exists_eq_succ_of_ne_zero (Nat.sub_ne_zero_of_lt hj)
      simp [hk, hj, Store.apply]
    · have hzero : j - (metaStores s.held + 8) = 0 := by omega
      simp [hzero, hj]
  rw [hmouse]
  constructor
  · intro c
    cases c with
    | key vk =>
      have hword : (Vk.word vk).val < j - metaStores s.held ↔
          metaStores s.held + (Vk.word vk).val < j := by omega
      by_cases hj : metaStores s.held + (Vk.word vk).val < j <;>
        simp [HeldShared.bit, BitStored, mem_take_finRange, hword, held, hj]
    | button b =>
      by_cases hj : metaStores s.held + 8 < j <;> simp [HeldShared.bit, BitStored, hj, held]
  · intro vk
    by_cases hj : MetaStored s.held j vk <;> simp_all [MetaStored]

/-- A held key's metadata is stored before its word. -/
theorem metaStored_of_bitStored {held : Control → Bool} {j : ℕ} {vk : Vk}
    (hdown : held (.key vk) = true) (hbit : BitStored held j (.key vk)) :
    MetaStored held j vk := by
  -- A word among them means that all metadata stores came before.
  have hall : metaStores held ≤ j := by
    simp only [BitStored] at hbit
    omega
  rw [MetaStored, List.take_of_length_le hall]
  exact List.mem_filter.mpr ⟨mem_vks vk, hdown⟩

/-- After all its stores the record is what the sender knows. -/
theorem publishStores_length (s : InputSender) :
    s.publishStores.length = metaStores s.held + 9 := by
  simp [publishStores, metaStores, held]

/-! ### What the sender knows and what the record shows -/

/-- The private record is exact: the held set, and the metadata of every key in it. -/
structure Knows (s : InputSender) (k : RealKeys) : Prop where
  held : s.held = k.held
  keyMeta : ∀ vk, s.heldKeys vk = true → s.keyMeta vk = k.press vk

/-- The shared record shows the private one. -/
structure Mirrors (s : InputSender) (h : HeldShared) : Prop where
  bit : ∀ c, h.bit c = s.held c
  keyScan : ∀ vk, s.heldKeys vk = true → h.keyScan vk = s.keyMeta vk

/-- The shared record shows the keys really down. -/
structure Shows (h : HeldShared) (k : RealKeys) : Prop where
  bit : ∀ c, h.bit c = k.held c
  keyScan : ∀ vk, k.held (.key vk) = true → h.keyScan vk = k.press vk

/-- A mirrored record that knows the real keys shows them. -/
theorem Mirrors.shows {s : InputSender} {k : RealKeys} {h : HeldShared} (hm : s.Mirrors h)
    (hk : s.Knows k) : Shows h k := by
  refine ⟨fun c => by rw [hm.bit c, hk.held], fun vk hvk => ?_⟩
  have hdown : s.heldKeys vk = true := by
    rw [← hk.held] at hvk
    exact hvk
  rw [hm.keyScan vk hdown, hk.keyMeta vk hdown]

/-- A button touches no key. -/
@[simp] theorem setMouseIf_heldKeys (s : InputSender) (c : Bool) (b : Fin 5) (d : Bool) :
    (s.setMouseIf c b d).heldKeys = s.heldKeys := by cases c <;> rfl

/-- A button touches no scan code. -/
@[simp] theorem setMouseIf_keyMeta (s : InputSender) (c : Bool) (b : Fin 5) (d : Bool) :
    (s.setMouseIf c b d).keyMeta = s.keyMeta := by cases c <;> rfl

/-- A button is no store to the shared record. -/
@[simp] theorem setMouseIf_shared (s : InputSender) (c : Bool) (b : Fin 5) (d : Bool) :
    (s.setMouseIf c b d).shared = s.shared := by cases c <;> rfl

/-- A mouse event changes the held buttons and nothing a key has. -/
theorem track_mouse (s : InputSender) (mi : MouseInput) :
    (s.track (.mouse mi)).heldKeys = s.heldKeys ∧ (s.track (.mouse mi)).keyMeta = s.keyMeta ∧
      (s.track (.mouse mi)).shared = s.shared := by
  simp only [track]
  split <;> simp

/-- Tracking is no store to the shared record. -/
theorem track_shared (s : InputSender) (i : INPUT) : (s.track i).shared = s.shared := by
  cases i with
  | hardware => rfl
  | mouse mi => exact (s.track_mouse mi).2.2
  | keyboard ki =>
    simp only [track]
    split
    · rfl
    · split
      · rfl
      · split <;> rfl

/-- Nor is tracking a list. -/
theorem trackAll_shared (s : InputSender) (ins : List INPUT) :
    (s.trackAll ins).shared = s.shared := by
  induction ins generalizing s with
  | nil => rfl
  | cons i ins ih => exact (ih (s.track i)).trans (s.track_shared i)

/-- Tracking an accepted event keeps the private record exact. -/
theorem Knows.track {s : InputSender} {k : RealKeys} (h : s.Knows k) (i : INPUT) :
    (s.track i).Knows (k.accept i) := by
  refine ⟨by rw [track_held, h.held]; rfl, ?_⟩
  intro vk hvk
  cases i with
  | hardware => exact h.keyMeta vk hvk
  | mouse mi =>
    rw [(s.track_mouse mi).1] at hvk
    rw [(s.track_mouse mi).2.1]
    exact h.keyMeta vk hvk
  | keyboard ki =>
    have hwas : k.held (.key (ki.wVk.setWidth 8)) = s.heldKeys (ki.wVk.setWidth 8) := by
      rw [← h.held]
      rfl
    by_cases hzero : ki.wVk.setWidth 8 = 0#8
    · have htrack : s.track (.keyboard ki) = s := by simp [InputSender.track, hzero]
      rw [htrack] at hvk ⊢
      simpa [RealKeys.accept, hzero] using h.keyMeta vk hvk
    · cases hup : hasFlag ki.dwFlags KEYEVENTF_KEYUP <;>
        cases hdown : s.heldKeys (ki.wVk.setWidth 8)
      -- A new press: both sides take the metadata of this event.
      · by_cases hsame : vk = ki.wVk.setWidth 8
        · subst hsame
          simp [InputSender.track, RealKeys.accept, hzero, hup, hdown, hwas]
        · simp [InputSender.track, RealKeys.accept, hzero, hup, hdown, hwas, hsame] at hvk ⊢
          exact h.keyMeta vk hvk
      · simp [InputSender.track, RealKeys.accept, hzero, hup, hdown, hwas] at hvk ⊢
        exact h.keyMeta vk hvk
      · simp [InputSender.track, RealKeys.accept, hzero, hup, hdown, hwas] at hvk ⊢
        exact h.keyMeta vk hvk
      · -- A release: what is still held was held before, with the metadata it has.
        have hold : s.heldKeys vk = true := by
          simp only [InputSender.track, hup, hdown] at hvk
          by_cases hsame : vk = ki.wVk.setWidth 8
          · rwa [hsame]
          · simpa [hsame, hzero] using hvk
        simpa [InputSender.track, RealKeys.accept, hzero, hup, hdown] using h.keyMeta vk hold

/-- Tracking what Windows accepts keeps the record true. -/
theorem Knows.trackAll {s : InputSender} {k : RealKeys} (h : s.Knows k) (ins : List INPUT) :
    (s.trackAll ins).Knows (k.acceptAll ins) := by
  induction ins generalizing s k with
  | nil => exact h
  | cons i ins ih => exact ih (h.track i)

/-- `s'` records the same as `s`. -/
structure SameRecord (s s' : InputSender) : Prop where
  dirty : s.dirty = false
  held : s'.held = s.held
  keyMeta : s'.keyMeta = s.keyMeta

/-- A record that stayed the same twice is the same. -/
theorem SameRecord.trans {s s' s'' : InputSender} (h : SameRecord s s') (h' : SameRecord s' s'') :
    SameRecord s s'' :=
  ⟨h.dirty, h'.held.trans h.held, h'.keyMeta.trans h.keyMeta⟩

/-- A button that leaves the record clean was where the event puts it. -/
theorem setMouseIf_clean (s : InputSender) (c : Bool) (b : Fin 5) (d : Bool)
    (hclean : (s.setMouseIf c b d).dirty = false) : SameRecord s (s.setMouseIf c b d) := by
  cases c with
  | false => exact ⟨hclean, rfl, rfl⟩
  | true =>
    simp only [setMouseIf, if_true, setMouse, Bool.or_eq_false_iff, bne_eq_false_iff_eq] at hclean
    refine ⟨hclean.1, ?_, rfl⟩
    rw [setMouseIf, if_pos rfl, setMouse_held]
    exact edge_of_eq hclean.2

/-- An event that leaves the record clean changed nothing in it. -/
theorem track_clean (s : InputSender) (i : INPUT) (hclean : (s.track i).dirty = false) :
    SameRecord s (s.track i) := by
  cases i with
  | hardware => exact ⟨hclean, rfl, rfl⟩
  | mouse mi =>
    -- The flags are looked at one after the other, each a `setMouseIf`.
    have hstep : ∀ {s₀ s₁ : InputSender} (c : Bool) (b : Fin 5) (d : Bool),
        SameRecord (s₀.setMouseIf c b d) s₁ → SameRecord s₀ s₁ := fun c b d h =>
      (setMouseIf_clean _ c b d h.dirty).trans h
    simp only [track] at hclean ⊢
    split at hclean
    · next hx =>
      rw [if_pos hx]
      have hlast := setMouseIf_clean _ _ _ _ hclean
      exact hstep _ _ _ (hstep _ _ _ (hstep _ _ _ (hstep _ _ _ (hstep _ _ _ (hstep _ _ _
        (hstep _ _ _ hlast))))))
    · next hx =>
      rw [if_neg hx]
      have hlast := setMouseIf_clean _ _ _ _ hclean
      exact hstep _ _ _ (hstep _ _ _ (hstep _ _ _ (hstep _ _ _ (hstep _ _ _ hlast))))
  | keyboard ki =>
    simp only [track] at hclean ⊢
    split at hclean
    · next hzero => rw [if_pos hzero]; exact ⟨hclean, rfl, rfl⟩
    · next hzero =>
      rw [if_neg hzero]
      split at hclean
      · exact absurd hclean (by simp)
      · next hdown =>
        rw [if_neg hdown]
        split at hclean
        · exact absurd hclean (by simp)
        · next hup => rw [if_neg hup]; exact ⟨hclean, rfl, rfl⟩

/-- Events that leave the record clean were there already. -/
theorem trackAll_clean (s : InputSender) (ins : List INPUT)
    (hclean : (s.trackAll ins).dirty = false) : SameRecord s (s.trackAll ins) := by
  induction ins generalizing s with
  | nil => exact ⟨hclean, rfl, rfl⟩
  | cons i ins ih =>
    -- The record only ever becomes dirty, so the first event left it clean as well.
    have htail := ih (s.track i) hclean
    exact (s.track_clean i htail.dirty).trans htail

/-- The shared record mirrors a record that stayed the same. -/
theorem SameRecord.mirrors {s s' : InputSender} (h : SameRecord s s') {h₀ : HeldShared}
    (hm : s.Mirrors h₀) : s'.Mirrors h₀ := by
  have hkeys : s'.heldKeys = s.heldKeys := funext fun vk => congrFun h.held (.key vk)
  refine ⟨fun c => by rw [h.held]; exact hm.bit c, fun vk hvk => ?_⟩
  rw [h.keyMeta]
  exact hm.keyScan vk (by rwa [hkeys] at hvk)

/-- After all stores of a `publish` the shared record shows the private one. -/
theorem published_mirrors (s : InputSender) (h : HeldShared) {j : ℕ}
    (hj : s.publishStores.length ≤ j) : s.Mirrors (s.published h j) := by
  obtain ⟨hbit, hmeta⟩ := s.published_apply h j
  have hlen := s.publishStores_length
  have hstored : ∀ c, BitStored s.held j c := by
    intro c
    cases c with
    | key vk =>
      have hword := (Vk.word vk).isLt
      simp only [BitStored]
      omega
    | button b =>
      simp only [BitStored]
      omega
  refine ⟨fun c => by rw [hbit c, if_pos (hstored c)], fun vk hvk => ?_⟩
  rw [hmeta vk, if_pos (metaStored_of_bitStored hvk (hstored (.key vk)))]

end InputSender

end InfinityClicker
