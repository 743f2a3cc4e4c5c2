import InfinityClicker.Profiles.StoreInvariant

namespace InfinityClicker

open Json

/-!
# The list of target programs

`applyPendingConfig` cuts the text of the target programs at semicolons and commas, trims and
lowers each piece, and puts `.exe` after a name without a dot.

* `targetItems` — the names of the list;
* `TargetName` — what such a name looks like;
* `targetItems_reparse` — every list gives such names, and the names written out as a list give
  themselves.
-/

/-- One character of `toLowerAscii`. -/
def lowerByte (c : UInt8) : UInt8 :=
  if ch 'A' ≤ c ∧ c ≤ ch 'Z' then c - ch 'A' + ch 'a' else c

def toLowerAscii (s : Bytes) : Bytes := s.map lowerByte

/-- What `find_first_of(";,")` stops at. -/
def isSeparator (c : UInt8) : Bool := c == ch ';' || c == ch ','

/-- One piece of the list: `none` when it is blank. -/
def targetItem (piece : Bytes) : Option Bytes :=
  let item := toLowerAscii (trim piece)
  if item = [] then none
  else if ch '.' ∈ item then some item
  else some (item ++ bytes ".exe")

/-- The names of the list, in order. -/
def targetItems (list : Bytes) : List Bytes := (list.splitOnP isSeparator).filterMap targetItem

/-- The list written out, as the program's own default has it. -/
def joinTargets (items : List Bytes) : Bytes := (bytes "; ").intercalate items

/-! ### Trimmed texts -/

/-- No blank at either end. -/
structure Trimmed (s : Bytes) : Prop where
  front : ∀ c ∈ s.head?, isBlank c = false
  back : ∀ c ∈ s.getLast?, isBlank c = false

theorem trimmed_trim (s : Bytes) : Trimmed (trim s) := by
  constructor
  · intro c hc
    have hprefix : trim s <+: s.dropWhile isBlank := List.rdropWhile_prefix _ _
    have hhead : c ∈ (s.dropWhile isBlank).head? := by
      obtain ⟨rest, hrest⟩ := hprefix
      rw [← hrest]
      exact List.mem_head?_append_of_mem_head? hc
    have hnot := List.head?_dropWhile_not isBlank s
    rw [Option.mem_def.mp hhead] at hnot
    exact hnot
  · intro c hc
    have hne : trim s ≠ [] := by
      rintro hnil
      rw [hnil] at hc
      exact absurd hc (by simp)
    have hlast := List.rdropWhile_last_not isBlank (s.dropWhile isBlank) hne
    rw [List.getLast?_eq_some_getLast hne] at hc
    rw [← Option.some.inj hc]
    rw [Bool.not_eq_true] at hlast
    exact hlast

theorem Trimmed.trim_eq {s : Bytes} (h : Trimmed s) : trim s = s := by
  have hfront : s.dropWhile isBlank = s := by
    cases s with
    | nil => rfl
    | cons c s =>
      rw [List.dropWhile_cons_of_neg]
      simp [h.front c rfl]
  rw [trim, hfront, List.rdropWhile_eq_self_iff]
  intro hne hblank
  have hlast := h.back _ (List.getLast?_eq_some_getLast hne)
  rw [hlast] at hblank
  exact absurd hblank (by simp)

/-- A blank in front is trimmed away. -/
theorem trim_cons_blank {c : UInt8} (hc : isBlank c = true) (s : Bytes) :
    trim (c :: s) = trim s := by
  rw [trim, trim, List.dropWhile_cons_of_pos hc]

/-! ### Lower case -/

/-- Lowering one byte leaves what the parser looks at. -/
theorem lowerByte_spec (c : UInt8) :
    isBlank (lowerByte c) = isBlank c ∧ isSeparator (lowerByte c) = isSeparator c ∧
      lowerByte (lowerByte c) = lowerByte c := by
  obtain ⟨⟨n⟩⟩ := c
  revert n
  decide +kernel

theorem toLowerAscii_idem (s : Bytes) : toLowerAscii (toLowerAscii s) = toLowerAscii s := by
  rw [toLowerAscii, toLowerAscii, List.map_map]
  apply List.map_congr_left
  intro c _
  exact (lowerByte_spec c).2.2

theorem Trimmed.toLowerAscii {s : Bytes} (h : Trimmed s) : Trimmed (toLowerAscii s) := by
  constructor
  · intro c hc
    rw [InfinityClicker.toLowerAscii, List.head?_map] at hc
    obtain ⟨d, hd, rfl⟩ := Option.mem_map.mp hc
    rw [(lowerByte_spec d).1]
    exact h.front d hd
  · intro c hc
    rw [InfinityClicker.toLowerAscii, List.getLast?_map] at hc
    obtain ⟨d, hd, rfl⟩ := Option.mem_map.mp hc
    rw [(lowerByte_spec d).1]
    exact h.back d hd

/-! ### Target names -/

/-- **A target name**: a file name with a dot, lower case, without separators and without
    blanks at its ends. -/
structure TargetName (item : Bytes) : Prop where
  dotted : ch '.' ∈ item
  lower : toLowerAscii item = item
  separators : ∀ c ∈ item, isSeparator c = false
  trimmed : Trimmed item

theorem TargetName.targetItem {item : Bytes} (h : TargetName item) :
    targetItem item = some item := by
  have hne : item ≠ [] := List.ne_nil_of_mem h.dotted
  rw [InfinityClicker.targetItem]
  simp only [h.trimmed.trim_eq, h.lower, if_neg hne, if_pos h.dotted]

theorem separators_of_splitOnP {list piece : Bytes} (h : piece ∈ list.splitOnP isSeparator) :
    ∀ c ∈ piece, isSeparator c = false := by
  induction list generalizing piece with
  | nil =>
    rw [List.splitOnP_nil, List.mem_singleton] at h
    simp [h]
  | cons d list ih =>
    rw [List.splitOnP_cons_eq_if_modifyHead] at h
    split at h
    · rcases List.mem_cons.mp h with rfl | h
      · simp
      · exact ih h
    · next hd =>
      -- The byte joins the first piece of the rest.
      cases hpieces : list.splitOnP isSeparator with
      | nil => exact absurd hpieces (List.splitOnP_ne_nil _ _)
      | cons first pieces =>
        rw [hpieces, List.modifyHead_cons] at h
        rcases List.mem_cons.mp h with rfl | h
        · intro c hc
          rcases List.mem_cons.mp hc with rfl | hc
          · simpa using hd
          · exact ih (by rw [hpieces]; simp) c hc
        · exact ih (by rw [hpieces]; simp [h])

theorem mem_of_mem_trim {s : Bytes} {c : UInt8} (hc : c ∈ trim s) : c ∈ s :=
  (List.dropWhile_sublist _).subset ((List.rdropWhile_prefix _ _).subset hc)

/-- What a piece gives is a target name. -/
theorem targetItem_name {piece item : Bytes} (hsep : ∀ c ∈ piece, isSeparator c = false)
    (h : targetItem piece = some item) : TargetName item := by
  -- Trimming and lower case are done already, and doing them again changes nothing.
  have htrimmed := (trimmed_trim piece).toLowerAscii
  have hlower := toLowerAscii_idem (trim piece)
  have hpure : ∀ c ∈ toLowerAscii (trim piece), isSeparator c = false := by
    intro c hc
    obtain ⟨d, hd, rfl⟩ := List.mem_map.mp hc
    rw [(lowerByte_spec d).2.1]
    exact hsep d (mem_of_mem_trim hd)
  rw [targetItem] at h
  generalize toLowerAscii (trim piece) = s at h htrimmed hlower hpure
  split at h
  · exact absurd h (by simp)
  · next hne =>
    split at h
    · next hdot =>
      obtain rfl := Option.some.inj h
      exact ⟨hdot, hlower, hpure, htrimmed⟩
    · obtain rfl := Option.some.inj h
      -- The name had no point, and `.exe` was put behind it.
      refine ⟨List.mem_append_right _ (by decide), ?_, fun c hc => ?_, ?_, ?_⟩
      · rw [toLowerAscii, List.map_append, ← toLowerAscii, hlower]
        rfl
      · have hexe : ∀ c ∈ bytes ".exe", isSeparator c = false := by decide +kernel
        exact (List.mem_append.mp hc).elim (hpure c) (hexe c)
      · intro c hc
        rw [List.head?_append_of_ne_nil _ hne] at hc
        exact htrimmed.front c hc
      · intro c hc
        rw [List.getLast?_append_of_ne_nil _ (by decide)] at hc
        obtain rfl := Option.some.inj hc
        decide

theorem targetItems_names (list : Bytes) : ∀ item ∈ targetItems list, TargetName item := by
  intro item hitem
  obtain ⟨piece, hpiece, hsome⟩ := List.mem_filterMap.mp hitem
  exact targetItem_name (separators_of_splitOnP hpiece) hsome

/-! ### Written out and read again -/

/-- A blank in front of a list makes no difference. -/
theorem targetItems_cons_blank {c : UInt8} (hblank : isBlank c = true)
    (hsep : isSeparator c = false) (list : Bytes) : targetItems (c :: list) = targetItems list := by
  rw [targetItems, targetItems, List.splitOnP_cons_eq_if_modifyHead, hsep]
  cases hpieces : list.splitOnP isSeparator with
  | nil => exact absurd hpieces (List.splitOnP_ne_nil _ _)
  | cons first pieces =>
    have hfirst : targetItem (c :: first) = targetItem first := by
      rw [targetItem, targetItem, trim_cons_blank hblank]
    simp [List.filterMap_cons, hfirst]

/-- Target names written out as a list are read back. -/
theorem targetItems_join {items : List Bytes} (h : ∀ item ∈ items, TargetName item) :
    targetItems (joinTargets items) = items := by
  induction items with
  | nil => decide
  | cons a items ih =>
    have ha := h a (by simp)
    have hitems := ih fun item hitem => h item (by simp [hitem])
    cases items with
    | nil =>
      rw [joinTargets, List.intercalate_singleton, targetItems,
        List.splitOnP_eq_singleton ha.separators]
      simp [ha.targetItem]
    | cons b items =>
      have hjoin : joinTargets (a :: b :: items) =
          a ++ ch ';' :: ch ' ' :: joinTargets (b :: items) := by
        simp [joinTargets, List.intercalate, bytes]
      rw [hjoin, targetItems,
        List.splitOnP_append_cons_of_forall_mem ha.separators (ch ';') (by decide),
        List.filterMap_cons, ha.targetItem]
      show a :: targetItems (ch ' ' :: joinTargets (b :: items)) = _
      rw [targetItems_cons_blank (by decide) (by decide), hitems]

/-- **The list of target programs is read well.**  Whatever the text, every name read from it is
    a target name, and the names written out as a list are read back in the same order. -/
theorem targetItems_reparse (list : Bytes) :
    (∀ item ∈ targetItems list, TargetName item) ∧
      targetItems (joinTargets (targetItems list)) = targetItems list :=
  ⟨targetItems_names list, targetItems_join (targetItems_names list)⟩

example : targetItems (bytes " JavaW ;, Notepad.EXE;;") =
    [bytes "javaw.exe", bytes "notepad.exe"] := by decide +kernel

end InfinityClicker
