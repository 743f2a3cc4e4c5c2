import InfinityClicker.Core.JsonReads

namespace InfinityClicker

namespace Json

/-!
# Number tokens

A number's token is whatever digits, points, letters and signs come along; `strtod` then reads
the longest decimal number it starts with, and the rest of the token is not looked at.

* `IsDecimal` — the decimal numbers, with their values;
* `LongestDecimal` — the longest one a token starts with;
* `decimalValue_eq_some_iff` — what `strtod` reads is its value;
* `readsInFull_iff` — a token that is accepted was read in full unless a proper part of it is the
  longest decimal number.
-/

/-! ### Decimal numbers -/

/-- Nothing but digits. -/
def Digits (ds : Bytes) : Prop := ∀ c ∈ ds, isDigit c = true

/-- An optional sign, and whether it is a minus. -/
inductive IsSign : Bytes → Bool → Prop
  | none : IsSign [] false
  | minus : IsSign [ch '-'] true
  | plus : IsSign [ch '+'] false

/-- An optional point with the digits after it. -/
inductive IsFraction : Bytes → Bytes → Prop
  | none : IsFraction [] []
  | point {frac : Bytes} : Digits frac → IsFraction (ch '.' :: frac) frac

/-- An optional exponent, which has a digit, and what it is. -/
inductive IsExponent : Bytes → ℤ → Prop
  | none : IsExponent [] 0
  | some {letter : UInt8} {sign ds : Bytes} {neg : Bool} :
    letter = ch 'e' ∨ letter = ch 'E' → IsSign sign neg → Digits ds → ds ≠ [] →
      IsExponent (letter :: (sign ++ ds))
        (if neg then -(digitsValue ds : ℤ) else digitsValue ds)

/-- A decimal number: its mantissa has at most one point and at least one digit. -/
inductive IsDecimal : Bytes → ℚ → Prop
  | mk {sign whole point frac ex : Bytes} {neg : Bool} {e : ℤ} :
    IsSign sign neg → Digits whole → IsFraction point frac → ¬(whole = [] ∧ frac = []) →
      IsExponent ex e →
      IsDecimal (sign ++ (whole ++ (point ++ ex)))
        ((if neg then -1 else 1) * (digitsValue (whole ++ frac) * 10 ^ (e - frac.length)))

/-- The longest decimal number that a token starts with. -/
structure LongestDecimal (token front : Bytes) (q : ℚ) : Prop where
  decimal : IsDecimal front q
  starts : front <+: token
  longest : ∀ front' q', IsDecimal front' q' → front' <+: token → front' <+: front

/-! ### Reading the parts -/

/-- A byte that no run of digits goes on with. -/
def NoDigit (s : Bytes) : Prop := ∀ c ∈ s.head?, isDigit c = false

/-- The empty text does not go on with a digit. -/
theorem noDigit_nil : NoDigit [] := by
  intro c hc
  simp at hc

/-- Nor does one that begins with something else. -/
theorem noDigit_cons {c : UInt8} {s : Bytes} (hc : isDigit c = false) : NoDigit (c :: s) := by
  intro c' hc'
  rw [List.head?_cons, Option.mem_some_iff] at hc'
  rwa [← hc']

/-- What is left of the digits in front begins with none. -/
theorem noDigit_dropWhile (s : Bytes) : NoDigit (s.dropWhile isDigit) := by
  intro c hc
  have hhead := List.head?_dropWhile_not isDigit s
  rw [Option.mem_def.mp hc] at hhead
  simpa using hhead

/-- The digits in front are digits. -/
theorem digits_takeWhile (s : Bytes) : Digits (s.takeWhile isDigit) :=
  fun _ hc => List.mem_takeWhile_imp hc

/-- A run of digits at the start of a text is part of the longest one, and nothing but that one
    is followed by more. -/
theorem digits_prefix {ds rest ds' rest' : Bytes} (hrest : NoDigit rest) (hds' : Digits ds')
    (hrest' : NoDigit rest') (hds : Digits ds) (h : ds' ++ rest' <+: ds ++ rest) :
    (rest' = [] ∧ ds' <+: ds) ∨ (ds' = ds ∧ rest' <+: rest) := by
  induction ds' generalizing ds with
  | nil =>
    cases ds with
    | nil => exact .inr ⟨rfl, h⟩
    | cons d ds =>
      cases rest' with
      | nil => exact .inl ⟨rfl, List.nil_prefix⟩
      | cons c rest' =>
        obtain ⟨hc, -⟩ := List.cons_prefix_cons.mp h
        have hdigit := hds d (by simp)
        have hnot := hrest' c rfl
        rw [hc, hdigit] at hnot
        exact absurd hnot (by simp)
  | cons c ds' ih =>
    have hc := hds' c (by simp)
    cases ds with
    | nil =>
      obtain ⟨t, ht⟩ := h
      have hnot := hrest c (by rw [List.nil_append] at ht; rw [← ht]; rfl)
      rw [hc] at hnot
      exact absurd hnot (by simp)
    | cons d ds =>
      obtain ⟨rfl, htail⟩ := List.cons_prefix_cons.mp h
      rcases ih (fun x hx => hds' x (by simp [hx])) (fun x hx => hds x (by simp [hx])) htail with
        ⟨hnil, hpre⟩ | ⟨rfl, hpre⟩
      · exact .inl ⟨hnil, List.cons_prefix_cons.mpr ⟨rfl, hpre⟩⟩
      · exact .inr ⟨rfl, hpre⟩

/-- **A sign** is taken where there is one. -/
theorem takeSign_longest (s : Bytes) :
    ∃ sign, IsSign sign (takeSign s).1 ∧ s = sign ++ (takeSign s).2 ∧
      ∀ sign' neg' body, IsSign sign' neg' → body ≠ [] →
        (∀ c ∈ body.head?, c ≠ ch '-' ∧ c ≠ ch '+') → sign' ++ body <+: s →
          sign' = sign ∧ body <+: (takeSign s).2 := by
  cases s with
  | nil =>
    refine ⟨[], .none, rfl, ?_⟩
    intro sign' neg' body _ hbody _ hpre
    have hnil := List.prefix_nil.mp hpre
    exact absurd (List.append_eq_nil_iff.mp hnil).2 hbody
  | cons c s =>
    -- A sign in front is taken, and a number that fits must have taken it too.
    by_cases hminus : c = ch '-'
    · subst hminus
      refine ⟨[ch '-'], .minus, rfl, ?_⟩
      intro sign' neg' body hsign hbody hhead hpre
      cases hsign with
      | none =>
        obtain ⟨b, body, rfl⟩ := List.exists_cons_of_ne_nil hbody
        exact absurd (List.cons_prefix_cons.mp hpre).1 (hhead b rfl).1
      | minus => exact ⟨rfl, (List.cons_prefix_cons.mp hpre).2⟩
      | plus => exact absurd (List.cons_prefix_cons.mp hpre).1 (by decide)
    by_cases hplus : c = ch '+'
    · subst hplus
      refine ⟨[ch '+'], .plus, rfl, ?_⟩
      intro sign' neg' body hsign hbody hhead hpre
      cases hsign with
      | none =>
        obtain ⟨b, body, rfl⟩ := List.exists_cons_of_ne_nil hbody
        exact absurd (List.cons_prefix_cons.mp hpre).1 (hhead b rfl).2
      | minus => exact absurd (List.cons_prefix_cons.mp hpre).1 (by decide)
      | plus => exact ⟨rfl, (List.cons_prefix_cons.mp hpre).2⟩
    -- Nothing is taken, and no number that fits begins with a sign.
    have htake : takeSign (c :: s) = (false, c :: s) := by
      rw [takeSign, if_neg hminus, if_neg hplus]
    rw [htake]
    refine ⟨[], .none, rfl, ?_⟩
    intro sign' neg' body hsign hbody hhead hpre
    cases hsign with
    | none => exact ⟨rfl, hpre⟩
    | minus => exact absurd (List.cons_prefix_cons.mp hpre).1.symm hminus
    | plus => exact absurd (List.cons_prefix_cons.mp hpre).1.symm hplus

/-- A digit is no sign. -/
theorem digit_no_sign {c : UInt8} (hc : isDigit c = true) : c ≠ ch '-' ∧ c ≠ ch '+' := by
  constructor
  · rintro rfl
    exact absurd hc (by decide)
  · rintro rfl
    exact absurd hc (by decide)

/-- Digits after a sign, if there are any, start the run that is taken. -/
theorem signed_digits_prefix {s sign ds : Bytes} {neg : Bool} (hsign : IsSign sign neg)
    (hds : Digits ds) (hne : ds ≠ []) (hpre : sign ++ ds <+: s) :
    ∃ sign', s = sign' ++ (takeSign s).2 ∧ sign = sign' ∧
      ds <+: (takeSign s).2.takeWhile isDigit := by
  obtain ⟨sign', -, hs, hlongest⟩ := takeSign_longest s
  have hhead : ∀ c ∈ ds.head?, c ≠ ch '-' ∧ c ≠ ch '+' :=
    fun c hc => digit_no_sign (hds c (List.mem_of_mem_head? hc))
  obtain ⟨heq, hbody⟩ := hlongest sign neg ds hsign hne hhead hpre
  refine ⟨sign', hs, heq, ?_⟩
  rw [← List.takeWhile_append_dropWhile (p := isDigit) (l := (takeSign s).2),
    ← List.append_nil ds] at hbody
  rcases digits_prefix (noDigit_dropWhile _) hds noDigit_nil (digits_takeWhile _) hbody with
    ⟨-, h⟩ | ⟨h, -⟩
  · exact h
  · rewrite [← h]
    exact List.prefix_rfl

/-- **An exponent** is read where there is one. -/
theorem takeExponent_longest (s : Bytes) :
    ∃ ex, IsExponent ex (takeExponent s) ∧ ex <+: s ∧
      ∀ ex' e', IsExponent ex' e' → ex' <+: s → ex' <+: ex := by
  cases s with
  | nil =>
    refine ⟨[], .none, List.nil_prefix, ?_⟩
    intro ex' e' _ hpre
    exact hpre
  | cons c s =>
    by_cases hletter : c = ch 'e' ∨ c = ch 'E'
    · obtain ⟨sign, hsign, hs, -⟩ := takeSign_longest s
      rw [takeExponent, if_pos hletter]
      dsimp only
      by_cases hds : (takeSign s).2.takeWhile isDigit = []
      · -- A letter without digits is no exponent.
        rw [hds]
        refine ⟨[], ?_, List.nil_prefix, ?_⟩
        · have hzero : (if (takeSign s).1 = true then -((digitsValue [] : ℕ) : ℤ)
              else (digitsValue [] : ℕ)) = 0 := by
            split <;> rfl
          rw [hzero]
          exact .none
        · intro ex' e' hex hpre
          cases hex with
          | none => exact List.nil_prefix
          | some hl hsign' hdigits hne =>
            obtain ⟨-, -, -, hpre'⟩ :=
              signed_digits_prefix hsign' hdigits hne (List.cons_prefix_cons.mp hpre).2
            rw [hds, List.prefix_nil] at hpre'
            exact absurd hpre' hne
      -- Letter, sign and all digits: a longer exponent would have more digits in front.
      · refine ⟨c :: (sign ++ (takeSign s).2.takeWhile isDigit),
          .some hletter hsign (digits_takeWhile _) hds, ?_, ?_⟩
        · have hpre : sign ++ (takeSign s).2.takeWhile isDigit <+: sign ++ (takeSign s).2 := by
            rw [List.prefix_append_right_inj]
            exact List.takeWhile_prefix _
          rw [← hs] at hpre
          exact List.cons_prefix_cons.mpr ⟨rfl, hpre⟩
        · intro ex' e' hex hpre
          cases hex with
          | none => exact List.nil_prefix
          | some hl hsign' hdigits hne =>
            obtain ⟨heq, hpre⟩ := List.cons_prefix_cons.mp hpre
            obtain ⟨sign₁, hs₁, heq₁, hpre'⟩ := signed_digits_prefix hsign' hdigits hne hpre
            have hsame : sign₁ = sign := List.append_cancel_right (hs₁.symm.trans hs)
            rw [heq, heq₁, hsame]
            exact List.cons_prefix_cons.mpr
              ⟨rfl, (List.prefix_append_right_inj sign).mpr hpre'⟩
    -- Without the letter there is no exponent.
    · rw [takeExponent, if_neg hletter]
      refine ⟨[], .none, List.nil_prefix, ?_⟩
      intro ex' e' hex hpre
      cases hex with
      | none => exact List.nil_prefix
      | some hl _ _ _ => exact absurd ((List.cons_prefix_cons.mp hpre).1 ▸ hl) hletter

/-- What `decimalValue` takes for the fraction, and the bytes after it. -/
def takeFraction (s : Bytes) : Bytes × Bytes :=
  if s.head? = some (ch '.') then (s.tail.takeWhile isDigit, s.tail.dropWhile isDigit) else ([], s)

/-- **A fraction** is read where there is a point. -/
theorem takeFraction_longest (s : Bytes) :
    ∃ point, IsFraction point (takeFraction s).1 ∧ s = point ++ (takeFraction s).2 ∧
      ∀ point' frac' ex', IsFraction point' frac' → NoDigit ex' →
        (∀ c ∈ ex'.head?, c ≠ ch '.') → point' ++ ex' <+: s →
          (ex' = [] ∧ point' <+: point) ∨ (point' = point ∧ ex' <+: (takeFraction s).2) := by
  by_cases hpoint : s.head? = some (ch '.')
  · obtain ⟨t, rfl⟩ := List.head?_eq_some_iff.mp hpoint
    have hsplit := List.takeWhile_append_dropWhile (p := isDigit) (l := t)
    rw [takeFraction, if_pos hpoint]
    refine ⟨ch '.' :: t.takeWhile isDigit, .point (digits_takeWhile t), ?_, ?_⟩
    · rw [List.tail_cons, List.cons_append, hsplit]
    · intro point' frac' ex' hfrac hex hdot hpre
      cases hfrac with
      | none =>
        cases ex' with
        | nil => exact .inl ⟨rfl, List.nil_prefix⟩
        | cons c ex' => exact absurd (List.cons_prefix_cons.mp hpre).1 (hdot c rfl)
      | point hdigits =>
        have htail := (List.cons_prefix_cons.mp hpre).2
        rw [← hsplit] at htail
        rcases digits_prefix (noDigit_dropWhile t) hdigits hex (digits_takeWhile t) htail with
          ⟨hnil, h⟩ | ⟨h, hrest⟩
        · exact .inl ⟨hnil, List.cons_prefix_cons.mpr ⟨rfl, h⟩⟩
        · exact .inr ⟨by rw [h], hrest⟩
  · rw [takeFraction, if_neg hpoint]
    refine ⟨[], .none, rfl, ?_⟩
    intro point' frac' ex' hfrac hex hdot hpre
    cases hfrac with
    | none => exact .inr ⟨rfl, hpre⟩
    | point hdigits =>
      obtain ⟨t, ht⟩ := hpre
      rw [← ht] at hpoint
      exact absurd rfl hpoint

/-! ### Reading a number -/

/-- The value of a token, by its pieces. -/
theorem decimalValue_eq (token : Bytes) :
    decimalValue token =
      if (takeSign token).2.takeWhile isDigit = [] ∧
          (takeFraction ((takeSign token).2.dropWhile isDigit)).1 = [] then none
      else some ((if (takeSign token).1 then (-1 : ℚ) else 1) *
        ((digitsValue ((takeSign token).2.takeWhile isDigit ++
            (takeFraction ((takeSign token).2.dropWhile isDigit)).1) : ℚ) *
          10 ^ (takeExponent (takeFraction ((takeSign token).2.dropWhile isDigit)).2
            - (takeFraction ((takeSign token).2.dropWhile isDigit)).1.length))) := by
  have hsign : ∀ (neg : Bool) (q : ℚ), (if neg then -q else q) = (if neg then -1 else 1) * q := by
    intro neg q
    cases neg with
    | false => exact (one_mul q).symm
    | true => exact (neg_one_mul q).symm
  rw [← hsign]
  rfl

/-- The mantissa and the exponent start with no sign. -/
theorem mantissa_head {whole point frac ex : Bytes} (hwhole : Digits whole)
    (hfrac : IsFraction point frac) (hne : ¬(whole = [] ∧ frac = [])) :
    whole ++ (point ++ ex) ≠ [] ∧
      ∀ c ∈ (whole ++ (point ++ ex)).head?, c ≠ ch '-' ∧ c ≠ ch '+' := by
  cases whole with
  | cons d whole =>
    refine ⟨by simp, ?_⟩
    intro c hc
    have hd := hwhole d (by simp)
    rw [List.cons_append, List.head?_cons, Option.mem_some_iff] at hc
    rw [← hc]
    exact digit_no_sign hd
  | nil =>
    cases hfrac with
    | none => exact absurd ⟨rfl, rfl⟩ hne
    | point hdigits =>
      refine ⟨by simp, ?_⟩
      intro c hc
      replace hc : c ∈ some (ch '.') := hc
      rw [Option.mem_some_iff] at hc
      rw [← hc]
      decide

/-- An exponent begins with neither digit nor point. -/
theorem exponent_head {ex : Bytes} {e : ℤ} (hex : IsExponent ex e) :
    NoDigit ex ∧ ∀ c ∈ ex.head?, c ≠ ch '.' := by
  cases hex with
  | none => exact ⟨noDigit_nil, by simp⟩
  | some hletter _ _ _ =>
    constructor
    · rcases hletter with rfl | rfl <;> exact noDigit_cons (by decide)
    · intro c hc
      rw [List.head?_cons, Option.mem_some_iff] at hc
      rw [← hc]
      rcases hletter with rfl | rfl <;> decide

/-- What follows the integer part begins with no digit. -/
theorem point_head {point frac ex : Bytes} {e : ℤ} (hfrac : IsFraction point frac)
    (hex : IsExponent ex e) : NoDigit (point ++ ex) := by
  cases hfrac with
  | none => exact (exponent_head hex).1
  | point => exact noDigit_cons (by decide)

/-- Where `strtod` reads a number, it is the longest the token starts with. -/
theorem longestDecimal_of_some {token : Bytes} {q : ℚ} (h : decimalValue token = some q) :
    ∃ front, LongestDecimal token front q := by
  obtain ⟨sign, hsign, htoken, hsignLongest⟩ := takeSign_longest token
  have hsplit := List.takeWhile_append_dropWhile (p := isDigit) (l := (takeSign token).2)
  rw [decimalValue_eq] at h
  generalize hwhole : (takeSign token).2.takeWhile isDigit = whole at h hsplit
  generalize hs : (takeSign token).2.dropWhile isDigit = s at h hsplit
  obtain ⟨point, hfrac, hpoint, hfracLongest⟩ := takeFraction_longest s
  obtain ⟨ex, hex, hexpre, hexLongest⟩ := takeExponent_longest (takeFraction s).2
  have hdigits : Digits whole := by rw [← hwhole]; exact digits_takeWhile _
  have hnodigit : NoDigit s := by rw [← hs]; exact noDigit_dropWhile _
  split at h
  · simp at h
  · next hne =>
    refine ⟨sign ++ (whole ++ (point ++ ex)), ?_, ?_, ?_⟩
    · rw [← Option.some.inj h]
      exact .mk hsign hdigits hfrac hne hex
    · rw [htoken, ← hsplit, hpoint]
      simp only [List.prefix_append_right_inj]
      exact hexpre
    · -- Part by part: what ends early is shorter, the rest goes on with the next part.
      rintro front' q' ⟨hsign', hdigits', hfrac', hne', hex'⟩ hpre
      obtain ⟨hbody, hhead⟩ := mantissa_head hdigits' hfrac' hne'
      obtain ⟨rfl, hpre₁⟩ := hsignLongest _ _ _ hsign' hbody hhead hpre
      rw [← hsplit] at hpre₁
      rw [List.prefix_append_right_inj]
      obtain ⟨hexdigit, hexdot⟩ := exponent_head hex'
      rcases digits_prefix hnodigit hdigits' (point_head hfrac' hex') hdigits hpre₁ with
        ⟨hnil, hshort⟩ | ⟨rfl, hpre₂⟩
      · rw [hnil, List.append_nil]
        exact hshort.trans (List.prefix_append _ _)
      · rw [List.prefix_append_right_inj]
        rcases hfracLongest _ _ _ hfrac' hexdigit hexdot hpre₂ with ⟨rfl, hshort⟩ | ⟨rfl, hpre₃⟩
        · rw [List.append_nil]
          exact hshort.trans (List.prefix_append _ _)
        · rw [List.prefix_append_right_inj]
          exact hexLongest _ _ hex' hpre₃

/-- The sign is taken off whole. -/
theorem takeSign_append {sign body : Bytes} {neg : Bool} (hsign : IsSign sign neg)
    (hhead : ∀ c ∈ body.head?, c ≠ ch '-' ∧ c ≠ ch '+') :
    takeSign (sign ++ body) = (neg, body) := by
  cases hsign with
  | none =>
    cases body with
    | nil => rfl
    | cons c body =>
      obtain ⟨hminus, hplus⟩ := hhead c rfl
      rw [List.nil_append, takeSign, if_neg hminus, if_neg hplus]
  | minus => rfl
  | plus => rfl

/-- The digits are taken off whole. -/
theorem takeWhile_append_digits {ds rest : Bytes} (hds : Digits ds) (hrest : NoDigit rest) :
    (ds ++ rest).takeWhile isDigit = ds ∧ (ds ++ rest).dropWhile isDigit = rest := by
  rw [List.takeWhile_append_of_pos hds, List.dropWhile_append_of_pos hds]
  cases rest with
  | nil => simp
  | cons c rest =>
    have hc := hrest c rfl
    simp [hc]

/-- The fraction is taken off whole. -/
theorem takeFraction_append {point frac ex : Bytes} {e : ℤ} (hfrac : IsFraction point frac)
    (hex : IsExponent ex e) : takeFraction (point ++ ex) = (frac, ex) := by
  obtain ⟨hdigit, hdot⟩ := exponent_head hex
  cases hfrac with
  | none =>
    rw [List.nil_append, takeFraction, if_neg]
    intro hhead
    exact hdot _ hhead rfl
  | point hdigits =>
    obtain ⟨htake, hdrop⟩ := takeWhile_append_digits hdigits hdigit
    rw [takeFraction, List.cons_append, if_pos List.head?_cons, List.tail_cons, htake, hdrop]

/-- The exponent is read as its value. -/
theorem takeExponent_eq {ex : Bytes} {e : ℤ} (hex : IsExponent ex e) : takeExponent ex = e := by
  cases hex with
  | none => rfl
  | some hletter hsign hdigits hne =>
    have hhead : ∀ c ∈ List.head? _, c ≠ ch '-' ∧ c ≠ ch '+' :=
      fun c hc => digit_no_sign (hdigits c (List.mem_of_mem_head? hc))
    rw [takeExponent, if_pos hletter, takeSign_append hsign hhead]
    dsimp only
    rw [List.takeWhile_eq_self_iff.mpr hdigits]

/-- A decimal number is read as its value. -/
theorem decimalValue_of_decimal {text : Bytes} {q : ℚ} (h : IsDecimal text q) :
    decimalValue text = some q := by
  obtain ⟨hsign, hdigits, hfrac, hne, hex⟩ := h
  obtain ⟨-, hhead⟩ := mantissa_head hdigits hfrac hne
  obtain ⟨htake, hdrop⟩ := takeWhile_append_digits hdigits (point_head hfrac hex)
  rw [decimalValue_eq, takeSign_append hsign hhead]
  dsimp only
  rw [htake, hdrop, takeFraction_append hfrac hex, if_neg hne, takeExponent_eq hex]

/-- Where a token starts with a decimal number, something is read. -/
theorem decimalValue_isSome {token front : Bytes} {q : ℚ} (h : IsDecimal front q)
    (hpre : front <+: token) : ∃ q', decimalValue token = some q' := by
  obtain ⟨hsign, hdigits, hfrac, hne, hex⟩ := h
  obtain ⟨hbody, hhead⟩ := mantissa_head hdigits hfrac hne
  obtain ⟨sign, -, -, hsignLongest⟩ := takeSign_longest token
  obtain ⟨-, hpre₁⟩ := hsignLongest _ _ _ hsign hbody hhead hpre
  rw [← List.takeWhile_append_dropWhile (p := isDigit) (l := (takeSign token).2)] at hpre₁
  rw [decimalValue_eq]
  by_cases hnone : (takeSign token).2.takeWhile isDigit = [] ∧
      (takeFraction ((takeSign token).2.dropWhile isDigit)).1 = []
  · -- Without digits before and after the point there is no mantissa.
    obtain ⟨hwhole, hfracnil⟩ := hnone
    rw [hwhole] at hpre₁
    obtain ⟨point, hpoint, -, hfracLongest⟩ :=
      takeFraction_longest ((takeSign token).2.dropWhile isDigit)
    rw [hfracnil] at hpoint
    have hlen : point.length ≤ 1 := by
      cases hpoint with
      | none => exact Nat.zero_le 1
      | point => exact le_refl 1
    obtain ⟨hexdigit, hexdot⟩ := exponent_head hex
    have hshort : ∀ {point' frac' : Bytes}, IsFraction point' frac' → point'.length ≤ 1 →
        frac' = [] := by
      intro point' frac' hfrac' hle
      cases hfrac' with
      | none => rfl
      | point =>
        rw [List.length_cons] at hle
        exact List.eq_nil_of_length_eq_zero (by omega)
    refine absurd ?_ hne
    have hnil : Digits [] := by simp [Digits]
    rcases digits_prefix (noDigit_dropWhile _) hdigits (point_head hfrac hex) hnil hpre₁ with
      ⟨hnil, hwhole'⟩ | ⟨hwhole', hpre₂⟩
    · have hpoint' := (List.append_eq_nil_iff.mp hnil).1
      exact ⟨List.prefix_nil.mp hwhole', hshort hfrac (by rw [hpoint']; exact Nat.zero_le 1)⟩
    · refine ⟨hwhole', ?_⟩
      rcases hfracLongest _ _ _ hfrac hexdigit hexdot hpre₂ with ⟨-, hle⟩ | ⟨rfl, -⟩
      · exact hshort hfrac (le_trans hle.length_le hlen)
      · exact hshort hfrac hlen
  · exact ⟨_, if_neg hnone⟩

/-- **What `strtod` reads** is the longest decimal number a token starts with. -/
theorem decimalValue_eq_some_iff {token : Bytes} {q : ℚ} :
    decimalValue token = some q ↔ ∃ front, LongestDecimal token front q := by
  constructor
  · exact longestDecimal_of_some
  · rintro ⟨front, hfront⟩
    obtain ⟨q', hq'⟩ := decimalValue_isSome hfront.decimal hfront.starts
    obtain ⟨front', hfront'⟩ := longestDecimal_of_some hq'
    -- The two longest ones are the same text, which has one value.
    have hle := hfront.longest _ _ hfront'.decimal hfront'.starts
    have hge := hfront'.longest _ _ hfront.decimal hfront.starts
    have hsame : front = front' := hge.eq_of_length_le hle.length_le
    have hval := decimalValue_of_decimal hfront.decimal
    have hval' := decimalValue_of_decimal hfront'.decimal
    rw [hsame, hval', Option.some_inj] at hval
    rw [hq', hval]

/-! ### Accepting a number -/

/-- A decimal number has a digit. -/
theorem any_digit_of_decimal {text : Bytes} {q : ℚ} (h : IsDecimal text q) :
    text.any isDigit = true := by
  obtain @⟨sign, whole, point, frac, ex, neg, e, -, hdigits, hfrac, hne, -⟩ := h
  rw [List.any_append, List.any_append, List.any_append]
  cases whole with
  | cons d whole =>
    have hd := hdigits d (by simp)
    simp [hd]
  | nil =>
    cases hfrac with
    | none => exact absurd ⟨rfl, rfl⟩ hne
    | point hfrac =>
      obtain ⟨d, ds, rfl⟩ := List.exists_cons_of_ne_nil fun hnil => hne ⟨rfl, hnil⟩
      have hd := hfrac d (by simp)
      simp [hd]

/-- A number is accepted where the token starts with one whose value is finite. -/
theorem parseNumber_eq_ok_iff {s rest : Bytes} {v : Value} :
    parseNumber s = .ok (v, rest) ↔
      ∃ front q, LongestDecimal (numberToken s).1 front q ∧ Binary64.IsFinite q ∧
        v = .number (Binary64.nearest q) ∧ rest = (numberToken s).2 := by
  constructor
  · intro h
    simp only [parseNumber] at h
    split at h
    · cases hq : decimalValue (numberToken s).1 with
      | none => simp [strtod, hq] at h
      | some q =>
        obtain ⟨front, hfront⟩ := longestDecimal_of_some hq
        by_cases hfinite : Binary64.IsFinite q
        · simp only [strtod, hq, if_pos hfinite, Except.ok.injEq, Prod.mk.injEq] at h
          exact ⟨front, q, hfront, hfinite, h.1.symm, h.2.symm⟩
        · simp [strtod, hq, hfinite] at h
    · simp at h
  · rintro ⟨front, q, hfront, hfinite, rfl, rfl⟩
    have hq := decimalValue_eq_some_iff.mpr ⟨front, hfront⟩
    have hdigit : (numberToken s).1.any isDigit = true := by
      obtain ⟨t, ht⟩ := hfront.starts
      rw [← ht, List.any_append, any_digit_of_decimal hfront.decimal, Bool.true_or]
    simp only [parseNumber, hdigit, if_true, strtod, hq, if_pos hfinite]

/-- Where `parseNumber` accepts, all it consumed is a decimal number, and the value is that
    number's. -/
def ReadsInFull (s : Bytes) : Prop :=
  ∀ v rest, parseNumber s = .ok (v, rest) →
    ∃ token q, s = token ++ rest ∧ IsDecimal token q ∧ v = .number (Binary64.nearest q)

/-- **Number tokens.** A token that is accepted is read in full exactly when the longest decimal
    number it starts with is the whole token, or too large for a `double`, or there is none. -/
theorem readsInFull_iff (s : Bytes) :
    ReadsInFull s ↔ ∀ front q, LongestDecimal (numberToken s).1 front q →
      front = (numberToken s).1 ∨ ¬ Binary64.IsFinite q := by
  constructor
  · intro hfull front q hfront
    by_contra hnot
    obtain ⟨hpart, hfinite⟩ := not_or.mp hnot
    obtain ⟨token, q', hs, hdecimal, -⟩ := hfull _ _
      (parseNumber_eq_ok_iff.mpr ⟨front, q, hfront, not_not.mp hfinite, rfl, rfl⟩)
    -- The consumed text is the token, and it would be a longer decimal number.
    have htoken : token = (numberToken s).1 := by
      have hsplit := numberToken_append s
      exact List.append_cancel_right (hs.symm.trans hsplit.symm)
    rw [htoken] at hdecimal
    have hle := hfront.longest _ _ hdecimal List.prefix_rfl
    exact hpart (hfront.starts.eq_of_length_le hle.length_le)
  · intro hcond v rest hok
    obtain ⟨front, q, hfront, hfinite, hv, hrest⟩ := parseNumber_eq_ok_iff.mp hok
    rcases hcond front q hfront with hall | hinf
    · refine ⟨(numberToken s).1, q, ?_, ?_, hv⟩
      · rw [hrest, numberToken_append]
      · rw [← hall]
        exact hfront.decimal
    · exact absurd hfinite hinf

/-- After the mantissa of a decimal number nothing comes but a letter with a sign and digits. -/
theorem exponent_of_decimal {text : Bytes} {q : ℚ} (h : IsDecimal text q) :
    let ex := (takeFraction ((takeSign text).2.dropWhile isDigit)).2
    ex = [] ∨ (ex.head? = some (ch 'e') ∨ ex.head? = some (ch 'E')) ∧
      (takeSign ex.tail).2 ≠ [] ∧ (takeSign ex.tail).2.all isDigit = true := by
  obtain ⟨hsign, hdigits, hfrac, hne, hex⟩ := h
  obtain ⟨-, hhead⟩ := mantissa_head hdigits hfrac hne
  obtain ⟨-, hdrop⟩ := takeWhile_append_digits hdigits (point_head hfrac hex)
  rw [takeSign_append hsign hhead]
  dsimp only
  rw [hdrop, takeFraction_append hfrac hex]
  cases hex with
  | none => exact .inl rfl
  | some hletter hsign hds hds_ne =>
    rw [List.head?_cons, Option.some_inj, Option.some_inj, List.tail_cons,
      takeSign_append hsign fun c hc => digit_no_sign (hds c (List.mem_of_mem_head? hc))]
    exact .inr ⟨hletter, hds_ne, List.all_eq_true.mpr hds⟩

/-- Two points, a second exponent and an exponent without digits are read in part. -/
theorem accepts_malformed :
    ¬ ReadsInFull (bytes "1.2.3") ∧ ¬ ReadsInFull (bytes "1e5e3") ∧
      ¬ ReadsInFull (bytes "1e") := by
  have hpart : ∀ {s : Bytes} {q : ℚ}, numberToken s = (s, []) → s.any isDigit = true →
      decimalValue s = some q → |q| ≤ 2 ^ (20 : ℤ) → (∀ q', ¬ IsDecimal s q') →
        ¬ ReadsInFull s := by
    intro s q htoken hdigit hq hsmall hnot hfull
    have hmax : (2 : ℚ) ^ (20 : ℤ) < 2 ^ 1024 :=
      pow_lt_pow_right₀ (by norm_num) (by norm_num : 20 < 1024)
    have hfinite := Binary64.isFinite_of_abs_le (Binary64.onGrid_two_zpow (by norm_num)) hmax hsmall
    have hok : parseNumber s = .ok (.number (Binary64.nearest q), []) := by
      simp only [parseNumber, htoken, hdigit, if_true, strtod, hq, if_pos hfinite]
    obtain ⟨token, q', hs, hdecimal, -⟩ := hfull _ _ hok
    rw [List.append_nil] at hs
    exact hnot q' (hs ▸ hdecimal)
  refine ⟨hpart (q := 6 / 5) ?_ ?_ ?_ ?_ ?_, hpart (q := 100000) ?_ ?_ ?_ ?_ ?_,
    hpart (q := 1) ?_ ?_ ?_ ?_ ?_⟩
  · decide
  · decide
  · decide +kernel
  · norm_num [abs_of_pos]
  · intro q' h
    exact absurd (exponent_of_decimal h) (by decide)
  · decide
  · decide
  · decide +kernel
  · norm_num [abs_of_pos]
  · intro q' h
    exact absurd (exponent_of_decimal h) (by decide)
  · decide
  · decide
  · decide +kernel
  · norm_num [abs_of_pos]
  · intro q' h
    exact absurd (exponent_of_decimal h) (by decide)

end Json

end InfinityClicker
