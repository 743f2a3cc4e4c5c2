import InfinityClicker.Core.DecimalRounding
import InfinityClicker.Core.JsonRoundTrip
import InfinityClicker.Core.NumberTokens

namespace InfinityClicker

namespace Json

open DecimalRounding

/-!
# The text of a number

Every number is printed as a decimal number, in one of three layouts for its ten significant
digits or as an integer, and a decimal number is a token that is read in full.

* `isDecimal_writeNumber` — what is printed is a decimal number, with its value;
* `parseNumber_decimal` — what becomes of a decimal number that is read;
* `writeNumber_readBack_iff` — the numbers whose text is that of the number read back.
-/

/-! ### Runs of digits -/

/-- Digits are read from the left. -/
theorem digitsValue_append (as bs : Bytes) :
    digitsValue (as ++ bs) = digitsValue as * 10 ^ bs.length + digitsValue bs := by
  have hfold : ∀ (v : ℕ) (ds : Bytes), ds.foldl (fun v c => 10 * v + (c.toNat - 48)) v =
      v * 10 ^ ds.length + digitsValue ds := by
    intro v ds
    induction ds generalizing v with
    | nil => simp [digitsValue]
    | cons d ds ih =>
      rw [digitsValue, List.foldl_cons, List.foldl_cons, ih, ih (10 * 0 + _), List.length_cons]
      ring
  rw [digitsValue, List.foldl_append, hfold]
  rfl

/-- Zeros are worth nothing. -/
theorem digitsValue_zeros (k : ℕ) : digitsValue (List.replicate k (ch '0')) = 0 := by
  induction k with
  | zero => rfl
  | succ k ih =>
    have hcons := digitsValue_append [ch '0'] (List.replicate k (ch '0'))
    rw [List.singleton_append, ← List.replicate_succ, ih] at hcons
    rw [hcons]
    have hzero : digitsValue [ch '0'] = 0 := by decide
    rw [hzero, Nat.zero_mul]

/-- Zeros are digits. -/
theorem digits_zeros (k : ℕ) : Digits (List.replicate k (ch '0')) := by
  intro c hc
  rw [List.eq_of_mem_replicate hc]
  decide

/-- Digits behind digits are digits. -/
theorem Digits.append {as bs : Bytes} (ha : Digits as) (hb : Digits bs) : Digits (as ++ bs) := by
  intro c hc
  rcases List.mem_append.mp hc with hc | hc
  · exact ha c hc
  · exact hb c hc

/-- What `decimal` writes are digits. -/
theorem digits_decimal (n : ℕ) : Digits (decimal n) := fun _ hc => isDigit_decimal hc

/-- A power of ten adds zeros. -/
theorem decimal_mul_pow {k : ℕ} (hk : 0 < k) (j : ℕ) :
    decimal (k * 10 ^ j) = decimal k ++ List.replicate j (ch '0') := by
  induction j with
  | zero => simp
  | succ j ih =>
    have hstep := Nat.toDigits_append_toDigits (b := 10) (n := k * 10 ^ j) (d := 0) (by norm_num)
      (Nat.mul_pos hk (by positivity)) (by norm_num)
    have hnum : k * 10 ^ (j + 1) = 10 * (k * 10 ^ j) + 0 := by ring
    rw [hnum, decimal, ← hstep, List.map_append, List.replicate_succ', ← List.append_assoc, ← ih]
    rfl

/-- A number between two powers of ten has as many digits as the lower one. -/
theorem decimal_length {m N : ℕ} (hlow : 10 ^ N ≤ m) (hhigh : m < 10 ^ (N + 1)) :
    (decimal m).length = N + 1 := by
  rw [decimal, List.length_map]
  have hle := (Nat.length_toDigits_le_iff (b := 10) (by norm_num) (Nat.succ_pos N)).mpr hhigh
  cases N with
  | zero =>
    have hpos : 0 < (Nat.toDigits 10 m).length := Nat.length_toDigits_pos
    omega
  | succ N =>
    have hnot := (Nat.length_toDigits_le_iff (n := m) (b := 10) (by norm_num)
      (Nat.succ_pos N)).not.mpr (not_lt.mpr hlow)
    omega

/-! ### The layouts of `%.10g` -/

/-- The digits after the point lose the zeros at their end. -/
theorem fraction_spec (ds : Bytes) (hds : Digits ds) :
    ∃ frac k, IsFraction (fraction ds) frac ∧ ds = frac ++ List.replicate k (ch '0') := by
  have hsplit := List.rdropWhile_append_rtakeWhile (p := (· == ch '0')) (l := ds)
  have hzeros : ds.rtakeWhile (· == ch '0') =
      List.replicate (ds.rtakeWhile (· == ch '0')).length (ch '0') := by
    rw [List.eq_replicate_iff]
    refine ⟨rfl, fun c hc => ?_⟩
    have heq := List.mem_rtakeWhile_imp hc
    simpa using heq
  refine ⟨ds.rdropWhile (· == ch '0'), _, ?_, by rw [← hzeros]; exact hsplit.symm⟩
  rw [fraction]
  split
  · next hnil =>
    rw [hnil]
    exact .none
  · refine .point fun c hc => hds c ?_
    rw [← hsplit]
    exact List.mem_append_left _ hc

/-- Digits in front of a point and behind it, and an exponent. -/
theorem isDecimal_fraction {sign whole ds ex : Bytes} {neg : Bool} {e : ℤ} (hsign : IsSign sign neg)
    (hwhole : Digits whole) (hne : whole ≠ []) (hds : Digits ds) (hex : IsExponent ex e) :
    IsDecimal (sign ++ (whole ++ (fraction ds ++ ex)))
      ((if neg then -1 else 1) * (digitsValue (whole ++ ds) * 10 ^ (e - ds.length))) := by
  obtain ⟨frac, k, hfrac, hsplit⟩ := fraction_spec ds hds
  -- The zeros that are left out do not change the value.
  have hvalue : (digitsValue (whole ++ ds) * 10 ^ (e - ds.length) : ℚ) =
      digitsValue (whole ++ frac) * 10 ^ (e - frac.length) := by
    have hdigits : digitsValue (whole ++ ds) = digitsValue (whole ++ frac) * 10 ^ k := by
      nth_rewrite 1 [hsplit]
      rw [← List.append_assoc, digitsValue_append, digitsValue_zeros, List.length_replicate,
        Nat.add_zero]
    have hlen : (ds.length : ℤ) = frac.length + k := by
      rw [hsplit, List.length_append, List.length_replicate, Nat.cast_add]
    rw [hdigits, hlen]
    push_cast
    rw [mul_assoc, ← zpow_natCast, ← zpow_add₀ (by norm_num)]
    congr 2
    ring
  rw [hvalue]
  exact .mk hsign hwhole hfrac (fun h => hne h.1) hex

/-- The digits and the exponent of the first one in `%.10g`'s layout. -/
def generalText (neg : Bool) (d : ℤ × ℤ) : Bytes :=
  let ds := decimal d.1.toNat
  (if neg then [ch '-'] else []) ++
    if d.2 < -4 ∨ 10 ≤ d.2 then
      ds.take 1 ++ fraction (ds.drop 1) ++ [ch 'e', if d.2 < 0 then ch '-' else ch '+'] ++
        (if d.2.natAbs < 10 then [ch '0'] else []) ++ decimal d.2.natAbs
    else if d.2 < 0 then ch '0' :: fraction (List.replicate (d.2.natAbs - 1) (ch '0') ++ ds)
    else ds.take (d.2.toNat + 1) ++ fraction (ds.drop (d.2.toNat + 1))

/-- The general form is the sign and the nine significant digits. -/
theorem writeGeneral_eq (n : ℚ) :
    writeGeneral n = generalText (decide (n < 0)) (significant 9 |n|) := by
  have hneg : (if n < 0 then [ch '-'] else []) =
      if decide (n < 0) = true then [ch '-'] else [] := by
    by_cases h : n < 0 <;> simp [h]
  rw [writeGeneral, hneg]
  rfl

/-- A minus or nothing is a sign. -/
theorem isSign_minus (neg : Bool) : IsSign (if neg then [ch '-'] else []) neg := by
  cases neg with
  | false => exact .none
  | true => exact .minus

/-- The exponent has two digits at least. -/
theorem isExponent_general (x : ℤ) :
    IsExponent (ch 'e' :: ([if x < 0 then ch '-' else ch '+'] ++
      ((if x.natAbs < 10 then [ch '0'] else []) ++ decimal x.natAbs))) x := by
  have hsign : IsSign [if x < 0 then ch '-' else ch '+'] (decide (x < 0)) := by
    by_cases hx : x < 0
    · rw [if_pos hx, decide_eq_true hx]
      exact .minus
    · rw [if_neg hx, decide_eq_false hx]
      exact .plus
  have hpad : Digits (if x.natAbs < 10 then [ch '0'] else []) := by
    split
    · exact digits_zeros 1
    · simp [Digits]
  have hvalue : digitsValue ((if x.natAbs < 10 then [ch '0'] else []) ++ decimal x.natAbs) =
      x.natAbs := by
    have hzero : digitsValue (if x.natAbs < 10 then [ch '0'] else []) = 0 := by
      split <;> decide
    rw [digitsValue_append, hzero, digitsValue_decimal, Nat.zero_mul, Nat.zero_add]
  have hex := IsExponent.some (.inl rfl) hsign (hpad.append (digits_decimal x.natAbs))
    (by simp [decimal_ne_nil])
  rw [hvalue] at hex
  have hx : (if decide (x < 0) = true then -(x.natAbs : ℤ) else x.natAbs) = x := by
    by_cases hneg : x < 0
    · rw [decide_eq_true hneg, if_pos rfl]
      omega
    · rw [decide_eq_false hneg, if_neg Bool.false_ne_true]
      omega
  rw [hx] at hex
  exact hex

/-- **Ten digits in any layout** are a decimal number. -/
theorem isDecimal_generalText (neg : Bool) {d : ℤ × ℤ} (hlow : 10 ^ 9 ≤ d.1)
    (hhigh : d.1 < 10 ^ (9 + 1)) :
    IsDecimal (generalText neg d) ((if neg then -1 else 1) * value 9 d) := by
  obtain ⟨m, x⟩ := d
  dsimp only at hlow hhigh
  have hlen : (decimal m.toNat).length = 9 + 1 := decimal_length (by omega) (by omega)
  have hdigits := digits_decimal m.toNat
  -- The digits are those of the mantissa, of which the general form makes three layouts.
  have hm : ((m.toNat : ℕ) : ℚ) = m := by
    have hcast : ((m.toNat : ℕ) : ℤ) = m := by omega
    exact_mod_cast congrArg (Int.cast (R := ℚ)) hcast
  have htake : ∀ k, Digits ((decimal m.toNat).take k) :=
    fun k c hc => hdigits c (List.mem_of_mem_take hc)
  have hdrop : ∀ k, Digits ((decimal m.toNat).drop k) :=
    fun k c hc => hdigits c (List.mem_of_mem_drop hc)
  have htake_ne : ∀ k, (decimal m.toNat).take (k + 1) ≠ [] := by
    intro k hnil
    have hlen' := congrArg List.length hnil
    rw [List.length_take, hlen, List.length_nil] at hlen'
    omega
  rw [generalText, value]
  dsimp only
  by_cases hexponent : x < -4 ∨ 10 ≤ x
  -- One digit, the fraction and an exponent.
  · rw [if_pos hexponent]
    have hdec := isDecimal_fraction (isSign_minus neg) (htake 1) (htake_ne 0) (hdrop 1)
      (isExponent_general x)
    rw [List.take_append_drop, digitsValue_decimal, hm, List.length_drop, hlen] at hdec
    simpa only [List.append_assoc, List.cons_append, List.nil_append] using hdec
  rw [if_neg hexponent]
  by_cases hneg : x < 0
  -- Zeros behind the point, then all digits.
  · rw [if_pos hneg]
    have hwhole : Digits [ch '0'] := digits_zeros 1
    have hdec := isDecimal_fraction (isSign_minus neg) hwhole (by simp)
      ((digits_zeros (x.natAbs - 1)).append hdigits) .none
    have hvalue : digitsValue ([ch '0'] ++ (List.replicate (x.natAbs - 1) (ch '0') ++
        decimal m.toNat)) = m.toNat := by
      have hzero : digitsValue [ch '0'] = 0 := by decide
      rw [digitsValue_append, digitsValue_append, digitsValue_zeros, digitsValue_decimal, hzero]
      omega
    have hexp : (0 : ℤ) - ((x.natAbs - 1 + (9 + 1) : ℕ) : ℤ) = x - 9 := by omega
    rw [hvalue, hm, List.length_append, List.length_replicate, hlen, hexp, List.append_nil] at hdec
    exact hdec
  -- The point stands within the digits.
  · rw [if_neg hneg]
    have hdec := isDecimal_fraction (isSign_minus neg) (htake (x.toNat + 1)) (htake_ne x.toNat)
      (hdrop (x.toNat + 1)) .none
    have hexp : (0 : ℤ) - ((9 + 1 - (x.toNat + 1) : ℕ) : ℤ) = x - 9 := by omega
    rw [List.take_append_drop, digitsValue_decimal, hm, List.length_drop, hlen, hexp,
      List.append_nil] at hdec
    exact hdec

/-- An integer's text has neither a point nor an exponent. -/
theorem isDecimal_writeInt (z : ℤ) : IsDecimal (writeInt z) z := by
  have hsign : IsSign (if z < 0 then [ch '-'] else []) (decide (z < 0)) := by
    have hminus := isSign_minus (decide (z < 0))
    simpa only [decide_eq_true_iff] using hminus
  have hdec := IsDecimal.mk hsign (digits_decimal z.natAbs) .none
    (fun h => decimal_ne_nil _ h.1) .none
  have hvalue : (if decide (z < 0) = true then (-1 : ℚ) else 1) *
      (digitsValue (decimal z.natAbs ++ []) * 10 ^ ((0 : ℤ) - ([] : Bytes).length)) = z := by
    rw [List.append_nil, digitsValue_decimal]
    by_cases hz : z < 0
    · have habs : ((z.natAbs : ℕ) : ℤ) = -z := by omega
      have hcast : ((z.natAbs : ℕ) : ℚ) = -(z : ℚ) := by
        rw [← Int.cast_natCast, habs, Int.cast_neg]
      simp [hz, hcast]
    · have habs : ((z.natAbs : ℕ) : ℤ) = z := by omega
      have hcast : ((z.natAbs : ℕ) : ℚ) = (z : ℚ) := by rw [← Int.cast_natCast, habs]
      simp [hz, hcast]
  rw [hvalue, List.append_nil, List.append_nil] at hdec
  exact hdec

/-- The value that is printed for a number: the number itself, or its ten significant digits. -/
def printed (n : ℚ) : ℚ :=
  if (⌊n⌋ : ℚ) = n ∧ |n| < 2 ^ 53 then n
  else (if n < 0 then -1 else 1) * value 9 (significant 9 |n|)

/-- **Every number** is printed as a decimal number. -/
theorem isDecimal_writeNumber (n : ℚ) : IsDecimal (writeNumber n) (printed n) := by
  rw [writeNumber, printed]
  by_cases hint : (⌊n⌋ : ℚ) = n ∧ |n| < 2 ^ 53
  · rw [if_pos hint, if_pos hint]
    have hz : toInt64 n = ⌊n⌋ := by
      rw [← hint.1, toInt64]
      split <;> simp
    rw [hz]
    have hdec := isDecimal_writeInt ⌊n⌋
    rwa [hint.1] at hdec
  · rw [if_neg hint, if_neg hint, writeGeneral_eq]
    have hne : n ≠ 0 := by
      rintro rfl
      exact hint (by norm_num)
    have hspec := significant_spec 9 (abs_pos.mpr hne)
    have hdec := isDecimal_generalText (decide (n < 0)) hspec.low hspec.high
    simpa only [decide_eq_true_iff] using hdec

/-! ### Decimal numbers as tokens -/

/-- After what is no exponent's letter a token goes on as at its start. -/
theorem tokenTail_quiet {prev : Option UInt8} (hprev : prev ≠ some (ch 'e') ∧ prev ≠ some (ch 'E'))
    (s : Bytes) : tokenTail prev s = tokenTail none s := by
  cases s with
  | nil => rfl
  | cons c s =>
    have hbyte : tokenByte prev c = tokenByte none c := by
      simp [tokenByte, hprev.1, hprev.2]
    rw [tokenTail, tokenTail, hbyte]

/-- A byte that belongs to the token goes into it. -/
theorem tokenTail_cons {prev : Option UInt8} {c : UInt8} (hc : tokenByte prev c = true)
    (s : Bytes) : tokenTail prev (c :: s) =
      (c :: (tokenTail (some c) s).1, (tokenTail (some c) s).2) := by
  rw [tokenTail, if_pos hc]

/-- A digit is no exponent letter. -/
theorem digit_quiet {c : UInt8} (hc : isDigit c = true) :
    some c ≠ some (ch 'e') ∧ some c ≠ some (ch 'E') := by
  constructor
  · rintro ⟨rfl⟩
    exact absurd hc (by decide)
  · rintro ⟨rfl⟩
    exact absurd hc (by decide)

/-- A token goes on over digits. -/
theorem tokenTail_append_digits {ds : Bytes} (hds : Digits ds) (s : Bytes) :
    tokenTail none (ds ++ s) = (ds ++ (tokenTail none s).1, (tokenTail none s).2) := by
  induction ds with
  | nil => rfl
  | cons d ds ih =>
    have hd := hds d (by simp)
    have hbyte : tokenByte none d = true := by simp [tokenByte, hd]
    rw [List.cons_append, tokenTail_cons hbyte, tokenTail_quiet (digit_quiet hd),
      ih fun c hc => hds c (by simp [hc])]
    rfl

/-- A token ends where its text does. -/
theorem tokenTail_ends {rest : Bytes} (hr : Ends rest) : tokenTail none rest = ([], rest) := by
  cases rest with
  | nil => rfl
  | cons c rest =>
    have hc := hr c rfl
    rw [tokenTail, if_neg (by simp [hc])]

/-- A token goes on over an exponent and ends after it. -/
theorem tokenTail_exponent {ex rest : Bytes} {e : ℤ} (hex : IsExponent ex e) (hr : Ends rest) :
    tokenTail none (ex ++ rest) = (ex, rest) := by
  cases hex with
  | none => exact tokenTail_ends hr
  | @some letter sign ds neg hletter hsign hds hne =>
    have hdigits : tokenTail none (ds ++ rest) = (ds, rest) := by
      rw [tokenTail_append_digits hds, tokenTail_ends hr, List.append_nil]
    have hbyte : tokenByte none letter = true := by
      rcases hletter with rfl | rfl <;> decide
    rw [List.cons_append, List.append_assoc, tokenTail_cons hbyte]
    -- A sign belongs to the token right after the letter.
    have hsigned : tokenTail (some letter) (sign ++ (ds ++ rest)) = (sign ++ ds, rest) := by
      cases hsign with
      | none =>
        obtain ⟨d, ds', rfl⟩ := List.exists_cons_of_ne_nil hne
        have hd := hds d (by simp)
        have hfirst : tokenByte (some letter) d = tokenByte none d := by simp [tokenByte, hd]
        rw [List.nil_append, List.nil_append, List.cons_append, tokenTail, hfirst]
        rw [List.cons_append, tokenTail] at hdigits
        exact hdigits
      | minus =>
        have hminus : tokenByte (some letter) (ch '-') = true := by
          rcases hletter with rfl | rfl <;> decide
        rw [List.singleton_append, tokenTail_cons hminus, tokenTail_quiet (by decide), hdigits]
        rfl
      | plus =>
        have hplus : tokenByte (some letter) (ch '+') = true := by
          rcases hletter with rfl | rfl <;> decide
        rw [List.singleton_append, tokenTail_cons hplus, tokenTail_quiet (by decide), hdigits]
        rfl
    rw [hsigned]

/-- **A decimal number** is a token that is taken in full. -/
theorem numberToken_decimal {text rest : Bytes} {q : ℚ} (h : IsDecimal text q) (hr : Ends rest) :
    numberToken (text ++ rest) = (text, rest) := by
  obtain @⟨sign, whole, point, frac, ex, neg, e, hsign, hdigits, hfrac, hne, hex⟩ := h
  obtain ⟨hbody, hhead⟩ := @mantissa_head _ _ _ ex hdigits hfrac hne
  have htail : tokenTail none (whole ++ (point ++ ex) ++ rest) =
      (whole ++ (point ++ ex), rest) := by
    rw [List.append_assoc, tokenTail_append_digits hdigits, List.append_assoc]
    cases hfrac with
    | none => rw [List.nil_append, List.nil_append, tokenTail_exponent hex hr]
    | point hfrac =>
      rw [List.cons_append, tokenTail_cons (by decide), tokenTail_quiet (by decide),
        tokenTail_append_digits hfrac, tokenTail_exponent hex hr]
      rfl
  rw [List.append_assoc]
  cases hsign with
  | none =>
    obtain ⟨c, body, hcbody⟩ := List.exists_cons_of_ne_nil hbody
    rw [hcbody] at hhead htail ⊢
    have hc := hhead c rfl
    rw [List.nil_append, List.nil_append, List.cons_append, numberToken, if_neg (by simp [hc])]
    exact htail
  | minus =>
    rw [List.singleton_append, numberToken, if_pos (.inl rfl), tokenTail_quiet (by decide), htail]
    rfl
  | plus =>
    rw [List.singleton_append, numberToken, if_pos (.inr rfl), tokenTail_quiet (by decide), htail]
    rfl

/-- **What becomes of a decimal number** that is read: the double nearest to it, or an error where
    there is none. -/
theorem parseNumber_decimal {text rest : Bytes} {q : ℚ} (h : IsDecimal text q) (hr : Ends rest) :
    parseNumber (text ++ rest) =
      if Binary64.IsFinite q then .ok (.number (Binary64.nearest q), rest)
      else fail "invalid number" rest := by
  simp only [parseNumber, numberToken_decimal h hr, any_digit_of_decimal h, if_true, strtod,
    decimalValue_of_decimal h]
  by_cases hfinite : Binary64.IsFinite q
  · rw [if_pos hfinite, if_pos hfinite]
  · rw [if_neg hfinite, if_neg hfinite]

/-! ### Reading a number back -/

/-- What is read back where a number was printed. -/
def readBack (n : ℚ) : ℚ := Binary64.nearest (printed n)

/-- The numbers whose text does not change: integers and what ten digits show with a point, none so
    large that its ten digits overflow. -/
def Keeps (n : ℚ) : Prop :=
  ((⌊n⌋ : ℚ) = n ∨ |n| < 9999999999 + 1 / 2) ∧ |n| ≤ (1797693134 + 1 / 2) * 10 ^ (299 : ℤ)

/-- The text of a positive number after a sign. -/
def signedText (neg : Bool) (a : ℚ) : Bytes :=
  if (⌊a⌋ : ℚ) = a ∧ a < 2 ^ 53 then (if neg then [ch '-'] else []) ++ decimal ⌊a⌋.toNat
  else generalText neg (significant 9 a)

/-- A number is an integer when its negative is. -/
theorem floor_neg_iff (a : ℚ) : (⌊-a⌋ : ℚ) = -a ↔ (⌊a⌋ : ℚ) = a := by
  have hint : ∀ b : ℚ, (⌊b⌋ : ℚ) = b ↔ ∃ z : ℤ, b = z :=
    fun b => ⟨fun h => ⟨⌊b⌋, h.symm⟩, fun ⟨z, hz⟩ => by rw [hz, Int.floor_intCast]⟩
  rw [hint, hint]
  constructor
  · rintro ⟨z, hz⟩
    exact ⟨-z, by push_cast; linarith⟩
  · rintro ⟨z, hz⟩
    exact ⟨-z, by push_cast; linarith⟩

/-- A positive number is written without a sign. -/
theorem writeNumber_pos {a : ℚ} (ha : 0 < a) : writeNumber a = signedText false a := by
  rw [writeNumber, signedText, abs_of_pos ha]
  by_cases hint : (⌊a⌋ : ℚ) = a ∧ a < 2 ^ 53
  · have hfloor : 0 ≤ ⌊a⌋ := Int.floor_nonneg.mpr ha.le
    have habs : ⌊a⌋.natAbs = ⌊a⌋.toNat := by omega
    rw [if_pos hint, if_pos hint, toInt64, if_pos ha.le, writeInt, if_neg (not_lt.mpr hfloor), habs]
    rfl
  · rw [if_neg hint, if_neg hint, writeGeneral_eq, abs_of_pos ha, decide_eq_false (by linarith)]

/-- A negative number is written with one. -/
theorem writeNumber_neg {a : ℚ} (ha : 0 < a) : writeNumber (-a) = signedText true a := by
  rw [writeNumber, signedText, abs_neg, abs_of_pos ha]
  simp only [floor_neg_iff]
  by_cases hint : (⌊a⌋ : ℚ) = a ∧ a < 2 ^ 53
  · have hfloor : 0 < ⌊a⌋ := by
      have hcast : (0 : ℚ) < ⌊a⌋ := by rw [hint.1]; exact ha
      exact_mod_cast hcast
    have hneg : toInt64 (-a) = -⌊a⌋ := by rw [toInt64, if_neg (by linarith), Int.ceil_neg]
    have habs : (-⌊a⌋).natAbs = ⌊a⌋.toNat := by omega
    rw [if_pos hint, if_pos hint, hneg, writeInt, if_pos (by omega), habs]
    rfl
  · rw [if_neg hint, if_neg hint, writeGeneral_eq, abs_neg, abs_of_pos ha,
      decide_eq_true (by linarith)]

/-- What is printed for a positive number. -/
theorem printed_pos {a : ℚ} (ha : 0 < a) :
    printed a = if (⌊a⌋ : ℚ) = a ∧ a < 2 ^ 53 then a else value 9 (significant 9 a) := by
  rw [printed, abs_of_pos ha, if_neg (not_lt.mpr ha.le), one_mul]

/-- The printed value follows the sign. -/
theorem printed_neg {a : ℚ} (ha : 0 < a) : printed (-a) = -printed a := by
  rw [printed_pos ha, printed, abs_neg, abs_of_pos ha, if_pos (neg_lt_zero.mpr ha)]
  simp only [floor_neg_iff]
  by_cases hint : (⌊a⌋ : ℚ) = a ∧ a < 2 ^ 53
  · rw [if_pos hint, if_pos hint]
  · rw [if_neg hint, if_neg hint, neg_one_mul]

/-! ### When the text is the same -/

/-- Ten digits that stand for an integer are printed as one, as long as there is no exponent. -/
theorem generalText_integral (neg : Bool) {d : ℤ × ℤ} (hlow : 10 ^ 9 ≤ d.1)
    (hhigh : d.1 < 10 ^ (9 + 1)) (hx : d.2 ≤ 9) {k : ℕ} (hk : value 9 d = k) :
    generalText neg d = (if neg then [ch '-'] else []) ++ decimal k := by
  obtain ⟨m, x⟩ := d
  dsimp only at hlow hhigh hx
  rw [value] at hk
  dsimp only at hk
  have hunit : (0 : ℚ) < 10 ^ (x - 9) := zpow_pos (by norm_num) _
  have hm : (0 : ℚ) < m := by exact_mod_cast lt_of_lt_of_le (by norm_num) hlow
  have hkpos : 0 < k := by
    have hcast : (0 : ℚ) < k := by
      rw [← hk]
      exact mul_pos hm hunit
    exact_mod_cast hcast
  -- The digits are those of the integer and zeros.
  have hx0 : 0 ≤ x := by
    by_contra hneg
    have hsmall : (10 : ℚ) ^ (x - 9) ≤ 10 ^ (-10 : ℤ) :=
      zpow_le_zpow_right₀ (by norm_num) (by omega)
    have hmax : (m : ℚ) < 10 ^ 10 := by exact_mod_cast hhigh
    have hlt : (k : ℚ) < 1 := by
      rw [← hk]
      calc (m : ℚ) * 10 ^ (x - (9 : ℕ)) ≤ m * 10 ^ (-10 : ℤ) :=
            mul_le_mul_of_nonneg_left hsmall hm.le
        _ < 10 ^ 10 * 10 ^ (-10 : ℤ) := mul_lt_mul_of_pos_right hmax (by norm_num)
        _ = 1 := by norm_num
    have hlt' : k < 1 := by exact_mod_cast hlt
    omega
  obtain ⟨j, hj⟩ : ∃ j : ℕ, (j : ℤ) = 9 - x := ⟨(9 - x).toNat, by omega⟩
  have hmk : m.toNat = k * 10 ^ j := by
    have hcast : (m : ℚ) = ((k * 10 ^ j : ℕ) : ℚ) := by
      push_cast
      rw [← hk, mul_assoc, ← zpow_natCast, hj, ← zpow_add₀ (by norm_num)]
      norm_num
    have hcast' : m = ((k * 10 ^ j : ℕ) : ℤ) := by exact_mod_cast hcast
    rw [hcast', Int.toNat_natCast]
  have hlen : (decimal m.toNat).length = 9 + 1 := decimal_length (by omega) (by omega)
  rw [hmk, decimal_mul_pow hkpos] at hlen
  rw [List.length_append, List.length_replicate] at hlen
  have htake : x.toNat + 1 = (decimal k).length := by omega
  have hzeros : fraction (List.replicate j (ch '0')) = [] := by
    have hdrop : (List.replicate j (ch '0')).rdropWhile (· == ch '0') = [] := by
      rw [List.rdropWhile_eq_nil_iff]
      intro c hc
      rw [List.eq_of_mem_replicate hc]
      rfl
    rw [fraction, hdrop]
    rfl
  rw [generalText]
  dsimp only
  rw [if_neg (show ¬(x < -4 ∨ 10 ≤ x) by omega), if_neg (show ¬ x < 0 by omega), hmk,
    decimal_mul_pow hkpos, htake, List.take_left, List.drop_left, hzeros, List.append_nil]

/-- With an exponent they are not. -/
theorem generalText_exponent (neg : Bool) {d : ℤ × ℤ} (hx : 10 ≤ d.2) (k : ℕ) :
    generalText neg d ≠ (if neg then [ch '-'] else []) ++ decimal k := by
  intro heq
  have hexponent : d.2 < -4 ∨ 10 ≤ d.2 := .inr hx
  rw [generalText] at heq
  simp only [if_pos hexponent, List.append_cancel_left_eq] at heq
  have hletter : ch 'e' ∈ decimal k := by
    rw [← heq]
    simp
  have hdigit := isDigit_decimal hletter
  exact absurd hdigit (by decide)

/-- The largest double and the first ten-digit number past it. -/
theorem largest_bounds :
    (1797693134 : ℚ) * 10 ^ (299 : ℤ) ≤ ((2 ^ 53 - 1 : ℤ) : ℚ) * 2 ^ (971 : ℤ) ∧
      ((2 ^ 53 - 1 : ℤ) : ℚ) * 2 ^ (971 : ℤ) < 2 ^ 1024 ∧
        (2 : ℚ) ^ (1024 : ℤ) ≤ 1797693135 * 10 ^ (299 : ℤ) := by
  have hlow : (1797693134 * 10 ^ 299 : ℕ) ≤ 9007199254740991 * 2 ^ 971 := by decide +kernel
  have hmax : (9007199254740991 * 2 ^ 971 : ℕ) < 2 ^ 1024 := by decide +kernel
  have hhigh : (2 ^ 1024 : ℕ) ≤ 1797693135 * 10 ^ 299 := by decide +kernel
  have hint : ((2 ^ 53 - 1 : ℤ) : ℚ) = 9007199254740991 := by norm_num
  rw [hint]
  exact ⟨by exact_mod_cast hlow, by exact_mod_cast hmax, by exact_mod_cast hhigh⟩

/-- **Ten digits overflow** from half a step past the largest ones on. -/
theorem isFinite_significant_iff {a : ℚ} (ha : 0 < a) :
    Binary64.IsFinite (value 9 (significant 9 a)) ↔
      a ≤ (1797693134 + 1 / 2) * 10 ^ (299 : ℤ) := by
  obtain ⟨hlow, hmax, hhigh⟩ := largest_bounds
  have hpos : 0 < value 9 (significant 9 a) := value_pos (significant_spec 9 ha).low
  have hexp : (308 : ℤ) - (9 : ℕ) = 299 := by norm_num
  constructor
  · intro hfinite
    by_contra hlarge
    have hhalf : (((1797693135 : ℤ) : ℚ) - 1 / 2) = 1797693134 + 1 / 2 := by norm_num
    have hover := le_value (N := 9) (b := 1797693135) (x := 308) ha (by norm_num)
      (.inl (by rw [hexp, hhalf]; exact not_le.mp hlarge)) (by norm_num)
    rw [hexp, Int.cast_ofNat] at hover
    have hnearest := Binary64.le_nearest (Binary64.onGrid_two_zpow (by norm_num))
      (le_trans hhigh hover)
    have hbound := le_trans hnearest (le_abs_self _)
    exact absurd hfinite (not_lt.mpr (by exact_mod_cast hbound))
  · intro hsmall
    have hhalf : (((1797693134 : ℤ) : ℚ) + 1 / 2) = 1797693134 + 1 / 2 := by norm_num
    have hle := value_le (N := 9) (b := 1797693134) (x := 308) ha (by norm_num)
      (by
        rw [hexp, hhalf]
        exact (lt_or_eq_of_le hsmall).imp_right fun h => ⟨by norm_num, h⟩) (by norm_num)
    rw [hexp, Int.cast_ofNat] at hle
    have hgrid : Binary64.OnGrid (((2 ^ 53 - 1 : ℤ) : ℚ) * 2 ^ (971 : ℤ)) :=
      ⟨2 ^ 53 - 1, 971, by norm_num, by norm_num, rfl⟩
    refine Binary64.isFinite_of_abs_le hgrid hmax ?_
    rw [abs_of_pos hpos]
    exact le_trans hle hlow

/-- Ten digits without an exponent are an integer where the double nearest to them is. -/
theorem nearest_integral {a : ℚ} (hgrid : Binary64.OnGrid a) (ha : 0 < a)
    (hx : (significant 9 a).2 ≤ 9)
    (hint : (⌊Binary64.nearest (value 9 (significant 9 a))⌋ : ℚ) =
      Binary64.nearest (value 9 (significant 9 a))) :
    Binary64.nearest (value 9 (significant 9 a)) = value 9 (significant 9 a) := by
  have hspec := significant_spec 9 ha
  have hclose := Binary64.nearest_closest hgrid (value 9 (significant 9 a))
  rw [abs_sub_value 9 a] at hclose
  generalize significant 9 a = d at *
  generalize hz : ⌊Binary64.nearest (value 9 d)⌋ = z at hint
  have hunit := unit_pos 9 d.2
  have hhalf := le_trans hclose (mul_le_mul_of_nonneg_right hspec.near hunit.le)
  -- An integer is a multiple of the unit, and so is the value.
  obtain ⟨j, hj⟩ : ∃ j : ℕ, (j : ℤ) = 9 - d.2 := ⟨(9 - d.2).toNat, by omega⟩
  have hmul : (z : ℚ) = ((z * 10 ^ j : ℤ) : ℚ) * 10 ^ (d.2 - (9 : ℕ)) := by
    push_cast
    rw [mul_assoc, ← zpow_natCast, hj, ← zpow_add₀ (by norm_num)]
    norm_num
  rw [← hint, hmul, value, ← sub_mul, abs_mul, abs_of_pos hunit] at hhalf
  have hle := le_of_mul_le_mul_right hhalf hunit
  have hsame : z * 10 ^ j = d.1 := by
    by_contra hne
    have hstep : (1 : ℚ) ≤ |((z * 10 ^ j - d.1 : ℤ) : ℚ)| := by
      exact_mod_cast Int.one_le_abs (sub_ne_zero.mpr hne)
    rw [Int.cast_sub] at hstep
    linarith
  rw [← hint, hmul, hsame, value]

/-- The exponent of the ten digits tells whether they reach `10 ^ 10`. -/
theorem exponent_le_iff {a : ℚ} (ha : 0 < a) :
    (significant 9 a).2 ≤ 9 ↔ a < 9999999999 + 1 / 2 := by
  obtain ⟨hlow, hhigh⟩ := value_bounds (significant_spec 9 ha)
  have hexp : (9 : ℤ) - (9 : ℕ) = 0 := by norm_num
  constructor
  · intro hx
    by_contra hlarge
    have hge := le_value (N := 9) (b := 10 ^ 10) (x := 9) ha (by norm_num)
      (by
        rw [hexp, zpow_zero, mul_one]
        have hhalf : (((10 ^ 10 : ℤ) : ℚ) - 1 / 2) = 9999999999 + 1 / 2 := by norm_num
        rw [hhalf]
        exact (lt_or_eq_of_le (not_lt.mp hlarge)).imp_right fun h => ⟨by norm_num, h⟩)
      (by norm_num)
    rw [hexp, zpow_zero, mul_one] at hge
    have hpow : (10 : ℚ) ^ ((significant 9 a).2 + 1) ≤ 10 ^ (10 : ℤ) :=
      zpow_le_zpow_right₀ (by norm_num) (by omega)
    norm_num at hge hpow
    linarith
  · intro hsmall
    have hle := value_le (N := 9) (b := 9999999999) (x := 9) ha (by norm_num)
      (.inl (by rw [hexp, zpow_zero, mul_one]; exact_mod_cast hsmall)) (by norm_num)
    rw [hexp, zpow_zero, mul_one] at hle
    by_contra hx
    have hpow : (10 : ℚ) ^ (10 : ℤ) ≤ 10 ^ (significant 9 a).2 :=
      zpow_le_zpow_right₀ (by norm_num) (by omega)
    norm_num at hle hpow
    linarith

/-- Small numbers do not overflow. -/
theorem le_largest {a : ℚ} (h : a ≤ 2 ^ 53) : a ≤ (1797693134 + 1 / 2) * 10 ^ (299 : ℤ) := by
  have hpow : (10 : ℚ) ^ (7 : ℤ) ≤ 10 ^ (299 : ℤ) := zpow_le_zpow_right₀ (by norm_num) (by norm_num)
  generalize (10 : ℚ) ^ (299 : ℤ) = largest at hpow ⊢
  norm_num at h hpow ⊢
  linarith

/-- A number with a fraction is written in the general form. -/
theorem signedText_fraction (neg : Bool) {a : ℚ} (hfrac : ¬ (⌊a⌋ : ℚ) = a) :
    signedText neg a = generalText neg (significant 9 a) := by
  rw [signedText, if_neg fun h => hfrac h.1]

/-- A positive number stays positive. -/
theorem readBack_pos {a : ℚ} (hrep : Binary64.Representable a) (ha : 0 < a) : 0 < readBack a := by
  rw [readBack, printed_pos ha]
  split
  · rw [Binary64.nearest_of_representable hrep]
    exact ha
  · have hspec := significant_spec 9 ha
    have hclose := Binary64.nearest_closest hrep.onGrid (value 9 (significant 9 a))
    rw [abs_sub_value 9 a] at hclose
    have hunit := unit_pos 9 (significant 9 a).2
    have hhalf := le_trans hclose (mul_le_mul_of_nonneg_right hspec.near hunit.le)
    -- The value is many units large.
    have hlarge : (1 : ℚ) * 10 ^ ((significant 9 a).2 - (9 : ℕ)) ≤ value 9 (significant 9 a) := by
      have hone : (1 : ℚ) ≤ (significant 9 a).1 := by
        have hlow := hspec.low
        exact_mod_cast (by omega : 1 ≤ (significant 9 a).1)
      rw [value]
      exact mul_le_mul_of_nonneg_right hone hunit.le
    have hlow := neg_le_of_abs_le hhalf
    generalize (10 : ℚ) ^ ((significant 9 a).2 - (9 : ℕ)) = unit at hunit hlarge hlow
    linarith

section Stable

variable {a : ℚ} (neg : Bool)

/-- An integer of 53 bits comes back as it is. -/
theorem stable_integer (ha : 0 < a) (hint : (⌊a⌋ : ℚ) = a) (hsmall : a < 2 ^ 53) :
    Binary64.IsFinite (printed a) ∧ signedText neg (readBack a) = signedText neg a := by
  have hz : |⌊a⌋| < 2 ^ 53 := by
    have hcast : (|⌊a⌋| : ℚ) < 2 ^ 53 := by rwa [hint, abs_of_pos ha]
    exact_mod_cast hcast
  have hfinite := Binary64.isFinite_intCast hz
  have hnearest := Binary64.nearest_intCast hz
  rw [hint] at hfinite hnearest
  rw [readBack, printed_pos ha, if_pos ⟨hint, hsmall⟩, hnearest]
  exact ⟨hfinite, rfl⟩

/-- From 53 bits on an integer is printed in ten digits, before and after. -/
theorem stable_large (hgrid : Binary64.OnGrid a) (ha : 0 < a) (hlarge : ¬ a < 2 ^ 53) :
    signedText neg (Binary64.nearest (value 9 (significant 9 a))) = signedText neg a := by
  have hexp : (15 : ℤ) - (9 : ℕ) = 6 := by norm_num
  have hge := le_value (N := 9) (b := 9007199255) (x := 15) ha (by norm_num)
    (.inl (by rw [hexp]; norm_num at hlarge ⊢; linarith)) (by norm_num)
  rw [hexp] at hge
  have hv : (2 : ℚ) ^ (53 : ℤ) ≤ value 9 (significant 9 a) := by
    norm_num at hge ⊢
    linarith
  have hr := Binary64.le_nearest (Binary64.onGrid_two_zpow (by norm_num)) hv
  have hnot : ¬ Binary64.nearest (value 9 (significant 9 a)) < 2 ^ 53 := by
    rw [not_lt]
    exact_mod_cast hr
  rw [signedText, signedText, if_neg fun h => hnot h.2, if_neg fun h => hlarge h.2,
    significant_nearest hgrid ha]

/-- A fraction that ten digits show with a point comes back with the same digits. -/
theorem stable_fraction (hgrid : Binary64.OnGrid a) (ha : 0 < a) (hfrac : ¬ (⌊a⌋ : ℚ) = a)
    (hsmall : a < 9999999999 + 1 / 2) :
    signedText neg (Binary64.nearest (value 9 (significant 9 a))) = signedText neg a := by
  have hspec := significant_spec 9 ha
  have hx := (exponent_le_iff ha).mpr hsmall
  have hsame := significant_nearest hgrid ha
  rw [signedText_fraction neg hfrac, signedText]
  by_cases hr : (⌊Binary64.nearest (value 9 (significant 9 a))⌋ : ℚ) =
      Binary64.nearest (value 9 (significant 9 a)) ∧
      Binary64.nearest (value 9 (significant 9 a)) < 2 ^ 53
  · -- The digits stand for an integer: its text is theirs.
    have hv := nearest_integral hgrid ha hx hr.1
    rw [if_pos hr, hv]
    rw [hv] at hr
    have hpos := value_pos hspec.low
    have hfloor : (0 : ℤ) ≤ ⌊value 9 (significant 9 a)⌋ := Int.floor_nonneg.mpr hpos.le
    have hk : value 9 (significant 9 a) = (⌊value 9 (significant 9 a)⌋.toNat : ℕ) := by
      rw [← Int.cast_natCast, Int.toNat_of_nonneg hfloor]
      exact hr.1.symm
    exact (generalText_integral neg hspec.low hspec.high hx hk).symm
  · rw [if_neg hr, hsame]

/-- A fraction that is printed with an exponent comes back as an integer, printed without one. -/
theorem unstable_fraction (ha : 0 < a) (hfrac : ¬ (⌊a⌋ : ℚ) = a) (hbits : a < 2 ^ 52)
    (hlarge : ¬ a < 9999999999 + 1 / 2) :
    signedText neg (Binary64.nearest (value 9 (significant 9 a))) ≠ signedText neg a := by
  have hspec := significant_spec 9 ha
  have hx : 10 ≤ (significant 9 a).2 := by
    have hnot := (exponent_le_iff ha).not.mpr hlarge
    omega
  have hexp : (15 : ℤ) - (9 : ℕ) = 6 := by norm_num
  have hle := value_le (N := 9) (b := 4503599628) (x := 15) ha (by norm_num)
    (.inl (by rw [hexp]; norm_num at hbits ⊢; linarith)) (by norm_num)
  rw [hexp] at hle
  have hpos := value_pos hspec.low
  -- The value is an integer, and its own nearest double.
  obtain ⟨j, hj⟩ : ∃ j : ℕ, (j : ℤ) = (significant 9 a).2 - 9 :=
    ⟨((significant 9 a).2 - 9).toNat, by omega⟩
  have hv : value 9 (significant 9 a) = (((significant 9 a).1 * 10 ^ j : ℤ) : ℚ) := by
    rw [value]
    push_cast
    rw [← hj, zpow_natCast]
  have hz : |(significant 9 a).1 * 10 ^ j| < 2 ^ 53 := by
    have hcast : (|(significant 9 a).1 * 10 ^ j| : ℚ) < 2 ^ 53 := by
      rw [hv] at hle hpos
      push_cast at hle hpos
      rw [abs_of_pos hpos]
      norm_num at hle ⊢
      linarith
    exact_mod_cast hcast
  have hnearest := Binary64.nearest_intCast hz
  have hfloor : (⌊value 9 (significant 9 a)⌋ : ℚ) = value 9 (significant 9 a) := by
    rw [hv, Int.floor_intCast]
  have hlt : value 9 (significant 9 a) < 2 ^ 53 := by
    norm_num at hle ⊢
    linarith
  rw [← hv] at hnearest
  rw [hnearest, signedText_fraction neg hfrac, signedText, if_pos ⟨hfloor, hlt⟩]
  exact fun heq => generalText_exponent neg hx _ heq.symm

/-- **A positive number** with a sign before it. -/
theorem signedText_readBack_iff (hrep : Binary64.Representable a) (ha : 0 < a) :
    (Binary64.IsFinite (printed a) ∧ signedText neg (readBack a) = signedText neg a) ↔
      Keeps a := by
  have hgrid := hrep.onGrid
  rw [Keeps, abs_of_pos ha]
  by_cases hint : (⌊a⌋ : ℚ) = a
  · by_cases hsmall : a < 2 ^ 53
    · exact iff_of_true (stable_integer neg ha hint hsmall) ⟨.inl hint, le_largest hsmall.le⟩
    · rw [readBack, printed_pos ha, if_neg fun h => hsmall h.2, isFinite_significant_iff ha,
        and_iff_left (stable_large neg hgrid ha hsmall)]
      exact (and_iff_right (.inl hint)).symm
  · have hbits : a < 2 ^ 52 := by
      have hlt := (Binary64.integral_or_lt hrep).resolve_left hint
      rwa [abs_of_pos ha] at hlt
    have hle : a ≤ (1797693134 + 1 / 2) * 10 ^ (299 : ℤ) :=
      le_largest (by norm_num at hbits ⊢; linarith)
    rw [readBack, printed_pos ha, if_neg fun h => hint h.1, isFinite_significant_iff ha]
    by_cases hsmall : a < 9999999999 + 1 / 2
    · exact iff_of_true ⟨hle, stable_fraction neg hgrid ha hint hsmall⟩ ⟨.inr hsmall, hle⟩
    · refine iff_of_false (fun h => unstable_fraction neg ha hint hbits hsmall h.2) ?_
      rintro ⟨hkeep | hkeep, -⟩
      · exact hint hkeep
      · exact hsmall hkeep

end Stable

/-- **The text of a number** is that of the number read back, for the numbers that keep it and no
    others. -/
theorem writeNumber_readBack_iff {n : ℚ} (hn : Binary64.Representable n) :
    (Binary64.IsFinite (printed n) ∧ writeNumber (readBack n) = writeNumber n) ↔ Keeps n := by
  rcases lt_trichotomy n 0 with hneg | rfl | hpos
  · -- A negative number is a positive one after a sign, and so is what is read back.
    obtain ⟨a, rfl⟩ : ∃ a, n = -a := ⟨-n, (neg_neg n).symm⟩
    have ha : 0 < a := by linarith
    have hrep : Binary64.Representable a := by
      obtain ⟨m, e, hm, he, he', hq⟩ := hn
      exact ⟨-m, e, by rwa [abs_neg], he, he', by push_cast; linarith⟩
    have hkeeps : Keeps (-a) ↔ Keeps a := by
      rw [Keeps, Keeps, abs_neg, floor_neg_iff]
    have hfinite : Binary64.IsFinite (printed (-a)) ↔ Binary64.IsFinite (printed a) := by
      rw [printed_neg ha, Binary64.IsFinite, Binary64.nearest_neg, abs_neg]
      exact Iff.rfl
    have hback : readBack (-a) = -readBack a := by
      rw [readBack, printed_neg ha, Binary64.nearest_neg]
      rfl
    rw [hkeeps, hfinite, hback, writeNumber_neg (readBack_pos hrep ha), writeNumber_neg ha]
    exact signedText_readBack_iff true hrep ha
  · have hzero : printed 0 = 0 := if_pos (by norm_num)
    have hfinite := Binary64.isFinite_intCast (z := 0) (by norm_num)
    rw [readBack, hzero, Binary64.nearest_of_representable hn]
    refine iff_of_true ⟨by exact_mod_cast hfinite, rfl⟩ ⟨.inl (by norm_num), ?_⟩
    rw [abs_zero]
    exact le_largest (by norm_num)
  · rw [writeNumber_pos (readBack_pos hn hpos), writeNumber_pos hpos]
    exact signedText_readBack_iff false hn hpos

end Json

end InfinityClicker
