import InfinityClicker.Core.JsonReads

namespace InfinityClicker

namespace Json

/-!
# What is printed is read back

Every part of the printer is undone by the part of the parser for it, whatever follows in the
text, as long as a number is not followed by what would belong to its token.  What becomes of the
numbers is a parameter: a tree is read back with every number mapped, or not at all.

* `parseNumber_writeInt`, `parseChars_writeString` — the scalars;
* `parseElems_join` — the elements between two brackets, under any layout of white space;
* `parseValue_reads` — a tree at the depths that are left;
* `parse_stringify_reads` — whole texts;
* `parse_stringify` — a tree of integers comes back as it is.
-/

/-- What follows a value does not go on with a number's token. -/
def Ends (rest : Bytes) : Prop := ∀ c ∈ rest.head?, tokenByte none c = false

/-- The end of the text ends a token. -/
theorem ends_nil : Ends [] := by
  intro c hc
  simp at hc

/-- So does any byte no token goes on with. -/
theorem ends_cons {c : UInt8} {s : Bytes} (hc : tokenByte none c = false) : Ends (c :: s) := by
  intro c' hc'
  rw [List.head?_cons, Option.mem_some_iff] at hc'
  rwa [← hc']

/-! ### Numbers -/

/-- A digit as a character is one as a byte, with the same code. -/
theorem isDigit_toUInt8 {c : Char} (hc : c.isDigit = true) :
    isDigit c.toUInt8 = true ∧ c.toUInt8.toNat = c.toNat := by
  obtain ⟨hlow, hhigh⟩ := Char.isDigit_iff_toNat.mp hc
  have hnat : c.toUInt8.toNat = c.toNat := by
    rw [Char.toUInt8, UInt32.toNat_toUInt8]
    exact Nat.mod_eq_of_lt (lt_of_le_of_lt hhigh (by decide))
  refine ⟨?_, hnat⟩
  rw [isDigit, Bool.and_eq_true, decide_eq_true_iff, decide_eq_true_iff, UInt8.le_iff_toNat_le,
    UInt8.le_iff_toNat_le, hnat]
  exact ⟨hlow, hhigh⟩

/-- The decimal of a number is digits. -/
theorem isDigit_decimal {n : ℕ} {c : UInt8} (hc : c ∈ decimal n) : isDigit c = true := by
  obtain ⟨d, hd, rfl⟩ := List.mem_map.mp hc
  exact (isDigit_toUInt8 (Nat.isDigit_of_mem_toDigits (by norm_num) (le_refl 10) hd)).1

/-- There is at least one of them. -/
theorem decimal_ne_nil (n : ℕ) : decimal n ≠ [] := by
  intro h
  exact Nat.toDigits_ne_nil (List.map_eq_nil_iff.mp h)

/-- **The digits of a number** stand for it. -/
theorem digitsValue_decimal (n : ℕ) : digitsValue (decimal n) = n := by
  have hdigits : ∀ c ∈ Nat.toDigits 10 n, c.toUInt8.toNat = c.toNat := by
    intro c hc
    exact (isDigit_toUInt8 (Nat.isDigit_of_mem_toDigits (by norm_num) (le_refl 10) hc)).2
  have hfold : digitsValue (decimal n) = Nat.ofDigitChars 10 (Nat.toDigits 10 n) 0 := by
    rw [digitsValue, decimal, List.foldl_map, Nat.ofDigitChars_eq_foldl]
    refine List.foldl_ext _ _ _ fun v c hc => ?_
    rw [hdigits c hc]
    rfl
  rw [hfold, Nat.ofDigitChars_ten_toDigits]

/-- Digits alone are taken as a whole. -/
theorem takeWhile_digits (ds : Bytes) (hds : ∀ c ∈ ds, isDigit c = true) :
    ds.takeWhile isDigit = ds ∧ ds.dropWhile isDigit = [] :=
  ⟨List.takeWhile_eq_self_iff.mpr hds, List.dropWhile_eq_nil_iff.mpr hds⟩

/-- The token of a number goes over its digits and ends after them. -/
theorem tokenTail_digits {ds rest : Bytes} (hds : ∀ c ∈ ds, isDigit c = true) (hr : Ends rest)
    (prev : Option UInt8) (hprev : prev ≠ some (ch 'e') ∧ prev ≠ some (ch 'E')) :
    tokenTail prev (ds ++ rest) = (ds, rest) := by
  induction ds generalizing prev with
  | nil =>
    cases rest with
    | nil => rfl
    | cons c s =>
      have hc := hr c rfl
      have hstop : tokenByte prev c = false := by
        simp only [tokenByte, Bool.or_eq_false_iff] at hc ⊢
        exact ⟨hc.1, by simp [hprev.1, hprev.2]⟩
      simp [tokenTail, hstop]
  | cons d ds ih =>
    have hd := hds d (by simp)
    have hnext : tokenByte prev d = true := by simp [tokenByte, hd]
    have hletter : some d ≠ some (ch 'e') ∧ some d ≠ some (ch 'E') := by
      constructor
      · rintro ⟨rfl⟩
        revert hd
        decide
      · rintro ⟨rfl⟩
        revert hd
        decide
    have hrest := ih (fun c hc => hds c (by simp [hc])) (some d) hletter
    rw [List.cons_append, tokenTail, if_pos hnext, hrest]

/-- An integer's text is a token that is taken in full. -/
theorem numberToken_writeInt (z : ℤ) {rest : Bytes} (hr : Ends rest) :
    numberToken (writeInt z ++ rest) = (writeInt z, rest) := by
  have hds : ∀ c ∈ decimal z.natAbs, isDigit c = true := fun c hc => isDigit_decimal hc
  by_cases hz : z < 0
  · have htail := tokenTail_digits hds hr (some (ch '-')) (by decide)
    simp [writeInt, hz, numberToken, htail]
  · -- Without a sign the first byte is a digit.
    have htail := tokenTail_digits hds hr none (by simp)
    cases hdec : decimal z.natAbs with
    | nil => exact absurd hdec (decimal_ne_nil _)
    | cons d ds =>
      have hd : isDigit d = true := hds d (by simp [hdec])
      have hsign : ¬(d = ch '-' ∨ d = ch '+') := by
        rintro (rfl | rfl) <;> revert hd <;> decide
      rw [hdec] at htail
      simp only [writeInt, hz, if_false, List.nil_append, hdec]
      rw [List.cons_append, numberToken, if_neg hsign]
      exact htail

/-- The sign of an integer is read off its text. -/
theorem takeSign_writeInt (z : ℤ) : takeSign (writeInt z) = (decide (z < 0), decimal z.natAbs) := by
  by_cases hz : z < 0
  · simp [writeInt, hz, takeSign]
  · cases hdec : decimal z.natAbs with
    | nil => exact absurd hdec (decimal_ne_nil _)
    | cons d ds =>
      have hd : isDigit d = true := isDigit_decimal (n := z.natAbs) (by simp [hdec])
      have hminus : d ≠ ch '-' := by rintro rfl; revert hd; decide
      have hplus : d ≠ ch '+' := by rintro rfl; revert hd; decide
      simp [writeInt, hz, hdec, takeSign, hminus, hplus]

/-- `strtod` reads an integer as it is. -/
theorem decimalValue_writeInt (z : ℤ) : decimalValue (writeInt z) = some (z : ℚ) := by
  obtain ⟨htake, hdrop⟩ := takeWhile_digits (decimal z.natAbs) fun c hc => isDigit_decimal hc
  have hne := decimal_ne_nil z.natAbs
  have hval := digitsValue_decimal z.natAbs
  simp only [decimalValue, takeSign_writeInt, htake, hdrop, List.head?_nil, reduceCtorEq, if_false,
    hne, false_and, List.append_nil, hval, takeExponent, List.length_nil]
  by_cases hz : z < 0
  · have habs : ((z.natAbs : ℕ) : ℤ) = -z := by omega
    have hcast : ((z.natAbs : ℕ) : ℚ) = -(z : ℚ) := by
      rw [← Int.cast_natCast, habs, Int.cast_neg]
    simp [hz, hcast]
  · have habs : ((z.natAbs : ℕ) : ℤ) = z := by omega
    have hcast : ((z.natAbs : ℕ) : ℚ) = (z : ℚ) := by rw [← Int.cast_natCast, habs]
    simp [hz, hcast]

/-- **Numbers.** An integer of 53 bits is read back. -/
theorem parseNumber_writeInt {z : ℤ} (hz : |z| < 2 ^ 53) {rest : Bytes} (hr : Ends rest) :
    parseNumber (writeInt z ++ rest) = .ok (.number z, rest) := by
  have hdigit : (writeInt z).any isDigit = true := by
    obtain ⟨d, hd⟩ := List.exists_mem_of_ne_nil _ (decimal_ne_nil z.natAbs)
    rw [List.any_eq_true]
    exact ⟨d, List.mem_append_right _ hd, isDigit_decimal hd⟩
  have hstrtod : strtod (writeInt z) = some (z : ℚ) := by
    rw [strtod, decimalValue_writeInt]
    show (if Binary64.IsFinite z then some (Binary64.nearest z) else none) = _
    rw [if_pos (Binary64.isFinite_intCast hz), Binary64.nearest_intCast hz]
  simp only [parseNumber, numberToken_writeInt z hr, hdigit, if_true, hstrtod]

/-- The integers a `double` holds with all their neighbours. -/
def SafeInteger (n : ℚ) : Prop := ∃ z : ℤ, n = z ∧ |z| < 2 ^ 53

/-- A small integer is written as one. -/
theorem writeNumber_intCast {z : ℤ} (hz : |z| < 2 ^ 53) : writeNumber (z : ℚ) = writeInt z := by
  have hlt : |(z : ℚ)| < 2 ^ 53 := by exact_mod_cast hz
  rw [writeNumber, if_pos ⟨by simp, hlt⟩, toInt64_intCast]

/-! ### Strings -/

/-- A byte that is neither a quote nor a backslash stands for itself. -/
theorem parseChars_raw {c : UInt8} {s : Bytes} (hquote : c ≠ ch '"') (hslash : c ≠ ch '\\') :
    parseChars (c :: s) = prepend [c] (parseChars s) := by
  rw [parseChars.eq_def]
  dsimp only
  rw [if_neg hquote, if_neg hslash]

/-- A backslash and a letter stand for the byte of the pair. -/
theorem parseChars_escape {e b : UInt8} {s : Bytes} (he : e ≠ ch 'u')
    (hb : escapeByte e = some b) :
    parseChars (ch '\\' :: e :: s) = prepend [b] (parseChars s) := by
  rw [parseChars.eq_def]
  dsimp only
  rw [if_neg (by decide), if_pos rfl, if_neg he, hb]

/-- Four hexadecimal digits stand for the bytes of their code point, outside the surrogates. -/
theorem parseChars_unicode {a b c d : UInt8} {s : Bytes} {cp : ℕ}
    (hcp : hexLoop 0 s [a, b, c, d] = .ok cp) (hhigh : isHighSurrogate cp = false) :
    parseChars (ch '\\' :: ch 'u' :: a :: b :: c :: d :: s) =
      prepend (appendUtf8 cp) (parseChars s) := by
  rw [parseChars.eq_def]
  dsimp only
  rw [if_neg (by decide), if_pos rfl, if_pos rfl, hcp]
  dsimp only
  -- What is not a high surrogate does not look at the next escape.
  split
  · rw [if_neg (by simp [hhigh])]
  · rfl

/-- Every digit is read back. -/
theorem hexDigit_hexChar : ∀ d < 16, hexDigit (hexChar d) = some d := by decide

/-- The escape of a control byte is its own two digits. -/
theorem hexLoop_control {c : UInt8} (hc : c < 0x20) (s : Bytes) :
    hexLoop 0 s [ch '0', ch '0', hexChar (c.toNat / 16), hexChar (c.toNat % 16)] =
      .ok c.toNat := by
  have hlt : c.toNat < 32 := UInt8.lt_iff_toNat_lt.mp hc
  have hzero : hexDigit (ch '0') = some 0 := by decide
  have hfirst := hexDigit_hexChar (c.toNat / 16) (by omega)
  have hsecond := hexDigit_hexChar (c.toNat % 16) (by omega)
  simp only [hexLoop, hzero, hfirst, hsecond]
  congr 1
  omega

/-- Each byte of a string is read back from what it is written as. -/
theorem parseChars_writeByte (c : UInt8) (s : Bytes) :
    parseChars (writeByte c ++ s) = prepend [c] (parseChars s) := by
  unfold writeByte
  split
  · next h => rw [h]; exact parseChars_escape (by decide) (by decide)
  split
  · next h => rw [h]; exact parseChars_escape (by decide) (by decide)
  split
  · next h => rw [h]; exact parseChars_escape (by decide) (by decide)
  split
  · next h => rw [h]; exact parseChars_escape (by decide) (by decide)
  split
  · next h => rw [h]; exact parseChars_escape (by decide) (by decide)
  split
  · next h => rw [h]; exact parseChars_escape (by decide) (by decide)
  split
  · next h => rw [h]; exact parseChars_escape (by decide) (by decide)
  split
  · next hcontrol =>
    have hlt : c.toNat < 32 := UInt8.lt_iff_toNat_lt.mp hcontrol
    have hhigh : isHighSurrogate c.toNat = false := by
      rw [isHighSurrogate, Bool.and_eq_false_iff, decide_eq_false_iff_not]
      exact Or.inl (by omega)
    have hutf8 : appendUtf8 c.toNat = [c] := by
      rw [appendUtf8, if_pos (by omega)]
      simp
    have hread := parseChars_unicode (hexLoop_control hcontrol s) hhigh
    rw [hutf8] at hread
    exact hread
  · next hquote hslash _ _ _ _ _ _ => exact parseChars_raw hquote hslash

/-- **Strings.** Any bytes are read back. -/
theorem parseChars_writeString (s rest : Bytes) :
    parseChars (s.flatMap writeByte ++ ch '"' :: rest) = .ok (s, rest) := by
  induction s with
  | nil =>
    show parseChars (ch '"' :: rest) = .ok ([], rest)
    rw [parseChars.eq_def]
    rfl
  | cons c s ih =>
    rw [List.flatMap_cons, List.append_assoc, parseChars_writeByte, ih]
    rfl

/-! ### White space and what is not -/

/-- Nothing but white space. -/
def Spaces (ws : Bytes) : Prop := ∀ c ∈ ws, isSpace c = true

/-- The bytes a value may start with: not skipped, no closing bracket, not the first of a byte
    order mark. -/
def startByte (c : UInt8) : Bool :=
  !isSpace c && c != ch '/' && c != ch ']' && c != ch '}' && c != 0xEF

/-- The text begins with the first byte of a value. -/
def Starts (t : Bytes) : Prop := ∃ c ∈ t.head?, startByte c = true

/-- What begins so still does with more behind it. -/
theorem Starts.append {t : Bytes} (h : Starts t) (s : Bytes) : Starts (t ++ s) := by
  obtain ⟨c, hc, hstart⟩ := h
  exact ⟨c, by simp [List.head?_append, Option.mem_def.mp hc], hstart⟩

/-- A line break with its indent is white space, and so is none. -/
theorem spaces_newline (pretty : Bool) (indent : ℕ) : Spaces (newline pretty indent) := by
  intro c hc
  unfold newline at hc
  split at hc
  · rcases List.mem_cons.mp hc with rfl | hc
    · decide
    · rw [List.eq_of_mem_replicate hc]
      decide
  · simp at hc

/-- A space is in no number's token. -/
theorem tokenByte_space {c : UInt8} (hc : isSpace c = true) : tokenByte none c = false := by
  simp only [isSpace, Bool.or_eq_true, beq_iff_eq] at hc
  rcases hc with ((rfl | rfl) | rfl) | rfl <;> decide

/-- White space keeps a token ended. -/
theorem Ends.spaces_append {ws s : Bytes} (hws : Spaces ws) (hs : Ends s) : Ends (ws ++ s) := by
  cases ws with
  | nil => exact hs
  | cons c ws => exact ends_cons (tokenByte_space (hws c (by simp)))

/-- Nothing is skipped before a byte that is neither white space nor a comment's slash. -/
theorem skipWs_solid {c : UInt8} (hspace : isSpace c = false) (hslash : c ≠ ch '/') (s : Bytes) :
    skipWs false (c :: s) = c :: s := by
  simp [skipWs, hspace, hslash]

/-- Nothing is skipped before a value. -/
theorem skipWs_start {t : Bytes} (h : Starts t) : skipWs false t = t := by
  obtain ⟨c, hc, hstart⟩ := h
  obtain ⟨s, rfl⟩ : ∃ s, t = c :: s := List.head?_eq_some_iff.mp hc
  simp only [startByte, Bool.and_eq_true, Bool.not_eq_true', bne_iff_ne] at hstart
  exact skipWs_solid hstart.1.1.1.1 hstart.1.1.1.2 s

/-- White space is skipped. -/
theorem skipWs_spaces {ws : Bytes} (hws : Spaces ws) (t : Bytes) :
    skipWs false (ws ++ t) = skipWs false t := by
  induction ws with
  | nil => rfl
  | cons c ws ih =>
    have hc : isSpace c = true := hws c (by simp)
    rw [List.cons_append, skipWs, if_pos hc]
    exact ih fun c hc => hws c (by simp [hc])

/-! ### Reading what may fail -/

/-- A part of the parser reads `x` and leaves `rest` where all is good, and fails where it is
    not. -/
structure Reads {α : Type} (p : Parsed (α × Bytes)) (good : Prop) (x : α) (rest : Bytes) :
    Prop where
  ok : good → p = .ok (x, rest)
  error : ¬good → ∃ e, p = .error e

namespace Reads

variable {α β : Type} {p : Parsed (α × Bytes)} {f : α × Bytes → Parsed (β × Bytes)}
  {good more : Prop} {x : α} {y : β} {s rest : Bytes}

/-- A parser that answers at once. -/
theorem pure (x : α) (rest : Bytes) : Reads (Pure.pure (x, rest)) True x rest :=
  ⟨fun _ => rfl, fun h => absurd trivial h⟩

/-- A sequence of two parts fails when either does. -/
theorem bind_and (h : Reads p good x s) (hf : Reads (f (x, s)) more y rest) :
    Reads (p >>= f) (good ∧ more) y rest := by
  constructor
  · rintro ⟨hgood, hmore⟩
    rw [h.ok hgood]
    exact hf.ok hmore
  · intro hnot
    by_cases hgood : good
    · rw [h.ok hgood]
      exact hf.error fun hmore => hnot ⟨hgood, hmore⟩
    · obtain ⟨e, he⟩ := h.error hgood
      exact ⟨e, by rw [he]; rfl⟩

/-- What comes after the first part does not fail. -/
theorem bind (h : Reads p good x s) (hf : Reads (f (x, s)) True y rest) :
    Reads (p >>= f) good y rest := by
  have hboth := h.bind_and hf
  rwa [and_true] at hboth

/-- A read that succeeded, and whose result is good. -/
theorem of_ok (h : p = .ok (x, rest)) (hgood : good) : Reads p good x rest :=
  ⟨fun _ => h, fun hnot => absurd hgood hnot⟩

end Reads

/-! ### Elements -/

/-- The bytes that close an array or an object. -/
def Closes (close : UInt8) : Prop := close = ch ']' ∨ close = ch '}'

/-- Nothing is skipped before a closing bracket. -/
theorem Closes.skipWs {close : UInt8} (h : Closes close) (s : Bytes) :
    skipWs false (close :: s) = close :: s := by
  rcases h with rfl | rfl <;> exact skipWs_solid (by decide) (by decide) s

/-- A closing bracket ends a token. -/
theorem Closes.ends {close : UInt8} (h : Closes close) (s : Bytes) : Ends (close :: s) := by
  rcases h with rfl | rfl <;> exact ends_cons (by decide)

/-- It is no comma. -/
theorem Closes.ne_comma {close : UInt8} (h : Closes close) : close ≠ ch ',' := by
  rcases h with rfl | rfl <;> decide

/-- A text that starts a value does not start with a closing bracket. -/
theorem Closes.ne_head {close : UInt8} (h : Closes close) {t : Bytes} (ht : Starts t) :
    t.head? ≠ some close := by
  obtain ⟨c, hc, hstart⟩ := ht
  intro hclose
  rw [Option.mem_def, hclose, Option.some_inj] at hc
  subst hc
  rcases h with rfl | rfl <;> revert hstart <;> decide

/-- A list that is written begins with its first item. -/
theorem joinElems_cons (sep lead t : Bytes) (ts : List Bytes) :
    ∃ more, joinElems sep lead (t :: ts) = lead ++ (t ++ more) := by
  cases ts with
  | nil => exact ⟨[], by simp [joinElems]⟩
  | cons u us => exact ⟨sep ++ joinElems sep lead (u :: us), by simp [joinElems]⟩

section Elements

variable {α β : Type} {elem : Bytes → Parsed (α × Bytes)} {text : β → Bytes} {val : β → α}
  {good : β → Prop} {close : UInt8} {unterminated expected : String} {gap lead tail rest : Bytes}

/-- After the white space before it, the first element's text comes. -/
theorem skipWs_join (hlead : Spaces lead) {x : β} (hx : Starts (text x)) (xs : List β)
    (sep s : Bytes) : Starts (skipWs false (joinElems sep lead ((x :: xs).map text) ++ s)) := by
  obtain ⟨more, hmore⟩ := joinElems_cons sep lead (text x) (xs.map text)
  have hstart := (hx.append more).append s
  rw [List.map_cons, hmore, List.append_assoc, skipWs_spaces hlead, skipWs_start hstart]
  exact hstart

/-- **The elements** between two brackets are read back, under any layout of white space. -/
theorem parseElems_join (hclose : Closes close) (hgap : Spaces gap) (hlead : Spaces lead)
    (htail : Spaces tail) {xs : List β} (hne : xs ≠ []) (hstart : ∀ x ∈ xs, Starts (text x))
    (helem : ∀ x ∈ xs, ∀ rest, Ends rest → Reads (elem (text x ++ rest)) (good x) (val x) rest)
    {rounds : ℕ} (hrounds : xs.length ≤ rounds) {s : Bytes}
    (hs : skipWs false s =
      skipWs false (joinElems (ch ',' :: gap) lead (xs.map text) ++ (tail ++ close :: rest))) :
    Reads (parseElems elem close unterminated expected rounds s) (∀ x ∈ xs, good x) (xs.map val)
      rest := by
  induction xs generalizing rounds s with
  | nil => exact absurd rfl hne
  | cons x xs ih =>
    have hx := hstart x (by simp)
    have hread := helem x (by simp)
    obtain ⟨rounds, rfl⟩ : ∃ r, rounds = r + 1 :=
      ⟨rounds - 1, by rw [List.length_cons] at hrounds; omega⟩
    cases xs with
    | nil =>
      -- The last element: white space and the closing bracket follow.
      have hends := Ends.spaces_append htail (hclose.ends rest)
      simp only [List.map_cons, List.map_nil, joinElems, List.append_assoc] at hs
      rw [skipWs_spaces hlead, skipWs_start (hx.append _)] at hs
      rw [parseElems, hs, List.forall_mem_singleton]
      refine (hread _ hends).bind ?_
      simp only [skipWs_spaces htail, hclose.skipWs, hclose.ne_comma, if_false, if_true]
      exact .pure _ rest
    | cons y ys =>
      -- A comma follows, and after it what the next round reads.
      have hends : ∀ s : Bytes, Ends (ch ',' :: s) := fun s => ends_cons (by decide)
      have hcomma := skipWs_solid (c := ch ',') (by decide) (by decide)
      have hnext := skipWs_join hlead (hstart y (by simp)) ys (ch ',' :: gap)
        (tail ++ close :: rest)
      have hrounds' : (y :: ys).length ≤ rounds := Nat.le_of_succ_le_succ hrounds
      have hrest := ih (by simp) (fun x hx => hstart x (List.mem_cons_of_mem _ hx))
        (fun x hx => helem x (List.mem_cons_of_mem _ hx)) hrounds' (skipWs_start hnext)
      simp only [List.map_cons, joinElems, List.append_assoc, List.cons_append] at hs hnext hrest
      rw [skipWs_spaces hlead, skipWs_start (hx.append _)] at hs
      rw [parseElems, hs, List.forall_mem_cons]
      refine (hread _ (hends _)).bind_and ?_
      simp only [hcomma, if_true, skipWs_spaces hgap]
      rw [if_neg (hclose.ne_head hnext)]
      exact hrest.bind (.pure _ rest)

/-- The elements from after the opening bracket. -/
theorem parseList_join (hclose : Closes close) (hgap : Spaces gap) (hlead : Spaces lead)
    (htail : Spaces tail) (hconsumes : Consumes elem) {xs : List β} (hne : xs ≠ [])
    (hstart : ∀ x ∈ xs, Starts (text x))
    (helem : ∀ x ∈ xs, ∀ rest, Ends rest → Reads (elem (text x ++ rest)) (good x) (val x) rest) :
    Reads (parseList elem close unterminated expected
      (joinElems (ch ',' :: gap) lead (xs.map text) ++ (tail ++ close :: rest)))
      (∀ x ∈ xs, good x) (xs.map val) rest := by
  have hfirst : Starts (skipWs false
      (joinElems (ch ',' :: gap) lead (xs.map text) ++ (tail ++ close :: rest))) := by
    cases xs with
    | nil => exact absurd rfl hne
    | cons x xs => exact skipWs_join hlead (hstart x (by simp)) xs (ch ',' :: gap) _
  unfold parseList
  dsimp only
  rw [if_neg (hclose.ne_head hfirst)]
  -- As many rounds as there are elements would do as well.
  rw [parseElems_rounds hconsumes (Nat.lt_succ_self _)
    (Nat.lt_succ_of_le (Nat.le_add_right _ xs.length))]
  exact parseElems_join hclose hgap hlead htail hne hstart helem (by omega) (skipWs_start hfirst)

/-- A list may end right away. -/
theorem parseList_close (hclose : Closes close) :
    parseList elem close unterminated expected (close :: rest) = .ok ([], rest) := by
  unfold parseList
  dsimp only
  rw [hclose.skipWs, if_pos List.head?_cons, List.tail_cons]

end Elements

/-! ### Trees -/

/-- A word is read as the value it stands for. -/
theorem literal_bytes (word : String) (v : Value) (rest : Bytes) :
    literal word v (bytes word ++ rest) = .ok (v, rest) := by
  have hlen : (bytes word).length = word.length := by
    rw [bytes, List.length_map, String.length_toList]
  rw [literal, ← hlen, List.take_left, List.drop_left, if_pos rfl]

/-- The items of an array are written one by one. -/
theorem writeItems_eq (pretty : Bool) (indent : ℕ) (a : List Value) :
    writeItems pretty indent a = a.map (write pretty indent) := by
  induction a with
  | nil => rfl
  | cons v a ih => rw [writeItems, ih, List.map_cons]

/-- A member as it is printed. -/
def memberText (pretty : Bool) (indent : ℕ) (m : Bytes × Value) : Bytes :=
  writeString m.1 ++ bytes (if pretty then ": " else ":") ++ write pretty indent m.2

/-- So are the members of an object. -/
theorem writeMembers_eq (pretty : Bool) (indent : ℕ) (o : List (Bytes × Value)) :
    writeMembers pretty indent o = o.map (memberText pretty indent) := by
  induction o with
  | nil => rfl
  | cons m o ih => rw [writeMembers, ih, List.map_cons, memberText]

/-- A digit begins a value. -/
theorem startByte_digit {c : UInt8} (hc : isDigit c = true) : startByte c = true := by
  by_contra hstart
  simp only [startByte, isSpace, Bool.and_eq_true, Bool.not_eq_true', Bool.or_eq_false_iff,
    bne_iff_ne, beq_eq_false_iff_ne, not_and_or, not_not] at hstart
  rcases hstart with ((((((rfl | rfl) | rfl) | rfl) | rfl) | rfl) | rfl) | rfl <;>
    revert hc <;> decide

namespace Value

variable {p q : ℚ → Prop}

/-- The numbers of a number. -/
theorem allNumbers_number {n : ℚ} : (number n).AllNumbers p ↔ p n :=
  ⟨fun h => by cases h with | number hn => exact hn, .number⟩

/-- The numbers of an array are those of its items. -/
theorem allNumbers_array {a : List Value} :
    (array a).AllNumbers p ↔ ∀ v ∈ a, v.AllNumbers p :=
  ⟨fun h => by cases h with | array ha => exact ha, .array⟩

/-- The numbers of an object are those of its members. -/
theorem allNumbers_object {o : List (Bytes × Value)} :
    (object o).AllNumbers p ↔ ∀ m ∈ o, m.2.AllNumbers p :=
  ⟨fun h => by cases h with | object ho => exact ho, .object⟩

/-- A weaker condition holds of all numbers too. -/
theorem AllNumbers.mono {v : Value} (h : v.AllNumbers p) (hpq : ∀ n, p n → q n) :
    v.AllNumbers q := by
  induction h with
  | null => exact .null
  | bool b => exact .bool b
  | number hn => exact .number (hpq _ hn)
  | string s => exact .string s
  | array _ ih => exact .array ih
  | object _ ih => exact .object ih

mutual

/-- The tree with every number replaced. -/
def mapNumbers (f : ℚ → ℚ) : Value → Value
  | .number n => .number (f n)
  | .array a => .array (mapItems f a)
  | .object o => .object (mapMembers f o)
  | v => v

/-- The items of an array, with their numbers mapped. -/
def mapItems (f : ℚ → ℚ) : List Value → List Value
  | [] => []
  | v :: a => v.mapNumbers f :: mapItems f a

/-- The members of an object, with their numbers mapped. -/
def mapMembers (f : ℚ → ℚ) : List (Bytes × Value) → List (Bytes × Value)
  | [] => []
  | (k, v) :: o => (k, v.mapNumbers f) :: mapMembers f o

end

/-- Mapping the numbers of an array. -/
theorem mapNumbers_array (f : ℚ → ℚ) (a : List Value) :
    (array a).mapNumbers f = .array (a.map (mapNumbers f)) := by
  rw [mapNumbers]
  congr 1
  induction a with
  | nil => rfl
  | cons v a ih => rw [mapItems, ih, List.map_cons]

/-- Mapping the numbers of an object. -/
theorem mapNumbers_object (f : ℚ → ℚ) (o : List (Bytes × Value)) :
    (object o).mapNumbers f = .object (o.map fun m => (m.1, m.2.mapNumbers f)) := by
  rw [mapNumbers]
  congr 1
  induction o with
  | nil => rfl
  | cons m o ih => rw [mapMembers, ih, List.map_cons]

/-- Numbers mapped to themselves leave the tree. -/
theorem mapNumbers_id (v : Value) : v.mapNumbers id = v := by
  induction v using Value.induction with
  | null | bool | number | string => rfl
  | array a ih => rw [mapNumbers_array, List.map_congr_left ih, List.map_id']
  | object o ih =>
    have hmembers : ∀ m ∈ o, (m.1, m.2.mapNumbers id) = m := by
      intro m hm
      rw [ih m hm]
    rw [mapNumbers_object, List.map_congr_left hmembers, List.map_id']

end Value

/-- What is printed for a value can start one. -/
theorem starts_write {v : Value} (hv : v.AllNumbers fun n => Starts (writeNumber n)) (pretty : Bool)
    (indent : ℕ) : Starts (write pretty indent v) := by
  cases hv with
  | null => exact ⟨ch 'n', rfl, by decide⟩
  | bool b =>
    cases b with
    | false => exact ⟨ch 'f', rfl, by decide⟩
    | true => exact ⟨ch 't', rfl, by decide⟩
  | number hn => exact hn
  | string s => exact ⟨ch '"', rfl, by decide⟩
  | array h =>
    rw [write]
    split <;> exact ⟨ch '[', rfl, by decide⟩
  | object h =>
    rw [write]
    split <;> exact ⟨ch '{', rfl, by decide⟩

/-- **A member** is read back where its value is. -/
theorem parseMember_reads {item : Bytes → Parsed (Value × Bytes)} {pretty : Bool} {indent : ℕ}
    {m : Bytes × Value} {v : Value} {good : Prop} {rest : Bytes}
    (hstart : Starts (write pretty indent m.2))
    (hitem : Reads (item (write pretty indent m.2 ++ rest)) good v rest) :
    Reads (parseMember item (memberText pretty indent m ++ rest)) good (m.1, v) rest := by
  obtain ⟨gap, hgap, hcolon⟩ : ∃ gap, Spaces gap ∧
      bytes (if pretty then ": " else ":") = ch ':' :: gap := by
    cases pretty with
    | false => exact ⟨[], by simp [Spaces], rfl⟩
    | true => exact ⟨[ch ' '], by simp [Spaces, isSpace], rfl⟩
  have hkey := parseChars_writeString m.1 (ch ':' :: gap ++ (write pretty indent m.2 ++ rest))
  have hskip := skipWs_solid (c := ch ':') (by decide) (by decide)
    (gap ++ (write pretty indent m.2 ++ rest))
  rw [memberText, hcolon, writeString, parseMember]
  simp only [List.cons_append, List.append_assoc, List.nil_append, List.head?_cons, ne_eq,
    not_true_eq_false, if_false, List.tail_cons] at hkey ⊢
  rw [hkey]
  simp only [bind, Except.bind, hskip, List.head?_cons, not_true_eq_false, if_false, List.tail_cons,
    skipWs_spaces hgap, skipWs_start (hstart.append rest)]
  exact hitem.bind (.pure _ rest)

/-- What becomes of a number that is printed and read. -/
structure ReadsNumber (f : ℚ → ℚ) (good : ℚ → Prop) (n : ℚ) : Prop where
  starts : Starts (writeNumber n)
  reads : ∀ (left : ℕ) (rest : Bytes), Ends rest →
    Reads (parseValue (left + 1) (writeNumber n ++ rest)) (good n) (.number (f n)) rest

/-- A text that starts like a number is no other value's. -/
theorem parseValue_number {c : UInt8} (hc : isDigit c = true ∨ c = ch '-') (left : ℕ) (s : Bytes) :
    parseValue (left + 1) (c :: s) = parseNumber (c :: s) := by
  have hother : c ≠ ch '{' ∧ c ≠ ch '[' ∧ c ≠ ch '"' ∧ c ≠ ch 't' ∧ c ≠ ch 'f' ∧ c ≠ ch 'n' := by
    refine ⟨?_, ?_, ?_, ?_, ?_, ?_⟩ <;> (rintro rfl; revert hc; decide)
  obtain ⟨h₁, h₂, h₃, h₄, h₅, h₆⟩ := hother
  rw [parseValue, if_neg h₁, if_neg h₂, if_neg h₃, if_neg h₄, if_neg h₅, if_neg h₆]

/-- A digit or a minus begins a value. -/
theorem startByte_number {c : UInt8} (hc : isDigit c = true ∨ c = ch '-') :
    startByte c = true := by
  rcases hc with hc | rfl
  · exact startByte_digit hc
  · decide

/-- An integer begins with a digit or a minus. -/
theorem writeInt_head (z : ℤ) : ∃ c s, writeInt z = c :: s ∧ (isDigit c = true ∨ c = ch '-') := by
  unfold writeInt
  split
  · exact ⟨ch '-', _, rfl, Or.inr rfl⟩
  · cases hdec : decimal z.natAbs with
    | nil => exact absurd hdec (decimal_ne_nil _)
    | cons d ds => exact ⟨d, ds, rfl, Or.inl (isDigit_decimal (n := z.natAbs) (by simp [hdec]))⟩

/-- An integer of 53 bits is read as it is. -/
theorem SafeInteger.readsNumber {n : ℚ} (hn : SafeInteger n) :
    ReadsNumber id (fun _ => True) n := by
  obtain ⟨z, rfl, hz⟩ := hn
  obtain ⟨c, s, hcs, hc⟩ := writeInt_head z
  constructor
  · rw [writeNumber_intCast hz, hcs]
    exact ⟨c, rfl, startByte_number hc⟩
  · intro left rest hr
    have hread := parseNumber_writeInt hz hr
    rw [writeNumber_intCast hz, hcs, List.cons_append, parseValue_number hc]
    rw [hcs, List.cons_append] at hread
    exact .of_ok hread trivial

section Trees

variable {f : ℚ → ℚ} {good : ℚ → Prop} {left indent : ℕ} {pretty : Bool} {rest : Bytes}

/-- An array is read back where its items are, one level further in. -/
theorem parseValue_array {a : List Value} (hstart : ∀ v ∈ a, Starts (write pretty (indent + 1) v))
    (hitem : ∀ v ∈ a, ∀ rest, Ends rest → Reads (parseValue left
      (write pretty (indent + 1) v ++ rest)) (v.AllNumbers good) (v.mapNumbers f) rest) :
    Reads (parseValue (left + 1) (write pretty indent (.array a) ++ rest))
      (∀ v ∈ a, v.AllNumbers good) (.array (a.map (Value.mapNumbers f))) rest := by
  rw [write]
  split
  · next hnil =>
    rw [List.isEmpty_iff.mp hnil]
    show Reads (parseArray (parseValue left) (ch ']' :: rest)) _ _ rest
    rw [parseArray, parseList_close (Or.inl rfl)]
    exact .of_ok rfl (by simp)
  · next hne =>
    obtain ⟨gap, hgap, hsep⟩ : ∃ gap, Spaces gap ∧
        (if isFlat a && pretty then bytes ", " else bytes ",") = ch ',' :: gap := by
      split
      · exact ⟨[ch ' '], by simp [Spaces, isSpace], rfl⟩
      · exact ⟨[], by simp [Spaces], rfl⟩
    have hspaces : ∀ n, Spaces (if isFlat a then [] else newline pretty n) := by
      intro n
      split
      · simp [Spaces]
      · exact spaces_newline pretty n
    have hread : Reads (parseList (parseValue left) (ch ']') "unterminated array" "expected , or ]"
        _) _ _ rest :=
      parseList_join (Or.inl rfl) hgap (hspaces (indent + 1)) (hspaces indent)
        (parseValue_consumes left) (by simpa using hne) hstart hitem
    dsimp only
    rw [hsep, writeItems_eq]
    show Reads (parseArray (parseValue left) (_ ++ _ ++ [ch ']'] ++ rest)) _ _ rest
    rw [List.append_assoc, List.append_assoc, List.singleton_append, parseArray]
    exact hread.bind (.pure _ rest)

/-- An object is read back where its values are, one level further in. -/
theorem parseValue_object {o : List (Bytes × Value)}
    (hstart : ∀ m ∈ o, Starts (write pretty (indent + 1) m.2))
    (hitem : ∀ m ∈ o, ∀ rest, Ends rest → Reads (parseValue left
      (write pretty (indent + 1) m.2 ++ rest)) (m.2.AllNumbers good) (m.2.mapNumbers f) rest) :
    Reads (parseValue (left + 1) (write pretty indent (.object o) ++ rest))
      (∀ m ∈ o, m.2.AllNumbers good) (.object (o.map fun m => (m.1, m.2.mapNumbers f))) rest := by
  rw [write]
  split
  · next hnil =>
    rw [List.isEmpty_iff.mp hnil]
    show Reads (parseObject (parseValue left) (ch '}' :: rest)) _ _ rest
    rw [parseObject, parseList_close (Or.inr rfl)]
    exact .of_ok rfl (by simp)
  · next hne =>
    have hmember : ∀ m ∈ o, ∀ rest, Ends rest →
        Reads (parseMember (parseValue left) (memberText pretty (indent + 1) m ++ rest))
          (m.2.AllNumbers good) (m.1, m.2.mapNumbers f) rest :=
      fun m hm rest hr => parseMember_reads (hstart m hm) (hitem m hm rest hr)
    have hread : Reads (parseList (parseMember (parseValue left)) (ch '}') "unterminated object"
        "expected , or \x7d" _) _ _ rest :=
      parseList_join (Or.inr rfl) (show Spaces [] by simp [Spaces])
        (spaces_newline pretty (indent + 1)) (spaces_newline pretty indent)
        (parseMember_consumes (parseValue_consumes left)) (by simpa using hne)
        (fun m _ => ⟨ch '"', rfl, by decide⟩) hmember
    rw [writeMembers_eq]
    show Reads (parseObject (parseValue left) (_ ++ _ ++ [ch '}'] ++ rest)) _ _ rest
    rw [List.append_assoc, List.append_assoc, List.singleton_append, parseObject]
    exact hread.bind (.pure _ rest)

/-- **A tree** is read back at any depth that leaves room for it, with its numbers as they are
    read. -/
theorem parseValue_reads {v : Value} (hv : v.AllNumbers (ReadsNumber f good))
    (hleft : v.depth < left) (hr : Ends rest) :
    Reads (parseValue left (write pretty indent v ++ rest)) (v.AllNumbers good) (v.mapNumbers f)
      rest := by
  obtain ⟨left, rfl⟩ : ∃ l, left = l + 1 := ⟨left - 1, by omega⟩
  induction v using Value.induction generalizing left indent rest with
  | null => exact .of_ok (literal_bytes "null" .null rest) .null
  | bool b =>
    cases b with
    | false => exact .of_ok (literal_bytes "false" (.bool false) rest) (.bool false)
    | true => exact .of_ok (literal_bytes "true" (.bool true) rest) (.bool true)
  | number n =>
    rw [Value.allNumbers_number] at hv ⊢
    exact hv.reads left rest hr
  | string s =>
    have hread := parseChars_writeString s rest
    refine .of_ok ?_ (.string s)
    rw [write, writeString, List.append_assoc, List.cons_append, List.singleton_append]
    rw [parseValue, if_neg (by decide), if_neg (by decide), if_pos rfl, hread]
    rfl
  | array a ih =>
    rw [Value.allNumbers_array] at hv ⊢
    rw [Value.mapNumbers_array]
    refine parseValue_array
      (fun v hmem => starts_write ((hv v hmem).mono fun _ h => h.starts) _ _) ?_
    intro v hmem rest hr
    have hlt := Value.depth_item hmem
    obtain ⟨left, rfl⟩ : ∃ l, left = l + 1 := ⟨left - 1, by omega⟩
    exact ih v hmem (hv v hmem) hr left (by omega)
  | object o ih =>
    rw [Value.allNumbers_object] at hv ⊢
    rw [Value.mapNumbers_object]
    refine parseValue_object
      (fun m hmem => starts_write ((hv m hmem).mono fun _ h => h.starts) _ _) ?_
    intro m hmem rest hr
    have hlt := Value.depth_member hmem
    obtain ⟨left, rfl⟩ : ∃ l, left = l + 1 := ⟨left - 1, by omega⟩
    exact ih m hmem (hv m hmem) hr left (by omega)

/-- **A text** is read back as the tree with its numbers as they are read, or as nothing. -/
theorem parse_stringify_reads {v : Value} (hv : v.AllNumbers (ReadsNumber f good))
    (hdepth : v.depth ≤ 64) (pretty : Bool) :
    (v.AllNumbers good → (parse (stringify v pretty)).ok = true ∧
      (parse (stringify v pretty)).value = v.mapNumbers f) ∧
    (¬ v.AllNumbers good → (parse (stringify v pretty)).value = .null) := by
  have hstart := starts_write (hv.mono fun _ h => h.starts) pretty 0
  -- The text ends with the line break of pretty output, or with the value.
  have htail : ∃ tail, stringify v pretty = write pretty 0 v ++ tail ∧ Spaces tail := by
    cases pretty with
    | false => exact ⟨[], rfl, by simp [Spaces]⟩
    | true => exact ⟨[ch '\n'], rfl, by simp [Spaces, isSpace]⟩
  obtain ⟨tail, htext, htail⟩ := htail
  have hends : Ends tail := by simpa using Ends.spaces_append htail ends_nil
  have hend : skipWs false tail = [] := by
    rw [← List.append_nil tail, skipWs_spaces htail]
    rfl
  have hnobom : (write pretty 0 v ++ tail).take 3 ≠ [0xEF, 0xBB, 0xBF] := by
    obtain ⟨c, hc, hbyte⟩ := hstart.append tail
    obtain ⟨s, hs⟩ := List.head?_eq_some_iff.mp hc
    rw [hs]
    intro hbom
    rw [(List.cons.inj hbom).1] at hbyte
    revert hbyte
    decide
  have hread : Reads (parseValue 65 (write pretty 0 v ++ tail)) _ _ tail :=
    parseValue_reads hv (Nat.lt_succ_of_le hdepth) hends
  rw [htext, parse, if_neg hnobom, run, skipWs_start (hstart.append tail)]
  constructor
  · intro hgood
    rw [hread.ok hgood]
    simp [hend]
  · intro hbad
    obtain ⟨e, he⟩ := hread.error hbad
    rw [he]

end Trees

/-- **The round trip.** A tree of at most 64 levels under its root, whose numbers are integers of 53
    bits, is what its text is read back as, pretty or compact. -/
theorem parse_stringify (v : Value) (pretty : Bool) (hdepth : v.depth ≤ 64)
    (hv : v.AllNumbers SafeInteger) :
    (parse (stringify v pretty)).ok = true ∧ (parse (stringify v pretty)).value = v := by
  have hnumbers := hv.mono fun _ h => h.readsNumber
  have hreads := (parse_stringify_reads hnumbers hdepth pretty).1 (hv.mono fun _ _ => trivial)
  rwa [Value.mapNumbers_id] at hreads

/-- An object with a member twice, its keys and its string full of bytes that are escaped or no
    UTF-8. -/
theorem parse_stringify_bytes :
    (parse (stringify (.object [([0, 34], .array [.number (-5 : ℤ), .string [92, 255, 10]]),
      ([0, 34], .null)]) true)).ok = true ∧
    (parse (stringify (.object [([0, 34], .array [.number (-5 : ℤ), .string [92, 255, 10]]),
      ([0, 34], .null)]) true)).value =
      .object [([0, 34], .array [.number (-5 : ℤ), .string [92, 255, 10]]), ([0, 34], .null)] := by
  apply parse_stringify
  · decide
  · refine .object (List.forall_mem_cons.mpr ⟨.array ?_, by simpa using .null⟩)
    refine List.forall_mem_cons.mpr ⟨.number ⟨-5, rfl, by norm_num⟩, ?_⟩
    simpa using .string _

end Json

end InfinityClicker
