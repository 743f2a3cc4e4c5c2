import InfinityClicker.Core.JsonRoundTrip
import Mathlib.Data.List.Chain

namespace InfinityClicker

namespace Json

/-!
# What a string literal stands for

Between its quotes a literal is a row of bytes and `\u` escapes.  An escape stands for its code
unit, and a high surrogate with a low one right after it for their code point.  The parser reads
the escape after a high surrogate before it knows whether the two pair up.

* `Lexes` — the bytes and code units of a literal; there is one way to read it
  (`Lexes.unique`);
* `decode` — what they stand for;
* `parseChars_eq_ok_iff` — what the parser makes of them;
* `losesNothing_iff` — nothing is lost exactly when every escape after a high surrogate is a low
  one.
-/

/-! ### UTF-8 -/

/-- The bytes of a code point in UTF-8: six bits in each byte but the first. -/
def utf8 (cp : ℕ) : Bytes :=
  (if cp < 0x80 then [cp]
  else if cp < 0x800 then [0xC0 + cp / 64, 0x80 + cp % 64]
  else if cp < 0x10000 then [0xE0 + cp / 4096, 0x80 + cp / 64 % 64, 0x80 + cp % 64]
  else [0xF0 + cp / 262144, 0x80 + cp / 4096 % 64, 0x80 + cp / 64 % 64, 0x80 + cp % 64]).map
    Nat.toUInt8

/-- Bits that do not overlap are added. -/
theorem or_eq_add {k a b : ℕ} (hb : b < 2 ^ k) : 2 ^ k * a ||| b = 2 ^ k * a + b :=
  (Nat.two_pow_add_eq_or_of_lt hb a).symm

/-- `appendUtf8` is that encoding. -/
theorem appendUtf8_eq {cp : ℕ} (hcp : cp < 0x110000) : appendUtf8 cp = utf8 cp := by
  have hlow : ∀ n, n &&& 0x3F = n % 64 := fun n => Nat.and_two_pow_sub_one_eq_mod n 6
  have hcont : ∀ n, 0x80 ||| n % 64 = 0x80 + n % 64 := by
    intro n
    exact or_eq_add (k := 6) (a := 2) (Nat.mod_lt n (by norm_num))
  have hshift : cp >>> 6 = cp / 64 ∧ cp >>> 12 = cp / 4096 ∧ cp >>> 18 = cp / 262144 :=
    ⟨Nat.shiftRight_eq_div_pow cp 6, Nat.shiftRight_eq_div_pow cp 12,
      Nat.shiftRight_eq_div_pow cp 18⟩
  obtain ⟨h6, h12, h18⟩ := hshift
  rw [appendUtf8, utf8, h6, h12, h18, hlow, hlow, hlow, hcont, hcont, hcont]
  split
  · rfl
  split
  · next h =>
    have hlead : 0xC0 ||| cp / 64 = 0xC0 + cp / 64 :=
      or_eq_add (k := 5) (a := 6) (by omega)
    rw [hlead]
    rfl
  split
  · next h =>
    have hlead : 0xE0 ||| cp / 4096 = 0xE0 + cp / 4096 :=
      or_eq_add (k := 4) (a := 14) (by omega)
    rw [hlead]
    rfl
  · have hlead : 0xF0 ||| cp / 262144 = 0xF0 + cp / 262144 :=
      or_eq_add (k := 3) (a := 30) (by omega)
    rw [hlead]
    rfl

/-- Three bytes below U+10000. -/
theorem utf8_length_three {cp : ℕ} (hlow : 0x800 ≤ cp) (hhigh : cp < 0x10000) :
    (utf8 cp).length = 3 := by
  rw [utf8, List.length_map, if_neg (by omega), if_neg (by omega), if_pos hhigh]
  rfl

/-- Four bytes from there on. -/
theorem utf8_length_four {cp : ℕ} (hlow : 0x10000 ≤ cp) : (utf8 cp).length = 4 := by
  rw [utf8, List.length_map, if_neg (by omega), if_neg (by omega), if_neg (by omega)]
  rfl

/-- No code point is written in no bytes. -/
theorem utf8_length_pos (cp : ℕ) : 0 < (utf8 cp).length := by
  rw [utf8, List.length_map]
  split
  · exact Nat.one_pos
  split
  · exact Nat.two_pos
  split
  · exact Nat.succ_pos 2
  · exact Nat.succ_pos 3

/-! ### Literals -/

/-- A part of a literal. -/
inductive Item where
  /-- A raw byte, or what an escape of one letter stands for. -/
  | byte (b : UInt8)
  /-- The code unit of a `\u` escape. -/
  | unit (u : ℕ)
deriving DecidableEq, Repr

/-- The four digits of a `\u` escape. -/
def HexUnit (a b c d : UInt8) (u : ℕ) : Prop :=
  ∃ w x y z, hexDigit a = some w ∧ hexDigit b = some x ∧ hexDigit c = some y ∧
    hexDigit d = some z ∧ u = ((w * 16 + x) * 16 + y) * 16 + z

/-- A text from after the opening quote: the parts up to the closing quote, and the bytes after
    it. -/
inductive Lexes : Bytes → List Item → Bytes → Prop
  | close {rest : Bytes} : Lexes (ch '"' :: rest) [] rest
  | raw {c : UInt8} {s rest : Bytes} {items : List Item} :
    c ≠ ch '"' → c ≠ ch '\\' → Lexes s items rest → Lexes (c :: s) (.byte c :: items) rest
  | escape {e b : UInt8} {s rest : Bytes} {items : List Item} :
    escapeByte e = some b → Lexes s items rest →
      Lexes (ch '\\' :: e :: s) (.byte b :: items) rest
  | unicode {a b c d : UInt8} {u : ℕ} {s rest : Bytes} {items : List Item} :
    HexUnit a b c d u → Lexes s items rest →
      Lexes (ch '\\' :: ch 'u' :: a :: b :: c :: d :: s) (.unit u :: items) rest

/-- The code point of a high and a low surrogate. -/
def combined (hi lo : ℕ) : ℕ := 0x10000 + (hi - 0xD800) * 1024 + (lo - 0xDC00)

/-- **What a literal stands for**: the bytes in order, code units in UTF-8, and a high surrogate
    with a low one right after it as one code point. -/
def decode : List Item → Bytes
  | [] => []
  | .byte b :: items => b :: decode items
  | [.unit u] => utf8 u
  | .unit u :: .byte b :: items => utf8 u ++ decode (.byte b :: items)
  | .unit hi :: .unit lo :: items =>
    if isHighSurrogate hi ∧ isLowSurrogate lo then utf8 (combined hi lo) ++ decode items
    else utf8 hi ++ decode (.unit lo :: items)

/-- What `parseString` makes of a literal: the escape after a high surrogate goes with it in any
    case. -/
def read : List Item → Bytes
  | [] => []
  | .byte b :: items => b :: read items
  | [.unit u] => utf8 u
  | .unit u :: .byte b :: items => utf8 u ++ read (.byte b :: items)
  | .unit hi :: .unit lo :: items =>
    if isHighSurrogate hi then utf8 (pairCodePoint hi lo) ++ read items
    else utf8 hi ++ read (.unit lo :: items)

/-- A high surrogate has no escape but a low one right after it. -/
def PairsUp : Item → Item → Prop
  | .unit hi, .unit lo => isHighSurrogate hi = true → isLowSurrogate lo = true
  | _, _ => True

/-! ### Reading a literal -/

/-- Four hexadecimal digits are read as their unit. -/
theorem hexLoop_eq_ok_iff {a b c d : UInt8} {u : ℕ} {s : Bytes} :
    hexLoop 0 s [a, b, c, d] = .ok u ↔ HexUnit a b c d u := by
  constructor
  · intro h
    simp only [hexLoop] at h
    split at h
    · next w hw =>
      split at h
      · next x hx =>
        split at h
        · next y hy =>
          split at h
          · next z hz =>
            refine ⟨w, x, y, z, hw, hx, hy, hz, ?_⟩
            rw [← Except.ok.inj h]
            omega
          · simp at h
        · simp at h
      · simp at h
    · simp at h
  · rintro ⟨w, x, y, z, hw, hx, hy, hz, rfl⟩
    simp only [hexLoop, hw, hx, hy, hz]
    congr 1
    omega

/-- A hexadecimal digit is below sixteen. -/
theorem hexDigit_lt {c : UInt8} {d : ℕ} (h : hexDigit c = some d) : d < 16 := by
  unfold hexDigit at h
  split at h
  · next hc =>
    obtain ⟨-, hhigh⟩ := hc
    rw [UInt8.le_iff_toNat_le] at hhigh
    replace hhigh : c.toNat ≤ 57 := hhigh
    have hd := Option.some.inj h
    omega
  split at h
  · next hc =>
    obtain ⟨-, hhigh⟩ := hc
    rw [UInt8.le_iff_toNat_le] at hhigh
    replace hhigh : c.toNat ≤ 102 := hhigh
    have hd := Option.some.inj h
    omega
  split at h
  · next hc =>
    obtain ⟨-, hhigh⟩ := hc
    rw [UInt8.le_iff_toNat_le] at hhigh
    replace hhigh : c.toNat ≤ 70 := hhigh
    have hd := Option.some.inj h
    omega
  · simp at h

/-- A unit has sixteen bits. -/
theorem HexUnit.lt {a b c d : UInt8} {u : ℕ} (h : HexUnit a b c d u) : u < 0x10000 := by
  obtain ⟨w, x, y, z, hw, hx, hy, hz, rfl⟩ := h
  have hw' := hexDigit_lt hw
  have hx' := hexDigit_lt hx
  have hy' := hexDigit_lt hy
  have hz' := hexDigit_lt hz
  omega

/-- Four digits name one unit. -/
theorem HexUnit.unique {a b c d : UInt8} {u u' : ℕ} (h : HexUnit a b c d u)
    (h' : HexUnit a b c d u') : u = u' := by
  rw [← hexLoop_eq_ok_iff (s := [])] at h h'
  rw [h] at h'
  exact Except.ok.inj h'

/-- The escape letters of single bytes are not that of a unit. -/
theorem escapeByte_ne {e b : UInt8} (h : escapeByte e = some b) : e ≠ ch 'u' := by
  rintro rfl
  have hnone : escapeByte (ch 'u') = none := by decide
  rw [hnone] at h
  exact absurd h (by simp)

/-- There is one way to read a literal. -/
theorem Lexes.unique {s rest rest' : Bytes} {items items' : List Item} (h : Lexes s items rest)
    (h' : Lexes s items' rest') : items = items' ∧ rest = rest' := by
  induction h generalizing items' rest' with
  | close =>
    cases h' with
    | close => exact ⟨rfl, rfl⟩
    | raw hquote _ _ => exact absurd rfl hquote
  | raw hquote hslash _ ih =>
    cases h' with
    | close => exact absurd rfl hquote
    | raw _ _ htail =>
      obtain ⟨rfl, rfl⟩ := ih htail
      exact ⟨rfl, rfl⟩
    | escape => exact absurd rfl hslash
    | unicode => exact absurd rfl hslash
  | escape hb _ ih =>
    cases h' with
    | raw _ hslash _ => exact absurd rfl hslash
    | escape hb' htail =>
      obtain ⟨rfl, rfl⟩ := ih htail
      rw [hb, Option.some_inj] at hb'
      rw [hb']
      exact ⟨rfl, rfl⟩
    | unicode => exact absurd rfl (escapeByte_ne hb)
  | unicode hu _ ih =>
    cases h' with
    | raw _ hslash _ => exact absurd rfl hslash
    | escape hb => exact absurd rfl (escapeByte_ne hb)
    | unicode hu' htail =>
      obtain ⟨rfl, rfl⟩ := ih htail
      rw [hu.unique hu']
      exact ⟨rfl, rfl⟩

/-- What the parser reads is a literal. -/
theorem lexes_of_parseChars {s out rest : Bytes} (h : parseChars s = .ok (out, rest)) :
    ∃ items, Lexes s items rest := by
  fun_induction parseChars s generalizing out with
  | case2 s =>
    rw [← rest_eq h]
    exact ⟨[], .close⟩
  | case6 =>
    -- A high surrogate, and the escape that is read with it.
    rename_i hpair _ hlo _ hhi ih
    obtain ⟨out', hrest⟩ := prepend_eq_ok h
    obtain ⟨items, hitems⟩ := ih hrest
    obtain ⟨-, rfl, rfl⟩ := hpair
    exact ⟨_, .unicode (hexLoop_eq_ok_iff.mp hhi) (.unicode (hexLoop_eq_ok_iff.mp hlo) hitems)⟩
  | case7 | case8 =>
    rename_i hcp ih
    obtain ⟨out', hrest⟩ := prepend_eq_ok h
    obtain ⟨items, hitems⟩ := ih hrest
    exact ⟨_, .unicode (hexLoop_eq_ok_iff.mp hcp) hitems⟩
  | case10 =>
    rename_i hb _ ih
    obtain ⟨out', hrest⟩ := prepend_eq_ok h
    obtain ⟨items, hitems⟩ := ih hrest
    exact ⟨_, .escape hb hitems⟩
  | case12 =>
    rename_i hquote hslash ih
    obtain ⟨out', hrest⟩ := prepend_eq_ok h
    obtain ⟨items, hitems⟩ := ih hrest
    exact ⟨_, .raw hquote hslash hitems⟩
  | _ => simp at h

/-- An escape on its own: it is no high surrogate, or no escape follows. -/
theorem parseChars_lone {a b c d : UInt8} {s : Bytes} {cp : ℕ} (hcp : HexUnit a b c d cp)
    (hlone : isHighSurrogate cp = true → ∀ t, s ≠ ch '\\' :: ch 'u' :: t) :
    parseChars (ch '\\' :: ch 'u' :: a :: b :: c :: d :: s) =
      prepend (utf8 cp) (parseChars s) := by
  rw [← appendUtf8_eq (lt_trans hcp.lt (by norm_num)), parseChars.eq_def]
  dsimp only
  rw [if_neg (by decide), if_pos rfl, if_pos rfl, hexLoop_eq_ok_iff.mpr hcp]
  dsimp only
  split
  · rw [if_neg]
    rintro ⟨hhigh, rfl, rfl⟩
    exact hlone hhigh _ rfl
  · rfl

/-- A high surrogate and the escape after it. -/
theorem parseChars_pair {a b c d a' b' c' d' : UInt8} {s : Bytes} {hi lo : ℕ}
    (hhi : HexUnit a b c d hi) (hlo : HexUnit a' b' c' d' lo) (hhigh : isHighSurrogate hi = true) :
    parseChars (ch '\\' :: ch 'u' :: a :: b :: c :: d :: ch '\\' :: ch 'u' :: a' :: b' :: c' ::
      d' :: s) = prepend (utf8 (pairCodePoint hi lo)) (parseChars s) := by
  have hlt : pairCodePoint hi lo < 0x110000 := by
    have hhi' := hhi.lt
    simp only [isHighSurrogate, Bool.and_eq_true, decide_eq_true_iff] at hhigh
    rw [pairCodePoint]
    split
    · next hlow =>
      simp only [isLowSurrogate, Bool.and_eq_true, decide_eq_true_iff] at hlow
      rw [Nat.shiftLeft_eq]
      omega
    · omega
  rw [← appendUtf8_eq hlt, parseChars.eq_def]
  dsimp only
  rw [if_neg (by decide), if_pos rfl, if_pos rfl, hexLoop_eq_ok_iff.mpr hhi]
  dsimp only
  rw [if_pos ⟨hhigh, rfl, rfl⟩, hexLoop_eq_ok_iff.mpr hlo]

/-- **A literal** is read part by part, the escape after a high surrogate with it. -/
theorem parseChars_of_lexes {s rest : Bytes} {items : List Item} (h : Lexes s items rest) :
    parseChars s = .ok (read items, rest) := by
  induction hlen : items.length using Nat.strong_induction_on generalizing s items with
  | _ n ih =>
  cases h with
  | close =>
    rw [parseChars.eq_def]
    rfl
  | raw hquote hslash htail =>
    rw [parseChars_raw hquote hslash, ih _ (by rw [← hlen]; exact Nat.lt_succ_self _) htail rfl]
    rfl
  | escape hb htail =>
    rw [parseChars_escape (escapeByte_ne hb) hb,
      ih _ (by rw [← hlen]; exact Nat.lt_succ_self _) htail rfl]
    rfl
  | unicode hu htail =>
    rename_i a b c d u t items
    have hread := ih _ (by rw [← hlen]; exact Nat.lt_succ_self _) htail rfl
    -- What comes next decides whether the escape is read on its own.
    cases htail with
    | close =>
      rw [parseChars_lone hu (by rintro - t ⟨⟩), hread]
      simp [prepend, Except.map, read]
    | raw hquote hslash htail =>
      rw [parseChars_lone hu fun _ t heq => hslash (List.cons.inj heq).1, hread]
      rfl
    | escape hb htail =>
      rw [parseChars_lone hu fun _ t heq =>
        escapeByte_ne hb (List.cons.inj (List.cons.inj heq).2).1, hread]
      rfl
    | unicode hlo htail =>
      by_cases hhigh : isHighSurrogate u = true
      · rw [parseChars_pair hu hlo hhigh, ih _ (by
          rw [← hlen, List.length_cons, List.length_cons]; omega) htail rfl, read, if_pos hhigh]
        rfl
      · rw [parseChars_lone hu fun h => absurd h hhigh, hread, read, if_neg hhigh]
        rfl

/-- The reader of a string accepts what lexes, and gives what it reads. -/
theorem parseChars_eq_ok_iff {s out rest : Bytes} :
    parseChars s = .ok (out, rest) ↔ ∃ items, Lexes s items rest ∧ out = read items := by
  constructor
  · intro h
    obtain ⟨items, hitems⟩ := lexes_of_parseChars h
    have hread := parseChars_of_lexes hitems
    rw [h, Except.ok.injEq, Prod.mk.injEq] at hread
    exact ⟨items, hitems, hread.1⟩
  · rintro ⟨items, hitems, rfl⟩
    exact parseChars_of_lexes hitems

/-! ### What is lost -/

/-- High surrogates lie between U+D800 and U+DBFF. -/
theorem isHighSurrogate_bounds {u : ℕ} (h : isHighSurrogate u = true) :
    0xD800 ≤ u ∧ u ≤ 0xDBFF := by
  simpa only [isHighSurrogate, Bool.and_eq_true, decide_eq_true_iff] using h

/-- Low surrogates lie between U+DC00 and U+DFFF. -/
theorem isLowSurrogate_bounds {u : ℕ} (h : isLowSurrogate u = true) :
    0xDC00 ≤ u ∧ u ≤ 0xDFFF := by
  simpa only [isLowSurrogate, Bool.and_eq_true, decide_eq_true_iff] using h

/-- No surrogate is both. -/
theorem not_high_of_low {u : ℕ} (h : isLowSurrogate u = true) : ¬ isHighSurrogate u = true := by
  intro hhigh
  have hbounds := isLowSurrogate_bounds h
  have hbounds' := isHighSurrogate_bounds hhigh
  omega

/-- A high and a low surrogate make up their code point. -/
theorem pairCodePoint_low {hi lo : ℕ} (h : isLowSurrogate lo = true) :
    pairCodePoint hi lo = combined hi lo := by
  rw [pairCodePoint, if_pos h, Nat.shiftLeft_eq]
  rfl

/-- A unit that is no high surrogate stands for itself. -/
theorem decode_unit {u : ℕ} (h : ¬ isHighSurrogate u = true) (items : List Item) :
    decode (.unit u :: items) = utf8 u ++ decode items := by
  cases items with
  | nil => simp [decode]
  | cons item items =>
    cases item with
    | byte b => rw [decode.eq_4]
    | unit lo =>
      rw [decode.eq_5, if_neg]
      rintro ⟨hhigh, -⟩
      exact h hhigh

/-- A code unit more is a byte more at least. -/
theorem decode_length_lt (u : ℕ) (items : List Item) :
    (decode items).length < (decode (.unit u :: items)).length := by
  have hpos := utf8_length_pos u
  cases items with
  | nil =>
    rw [decode, decode]
    exact hpos
  | cons item items =>
    cases item with
    | byte b =>
      rw [decode.eq_4, List.length_append]
      omega
    | unit lo =>
      rw [decode.eq_5]
      split
      · next hpair =>
        -- The low surrogate alone is three bytes, with the high one it is four.
        obtain ⟨-, hlow⟩ := hpair
        have hbounds := isLowSurrogate_bounds hlow
        have hthree : (utf8 lo).length = 3 :=
          utf8_length_three (by omega) (by omega)
        have hfour : (utf8 (combined u lo)).length = 4 := by
          apply utf8_length_four
          unfold combined
          omega
        rw [decode_unit (not_high_of_low hlow), List.length_append, List.length_append, hthree,
          hfour]
        omega
      · rw [List.length_append]
        omega

/-- The parser makes nothing of an escape, never more than it stands for. -/
theorem read_length_le (items : List Item) : (read items).length ≤ (decode items).length := by
  fun_induction read items with
  | case1 => exact le_refl _
  | case2 b items ih =>
    rw [decode, List.length_cons, List.length_cons]
    omega
  | case3 u => rw [decode]
  | case4 u b items ih =>
    rw [decode.eq_4, List.length_append, List.length_append]
    omega
  | case5 hi lo items hhigh ih =>
    rw [List.length_append, decode.eq_5]
    split
    · next hpair =>
      rw [pairCodePoint_low hpair.2, List.length_append]
      omega
    · next hpair =>
      have hlow : ¬ isLowSurrogate lo = true := fun h => hpair ⟨hhigh, h⟩
      have hlt := decode_length_lt lo items
      rw [pairCodePoint, if_neg hlow, List.length_append]
      omega
  | case6 hi lo items hhigh ih =>
    rw [decode_unit hhigh, List.length_append, List.length_append]
    omega

/-- **What is read is what the literal stands for** where the escape after every high surrogate is
    a low one. -/
theorem read_eq_decode_iff (items : List Item) :
    read items = decode items ↔ items.IsChain PairsUp := by
  -- Item by item, as the reader goes; only a high surrogate looks at the item behind it.
  fun_induction read items with
  | case1 => exact iff_of_true rfl .nil
  | case2 b items ih =>
    rw [decode, List.cons.injEq, eq_self, true_and, ih]
    cases items with
    | nil => exact iff_of_true .nil (.singleton _)
    | cons item items =>
      rw [List.isChain_cons_cons]
      exact (and_iff_right trivial).symm
  | case3 u => exact iff_of_true rfl (.singleton _)
  | case4 u b items ih =>
    rw [decode.eq_4, List.append_cancel_left_eq, ih, List.isChain_cons_cons]
    exact (and_iff_right trivial).symm
  | case5 hi lo items hhigh ih =>
    rw [List.isChain_cons_cons]
    by_cases hlow : isLowSurrogate lo = true
    · -- They pair up, and the low one asks nothing of what comes next.
      rw [decode.eq_5, if_pos ⟨hhigh, hlow⟩, pairCodePoint_low hlow, List.append_cancel_left_eq, ih]
      have hnext : (Item.unit lo :: items).IsChain PairsUp ↔ items.IsChain PairsUp := by
        cases items with
        | nil => exact iff_of_true (.singleton _) .nil
        | cons item items =>
          rw [List.isChain_cons_cons]
          refine and_iff_right ?_
          cases item with
          | byte b => trivial
          | unit u => exact fun h => absurd h (not_high_of_low hlow)
      rw [hnext]
      exact (and_iff_right fun _ => hlow).symm
    · -- The escape is dropped: the result is too short.
      rw [decode.eq_5, if_neg fun h => hlow h.2, pairCodePoint, if_neg hlow,
        List.append_cancel_left_eq]
      refine iff_of_false ?_ fun h => hlow (h.1 hhigh)
      intro heq
      have hle := read_length_le items
      have hlt := decode_length_lt lo items
      rw [heq] at hle
      omega
  | case6 hi lo items hhigh ih =>
    rw [decode_unit hhigh, List.append_cancel_left_eq, ih, List.isChain_cons_cons]
    exact (and_iff_right fun h => absurd h hhigh).symm

/-- Where `parseString` succeeds on a text, its result is what the literal stands for. -/
def LosesNothing (s : Bytes) : Prop :=
  ∀ out rest, parseChars s = .ok (out, rest) → ∃ items, Lexes s items rest ∧ out = decode items

/-- **String literals.** Nothing of a literal is lost exactly when every escape right after a high
    surrogate is a low surrogate. -/
theorem losesNothing_iff (s : Bytes) :
    LosesNothing s ↔ ∀ items rest, Lexes s items rest → items.IsChain PairsUp := by
  constructor
  · intro hall items rest hitems
    obtain ⟨items', hitems', hread⟩ := hall _ _ (parseChars_of_lexes hitems)
    rw [(hitems'.unique hitems).1] at hread
    exact (read_eq_decode_iff items).mp hread
  · intro hpairs out rest hok
    obtain ⟨items, hitems, rfl⟩ := parseChars_eq_ok_iff.mp hok
    exact ⟨items, hitems, (read_eq_decode_iff items).mpr (hpairs items rest hitems)⟩

/-- The letter A after an unpaired high surrogate, both written as escapes, is dropped. -/
theorem loses_after_surrogate : ¬ LosesNothing (bytes "\\uD800\\u0041\"") := by
  intro hall
  have hlex : Lexes (bytes "\\uD800\\u0041\"") [.unit 0xD800, .unit 0x41] [] := by
    refine .unicode ?_ (.unicode ?_ .close)
    · exact ⟨13, 8, 0, 0, by decide, by decide, by decide, by decide, by decide⟩
    · exact ⟨0, 0, 4, 1, by decide, by decide, by decide, by decide, by decide⟩
  obtain ⟨items, hitems, hout⟩ := hall _ _ (parseChars_of_lexes hlex)
  rw [(hitems.unique hlex).1] at hout
  exact absurd hout (by decide)

end Json

end InfinityClicker
