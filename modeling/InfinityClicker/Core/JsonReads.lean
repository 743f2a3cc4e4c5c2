import InfinityClicker.Core.Json

namespace InfinityClicker

namespace Json

/-!
# The parser's loops end

Every part of the parser reads at least a byte when it succeeds, so the loop over the elements of
an array or an object comes to its end before its rounds are used up.

* `Consumes` — a part of the parser leaves fewer bytes than it was given;
* `parseValue_consumes` — the parser does;
* `parseElems_rounds` — rounds past the number of bytes make no difference.
-/

/-- What succeeds has read something. -/
def Consumes {α : Type} (p : Bytes → Parsed (α × Bytes)) : Prop :=
  ∀ ⦃s x rest⦄, p s = .ok (x, rest) → rest.length < s.length

/-- A sequence of two parts succeeds when both do. -/
theorem parsed_bind {α β : Type} {p : Parsed α} {f : α → Parsed β} {r : β} :
    (p >>= f) = .ok r ↔ ∃ a, p = .ok a ∧ f a = .ok r := by
  cases p with
  | error e => simp [bind, Except.bind]
  | ok a => simp [bind, Except.bind]

/-- What is left of the text is part of the result. -/
theorem rest_eq {α : Type} {x y : α} {s t : Bytes}
    (h : (.ok (x, s) : Parsed (α × Bytes)) = .ok (y, t)) : s = t := by
  injection h with h
  exact (Prod.mk.inj h).2

/-- A failure is no result. -/
@[simp] theorem fail_ne_ok {α : Type} (msg : String) (s : Bytes) (x : α) :
    fail msg s ≠ .ok x := by
  intro h
  injection h

/-- White space is only skipped. -/
theorem skipWs_length (inComment : Bool) (s : Bytes) :
    (skipWs inComment s).length ≤ s.length := by
  induction s generalizing inComment with
  | nil => cases inComment <;> exact le_refl 0
  | cons c s ih =>
    cases inComment with
    | true =>
      have htail := ih (c != ch '\n')
      show (skipWs (c != ch '\n') s).length ≤ s.length + 1
      omega
    | false =>
      rw [skipWs]
      split
      · have htail := ih false
        show (skipWs false s).length ≤ s.length + 1
        omega
      · split
        · have htail := ih true
          show (skipWs true s).length ≤ s.length + 1
          omega
        · exact le_refl _

/-! ### Scalars -/

/-- A token and its rest make up the text. -/
theorem tokenTail_append (prev : Option UInt8) (s : Bytes) :
    (tokenTail prev s).1 ++ (tokenTail prev s).2 = s := by
  induction s generalizing prev with
  | nil => rfl
  | cons c s ih =>
    rw [tokenTail]
    split
    · show c :: ((tokenTail (some c) s).1 ++ (tokenTail (some c) s).2) = c :: s
      rw [ih]
    · rfl

/-- A number's token and the bytes after it are the text. -/
theorem numberToken_append (s : Bytes) : (numberToken s).1 ++ (numberToken s).2 = s := by
  cases s with
  | nil => rfl
  | cons c s =>
    rw [numberToken]
    split
    · show c :: ((tokenTail (some c) s).1 ++ (tokenTail (some c) s).2) = c :: s
      rw [tokenTail_append]
    · exact tokenTail_append none (c :: s)

/-- A number takes some text. -/
theorem parseNumber_consumes : Consumes parseNumber := by
  intro s v rest h
  have hsplit := congrArg List.length (numberToken_append s)
  rw [List.length_append] at hsplit
  unfold parseNumber at h
  by_cases hdigit : (numberToken s).1.any isDigit = true
  · have hpos : (numberToken s).1 ≠ [] := by
      intro hnil
      simp [hnil] at hdigit
    have hlen := List.length_pos_of_ne_nil hpos
    have hrest : (numberToken s).2 = rest := by
      simp only [hdigit, if_true] at h
      split at h
      · exact rest_eq h
      · simp at h
    rw [← hrest]
    omega
  · simp [hdigit] at h

/-- So does a literal. -/
theorem literal_consumes {word : String} {v : Value} (hword : 0 < (bytes word).length) :
    Consumes (literal word v) := by
  intro s x rest h
  unfold literal at h
  split at h
  · next htake =>
    have hrest := rest_eq h
    have hlen := congrArg List.length htake
    rw [List.length_take] at hlen
    rw [← hrest, List.length_drop]
    omega
  · simp at h

/-- What is left does not depend on what is put in front of the result. -/
theorem prepend_eq_ok {s : Bytes} {p : Parsed (Bytes × Bytes)} {out rest : Bytes}
    (h : prepend s p = .ok (out, rest)) : ∃ out', p = .ok (out', rest) := by
  cases p with
  | error e => simp [prepend, Except.map] at h
  | ok r =>
    simp only [prepend, Except.map, Except.ok.injEq, Prod.mk.injEq] at h
    exact ⟨r.1, by rw [← h.2]⟩

/-- So does a string, of which the quote is already taken. -/
theorem parseChars_consumes : Consumes parseChars := by
  intro s
  fun_induction parseChars s with
  | case2 s =>
    intro out rest h
    have hrest := rest_eq h
    rw [← hrest]
    exact Nat.lt_succ_self _
  | case6 | case7 | case8 | case10 | case12 =>
    -- An escape or a raw byte: the string goes on with the bytes after it.
    rename_i ih
    intro out rest h
    obtain ⟨out', h'⟩ := prepend_eq_ok h
    have hlt := ih h'
    simp only [List.length_cons] at hlt ⊢
    omega
  | _ => simp

/-! ### Arrays and objects -/

/-- So do the elements of a list. -/
theorem parseElems_consumes {α : Type} {elem : Bytes → Parsed (α × Bytes)} {close : UInt8}
    {unterminated expected : String} (helem : Consumes elem) (rounds : ℕ) :
    Consumes (parseElems elem close unterminated expected rounds) := by
  induction rounds with
  | zero =>
    intro s xs rest h
    simp [parseElems] at h
  | succ rounds ih =>
    intro s xs rest h
    rw [parseElems, parsed_bind] at h
    obtain ⟨⟨x, s₁⟩, hx, h⟩ := h
    have hfirst := helem hx
    have hskip := skipWs_length false s
    have hskip₁ := skipWs_length false s₁
    dsimp only at h
    split at h
    · simp at h
    · next c s₂ hs₁ =>
      rw [hs₁, List.length_cons] at hskip₁
      split at h
      -- A comma: another element follows, or the list is closed behind it.
      · have hskip₂ := skipWs_length false s₂
        split at h
        · have hrest := rest_eq h
          rw [← hrest, List.length_tail]
          omega
        · obtain ⟨⟨xs', s₃⟩, hxs, h⟩ := parsed_bind.mp h
          have htail := ih hxs
          have hrest := rest_eq h
          rw [← hrest]
          show s₃.length < s.length
          omega
      · split at h
        · have hrest := rest_eq h
          rw [← hrest]
          omega
        · simp at h

/-- **The loop comes to its end** before its rounds do: with more rounds than there are bytes their
    number makes no difference. -/
theorem parseElems_rounds {α : Type} {elem : Bytes → Parsed (α × Bytes)} {close : UInt8}
    {unterminated expected : String} (helem : Consumes elem) {m n : ℕ} {s : Bytes}
    (hm : s.length < m) (hn : s.length < n) :
    parseElems elem close unterminated expected m s =
      parseElems elem close unterminated expected n s := by
  induction m generalizing n s with
  | zero => omega
  | succ m ih =>
    cases n with
    | zero => omega
    | succ n =>
      rw [parseElems, parseElems]
      cases hx : elem (skipWs false s) with
      | error e => rfl
      | ok r =>
        have hfirst := helem hx
        have hskip := skipWs_length false s
        have hskip₁ := skipWs_length false r.2
        cases hs₁ : skipWs false r.2 with
        | nil => simp [bind, Except.bind, hs₁]
        | cons c s₂ =>
          rw [hs₁, List.length_cons] at hskip₁
          have hskip₂ := skipWs_length false s₂
          have hrest := ih (n := n) (s := skipWs false s₂) (by omega) (by omega)
          simp only [bind, Except.bind, hs₁, hrest]

/-- A list takes no more than there is. -/
theorem parseList_length {α : Type} {elem : Bytes → Parsed (α × Bytes)} {close : UInt8}
    {unterminated expected : String} (helem : Consumes elem) {s rest : Bytes} {xs : List α}
    (h : parseList elem close unterminated expected s = .ok (xs, rest)) :
    rest.length ≤ s.length := by
  have hskip := skipWs_length false s
  unfold parseList at h
  dsimp only at h
  split at h
  · have hrest := rest_eq h
    rw [← hrest, List.length_tail]
    omega
  · have hlt := parseElems_consumes helem _ h
    omega

/-- Nor does an array. -/
theorem parseArray_length {item : Bytes → Parsed (Value × Bytes)} (hitem : Consumes item)
    {s rest : Bytes} {v : Value} (h : parseArray item s = .ok (v, rest)) :
    rest.length ≤ s.length := by
  obtain ⟨⟨a, s₁⟩, ha, h⟩ := parsed_bind.mp h
  have hrest := rest_eq h
  rw [← hrest]
  exact parseList_length hitem ha

/-- A member takes some text. -/
theorem parseMember_consumes {item : Bytes → Parsed (Value × Bytes)} (hitem : Consumes item) :
    Consumes (parseMember item) := by
  intro s m rest h
  unfold parseMember at h
  split at h
  · simp at h
  · obtain ⟨⟨key, s₁⟩, hkey, h⟩ := parsed_bind.mp h
    have hlt := parseChars_consumes hkey
    have hskip := skipWs_length false s₁
    dsimp only at h
    split at h
    · simp at h
    · obtain ⟨⟨v, s₂⟩, hv, h⟩ := parsed_bind.mp h
      have hlt₂ := hitem hv
      have hskip₂ := skipWs_length false (skipWs false s₁).tail
      have hrest := rest_eq h
      rw [List.length_tail] at hlt hskip₂
      rw [← hrest]
      show s₂.length < s.length
      omega

/-- An object takes no more than there is. -/
theorem parseObject_length {item : Bytes → Parsed (Value × Bytes)} (hitem : Consumes item)
    {s rest : Bytes} {v : Value} (h : parseObject item s = .ok (v, rest)) :
    rest.length ≤ s.length := by
  obtain ⟨⟨o, s₁⟩, ho, h⟩ := parsed_bind.mp h
  have hrest := rest_eq h
  rw [← hrest]
  exact parseList_length (parseMember_consumes hitem) ho

/-- **A value that is parsed** takes at least a byte. -/
theorem parseValue_consumes (left : ℕ) : Consumes (parseValue left) := by
  induction left with
  | zero =>
    intro s v rest h
    simp [parseValue] at h
  | succ left ih =>
    intro s v rest h
    cases s with
    | nil => simp [parseValue] at h
    | cons c s =>
      rw [parseValue] at h
      split at h
      · have hle := parseObject_length ih h
        exact Nat.lt_succ_of_le hle
      split at h
      · have hle := parseArray_length ih h
        exact Nat.lt_succ_of_le hle
      split at h
      · obtain ⟨⟨str, s₁⟩, hstr, h⟩ := parsed_bind.mp h
        have hlt := parseChars_consumes hstr
        have hrest := rest_eq h
        rw [← hrest]
        exact Nat.lt_succ_of_lt hlt
      split at h
      · exact literal_consumes (by decide) h
      split at h
      · exact literal_consumes (by decide) h
      split at h
      · exact literal_consumes (by decide) h
      · exact parseNumber_consumes h

end Json

end InfinityClicker
