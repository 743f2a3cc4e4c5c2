import InfinityClicker.Core.JsonFixedPoint

namespace InfinityClicker

namespace Json

/-!
# Trees that are stored and read back

A program stores a tree that it builds member by member, and reads it back with every number as its
text has it.

* `Value.AllNumbers.parse` — the numbers of a text are doubles;
* `Steady` — a number that keeps its text, with `Steady.readBack`: what is read back once is read
  back as it is;
* `ReadsAs` — what a tree is read back as, with a rule for each way to build one;
* `ReadsAs.parse` — that the parser does so.
-/

/-! ### The numbers of a text -/

section Doubles

open Value Binary64

/-- A number that is parsed is a `double`. -/
theorem parseNumber_onGrid {s rest : Bytes} {v : Value} (h : parseNumber s = .ok (v, rest)) :
    v.AllNumbers OnGrid := by
  unfold parseNumber at h
  dsimp only at h
  split at h
  · split at h
    · next n hn =>
      have hv : v = .number n := by
        simp only [Except.ok.injEq, Prod.mk.injEq] at h
        exact h.1.symm
      have hnearest : ∃ q, nearest q = n := by
        unfold strtod at hn
        split at hn
        · simp at hn
        · split at hn
          · exact ⟨_, Option.some.inj hn⟩
          · simp at hn
      obtain ⟨q, rfl⟩ := hnearest
      rw [hv]
      exact .number (onGrid_nearest q)
    · simp [fail] at h
  · simp [fail] at h

variable {α : Type} {elem : Bytes → Parsed (α × Bytes)} {close : UInt8}
  {unterminated expected : String} {good : α → Prop}

/-- What holds of every element that is read holds of all of them. -/
theorem parseElems_forall (helem : ∀ {s x rest}, elem s = .ok (x, rest) → good x) (rounds : ℕ)
    {s rest : Bytes} {xs : List α}
    (h : parseElems elem close unterminated expected rounds s = .ok (xs, rest)) :
    ∀ x ∈ xs, good x := by
  induction rounds generalizing s xs rest with
  | zero => simp [parseElems, fail] at h
  | succ rounds ih =>
    rw [parseElems, parsed_bind] at h
    obtain ⟨⟨x, s₁⟩, hx, h⟩ := h
    have hgood := helem hx
    have hone : ∀ y ∈ [x], good y := by simpa using hgood
    dsimp only at h
    split at h
    · simp [fail] at h
    · split at h
      · split at h
        · obtain ⟨rfl, -⟩ := Prod.mk.inj (Except.ok.inj h)
          exact hone
        · obtain ⟨⟨xs', s₃⟩, hxs, h⟩ := parsed_bind.mp h
          obtain ⟨rfl, -⟩ := Prod.mk.inj (Except.ok.inj h)
          exact List.forall_mem_cons.mpr ⟨hgood, ih hxs⟩
      · split at h
        · obtain ⟨rfl, -⟩ := Prod.mk.inj (Except.ok.inj h)
          exact hone
        · simp [fail] at h

/-- What holds of every element holds of a list. -/
theorem parseList_forall (helem : ∀ {s x rest}, elem s = .ok (x, rest) → good x)
    {s rest : Bytes} {xs : List α}
    (h : parseList elem close unterminated expected s = .ok (xs, rest)) : ∀ x ∈ xs, good x := by
  unfold parseList at h
  dsimp only at h
  split at h
  · obtain ⟨rfl, -⟩ := Prod.mk.inj (Except.ok.inj h)
    simp
  · exact parseElems_forall helem _ h

/-- The value of a member is on the grid when values are. -/
theorem parseMember_onGrid {item : Bytes → Parsed (Value × Bytes)}
    (hitem : ∀ {s v rest}, item s = .ok (v, rest) → v.AllNumbers OnGrid) {s rest : Bytes}
    {m : Bytes × Value} (h : parseMember item s = .ok (m, rest)) : m.2.AllNumbers OnGrid := by
  unfold parseMember at h
  split at h
  · simp [fail] at h
  · obtain ⟨⟨key, s₁⟩, -, h⟩ := parsed_bind.mp h
    dsimp only at h
    split at h
    · simp [fail] at h
    · obtain ⟨⟨v, s₂⟩, hv, h⟩ := parsed_bind.mp h
      obtain ⟨rfl, -⟩ := Prod.mk.inj (Except.ok.inj h)
      exact hitem hv

/-- A literal is on the grid when its value is. -/
theorem literal_onGrid {word : String} {v w : Value} (hw : w.AllNumbers OnGrid) {s rest : Bytes}
    (h : literal word w s = .ok (v, rest)) : v.AllNumbers OnGrid := by
  unfold literal at h
  split at h
  · obtain ⟨rfl, -⟩ := Prod.mk.inj (Except.ok.inj h)
    exact hw
  · simp [fail] at h

/-- Every number of a parsed tree is a `double`. -/
theorem parseValue_onGrid (left : ℕ) {s rest : Bytes} {v : Value}
    (h : parseValue left s = .ok (v, rest)) : v.AllNumbers OnGrid := by
  induction left generalizing s v rest with
  | zero => simp [parseValue, fail] at h
  | succ left ih =>
    cases s with
    | nil => simp [parseValue, fail] at h
    | cons c s =>
      -- By the first byte, as the parser goes: object, array, string, the literals, number.
      rw [parseValue] at h
      split at h
      · obtain ⟨⟨o, s₁⟩, ho, h⟩ := parsed_bind.mp h
        obtain ⟨rfl, -⟩ := Prod.mk.inj (Except.ok.inj h)
        exact .object (parseList_forall (parseMember_onGrid ih) ho)
      · split at h
        · obtain ⟨⟨a, s₁⟩, ha, h⟩ := parsed_bind.mp h
          obtain ⟨rfl, -⟩ := Prod.mk.inj (Except.ok.inj h)
          exact .array (parseList_forall ih ha)
        · split at h
          · obtain ⟨⟨str, s₁⟩, -, h⟩ := parsed_bind.mp h
            obtain ⟨rfl, -⟩ := Prod.mk.inj (Except.ok.inj h)
            exact .string str
          · split at h
            · exact literal_onGrid (.bool true) h
            · split at h
              · exact literal_onGrid (.bool false) h
              · split at h
                · exact literal_onGrid .null h
                · exact parseNumber_onGrid h

/-- **The numbers of a text** are doubles. -/
theorem parse_onGrid (text : Bytes) : (parse text).value.AllNumbers OnGrid := by
  have hrun : ∀ t, (run t).value.AllNumbers OnGrid := by
    intro t
    unfold run
    split
    · exact .null
    · next v s hv =>
      dsimp only
      split
      · exact parseValue_onGrid 65 hv
      · exact parseValue_onGrid 65 hv
  unfold parse
  split
  · exact hrun _
  · exact hrun _

end Doubles

/-! ### Numbers that keep their text -/

/-- The number is read back with its text. -/
def Steady (n : ℚ) : Prop :=
  Binary64.IsFinite (printed n) ∧ writeNumber (readBack n) = writeNumber n

/-- An integer of 53 bits is read back as it is. -/
theorem readBack_intCast {z : ℤ} (hz : |z| < 2 ^ 53) : readBack (z : ℚ) = z := by
  have hcast : |(z : ℚ)| < 2 ^ 53 := by exact_mod_cast hz
  rw [readBack, printed, if_pos ⟨by rw [Int.floor_intCast], hcast⟩, Binary64.nearest_intCast hz]

/-- Small integers are read back as they are. -/
theorem steady_intCast {z : ℤ} (hz : |z| < 2 ^ 53) : Steady (z : ℚ) := by
  have hcast : |(z : ℚ)| < 2 ^ 53 := by exact_mod_cast hz
  refine ⟨?_, by rw [readBack_intCast hz]⟩
  rw [printed, if_pos ⟨by rw [Int.floor_intCast], hcast⟩]
  exact Binary64.isFinite_intCast hz

/-- A positive double that ten digits show with a point, if it is read back as a positive one. -/
theorem steady_of_onGrid {a : ℚ} (hgrid : Binary64.OnGrid a) (ha : 0 < a)
    (hsmall : a < 9999999999 + 1 / 2) (hback : 0 < readBack a) : Steady a := by
  rw [Steady, writeNumber_pos ha, writeNumber_pos hback]
  by_cases hint : (⌊a⌋ : ℚ) = a
  · exact stable_integer false ha hint (by norm_num at hsmall ⊢; linarith)
  · have hvalue : printed a = DecimalRounding.value 9 (DecimalRounding.significant 9 a) := by
      rw [printed_pos ha, if_neg fun h => hint h.1]
    have hlarge := le_largest (a := a) (by norm_num at hsmall ⊢; linarith)
    refine ⟨?_, ?_⟩
    · rw [hvalue]
      exact (isFinite_significant_iff ha).mpr hlarge
    · rw [readBack, hvalue]
      exact stable_fraction false hgrid ha hint hsmall

/-- One text is printed for one number. -/
theorem printed_eq {m n : ℚ} (h : writeNumber m = writeNumber n) : printed m = printed n := by
  have hm := decimalValue_of_decimal (isDecimal_writeNumber m)
  have hn := decimalValue_of_decimal (isDecimal_writeNumber n)
  rw [h, hn] at hm
  exact (Option.some.inj hm).symm

/-- **What is read back once** is read back as it is. -/
theorem Steady.readBack_readBack {n : ℚ} (h : Steady n) : readBack (readBack n) = readBack n := by
  rw [readBack, printed_eq h.2]
  rfl

/-- A second reading changes nothing. -/
theorem Steady.readBack {n : ℚ} (h : Steady n) : Steady (readBack n) := by
  refine ⟨?_, by rw [h.readBack_readBack]⟩
  rw [printed_eq h.2]
  exact h.1

/-! ### What trees are read back as -/

/-- A tree of at most `d` levels under its root whose numbers keep their texts is read back as
    `w`. -/
structure ReadsAs (d : ℕ) (v w : Value) : Prop where
  steady : v.AllNumbers Steady
  value : v.mapNumbers readBack = w
  depth : v.depth ≤ d

namespace ReadsAs

variable {d : ℕ} {v v' w w' : Value}

/-- Booleans are read back as they are. -/
theorem bool (b : Bool) : ReadsAs d (.bool b) (.bool b) :=
  ⟨.bool b, rfl, Nat.zero_le d⟩

/-- Strings are read back as they are. -/
theorem string (s : Bytes) : ReadsAs d (.string s) (.string s) :=
  ⟨.string s, rfl, Nat.zero_le d⟩

/-- Steady numbers are read back as their reading. -/
theorem number {n : ℚ} (h : Steady n) : ReadsAs d (.number n) (.number (readBack n)) :=
  ⟨.number h, rfl, Nat.zero_le d⟩

/-- Small integers are read back as they are, in a tree. -/
theorem ofInt {z : ℤ} (hz : |z| < 2 ^ 53) : ReadsAs d (.ofInt z) (.ofInt z) := by
  have h := number (d := d) (steady_intCast hz)
  rw [readBack_intCast hz] at h
  rwa [Value.ofInt, Binary64.nearest_intCast hz]

/-- The empty object, to set members in. -/
theorem empty : ReadsAs d (.object []) (.object []) :=
  ⟨.object (by simp), rfl, Nat.zero_le d⟩

/-- Reading back goes past setting a member. -/
theorem mapMembers_setMember (k : Bytes) (v : Value) (o : List (Bytes × Value)) :
    (Value.setMember k v o).map (fun m => (m.1, m.2.mapNumbers readBack)) =
      Value.setMember k (v.mapNumbers readBack)
        (o.map fun m => (m.1, m.2.mapNumbers readBack)) := by
  induction o with
  | nil => rfl
  | cons m o ih =>
    rw [Value.setMember, List.map_cons, Value.setMember]
    split
    · rfl
    · rw [List.map_cons, ih]

/-- The members after setting one. -/
theorem mem_setMember {k : Bytes} {o : List (Bytes × Value)} {m : Bytes × Value}
    (h : m ∈ Value.setMember k v o) : m.2 = v ∨ m ∈ o := by
  induction o with
  | nil =>
    rw [Value.setMember, List.mem_singleton] at h
    rw [h]
    exact .inl rfl
  | cons m' o ih =>
    rw [Value.setMember] at h
    split at h
    · rcases List.mem_cons.mp h with rfl | hm
      · exact .inl rfl
      · exact .inr (List.mem_cons_of_mem _ hm)
    · rcases List.mem_cons.mp h with rfl | hm
      · exact .inr List.mem_cons_self
      · exact (ih hm).imp_right (List.mem_cons_of_mem _)

/-- Setting a member deepens a tree no more than the member does. -/
theorem depthMembers_setMember (k : Bytes) (v : Value) (o : List (Bytes × Value)) :
    Value.depthMembers (Value.setMember k v o) ≤ max (v.depth + 1) (Value.depthMembers o) := by
  induction o with
  | nil => simp [Value.setMember, Value.depthMembers]
  | cons m o ih =>
    rw [Value.setMember]
    split
    · simp only [Value.depthMembers]
      omega
    · simp only [Value.depthMembers]
      omega

/-- A member more, or a member replaced. -/
theorem set (h : ReadsAs (d + 1) v v') (hw : ReadsAs d w w') (k : Bytes) :
    ReadsAs (d + 1) (v.set k w) (v'.set k w') := by
  obtain ⟨hsteady, rfl, hdepth⟩ := h
  obtain ⟨hsteady', rfl, hdepth'⟩ := hw
  -- The old members are read back as they would be without the new one.
  have hmembers : (v.mapNumbers readBack).members =
      v.members.map fun m => (m.1, m.2.mapNumbers readBack) := by
    cases v with
    | object o =>
      rw [Value.mapNumbers_object]
      rfl
    | array a =>
      rw [Value.mapNumbers_array]
      rfl
    | _ => rfl
  have hlevels : Value.depthMembers v.members ≤ d + 1 := by
    cases v with
    | object o => exact hdepth
    | _ => simp [Value.members, Value.depthMembers]
  have hall : ∀ m ∈ v.members, m.2.AllNumbers Steady := by
    cases v with
    | object o => exact Value.allNumbers_object.mp hsteady
    | _ => simp [Value.members]
  refine ⟨.object fun m hm => ?_, ?_, ?_⟩
  · rcases mem_setMember hm with heq | hold
    · rw [heq]
      exact hsteady'
    · exact hall m hold
  · rw [Value.set, Value.set, Value.mapNumbers_object, mapMembers_setMember, hmembers]
  · have hset := depthMembers_setMember k w v.members
    show Value.depthMembers (Value.setMember k w v.members) ≤ d + 1
    omega

/-- An array of items. -/
theorem array {α : Type} {f g : α → Value} {xs : List α} (h : ∀ x ∈ xs, ReadsAs d (f x) (g x)) :
    ReadsAs (d + 1) (.array (xs.map f)) (.array (xs.map g)) := by
  refine ⟨.array ?_, ?_, ?_⟩
  · intro v hv
    obtain ⟨x, hx, rfl⟩ := List.mem_map.mp hv
    exact (h x hx).steady
  · rw [Value.mapNumbers_array, List.map_map]
    congr 1
    exact List.map_congr_left fun x hx => (h x hx).value
  · show Value.depthItems (xs.map f) ≤ d + 1
    induction xs with
    | nil => exact Nat.zero_le _
    | cons x xs ih =>
      have hx := (h x List.mem_cons_self).depth
      have hxs := ih fun y hy => h y (List.mem_cons_of_mem _ hy)
      rw [List.map_cons, Value.depthItems]
      omega

/-- **The parser** reads the tree back so. -/
theorem parse (h : ReadsAs 64 v w) (pretty : Bool) :
    (parse (stringify v pretty)).ok = true ∧ (parse (stringify v pretty)).value = w := by
  have hreads := parse_stringify_reads
    (h.steady.mono fun n _ => readsNumber n) h.depth pretty
  obtain ⟨hok, hvalue⟩ := hreads.1 (h.steady.mono fun _ hn => hn.1)
  exact ⟨hok, hvalue.trans h.value⟩

end ReadsAs

end Json

end InfinityClicker
