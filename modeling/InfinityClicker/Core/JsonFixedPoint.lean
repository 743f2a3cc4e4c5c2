import InfinityClicker.Core.NumberText

namespace InfinityClicker

namespace Json

/-!
# Printing what was read

A text is read back as the tree with every number replaced by the one nearest to its text, and
printing that tree gives the text again where every number keeps its own.  The layout has no part
in it: it depends on the shape of the tree alone.

* `readsNumber` — what becomes of a number, with `writeNumber_readBack_iff`;
* `write_mapNumbers` — two trees of one shape have one text where their numbers do;
* `stringify_parse_iff` — the trees whose text one write and one read leave as it is.
-/

/-! ### Numbers -/

theorem generalText_head (neg : Bool) (d : ℤ × ℤ) :
    ∃ c s, generalText neg d = c :: s ∧ (isDigit c = true ∨ c = ch '-') := by
  obtain ⟨c, ds, hds⟩ := List.exists_cons_of_ne_nil (decimal_ne_nil d.1.toNat)
  have hc : isDigit c = true := isDigit_decimal (n := d.1.toNat) (by simp [hds])
  rw [generalText]
  cases neg with
  | true => exact ⟨ch '-', _, rfl, .inr rfl⟩
  | false =>
    rw [hds, if_neg Bool.false_ne_true, List.nil_append]
    split
    · exact ⟨c, _, rfl, .inl hc⟩
    · split
      · exact ⟨ch '0', _, rfl, .inl (by decide)⟩
      · exact ⟨c, _, rfl, .inl hc⟩

/-- What is printed for a number starts like one. -/
theorem writeNumber_head (n : ℚ) :
    ∃ c s, writeNumber n = c :: s ∧ (isDigit c = true ∨ c = ch '-') := by
  rw [writeNumber]
  split
  · exact writeInt_head _
  · rw [writeGeneral_eq]
    exact generalText_head _ _

/-- **A number** is read as the double nearest to its text, where that is finite. -/
theorem readsNumber (n : ℚ) : ReadsNumber readBack (fun n => Binary64.IsFinite (printed n)) n := by
  obtain ⟨c, s, hcs, hc⟩ := writeNumber_head n
  constructor
  · rw [hcs]
    exact ⟨c, rfl, startByte_number hc⟩
  · intro left rest hr
    have hread := parseNumber_decimal (isDecimal_writeNumber n) hr
    have hnumber : parseValue (left + 1) (writeNumber n ++ rest) =
        parseNumber (writeNumber n ++ rest) := by
      rw [hcs, List.cons_append, parseValue_number hc]
    rw [hnumber, hread]
    constructor
    · intro hfinite
      rw [if_pos hfinite]
      rfl
    · intro hinfinite
      rw [if_neg hinfinite]
      exact ⟨_, rfl⟩

/-! ### One shape, two texts -/

theorem isFlat_map (f : ℚ → ℚ) (a : List Value) :
    isFlat (a.map (Value.mapNumbers f)) = isFlat a := by
  have hkind : ∀ v : Value, (v.mapNumbers f).isArray = v.isArray ∧
      (v.mapNumbers f).isObject = v.isObject := by
    intro v
    cases v <;> exact ⟨rfl, rfl⟩
  rw [isFlat, isFlat, List.length_map, List.all_map]
  congr 2
  funext v
  simp only [Function.comp_apply, hkind v]

/-- An array's text around its items'. -/
theorem write_array (pretty : Bool) (indent : ℕ) {a : List Value} (ha : a ≠ []) :
    write pretty indent (.array a) =
      ch '[' :: (joinElems (if isFlat a && pretty then bytes ", " else bytes ",")
        (if isFlat a then [] else newline pretty (indent + 1))
        (a.map (write pretty (indent + 1))) ++
          ((if isFlat a then [] else newline pretty indent) ++ [ch ']'])) := by
  rw [write, if_neg (by simpa using ha), writeItems_eq]
  dsimp only
  rw [List.append_assoc]
  rfl

/-- An object's text around its members'. -/
theorem write_object (pretty : Bool) (indent : ℕ) {o : List (Bytes × Value)} (ho : o ≠ []) :
    write pretty indent (.object o) =
      ch '{' :: (joinElems (bytes ",") (newline pretty (indent + 1))
        (o.map (memberText pretty (indent + 1))) ++ (newline pretty indent ++ [ch '}'])) := by
  rw [write, if_neg (by simpa using ho), writeMembers_eq, List.append_assoc]
  rfl

/-- Elements with commas between them have one text where each has. -/
theorem joinElems_same {β : Type} {text text' : β → Bytes} {same : β → Prop} {sep lead : Bytes}
    (hsep : ∀ s, Ends (sep ++ s)) {xs : List β}
    (helem : ∀ x ∈ xs, ∀ s s', Ends s → Ends s' → text x ++ s = text' x ++ s' → same x ∧ s = s')
    {s s' : Bytes} (hs : Ends s) (hs' : Ends s')
    (h : joinElems sep lead (xs.map text) ++ s = joinElems sep lead (xs.map text') ++ s') :
    (∀ x ∈ xs, same x) ∧ s = s' := by
  induction xs with
  | nil => exact ⟨by simp, h⟩
  | cons x xs ih =>
    have hx := helem x (by simp)
    cases xs with
    | nil =>
      simp only [List.map_cons, List.map_nil, joinElems, List.append_assoc,
        List.append_cancel_left_eq] at h
      rw [List.forall_mem_singleton]
      exact hx s s' hs hs' h
    | cons y ys =>
      simp only [List.map_cons, joinElems, List.append_assoc, List.append_cancel_left_eq] at h
      obtain ⟨hsame, htail⟩ := hx _ _ (hsep _) (hsep _) h
      have hrest := ih (fun x hx => helem x (List.mem_cons_of_mem _ hx))
        (List.append_cancel_left htail)
      exact ⟨List.forall_mem_cons.mpr ⟨hsame, hrest.1⟩, hrest.2⟩

/-- **One text, one text for each number.** What follows a tree in the text does not matter, as long
    as no number goes on in it. -/
theorem same_of_write {f : ℚ → ℚ} {v : Value} {pretty : Bool} {indent : ℕ} {s s' : Bytes}
    (hs : Ends s) (hs' : Ends s')
    (h : write pretty indent (v.mapNumbers f) ++ s = write pretty indent v ++ s') :
    v.AllNumbers (fun n => writeNumber (f n) = writeNumber n) ∧ s = s' := by
  induction v using Value.induction generalizing indent s s' with
  | null => exact ⟨.null, List.append_cancel_left h⟩
  | bool b => exact ⟨.bool b, List.append_cancel_left h⟩
  | string str => exact ⟨.string str, List.append_cancel_left h⟩
  | number n =>
    -- Both tokens are taken from the one text.
    have htoken := numberToken_decimal (isDecimal_writeNumber (f n)) hs
    have htoken' := numberToken_decimal (isDecimal_writeNumber n) hs'
    have hboth : (writeNumber (f n), s) = (writeNumber n, s') := by
      rw [← htoken, ← htoken']
      exact congrArg numberToken h
    rw [Prod.mk.injEq] at hboth
    exact ⟨.number hboth.1, hboth.2⟩
  | array a ih =>
    rw [Value.allNumbers_array]
    rw [Value.mapNumbers_array] at h
    by_cases ha : a = []
    · subst ha
      exact ⟨by simp, List.append_cancel_left h⟩
    have hsep : ∀ s, Ends ((if isFlat a && pretty then bytes ", " else bytes ",") ++ s) := by
      intro s
      split <;> exact ends_cons (by decide)
    have htail : ∀ s,
        Ends ((if isFlat a then [] else newline pretty indent) ++ ([ch ']'] ++ s)) := by
      intro s
      have hclose : Ends ([ch ']'] ++ s) := ends_cons (by decide)
      split
      · exact hclose
      · exact Ends.spaces_append (spaces_newline pretty indent) hclose
    rw [write_array pretty indent ha, write_array pretty indent (by simpa using ha), isFlat_map,
      List.map_map, List.cons_append, List.cons_append, List.append_assoc, List.append_assoc,
      List.append_assoc, List.append_assoc] at h
    have hjoin := joinElems_same hsep (fun v hv s s' hs hs' => ih v hv hs hs') (htail s) (htail s')
      (List.cons.inj h).2
    exact ⟨hjoin.1, List.append_cancel_left (List.append_cancel_left hjoin.2)⟩
  | object o ih =>
    rw [Value.allNumbers_object]
    rw [Value.mapNumbers_object] at h
    by_cases ho : o = []
    · subst ho
      exact ⟨by simp, List.append_cancel_left h⟩
    have hsep : ∀ s, Ends (bytes "," ++ s) := fun s => ends_cons (by decide)
    have htail : ∀ s, Ends (newline pretty indent ++ ([ch '}'] ++ s)) :=
      fun s => Ends.spaces_append (spaces_newline pretty indent) (ends_cons (by decide))
    rw [write_object pretty indent ho, write_object pretty indent (by simpa using ho),
      List.map_map, List.cons_append, List.cons_append, List.append_assoc, List.append_assoc,
      List.append_assoc, List.append_assoc] at h
    have hmember : ∀ m ∈ o, ∀ s s', Ends s → Ends s' →
        memberText pretty (indent + 1) (m.1, m.2.mapNumbers f) ++ s =
          memberText pretty (indent + 1) m ++ s' →
        m.2.AllNumbers (fun n => writeNumber (f n) = writeNumber n) ∧ s = s' := by
      intro m hm s s' hs hs' heq
      simp only [memberText, List.append_assoc, List.append_cancel_left_eq] at heq
      exact ih m hm hs hs' heq
    have hjoin := joinElems_same hsep hmember (htail s) (htail s') (List.cons.inj h).2
    exact ⟨hjoin.1, List.append_cancel_left (List.append_cancel_left hjoin.2)⟩

/-- A text for each number, one text. -/
theorem write_of_same {f : ℚ → ℚ} {v : Value} (pretty : Bool) (indent : ℕ)
    (h : v.AllNumbers fun n => writeNumber (f n) = writeNumber n) :
    write pretty indent (v.mapNumbers f) = write pretty indent v := by
  induction v using Value.induction generalizing indent with
  | null | bool | string => rfl
  | number n => exact Value.allNumbers_number.mp h
  | array a ih =>
    rw [Value.allNumbers_array] at h
    by_cases ha : a = []
    · rw [ha]
      rfl
    have hitems : (a.map (Value.mapNumbers f)).map (write pretty (indent + 1)) =
        a.map (write pretty (indent + 1)) := by
      rw [List.map_map]
      exact List.map_congr_left fun v hv => ih v hv (indent + 1) (h v hv)
    rw [Value.mapNumbers_array, write_array pretty indent ha,
      write_array pretty indent (by simpa using ha), isFlat_map, hitems]
  | object o ih =>
    rw [Value.allNumbers_object] at h
    by_cases ho : o = []
    · rw [ho]
      rfl
    have hmembers : (o.map fun m => (m.1, m.2.mapNumbers f)).map (memberText pretty (indent + 1)) =
        o.map (memberText pretty (indent + 1)) := by
      rw [List.map_map]
      refine List.map_congr_left fun m hm => ?_
      show memberText pretty (indent + 1) (m.1, m.2.mapNumbers f) = memberText pretty (indent + 1) m
      rw [memberText, memberText, ih m hm (indent + 1) (h m hm)]
    rw [Value.mapNumbers_object, write_object pretty indent ho,
      write_object pretty indent (by simpa using ho), hmembers]

/-- **Two trees of one shape** have one text where their numbers do. -/
theorem write_mapNumbers (f : ℚ → ℚ) (v : Value) (pretty : Bool) (indent : ℕ) :
    write pretty indent (v.mapNumbers f) = write pretty indent v ↔
      v.AllNumbers fun n => writeNumber (f n) = writeNumber n := by
  constructor
  · intro h
    exact (same_of_write ends_nil ends_nil (congrArg (· ++ []) h)).1
  · exact write_of_same pretty indent

/-! ### Whole texts -/

theorem Value.AllNumbers.and {p q : ℚ → Prop} {v : Value} (hp : v.AllNumbers p)
    (hq : v.AllNumbers q) : v.AllNumbers fun n => p n ∧ q n := by
  induction hp with
  | null => exact .null
  | bool b => exact .bool b
  | number hn => exact .number ⟨hn, Value.allNumbers_number.mp hq⟩
  | string s => exact .string s
  | array _ ih => exact .array fun v hv => ih v hv (Value.allNumbers_array.mp hq v hv)
  | object _ ih => exact .object fun m hm => ih m hm (Value.allNumbers_object.mp hq m hm)

/-- Only the null value is printed as one. -/
theorem stringify_null {v : Value} {pretty : Bool}
    (h : stringify .null pretty = stringify v pretty) : v = .null := by
  rw [stringify, stringify] at h
  have hwrite : bytes "null" = write pretty 0 v := List.append_cancel_right h
  cases v with
  | null => rfl
  | bool b =>
    rw [write] at hwrite
    cases b <;> exact absurd hwrite (by decide)
  | number n =>
    obtain ⟨c, s, hcs, hc⟩ := writeNumber_head n
    rw [write, hcs] at hwrite
    rw [← (List.cons.inj hwrite).1] at hc
    exact absurd hc (by decide)
  | string s => exact absurd (List.cons.inj hwrite).1 (by decide)
  | array a =>
    by_cases ha : a = []
    · rw [ha, write, if_pos List.isEmpty_nil] at hwrite
      exact absurd hwrite (by decide)
    · rw [write_array pretty 0 ha] at hwrite
      exact absurd (List.cons.inj hwrite).1 (by decide)
  | object o =>
    by_cases ho : o = []
    · rw [ho, write, if_pos List.isEmpty_nil] at hwrite
      exact absurd hwrite (by decide)
    · rw [write_object pretty 0 ho] at hwrite
      exact absurd (List.cons.inj hwrite).1 (by decide)

/-- **Saving what was loaded** changes nothing for a tree all of whose numbers keep their text, and
    for no other. -/
theorem stringify_parse_iff (v : Value) (pretty : Bool) (hdepth : v.depth ≤ 64)
    (hv : v.AllNumbers Binary64.Representable) :
    stringify (parse (stringify v pretty)).value pretty = stringify v pretty ↔
      v.AllNumbers Keeps := by
  have hkeeps : v.AllNumbers Keeps ↔ v.AllNumbers fun n => Binary64.IsFinite (printed n) ∧
      writeNumber (readBack n) = writeNumber n :=
    ⟨fun h => (hv.and h).mono fun _ hn => (writeNumber_readBack_iff hn.1).mpr hn.2,
      fun h => (hv.and h).mono fun _ hn => (writeNumber_readBack_iff hn.1).mp hn.2⟩
  have hnumbers : v.AllNumbers (ReadsNumber readBack fun n => Binary64.IsFinite (printed n)) :=
    hv.mono fun n _ => readsNumber n
  obtain ⟨hread, hfail⟩ := parse_stringify_reads hnumbers hdepth pretty
  rw [hkeeps]
  by_cases hfinite : v.AllNumbers fun n => Binary64.IsFinite (printed n)
  · rw [(hread hfinite).2, stringify, stringify, List.append_cancel_right_eq, write_mapNumbers]
    exact ⟨fun h => hfinite.and h, fun h => h.mono fun _ hn => hn.2⟩
  · -- A number too large to be read: the whole text is not.
    rw [hfail hfinite]
    refine iff_of_false (fun h => ?_) fun h => hfinite (h.mono fun _ hn => hn.1)
    rw [stringify_null h] at hfinite
    exact hfinite .null

/-- A fraction and an integer past 53 bits. -/
theorem stringify_parse_array :
    stringify (parse (stringify (.array [.number (1 / 4), .number (2 ^ 60)]) true)).value true =
      stringify (.array [.number (1 / 4), .number (2 ^ 60)]) true := by
  refine (stringify_parse_iff _ true (by decide) (.array ?_)).mpr (.array ?_)
  · rw [List.forall_mem_cons, List.forall_mem_singleton]
    exact ⟨.number ⟨1, -2, by norm_num, by norm_num, by norm_num, by norm_num⟩,
      .number ⟨1, 60, by norm_num, by norm_num, by norm_num, by norm_num⟩⟩
  · rw [List.forall_mem_cons, List.forall_mem_singleton]
    refine ⟨.number ⟨.inr ?_, le_largest ?_⟩, .number ⟨.inl ?_, ?_⟩⟩
    · norm_num
    · norm_num
    · norm_num
    · have hpow : (10 : ℚ) ^ (20 : ℤ) ≤ 10 ^ (299 : ℤ) :=
        zpow_le_zpow_right₀ (by norm_num) (by norm_num)
      generalize (10 : ℚ) ^ (299 : ℤ) = largest at hpow ⊢
      norm_num at hpow ⊢
      linarith

/-- A fraction past ten digits is saved with an exponent, loaded as an integer, and saved in all its
    digits. -/
theorem stringify_changes_fraction :
    (Value.number (246913578025 / 2)).depth ≤ 64 ∧
    (Value.number (246913578025 / 2)).AllNumbers Binary64.Representable ∧
    stringify (parse (stringify (.number (246913578025 / 2)))).value ≠
      stringify (.number (246913578025 / 2)) := by
  have hsaved : stringify (.number (246913578025 / 2)) = bytes "1.23456789e+11\n" := by
    decide +kernel
  have hagain : stringify (parse (bytes "1.23456789e+11\n")).value = bytes "123456789000\n" := by
    decide +kernel
  refine ⟨by decide, .number ⟨246913578025, -1, by norm_num, by norm_num, by norm_num, ?_⟩, ?_⟩
  · norm_num
  · rw [hsaved, hagain]
    decide

end Json

end InfinityClicker
