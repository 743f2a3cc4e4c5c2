import InfinityClicker.Core.JsonRoundTrip
import InfinityClicker.Core.Machine
import InfinityClicker.Profiles.ProfileStore

namespace InfinityClicker

open Json Machines

/-!
# The profile store keeps its names apart

Profiles are told apart by their names, and the active one is given by its name.

* `uniqueName_notMem` — with at most 9998 profiles `uniqueName` finds a name that none has;
* `repairNames_keeps` — the repair in `load` leaves every profile but for its name;
* `ProfileStore.Sound` — there is a profile, names differ and are not blank, and the active one is
  the name of exactly one profile;
* `store_sound` — after `load` and any operations of the profile manager.
-/

/-! ### Blank names -/

theorem trim_ne_nil {s : Bytes} {c : UInt8} (hc : c ∈ s) (hblank : isBlank c = false) :
    trim s ≠ [] := by
  intro htrim
  rw [trim, List.rdropWhile_eq_nil_iff] at htrim
  -- What is dropped in front is blank too.
  rw [← s.takeWhile_append_dropWhile (p := isBlank), List.mem_append] at hc
  rcases hc with hfront | hrest
  · have hyes := List.mem_takeWhile_imp hfront
    rw [hblank] at hyes
    exact Bool.false_ne_true hyes
  · have hyes := htrim c hrest
    rw [hblank] at hyes
    exact Bool.false_ne_true hyes

/-- What is left of a trim is not blank. -/
theorem trim_trim_ne_nil {s : Bytes} (h : trim s ≠ []) : trim (trim s) ≠ [] := by
  have hlast := List.rdropWhile_last_not isBlank (s.dropWhile isBlank) h
  rw [Bool.not_eq_true] at hlast
  exact trim_ne_nil (List.getLast_mem h) hlast

/-! ### Fresh names -/

/-- The names of profiles. -/
def names (profiles : List Profile) : List Bytes := profiles.map Profile.name

theorem any_name_iff (profiles : List Profile) (n : Bytes) :
    (profiles.any fun p => p.name == n) = true ↔ n ∈ names profiles := by
  simp [names]

/-- No zero byte is left. -/
theorem zero_notMem_cString (s : Bytes) : (0 : UInt8) ∉ cString s := by
  intro hmem
  have hne := List.mem_takeWhile_imp hmem
  exact absurd hne (by decide)

theorem zero_notMem_numbered (base : Bytes) (i : ℕ) : (0 : UInt8) ∉ numbered base i := by
  intro hmem
  simp only [numbered, List.mem_append] at hmem
  rcases hmem with ((hbase | hopen) | hdigit) | hclose
  · exact zero_notMem_cString base hbase
  · exact absurd hopen (by decide)
  · exact absurd (isDigit_decimal hdigit) (by decide)
  · exact absurd hclose (by decide)

theorem decimal_injective : Function.Injective decimal := by
  intro m n h
  rw [← digitsValue_decimal m, ← digitsValue_decimal n, h]

theorem numbered_injective (base : Bytes) : Function.Injective (numbered base) := by
  intro i j h
  unfold numbered at h
  exact decimal_injective (List.append_cancel_left (List.append_cancel_right h))

/-- A numbered name differs from its base. -/
theorem numbered_ne (base : Bytes) (i : ℕ) : numbered base i ≠ base := by
  intro h
  have hzero := zero_notMem_numbered base i
  rw [h] at hzero
  have hself : cString base = base := by
    rw [cString, List.takeWhile_eq_self_iff]
    intro c hc
    rw [bne_iff_ne]
    intro heq
    exact hzero (heq ▸ hc)
  have hlength := congrArg List.length h
  simp only [numbered, hself, List.length_append] at hlength
  have hopen : (bytes " (").length = 2 := rfl
  omega

/-- **A free name is found** with at most 9998 profiles. -/
theorem uniqueName_notMem {profiles : List Profile} (hmax : profiles.length ≤ 9998)
    (base : Bytes) : uniqueName profiles base ∉ names profiles := by
  simp only [uniqueName]
  split
  · next hfree =>
    rw [← any_name_iff]
    simpa using hfree
  · next hused =>
    have hbase : base ∈ names profiles := by
      rw [← any_name_iff]
      simpa using hused
    -- The base is no candidate, so the others leave one free.
    have hlength : ((names profiles).erase base).length < 9998 := by
      have hpos := List.length_pos_of_mem hbase
      rw [List.length_erase_of_mem hbase, names, List.length_map]
      rw [names, List.length_map] at hpos
      omega
    have hfirst : ∃ n, Fresh.firstFree (fun n => profiles.any fun p => p.name == n) (numbered base)
        2 9998 = some n :=
      Fresh.exists_firstFree ((names profiles).erase base) (numbered_injective base)
        (fun i hi => (List.mem_erase_of_ne (numbered_ne base i)).mpr ((any_name_iff _ _).mp hi))
        hlength
    obtain ⟨n, hn⟩ := hfirst
    rw [hn]
    obtain ⟨hfree, -⟩ := Fresh.firstFree_spec hn
    intro hmem
    rw [← any_name_iff, hfree] at hmem
    exact Bool.false_ne_true hmem

/-- A fresh name is no more blank than its base. -/
theorem uniqueName_not_blank (profiles : List Profile) {base : Bytes} (hbase : trim base ≠ []) :
    trim (uniqueName profiles base) ≠ [] := by
  simp only [uniqueName]
  split
  · exact hbase
  · split
    · next n hn =>
      obtain ⟨-, i, -, -, rfl⟩ := Fresh.firstFree_spec hn
      have hparen : ch '(' ∈ numbered base i := by simp [numbered, bytes]
      exact trim_ne_nil hparen (by decide)
    · have hstar : ch '*' ∈ base ++ bytes " *" := by simp [bytes]
      exact trim_ne_nil hstar (by decide)

/-! ### The repair -/

/-- The inner loop touches the name alone. -/
theorem repairAgainst_same (done rest ahead : List Profile) (p q : Profile)
    (hsame : { q with name := p.name } = p) :
    { ahead.foldl (repairAgainst done rest) q with name := p.name } = p := by
  induction ahead generalizing q with
  | nil => exact hsame
  | cons d ahead ih =>
    rw [List.foldl_cons]
    apply ih
    unfold repairAgainst
    split
    · exact hsame
    · exact hsame

theorem repairOne_same (done : List Profile) (p : Profile) (rest : List Profile) :
    { repairOne done p rest with name := p.name } = p := by
  unfold repairOne
  dsimp only
  split
  · exact repairAgainst_same done rest done p _ rfl
  · exact repairAgainst_same done rest done p p rfl

/-- The inner loop, the profiles `seen` being behind: the name stays apart from theirs. -/
theorem repairAgainst_spec {done rest : List Profile} {p : Profile}
    (hmax : (done ++ p :: rest).length ≤ 9998) (ahead seen : List Profile) (q : Profile)
    (hdone : seen ++ ahead = done) (hname : q.name ∉ names seen) (hblank : trim q.name ≠ []) :
    (ahead.foldl (repairAgainst done rest) q).name ∉ names done ∧
      trim (ahead.foldl (repairAgainst done rest) q).name ≠ [] := by
  induction ahead generalizing seen q with
  | nil =>
    rw [List.append_nil] at hdone
    rw [← hdone]
    exact ⟨hname, hblank⟩
  | cons d ahead ih =>
    have hnext : (seen ++ [d]) ++ ahead = done := by
      rw [← hdone, List.append_assoc]
      rfl
    rw [List.foldl_cons, repairAgainst]
    by_cases hclash : d.name = q.name
    · rw [if_pos hclash]
      refine ih (seen ++ [d]) _ hnext ?_ (uniqueName_not_blank _ hblank)
      -- The new name is none of all the profiles.
      have hlen : (done ++ q :: rest).length ≤ 9998 := by simpa using hmax
      have hfresh := uniqueName_notMem hlen q.name
      have hsub : ∀ n ∈ names (seen ++ [d]), n ∈ names (done ++ q :: rest) := by
        intro n hn
        rw [names, List.map_append, ← hnext, List.map_append]
        exact List.mem_append_left _ (List.mem_append_left _ hn)
      exact fun hmem => hfresh (hsub _ hmem)
    · rw [if_neg hclash]
      refine ih (seen ++ [d]) _ hnext ?_ hblank
      intro hmem
      rw [names, List.map_append, List.mem_append, List.map_singleton, List.mem_singleton] at hmem
      rcases hmem with hseen | heq
      · exact hname hseen
      · exact hclash heq.symm

/-- **One round of the repair**: the name is not blank and no name before it. -/
theorem repairOne_spec {done rest : List Profile} {p : Profile}
    (hmax : (done ++ p :: rest).length ≤ 9998) :
    (repairOne done p rest).name ∉ names done ∧ trim (repairOne done p rest).name ≠ [] := by
  have hnone : ∀ n : Bytes, n ∉ names [] := fun n => List.not_mem_nil
  unfold repairOne
  dsimp only
  split
  · have hname : trim (bytes "Profile") ≠ [] := by decide
    exact repairAgainst_spec hmax done [] { p with name := bytes "Profile" } rfl (hnone _) hname
  · next hblank => exact repairAgainst_spec hmax done [] p rfl (hnone _) hblank

/-- The repair leaves every profile but for its name. -/
theorem repairNames_keeps (done rest : List Profile) :
    ∃ rest', repairNames done rest = done ++ rest' ∧
      List.Forall₂ (fun p q => { q with name := p.name } = p) rest rest' := by
  fun_induction repairNames done rest with
  | case1 done => exact ⟨[], (List.append_nil done).symm, .nil⟩
  | case2 done p rest ih =>
    obtain ⟨rest', heq, hkeeps⟩ := ih
    refine ⟨repairOne done p rest :: rest', ?_, .cons (repairOne_same done p rest) hkeeps⟩
    rw [heq, List.append_assoc]
    rfl

theorem repairNames_length (rest : List Profile) : (repairNames [] rest).length = rest.length := by
  obtain ⟨rest', heq, hkeeps⟩ := repairNames_keeps [] rest
  rw [heq]
  exact hkeeps.length_eq.symm

/-- **Unique, non-empty names** after the repair. -/
theorem repairNames_names (done rest : List Profile) (hmax : (done ++ rest).length ≤ 9998)
    (hnodup : (names done).Nodup) (hblank : ∀ n ∈ names done, trim n ≠ []) :
    (names (repairNames done rest)).Nodup ∧
      ∀ n ∈ names (repairNames done rest), trim n ≠ [] := by
  fun_induction repairNames done rest with
  | case1 done => exact ⟨hnodup, hblank⟩
  | case2 done p rest ih =>
    obtain ⟨hfresh, hname⟩ := repairOne_spec hmax
    apply ih (by simpa using hmax)
    · rw [names, List.map_append, List.nodup_append]
      refine ⟨hnodup, List.nodup_singleton _, ?_⟩
      intro n hn m hm
      rw [List.map_singleton, List.mem_singleton] at hm
      rintro rfl
      exact hfresh (hm ▸ hn)
    · intro n hn
      rw [names, List.map_append, List.mem_append, List.map_singleton, List.mem_singleton] at hn
      rcases hn with hold | rfl
      · exact hblank n hold
      · exact hname

/-! ### The store -/

namespace ProfileStore

variable {P : Platform} {lang : Lang} {s : ProfileStore}

/-- **What the store keeps**: there is a profile, names differ and are not blank, and the active
    profile is the name of exactly one. -/
structure Sound (s : ProfileStore) : Prop where
  nonempty : s.profiles ≠ []
  nodup : (names s.profiles).Nodup
  named : ∀ n ∈ names s.profiles, trim n ≠ []
  active : (names s.profiles).count s.settings.activeProfile = 1

/-- Where names differ, one of them is the name of one profile. -/
theorem sound_of_mem (hnodup : (names s.profiles).Nodup)
    (hnamed : ∀ n ∈ names s.profiles, trim n ≠ [])
    (hactive : s.settings.activeProfile ∈ names s.profiles) : s.Sound := by
  refine ⟨?_, hnodup, hnamed, List.count_eq_one_of_mem hnodup hactive⟩
  intro hnil
  rw [hnil] at hactive
  exact absurd hactive List.not_mem_nil

theorem Sound.mem (h : s.Sound) : s.settings.activeProfile ∈ names s.profiles := by
  rw [← List.count_pos_iff, h.active]
  exact Nat.one_pos

/-- The first profile's name is one of the names. -/
theorem head_mem_names {profiles : List Profile} (h : profiles ≠ []) :
    (profiles.head?.map Profile.name).getD [] ∈ names profiles := by
  obtain ⟨p, rest, rfl⟩ := List.exists_cons_of_ne_nil h
  exact List.mem_cons_self

/-- The names of a new installation, in both languages. -/
theorem defaults_names (P : Platform) (lang : Lang) : (names (defaults P lang)).Nodup ∧
    ∀ n ∈ names (defaults P lang), trim n ≠ [] := by
  have hnames : names (defaults P lang) = [tr lang "Default", utf8 "Minecraft", tr lang "Browser",
      tr lang "Testing", tr lang "Fast", tr lang "Custom"] := rfl
  rw [hnames]
  cases lang with
  | en => decide +kernel
  | ru => decide +kernel

theorem defaults_ne_nil (P : Platform) (lang : Lang) : defaults P lang ≠ [] :=
  List.cons_ne_nil _ _

/-! ### Loading -/

theorem found_ne_nil (P : Platform) (lang : Lang) (profiles : Option Bytes) :
    found P lang profiles ≠ [] := by
  unfold found
  dsimp only
  split
  · exact defaults_ne_nil P lang
  · next hne =>
    rw [List.isEmpty_iff] at hne
    exact hne

theorem loaded_profiles (settings profiles : Option Bytes) :
    (s.loaded P lang settings profiles).profiles = repairNames [] (found P lang profiles) := rfl

/-- **Loading** makes the store sound, whatever the files hold. -/
theorem loaded_sound (s : ProfileStore) (settings profiles : Option Bytes)
    (hmax : (found P lang profiles).length ≤ 9998) :
    (s.loaded P lang settings profiles).Sound := by
  obtain ⟨hnodup, hnamed⟩ := repairNames_names [] (found P lang profiles) hmax List.nodup_nil
    (fun n hn => absurd hn List.not_mem_nil)
  have hne : repairNames [] (found P lang profiles) ≠ [] := by
    rw [← List.length_pos_iff, repairNames_length, List.length_pos_iff]
    exact found_ne_nil P lang profiles
  apply sound_of_mem hnodup hnamed
  show (keepActive _ (repairNames [] (found P lang profiles))).activeProfile ∈
    names (repairNames [] (found P lang profiles))
  unfold keepActive
  split
  · next hany => exact (any_name_iff _ _).mp hany
  · exact head_mem_names hne

/-! ### The operations -/

/-- A profile more, under a fresh name. -/
theorem Sound.push (h : s.Sound) (hmax : s.profiles.length ≤ 9998) {base : Bytes}
    (hbase : trim base ≠ []) (p : Profile) (hp : p.name = uniqueName s.profiles base) :
    ({ s with profiles := s.profiles ++ [p] } : ProfileStore).Sound := by
  have hfresh := uniqueName_notMem hmax base
  have hnames : names (s.profiles ++ [p]) = names s.profiles ++ [uniqueName s.profiles base] := by
    rw [names, List.map_append, List.map_singleton, hp]
    rfl
  apply sound_of_mem
  · show (names (s.profiles ++ [p])).Nodup
    rw [hnames, List.nodup_append]
    refine ⟨h.nodup, List.nodup_singleton _, ?_⟩
    intro n hn m hm
    rw [List.mem_singleton] at hm
    rintro rfl
    exact hfresh (hm ▸ hn)
  · intro n hn
    have hn' : n ∈ names (s.profiles ++ [p]) := hn
    rw [hnames, List.mem_append, List.mem_singleton] at hn'
    rcases hn' with hold | rfl
    · exact h.named n hold
    · exact uniqueName_not_blank _ hbase
  · show s.settings.activeProfile ∈ names (s.profiles ++ [p])
    rw [hnames]
    exact List.mem_append_left _ h.mem

theorem Sound.setActive (h : s.Sound) (name : Bytes) : (s.setActive name).1.Sound := by
  unfold ProfileStore.setActive
  split
  · next hany => exact sound_of_mem h.nodup h.named ((any_name_iff _ _).mp hany)
  · exact h

/-- **Renaming** takes the active reference along. -/
theorem Sound.rename (h : s.Sound) (hmax : s.profiles.length ≤ 9998) (i : ℕ) (nameBuf : Bytes) :
    (s.rename i nameBuf).Sound := by
  unfold ProfileStore.rename
  split
  · exact h
  · next p hp =>
    dsimp only
    split
    · next hgo =>
      have hfresh := uniqueName_notMem hmax (trim (cString nameBuf))
      generalize hnn : uniqueName s.profiles (trim (cString nameBuf)) = nn at hfresh
      obtain ⟨hi, hget⟩ := List.getElem?_eq_some_iff.mp hp
      have hnames : names (s.profiles.set i { p with name := nn }) =
          (names s.profiles).set i nn := List.map_set
      have hat : nn ∈ (names s.profiles).set i nn := by
        apply List.mem_set
        simpa [names] using hi
      apply sound_of_mem
      · show (names (s.profiles.set i { p with name := nn })).Nodup
        rw [hnames]
        exact h.nodup.set hfresh
      · intro n hn
        have hn' : n ∈ names (s.profiles.set i { p with name := nn }) := hn
        rw [hnames] at hn'
        rcases List.mem_or_eq_of_mem_set hn' with hold | rfl
        · exact h.named n hold
        · rw [← hnn]
          exact uniqueName_not_blank _ (trim_trim_ne_nil hgo.1)
      · show (ite _ _ _ : AppSettings).activeProfile ∈ names (s.profiles.set i _)
        rw [hnames]
        split
        · exact hat
        · next hother =>
          -- Another profile is active: it stays where it is.
          obtain ⟨j, hj, hname⟩ := List.getElem_of_mem h.mem
          have hne : i ≠ j := by
            rintro rfl
            apply hother
            rw [← hname, ← hget]
            simp [names]
          rw [← hname, ← List.getElem_set_of_ne hne nn (by simpa using hj)]
          exact List.getElem_mem _
    · exact h

/-- **Deleting** makes the first profile active when the active one goes. -/
theorem Sound.delete (h : s.Sound) (i : ℕ) : (s.delete i).Sound := by
  unfold ProfileStore.delete
  split
  · exact h
  · next p hp =>
    split
    · exact h
    · next hmany =>
      obtain ⟨hi, hget⟩ := List.getElem?_eq_some_iff.mp hp
      have hnames : names (s.profiles.eraseIdx i) = (names s.profiles).eraseIdx i := by
        rw [names, names, List.eraseIdx_map]
      have hne : s.profiles.eraseIdx i ≠ [] := by
        apply List.ne_nil_of_length_pos
        rw [List.length_eraseIdx_of_lt hi]
        omega
      apply sound_of_mem
      · show (names (s.profiles.eraseIdx i)).Nodup
        rw [hnames]
        exact h.nodup.eraseIdx i
      · intro n hn
        have hn' : n ∈ names (s.profiles.eraseIdx i) := hn
        rw [hnames] at hn'
        exact h.named n (List.mem_of_mem_eraseIdx hn')
      · show (ite _ _ _ : AppSettings).activeProfile ∈ names (s.profiles.eraseIdx i)
        split
        · exact head_mem_names hne
        · next hother =>
          rw [hnames, List.mem_eraseIdx_iff_getElem]
          obtain ⟨j, hj, hname⟩ := List.getElem_of_mem h.mem
          refine ⟨j, hj, ?_, hname⟩
          rintro rfl
          apply hother
          rw [← hname, ← hget]
          simp [names]

/-- The texts a name is made of are not blank. -/
theorem tr_not_blank (lang : Lang) :
    trim (tr lang "New profile") ≠ [] ∧ ∃ c ∈ tr lang " copy", isBlank c = false := by
  cases lang with
  | en => decide +kernel
  | ru => decide +kernel

/-- **Every operation of the profile manager** keeps the store sound. -/
theorem Sound.apply (h : s.Sound) (hmax : s.profiles.length ≤ 9998) (op : StoreOp) :
    (s.apply P op).Sound := by
  cases op with
  | activate name => exact h.setActive name
  | rename i nameBuf => exact h.rename hmax i nameBuf
  | duplicate i lang =>
    show (s.duplicate i lang).Sound
    unfold duplicate
    split
    · exact h
    · next p _ =>
      obtain ⟨c, hc, hblank⟩ := (tr_not_blank lang).2
      exact h.push hmax (trim_ne_nil (List.mem_append_right p.name hc) hblank) _ rfl
  | delete i => exact h.delete i
  | new lang => exact h.push hmax (tr_not_blank lang).1 _ rfl
  | reset lang =>
    obtain ⟨hnodup, hnamed⟩ := defaults_names P lang
    exact sound_of_mem hnodup hnamed (head_mem_names (defaults_ne_nil P lang))

end ProfileStore

/-- The store under the operations of the profile manager. -/
def storeMachine (P : Platform) : Machine ProfileStore StoreOp Empty where
  step s op := (s.apply P op, [])

/-- An operation leaves at most as many profiles as `uniqueName` can name. -/
def ProfileStore.Fits (P : Platform) (s : ProfileStore) (op : StoreOp) : Prop :=
  (s.apply P op).profiles.length ≤ 9998

instance (P : Platform) (s : ProfileStore) (op : StoreOp) : Decidable (s.Fits P op) :=
  inferInstanceAs (Decidable (_ ≤ _))

/-- **The profile store stays sound**: after loading, whatever the two files hold, and after any
    operations of the profile manager, with never more than 9998 profiles. -/
theorem store_sound (P : Platform) (lang : Lang) (s : ProfileStore) (dir : Folder) (o : LoadObs)
    (ops : List StoreOp) (hload : (s.load P lang dir o).1.profiles.length ≤ 9998)
    (hops : (storeMachine P).Meets (ProfileStore.Fits P) (s.load P lang dir o).1 ops) :
    ((storeMachine P).after (s.load P lang dir o).1 ops).Sound := by
  have hstart : (s.load P lang dir o).1.Sound := by
    apply ProfileStore.loaded_sound
    rw [← repairNames_length]
    exact hload
  have hafter := (storeMachine P).invariant_of_meets
    (I := fun s => s.Sound ∧ s.profiles.length ≤ 9998)
    (fun s op h hfits => ⟨h.1.apply h.2 op, hfits⟩) ⟨hstart, hload⟩ hops
  exact hafter.1

/-- Two profiles without a name, and none that is called like the active one. -/
def blankTwins : Folder := fun name =>
  if name = "profiles.json" then
    some (bytes "\x7b\"profiles\": [\x7b\"name\": \" \"\x7d, \x7b\"name\": \"\"\x7d]\x7d")
  else none

/-- They become "Profile" and "Profile (2)"; then the first, which is active, asks for the name of
    the second, and the second goes. -/
theorem blankTwins_sound :
    names ((storeMachine .tenMegahertz).after
      (ProfileStore.load .tenMegahertz .en { settings := .initial .tenMegahertz } blankTwins {}).1
        [.rename 0 (bytes "Profile (2) "), .delete 1]).profiles = [bytes "Profile (2) (2)"] ∧
    ((storeMachine .tenMegahertz).after
      (ProfileStore.load .tenMegahertz .en { settings := .initial .tenMegahertz } blankTwins {}).1
        [.rename 0 (bytes "Profile (2) "), .delete 1]).Sound :=
  ⟨by decide +kernel,
    store_sound .tenMegahertz .en _ blankTwins {} _ (by decide +kernel) (by decide +kernel)⟩

end InfinityClicker
