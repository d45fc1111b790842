import Mintlib.Spawn.Block
import Mintlib.CommandLine

/-!
# The arguments of a child: `parseargs` in `crtinit.c`

At start-up the environment is read from the base page up to `"ARGV="`. The strings behind that
variable are the arguments, and its value tells which of them are empty.
-/

namespace Mintlib.Spawn

open Text Unx2dos Stores Checked
open CommandLine (pushEnv skipString skipString_append)
open StartUp (PATH pconvert names)

/-- The entries of `environ`, and `argv`, unless it is to be taken from the command line. -/
structure Found where
  environ : List Str
  argv : Option (List Str)

/-- The loop over the environment: its entries, and what follows `"ARGV="`. -/
def environLoop : ℕ → Str → List Str → Option (List Str × Option Str)
  | 0, _, _ => none
  | _ + 1, [], _ => none
  | steps + 1, c :: mem, entries =>
    if c = 0 then some (entries, none)
    else if ARGV <+: c :: mem then some (entries, some ((c :: mem).drop 5))
    else
      match skipString (c :: mem) with
      | none => none
      | some next => environLoop steps next (pushEnv entries (cstr (c :: mem)))

/-- `while (*from)`: the arguments behind the first. -/
def argLoop : ℕ → Str → List Str → Option (List Str)
  | 0, _, _ => none
  | _ + 1, [], _ => none
  | steps + 1, c :: mem, argv =>
    if c = 0 then some argv
    else
      match skipString (c :: mem) with
      | none => none
      | some next => argLoop steps next (argv ++ [cstr (c :: mem)])

/-- A `long`. -/
def long (n : ℕ) : ℤ := (BitVec.ofNat 32 n).toInt

/-- The loop over the list of empty arguments; `none` stands for a store in front of `argv`. -/
def zeroLoop : ℕ → Str → List Str → Option (List Str)
  | 0, _, _ => none
  | _ + 1, [], argv => some argv
  | steps + 1, c :: null_list, argv =>
    let s := c :: null_list.takeWhile (· ≠ COMMA)
    if ∀ d ∈ s, IsDigit d then
      let idx := long (s.foldl more 0)
      if idx < argv.length then
        if idx < 0 then none
        else zeroLoop steps ((null_list.dropWhile (· ≠ COMMA)).drop 1) (argv.set idx.toNat [])
      else some argv
    else some argv

/-- The arguments that the value of `ARGV` lists are set to empty strings. -/
def zeroArgs (value : Str) (argv : List Str) : Option (List Str) :=
  if NULL <+: value then zeroLoop (value.length + 1) (cstr (value.drop 5)) argv else some argv

/-- `parseargs` for this environment; `none` stands for a read behind what is there. -/
def parseargs (p_env : Str) : Option Found :=
  match environLoop (p_env.length + 1) p_env [] with
  | none => none
  | some (entries, none) => some ⟨entries, none⟩
  | some (entries, some value) => do
    let from_ ← skipString value
    let next ← skipString from_
    let argv ← argLoop (next.length + 1) next [cstr from_]
    let argv ← zeroArgs value argv
    some ⟨entries, some argv⟩

theorem digitLoop_eq {steps val : ℕ} (hsteps : val ≤ steps) (ds : Str) :
    digitLoop steps val ds = (Nat.digits 10 val).reverse.map digit ++ ds := by
  induction steps generalizing val ds with
  | zero =>
    obtain rfl : val = 0 := by omega
    rfl
  | succ steps ih =>
    rw [digitLoop]
    by_cases hzero : val = 0
    · rw [if_pos hzero, hzero]
      rfl
    · rw [if_neg hzero, Nat.digits_def' (by norm_num) (Nat.pos_of_ne_zero hzero), ih (by omega)]
      simp only [List.reverse_cons, List.map_append, List.map_cons, List.map_nil,
        List.append_assoc, List.singleton_append]

theorem place_eq (idx : ℕ) : place idx = decimal idx := by
  rw [place, decimal]
  by_cases hzero : idx = 0
  · rw [if_pos hzero, if_pos hzero]
  · rw [if_neg hzero, if_neg hzero, digitLoop_eq le_rfl, List.append_nil]

theorem place_digit (idx : ℕ) {c : UInt8} (hc : c ∈ place idx) : IsDigit c := by
  rw [place_eq] at hc
  exact decimal_isDigit hc

theorem not_digit_comma : ¬ IsDigit COMMA := by decide

theorem not_digit_zero : ¬ IsDigit 0 := by decide

theorem long_of_lt {n : ℕ} (hn : n < 2 ^ 31) : long n = n := by
  rw [long, BitVec.toInt_eq_toNat_of_lt]
  · rw [BitVec.toNat_ofNat, Nat.mod_eq_of_lt (by omega)]
  · rw [BitVec.toNat_ofNat, Nat.mod_eq_of_lt (by omega)]
    omega

theorem zeroLoop_place {steps idx : ℕ} {rest : Str} {argv : List Str}
    (hrest : rest = [] ∨ rest.head? = some COMMA) (hidx : idx < argv.length)
    (hsmall : argv.length < 2 ^ 31) :
    zeroLoop (steps + 1) (place idx ++ rest) argv =
      zeroLoop steps (rest.drop 1) (argv.set idx []) := by
  obtain ⟨c, ds, hplace⟩ := List.exists_cons_of_ne_nil
    (show place idx ≠ [] by rw [place_eq]; exact decimal_ne_nil idx)
  have hds : ∀ d ∈ ds, decide (d ≠ COMMA) = true := by
    intro d hd
    have hdigit : IsDigit d := place_digit idx (by rw [hplace]; exact List.mem_cons_of_mem _ hd)
    exact decide_eq_true fun heq => not_digit_comma (heq ▸ hdigit)
  have hstop : rest.takeWhile (· ≠ COMMA) = [] ∧ rest.dropWhile (· ≠ COMMA) = rest := by
    rcases hrest with rfl | hcomma
    · exact ⟨rfl, rfl⟩
    · obtain ⟨rest', rfl⟩ := List.head?_eq_some_iff.mp hcomma
      exact ⟨by simp, by simp⟩
  have htake : (ds ++ rest).takeWhile (· ≠ COMMA) = ds := by
    rw [List.takeWhile_append_of_pos hds, hstop.1, List.append_nil]
  have hdrop : (ds ++ rest).dropWhile (· ≠ COMMA) = rest := by
    rw [List.dropWhile_append_of_pos hds, hstop.2]
  have hall : ∀ d ∈ c :: ds, IsDigit d := by
    intro d hd
    exact place_digit idx (by rw [hplace]; exact hd)
  have hvalue : long ((c :: ds).foldl more 0) = idx := by
    rw [← hplace, place_eq, foldl_more_decimal, long_of_lt (by omega)]
  rw [hplace, List.cons_append, zeroLoop]
  simp only [htake, hdrop]
  rw [if_pos hall, hvalue, if_pos (by exact_mod_cast hidx), if_neg (by omega), Int.toNat_natCast]

theorem zeroLoop_places {places : List ℕ} {steps : ℕ} {argv : List Str}
    (hsteps : places.length < steps) (hin : ∀ idx ∈ places, idx < argv.length)
    (hsmall : argv.length < 2 ^ 31) :
    zeroLoop steps ([COMMA].intercalate (places.map place)) argv =
      some (places.foldl (fun argv idx => argv.set idx []) argv) := by
  induction places generalizing steps argv with
  | nil =>
    obtain ⟨steps, rfl⟩ := Nat.exists_eq_add_of_le' (Nat.succ_le_of_lt hsteps)
    rfl
  | cons idx places ih =>
    rw [List.length_cons] at hsteps
    obtain ⟨steps, rfl⟩ := Nat.exists_eq_add_of_le' (show 1 ≤ steps by omega)
    have hidx := hin idx List.mem_cons_self
    have hnext : ∀ i ∈ places, i < (argv.set idx []).length := by
      intro i hi
      rw [List.length_set]
      exact hin i (List.mem_cons_of_mem _ hi)
    have hsmall' : (argv.set idx []).length < 2 ^ 31 := by
      rw [List.length_set]
      exact hsmall
    have hloop : zeroLoop steps ([COMMA].intercalate (places.map place)) (argv.set idx []) =
        some (places.foldl (fun argv idx => argv.set idx []) (argv.set idx [])) :=
      ih (by omega) hnext hsmall'
    rw [List.foldl_cons, ← hloop, List.map_cons]
    by_cases hnil : places = []
    · rw [hnil, List.map_nil, List.intercalate_singleton, List.intercalate_nil]
      have hplace : zeroLoop (steps + 1) (place idx ++ []) argv =
          zeroLoop steps (List.drop 1 []) (argv.set idx []) :=
        zeroLoop_place (Or.inl rfl) hidx hsmall
      rw [List.append_nil] at hplace
      exact hplace
    · rw [List.intercalate_cons_of_ne_nil (by simpa using hnil), List.append_assoc,
        zeroLoop_place (Or.inr rfl) hidx hsmall]
      rfl

theorem foldl_empties (argv : List CStr) (front : List Str) :
    (empties front.length argv).foldl (fun argv idx => argv.set idx [])
        (front ++ argv.map fun a => shown a.1) =
      front ++ argv.map fun a => a.1 := by
  induction argv generalizing front with
  | nil => rfl
  | cons a argv ih =>
    have hlength : front.length + 1 = (front ++ [a.1]).length := by
      rw [List.length_append, List.length_singleton]
    have hnext := ih (front ++ [a.1])
    rw [List.append_assoc, List.append_assoc, List.singleton_append, ← hlength] at hnext
    rw [empties, List.map_cons, List.map_cons]
    by_cases hempty : a.1 = []
    · rw [if_pos hempty, List.foldl_cons, List.set_append_right _ _ le_rfl, Nat.sub_self,
        List.set_cons_zero, hempty]
      rw [hempty] at hnext
      exact hnext
    · rw [if_neg hempty, shown, if_neg hempty]
      exact hnext

section Clean

variable {σ : Sys} {len : ℕ} {unx t : Str}

theorem dosChar_ne_zero {c : UInt8} (hc : c ≠ 0) : dosChar c ≠ 0 := by
  rw [dosChar]
  by_cases hslash : c = SLASH
  · rw [if_pos hslash]
    decide
  · rw [if_neg hslash]
    exact hc

theorem copy_clean (hclean : 0 ∉ unx) (length count len : ℕ) :
    0 ∉ (copy dosChar length count len unx).1 := by
  induction unx generalizing count len with
  | nil => exact List.not_mem_nil
  | cons c unx ih =>
    obtain ⟨hc, hunx⟩ := not_or.mp (mt List.mem_cons.mpr hclean)
    have hfirst : (0 : UInt8) ≠ dosChar c := (dosChar_ne_zero (Ne.symm hc)).symm
    rw [copy]
    by_cases hend : less len 1 = 0
    · rw [if_pos hend]
      exact fun hmem => hfirst (List.mem_singleton.mp hmem)
    · rw [if_neg hend]
      intro hmem
      rcases List.mem_cons.mp hmem with heq | hmem
      · exact hfirst heq
      · exact ih hunx _ _ hmem

theorem dosDrive_clean (σ : Sys) (hclean : 0 ∉ unx) :
    0 ∉ (NameRoom.dosDrive σ unx).1 ∧ 0 ∉ (NameRoom.dosDrive σ unx).2 := by
  have hdrop : ∀ n, (0 : UInt8) ∉ unx.drop n := fun n hmem => hclean (List.mem_of_mem_drop hmem)
  rw [NameRoom.dosDrive]
  split_ifs with hdev hdrive hpipe hroot
  · obtain ⟨c, hc, halpha, -⟩ := hdrive
    have hhead : (unx.drop 5).headD 0 = c := by
      rw [List.headD_eq_head?_getD, Option.mem_def.mp hc]
      rfl
    refine ⟨?_, fun hmem => hdrop 5 (List.mem_of_mem_tail hmem)⟩
    rw [hhead]
    intro hmem
    rcases List.mem_cons.mp hmem with heq | hmem
    · rw [← heq] at halpha
      exact absurd halpha (by decide)
    · exact absurd hmem (by decide)
  · exact ⟨show (0 : UInt8) ∉ UDEV by decide, hdrop 5⟩
  · exact ⟨show (0 : UInt8) ∉ UPIPE by decide, hdrop 6⟩
  · refine ⟨?_, hclean⟩
    intro hmem
    rcases List.mem_cons.mp hmem with heq | hmem
    · exact hroot.2 heq.symm
    · exact absurd hmem (by decide)
  · exact ⟨List.not_mem_nil, hclean⟩

theorem device_clean {u : Str} {ret : ℤ} (hclean : 0 ∉ u) (h : device u len = some (t, ret)) :
    0 ∉ t := by
  rw [device] at h
  have hcolon : (0 : UInt8) ∉ u ++ [COLON] := by
    intro hmem
    rcases List.mem_append.mp hmem with hmem | hmem
    · exact hclean hmem
    · exact absurd hmem (by decide)
  split_ifs at h with hroom hlen
  · simp only at h
    cases h
    split
    · decide
    · exact hcolon
  · cases h
    exact List.not_mem_nil

theorem unx2dos_clean {ret : ℤ} (hclean : 0 ∉ unx) (h : unx2dos σ unx len = some (t, ret)) :
    0 ∉ t := by
  by_cases hdevice : NameRoom.IsDevice σ unx
  · rw [NameRoom.unx2dos_device hdevice] at h
    exact device_clean (fun hmem => hclean (List.mem_of_mem_drop hmem)) h
  · rw [NameRoom.unx2dos_eq_copy hdevice] at h
    cases h
    intro hmem
    rcases List.mem_append.mp hmem with hmem | hmem
    · exact (dosDrive_clean σ hclean).1 hmem
    · exact copy_clean (dosDrive_clean σ hclean).2 _ _ _ hmem

theorem elements_clean (hclean : 0 ∉ unx) : ∀ e ∈ elements isUnxSep unx, (0 : UInt8) ∉ e := by
  induction unx with
  | nil => exact fun e he => absurd he List.not_mem_nil
  | cons c unx ih =>
    obtain ⟨hc, hunx⟩ := not_or.mp (mt List.mem_cons.mpr hclean)
    intro e he
    rw [elements] at he
    by_cases hsep : isUnxSep c = true
    · rw [if_pos hsep] at he
      rcases List.mem_cons.mp he with rfl | he
      · exact List.not_mem_nil
      · exact ih hunx e he
    · rw [if_neg hsep] at he
      cases hes : elements isUnxSep unx with
      | nil =>
        rw [hes] at he
        rw [List.mem_singleton.mp he]
        exact fun hmem => hc (List.mem_singleton.mp hmem)
      | cons e₁ es =>
        rw [hes] at he
        have hrest := ih hunx
        rw [hes] at hrest
        rcases List.mem_cons.mp he with rfl | he
        · intro hmem
          rcases List.mem_cons.mp hmem with heq | hmem
          · exact hc heq
          · exact hrest e₁ List.mem_cons_self hmem
        · exact hrest e (List.mem_cons_of_mem _ he)

theorem pathLoop_clean {es : List Str} (hclean : ∀ e ∈ es, (0 : UInt8) ∉ e)
    (h : pathLoop (unx2dos σ) COMMA len es = some t) : 0 ∉ t := by
  induction es generalizing len t with
  | nil =>
    rw [pathLoop] at h
    rw [← Option.some.inj h]
    exact List.not_mem_nil
  | cons e es ih =>
    rw [pathLoop] at h
    obtain ⟨⟨d, ret⟩, hone, hrest⟩ := Option.bind_eq_some_iff.mp h
    have hd : (0 : UInt8) ∉ d := unx2dos_clean
      (fun hmem => hclean e List.mem_cons_self (List.mem_of_mem_take hmem)) hone
    simp only at hrest
    split at hrest
    · rw [← Option.some.inj hrest]
      exact hd
    · obtain ⟨rest, hloop, heq⟩ := Option.bind_eq_some_iff.mp hrest
      have hnext : (0 : UInt8) ∉ rest :=
        ih (fun e he => hclean e (List.mem_cons_of_mem _ he)) hloop
      rw [← Option.some.inj heq]
      intro hmem
      rcases List.mem_append.mp hmem with hmem | hmem
      · exact hd hmem
      · rcases List.mem_cons.mp hmem with heq | hmem
        · exact absurd heq (by decide)
        · exact hnext hmem

theorem path_unx2dos_clean (hclean : 0 ∉ unx) (h : pathUnx2dos σ unx len = some t) : 0 ∉ t :=
  pathLoop_clean (elements_clean hclean) h

end Clean

/-- A string of the form `NAME=value`. -/
def HasName (v name : Str) : Prop := EQ ∉ name ∧ name ++ [EQ] <+: v

theorem HasName.of_prefix {v q name : Str} (h : HasName v name) (hq : q <+: v) (heq : EQ ∈ q) :
    name ++ [EQ] <+: q := by
  rcases List.prefix_or_prefix_of_prefix h.2 hq with hshort | hlong
  · exact hshort
  · rcases List.prefix_concat_iff.mp hlong with rfl | hinside
    · exact List.prefix_rfl
    · exact absurd (hinside.subset heq) h.1

theorem HasName.not_argv {v name : Str} (h : HasName v name)
    (hargv : name ≠ [65, 82, 71, 86]) : ¬ ARGV <+: v := by
  intro hprefix
  have hinside : name ++ [EQ] <+: ARGV := h.of_prefix hprefix (by decide)
  obtain ⟨rest, hrest⟩ := hinside
  have hother : HasName ARGV [65, 82, 71, 86] := ⟨by decide, List.prefix_rfl⟩
  have hback : ARGV <+: name ++ [EQ] :=
    hother.of_prefix ⟨rest, hrest⟩ (List.mem_append_right _ List.mem_cons_self)
  have hall : name ++ [EQ] = [65, 82, 71, 86] ++ [EQ] :=
    (List.IsPrefix.eq_of_length_le ⟨rest, hrest⟩ hback.length_le)
  exact hargv (List.append_cancel_right hall)

theorem listed_hasEq {pconv : Option Str} {p : Str} {len : ℕ} (h : listed pconv p = some len) :
    EQ ∈ p.take len := by
  cases pconv with
  | some pconv =>
    rw [listed] at h
    obtain ⟨name, hfind, rfl⟩ := Option.map_eq_some_iff.mp h
    have hnamed : name ++ [EQ] <+: p := StartUp.named_of_find hfind
    have htake : p.take (name.length + 1) = name ++ [EQ] := by
      have hlength : name.length + 1 = (name ++ [EQ]).length := by
        rw [List.length_append, List.length_singleton]
      rw [hlength]
      exact (List.prefix_iff_eq_take.mp hnamed).symm
    rw [htake]
    exact List.mem_append_right _ List.mem_cons_self
  | none =>
    rw [listed] at h
    split at h
    · next hpath =>
      have htake : p.take 5 = PATH := (List.prefix_iff_eq_take.mp hpath).symm
      rw [← Option.some.inj h, htake]
      decide
    · exact absurd h (by simp)

theorem Passed.hasName {σ : Sys} {pconv : Option Str} {p : CStr} {v name : Str}
    (h : Passed σ pconv p v) (hname : HasName p.1 name) : HasName v name := by
  rw [Passed] at h
  cases hlisted : listed pconv p.1 with
  | none =>
    rw [hlisted] at h
    rw [h]
    exact hname
  | some len =>
    rw [hlisted] at h
    obtain ⟨left, t, -, rfl⟩ := h
    have hfront := hname.of_prefix (List.take_prefix len p.1) (listed_hasEq hlisted)
    exact ⟨hname.1, hfront.trans (List.prefix_append _ _)⟩

theorem Passed.clean {σ : Sys} {pconv : Option Str} {p : CStr} {v : Str}
    (h : Passed σ pconv p v) : 0 ∉ v := by
  rw [Passed] at h
  cases hlisted : listed pconv p.1 with
  | none =>
    rw [hlisted] at h
    rw [h]
    exact p.2
  | some len =>
    rw [hlisted] at h
    obtain ⟨left, t, ht, rfl⟩ := h
    intro hmem
    rcases List.mem_append.mp hmem with hmem | hmem
    · exact p.2 (List.mem_of_mem_take hmem)
    · exact path_unx2dos_clean (fun hdrop => p.2 (List.mem_of_mem_drop hdrop)) ht hmem

theorem cstr_word {v : Str} (hclean : 0 ∉ v) (mem : Str) : cstr (v ++ [0] ++ mem) = v := by
  rw [List.append_assoc]
  exact cstr_append hclean mem

theorem skipString_word {v : Str} (hclean : 0 ∉ v) (mem : Str) :
    skipString (v ++ [0] ++ mem) = some mem := by
  rw [List.append_assoc]
  exact skipString_append hclean mem

theorem not_argv_append {v : Str} (hargv : ¬ ARGV <+: v) (mem : Str) :
    ¬ ARGV <+: v ++ [0] ++ mem := by
  intro hprefix
  rcases List.prefix_or_prefix_of_prefix hprefix (List.prefix_append (v ++ [0]) mem)
    with hshort | hlong
  · rcases List.prefix_concat_iff.mp hshort with heq | hinside
    · have hzero : (0 : UInt8) ∈ ARGV := heq ▸ List.mem_append_right _ List.mem_cons_self
      exact absurd hzero (by decide)
    · exact hargv hinside
  · have hzero : (0 : UInt8) ∈ ARGV :=
      hlong.subset (List.mem_append_right _ List.mem_cons_self)
    exact absurd hzero (by decide)

theorem pushEnv_variable {v : Str} (hvar : EQ ∈ v) (entries : List Str) :
    pushEnv entries v = entries ++ [v] := by
  rw [pushEnv]
  cases entries.getLast? with
  | none => rfl
  | some q => exact if_neg fun h => h.1 hvar

/-- The loop over the environment ends at `"ARGV="`, with an entry for each variable. -/
theorem environLoop_flat {vs : List Str} {steps : ℕ} {mem : Str} {entries : List Str}
    (hsteps : vs.length < steps) (hclean : ∀ v ∈ vs, (0 : UInt8) ∉ v) (hvar : ∀ v ∈ vs, EQ ∈ v)
    (hargv : ∀ v ∈ vs, ¬ ARGV <+: v) :
    environLoop steps (flat vs ++ (ARGV ++ mem)) entries = some (entries ++ vs, some mem) := by
  induction vs generalizing steps entries with
  | nil =>
    obtain ⟨steps, rfl⟩ := Nat.exists_eq_add_of_le' (Nat.succ_le_of_lt hsteps)
    rw [List.append_nil]
    show environLoop (steps + 1) (65 :: (ARGV.tail ++ mem)) entries = _
    have hargv : ARGV <+: 65 :: (ARGV.tail ++ mem) := List.prefix_append ARGV mem
    rw [environLoop, if_neg (by decide), if_pos hargv]
    rfl
  | cons v vs ih =>
    rw [List.length_cons] at hsteps
    obtain ⟨steps, rfl⟩ := Nat.exists_eq_add_of_le' (show 1 ≤ steps by omega)
    have hv : (0 : UInt8) ∉ v := hclean v List.mem_cons_self
    have hnext : environLoop steps (flat vs ++ (ARGV ++ mem)) (entries ++ [v]) =
        some (entries ++ [v] ++ vs, some mem) := ih (by omega)
      (fun v hmem => hclean v (List.mem_cons_of_mem _ hmem))
      (fun v hmem => hvar v (List.mem_cons_of_mem _ hmem))
      (fun v hmem => hargv v (List.mem_cons_of_mem _ hmem))
    rw [flat_cons, List.append_assoc]
    generalize flat vs ++ (ARGV ++ mem) = behind at hnext ⊢
    have hnot := not_argv_append (hargv v List.mem_cons_self) behind
    have hword := cstr_word hv behind
    have hskip := skipString_word hv behind
    obtain ⟨c, v', rfl⟩ := List.exists_cons_of_ne_nil (List.ne_nil_of_mem (hvar v List.mem_cons_self))
    have hc : c ≠ 0 := fun heq => hv (heq ▸ List.mem_cons_self)
    simp only [List.cons_append] at hnot hword hskip ⊢
    rw [environLoop, if_neg hc, if_neg hnot, hskip]
    simp only
    rw [hword, pushEnv_variable (hvar _ List.mem_cons_self), hnext, List.append_assoc,
      List.singleton_append]

theorem argLoop_flat {ts : List Str} {steps : ℕ} {mem : Str} {argv : List Str}
    (hsteps : ts.length < steps) (hclean : ∀ t ∈ ts, (0 : UInt8) ∉ t) (hne : ∀ t ∈ ts, t ≠ []) :
    argLoop steps (flat ts ++ 0 :: mem) argv = some (argv ++ ts) := by
  induction ts generalizing steps argv with
  | nil =>
    obtain ⟨steps, rfl⟩ := Nat.exists_eq_add_of_le' (Nat.succ_le_of_lt hsteps)
    rw [List.append_nil]
    show argLoop (steps + 1) (0 :: mem) argv = _
    rw [argLoop, if_pos rfl]
  | cons t ts ih =>
    rw [List.length_cons] at hsteps
    obtain ⟨steps, rfl⟩ := Nat.exists_eq_add_of_le' (show 1 ≤ steps by omega)
    have ht : (0 : UInt8) ∉ t := hclean t List.mem_cons_self
    rw [flat_cons, List.append_assoc]
    obtain ⟨c, t', rfl⟩ := List.exists_cons_of_ne_nil (hne t List.mem_cons_self)
    have hc : c ≠ 0 := fun heq => ht (heq ▸ List.mem_cons_self)
    have hword := cstr_word ht (flat ts ++ 0 :: mem)
    have hskip := skipString_word ht (flat ts ++ 0 :: mem)
    simp only [List.cons_append] at hword hskip ⊢
    rw [argLoop, if_neg hc, hskip]
    simp only
    rw [hword, ih (by omega) (fun t hmem => hclean t (List.mem_cons_of_mem _ hmem))
      (fun t hmem => hne t (List.mem_cons_of_mem _ hmem)), List.append_assoc,
      List.singleton_append]

theorem shown_ne_nil (a : Str) : shown a ≠ [] := by
  rw [shown]
  by_cases hempty : a = []
  · rw [if_pos hempty]
    exact List.cons_ne_nil _ _
  · rw [if_neg hempty]
    exact hempty

theorem shown_clean (a : CStr) : 0 ∉ shown a.1 := by
  rw [shown]
  by_cases hempty : a.1 = []
  · rw [if_pos hempty]
    decide
  · rw [if_neg hempty]
    exact a.2

theorem argTexts_eq (argv : List CStr) :
    argv.flatMap (fun a => argText a.1) = flat (argv.map fun a => shown a.1) := by
  rw [flat, List.flatMap_map]
  rfl

theorem nullList_clean (argv : List CStr) : 0 ∉ nullList argv := by
  have hlist : ∀ places : List ℕ, (0 : UInt8) ∉ [COMMA].intercalate (places.map place) := by
    intro places
    induction places with
    | nil => exact List.not_mem_nil
    | cons idx places ih =>
      have hplace : (0 : UInt8) ∉ place idx := fun hmem => not_digit_zero (place_digit idx hmem)
      rw [List.map_cons]
      by_cases hnil : places = []
      · rw [hnil, List.map_nil, List.intercalate_singleton]
        exact hplace
      · rw [List.intercalate_cons_of_ne_nil (by simpa using hnil)]
        intro hmem
        rcases List.mem_append.mp hmem with hmem | hmem
        · rcases List.mem_append.mp hmem with hmem | hmem
          · exact hplace hmem
          · exact absurd hmem (by decide)
        · exact ih hmem
  rw [nullList]
  by_cases hnone : empties 0 argv = []
  · rw [if_pos hnone]
    exact List.not_mem_nil
  · rw [if_neg hnone]
    intro hmem
    rcases List.mem_append.mp hmem with hmem | hmem
    · exact absurd hmem (by decide)
    · exact hlist _ hmem

theorem empties_lt {argv : List CStr} {idx i : ℕ} (hi : i ∈ empties idx argv) :
    i < idx + argv.length := by
  induction argv generalizing idx with
  | nil => exact absurd hi List.not_mem_nil
  | cons a argv ih =>
    rw [List.length_cons]
    rw [empties] at hi
    by_cases hempty : a.1 = []
    · rw [if_pos hempty] at hi
      rcases List.mem_cons.mp hi with rfl | hi
      · omega
      · have := ih hi
        omega
    · rw [if_neg hempty] at hi
      have := ih hi
      omega

theorem length_empties_le (argv : List CStr) (idx : ℕ) :
    (empties idx argv).length ≤ argv.length := by
  induction argv generalizing idx with
  | nil => exact le_rfl
  | cons a argv ih =>
    rw [empties, List.length_cons]
    split
    · rw [List.length_cons]
      exact Nat.succ_le_succ (ih _)
    · exact (ih _).trans (Nat.le_succ _)

theorem length_le_flat (ts : List Str) : ts.length ≤ (flat ts).length := by
  induction ts with
  | nil => exact le_rfl
  | cons t ts ih =>
    rw [flat_cons, List.length_cons, List.length_append, List.length_append, List.length_singleton]
    omega

theorem zeroArgs_nullList {argv : List CStr} {mem : Str} (hsteps : argv.length ≤ mem.length)
    (hsmall : argv.length < 2 ^ 31) :
    zeroArgs (nullList argv ++ [0] ++ mem) (argv.map fun a => shown a.1) =
      some (argv.map fun a => a.1) := by
  rw [zeroArgs]
  have hfold := foldl_empties argv []
  rw [List.nil_append, List.nil_append] at hfold
  by_cases hnone : empties 0 argv = []
  · have hno : ¬ NULL <+: nullList argv ++ [0] ++ mem := by
      rw [nullList, if_pos hnone]
      exact fun hprefix => absurd (List.cons_prefix_cons.mp hprefix).1 (by decide)
    rw [if_neg hno, ← hfold]
    rw [show (List.nil : List Str).length = 0 from rfl, hnone]
    rfl
  · have hlist : nullList argv = NULL ++ [COMMA].intercalate ((empties 0 argv).map place) := by
      rw [nullList, if_neg hnone]
    have hyes : NULL <+: nullList argv ++ [0] ++ mem := by
      rw [hlist, List.append_assoc, List.append_assoc]
      exact List.prefix_append _ _
    have hclean : (0 : UInt8) ∉ [COMMA].intercalate ((empties 0 argv).map place) := by
      intro hmem
      apply nullList_clean argv
      rw [hlist]
      exact List.mem_append_right _ hmem
    have hvalue : cstr ((nullList argv ++ [0] ++ mem).drop 5) =
        [COMMA].intercalate ((empties 0 argv).map place) := by
      rw [hlist, List.append_assoc, List.append_assoc]
      exact cstr_append hclean mem
    rw [if_pos hyes, hvalue, zeroLoop_places, ← hfold]
    · rfl
    · have hle := length_empties_le argv 0
      simp only [List.length_append]
      omega
    · intro idx hidx
      have hlt := empties_lt hidx
      rw [List.length_map]
      omega
    · rw [List.length_map]
      exact hsmall

theorem parseargs_block {vs : List Str} {argv : List CStr} (junk : Str) (hargs : argv ≠ [])
    (hsmall : argv.length < 2 ^ 31) (hclean : ∀ v ∈ vs, (0 : UInt8) ∉ v) (hvar : ∀ v ∈ vs, EQ ∈ v)
    (hargv : ∀ v ∈ vs, ¬ ARGV <+: v) :
    parseargs (flat vs ++ argBlock argv ++ junk) = some ⟨vs, some (argv.map fun a => a.1)⟩ := by
  obtain ⟨a, rest, rfl⟩ := List.exists_cons_of_ne_nil hargs
  -- behind `"ARGV="`, behind its value, and behind the first argument
  obtain ⟨next, hnext⟩ : ∃ next, next = flat (rest.map fun a => shown a.1) ++ 0 :: 0 :: junk :=
    ⟨_, rfl⟩
  obtain ⟨value, hvalue⟩ : ∃ value, value =
      nullList (a :: rest) ++ [0] ++ (shown a.1 ++ [0] ++ next) := ⟨_, rfl⟩
  have hmem : flat vs ++ argBlock (a :: rest) ++ junk = flat vs ++ (ARGV ++ value) := by
    rw [hvalue, hnext, argBlock, List.flatMap_cons, argTexts_eq, argText]
    simp only [List.append_assoc, List.cons_append, List.nil_append]
  have hloop : environLoop ((flat vs ++ (ARGV ++ value)).length + 1)
      (flat vs ++ (ARGV ++ value)) [] = some (vs, some value) := by
    have hsteps : vs.length < (flat vs ++ (ARGV ++ value)).length + 1 := by
      have hle := length_le_flat vs
      rw [List.length_append]
      omega
    rw [environLoop_flat hsteps hclean hvar hargv, List.nil_append]
  have hskip : skipString value = some (shown a.1 ++ [0] ++ next) := by
    rw [hvalue]
    exact skipString_word (nullList_clean _) _
  have hfirst : skipString (shown a.1 ++ [0] ++ next) = some next :=
    skipString_word (shown_clean a) next
  have hlength : rest.length ≤ next.length := by
    have hle := length_le_flat (rest.map fun a => shown a.1)
    rw [List.length_map] at hle
    rw [hnext, List.length_append]
    omega
  have hrest : argLoop (next.length + 1) next [shown a.1] =
      some ((a :: rest).map fun a => shown a.1) := by
    have hsteps : (rest.map fun a => shown a.1).length < next.length + 1 := by
      rw [List.length_map]
      omega
    rw [hnext]
    rw [hnext] at hsteps
    exact argLoop_flat hsteps
      (fun t ht => by
        obtain ⟨b, -, rfl⟩ := List.mem_map.mp ht
        exact shown_clean b)
      (fun t ht => by
        obtain ⟨b, -, rfl⟩ := List.mem_map.mp ht
        exact shown_ne_nil b.1)
  have hlist : zeroArgs value ((a :: rest).map fun a => shown a.1) =
      some ((a :: rest).map fun a => a.1) := by
    rw [hvalue]
    apply zeroArgs_nullList _ hsmall
    rw [List.length_append, List.length_append, List.length_cons, List.length_singleton]
    omega
  rw [hmem, parseargs, hloop]
  simp only [hskip, hfirst, Option.bind_eq_bind, Option.bind_some]
  rw [cstr_word (shown_clean a), hrest, Option.bind_some, hlist, Option.bind_some]

/-- An environment of strings `NAME=value` without an `ARGV`. -/
def Plain (envp : List CStr) : Prop :=
  ∀ p ∈ envp, ∃ name, HasName p.1 name ∧ name ≠ [65, 82, 71, 86]

theorem two_le_argText (argv : List CStr) :
    2 * argv.length ≤ (argv.flatMap fun a => argText a.1).length := by
  induction argv with
  | nil => exact le_rfl
  | cons a argv ih =>
    have hpos := List.length_pos_iff.mpr (shown_ne_nil a.1)
    rw [List.flatMap_cons, List.length_append, argText, List.length_append, List.length_singleton,
      List.length_cons]
    omega

/-- A child that is given the block finds the arguments, and as its environment what was passed for
the last of the variables. -/
theorem argv_round_trip (σ : Sys) (memory : Memory) (argv envp : List CStr) (b junk : Str)
    (hargs : argv ≠ []) (hplain : Plain envp) (hblock : block σ memory argv envp = .ok (some b)) :
    ∃ rest vs, rest <:+ envp ∧
      List.Forall₂ (Passed σ (pconvert (envp.map fun p => p.1))) rest vs ∧
      parseargs (b ++ junk) = some ⟨vs, some (argv.map fun a => a.1)⟩ := by
  obtain ⟨n, enlen, rest, hsuffix, hmalloc, hpass⟩ := build_shape hblock
  obtain ⟨vs, hvs, hb, hlength⟩ := pass_shape hpass
  have henlen := memory.signed n enlen hmalloc
  have hsmall : argv.length < 2 ^ 31 := by
    have htwo := two_le_argText argv
    have hargBlock : (argv.flatMap fun a => argText a.1).length ≤ b.length := by
      rw [hb, argBlock]
      simp only [List.length_append]
      omega
    omega
  have hnamed : ∀ v ∈ vs, (0 : UInt8) ∉ v ∧ ∃ name, HasName v name ∧ name ≠ [65, 82, 71, 86] := by
    intro v hv
    obtain ⟨i, hi, rfl⟩ := List.getElem_of_mem hv
    have hlen := hvs.length_eq
    have hpassed := hvs.get (i := i) (by omega) hi
    obtain ⟨name, hname, hne⟩ := hplain _ (hsuffix.mem (List.get_mem rest ⟨i, by omega⟩))
    exact ⟨hpassed.clean, name, hpassed.hasName hname, hne⟩
  refine ⟨rest, vs, hsuffix, hvs, ?_⟩
  rw [hb]
  apply parseargs_block junk hargs hsmall
  · exact fun v hv => (hnamed v hv).1
  · intro v hv
    obtain ⟨-, name, hname, -⟩ := hnamed v hv
    exact hname.2.subset (List.mem_append_right _ List.mem_cons_self)
  · intro v hv
    obtain ⟨-, name, hname, hne⟩ := hnamed v hv
    exact hname.not_argv hne

def ample : Memory where
  malloc := fun _ size => decide (size < 2 ^ 31)
  signed := fun _ _ h => of_decide_eq_true h

/-- `"A=1"`, and the arguments `"a"`, `""` and `" "`. -/
def demoEnvp : List CStr := [⟨[65, 61, 49], by decide⟩]

def demoArgv : List CStr := [⟨[97], by decide⟩, ⟨[], by decide⟩, ⟨[32], by decide⟩]

theorem argv_round_trip_demo : ∃ rest vs, rest <:+ demoEnvp ∧
    List.Forall₂ (Passed ⟨0, 0⟩ (pconvert (demoEnvp.map fun p => p.1))) rest vs ∧
    parseargs (flat [[65, 61, 49]] ++ argBlock demoArgv ++ [7]) =
      some ⟨vs, some (demoArgv.map fun a => a.1)⟩ :=
  argv_round_trip ⟨0, 0⟩ ample demoArgv demoEnvp _ [7] (List.cons_ne_nil _ _)
    (fun p hp => ⟨[65], by rw [List.mem_singleton.mp hp]; exact ⟨by decide, [49], rfl⟩, by decide⟩)
    (by decide +kernel)

end Mintlib.Spawn
