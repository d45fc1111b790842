import Mintlib.Unx2dos

/-!
# Path lists at start-up: `__libc_main`

The variables that `PCONVERT` names, or `PATH` if there is no `PCONVERT`, hold lists of
DOS names. Each of them gets a block of its own with the list in POSIX form. `malloc`
succeeds; what the block holds is the string up to its NUL.
-/

namespace Mintlib.StartUp

open Text Unx2dos

abbrev PCONVERT : Str := [80, 67, 79, 78, 86, 69, 82, 84, 61]
abbrev PATH : Str := [80, 65, 84, 72, 61]

/-- A block of `malloc` and the string that has been written into it. -/
structure Block where
  size : ℕ
  text : Str
  deriving DecidableEq

/-- An entry of `_envp`: as it was, or a block with the converted variable. -/
inductive Var
  | old (s : Str)
  | new (b : Block)
  deriving DecidableEq

/-- The size of the block: the variable and five bytes for each element. -/
def blockSize (s : Str) (len : ℕ) : ℕ := (s.length + (1 + (s.drop len).countP isDosSep) * 5) % 2 ^ 32

/-- A variable whose name and `'='` have `len` characters. -/
def convert (σ : Sys) (s : Str) (len : ℕ) : Option Block := do
  let size := blockSize s len
  let t ← pathDos2unx σ (s.drop len) (less size len)
  some ⟨size, s.take len ++ t⟩

/-- The loop that looks for `PCONVERT`. -/
def pconvert : List Str → Option Str
  | [] => none
  | s :: envp => if PCONVERT <+: s then some (s.drop 9) else pconvert envp

/-- The names in the value of `PCONVERT`. -/
def names (pconv : Str) : List Str := elements (fun c => c = COMMA) pconv

/-- The variable `s` when there is a `PCONVERT`. -/
def fixListed (σ : Sys) (pconv s : Str) : Option Var :=
  match (names pconv).find? (fun name => Named name s) with
  | some name => (convert σ s (name.length + 1)).map .new
  | none => some (.old s)

/-- The variables when there is no `PCONVERT`: the loop ends behind `PATH`. -/
def fixPath (σ : Sys) : List Str → Option (List Var)
  | [] => some []
  | s :: envp =>
    if PATH <+: s then (convert σ s 5).map fun b => .new b :: envp.map .old
    else (fixPath σ envp).map fun vars => .old s :: vars

def fixEnv (σ : Sys) (envp : List Str) : Option (List Var) :=
  match pconvert envp with
  | some pconv => envp.mapM (fixListed σ pconv)
  | none => fixPath σ envp

section Conversion

variable {σ : Sys} {envp : List Str} {s name : Str} {i : ℕ}

/-- The entry `i` is the variable `s` called `name`, which is to be converted. -/
def Listed (envp : List Str) (i : ℕ) (s name : Str) : Prop :=
  envp[i]? = some s ∧
    match pconvert envp with
    | some pconv => (names pconv).find? (fun name => Named name s) = some name
    | none => PATH <+: s ∧ name = [80, 65, 84, 72] ∧
        ∀ j < i, ∀ t, envp[j]? = some t → ¬ PATH <+: t

def translated (σ : Sys) (v : Str) : Str := σ.unxPath (v.splitOnP isDosSep)

/-- The entry holds the name and the whole translated list, inside of its block. -/
def Installed (σ : Sys) (envp : List Str) (i : ℕ) (s name : Str) : Prop :=
  ∃ vars b, fixEnv σ envp = some vars ∧ vars[i]? = some (.new b) ∧
    b.text = name ++ EQ :: translated σ (s.drop (name.length + 1)) ∧ b.text.length < b.size

/-- The list does not end in a separator, no element is too long for `buf`, the result
fits in the block, and behind every element but the last more than 10 bytes are left. -/
structure Convertible (σ : Sys) (s name : Str) : Prop where
  complete : s.drop (name.length + 1) = [] ∨
    ¬ EndsEmpty isDosSep (s.drop (name.length + 1))
  short : ∀ e ∈ (s.drop (name.length + 1)).splitOnP isDosSep, e.length < PATH_MAX
  fits : name.length + 1 + (translated σ (s.drop (name.length + 1))).length <
    blockSize s (name.length + 1)
  room : ∀ pre post, (s.drop (name.length + 1)).splitOnP isDosSep = pre ++ post → pre ≠ [] →
    post ≠ [] → name.length + 1 + (σ.unxPath pre).length + 10 < blockSize s (name.length + 1)

theorem blockSize_lt (s : Str) (len : ℕ) : blockSize s len < 2 ^ 32 := Nat.mod_lt _ (by norm_num)

theorem path_dos2unx_isSome (dos : Str) (len : ℕ) : ∃ t, pathDos2unx σ dos len = some t := by
  have hloop : ∀ (es : List Str) len,
      ∃ t, pathLoop (fun e len => some (dos2unx σ e len)) COLON len es = some t := by
    intro es
    induction es with
    | nil => exact fun _ => ⟨[], rfl⟩
    | cons e es ih =>
      intro len
      set r := dos2unx σ (e.take (PATH_MAX - 1)) len with hr
      have hf : (fun e len => some (dos2unx σ e len)) (e.take (PATH_MAX - 1)) len =
          some (r.1, r.2) := congrArg some hr.symm
      obtain ⟨rest, hrest⟩ := ih (less (less len r.1.length) 1)
      rw [pathLoop_cons hf rfl, hrest]
      by_cases hstop : less len r.1.length ≤ 10 ∨ es = []
      · exact ⟨r.1, if_pos hstop⟩
      · exact ⟨_, if_neg hstop⟩
  exact hloop _ _

theorem translated_of_ends {v : Str} (h : EndsEmpty isDosSep v) (hne : v ≠ []) :
    translated σ v = σ.unxPath (elements isDosSep v) ++ [COLON] := by
  have happend : ∀ es : List Str, es ≠ [] → σ.unxPath (es ++ [[]]) = σ.unxPath es ++ [COLON] := by
    intro es
    induction es with
    | nil => exact fun h => absurd rfl h
    | cons e es ih =>
      intro _
      by_cases hnil : es = []
      · subst hnil
        simp [Sys.unxPath, Sys.unxName, Sys.unxDrive]
      · rw [List.cons_append, Sys.unxPath_cons (by simp), ih hnil, Sys.unxPath_cons hnil,
          List.append_assoc, List.cons_append]
  rw [translated, (splitOnP_eq isDosSep v).1 h, happend _ (elements_ne_nil hne)]

theorem convert_ok_iff (hname : Named name s) : ∃ b, convert σ s (name.length + 1) = some b ∧
    ((b.text = name ++ EQ :: translated σ (s.drop (name.length + 1)) ∧ b.text.length < b.size) ↔
      Convertible σ s name) := by
  obtain ⟨v, rfl⟩ := hname
  have hdrop : (name ++ [EQ] ++ v).drop (name.length + 1) = v := by
    have hlen : (name ++ [EQ]).length = name.length + 1 := by
      rw [List.length_append, List.length_singleton]
    rw [← hlen, List.drop_left]
  have htake : (name ++ [EQ] ++ v).take (name.length + 1) = name ++ [EQ] := by
    have hlen : (name ++ [EQ]).length = name.length + 1 := by
      rw [List.length_append, List.length_singleton]
    rw [← hlen, List.take_left]
  set size := blockSize (name ++ [EQ] ++ v) (name.length + 1) with hsize
  obtain ⟨t, ht⟩ := path_dos2unx_isSome (σ := σ) v (less size (name.length + 1))
  have hconvert : convert σ (name ++ [EQ] ++ v) (name.length + 1) =
      some ⟨size, name ++ EQ :: t⟩ := by
    simp only [convert, hdrop, htake, ← hsize, ht, Option.bind_eq_bind, Option.bind_some]
    rw [List.append_assoc, List.singleton_append]
  refine ⟨_, hconvert, ?_⟩
  have hlt : size < 2 ^ 32 := blockSize_lt _ _
  have htext : ∀ u : Str, (name ++ EQ :: u).length = name.length + 1 + u.length := by
    intro u
    rw [List.length_append, List.length_cons]
    omega
  simp only [hdrop]
  have hloop : ∀ es, elements isDosSep v = es → (σ.unxPath es).length + (name.length + 1) < size →
      t.length ≤ (σ.unxPath es).length ∧
        (t = σ.unxPath es ↔ σ.Fits (size - (name.length + 1)) es) := by
    intro es hes hfits
    have hless : less size (name.length + 1) = size - (name.length + 1) :=
      less_eq (by omega) hlt
    have hroom : (σ.unxPath es).length < size - (name.length + 1) := by omega
    obtain ⟨t', ht', hle, hiff⟩ := pathLoop_spec hroom (by omega)
    rw [pathDos2unx, hless, hes, ht'] at ht
    obtain rfl := Option.some.inj ht
    exact ⟨hle, hiff⟩
  by_cases hends : EndsEmpty isDosSep v ∧ v ≠ []
  · -- the empty element behind the last separator is lost
    refine iff_of_false ?_ ?_
    · rintro ⟨heq, hbound⟩
      have ht' : t = translated σ v := (List.cons.inj (List.append_cancel_left heq)).2
      rw [ht', htext, translated_of_ends hends.1 hends.2, List.length_append] at hbound
      have hle := (hloop _ rfl (by omega)).1
      rw [ht', translated_of_ends hends.1 hends.2, List.length_append,
        List.length_singleton] at hle
      omega
    · intro h
      have hcomplete := h.complete
      rw [hdrop] at hcomplete
      rcases hcomplete with hnil | hno
      · exact hends.2 hnil
      · exact hno hends.1
  · have hcomplete : v = [] ∨ ¬ EndsEmpty isDosSep v := by
      by_cases hnil : v = []
      · exact Or.inl hnil
      · exact Or.inr fun h => hends ⟨h, hnil⟩
    have hpath : translated σ v = σ.unxPath (elements isDosSep v) := by
      rcases hcomplete with rfl | hno
      · rfl
      · rw [translated, (splitOnP_eq isDosSep v).2 hno]
    have hfits : σ.Fits (size - (name.length + 1)) (elements isDosSep v) ↔
        σ.Fits (size - (name.length + 1)) (v.splitOnP isDosSep) := by
      rcases hcomplete with rfl | hno
      · refine iff_of_true trivial ⟨by decide, fun h => absurd rfl h, trivial⟩
      · rw [(splitOnP_eq isDosSep v).2 hno]
    constructor
    · rintro ⟨heq, hbound⟩
      have ht' : t = translated σ v := (List.cons.inj (List.append_cancel_left heq)).2
      rw [htext, ht'] at hbound
      have hspec := hloop _ rfl (by rw [← hpath]; omega)
      have hfit := fits_iff.mp (hfits.mp (hspec.2.mp (by rw [ht', hpath])))
      refine ⟨by rwa [hdrop], by rw [hdrop]; exact hfit.1, by rwa [hdrop], ?_⟩
      rw [hdrop]
      intro pre post hsplit hpre hpost
      have := hfit.2 pre post hsplit hpre hpost
      omega
    · intro h
      have hbound := h.fits
      rw [hdrop] at hbound
      have hspec := hloop _ rfl (by rw [← hpath]; omega)
      have hfit : σ.Fits (size - (name.length + 1)) (v.splitOnP isDosSep) := by
        refine fits_iff.mpr ⟨by have := h.short; rwa [hdrop] at this, ?_⟩
        intro pre post hsplit hpre hpost
        have := h.room pre post (by rwa [hdrop]) hpre hpost
        omega
      have ht' : t = translated σ v := by rw [hpath, hspec.2.mpr (hfits.mpr hfit)]
      exact ⟨by rw [ht'], by rw [htext, ht']; exact hbound⟩

theorem fixPath_eq (h : envp[i]? = some s) (hpath : PATH <+: s)
    (hfirst : ∀ j < i, ∀ t, envp[j]? = some t → ¬ PATH <+: t) {b : Block}
    (hb : convert σ s 5 = some b) :
    ∃ vars, fixPath σ envp = some vars ∧ vars[i]? = some (.new b) := by
  induction envp generalizing i with
  | nil => exact absurd h (by simp)
  | cons t envp ih =>
    cases i with
    | zero =>
      obtain rfl : t = s := Option.some.inj h
      rw [fixPath, if_pos hpath, hb]
      exact ⟨_, rfl, rfl⟩
    | succ i =>
      have hno : ¬ PATH <+: t := hfirst 0 (Nat.succ_pos i) t rfl
      obtain ⟨vars, hvars, hget⟩ := ih h fun j hj u hu => hfirst (j + 1) (by omega) u hu
      rw [fixPath, if_neg hno, hvars]
      exact ⟨_, rfl, hget⟩

theorem named_of_find {pconv : Str} (h : (names pconv).find? (fun name => Named name s) = some name) :
    Named name s := by
  have hname := List.find?_some h
  exact of_decide_eq_true hname

theorem fixListed_isSome (pconv s : Str) : ∃ var, fixListed σ pconv s = some var := by
  unfold fixListed
  cases hfind : (names pconv).find? (fun name => Named name s) with
  | none => exact ⟨_, rfl⟩
  | some name =>
    obtain ⟨b, hb, -⟩ := convert_ok_iff (σ := σ) (named_of_find hfind)
    exact ⟨.new b, by simp only [hb, Option.map_some]⟩

theorem mapM_fixListed (pconv : Str) (h : envp[i]? = some s) :
    ∃ vars, envp.mapM (fixListed σ pconv) = some vars ∧ vars[i]? = fixListed σ pconv s := by
  have hall : ∀ envp : List Str, ∃ vars, envp.mapM (fixListed σ pconv) = some vars ∧
      ∀ (i : ℕ) s, envp[i]? = some s → vars[i]? = fixListed σ pconv s := by
    intro envp
    induction envp with
    | nil => exact ⟨[], rfl, fun i s h => absurd h (by simp)⟩
    | cons t envp ih =>
      obtain ⟨vars, hvars, hget⟩ := ih
      obtain ⟨var, hvar⟩ := fixListed_isSome (σ := σ) pconv t
      refine ⟨var :: vars, ?_, fun i s h => ?_⟩
      · rw [List.mapM_cons, hvar, hvars]
        rfl
      · cases i with
        | zero =>
          obtain rfl : t = s := Option.some.inj h
          exact hvar.symm
        | succ i => exact hget i s h
  obtain ⟨vars, hvars, hget⟩ := hall envp
  exact ⟨vars, hvars, hget i s h⟩

theorem Listed.named (h : Listed envp i s name) : Named name s := by
  obtain ⟨-, h⟩ := h
  cases hpconv : pconvert envp with
  | some pconv =>
    rw [hpconv] at h
    exact named_of_find h
  | none =>
    rw [hpconv] at h
    obtain ⟨hpath, rfl, -⟩ := h
    exact hpath

theorem Listed.fixEnv_eq (h : Listed envp i s name) {b : Block}
    (hb : convert σ s (name.length + 1) = some b) :
    ∃ vars, fixEnv σ envp = some vars ∧ vars[i]? = some (.new b) := by
  obtain ⟨hget, h⟩ := h
  unfold fixEnv
  cases hpconv : pconvert envp with
  | some pconv =>
    rw [hpconv] at h
    have hfix : fixListed σ pconv s = some (.new b) := by
      unfold fixListed
      simp only at h
      rw [h]
      simp only [hb, Option.map_some]
    obtain ⟨vars, hvars, hentry⟩ := mapM_fixListed (σ := σ) pconv hget
    exact ⟨vars, hvars, by rw [hentry, hfix]⟩
  | none =>
    rw [hpconv] at h
    obtain ⟨hpath, rfl, hfirst⟩ := h
    exact fixPath_eq hget hpath hfirst hb

/-- A variable is converted completely and inside of its block if and only if its list
does not end in a separator, no element has 1024 characters or more, the result fits, and
the loop does not give up early. -/
theorem installed_iff (h : Listed envp i s name) :
    Installed σ envp i s name ↔ Convertible σ s name := by
  obtain ⟨b, hb, hiff⟩ := convert_ok_iff (σ := σ) h.named
  obtain ⟨vars, hvars, hget⟩ := h.fixEnv_eq hb
  rw [← hiff]
  constructor
  · rintro ⟨vars', b', hvars', hget', hok⟩
    obtain rfl : vars = vars' := Option.some.inj (hvars.symm.trans hvars')
    obtain rfl : b = b' := Var.new.inj (Option.some.inj (hget.symm.trans hget'))
    exact hok
  · exact fun hok => ⟨vars, b, hvars, hget, hok⟩

end Conversion

/-- `PATH=A:x;B:y`, without `PCONVERT` and without a root drive. -/
def drives : List Str := [PATH ++ [65, 58, 120, 59, 66, 58, 121]]

theorem installed_iff_demo : Installed ⟨0, 0⟩ [PATH ++ [98, 105, 110, 59, 108, 105, 98]] 0
      (PATH ++ [98, 105, 110, 59, 108, 105, 98]) [80, 65, 84, 72] ↔
    Convertible ⟨0, 0⟩ (PATH ++ [98, 105, 110, 59, 108, 105, 98]) [80, 65, 84, 72] :=
  installed_iff ⟨rfl, by decide, rfl, fun j hj => absurd hj (Nat.not_lt_zero j)⟩

/-- The second element is dropped: `/dev/a/x` is what is left of `/dev/a/x:/dev/b/y`. -/
theorem second_drive_lost : ¬ Installed ⟨0, 0⟩ drives 0 (PATH ++ [65, 58, 120, 59, 66, 58, 121])
    [80, 65, 84, 72] := by
  rintro ⟨vars, b, hvars, hget, htext, -⟩
  have hfix : fixEnv ⟨0, 0⟩ drives =
      some [.new ⟨22, PATH ++ [47, 100, 101, 118, 47, 97, 47, 120]⟩] := by decide
  rw [hfix] at hvars
  obtain rfl := Option.some.inj hvars
  obtain rfl := Var.new.inj (Option.some.inj hget)
  revert htext
  decide

end Mintlib.StartUp
