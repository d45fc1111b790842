import Mintlib.SystemHack

/-!
# The redirections of `system`: the second half of `system_hack`

A handle refers to an open file. The input and the output are put on the handles 0 and 1 and
taken back after the program has run.
-/

namespace Mintlib.Redirect

open Text SystemHack

/-- What a system call that fails returns; the handles of devices go down to -3. -/
abbrev Error : Type := { e : ℤ // e < -3 }

abbrev SMALLEST_VALID_HANDLE : ℤ := -3

abbrev EIHNDL : Error := ⟨-37, by decide⟩

/-- The handles of the process, each with the open file it refers to; they end below `limit`. -/
structure Proc where
  fds : ℤ → Option ℕ
  opened : ℕ
  limit : ℤ
  fresh : ∀ h f, fds h = some f → f < opened
  valid : ∀ h, h < -3 → fds h = none
  unused : ∀ h, limit ≤ h → fds h = none

/-- Which of the calls fail, and how; what the program returns or why it is not run. -/
structure Kernel where
  free : Proc → ℤ
  free_new : ∀ p, 6 ≤ free p ∧ p.fds (free p) = none
  openIn : Option Error
  dupIn : Option Error
  openOut : Option Error
  createOut : Option Error
  dupOut : Option Error
  spawnvp : List (Option Str) → ℤ

def Proc.refer (p : Proc) (h : ℤ) (f : ℕ) (hf : f < p.opened) (hh : -3 ≤ h) : Proc :=
  { p with
    fds := Function.update p.fds h (some f)
    limit := max p.limit (h + 1)
    fresh := by
      intro i g hg
      by_cases hi : i = h
      · rw [hi, Function.update_self] at hg
        rw [← Option.some.inj hg]
        exact hf
      · rw [Function.update_of_ne hi] at hg
        exact p.fresh i g hg
    valid := by
      intro i hi
      rw [Function.update_of_ne (by omega)]
      exact p.valid i hi
    unused := by
      intro i hi
      rw [Function.update_of_ne (by omega)]
      exact p.unused i (by omega) }

def Fclose (p : Proc) (h : ℤ) : Proc :=
  { p with
    fds := Function.update p.fds h none
    fresh := by
      intro i g hg
      by_cases hi : i = h
      · rw [hi, Function.update_self] at hg
        cases hg
      · rw [Function.update_of_ne hi] at hg
        exact p.fresh i g hg
    valid := by
      intro i hi
      by_cases hi' : i = h
      · rw [hi', Function.update_self]
      · rw [Function.update_of_ne hi']
        exact p.valid i hi
    unused := by
      intro i hi
      by_cases hi' : i = h
      · rw [hi', Function.update_self]
      · rw [Function.update_of_ne hi']
        exact p.unused i hi }

/-- `Fforce`; it does nothing if `nonstd` is no handle. -/
def Fforce (p : Proc) (h : ℤ) (hh : -3 ≤ h) (nonstd : ℤ) : Proc :=
  match hf : p.fds nonstd with
  | none => p
  | some f => p.refer h f (p.fresh nonstd f hf) hh

section Calls

variable (kernel : Kernel)

theorem Kernel.free_valid (p : Proc) : -3 ≤ kernel.free p := by
  have := (kernel.free_new p).1
  omega

/-- A new open file on a free handle, for `Fopen` and `Fcreate`. -/
def newFile (fails : Option Error) (p : Proc) : ℤ × Proc :=
  match fails with
  | some e => (e, p)
  | none =>
    (kernel.free p,
      Proc.refer
        { p with
          opened := p.opened + 1
          fresh := fun h f hf => (p.fresh h f hf).trans (Nat.lt_succ_self _) }
        (kernel.free p) p.opened (Nat.lt_succ_self _) (kernel.free_valid p))

def Fdup (fails : Option Error) (p : Proc) (h : ℤ) : ℤ × Proc :=
  match hf : p.fds h with
  | none => (EIHNDL.val, p)
  | some f =>
    match fails with
    | some e => (e, p)
    | none => (kernel.free p, p.refer (kernel.free p) f (p.fresh h f hf) (kernel.free_valid p))

/-- A redirection that failed, or its handle and the one the old file was put on. -/
inductive SetUp
  | failed (p : Proc)
  | done (fd old : ℤ) (p : Proc)

/-- A file that was opened is put on the handle `std`. -/
def setUp (found : ℤ × Proc) (dup : Option Error) (std : ℤ) (hstd : -3 ≤ std) : SetUp :=
  let (fd, p) := found
  if fd < SMALLEST_VALID_HANDLE then .failed p
  else
    let (old, p) := Fdup kernel dup p std
    .done fd old (Fforce p std hstd fd)

def openOutput (append : Bool) (p : Proc) : ℤ × Proc :=
  if append then
    let (outfd, p) := newFile kernel kernel.openOut p
    if outfd < SMALLEST_VALID_HANDLE then newFile kernel kernel.createOut p else (outfd, p)
  else newFile kernel kernel.createOut p

/-- The handle `std` is as it was. -/
def undo (p : Proc) (std : ℤ) (hstd : -3 ≤ std) (fd old : ℤ) : Proc :=
  Fclose (Fclose (Fforce p std hstd old) old) fd

def runOutput (a : Args) (infd oldin : ℤ) (p : Proc) : ℤ × Proc :=
  match
    if a.outfile = [] then .done 1 1 p
    else setUp kernel (openOutput kernel a.append p) kernel.dupOut 1 (by decide)
  with
  | .failed p => (2, p)
  | .done outfd oldout p =>
    let retval := kernel.spawnvp a.argv
    let p := if a.infile = [] then p else undo p 0 (by decide) infd oldin
    let p := if a.outfile = [] then p else undo p 1 (by decide) outfd oldout
    (retval, p)

/-- `system_hack` behind the split: what it returns, and the handles. -/
def runRedirected (a : Args) (p : Proc) : ℤ × Proc :=
  match
    if a.infile = [] then .done 0 0 p
    else setUp kernel (newFile kernel kernel.openIn p) kernel.dupIn 0 (by decide)
  with
  | .failed p => (2, p)
  | .done infd oldin p => runOutput kernel a infd oldin p

/-- `system_hack`; without memory for `argv` it returns at once. -/
def systemHack (malloc : ℕ → Bool) (s : Str) (p : Proc) : Option (ℤ × Proc) := do
  match ← split malloc s with
  | none => some (-1, p)
  | some a => some (runRedirected kernel a p)

end Calls

section Changes

variable {kernel : Kernel} {p p' : Proc} {fd old std h : ℤ} {f : ℕ} {fails dup : Option Error}

theorem refer_fds (hf : f < p.opened) (hh : -3 ≤ h) :
    (p.refer h f hf hh).fds = Function.update p.fds h (some f) := rfl

theorem force_some (hh : -3 ≤ h) (hf : p.fds fd = some f) :
    (Fforce p h hh fd).fds = Function.update p.fds h (some f) := by
  unfold Fforce
  split
  · rename_i hnone
    rw [hnone] at hf
    cases hf
  · rename_i g hg
    rw [hg] at hf
    rw [← Option.some.inj hf]
    rfl

theorem force_none (hh : -3 ≤ h) (hf : p.fds fd = none) : Fforce p h hh fd = p := by
  unfold Fforce
  split
  · rfl
  · rename_i g hg
    rw [hg] at hf
    cases hf

theorem force_opened (hh : -3 ≤ h) : (Fforce p h hh fd).opened = p.opened := by
  unfold Fforce
  split <;> rfl

/-- A file that is new to `p` is on the free handle `fd`. -/
structure Opened (p : Proc) (fd : ℤ) (p' : Proc) : Prop where
  free : 6 ≤ fd ∧ p.fds fd = none
  fds : p'.fds = Function.update p.fds fd (some p.opened)
  opened : p.opened < p'.opened

theorem newFile_none (hfails : fails = none) :
    Opened p (newFile kernel fails p).1 (newFile kernel fails p).2 := by
  rw [hfails]
  exact ⟨kernel.free_new p, rfl, Nat.lt_succ_self _⟩

theorem newFile_some {e : Error} (hfails : fails = some e) : newFile kernel fails p = (e.val, p) := by
  rw [hfails]
  rfl

/-- The handle `std` has a new file, which is on the handle `fd` too. -/
structure Done (p : Proc) (std fd old : ℤ) (p' : Proc) : Prop where
  free : 6 ≤ fd ∧ p.fds fd = none
  used : p'.fds fd = some p.opened
  redirected : p'.fds std = some p.opened
  rest : ∀ h, h ≠ fd → h ≠ old → h ≠ std → p'.fds h = p.fds h
  opened : p.opened < p'.opened

/-- The old file of `std` is on a handle of its own. -/
structure Saved (p : Proc) (std fd old : ℤ) (p' : Proc) : Prop where
  free : 6 ≤ old ∧ p.fds old = none ∧ old ≠ fd
  kept : p'.fds old = p.fds std
  open_std : p.fds std ≠ none

variable (kernel dup) in
theorem setUp_opened (hopen : Opened p fd p') (hstd : -3 ≤ std) (hlow : std < 6) :
    ∃ old q, setUp kernel (fd, p') dup std hstd = .done fd old q ∧ Done p std fd old q ∧
      (dup = none ∧ p.fds std ≠ none → Saved p std fd old q) ∧
      (¬ (dup = none ∧ p.fds std ≠ none) → old < -3) := by
  obtain ⟨hsix, hnew⟩ := hopen.free
  have hvalid : ¬ fd < SMALLEST_VALID_HANDLE := by
    show ¬ fd < -3
    omega
  have hfd : p'.fds fd = some p.opened := by rw [hopen.fds, Function.update_self]
  have hother : ∀ h, h ≠ fd → p'.fds h = p.fds h := by
    intro h hh
    rw [hopen.fds, Function.update_of_ne hh]
  have hkeep : p'.fds std = p.fds std := hother std (by omega)
  rw [setUp]
  simp only [if_neg hvalid]
  refine ⟨_, _, rfl, ?_⟩
  -- whether the handle could be copied, the new file is on it
  by_cases hdup : dup = none ∧ p.fds std ≠ none
  · obtain ⟨f, hf⟩ := Option.ne_none_iff_exists'.mp hdup.2
    have hf' : p'.fds std = some f := hkeep.trans hf
    obtain ⟨hsix', hnew'⟩ := kernel.free_new p'
    have hne : kernel.free p' ≠ fd := by
      intro heq
      rw [heq, hfd] at hnew'
      cases hnew'
    have hcall : Fdup kernel dup p' std = (kernel.free p',
        p'.refer (kernel.free p') f (p'.fresh std f hf') (kernel.free_valid p')) := by
      unfold Fdup
      split
      · rename_i hnone
        rw [hnone] at hf'
        cases hf'
      · rename_i g hg
        rw [hg] at hf'
        obtain rfl := Option.some.inj hf'
        rw [hdup.1]
    rw [hcall]
    simp only
    have hfd' : (p'.refer (kernel.free p') f (p'.fresh std f hf') (kernel.free_valid p')).fds fd =
        some p.opened := by
      rw [refer_fds, Function.update_of_ne hne.symm, hfd]
    have hfds := force_some hstd hfd'
    rw [refer_fds] at hfds
    refine ⟨⟨hopen.free, ?_, ?_, ?_, ?_⟩, fun _ => ⟨⟨hsix', ?_, hne⟩, ?_, hdup.2⟩,
      fun hno => absurd hdup hno⟩
    · rw [hfds, Function.update_of_ne (by omega), Function.update_of_ne hne.symm, hfd]
    · rw [hfds, Function.update_self]
    · intro h hh hold hs
      rw [hfds, Function.update_of_ne hs, Function.update_of_ne hold, hother h hh]
    · rw [force_opened]
      exact hopen.opened
    · rw [← hother _ hne]
      exact hnew'
    · rw [hfds, Function.update_of_ne (by omega), Function.update_self, hf]
  · have hcall : ∃ e : Error, Fdup kernel dup p' std = (e.val, p') := by
      unfold Fdup
      split
      · exact ⟨_, rfl⟩
      · rename_i g hg
        cases hd : dup with
        | some e => exact ⟨e, rfl⟩
        | none =>
          refine absurd ⟨hd, ?_⟩ hdup
          rw [← hkeep, hg]
          exact Option.some_ne_none g
    obtain ⟨e, hcall⟩ := hcall
    rw [hcall]
    simp only
    have hfds := force_some hstd hfd
    refine ⟨⟨hopen.free, ?_, ?_, ?_, ?_⟩, fun hyes => absurd hyes hdup, fun _ => e.property⟩
    · rw [hfds, Function.update_of_ne (by omega), hfd]
    · rw [hfds, Function.update_self]
    · intro h hh _ hs
      rw [hfds, Function.update_of_ne hs, hother h hh]
    · rw [force_opened]
      exact hopen.opened

theorem undo_saved {q : Proc} (hsaved : Saved p std fd old p') (hq : q.fds old = p'.fds old)
    (hstd : -3 ≤ std) (h : ℤ) : (undo q std hstd fd old).fds h =
      if h = fd ∨ h = old then none else if h = std then p.fds std else q.fds h := by
  obtain ⟨f, hf⟩ := Option.ne_none_iff_exists'.mp hsaved.open_std
  have hback : (Fforce q std hstd old).fds = Function.update q.fds std (some f) :=
    force_some hstd (hq.trans (hsaved.kept.trans hf))
  have hall : (undo q std hstd fd old).fds =
      Function.update (Function.update (Function.update q.fds std (some f)) old none) fd none := by
    show Function.update (Function.update (Fforce q std hstd old).fds old none) fd none = _
    rw [hback]
  rw [hall, hf]
  by_cases h₁ : h = fd
  · rw [if_pos (Or.inl h₁), h₁, Function.update_self]
  rw [Function.update_of_ne h₁]
  by_cases h₂ : h = old
  · rw [if_pos (Or.inr h₂), h₂, Function.update_self]
  rw [Function.update_of_ne h₂, if_neg (not_or.mpr ⟨h₁, h₂⟩)]
  by_cases h₃ : h = std
  · rw [if_pos h₃, h₃, Function.update_self]
  · rw [if_neg h₃, Function.update_of_ne h₃]

theorem undo_restores (hdone : Done p std fd old p') (hsaved : Saved p std fd old p')
    (hstd : -3 ≤ std) : (undo p' std hstd fd old).fds = p.fds := by
  funext h
  rw [undo_saved hsaved rfl]
  split_ifs with h₁ h₂
  · rcases h₁ with rfl | rfl
    · exact hdone.free.2.symm
    · exact hsaved.free.2.1.symm
  · rw [h₂]
  · rw [not_or] at h₁
    exact hdone.rest h h₁.1 h₁.2 h₂

theorem undo_lost {q : Proc} (hold : old < -3) (hstd : -3 ≤ std) (hne : h ≠ fd) :
    (undo q std hstd fd old).fds h = q.fds h := by
  have hnone := q.valid old hold
  have hall : (undo q std hstd fd old).fds =
      Function.update (Function.update q.fds old none) fd none := by
    show Function.update (Function.update (Fforce q std hstd old).fds old none) fd none = _
    rw [force_none hstd hnone]
  rw [hall, Function.update_of_ne hne]
  by_cases ho : h = old
  · rw [ho, Function.update_self, hnone]
  · rw [Function.update_of_ne ho]

theorem undo_other {q : Proc} (hstd : -3 ≤ std) (h₁ : h ≠ fd) (h₂ : h ≠ old) (h₃ : h ≠ std) :
    (undo q std hstd fd old).fds h = q.fds h := by
  have hforce : (Fforce q std hstd old).fds h = q.fds h := by
    unfold Fforce
    split
    · rfl
    · rw [refer_fds, Function.update_of_ne h₃]
  show Function.update (Function.update (Fforce q std hstd old).fds old none) fd none h = _
  rw [Function.update_of_ne h₁, Function.update_of_ne h₂, hforce]

theorem not_fresh {n : ℕ} (hn : p.opened ≤ n) : p.fds h ≠ some n := fun hf => by
  have := p.fresh h n hf
  omega

variable (kernel) in
theorem openOutput_eq (append : Bool) (p : Proc) :
    (((append = true ∧ kernel.openOut = none) ∨ kernel.createOut = none) ∧
      ∃ fd p', openOutput kernel append p = (fd, p') ∧ Opened p fd p') ∨
    (¬ ((append = true ∧ kernel.openOut = none) ∨ kernel.createOut = none) ∧
      ∃ e : Error, openOutput kernel append p = (e.val, p)) := by
  have hcreate : (kernel.createOut = none ∧
      ∃ fd p', newFile kernel kernel.createOut p = (fd, p') ∧ Opened p fd p') ∨
      (kernel.createOut ≠ none ∧
        ∃ e : Error, newFile kernel kernel.createOut p = (e.val, p)) := by
    cases hc : kernel.createOut with
    | none => exact Or.inl ⟨rfl, _, _, rfl, newFile_none rfl⟩
    | some e => exact Or.inr ⟨Option.some_ne_none e, e, newFile_some rfl⟩
  cases append with
  | false =>
    simp only [openOutput, Bool.false_eq_true, if_false, false_and, false_or]
    exact hcreate
  | true =>
    simp only [openOutput, if_true, true_and]
    cases ho : kernel.openOut with
    | none =>
      have hopen : Opened p (newFile kernel none p).1 (newFile kernel none p).2 := newFile_none rfl
      have hvalid : ¬ (newFile kernel none p).1 < SMALLEST_VALID_HANDLE := by
        have := hopen.free.1
        show ¬ (newFile kernel none p).1 < -3
        omega
      rw [if_neg hvalid]
      exact Or.inl ⟨Or.inl rfl, _, _, rfl, hopen⟩
    | some e =>
      rw [newFile_some rfl, if_pos e.property]
      simp only [reduceCtorEq, false_or]
      exact hcreate

def InOpened (kernel : Kernel) (a : Args) : Prop := a.infile ≠ [] ∧ kernel.openIn = none

def OutOpened (kernel : Kernel) (a : Args) : Prop :=
  a.outfile ≠ [] ∧ ((a.append = true ∧ kernel.openOut = none) ∨ kernel.createOut = none)

/-- The handles 0 and 1 are saved when they are redirected, and nothing fails behind the
redirection of the input. -/
def Undone (kernel : Kernel) (a : Args) (p : Proc) : Prop :=
  (InOpened kernel a → (kernel.dupIn = none ∧ p.fds 0 ≠ none) ∧
    (a.outfile = [] ∨ OutOpened kernel a)) ∧
  ((a.infile = [] ∨ InOpened kernel a) ∧ OutOpened kernel a → kernel.dupOut = none ∧ p.fds 1 ≠ none)

theorem setUp_failed (e : Error) (dup : Option Error) (hstd : -3 ≤ std) :
    setUp kernel (e.val, p) dup std hstd = .failed p := if_pos e.property

theorem output_iff {a : Args} (hin : a.infile = []) (infd oldin : ℤ) :
    (runOutput kernel a infd oldin p).2.fds = p.fds ↔
      (OutOpened kernel a → kernel.dupOut = none ∧ p.fds 1 ≠ none) := by
  unfold runOutput
  simp only [hin, if_true]
  by_cases hout : a.outfile = []
  · simp only [hout, if_true]
    exact iff_of_true trivial fun hopen => absurd hout hopen.1
  simp only [if_neg hout]
  obtain ⟨hopens, fd, p', hcall, hopen⟩ | ⟨hno, e, hcall⟩ := openOutput_eq kernel a.append p
  · obtain ⟨old, q, hset, hdone, hsaved, hlost⟩ :=
      setUp_opened kernel kernel.dupOut hopen (show -3 ≤ 1 by decide) (by decide)
    rw [hcall, hset]
    simp only
    by_cases hdup : kernel.dupOut = none ∧ p.fds 1 ≠ none
    · refine iff_of_true ?_ fun _ => hdup
      exact undo_restores hdone (hsaved hdup) _
    · refine iff_of_false (fun heq => ?_) fun hcond => hdup (hcond ⟨hout, hopens⟩)
      have hone := congrFun heq 1
      have hfd := hdone.free.1
      rw [undo_lost (hlost hdup) _ (by omega), hdone.redirected] at hone
      exact not_fresh (le_refl _) hone.symm
  · rw [hcall, setUp_failed]
    exact iff_of_true rfl fun hopen => absurd hopen.2 hno

theorem input_iff {a : Args} {p₁ : Proc} {infd oldin : ℤ} (hin : a.infile ≠ [])
    (hdone : Done p 0 infd oldin p₁)
    (hsaved : kernel.dupIn = none ∧ p.fds 0 ≠ none → Saved p 0 infd oldin p₁)
    (hlost : ¬ (kernel.dupIn = none ∧ p.fds 0 ≠ none) → oldin < -3) :
    (runOutput kernel a infd oldin p₁).2.fds = p.fds ↔
      ((kernel.dupIn = none ∧ p.fds 0 ≠ none) ∧ (a.outfile = [] ∨ OutOpened kernel a)) ∧
        (OutOpened kernel a → kernel.dupOut = none ∧ p.fds 1 ≠ none) := by
  have hinfd := hdone.free.1
  unfold runOutput
  simp only [if_neg hin]
  -- only the input is redirected: the copy of handle 0 decides
  by_cases hout : a.outfile = []
  · simp only [hout, if_true, true_or, and_true]
    by_cases hdup : kernel.dupIn = none ∧ p.fds 0 ≠ none
    · refine iff_of_true ?_ ⟨hdup, fun hopen => absurd hout hopen.1⟩
      exact undo_restores hdone (hsaved hdup) _
    · refine iff_of_false (fun heq => ?_) fun hcond => hdup hcond.1
      have hzero := congrFun heq 0
      rw [undo_lost (hlost hdup) _ (by omega), hdone.redirected] at hzero
      exact not_fresh (le_refl _) hzero.symm
  simp only [if_neg hout]
  obtain ⟨hopens, outfd, p', hcall, hopen⟩ | ⟨hno, e, hcall⟩ :=
    openOutput_eq kernel a.append p₁
  swap
  · -- the input stays redirected
    rw [hcall, setUp_failed]
    refine iff_of_false (fun heq => ?_) fun hcond => ?_
    · have hzero := congrFun heq 0
      simp only [hdone.redirected] at hzero
      exact not_fresh (le_refl _) hzero.symm
    · rcases hcond.1.2 with hnil | hopen
      · exact hout hnil
      · exact hno hopen.2
  have hopened : OutOpened kernel a := ⟨hout, hopens⟩
  obtain ⟨oldout, p₂, hset, hdone₂, hsaved₂, hlost₂⟩ :=
    setUp_opened kernel kernel.dupOut hopen (show -3 ≤ 1 by decide) (by decide)
  rw [hcall, hset]
  simp only
  have houtfd := hdone₂.free.1
  -- what was open before the output is redirected is not among its new handles
  have hnew : ∀ h, p₁.fds h ≠ none → h ≠ outfd ∧ h ≠ oldout := by
    intro h hh
    refine ⟨fun heq => hh (heq ▸ hdone₂.free.2), fun heq => ?_⟩
    by_cases hdup : kernel.dupOut = none ∧ p₁.fds 1 ≠ none
    · exact hh (heq ▸ (hsaved₂ hdup).free.2.1)
    · exact hh (heq ▸ p₁.valid oldout (hlost₂ hdup))
  have hzero : p₁.fds 0 ≠ none := by
    rw [hdone.redirected]
    exact Option.some_ne_none _
  have hused : p₁.fds infd ≠ none := by
    rw [hdone.used]
    exact Option.some_ne_none _
  by_cases hdup : kernel.dupIn = none ∧ p.fds 0 ≠ none
  swap
  · refine iff_of_false (fun heq => ?_) fun hcond => hdup hcond.1.1
    have h0 := congrFun heq 0
    rw [undo_other _ (hnew 0 hzero).1 (hnew 0 hzero).2 (by decide),
      undo_lost (hlost hdup) _ (by omega),
      hdone₂.rest 0 (hnew 0 hzero).1 (hnew 0 hzero).2 (by decide), hdone.redirected] at h0
    exact not_fresh (le_refl _) h0.symm
  have hs := hsaved hdup
  have holdin := hs.free.1
  have hsix : p₁.fds 1 = p.fds 1 := hdone.rest 1 (by omega) (by omega) (by decide)
  have holdused : p₁.fds oldin ≠ none := by
    rw [hs.kept]
    exact hs.open_std
  by_cases hdup₂ : kernel.dupOut = none ∧ p₁.fds 1 ≠ none
  swap
  · refine iff_of_false (fun heq => ?_) fun hcond => hdup₂ ?_
    · have h1 := congrFun heq 1
      rw [undo_lost (hlost₂ hdup₂) _ (by omega), undo_other _ (by omega) (by omega) (by decide),
        hdone₂.redirected] at h1
      exact not_fresh hdone.opened.le h1.symm
    · rw [hsix]
      exact hcond.2 hopened
  have hs₂ := hsaved₂ hdup₂
  refine iff_of_true ?_ ⟨⟨hdup, Or.inr hopened⟩, fun _ => hsix ▸ hdup₂⟩
  have hback : p₂.fds oldin = p₁.fds oldin :=
    hdone₂.rest oldin (hnew oldin holdused).1 (hnew oldin holdused).2 (by omega)
  have holdout : oldout ≠ infd ∧ oldout ≠ oldin :=
    ⟨(hnew infd hused).2.symm, (hnew oldin holdused).2.symm⟩
  have hsixout := hs₂.free.1
  have hq : (undo p₂ 0 (by decide) infd oldin).fds oldout = p₂.fds oldout :=
    undo_other _ holdout.1 holdout.2 (by omega)
  -- the handles are gone through: those of the output, 1, those of the input, 0, and the others
  funext h
  rw [undo_saved hs₂ hq, undo_saved hs hback]
  by_cases h₁ : h = outfd ∨ h = oldout
  · rw [if_pos h₁]
    have hnone : p₁.fds h = none := by
      rcases h₁ with rfl | rfl
      · exact hdone₂.free.2
      · exact hs₂.free.2.1
    have hne : h ≠ infd ∧ h ≠ oldin ∧ h ≠ 0 := by
      refine ⟨?_, ?_, ?_⟩
      · rintro rfl
        exact hused hnone
      · rintro rfl
        exact holdused hnone
      · rintro rfl
        exact hzero hnone
    rw [← hdone.rest h hne.1 hne.2.1 hne.2.2, hnone]
  rw [if_neg h₁]
  by_cases h₂ : h = 1
  · rw [if_pos h₂, hsix, h₂]
  rw [if_neg h₂]
  by_cases h₃ : h = infd ∨ h = oldin
  · rw [if_pos h₃]
    rcases h₃ with rfl | rfl
    · exact hdone.free.2.symm
    · exact hs.free.2.1.symm
  rw [if_neg h₃]
  by_cases h₄ : h = 0
  · rw [if_pos h₄, h₄]
  rw [if_neg h₄]
  rw [not_or] at h₁ h₃
  rw [hdone₂.rest h h₁.1 h₁.2 h₂, hdone.rest h h₃.1 h₃.2 h₄]

theorem redirect_iff (kernel : Kernel) (a : Args) (p : Proc) :
    (runRedirected kernel a p).2.fds = p.fds ↔ Undone kernel a p := by
  by_cases hin : a.infile = []
  · have hrun : runRedirected kernel a p = runOutput kernel a 0 0 p := by
      unfold runRedirected
      simp only [hin, if_true]
    rw [hrun, output_iff hin, Undone]
    have hno : ¬ InOpened kernel a := fun h => h.1 hin
    simp only [hin, hno, false_implies, true_and, true_or]
  cases ho : kernel.openIn with
  | some e =>
    have hrun : runRedirected kernel a p = (2, p) := by
      unfold runRedirected
      simp only [if_neg hin, ho, newFile_some rfl, setUp_failed]
    have hno : ¬ InOpened kernel a := fun h => by
      rw [InOpened, ho] at h
      exact absurd h.2 (Option.some_ne_none e)
    rw [hrun, Undone]
    simp only [hin, hno, false_implies, false_or, false_and, and_self]
  | none =>
    have hopen : Opened p (newFile kernel kernel.openIn p).1 (newFile kernel kernel.openIn p).2 :=
      newFile_none ho
    obtain ⟨oldin, p₁, hset, hdone, hsaved, hlost⟩ :=
      setUp_opened kernel kernel.dupIn hopen (show -3 ≤ 0 by decide) (by decide)
    have hrun : runRedirected kernel a p =
        runOutput kernel a (newFile kernel kernel.openIn p).1 oldin p₁ := by
      unfold runRedirected
      simp only [if_neg hin]
      rw [hset]
    have hyes : InOpened kernel a := ⟨hin, ho⟩
    rw [hrun, input_iff hin hdone hsaved hlost, Undone]
    simp only [hyes, true_implies, or_true, true_and]

/-- The same for the command: `system_hack` returns with the handles as they were. -/
theorem handles_iff (kernel : Kernel) (malloc : ℕ → Bool) (s : Str) (p : Proc) :
    (∀ r, systemHack kernel malloc s p = some r → r.2.fds = p.fds) ↔
      ∀ a, split malloc s = some (some a) → Undone kernel a p := by
  constructor
  · intro hkept a ha
    have hrun : systemHack kernel malloc s p = some (runRedirected kernel a p) := by
      rw [systemHack, ha]
      rfl
    exact (redirect_iff kernel a p).mp (hkept _ hrun)
  · intro hundone r hr
    obtain ⟨found, ha, hrun⟩ := Option.bind_eq_some_iff.mp hr
    cases found with
    | none => rw [← Option.some.inj hrun]
    | some a =>
      rw [← Option.some.inj hrun]
      exact (redirect_iff kernel a p).mpr (hundone a ha)

end Changes

def console : Proc where
  fds := fun h => if h = 0 ∨ h = 1 ∨ h = 2 then some 0 else none
  opened := 1
  limit := 3
  fresh := by
    intro h f hf
    split_ifs at hf
    rw [← Option.some.inj hf]
    exact Nat.one_pos
  valid := by
    intro h hh
    rw [if_neg (by omega)]
  unused := by
    intro h hh
    rw [if_neg (by omega)]

def noOutput : Kernel where
  free := fun p => max 6 p.limit
  free_new := fun p => ⟨le_max_left 6 p.limit, p.unused _ (le_max_right 6 p.limit)⟩
  openIn := none
  dupIn := none
  openOut := none
  createOut := some ⟨-36, by decide⟩
  dupOut := none
  spawnvp := fun _ => 0

/-- `ls <a >b` returns with the input on the file `a`. -/
theorem input_left_redirected :
    ¬ (∀ r, systemHack noOutput (fun _ => true) [108, 115, 32, 60, 97, 32, 62, 98] console = some r →
      r.2.fds = console.fds) := by
  intro hkept
  have hrun : (systemHack noOutput (fun _ => true) [108, 115, 32, 60, 97, 32, 62, 98] console).map
      (fun r => r.2.fds 0) = some (some 1) := by decide +kernel
  obtain ⟨r, hr, hzero⟩ := Option.map_eq_some_iff.mp hrun
  rw [hkept r hr] at hzero
  cases hzero

end Mintlib.Redirect
