import Mintlib.Symlink
import Mintlib.Posix

/-!
# Renaming a file: `rename.c`

`rename` asks the kernel to rename, and if that fails it deletes the new name and tries again,
or makes a link and deletes the old name. Calls of the kernel return 0 or a negated error.
-/

namespace Mintlib.Rename

open Text Unx2dos Symlink Posix

structure File where
  st_dev : ℕ
  st_ino : ℕ
  dir : Bool
  content : ℕ
deriving DecidableEq

abbrev Files (ε : Type) := ε → Option File

abbrev Error : Type := { e : ℤ // 0 < e }

/-- The entry that a path names, what `_enoent` finds out, and which of the calls fail, in the
order in which they are made; a call also fails if the files do not allow it. -/
structure Kernel (ε : Type) where
  entry : Str → ε
  enoent : Str → Bool
  statNew : Option Error
  statOld : Option Error
  rename : Option Error
  deleteNew : Option Error
  renameAgain : Option Error
  link : Option Error
  deleteOld : Option Error
  deleteLinked : Option Error
  statAgain : Option Error

section Calls

variable {ε : Type} [DecidableEq ε] (K : Kernel ε)

def sysStat (fails : Option Error) (fs : Files ε) (name : Str) : Except ℤ File :=
  match fails, fs (K.entry name) with
  | some e, _ => .error (-e)
  | none, none => .error (-ENOENT)
  | none, some f => .ok f

def Frename (fails : Option Error) (fs : Files ε) (old new : Str) : ℤ × Files ε :=
  match fails, fs (K.entry old) with
  | some e, _ => (-e, fs)
  | none, none => (-ENOENT, fs)
  | none, some f =>
    (0, Function.update (Function.update fs (K.entry old) none) (K.entry new) (some f))

def Fdelete (fails : Option Error) (fs : Files ε) (name : Str) : ℤ × Files ε :=
  match fails, fs (K.entry name) with
  | some e, _ => (-e, fs)
  | none, none => (-ENOENT, fs)
  | none, some f =>
    if f.dir then (-EACCES, fs) else (0, Function.update fs (K.entry name) none)

def Flink (fails : Option Error) (fs : Files ε) (old new : Str) : ℤ × Files ε :=
  match fails, fs (K.entry old), fs (K.entry new) with
  | some e, _, _ => (-e, fs)
  | none, none, _ => (-ENOENT, fs)
  | none, some _, some _ => (-EACCES, fs)
  | none, some f, none =>
    if f.dir then (-EACCES, fs) else (0, Function.update fs (K.entry new) (some f))

/-- `xattr`, and `errno` if the check of the two files finds an error. -/
def check (fs : Files ε) (oldname newname : Str) : ℤ × Option ℤ :=
  match sysStat K K.statNew fs newname with
  | .error xattr => (xattr, none)
  | .ok newstat =>
    match sysStat K K.statOld fs oldname with
    | .error xattr => (xattr, none)
    | .ok oldstat =>
      if newstat.dir ∧ ¬ oldstat.dir then (0, some EISDIR)
      else if newstat.st_dev = oldstat.st_dev ∧ newstat.st_ino = oldstat.st_ino then
        (0, some EEXIST)
      else (0, none)

def linkOver (fs : Files ε) (oldname newname : Str) : ℤ × Files ε :=
  let (rval, fs) := Flink K K.link fs oldname newname
  if rval = 0 then
    let (r, fs) := Fdelete K K.deleteOld fs oldname
    if r ≠ 0 ∧ r ≠ -ENOENT ∧ r ≠ -ENOTDIR then
      (rval, (Fdelete K K.deleteLinked fs newname).2)
    else (0, fs)
  else if rval = -ENOSYS then (-EACCES, fs)
  else (rval, fs)

/-- What is returned, `errno` if it is set, and the files. -/
structure Outcome (ε : Type) where
  ret : ℤ
  errno : Option ℤ
  files : Files ε

def finish (xattr rval : ℤ) (fs : Files ε) (oldname newname : Str) : Outcome ε :=
  if rval < 0 then
    let missing := match sysStat K K.statAgain fs oldname with
      | .error _ => oldname
      | .ok _ => newname
    let rval := if rval = -ENOTDIR ∧ xattr ≠ -ENOSYS ∧ K.enoent missing then -ENOENT else rval
    ⟨-1, some (-rval), fs⟩
  else ⟨rval, none, fs⟩

def renameNames (fs : Files ε) (oldname newname : Str) : Outcome ε :=
  let (xattr, refused) := check K fs oldname newname
  match refused with
  | some errno => ⟨-1, some errno, fs⟩
  | none =>
    let (rval, fs) := Frename K K.rename fs oldname newname
    if rval = 0 then ⟨0, none, fs⟩
    else if rval ≠ -EXDEV ∧ rval ≠ -ENOENT ∧ rval ≠ -ENOTDIR then
      if newname = oldname then ⟨-1, some EEXIST, fs⟩
      else
        let (r, fs) := Fdelete K K.deleteNew fs newname
        let (rval, fs) :=
          if r = 0 then Frename K K.renameAgain fs oldname newname else (rval, fs)
        let (rval, fs) :=
          if rval = -EACCES ∧ r ≠ -ENOTDIR then linkOver K fs oldname newname else (rval, fs)
        finish K xattr rval fs oldname newname
    else finish K xattr rval fs oldname newname

/-- `__rename`; the names are `none` for `NULL`. The result is `none` if `_unx2dos` leaves a
name without a NUL. -/
def rename (σ : Sys) (unixNames : Bool) (old new : Option Str) (fs : Files ε) :
    Option (Outcome ε) :=
  match old, new with
  | some old, some new => do
    let oldname ← kernelPath σ unixNames old
    let newname ← kernelPath σ unixNames new
    some (renameNames K fs oldname newname)
  | _, _ => some ⟨-1, some EFAULT, fs⟩

end Calls

section Changes

variable {ε : Type} [DecidableEq ε] {K : Kernel ε} {fails : Option Error} {fs : Files ε}
  {old new name : Str}

theorem frename_cases (fails : Option Error) (fs : Files ε) (old new : Str) :
    (∃ f, fs (K.entry old) = some f ∧ Frename K fails fs old new =
      (0, Function.update (Function.update fs (K.entry old) none) (K.entry new) (some f))) ∨
    ∃ r < 0, Frename K fails fs old new = (r, fs) := by
  unfold Frename
  cases fails with
  | some e => exact Or.inr ⟨-e, by have := e.property; omega, rfl⟩
  | none =>
    cases hold : fs (K.entry old) with
    | none => exact Or.inr ⟨-ENOENT, by decide, rfl⟩
    | some f => exact Or.inl ⟨f, rfl, rfl⟩

theorem fdelete_cases (fails : Option Error) (fs : Files ε) (name : Str) :
    (∃ f, fs (K.entry name) = some f ∧
      Fdelete K fails fs name = (0, Function.update fs (K.entry name) none)) ∨
    ∃ r < 0, Fdelete K fails fs name = (r, fs) := by
  unfold Fdelete
  cases fails with
  | some e => exact Or.inr ⟨-e, by have := e.property; omega, rfl⟩
  | none =>
    cases hname : fs (K.entry name) with
    | none => exact Or.inr ⟨-ENOENT, by decide, rfl⟩
    | some f =>
      simp only
      by_cases hdir : f.dir = true
      · rw [if_pos hdir]
        exact Or.inr ⟨-EACCES, by decide, rfl⟩
      · rw [if_neg hdir]
        exact Or.inl ⟨f, rfl, rfl⟩

theorem flink_cases (fails : Option Error) (fs : Files ε) (old new : Str) :
    (∃ f, fs (K.entry old) = some f ∧ fs (K.entry new) = none ∧
      Flink K fails fs old new = (0, Function.update fs (K.entry new) (some f))) ∨
    ∃ r < 0, Flink K fails fs old new = (r, fs) := by
  unfold Flink
  cases fails with
  | some e => exact Or.inr ⟨-e, by have := e.property; omega, rfl⟩
  | none =>
    cases hold : fs (K.entry old) with
    | none => exact Or.inr ⟨-ENOENT, by decide, rfl⟩
    | some f =>
      cases hnew : fs (K.entry new) with
      | some g => exact Or.inr ⟨-EACCES, by decide, rfl⟩
      | none =>
        simp only
        by_cases hdir : f.dir = true
        · rw [if_pos hdir]
          exact Or.inr ⟨-EACCES, by decide, rfl⟩
        · rw [if_neg hdir]
          exact Or.inl ⟨f, rfl, trivial, rfl⟩

/-- The new name has the old file and the old name has none, or nothing has changed. -/
structure AllOrNothing (K : Kernel ε) (fs : Files ε) (old new : Str) (o : Outcome ε) : Prop where
  failed : o.ret = -1 → o.files = fs
  renamed : o.ret = 0 → ∃ f, fs (K.entry old) = some f ∧ o.files (K.entry new) = some f ∧
    o.files (K.entry old) = none

def Moved (K : Kernel ε) (fs : Files ε) (old new : Str) : Prop :=
  (Flink K K.link fs old new).1 = 0 ∧
    (Fdelete K K.deleteOld (Flink K K.link fs old new).2 old).1 = 0

theorem linkOver_cases (fs : Files ε) (old new : Str) :
    (Moved K fs old new ∧ ∃ f, fs (K.entry old) = some f ∧ K.entry old ≠ K.entry new ∧
      linkOver K fs old new = (0, Function.update (Function.update fs (K.entry new) (some f))
        (K.entry old) none)) ∨
    (¬ Moved K fs old new ∧ (Flink K K.link fs old new).1 = 0 ∧
      ∃ fs', linkOver K fs old new = (0, fs') ∧ fs' (K.entry old) ≠ none) ∨
    (¬ Moved K fs old new ∧ (Flink K K.link fs old new).1 ≠ 0 ∧
      ∃ r < 0, linkOver K fs old new = (r, fs)) := by
  unfold linkOver Moved
  -- the link could be made or not
  obtain ⟨f, hold, hnew, hlink⟩ | ⟨r, hr, hlink⟩ := flink_cases (K := K) K.link fs old new
  · have hne : K.entry old ≠ K.entry new := by
      intro heq
      rw [heq, hnew] at hold
      cases hold
    rw [hlink]
    simp only [if_true]
    have holdlink : Function.update fs (K.entry new) (some f) (K.entry old) = some f := by
      rw [Function.update_of_ne hne, hold]
    -- the old name goes, or the new one is taken back and the 0 of `Flink` is returned
    obtain ⟨g, hg, hdelete⟩ | ⟨r, hr, hdelete⟩ := fdelete_cases (K := K) K.deleteOld
      (Function.update fs (K.entry new) (some f)) old
    · rw [hdelete]
      refine Or.inl ⟨⟨trivial, rfl⟩, f, hold, hne, ?_⟩
      rw [if_neg fun h => h.1 rfl]
    · rw [hdelete]
      have hrne : r ≠ 0 := by omega
      refine Or.inr (Or.inl ⟨fun h => hrne h.2, trivial, ?_⟩)
      simp only
      by_cases hundo : r ≠ 0 ∧ r ≠ -ENOENT ∧ r ≠ -ENOTDIR
      · rw [if_pos hundo]
        refine ⟨_, rfl, ?_⟩
        obtain ⟨g, -, hdelete'⟩ | ⟨r', -, hdelete'⟩ := fdelete_cases (K := K) K.deleteLinked
          (Function.update fs (K.entry new) (some f)) new
        · rw [hdelete']
          simp only
          rw [Function.update_of_ne hne, holdlink]
          exact Option.some_ne_none f
        · rw [hdelete']
          simp only
          rw [holdlink]
          exact Option.some_ne_none f
      · rw [if_neg hundo]
        refine ⟨_, rfl, ?_⟩
        rw [holdlink]
        exact Option.some_ne_none f
  · have hrne : r ≠ 0 := by omega
    rw [hlink]
    refine Or.inr (Or.inr ⟨fun h => hrne h.1, hrne, ?_⟩)
    simp only [if_neg hrne]
    by_cases hnosys : r = -ENOSYS
    · rw [if_pos hnosys]
      exact ⟨-EACCES, by decide, rfl⟩
    · rw [if_neg hnosys]
      exact ⟨r, hr, rfl⟩

omit [DecidableEq ε] in
theorem failed_unchanged (errno : Option ℤ) :
    AllOrNothing K fs old new ⟨-1, errno, fs⟩ :=
  ⟨fun _ => rfl, fun h => absurd h (show ¬ (-1 : ℤ) = 0 by decide)⟩

omit [DecidableEq ε] in
theorem returned_iff {fs' : Files ε} {errno : Option ℤ} :
    AllOrNothing K fs old new ⟨0, errno, fs'⟩ ↔ ∃ f, fs (K.entry old) = some f ∧
      fs' (K.entry new) = some f ∧ fs' (K.entry old) = none :=
  ⟨fun h => h.renamed rfl, fun h => ⟨fun h => absurd h (show ¬ (0 : ℤ) = -1 by decide), fun _ => h⟩⟩

omit [DecidableEq ε] in
theorem finish_iff {xattr rval : ℤ} {fs' : Files ε} (hrval : rval ≤ 0) :
    AllOrNothing K fs old new (finish K xattr rval fs' old new) ↔
      (rval ≠ 0 → fs' = fs) ∧ (rval = 0 → ∃ f, fs (K.entry old) = some f ∧
        fs' (K.entry new) = some f ∧ fs' (K.entry old) = none) := by
  unfold finish
  by_cases hzero : rval = 0
  · rw [if_neg (by omega), hzero, returned_iff]
    exact ⟨fun h => ⟨fun hne => absurd rfl hne, fun _ => h⟩, fun h => h.2 rfl⟩
  · rw [if_pos (by omega)]
    constructor
    · exact fun h => ⟨fun _ => h.failed rfl, fun h => absurd h hzero⟩
    · rintro ⟨hsame, -⟩
      rw [hsame hzero]
      exact failed_unchanged _

theorem link_iff {fs₁ : Files ε} {xattr : ℤ} (hkeep : ∀ f, K.entry old ≠ K.entry new →
      fs₁ (K.entry old) = some f → fs (K.entry old) = some f) :
    AllOrNothing K fs old new
        (finish K xattr (linkOver K fs₁ old new).1 (linkOver K fs₁ old new).2 old new) ↔
      Moved K fs₁ old new ∨ ((Flink K K.link fs₁ old new).1 ≠ 0 ∧ fs₁ = fs) := by
  obtain ⟨hmoved, f, hold, hne, hlink⟩ | ⟨hnot, hzero, fs', hlink, hstill⟩ |
    ⟨hnot, hfail, r, hr, hlink⟩ := linkOver_cases (K := K) fs₁ old new
  · rw [hlink, finish_iff (le_refl _)]
    refine iff_of_true ⟨fun h => absurd rfl h, fun _ => ⟨f, hkeep f hne hold, ?_, ?_⟩⟩
      (Or.inl hmoved)
    · simp only
      rw [Function.update_of_ne hne.symm, Function.update_self]
    · simp only
      rw [Function.update_self]
  · rw [hlink, finish_iff (le_refl _)]
    refine iff_of_false (fun h => ?_) fun h => ?_
    · obtain ⟨f, -, -, hgone⟩ := h.2 rfl
      exact hstill hgone
    · exact h.elim hnot fun h => h.1 hzero
  · have hrne : r ≠ 0 := by omega
    rw [hlink, finish_iff (le_of_lt hr)]
    constructor
    · intro h
      exact Or.inr ⟨hfail, h.1 hrne⟩
    · intro h
      exact ⟨fun _ => (h.resolve_left hnot).2, fun hzero => absurd hzero hrne⟩

/-- The check refuses, or what fails leaves the files alone:
* the first `Frename` succeeds, for two entries;
* it fails in a way that ends the call;
* the new name cannot be deleted, and no link is made or the old name is deleted behind it;
* the new name is deleted, and the second `Frename` succeeds, or it fails for want of
  permission and the file is moved by a link. -/
def Atomic (K : Kernel ε) (fs : Files ε) (old new : Str) : Prop :=
  let first := (Frename K K.rename fs old new).1
  let deleted := Fdelete K K.deleteNew fs new
  let second := (Frename K K.renameAgain deleted.2 old new).1
  (check K fs old new).2 ≠ none ∨
  (first = 0 ∧ K.entry old ≠ K.entry new) ∨
  (first ≠ 0 ∧ (first = -EXDEV ∨ first = -ENOENT ∨ first = -ENOTDIR ∨ new = old ∨
    (deleted.1 ≠ 0 ∧ (first = -EACCES → deleted.1 ≠ -ENOTDIR →
      (Flink K K.link fs old new).1 = 0 → Moved K fs old new)) ∨
    (deleted.1 = 0 ∧ (second = 0 ∨ (second = -EACCES ∧ Moved K deleted.2 old new)))))

theorem delete_iff {first xattr : ℤ} (hfirst : first < 0) :
    AllOrNothing K fs old new
      (let (r, fs) := Fdelete K K.deleteNew fs new
        let (rval, fs) :=
          if r = 0 then Frename K K.renameAgain fs old new else (first, fs)
        let (rval, fs) :=
          if rval = -EACCES ∧ r ≠ -ENOTDIR then linkOver K fs old new else (rval, fs)
        finish K xattr rval fs old new) ↔
      ((Fdelete K K.deleteNew fs new).1 ≠ 0 ∧
        (first = -EACCES → (Fdelete K K.deleteNew fs new).1 ≠ -ENOTDIR →
          (Flink K K.link fs old new).1 = 0 → Moved K fs old new)) ∨
      ((Fdelete K K.deleteNew fs new).1 = 0 ∧
        ((Frename K K.renameAgain (Fdelete K K.deleteNew fs new).2 old new).1 = 0 ∨
          ((Frename K K.renameAgain (Fdelete K K.deleteNew fs new).2 old new).1 = -EACCES ∧
            Moved K (Fdelete K K.deleteNew fs new).2 old new))) := by
  -- the new name could be deleted or not
  obtain ⟨g, hnew, hdelete⟩ | ⟨r, hr, hdelete⟩ := fdelete_cases (K := K) K.deleteNew fs new
  · rw [hdelete]
    simp only [if_true, ne_eq, not_true, false_and, false_or, true_and]
    have hlost : Function.update fs (K.entry new) none ≠ fs := by
      intro heq
      have := congrFun heq (K.entry new)
      rw [Function.update_self, hnew] at this
      cases this
    have hkeep : ∀ f, K.entry old ≠ K.entry new →
        Function.update fs (K.entry new) none (K.entry old) = some f →
        fs (K.entry old) = some f := by
      intro f hne hold
      rwa [Function.update_of_ne hne] at hold
    -- and then the second `Frename` works or not
    obtain ⟨f, hold, hrename⟩ | ⟨r, hr, hrename⟩ := frename_cases (K := K) K.renameAgain
      (Function.update fs (K.entry new) none) old new
    · have hne : K.entry old ≠ K.entry new := by
        intro heq
        rw [heq, Function.update_self] at hold
        cases hold
      rw [hrename]
      simp only [show ¬ (0 : ℤ) = -EACCES by decide, false_and, if_false, true_or]
      rw [finish_iff (le_refl _)]
      refine iff_of_true ⟨fun h => absurd rfl h, fun _ => ⟨f, hkeep f hne hold, ?_, ?_⟩⟩ trivial
      · rw [Function.update_self]
      · rw [Function.update_of_ne hne, Function.update_self]
    · have hrne : r ≠ 0 := by omega
      rw [hrename]
      simp only [hrne, false_or]
      by_cases hacces : r = -EACCES
      · have hboth : r = -EACCES ∧ ¬ (0 : ℤ) = -ENOTDIR := ⟨hacces, by decide⟩
        rw [if_pos hboth, link_iff hkeep]
        constructor
        · exact fun h => ⟨hacces, h.resolve_right fun h => hlost h.2⟩
        · exact fun h => Or.inl h.2
      · rw [if_neg fun h => hacces h.1, finish_iff (le_of_lt hr)]
        exact iff_of_false (fun h => hlost (h.1 hrne)) fun h => hacces h.1
  · have hrne : r ≠ 0 := by omega
    rw [hdelete]
    simp only [hrne, if_false, ne_eq, not_false_iff, true_and, false_and, or_false]
    by_cases hboth : first = -EACCES ∧ ¬ r = -ENOTDIR
    · rw [if_pos hboth, link_iff fun f _ h => h]
      constructor
      · exact fun h _ _ hzero => h.resolve_right fun h => h.1 hzero
      · intro h
        by_cases hzero : (Flink K K.link fs old new).1 = 0
        · exact Or.inl (h hboth.1 hboth.2 hzero)
        · exact Or.inr ⟨hzero, rfl⟩
    · rw [if_neg hboth, finish_iff (le_of_lt hfirst)]
      refine iff_of_true ⟨fun _ => rfl, fun h => ?_⟩ fun hfirst hr _ => absurd ⟨hfirst, hr⟩ hboth
      omega

/-- `rename` is atomic for the names of the kernel if and only if the calls allow it. -/
theorem renameNames_iff (K : Kernel ε) (fs : Files ε) (old new : Str) :
    AllOrNothing K fs old new (renameNames K fs old new) ↔ Atomic K fs old new := by
  unfold renameNames Atomic
  cases hcheck : check K fs old new with
  | mk xattr refused =>
  cases refused with
  | some errno => exact iff_of_true (failed_unchanged _) (Or.inl (Option.some_ne_none _))
  | none =>
    simp only [ne_eq, not_true, false_or]
    obtain ⟨f, hold, hrename⟩ | ⟨r, hr, hrename⟩ := frename_cases (K := K) K.rename fs old new
    · rw [hrename]
      simp only [if_true, not_true, false_and, or_false, true_and]
      rw [returned_iff]
      constructor
      · rintro ⟨g, -, -, hgone⟩ heq
        rw [heq, Function.update_self] at hgone
        cases hgone
      · intro hne
        refine ⟨f, hold, Function.update_self _ _ _, ?_⟩
        rw [Function.update_of_ne hne, Function.update_self]
    · have hrne : r ≠ 0 := by omega
      rw [hrename]
      simp only [hrne, if_false, false_and, false_or, not_false_iff, true_and]
      by_cases hends : r = -EXDEV ∨ r = -ENOENT ∨ r = -ENOTDIR
      · have hno : ¬ (¬ r = -EXDEV ∧ ¬ r = -ENOENT ∧ ¬ r = -ENOTDIR) := by tauto
        rw [if_neg hno, finish_iff (le_of_lt hr)]
        refine iff_of_true ⟨fun _ => rfl, fun h => absurd h hrne⟩ ?_
        tauto
      · have hgo : ¬ r = -EXDEV ∧ ¬ r = -ENOENT ∧ ¬ r = -ENOTDIR := by tauto
        rw [if_pos hgo]
        simp only [hgo, false_or]
        by_cases hsame : new = old
        · rw [if_pos hsame]
          exact iff_of_true (failed_unchanged _) (Or.inl hsame)
        · simp only [hsame, if_false, false_or]
          exact delete_iff hr

/-- `rename` returns, and it is atomic: it fails and changes nothing, or it succeeds and the new
name has the file of the old one. -/
def Renames (K : Kernel ε) (σ : Sys) (unixNames : Bool) (old new : Str) (fs : Files ε) : Prop :=
  ∃ oldname newname o, kernelPath σ unixNames old = some oldname ∧
    kernelPath σ unixNames new = some newname ∧
    rename K σ unixNames (some old) (some new) fs = some o ∧
    AllOrNothing K fs oldname newname o

/-- This is so if and only if the names fit and the calls that fail leave the files alone. -/
theorem renames_iff (K : Kernel ε) (σ : Sys) (unixNames : Bool) (old new : Str) (fs : Files ε) :
    Renames K σ unixNames old new fs ↔
      ∃ oldname newname, kernelPath σ unixNames old = some oldname ∧
        kernelPath σ unixNames new = some newname ∧ Atomic K fs oldname newname := by
  constructor
  · rintro ⟨oldname, newname, o, hold, hnew, hrun, hall⟩
    simp only [rename, hold, hnew, Option.bind_eq_bind, Option.bind_some] at hrun
    rw [← Option.some.inj hrun, renameNames_iff] at hall
    exact ⟨oldname, newname, hold, hnew, hall⟩
  · rintro ⟨oldname, newname, hold, hnew, hatomic⟩
    refine ⟨oldname, newname, renameNames K fs oldname newname, hold, hnew, ?_,
      (renameNames_iff K fs oldname newname).mpr hatomic⟩
    simp only [rename, hold, hnew, Option.bind_eq_bind, Option.bind_some]

end Changes

/-- A kernel that may not take `a` out of its directory, and has no links. -/
def strict : Kernel Str where
  entry := id
  enoent := fun _ => false
  statNew := none
  statOld := none
  rename := some ⟨EACCES, by decide⟩
  deleteNew := none
  renameAgain := some ⟨EACCES, by decide⟩
  link := some ⟨ENOSYS, by decide⟩
  deleteOld := none
  deleteLinked := none
  statAgain := none

/-- The files `a` and `b`. -/
def twoFiles : Files Str := fun name =>
  if name = [97] then some ⟨0, 1, false, 1⟩
  else if name = [98] then some ⟨0, 2, false, 2⟩
  else none

/-- The second `Frename` fails: `b` is lost and -1 is returned. -/
theorem target_lost : ¬ Renames strict ⟨0, 0⟩ true [97] [98] twoFiles := by
  rintro ⟨oldname, newname, o, hold, hnew, hrun, hall⟩
  obtain rfl := Option.some.inj hold
  obtain rfl := Option.some.inj hnew
  obtain rfl := Option.some.inj hrun
  have hret : (renameNames strict twoFiles [97] [98]).ret = -1 := by decide +kernel
  have hlost : (renameNames strict twoFiles [97] [98]).files [98] = none := by decide +kernel
  rw [hall.failed hret] at hlost
  exact absurd hlost (by decide)

end Mintlib.Rename
