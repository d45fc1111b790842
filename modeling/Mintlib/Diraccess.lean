import Mintlib.PipeLinks
import Mintlib.Posix

/-!
# Who may write a directory: `diraccess.c` and `access.c`

`access` goes by the real ids, and `__diraccess` repeats it for the effective ones.
-/

namespace Mintlib.Diraccess

open Posix
open PipeLinks (S_ISDIR)

abbrev F_OK : ℕ := 0
abbrev W_OK : ℕ := 2

structure Stat where
  st_mode : ℕ
  st_uid : ℕ
  st_gid : ℕ

/-- The user and the group that are asked for. -/
structure Ids where
  uid : ℕ
  gid : ℕ

/-- The version of the kernel, and what `getgroups` stores; nothing, if it fails. -/
structure Sys where
  mint : ℕ
  groups : List ℕ

/-- `((mode >> shift) & bits) == bits`. -/
def Grants (mode shift bits : ℕ) : Prop := (mode >>> shift) &&& bits = bits

instance (mode shift bits : ℕ) : Decidable (Grants mode shift bits) :=
  inferInstanceAs (Decidable (_ = _))

/-- What `access` returns for a permission that is granted or not, and `errno`. -/
def accdn (errno : ℕ) (granted : Prop) [Decidable granted] : ℤ × ℕ :=
  if granted then (0, errno) else (-1, EACCES)

/-- The rest of `access`, from the first entry of the group list that has not been looked at. -/
def accessGroups (st : Stat) (mode errno : ℕ) : List ℕ → ℤ × ℕ
  | [] => accdn errno (Grants st.st_mode 0 mode)
  | group :: groups =>
    if group = st.st_gid then accdn errno (Grants st.st_mode 3 mode)
    else accessGroups st mode errno groups

/-- `__access`, given what `__quickstat` finds and the ids. -/
def access (sys : Sys) (ids : Ids) (quickstat : Except ℕ Stat) (mode errno : ℕ) : ℤ × ℕ :=
  match quickstat with
  | .error e => (-1, e)
  | .ok sb =>
    if mode = F_OK then (0, errno)
    else if ids.uid = 0 then (0, errno)
    else if sys.mint < 9 ∨ ids.uid = sb.st_uid then accdn errno (Grants sb.st_mode 6 mode)
    else if ids.gid = sb.st_gid then accdn errno (Grants sb.st_mode 3 mode)
    else if 0x10b ≤ sys.mint then accessGroups sb mode errno sys.groups
    else accdn errno (Grants sb.st_mode 0 mode)

/-- What `__diraccess` returns for a permission. -/
def retval (granted : Prop) [Decidable granted] : ℤ := if granted then 0 else -1

/-- The loop of `__diraccess`. -/
def diraccessGroups (st : Stat) : List ℕ → ℤ
  | [] => -1
  | group :: groups =>
    if group = st.st_gid then retval (Grants st.st_mode 3 W_OK) else diraccessGroups st groups

/-- `__diraccess`; `errno` is what it was. -/
def diraccess (sys : Sys) (ids : Ids) (quickstat : Except ℕ Stat) (errno : ℕ) : ℤ × ℕ :=
  match quickstat with
  | .error _ => (-1, errno)
  | .ok statbuf =>
    if ¬ S_ISDIR statbuf.st_mode then (-1, errno)
    else if ids.uid = 0 then (0, errno)
    else if sys.mint < 9 ∧ ids.uid = statbuf.st_uid then
      (retval (Grants statbuf.st_mode 6 W_OK), errno)
    else if ids.gid = statbuf.st_gid then (retval (Grants statbuf.st_mode 3 W_OK), errno)
    else if 0x10b ≤ sys.mint then (diraccessGroups statbuf sys.groups, errno)
    else (-1, errno)

def InGroup (sys : Sys) (ids : Ids) (st : Stat) : Prop :=
  ids.gid = st.st_gid ∨ 0x10b ≤ sys.mint ∧ st.st_gid ∈ sys.groups

instance (sys : Sys) (ids : Ids) (st : Stat) : Decidable (InGroup sys ids st) :=
  inferInstanceAs (Decidable (_ ∨ _))

/-- Where the bits of the first class are that matches; without users everybody is the owner. -/
def shiftOf (sys : Sys) (ids : Ids) (st : Stat) : ℕ :=
  if sys.mint < 9 ∨ ids.uid = st.st_uid then 6 else if InGroup sys ids st then 3 else 0

/-- The super-user, or the first class that matches, has write permission. -/
def MayWrite (sys : Sys) (ids : Ids) (st : Stat) : Prop :=
  ids.uid = 0 ∨ Grants st.st_mode (shiftOf sys ids st) W_OK

instance (sys : Sys) (ids : Ids) (st : Stat) : Decidable (MayWrite sys ids st) :=
  inferInstanceAs (Decidable (_ ∨ _))

section Class

variable {sys : Sys} {ids : Ids} {st : Stat} {errno : ℕ}

theorem accdn_zero {granted : Prop} [Decidable granted] :
    (accdn errno granted).1 = 0 ↔ granted := by
  unfold accdn
  split_ifs with h
  · exact iff_of_true rfl h
  · exact iff_of_false (by decide) h

theorem retval_zero {granted : Prop} [Decidable granted] : retval granted = 0 ↔ granted := by
  unfold retval
  split_ifs with h
  · exact iff_of_true rfl h
  · exact iff_of_false (by decide) h

theorem accessGroups_zero {mode : ℕ} (groups : List ℕ) :
    (accessGroups st mode errno groups).1 = 0 ↔
      Grants st.st_mode (if st.st_gid ∈ groups then 3 else 0) mode := by
  induction groups with
  | nil => exact accdn_zero
  | cons group groups ih =>
    rw [accessGroups]
    by_cases hgroup : group = st.st_gid
    · rw [if_pos hgroup, if_pos (by rw [hgroup]; exact List.mem_cons_self)]
      exact accdn_zero
    · have hmem : st.st_gid ∈ group :: groups ↔ st.st_gid ∈ groups :=
        ⟨fun h => (List.mem_cons.mp h).resolve_left (Ne.symm hgroup), List.mem_cons_of_mem group⟩
      rw [if_neg hgroup, ih]
      simp only [hmem]

theorem diraccessGroups_zero (groups : List ℕ) : diraccessGroups st groups = 0 ↔
    st.st_gid ∈ groups ∧ Grants st.st_mode 3 W_OK := by
  induction groups with
  | nil => exact iff_of_false (show ¬ (-1 : ℤ) = 0 by decide) (fun h => absurd h.1 List.not_mem_nil)
  | cons group groups ih =>
    rw [diraccessGroups]
    by_cases hgroup : group = st.st_gid
    · rw [if_pos hgroup, retval_zero, hgroup]
      exact (and_iff_right List.mem_cons_self).symm
    · rw [if_neg hgroup, ih, List.mem_cons, or_iff_right (Ne.symm hgroup)]

theorem inGroup_iff (hgid : ¬ ids.gid = st.st_gid) :
    InGroup sys ids st ↔ 0x10b ≤ sys.mint ∧ st.st_gid ∈ sys.groups := or_iff_right hgid

theorem access_zero : (access sys ids (.ok st) W_OK errno).1 = 0 ↔ MayWrite sys ids st := by
  have hmode : W_OK ≠ F_OK := by decide
  unfold access MayWrite shiftOf
  simp only [if_neg hmode]
  by_cases hroot : ids.uid = 0
  · rw [if_pos hroot]
    exact iff_of_true rfl (.inl hroot)
  rw [if_neg hroot, or_iff_right hroot]
  by_cases howner : sys.mint < 9 ∨ ids.uid = st.st_uid
  · rw [if_pos howner, if_pos howner]
    exact accdn_zero
  rw [if_neg howner, if_neg howner]
  by_cases hgid : ids.gid = st.st_gid
  · have hin : InGroup sys ids st := .inl hgid
    rw [if_pos hgid, if_pos hin]
    exact accdn_zero
  rw [if_neg hgid]
  by_cases hmint : 0x10b ≤ sys.mint
  · rw [if_pos hmint, accessGroups_zero]
    simp only [inGroup_iff hgid, hmint, true_and]
  · have hout : ¬ InGroup sys ids st := fun h => hmint ((inGroup_iff hgid).mp h).1
    rw [if_neg hmint, if_neg hout]
    exact accdn_zero

theorem diraccess_zero (hdir : S_ISDIR st.st_mode) :
    (diraccess sys ids (.ok st) errno).1 = 0 ↔ ids.uid = 0 ∨
      if sys.mint < 9 ∧ ids.uid = st.st_uid then Grants st.st_mode 6 W_OK
      else InGroup sys ids st ∧ Grants st.st_mode 3 W_OK := by
  unfold diraccess
  simp only [if_neg (not_not.mpr hdir)]
  by_cases hroot : ids.uid = 0
  · rw [if_pos hroot]
    exact iff_of_true rfl (.inl hroot)
  rw [if_neg hroot, or_iff_right hroot]
  by_cases howner : sys.mint < 9 ∧ ids.uid = st.st_uid
  · rw [if_pos howner, if_pos howner]
    exact retval_zero
  rw [if_neg howner, if_neg howner]
  by_cases hgid : ids.gid = st.st_gid
  · have hin : InGroup sys ids st := .inl hgid
    rw [if_pos hgid, and_iff_right hin]
    exact retval_zero
  rw [if_neg hgid, inGroup_iff hgid]
  by_cases hmint : 0x10b ≤ sys.mint
  · rw [if_pos hmint, and_iff_right hmint]
    exact diraccessGroups_zero sys.groups
  · rw [if_neg hmint]
    refine iff_of_false ?_ (fun h => hmint h.1.1)
    show ¬ (-1 : ℤ) = 0
    decide

end Class

/-- The promise: `name` is a directory, and `access` with these ids would allow to write it. -/
def Right (sys : Sys) (ids : Ids) (quickstat : Except ℕ Stat) (errno : ℕ) : Prop :=
  (diraccess sys ids quickstat errno).1 = 0 ↔
    (∃ st, quickstat = .ok st ∧ S_ISDIR st.st_mode) ∧
      (access sys ids quickstat W_OK errno).1 = 0

/-- When the effective ids get the answer of `access`: the bits of the owner are only looked at
without a kernel that knows users, and those of the others never. So what counts is that the class
that should decide is the group, or has the same bit as the group, or, outside of the group, has
none. -/
theorem diraccess_iff (sys : Sys) (ids : Ids) (quickstat : Except ℕ Stat) (errno : ℕ) :
    Right sys ids quickstat errno ↔
      ∀ st, quickstat = .ok st → S_ISDIR st.st_mode → ids.uid = 0 ∨
        (sys.mint < 9 ∧ ids.uid = st.st_uid) ∨
        (Grants st.st_mode (shiftOf sys ids st) W_OK ↔
          InGroup sys ids st ∧ Grants st.st_mode 3 W_OK) := by
  unfold Right
  cases quickstat with
  | error e =>
    refine iff_of_true (iff_of_false (by show ¬ (-1 : ℤ) = 0; decide) ?_) fun st h => (nomatch h)
    exact fun ⟨⟨st, hst, _⟩, _⟩ => nomatch hst
  | ok st =>
    by_cases hdir : S_ISDIR st.st_mode
    · have hall : ∀ P : Stat → Prop, (∀ st', (Except.ok st : Except ℕ Stat) = .ok st' →
          S_ISDIR st'.st_mode → P st') ↔ P st := by
        refine fun P => ⟨fun h => h st rfl hdir, fun h st' heq _ => ?_⟩
        obtain rfl := Except.ok.inj heq
        exact h
      have hfound : ∃ st', (Except.ok st : Except ℕ Stat) = .ok st' ∧ S_ISDIR st'.st_mode :=
        ⟨st, rfl, hdir⟩
      rw [hall, diraccess_zero hdir, access_zero, and_iff_right hfound, MayWrite]
      by_cases hroot : ids.uid = 0
      · exact iff_of_true (iff_of_true (.inl hroot) (.inl hroot)) (.inl hroot)
      rw [or_iff_right hroot, or_iff_right hroot, or_iff_right hroot]
      by_cases howner : sys.mint < 9 ∧ ids.uid = st.st_uid
      · rw [if_pos howner, shiftOf, if_pos (.inl howner.1)]
        exact iff_of_true Iff.rfl (.inl howner)
      · rw [if_neg howner, or_iff_right howner]
        exact ⟨Iff.symm, Iff.symm⟩
    · refine iff_of_true (iff_of_false ?_ ?_) fun st' heq hdir' => ?_
      · unfold diraccess
        simp only [if_pos hdir]
        decide
      · rintro ⟨⟨st', heq, hdir'⟩, -⟩
        obtain rfl := Except.ok.inj heq
        exact hdir hdir'
      · obtain rfl := Except.ok.inj heq
        exact absurd hdir' hdir

/-- A directory that everybody may write, of another user and group: `access` allows it. -/
theorem others_refused : ¬ Right ⟨0x113, []⟩ ⟨1000, 100⟩ (.ok ⟨0o41777, 0, 0⟩) 0 := by
  intro h
  exact absurd (h.mpr ⟨⟨_, rfl, by decide⟩, by decide⟩) (by decide)

end Mintlib.Diraccess
