import Mintlib.NameRoom
import Mintlib.Posix

/-!
# The text of a symbolic link: `symlink.c` and `readlink.c`

Links are stored in DOS form. `readlink` translates them back with `_dos2unx`, which does
not know what `_unx2dos` has made of every name.
-/

namespace Mintlib.Symlink

open Text Unx2dos PathLists NameRoom Posix

/-- The kernel, which stores links and gives back what it has stored. The last three
fields are what `_enoent` and `__sys_stat` find out about a file. -/
structure Kernel (κ : Type) where
  Fsymlink : Str → Str → κ → Except ℤ κ
  Freadlink : ℕ → Str → κ → Except ℤ Str
  enoent : κ → Str → Bool
  present : κ → Str → Bool
  isLink : κ → Str → Bool
  keeps : ∀ linkname path k k', Fsymlink linkname path k = .ok k' →
    ∀ len, linkname.length < len → Freadlink len path k' = .ok linkname

variable {κ : Type}

/-- `path` for the kernel: `none` if `_unx2dos` leaves it without a NUL. -/
def kernelPath (σ : Sys) (unixNames : Bool) (path : Str) : Option Str :=
  if unixNames then some path else (unx2dos σ path PATH_MAX).map Prod.fst

def symlink (K : Kernel κ) (σ : Sys) (unixNames : Bool) (old new : Str) (k : κ) :
    Option (Except ℤ κ) := do
  let (linkname, _) ← unx2dos σ old PATH_MAX
  let path ← kernelPath σ unixNames new
  match K.Fsymlink linkname path k with
  | .ok k' => some (.ok k')
  | .error r =>
    if r = ENOTDIR then some (.error (if K.enoent k path then ENOENT else r))
    else if r = EACCES ∧ K.present k path then some (.error EEXIST)
    else some (.error r)

/-- The characters that are stored in the caller's buffer of `siz` bytes. -/
def readlink (K : Kernel κ) (σ : Sys) (unixNames : Bool) (unxname : Str) (siz : ℕ) (k : κ) :
    Option (Except ℤ Str) := do
  let filename ← kernelPath σ unixNames unxname
  match K.Freadlink PATH_MAX filename k with
  | .ok linkto => some (.ok ((dos2unx σ linkto PATH_MAX).1.take siz))
  | .error r =>
    let r := if r = EACCES ∧ K.present k filename ∧ ¬ K.isLink k filename then EINVAL else r
    some (.error (if r = ENOTDIR ∧ K.enoent k filename then ENOENT else r))

/-- The targets that come back: no letter is folded, and
* below `/dev`: a small drive letter other than the root drive with a `/` behind it, if the
  root drive is not `u`, or another name, if it is `u`;
* below `/pipe`: any name, if the root drive is `u`;
* elsewhere: an absolute name, if there is a root drive, or a name without a `:` as its
  second character. -/
def Returns (σ : Sys) (u : Str) : Prop :=
  u.map (foldChar σ) = u ∧
    if DEV <+: u then
      if IsDrive (u.drop 5) then
        (u.drop 6).head? = some SLASH ∧ tolower ((u.drop 5).headD 0) = (u.drop 5).headD 0 ∧
          (u.drop 5).headD 0 ≠ σ.rootdir ∧ σ.rootdir ≠ 117
      else σ.mint ≠ 0 ∧ σ.rootdir = 117
    else if σ.mint ≠ 0 ∧ PIPE <+: u then σ.rootdir = 117
    else (u.head? = some SLASH ∧ σ.rootdir ≠ 0) ∨ u.tail.head? ≠ some COLON

section Room

variable {conv : UInt8 → UInt8} {length count len : ℕ} {rest dos u : Str} {σ : Sys}

theorem copy_take (hpos : 0 < len) (hlen : len < 2 ^ 32) :
    (copy conv length count len rest).1 = (rest.map conv).take len := by
  induction rest generalizing count len with
  | nil => exact List.take_nil.symm
  | cons c rest ih =>
    have hless : less len 1 = len - 1 := less_eq hpos hlen
    obtain ⟨n, rfl⟩ := Nat.exists_eq_add_of_le' hpos
    rw [copy, hless, List.map_cons, List.take_succ_cons]
    by_cases hzero : n + 1 - 1 = 0
    · have hn : n = 0 := hzero
      rw [if_pos hzero, hn, List.take_zero]
    · rw [if_neg hzero]
      exact congrArg (conv c :: ·) (ih (by omega) (by omega))

theorem length_drive_le (σ : Sys) (dos : Str) : (σ.unxDrive dos).1.length ≤ 7 := by
  unfold Sys.unxDrive
  split
  · simp only
    split_ifs <;> simp
  · exact Nat.zero_le _

theorem dos2unx_take (hlow : 8 < len) (hlen : len < 2 ^ 32) :
    (dos2unx σ dos len).1 = (σ.unxName dos).take (len - 1) := by
  have hdrive := length_drive_le σ dos
  have hless : less (less len 1) (σ.unxDrive dos).1.length = len - 1 - (σ.unxDrive dos).1.length := by
    rw [less_eq (by omega) hlen, less_eq (by omega) (by omega)]
  show (σ.unxDrive dos).1 ++ (copy σ.unxChar dos.length 0
    (less (less len 1) (σ.unxDrive dos).1.length) (σ.unxDrive dos).2).1 = _
  rw [hless, copy_take (by omega) (by omega), Sys.unxName, List.take_append,
    List.take_of_length_le (show (σ.unxDrive dos).1.length ≤ len - 1 by omega)]

theorem unx2dos_whole (hfits : (dosWhole σ u).length < len) (hlen : len < 2 ^ 32) :
    ∃ ret, unx2dos σ u len = some (dosWhole σ u, ret) := by
  by_cases hdevice : IsDevice σ u
  · rw [length_dosWhole hdevice] at hfits
    have hroom : (u.drop 5).length < less len 1 := by
      rw [less_eq (by omega) hlen]
      omega
    exact ⟨1, by rw [unx2dos_device hdevice, device_eq hroom, dosWhole, if_pos hdevice]⟩
  · have hwhole : dosWhole σ u = dosName σ u := if_neg hdevice
    rw [hwhole] at hfits ⊢
    refine unx2dos_eq (fun hdev => ?_) hfits hlen
    by_contra hnot
    obtain ⟨hdrive, hmint⟩ := not_or.mp hnot
    exact hdevice ⟨hdev, hdrive, not_not.mp hmint⟩

end Room

section Back

variable {σ : Sys} {X u t n : Str} {c : UInt8} {P : Prop}

/-- `X` comes back for `u` exactly if `P`, and it is not something longer that begins with
`u`, unless it is short. -/
def Settled (X u : Str) (P : Prop) : Prop :=
  (X = u ↔ P) ∧ (u <+: X → X = u ∨ X.length ≤ 11)

theorem Settled.of_length_eq (h : X.length = u.length) (hP : X = u ↔ P) : Settled X u P :=
  ⟨hP, fun hpre => .inl (hpre.eq_of_length h.symm).symm⟩

theorem Settled.of_not_isPrefix (h : ¬ u <+: X) (hP : ¬ P) : Settled X u P :=
  ⟨iff_of_false (fun heq => h (heq ▸ List.prefix_refl _)) hP, fun hpre => absurd hpre h⟩

theorem Settled.of_length_lt (h : X.length < u.length) (hP : ¬ P) : Settled X u P :=
  .of_not_isPrefix (fun hpre => absurd hpre.length_le (Nat.not_le.mpr h)) hP

theorem Settled.of_short (h : X.length ≤ 11) (hne : X ≠ u) (hP : ¬ P) : Settled X u P :=
  ⟨iff_of_false hne hP, fun _ => .inr h⟩

theorem unxChar_dosChar (h : c ≠ BACKSLASH) : σ.unxChar (dosChar c) = foldChar σ c := by
  by_cases hslash : c = SLASH
  · subst hslash
    rw [(foldChar_eq_iff (by decide)).mpr rfl]
    rfl
  · rw [dosChar, if_neg hslash, unxChar_eq h]

theorem map_unxChar_dosChar (h : BACKSLASH ∉ u) :
    (u.map dosChar).map σ.unxChar = u.map (foldChar σ) := by
  rw [List.map_map]
  exact List.map_congr_left fun c hc => unxChar_dosChar fun heq => h (heq ▸ hc)

theorem unxName_plain (h : u.tail.head? ≠ some COLON) : σ.unxName u = u.map σ.unxChar := by
  have hdrive : σ.unxDrive u = ([], u) := by
    unfold Sys.unxDrive
    split
    · exact absurd rfl h
    · rfl
  rw [Sys.unxName, hdrive, List.nil_append]

theorem unxName_drive (c : UInt8) (t : Str) : σ.unxName (c :: COLON :: t) =
    (if tolower c ≠ σ.rootdir then
      (if σ.rootdir ≠ 117 then [SLASH, 100, 101, 118] else []) ++ [SLASH, tolower c] else []) ++
    ((if t.head? ≠ some SLASH ∧ t.head? ≠ some BACKSLASH then [SLASH] else []) ++
      t.map σ.unxChar) := by
  rw [Sys.unxName, Sys.unxDrive, ← List.append_assoc]
  simp only
  by_cases hsep : t.head? ≠ some SLASH ∧ t.head? ≠ some BACKSLASH
  · simp only [if_pos hsep]
  · simp only [if_neg hsep, List.append_nil]

theorem length_sep_le (t : Str) :
    ((if t.head? ≠ some SLASH ∧ t.head? ≠ some BACKSLASH then [SLASH] else []) ++
      t.map σ.unxChar).length ≤ t.length + 1 := by
  rw [List.length_append, List.length_map]
  split
  · rw [List.length_singleton]
    omega
  · rw [List.length_nil]
    omega

theorem length_unxName_of_root (h : tolower c = σ.rootdir) (t : Str) :
    (σ.unxName (c :: COLON :: t)).length ≤ t.length + 1 := by
  rw [unxName_drive, if_neg (not_not.mpr h), List.nil_append]
  exact length_sep_le t

theorem length_unxName_of_u (h : σ.rootdir = 117) (t : Str) :
    (σ.unxName (c :: COLON :: t)).length ≤ t.length + 3 := by
  have hsep := length_sep_le (σ := σ) t
  rw [unxName_drive, if_neg (not_not.mpr h), List.nil_append, List.length_append]
  split
  · rw [List.length_cons, List.length_singleton]
    omega
  · rw [List.length_nil]
    omega

/-- On another drive a name is absolute, and below `/dev` unless the root drive is `u`. -/
theorem unxName_other (h : tolower c ≠ σ.rootdir) (t : Str) :
    ∃ rest, σ.unxName (c :: COLON :: t) =
      (if σ.rootdir ≠ 117 then [SLASH, 100, 101, 118] else []) ++
        SLASH :: tolower c :: SLASH :: rest := by
  rw [unxName_drive, if_pos h]
  cases t with
  | nil => exact ⟨[], by simp⟩
  | cons d t =>
    by_cases hsep : d = SLASH ∨ d = BACKSLASH
    · have hslash : σ.unxChar d = SLASH := by
        rcases hsep with rfl | rfl
        · rw [unxChar_eq (by decide), (foldChar_eq_iff (by decide)).mpr rfl]
        · rfl
      have hno : ¬ ((d :: t).head? ≠ some SLASH ∧ (d :: t).head? ≠ some BACKSLASH) := by
        simpa [or_iff_not_imp_left] using hsep
      rw [if_neg hno, List.map_cons, hslash]
      exact ⟨t.map σ.unxChar, by simp⟩
    · have hyes : (d :: t).head? ≠ some SLASH ∧ (d :: t).head? ≠ some BACKSLASH := by
        simpa [not_or] using hsep
      rw [if_pos hyes]
      exact ⟨(d :: t).map σ.unxChar, by simp⟩

theorem foldChar_eq_self (h : tolower c = c) : foldChar σ c = c := by
  unfold foldChar
  split
  · exact h
  · rfl

theorem map_foldChar (σ : Sys) {w : Str} (hw : w.map tolower = w) : w.map (foldChar σ) = w := by
  by_cases h : σ.mint < 7
  · have hfold : foldChar σ = tolower := funext fun c => if_pos h
    rw [hfold, hw]
  · have hfold : foldChar σ = id := funext fun c => if_neg h
    rw [hfold, List.map_id]

theorem map_foldChar_iff {w : Str} (hw : w.map tolower = w) (t : Str) :
    (w ++ t).map (foldChar σ) = w ++ t ↔ t.map (foldChar σ) = t := by
  rw [List.map_append, map_foldChar σ hw, List.append_right_inj]

theorem tolower_dev : DEV.map tolower = DEV := by decide
theorem tolower_pipe : PIPE.map tolower = PIPE := by decide

theorem settled_slash (hback : BACKSLASH ∉ t) :
    Settled (σ.unxName (c :: COLON :: BACKSLASH :: t.map dosChar)) (DEV ++ c :: SLASH :: t)
      ((DEV ++ c :: SLASH :: t).map (foldChar σ) = DEV ++ c :: SLASH :: t ∧
        tolower c = c ∧ c ≠ σ.rootdir ∧ σ.rootdir ≠ 117) := by
  have hmap := map_unxChar_dosChar (σ := σ) hback
  by_cases hroot : tolower c = σ.rootdir
  · refine .of_length_lt ?_ (fun h => h.2.2.1 (h.2.1 ▸ hroot))
    rw [unxName_root hroot, hmap]
    simp
  · by_cases hu : σ.rootdir = 117
    · refine .of_length_lt ?_ (fun h => h.2.2.2 hu)
      rw [unxName_u hroot hu, hmap]
      simp
    · rw [unxName_dev hroot hu, hmap]
      refine .of_length_eq (by simp) ?_
      rw [List.append_right_inj, map_foldChar_iff tolower_dev, List.map_cons, List.map_cons,
        List.cons.injEq, List.cons.injEq, List.cons.injEq, List.cons.injEq]
      have hslash : foldChar σ SLASH = SLASH := foldChar_eq_self (by decide)
      constructor
      · rintro ⟨hlow, -, ht⟩
        refine ⟨⟨foldChar_eq_self hlow, hslash, ht⟩, hlow, fun heq => hroot ?_, hu⟩
        rw [hlow, heq]
      · rintro ⟨⟨-, -, ht⟩, hlow, -, -⟩
        exact ⟨hlow, rfl, ht⟩

theorem settled_letter (hP : ¬ P) : Settled (σ.unxName [c, COLON]) (DEV ++ [c]) P := by
  have hlength : (σ.unxName [c, COLON]).length ≤ 7 ∧ (σ.unxName [c, COLON]).length ≠ 6 := by
    have hsep : ([] : Str).head? ≠ some SLASH ∧ ([] : Str).head? ≠ some BACKSLASH := by decide
    rw [unxName_drive, if_pos hsep]
    split_ifs <;> simp
  refine .of_short (by omega) (fun heq => hlength.2 ?_) hP
  rw [heq]
  rfl

/-- What `U:\\dev\\…` and `U:\\pipe\\…` come back as: `w` is `dev` or `pipe` with the `\\`. -/
theorem unxName_udrive {w : Str} (hback : BACKSLASH ∉ n) :
    σ.unxName (85 :: COLON :: BACKSLASH :: (w ++ n.map dosChar)) =
      (if σ.rootdir = 117 then [SLASH] else DEV ++ [117, SLASH]) ++
        (w.map σ.unxChar ++ n.map (foldChar σ)) := by
  have hmap := map_unxChar_dosChar (σ := σ) hback
  by_cases hu : σ.rootdir = 117
  · have hroot : tolower 85 = σ.rootdir := by
      rw [hu]
      rfl
    rw [unxName_root hroot, if_pos hu, List.map_append, hmap]
    rfl
  · have hother : tolower 85 ≠ σ.rootdir := fun h => hu (h ▸ rfl)
    rw [unxName_dev hother hu, if_neg hu, List.map_append, hmap]
    rfl

theorem map_unxChar_dev : [100, 101, 118, BACKSLASH].map σ.unxChar = [100, 101, 118, SLASH] := by
  have hback : BACKSLASH ∉ ([100, 101, 118, SLASH] : Str) := by decide
  exact (map_unxChar_dosChar hback).trans (map_foldChar σ (by decide))

theorem map_unxChar_pipe :
    [112, 105, 112, 101, BACKSLASH].map σ.unxChar = [112, 105, 112, 101, SLASH] := by
  have hback : BACKSLASH ∉ ([112, 105, 112, 101, SLASH] : Str) := by decide
  exact (map_unxChar_dosChar hback).trans (map_foldChar σ (by decide))

theorem settled_dev (hback : BACKSLASH ∉ n) (hdrive : ¬ IsDrive n) :
    Settled (σ.unxName (UDEV ++ n.map dosChar)) (DEV ++ n)
      ((DEV ++ n).map (foldChar σ) = DEV ++ n ∧ σ.rootdir = 117) := by
  have hname : UDEV ++ n.map dosChar =
      85 :: COLON :: BACKSLASH :: ([100, 101, 118, BACKSLASH] ++ n.map dosChar) := rfl
  rw [hname, unxName_udrive hback, map_unxChar_dev]
  by_cases hu : σ.rootdir = 117
  · rw [if_pos hu]
    refine .of_length_eq (by simp) ?_
    rw [map_foldChar_iff tolower_dev, and_iff_left hu]
    exact List.append_right_inj DEV
  · rw [if_neg hu]
    by_cases hnil : n = []
    · subst hnil
      exact .of_short (by simp) (by simp) (fun h => hu h.2)
    · refine .of_not_isPrefix (fun hpre => hdrive ?_) (fun h => hu h.2)
      -- such a name begins with the letter `u` alone, and was taken for a drive
      obtain ⟨d, n, rfl⟩ := List.exists_cons_of_ne_nil hnil
      rw [List.append_assoc, List.prefix_append_right_inj] at hpre
      obtain ⟨rfl, hrest⟩ := List.cons_prefix_cons.mp hpre
      refine ⟨117, rfl, by decide, ?_⟩
      cases n with
      | nil => exact .inl rfl
      | cons e n =>
        obtain ⟨rfl, -⟩ := List.cons_prefix_cons.mp hrest
        exact .inr (.inl rfl)

theorem settled_pipe (hback : BACKSLASH ∉ n) :
    Settled (σ.unxName (UPIPE ++ n.map dosChar)) (PIPE ++ n)
      ((PIPE ++ n).map (foldChar σ) = PIPE ++ n ∧ σ.rootdir = 117) := by
  have hname : UPIPE ++ n.map dosChar =
      85 :: COLON :: BACKSLASH :: ([112, 105, 112, 101, BACKSLASH] ++ n.map dosChar) := rfl
  rw [hname, unxName_udrive hback, map_unxChar_pipe]
  by_cases hu : σ.rootdir = 117
  · rw [if_pos hu]
    refine .of_length_eq (by simp) ?_
    rw [map_foldChar_iff tolower_pipe, and_iff_left hu]
    exact List.append_right_inj PIPE
  · rw [if_neg hu]
    refine .of_not_isPrefix (fun hpre => ?_) (fun h => hu h.2)
    have hsecond := (List.cons_prefix_cons.mp (List.cons_prefix_cons.mp hpre).2).1
    exact absurd hsecond (by decide)

theorem settled_root (hroot : tolower σ.rootdir = σ.rootdir) (hback : BACKSLASH ∉ u)
    (hslash : u.head? = some SLASH) :
    Settled (σ.unxName (σ.rootdir :: COLON :: u.map dosChar)) u (u.map (foldChar σ) = u) := by
  obtain ⟨t, rfl⟩ := List.head?_eq_some_iff.mp hslash
  have hback' : BACKSLASH ∉ t := fun h => hback (List.mem_cons_of_mem _ h)
  have hname : (SLASH :: t).map dosChar = BACKSLASH :: t.map dosChar := rfl
  have hfold : foldChar σ SLASH = SLASH := foldChar_eq_self (by decide)
  rw [hname, unxName_root hroot, map_unxChar_dosChar hback', List.map_cons, hfold]
  exact .of_length_eq (by simp) Iff.rfl

theorem dosChar_eq_colon : dosChar c = COLON ↔ c = COLON := by
  unfold dosChar
  split
  · next h =>
    subst h
    decide
  · exact Iff.rfl

theorem settled_plain (hback : BACKSLASH ∉ u) (hcolon : u.tail.head? ≠ some COLON) :
    Settled (σ.unxName (u.map dosChar)) u (u.map (foldChar σ) = u) := by
  have hplain : (u.map dosChar).tail.head? ≠ some COLON := by
    rw [← List.map_tail, List.head?_map]
    intro h
    obtain ⟨c, hc, hcol⟩ := Option.map_eq_some_iff.mp h
    exact hcolon (hc.trans (congrArg some (dosChar_eq_colon.mp hcol)))
  rw [unxName_plain hplain, map_unxChar_dosChar hback]
  exact .of_length_eq (List.length_map _) Iff.rfl

theorem settled_colon (hslash : c = SLASH → σ.rootdir = 0) (hP : ¬ P) :
    Settled (σ.unxName ((c :: COLON :: t).map dosChar)) (c :: COLON :: t) P := by
  have hname : (c :: COLON :: t).map dosChar = dosChar c :: COLON :: t.map dosChar := rfl
  rw [hname]
  by_cases hroot : tolower (dosChar c) = σ.rootdir
  · have hlength := length_unxName_of_root hroot (t.map dosChar)
    rw [List.length_map] at hlength
    refine .of_length_lt ?_ hP
    rw [List.length_cons, List.length_cons]
    omega
  · refine .of_not_isPrefix (fun hpre => ?_) hP
    obtain ⟨rest, hother⟩ := unxName_other hroot (t.map dosChar)
    rw [hother] at hpre
    by_cases hu : σ.rootdir = 117
    · rw [if_neg (not_not.mpr hu)] at hpre
      have hzero := hslash (List.cons_prefix_cons.mp hpre).1
      rw [hzero] at hu
      exact absurd hu (by decide)
    · rw [if_pos hu] at hpre
      have hsecond := (List.cons_prefix_cons.mp (List.cons_prefix_cons.mp hpre).2).1
      exact absurd hsecond (by decide)

theorem settled_device (n : Str) (hP : ¬ P) :
    Settled (σ.unxName (if n = [116, 116, 121] then [99, 111, 110, 58] else n ++ [COLON]))
      (DEV ++ n) P := by
  obtain ⟨d, hd⟩ : ∃ d, (if n = [116, 116, 121] then [99, 111, 110, 58] else n ++ [COLON]) = d :=
    ⟨_, rfl⟩
  have hlength : d.length = n.length + 1 := by
    rw [← hd]
    split
    · next htty => rw [htty]; rfl
    · exact List.length_append
  rw [hd]
  by_cases hcolon : d.tail.head? = some COLON
  · have hn : n ≠ [116, 116, 121] := by
      rintro rfl
      rw [← hd, if_pos rfl] at hcolon
      exact absurd hcolon (by decide)
    rw [if_neg hn] at hd
    subst hd
    match n, hcolon with
    | [], hcolon => exact absurd hcolon (by decide)
    | [x], _ => exact settled_letter hP
    | x :: y :: n, hcolon =>
      obtain rfl : y = COLON := Option.some.inj hcolon
      show Settled (σ.unxName (x :: COLON :: (n ++ [COLON]))) (DEV ++ x :: COLON :: n) P
      have hlong : (DEV ++ x :: COLON :: n).length = n.length + 7 := by simp
      have hrest : (n ++ [COLON]).length = n.length + 1 := List.length_append
      by_cases hroot : tolower x = σ.rootdir
      · have := length_unxName_of_root hroot (n ++ [COLON])
        exact .of_length_lt (by omega) hP
      · by_cases hu : σ.rootdir = 117
        · have := length_unxName_of_u (c := x) hu (n ++ [COLON])
          exact .of_length_lt (by omega) hP
        · refine .of_not_isPrefix (fun hpre => ?_) hP
          obtain ⟨rest, hother⟩ := unxName_other hroot (n ++ [COLON])
          rw [hother, if_pos hu] at hpre
          have htail : x :: COLON :: n <+: tolower x :: SLASH :: rest :=
            (List.prefix_append_right_inj DEV).mp hpre
          have hcol := (List.cons_prefix_cons.mp (List.cons_prefix_cons.mp htail).2).1
          exact absurd hcol (by decide)
  · rw [unxName_plain hcolon]
    refine .of_length_lt ?_ hP
    rw [List.length_map, List.length_append, hlength]
    show n.length + 1 < 5 + n.length
    omega

theorem settled_below_dev (hback : BACKSLASH ∉ n) :
    Settled (σ.unxName (dosWhole σ (DEV ++ n))) (DEV ++ n) (Returns σ (DEV ++ n)) := by
  have hdrop : (DEV ++ n).drop 5 = n := rfl
  have hpre : DEV <+: DEV ++ n := List.prefix_append DEV n
  by_cases hdrive : IsDrive n
  · have hwhole : dosWhole σ (DEV ++ n) = [n.headD 0, COLON] ++ n.tail.map dosChar := by
      rw [dosWhole, if_neg (fun h => h.2.1 hdrive), dosName, if_pos hpre, hdrop, if_pos hdrive]
    have hdrop6 : (DEV ++ n).drop 6 = n.tail := List.drop_one
    have hreturns : Returns σ (DEV ++ n) ↔ (DEV ++ n).map (foldChar σ) = DEV ++ n ∧
        n.tail.head? = some SLASH ∧ tolower (n.headD 0) = n.headD 0 ∧
          n.headD 0 ≠ σ.rootdir ∧ σ.rootdir ≠ 117 := by
      rw [Returns, if_pos hpre, hdrop, if_pos hdrive, hdrop6]
    rw [hwhole, hreturns]
    obtain ⟨c, hc, -, hnext⟩ := hdrive
    obtain ⟨m, rfl⟩ := List.head?_eq_some_iff.mp hc
    cases m with
    | nil => exact settled_letter fun h => absurd h.2.1 (Option.some_ne_none SLASH).symm
    | cons d t =>
      have hd : d = SLASH := by
        rcases hnext with hnone | hslash | hbslash
        · exact absurd hnone (Option.some_ne_none d)
        · exact Option.some.inj hslash
        · rw [Option.some.inj hbslash] at hback
          exact absurd (List.mem_cons_of_mem c List.mem_cons_self) hback
      subst hd
      have hbackt : BACKSLASH ∉ t := fun h =>
        hback (List.mem_cons_of_mem c (List.mem_cons_of_mem SLASH h))
      have hsettled := settled_slash (σ := σ) (c := c) hbackt
      simp only [List.headD_cons, List.tail_cons, List.head?_cons, true_and]
      exact hsettled
  · by_cases hmint : σ.mint = 0
    · have hdevice : IsDevice σ (DEV ++ n) := ⟨hpre, hdrive, hmint⟩
      have hwhole : dosWhole σ (DEV ++ n) =
          if n = [116, 116, 121] then [99, 111, 110, 58] else n ++ [COLON] := if_pos hdevice
      rw [hwhole]
      refine settled_device n fun h => ?_
      have hdev := h.2
      rw [if_pos hpre, hdrop, if_neg hdrive] at hdev
      exact hdev.1 hmint
    · have hwhole : dosWhole σ (DEV ++ n) = UDEV ++ n.map dosChar := by
        rw [dosWhole, if_neg (fun h => hmint h.2.2), dosName, if_pos hpre, hdrop, if_neg hdrive]
      have hreturns : Returns σ (DEV ++ n) ↔
          (DEV ++ n).map (foldChar σ) = DEV ++ n ∧ σ.rootdir = 117 := by
        rw [Returns, if_pos hpre, hdrop, if_neg hdrive, and_iff_right hmint]
      rw [hwhole, hreturns]
      exact settled_dev hback hdrive

theorem settled (hroot : tolower σ.rootdir = σ.rootdir) (hback : BACKSLASH ∉ u) :
    Settled (σ.unxName (dosWhole σ u)) u (Returns σ u) := by
  by_cases hdev : DEV <+: u
  · obtain ⟨n, rfl⟩ := hdev
    exact settled_below_dev fun h => hback (List.mem_append_right DEV h)
  · have hwhole : dosWhole σ u = dosName σ u := if_neg fun h => hdev h.1
    rw [hwhole]
    by_cases hpipe : σ.mint ≠ 0 ∧ PIPE <+: u
    · have hname : dosName σ u = UPIPE ++ (u.drop 6).map dosChar := by
        rw [dosName, if_neg hdev, if_pos hpipe]
      have hreturns : Returns σ u ↔ u.map (foldChar σ) = u ∧ σ.rootdir = 117 := by
        rw [Returns, if_neg hdev, if_pos hpipe]
      rw [hname, hreturns]
      obtain ⟨n, rfl⟩ := hpipe.2
      exact settled_pipe fun h => hback (List.mem_append_right PIPE h)
    · have hreturns : Returns σ u ↔ u.map (foldChar σ) = u ∧
          (u.head? = some SLASH ∧ σ.rootdir ≠ 0 ∨ u.tail.head? ≠ some COLON) := by
        rw [Returns, if_neg hdev, if_neg hpipe]
      by_cases habs : u.head? = some SLASH ∧ σ.rootdir ≠ 0
      · have hname : dosName σ u = σ.rootdir :: COLON :: u.map dosChar := by
          rw [dosName, if_neg hdev, if_neg hpipe, if_pos habs]
          rfl
        rw [hname, hreturns, and_iff_left (.inl habs)]
        exact settled_root hroot hback habs.1
      · have hname : dosName σ u = u.map dosChar := by
          rw [dosName, if_neg hdev, if_neg hpipe, if_neg habs]
        rw [hname]
        by_cases hcolon : u.tail.head? = some COLON
        · have hnot : ¬ Returns σ u := fun h =>
            (hreturns.mp h).2.elim habs fun hne => hne hcolon
          obtain ⟨c, t, rfl⟩ : ∃ c t, u = c :: COLON :: t := by
            obtain ⟨t, ht⟩ := List.head?_eq_some_iff.mp hcolon
            cases u with
            | nil => cases ht
            | cons c u => exact ⟨c, t, congrArg (c :: ·) ht⟩
          refine settled_colon (fun hc => ?_) hnot
          by_contra hzero
          exact habs ⟨congrArg some hc, hzero⟩
        · rw [hreturns, and_iff_left (.inr hcolon)]
          exact settled_plain hback hcolon

end Back

theorem readlink_eq {K : Kernel κ} {σ : Sys} {unixNames : Bool} {target name : Str} {k k' : κ}
    (hfits : (dosWhole σ target).length < PATH_MAX)
    (hlink : symlink K σ unixNames target name k = some (.ok k')) (siz : ℕ) :
    readlink K σ unixNames name siz k' =
      some (.ok (((σ.unxName (dosWhole σ target)).take (PATH_MAX - 1)).take siz)) := by
  obtain ⟨ret, hunx⟩ := unx2dos_whole hfits (show PATH_MAX < 2 ^ 32 by decide)
  unfold symlink at hlink
  cases hpath : kernelPath σ unixNames name with
  | none => simp [hunx, hpath] at hlink
  | some path =>
    have hmade : K.Fsymlink (dosWhole σ target) path k = .ok k' := by
      simp only [hunx, hpath, Option.bind_eq_bind, Option.bind_some] at hlink
      cases hcall : K.Fsymlink (dosWhole σ target) path k with
      | ok k₂ =>
        rw [hcall] at hlink
        exact Option.some.inj hlink
      | error r =>
        rw [hcall] at hlink
        simp only at hlink
        split_ifs at hlink <;> cases hlink
    have hread := K.keeps _ _ _ _ hmade PATH_MAX hfits
    unfold readlink
    simp only [hpath, Option.bind_eq_bind, Option.bind_some, hread]
    rw [dos2unx_take (by decide) (by decide)]

/-- The links whose text `readlink` gives back, for every size of the buffer. -/
theorem readlink_symlink_iff (K : Kernel κ) (σ : Sys) (unixNames : Bool) (target name : Str)
    (k k' : κ) (hroot : σ.rootdir = 0 ∨ (97 ≤ σ.rootdir ∧ σ.rootdir ≤ 122))
    (hback : BACKSLASH ∉ target) (hfits : (dosWhole σ target).length < PATH_MAX)
    (hlink : symlink K σ unixNames target name k = some (.ok k')) :
    (∀ siz, readlink K σ unixNames name siz k' = some (.ok (target.take siz))) ↔
      Returns σ target ∧ target.length < PATH_MAX := by
  have hsmall : tolower σ.rootdir = σ.rootdir := by
    rcases hroot with hzero | ⟨hlow, -⟩
    · rw [hzero]
      rfl
    · exact if_neg fun h => absurd (UInt8.le_trans hlow h.2) (by decide)
  obtain ⟨hreturns, hlonger⟩ := settled hsmall hback
  have hread := readlink_eq hfits hlink
  generalize σ.unxName (dosWhole σ target) = X at hreturns hlonger hread
  rw [← hreturns]
  constructor
  · intro h
    have hcut : X.take (PATH_MAX - 1) = target := by
      have hall := (hread (X.length + target.length)).symm.trans (h (X.length + target.length))
      have htake := Except.ok.inj (Option.some.inj hall)
      have hleft : (X.take (PATH_MAX - 1)).length ≤ X.length + target.length :=
        (List.length_take_le' _ _).trans (Nat.le_add_right _ _)
      rw [List.take_of_length_le hleft, List.take_of_length_le (Nat.le_add_left _ _)] at htake
      exact htake
    have hlength : target.length < PATH_MAX := by
      rw [← hcut]
      exact Nat.lt_of_le_of_lt (List.length_take_le _ _) (by decide)
    have hpre : target <+: X := hcut ▸ List.take_prefix _ _
    refine ⟨(hlonger hpre).elim id fun hshort => ?_, hlength⟩
    have hwhole : X.length ≤ PATH_MAX - 1 := hshort.trans (by decide)
    rw [← hcut, List.take_of_length_le hwhole]
  · rintro ⟨rfl, hlength⟩ siz
    rw [hread, List.take_of_length_le (Nat.le_sub_one_of_lt hlength)]

def lastLink : Kernel (Option (Str × Str)) where
  Fsymlink linkname path _ := .ok (some (path, linkname))
  Freadlink len path k :=
    match k with
    | some (p, l) => if p = path ∧ l.length < len then .ok l else .error ENOENT
    | none => .error ENOENT
  enoent _ _ := false
  present _ _ := true
  isLink _ _ := true
  keeps linkname path k k' h len hlen := by
    obtain rfl := Except.ok.inj h
    exact if_pos ⟨rfl, hlen⟩

abbrev demoSys : Sys := ⟨117, 0x110⟩

theorem readlink_symlink_iff_demo :
    (∀ siz, readlink lastLink demoSys true [47, 120] siz
        (some ([47, 120], [46, 46, 92, 108])) = some (.ok (([46, 46, 47, 108] : Str).take siz))) ↔
      Returns demoSys [46, 46, 47, 108] ∧ ([46, 46, 47, 108] : Str).length < PATH_MAX :=
  readlink_symlink_iff lastLink demoSys true [46, 46, 47, 108] [47, 120] none _ (.inr (by decide))
    (by decide) (by decide) rfl

theorem alias_read :
    ¬ ∀ (κ : Type) (K : Kernel κ) (σ : Sys) (unixNames : Bool) (target name : Str) (k k' : κ),
      (σ.rootdir = 0 ∨ (97 ≤ σ.rootdir ∧ σ.rootdir ≤ 122)) → target ≠ [] → BACKSLASH ∉ target →
      (dosWhole σ target).length < PATH_MAX →
      symlink K σ unixNames target name k = some (.ok k') →
      ∀ siz, readlink K σ unixNames name siz k' = some (.ok (target.take siz)) := by
  intro h
  have hread := h _ lastLink demoSys true [47, 100, 101, 118, 47, 97, 47, 120] [47, 120] none _
    (.inr (by decide)) (by decide) (by decide) (by decide) rfl 100
  exact absurd (congrArg (fun r => r.map (fun e => e.toOption)) hread) (by decide)

end Mintlib.Symlink
