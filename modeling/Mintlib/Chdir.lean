import Mintlib.NameRoom
import Mintlib.Enoent
import Mintlib.Posix

/-!
# The current drive and its directory: `chdir.c` and `statfs.c`

`chdir` sets the drive before the directory is tried. On old kernels `statfs` goes to a directory
and comes back by the name that `getcwd` gave.
-/

namespace Mintlib.Chdir

open Text Posix
open Checked (Stop)
open Unx2dos

abbrev LETTER_U : UInt8 := 85

abbrev FS_OLDTOS : BitVec 32 := 0

/-- The current drive, and the current directory of each. -/
@[ext]
structure Dirs (Dir : Type) where
  drive : ℤ
  cwd : ℤ → Dir

/-- What a call sets: the current drive, and the directory of at most one drive. -/
structure Move (Dir : Type) where
  drive : ℤ
  dir : Option (ℤ × Dir)

/-- What one call of `chdir` finds: memory, the drives that there are, what a path leads to (the
current drive after it, and a drive with its directory), and the files that `_enoent` looks at. -/
structure Replies (Dir : Type) where
  malloc : Bool
  Dsetdrv : ℤ → Bool
  Dsetpath : Dirs Dir → Str → Except ℕ+ (ℤ × ℤ × Dir)
  stat : Enoent.Env
  proc : Enoent.Proc stat

variable {Dir : Type}

def Dirs.apply (dirs : Dirs Dir) (m : Move Dir) : Dirs Dir where
  drive := m.drive
  cwd := match m.dir with
    | none => dirs.cwd
    | some (d, x) => Function.update dirs.cwd d x

/-- `toupper (c) - 'A'`; a `char` has a sign. -/
def driveOf (c : UInt8) : ℤ := (toupper c).toInt8.toInt - 65

def target (σ : Sys) (unixNames : Bool) (dir : Str) : Option (Option ℤ × Str) :=
  if unixNames then
    match dir with
    | [] => some (none, [BACKSLASH])
    | c :: 58 :: rest =>
      if toupper c = LETTER_U ∧ rest ≠ [] then some (none, SLASH :: rest.drop 1)
      else some (none, SLASH :: tolower c :: rest)
    | dir => some (none, dir)
  else
    match unx2dos σ dir (dir.length + 16) with
    | none => none
    | some ([], _) => some (none, [BACKSLASH])
    | some (c :: 58 :: rest, _) => some (some (driveOf c), rest)
    | some (dos, _) => some (none, dos)

def NeedsMemory (unixNames : Bool) (dir : Str) : Prop :=
  unixNames = false ∨ (dir ≠ [] ∧ dir.tail.head? = some COLON)

instance (unixNames : Bool) (dir : Str) : Decidable (NeedsMemory unixNames dir) :=
  inferInstanceAs (Decidable (_ ∨ _))

def setDrive (replies : Replies Dir) (drv : Option ℤ) (dirs : Dirs Dir) : Dirs Dir :=
  match drv with
  | none => dirs
  | some drv => if replies.Dsetdrv drv then { dirs with drive := drv } else dirs

/-- `__chdir`: it works, or leaves `errno`; `none` stands for a name without an end. -/
def chdir (σ : Sys) (unixNames : Bool) (replies : Replies Dir) (dir : Option Str)
    (dirs : Dirs Dir) : Option (Except ℕ Unit × Dirs Dir) :=
  match dir with
  | none => some (.error EFAULT, dirs)
  | some dir =>
    if NeedsMemory unixNames dir ∧ ¬ replies.malloc then some (.error ENOMEM, dirs)
    else
      match target σ unixNames dir with
      | none => none
      | some (drv, dir) =>
        let dirs := setDrive replies drv dirs
        match replies.Dsetpath dirs dir with
        | .ok (drive, cwd) => some (.ok (), dirs.apply ⟨drive, some cwd⟩)
        | .error r =>
          some (.error (if (r : ℕ) = ENOTDIR ∧ Enoent.reports replies.proc dir then ENOENT else r),
            dirs)

/-- `'a'` plus the drive. -/
def driveLetter (drive : ℤ) : UInt8 := UInt8.ofInt (drive + 97)

/-- `getcwd (oldpath, PATH_MAX)` on this drive. -/
def oldPath (σ : Sys) (kernel : NameRoom.Kernel) (drive : ℤ) : Option Str :=
  match NameRoom.getcwd σ { kernel with drv := driveLetter drive } true PATH_MAX with
  | (some (name, _), none) => some name
  | _ => none

/-- `struct statfs`, as far as it is filled in. -/
structure Statfs where
  f_type : BitVec 32
  f_bsize : BitVec 32
  f_blocks : BitVec 32
  f_bfree : BitVec 32
  f_bavail : BitVec 32
  f_files : BitVec 32
  f_ffree : BitVec 32
  f_fsid : BitVec 64

structure Usage where
  blocksize : BitVec 32
  blocks : BitVec 64
  free_blocks : BitVec 64
  inodes : BitVec 64
  free_inodes : BitVec 64

structure DiskInfo where
  b_free : BitVec 32
  b_total : BitVec 32
  b_secsiz : BitVec 32
  b_clsiz : BitVec 32

/-- What one call of `statfs` finds: the device of the path, the answers of `Dcntl` and `Dfree`, and
what the calls of `getcwd` and `chdir` find. -/
structure StatReplies (Dir : Type) where
  quickstat : Except ℕ ℤ
  info : Option (BitVec 32)
  usage : ℤ × Usage
  Dfree : ℤ × DiskInfo
  getcwd : NameRoom.Kernel
  there : Replies Dir
  back : Replies Dir

/-- `Dfree` is asked in the directory itself. -/
def GoesThere (σ : Sys) (st_dev : ℤ) : Prop := 99 ≤ σ.mint ∧ 32 ≤ st_dev

instance (σ : Sys) (st_dev : ℤ) : Decidable (GoesThere σ st_dev) :=
  inferInstanceAs (Decidable (_ ∧ _))

def thereAndBack (σ : Sys) (unixNames : Bool) (replies : StatReplies Dir) (path : Str)
    (st_dev : ℤ) (dirs : Dirs Dir) : Option (Dirs Dir) :=
  if GoesThere σ st_dev then
    match oldPath σ replies.getcwd dirs.drive with
    | none => some dirs
    | some oldpath =>
      match chdir σ unixNames replies.there (some path) dirs with
      | none => none
      | some (_, dirs) => (chdir σ unixNames replies.back (some oldpath) dirs).map Prod.snd
  else some dirs

def status (r : ℤ) : Except ℕ Unit := if r < 0 then .error (-r).toNat else .ok ()

/-- `__statfs`: the result, what is in the buffer, and the directories. -/
def statfs (σ : Sys) (unixNames : Bool) (replies : StatReplies Dir) (path : Option Str)
    (buf : Option Statfs) (dirs : Dirs Dir) : Option (Except ℕ Unit × Option Statfs × Dirs Dir) :=
  match buf, path with
  | some buf, some path =>
    match replies.quickstat with
    | .error errno => some (.error errno, some buf, dirs)
    | .ok st_dev =>
      let buf := { buf with f_type := replies.info.getD FS_OLDTOS }
      let (r, usage) := replies.usage
      if r = 0 then
        some (.ok (), some { buf with
          f_bsize := usage.blocksize
          f_blocks := usage.blocks.setWidth 32
          f_bfree := usage.free_blocks.setWidth 32
          f_bavail := usage.free_blocks.setWidth 32
          f_files := usage.inodes.setWidth 32
          f_ffree := usage.free_inodes.setWidth 32
          f_fsid := -1 }, dirs)
      else if r = -ENOSYS then
        match thereAndBack σ unixNames replies path st_dev dirs with
        | none => none
        | some dirs =>
          let (r, free) := replies.Dfree
          some (status r, some (if r = 0 then { buf with
            f_bsize := free.b_secsiz * free.b_clsiz
            f_blocks := free.b_total
            f_bfree := free.b_free
            f_bavail := free.b_free
            f_files := -1
            f_ffree := -1
            f_fsid := -1 } else buf), dirs)
      else some (status r, some buf, dirs)
  | buf, _ => some (.error EFAULT, buf, dirs)

/-- What a call of `chdir` sets, whether it works or not. -/
def move (σ : Sys) (unixNames : Bool) (replies : Replies Dir) (dir : Str) (dirs : Dirs Dir) :
    Option (Move Dir) :=
  if NeedsMemory unixNames dir ∧ ¬ replies.malloc then some ⟨dirs.drive, none⟩
  else
    (target σ unixNames dir).map fun t =>
      match replies.Dsetpath (setDrive replies t.1 dirs) t.2 with
      | .ok (drive, cwd) => ⟨drive, some cwd⟩
      | .error _ => ⟨(setDrive replies t.1 dirs).drive, none⟩

/-- The drive in front of the path is there and is set, and then the directory is refused. -/
def Astray (σ : Sys) (unixNames : Bool) (replies : Replies Dir) (dir : Str)
    (dirs : Dirs Dir) : Prop :=
  ¬ (NeedsMemory unixNames dir ∧ ¬ replies.malloc) ∧
    ∃ drv path, target σ unixNames dir = some (some drv, path) ∧ replies.Dsetdrv drv = true ∧
      drv ≠ dirs.drive ∧ ∃ r, replies.Dsetpath { dirs with drive := drv } path = .error r

theorem setDrive_cwd (replies : Replies Dir) (drv : Option ℤ) (dirs : Dirs Dir) :
    (setDrive replies drv dirs).cwd = dirs.cwd := by
  cases drv with
  | none => rfl
  | some drv =>
    rw [setDrive]
    split <;> rfl

theorem apply_stay (dirs : Dirs Dir) : dirs.apply ⟨dirs.drive, none⟩ = dirs := rfl

theorem setDrive_update (replies : Replies Dir) (drv : Option ℤ) (dirs : Dirs Dir) (drive : ℤ)
    (cwd : Option (ℤ × Dir)) :
    (setDrive replies drv dirs).apply ⟨drive, cwd⟩ = dirs.apply ⟨drive, cwd⟩ := by
  apply Dirs.ext
  · rfl
  · simp only [Dirs.apply, setDrive_cwd]

theorem setDrive_eq (replies : Replies Dir) (drv : Option ℤ) (dirs : Dirs Dir) :
    setDrive replies drv dirs = dirs.apply ⟨(setDrive replies drv dirs).drive, none⟩ :=
  Dirs.ext rfl (setDrive_cwd replies drv dirs)

theorem chdir_of_move {σ : Sys} {unixNames : Bool} {replies : Replies Dir} {dir : Str}
    {dirs : Dirs Dir} {m : Move Dir} (hmove : move σ unixNames replies dir dirs = some m) :
    ∃ out, chdir σ unixNames replies (some dir) dirs = some (out, dirs.apply m) ∧
      ((∃ e, out = .error e) ↔ m.dir = none) := by
  rw [chdir]
  rw [move] at hmove
  by_cases hmemory : NeedsMemory unixNames dir ∧ ¬ replies.malloc
  · rw [if_pos hmemory] at hmove ⊢
    cases hmove
    exact ⟨.error ENOMEM, rfl, fun _ => rfl, fun _ => ⟨_, rfl⟩⟩
  · rw [if_neg hmemory] at hmove ⊢
    cases htarget : target σ unixNames dir with
    | none =>
      rw [htarget] at hmove
      exact absurd hmove (by simp)
    | some t =>
      rw [htarget, Option.map_some] at hmove
      have hm := Option.some.inj hmove
      cases hpath : replies.Dsetpath (setDrive replies t.1 dirs) t.2 with
      | ok reached =>
        rw [hpath] at hm
        refine ⟨.ok (), ?_, ?_⟩
        · simp only [hpath]
          rw [setDrive_update, ← hm]
        · rw [← hm]
          simp
      | error r =>
        rw [hpath] at hm
        refine ⟨.error (if (r : ℕ) = ENOTDIR ∧ Enoent.reports replies.proc t.2 then ENOENT else r),
          ?_, ?_⟩
        · simp only [hpath]
          rw [← hm, ← setDrive_eq]
        · rw [← hm]
          simp

theorem chdir_of_no_move {σ : Sys} {unixNames : Bool} {replies : Replies Dir} {dir : Str}
    {dirs : Dirs Dir} (hmove : move σ unixNames replies dir dirs = none) :
    chdir σ unixNames replies (some dir) dirs = none := by
  rw [chdir]
  rw [move] at hmove
  by_cases hmemory : NeedsMemory unixNames dir ∧ ¬ replies.malloc
  · rw [if_pos hmemory] at hmove
    exact absurd hmove (by simp)
  · rw [if_neg hmemory] at hmove ⊢
    rw [Option.map_eq_none_iff] at hmove
    rw [hmove]

theorem astray_iff {σ : Sys} {unixNames : Bool} {replies : Replies Dir} {dir : Str}
    {dirs : Dirs Dir} :
    Astray σ unixNames replies dir dirs ↔
      ∃ drive, move σ unixNames replies dir dirs = some ⟨drive, none⟩ ∧ drive ≠ dirs.drive := by
  constructor
  · rintro ⟨hmemory, drv, path, htarget, hdrv, hne, r, hpath⟩
    have hset : setDrive replies (some drv) dirs = { dirs with drive := drv } := by
      rw [setDrive, if_pos hdrv]
    refine ⟨drv, ?_, hne⟩
    rw [move, if_neg hmemory, htarget, Option.map_some]
    simp only [hset, hpath]
  · rintro ⟨drive, hmove, hne⟩
    rw [move] at hmove
    by_cases hmemory : NeedsMemory unixNames dir ∧ ¬ replies.malloc
    · rw [if_pos hmemory] at hmove
      cases hmove
      exact absurd rfl hne
    · rw [if_neg hmemory] at hmove
      obtain ⟨⟨drv, path⟩, htarget, hm⟩ := Option.map_eq_some_iff.mp hmove
      cases hpath : replies.Dsetpath (setDrive replies drv dirs) path with
      | ok reached =>
        simp only [hpath] at hm
        exact absurd (congrArg Move.dir hm) (by simp)
      | error r =>
        simp only [hpath] at hm
        have hdrive : (setDrive replies drv dirs).drive = drive := congrArg Move.drive hm
        cases drv with
        | none => exact absurd hdrive.symm hne
        | some drv =>
          by_cases hdrv : replies.Dsetdrv drv = true
          · rw [setDrive, if_pos hdrv] at hdrive hpath
            refine ⟨hmemory, drv, path, htarget, hdrv, ?_, r, hpath⟩
            exact fun heq => hne (hdrive.symm.trans heq)
          · rw [setDrive, if_neg hdrv] at hdrive
            exact absurd hdrive.symm hne

theorem chdir_kept_iff (σ : Sys) (unixNames : Bool) (replies : Replies Dir) (dir : Option Str)
    (dirs : Dirs Dir) :
    (∀ e dirs', chdir σ unixNames replies dir dirs = some (.error e, dirs') → dirs' = dirs) ↔
      ∀ path ∈ dir, ¬ Astray σ unixNames replies path dirs := by
  cases dir with
  | none =>
    constructor
    · exact fun _ path hpath => absurd hpath (by simp)
    · intro _ e dirs' hrun
      rw [chdir] at hrun
      exact (congrArg Prod.snd (Option.some.inj hrun)).symm
  | some dir =>
    constructor
    · intro hkept path hpath hastray
      rw [← Option.mem_some.mp hpath] at hastray
      obtain ⟨drive, hmove, hne⟩ := astray_iff.mp hastray
      obtain ⟨out, hrun, herror⟩ := chdir_of_move hmove
      obtain ⟨e, he⟩ := herror.mpr rfl
      rw [he] at hrun
      exact hne (congrArg Dirs.drive (hkept e _ hrun))
    · intro hno e dirs' hrun
      cases hmove : move σ unixNames replies dir dirs with
      | none =>
        rw [chdir_of_no_move hmove] at hrun
        exact absurd hrun (by simp)
      | some m =>
        obtain ⟨out, hrun', herror⟩ := chdir_of_move hmove
        have heq := Option.some.inj (hrun.symm.trans hrun')
        have hdirs : dirs' = dirs.apply m := congrArg Prod.snd heq
        have hnone : m.dir = none := herror.mp ⟨e, (congrArg Prod.fst heq).symm⟩
        obtain ⟨drive, cwd⟩ := m
        simp only at hnone
        rw [hnone] at hmove hdirs
        have hstay : drive = dirs.drive := by
          by_contra hne
          exact hno dir rfl (astray_iff.mpr ⟨drive, hmove, hne⟩)
        rw [hdirs, hstay, apply_stay]

/-- `statfs` changes the directory for the occasion, and has the name of the old one. -/
def Leaves (σ : Sys) (replies : StatReplies Dir) (path : Option Str) (buf : Option Statfs)
    (dirs : Dirs Dir) (newpath oldpath : Str) : Prop :=
  buf.isSome ∧ path = some newpath ∧ replies.usage.1 = -ENOSYS ∧
    (∃ st_dev, replies.quickstat = .ok st_dev ∧ GoesThere σ st_dev) ∧
    oldPath σ replies.getcwd dirs.drive = some oldpath

def HasMemory (unixNames : Bool) (replies : Replies Dir) (dir : Str) : Prop :=
  ¬ (NeedsMemory unixNames dir ∧ ¬ replies.malloc)

/-- The kernel takes the path: the current drive that it sets, and a drive with its directory. -/
def Taken (σ : Sys) (unixNames : Bool) (replies : Replies Dir) (dir : Str) (dirs : Dirs Dir)
    (drive d : ℤ) (x : Dir) : Prop :=
  HasMemory unixNames replies dir ∧ ∃ drv path, target σ unixNames dir = some (drv, path) ∧
    replies.Dsetpath (setDrive replies drv dirs) path = .ok (drive, d, x)

/-- There is no memory for the name, or the kernel refuses the path; `drive` is the one in front of
it if the kernel has set that, or the current one. -/
def Refused (σ : Sys) (unixNames : Bool) (replies : Replies Dir) (dir : Str) (dirs : Dirs Dir)
    (drive : ℤ) : Prop :=
  (¬ HasMemory unixNames replies dir ∧ drive = dirs.drive) ∨
    (HasMemory unixNames replies dir ∧ ∃ drv path, target σ unixNames dir = some (drv, path) ∧
      (∃ r, replies.Dsetpath (setDrive replies drv dirs) path = .error r) ∧
      drive = (setDrive replies drv dirs).drive)

/-- The old name leads back from the directories `now`, `set` being a drive and the directory that
the way there has given it: if it is refused, the old drive is current all the same and nothing has
been changed; if it is taken, the kernel sets the old drive and an old directory, and it is that of
the drive that has been changed. -/
def LeadsBack (σ : Sys) (unixNames : Bool) (replies : Replies Dir) (oldpath : Str)
    (old now : Dirs Dir) (set : Option (ℤ × Dir)) : Prop :=
  (∀ drive, Refused σ unixNames replies oldpath now drive →
    drive = old.drive ∧ ∀ t ∈ set, t.2 = old.cwd t.1) ∧
  ∀ drive d x, Taken σ unixNames replies oldpath now drive d x →
    drive = old.drive ∧ x = old.cwd d ∧ ∀ t ∈ set, t.2 = old.cwd t.1 ∨ d = t.1

def ComesBack (σ : Sys) (unixNames : Bool) (replies : StatReplies Dir) (newpath oldpath : Str)
    (dirs : Dirs Dir) : Prop :=
  (∀ drive, Refused σ unixNames replies.there newpath dirs drive →
    LeadsBack σ unixNames replies.back oldpath dirs { dirs with drive := drive } none) ∧
  ∀ drive d x, Taken σ unixNames replies.there newpath dirs drive d x →
    LeadsBack σ unixNames replies.back oldpath dirs ⟨drive, Function.update dirs.cwd d x⟩
      (some (d, x))

/-- Two moves that come back: the last drive is the old one, a directory that is set last is the old
one of its drive, and one that is set first is so too unless the second move sets that drive. -/
def Restores (dirs : Dirs Dir) (there back : Move Dir) : Prop :=
  back.drive = dirs.drive ∧ (∀ t ∈ back.dir, t.2 = dirs.cwd t.1) ∧
    ∀ t ∈ there.dir, t.2 = dirs.cwd t.1 ∨ ∃ u ∈ back.dir, u.1 = t.1

theorem apply_cwd_none {m : Move Dir} (hdir : m.dir = none) (dirs : Dirs Dir) :
    (dirs.apply m).cwd = dirs.cwd := by
  simp only [Dirs.apply, hdir]

theorem apply_cwd_some {m : Move Dir} {d : ℤ} {x : Dir} (hdir : m.dir = some (d, x))
    (dirs : Dirs Dir) : (dirs.apply m).cwd = Function.update dirs.cwd d x := by
  simp only [Dirs.apply, hdir]

/-- What is found on a drive after a move is what the move sets there, or what was there. -/
theorem apply_cwd_eq (dirs : Dirs Dir) (m : Move Dir) (d : ℤ) :
    (∃ t ∈ m.dir, t.1 = d ∧ (dirs.apply m).cwd d = t.2) ∨
      (∀ t ∈ m.dir, t.1 ≠ d) ∧ (dirs.apply m).cwd d = dirs.cwd d := by
  cases hdir : m.dir with
  | none =>
    rw [apply_cwd_none hdir]
    exact Or.inr ⟨fun t ht => absurd ht (by simp), rfl⟩
  | some t =>
    obtain ⟨d', x⟩ := t
    rw [apply_cwd_some hdir]
    by_cases hd : d' = d
    · refine Or.inl ⟨(d', x), rfl, hd, ?_⟩
      rw [← hd, Function.update_self]
    · refine Or.inr ⟨?_, ?_⟩
      · intro t ht
        rw [← Option.mem_some.mp ht]
        exact hd
      · exact Function.update_of_ne (Ne.symm hd) _ _

theorem apply_cwd_set {m : Move Dir} {t : ℤ × Dir} (ht : t ∈ m.dir) (dirs : Dirs Dir) :
    (dirs.apply m).cwd t.1 = t.2 := by
  rw [apply_cwd_some (Option.mem_def.mp ht), Function.update_self]

theorem restores_iff (dirs : Dirs Dir) (there back : Move Dir) :
    (dirs.apply there).apply back = dirs ↔ Restores dirs there back := by
  constructor
  · intro heq
    have hcwd : ∀ d, ((dirs.apply there).apply back).cwd d = dirs.cwd d := by
      intro d
      rw [heq]
    refine ⟨congrArg Dirs.drive heq, ?_, ?_⟩
    · intro t ht
      rw [← hcwd t.1, apply_cwd_set ht]
    · intro t ht
      rcases apply_cwd_eq (dirs.apply there) back t.1 with ⟨u, hu, hdrive, -⟩ | ⟨-, hsame⟩
      · exact Or.inr ⟨u, hu, hdrive⟩
      · left
        rw [← apply_cwd_set ht dirs, ← hsame, hcwd]
  · rintro ⟨hdrive, hback, hthere⟩
    apply Dirs.ext
    · exact hdrive
    funext d
    rcases apply_cwd_eq (dirs.apply there) back d with ⟨u, hu, hd, hset⟩ | ⟨hother, hsame⟩
    · rw [hset, hback u hu, hd]
    rw [hsame]
    rcases apply_cwd_eq dirs there d with ⟨t, ht, hd, hset⟩ | ⟨-, hstay⟩
    · -- the second move did not set this drive again, so the first one set what was there
      rcases hthere t ht with hold | ⟨u, hu, hud⟩
      · rw [hset, hold, hd]
      · exact absurd (hud.trans hd) (hother u hu)
    · exact hstay

theorem move_taken_iff {σ : Sys} {unixNames : Bool} {replies : Replies Dir} {dir : Str}
    {dirs : Dirs Dir} {drive d : ℤ} {x : Dir} :
    move σ unixNames replies dir dirs = some ⟨drive, some (d, x)⟩ ↔
      Taken σ unixNames replies dir dirs drive d x := by
  unfold move Taken HasMemory
  by_cases hmemory : NeedsMemory unixNames dir ∧ ¬ replies.malloc
  · rw [if_pos hmemory]
    refine iff_of_false (fun h => ?_) fun h => h.1 hmemory
    exact absurd (congrArg Move.dir (Option.some.inj h)) (by simp)
  · rw [if_neg hmemory, and_iff_right hmemory, Option.map_eq_some_iff]
    constructor
    · rintro ⟨⟨drv, path⟩, htarget, hm⟩
      refine ⟨drv, path, htarget, ?_⟩
      cases hpath : replies.Dsetpath (setDrive replies drv dirs) path with
      | ok reached =>
        obtain ⟨drive', set⟩ := reached
        simp only [hpath] at hm
        cases hm
        rfl
      | error r =>
        simp only [hpath] at hm
        exact absurd (congrArg Move.dir hm) (by simp)
    · rintro ⟨drv, path, htarget, hpath⟩
      exact ⟨(drv, path), htarget, by simp only [hpath]⟩

theorem move_refused_iff {σ : Sys} {unixNames : Bool} {replies : Replies Dir} {dir : Str}
    {dirs : Dirs Dir} {drive : ℤ} :
    move σ unixNames replies dir dirs = some ⟨drive, none⟩ ↔
      Refused σ unixNames replies dir dirs drive := by
  unfold move Refused HasMemory
  by_cases hmemory : NeedsMemory unixNames dir ∧ ¬ replies.malloc
  · rw [if_pos hmemory, or_iff_left fun h => h.1 hmemory, and_iff_right (not_not.mpr hmemory)]
    constructor
    · intro h
      exact (congrArg Move.drive (Option.some.inj h)).symm
    · rintro rfl
      rfl
  · rw [if_neg hmemory, or_iff_right fun h => h.1 hmemory, and_iff_right hmemory,
      Option.map_eq_some_iff]
    constructor
    · rintro ⟨⟨drv, path⟩, htarget, hm⟩
      cases hpath : replies.Dsetpath (setDrive replies drv dirs) path with
      | ok reached =>
        simp only [hpath] at hm
        exact absurd (congrArg Move.dir hm) (by simp)
      | error r =>
        simp only [hpath] at hm
        exact ⟨drv, path, htarget, ⟨r, hpath⟩, (congrArg Move.drive hm).symm⟩
    · rintro ⟨drv, path, htarget, ⟨r, hpath⟩, rfl⟩
      exact ⟨(drv, path), htarget, by simp only [hpath]⟩

theorem leadsBack_iff {σ : Sys} {unixNames : Bool} {replies : Replies Dir} {oldpath : Str}
    {dirs : Dirs Dir} {there : Move Dir} :
    (∀ back, move σ unixNames replies oldpath (dirs.apply there) = some back →
      Restores dirs there back) ↔
      LeadsBack σ unixNames replies oldpath dirs (dirs.apply there) there.dir := by
  constructor
  · intro h
    refine ⟨fun drive hrefused => ?_, fun drive d x htaken => ?_⟩
    · obtain ⟨hdrive, -, hset⟩ := h _ (move_refused_iff.mpr hrefused)
      refine ⟨hdrive, fun t ht => (hset t ht).resolve_right ?_⟩
      rintro ⟨u, hu, -⟩
      exact absurd hu (by simp)
    · obtain ⟨hdrive, hback, hset⟩ := h _ (move_taken_iff.mpr htaken)
      refine ⟨hdrive, hback (d, x) rfl, fun t ht => (hset t ht).imp_right ?_⟩
      rintro ⟨u, hu, hud⟩
      rw [← Option.mem_some.mp hu] at hud
      exact hud
  · rintro ⟨hrefused, htaken⟩ ⟨drive, dir⟩ hmove
    cases dir with
    | none =>
      obtain ⟨hdrive, hset⟩ := hrefused drive (move_refused_iff.mp hmove)
      exact ⟨hdrive, fun t ht => absurd ht (by simp), fun t ht => Or.inl (hset t ht)⟩
    | some u =>
      obtain ⟨hdrive, hx, hset⟩ := htaken drive u.1 u.2 (move_taken_iff.mp hmove)
      refine ⟨hdrive, fun t ht => ?_, fun t ht => (hset t ht).imp_right fun hd => ⟨u, rfl, hd⟩⟩
      rw [← Option.mem_some.mp ht]
      exact hx

theorem comesBack_iff {σ : Sys} {unixNames : Bool} {replies : StatReplies Dir}
    {newpath oldpath : Str} {dirs : Dirs Dir} :
    (∀ there, move σ unixNames replies.there newpath dirs = some there →
      ∀ back, move σ unixNames replies.back oldpath (dirs.apply there) = some back →
        Restores dirs there back) ↔ ComesBack σ unixNames replies newpath oldpath dirs := by
  simp only [leadsBack_iff]
  constructor
  · intro h
    exact ⟨fun drive hrefused => h _ (move_refused_iff.mpr hrefused),
      fun drive d x htaken => h _ (move_taken_iff.mpr htaken)⟩
  · rintro ⟨hrefused, htaken⟩ ⟨drive, dir⟩ hmove
    cases dir with
    | none => exact hrefused drive (move_refused_iff.mp hmove)
    | some t => exact htaken drive t.1 t.2 (move_taken_iff.mp hmove)

theorem thereAndBack_stays {σ : Sys} {unixNames : Bool} {replies : StatReplies Dir} {path : Str}
    {st_dev : ℤ} {dirs : Dirs Dir}
    (hstays : ¬ (GoesThere σ st_dev ∧
      ∃ oldpath, oldPath σ replies.getcwd dirs.drive = some oldpath)) :
    thereAndBack σ unixNames replies path st_dev dirs = some dirs := by
  rw [thereAndBack]
  by_cases hgoes : GoesThere σ st_dev
  · rw [if_pos hgoes]
    cases hcwd : oldPath σ replies.getcwd dirs.drive with
    | none => rfl
    | some oldpath => exact absurd ⟨hgoes, oldpath, hcwd⟩ hstays
  · rw [if_neg hgoes]

theorem thereAndBack_moves {σ : Sys} {unixNames : Bool} {replies : StatReplies Dir}
    {path oldpath : Str} {st_dev : ℤ} {dirs : Dirs Dir} (hgoes : GoesThere σ st_dev)
    (hcwd : oldPath σ replies.getcwd dirs.drive = some oldpath) :
    thereAndBack σ unixNames replies path st_dev dirs =
      (move σ unixNames replies.there path dirs).bind fun there =>
        (move σ unixNames replies.back oldpath (dirs.apply there)).map fun back =>
          (dirs.apply there).apply back := by
  rw [thereAndBack, if_pos hgoes, hcwd]
  cases hthere : move σ unixNames replies.there path dirs with
  | none =>
    simp only [chdir_of_no_move hthere]
    rfl
  | some there =>
    obtain ⟨out, hrun, -⟩ := chdir_of_move hthere
    simp only [hrun, Option.bind_some]
    cases hback : move σ unixNames replies.back oldpath (dirs.apply there) with
    | none =>
      rw [chdir_of_no_move hback]
      rfl
    | some back =>
      obtain ⟨out', hrun', -⟩ := chdir_of_move hback
      rw [hrun']
      rfl

/-- A run of `statfs` that does not leave the directories as they were changes them for the
occasion. -/
theorem statfs_dirs {σ : Sys} {unixNames : Bool} {replies : StatReplies Dir} {path : Option Str}
    {buf : Option Statfs} {dirs : Dirs Dir} {out : Except ℕ Unit} {buf' : Option Statfs}
    {dirs' : Dirs Dir}
    (hrun : statfs σ unixNames replies path buf dirs = some (out, buf', dirs')) :
    dirs' = dirs ∨ ∃ newpath oldpath, Leaves σ replies path buf dirs newpath oldpath ∧
      ∃ st_dev, GoesThere σ st_dev ∧
        thereAndBack σ unixNames replies newpath st_dev dirs = some dirs' := by
  cases buf with
  | none =>
    rw [statfs] at hrun
    · exact Or.inl (congrArg (fun r => r.2.2) (Option.some.inj hrun)).symm
    · exact fun _ _ h _ => absurd h (by simp)
  | some buf =>
    cases path with
    | none => exact Or.inl (congrArg (fun r => r.2.2) (Option.some.inj hrun)).symm
    | some path =>
      rw [statfs] at hrun
      cases hstat : replies.quickstat with
      | error errno =>
        simp only [hstat] at hrun
        exact Or.inl (congrArg (fun r => r.2.2) (Option.some.inj hrun)).symm
      | ok st_dev =>
        simp only [hstat] at hrun
        by_cases hzero : replies.usage.1 = 0
        · rw [if_pos hzero] at hrun
          exact Or.inl (congrArg (fun r => r.2.2) (Option.some.inj hrun)).symm
        rw [if_neg hzero] at hrun
        by_cases hold : replies.usage.1 = -ENOSYS
        · rw [if_pos hold] at hrun
          cases hmoved : thereAndBack σ unixNames replies path st_dev dirs with
          | none =>
            rw [hmoved] at hrun
            exact absurd hrun (by simp)
          | some moved =>
            rw [hmoved] at hrun
            have hdirs : moved = dirs' := congrArg (fun r => r.2.2) (Option.some.inj hrun)
            by_cases hgoes : GoesThere σ st_dev ∧
                ∃ oldpath, oldPath σ replies.getcwd dirs.drive = some oldpath
            · obtain ⟨hgoes, oldpath, hcwd⟩ := hgoes
              rw [hdirs] at hmoved
              exact Or.inr ⟨path, oldpath, ⟨rfl, rfl, hold, ⟨st_dev, hstat, hgoes⟩, hcwd⟩,
                st_dev, hgoes, hmoved⟩
            · rw [thereAndBack_stays hgoes] at hmoved
              exact Or.inl (hdirs.symm.trans (Option.some.inj hmoved).symm)
        · rw [if_neg hold] at hrun
          exact Or.inl (congrArg (fun r => r.2.2) (Option.some.inj hrun)).symm

/-- Where the directory is changed for the occasion, the run ends with what that leaves. -/
theorem statfs_of_leaves {σ : Sys} {unixNames : Bool} {replies : StatReplies Dir}
    {path : Option Str} {buf : Option Statfs} {dirs dirs' : Dirs Dir} {newpath oldpath : Str}
    {there back : Move Dir} (hleaves : Leaves σ replies path buf dirs newpath oldpath)
    (hthere : move σ unixNames replies.there newpath dirs = some there)
    (hback : move σ unixNames replies.back oldpath (dirs.apply there) = some back)
    (hdirs : (dirs.apply there).apply back = dirs') :
    ∃ out buf', statfs σ unixNames replies path buf dirs = some (out, buf', dirs') := by
  obtain ⟨hbuf, hpath, hold, ⟨st_dev, hstat, hgoes⟩, hcwd⟩ := hleaves
  obtain ⟨buf, rfl⟩ := Option.isSome_iff_exists.mp hbuf
  have hmoved : thereAndBack σ unixNames replies newpath st_dev dirs = some dirs' := by
    rw [thereAndBack_moves hgoes hcwd, hthere, Option.bind_some, hback, Option.map_some, hdirs]
  have hzero : ¬ replies.usage.1 = 0 := by
    rw [hold]
    decide
  rw [hpath, statfs]
  simp only [hstat]
  rw [if_neg hzero, if_pos hold, hmoved]
  exact ⟨_, _, rfl⟩

/-- `statfs` leaves the directories as they were, unless it changes them for the occasion and does
not come back. -/
theorem statfs_kept_iff (σ : Sys) (unixNames : Bool) (replies : StatReplies Dir)
    (path : Option Str) (buf : Option Statfs) (dirs : Dirs Dir) :
    (∀ out buf' dirs', statfs σ unixNames replies path buf dirs = some (out, buf', dirs') →
      dirs' = dirs) ↔
      ∀ newpath oldpath, Leaves σ replies path buf dirs newpath oldpath →
        ComesBack σ unixNames replies newpath oldpath dirs := by
  constructor
  · intro hkept newpath oldpath hleaves
    rw [← comesBack_iff]
    intro there hthere back hback
    obtain ⟨out, buf', hrun⟩ := statfs_of_leaves hleaves hthere hback rfl
    exact (restores_iff dirs there back).mp (hkept out buf' _ hrun)
  · intro hcomes out buf' dirs' hrun
    rcases statfs_dirs hrun with hsame | ⟨newpath, oldpath, hleaves, st_dev, hgoes, hmoved⟩
    · exact hsame
    rw [thereAndBack_moves hgoes hleaves.2.2.2.2] at hmoved
    obtain ⟨there, hthere, hmap⟩ := Option.bind_eq_some_iff.mp hmoved
    obtain ⟨back, hback, heq⟩ := Option.map_eq_some_iff.mp hmap
    rw [← heq]
    exact (restores_iff dirs there back).mpr
      (comesBack_iff.mpr (hcomes newpath oldpath hleaves) there hthere back hback)

/-- Exactly when the directories are kept, by a `chdir` that fails and by every `statfs`. -/
theorem directories_kept_iff (σ : Sys) (unixNames : Bool) (dirs : Dirs Dir) :
    (∀ (replies : Replies Dir) (dir : Option Str),
      (∀ e dirs', chdir σ unixNames replies dir dirs = some (.error e, dirs') → dirs' = dirs) ↔
        ∀ path ∈ dir, ¬ Astray σ unixNames replies path dirs) ∧
    ∀ (replies : StatReplies Dir) (path : Option Str) (buf : Option Statfs),
      (∀ out buf' dirs', statfs σ unixNames replies path buf dirs = some (out, buf', dirs') →
        dirs' = dirs) ↔
        ∀ newpath oldpath, Leaves σ replies path buf dirs newpath oldpath →
          ComesBack σ unixNames replies newpath oldpath dirs :=
  ⟨fun replies dir => chdir_kept_iff σ unixNames replies dir dirs,
    fun replies path buf => statfs_kept_iff σ unixNames replies path buf dirs⟩

/-- A kernel on which every drive is there, and a path is refused or is the directory of the current
drive. -/
def demo (refused : Str → Bool) : Replies Str where
  malloc := true
  Dsetdrv := fun _ => true
  Dsetpath := fun dirs path =>
    if refused path then .error 36 else .ok (dirs.drive, dirs.drive, path)
  stat := ⟨fun _ => (-1, 0), fun _ => none, 0⟩
  proc := ⟨0, by decide, 0⟩

/-- On drive `C`, and in the root directory of every drive. -/
def onC : Dirs Str := ⟨2, fun _ => [BACKSLASH]⟩

/-- `chdir ("d:\\x")` is refused on drive `D`, and stays there; `statfs ("u:\\pipe")` comes back to
`C`, and leaves the directory of drive `U` changed. -/
theorem drive_stays_set :
    (∃ e dirs', chdir ⟨0, 112⟩ false (demo fun _ => true) (some [100, 58, 92, 120]) onC =
      some (.error e, dirs') ∧ dirs' ≠ onC) ∧
    ∃ out buf' dirs', statfs ⟨0, 112⟩ false
      ⟨.ok 32, none, (-ENOSYS, ⟨0, 0, 0, 0, 0⟩), (0, ⟨0, 0, 0, 0⟩),
        ⟨0, fun _ => .ok [BACKSLASH], [], fun _ => true⟩, demo fun _ => false, demo fun _ => false⟩
      (some [117, 58, 92, 112, 105, 112, 101]) (some ⟨0, 0, 0, 0, 0, 0, 0, 0⟩) onC =
        some (out, buf', dirs') ∧ dirs' ≠ onC := by
  refine ⟨⟨36, { onC with drive := 3 }, by rfl, ?_⟩, ?_⟩
  · exact fun heq => absurd (congrArg Dirs.drive heq) (by decide)
  · refine ⟨.ok (), _, _, by rfl, ?_⟩
    exact fun heq => absurd (congrArg (fun dirs => dirs.cwd 20) heq) (by decide)

end Mintlib.Chdir
