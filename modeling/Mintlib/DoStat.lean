import Mintlib.Enoent
import Mintlib.Posix

/-!
# What is known of a file: `do_stat.c` and `quickstat.c`

`__quickstat` is to find all that `__do_stat` finds, except for the time stamps. Both ask the kernel,
and put together what an old kernel does not tell.
-/

namespace Mintlib.DoStat

open Text Unx2dos Posix
open Checked (Stop)
open Dirname (strrchr)

abbrev STAR : UInt8 := 42
abbrev QUESTION : UInt8 := 63

abbrev S_IFMT : BitVec 32 := 0o170000
abbrev S_IFCHR : BitVec 32 := 0o020000
abbrev S_IFDIR : BitVec 32 := 0o040000
abbrev S_IFREG : BitVec 32 := 0o100000
abbrev S_IFLNK : BitVec 32 := 0o160000

abbrev FA_RDONLY : BitVec 8 := 0x01
abbrev FA_HIDDEN : BitVec 8 := 0x02
abbrev FA_DIR : BitVec 8 := 0x10
abbrev FA_SYMLINK : BitVec 8 := 0x40

/-- A time stamp, with the words above and below the seconds. -/
structure Stamp where
  high : BitVec 32
  sec : BitVec 32
  nsec : BitVec 32
deriving DecidableEq

structure Times where
  atime : Stamp
  mtime : Stamp
  ctime : Stamp
deriving DecidableEq

structure Stat where
  st_dev : BitVec 64
  st_ino : BitVec 32
  st_mode : BitVec 32
  st_nlink : BitVec 32
  st_uid : BitVec 32
  st_gid : BitVec 32
  st_rdev : BitVec 64
  times : Times
  st_hi_size : BitVec 32
  st_size : BitVec 32
  st_hi_blocks : BitVec 32
  st_blocks : BitVec 32
  st_blksize : BitVec 32
  st_flags : BitVec 32
  st_gen : BitVec 32
deriving DecidableEq

def Times.all (sec : BitVec 32) : Times := ⟨⟨0, sec, 0⟩, ⟨0, sec, 0⟩, ⟨0, sec, 0⟩⟩

/-- `memset (st, 0, sizeof (*st))`. -/
def Stat.zero : Stat := ⟨0, 0, 0, 0, 0, 0, 0, Times.all 0, 0, 0, 0, 0, 0, 0, 0⟩

def Stat.untimed (st : Stat) : Stat := { st with times := Times.all 0 }

structure Xattr where
  st_dev : ℤ
  st_ino : ℤ
  st_mode : ℤ
  st_nlink : ℤ
  st_uid : ℤ
  st_gid : ℤ
  st_rdev : ℤ
  st_mtime : BitVec 32
  st_atime : BitVec 32
  st_ctime : BitVec 32
  st_size : ℤ
  st_blocks : ℤ
  st_blksize : ℤ

structure Dta where
  dta_attribute : BitVec 8
  dta_time : BitVec 16
  dta_date : BitVec 16
  dta_size : BitVec 32
  dta_name : Str

/-- What a call finds: what the kernel answers, the clock, the owner, how names are translated, the
room behind a path that is not, and what `_enoent` looks at. -/
structure Env where
  Fstat64 : ℤ → Str → Stat → ℤ × Stat
  Fxattr : ℤ → Str → ℤ × Xattr
  Fsfirst : Str → ℤ × Dta
  Fopen : Str → ℤ
  Fread : ℤ → Str
  Dgetdrv : ℤ
  geteuid : BitVec 32
  getegid : BitVec 32
  time : BitVec 32
  unixtime : BitVec 16 → BitVec 16 → BitVec 32
  σ : Sys
  unixNames : Bool
  room : ℕ
  stat : Enoent.Env
  proc : Enoent.Proc stat

/-- A DOS time stamp: the time in the upper half, the date in the lower. -/
def Env.stamp (E : Env) (l : BitVec 32) : Stamp :=
  ⟨0, E.unixtime ((l >>> 16).setWidth 16) (l.setWidth 16), 0⟩

/-- What `__sys_stat` makes of the answer of `Fxattr`. -/
def Env.ofXattr (E : Env) (xattr : Xattr) (exact : Bool) : Stat :=
  { Stat.zero with
    st_dev := BitVec.ofInt 64 xattr.st_dev
    st_ino := BitVec.ofInt 32 xattr.st_ino
    st_mode := BitVec.ofInt 32 xattr.st_mode
    st_nlink := BitVec.ofInt 32 xattr.st_nlink
    st_uid := BitVec.ofInt 32 xattr.st_uid
    st_gid := BitVec.ofInt 32 xattr.st_gid
    st_rdev := BitVec.ofInt 64 xattr.st_rdev
    times := if exact then
        ⟨E.stamp xattr.st_atime, E.stamp xattr.st_mtime, E.stamp xattr.st_ctime⟩
      else Times.all 0
    st_size := BitVec.ofInt 32 xattr.st_size
    st_blocks := (BitVec.ofInt 32 xattr.st_blocks * BitVec.ofInt 32 xattr.st_blksize).sshiftRight 9
    st_blksize := BitVec.ofInt 32 xattr.st_blksize }

def Env.sysStat (E : Env) (path : Str) (st : Stat) (lflag : ℤ) (exact : Bool) : ℤ × Stat :=
  let (r, st) := E.Fstat64 lflag path st
  if r = -ENOSYS ∨ r = -EINVAL then
    let (r, xattr) := E.Fxattr lflag path
    (r, if r = 0 then E.ofXattr xattr exact else st)
  else (r, st)

/-- The path that the kernel gets, and `1` for a device. -/
def Env.translate (E : Env) (_path : Str) : Option (Str × ℤ) :=
  if E.unixNames then some (_path, 0) else unx2dos E.σ _path PATH_MAX

/-- What an answer other than `-ENOSYS` means. -/
def Env.outcome (E : Env) (r : ℤ) (path : Str) : Except ℤ Unit :=
  if r = 0 then .ok ()
  else .error (if r = -ENOTDIR ∧ Enoent.reports E.proc path then ENOENT else -r)

def Env.device (E : Env) (inode sec : BitVec 32) : Stat :=
  { Stat.zero with
    st_mode := S_IFCHR ||| 0o600
    st_ino := inode
    times := Times.all sec
    st_nlink := 1
    st_uid := E.geteuid
    st_gid := E.getegid
    st_blksize := 1024 }

def Env.rootOf (E : Env) (path : Str) : Option UInt8 :=
  if path = [BACKSLASH] then some (UInt8.ofInt (E.Dgetdrv + 65))
  else
    match path with
    | [drv, 58] => some drv
    | [drv, 58, 92] => some drv
    | _ => none

def Env.directory (E : Env) (drv : UInt8) (sec : BitVec 32) : Stat :=
  { Stat.zero with
    st_mode := S_IFDIR ||| 0o755
    st_dev := BitVec.ofInt 64 (drv.toInt8.toInt - if isUpper drv then 65 else 97)
    st_ino := 2
    times := Times.all sec
    st_size := 1024
    st_blocks := 2
    st_nlink := 2
    st_uid := E.geteuid
    st_gid := E.getegid
    st_blksize := 1024 }

def prevdir : Str → Option ℕ
  | [] => none
  | c :: s =>
    match prevdir s with
    | some i => some (i + 1)
    | none =>
      match s with
      | [] => none
      | d :: _ => if c = BACKSLASH ∧ d ≠ DOT then some 0 else none

/-- The name for `Fsfirst`, where it is not the path: a directory is asked for its first entry.
`".."` alone is written to in front of its first byte. -/
def kludge (path : Str) : Except Stop (Option Str) :=
  match path.reverse with
  | 46 :: [] => .ok (some (path ++ [BACKSLASH, STAR, DOT, STAR]))
  | 46 :: 92 :: _ => .ok (some (path ++ [BACKSLASH, STAR, DOT, STAR]))
  | 46 :: 46 :: front =>
    match prevdir path with
    | some i => .ok (some (path.take i ++ [BACKSLASH, STAR, DOT, STAR]))
    | none =>
      if front = [] then .error .bounds
      else .ok (some (path.take (front.length - 1) ++ [BACKSLASH, STAR, DOT, STAR]))
  | 92 :: _ => .ok (some (path ++ [STAR, DOT, STAR]))
  | _ => .ok none

/-- The name for `Fsfirst`, and whether it was changed in place. -/
def Env.entryName (E : Env) (path : Str) : Except Stop (Str × Bool) :=
  match kludge path with
  | .error stop => .error stop
  | .ok none => .ok (path, false)
  | .ok (some name) =>
    if name.length < if E.unixNames then E.room else PATH_MAX then .ok (name, true)
    else .error .bounds

/-- `".app"`, `".gtp"`, `".ttp"`, `".prg"` and `".tos"`. -/
def programs : List Str :=
  [[46, 97, 112, 112], [46, 103, 116, 112], [46, 116, 116, 112], [46, 112, 114, 103],
    [46, 116, 111, 115]]

def IsProgram (path : Str) : Prop := ∃ i ∈ strrchr path DOT, path.drop i ∈ programs

instance (path : Str) : Decidable (IsProgram path) := by
  unfold IsProgram
  exact inferInstance

/-- The path as the caller has it now: without a copy of its own it was changed in place. -/
def Env.given (E : Env) (_path name : Str) : Str := if E.unixNames then name else _path

def modeOf (attr : BitVec 8) (program : Bool) : BitVec 32 :=
  let mode := 0o644 ||| (if attr &&& FA_SYMLINK ≠ 0 then S_IFLNK
    else if attr &&& FA_DIR ≠ 0 then S_IFDIR ||| 0o111 else S_IFREG)
  let mode := if attr &&& FA_RDONLY ≠ 0 then mode &&& ~~~0o222 else mode
  let mode := if attr &&& FA_HIDDEN ≠ 0 then mode &&& ~~~0o444 else mode
  if program then mode ||| 0o111 else mode

def Env.driveOf (E : Env) (name : Str) : ℤ :=
  match name with
  | drv :: 58 :: _ => (toupper drv).toInt8.toInt - 65
  | _ => E.Dgetdrv

def Env.begun (E : Env) (name : Str) (mode : BitVec 32) (times : Times) (inode : BitVec 32) :
    Stat :=
  { Stat.zero with
    st_dev := BitVec.ofInt 64 (E.driveOf name)
    st_ino := inode
    st_mode := mode
    times := times }

/-- An entry of a directory: a regular file has a size, all else has that of a directory. -/
def Env.entry (E : Env) (name : Str) (d : Dta) (mode : BitVec 32) (times : Times)
    (inode : BitVec 32) : Stat :=
  let st := { E.begun name mode times inode with
    st_uid := E.geteuid
    st_gid := E.getegid
    st_blksize := 1024 }
  if mode &&& S_IFMT = S_IFREG then
    { st with
      st_size := d.dta_size
      st_blocks := (d.dta_size + 511).sdiv 512
      st_nlink := 1 }
  else { st with st_size := 1024, st_blocks := 2, st_nlink := 2 }

def Env.magic (E : Env) (fd : ℤ) : ℕ :=
  ((E.Fread fd).getD 0 0).toNat * 256 + ((E.Fread fd).getD 1 0).toNat

/-- `0x601A` is a program, `0x2321` a script. -/
def Env.executable (E : Env) (fd : ℤ) : Bool := E.magic fd = 0x601A ∨ E.magic fd = 0x2321

/-- The result, the structure, and the next inode number. -/
abbrev Answer := Except ℤ Unit × Stat × BitVec 32

/-- `__do_stat`; `xbit` stands for `_x_Bit_set_in_stat`. -/
def Env.doStat (E : Env) (xbit : Bool) (_path : Option Str) (st : Stat) (lflag : ℤ)
    (inode : BitVec 32) : Except Stop Answer :=
  match _path with
  | none => .ok (.error EFAULT, st, inode)
  | some [] => .ok (.error ENOENT, st, inode)
  | some (c :: s) =>
    match E.translate (c :: s) with
    | none => .error .bounds
    | some (path, nval) =>
      let (r, st) := E.sysStat path st lflag true
      if r ≠ -ENOSYS then .ok (E.outcome r path, st, inode)
      else if nval = 1 then .ok (.ok (), E.device inode (E.time - 2), inode + 1)
      else
        match E.rootOf path with
        | some drv => .ok (.ok (), E.directory drv (E.unixtime 0 0), inode)
        | none =>
          if STAR ∈ path ∨ QUESTION ∈ path then .ok (.error ENOENT, Stat.zero, inode)
          else
            match E.entryName path with
            | .error stop => .error stop
            | .ok (name, isdot) =>
              let (r, d) := E.Fsfirst name
              if r < 0 then .ok (.error (-r), Stat.zero, inode)
              else if isdot ∧ d.dta_name ≠ [DOT] then
                .ok (.ok (), E.directory (path.headD 0) (E.unixtime 0 0), inode)
              else
                let times := Times.all (E.unixtime d.dta_time d.dta_date)
                let mode := modeOf d.dta_attribute (IsProgram (E.given (c :: s) name))
                if mode &&& S_IFMT = S_IFREG ∧ xbit then
                  let fd := E.Fopen name
                  if fd < 0 then .ok (.error (-fd), E.begun name mode times inode, inode + 1)
                  else
                    let mode := if E.executable fd then mode ||| 0o111 else mode
                    .ok (.ok (), E.entry name d mode times inode, inode + 1)
                else .ok (.ok (), E.entry name d mode times inode, inode + 1)

def Env.quickstat (E : Env) (_path : Option Str) (st : Stat) (lflag : ℤ)
    (inode : BitVec 32) : Except Stop Answer :=
  match _path with
  | none => .ok (.error EFAULT, st, inode)
  | some [] => .ok (.error ENOENT, st, inode)
  | some (c :: s) =>
    match E.translate (c :: s) with
    | none => .error .bounds
    | some (path, nval) =>
      let (r, st) := E.sysStat path st lflag false
      if r ≠ -ENOSYS then .ok (E.outcome r path, st, inode)
      else if nval = 1 then .ok (.ok (), E.device inode 0, inode + 1)
      else
        match E.rootOf path with
        | some drv => .ok (.ok (), E.directory drv 0, inode)
        | none =>
          if STAR ∈ path ∨ QUESTION ∈ path then .ok (.error ENOENT, Stat.zero, inode)
          else
            match E.entryName path with
            | .error stop => .error stop
            | .ok (name, isdot) =>
              let (r, d) := E.Fsfirst name
              if r < 0 then .ok (.error (-r), Stat.zero, inode)
              else if isdot ∧ d.dta_name ≠ [DOT] then
                .ok (.ok (), E.directory (path.headD 0) 0, inode)
              else
                let mode := modeOf d.dta_attribute (IsProgram (E.given (c :: s) name))
                .ok (.ok (), E.entry name d mode (Times.all 0) inode, inode + 1)

def untimed (answer : Answer) : Answer := (answer.1, answer.2.1.untimed, answer.2.2)

/-- The emulation has the entry `d`, which the kernel gave for `name`. -/
def Env.Finds (E : Env) (_path : Option Str) (st : Stat) (lflag : ℤ) (given name : Str)
    (d : Dta) : Prop :=
  _path = some given ∧ given ≠ [] ∧ ∃ path nval isdot,
    E.translate given = some (path, nval) ∧ (E.sysStat path st lflag false).1 = -ENOSYS ∧
      nval ≠ 1 ∧ E.rootOf path = none ∧ ¬ (STAR ∈ path ∨ QUESTION ∈ path) ∧
      E.entryName path = .ok (name, isdot) ∧ (E.Fsfirst name).2 = d ∧ ¬ (E.Fsfirst name).1 < 0 ∧
      ¬ (isdot = true ∧ d.dta_name ≠ [DOT])

def Dta.Regular (d : Dta) : Prop :=
  d.dta_attribute &&& FA_SYMLINK = 0 ∧ d.dta_attribute &&& FA_DIR = 0

theorem sys_stat_result (E : Env) (path : Str) (st : Stat) (lflag : ℤ) :
    (E.sysStat path st lflag true).1 = (E.sysStat path st lflag false).1 := by
  simp only [Env.sysStat]
  split <;> rfl

theorem sys_stat_untimed (E : Env) (path : Str) (st : Stat) (lflag : ℤ) :
    (E.sysStat path st lflag true).2.untimed =
      (E.sysStat path st lflag false).2.untimed := by
  simp only [Env.sysStat]
  split
  · show Stat.untimed (if _ then _ else _) = Stat.untimed (if _ then _ else _)
    split <;> rfl
  · rfl

theorem entry_untimed (E : Env) (name : Str) (d : Dta) (mode : BitVec 32) (times times' : Times)
    (inode : BitVec 32) :
    (E.entry name d mode times inode).untimed = (E.entry name d mode times' inode).untimed := by
  rw [Env.entry, Env.entry]
  split <;> rfl

theorem entry_mode (E : Env) (name : Str) (d : Dta) (mode : BitVec 32) (times : Times)
    (inode : BitVec 32) : (E.entry name d mode times inode).untimed.st_mode = mode := by
  rw [Env.entry]
  split <;> rfl

theorem modeOf_regular (d : Dta) (program : Bool) :
    modeOf d.dta_attribute program &&& S_IFMT = S_IFREG ↔ d.Regular := by
  rw [modeOf, Dta.Regular]
  by_cases hlink : d.dta_attribute &&& FA_SYMLINK = 0 <;>
    by_cases hdir : d.dta_attribute &&& FA_DIR = 0 <;>
    by_cases hread : d.dta_attribute &&& FA_RDONLY = 0 <;>
    by_cases hhidden : d.dta_attribute &&& FA_HIDDEN = 0 <;>
    simp only [hlink, hdir, hread, hhidden, ne_eq, not_true_eq_false, not_false_eq_true, if_true,
      if_false, and_self, and_true, and_false, iff_true, iff_false] <;>
    cases program <;> decide

theorem modeOf_executable {d : Dta} (hregular : d.Regular) (program : Bool) :
    modeOf d.dta_attribute program ||| 0o111 = modeOf d.dta_attribute program ↔
      program = true := by
  obtain ⟨hlink, hdir⟩ := hregular
  rw [modeOf]
  by_cases hread : d.dta_attribute &&& FA_RDONLY = 0 <;>
    by_cases hhidden : d.dta_attribute &&& FA_HIDDEN = 0 <;>
    simp only [hlink, hdir, hread, hhidden, ne_eq, not_true_eq_false, not_false_eq_true, if_true,
      if_false] <;>
    cases program <;> decide

def Env.Same (E : Env) (xbit : Bool) (_path : Option Str) (st : Stat) (lflag : ℤ)
    (inode : BitVec 32) : Prop :=
  (E.quickstat _path st lflag inode).map untimed =
    (E.doStat xbit _path st lflag inode).map untimed

theorem same_of_no_entry {E : Env} {xbit : Bool} {_path : Option Str} {st : Stat} {lflag : ℤ}
    {inode : BitVec 32} (hno : ∀ given name d, ¬ E.Finds _path st lflag given name d) :
    E.Same xbit _path st lflag inode := by
  rw [Env.Same]
  cases _path with
  | none => rfl
  | some given =>
    cases given with
    | nil => rfl
    | cons c s =>
      rw [Env.quickstat, Env.doStat]
      cases htranslate : E.translate (c :: s) with
      | none => rfl
      | some t =>
        obtain ⟨path, nval⟩ := t
        simp only [sys_stat_result]
        by_cases hemulate : (E.sysStat path st lflag false).1 = -ENOSYS
        swap
        · rw [if_pos hemulate, if_pos hemulate]
          show Except.ok _ = Except.ok _
          simp only [untimed, sys_stat_untimed]
        rw [if_neg (not_not.mpr hemulate), if_neg (not_not.mpr hemulate)]
        by_cases hdevice : nval = 1
        · rw [if_pos hdevice, if_pos hdevice]
          rfl
        rw [if_neg hdevice, if_neg hdevice]
        cases hroot : E.rootOf path with
        | some drv => rfl
        | none =>
          by_cases hwild : STAR ∈ path ∨ QUESTION ∈ path
          · simp only [if_pos hwild]
          simp only [if_neg hwild]
          cases hname : E.entryName path with
          | error stop => rfl
          | ok t =>
            obtain ⟨name, isdot⟩ := t
            simp only
            by_cases hfails : (E.Fsfirst name).1 < 0
            · rw [if_pos hfails, if_pos hfails]
            rw [if_neg hfails, if_neg hfails]
            by_cases hdot : isdot = true ∧ (E.Fsfirst name).2.dta_name ≠ [DOT]
            · rw [if_pos hdot, if_pos hdot]
              rfl
            · exact absurd ⟨rfl, List.cons_ne_nil c s, path, nval, isdot, htranslate, hemulate,
                hdevice, hroot, hwild, hname, rfl, hfails, hdot⟩
                (hno (c :: s) name (E.Fsfirst name).2)

theorem quickstat_entry {E : Env} {_path : Option Str} {st : Stat} {lflag : ℤ} {given name : Str}
    {d : Dta} (hfinds : E.Finds _path st lflag given name d) (inode : BitVec 32) :
    E.quickstat _path st lflag inode =
      .ok (.ok (), E.entry name d (modeOf d.dta_attribute (IsProgram (E.given given name)))
        (Times.all 0) inode, inode + 1) := by
  obtain ⟨rfl, hne, path, nval, isdot, htranslate, hemulate, hdevice, hroot, hwild, hname, rfl,
    hfails, hdot⟩ := hfinds
  cases given with
  | nil => exact absurd rfl hne
  | cons c s =>
    rw [Env.quickstat, htranslate]
    simp only
    rw [if_neg (not_not.mpr hemulate), if_neg hdevice, hroot]
    simp only
    rw [if_neg hwild, hname]
    simp only
    rw [if_neg hfails, if_neg hdot]

theorem do_stat_entry {E : Env} {_path : Option Str} {st : Stat} {lflag : ℤ} {given name : Str}
    {d : Dta} (hfinds : E.Finds _path st lflag given name d) (xbit : Bool) (inode : BitVec 32) :
    E.doStat xbit _path st lflag inode =
      let times := Times.all (E.unixtime d.dta_time d.dta_date)
      let mode := modeOf d.dta_attribute (IsProgram (E.given given name))
      if mode &&& S_IFMT = S_IFREG ∧ xbit then
        if E.Fopen name < 0 then
          .ok (.error (-E.Fopen name), E.begun name mode times inode, inode + 1)
        else
          .ok (.ok (), E.entry name d (if E.executable (E.Fopen name) then mode ||| 0o111 else mode)
            times inode, inode + 1)
      else .ok (.ok (), E.entry name d mode times inode, inode + 1) := by
  obtain ⟨rfl, hne, path, nval, isdot, htranslate, hemulate, hdevice, hroot, hwild, hname, rfl,
    hfails, hdot⟩ := hfinds
  cases given with
  | nil => exact absurd rfl hne
  | cons c s =>
    rw [Env.doStat, htranslate]
    simp only [sys_stat_result]
    rw [if_neg (not_not.mpr hemulate), if_neg hdevice, hroot]
    simp only
    rw [if_neg hwild, hname]
    simp only
    rw [if_neg hfails, if_neg hdot]

theorem answer_entry_iff (E : Env) (name : Str) (d : Dta) (mode mode' : BitVec 32)
    (times times' : Times) (inode : BitVec 32) :
    Except.map untimed
        (.ok (.ok (), E.entry name d mode times inode, inode + 1) : Except Stop Answer) =
      Except.map untimed (.ok (.ok (), E.entry name d mode' times' inode, inode + 1)) ↔
      mode = mode' := by
  constructor
  · intro heq
    have hst := congrArg (fun answer : Answer => answer.2.1.st_mode) (Except.ok.inj heq)
    calc
      mode = (E.entry name d mode times inode).untimed.st_mode := (entry_mode ..).symm
      _ = (E.entry name d mode' times' inode).untimed.st_mode := hst
      _ = mode' := entry_mode ..
  · intro heq
    rw [← heq]
    show Except.ok _ = Except.ok _
    simp only [untimed]
    rw [entry_untimed]

def Env.Plain (E : Env) (given name : Str) : Prop :=
  0 ≤ E.Fopen name ∧ (E.executable (E.Fopen name) = true → IsProgram (E.given given name))

theorem same_entry_iff {E : Env} {_path : Option Str} {st : Stat} {lflag : ℤ} {given name : Str}
    {d : Dta} (hfinds : E.Finds _path st lflag given name d) (xbit : Bool) (inode : BitVec 32) :
    E.Same xbit _path st lflag inode ↔ (xbit = true → d.Regular → E.Plain given name) := by
  rw [Env.Same, quickstat_entry hfinds, do_stat_entry hfinds]
  by_cases hlooks : modeOf d.dta_attribute (IsProgram (E.given given name)) &&& S_IFMT = S_IFREG ∧
      xbit = true
  · have hregular : d.Regular := (modeOf_regular d _).mp hlooks.1
    simp only [if_pos hlooks]
    by_cases hopen : E.Fopen name < 0
    · rw [if_pos hopen]
      constructor
      · intro heq
        have hret := congrArg Prod.fst (Except.ok.inj heq)
        exact absurd hret (by simp [untimed])
      · intro hplain
        exact absurd (hplain hlooks.2 hregular).1 (not_le.mpr hopen)
    · rw [if_neg hopen]
      rw [answer_entry_iff]
      cases hexec : E.executable (E.Fopen name) with
      | false =>
        rw [if_neg Bool.false_ne_true]
        refine ⟨fun _ _ _ => ⟨not_lt.mp hopen, ?_⟩, fun _ => rfl⟩
        rw [hexec]
        exact fun h => absurd h Bool.false_ne_true
      | true =>
        rw [if_pos rfl, eq_comm, modeOf_executable hregular, decide_eq_true_iff]
        constructor
        · exact fun hprogram _ _ => ⟨not_lt.mp hopen, fun _ => hprogram⟩
        · exact fun hplain => (hplain hlooks.2 hregular).2 hexec
  · simp only [if_neg hlooks]
    rw [answer_entry_iff]
    constructor
    · intro _ hx hregular
      exact absurd ⟨(modeOf_regular d _).mpr hregular, hx⟩ hlooks
    · exact fun _ => rfl

/-- The two agree but for the time stamps, unless `_x_Bit_set_in_stat` makes the slow one look into
a regular file that it cannot open, or that is a program by its first bytes only. -/
theorem quickstat_iff (E : Env) (xbit : Bool) (_path : Option Str) (st : Stat) (lflag : ℤ)
    (inode : BitVec 32) :
    E.Same xbit _path st lflag inode ↔
      (xbit = true → ∀ given name d, E.Finds _path st lflag given name d → d.Regular →
        E.Plain given name) := by
  constructor
  · intro hsame hx given name d hfinds
    exact (same_entry_iff hfinds xbit inode).mp hsame hx
  · intro hplain
    by_cases hentry : ∃ given name d, E.Finds _path st lflag given name d
    · obtain ⟨given, name, d, hfinds⟩ := hentry
      exact (same_entry_iff hfinds xbit inode).mpr
        fun hx => hplain hx given name d hfinds
    · exact same_of_no_entry fun given name d hfinds => hentry ⟨given, name, d, hfinds⟩

/-- A kernel without `Fxattr`, where every name is that of a program of four bytes. -/
def demoEnv : Env where
  Fstat64 := fun _ _ st => (-ENOSYS, st)
  Fxattr := fun _ _ => (-ENOSYS, ⟨0, 0, 0, 0, 0, 0, 0, 0, 0, 0, 0, 0, 0⟩)
  Fsfirst := fun name => (0, ⟨0, 0, 0, 4, name⟩)
  Fopen := fun _ => 6
  Fread := fun _ => [0x60, 0x1A]
  Dgetdrv := 2
  geteuid := 0
  getegid := 0
  time := 0
  unixtime := fun _ _ => 0
  σ := ⟨0, 0⟩
  unixNames := false
  room := 0
  stat := ⟨fun _ => (-ENOSYS, 0), fun _ => none, 0⟩
  proc := ⟨0, by decide, 0⟩

/-- With `_x_Bit_set_in_stat` the program `"sh"` is executable for `__do_stat` alone. -/
theorem program_not_executable :
    (demoEnv.doStat true (some [115, 104]) Stat.zero 0 32).toOption.map
        (fun answer => answer.2.1.st_mode) = some 0o100755 ∧
      (demoEnv.quickstat (some [115, 104]) Stat.zero 0 32).toOption.map
        (fun answer => answer.2.1.st_mode) = some 0o100644 := by
  decide +kernel

end Mintlib.DoStat
