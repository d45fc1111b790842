import Mintlib.Lib.Text
import Mintlib.Posix

/-!
# Links to pipes: `mknod.c`, `mkfifo.c` and `open.c`

Fifos and ptys are symbolic links to `u:\pipe\…`. `mknod` and `mkfifo` write the mode, the
attributes for `Fcreate` and an id into the text of the link, and `open` reads them back
when the pipe does not exist yet.
-/

namespace Mintlib.PipeLinks

open Text Posix

abbrev DOLLAR : UInt8 := 36

abbrev PIPEDIR : Str := [117, 58, 92, 112, 105, 112, 101, 92]

abbrev FA_RDONLY : ℕ := 1
abbrev FA_HIDDEN : ℕ := 2
abbrev FA_SYSTEM : ℕ := 4

/-- The permission bits of `mode` in octal. -/
def octal (mode : ℕ) : Str :=
  [digit ((mode >>> 6) &&& 7), digit ((mode >>> 3) &&& 7), digit (mode &&& 7)]

abbrev S_IFMT : ℕ := 0o170000

def S_ISDIR (mode : ℕ) : Prop := mode &&& S_IFMT = 0o040000
def S_ISFIFO (mode : ℕ) : Prop := mode &&& S_IFMT = 0o120000
def S_ISCHR (mode : ℕ) : Prop := mode &&& S_IFMT = 0o020000

instance (mode : ℕ) : Decidable (S_ISDIR mode) := inferInstanceAs (Decidable (_ = _))
instance (mode : ℕ) : Decidable (S_ISFIFO mode) := inferInstanceAs (Decidable (_ = _))
instance (mode : ℕ) : Decidable (S_ISCHR mode) := inferInstanceAs (Decidable (_ = _))

abbrev PIPE_RDEV : BitVec 64 := 0x7e00#64

def major (dev : BitVec 64) : BitVec 64 := (dev >>> 8) &&& 0xff#64

/-- `_numstr[n]`. -/
def numstr (n : ℕ) : UInt8 := [48, 49, 50, 51, 52, 53, 54, 55, 56, 57, 65, 66, 67, 68, 69, 70].getD n 0

/-- `_ultoa`, for a radix from 2 to 16. -/
def ultoa (n radix : ℕ) : Str :=
  if n = 0 then [numstr 0] else ((Nat.digits radix n).map numstr).reverse

abbrev FMODE : ℕ := FA_HIDDEN ||| FA_SYSTEM

/-- The text of the link that `mknod` makes. -/
def ptyLink (mode : ℕ) (dev : BitVec 64) : Str :=
  PIPEDIR ++ [99, DOLLAR] ++ octal mode ++
    [UInt8.ofNat (((FMODE &&& 0xf0) >>> 4) + 64), UInt8.ofNat ((FMODE &&& 0xf) + 64)] ++
    (if dev &&& 0x80#64 ≠ 0#64 then MINUS :: ultoa ((dev &&& ~~~0x80#64).toNat % 2 ^ 32) 16
    else DOLLAR :: ultoa (dev.toNat % 2 ^ 32) 16)

/-- The link that `mknod` makes, if it makes one: `dcntl` is the answer to `MFS_MKNOD`. -/
def mknod (mint : ℕ) (dcntl : ℤ) (mode : ℕ) (dev : BitVec 64) : Option Str :=
  if S_ISDIR mode then none
  else if S_ISFIFO mode ∨ mode &&& S_IFMT = 0o010000 then none
  else if 0 ≤ dcntl then none
  else if 9 ≤ mint ∧ S_ISCHR mode ∧ major dev = major PIPE_RDEV then some (ptyLink mode dev)
  else none

def base36 (c : ℕ) : UInt8 := UInt8.ofNat ((if 9 < c then c + (97 - 57 - 1) else c) + 48)

/-- The code for the process: three digits, or two if the first is `'z'` and the second is
above `'7'`. -/
def pidCode (pid : BitVec 32) : Str :=
  let x := 36 * 36 * 36 - 1 - (pid &&& 0x7fff#32).toNat
  let s : UInt8 := UInt8.ofNat (x / 36 / 36 - 10 + 97)
  let s1 := base36 (x / 36 % 36)
  let s2 := base36 (x % 36)
  if s = 122 ∧ 55 < s1 then [s1, s2] else [s, s1, s2]

/-- `n` digits in base 36, the last one first. -/
def timeCode : ℕ → ℕ → Str
  | 0, _ => []
  | n + 1, l => base36 (l % 36) :: timeCode n (l / 36)

/-- `time ((time_t *)0) >> 1` as an `unsigned long`. -/
def half (time : BitVec 32) : ℕ := (time.sshiftRight 1).toNat

/-- The text of the link that `mkfifo` makes. -/
def fifoLink (mode : ℕ) (pid time : BitVec 32) : Str :=
  PIPEDIR ++ [110, DOLLAR] ++ octal mode ++ pidCode pid ++ timeCode 6 (half time)

/-- The loop of `strtoul` for base 8: the number, whether it overflowed, and how many
characters were read. -/
def octalLoop (i : ℕ) (overflow : Bool) : Str → ℕ × Bool × ℕ
  | [] => (i, overflow, 0)
  | c :: s =>
    if 48 ≤ c ∧ c ≤ 55 then
      let (i, overflow, n) :=
        if ULONG_MAX / 8 < i ∨ (i = ULONG_MAX / 8 ∧ ULONG_MAX % 8 < c.toNat - 48) then
          octalLoop i true s
        else octalLoop (i * 8 + (c.toNat - 48)) overflow s
      (i, overflow, n + 1)
    else (i, overflow, 0)

/-- `strtoul (nptr, &q, 8)` on a string that begins with a digit: the number and `q - nptr`. -/
def strtoul (nptr : Str) : ℕ × ℕ :=
  let (i, overflow, n) := octalLoop 0 false nptr
  (if overflow then ULONG_MAX else i, n)

/-- What `open` reads from a link: `pmode`, `l` and the place of the flag in `linkf`. -/
structure Decoded where
  pmode : ℕ
  l : ℕ
  p : ℕ
deriving DecidableEq

def decode (linkf : Str) : Option Decoded :=
  if PIPEDIR <+: linkf ∧ linkf.getD 9 0 = DOLLAR ∧
      (linkf.getD 8 0 = 99 ∨ linkf.getD 8 0 = 110) ∧
      48 ≤ linkf.getD 10 0 ∧ linkf.getD 10 0 ≤ 55 then
    let (pmode, n) := strtoul (linkf.drop 10)
    let p := 10 + n
    if linkf.getD 8 0 = 110 then some ⟨pmode, FA_HIDDEN ||| 0x80, p⟩
    else
      some ⟨pmode, (((linkf.getD p 0).toNat &&& 0xf) <<< 4) |||
        ((linkf.getD (p + 1) 0).toNat &&& 0xf), p + 2⟩
  else none

/-- `if (*p == '-') *p = '$'`. -/
def nameAt (linkf : Str) (p : ℕ) : Str :=
  if linkf.getD p 0 = MINUS then linkf.set p DOLLAR else linkf

/-- What comes of a link to a pipe that does not exist. -/
inductive Opened where
  | notPipe
  | enxio
  /-- `failsafe_Fopen (filename, … | O_CREAT | O_EXCL)` and `Fchmod`. -/
  | fopen (pmode : ℕ)
  /-- `Fcreate (name, attr)` and `Fchmod`. -/
  | fcreate (name : Str) (attr pmode : ℕ)
deriving DecidableEq

/-- `wronly` and `ndelay` are `(iomode & O_ACCMODE) == O_WRONLY` and `iomode & O_NDELAY`. -/
def openLink (linkf : Str) (wronly ndelay : Bool) : Opened :=
  match decode linkf with
  | none => .notPipe
  | some ⟨pmode, l, p⟩ =>
    if (l &&& 0x80 ≠ 0 ∧ wronly ∧ ndelay) ∨ (l &&& FA_SYSTEM ≠ 0 ∧ linkf.getD p 0 = DOLLAR) then
      .enxio
    else
      let l := if wronly then l ||| FA_RDONLY else l
      let attr := l &&& (0xff - 0x80)
      if attr = 0 then .fopen pmode else .fcreate (nameAt linkf p) attr pmode

/-- The pipe that a link leads to: the name that `open` creates, or the text of the link,
which the kernel follows when the pipe exists. -/
def pipeName (linkf : Str) : Str :=
  match decode linkf with
  | none => linkf
  | some ⟨_, _, p⟩ => nameAt linkf p

section Digits

variable {a b c d l l' mode mode' n : ℕ} {s : Str}

theorem octal_eq (mode : ℕ) :
    octal mode = [digit (mode / 64 % 8), digit (mode / 8 % 8), digit (mode % 8)] := by
  have hand : ∀ x : ℕ, x &&& 7 = x % 8 := fun x => Nat.and_two_pow_sub_one_eq_mod x 3
  rw [octal, hand, hand, hand, Nat.shiftRight_eq_div_pow, Nat.shiftRight_eq_div_pow]

theorem mode_eq (mode : ℕ) :
    mode &&& 0o777 = (mode / 64 % 8 * 8 + mode / 8 % 8) * 8 + mode % 8 := by
  have hand : mode &&& 0o777 = mode % 512 := Nat.and_two_pow_sub_one_eq_mod mode 9
  rw [hand]
  omega

theorem digit_isOctal (h : d < 8) : (48 ≤ digit d ∧ digit d ≤ 55) ∧ (digit d).toNat - 48 = d := by
  have hd := digit_toNat (show d < 10 by omega)
  refine ⟨⟨?_, ?_⟩, by omega⟩
  · show 48 ≤ (digit d).toNat
    omega
  · show (digit d).toNat ≤ 55
    omega

theorem octal_inj (h : octal mode = octal mode') : mode &&& 0o777 = mode' &&& 0o777 := by
  simp only [octal_eq, List.cons.injEq, and_true] at h
  obtain ⟨h64, h8, h1⟩ := h
  have hinj : ∀ x y, digit (x % 8) = digit (y % 8) → x % 8 = y % 8 := by
    intro x y hxy
    have hx := (digit_isOctal (Nat.mod_lt x (show 8 > 0 by decide))).2
    have hy := (digit_isOctal (Nat.mod_lt y (show 8 > 0 by decide))).2
    rw [← hx, ← hy, hxy]
  rw [mode_eq, mode_eq, hinj _ _ h64, hinj _ _ h8, hinj _ _ h1]

theorem octal_congr (h : mode &&& 0o777 = mode' &&& 0o777) : octal mode = octal mode' := by
  rw [mode_eq, mode_eq] at h
  have h64 : mode / 64 % 8 = mode' / 64 % 8 := by omega
  have h8 : mode / 8 % 8 = mode' / 8 % 8 := by omega
  have h1 : mode % 8 = mode' % 8 := by omega
  rw [octal_eq, octal_eq, h64, h8, h1]

theorem strtoul_octal (hs : ¬ (48 ≤ s.headD 0 ∧ s.headD 0 ≤ 55)) :
    strtoul (octal mode ++ s) = (mode &&& 0o777, 3) := by
  have hstop : ∀ i, octalLoop i false s = (i, false, 0) := by
    intro i
    cases s with
    | nil => rfl
    | cons c s => exact if_neg hs
  -- no digit overflows: the number read so far is below 512
  have hstep : ∀ i d t, d < 8 → i < 64 → octalLoop i false (digit d :: t) =
      ((octalLoop (i * 8 + d) false t).1, (octalLoop (i * 8 + d) false t).2.1,
        (octalLoop (i * 8 + d) false t).2.2 + 1) := by
    intro i d t hd hi
    obtain ⟨hoct, hval⟩ := digit_isOctal hd
    have hover : ¬ (ULONG_MAX / 8 < i ∨
        (i = ULONG_MAX / 8 ∧ ULONG_MAX % 8 < (digit d).toNat - 48)) := by
      have hmax : ULONG_MAX = 4294967295 := rfl
      omega
    rw [octalLoop, if_pos hoct, if_neg hover, hval]
  have ha := Nat.mod_lt (mode / 64) (show 8 > 0 by decide)
  have hb := Nat.mod_lt (mode / 8) (show 8 > 0 by decide)
  have hc := Nat.mod_lt mode (show 8 > 0 by decide)
  rw [octal_eq, mode_eq, strtoul, List.cons_append, List.cons_append, List.cons_append,
    List.nil_append, hstep _ _ _ ha (by omega), hstep _ _ _ hb (by omega),
    hstep _ _ _ hc (by omega), hstop, Nat.zero_mul, Nat.zero_add]
  rfl

theorem base36_toNat (h : c < 36) :
    (base36 c).toNat = if 9 < c then c + 87 else c + 48 := by
  unfold base36
  rw [UInt8.toNat_ofNat']
  split <;> omega

theorem base36_inj (ha : a < 36) (hb : b < 36) (h : base36 a = base36 b) : a = b := by
  have htoNat := congrArg UInt8.toNat h
  rw [base36_toNat ha, base36_toNat hb] at htoNat
  split at htoNat <;> split at htoNat <;> omega

@[simp]
theorem length_timeCode (n l : ℕ) : (timeCode n l).length = n := by
  induction n generalizing l with
  | zero => rfl
  | succ n ih => rw [timeCode, List.length_cons, ih]

theorem timeCode_eq_iff : timeCode n l = timeCode n l' ↔ l % 36 ^ n = l' % 36 ^ n := by
  induction n generalizing l l' with
  | zero => simp only [timeCode, Nat.pow_zero, Nat.mod_one]
  | succ n ih =>
    have hl := Nat.mod_lt l (show 36 > 0 by decide)
    have hl' := Nat.mod_lt l' (show 36 > 0 by decide)
    rw [timeCode, timeCode, List.cons.injEq, ih, Nat.pow_succ', Nat.mod_mul, Nat.mod_mul]
    constructor
    · rintro ⟨hdigit, hrest⟩
      rw [base36_inj hl hl' hdigit, hrest]
    · intro h
      have hdigit : l % 36 = l' % 36 := by omega
      exact ⟨by rw [hdigit], by omega⟩

end Digits

section PidCode

variable {pid pid' : BitVec 32}

abbrev lowPid (pid : BitVec 32) : ℕ := (pid &&& 0x7fff#32).toNat

theorem lowPid_lt (pid : BitVec 32) : lowPid pid < 2 ^ 15 := by
  have hand : lowPid pid = pid.toNat &&& (2 ^ 15 - 1) := BitVec.toNat_and pid 0x7fff#32
  rw [hand, Nat.and_two_pow_sub_one_eq_mod]
  exact Nat.mod_lt _ (by decide)

theorem eight_le_iff {b : ℕ} (hb : b < 36) : 55 < base36 b ↔ 8 ≤ b := by
  have hlt : 55 < base36 b ↔ 55 < (base36 b).toNat := Iff.rfl
  rw [hlt, base36_toNat hb]
  split <;> omega

/-- The three digits of the number, or the last two with the first known to be `'z'`. -/
theorem pidCode_cases (pid : BitVec 32) : ∃ a b c, 10 ≤ a ∧ a < 36 ∧ b < 36 ∧ c < 36 ∧
    (a * 36 + b) * 36 + c + lowPid pid = 46655 ∧
    (a = 35 ∧ 8 ≤ b ∧ pidCode pid = [base36 b, base36 c] ∨
      ¬ (a = 35 ∧ 8 ≤ b) ∧ pidCode pid = [base36 a, base36 b, base36 c]) := by
  have hpid := lowPid_lt pid
  obtain ⟨x, hx⟩ : ∃ x, 36 * 36 * 36 - 1 - lowPid pid = x := ⟨_, rfl⟩
  have hb := Nat.mod_lt (x / 36) (show 36 > 0 by decide)
  have ha : 10 ≤ x / 36 / 36 ∧ x / 36 / 36 < 36 := by omega
  refine ⟨x / 36 / 36, x / 36 % 36, x % 36, ha.1, ha.2, hb, Nat.mod_lt _ (by decide),
    by omega, ?_⟩
  have hs : UInt8.ofNat (x / 36 / 36 - 10 + 97) = base36 (x / 36 / 36) := by
    have hmore : 9 < x / 36 / 36 := by omega
    have hsame : x / 36 / 36 - 10 + 97 = x / 36 / 36 + (97 - 57 - 1) + 48 := by omega
    rw [base36, if_pos hmore, hsame]
  have hz : base36 (x / 36 / 36) = 122 ↔ x / 36 / 36 = 35 := by
    rw [← UInt8.toNat_inj, base36_toNat ha.2]
    show (if 9 < x / 36 / 36 then x / 36 / 36 + 87 else x / 36 / 36 + 48) = 122 ↔ _
    split <;> omega
  have hcode : pidCode pid = if base36 (x / 36 / 36) = 122 ∧ 55 < base36 (x / 36 % 36) then
      [base36 (x / 36 % 36), base36 (x % 36)]
      else [base36 (x / 36 / 36), base36 (x / 36 % 36), base36 (x % 36)] := by
    rw [← hs, ← hx]
    rfl
  rw [← hz, ← eight_le_iff hb]
  by_cases hsqueeze : base36 (x / 36 / 36) = 122 ∧ 55 < base36 (x / 36 % 36)
  · exact .inl ⟨hsqueeze.1, hsqueeze.2, hcode.trans (if_pos hsqueeze)⟩
  · exact .inr ⟨hsqueeze, hcode.trans (if_neg hsqueeze)⟩

theorem pidCode_inj (h : pidCode pid = pidCode pid') : lowPid pid = lowPid pid' := by
  obtain ⟨a, b, c, ha, ha', hb, hc, hsum, hcode⟩ := pidCode_cases pid
  obtain ⟨a₂, b₂, c₂, ha₂, ha₂', hb₂, hc₂, hsum₂, hcode₂⟩ := pidCode_cases pid'
  rcases hcode with ⟨h35, -, hcode⟩ | ⟨-, hcode⟩ <;>
    rcases hcode₂ with ⟨h35₂, -, hcode₂⟩ | ⟨-, hcode₂⟩ <;>
    rw [hcode, hcode₂] at h <;>
    simp only [List.cons.injEq, and_true, reduceCtorEq, and_false] at h
  · have := base36_inj hb hb₂ h.1
    have := base36_inj hc hc₂ h.2
    omega
  · have := base36_inj ha' ha₂' h.1
    have := base36_inj hb hb₂ h.2.1
    have := base36_inj hc hc₂ h.2.2
    omega

/-- The code has two or three characters, and the first is neither an octal digit nor a flag. -/
theorem pidCode_head (pid : BitVec 32) :
    (pidCode pid).length ≤ 3 ∧ ∃ c s, pidCode pid = c :: s ∧ 55 < c := by
  obtain ⟨a, b, c, ha, ha', hb, -, -, hcode⟩ := pidCode_cases pid
  rcases hcode with ⟨-, hb8, hcode⟩ | ⟨-, hcode⟩
  · rw [hcode]
    exact ⟨Nat.le_succ 2, _, _, rfl, (eight_le_iff hb).mpr hb8⟩
  · rw [hcode]
    exact ⟨le_refl _, _, _, rfl, (eight_le_iff ha').mpr (by omega)⟩

end PidCode

section Decode

variable {mode : ℕ} {t : UInt8} {s : Str}

theorem decode_link (ht : t = 99 ∨ t = 110) (hs : ¬ (48 ≤ s.headD 0 ∧ s.headD 0 ≤ 55)) :
    decode (PIPEDIR ++ [t, DOLLAR] ++ octal mode ++ s) =
      some (if t = 110 then ⟨mode &&& 0o777, FA_HIDDEN ||| 0x80, 13⟩
        else ⟨mode &&& 0o777, (((s.getD 0 0).toNat &&& 0xf) <<< 4) |||
          ((s.getD 1 0).toNat &&& 0xf), 15⟩) := by
  obtain ⟨linkf, hlinkf⟩ : ∃ linkf, PIPEDIR ++ [t, DOLLAR] ++ octal mode ++ s = linkf := ⟨_, rfl⟩
  have hdrop : linkf.drop 10 = octal mode ++ s := by
    rw [← hlinkf]
    rfl
  have hguard : PIPEDIR <+: linkf ∧ linkf.getD 9 0 = DOLLAR ∧
      (linkf.getD 8 0 = 99 ∨ linkf.getD 8 0 = 110) ∧
      48 ≤ linkf.getD 10 0 ∧ linkf.getD 10 0 ≤ 55 := by
    have hdigit := (digit_isOctal (Nat.mod_lt (mode / 64) (show 8 > 0 by decide))).1
    rw [← hlinkf, octal_eq]
    exact ⟨⟨_, rfl⟩, rfl, ht, hdigit⟩
  have h8 : linkf.getD 8 0 = t := by
    rw [← hlinkf]
    rfl
  have h13 : linkf.getD 13 0 = s.getD 0 0 ∧ linkf.getD 14 0 = s.getD 1 0 := by
    rw [← hlinkf]
    exact ⟨rfl, rfl⟩
  rw [hlinkf, decode, if_pos hguard, hdrop, strtoul_octal hs, h8]
  show (if t = 110 then some (Decoded.mk (mode &&& 0o777) (FA_HIDDEN ||| 0x80) 13)
    else some ⟨mode &&& 0o777, (((linkf.getD 13 0).toNat &&& 0xf) <<< 4) |||
      ((linkf.getD 14 0).toNat &&& 0xf), 15⟩) = _
  rw [h13.1, h13.2]
  split <;> rfl

theorem decode_fifoLink (mode : ℕ) (pid time : BitVec 32) :
    decode (fifoLink mode pid time) = some ⟨mode &&& 0o777, FA_HIDDEN ||| 0x80, 13⟩ := by
  obtain ⟨-, c, s, hcode, hc⟩ := pidCode_head pid
  rw [fifoLink, List.append_assoc, decode_link (.inr rfl), if_pos rfl]
  rw [hcode]
  exact fun h => absurd hc (UInt8.not_lt.mpr h.2)

theorem decode_ptyLink (mode : ℕ) (dev : BitVec 64) :
    decode (ptyLink mode dev) = some ⟨mode &&& 0o777, FMODE, 15⟩ := by
  have hattr : (((UInt8.ofNat (((FMODE &&& 0xf0) >>> 4) + 64)).toNat &&& 0xf) <<< 4) |||
      ((UInt8.ofNat ((FMODE &&& 0xf) + 64)).toNat &&& 0xf) = FMODE := by decide
  have hhead : ¬ ((48 : UInt8) ≤ UInt8.ofNat (((FMODE &&& 0xf0) >>> 4) + 64) ∧
      UInt8.ofNat (((FMODE &&& 0xf0) >>> 4) + 64) ≤ 55) := by decide
  rw [ptyLink, List.append_assoc, decode_link (.inl rfl), if_neg (by decide)]
  · exact congrArg (fun l => some (Decoded.mk (mode &&& 0o777) l 15)) hattr
  · exact hhead

end Decode

section Names

variable {n m mode mode' : ℕ} {dev dev' : BitVec 64}

theorem ultoa_inj (h : ultoa n 16 = ultoa m 16) : n = m := by
  -- the digits that were written, with a zero for the number zero
  have hread : ∀ k, ∃ l : List ℕ, (∀ d ∈ l, d < 16) ∧ Nat.ofDigits 16 l = k ∧
      ultoa k 16 = (l.map numstr).reverse := by
    intro k
    unfold ultoa
    by_cases hk : k = 0
    · rw [if_pos hk]
      exact ⟨[0], List.forall_mem_singleton.mpr (by decide), hk.symm, rfl⟩
    · rw [if_neg hk]
      exact ⟨Nat.digits 16 k, fun d hd => Nat.digits_lt_base (by decide) hd,
        Nat.ofDigits_digits 16 k, rfl⟩
  -- a digit is found again by its place in the table
  obtain ⟨val, hval⟩ : ∃ val : UInt8 → ℕ, ∀ d < 16, val (numstr d) = d :=
    ⟨fun c => [48, 49, 50, 51, 52, 53, 54, 55, 56, 57, 65, 66, 67, 68, 69, 70].idxOf c, by decide⟩
  have hback : ∀ l : List ℕ, (∀ d ∈ l, d < 16) → (l.map numstr).map val = l := by
    intro l hl
    rw [List.map_map]
    exact (List.map_congr_left fun d hd => hval d (hl d hd)).trans (List.map_id' l)
  obtain ⟨l, hl, rfl, hn⟩ := hread n
  obtain ⟨l', hl', rfl, hm⟩ := hread m
  rw [hn, hm, List.reverse_inj] at h
  rw [← hback l hl, ← hback l' hl', h]

theorem and_not_and (dev : BitVec 64) : dev &&& ~~~0x80#64 &&& 0x80#64 = 0#64 := by
  rw [BitVec.and_assoc, show ~~~0x80#64 &&& 0x80#64 = 0#64 by decide, BitVec.and_zero]

theorem and_not_eq (h : dev &&& 0x80#64 = 0#64) : dev &&& ~~~0x80#64 = dev := by
  have hall : 0x80#64 ||| ~~~0x80#64 = BitVec.allOnes 64 := by decide
  calc dev &&& ~~~0x80#64 = dev &&& 0x80#64 ||| dev &&& ~~~0x80#64 := by
        rw [h, BitVec.zero_or]
    _ = dev &&& (0x80#64 ||| ~~~0x80#64) := by rw [BitVec.and_or_distrib_left]
    _ = dev := by rw [hall, BitVec.and_allOnes]

theorem flag_ptyLink (mode : ℕ) (dev : BitVec 64) :
    (ptyLink mode dev).getD 15 0 = if dev &&& 0x80#64 ≠ 0#64 then MINUS else DOLLAR := by
  unfold ptyLink
  split <;> rfl

theorem flag_fifoLink (mode : ℕ) (pid time : BitVec 32) :
    55 < (fifoLink mode pid time).getD 13 0 := by
  obtain ⟨-, c, s, hcode, hc⟩ := pidCode_head pid
  have hflag : (fifoLink mode pid time).getD 13 0 = c := by
    rw [fifoLink, hcode]
    rfl
  rw [hflag]
  exact hc

theorem pipeName_ptyLink (mode : ℕ) (dev : BitVec 64) :
    pipeName (ptyLink mode dev) = ptyLink mode (dev &&& ~~~0x80#64) := by
  rw [pipeName, decode_ptyLink]
  show nameAt (ptyLink mode dev) 15 = _
  have hclient : ¬ (dev &&& ~~~0x80#64 &&& 0x80#64 ≠ 0#64) := not_not.mpr (and_not_and dev)
  by_cases h : dev &&& 0x80#64 = 0#64
  · rw [nameAt, flag_ptyLink, if_neg (not_not.mpr h), if_neg (by decide), and_not_eq h]
  · rw [nameAt, flag_ptyLink, if_pos h, if_pos rfl, ptyLink, ptyLink, if_pos h, if_neg hclient]
    rfl

theorem pipeName_fifoLink (mode : ℕ) (pid time : BitVec 32) :
    pipeName (fifoLink mode pid time) = fifoLink mode pid time := by
  have hne : (fifoLink mode pid time).getD 13 0 ≠ MINUS := by
    intro heq
    have hflag := flag_fifoLink mode pid time
    rw [heq] at hflag
    exact absurd hflag (by decide)
  rw [pipeName, decode_fifoLink]
  exact if_neg hne

theorem ptyLink_eq_iff (hdev : dev.toNat < 2 ^ 16) (hdev' : dev'.toNat < 2 ^ 16)
    (hclient : dev &&& 0x80#64 = 0#64) (hclient' : dev' &&& 0x80#64 = 0#64) :
    ptyLink mode dev = ptyLink mode' dev' ↔ mode &&& 0o777 = mode' &&& 0o777 ∧ dev = dev' := by
  constructor
  · intro h
    simp only [ptyLink, hclient, hclient', ne_eq, not_true_eq_false, if_false,
      List.append_assoc] at h
    have hrest := List.append_cancel_left (List.append_cancel_left h)
    obtain ⟨hoctal, hid⟩ := List.append_inj hrest rfl
    have hnat := ultoa_inj (List.cons.inj (List.append_cancel_left hid)).2
    refine ⟨octal_inj hoctal, BitVec.eq_of_toNat_eq ?_⟩
    omega
  · rintro ⟨hmode, rfl⟩
    rw [ptyLink, ptyLink, octal_congr hmode]

theorem fifoLink_eq_iff {pid pid' time time' : BitVec 32} :
    fifoLink mode pid time = fifoLink mode' pid' time' ↔
      mode &&& 0o777 = mode' &&& 0o777 ∧ lowPid pid = lowPid pid' ∧
        half time % 36 ^ 6 = half time' % 36 ^ 6 := by
  constructor
  · intro h
    obtain ⟨hfront, htime⟩ := List.append_inj' h (by rw [length_timeCode, length_timeCode])
    simp only [List.append_assoc] at hfront
    have hrest := List.append_cancel_left (List.append_cancel_left hfront)
    obtain ⟨hoctal, hpid⟩ := List.append_inj hrest rfl
    exact ⟨octal_inj hoctal, pidCode_inj hpid, timeCode_eq_iff.mp htime⟩
  · rintro ⟨hmode, hpid, htime⟩
    have hcode : pidCode pid = pidCode pid' := by
      simp only [pidCode, hpid]
    rw [fifoLink, fifoLink, octal_congr hmode, hcode, timeCode_eq_iff.mpr htime]

end Names

section Protocol

variable {mint mode : ℕ} {dcntl : ℤ} {dev : BitVec 64} {link : Str}

theorem mknod_eq_some (h : mknod mint dcntl mode dev = some link) :
    link = ptyLink mode dev ∧ major dev = major PIPE_RDEV := by
  unfold mknod at h
  split_ifs at h with hdir hfifo hdcntl hguard
  exact ⟨(Option.some.inj h).symm, hguard.2.2⟩

theorem length_ultoa {n : ℕ} (h : n < 2 ^ 16) : (ultoa n 16).length ≤ 4 := by
  unfold ultoa
  split
  · exact Nat.le_of_ble_eq_true rfl
  · next hne =>
    rw [List.length_reverse, List.length_map, Nat.digits_length_le_iff (by decide)]
    exact h

theorem length_ptyLink (hdev : dev.toNat < 2 ^ 16) : (ptyLink mode dev).length ≤ 8 + 14 := by
  have hclient : (dev &&& ~~~0x80#64).toNat ≤ dev.toNat := by
    rw [BitVec.toNat_and]
    exact Nat.and_le_left
  have hlength : ∀ n, n ≤ dev.toNat → (ultoa (n % 2 ^ 32) 16).length ≤ 4 := by
    intro n hn
    exact length_ultoa (by omega)
  have h1 := hlength _ hclient
  have h2 := hlength _ (le_refl _)
  rw [ptyLink, octal_eq]
  simp only [List.length_append, List.length_cons, List.length_nil]
  split
  · rw [List.length_cons]
    omega
  · rw [List.length_cons]
    omega

theorem length_fifoLink (mode : ℕ) (pid time : BitVec 32) :
    (fifoLink mode pid time).length ≤ 8 + 14 := by
  have hpid := (pidCode_head pid).1
  rw [fifoLink, octal_eq]
  simp only [List.length_append, List.length_cons, List.length_nil, length_timeCode]
  omega

theorem openLink_ptyLink (mode : ℕ) (dev : BitVec 64) (wronly ndelay : Bool) :
    openLink (ptyLink mode dev) wronly ndelay =
      if dev &&& 0x80#64 = 0#64 then .enxio
      else .fcreate (pipeName (ptyLink mode dev)) (FMODE ||| if wronly then FA_RDONLY else 0)
        (mode &&& 0o777) := by
  have hname : pipeName (ptyLink mode dev) = nameAt (ptyLink mode dev) 15 := by
    rw [pipeName, decode_ptyLink]
  unfold openLink
  simp only [decode_ptyLink, hname, flag_ptyLink]
  by_cases h : dev &&& 0x80#64 = 0#64
  · simp only [h]
    rfl
  · simp only [if_neg h, if_pos h]
    cases wronly <;> rfl

theorem openLink_fifoLink (mode : ℕ) (pid time : BitVec 32) (wronly ndelay : Bool) :
    openLink (fifoLink mode pid time) wronly ndelay =
      if wronly ∧ ndelay then .enxio
      else .fcreate (pipeName (fifoLink mode pid time))
        (FA_HIDDEN ||| if wronly then FA_RDONLY else 0) (mode &&& 0o777) := by
  have hname : pipeName (fifoLink mode pid time) = nameAt (fifoLink mode pid time) 13 := by
    rw [pipeName, decode_fifoLink]
  have hsystem : ¬ ((FA_HIDDEN ||| 0x80) &&& FA_SYSTEM ≠ 0) := by decide
  unfold openLink
  simp only [decode_fifoLink, hname, hsystem, false_and, or_false]
  cases wronly <;> cases ndelay <;> rfl

theorem half_lt (time : BitVec 32) : half time < 2 ^ 32 := BitVec.isLt _

end Protocol

/-- The links of one mode and process whose times are `36 ^ 6` apart. -/
def SameCode (mode mode' : ℕ) (pid pid' time time' : BitVec 32) : Prop :=
  mode &&& 0o777 = mode' &&& 0o777 ∧ lowPid pid = lowPid pid' ∧
    (half time = half time' + 36 ^ 6 ∨ half time' = half time + 36 ^ 6)

/-- What `mknod` and `mkfifo` write is what `open` reads, and the names tell pipes apart,
exactly but for fifos with the same code for different times. -/
theorem link_protocol_iff (mode mode' : ℕ) (pid pid' time time' : BitVec 32) :
    (∀ mint dcntl (dev : BitVec 64) link, dev.toNat < 2 ^ 16 →
      mknod mint dcntl mode dev = some link →
      decode link = some ⟨mode &&& 0o777, FMODE, 15⟩ ∧ link.length ≤ 8 + 14 ∧
        ∀ wronly ndelay, openLink link wronly ndelay =
          if dev &&& 0x80#64 = 0#64 then .enxio
          else .fcreate (pipeName link) (FMODE ||| if wronly then FA_RDONLY else 0)
            (mode &&& 0o777)) ∧
    (decode (fifoLink mode pid time) = some ⟨mode &&& 0o777, FA_HIDDEN ||| 0x80, 13⟩ ∧
      (fifoLink mode pid time).length ≤ 8 + 14 ∧
      ¬ (48 ≤ (fifoLink mode pid time).getD 13 0 ∧ (fifoLink mode pid time).getD 13 0 ≤ 55) ∧
      ∀ wronly ndelay, openLink (fifoLink mode pid time) wronly ndelay =
        if wronly ∧ ndelay then .enxio
        else .fcreate (pipeName (fifoLink mode pid time))
          (FA_HIDDEN ||| if wronly then FA_RDONLY else 0) (mode &&& 0o777)) ∧
    (∀ mint dcntl (dev : BitVec 64) link mint' dcntl' (dev' : BitVec 64) link',
      dev.toNat < 2 ^ 16 → dev'.toNat < 2 ^ 16 → mknod mint dcntl mode dev = some link →
      mknod mint' dcntl' mode' dev' = some link' →
      (pipeName link = pipeName link' ↔
        mode &&& 0o777 = mode' &&& 0o777 ∧ dev &&& ~~~0x80#64 = dev' &&& ~~~0x80#64)) ∧
    (∀ mint dcntl dev link, mknod mint dcntl mode dev = some link →
      pipeName link ≠ pipeName (fifoLink mode' pid time)) ∧
    ((fifoLink mode pid time = fifoLink mode' pid' time' →
        mode &&& 0o777 = mode' &&& 0o777 ∧ lowPid pid = lowPid pid' ∧ half time = half time') ↔
      ¬ SameCode mode mode' pid pid' time time') := by
  refine ⟨?_, ?_, ?_, ?_, ?_⟩
  · intro mint dcntl dev link hdev hlink
    obtain ⟨rfl, -⟩ := mknod_eq_some hlink
    exact ⟨decode_ptyLink mode dev, length_ptyLink hdev, openLink_ptyLink mode dev⟩
  · refine ⟨decode_fifoLink mode pid time, length_fifoLink mode pid time, fun hoctal => ?_,
      openLink_fifoLink mode pid time⟩
    exact absurd (flag_fifoLink mode pid time) (UInt8.not_lt.mpr hoctal.2)
  · intro mint dcntl dev link mint' dcntl' dev' link' hdev hdev' hlink hlink'
    obtain ⟨rfl, -⟩ := mknod_eq_some hlink
    obtain ⟨rfl, -⟩ := mknod_eq_some hlink'
    have hle : ∀ d : BitVec 64, d.toNat < 2 ^ 16 → (d &&& ~~~0x80#64).toNat < 2 ^ 16 := by
      intro d hd
      rw [BitVec.toNat_and]
      exact lt_of_le_of_lt Nat.and_le_left hd
    rw [pipeName_ptyLink, pipeName_ptyLink]
    exact ptyLink_eq_iff (hle _ hdev) (hle _ hdev') (and_not_and dev) (and_not_and dev')
  · intro mint dcntl dev link hlink heq
    obtain ⟨rfl, -⟩ := mknod_eq_some hlink
    rw [pipeName_ptyLink, pipeName_fifoLink] at heq
    have h8 : (99 : UInt8) = 110 := congrArg (fun s => s.getD 8 0) heq
    exact absurd h8 (by decide)
  · have ht := half_lt time
    have ht' := half_lt time'
    rw [fifoLink_eq_iff, SameCode]
    omega

/-- The theorem at a pty, its two ends and a fifo. -/
theorem link_protocol_iff_demo :
    decode (ptyLink 0o020666 0x7e83#64) = some ⟨0o666, 6, 15⟩ ∧
      (pipeName (ptyLink 0o020666 0x7e83#64) = pipeName (ptyLink 0o020666 0x7e03#64) ↔
        0o020666 &&& 0o777 = 0o020666 &&& 0o777 ∧
          0x7e83#64 &&& ~~~0x80#64 = 0x7e03#64 &&& ~~~0x80#64) ∧
      pipeName (ptyLink 0o020666 0x7e83#64) ≠ pipeName (fifoLink 0o644 1#32 0#32) :=
  ⟨((link_protocol_iff 0o020666 0o020666 0 0 0 0).1 9 (-32) 0x7e83#64 _ (by decide) rfl).1,
    (link_protocol_iff 0o020666 0o020666 0 0 0 0).2.2.1 9 (-32) 0x7e83#64 _ 9 (-32) 0x7e03#64 _
      (by decide) (by decide) rfl rfl,
    (link_protocol_iff 0o020666 0o644 1#32 0 0#32 0).2.2.2.1 9 (-32) 0x7e83#64 _ rfl⟩

theorem fifo_names_collide :
    ¬ ∀ (mode mode' : ℕ) (pid pid' time time' : BitVec 32),
      fifoLink mode pid time = fifoLink mode' pid' time' →
      mode &&& 0o777 = mode' &&& 0o777 ∧ lowPid pid = lowPid pid' ∧ half time = half time' := by
  intro h
  have heq : fifoLink 0o644 1#32 0x80000000#32 = fifoLink 0o644 1#32 2088886272#32 := by decide
  exact absurd (h _ _ _ _ _ _ heq).2.2 (by decide)

end Mintlib.PipeLinks
