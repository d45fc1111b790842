import Mintlib.Lib.Bits
import Mintlib.Posix

/-!
# Saving and restoring a terminal: `tcgetattr.c` and `tcsetattr.c`

The kernel keeps the state of a terminal in several structures; `tcgetattr` puts a
`struct termios` together from them, and `tcsetattr` takes one apart.
-/

namespace Mintlib.Termios

open Bits Posix

structure sgttyb where
  sg_ispeed : BitVec 8
  sg_ospeed : BitVec 8
  sg_erase : BitVec 8
  sg_kill : BitVec 8
  sg_flags : BitVec 16
deriving DecidableEq

structure tchars where
  t_intrc : BitVec 8
  t_quitc : BitVec 8
  t_startc : BitVec 8
  t_stopc : BitVec 8
  t_eofc : BitVec 8
  t_brkc : BitVec 8
deriving DecidableEq

structure ltchars where
  t_suspc : BitVec 8
  t_dsuspc : BitVec 8
  t_rprntc : BitVec 8
  t_flushc : BitVec 8
  t_werasc : BitVec 8
  t_lnextc : BitVec 8
deriving DecidableEq

/-- What the kernel keeps for a terminal (`disc` may be kept by `ioctl`). -/
structure Tty where
  sg : sgttyb
  t : tchars
  lt : ltchars
  disc : BitVec 32
  flags : BitVec 16
  state : BitVec 32
  vmin0 : BitVec 16
  vmin1 : BitVec 16
deriving DecidableEq

structure cCc where
  VEOF : BitVec 8
  VEOL : BitVec 8
  VERASE : BitVec 8
  VINTR : BitVec 8
  VKILL : BitVec 8
  VQUIT : BitVec 8
  VSUSP : BitVec 8
  VSTART : BitVec 8
  VSTOP : BitVec 8
  VMIN : BitVec 8
  VTIME : BitVec 8
  VLNEXT : BitVec 8
  VWERASE : BitVec 8
  VDSUSP : BitVec 8
  VREPRINT : BitVec 8
  VFLUSHO : BitVec 8
deriving DecidableEq

@[ext]
structure termios where
  c_iflag : BitVec 16
  c_oflag : BitVec 16
  c_cflag : BitVec 16
  c_lflag : BitVec 16
  c_ispeed : BitVec 16
  c_ospeed : BitVec 16
  cc : cCc
  c_line : BitVec 32
deriving DecidableEq

abbrev CRMOD := 0x0001#16
abbrev CBREAK := 0x0002#16
abbrev ECHO := 0x0004#16
abbrev RAW := 0x0010#16
abbrev NOFLSH := 0x0040#16
abbrev TOSTOP := 0x0100#16
abbrev ECHOCTL := 0x0400#16
abbrev TANDEM := 0x1000#16
abbrev RTSCTS := 0x2000#16
abbrev EVENP := 0x4000#16
abbrev ODDP := 0x8000#16

abbrev BRKINT := 0x0001#16
abbrev IGNPAR := 0x0004#16
abbrev INPCK := 0x0010#16
abbrev ICRNL := 0x0100#16
abbrev IXON := 0x0200#16
abbrev IXOFF := 0x0400#16

abbrev OPOST := 0x0001#16
abbrev ONLCR := 0x0002#16

abbrev CLOCAL := 0x0001#16
abbrev CREAD := 0x0002#16
abbrev CSIZE := 0x000C#16
abbrev CSTOPB := 0x0040#16
abbrev HUPCL := 0x0080#16
abbrev PARENB := 0x0100#16
abbrev PARODD := 0x0200#16
abbrev CRTSCTS := 0x2000#16

abbrev ECHOE := 0x0001#16
abbrev ECHOK := 0x0002#16
abbrev ICANON := 0x0010#16
abbrev ISIG := 0x0020#16

abbrev TF_STOPBITS := 0x0003#16
abbrev TF_1STOP := 0x0001#16
abbrev TF_2STOP := 0x0003#16
abbrev TF_CHARBITS := 0x000C#16
abbrev TF_CAR := 0x0800#16
abbrev TF_BRKINT := 0x0080#16

abbrev TS_HPCL := 0x4000#32

inductive Request where
  | TIOCGETP | TIOCGETC | TIOCGLTC | TIOCGETD | TIOCGFLAGS | TIOCGSTATE | TIOCGVMIN
  | TIOCSETD | TIOCSETN | TIOCSETP | TIOCSETC | TIOCSLTC | TIOCSFLAGSB | TIOCSFLAGS
  | TIOCSVMIN | TIOCSSTATEB
deriving DecidableEq

/-- `errno` for the requests that the kernel refuses. -/
abbrev Refused := Request → Option ℤ

/-- A program that changes the terminal and may stop with an `errno`. -/
abbrev Call := ExceptT ℤ (StateM Tty)

/-- `Fcntl`, where a refused request ends the call. -/
def Fcntl (refused : Refused) (req : Request) (change : Tty → Tty) : Call Unit :=
  match refused req with
  | some e => throw e
  | none => modify change

/-- `VMIN` and `VTIME` in `tcgetattr`. -/
def ccOf (vmin0 vmin1 : BitVec 16) : BitVec 8 × BitVec 8 :=
  if vmin1 ≠ 0 then (0, if 0xff * 100 ≤ vmin1 then 0xff else (vmin1 / 100).setWidth 8)
  else (if 0xff ≤ vmin0 then 0xff else vmin0.setWidth 8, 0)

/-- What `tcgetattr` makes of what it has read. -/
def termiosOf (sg : sgttyb) (t : tchars) (lt : ltchars) (disc : BitVec 32) (flags : BitVec 16)
    (state : BitVec 32) (vmin : Option (BitVec 16 × BitVec 16)) : termios where
  c_iflag := (if has flags TF_BRKINT then BRKINT else 0) |||
    (if has sg.sg_flags CRMOD then ICRNL else 0) |||
    (if has sg.sg_flags (EVENP ||| ODDP) then INPCK
      else if has sg.sg_flags RAW then 0 else IGNPAR) |||
    (if has sg.sg_flags TANDEM then IXON ||| IXOFF else 0) |||
    (if has sg.sg_flags RAW then 0 else IXON)
  c_oflag := if has sg.sg_flags CRMOD then OPOST ||| ONLCR else 0
  c_cflag := CREAD ||| (if has flags TF_CAR then 0 else CLOCAL) |||
    (if has state TS_HPCL then HUPCL else 0) |||
    (if flags &&& TF_STOPBITS = TF_2STOP then CSTOPB else 0) |||
    (flags &&& TF_CHARBITS) |||
    (if has sg.sg_flags RTSCTS then CRTSCTS else 0) |||
    (if has sg.sg_flags EVENP then PARENB else 0) |||
    (if has sg.sg_flags ODDP then PARENB ||| PARODD else 0)
  c_lflag := (sg.sg_flags &&& (TOSTOP ||| NOFLSH ||| ECHOCTL)) |||
    (if has sg.sg_flags ECHO then ECHO ||| ECHOE ||| ECHOK else 0) |||
    (if has sg.sg_flags RAW then 0
      else ISIG ||| (if has sg.sg_flags CBREAK then 0 else ICANON))
  c_ispeed := sg.sg_ispeed.signExtend 16
  c_ospeed := sg.sg_ospeed.signExtend 16
  cc :=
    { VEOF := t.t_eofc
      VEOL := t.t_brkc
      VERASE := sg.sg_erase
      VINTR := t.t_intrc
      VKILL := sg.sg_kill
      VQUIT := t.t_quitc
      VSUSP := lt.t_suspc
      VSTART := t.t_startc
      VSTOP := t.t_stopc
      VMIN :=
        match vmin with
        | none => 1
        | some (vmin0, vmin1) => (ccOf vmin0 vmin1).1
      VTIME :=
        match vmin with
        | none => 0
        | some (vmin0, vmin1) => (ccOf vmin0 vmin1).2
      VLNEXT := lt.t_lnextc
      VWERASE := lt.t_werasc
      VDSUSP := lt.t_dsuspc
      VREPRINT := lt.t_rprntc
      VFLUSHO := lt.t_flushc }
  c_line := disc

def tcgetattr (refused : Refused) : Call termios := do
  Fcntl refused .TIOCGETP id
  Fcntl refused .TIOCGETC id
  Fcntl refused .TIOCGLTC id
  -- `ioctl` returns `-1`, and `errno` becomes 1
  if (refused .TIOCGETD).isSome then throw 1
  let k ← get
  let flags := if (refused .TIOCGFLAGS).isSome then 0 else k.flags
  let state := if (refused .TIOCGSTATE).isSome then 0 else k.state
  let vmin := if (refused .TIOCGVMIN).isSome then none else some (k.vmin0, k.vmin1)
  return termiosOf k.sg k.t k.lt k.disc flags state vmin

/-- `sg` in `tcsetattr`, from what the kernel had. -/
def sgttybOf (sg : sgttyb) (s : termios) : sgttyb where
  sg_flags :=
    (sg.sg_flags &&& ~~~(CRMOD ||| TANDEM ||| RTSCTS ||| EVENP ||| ODDP ||| TOSTOP ||| NOFLSH |||
      ECHOCTL ||| RAW ||| CBREAK ||| ECHO)) |||
    ((if has s.c_iflag ICRNL then CRMOD else 0) |||
      (if s.c_iflag &&& (IXON ||| IXOFF) = IXON ||| IXOFF then TANDEM else 0) |||
      (if has s.c_cflag CRTSCTS then RTSCTS else 0)) |||
    (if has s.c_cflag PARENB then (if has s.c_cflag PARODD then ODDP else EVENP) else 0) |||
    ((s.c_lflag &&& (TOSTOP ||| NOFLSH ||| ECHOCTL ||| ECHO)) |||
      (if has s.c_lflag ISIG then (if has s.c_lflag ICANON then 0 else CBREAK) else RAW))
  sg_ispeed := s.c_ispeed.setWidth 8
  sg_ospeed := s.c_ospeed.setWidth 8
  sg_erase := s.cc.VERASE
  sg_kill := s.cc.VKILL

def tcharsOf (s : termios) : tchars where
  t_intrc := s.cc.VINTR
  t_quitc := s.cc.VQUIT
  t_startc := s.cc.VSTART
  t_stopc := s.cc.VSTOP
  t_eofc := s.cc.VEOF
  t_brkc := s.cc.VEOL

def ltcharsOf (s : termios) : ltchars where
  t_suspc := s.cc.VSUSP
  t_dsuspc := s.cc.VDSUSP
  t_rprntc := s.cc.VREPRINT
  t_flushc := s.cc.VFLUSHO
  t_werasc := s.cc.VWERASE
  t_lnextc := s.cc.VLNEXT

/-- `flags` in `tcsetattr`. -/
def flagsOf (s : termios) : BitVec 16 :=
  (if has s.c_cflag CSTOPB then TF_2STOP else TF_1STOP) |||
    (if has s.c_cflag CLOCAL then 0 else TF_CAR) |||
    (if has s.c_iflag BRKINT then TF_BRKINT else 0) |||
    (s.c_cflag &&& CSIZE)

def stateOf (s : termios) : BitVec 32 := if has s.c_cflag HUPCL then TS_HPCL else 0

/-- `vmin` in `tcsetattr`. -/
def vminOf (VMIN VTIME : BitVec 8) : BitVec 16 × BitVec 16 :=
  if VMIN ≠ 0 then (VMIN.setWidth 16, 0) else (1, VTIME.setWidth 16 * 100)

/-- `TIOCSFLAGSB` and `TIOCSSTATEB`: the bits of the mask are set. -/
def setBits {w : ℕ} (old bits mask : BitVec w) : BitVec w := (old &&& ~~~mask) ||| (bits &&& mask)

/-- `action`: `TCSANOW` 0, `TCSADRAIN` 1, `TCSAFLUSH` 2; `mint` is `__mint`. -/
def tcsetattr (refused : Refused) (mint : ℕ) (action : ℤ) (s : termios) : Call Unit := do
  Fcntl refused .TIOCGETP id
  let k ← get
  let sg := sgttybOf k.sg s
  Fcntl refused .TIOCGLTC id
  if (refused .TIOCSETD).isSome then throw ENOTTY
  modify fun k => { k with disc := s.c_line }
  if action = 2 ∨ action = 1 then
    Fcntl refused (if mint < 0x10b then .TIOCSETN else .TIOCSETP) fun k => { k with sg := sg }
  else if action = 0 then Fcntl refused .TIOCSETN fun k => { k with sg := sg }
  else throw EINVAL
  Fcntl refused .TIOCSETC fun k => { k with t := tcharsOf s }
  Fcntl refused .TIOCSLTC fun k => { k with lt := ltcharsOf s }
  let flags := flagsOf s
  if (refused .TIOCSFLAGSB).isSome then
    let k ← get
    let sflags := if (refused .TIOCGFLAGS).isSome then 0 else k.flags
    let sflags := (sflags &&& ~~~(TF_STOPBITS ||| TF_CHARBITS)) |||
      (flags &&& (TF_STOPBITS ||| TF_CHARBITS))
    if (refused .TIOCSFLAGS).isNone then modify fun k => { k with flags := sflags }
  else
    modify fun k => { k with
      flags := setBits k.flags flags (TF_STOPBITS ||| TF_CHARBITS ||| TF_CAR ||| TF_BRKINT) }
  if (refused .TIOCSVMIN).isNone then
    let (vmin0, vmin1) := vminOf s.cc.VMIN s.cc.VTIME
    modify fun k => { k with vmin0 := vmin0, vmin1 := vmin1 }
  if (refused .TIOCSSTATEB).isNone then
    modify fun k => { k with state := setBits k.state (stateOf s) TS_HPCL }

/-- What `tcgetattr` returns. -/
def Tty.save (k : Tty) : termios :=
  termiosOf k.sg k.t k.lt k.disc k.flags k.state (some (k.vmin0, k.vmin1))

/-- What `tcsetattr` leaves. -/
def Tty.restore (k : Tty) (s : termios) : Tty where
  sg := sgttybOf k.sg s
  t := tcharsOf s
  lt := ltcharsOf s
  disc := s.c_line
  flags := setBits k.flags (flagsOf s) (TF_STOPBITS ||| TF_CHARBITS ||| TF_CAR ||| TF_BRKINT)
  state := setBits k.state (stateOf s) TS_HPCL
  vmin0 := (vminOf s.cc.VMIN s.cc.VTIME).1
  vmin1 := (vminOf s.cc.VMIN s.cc.VTIME).2

section Calls

variable {refused : Refused} {mint : ℕ} {action : ℤ} {s : termios} {k k' : Tty}

theorem tcgetattr_run (h : ∀ req, refused req = none) :
    (tcgetattr refused).run k = (.ok k.save, k) := by
  obtain rfl : refused = fun _ => none := funext h
  rfl

theorem tcsetattr_run (h : ∀ req, refused req = none)
    (hok : (tcsetattr refused mint action s).run k = (.ok (), k')) : k' = k.restore s := by
  obtain rfl : refused = fun _ => none := funext h
  by_cases hdrain : action = 2 ∨ action = 1
  · have hrun : (tcsetattr (fun _ => none) mint action s).run k = (.ok (), k.restore s) := by
      unfold tcsetattr
      simp only [if_pos hdrain]
      rfl
    exact (Prod.mk.inj (hok.symm.trans hrun)).2
  · by_cases hnow : action = 0
    · have hrun : (tcsetattr (fun _ => none) mint action s).run k = (.ok (), k.restore s) := by
        unfold tcsetattr
        simp only [if_neg hdrain, if_pos hnow]
        rfl
      exact (Prod.mk.inj (hok.symm.trans hrun)).2
    · have hrun : ((tcsetattr (fun _ => none) mint action s).run k).1 = .error EINVAL := by
        unfold tcsetattr
        simp only [if_neg hdrain, if_neg hnow]
        rfl
      rw [hok] at hrun
      cases hrun

end Calls

section Flags

variable (k k₂ : Tty)

theorem has_save :
    (has k.save.c_iflag BRKINT ↔ has k.flags TF_BRKINT) ∧
    (has k.save.c_iflag ICRNL ↔ has k.sg.sg_flags CRMOD) ∧
    (has k.save.c_iflag IXOFF ↔ has k.sg.sg_flags TANDEM) ∧
    (has k.save.c_iflag IXON ↔ has k.sg.sg_flags TANDEM ∨ ¬ has k.sg.sg_flags RAW) ∧
    (has k.save.c_cflag CLOCAL ↔ ¬ has k.flags TF_CAR) ∧
    (has k.save.c_cflag HUPCL ↔ has k.state TS_HPCL) ∧
    (has k.save.c_cflag CSTOPB ↔ k.flags &&& TF_STOPBITS = TF_2STOP) ∧
    (has k.save.c_cflag CRTSCTS ↔ has k.sg.sg_flags RTSCTS) ∧
    (has k.save.c_cflag PARENB ↔ has k.sg.sg_flags EVENP ∨ has k.sg.sg_flags ODDP) ∧
    (has k.save.c_cflag PARODD ↔ has k.sg.sg_flags ODDP) ∧
    (has k.save.c_lflag ISIG ↔ ¬ has k.sg.sg_flags RAW) ∧
    (has k.save.c_lflag ICANON ↔ ¬ has k.sg.sg_flags RAW ∧ ¬ has k.sg.sg_flags CBREAK) := by
  refine ⟨?_, ?_, ?_, ?_, ?_, ?_, ?_, ?_, ?_, ?_, ?_, ?_⟩
  all_goals
    simp +decide (disch := decide) only [Tty.save, termiosOf, has_or, has_ite, has_and_of_eq_zero,
      if_false_right, if_false_left, and_true, false_or, or_false, ite_self]

theorem has_save_lflag :
    (has k.save.c_lflag ECHO ↔ has k.sg.sg_flags ECHO) ∧
    (has k.save.c_lflag TOSTOP ↔ has k.sg.sg_flags TOSTOP) ∧
    (has k.save.c_lflag NOFLSH ↔ has k.sg.sg_flags NOFLSH) ∧
    (has k.save.c_lflag ECHOCTL ↔ has k.sg.sg_flags ECHOCTL) ∧
    (has k.save.c_cflag 4 ↔ has k.flags 4) ∧ (has k.save.c_cflag 8 ↔ has k.flags 8) := by
  refine ⟨?_, ?_, ?_, ?_, ?_, ?_⟩
  all_goals
    simp +decide (disch := decide) only [Tty.save, termiosOf, has_or, has_ite, has_and_of_eq_zero,
      has_and_of_eq_self, if_false_right, and_true, false_or, or_false, ite_self]

variable {s : termios}

theorem has_restore :
    (has (k.restore s).sg.sg_flags CRMOD ↔ has s.c_iflag ICRNL) ∧
    (has (k.restore s).sg.sg_flags TANDEM ↔
      s.c_iflag &&& (IXON ||| IXOFF) = IXON ||| IXOFF) ∧
    (has (k.restore s).sg.sg_flags RTSCTS ↔ has s.c_cflag CRTSCTS) ∧
    (has (k.restore s).sg.sg_flags EVENP ↔ has s.c_cflag PARENB ∧ ¬ has s.c_cflag PARODD) ∧
    (has (k.restore s).sg.sg_flags ODDP ↔ has s.c_cflag PARENB ∧ has s.c_cflag PARODD) ∧
    (has (k.restore s).sg.sg_flags RAW ↔ ¬ has s.c_lflag ISIG) ∧
    (has (k.restore s).sg.sg_flags CBREAK ↔ has s.c_lflag ISIG ∧ ¬ has s.c_lflag ICANON) ∧
    (has (k.restore s).sg.sg_flags ECHO ↔ has s.c_lflag ECHO) ∧
    (has (k.restore s).sg.sg_flags TOSTOP ↔ has s.c_lflag TOSTOP) ∧
    (has (k.restore s).sg.sg_flags NOFLSH ↔ has s.c_lflag NOFLSH) ∧
    (has (k.restore s).sg.sg_flags ECHOCTL ↔ has s.c_lflag ECHOCTL) := by
  refine ⟨?_, ?_, ?_, ?_, ?_, ?_, ?_, ?_, ?_, ?_, ?_⟩
  all_goals
    simp +decide (disch := decide) only [Tty.restore, sgttybOf, has_or, has_ite,
      has_and_of_eq_zero, has_and_of_eq_self, if_false_right, if_false_left, and_true, false_or,
      or_false, ite_self]

theorem has_restore_flags :
    (has (k.restore s).flags TF_BRKINT ↔ has s.c_iflag BRKINT) ∧
    (has (k.restore s).flags TF_CAR ↔ ¬ has s.c_cflag CLOCAL) ∧
    (has (k.restore s).flags 1) ∧ (has (k.restore s).flags 2 ↔ has s.c_cflag CSTOPB) ∧
    (has (k.restore s).flags 4 ↔ has s.c_cflag 4) ∧
    (has (k.restore s).flags 8 ↔ has s.c_cflag 8) ∧
    (has (k.restore s).state TS_HPCL ↔ has s.c_cflag HUPCL) := by
  refine ⟨?_, ?_, ?_, ?_, ?_, ?_, ?_⟩
  all_goals
    simp +decide (disch := decide) only [Tty.restore, setBits, flagsOf, stateOf, has_or, has_ite,
      has_and_of_eq_zero, has_and_of_eq_self, if_false_right, if_false_left, and_true, false_or,
      or_false, ite_self]

theorem has_restore_save :
    (has (k₂.restore k.save).sg.sg_flags CRMOD ↔ has k.sg.sg_flags CRMOD) ∧
    (has (k₂.restore k.save).sg.sg_flags TANDEM ↔ has k.sg.sg_flags TANDEM) ∧
    (has (k₂.restore k.save).sg.sg_flags RTSCTS ↔ has k.sg.sg_flags RTSCTS) ∧
    (has (k₂.restore k.save).sg.sg_flags EVENP ↔
      has k.sg.sg_flags EVENP ∧ ¬ has k.sg.sg_flags ODDP) ∧
    (has (k₂.restore k.save).sg.sg_flags ODDP ↔ has k.sg.sg_flags ODDP) ∧
    (has (k₂.restore k.save).sg.sg_flags RAW ↔ has k.sg.sg_flags RAW) ∧
    (has (k₂.restore k.save).sg.sg_flags CBREAK ↔
      ¬ has k.sg.sg_flags RAW ∧ has k.sg.sg_flags CBREAK) ∧
    (has (k₂.restore k.save).sg.sg_flags ECHO ↔ has k.sg.sg_flags ECHO) := by
  obtain ⟨-, hcrmod, hixoff, hixon, -, -, -, hrtscts, hparenb, hparodd, hisig, hicanon⟩ :=
    has_save k
  obtain ⟨hecho, -⟩ := has_save_lflag k
  obtain ⟨h1, h2, h3, h4, h5, h6, h7, h8, -⟩ := has_restore (k := k₂) (s := k.save)
  have hboth : k.save.c_iflag &&& (IXON ||| IXOFF) = IXON ||| IXOFF ↔
      has k.save.c_iflag IXON ∧ has k.save.c_iflag IXOFF :=
    and_eq_mask_iff (show 9 < 16 by decide) (show 10 < 16 by decide)
  refine ⟨h1.trans hcrmod, ?_, h3.trans hrtscts, ?_, ?_, ?_, ?_, h8.trans hecho⟩
  · rw [h2, hboth, hixon, hixoff]
    exact ⟨fun h => h.2, fun h => ⟨.inl h, h⟩⟩
  · rw [h4, hparenb, hparodd]
    exact ⟨fun h => ⟨h.1.resolve_right h.2, h.2⟩, fun h => ⟨.inl h.1, h.2⟩⟩
  · rw [h5, hparenb, hparodd]
    exact ⟨fun h => h.2, fun h => ⟨.inr h, h⟩⟩
  · rw [h6, hisig, not_not]
  · rw [h7, hisig, hicanon, not_and, not_not]
    exact ⟨fun h => ⟨h.1, h.2 h.1⟩, fun h => ⟨h.1, fun _ => h.2⟩⟩

theorem lflag_restore_save :
    (k₂.restore k.save).sg.sg_flags &&& (TOSTOP ||| NOFLSH ||| ECHOCTL) =
      k.sg.sg_flags &&& (TOSTOP ||| NOFLSH ||| ECHOCTL) := by
  obtain ⟨-, htostop, hnoflsh, hechoctl, -⟩ := has_save_lflag k
  obtain ⟨-, -, -, -, -, -, -, -, h1, h2, h3⟩ := has_restore (k := k₂) (s := k.save)
  refine and_or_eq (and_or_eq ?_ ?_) ?_
  · exact and_twoPow_eq (i := 8) (h1.trans htostop)
  · exact and_twoPow_eq (i := 6) (h2.trans hnoflsh)
  · exact and_twoPow_eq (i := 10) (h3.trans hechoctl)

theorem flags_restore_save :
    (has (k₂.restore k.save).flags TF_BRKINT ↔ has k.flags TF_BRKINT) ∧
    (has (k₂.restore k.save).flags TF_CAR ↔ has k.flags TF_CAR) ∧
    ((k₂.restore k.save).flags &&& TF_STOPBITS = TF_2STOP ↔
      k.flags &&& TF_STOPBITS = TF_2STOP) ∧
    (k₂.restore k.save).flags &&& TF_CHARBITS = k.flags &&& TF_CHARBITS ∧
    (has (k₂.restore k.save).state TS_HPCL ↔ has k.state TS_HPCL) := by
  obtain ⟨hbrkint, -, -, -, hclocal, hhupcl, hcstopb, -⟩ := has_save k
  obtain ⟨-, -, -, -, h4, h8⟩ := has_save_lflag k
  obtain ⟨hbrk, hcar, hone, htwo, hfour, height, hhpcl⟩ :=
    has_restore_flags (k := k₂) (s := k.save)
  have hstop : (k₂.restore k.save).flags &&& TF_STOPBITS = TF_2STOP ↔
      has (k₂.restore k.save).flags 1 ∧ has (k₂.restore k.save).flags 2 :=
    and_eq_mask_iff (show 0 < 16 by decide) (show 1 < 16 by decide)
  refine ⟨hbrk.trans hbrkint, ?_, ?_, ?_, hhpcl.trans hhupcl⟩
  · rw [hcar, hclocal, not_not]
  · rw [hstop, htwo, hcstopb]
    exact and_iff_right hone
  · exact and_or_eq (and_twoPow_eq (i := 2) (hfour.trans h4))
      (and_twoPow_eq (i := 3) (height.trans h8))

end Flags

section Vmin

variable (k k₂ : Tty)

/-- The pairs that `tcsetattr` cannot tell from `VMIN` 1. -/
def Polls (k : Tty) : Prop := k.vmin1 = 0 ∧ k.vmin0 = 0 ∨ k.vmin1 ≠ 0 ∧ k.vmin1 < 100

theorem ccOf_vminOf (VMIN VTIME : BitVec 8) (h : VMIN = 0 ∨ VTIME = 0) :
    ccOf (vminOf VMIN VTIME).1 (vminOf VMIN VTIME).2 = (VMIN, VTIME) ↔
      ¬ (VMIN = 0 ∧ VTIME = 0) := by
  by_cases hmin : VMIN = 0
  · subst hmin
    by_cases htime : VTIME = 0
    · subst htime
      exact iff_of_false (by decide) (by decide)
    · have hne : VTIME.setWidth 16 * 100 ≠ 0 := by bv_omega
      have hvmin : vminOf 0 VTIME = (1, VTIME.setWidth 16 * 100) := rfl
      refine iff_of_true ?_ (fun h => htime h.2)
      rw [hvmin, ccOf, if_pos hne]
      refine Prod.ext rfl ?_
      show (if 0xff * 100 ≤ VTIME.setWidth 16 * 100 then (0xff : BitVec 8)
        else (VTIME.setWidth 16 * 100 / 100).setWidth 8) = VTIME
      have hlt := VTIME.isLt
      have hmul : (VTIME.setWidth 16 * 100).toNat = VTIME.toNat * 100 := by
        rw [BitVec.toNat_mul, BitVec.toNat_setWidth]
        show VTIME.toNat % 2 ^ 16 * 100 % 2 ^ 16 = _
        omega
      have hmax : 0xff * 100 ≤ VTIME.setWidth 16 * 100 ↔ 0xff ≤ VTIME.toNat := by
        rw [BitVec.le_def, hmul]
        show 25500 ≤ _ ↔ _
        omega
      apply BitVec.eq_of_toNat_eq
      split_ifs with hle
      · have := hmax.mp hle
        show 0xff = VTIME.toNat
        omega
      · rw [BitVec.toNat_setWidth, BitVec.toNat_udiv, hmul]
        show VTIME.toNat * 100 / 100 % 2 ^ 8 = _
        omega
  · have htime : VTIME = 0 := h.resolve_left hmin
    subst htime
    have hvmin : vminOf VMIN 0 = (VMIN.setWidth 16, 0) := if_pos hmin
    refine iff_of_true ?_ (fun h => hmin h.1)
    rw [hvmin, ccOf, if_neg (not_not.mpr rfl)]
    refine Prod.ext ?_ rfl
    show (if 0xff ≤ VMIN.setWidth 16 then (0xff : BitVec 8)
      else (VMIN.setWidth 16).setWidth 8) = VMIN
    split_ifs <;> bv_omega

theorem ccOf_zero (v0 v1 : BitVec 16) :
    ((ccOf v0 v1).1 = 0 ∨ (ccOf v0 v1).2 = 0) ∧
      ((ccOf v0 v1).1 = 0 ∧ (ccOf v0 v1).2 = 0 ↔ v1 = 0 ∧ v0 = 0 ∨ v1 ≠ 0 ∧ v1 < 100) := by
  unfold ccOf
  by_cases h1 : v1 = 0
  · subst h1
    simp only [ne_eq, not_true_eq_false, if_false, or_true, and_true, true_and, false_and, or_false]
    split_ifs <;> bv_omega
  · have hlt := v1.isLt
    have hdiv : (v1 / 100).toNat = v1.toNat / 100 := BitVec.toNat_udiv
    have hmax : 0xff * 100 ≤ v1 ↔ 25500 ≤ v1.toNat := Iff.rfl
    have hsmall : v1 < 100 ↔ v1.toNat < 100 := Iff.rfl
    simp only [ne_eq, h1, not_false_eq_true, if_true, true_or, true_and, false_and, false_or]
    rw [hsmall]
    split_ifs with hle
    · have := hmax.mp hle
      exact iff_of_false (by decide) (by omega)
    · rw [hmax] at hle
      rw [← BitVec.toNat_inj, BitVec.toNat_setWidth, hdiv]
      show v1.toNat / 100 % 2 ^ 8 = 0 ↔ _
      omega

end Vmin

theorem flags_save_restore (k k₂ : Tty) :
    (k₂.restore k.save).save.c_iflag = k.save.c_iflag ∧
      (k₂.restore k.save).save.c_oflag = k.save.c_oflag ∧
      (k₂.restore k.save).save.c_cflag = k.save.c_cflag ∧
      (k₂.restore k.save).save.c_lflag = k.save.c_lflag := by
  obtain ⟨hcrmod, htandem, hrtscts, hevenp, hoddp, hraw, hcbreak, hecho⟩ := has_restore_save k k₂
  obtain ⟨hbrkint, hcar, hstop, hchar, hhpcl⟩ := flags_restore_save k k₂
  have hlflag := lflag_restore_save k k₂
  generalize k₂.restore k.save = k' at *
  have hparity : has k'.sg.sg_flags (EVENP ||| ODDP) ↔ has k.sg.sg_flags (EVENP ||| ODDP) := by
    rw [has_or_mask, has_or_mask, hevenp, hoddp, and_or_right]
    exact and_iff_left (em' _)
  refine ⟨?_, ?_, ?_, ?_⟩
  · simp only [Tty.save, termiosOf, hbrkint, hcrmod, hparity, hraw, htandem]
  · simp only [Tty.save, termiosOf, hcrmod]
  · simp only [Tty.save, termiosOf, hcar, hhpcl, hstop, hchar, hrtscts, hevenp, hoddp]
    -- with odd parity `PARENB` is set by `ODDP`
    by_cases hodd : has k.sg.sg_flags ODDP
    · have habsorb : ∀ x : BitVec 16,
          x ||| PARENB ||| (PARENB ||| PARODD) = x ||| 0 ||| (PARENB ||| PARODD) := by
        intro x
        rw [BitVec.or_assoc, BitVec.or_assoc]
        exact congrArg (x ||| ·) (by decide)
      simp only [hodd, not_true_eq_false, and_false, if_false, if_true]
      by_cases heven : has k.sg.sg_flags EVENP
      · rw [if_pos heven, habsorb]
      · rw [if_neg heven]
    · simp only [hodd, not_false_eq_true, and_true]
  · simp only [Tty.save, termiosOf, hlflag, hecho, hraw, hcbreak]
    by_cases hr : has k.sg.sg_flags RAW
    · simp only [hr, if_true]
    · simp only [hr, if_false, not_false_eq_true, true_and]

theorem setWidth_signExtend (c : BitVec 8) :
    ((c.signExtend 16).setWidth 8).signExtend 16 = c.signExtend 16 := by
  have hback : (c.signExtend 16).setWidth 8 = c := by
    apply BitVec.eq_of_getLsbD_eq
    intro i hi
    rw [BitVec.getLsbD_setWidth, BitVec.getLsbD_signExtend]
    simp [hi, show i < 16 by omega]
  rw [hback]

/-- A terminal whose state was saved and restored is saved as the same structure, unless
`VMIN` and `VTIME` are both zero in it. -/
theorem save_restore_iff (refused : Refused) (mint : ℕ) (action : ℤ) (s₁ s₂ s₃ : Tty)
    (t : termios) (h : ∀ req, refused req = none)
    (hget : (tcgetattr refused).run s₁ = (.ok t, s₁))
    (hset : (tcsetattr refused mint action t).run s₂ = (.ok (), s₃)) :
    ((tcgetattr refused).run s₃).1 = .ok t ↔ ¬ Polls s₁ := by
  have ht : t = s₁.save := by
    rw [tcgetattr_run h] at hget
    exact (Except.ok.inj (Prod.mk.inj hget).1).symm
  subst ht
  rw [tcsetattr_run h hset, tcgetattr_run h]
  obtain ⟨hiflag, hoflag, hcflag, hlflag⟩ := flags_save_restore s₁ s₂
  obtain ⟨hone, hzero⟩ := ccOf_zero s₁.vmin0 s₁.vmin1
  have hcc := ccOf_vminOf _ _ hone
  rw [hzero] at hcc
  show Except.ok (s₂.restore s₁.save).save = Except.ok s₁.save ↔ ¬ Polls s₁
  rw [Except.ok.injEq, Polls, ← hcc]
  constructor
  · intro heq
    have hmin := congrArg (fun t => t.cc.VMIN) heq
    have htime := congrArg (fun t => t.cc.VTIME) heq
    exact Prod.ext hmin htime
  · intro heq
    have hmin : (s₂.restore s₁.save).save.cc.VMIN = s₁.save.cc.VMIN := congrArg Prod.fst heq
    have htime : (s₂.restore s₁.save).save.cc.VTIME = s₁.save.cc.VTIME := congrArg Prod.snd heq
    have hcceq : (s₂.restore s₁.save).save.cc = s₁.save.cc :=
      congrArg₂ (fun vmin vtime => { s₁.save.cc with VMIN := vmin, VTIME := vtime }) hmin htime
    have hispeed : (s₂.restore s₁.save).save.c_ispeed = s₁.save.c_ispeed := setWidth_signExtend _
    have hospeed : (s₂.restore s₁.save).save.c_ospeed = s₁.save.c_ospeed := setWidth_signExtend _
    exact termios.ext hiflag hoflag hcflag hlflag hispeed hospeed hcceq rfl

/-- A terminal in cooked mode with the given `VMIN` and `VTIME`. -/
def demoTty (vmin0 vmin1 : BitVec 16) : Tty where
  sg := ⟨13, 13, 8, 21, CRMOD ||| ECHO ||| TANDEM⟩
  t := ⟨3, 28, 17, 19, 4, 13⟩
  lt := ⟨26, 25, 18, 15, 23, 22⟩
  disc := 1
  flags := TF_1STOP ||| TF_CAR
  state := TS_HPCL
  vmin0 := vmin0
  vmin1 := vmin1

/-- The theorem at a terminal that waits for a second, restored after a program in raw mode. -/
theorem save_restore_iff_demo :
    ((tcgetattr fun _ => none).run
      (Tty.restore { demoTty 1 0 with sg := ⟨13, 13, 8, 21, RAW⟩ } (demoTty 1 1000).save)).1 =
        .ok (demoTty 1 1000).save ↔ ¬ Polls (demoTty 1 1000) :=
  save_restore_iff (fun _ => none) 0x110 0 (demoTty 1 1000)
    { demoTty 1 0 with sg := ⟨13, 13, 8, 21, RAW⟩ } _ _ (fun _ => rfl) rfl rfl

/-- A terminal that polls comes back as one that waits for a character. -/
theorem polling_lost :
    ¬ ∀ (refused : Refused) (mint : ℕ) (action : ℤ) (s₁ s₂ s₃ : Tty) (t : termios),
      (∀ req, refused req = none) → (tcgetattr refused).run s₁ = (.ok t, s₁) →
      (tcsetattr refused mint action t).run s₂ = (.ok (), s₃) →
      ((tcgetattr refused).run s₃).1 = .ok t := by
  intro h
  have hsame : Except.ok _ = Except.ok _ :=
    h (fun _ => none) 0x110 0 (demoTty 0 0) (demoTty 0 0) _ _ (fun _ => rfl) rfl rfl
  exact absurd (congrArg (fun t => t.cc.VMIN) (Except.ok.inj hsame)) (by decide)

end Mintlib.Termios
