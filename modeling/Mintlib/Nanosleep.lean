import Mintlib.Timeouts
import Mintlib.Posix

/-!
# `nanosleep.c` and `clock_nanosleep.c`: the time that is left

When a signal ends the wait, `nanosleep` subtracts the time that has gone by from the
request, seconds and microseconds each for themselves.
-/

namespace Mintlib.Nanosleep

open Select Timeouts Posix

abbrev BILLION : ℤ := 1000 * 1000 * 1000

/-- What `nanosleep` meets: the time before and after the wait, and whether a signal ended it. -/
structure Wait where
  start : Timeval
  stop : Timeval
  interrupted : Bool

/-- The result of a call, `errno`, and what it has stored in `*rem`. -/
structure Outcome where
  ret : ℤ
  errno : Option ℤ
  rem : Option Timespec
deriving DecidableEq

/-- `wait`: the request in microseconds, rounded up. -/
def waitTime (req : Timespec) : Timeval :=
  let usec := (req.tv_nsec + 999).tdiv 1000
  if usec = 1000000 then
    let t1 := Int.bmod (req.tv_sec + 1) (2 ^ 32)
    if t1 < req.tv_sec then ⟨req.tv_sec, 999999⟩ else ⟨t1, 0⟩
  else ⟨req.tv_sec, usec⟩

/-- `remain`, field by field; the seconds are a `long` and wrap, `/` and `%` cut off towards 0. -/
def remainTime (wait start stop : Timeval) : Timeval :=
  let sec := Int.bmod (wait.tv_sec - (stop.tv_sec - start.tv_sec)) (2 ^ 32)
  let usec := wait.tv_usec - (stop.tv_usec - start.tv_usec)
  ⟨Int.bmod (sec + usec.tdiv 1000000) (2 ^ 32), usec.tmod 1000000⟩

def toTimespec (tv : Timeval) : Timespec := ⟨tv.tv_sec, tv.tv_usec * 1000⟩

/-- `nanosleep`; `rem` says whether the pointer is not `NULL`, and `none` stands for a store
through a null pointer. -/
def nanosleep (mint : Bool) (req : Timespec) (rem : Bool) (w : Wait) : Option Outcome :=
  if req.tv_nsec < 0 ∨ BILLION ≤ req.tv_nsec then some ⟨-1, some EINVAL, none⟩
  else if mint = false then some ⟨0, none, none⟩
  else if w.interrupted = false then some ⟨0, none, none⟩
  else
    let remain := remainTime (waitTime req) w.start w.stop
    if rem then some ⟨-1, some EINTR, some (toTimespec remain)⟩ else none

abbrev CLOCK_REALTIME : ℕ := 0
abbrev CLOCK_MONOTONIC : ℕ := 1
abbrev TIMER_ABSTIME : ℕ := 1

/-- `clock_nanosleep`: the error that it returns, and what was stored in `*rem`; `now` is what
`clock_gettime` gives, or its error. -/
def clockNanosleep (mint : Bool) (now : Except ℤ Timespec) (clock_id flags : ℕ) (req : Timespec)
    (rem : Bool) (w : Wait) : Option (ℤ × Option Timespec) :=
  let call (req : Timespec) (rem : Bool) :=
    (nanosleep mint req rem w).map fun out =>
      (if out.ret ≠ 0 then out.errno.getD 0 else 0, out.rem)
  if req.tv_nsec < 0 ∨ BILLION ≤ req.tv_nsec then some (EINVAL, none)
  else if flags = TIMER_ABSTIME then
    match now with
    | .error errno => some (errno, none)
    | .ok now =>
      let nsec := req.tv_nsec - now.tv_nsec
      let sec := req.tv_sec - now.tv_sec - (if nsec < 0 then 1 else 0)
      if sec < 0 then some (0, none)
      else call ⟨sec, nsec + (if nsec < 0 then BILLION else 0)⟩ false
  else if flags ≠ 0 then some (EINVAL, none)
  else if clock_id ≠ CLOCK_REALTIME ∧ clock_id ≠ CLOCK_MONOTONIC then some (ENOTSUP, none)
  else call req rem

def Timeval.usecs (t : Timeval) : ℤ := t.tv_sec * 1000000 + t.tv_usec

def Timespec.nsecs (t : Timespec) : ℤ := t.tv_sec * 1000000000 + t.tv_nsec

structure Timeval.Ok (t : Timeval) : Prop where
  sec : IsLong t.tv_sec
  usec : 0 ≤ t.tv_usec ∧ t.tv_usec < 1000000

structure Timespec.Ok (t : Timespec) : Prop where
  sec : IsLong t.tv_sec
  nsec : 0 ≤ t.tv_nsec ∧ t.tv_nsec < BILLION

/-- The request in microseconds, which is what the clock counts, rounded up. -/
def requested (req : Timespec) : ℤ := req.tv_sec * 1000000 + (req.tv_nsec + 999) / 1000

def elapsed (w : Wait) : ℤ := Timeval.usecs w.stop - Timeval.usecs w.start

def Normalised (t : Timespec) (left : ℤ) : Prop :=
  0 ≤ t.tv_sec ∧ 0 ≤ t.tv_nsec ∧ t.tv_nsec < BILLION ∧ Timespec.nsecs t = left

/-- A call that is interrupted does not use a null pointer, and stores a normalised time with
that many nanoseconds. -/
def Stores (left : ℤ) (rem : Bool) (out : Option (ℤ × Option Timespec)) : Prop :=
  ∃ err stored, out = some (err, stored) ∧ (err = EINTR → rem = true →
    ∃ t, stored = some t ∧ Normalised t left)

/-- The error of a call of `nanosleep`, and what it has stored. -/
def failure (out : Outcome) : ℤ × Option Timespec := (out.errno.getD 0, out.rem)

/-- The request rounded up to microseconds minus the elapsed time, not below zero. -/
def leftRounded (req : Timespec) (w : Wait) : ℤ := max 0 ((requested req - elapsed w) * 1000)

def leftExact (req : Timespec) (w : Wait) : ℤ :=
  max 0 (Timespec.nsecs req - elapsed w * 1000)

/-- The seconds of the rounded request fit into a `long`, no more time has gone by than was
requested, the seconds that are left fit into a `long` (they do not when the clock was set back
far enough), and no second has to be borrowed for the microseconds. -/
structure NoBorrow (req : Timespec) (w : Wait) : Prop where
  long : requested req < 2 ^ 31 * 1000000
  time : elapsed w ≤ requested req
  left : requested req - elapsed w < 2 ^ 31 * 1000000
  usec : w.stop.tv_usec - w.start.tv_usec ≤ (req.tv_nsec + 999) / 1000 % 1000000

section Times

variable {req : Timespec} {w : Wait} {rem : Bool} {left : ℤ}

theorem waitTime_eq (hreq : Timespec.Ok req) : waitTime req =
    if requested req < 2 ^ 31 * 1000000 then ⟨requested req / 1000000, requested req % 1000000⟩
    else ⟨req.tv_sec, 999999⟩ := by
  obtain ⟨⟨hsec0, hsec1⟩, hnsec0, hnsec1⟩ := hreq
  have hbillion : BILLION = 1000000000 := rfl
  rw [hbillion] at hnsec1
  have htdiv : (req.tv_nsec + 999).tdiv 1000 = (req.tv_nsec + 999) / 1000 :=
    Int.tdiv_eq_ediv_of_nonneg (by omega)
  have hrange : requested req = req.tv_sec * 1000000 + (req.tv_nsec + 999) / 1000 := rfl
  unfold waitTime
  simp only [htdiv]
  by_cases hfull : (req.tv_nsec + 999) / 1000 = 1000000
  · rw [if_pos hfull]
    by_cases hmax : req.tv_sec + 1 < 2 ^ 31
    · have hnext : Int.bmod (req.tv_sec + 1) (2 ^ 32) = req.tv_sec + 1 := by
        rw [Int.bmod_eq_of_le] <;> omega
      have hless : ¬ req.tv_sec + 1 < req.tv_sec := by omega
      have hlong : requested req < 2 ^ 31 * 1000000 := by omega
      rw [hnext, if_neg hless, if_pos hlong]
      congr 1 <;> omega
    · -- the guard against the overflow keeps the seconds
      have hwrap : Int.bmod (req.tv_sec + 1) (2 ^ 32) < req.tv_sec := by
        have hdef := Int.bmod_def (req.tv_sec + 1) (2 ^ 32)
        split at hdef <;> omega
      have hlong : ¬ requested req < 2 ^ 31 * 1000000 := by omega
      rw [if_pos hwrap, if_neg hlong]
  · have hlong : requested req < 2 ^ 31 * 1000000 := by omega
    rw [if_neg hfull, if_pos hlong]
    congr 1 <;> omega

theorem seconds_eq {sec : ℤ} (hlow : -(2 ^ 31) ≤ sec) (hhigh : sec < 2 ^ 32) :
    Int.bmod sec (2 ^ 32) = if sec < 2 ^ 31 then sec else sec - 2 ^ 32 := by
  have hdef := Int.bmod_def sec (2 ^ 32)
  split at hdef <;> split_ifs <;> omega

theorem remainTime_eq {wait start stop : Timeval} (hwait : Timeval.Ok wait)
    (hstart : Timeval.Ok start) (hstop : Timeval.Ok stop) :
    Normalised (toTimespec (remainTime wait start stop)) left ↔
      stop.tv_usec - start.tv_usec ≤ wait.tv_usec ∧
        0 ≤ Timeval.usecs wait - (Timeval.usecs stop - Timeval.usecs start) ∧
        Timeval.usecs wait - (Timeval.usecs stop - Timeval.usecs start) < 2 ^ 31 * 1000000 ∧
        left = (Timeval.usecs wait - (Timeval.usecs stop - Timeval.usecs start)) * 1000 := by
  obtain ⟨⟨hwaits0, hwaits1⟩, hwait0, hwait1⟩ := hwait
  obtain ⟨⟨hstarts0, hstarts1⟩, hstart0, hstart1⟩ := hstart
  obtain ⟨⟨hstops0, hstops1⟩, hstop0, hstop1⟩ := hstop
  have hbillion : BILLION = 1000000000 := rfl
  unfold Normalised toTimespec remainTime Timespec.nsecs Timeval.usecs
  simp only [hbillion, Int.bmod_add_bmod]
  set usec := wait.tv_usec - (stop.tv_usec - start.tv_usec) with husec
  by_cases h0 : 0 ≤ usec
  · rw [Int.tdiv_eq_ediv_of_nonneg h0, Int.tmod_eq_emod_of_nonneg h0,
      seconds_eq (by omega) (by omega)]
    split_ifs <;> omega
  · have hquot : usec.tdiv 1000000 = -((-usec) / 1000000) := by
      rw [← Int.tdiv_eq_ediv_of_nonneg (by omega), ← Int.neg_tdiv, neg_neg]
    have hrest : usec.tmod 1000000 = usec - 1000000 * usec.tdiv 1000000 := by
      have hsum := Int.mul_tdiv_add_tmod usec 1000000
      omega
    rw [hrest, hquot, seconds_eq (by omega) (by omega)]
    split_ifs <;> omega

/-- The time that is left is stored exactly when nothing has to be borrowed and no more
time than was requested has gone by. -/
theorem stored_iff (hreq : Timespec.Ok req) (hstart : Timeval.Ok w.start)
    (hstop : Timeval.Ok w.stop) (hleft : (requested req - 1 - elapsed w) * 1000 < left) :
    Normalised (toTimespec (remainTime (waitTime req) w.start w.stop)) left ↔
      NoBorrow req w ∧ left = (requested req - elapsed w) * 1000 := by
  have hwait := waitTime_eq hreq
  have hok : Timeval.Ok (waitTime req) := by
    have hsec := hreq.sec
    rw [hwait]
    split_ifs with hlong
    · have hceil : requested req = req.tv_sec * 1000000 + (req.tv_nsec + 999) / 1000 := rfl
      have hnsec := hreq.nsec.1
      have hsec0 := hsec.1
      exact ⟨⟨by simp only; omega, by simp only; omega⟩, by simp only; omega⟩
    · exact ⟨hsec, by simp only; omega⟩
  rw [remainTime_eq hok hstart hstop]
  have hceil : requested req = req.tv_sec * 1000000 + (req.tv_nsec + 999) / 1000 := rfl
  have htime : elapsed w = Timeval.usecs w.stop - Timeval.usecs w.start := rfl
  rw [← htime]
  by_cases hlong : requested req < 2 ^ 31 * 1000000
  · rw [if_pos hlong] at hwait
    have htotal : Timeval.usecs (waitTime req) = requested req := by
      rw [hwait, Timeval.usecs]
      simp only
      omega
    have hfrac : (waitTime req).tv_usec = (req.tv_nsec + 999) / 1000 % 1000000 := by
      rw [hwait]
      simp only
      omega
    rw [htotal, hfrac]
    constructor
    · rintro ⟨hu, h0, hfit, heq⟩
      exact ⟨⟨hlong, by omega, hfit, hu⟩, heq⟩
    · rintro ⟨⟨-, h0, hfit, hu⟩, heq⟩
      exact ⟨hu, by omega, hfit, heq⟩
  · rw [if_neg hlong] at hwait
    refine iff_of_false ?_ fun h => hlong h.1.long
    obtain ⟨⟨-, hsec⟩, -, hnsec⟩ := hreq
    have hbillion : BILLION = 1000000000 := rfl
    have htotal : Timeval.usecs (waitTime req) = requested req - 1 := by
      rw [hwait, Timeval.usecs]
      simp only
      omega
    rw [htotal]
    rintro ⟨-, h0, -, heq⟩
    omega

theorem stored_rounded (hreq : Timespec.Ok req) (hstart : Timeval.Ok w.start)
    (hstop : Timeval.Ok w.stop) :
    Normalised (toTimespec (remainTime (waitTime req) w.start w.stop)) (leftRounded req w) ↔
      NoBorrow req w := by
  have hleft : leftRounded req w = max 0 ((requested req - elapsed w) * 1000) := rfl
  rw [stored_iff hreq hstart hstop (by omega)]
  refine and_iff_left_of_imp fun h => ?_
  have htime := h.time
  omega

theorem stored_exact (hreq : Timespec.Ok req) (hstart : Timeval.Ok w.start)
    (hstop : Timeval.Ok w.stop) :
    Normalised (toTimespec (remainTime (waitTime req) w.start w.stop)) (leftExact req w) ↔
      NoBorrow req w ∧ (1000 ∣ req.tv_nsec ∨ elapsed w = requested req) := by
  have hleft : leftExact req w = max 0 (Timespec.nsecs req - elapsed w * 1000) := rfl
  have hnsecs : Timespec.nsecs req = req.tv_sec * 1000000000 + req.tv_nsec := rfl
  have hceil : requested req = req.tv_sec * 1000000 + (req.tv_nsec + 999) / 1000 := rfl
  rw [stored_iff hreq hstart hstop (by omega)]
  refine and_congr_right fun h => ?_
  have htime := h.time
  rw [Int.dvd_iff_emod_eq_zero]
  omega

theorem stores_iff {cond : Prop} {mint : Bool} (hreq : Timespec.Ok req)
    (h : Normalised (toTimespec (remainTime (waitTime req) w.start w.stop)) left ↔ cond) :
    Stores left rem ((nanosleep mint req rem w).map failure) ↔
      mint = false ∨ w.interrupted = false ∨ (rem = true ∧ cond) := by
  have hvalid : ¬ (req.tv_nsec < 0 ∨ BILLION ≤ req.tv_nsec) := by
    rintro (hneg | hbig)
    · exact absurd hneg (not_lt.mpr hreq.nsec.1)
    · exact absurd hreq.nsec.2 (not_lt.mpr hbig)
  unfold nanosleep
  rw [if_neg hvalid]
  cases mint with
  | false => exact iff_of_true ⟨0, none, rfl, fun h => absurd h (by decide)⟩ (Or.inl rfl)
  | true =>
    cases hint : w.interrupted with
    | false => exact iff_of_true ⟨0, none, rfl, fun h => absurd h (by decide)⟩ (Or.inr (Or.inl rfl))
    | true =>
      cases rem with
      | false =>
        refine iff_of_false ?_ (by simp)
        rintro ⟨err, stored, hout, -⟩
        simp at hout
      | true =>
        simp only [Bool.true_eq_false, if_false, if_true, false_or, true_and, ← h]
        constructor
        · rintro ⟨err, stored, hout, hst⟩
          obtain ⟨rfl, rfl⟩ := Prod.mk.inj (Option.some.inj hout)
          obtain ⟨t, ht, hnorm⟩ := hst rfl rfl
          rw [Option.some.inj ht]
          exact hnorm
        · intro hnorm
          exact ⟨EINTR, _, rfl, fun _ _ => ⟨_, rfl, hnorm⟩⟩

theorem clockNanosleep_eq {mint : Bool} {now : Except ℤ Timespec} {clock_id : ℕ}
    (hreq : Timespec.Ok req) (hclock : clock_id = CLOCK_REALTIME ∨ clock_id = CLOCK_MONOTONIC) :
    clockNanosleep mint now clock_id 0 req rem w = (nanosleep mint req rem w).map failure := by
  have hvalid : ¬ (req.tv_nsec < 0 ∨ BILLION ≤ req.tv_nsec) := by
    rintro (hneg | hbig)
    · exact absurd hneg (not_lt.mpr hreq.nsec.1)
    · exact absurd hreq.nsec.2 (not_lt.mpr hbig)
  have hid : ¬ (clock_id ≠ CLOCK_REALTIME ∧ clock_id ≠ CLOCK_MONOTONIC) := by
    rintro ⟨h0, h1⟩
    exact hclock.elim h0 h1
  have hcall : clockNanosleep mint now clock_id 0 req rem w =
      (nanosleep mint req rem w).map fun out =>
        (if out.ret ≠ 0 then out.errno.getD 0 else 0, out.rem) := by
    unfold clockNanosleep
    rw [if_neg hvalid, if_neg (by decide), if_neg (by decide), if_neg hid]
  rw [hcall]
  unfold nanosleep
  rw [if_neg hvalid]
  cases mint with
  | false => rfl
  | true =>
    cases w.interrupted with
    | false => rfl
    | true => cases rem <;> rfl

end Times

/-- When an interrupted `nanosleep` and a relative `clock_nanosleep` store the time that is left,
rounded up to microseconds and to the nanosecond. -/
theorem rem_iff (mint rem : Bool) (req : Timespec) (w : Wait) (now : Except ℤ Timespec)
    (clock_id : ℕ) (hreq : Timespec.Ok req) (hstart : Timeval.Ok w.start)
    (hstop : Timeval.Ok w.stop)
    (hclock : clock_id = CLOCK_REALTIME ∨ clock_id = CLOCK_MONOTONIC) :
    ((Stores (leftRounded req w) rem ((nanosleep mint req rem w).map failure) ∧
        Stores (leftRounded req w) rem (clockNanosleep mint now clock_id 0 req rem w)) ↔
      mint = false ∨ w.interrupted = false ∨ (rem = true ∧ NoBorrow req w)) ∧
    ((Stores (leftExact req w) rem ((nanosleep mint req rem w).map failure) ∧
        Stores (leftExact req w) rem (clockNanosleep mint now clock_id 0 req rem w)) ↔
      mint = false ∨ w.interrupted = false ∨
        (rem = true ∧ NoBorrow req w ∧ (1000 ∣ req.tv_nsec ∨ elapsed w = requested req))) := by
  rw [clockNanosleep_eq hreq hclock, and_self_iff, and_self_iff]
  exact ⟨stores_iff hreq (stored_rounded hreq hstart hstop),
    stores_iff hreq (stored_exact hreq hstart hstop)⟩

def halfSecond : Wait := ⟨⟨100, 200000⟩, ⟨100, 700000⟩, true⟩

theorem halfSecond_ok : Timespec.Ok ⟨2, 0⟩ ∧ Timeval.Ok halfSecond.start ∧
    Timeval.Ok halfSecond.stop :=
  ⟨⟨⟨by decide, by decide⟩, by decide⟩, ⟨⟨by decide, by decide⟩, by decide⟩,
    ⟨⟨by decide, by decide⟩, by decide⟩⟩

theorem rem_iff_demo :
    ((Stores (leftRounded ⟨2, 0⟩ halfSecond) true
          ((nanosleep true ⟨2, 0⟩ true halfSecond).map failure) ∧
        Stores (leftRounded ⟨2, 0⟩ halfSecond) true
          (clockNanosleep true (.error 0) 0 0 ⟨2, 0⟩ true halfSecond)) ↔
      true = false ∨ halfSecond.interrupted = false ∨ (true = true ∧ NoBorrow ⟨2, 0⟩ halfSecond)) ∧
    ((Stores (leftExact ⟨2, 0⟩ halfSecond) true
          ((nanosleep true ⟨2, 0⟩ true halfSecond).map failure) ∧
        Stores (leftExact ⟨2, 0⟩ halfSecond) true
          (clockNanosleep true (.error 0) 0 0 ⟨2, 0⟩ true halfSecond)) ↔
      true = false ∨ halfSecond.interrupted = false ∨ (true = true ∧ NoBorrow ⟨2, 0⟩ halfSecond ∧
        ((1000 : ℤ) ∣ 0 ∨ elapsed halfSecond = requested ⟨2, 0⟩))) :=
  rem_iff true true ⟨2, 0⟩ halfSecond (.error 0) 0 halfSecond_ok.1 halfSecond_ok.2.1
    halfSecond_ok.2.2 (Or.inl rfl)

/-- 2 seconds minus half a second are stored as 2 seconds and -500000000 nanoseconds; a null
pointer is stored through. -/
theorem negative_nanoseconds :
    nanosleep true ⟨2, 0⟩ false halfSecond = none ∧
    ¬ Stores (leftRounded ⟨2, 0⟩ halfSecond) true
      ((nanosleep true ⟨2, 0⟩ true halfSecond).map failure) := by
  refine ⟨by decide, ?_⟩
  rintro ⟨err, stored, hout, hst⟩
  have hcall : (nanosleep true ⟨2, 0⟩ true halfSecond).map failure =
      some (EINTR, some ⟨2, -500000000⟩) := by decide
  rw [hcall] at hout
  obtain ⟨rfl, rfl⟩ := Prod.mk.inj (Option.some.inj hout)
  obtain ⟨t, ht, -, hneg, -⟩ := hst rfl rfl
  rw [← Option.some.inj ht] at hneg
  exact absurd hneg (by decide)

end Mintlib.Nanosleep
