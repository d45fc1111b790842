import Mathlib.Data.Nat.Bitwise
import Mathlib.Tactic.NormNum
import Mathlib.Algebra.BigOperators.Intervals
import Mathlib.Algebra.Order.BigOperators.Group.Finset

/-!
# Time stamps of files: `dostime.c` and `unixtime.c`

GEMDOS keeps the local time in two words. The time word has five bits for the hour, six for the
minute and five for half the second; the date word seven for the year from 1980 on, four for the
month and five for the day.
-/

namespace Mintlib.Dostime

/-- The members of `struct tm` that `mktime` reads. -/
structure Tm where
  sec : ℤ
  min : ℤ
  hour : ℤ
  mday : ℤ
  mon : ℤ
  year : ℤ
  isdst : ℤ
deriving DecidableEq

def dostime (localtime_r : ℤ → Option Tm) (t : ℤ) : BitVec 32 :=
  match localtime_r t with
  | none => 0
  | some ctm =>
    let time := BitVec.ofInt 32 ctm.hour <<< 11 ||| BitVec.ofInt 32 ctm.min <<< 5 |||
      (BitVec.ofInt 32 ctm.sec).sshiftRight 1
    let date := (BitVec.ofInt 32 (ctm.year - 80) &&& 0x7f) <<< 9
    let date := date ||| (BitVec.ofInt 32 (ctm.mon + 1) <<< 5 ||| BitVec.ofInt 32 ctm.mday)
    time <<< 16 ||| date

/-- What `__unixtime` hands to `mktime`. -/
def unpack (timestamp datestamp : BitVec 32) : Tm where
  sec := ((timestamp &&& 31) <<< 1).toInt
  min := ((timestamp >>> 5) &&& 63).toInt
  hour := ((timestamp >>> 11) &&& 31).toInt
  mday := (datestamp &&& 31).toInt
  mon := (((datestamp >>> 5) &&& 15) - 1).toInt
  year := ((80 : BitVec 32) + ((datestamp >>> 9) &&& 127)).toInt
  isdst := -1

def unixtime (mktime : Tm → ℤ) (timestamp datestamp : BitVec 32) : ℤ :=
  mktime (unpack timestamp datestamp)

/-- The first word of what `__dostime` returns. -/
def timeHalf (stamp : BitVec 32) : BitVec 32 := stamp >>> 16

def dateHalf (stamp : BitVec 32) : BitVec 32 := stamp &&& 0xffff

def isLeap (year : ℕ) : Bool :=
  (year + 1900) % 4 = 0 ∧ ((year + 1900) % 100 ≠ 0 ∨ (year + 1900) % 400 = 0)

def yearLength (year : ℕ) : ℕ := if isLeap year then 366 else 365

def monthLength (year mon : ℕ) : ℕ :=
  match mon with
  | 1 => if isLeap year then 29 else 28
  | 3 | 5 | 8 | 10 => 30
  | _ => 31

/-- The time of a day that the calendar has. -/
structure Calendar (tm : Tm) : Prop where
  sec : 0 ≤ tm.sec ∧ tm.sec < 60
  min : 0 ≤ tm.min ∧ tm.min < 60
  hour : 0 ≤ tm.hour ∧ tm.hour < 24
  mon : 0 ≤ tm.mon ∧ tm.mon < 12
  mday : 1 ≤ tm.mday ∧ tm.mday ≤ monthLength tm.year.toNat tm.mon.toNat
  year : 0 ≤ tm.year

/-- A 32-bit `time_t`. -/
def IsTime (t : ℤ) : Prop := -2 ^ 31 ≤ t ∧ t < 2 ^ 31

/-- A time zone without daylight saving time and without leap seconds: `mktime` and `localtime_r` are
inverse to each other, and `mktime` counts the seconds. For a time that it cannot represent `mktime`
returns -1. -/
structure Zone where
  localtime_r : ℤ → Option Tm
  mktime : Tm → ℤ
  calendar : ∀ t tm, IsTime t → localtime_r t = some tm → Calendar tm ∧ tm.isdst = 0
  mktime_localtime : ∀ t tm, IsTime t → localtime_r t = some tm →
    mktime { tm with isdst := -1 } = t
  localtime_mktime : ∀ tm, Calendar tm → 0 < mktime { tm with isdst := -1 } →
    localtime_r (mktime { tm with isdst := -1 }) = some { tm with isdst := 0 }
  mktime_isTime : ∀ tm, IsTime (mktime tm)
  mktime_sec : ∀ tm, Calendar tm → 0 < tm.sec → 0 < mktime tm →
    mktime { tm with sec := tm.sec - 1 } = mktime tm - 1

theorem toNat_or {a b : BitVec 32} {i k : ℕ} (ha : a.toNat = k * 2 ^ i) (hb : b.toNat < 2 ^ i) :
    (a ||| b).toNat = a.toNat + b.toNat := by
  rw [BitVec.toNat_or, ha, ← Nat.shiftLeft_eq, Nat.shiftLeft_add_eq_or_of_lt hb]

theorem toNat_shift {n i : ℕ} (hn : n * 2 ^ i < 2 ^ 32) (hk : n < 2 ^ 32) :
    (BitVec.ofNat 32 n <<< i).toNat = n * 2 ^ i := by
  rw [BitVec.toNat_shiftLeft, BitVec.toNat_ofNat, Nat.mod_eq_of_lt hk, Nat.shiftLeft_eq,
    Nat.mod_eq_of_lt hn]

theorem toNat_mask {a : BitVec 32} (n : ℕ) (hn : 2 ^ n - 1 < 2 ^ 32) :
    (a &&& BitVec.ofNat 32 (2 ^ n - 1)).toNat = a.toNat % 2 ^ n := by
  rw [BitVec.toNat_and, BitVec.toNat_ofNat, Nat.mod_eq_of_lt hn, Nat.and_two_pow_sub_one_eq_mod]

def timeWord (tm : Tm) : ℕ := tm.hour.toNat * 2048 + tm.min.toNat * 32 + tm.sec.toNat / 2

def dateWord (tm : Tm) : ℕ :=
  (tm.year - 80).toNat * 512 + (tm.mon + 1).toNat * 32 + tm.mday.toNat

theorem monthLength_le (year mon : ℕ) : monthLength year mon ≤ 31 := by
  have hfeb : (if isLeap year then 29 else 28) ≤ 31 := by split <;> omega
  unfold monthLength
  split
  · exact hfeb
  all_goals omega

theorem toNat_half {n : ℕ} (hn : n < 2 ^ 31) :
    ((BitVec.ofNat 32 n).sshiftRight 1).toNat = n / 2 := by
  rw [BitVec.sshiftRight_eq_of_msb_false]
  · rw [BitVec.toNat_ushiftRight, BitVec.toNat_ofNat, Nat.mod_eq_of_lt (by omega),
      Nat.shiftRight_eq_div_pow, pow_one]
  · rw [BitVec.msb_eq_decide, BitVec.toNat_ofNat]
    exact decide_eq_false (by omega)

theorem toNat_pack {hour min sec year mon mday : ℕ} (hhour : hour < 32) (hmin : min < 64)
    (hsec : sec < 64) (hyear : year < 128) (hmon : mon < 16) (hmday : mday < 32) :
    ((BitVec.ofNat 32 hour <<< 11 ||| BitVec.ofNat 32 min <<< 5 |||
      (BitVec.ofNat 32 sec).sshiftRight 1) <<< 16 |||
        ((BitVec.ofNat 32 year &&& BitVec.ofNat 32 (2 ^ 7 - 1)) <<< 9 |||
          (BitVec.ofNat 32 mon <<< 5 ||| BitVec.ofNat 32 mday))).toNat =
      (hour * 2048 + min * 32 + sec / 2) * 65536 + (year * 512 + mon * 32 + mday) := by
  have htime : (BitVec.ofNat 32 hour <<< 11 ||| BitVec.ofNat 32 min <<< 5 |||
      (BitVec.ofNat 32 sec).sshiftRight 1).toNat = hour * 2048 + min * 32 + sec / 2 := by
    have hhours : (BitVec.ofNat 32 hour <<< 11).toNat = hour * 2 ^ 11 :=
      toNat_shift (by omega) (by omega)
    have hmins : (BitVec.ofNat 32 min <<< 5).toNat = min * 2 ^ 5 :=
      toNat_shift (by omega) (by omega)
    have hsecs : ((BitVec.ofNat 32 sec).sshiftRight 1).toNat = sec / 2 := toNat_half (by omega)
    have hupper : (BitVec.ofNat 32 hour <<< 11 ||| BitVec.ofNat 32 min <<< 5).toNat =
        (hour * 64 + min) * 2 ^ 5 := by
      rw [toNat_or hhours (by omega), hhours, hmins]
      omega
    rw [toNat_or hupper (by omega), hupper, hsecs]
    omega
  have hdate : ((BitVec.ofNat 32 year &&& BitVec.ofNat 32 (2 ^ 7 - 1)) <<< 9 |||
      (BitVec.ofNat 32 mon <<< 5 ||| BitVec.ofNat 32 mday)).toNat =
      year * 512 + mon * 32 + mday := by
    have hmask : BitVec.ofNat 32 year &&& BitVec.ofNat 32 (2 ^ 7 - 1) = BitVec.ofNat 32 year := by
      apply BitVec.eq_of_toNat_eq
      rw [toNat_mask 7 (by decide), BitVec.toNat_ofNat, Nat.mod_eq_of_lt (by omega),
        Nat.mod_eq_of_lt (by omega)]
    have hyears : (BitVec.ofNat 32 year <<< 9).toNat = year * 2 ^ 9 :=
      toNat_shift (by omega) (by omega)
    have hmons : (BitVec.ofNat 32 mon <<< 5).toNat = mon * 2 ^ 5 :=
      toNat_shift (by omega) (by omega)
    have hdays : (BitVec.ofNat 32 mday).toNat = mday := by
      rw [BitVec.toNat_ofNat, Nat.mod_eq_of_lt (by omega)]
    have hlower : (BitVec.ofNat 32 mon <<< 5 ||| BitVec.ofNat 32 mday).toNat = mon * 32 + mday := by
      rw [toNat_or hmons (by omega), hmons, hdays]
      norm_num
    rw [hmask, toNat_or hyears (by omega), hyears, hlower]
    omega
  have hwords : (BitVec.ofNat 32 (hour * 2048 + min * 32 + sec / 2) <<< 16).toNat =
      (hour * 2048 + min * 32 + sec / 2) * 2 ^ 16 := toNat_shift (by omega) (by omega)
  rw [show BitVec.ofNat 32 hour <<< 11 ||| BitVec.ofNat 32 min <<< 5 |||
      (BitVec.ofNat 32 sec).sshiftRight 1 = BitVec.ofNat 32 (hour * 2048 + min * 32 + sec / 2) by
    rw [← htime, BitVec.ofNat_toNat, BitVec.setWidth_eq]]
  rw [toNat_or hwords (by omega), hwords, hdate]
  norm_num

theorem ofInt_eq {n : ℤ} (hn : 0 ≤ n) : BitVec.ofInt 32 n = BitVec.ofNat 32 n.toNat := by
  rw [← BitVec.ofInt_natCast, Int.toNat_of_nonneg hn]

theorem toNat_dostime {localtime_r : ℤ → Option Tm} {t : ℤ} {tm : Tm}
    (hlocal : localtime_r t = some tm) (hcal : Calendar tm) (hyear : 80 ≤ tm.year ∧ tm.year < 208) :
    (dostime localtime_r t).toNat = timeWord tm * 65536 + dateWord tm := by
  have hlength := monthLength_le tm.year.toNat tm.mon.toNat
  have hsec := hcal.sec
  have hmin := hcal.min
  have hhour := hcal.hour
  have hmon := hcal.mon
  have hmday := hcal.mday
  rw [dostime, hlocal, timeWord, dateWord]
  simp only
  rw [ofInt_eq hhour.1, ofInt_eq hmin.1, ofInt_eq hsec.1, ofInt_eq (show 0 ≤ tm.year - 80 by omega),
    ofInt_eq (show 0 ≤ tm.mon + 1 by omega), ofInt_eq (show 0 ≤ tm.mday by omega)]
  exact toNat_pack (by omega) (by omega) (by omega) (by omega) (by omega) (by omega)

theorem unpack_ofNat {timestamp datestamp : ℕ} (htime : timestamp < 2 ^ 16)
    (hdate : datestamp < 2 ^ 16) :
    unpack (BitVec.ofNat 32 timestamp) (BitVec.ofNat 32 datestamp) =
      ⟨(timestamp % 32 * 2 : ℕ), (timestamp / 32 % 64 : ℕ), (timestamp / 2048 % 32 : ℕ),
        (datestamp % 32 : ℕ), (datestamp / 32 % 16 : ℕ) - 1, (80 + datestamp / 512 % 128 : ℕ),
        -1⟩ := by
  -- a shift and a mask are a quotient and a remainder
  have hmask : ∀ (i k : ℕ) {n : ℕ}, 2 ^ k - 1 < 2 ^ 32 → n < 2 ^ 16 →
      (BitVec.ofNat 32 n >>> i) &&& BitVec.ofNat 32 (2 ^ k - 1) =
        BitVec.ofNat 32 (n / 2 ^ i % 2 ^ k) := by
    intro i k n hk hn
    apply BitVec.eq_of_toNat_eq
    have hle : n / 2 ^ i % 2 ^ k ≤ n := le_trans (Nat.mod_le _ _) (Nat.div_le_self _ _)
    rw [toNat_mask k hk, BitVec.toNat_ushiftRight, BitVec.toNat_ofNat, BitVec.toNat_ofNat,
      Nat.mod_eq_of_lt (show n < 2 ^ 32 by omega), Nat.shiftRight_eq_div_pow,
      Nat.mod_eq_of_lt (show n / 2 ^ i % 2 ^ k < 2 ^ 32 by omega)]
  have hint : ∀ {n : ℕ}, n < 2 ^ 31 → (BitVec.ofNat 32 n).toInt = n := by
    intro n hn
    rw [BitVec.toInt_eq_toNat_of_lt] <;> rw [BitVec.toNat_ofNat] <;> omega
  have hsec : ((BitVec.ofNat 32 timestamp &&& 31) <<< 1).toInt = (timestamp % 32 * 2 : ℕ) := by
    have h := hmask 0 5 (by decide) htime
    rw [BitVec.ushiftRight_zero, pow_zero, Nat.div_one] at h
    rw [← hint (by omega)]
    apply congrArg
    apply BitVec.eq_of_toNat_eq
    have hlt : timestamp % 2 ^ 5 * 2 ^ 1 < 2 ^ 32 := by omega
    rw [show (31 : BitVec 32) = BitVec.ofNat 32 (2 ^ 5 - 1) from rfl, h, toNat_shift hlt (by omega),
      BitVec.toNat_ofNat]
    omega
  have hmday : (BitVec.ofNat 32 datestamp &&& 31).toInt = (datestamp % 32 : ℕ) := by
    have h := hmask 0 5 (by decide) hdate
    rw [BitVec.ushiftRight_zero, pow_zero, Nat.div_one] at h
    rw [← hint (by omega)]
    exact congrArg _ h
  have hmin : ((BitVec.ofNat 32 timestamp >>> 5) &&& 63).toInt = (timestamp / 32 % 64 : ℕ) := by
    rw [← hint (by omega)]
    exact congrArg _ (hmask 5 6 (by decide) htime)
  have hhour : ((BitVec.ofNat 32 timestamp >>> 11) &&& 31).toInt = (timestamp / 2048 % 32 : ℕ) := by
    rw [← hint (by omega)]
    exact congrArg _ (hmask 11 5 (by decide) htime)
  have hmonth : (((BitVec.ofNat 32 datestamp >>> 5) &&& 15) - 1).toInt =
      (datestamp / 32 % 16 : ℕ) - 1 := by
    rw [show (15 : BitVec 32) = BitVec.ofNat 32 (2 ^ 4 - 1) from rfl, hmask 5 4 (by decide) hdate,
      BitVec.toInt_sub, hint (by omega), show (1 : BitVec 32).toInt = 1 from rfl]
    exact Int.bmod_eq_of_le (by omega) (by omega)
  have hyear : ((80 : BitVec 32) + ((BitVec.ofNat 32 datestamp >>> 9) &&& 127)).toInt =
      (80 + datestamp / 512 % 128 : ℕ) := by
    rw [← hint (by omega), show (127 : BitVec 32) = BitVec.ofNat 32 (2 ^ 7 - 1) from rfl,
      hmask 9 7 (by decide) hdate]
    apply congrArg
    apply BitVec.eq_of_toNat_eq
    simp only [BitVec.toNat_add, BitVec.ofNat_eq_ofNat, BitVec.toNat_ofNat]
    omega
  rw [unpack, hsec, hmin, hhour, hmday, hmonth, hyear]

theorem timeWord_lt {tm : Tm} (hcal : Calendar tm) : timeWord tm < 2 ^ 16 := by
  have hsec := hcal.sec
  have hmin := hcal.min
  have hhour := hcal.hour
  rw [timeWord]
  omega

theorem dateWord_lt {tm : Tm} (hcal : Calendar tm) (hyear : 80 ≤ tm.year ∧ tm.year < 208) :
    dateWord tm < 2 ^ 16 := by
  have hlength := monthLength_le tm.year.toNat tm.mon.toNat
  have hmon := hcal.mon
  have hmday := hcal.mday
  rw [dateWord]
  omega

theorem halves_dostime {localtime_r : ℤ → Option Tm} {t : ℤ} {tm : Tm}
    (hlocal : localtime_r t = some tm) (hcal : Calendar tm) (hyear : 80 ≤ tm.year ∧ tm.year < 208) :
    timeHalf (dostime localtime_r t) = BitVec.ofNat 32 (timeWord tm) ∧
      dateHalf (dostime localtime_r t) = BitVec.ofNat 32 (dateWord tm) := by
  have hstamp := toNat_dostime hlocal hcal hyear
  have htime := timeWord_lt hcal
  have hdate := dateWord_lt hcal hyear
  constructor
  · apply BitVec.eq_of_toNat_eq
    rw [timeHalf, BitVec.toNat_ushiftRight, BitVec.toNat_ofNat, hstamp, Nat.shiftRight_eq_div_pow]
    omega
  · apply BitVec.eq_of_toNat_eq
    rw [dateHalf, show (0xffff : BitVec 32) = BitVec.ofNat 32 (2 ^ 16 - 1) from rfl,
      toNat_mask 16 (by decide), BitVec.toNat_ofNat, hstamp]
    omega

theorem unpack_dostime {localtime_r : ℤ → Option Tm} {t : ℤ} {tm : Tm}
    (hlocal : localtime_r t = some tm) (hcal : Calendar tm) (hyear : 80 ≤ tm.year ∧ tm.year < 208) :
    unpack (timeHalf (dostime localtime_r t)) (dateHalf (dostime localtime_r t)) =
      { tm with sec := tm.sec - tm.sec % 2, isdst := -1 } := by
  have hlength := monthLength_le tm.year.toNat tm.mon.toNat
  have hsec := hcal.sec
  have hmin := hcal.min
  have hhour := hcal.hour
  have hmon := hcal.mon
  have hmday := hcal.mday
  obtain ⟨htime, hdate⟩ := halves_dostime hlocal hcal hyear
  rw [htime, hdate, unpack_ofNat (timeWord_lt hcal) (dateWord_lt hcal hyear), Tm.mk.injEq,
    timeWord, dateWord]
  refine ⟨?_, ?_, ?_, ?_, ?_, ?_, rfl⟩ <;> omega

theorem words_unpack {timestamp datestamp : BitVec 16}
    (hcal : Calendar (unpack (timestamp.setWidth 32) (datestamp.setWidth 32))) :
    timeWord (unpack (timestamp.setWidth 32) (datestamp.setWidth 32)) = timestamp.toNat ∧
      dateWord (unpack (timestamp.setWidth 32) (datestamp.setWidth 32)) = datestamp.toNat ∧
      80 ≤ (unpack (timestamp.setWidth 32) (datestamp.setWidth 32)).year ∧
      (unpack (timestamp.setWidth 32) (datestamp.setWidth 32)).year < 208 := by
  have hset : ∀ word : BitVec 16, word.setWidth 32 = BitVec.ofNat 32 word.toNat := by
    intro word
    apply BitVec.eq_of_toNat_eq
    rw [BitVec.toNat_setWidth, BitVec.toNat_ofNat]
  have htime := timestamp.isLt
  have hdate := datestamp.isLt
  have hunpack := unpack_ofNat htime hdate
  rw [← hset, ← hset] at hunpack
  have hmon := hcal.mon.1
  rw [hunpack] at hmon ⊢
  rw [timeWord, dateWord]
  simp only at hmon ⊢
  refine ⟨?_, ?_, ?_, ?_⟩ <;> omega

theorem unixtime_dostime (zone : Zone) {t : ℤ} {tm : Tm} (ht : IsTime t) (hpos : 0 < t)
    (hlocal : zone.localtime_r t = some tm) (hyear : 80 ≤ tm.year ∧ tm.year < 208) :
    unixtime zone.mktime (timeHalf (dostime zone.localtime_r t))
      (dateHalf (dostime zone.localtime_r t)) = t - tm.sec % 2 := by
  have hcal := (zone.calendar t tm ht hlocal).1
  have hmktime := zone.mktime_localtime t tm ht hlocal
  rw [unixtime, unpack_dostime hlocal hcal hyear]
  rcases Int.emod_two_eq_zero_or_one tm.sec with heven | hodd
  · rw [heven, Int.sub_zero, Int.sub_zero]
    exact hmktime
  · have hsec := hcal.sec
    have hcal' : Calendar { tm with isdst := -1 } :=
      ⟨hcal.sec, hcal.min, hcal.hour, hcal.mon, hcal.mday, hcal.year⟩
    have hless := zone.mktime_sec { tm with isdst := -1 } hcal' (show 0 < tm.sec by omega)
      (by rw [hmktime]; exact hpos)
    rw [hodd, ← hmktime]
    exact hless

theorem dostime_unixtime (zone : Zone) {timestamp datestamp : BitVec 16}
    (hcal : Calendar (unpack (timestamp.setWidth 32) (datestamp.setWidth 32)))
    (hpos : 0 < unixtime zone.mktime (timestamp.setWidth 32) (datestamp.setWidth 32)) :
    timeHalf (dostime zone.localtime_r
        (unixtime zone.mktime (timestamp.setWidth 32) (datestamp.setWidth 32))) =
      timestamp.setWidth 32 ∧
    dateHalf (dostime zone.localtime_r
        (unixtime zone.mktime (timestamp.setWidth 32) (datestamp.setWidth 32))) =
      datestamp.setWidth 32 := by
  have hlocal := zone.localtime_mktime (unpack (timestamp.setWidth 32) (datestamp.setWidth 32)) hcal
    hpos
  obtain ⟨htime, hdate, hyear⟩ := words_unpack hcal
  have hcal' : Calendar { unpack (timestamp.setWidth 32) (datestamp.setWidth 32) with isdst := 0 } :=
    ⟨hcal.sec, hcal.min, hcal.hour, hcal.mon, hcal.mday, hcal.year⟩
  have hhalves := halves_dostime hlocal hcal' hyear
  have hword : ∀ word : BitVec 16, BitVec.ofNat 32 word.toNat = word.setWidth 32 := by
    intro word
    apply BitVec.eq_of_toNat_eq
    rw [BitVec.toNat_setWidth, BitVec.toNat_ofNat]
  exact ⟨hhalves.1.trans ((congrArg _ htime).trans (hword timestamp)),
    hhalves.2.trans ((congrArg _ hdate).trans (hword datestamp))⟩

def split (length : ℕ → ℕ) : ℕ → ℕ → ℕ → ℕ × ℕ
  | 0, i, rest => (i, rest)
  | fuel + 1, i, rest =>
    if rest < length i then (i, rest) else split length fuel (i + 1) (rest - length i)

def before (length : ℕ → ℕ) (i : ℕ) : ℕ := ∑ k ∈ Finset.range i, length k

theorem split_spec {length : ℕ → ℕ} (hlength : ∀ i, 0 < length i) {fuel i rest : ℕ}
    (hfuel : rest < fuel) :
    before length (split length fuel i rest).1 + (split length fuel i rest).2 =
        before length i + rest ∧
      (split length fuel i rest).2 < length (split length fuel i rest).1 := by
  induction fuel generalizing i rest with
  | zero => omega
  | succ fuel ih =>
    rw [split]
    split_ifs with hrest
    · exact ⟨rfl, hrest⟩
    · have hi := hlength i
      have h := @ih (i + 1) (rest - length i) (by omega)
      rw [show before length (i + 1) = before length i + length i from Finset.sum_range_succ _ _] at h
      exact ⟨by omega, h.2⟩

theorem before_le (length : ℕ → ℕ) {i j : ℕ} (hij : i < j) :
    before length i + length i ≤ before length j := by
  rw [before, ← Finset.sum_range_succ]
  apply Finset.sum_le_sum_of_subset
  exact Finset.range_subset_range.mpr hij

theorem split_unique {length : ℕ → ℕ} {i j rest rest' : ℕ} (hrest : rest < length i)
    (hrest' : rest' < length j) (hsum : before length i + rest = before length j + rest') :
    i = j ∧ rest = rest' := by
  rcases Nat.lt_trichotomy i j with hij | rfl | hij
  · have h := before_le length hij
    omega
  · exact ⟨rfl, by omega⟩
  · have h := before_le length hij
    omega

theorem yearLength_pos (year : ℕ) : 0 < yearLength year := by
  unfold yearLength
  split <;> omega

theorem monthLength_pos (year mon : ℕ) : 0 < monthLength year mon := by
  have hfeb : 0 < (if isLeap year then 29 else 28) := by split <;> omega
  unfold monthLength
  split
  · exact hfeb
  all_goals omega

theorem before_months (year : ℕ) : before (monthLength year) 12 = yearLength year := by
  unfold before yearLength
  simp only [Finset.sum_range_succ, Finset.sum_range_zero, monthLength]
  split <;> rfl

/-- The seconds from the first day of 1900 to the first day of 1970. -/
abbrev EPOCH : ℤ := 2208988800

def breakDown (seconds : ℕ) : Tm :=
  let (year, yday) := split yearLength (seconds / 86400 + 1) 0 (seconds / 86400)
  let (mon, mday) := split (monthLength year) (yday + 1) 0 yday
  ⟨(seconds % 60 : ℕ), (seconds / 60 % 60 : ℕ), (seconds / 3600 % 24 : ℕ), mday + 1, mon, year, 0⟩

def count (tm : Tm) : ℤ :=
  (before yearLength tm.year.toNat + before (monthLength tm.year.toNat) tm.mon.toNat +
    (tm.mday - 1)) * 86400 + tm.hour * 3600 + tm.min * 60 + tm.sec

theorem breakDown_spec (seconds : ℕ) : ∃ year yday mon mday : ℕ,
    before yearLength year + yday = seconds / 86400 ∧ yday < yearLength year ∧
    before (monthLength year) mon + mday = yday ∧ mday < monthLength year mon ∧ mon < 12 ∧
    breakDown seconds = ⟨(seconds % 60 : ℕ), (seconds / 60 % 60 : ℕ), (seconds / 3600 % 24 : ℕ),
      mday + 1, mon, year, 0⟩ := by
  obtain ⟨hyear, hyday⟩ := split_spec yearLength_pos (i := 0) (Nat.lt_succ_self (seconds / 86400))
  have hbreak : breakDown seconds = breakDown seconds := rfl
  conv_rhs at hbreak => rw [breakDown]
  simp only at hbreak
  generalize split yearLength (seconds / 86400 + 1) 0 (seconds / 86400) = years at *
  obtain ⟨hmon, hmday⟩ := split_spec (monthLength_pos years.1) (i := 0) (Nat.lt_succ_self years.2)
  generalize split (monthLength years.1) (years.2 + 1) 0 years.2 = months at *
  simp only [before, Finset.sum_range_zero, Nat.zero_add] at hyear hmon
  refine ⟨years.1, years.2, months.1, months.2, hyear, hyday, hmon, hmday, ?_, hbreak⟩
  -- the day lies in the year, and so in one of its months
  by_contra hlate
  have hle : before (monthLength years.1) 12 ≤ before (monthLength years.1) months.1 := by
    rcases Nat.eq_or_lt_of_le (Nat.le_of_not_lt hlate) with heq | hlt
    · rw [heq]
    · exact le_trans (Nat.le_add_right _ _) (before_le _ hlt)
  rw [before_months] at hle
  have hbefore : before (monthLength years.1) months.1 + months.2 = years.2 := hmon
  omega

theorem calendar_breakDown (seconds : ℕ) : Calendar (breakDown seconds) := by
  obtain ⟨year, yday, mon, mday, -, -, -, hmday, hmon, hbreak⟩ := breakDown_spec seconds
  rw [hbreak]
  refine ⟨?_, ?_, ?_, ?_, ?_, ?_⟩
  all_goals simp only [Int.toNat_natCast]; omega

theorem count_breakDown (seconds : ℕ) : count (breakDown seconds) = seconds := by
  obtain ⟨year, yday, mon, mday, hyear, -, hyday, -, -, hbreak⟩ := breakDown_spec seconds
  rw [hbreak, count]
  simp only [Int.toNat_natCast]
  omega

theorem breakDown_count {tm : Tm} (hcal : Calendar tm) :
    0 ≤ count tm ∧ breakDown (count tm).toNat = { tm with isdst := 0 } := by
  have hsec := hcal.sec
  have hmin := hcal.min
  have hhour := hcal.hour
  have hmon := hcal.mon
  have hmday := hcal.mday
  have hyear := hcal.year
  have hcount : count tm = (before yearLength tm.year.toNat +
    before (monthLength tm.year.toNat) tm.mon.toNat + (tm.mday - 1)) * 86400 + tm.hour * 3600 +
      tm.min * 60 + tm.sec := rfl
  have hnonneg : 0 ≤ count tm := by omega
  refine ⟨hnonneg, ?_⟩
  obtain ⟨year, yday, mon, mday, hyears, hyday, hmons, hmdays, hmonlt, hbreak⟩ :=
    breakDown_spec (count tm).toNat
  have hlast : before (monthLength tm.year.toNat) tm.mon.toNat + (tm.mday - 1).toNat <
      yearLength tm.year.toNat := by
    rw [← before_months]
    have hle : before (monthLength tm.year.toNat) tm.mon.toNat +
        monthLength tm.year.toNat tm.mon.toNat ≤ before (monthLength tm.year.toNat) 12 :=
      before_le _ (by omega)
    omega
  obtain ⟨rfl, hydays⟩ := split_unique hyday hlast (by omega)
  obtain ⟨rfl, hday⟩ := split_unique hmdays
    (show (tm.mday - 1).toNat < monthLength tm.year.toNat tm.mon.toNat by omega) (by omega)
  rw [hbreak, Tm.mk.injEq]
  refine ⟨?_, ?_, ?_, ?_, ?_, ?_, rfl⟩ <;> omega

def fixedLocaltime (offset t : ℤ) : Option Tm := some (breakDown (t + offset + EPOCH).toNat)

instance (tm : Tm) : Decidable (Calendar tm) :=
  decidable_of_iff ((0 ≤ tm.sec ∧ tm.sec < 60) ∧ (0 ≤ tm.min ∧ tm.min < 60) ∧
    (0 ≤ tm.hour ∧ tm.hour < 24) ∧ (0 ≤ tm.mon ∧ tm.mon < 12) ∧
    (1 ≤ tm.mday ∧ tm.mday ≤ monthLength tm.year.toNat tm.mon.toNat) ∧ 0 ≤ tm.year)
    ⟨fun ⟨a, b, c, d, e, f⟩ => ⟨a, b, c, d, e, f⟩, fun ⟨a, b, c, d, e, f⟩ => ⟨a, b, c, d, e, f⟩⟩

instance (t : ℤ) : Decidable (IsTime t) := inferInstanceAs (Decidable (_ ∧ _))

def fixedMktime (offset : ℤ) (tm : Tm) : ℤ :=
  if Calendar tm ∧ IsTime (count tm - EPOCH - offset) then count tm - EPOCH - offset else -1

theorem count_congr (tm : Tm) (isdst : ℤ) : count { tm with isdst := isdst } = count tm := rfl

theorem Calendar.isdst {tm : Tm} (hcal : Calendar tm) (isdst : ℤ) :
    Calendar { tm with isdst := isdst } :=
  ⟨hcal.sec, hcal.min, hcal.hour, hcal.mon, hcal.mday, hcal.year⟩

theorem fixedMktime_pos {offset : ℤ} {tm : Tm} (hpos : 0 < fixedMktime offset tm) :
    fixedMktime offset tm = count tm - EPOCH - offset ∧ IsTime (count tm - EPOCH - offset) := by
  rw [fixedMktime] at hpos ⊢
  split_ifs at hpos ⊢ with h
  · exact ⟨rfl, h.2⟩
  · omega

/-- The offset of `TZ` is less than seven days. -/
def fixed (offset : ℤ) (hoffset : -604800 < offset ∧ offset < 604800) : Zone where
  localtime_r := fixedLocaltime offset
  mktime := fixedMktime offset
  calendar := by
    rintro t tm - hlocal
    obtain rfl := Option.some.inj hlocal
    refine ⟨calendar_breakDown _, ?_⟩
    obtain ⟨year, yday, mon, mday, -, -, -, -, -, hbreak⟩ :=
      breakDown_spec (t + offset + EPOCH).toNat
    rw [hbreak]
  mktime_localtime := by
    intro t tm ht hlocal
    obtain rfl := Option.some.inj hlocal
    have hlow := ht.1
    have hepoch : EPOCH = 2208988800 := rfl
    have hcount := count_breakDown (t + offset + EPOCH).toNat
    have ht' : count (breakDown (t + offset + EPOCH).toNat) - EPOCH - offset = t := by omega
    rw [fixedMktime, count_congr, ht', if_pos ⟨(calendar_breakDown _).isdst _, ht⟩]
  localtime_mktime := by
    intro tm hcal hpos
    obtain ⟨hcount, hbreak⟩ := breakDown_count hcal
    rw [(fixedMktime_pos hpos).1, count_congr, fixedLocaltime,
      show count tm - EPOCH - offset + offset + EPOCH = count tm by omega, hbreak]
  mktime_isTime := by
    intro tm
    rw [fixedMktime]
    split_ifs with h
    · exact h.2
    · exact ⟨by omega, by omega⟩
  mktime_sec := by
    intro tm hcal hsec hpos
    obtain ⟨hmktime, htime⟩ := fixedMktime_pos hpos
    rw [hmktime] at hpos ⊢
    have hsixty := hcal.sec.2
    have hcal' : Calendar { tm with sec := tm.sec - 1 } :=
      ⟨⟨show 0 ≤ tm.sec - 1 by omega, show tm.sec - 1 < 60 by omega⟩, hcal.min, hcal.hour,
        hcal.mon, hcal.mday, hcal.year⟩
    have hcount : count { tm with sec := tm.sec - 1 } = count tm - 1 := by
      rw [count, count]
      simp only
      omega
    have htop := htime.2
    rw [fixedMktime, hcount, if_pos ⟨hcal', by omega, by omega⟩]
    omega

/-- A time goes through the two words down to the even second of the local time, which is the even
second of the time itself if the two differ by an even number; and every pair of words comes back. -/
theorem stamps_round_trip (zone : Zone) :
    (∀ t tm, IsTime t → 0 < t → zone.localtime_r t = some tm → 80 ≤ tm.year ∧ tm.year < 208 →
      unixtime zone.mktime (timeHalf (dostime zone.localtime_r t))
          (dateHalf (dostime zone.localtime_r t)) = t - tm.sec % 2 ∧
        (unixtime zone.mktime (timeHalf (dostime zone.localtime_r t))
            (dateHalf (dostime zone.localtime_r t)) = t - t % 2 ↔ tm.sec % 2 = t % 2)) ∧
    ∀ timestamp datestamp : BitVec 16,
      Calendar (unpack (timestamp.setWidth 32) (datestamp.setWidth 32)) →
      0 < unixtime zone.mktime (timestamp.setWidth 32) (datestamp.setWidth 32) →
      timeHalf (dostime zone.localtime_r
          (unixtime zone.mktime (timestamp.setWidth 32) (datestamp.setWidth 32))) =
        timestamp.setWidth 32 ∧
      dateHalf (dostime zone.localtime_r
          (unixtime zone.mktime (timestamp.setWidth 32) (datestamp.setWidth 32))) =
        datestamp.setWidth 32 := by
  constructor
  · intro t tm ht hpos hlocal hyear
    have hround := unixtime_dostime zone ht hpos hlocal hyear
    refine ⟨hround, ?_⟩
    rw [hround]
    constructor <;> omega
  · intro timestamp datestamp hcal hpos
    exact dostime_unixtime zone hcal hpos

theorem stamps_round_trip_demo :
    unixtime (fixed 3600 (by decide)).mktime
      (timeHalf (dostime (fixed 3600 (by decide)).localtime_r 1000000001))
      (dateHalf (dostime (fixed 3600 (by decide)).localtime_r 1000000001)) = 1000000000 :=
  ((stamps_round_trip (fixed 3600 (by decide))).1 1000000001 ⟨41, 46, 2, 9, 8, 101, 0⟩
    (by decide) (by decide) (by decide +kernel) (by decide)).1

theorem odd_offset_rounds :
    unixtime (fixed 1 (by decide)).mktime
      (timeHalf (dostime (fixed 1 (by decide)).localtime_r 1000000000))
      (dateHalf (dostime (fixed 1 (by decide)).localtime_r 1000000000)) = 999999999 ∧
    (999999999 : ℤ) ≠ 1000000000 - 1000000000 % 2 := by
  decide +kernel

end Mintlib.Dostime
