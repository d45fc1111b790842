import Mintlib.Timeouts

/-!
# `sleep.c`: waiting for seconds with an alarm of the caller's

`sleep` takes the caller's alarm away, waits for its own one, and gives back what is left
of the other. The clock counts `CLOCKS_PER_SEC` ticks in a second.
-/

namespace Mintlib.Sleep

open Timeouts

abbrev CLOCKS_PER_SEC : ℕ := 200
abbrev LONG_MAX : ℕ := 2 ^ 31 - 1
abbrev SIGALRM : ℕ := 14

/-- What the kernel keeps for a process: the seconds until its alarm (0 for none), the
handler of `SIGALRM`, the blocked signals, and whether `SIGALRM` was posted to it. -/
structure Process (H : Type) where
  alarm : ℕ
  handler : H
  sigmask : BitVec 32
  posted : Bool
deriving DecidableEq

section Calls

variable {H : Type}

def Talarm (p : Process H) (secs : ℕ) : ℕ × Process H := (p.alarm, { p with alarm := secs })

def Psigblock (p : Process H) (mask : BitVec 32) : BitVec 32 × Process H :=
  (p.sigmask, { p with sigmask := p.sigmask ||| mask })

def Psigsetmask (p : Process H) (mask : BitVec 32) : Process H := { p with sigmask := mask }

/-- `Psignal (SIGALRM, handler)`, which unblocks the signal. -/
def Psignal (p : Process H) (handler : H) : H × Process H :=
  (p.handler, { p with handler := handler, sigmask := p.sigmask &&& ~~~BitVec.twoPow 32 SIGALRM })

/-- `Pkill (Pgetpid (), SIGALRM)`. -/
def Pkill (p : Process H) : Process H := { p with posted := true }

/-- `_alarm`: seconds that are milliseconds in a `long`. -/
def alarm (p : Process H) (secs : ℕ) : Process H :=
  (Talarm p (if LONG_MAX / 1000 < secs then LONG_MAX / 1000 else secs)).2

/-- `stop`, an `unsigned long` that becomes a `long`. -/
def stopAt (clock : ℤ) (n : ℕ) : ℤ := Int.bmod (clock + n * CLOCKS_PER_SEC) (2 ^ 32)

/-- `remain`, when the clock shows `clock + elapsed`. -/
def remaining (clock : ℤ) (n elapsed : ℕ) : ℤ :=
  (Int.bmod (stopAt clock n - Int.bmod (clock + elapsed) (2 ^ 32)) (2 ^ 32)).tdiv CLOCKS_PER_SEC

/-- `sleep` with MiNT: `elapsed` ticks pass in `Psigpause`, which ends with the alarm or
with another signal. -/
def sleep (alarm_catch : H) (clock : ℤ) (elapsed n : ℕ) (p : Process H) : ℕ × Process H :=
  if n = 0 then (0, p)
  else
    let (alarm_sec, p) := Talarm p 0
    let (old_sigmask, p) := Psigblock p (~~~0)
    let (old_alarm_func, p) := Psignal p alarm_catch
    let (_, p) := Psigblock p (~~~0)
    let p := if alarm_sec ≠ 0 ∧ alarm_sec < n then alarm p alarm_sec else alarm p n
    -- here `Psigpause` waits
    let p := alarm p 0
    let (_, p) := Psignal p alarm_catch
    let (_, p) := Psigblock p (~~~0)
    let remain := remaining clock n elapsed
    let p :=
      if alarm_sec ≠ 0 then
        -- `alarm_sec` is unsigned, so it is never below 0
        let alarm_sec := ((alarm_sec - (n - remain)) % 2 ^ 32).toNat
        if alarm_sec ≤ 0 then Pkill p else alarm p alarm_sec
      else p
    let (_, p) := Psignal p old_alarm_func
    let p := Psigsetmask p old_sigmask
    ((if 0 < remain then remain.toNat else 0), p)

/-- `sleep` without MiNT waits in a loop, and there are no alarms. -/
def sleepTos (p : Process H) : ℕ × Process H := (0, p)

def busyWait (clock : ℤ) (n : ℕ) : ℕ := busyTicks clock (stopAt clock n)

/-- The whole seconds that are left of `n`, not below 0. -/
def secondsLeft (n elapsed : ℕ) : ℕ := (n * CLOCKS_PER_SEC - elapsed) / CLOCKS_PER_SEC

/-- The alarm is as it should be after `elapsed` ticks: there was none and there is none; it was
posted, as its time is over; or it is armed for no longer than before. -/
structure SleepOk (n elapsed : ℕ) (p : Process H) (out : ℕ × Process H) : Prop where
  ret : out.1 = secondsLeft n elapsed
  alarm : (p.alarm = 0 ∧ out.2.alarm = 0 ∧ out.2.posted = false) ∨
    (out.2.posted = true ∧ out.2.alarm = 0 ∧ p.alarm * CLOCKS_PER_SEC ≤ elapsed) ∨
    (out.2.posted = false ∧ 0 < out.2.alarm ∧ out.2.alarm ≤ p.alarm)
  handler : out.2.handler = p.handler
  sigmask : out.2.sigmask = p.sigmask

/-- The alarm of the caller survives: it has none; the wait ends a whole second before it
or exactly with it, or after the `n` seconds and less than a second after it; or it is the
longest alarm there is. -/
def AlarmKept (n elapsed alarm : ℕ) : Prop :=
  alarm = 0 ∨
  (elapsed ≤ n * CLOCKS_PER_SEC ∧
    (elapsed + CLOCKS_PER_SEC ≤ alarm * CLOCKS_PER_SEC ∨ elapsed = alarm * CLOCKS_PER_SEC)) ∨
  (n * CLOCKS_PER_SEC < elapsed ∧ elapsed < (alarm + 1) * CLOCKS_PER_SEC) ∨
  (LONG_MAX / 1000 ≤ alarm ∧ alarm * CLOCKS_PER_SEC < elapsed)

variable {n elapsed : ℕ} {clock : ℤ} {p : Process H} {alarm_catch : H}

theorem remaining_eq (clock : ℤ) (n elapsed : ℕ) : remaining clock n elapsed =
    (Int.bmod (n * CLOCKS_PER_SEC - elapsed) (2 ^ 32)).tdiv CLOCKS_PER_SEC := by
  have hdiff : clock + n * CLOCKS_PER_SEC - (clock + elapsed) = n * CLOCKS_PER_SEC - elapsed := by
    ring
  unfold remaining stopAt
  rw [Int.sub_bmod_bmod, Int.bmod_sub_bmod, hdiff]

/-- The seconds that have gone by for `sleep`: a second counts when it has begun, and after
the time is over when it has ended. -/
def gone (n elapsed : ℕ) : ℕ :=
  if elapsed ≤ n * CLOCKS_PER_SEC then (elapsed + 199) / CLOCKS_PER_SEC
  else elapsed / CLOCKS_PER_SEC

theorem remaining_of_lt (he : elapsed < 2 ^ 31) (hn : n * CLOCKS_PER_SEC < elapsed + 2 ^ 31) :
    remaining clock n elapsed = (n : ℤ) - gone n elapsed := by
  have hcps : CLOCKS_PER_SEC = 200 := rfl
  rw [remaining_eq]
  unfold gone
  rw [hcps] at hn ⊢
  rw [Int.bmod_eq_of_le (by push_cast; omega) (by push_cast; omega)]
  by_cases hle : elapsed ≤ n * 200
  · rw [if_pos hle, Int.tdiv_eq_ediv_of_nonneg (by push_cast; omega)]
    push_cast
    omega
  · have hneg : (n : ℤ) * (200 : ℕ) - elapsed = -((elapsed : ℤ) - n * 200) := by
      push_cast
      ring
    rw [if_neg hle, hneg, Int.neg_tdiv, Int.tdiv_eq_ediv_of_nonneg (by omega)]
    push_cast
    omega

theorem remaining_lt (hn : elapsed + 2 ^ 31 ≤ n * CLOCKS_PER_SEC) :
    remaining clock n elapsed < secondsLeft n elapsed := by
  have hcps : CLOCKS_PER_SEC = 200 := rfl
  rw [remaining_eq]
  unfold secondsLeft
  rw [hcps] at hn ⊢
  set x := Int.bmod ((n : ℤ) * (200 : ℕ) - elapsed) (2 ^ 32) with hx
  have hround : x ≤ n * 200 - elapsed - 2 ^ 32 := by
    have hdef := Int.bmod_def ((n : ℤ) * (200 : ℕ) - elapsed) (2 ^ 32)
    rw [← hx] at hdef
    push_cast at hdef
    split at hdef <;> omega
  by_cases h0 : 0 ≤ x
  · rw [Int.tdiv_eq_ediv_of_nonneg h0]
    push_cast
    omega
  · have hneg : x.tdiv ((200 : ℕ) : ℤ) = -((-x) / 200) := by
      rw [← Int.tdiv_eq_ediv_of_nonneg (by omega), ← Int.neg_tdiv, neg_neg]
      rfl
    rw [hneg]
    omega

theorem sleep_eq (hn : n ≠ 0) {left : ℕ}
    (hleft : (((p.alarm : ℤ) - (n - remaining clock n elapsed)) % 2 ^ 32).toNat = left) :
    sleep alarm_catch clock elapsed n p =
    ((if 0 < remaining clock n elapsed then (remaining clock n elapsed).toNat else 0),
      { alarm := if p.alarm ≠ 0 ∧ left ≠ 0 then min left (LONG_MAX / 1000) else 0
        handler := p.handler
        sigmask := p.sigmask
        posted := if p.alarm ≠ 0 ∧ left = 0 then true else p.posted }) := by
  have hnone : ∀ q : Process H, alarm q 0 = { q with alarm := 0 } := fun q => rfl
  have hsome : ∀ (q : Process H) (secs : ℕ),
      alarm q secs = { q with alarm := min secs (LONG_MAX / 1000) } := by
    intro q secs
    unfold alarm Talarm
    simp only
    by_cases hlt : LONG_MAX / 1000 < secs
    · rw [if_pos hlt, min_eq_right hlt.le]
    · rw [if_neg hlt, min_eq_left (not_lt.mp hlt)]
  unfold sleep
  rw [if_neg hn]
  simp only [Talarm, Psigblock, Psigsetmask, Psignal, Pkill, hnone, nonpos_iff_eq_zero, hleft]
  by_cases ha : p.alarm = 0
  · simp [ha, hsome]
  · by_cases hz : left = 0
    · simp only [ha, hz, ne_eq, not_false_eq_true, not_true_eq_false, and_false, and_self,
        if_true, if_false]
    · simp only [ha, hz, ne_eq, not_false_eq_true, and_self, and_false, if_true,
        if_false, hsome]
      split_ifs <;> rfl

theorem left_eq {alarm : ℕ} (ha : alarm < 2 ^ 31) (he : elapsed < 2 ^ 31)
    (hn : n * CLOCKS_PER_SEC < elapsed + 2 ^ 31) :
    (((alarm : ℤ) - (n - remaining clock n elapsed)) % 2 ^ 32).toNat =
      if gone n elapsed ≤ alarm then alarm - gone n elapsed
      else 2 ^ 32 - (gone n elapsed - alarm) := by
  have hgone : gone n elapsed < 2 ^ 31 := by
    unfold gone
    have hcps : CLOCKS_PER_SEC = 200 := rfl
    rw [hcps]
    split_ifs <;> omega
  rw [remaining_of_lt he hn]
  split_ifs with hle <;> omega

theorem ret_eq (he : elapsed < 2 ^ 31) (hn : n * CLOCKS_PER_SEC < elapsed + 2 ^ 31) :
    (if 0 < remaining clock n elapsed then (remaining clock n elapsed).toNat else 0) =
      secondsLeft n elapsed := by
  have hcps : CLOCKS_PER_SEC = 200 := rfl
  rw [remaining_of_lt he hn]
  unfold secondsLeft gone
  rw [hcps]
  by_cases hle : elapsed ≤ n * 200
  · rw [if_pos hle]
    split_ifs <;> omega
  · rw [if_neg hle]
    split_ifs <;> omega

theorem ret_ne (hn : elapsed + 2 ^ 31 ≤ n * CLOCKS_PER_SEC) :
    (if 0 < remaining clock n elapsed then (remaining clock n elapsed).toNat else 0) ≠
      secondsLeft n elapsed := by
  have hlt : remaining clock n elapsed < secondsLeft n elapsed := remaining_lt hn
  have hpos : 0 < secondsLeft n elapsed := by
    have hcps : CLOCKS_PER_SEC = 200 := rfl
    unfold secondsLeft
    rw [hcps] at hn ⊢
    omega
  split_ifs <;> omega

theorem alarm_iff {alarm : ℕ} (h0 : alarm ≠ 0) (ha : alarm < 2 ^ 31) (he : elapsed < 2 ^ 31)
    (left : ℕ) (hleft : left = if gone n elapsed ≤ alarm then alarm - gone n elapsed
      else 2 ^ 32 - (gone n elapsed - alarm)) :
    ((left = 0 ∧ alarm * CLOCKS_PER_SEC ≤ elapsed) ∨
      (left ≠ 0 ∧ min left (LONG_MAX / 1000) ≤ alarm)) ↔ AlarmKept n elapsed alarm := by
  have hcps : CLOCKS_PER_SEC = 200 := rfl
  have hmax : LONG_MAX / 1000 = 2147483 := rfl
  unfold AlarmKept
  rw [hmax, hcps]
  unfold gone at hleft
  rw [hcps] at hleft
  by_cases hle : elapsed ≤ n * 200
  · rw [if_pos hle] at hleft
    split_ifs at hleft <;> omega
  · rw [if_neg hle] at hleft
    split_ifs at hleft <;> omega

theorem sleep_iff (hp : p.posted = false) (ha : p.alarm < 2 ^ 31) (he : elapsed < 2 ^ 31) :
    SleepOk n (if n = 0 then 0 else elapsed) p (sleep alarm_catch clock elapsed n p) ↔
      n = 0 ∨ (n * CLOCKS_PER_SEC < elapsed + 2 ^ 31 ∧ AlarmKept n elapsed p.alarm) := by
  by_cases hn : n = 0
  · rw [if_pos hn]
    refine iff_of_true ?_ (Or.inl hn)
    have hcall : sleep alarm_catch clock elapsed n p = (0, p) := by rw [sleep, if_pos hn]
    rw [hcall, hn]
    refine ⟨rfl, ?_, rfl, rfl⟩
    by_cases h0 : p.alarm = 0
    · exact Or.inl ⟨h0, h0, hp⟩
    · exact Or.inr (Or.inr ⟨hp, Nat.pos_of_ne_zero h0, le_refl _⟩)
  obtain ⟨left, hset⟩ : ∃ left : ℕ,
      (((p.alarm : ℤ) - (n - remaining clock n elapsed)) % 2 ^ 32).toNat = left := ⟨_, rfl⟩
  rw [if_neg hn, sleep_eq hn hset, or_iff_right hn]
  by_cases hfit : n * CLOCKS_PER_SEC < elapsed + 2 ^ 31
  swap
  · refine iff_of_false (fun h => ?_) fun h => hfit h.1
    exact ret_ne (not_lt.mp hfit) h.ret
  rw [and_iff_right hfit]
  by_cases h0 : p.alarm = 0
  · refine iff_of_true ⟨ret_eq he hfit, Or.inl ⟨h0, ?_, ?_⟩, rfl, rfl⟩ (Or.inl h0)
    · simp only [h0, ne_eq, not_true_eq_false, false_and, if_false]
    · simp only [h0, ne_eq, not_true_eq_false, false_and, if_false, hp]
  have hleft := @left_eq _ _ clock _ ha he hfit
  rw [hset] at hleft
  rw [← alarm_iff h0 ha he _ hleft]
  simp only [h0, ne_eq, not_false_eq_true, true_and]
  constructor
  · rintro ⟨-, halarm, -, -⟩
    rcases halarm with ⟨hnone, -⟩ | ⟨hposted, -, htime⟩ | ⟨-, hpos, hle⟩
    · exact absurd hnone h0
    · by_cases hz : left = 0
      · exact Or.inl ⟨hz, htime⟩
      · simp [hz, hp] at hposted
    · by_cases hz : left = 0
      · simp [hz] at hpos
      · simp only [hz, not_false_eq_true, if_true] at hle
        exact Or.inr ⟨hz, hle⟩
  · intro h
    refine ⟨ret_eq he hfit, ?_, rfl, rfl⟩
    rcases h with ⟨hz, htime⟩ | ⟨hz, hle⟩
    · refine Or.inr (Or.inl ⟨?_, ?_, htime⟩)
      · simp only [hz, if_true]
      · simp only [hz, not_true_eq_false, if_false]
    · refine Or.inr (Or.inr ⟨?_, ?_, ?_⟩)
      · simp only [hz, if_false, hp]
      · simp only [hz, not_false_eq_true, if_true]
        have hmax : LONG_MAX / 1000 = 2147483 := rfl
        omega
      · simp only [hz, not_false_eq_true, if_true]
        exact hle

theorem sleepTos_iff (hp : p.posted = false) (hn : n < 2 ^ 32) (hclock : IsLong clock) :
    (∀ elapsed, busyWait clock n ≤ elapsed → SleepOk n elapsed p (sleepTos p)) ↔
      clock + n * CLOCKS_PER_SEC < 2 ^ 31 := by
  obtain ⟨hclock0, hclock1⟩ := hclock
  have hcps : CLOCKS_PER_SEC = 200 := rfl
  have hdef := Int.bmod_def (clock + n * CLOCKS_PER_SEC) (2 ^ 32)
  have hwait : busyWait clock n = (Int.bmod (clock + n * CLOCKS_PER_SEC) (2 ^ 32) - clock).toNat := rfl
  rw [hcps] at hdef hwait ⊢
  push_cast at hdef hwait ⊢
  constructor
  · intro h
    have hret := (h (busyWait clock n) (le_refl _)).ret
    unfold sleepTos secondsLeft at hret
    rw [hcps] at hret
    split at hdef <;> omega
  · intro hlt elapsed he
    refine ⟨?_, ?_, rfl, rfl⟩
    · unfold sleepTos secondsLeft
      rw [hcps]
      split at hdef <;> omega
    · by_cases h0 : p.alarm = 0
      · exact Or.inl ⟨h0, h0, hp⟩
      · exact Or.inr (Or.inr ⟨hp, Nat.pos_of_ne_zero h0, le_refl _⟩)

/-- When `sleep` leaves the alarm of the caller intact and returns the seconds that are left.
The wait with MiNT ends before 2^31 ticks, as its own alarm rings before. -/
theorem sleep_keeps_alarm (alarm_catch : H) (clock : ℤ) (elapsed n : ℕ) (p : Process H)
    (hp : p.posted = false) (ha : p.alarm < 2 ^ 31) (hn : n < 2 ^ 32) (hclock : IsLong clock)
    (he : elapsed < 2 ^ 31) :
    (SleepOk n (if n = 0 then 0 else elapsed) p (sleep alarm_catch clock elapsed n p) ↔
      n = 0 ∨ (n * CLOCKS_PER_SEC < elapsed + 2 ^ 31 ∧ AlarmKept n elapsed p.alarm)) ∧
    ((∀ elapsed, busyWait clock n ≤ elapsed → SleepOk n elapsed p (sleepTos p)) ↔
      clock + n * CLOCKS_PER_SEC < 2 ^ 31) :=
  ⟨sleep_iff hp ha he, sleepTos_iff hp hn hclock⟩

end Calls

def inFive : Process ℕ := ⟨5, 7, 0, false⟩

theorem sleep_keeps_alarm_demo :
    (SleepOk 2 (if 2 = 0 then 0 else 403) inFive (sleep 0 1000 403 2 inFive) ↔
      2 = 0 ∨ (2 * CLOCKS_PER_SEC < 403 + 2 ^ 31 ∧ AlarmKept 2 403 inFive.alarm)) ∧
    ((∀ elapsed, busyWait 1000 2 ≤ elapsed → SleepOk 2 elapsed inFive (sleepTos inFive)) ↔
      (1000 : ℤ) + (2 : ℕ) * CLOCKS_PER_SEC < 2 ^ 31) :=
  sleep_keeps_alarm 0 1000 403 2 inFive rfl (by decide) (by decide) ⟨by decide, by decide⟩
    (by decide)

/-- `sleep (10)` with an alarm in 5 seconds, which wakes it up a tick late: the alarm is not
posted but armed for the longest time there is. -/
theorem alarm_lost : (sleep 0 1000 1001 10 inFive).2.alarm = 2147483 ∧
    (sleep 0 1000 1001 10 inFive).2.posted = false ∧
    ¬ SleepOk 10 1001 inFive (sleep 0 1000 1001 10 inFive) := by
  have hcall : sleep 0 1000 1001 10 inFive = (4, ⟨2147483, 7, 0, false⟩) := by decide
  refine ⟨by rw [hcall], by rw [hcall], fun h => ?_⟩
  rw [hcall] at h
  rcases h.alarm with ⟨hnone, -⟩ | ⟨hposted, -⟩ | ⟨-, -, hle⟩
  · exact absurd hnone (by decide)
  · exact absurd hposted (by decide)
  · exact absurd hle (by decide)

end Mintlib.Sleep
