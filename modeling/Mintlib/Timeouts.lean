import Mintlib.Select
import Mintlib.Posix

/-!
# Intervals and timeouts: `select.c`, `ppoll.c`, `setitimer.c` and `usleep.c`

The four functions turn an interval into the milliseconds that the kernel counts.
`select` and `ppoll` go through `poll`, which calls `Fpoll` or `Fselect`.
-/

namespace Mintlib.Timeouts

open Poll Select Posix

/-- `timeout` of `__ppoll`. -/
def ppollTimeout : Option Timespec → ℤ
  | none => -1
  | some t => toMsec 1000000 t.tv_sec t.tv_nsec

structure Itimerval where
  it_interval : Timeval
  it_value : Timeval

/-- What `Tsetitimer` gets: `new_interval` and `new_value`, or two null pointers. -/
def setitimer (new : Option Itimerval) : Option (ℤ × ℤ) :=
  new.map fun v => (toMsec 1000 v.it_interval.tv_sec v.it_interval.tv_usec,
    toMsec 1000 v.it_value.tv_sec v.it_value.tv_usec)

abbrev USEC_PER_TICK : ℕ := 1000000 / 200

/-- What `usleep` does: the timeout that it gives to `Fselect`, and the ticks for which it
then waits itself. -/
structure Slept where
  Fselect : Option ℕ
  ticks : Option ℕ

/-- `while (_clock () < stop)`, for a clock that shows `clock` when the loop begins. -/
def busyTicks (clock stop : ℤ) : ℕ := (stop - clock).toNat

/-- `usleep`, when the clock shows `clock` and `Fselect` answers with `r`; its timeout is
an `unsigned short`. -/
def usleep (useconds : ℕ) (r clock : ℤ) : Slept :=
  let busy := busyTicks clock (Int.bmod (clock + (useconds / USEC_PER_TICK : ℕ)) (2 ^ 32))
  if 1000 ≤ useconds then
    ⟨some (useconds / 1000 % 2 ^ 16), if r = -ENOSYS then some busy else none⟩
  else ⟨none, some busy⟩

/-- `ms` milliseconds for an interval that is counted in parts of a millisecond: enough,
and less than a clock tick longer; for an interval that is not zero less than a millisecond. -/
structure RoundedUp (per interval : ℕ) (ms : ℕ) : Prop where
  enough : interval ≤ per * ms
  tick : per * ms < interval + 5 * per
  exact : 0 < interval → per * ms < interval + per

/-- What `poll` gives to the kernel: no timeout means "for ever", none is cut off, and
they add up to the interval when they all expire. -/
structure Waits (K : Kernel) (fds : List Pollfd) (timeout : ℤ) (per interval : ℕ) : Prop where
  Fpoll : 0 ≤ timeout ∧ timeout < 2 ^ 32 - 1 ∧ RoundedUp per interval timeout.toNat
  Fselect : ∀ r ∈ (emulate K.Fselect fds timeout).rounds, r.timeout ≠ 0 ∧ r.timeout < 2 ^ 16
  sum : (emulate K.Fselect fds timeout).rounds ≠ [] →
    (∀ r ∈ (emulate K.Fselect fds timeout).rounds, r.ret = 0) →
    RoundedUp per interval ((emulate K.Fselect fds timeout).rounds.map Round.timeout).sum

/-- What `Tsetitimer` gets: not negative, and "disarm" only for no interval. -/
def Sets (ms : ℤ) (interval : ℕ) : Prop :=
  0 ≤ ms ∧ RoundedUp 1000 interval ms.toNat ∧ (0 < interval → ms ≠ 0)

/-- The timeout for `Fselect`, if the kernel has it, and the ticks of the loop. -/
structure Sleeps (useconds : ℕ) (r clock : ℤ) : Prop where
  Fselect : r ≠ -ENOSYS → ∀ t ∈ (usleep useconds r clock).Fselect,
    t ≠ 0 ∧ RoundedUp 1000 useconds t
  ticks : ∀ n ∈ (usleep useconds r clock).ticks,
    useconds ≤ USEC_PER_TICK * n ∧ USEC_PER_TICK * n < useconds + USEC_PER_TICK

/-- A `long` that is not negative. -/
def IsLong (x : ℤ) : Prop := 0 ≤ x ∧ x < 2 ^ 31

/-- The rounding does not overflow: neither the sum of the parts nor the milliseconds. -/
def Fits (per sec frac : ℤ) : Prop :=
  frac + (per - 1) < 2 ^ 31 ∧ sec * 1000 + (frac + (per - 1)) / per < 2 ^ 31

section Rounding

variable {per sec frac : ℤ} {interval ms : ℕ}

theorem toMsec_of_fits (hper : 0 < per) (hsec : 0 ≤ sec) (hfrac : 0 ≤ frac)
    (h : Fits per sec frac) : toMsec per sec frac = sec * 1000 + (frac + (per - 1)) / per := by
  obtain ⟨hsum, hms⟩ := h
  have hdiv : 0 ≤ (frac + (per - 1)) / per := Int.ediv_nonneg (by omega) hper.le
  have hinner : Int.bmod (frac + (per - 1)) (2 ^ 32) = frac + (per - 1) := by
    rw [Int.bmod_eq_of_le] <;> omega
  have htdiv : (frac + (per - 1)).tdiv per = (frac + (per - 1)) / per :=
    Int.tdiv_eq_ediv_of_nonneg (by omega)
  unfold toMsec
  rw [hinner, htdiv, Int.bmod_eq_of_le] <;> omega

theorem bmod_le_self {x : ℤ} (h : -(2 ^ 31) ≤ x) : Int.bmod x (2 ^ 32) ≤ x := by
  have hdef := Int.bmod_def x (2 ^ 32)
  split at hdef <;> omega

theorem toMsec_lt (hper : 0 < per) (hper' : per < 2 ^ 31) (hsec : IsLong sec) (hfrac : IsLong frac)
    (h : ¬ Fits per sec frac) :
    toMsec per sec frac < sec * 1000 + (frac + (per - 1)) / per := by
  obtain ⟨hsec0, -⟩ := hsec
  obtain ⟨hfrac0, hfrac1⟩ := hfrac
  unfold toMsec
  by_cases hsum : frac + (per - 1) < 2 ^ 31
  · have hms : 2 ^ 31 ≤ sec * 1000 + (frac + (per - 1)) / per := by
      by_contra hlt
      exact h ⟨hsum, not_le.mp hlt⟩
    exact lt_of_lt_of_le (Int.bmod_lt (by norm_num)) hms
  · have hinner : Int.bmod (frac + (per - 1)) (2 ^ 32) = frac + (per - 1) - 2 ^ 32 := by
      have hdef := Int.bmod_def (frac + (per - 1)) (2 ^ 32)
      split at hdef <;> omega
    -- the quotient of the wrapped sum, which is negative
    have htdiv : (frac + (per - 1) - 2 ^ 32).tdiv per =
        -((2 ^ 32 - (frac + (per - 1))) / per) := by
      rw [← Int.tdiv_eq_ediv_of_nonneg (by omega), ← Int.neg_tdiv, neg_sub]
    have hquot0 : 0 ≤ (2 ^ 32 - (frac + (per - 1))) / per := Int.ediv_nonneg (by omega) hper.le
    have hquot1 : (2 ^ 32 - (frac + (per - 1))) / per ≤ 2 ^ 32 - (frac + (per - 1)) :=
      Int.ediv_le_self _ (by omega)
    have hpos : 1 ≤ (frac + (per - 1)) / per := by
      rw [Int.le_ediv_iff_mul_le hper]
      omega
    rw [hinner, htdiv]
    refine lt_of_le_of_lt (bmod_le_self (by omega)) (by omega)

theorem roundedUp_ceil {p n : ℕ} (hp : 0 < p) (sec : ℕ) :
    RoundedUp p (sec * (1000 * p) + n) (sec * 1000 + (n + (p - 1)) / p) := by
  have hlow : n ≤ p * ((n + (p - 1)) / p) := by
    have := Nat.div_add_mod (n + (p - 1)) p
    have := Nat.mod_lt (n + (p - 1)) hp
    omega
  have hhigh : p * ((n + (p - 1)) / p) ≤ n + (p - 1) := Nat.mul_div_le _ _
  have hsec : p * (sec * 1000 + (n + (p - 1)) / p) =
      sec * (1000 * p) + p * ((n + (p - 1)) / p) := by ring
  constructor
  · rw [hsec]
    omega
  · rw [hsec]
    omega
  · intro _
    rw [hsec]
    omega

theorem not_enough {p n sec : ℕ} (hp : 0 < p)
    (h : ms < sec * 1000 + (n + (p - 1)) / p) : ¬ RoundedUp p (sec * (1000 * p) + n) ms := by
  intro hms
  have hhigh : p * ((n + (p - 1)) / p) ≤ n + (p - 1) := Nat.mul_div_le _ _
  have hle : p * (ms + 1) ≤ p * (sec * 1000 + (n + (p - 1)) / p) := Nat.mul_le_mul_left p h
  have hsec : p * (sec * 1000 + (n + (p - 1)) / p) =
      sec * (1000 * p) + p * ((n + (p - 1)) / p) := by ring
  have henough := hms.enough
  rw [hsec, Nat.mul_succ] at hle
  omega

theorem toMsec_iff {p : ℕ} (hp : 0 < p) (hp' : p < 2 ^ 31) (hsec : IsLong sec)
    (hfrac : IsLong frac) : Fits p sec frac ↔ 0 ≤ toMsec p sec frac ∧
      RoundedUp p (sec.toNat * (1000 * p) + frac.toNat) (toMsec p sec frac).toNat := by
  obtain ⟨s, rfl⟩ := Int.eq_ofNat_of_zero_le hsec.1
  obtain ⟨n, rfl⟩ := Int.eq_ofNat_of_zero_le hfrac.1
  have hceil : (s : ℤ) * 1000 + ((n : ℤ) + ((p : ℤ) - 1)) / p =
      ((s * 1000 + (n + (p - 1)) / p : ℕ) : ℤ) := by
    push_cast [Nat.cast_sub hp]
    rfl
  rw [Int.toNat_natCast, Int.toNat_natCast]
  constructor
  · intro h
    have heq := toMsec_of_fits (by exact_mod_cast hp) hsec.1 hfrac.1 h
    rw [hceil] at heq
    rw [heq, Int.toNat_natCast]
    exact ⟨Int.natCast_nonneg _, roundedUp_ceil hp s⟩
  · rintro ⟨h0, hround⟩
    by_contra h
    have hlt := toMsec_lt (by exact_mod_cast hp) (by exact_mod_cast hp') hsec hfrac h
    rw [hceil] at hlt
    exact not_enough hp (by omega) hround

end Rounding

section Polls

variable {K : Kernel} {fds : List Pollfd} {timeout : ℤ} {per interval : ℕ}
  {F : ℕ → ℕ → Masks → ℤ × Masks}

theorem selectRounds_short (saved : Masks) {max : ℕ} (hmax : 0 < max) (round timeout : ℕ) :
    ∀ r ∈ (selectRounds F saved hmax round timeout).2.2, r.timeout ≤ max := by
  induction round, timeout using selectRounds.induct F saved hmax with
  | case1 round timeout hlt ret m hF hret =>
    rw [selectRounds, if_pos hlt, hF]
    simp only [if_pos hret, List.mem_singleton, forall_eq, le_refl]
  | case2 round timeout hlt ret m hF hret ret' m' rs hrec ih =>
    rw [selectRounds, if_pos hlt, hF]
    simp only [if_neg hret, List.forall_mem_cons]
    exact ⟨le_refl _, ih⟩
  | case3 round timeout hle ret m hF hret =>
    rw [selectRounds, if_neg hle, hF]
    simp only [if_pos hret, List.mem_singleton, forall_eq]
    exact not_lt.mp hle
  | case4 round timeout hle ret m hF hret =>
    rw [selectRounds, if_neg hle, hF]
    simp only [if_neg hret, List.mem_singleton, forall_eq]
    exact not_lt.mp hle

theorem wait_short (m : Masks) : ∀ r ∈ (wait F m timeout).2.2, r.timeout ≤ USHRT_MAX := by
  have honce : ∀ t ≤ USHRT_MAX, ∀ r ∈ (selectOnce F m t).2.2, r.timeout ≤ USHRT_MAX := by
    intro t ht r hr
    rw [List.mem_singleton.mp hr]
    exact ht
  unfold wait
  by_cases hneg : timeout < 0
  · rw [if_pos hneg]
    exact honce 0 (Nat.zero_le _)
  rw [if_neg hneg]
  by_cases hzero : timeout = 0
  · rw [if_pos hzero]
    exact honce 1 (by decide)
  rw [if_neg hzero]
  by_cases hshort : timeout.toNat < USHRT_MAX
  · rw [if_pos hshort]
    exact honce _ hshort.le
  · rw [if_neg hshort]
    exact selectRounds_short m ushrt_max_pos 0 timeout.toNat

theorem emulate_rounds (F : ℕ → ℕ → Masks → ℤ × Masks) (fds : List Pollfd) (timeout : ℤ) :
    (emulate F fds timeout).rounds = [] ∨
      ∃ m, (emulate F fds timeout).rounds = (wait F m timeout).2.2 := by
  unfold emulate
  simp only
  split_ifs with hnone hret
  · exact Or.inl rfl
  · exact Or.inr ⟨_, rfl⟩
  · exact Or.inr ⟨_, rfl⟩

theorem waits_of_roundedUp (h0 : 0 ≤ timeout) (hmax : timeout < 2 ^ 31)
    (hround : RoundedUp per interval timeout.toNat) : Waits K fds timeout per interval := by
  refine ⟨⟨h0, by omega, hround⟩, fun r hr => ?_, fun hne hall => ?_⟩
  · rcases emulate_rounds K.Fselect fds timeout with hnil | ⟨m, hm⟩
    · rw [hnil] at hr
      exact absurd hr List.not_mem_nil
    · rw [hm] at hr
      exact ⟨(wait_ok K.Fselect m timeout).pos h0 r hr, Nat.lt_succ_of_le (wait_short m r hr)⟩
  · rcases emulate_rounds K.Fselect fds timeout with hnil | ⟨m, hm⟩
    · exact absurd hnil hne
    rw [hm] at hall ⊢
    rcases h0.eq_or_lt with hzero | hpos
    · subst hzero
      have hone : (wait K.Fselect m 0).2.2.map Round.timeout = [1] := rfl
      have hinterval : interval = 0 := by
        have henough := hround.enough
        simpa using henough
      have hper : 0 < 5 * per := by
        have htick := hround.tick
        simpa [hinterval] using htick
      rw [hone, hinterval]
      refine ⟨Nat.zero_le _, ?_, fun h => absurd h (lt_irrefl 0)⟩
      rw [List.sum_singleton]
      omega
    · have hsum := (wait_ok K.Fselect m timeout).sum hpos hall
      have hnat : ((wait K.Fselect m timeout).2.2.map Round.timeout).sum = timeout.toNat := by
        omega
      rw [hnat]
      exact hround

/-- The timeout that `select` or `ppoll` gives to `poll` is waited for exactly when it is
the interval rounded up. -/
theorem waits_iff {p : ℕ} {sec frac : ℤ} (hp : 0 < p) (hp' : p < 2 ^ 31) (hsec : IsLong sec)
    (hfrac : IsLong frac) : (∀ K fds, Waits K fds (toMsec p sec frac) p
      (sec.toNat * (1000 * p) + frac.toNat)) ↔ Fits p sec frac := by
  rw [toMsec_iff hp hp' hsec hfrac]
  constructor
  · intro h
    obtain ⟨h0, -, hround⟩ := (h ⟨fun _ _ => (0, []), fun _ _ m => (0, m)⟩ []).Fpoll
    exact ⟨h0, hround⟩
  · rintro ⟨h0, hround⟩ K fds
    refine waits_of_roundedUp h0 ?_ hround
    exact Int.bmod_lt (by norm_num)

end Polls

theorem sets_iff {sec usec : ℤ} (hsec : IsLong sec) (husec : IsLong usec) :
    Sets (toMsec 1000 sec usec) (sec.toNat * 1000000 + usec.toNat) ↔ Fits 1000 sec usec := by
  have hiff := toMsec_iff (p := 1000) (by norm_num) (by norm_num) hsec husec
  rw [show ((1000 : ℕ) : ℤ) = 1000 from rfl] at hiff
  rw [hiff]
  refine ⟨fun h => ⟨h.1, h.2.1⟩, fun h => ⟨h.1, h.2, fun hpos hzero => ?_⟩⟩
  have henough := h.2.enough
  rw [hzero] at henough
  omega

/-- When `usleep` waits long enough: no wait at all, milliseconds that fit into an
`unsigned short` for `Fselect`, or ticks that do not overflow the clock. -/
def UsleepFits (useconds : ℕ) (r clock : ℤ) : Prop :=
  useconds = 0 ∨ (1000 ≤ useconds ∧
    if r = -ENOSYS then useconds % USEC_PER_TICK = 0 ∧ clock + (useconds / USEC_PER_TICK : ℕ) < 2 ^ 31
    else useconds % 1000 = 0 ∧ useconds / 1000 < 2 ^ 16)

theorem sleeps_iff {useconds : ℕ} {clock : ℤ} (hus : useconds < 2 ^ 32) (hclock : IsLong clock)
    (r : ℤ) : Sleeps useconds r clock ↔ UsleepFits useconds r clock := by
  obtain ⟨hclock0, hclock1⟩ := hclock
  have htick : USEC_PER_TICK = 5000 := rfl
  have hticks : busyTicks clock (Int.bmod (clock + (useconds / USEC_PER_TICK : ℕ)) (2 ^ 32)) =
      if clock + (useconds / USEC_PER_TICK : ℕ) < 2 ^ 31 then useconds / USEC_PER_TICK else 0 := by
    rw [htick]
    have hdef := Int.bmod_def (clock + (useconds / 5000 : ℕ)) (2 ^ 32)
    unfold busyTicks
    by_cases hlt : clock + (useconds / 5000 : ℕ) < 2 ^ 31
    · rw [if_pos hlt]
      split at hdef <;> omega
    · rw [if_neg hlt]
      split at hdef <;> omega
  -- a millisecond or more goes to the kernel, less is waited for here
  by_cases hmin : 1000 ≤ useconds
  · have hcall : usleep useconds r clock = ⟨some (useconds / 1000 % 2 ^ 16), if r = -ENOSYS then
        some (if clock + (useconds / USEC_PER_TICK : ℕ) < 2 ^ 31 then useconds / USEC_PER_TICK
          else 0) else none⟩ := by
      rw [usleep, if_pos hmin, hticks]
    by_cases hr : r = -ENOSYS
    · rw [if_pos hr] at hcall
      constructor
      · intro h
        have hwait := h.ticks _ (by rw [hcall]; rfl)
        refine Or.inr ⟨hmin, ?_⟩
        rw [if_pos hr]
        rw [htick] at hwait ⊢
        split_ifs at hwait with hlt
        · exact ⟨by omega, hlt⟩
        · omega
      · rintro (hzero | ⟨-, h⟩)
        · omega
        rw [if_pos hr] at h
        refine ⟨fun hne => absurd hr hne, fun n hn => ?_⟩
        rw [hcall] at hn
        rw [← Option.some.inj hn, if_pos h.2]
        rw [htick] at h ⊢
        omega
    · rw [if_neg hr] at hcall
      constructor
      · intro h
        obtain ⟨-, henough, -, -⟩ := h.Fselect hr _ (by rw [hcall]; rfl)
        refine Or.inr ⟨hmin, ?_⟩
        rw [if_neg hr]
        omega
      · rintro (hzero | ⟨-, h⟩)
        · omega
        rw [if_neg hr] at h
        refine ⟨fun _ t ht => ?_, fun n hn => ?_⟩
        · rw [hcall] at ht
          rw [← Option.some.inj ht, Nat.mod_eq_of_lt h.2]
          exact ⟨by omega, by omega, by omega, fun _ => by omega⟩
        · rw [hcall] at hn
          exact absurd hn.symm (Option.some_ne_none n)
  · have hcall : usleep useconds r clock = ⟨none, some 0⟩ := by
      rw [usleep, if_neg hmin, hticks]
      split_ifs with hlt
      · rw [Nat.div_eq_of_lt (by rw [htick]; omega)]
      · rfl
    constructor
    · intro h
      have hwait := h.ticks 0 (by rw [hcall]; rfl)
      rw [htick] at hwait
      exact Or.inl (by omega)
    · rintro (hzero | ⟨h, -⟩)
      · refine ⟨fun _ t ht => ?_, fun n hn => ?_⟩
        · rw [hcall] at ht
          exact absurd ht.symm (Option.some_ne_none t)
        · rw [hcall] at hn
          rw [← Option.some.inj hn, hzero]
          decide
      · exact absurd h hmin

/-- Which intervals the four functions turn into timeouts that are long enough, less than
a clock tick longer, and none of the kernel's special values. -/
theorem timeouts_iff (t : Timeval) (s : Timespec) (v : Itimerval) (useconds : ℕ) (r clock : ℤ)
    (ht : IsLong t.tv_sec ∧ IsLong t.tv_usec) (hs : IsLong s.tv_sec ∧ IsLong s.tv_nsec)
    (hinterval : IsLong v.it_interval.tv_sec ∧ IsLong v.it_interval.tv_usec)
    (hvalue : IsLong v.it_value.tv_sec ∧ IsLong v.it_value.tv_usec)
    (hus : useconds < 2 ^ 32) (hclock : IsLong clock) :
    ((∀ K fds, Waits K fds (msecTimeout (some t)) 1000
        (t.tv_sec.toNat * 1000000 + t.tv_usec.toNat)) ↔ Fits 1000 t.tv_sec t.tv_usec) ∧
    ((∀ K fds, Waits K fds (ppollTimeout (some s)) 1000000
        (s.tv_sec.toNat * 1000000000 + s.tv_nsec.toNat)) ↔ Fits 1000000 s.tv_sec s.tv_nsec) ∧
    ((∃ interval value, setitimer (some v) = some (interval, value) ∧
        Sets interval (v.it_interval.tv_sec.toNat * 1000000 + v.it_interval.tv_usec.toNat) ∧
        Sets value (v.it_value.tv_sec.toNat * 1000000 + v.it_value.tv_usec.toNat)) ↔
      Fits 1000 v.it_interval.tv_sec v.it_interval.tv_usec ∧
        Fits 1000 v.it_value.tv_sec v.it_value.tv_usec) ∧
    (Sleeps useconds r clock ↔ UsleepFits useconds r clock) := by
  refine ⟨waits_iff (by norm_num) (by norm_num) ht.1 ht.2,
    waits_iff (by norm_num) (by norm_num) hs.1 hs.2, ?_, sleeps_iff hus hclock r⟩
  rw [← sets_iff hinterval.1 hinterval.2, ← sets_iff hvalue.1 hvalue.2]
  constructor
  · rintro ⟨interval, value, heq, hi, hv⟩
    obtain ⟨rfl, rfl⟩ := Prod.mk.inj (Option.some.inj heq)
    exact ⟨hi, hv⟩
  · rintro ⟨hi, hv⟩
    exact ⟨_, _, rfl, hi, hv⟩

theorem timeouts_iff_demo :
    ((∀ K fds, Waits K fds (msecTimeout (some ⟨1, 1⟩)) 1000 1000001) ↔ Fits 1000 1 1) ∧
    ((∀ K fds, Waits K fds (ppollTimeout (some ⟨0, 1⟩)) 1000000 1) ↔ Fits 1000000 0 1) ∧
    ((∃ interval value, setitimer (some ⟨⟨0, 0⟩, ⟨0, 1500⟩⟩) = some (interval, value) ∧
        Sets interval 0 ∧ Sets value 1500) ↔ Fits 1000 0 0 ∧ Fits 1000 0 1500) ∧
    (Sleeps 2000 0 7 ↔ UsleepFits 2000 0 7) :=
  timeouts_iff ⟨1, 1⟩ ⟨0, 1⟩ ⟨⟨0, 0⟩, ⟨0, 1500⟩⟩ 2000 0 7
    ⟨⟨by decide, by decide⟩, ⟨by decide, by decide⟩⟩ ⟨⟨by decide, by decide⟩, ⟨by decide, by decide⟩⟩
    ⟨⟨by decide, by decide⟩, ⟨by decide, by decide⟩⟩ ⟨⟨by decide, by decide⟩, ⟨by decide, by decide⟩⟩
    (by decide) ⟨by decide, by decide⟩

/-- 2147484 seconds are a negative number of milliseconds, 1500 microseconds are one
millisecond for `usleep`, and 65536000 microseconds are no timeout for `Fselect`. -/
theorem timeouts_lost :
    (¬ ∀ K fds, Waits K fds (msecTimeout (some ⟨2147484, 0⟩)) 1000 (2147484 * 1000000)) ∧
    (¬ ∀ K fds, Waits K fds (ppollTimeout (some ⟨2147484, 0⟩)) 1000000 (2147484 * 1000000000)) ∧
    (setitimer (some ⟨⟨0, 0⟩, ⟨2147484, 0⟩⟩) = some (0, -2147483296)) ∧
    ¬ Sleeps 1500 0 0 ∧ (usleep 65536000 0 0).Fselect = some 0 ∧ ¬ Sleeps 500 0 0 := by
  have hneg : toMsec 1000 2147484 0 = -2147483296 := by decide
  have hneg' : toMsec 1000000 2147484 0 = -2147483296 := by decide
  refine ⟨fun h => ?_, fun h => ?_, by decide, fun h => ?_, by decide, fun h => ?_⟩
  · have h0 : 0 ≤ toMsec 1000 2147484 0 := (h ⟨fun _ _ => (0, []), fun _ _ m => (0, m)⟩ []).Fpoll.1
    rw [hneg] at h0
    exact absurd h0 (by decide)
  · have h0 : 0 ≤ toMsec 1000000 2147484 0 :=
      (h ⟨fun _ _ => (0, []), fun _ _ m => (0, m)⟩ []).Fpoll.1
    rw [hneg'] at h0
    exact absurd h0 (by decide)
  · have henough := (h.Fselect (by decide) 1 (by decide)).2.enough
    exact absurd henough (by decide)
  · exact absurd (h.ticks 0 (by decide)).1 (by decide)

end Mintlib.Timeouts
