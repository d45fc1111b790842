import Mintlib.Lib.Bits
import Mintlib.Posix

/-!
# `poll.c`: `poll` on top of `Fselect`

When the kernel has no `Fpoll`, the entries are turned into three masks of 32
descriptors, `Fselect` is called in rounds of at most 65535 ms, and its masks are
turned back into the `revents` of the entries.
-/

namespace Mintlib.Poll

open Posix

abbrev POLLIN : BitVec 16 := 0x001
abbrev POLLPRI : BitVec 16 := 0x002
abbrev POLLOUT : BitVec 16 := 0x004
abbrev POLLERR : BitVec 16 := 0x008
abbrev POLLHUP : BitVec 16 := 0x010
abbrev POLLNVAL : BitVec 16 := 0x020
abbrev POLLRDNORM : BitVec 16 := 0x040
abbrev POLLRDBAND : BitVec 16 := 0x080
abbrev POLLWRNORM : BitVec 16 := 0x100
abbrev POLLWRBAND : BitVec 16 := 0x200
abbrev POLLMSG : BitVec 16 := 0x400

abbrev LEGAL_FLAGS : BitVec 16 :=
  POLLIN ||| POLLPRI ||| POLLOUT ||| POLLRDNORM ||| POLLWRNORM ||| POLLRDBAND ||| POLLWRBAND

/-- `struct pollfd`, for descriptors that are not negative. -/
structure Pollfd where
  fd : ℕ
  events : BitVec 16
  revents : BitVec 16
deriving DecidableEq

structure Masks where
  rfds : BitVec 32
  wfds : BitVec 32
  xfds : BitVec 32
deriving DecidableEq

/-- A call of `Fselect`: its timeout, its result and the masks that it has left. -/
structure Round where
  timeout : ℕ
  ret : ℤ
  masks : Masks

abbrev bit (fd : ℕ) : BitVec 32 := BitVec.twoPow 32 fd

/-- The kernel: what `Fpoll` answers and does to the entries, and what `Fselect` answers
in each round to a timeout and masks. -/
structure Kernel where
  Fpoll : List Pollfd → ℕ → ℤ × List Pollfd
  Fselect : ℕ → ℕ → Masks → ℤ × Masks

def Invalid (e : Pollfd) : Prop := 32 ≤ e.fd ∨ e.events ||| LEGAL_FLAGS ≠ LEGAL_FLAGS

instance (e : Pollfd) : Decidable (Invalid e) := inferInstanceAs (Decidable (_ ∨ _))

def want (e : Pollfd) (m : Masks) : Masks where
  rfds := if e.events &&& (POLLIN ||| POLLRDNORM) ≠ 0 then m.rfds ||| bit e.fd else m.rfds
  xfds := if e.events &&& POLLPRI ≠ 0 then m.xfds ||| bit e.fd else m.xfds
  wfds := if e.events &&& (POLLOUT ||| POLLWRNORM) ≠ 0 then m.wfds ||| bit e.fd else m.wfds

/-- The first loop: invalid entries are marked and counted, the others enter the masks. -/
def setup : List Pollfd → Masks → ℤ → List Pollfd × Masks × ℤ
  | [], m, retval => ([], m, retval)
  | e :: es, m, retval =>
    if Invalid e then
      let (es, m, retval) := setup es m (retval + 1)
      ({ e with revents := POLLNVAL } :: es, m, retval)
    else
      let (es, m, retval) := setup es (want e m) retval
      ({ e with revents := 0 } :: es, m, retval)

abbrev USHRT_MAX : ℕ := 65535

/-- The loop for long timeouts: rounds of `max` until one answers or the time is used
up, each with the masks `saved`. The result, the masks after the loop and the calls. -/
def selectRounds (F : ℕ → ℕ → Masks → ℤ × Masks) (saved : Masks) {max : ℕ} (hmax : 0 < max)
    (round timeout : ℕ) : ℤ × Masks × List Round :=
  if max < timeout then
    let (ret, m) := F round max saved
    if ret ≠ 0 then (ret, m, [⟨max, ret, m⟩])
    else
      let (ret', m', rs) := selectRounds F saved hmax (round + 1) (timeout - max)
      (ret', m', ⟨max, ret, m⟩ :: rs)
  else
    let (ret, m) := F round timeout saved
    if ret ≠ 0 then (ret, m, [⟨timeout, ret, m⟩]) else (0, saved, [⟨timeout, ret, m⟩])
termination_by timeout

theorem ushrt_max_pos : 0 < USHRT_MAX := Nat.succ_pos _

/-- One call of `Fselect`. -/
def selectOnce (F : ℕ → ℕ → Masks → ℤ × Masks) (m : Masks) (timeout : ℕ) :
    ℤ × Masks × List Round :=
  let (ret, m) := F 0 timeout m
  (ret, m, [⟨timeout, ret, m⟩])

def wait (F : ℕ → ℕ → Masks → ℤ × Masks) (m : Masks) (timeout : ℤ) : ℤ × Masks × List Round :=
  if timeout < 0 then selectOnce F m 0
  else if timeout = 0 then selectOnce F m 1
  else if timeout.toNat < USHRT_MAX then selectOnce F m timeout.toNat
  else selectRounds F m ushrt_max_pos 0 timeout.toNat

def report (m : Masks) (e : Pollfd) : Pollfd :=
  if 32 ≤ e.fd then e
  else { e with revents :=
    e.revents
      ||| (if m.rfds &&& bit e.fd ≠ 0 then e.events &&& (POLLIN ||| POLLRDNORM) else 0)
      ||| (if m.wfds &&& bit e.fd ≠ 0 then e.events &&& (POLLOUT ||| POLLWRNORM) else 0)
      ||| (if m.xfds &&& bit e.fd ≠ 0 then e.events &&& POLLPRI else 0) }

/-- What `poll` returns and leaves behind; `rounds` are its calls of `Fselect`. -/
structure Result where
  retval : ℤ
  errno : Option ℤ
  fds : List Pollfd
  rounds : List Round

def emulate (F : ℕ → ℕ → Masks → ℤ × Masks) (fds : List Pollfd) (timeout : ℤ) : Result :=
  let (fds, m, retval) := setup fds ⟨0, 0, 0⟩ 0
  if retval ≠ 0 ∧ m = ⟨0, 0, 0⟩ then ⟨retval, none, fds, []⟩
  else
    let (retval, m, rounds) := wait F m timeout
    let fds := fds.map (report m)
    if retval < 0 then ⟨-1, some (-retval), fds, rounds⟩ else ⟨retval, none, fds, rounds⟩

def poll (K : Kernel) (fds : List Pollfd) (timeout : ℤ) : Result :=
  let (retval, fds') := K.Fpoll fds (if timeout < 0 then 2 ^ 32 - 1 else timeout.toNat)
  if retval ≠ -ENOSYS then
    if retval < 0 then ⟨-1, some (-retval), fds', []⟩ else ⟨retval, none, fds', []⟩
  else emulate K.Fselect fds timeout

def Masks.directions (m : Masks) (fd : ℕ) : ℕ :=
  (m.rfds.getLsbD fd).toNat + (m.wfds.getLsbD fd).toNat + (m.xfds.getLsbD fd).toNat

def Masks.bits (m : Masks) : ℕ := ∑ fd ∈ Finset.range 32, m.directions fd

structure Masks.Within (m' m : Masks) : Prop where
  rfds : ∀ fd, m'.rfds.getLsbD fd = true → m.rfds.getLsbD fd = true
  wfds : ∀ fd, m'.wfds.getLsbD fd = true → m.wfds.getLsbD fd = true
  xfds : ∀ fd, m'.xfds.getLsbD fd = true → m.xfds.getLsbD fd = true

/-- The kernel's `Fselect`: it leaves some of the bits that it was given, and returns
how many. -/
def FselectOk (F : ℕ → ℕ → Masks → ℤ × Masks) : Prop :=
  ∀ round timeout m, 0 ≤ (F round timeout m).1 →
    (F round timeout m).2.Within m ∧ (F round timeout m).1 = (F round timeout m).2.bits

/-- Timeouts, marks and the count of one emulated call. -/
structure PollOk (F : ℕ → ℕ → Masks → ℤ × Masks) (fds : List Pollfd) (timeout : ℤ) : Prop where
  positive : 0 < timeout → ∀ r ∈ (emulate F fds timeout).rounds, r.timeout ≠ 0
  exact : 0 < timeout → (emulate F fds timeout).rounds ≠ [] →
    (∀ r ∈ (emulate F fds timeout).rounds, r.ret = 0) →
    (((emulate F fds timeout).rounds.map Round.timeout).sum : ℤ) = timeout
  zero : timeout = 0 → ∀ r ∈ (emulate F fds timeout).rounds, r.timeout ≠ 0
  invalid : ∀ e ∈ (emulate F fds timeout).fds, Invalid e → e.revents &&& POLLNVAL ≠ 0
  count : 0 ≤ (emulate F fds timeout).retval → (emulate F fds timeout).retval =
    ((emulate F fds timeout).fds.countP fun e => decide (e.revents ≠ 0) : ℕ)

def Reported (m : Masks) (e : Pollfd) : Prop :=
  ¬ Invalid e ∧
    ((m.rfds &&& bit e.fd ≠ 0 ∧ e.events &&& (POLLIN ||| POLLRDNORM) ≠ 0) ∨
     (m.wfds &&& bit e.fd ≠ 0 ∧ e.events &&& (POLLOUT ||| POLLWRNORM) ≠ 0) ∨
     (m.xfds &&& bit e.fd ≠ 0 ∧ e.events &&& POLLPRI ≠ 0))

instance (m : Masks) (e : Pollfd) : Decidable (Reported m e) := inferInstanceAs (Decidable (_ ∧ _))

def Masks.surplus (m : Masks) : ℕ := ∑ fd ∈ Finset.range 32, (m.directions fd - 1)

def repeats (m : Masks) (fds : List Pollfd) : ℕ :=
  ∑ fd ∈ Finset.range 32, (fds.countP (fun e => decide (Reported m e ∧ e.fd = fd)) - 1)

def request (fds : List Pollfd) : Masks := (setup fds ⟨0, 0, 0⟩ 0).2.1

def CountOk (F : ℕ → ℕ → Masks → ℤ × Masks) (fds : List Pollfd) (timeout : ℤ) : Prop :=
  ∀ r ∈ (emulate F fds timeout).rounds.getLast?, 0 ≤ r.ret →
    if (USHRT_MAX : ℤ) ≤ timeout ∧ r.ret = 0 then
      request fds = ⟨0, 0, 0⟩ ∧ ∀ e ∈ fds, ¬ Invalid e
    else r.masks.surplus = fds.countP (fun e => decide (Invalid e)) + repeats r.masks fds

section Setup

variable {es fds : List Pollfd} {m m' : Masks} {e : Pollfd} {flags : BitVec 16} {fd : ℕ}

def gather (flags : BitVec 16) (es : List Pollfd) (x : BitVec 32) : BitVec 32 :=
  es.foldl (fun x e => if Invalid e then x
    else if e.events &&& flags ≠ 0 then x ||| bit e.fd else x) x

def mark (e : Pollfd) : Pollfd := { e with revents := if Invalid e then POLLNVAL else 0 }

theorem setup_eq (es : List Pollfd) (m : Masks) (n : ℤ) : setup es m n =
    (es.map mark, ⟨gather (POLLIN ||| POLLRDNORM) es m.rfds,
      gather (POLLOUT ||| POLLWRNORM) es m.wfds, gather POLLPRI es m.xfds⟩,
      n + (es.countP fun e => decide (Invalid e) : ℕ)) := by
  induction es generalizing m n with
  | nil => simp [setup, gather]
  | cons e es ih =>
    unfold setup
    by_cases he : Invalid e
    · rw [if_pos he, ih]
      simp only [gather, List.map_cons, List.foldl_cons, mark, if_pos he, Prod.mk.injEq, true_and]
      rw [List.countP_cons_of_pos (by simpa using he)]
      push_cast
      ring
    · rw [if_neg he, ih]
      simp only [gather, List.map_cons, List.foldl_cons, mark, if_neg he, Prod.mk.injEq, true_and]
      rw [List.countP_cons_of_neg (by simpa using he)]
      exact ⟨rfl, rfl⟩

theorem fd_lt (h : ¬ Invalid e) : e.fd < 32 := not_le.mp fun hle => h (Or.inl hle)

theorem getLsbD_gather (x : BitVec 32) :
    (gather flags es x).getLsbD fd = true ↔ x.getLsbD fd = true ∨
      ∃ e ∈ es, ¬ Invalid e ∧ e.fd = fd ∧ e.events &&& flags ≠ 0 := by
  unfold gather
  induction es generalizing x with
  | nil => simp
  | cons e es ih =>
    rw [List.foldl_cons, ih]
    simp only [List.exists_mem_cons_iff]
    by_cases he : Invalid e
    · rw [if_pos he]
      exact or_congr_right (or_iff_right fun h => h.1 he).symm
    · rw [if_neg he]
      by_cases hf : e.events &&& flags ≠ 0
      · rw [if_pos hf, BitVec.getLsbD_or, Bool.or_eq_true, BitVec.getLsbD_twoPow, or_assoc]
        simp only [fd_lt he, decide_true, Bool.true_and, decide_eq_true_eq]
        exact or_congr_right (or_congr_left ⟨fun h => ⟨he, h, hf⟩, fun h => h.2.1⟩)
      · rw [if_neg hf]
        exact or_congr_right (or_iff_right fun h => hf h.2.2).symm

theorem request_eq : request fds = ⟨gather (POLLIN ||| POLLRDNORM) fds 0,
    gather (POLLOUT ||| POLLWRNORM) fds 0, gather POLLPRI fds 0⟩ := by
  rw [request, setup_eq]

theorem exists_reported (hw : m.Within (request fds)) (hfd : fd < 32) (hd : 0 < m.directions fd) :
    ∃ e ∈ fds, Reported m e ∧ e.fd = fd := by
  have hbit : ∀ {x : BitVec 32}, x.getLsbD fd = true → x &&& bit fd ≠ 0 :=
    fun h => (Bits.and_twoPow_ne_zero _ hfd).mpr h
  obtain ⟨hr, hww, hx⟩ := hw
  rw [request_eq] at hr hww hx
  have hcases : m.rfds.getLsbD fd = true ∨ m.wfds.getLsbD fd = true ∨ m.xfds.getLsbD fd = true := by
    by_contra hno
    simp only [not_or, Bool.not_eq_true] at hno
    simp [Masks.directions, hno] at hd
  rcases hcases with h | h | h
  · obtain ⟨e, he, hv, rfl, hf⟩ := ((getLsbD_gather _).mp (hr fd h)).resolve_left (by simp)
    exact ⟨e, he, ⟨hv, Or.inl ⟨hbit h, hf⟩⟩, rfl⟩
  · obtain ⟨e, he, hv, rfl, hf⟩ := ((getLsbD_gather _).mp (hww fd h)).resolve_left (by simp)
    exact ⟨e, he, ⟨hv, Or.inr (Or.inl ⟨hbit h, hf⟩)⟩, rfl⟩
  · obtain ⟨e, he, hv, rfl, hf⟩ := ((getLsbD_gather _).mp (hx fd h)).resolve_left (by simp)
    exact ⟨e, he, ⟨hv, Or.inr (Or.inr ⟨hbit h, hf⟩)⟩, rfl⟩

theorem directions_pos (h : Reported m e) : 0 < m.directions e.fd := by
  have hlt := fd_lt h.1
  have hbit : ∀ {x : BitVec 32}, x &&& bit e.fd ≠ 0 → x.getLsbD e.fd = true :=
    fun h => (Bits.and_twoPow_ne_zero _ hlt).mp h
  rw [Masks.directions]
  rcases h.2 with ⟨hr, -⟩ | ⟨hw, -⟩ | ⟨hx, -⟩
  · rw [hbit hr, Bool.toNat_true]
    omega
  · rw [hbit hw, Bool.toNat_true]
    omega
  · rw [hbit hx, Bool.toNat_true]
    omega

theorem countP_reported : fds.countP (fun e => decide (Reported m e)) =
    ∑ fd ∈ Finset.range 32, fds.countP fun e => decide (Reported m e ∧ e.fd = fd) :=
  Bits.countP_eq_sum_range fun _ h => fd_lt h.1

/-- The kernel's count and the number of entries with a report differ by what is
surplus on either side. -/
theorem bits_sub_reported (hw : m.Within (request fds)) :
    m.bits + repeats m fds = fds.countP (fun e => decide (Reported m e)) + m.surplus := by
  rw [Masks.bits, repeats, countP_reported, Masks.surplus, ← Finset.sum_add_distrib,
    ← Finset.sum_add_distrib]
  apply Finset.sum_congr rfl
  intro fd hfd
  have hlt := Finset.mem_range.mp hfd
  have hiff : 0 < m.directions fd ↔
      0 < fds.countP fun e => decide (Reported m e ∧ e.fd = fd) := by
    rw [List.countP_pos_iff]
    constructor
    · intro hd
      obtain ⟨e, he, hr, hefd⟩ := exists_reported hw hlt hd
      exact ⟨e, he, by simpa using ⟨hr, hefd⟩⟩
    · rintro ⟨e, -, he⟩
      obtain ⟨hr, rfl⟩ := of_decide_eq_true he
      exact directions_pos hr
  omega

theorem ite_ne_zero {P : Prop} [Decidable P] {x : BitVec 16} :
    (if P then x else 0) ≠ 0 ↔ P ∧ x ≠ 0 := by
  by_cases h : P
  · rw [if_pos h]
    exact (and_iff_right h).symm
  · rw [if_neg h]
    exact ⟨fun hz => absurd rfl hz, fun hp => absurd hp.1 h⟩

theorem or_ne_zero {x y : BitVec 16} : x ||| y ≠ 0 ↔ x ≠ 0 ∨ y ≠ 0 := by
  have h : x ||| y = 0 ↔ x = 0 ∧ y = 0 := BitVec.or_eq_zero_iff
  rw [Ne, h, not_and_or]

theorem report_ne_zero : (report m (mark e)).revents ≠ 0 ↔ Invalid e ∨ Reported m e := by
  unfold report
  by_cases hfd : 32 ≤ e.fd
  · have hinv : Invalid e := Or.inl hfd
    rw [if_pos (show 32 ≤ (mark e).fd from hfd), mark, if_pos hinv]
    exact iff_of_true (show POLLNVAL ≠ 0 by decide) (Or.inl hinv)
  · rw [if_neg (show ¬ 32 ≤ (mark e).fd from hfd)]
    simp only [or_ne_zero, ite_ne_zero]
    by_cases hinv : Invalid e
    · refine iff_of_true (Or.inl (Or.inl (Or.inl ?_))) (Or.inl hinv)
      rw [mark, if_pos hinv]
      exact show POLLNVAL ≠ 0 by decide
    · have hz : ¬ (mark e).revents ≠ 0 := by
        rw [mark, if_neg hinv]
        exact fun h => h rfl
      rw [or_iff_right hinv, Reported, and_iff_right hinv, or_iff_right hz, or_assoc]
      rfl

theorem mark_ne_zero : (mark e).revents ≠ 0 ↔ Invalid e := by
  rw [mark, ite_ne_zero]
  exact and_iff_left (by decide)

theorem report_nval (hinv : Invalid e) : (report m (mark e)).revents &&& POLLNVAL ≠ 0 := by
  apply (Bits.ne_zero_iff _).mpr
  refine ⟨5, ?_⟩
  unfold report
  by_cases hfd : 32 ≤ e.fd
  · rw [if_pos (show 32 ≤ (mark e).fd from hfd), mark, if_pos hinv]
    exact show (POLLNVAL &&& POLLNVAL).getLsbD 5 = true by decide
  · rw [if_neg (show ¬ 32 ≤ (mark e).fd from hfd)]
    simp only [BitVec.getLsbD_and, BitVec.getLsbD_or, mark, if_pos hinv]
    simp

end Setup

section Rounds

variable {F : ℕ → ℕ → Masks → ℤ × Masks} {m saved : Masks} {fds : List Pollfd} {timeout : ℤ}

/-- The calls of `Fselect` in the loop: timeouts add up, and the last answer counts. -/
structure RoundsOk (F : ℕ → ℕ → Masks → ℤ × Masks) (saved : Masks) (timeout : ℕ)
    (out : ℤ × Masks × List Round) : Prop where
  pos : 0 < timeout → ∀ r ∈ out.2.2, r.timeout ≠ 0
  sum : (∀ r ∈ out.2.2, r.ret = 0) → (out.2.2.map Round.timeout).sum = timeout
  last : ∃ r, out.2.2.getLast? = some r ∧ out.1 = r.ret ∧
    (∃ k t, F k t saved = (r.ret, r.masks)) ∧ out.2.1 = if r.ret = 0 then saved else r.masks

theorem selectRounds_ok (F : ℕ → ℕ → Masks → ℤ × Masks) (saved : Masks) {max : ℕ}
    (hmax : 0 < max) (round timeout : ℕ) :
    RoundsOk F saved timeout (selectRounds F saved hmax round timeout) := by
  induction round, timeout using selectRounds.induct F saved hmax with
  | case1 round timeout hlt ret m hF hret =>
    rw [selectRounds, if_pos hlt, hF]
    simp only
    rw [if_pos hret]
    refine ⟨fun _ r hr => ?_, fun h => ?_, ?_⟩
    · rw [List.mem_singleton.mp hr]
      exact hmax.ne'
    · exact absurd (h _ List.mem_cons_self) hret
    · exact ⟨_, rfl, rfl, ⟨round, max, hF⟩, (if_neg hret).symm⟩
  | case2 round timeout hlt ret m hF hret ret' m' rs hrec ih =>
    rw [selectRounds, if_pos hlt, hF]
    simp only
    rw [if_neg hret]
    obtain ⟨hpos, hsum, r, hlast, hr, hk, hm⟩ := ih
    refine ⟨fun h0 x hx => ?_, fun h => ?_, r, ?_, hr, hk, hm⟩
    · rcases List.mem_cons.mp hx with rfl | hx
      · exact hmax.ne'
      · exact hpos (by omega) x hx
    · rw [List.map_cons, List.sum_cons, hsum fun x hx => h x (List.mem_cons_of_mem _ hx)]
      simp only
      omega
    · exact List.mem_getLast?_cons hlast
  | case3 round timeout hle ret m hF hret =>
    rw [selectRounds, if_neg hle, hF]
    simp only
    rw [if_pos hret]
    refine ⟨fun h0 r hr => ?_, fun h => absurd (h _ List.mem_cons_self) hret, ?_⟩
    · rw [List.mem_singleton.mp hr]
      exact h0.ne'
    · exact ⟨_, rfl, rfl, ⟨round, timeout, hF⟩, (if_neg hret).symm⟩
  | case4 round timeout hle ret m hF hret =>
    rw [selectRounds, if_neg hle, hF]
    simp only
    rw [if_neg hret]
    rw [not_not] at hret
    refine ⟨fun h0 r hr => ?_, fun _ => by simp, ?_⟩
    · rw [List.mem_singleton.mp hr]
      exact h0.ne'
    · exact ⟨_, rfl, hret.symm, ⟨round, timeout, hF⟩, (if_pos hret).symm⟩

/-- The calls of `Fselect` for a timeout of any sign and size. -/
structure WaitOk (F : ℕ → ℕ → Masks → ℤ × Masks) (m : Masks) (timeout : ℤ)
    (out : ℤ × Masks × List Round) : Prop where
  pos : 0 ≤ timeout → ∀ r ∈ out.2.2, r.timeout ≠ 0
  sum : 0 < timeout → (∀ r ∈ out.2.2, r.ret = 0) →
    ((out.2.2.map Round.timeout).sum : ℤ) = timeout
  last : ∃ r, out.2.2.getLast? = some r ∧ out.1 = r.ret ∧
    (∃ k t, F k t m = (r.ret, r.masks)) ∧
    out.2.1 = if (USHRT_MAX : ℤ) ≤ timeout ∧ r.ret = 0 then m else r.masks

theorem selectOnce_ok {t : ℕ} (hpos : 0 ≤ timeout → t ≠ 0) (hsum : 0 < timeout → (t : ℤ) = timeout)
    (hlt : timeout < USHRT_MAX) : WaitOk F m timeout (selectOnce F m t) where
  pos h r hr := by
    rw [List.mem_singleton.mp hr]
    exact hpos h
  sum h _ := by
    rw [← hsum h]
    simp [selectOnce]
  last := ⟨_, rfl, rfl, ⟨0, t, rfl⟩, (if_neg fun h => absurd h.1 (not_le.mpr hlt)).symm⟩

theorem wait_ok (F : ℕ → ℕ → Masks → ℤ × Masks) (m : Masks) (timeout : ℤ) :
    WaitOk F m timeout (wait F m timeout) := by
  unfold wait
  have hmax : (USHRT_MAX : ℤ) = 65535 := rfl
  by_cases hneg : timeout < 0
  · rw [if_pos hneg]
    exact selectOnce_ok (fun h => absurd hneg (not_lt.mpr h)) (fun h => by omega) (by omega)
  rw [if_neg hneg]
  by_cases hzero : timeout = 0
  · rw [if_pos hzero]
    exact selectOnce_ok (fun _ => one_ne_zero) (fun h => by omega) (by omega)
  rw [if_neg hzero]
  by_cases hshort : timeout.toNat < USHRT_MAX
  · rw [if_pos hshort]
    exact selectOnce_ok (fun _ => by omega) (fun h => by omega) (by omega)
  · rw [if_neg hshort]
    obtain ⟨hpos, hsum, r, hlast, hr, hk, hm⟩ :=
      selectRounds_ok F m ushrt_max_pos 0 timeout.toNat
    refine ⟨fun _ => hpos (by omega), fun h hz => ?_, r, hlast, hr, hk, ?_⟩
    · rw [hsum hz]
      omega
    · rw [hm]
      have hlong : (USHRT_MAX : ℤ) ≤ timeout := by omega
      simp only [hlong, true_and]

end Rounds

section Count

variable {F : ℕ → ℕ → Masks → ℤ × Masks} {m : Masks} {fds : List Pollfd} {timeout : ℤ}

theorem countP_report : ((fds.map mark).map (report m)).countP (fun e => decide (e.revents ≠ 0)) =
    fds.countP (fun e => decide (Invalid e)) + fds.countP fun e => decide (Reported m e) := by
  rw [List.map_map]
  induction fds with
  | nil => rfl
  | cons e es ih =>
    simp only [List.map_cons, List.countP_cons, ih]
    have hiff : (report m (mark e)).revents ≠ 0 ↔ Invalid e ∨ Reported m e := report_ne_zero
    simp only [Function.comp_apply, decide_eq_true_eq, hiff]
    by_cases hinv : Invalid e
    · have hnot : ¬ Reported m e := fun h => h.1 hinv
      simp only [hinv, hnot, or_false, if_true, if_false]
      omega
    · simp only [hinv, false_or, if_false]
      omega

theorem countP_request : (fds.countP (fun e => decide (Reported (request fds) e)) = 0) ↔
    request fds = ⟨0, 0, 0⟩ := by
  rw [List.countP_eq_zero]
  constructor
  · intro h
    have hnone : ∀ fd < 32, ¬ 0 < (request fds).directions fd := by
      intro fd hfd hd
      obtain ⟨e, he, hr, -⟩ := exists_reported ⟨fun _ h => h, fun _ h => h, fun _ h => h⟩ hfd hd
      exact h e he (decide_eq_true hr)
    have hzero : ∀ x : BitVec 32, (∀ fd < 32, x.getLsbD fd = false) → x = 0 := by
      intro x hx
      apply BitVec.eq_of_getLsbD_eq
      intro i hi
      rw [hx i hi]
      simp
    cases hreq : request fds with
    | mk r w x =>
      rw [hreq] at hnone
      simp only [Masks.directions, Nat.not_lt, Nat.le_zero, Nat.add_eq_zero_iff,
        Bool.toNat_eq_zero] at hnone
      rw [hzero r fun fd hfd => (hnone fd hfd).1.1, hzero w fun fd hfd => (hnone fd hfd).1.2,
        hzero x fun fd hfd => (hnone fd hfd).2]
  · intro hreq e _ he
    have hd := directions_pos (of_decide_eq_true he)
    rw [hreq] at hd
    simp [Masks.directions] at hd

theorem invalid_report {e : Pollfd} : Invalid (report m e) ↔ Invalid e := by
  unfold report
  by_cases h : 32 ≤ e.fd
  · rw [if_pos h]
  · rw [if_neg h]
    rfl

theorem emulate_eq (F : ℕ → ℕ → Masks → ℤ × Masks) (fds : List Pollfd) (timeout : ℤ) :
    emulate F fds timeout =
      if fds.countP (fun e => decide (Invalid e)) ≠ 0 ∧ request fds = ⟨0, 0, 0⟩ then
        ⟨fds.countP fun e => decide (Invalid e), none, fds.map mark, []⟩
      else
        let out := wait F (request fds) timeout
        if out.1 < 0 then ⟨-1, some (-out.1), (fds.map mark).map (report out.2.1), out.2.2⟩
        else ⟨out.1, none, (fds.map mark).map (report out.2.1), out.2.2⟩ := by
  unfold emulate
  rw [setup_eq, ← request_eq]
  simp only [zero_add, ne_eq, Nat.cast_eq_zero]

theorem countP_mark :
    (fds.map mark).countP (fun e => decide (e.revents ≠ 0)) =
      fds.countP fun e => decide (Invalid e) := by
  rw [List.countP_map]
  apply List.countP_congr
  intro e _
  simp only [Function.comp_apply, decide_eq_true_eq]
  exact mark_ne_zero

theorem count_iff {r : Round} (hw : r.masks.Within (request fds)) (hr : r.ret = r.masks.bits) :
    (r.ret = (fds.countP (fun e => decide (Invalid e)) + fds.countP (fun e =>
      decide (Reported (if (USHRT_MAX : ℤ) ≤ timeout ∧ r.ret = 0 then request fds else r.masks) e))
        : ℕ)) ↔
    if (USHRT_MAX : ℤ) ≤ timeout ∧ r.ret = 0 then
      request fds = ⟨0, 0, 0⟩ ∧ ∀ e ∈ fds, ¬ Invalid e
    else r.masks.surplus = fds.countP (fun e => decide (Invalid e)) + repeats r.masks fds := by
  by_cases hlong : (USHRT_MAX : ℤ) ≤ timeout ∧ r.ret = 0
  · simp only [if_pos hlong]
    have hinv : fds.countP (fun e => decide (Invalid e)) = 0 ↔ ∀ e ∈ fds, ¬ Invalid e := by
      rw [List.countP_eq_zero]
      simp only [decide_eq_true_eq]
    rw [hlong.2, ← hinv, ← countP_request]
    omega
  · simp only [if_neg hlong]
    have hsub := bits_sub_reported hw
    rw [hr]
    omega

/-- The emulation keeps its promises exactly when the count comes out right: timeouts
and marks never fail. -/
theorem poll_ok_iff (hF : FselectOk F) : PollOk F fds timeout ↔ CountOk F fds timeout := by
  by_cases hearly : fds.countP (fun e => decide (Invalid e)) ≠ 0 ∧ request fds = ⟨0, 0, 0⟩
  · have hE := emulate_eq F fds timeout
    rw [if_pos hearly] at hE
    constructor
    · intro _ r hr
      rw [hE] at hr
      simp at hr
    · intro _
      refine ⟨?_, ?_, ?_, ?_, ?_⟩ <;> rw [hE]
      · simp
      · simp
      · simp
      · intro e he hinv
        obtain ⟨e, -, rfl⟩ := List.mem_map.mp he
        have hinv' : Invalid e := hinv
        rw [mark, if_pos hinv']
        exact show POLLNVAL &&& POLLNVAL ≠ 0 by decide
      · intro _
        rw [countP_mark]
  · obtain ⟨hpos, hsum, r, hlast, hr, ⟨k, t, hk⟩, hm⟩ :=
      wait_ok F (request fds) timeout
    have hE := emulate_eq F fds timeout
    rw [if_neg hearly] at hE
    simp only [hr] at hE
    have hrounds : (emulate F fds timeout).rounds = (wait F (request fds) timeout).2.2 := by
      rw [hE]
      split <;> rfl
    have hfds : (emulate F fds timeout).fds =
        (fds.map mark).map (report (wait F (request fds) timeout).2.1) := by
      rw [hE]
      split <;> rfl
    have hret : 0 ≤ (emulate F fds timeout).retval ↔ 0 ≤ r.ret := by
      rw [hE]
      split
      · simp only
        omega
      · simp only
    have hval : 0 ≤ r.ret → (emulate F fds timeout).retval = r.ret := by
      intro h0
      rw [hE, if_neg (not_lt.mpr h0)]
    -- the count, in terms of the kernel's last answer
    have hkey : 0 ≤ r.ret → ((emulate F fds timeout).retval =
          ((emulate F fds timeout).fds.countP fun e => decide (e.revents ≠ 0) : ℕ) ↔
        if (USHRT_MAX : ℤ) ≤ timeout ∧ r.ret = 0 then
          request fds = ⟨0, 0, 0⟩ ∧ ∀ e ∈ fds, ¬ Invalid e
        else r.masks.surplus = fds.countP (fun e => decide (Invalid e)) + repeats r.masks fds) := by
      intro h0
      have hans := hF k t (request fds)
      rw [hk] at hans
      obtain ⟨hw, hbits⟩ := hans h0
      rw [hval h0, hfds, countP_report, hm]
      exact count_iff hw hbits
    constructor
    · intro h x hx h0
      rw [hrounds, hlast, Option.mem_some_iff] at hx
      subst hx
      exact (hkey h0).mp (h.count (hret.mpr h0))
    · intro h
      refine ⟨fun ht => ?_, fun ht _ => ?_, fun ht => ?_, fun e he hinv => ?_, fun h0 => ?_⟩
      · rw [hrounds]
        exact hpos ht.le
      · rw [hrounds]
        exact hsum ht
      · rw [hrounds]
        exact hpos ht.ge
      · rw [hfds, List.map_map] at he
        obtain ⟨e, -, rfl⟩ := List.mem_map.mp he
        have hinv' : Invalid (mark e) := invalid_report.mp hinv
        exact report_nval hinv'
      · have h0' := hret.mp h0
        exact (hkey h0').mpr (h r (by rw [hrounds, hlast]; rfl) h0')

/-- A kernel that reports every descriptor it is asked for in the first mask, at once. -/
def demoSelect : ℕ → ℕ → Masks → ℤ × Masks := fun _ _ m =>
  ((⟨m.rfds, 0, 0⟩ : Masks).bits, ⟨m.rfds, 0, 0⟩)

theorem demoSelect_ok : FselectOk demoSelect := by
  intro round timeout m _
  have hnone : ∀ fd, (0 : BitVec 32).getLsbD fd = true → False := by simp
  refine ⟨?_, ?_⟩
  · simp only [demoSelect]
    exact ⟨fun _ h => h, fun _ h => (hnone _ h).elim, fun _ h => (hnone _ h).elim⟩
  · simp only [demoSelect]

theorem poll_ok_iff_demo : PollOk demoSelect [⟨0, POLLIN, 0⟩] 100 ↔
    CountOk demoSelect [⟨0, POLLIN, 0⟩] 100 :=
  poll_ok_iff demoSelect_ok

/-- One valid entry that is ready and one invalid entry: `poll` returns 1, two entries
have events. -/
theorem poll_forgets_invalid : FselectOk demoSelect ∧
    (emulate demoSelect [⟨0, POLLIN, 0⟩, ⟨40, POLLIN, 0⟩] 100).retval = 1 ∧
    (emulate demoSelect [⟨0, POLLIN, 0⟩, ⟨40, POLLIN, 0⟩] 100).fds.map Pollfd.revents =
      [POLLIN, POLLNVAL] ∧
    ¬ PollOk demoSelect [⟨0, POLLIN, 0⟩, ⟨40, POLLIN, 0⟩] 100 := by
  have hret : (emulate demoSelect [⟨0, POLLIN, 0⟩, ⟨40, POLLIN, 0⟩] 100).retval = 1 := by
    decide +kernel
  have hfds : (emulate demoSelect [⟨0, POLLIN, 0⟩, ⟨40, POLLIN, 0⟩] 100).fds =
      [⟨0, POLLIN, POLLIN⟩, ⟨40, POLLIN, POLLNVAL⟩] := by decide +kernel
  refine ⟨demoSelect_ok, hret, by rw [hfds]; rfl, fun h => ?_⟩
  have hcount := h.count (by rw [hret]; decide)
  rw [hret, hfds] at hcount
  exact absurd hcount (by decide)

end Count

end Mintlib.Poll
