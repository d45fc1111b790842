import Mintlib.Poll

/-!
# `select.c`: `select` on top of `poll`

The descriptors below `nfds` become one entry each, and the three sets are made
anew from the events that `poll` reports.
-/

namespace Mintlib.Select

open Poll

abbrev FD_SETSIZE : ℕ := 1024
abbrev NFDBITS : ℕ := 32

abbrev FdSet := ℕ → BitVec 32

abbrev fdmask (d : ℕ) : BitVec 32 := BitVec.twoPow 32 (d % NFDBITS)

def FD_ISSET (d : ℕ) (s : FdSet) : Prop := s (d / NFDBITS) &&& fdmask d ≠ 0

instance (d : ℕ) (s : FdSet) : Decidable (FD_ISSET d s) := inferInstanceAs (Decidable (_ ≠ _))

def FD_SET (d : ℕ) (s : FdSet) : FdSet :=
  Function.update s (d / NFDBITS) (s (d / NFDBITS) ||| fdmask d)

def howmany (x y : ℕ) : ℕ := (x + (y - 1)) / y

/-- `memset` of the words that hold the first `nfds` descriptors. -/
def clear (nfds : ℕ) (s : FdSet) : FdSet := fun w => if w < howmany nfds NFDBITS then 0 else s w

/-- The arguments `readfds`, `writefds` and `exceptfds`; `none` is `NULL`. -/
structure Sets where
  readfds : Option FdSet
  writefds : Option FdSet
  exceptfds : Option FdSet

def enter (set : Option FdSet) (flag : BitVec 16) (pfds : List Pollfd) : List Pollfd :=
  match set with
  | none => pfds
  | some s => pfds.mapIdx fun i e =>
      if FD_ISSET i s then { e with fd := i, events := e.events ||| flag } else e

/-- The entries that `poll` gets. -/
def entries (nfds : ℕ) (sets : Sets) : List Pollfd :=
  enter sets.writefds POLLOUT
    (enter sets.exceptfds POLLPRI
      (enter sets.readfds POLLIN (List.replicate nfds ⟨0, 0, 0⟩)))

structure Timeval where
  tv_sec : ℤ
  tv_usec : ℤ

/-- Seconds and parts of a millisecond, rounded up in 32-bit arithmetic. -/
def toMsec (per sec frac : ℤ) : ℤ :=
  Int.bmod (sec * 1000 + (Int.bmod (frac + (per - 1)) (2 ^ 32)).tdiv per) (2 ^ 32)

def msecTimeout : Option Timeval → ℤ
  | none => -1
  | some t => toMsec 1000 t.tv_sec t.tv_usec

/-- `FD_SET` of a set that may be `NULL`. -/
def raise (fd : ℕ) (set : Option FdSet) : Option FdSet := set.map (FD_SET fd)

/-- `if (set != NULL && FD_ISSET (fd, set)) FD_SET (fd, set)`. -/
def raiseAgain (fd : ℕ) (set : Option FdSet) : Option FdSet :=
  set.map fun s => if FD_ISSET fd s then FD_SET fd s else s

def isRead (revents : BitVec 16) : Prop :=
  revents &&& POLLIN ≠ 0 ∨ revents &&& POLLRDNORM ≠ 0 ∨ revents &&& POLLRDBAND ≠ 0

def isExcept (revents : BitVec 16) : Prop := revents &&& POLLPRI ≠ 0

def isWrite (revents : BitVec 16) : Prop :=
  revents &&& POLLOUT ≠ 0 ∨ revents &&& POLLWRNORM ≠ 0 ∨ revents &&& POLLWRBAND ≠ 0

def isError (revents : BitVec 16) : Prop :=
  revents &&& POLLERR ≠ 0 ∨ revents &&& POLLNVAL ≠ 0 ∨ revents &&& POLLHUP ≠ 0 ∨
    revents &&& POLLMSG ≠ 0

instance : DecidablePred isRead := fun _ => inferInstanceAs (Decidable (_ ∨ _))
instance : DecidablePred isExcept := fun _ => inferInstanceAs (Decidable (_ ≠ _))
instance : DecidablePred isWrite := fun _ => inferInstanceAs (Decidable (_ ∨ _))
instance : DecidablePred isError := fun _ => inferInstanceAs (Decidable (_ ∨ _))

/-- One set in the last loop: `ready` says whether the entry's events are its own. -/
def tellOne (ready : BitVec 16 → Prop) [DecidablePred ready] (set : Option FdSet) (e : Pollfd) :
    Option FdSet :=
  let set := if ready e.revents then raise e.fd set else set
  if isError e.revents then raiseAgain e.fd set else set

def tell (s : Sets) (e : Pollfd) : Sets where
  readfds := tellOne isRead s.readfds e
  exceptfds := tellOne isExcept s.exceptfds e
  writefds := tellOne isWrite s.writefds e

/-- What `select` returns, and the sets that it leaves. -/
structure Result where
  retval : ℤ
  einval : Bool
  sets : Sets

/-- `poll` gives its return value and the `revents` of each entry. -/
def select (poll : List Pollfd → ℤ → ℤ × (ℕ → BitVec 16)) (nfds : ℤ) (sets : Sets)
    (timeout : Option Timeval) : Result :=
  if nfds < 0 ∨ (FD_SETSIZE : ℤ) < nfds then ⟨-1, true, sets⟩
  else
    let pfds := entries nfds.toNat sets
    let (retval, revents) := poll pfds (msecTimeout timeout)
    if retval < 0 then ⟨retval, false, sets⟩
    else
      let pfds := pfds.mapIdx fun i e => { e with revents := revents i }
      let cleared : Sets := ⟨sets.readfds.map (clear nfds.toNat),
        sets.writefds.map (clear nfds.toNat), sets.exceptfds.map (clear nfds.toNat)⟩
      ⟨retval, false, if retval ≠ 0 then pfds.foldl tell cleared else cleared⟩

/-- The conditions that `poll` reports without being asked. -/
abbrev UNASKED : BitVec 16 := POLLERR ||| POLLHUP ||| POLLNVAL ||| POLLMSG

/-- An answer of `poll` that is no error: reports are asked for or exceptional, and
the entries with a report are counted. -/
structure PollAnswer (pfds : List Pollfd) (ans : ℤ × (ℕ → BitVec 16)) : Prop where
  reports : ∀ i, ∀ h : i < pfds.length, ∀ k, (ans.2 i).getLsbD k = true →
    (pfds.get ⟨i, h⟩).events.getLsbD k = true ∨ UNASKED.getLsbD k = true
  count : ans.1 = ((Finset.range pfds.length).filter fun i => ans.2 i ≠ 0).card

def Has (set : Option FdSet) (d : ℕ) : Prop := ∃ s ∈ set, FD_ISSET d s

instance (set : Option FdSet) (d : ℕ) : Decidable (Has set d) :=
  match set with
  | none => .isFalse (by simp [Has])
  | some s => decidable_of_iff (FD_ISSET d s) (by simp [Has])

def Sets.Any (s : Sets) (d : ℕ) : Prop := Has s.readfds d ∨ Has s.writefds d ∨ Has s.exceptfds d

instance (s : Sets) (d : ℕ) : Decidable (s.Any d) := inferInstanceAs (Decidable (_ ∨ _))

/-- What the comment at the top of `select` promises for the first `nfds` descriptors,
when `poll` gives `revents`. -/
structure SelectOk (nfds : ℕ) (sets : Sets) (revents : ℕ → BitVec 16) (out : Result) : Prop where
  readfds : ∀ d, Has out.sets.readfds d → Has sets.readfds d
  writefds : ∀ d, Has out.sets.writefds d → Has sets.writefds d
  exceptfds : ∀ d, Has out.sets.exceptfds d → Has sets.exceptfds d
  told : ∀ d < nfds, sets.Any d → revents d ≠ 0 → out.sets.Any d
  polled : ∀ e ∈ entries nfds sets, e.fd < nfds ∧ sets.Any e.fd
  count : out.retval = ((Finset.range nfds).filter fun d => out.sets.Any d).card

def Ready (revents : BitVec 16) : Prop := isRead revents ∨ isWrite revents ∨ isExcept revents

section Sets

variable {nfds d e i : ℕ} {s : FdSet} {set : Option FdSet} {sets : Sets} {flag : BitVec 16}
  {pfds : List Pollfd} {ready : BitVec 16 → Prop} [DecidablePred ready]

theorem isset_iff : FD_ISSET d s ↔ (s (d / NFDBITS)).getLsbD (d % NFDBITS) = true :=
  Bits.and_twoPow_ne_zero _ (Nat.mod_lt _ (by decide))

theorem isset_set : FD_ISSET d (FD_SET e s) ↔ FD_ISSET d s ∨ d = e := by
  rw [isset_iff, isset_iff, FD_SET]
  by_cases hw : d / NFDBITS = e / NFDBITS
  · rw [hw, Function.update_self, BitVec.getLsbD_or, Bool.or_eq_true, BitVec.getLsbD_twoPow]
    have hlt : e % NFDBITS < 32 := Nat.mod_lt _ (by decide)
    simp only [hlt, decide_true, Bool.true_and, decide_eq_true_eq]
    apply or_congr_right
    simp only [NFDBITS] at *
    omega
  · rw [Function.update_of_ne hw]
    refine (or_iff_left ?_).symm
    rintro rfl
    exact hw rfl

theorem isset_clear (h : FD_ISSET d (clear nfds s)) : FD_ISSET d s ∧ nfds ≤ d := by
  unfold FD_ISSET clear at h
  by_cases hw : d / NFDBITS < howmany nfds NFDBITS
  · rw [if_pos hw] at h
    simp at h
  · rw [if_neg hw] at h
    refine ⟨h, ?_⟩
    simp only [howmany, NFDBITS] at hw
    omega

theorem has_clear (h : Has (set.map (clear nfds)) d) : Has set d ∧ nfds ≤ d := by
  obtain ⟨s', hs', hd⟩ := h
  obtain ⟨s, hs, rfl⟩ := Option.map_eq_some_iff.mp hs'
  have hc := isset_clear hd
  exact ⟨⟨s, hs, hc.1⟩, hc.2⟩

theorem has_tellOne {e : Pollfd} : Has (tellOne ready set e) d ↔
    Has set d ∨ (set ≠ none ∧ ready e.revents ∧ d = e.fd) := by
  cases set with
  | none => simp [tellOne, raise, raiseAgain, Has]
  | some s =>
    have hagain : ∀ t : FdSet, Has (raiseAgain e.fd (some t)) d ↔ FD_ISSET d t := by
      intro t
      simp only [Has, raiseAgain, Option.map_some, Option.mem_some_iff, exists_eq_left']
      by_cases ht : FD_ISSET e.fd t
      · rw [if_pos ht, isset_set]
        refine or_iff_left_of_imp ?_
        rintro rfl
        exact ht
      · rw [if_neg ht]
    have hself : ∀ t : FdSet, Has (some t) d ↔ FD_ISSET d t := fun t => by simp [Has]
    unfold tellOne
    by_cases hr : ready e.revents <;> by_cases herr : isError e.revents <;>
      simp only [hr, herr, if_true, if_false, raise, Option.map_some, hagain, hself, isset_set,
        ne_eq, reduceCtorEq, not_false_eq_true, true_and, false_and, or_false]

theorem foldl_tellOne_none (l : List Pollfd) :
    l.foldl (tellOne ready) none = none := by
  induction l with
  | nil => rfl
  | cons e l ih =>
    rw [List.foldl_cons]
    have hnone : tellOne ready none e = none := by
      unfold tellOne raise raiseAgain
      split <;> split <;> rfl
    rw [hnone, ih]

theorem tellOne_ne_none {e : Pollfd} : tellOne ready set e ≠ none ↔ set ≠ none := by
  cases set with
  | none =>
    have : [e].foldl (tellOne ready) none = none := foldl_tellOne_none [e]
    simpa using this
  | some s =>
    unfold tellOne raise raiseAgain
    split <;> split <;> simp

theorem has_foldl (l : List Pollfd) : Has (l.foldl (tellOne ready) set) d ↔
    Has set d ∨ (set ≠ none ∧ ∃ e ∈ l, ready e.revents ∧ d = e.fd) := by
  induction l generalizing set with
  | nil => simp
  | cons e l ih =>
    rw [List.foldl_cons, ih, has_tellOne, tellOne_ne_none]
    simp only [List.exists_mem_cons_iff]
    tauto

theorem foldl_tell (l : List Pollfd) (s : Sets) : l.foldl tell s =
    ⟨l.foldl (tellOne isRead) s.readfds, l.foldl (tellOne isWrite) s.writefds,
      l.foldl (tellOne isExcept) s.exceptfds⟩ := by
  induction l generalizing s with
  | nil => rfl
  | cons e l ih => rw [List.foldl_cons, ih]; rfl

theorem enter_length (set : Option FdSet) (flag : BitVec 16) :
    (enter set flag pfds).length = pfds.length := by
  cases set with
  | none => rfl
  | some s => exact List.length_mapIdx

theorem enter_get (h : i < (enter set flag pfds).length) (h' : i < pfds.length) :
    (enter set flag pfds).get ⟨i, h⟩ =
      if Has set i then ⟨i, (pfds.get ⟨i, h'⟩).events ||| flag, (pfds.get ⟨i, h'⟩).revents⟩
      else pfds.get ⟨i, h'⟩ := by
  cases set with
  | none => simp [enter, Has]
  | some s =>
    have hhas : Has (some s) i ↔ FD_ISSET i s := by simp [Has]
    simp only [enter, List.get_eq_getElem, List.getElem_mapIdx, hhas]

theorem entries_length : (entries nfds sets).length = nfds := by
  unfold entries
  rw [enter_length, enter_length, enter_length, List.length_replicate]

def asked (sets : Sets) (d : ℕ) : BitVec 16 :=
  (if Has sets.readfds d then POLLIN else 0) ||| (if Has sets.exceptfds d then POLLPRI else 0)
    ||| (if Has sets.writefds d then POLLOUT else 0)

theorem entries_get (h : i < (entries nfds sets).length) :
    (entries nfds sets).get ⟨i, h⟩ = ⟨if sets.Any i then i else 0, asked sets i, 0⟩ := by
  have hn : i < nfds := by rwa [entries_length] at h
  have h1 : i < (List.replicate nfds (⟨0, 0, 0⟩ : Pollfd)).length := by simpa using hn
  have h2 := h1
  rw [← enter_length sets.readfds POLLIN] at h2
  have h3 := h2
  rw [← enter_length sets.exceptfds POLLPRI] at h3
  have hrep : (List.replicate nfds (⟨0, 0, 0⟩ : Pollfd)).get ⟨i, h1⟩ = ⟨0, 0, 0⟩ := by simp
  have h4 := h3
  rw [← enter_length sets.writefds POLLOUT] at h4
  show (enter sets.writefds POLLOUT _).get ⟨i, h4⟩ = _
  rw [enter_get h4 h3, enter_get h3 h2, enter_get h2 h1, hrep, asked]
  by_cases hr : Has sets.readfds i <;> by_cases hx : Has sets.exceptfds i <;>
    by_cases hw : Has sets.writefds i <;>
      simp only [Sets.Any, hr, hx, hw, if_true, if_false, or_true, or_false, or_self] <;>
        rfl

end Sets

section Answer

variable {nfds d i k : ℕ} {sets : Sets} {set : Option FdSet} {ans : ℤ × (ℕ → BitVec 16)}
  {ready : BitVec 16 → Prop} [DecidablePred ready]

theorem flag_iff {r flag : BitVec 16} (hk : k < 16) (hf : flag = BitVec.twoPow 16 k) :
    r &&& flag ≠ 0 ↔ r.getLsbD k = true := by
  rw [hf]
  exact Bits.and_twoPow_ne_zero r hk

theorem asked_bit (h : (asked sets d).getLsbD k = true) :
    (k = 0 ∧ Has sets.readfds d) ∨ (k = 1 ∧ Has sets.exceptfds d) ∨
      (k = 2 ∧ Has sets.writefds d) := by
  have hpart : ∀ {P : Prop} [Decidable P] {j : ℕ},
      (if P then BitVec.twoPow 16 j else 0).getLsbD k = true → k = j ∧ P := by
    intro P _ j hbit
    by_cases hP : P
    · rw [if_pos hP, BitVec.getLsbD_twoPow] at hbit
      simp only [Bool.and_eq_true, decide_eq_true_eq] at hbit
      exact ⟨hbit.2.symm, hP⟩
    · rw [if_neg hP] at hbit
      simp at hbit
  rw [asked, show POLLIN = BitVec.twoPow 16 0 by decide, show POLLPRI = BitVec.twoPow 16 1 by decide,
    show POLLOUT = BitVec.twoPow 16 2 by decide, BitVec.getLsbD_or, BitVec.getLsbD_or,
    Bool.or_eq_true, Bool.or_eq_true] at h
  rcases h with (h | h) | h
  · exact Or.inl (hpart h)
  · exact Or.inr (Or.inl (hpart h))
  · exact Or.inr (Or.inr (hpart h))

theorem PollAnswer.asked (ha : PollAnswer (entries nfds sets) ans) (hi : i < nfds)
    (hk : UNASKED.getLsbD k = false) (h : (ans.2 i).getLsbD k = true) :
    (k = 0 ∧ Has sets.readfds i) ∨ (k = 1 ∧ Has sets.exceptfds i) ∨
      (k = 2 ∧ Has sets.writefds i) := by
  have hlt : i < (entries nfds sets).length := by rwa [entries_length]
  have hrep := (ha.reports i hlt k h).resolve_right (by rw [hk]; simp)
  rw [entries_get hlt] at hrep
  exact asked_bit hrep

theorem PollAnswer.read (ha : PollAnswer (entries nfds sets) ans) (hi : i < nfds)
    (h : isRead (ans.2 i)) : Has sets.readfds i := by
  rcases h with h | h | h
  · have hbit := (flag_iff (k := 0) (by decide) (by decide)).mp h
    rcases ha.asked hi (by decide) hbit with h | h | h
    · exact h.2
    · exact absurd h.1 (by decide)
    · exact absurd h.1 (by decide)
  · have hbit := (flag_iff (k := 6) (by decide) (by decide)).mp h
    rcases ha.asked hi (by decide) hbit with h | h | h <;> exact absurd h.1 (by decide)
  · have hbit := (flag_iff (k := 7) (by decide) (by decide)).mp h
    rcases ha.asked hi (by decide) hbit with h | h | h <;> exact absurd h.1 (by decide)

theorem PollAnswer.except (ha : PollAnswer (entries nfds sets) ans) (hi : i < nfds)
    (h : isExcept (ans.2 i)) : Has sets.exceptfds i := by
  have hbit := (flag_iff (k := 1) (by decide) (by decide)).mp h
  rcases ha.asked hi (by decide) hbit with h | h | h
  · exact absurd h.1 (by decide)
  · exact h.2
  · exact absurd h.1 (by decide)

theorem PollAnswer.write (ha : PollAnswer (entries nfds sets) ans) (hi : i < nfds)
    (h : isWrite (ans.2 i)) : Has sets.writefds i := by
  rcases h with h | h | h
  · have hbit := (flag_iff (k := 2) (by decide) (by decide)).mp h
    rcases ha.asked hi (by decide) hbit with h | h | h
    · exact absurd h.1 (by decide)
    · exact absurd h.1 (by decide)
    · exact h.2
  · have hbit := (flag_iff (k := 8) (by decide) (by decide)).mp h
    rcases ha.asked hi (by decide) hbit with h | h | h <;> exact absurd h.1 (by decide)
  · have hbit := (flag_iff (k := 9) (by decide) (by decide)).mp h
    rcases ha.asked hi (by decide) hbit with h | h | h <;> exact absurd h.1 (by decide)

theorem PollAnswer.quiet (ha : PollAnswer (entries nfds sets) ans) (h0 : ans.1 = 0) (hi : i < nfds) :
    ans.2 i = 0 := by
  have hc := ha.count
  rw [h0, eq_comm, Nat.cast_eq_zero, Finset.card_eq_zero, entries_length] at hc
  by_contra hne
  have hmem : i ∈ (Finset.range nfds).filter fun i => ans.2 i ≠ 0 :=
    Finset.mem_filter.mpr ⟨Finset.mem_range.mpr hi, hne⟩
  rw [hc] at hmem
  exact absurd hmem (Finset.notMem_empty i)

/-- The entries with the events that `poll` has reported. -/
def answered (nfds : ℕ) (sets : Sets) (revents : ℕ → BitVec 16) : List Pollfd :=
  (entries nfds sets).mapIdx fun i e => { e with revents := revents i }

theorem exists_answered {revents : ℕ → BitVec 16} {P : BitVec 16 → ℕ → Prop} :
    (∃ e ∈ answered nfds sets revents, P e.revents e.fd) ↔
      ∃ i < nfds, P (revents i) (if sets.Any i then i else 0) := by
  constructor
  · rintro ⟨e, he, hP⟩
    obtain ⟨i, hi, rfl⟩ := List.mem_iff_getElem.mp he
    have hlt : i < (entries nfds sets).length := by simpa [answered] using hi
    have hget := entries_get hlt
    rw [List.get_eq_getElem] at hget
    refine ⟨i, by rwa [entries_length] at hlt, ?_⟩
    simpa only [answered, List.getElem_mapIdx, hget] using hP
  · rintro ⟨i, hi, hP⟩
    have hlt : i < (entries nfds sets).length := by rwa [entries_length]
    have hlt' : i < (answered nfds sets revents).length := by simpa [answered] using hlt
    have hget := entries_get hlt
    rw [List.get_eq_getElem] at hget
    refine ⟨(answered nfds sets revents)[i], List.getElem_mem hlt', ?_⟩
    simpa only [answered, List.getElem_mapIdx, hget] using hP

theorem has_output (ha : PollAnswer (entries nfds sets) ans)
    (hready : ∀ i < nfds, ready (ans.2 i) → Has set i) (hany : ∀ i, Has set i → sets.Any i)
    (hzero : ¬ ready 0) :
    Has (if ans.1 ≠ 0 then (answered nfds sets ans.2).foldl (tellOne ready) (set.map (clear nfds))
      else set.map (clear nfds)) d ↔
    Has (set.map (clear nfds)) d ∨ (d < nfds ∧ ready (ans.2 d)) := by
  by_cases h0 : ans.1 ≠ 0
  · rw [if_pos h0, has_foldl, exists_answered (P := fun r fd => ready r ∧ d = fd)]
    apply or_congr_right
    constructor
    · rintro ⟨-, i, hi, hr, hd⟩
      rw [if_pos (hany i (hready i hi hr))] at hd
      rw [hd]
      exact ⟨hi, hr⟩
    · rintro ⟨hd, hr⟩
      have hset := hready d hd hr
      refine ⟨?_, d, hd, hr, by rw [if_pos (hany d hset)]⟩
      obtain ⟨s, hs, -⟩ := hset
      rw [Option.mem_def.mp hs]
      exact Option.some_ne_none _
  · rw [if_neg h0]
    rw [not_not] at h0
    refine (or_iff_left ?_).symm
    rintro ⟨hd, hr⟩
    rw [ha.quiet h0 hd] at hr
    exact hzero hr

/-- When the code keeps its promise: no entry stands for a descriptor that was not
requested, and what `poll` reports is never exceptional only. -/
structure SelectCond (nfds : ℕ) (sets : Sets) (revents : ℕ → BitVec 16) : Prop where
  gaps : (∀ d < nfds, sets.Any d) ∨ sets.Any 0
  ready : ∀ d < nfds, revents d ≠ 0 → Ready (revents d)

theorem select_eq {poll : List Pollfd → ℤ → ℤ × (ℕ → BitVec 16)} (timeout : Option Timeval)
    (hn : nfds ≤ FD_SETSIZE) (hret : 0 ≤ (poll (entries nfds sets) (msecTimeout timeout)).1) :
    let ans := poll (entries nfds sets) (msecTimeout timeout)
    let out := select poll nfds sets timeout
    out.retval = ans.1 ∧
    out.sets.readfds = (if ans.1 ≠ 0 then (answered nfds sets ans.2).foldl (tellOne isRead)
      (sets.readfds.map (clear nfds)) else sets.readfds.map (clear nfds)) ∧
    out.sets.writefds = (if ans.1 ≠ 0 then (answered nfds sets ans.2).foldl (tellOne isWrite)
      (sets.writefds.map (clear nfds)) else sets.writefds.map (clear nfds)) ∧
    out.sets.exceptfds = (if ans.1 ≠ 0 then (answered nfds sets ans.2).foldl (tellOne isExcept)
      (sets.exceptfds.map (clear nfds)) else sets.exceptfds.map (clear nfds)) := by
  intro ans out
  have hout : out = ⟨ans.1, false, if ans.1 ≠ 0 then (answered nfds sets ans.2).foldl tell
      ⟨sets.readfds.map (clear nfds), sets.writefds.map (clear nfds),
        sets.exceptfds.map (clear nfds)⟩
      else ⟨sets.readfds.map (clear nfds), sets.writefds.map (clear nfds),
        sets.exceptfds.map (clear nfds)⟩⟩ := by
    show select poll nfds sets timeout = _
    unfold select
    rw [if_neg (by simp only [FD_SETSIZE] at *; omega), Int.toNat_natCast]
    simp only
    rw [if_neg (not_lt.mpr hret)]
    rfl
  rw [hout, foldl_tell]
  by_cases h0 : ans.1 ≠ 0
  · simp only [if_pos h0, and_self]
  · simp only [if_neg h0, and_self]

theorem any_output {poll : List Pollfd → ℤ → ℤ × (ℕ → BitVec 16)} {timeout : Option Timeval}
    (hn : nfds ≤ FD_SETSIZE) (hret : 0 ≤ (poll (entries nfds sets) (msecTimeout timeout)).1)
    (ha : PollAnswer (entries nfds sets) (poll (entries nfds sets) (msecTimeout timeout)))
    (hd : d < nfds) : (select poll nfds sets timeout).sets.Any d ↔
      Ready ((poll (entries nfds sets) (msecTimeout timeout)).2 d) := by
  obtain ⟨-, hr, hw, hx⟩ := select_eq _ hn hret
  have hbelow : ∀ {set : Option FdSet}, ¬ Has (set.map (clear nfds)) d := by
    intro set h
    exact absurd (has_clear h).2 (not_le.mpr hd)
  rw [Sets.Any, hr, hw, hx,
    has_output ha (fun i hi h => ha.read hi h) (fun i h => Or.inl h) (by decide),
    has_output ha (fun i hi h => ha.write hi h) (fun i h => Or.inr (Or.inl h)) (by decide),
    has_output ha (fun i hi h => ha.except hi h) (fun i h => Or.inr (Or.inr h)) (by decide),
    or_iff_right hbelow, or_iff_right hbelow, or_iff_right hbelow, and_iff_right hd,
    and_iff_right hd, and_iff_right hd, Ready]

theorem subset_output {ready : BitVec 16 → Prop} [DecidablePred ready]
    (ha : PollAnswer (entries nfds sets) ans) (hready : ∀ i < nfds, ready (ans.2 i) → Has set i)
    (hany : ∀ i, Has set i → sets.Any i) (hzero : ¬ ready 0)
    (h : Has (if ans.1 ≠ 0 then (answered nfds sets ans.2).foldl (tellOne ready)
      (set.map (clear nfds)) else set.map (clear nfds)) d) : Has set d := by
  rcases (has_output ha hready hany hzero).mp h with h | ⟨hd, hr⟩
  · exact (has_clear h).1
  · exact hready d hd hr

theorem polled_iff (hreq : ∃ d < nfds, sets.Any d) :
    (∀ e ∈ entries nfds sets, e.fd < nfds ∧ sets.Any e.fd) ↔
      (∀ d < nfds, sets.Any d) ∨ sets.Any 0 := by
  obtain ⟨d₀, hd₀, -⟩ := hreq
  constructor
  · intro h
    by_contra hno
    obtain ⟨hgap, hzero⟩ := not_or.mp hno
    push Not at hgap
    obtain ⟨d, hd, hnot⟩ := hgap
    have hlt : d < (entries nfds sets).length := by rwa [entries_length]
    have hmem := h _ (List.get_mem (entries nfds sets) ⟨d, hlt⟩)
    rw [entries_get hlt, if_neg hnot] at hmem
    exact hzero hmem.2
  · intro h e he
    obtain ⟨i, rfl⟩ := List.mem_iff_get.mp he
    have hn : i.1 < nfds := by simpa only [entries_length] using i.2
    rw [show (entries nfds sets).get i = (entries nfds sets).get ⟨i.1, i.2⟩ from rfl, entries_get i.2]
    by_cases hany : sets.Any i.1
    · rw [if_pos hany]
      exact ⟨hn, hany⟩
    · rw [if_neg hany]
      exact ⟨Nat.zero_lt_of_lt hn, h.resolve_left fun hall => hany (hall i.1 hn)⟩

/-- `select` keeps its promise exactly under `SelectCond`. -/
theorem select_ok_iff {poll : List Pollfd → ℤ → ℤ × (ℕ → BitVec 16)} {timeout : Option Timeval}
    (hn : nfds ≤ FD_SETSIZE) (hreq : ∃ d < nfds, sets.Any d)
    (hret : 0 ≤ (poll (entries nfds sets) (msecTimeout timeout)).1)
    (ha : PollAnswer (entries nfds sets) (poll (entries nfds sets) (msecTimeout timeout))) :
    SelectOk nfds sets (poll (entries nfds sets) (msecTimeout timeout)).2
      (select poll nfds sets timeout) ↔
    SelectCond nfds sets (poll (entries nfds sets) (msecTimeout timeout)).2 := by
  set revents := (poll (entries nfds sets) (msecTimeout timeout)).2 with hrev
  have hany : ∀ d < nfds, (select poll nfds sets timeout).sets.Any d ↔ Ready (revents d) :=
    fun d hd => any_output hn hret ha hd
  obtain ⟨hval, hr, hw, hx⟩ := select_eq timeout hn hret
  have hready0 : ¬ Ready 0 := by
    have h1 : ¬ isRead 0 := by decide
    have h2 : ¬ isWrite 0 := by decide
    have h3 : ¬ isExcept 0 := by decide
    exact fun h => h.elim h1 fun h => h.elim h2 h3
  have hsub : ((Finset.range nfds).filter fun d => (select poll nfds sets timeout).sets.Any d) ⊆
      (Finset.range nfds).filter fun d => revents d ≠ 0 := by
    intro d hd
    obtain ⟨hdn, hda⟩ := Finset.mem_filter.mp hd
    refine Finset.mem_filter.mpr ⟨hdn, fun h0 => hready0 ?_⟩
    rw [← h0]
    exact (hany d (Finset.mem_range.mp hdn)).mp hda
  have hcount : (select poll nfds sets timeout).retval =
      ((Finset.range nfds).filter fun d => revents d ≠ 0).card := by
    rw [hval, ha.count, entries_length]
  -- the counts agree exactly when the two sets of descriptors do
  have hiff : (select poll nfds sets timeout).retval = ((Finset.range nfds).filter fun d =>
      (select poll nfds sets timeout).sets.Any d).card ↔
      ∀ d < nfds, revents d ≠ 0 → Ready (revents d) := by
    rw [hcount, Nat.cast_inj]
    constructor
    · intro hc d hd hne
      have heq := Finset.eq_of_subset_of_card_le hsub hc.le
      have hmem : d ∈ (Finset.range nfds).filter fun d => revents d ≠ 0 :=
        Finset.mem_filter.mpr ⟨Finset.mem_range.mpr hd, hne⟩
      rw [← heq] at hmem
      exact (hany d hd).mp (Finset.mem_filter.mp hmem).2
    · intro h
      congr 1
      apply Finset.filter_congr
      intro d hd
      have hlt := Finset.mem_range.mp hd
      rw [hany d hlt]
      exact ⟨fun hne => h d hlt hne, fun hrd h0 => hready0 (h0 ▸ hrd)⟩
  constructor
  · intro h
    exact ⟨(polled_iff hreq).mp h.polled, hiff.mp h.count⟩
  · intro h
    refine ⟨fun d hd => ?_, fun d hd => ?_, fun d hd => ?_, fun d hd _ hne => ?_,
      (polled_iff hreq).mpr h.gaps, hiff.mpr h.ready⟩
    · rw [hr] at hd
      exact subset_output ha (fun i hi h => ha.read hi h) (fun i h => Or.inl h) (by decide) hd
    · rw [hw] at hd
      exact subset_output ha (fun i hi h => ha.write hi h) (fun i h => Or.inr (Or.inl h))
        (by decide) hd
    · rw [hx] at hd
      exact subset_output ha (fun i hi h => ha.except hi h) (fun i h => Or.inr (Or.inr h))
        (by decide) hd
    · exact (hany d hd).mpr (h.ready d hd hne)

def demoSets : Sets := ⟨some (FD_SET 0 fun _ => 0), none, none⟩

/-- A `poll` that reports `r` at descriptor 0. -/
def demoPoll (r : BitVec 16) : List Pollfd → ℤ → ℤ × (ℕ → BitVec 16) :=
  fun _ _ => (1, fun i => if i = 0 then r else 0)

theorem demoPoll_answer {r : BitVec 16} (hr : ∀ k, r.getLsbD k = true →
    POLLIN.getLsbD k = true ∨ UNASKED.getLsbD k = true) (hne : r ≠ 0) :
    PollAnswer (entries 1 demoSets) (demoPoll r (entries 1 demoSets) (msecTimeout none)) where
  reports i hi k hk := by
    have h0 : i = 0 := by
      rw [entries_length] at hi
      omega
    subst h0
    have hany : asked demoSets 0 = POLLIN := by decide
    rw [entries_get hi, hany]
    exact hr k hk
  count := by
    rw [entries_length]
    have hne' : r ≠ 0#16 := hne
    simp [demoPoll, hne']

theorem select_ok_iff_demo :
    SelectOk 1 demoSets (demoPoll POLLIN (entries 1 demoSets) (msecTimeout none)).2
      (select (demoPoll POLLIN) (1 : ℕ) demoSets none) ↔
    SelectCond 1 demoSets (demoPoll POLLIN (entries 1 demoSets) (msecTimeout none)).2 :=
  select_ok_iff (by decide) ⟨0, by decide, by decide⟩ (by decide)
    (demoPoll_answer (fun _ h => Or.inl h) (by decide))

/-- Descriptor 0 hangs up: it is in no output set, and 1 is returned. -/
theorem select_loses_hangup :
    PollAnswer (entries 1 demoSets) (demoPoll POLLHUP (entries 1 demoSets) (msecTimeout none)) ∧
    (select (demoPoll POLLHUP) (1 : ℕ) demoSets none).retval = 1 ∧
    ¬ (select (demoPoll POLLHUP) (1 : ℕ) demoSets none).sets.Any 0 ∧
    ¬ SelectOk 1 demoSets (demoPoll POLLHUP (entries 1 demoSets) (msecTimeout none)).2
      (select (demoPoll POLLHUP) (1 : ℕ) demoSets none) := by
  have hnone : ¬ (select (demoPoll POLLHUP) (1 : ℕ) demoSets none).sets.Any 0 := by decide +kernel
  refine ⟨demoPoll_answer (fun k h => Or.inr ?_) (by decide), by decide +kernel, hnone, fun h => ?_⟩
  · rw [BitVec.getLsbD_or, BitVec.getLsbD_or, BitVec.getLsbD_or, h]
    simp
  · exact hnone (h.told 0 (by decide) (by decide) (by decide))

end Answer

end Mintlib.Select
