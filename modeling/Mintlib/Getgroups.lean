import Mintlib.GroupLists
import Mintlib.Lib.Checked
import Mintlib.Posix

/-!
# The emulated `getgroups.c`

The same two loops count the groups of the user and store them. Only when they store is a group left
behind once the user has been found in it.
-/

namespace Mintlib.Getgroups

open Text Grp GroupLists Posix
open Checked (Stop)

abbrev NO_PGETGID : ℕ := 2 ^ 32 - 32

/-- What the kernel calls answer, and the name of the user that `getpwuid` finds. -/
structure Sys where
  Pgetgid : ℤ
  euid : ℕ
  egid : ℕ
  pw_name : Option Str

def Sys.currgid (sys : Sys) : ℕ := (sys.Pgetgid % 2 ^ 32).toNat

/-- The result, `errno` if it is set here, and what has been stored. -/
structure Got where
  ret : ℤ
  errno : Option ℕ
  stored : List ℕ
deriving DecidableEq

/-- `*grpset++ = gid`, into an array of `room` gids. -/
def put (room gid : ℕ) (stored : List ℕ) : Except Stop (List ℕ) :=
  if stored.length < room then .ok (stored ++ [gid]) else .error .bounds

/-- The loop over `gr_mem`, with `numgroups` and what has been stored, which is all there is if the
groups do not fit. -/
def members (gsetlen : ℤ) (room currgid : ℕ) (name : Str) (gid : ℕ) :
    List Str → ℕ → List ℕ → Except Stop (Except (List ℕ) (ℕ × List ℕ))
  | [], numgroups, stored => .ok (.ok (numgroups, stored))
  | m :: mem, numgroups, stored =>
    if name = m ∧ gid ≠ currgid then
      if gsetlen ≠ 0 then
        if gsetlen < (numgroups + 1 : ℕ) then .ok (.error stored)
        else put room gid stored >>= fun stored => .ok (.ok (numgroups + 1, stored))
      else members gsetlen room currgid name gid mem (numgroups + 1) stored
    else members gsetlen room currgid name gid mem numgroups stored

def entries (gsetlen : ℤ) (room currgid : ℕ) (name : Str) :
    List Group → ℕ → List ℕ → Except Stop (Except (List ℕ) (ℕ × List ℕ))
  | [], numgroups, stored => .ok (.ok (numgroups, stored))
  | g :: gs, numgroups, stored =>
    members gsetlen room currgid name g.gr_gid (g.gr_mem.getD []) numgroups stored >>= fun r =>
      match r with
      | .error stored => .ok (.error stored)
      | .ok (numgroups, stored) => entries gsetlen room currgid name gs numgroups stored

def userGroups (sys : Sys) (gsetlen : ℤ) (room : ℕ) (gs : List Group) (stored : List ℕ) :
    Except Stop Got :=
  if sys.euid ≠ 0 ∧ sys.egid ≠ 0 then .ok ⟨1, none, stored⟩
  else
    match sys.pw_name with
    | none => .ok ⟨-1, none, stored⟩
    | some name =>
      entries gsetlen room sys.currgid name gs 1 stored >>= fun r =>
        match r with
        | .error stored => .ok ⟨-1, some EINVAL, stored⟩
        | .ok (numgroups, stored) => .ok ⟨numgroups, none, stored⟩

/-- `__getgroups` without `Pgetgroups`, for an array of `room` gids or `NULL`, and the entries of the
group file. -/
def getgroups (sys : Sys) (gs : List Group) (gsetlen : ℤ) (grpset : Option ℕ) : Except Stop Got :=
  if gsetlen ≠ 0 ∧ (gsetlen < 0 ∨ grpset = none) then .ok ⟨-1, some EINVAL, []⟩
  else if sys.currgid = NO_PGETGID then .ok ⟨0, none, []⟩
  else if gsetlen ≠ 0 then
    put (grpset.getD 0) sys.currgid [] >>= userGroups sys gsetlen (grpset.getD 0) gs
  else userGroups sys gsetlen (grpset.getD 0) gs []

/-- A gid for each group that has the user as a member, the current group apart. -/
def memberOf (name : Str) (currgid : ℕ) (gs : List Group) : List ℕ :=
  (gs.filter fun g => name ∈ g.gr_mem.getD [] ∧ g.gr_gid ≠ currgid).map Group.gr_gid

def Once (name : Str) (currgid : ℕ) (gs : List Group) : Prop :=
  ∀ g ∈ gs, g.gr_gid ≠ currgid → (g.gr_mem.getD []).count name ≤ 1

section Count

variable {room currgid gid n numgroups : ℕ} {name : Str} {gs : List Group} {stored : List ℕ}

theorem members_count (mem : List Str) : ∀ numgroups,
    members 0 room currgid name gid mem numgroups stored = .ok (.ok (numgroups +
      (if gid ≠ currgid then mem.count name else 0), stored)) := by
  induction mem with
  | nil =>
    intro numgroups
    rw [List.count_nil, ite_self]
    rfl
  | cons m mem ih =>
    intro numgroups
    rw [members, List.count_cons, ih, ih]
    by_cases hgid : gid ≠ currgid
    · rw [if_pos hgid, if_pos hgid]
      by_cases hm : name = m
      · rw [if_pos ⟨hm, hgid⟩, if_neg (not_not.mpr rfl), hm, beq_self_eq_true, if_pos rfl]
        congr 3
        omega
      · have hbeq : (m == name) = false := beq_false_of_ne (Ne.symm hm)
        rw [if_neg fun h => hm h.1, hbeq, if_neg Bool.false_ne_true, Nat.add_zero]
    · rw [if_neg fun h => hgid h.2, if_neg hgid, if_neg hgid]

theorem entries_count (gs : List Group) : ∀ numgroups,
    entries 0 room currgid name gs numgroups stored =
      .ok (.ok (numgroups + (listed name currgid gs).length, stored)) := by
  induction gs with
  | nil => exact fun numgroups => rfl
  | cons g gs ih =>
    intro numgroups
    have hlen : (if g.gr_gid ≠ currgid then
        List.replicate ((g.gr_mem.getD []).count name) g.gr_gid else []).length =
        if g.gr_gid ≠ currgid then (g.gr_mem.getD []).count name else 0 := by
      split_ifs
      · exact List.length_replicate
      · rfl
    rw [entries, members_count, listed_cons, List.length_append, hlen, ← Nat.add_assoc]
    exact ih _

theorem members_store (hn : n ≠ 0) (hcount : stored.length = numgroups) (mem : List Str) :
    members n n currgid name gid mem numgroups stored =
      if name ∈ mem ∧ gid ≠ currgid then
        if numgroups < n then .ok (.ok (numgroups + 1, stored ++ [gid])) else .ok (.error stored)
      else .ok (.ok (numgroups, stored)) := by
  induction mem with
  | nil =>
    rw [if_neg fun h => List.not_mem_nil h.1]
    rfl
  | cons m mem ih =>
    rw [members, ih]
    by_cases hm : name = m ∧ gid ≠ currgid
    · have hmem : name ∈ m :: mem ∧ gid ≠ currgid := ⟨hm.1 ▸ List.mem_cons_self, hm.2⟩
      rw [if_pos hm, if_pos (Nat.cast_ne_zero.mpr hn), if_pos hmem]
      by_cases hroom : numgroups < n
      · rw [if_neg (by omega), put, if_pos (by omega), if_pos hroom]
        rfl
      · rw [if_pos (by omega), if_neg hroom]
    · have hiff : (name ∈ m :: mem ∧ gid ≠ currgid) ↔ (name ∈ mem ∧ gid ≠ currgid) := by
        refine ⟨fun h => ⟨?_, h.2⟩, fun h => ⟨List.mem_cons_of_mem m h.1, h.2⟩⟩
        exact (List.mem_cons.mp h.1).resolve_left fun heq => hm ⟨heq, h.2⟩
      rw [if_neg hm]
      simp only [hiff]

theorem entries_store (hn : n ≠ 0) (gs : List Group) : ∀ (numgroups : ℕ) (stored : List ℕ),
    stored.length = numgroups → numgroups ≤ n →
    entries n n currgid name gs numgroups stored =
      if numgroups + (memberOf name currgid gs).length ≤ n then
        .ok (.ok (numgroups + (memberOf name currgid gs).length,
          stored ++ memberOf name currgid gs))
      else .ok (.error ((stored ++ memberOf name currgid gs).take n)) := by
  induction gs with
  | nil =>
    intro numgroups stored _ hle
    rw [show memberOf name currgid [] = [] from rfl, List.append_nil, List.length_nil, Nat.add_zero,
      if_pos hle]
    rfl
  | cons g gs ih =>
    intro numgroups stored hcount hle
    rw [entries, members_store hn hcount]
    by_cases hmem : name ∈ g.gr_mem.getD [] ∧ g.gr_gid ≠ currgid
    · have hcons : memberOf name currgid (g :: gs) = g.gr_gid :: memberOf name currgid gs := by
        rw [memberOf, List.filter_cons_of_pos (by rw [decide_eq_true_eq]; exact hmem)]
        rfl
      rw [if_pos hmem, hcons, List.length_cons]
      by_cases hroom : numgroups < n
      · have hlen : (stored ++ [g.gr_gid]).length = numgroups + 1 := by
          rw [List.length_append, hcount, List.length_singleton]
        rw [if_pos hroom]
        refine (ih (numgroups + 1) (stored ++ [g.gr_gid]) hlen hroom).trans ?_
        rw [List.append_assoc, List.singleton_append,
          show numgroups + 1 + (memberOf name currgid gs).length =
            numgroups + ((memberOf name currgid gs).length + 1) by omega]
      · have hfull : (stored ++ g.gr_gid :: memberOf name currgid gs).take n = stored := by
          rw [List.take_left' (by omega)]
        rw [if_neg hroom, if_neg (by omega), hfull]
        rfl
    · have hskip : memberOf name currgid (g :: gs) = memberOf name currgid gs := by
        rw [memberOf, List.filter_cons_of_neg (by rw [decide_eq_true_eq]; exact hmem)]
        rfl
      rw [if_neg hmem, hskip]
      exact ih numgroups stored hcount hle

variable (name currgid) in
theorem length_memberOf (gs : List Group) :
    (memberOf name currgid gs).length ≤ (listed name currgid gs).length ∧
      ((memberOf name currgid gs).length = (listed name currgid gs).length ↔
        Once name currgid gs) := by
  induction gs with
  | nil => exact ⟨Nat.le_refl _, iff_of_true rfl fun g hg => absurd hg List.not_mem_nil⟩
  | cons g gs ih =>
    obtain ⟨hle, hiff⟩ := ih
    have honce : Once name currgid (g :: gs) ↔
        (g.gr_gid ≠ currgid → (g.gr_mem.getD []).count name ≤ 1) ∧ Once name currgid gs :=
      List.forall_mem_cons
    by_cases hgid : g.gr_gid ≠ currgid
    · have hlisted : (listed name currgid (g :: gs)).length =
          (g.gr_mem.getD []).count name + (listed name currgid gs).length := by
        rw [listed_cons, if_pos hgid, List.length_append, List.length_replicate]
      have hone : (g.gr_gid ≠ currgid → (g.gr_mem.getD []).count name ≤ 1) ↔
          (g.gr_mem.getD []).count name ≤ 1 := ⟨fun h => h hgid, fun h _ => h⟩
      rw [honce, hone, ← hiff, hlisted]
      by_cases hmem : name ∈ g.gr_mem.getD []
      · have hpos := List.count_pos_iff.mpr hmem
        have hcons : (memberOf name currgid (g :: gs)).length =
            (memberOf name currgid gs).length + 1 := by
          rw [memberOf, List.filter_cons_of_pos (by rw [decide_eq_true_eq]; exact ⟨hmem, hgid⟩)]
          rfl
        rw [hcons]
        constructor
        · omega
        · omega
      · have hzero := List.count_eq_zero.mpr hmem
        have hskip : (memberOf name currgid (g :: gs)).length = (memberOf name currgid gs).length := by
          rw [memberOf, List.filter_cons_of_neg (by rw [decide_eq_true_eq]; exact fun h => hmem h.1)]
          rfl
        rw [hskip, hzero]
        constructor
        · omega
        · omega
    · have hlisted : listed name currgid (g :: gs) = listed name currgid gs := by
        rw [listed_cons, if_neg hgid, List.nil_append]
      have hskip : memberOf name currgid (g :: gs) = memberOf name currgid gs := by
        rw [memberOf, List.filter_cons_of_neg (by rw [decide_eq_true_eq]; exact fun h => hgid h.2)]
        rfl
      rw [honce, hlisted, hskip, hiff]
      exact ⟨hle, ⟨fun h => ⟨fun hno => absurd hno hgid, h⟩, And.right⟩⟩

end Count

/-- The promise: with room for as many gids as are counted, that many are returned; with less room it
is refused; and no more gids are stored than there is room for. -/
def Right (sys : Sys) (gs : List Group) : Prop :=
  ∃ count, getgroups sys gs 0 none = .ok count ∧ ∀ n : ℕ, n ≠ 0 →
    ∃ got, getgroups sys gs n (some n) = .ok got ∧ got.stored.length ≤ n ∧
      (count.ret ≤ n → got.ret = count.ret) ∧
      (n < count.ret → got.ret = -1 ∧ got.errno = some EINVAL)

section Right

variable {sys : Sys} {gs : List Group} {name : Str} {n : ℕ}

theorem count_eq (hgid : ¬ sys.currgid = NO_PGETGID) :
    getgroups sys gs 0 none = userGroups sys 0 0 gs [] := by
  rw [getgroups, if_neg fun h => h.1 rfl, if_neg hgid, if_neg (not_not.mpr rfl)]
  rfl

theorem store_eq (hn : n ≠ 0) (hgid : ¬ sys.currgid = NO_PGETGID) :
    getgroups sys gs n (some n) = userGroups sys n n gs [sys.currgid] := by
  have hok : ¬ ((n : ℤ) ≠ 0 ∧ ((n : ℤ) < 0 ∨ (some n : Option ℕ) = none)) := by
    rintro ⟨-, hneg | hnull⟩
    · omega
    · cases hnull
  have hput : put n sys.currgid [] = .ok [sys.currgid] := if_pos (Nat.pos_of_ne_zero hn)
  rw [getgroups, if_neg hok, if_neg hgid, if_pos (Nat.cast_ne_zero.mpr hn), Option.getD_some, hput]
  rfl

end Right

/-- When the two modes agree: if there is nothing to count, or no other group of the file has the
user as a member twice. -/
theorem getgroups_iff (sys : Sys) (gs : List Group) : Right sys gs ↔
    sys.currgid = NO_PGETGID ∨ (sys.euid ≠ 0 ∧ sys.egid ≠ 0) ∨
      ∀ name, sys.pw_name = some name → Once name sys.currgid gs := by
  by_cases hgid : sys.currgid = NO_PGETGID
  · refine iff_of_true ⟨⟨0, none, []⟩, ?_, fun n hn => ⟨⟨0, none, []⟩, ?_, Nat.zero_le n, fun _ => rfl,
      fun h => ?_⟩⟩ (.inl hgid)
    · rw [getgroups, if_neg fun h => h.1 rfl, if_pos hgid]
    · rw [getgroups, if_neg, if_pos hgid]
      rintro ⟨-, hneg | hnull⟩
      · omega
      · cases hnull
    · exact absurd h (not_lt.mpr (Int.natCast_nonneg n))
  rw [or_iff_right hgid]
  unfold Right
  rw [count_eq hgid]
  by_cases hids : sys.euid ≠ 0 ∧ sys.egid ≠ 0
  · refine iff_of_true ⟨⟨1, none, []⟩, ?_, fun n hn => ⟨⟨1, none, [sys.currgid]⟩, ?_,
      Nat.one_le_iff_ne_zero.mpr hn, fun _ => rfl, fun h => ?_⟩⟩ (.inl hids)
    · rw [userGroups, if_pos hids]
    · rw [store_eq hn hgid, userGroups, if_pos hids]
    · have hpos : (n : ℤ) < 1 := h
      omega
  rw [or_iff_right hids]
  cases hname : sys.pw_name with
  | none =>
    refine iff_of_true ⟨⟨-1, none, []⟩, ?_, fun n hn => ⟨⟨-1, none, [sys.currgid]⟩, ?_,
      Nat.one_le_iff_ne_zero.mpr hn, fun _ => rfl, fun h => ?_⟩⟩ (fun _ h => (nomatch h))
    · rw [userGroups, if_neg hids, hname]
    · rw [store_eq hn hgid, userGroups, if_neg hids, hname]
    · have hneg : (n : ℤ) < -1 := h
      omega
  | some name =>
    have hone : (∀ name', some name = some name' → Once name' sys.currgid gs) ↔
        Once name sys.currgid gs :=
      ⟨fun h => h name rfl, fun h name' heq => Option.some.inj heq ▸ h⟩
    obtain ⟨hle, hiff⟩ := length_memberOf sys.currgid name gs
    have hcount : userGroups sys 0 0 gs [] =
        .ok ⟨(1 + (listed name sys.currgid gs).length : ℕ), none, []⟩ := by
      rw [userGroups, if_neg hids, hname]
      simp only
      rw [entries_count]
      rfl
    have hstore : ∀ {n : ℕ}, n ≠ 0 → getgroups sys gs n (some n) =
        if 1 + (memberOf name sys.currgid gs).length ≤ n then
          .ok ⟨(1 + (memberOf name sys.currgid gs).length : ℕ), none,
            [sys.currgid] ++ memberOf name sys.currgid gs⟩
        else .ok ⟨-1, some EINVAL, ([sys.currgid] ++ memberOf name sys.currgid gs).take n⟩ := by
      intro n hn
      rw [store_eq hn hgid, userGroups, if_neg hids, hname]
      simp only
      rw [entries_store hn gs 1 [sys.currgid] rfl (Nat.one_le_iff_ne_zero.mpr hn)]
      split_ifs <;> rfl
    rw [hone, ← hiff, hcount]
    constructor
    · rintro ⟨count, heq, hall⟩
      obtain rfl := Except.ok.inj heq
      -- the array that counting asks for
      obtain ⟨got, hgot, -, hsame, -⟩ := hall (1 + (listed name sys.currgid gs).length) (by omega)
      rw [hstore (by omega), if_pos (by omega)] at hgot
      obtain rfl := Except.ok.inj hgot
      have hret := hsame (le_refl _)
      simp only at hret
      omega
    · intro hlen
      refine ⟨_, rfl, fun n hn => ?_⟩
      rw [hstore hn, hlen]
      by_cases hroom : 1 + (listed name sys.currgid gs).length ≤ n
      · rw [if_pos hroom]
        refine ⟨_, rfl, ?_, fun _ => rfl, fun h => ?_⟩
        · rw [List.length_append, List.length_singleton, hlen]
          exact hroom
        · simp only at h
          omega
      · rw [if_neg hroom]
        refine ⟨_, rfl, List.length_take_le n _, fun h => ?_, fun _ => ⟨rfl, rfl⟩⟩
        simp only at h
        omega

/-- The super-user is listed twice in the group 5: three gids are counted, and two stored. -/
theorem counted_twice :
    ¬ Right ⟨0, 0, 0, some [114]⟩ [⟨some [103], 5, some [[114], [114]], none⟩] := by
  rintro ⟨count, hcount, hall⟩
  have hthree : getgroups ⟨0, 0, 0, some [114]⟩ [⟨some [103], 5, some [[114], [114]], none⟩] 0 none =
      .ok ⟨3, none, []⟩ := by
    decide
  obtain rfl := Except.ok.inj (hthree.symm.trans hcount)
  obtain ⟨got, hgot, -, hsame, -⟩ := hall 3 (by decide)
  have htwo : getgroups ⟨0, 0, 0, some [114]⟩ [⟨some [103], 5, some [[114], [114]], none⟩]
      (3 : ℕ) (some 3) = .ok ⟨2, none, [0, 5]⟩ := by
    decide
  obtain rfl := Except.ok.inj (htwo.symm.trans hgot)
  exact absurd (hsame (by decide)) (by decide)

end Mintlib.Getgroups
