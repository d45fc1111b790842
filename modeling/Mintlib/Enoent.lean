import Mintlib.Dirname
import Mintlib.PipeLinks
import Mintlib.Posix

/-!
# `enoent.c`

After `ENOTDIR` all signals are blocked, and the path is cut at one separator after the other, from
the end, in a copy that is made at the first of them.
-/

namespace Mintlib.Enoent

open Text Posix Checked
open Dirname (isSep)
open PipeLinks (S_ISDIR)

/-- What `__sys_stat` returns for a path and the mode it finds; the blocks that `malloc` has; and the
signals that cannot be blocked. -/
structure Env where
  sysStat : Str → ℤ × ℕ
  malloc : (size : ℕ) → Option {block : Str // block.length = size}
  fixed : BitVec 32

/-- The signal mask, and how many blocks have not been freed. -/
structure Proc (E : Env) where
  sigmask : BitVec 32
  clean : sigmask &&& E.fixed = 0#32
  blocks : ℕ

variable {E : Env}

theorem clean_and (mask : BitVec 32) : mask &&& ~~~E.fixed &&& E.fixed = 0#32 := by
  rw [BitVec.and_assoc, BitVec.and_comm (~~~E.fixed), BitVec.and_not_self]
  exact BitVec.and_zero

def Psigblock (mask : BitVec 32) (p : Proc E) : BitVec 32 × Proc E :=
  (p.sigmask, { p with
    sigmask := p.sigmask ||| mask &&& ~~~E.fixed,
    clean := by
      rw [BitVec.and_comm, BitVec.and_or_distrib_left, BitVec.and_comm, p.clean, BitVec.and_comm,
        clean_and, BitVec.or_zero] })

def Psigsetmask (mask : BitVec 32) (p : Proc E) : Proc E :=
  { p with sigmask := mask &&& ~~~E.fixed, clean := clean_and mask }

/-- The copy: the one there is, or a new one of the first `s` bytes. -/
def copyOf (path : Str) (s : ℕ) (tmp : Option Str) (p : Proc E) : Option (Str × Proc E) :=
  match tmp with
  | some tmp => some (tmp, p)
  | none =>
    match E.malloc (s + 1) with
    | none => none
    | some block => some (path.take s ++ block.val.drop s, { p with blocks := p.blocks + 1 })

def leave (oldmask : BitVec 32) (tmp : Option Str) (p : Proc E) : Proc E :=
  Psigsetmask oldmask (if tmp.isSome then { p with blocks := p.blocks - 1 } else p)

/-- There is no `Fstat`, or the file is no directory. -/
def Ends (found : ℤ × ℕ) : Prop := found.1 = -ENOSYS ∨ found.1 = 0 ∧ ¬ S_ISDIR found.2

instance (found : ℤ × ℕ) : Decidable (Ends found) := inferInstanceAs (Decidable (_ ∨ _))

/-- The loop, from the byte `s` of the path, and what is behind it. -/
def scan (path : Str) (oldmask : BitVec 32) :
    ℕ → Option Str → ℤ → Proc E → Except Stop (ℤ × Proc E)
  | 0, tmp, dir_seen, p => .ok (dir_seen, leave oldmask tmp p)
  | s + 1, tmp, dir_seen, p =>
    match (path ++ [0])[s + 1]? with
    | none => .error .bounds
    | some c =>
      if isSep c then
        match copyOf path (s + 1) tmp p with
        -- the mask is not restored
        | none => .ok (0, p)
        | some (tmp, p) =>
          if s + 1 < tmp.length then
            let tmp := tmp.set (s + 1) 0
            if Ends (E.sysStat (cstr tmp)) then .ok (0, leave oldmask (some tmp) p)
            else scan path oldmask s (some tmp) 1 p
          else .error .bounds
      else scan path oldmask s tmp dir_seen p

def enoent (path : Option Str) (p : Proc E) : Except Stop (ℤ × Proc E) :=
  match path with
  | none => .ok (0, p)
  | some path =>
    scan path (Psigblock (BitVec.allOnes 32) p).1 path.length none 0
      (Psigblock (BitVec.allOnes 32) p).2

def reports (p : Proc E) (path : Str) : Bool :=
  match enoent (some path) p with
  | .ok (r, _) => r ≠ 0
  | .error _ => false

def Inner (path : Str) (i : ℕ) : Prop := 0 < i ∧ ∃ c, path[i]? = some c ∧ isSep c = true

def Granted (E : Env) (path : Str) : Prop :=
  ∀ i, Inner path i → (∀ j, i < j → ¬ Inner path j) → (E.malloc (i + 1)).isSome = true

/-- A path in which something in front of a separator is missing: none of what is there is no
directory. -/
def Missing (E : Env) (path : Str) : Prop :=
  (∃ i, Inner path i) ∧
    ∀ i, Inner path i → ¬ ((E.sysStat (path.take i)).1 = 0 ∧
      ¬ S_ISDIR (E.sysStat (path.take i)).2)

/-- The promise: the mask and the blocks are what they were, and where there is `stat` and room for
the copy, the answer is right. -/
def Right (p : Proc E) (path : Str) (out : Except Stop (ℤ × Proc E)) : Prop :=
  ∃ r p', out = .ok (r, p') ∧ p'.sigmask = p.sigmask ∧ p'.blocks = p.blocks ∧
    (Granted E path → (∀ name, (E.sysStat name).1 ≠ -ENOSYS) →
      (r = 0 ∨ r = 1) ∧ (r = 1 ↔ Missing E path))

section Scan

variable {path : Str} {oldmask : BitVec 32} {p : Proc E}

theorem Inner.lt {i : ℕ} (h : Inner path i) : i < path.length := by
  obtain ⟨-, c, hc, -⟩ := h
  exact (List.getElem?_eq_some_iff.mp hc).1

theorem byte_at {s : ℕ} (hs : s + 1 ≤ path.length) :
    ∃ c, (path ++ [0])[s + 1]? = some c ∧ (isSep c = true ↔ Inner path (s + 1)) := by
  rcases Nat.lt_or_eq_of_le hs with hlt | heq
  · refine ⟨path[s + 1], ?_, ?_⟩
    · rw [List.getElem?_append_left hlt, List.getElem?_eq_getElem hlt]
    · refine ⟨fun h => ⟨Nat.succ_pos s, _, List.getElem?_eq_getElem hlt, h⟩, ?_⟩
      rintro ⟨-, c, hc, hsep⟩
      rw [List.getElem?_eq_getElem hlt] at hc
      rw [Option.some.inj hc]
      exact hsep
  · refine ⟨0, ?_, iff_of_false (by decide) fun h => ?_⟩
    · rw [heq, List.getElem?_append_right (Nat.le_refl _), Nat.sub_self]
      rfl
    · have hlt := h.lt
      omega

def Holds (path : Str) (s : ℕ) (tmp : Option Str) : Prop :=
  ∀ t, tmp = some t → s < t.length ∧ t.take s = path.take s

theorem Holds.cut {s : ℕ} {t : Str} (h0 : 0 ∉ path) (h : Holds path (s + 1) (some t)) :
    cstr (t.set (s + 1) 0) = path.take (s + 1) ∧ Holds path s (some (t.set (s + 1) 0)) := by
  obtain ⟨hlen, htake⟩ := h t rfl
  have hset : t.set (s + 1) 0 = path.take (s + 1) ++ 0 :: t.drop (s + 2) := by
    rw [List.set_eq_take_append_cons_drop, if_pos hlen, htake]
  refine ⟨?_, fun t' ht' => ?_⟩
  · rw [hset, cstr_append fun hmem => h0 (List.mem_of_mem_take hmem)]
  · obtain rfl := Option.some.inj ht'
    rw [List.length_set]
    refine ⟨by omega, ?_⟩
    have hone := congrArg (List.take s) htake
    rw [List.take_take, List.take_take, Nat.min_eq_left (Nat.le_succ s)] at hone
    rw [List.take_set_of_le (Nat.le_succ s), hone]

variable (oldmask) in
/-- With the copy in hand, or to be had, every separator is looked at until one ends the search. -/
theorem scan_spec (h0 : 0 ∉ path) (hgranted : Granted E path) (s : ℕ) :
    ∀ (tmp : Option Str) (dir_seen : ℤ) (p : Proc E), s ≤ path.length → Holds path s tmp →
      (tmp = none → ∀ j, s < j → ¬ Inner path j) → (tmp.isSome = true → 1 ≤ p.blocks) →
      ∃ r p', scan path oldmask s tmp dir_seen p = .ok (r, p') ∧
        p'.sigmask = oldmask &&& ~~~E.fixed ∧
        p'.blocks + (if tmp.isSome then 1 else 0) = p.blocks ∧
        ((∃ i ≤ s, Inner path i ∧ Ends (E.sysStat (path.take i))) ∧ r = 0 ∨
          (∀ i ≤ s, Inner path i → ¬ Ends (E.sysStat (path.take i))) ∧
            ((∃ i ≤ s, Inner path i) ∧ r = 1 ∨ (∀ i ≤ s, ¬ Inner path i) ∧ r = dir_seen)) := by
  induction s with
  | zero =>
    intro tmp dir_seen p _ _ _ hblocks
    have hno : ∀ i ≤ 0, ¬ Inner path i := fun i hi h => absurd h.1 (Nat.not_lt.mpr hi)
    refine ⟨dir_seen, leave oldmask tmp p, rfl, rfl, ?_,
      .inr ⟨fun i hi h => absurd h (hno i hi), .inr ⟨hno, rfl⟩⟩⟩
    cases tmp with
    | none => rfl
    | some t => exact Nat.sub_add_cancel (hblocks rfl)
  | succ s ih =>
    intro tmp dir_seen p hs hholds hlast hblocks
    obtain ⟨c, hc, hinner⟩ := byte_at hs
    rw [scan, hc]
    simp only
    by_cases hsep : isSep c = true
    · rw [if_pos hsep]
      have hhere := hinner.mp hsep
      -- the copy, which is allocated here at the latest
      obtain ⟨t, p₁, hcopy, hholds₁, hp₁, hblocks₁⟩ : ∃ t p₁, copyOf path (s + 1) tmp p = some (t, p₁) ∧
          Holds path (s + 1) (some t) ∧ p₁.blocks + (if tmp.isSome then 1 else 0) = p.blocks + 1 ∧
          1 ≤ p₁.blocks := by
        cases tmp with
        | some t => exact ⟨t, p, rfl, hholds, rfl, hblocks rfl⟩
        | none =>
          obtain ⟨block, hblock⟩ := Option.isSome_iff_exists.mp (hgranted (s + 1) hhere (hlast rfl))
          have htake : (path.take (s + 1)).length = s + 1 := by
            rw [List.length_take, Nat.min_eq_left hs]
          refine ⟨path.take (s + 1) ++ block.val.drop (s + 1), { p with blocks := p.blocks + 1 },
            ?_, fun t ht => ?_, rfl, Nat.succ_le_succ (Nat.zero_le _)⟩
          · rw [copyOf, hblock]
          · obtain rfl := Option.some.inj ht
            rw [List.length_append, htake, List.length_drop, block.2, List.take_left' htake]
            exact ⟨by omega, rfl⟩
      rw [hcopy]
      obtain ⟨hcut, hholds₂⟩ := hholds₁.cut h0
      simp only
      rw [if_pos (hholds₁ t rfl).1, hcut]
      by_cases hends : Ends (E.sysStat (path.take (s + 1)))
      · rw [if_pos hends]
        refine ⟨0, leave oldmask (some (t.set (s + 1) 0)) p₁, rfl, rfl, ?_,
          .inl ⟨⟨s + 1, Nat.le_refl _, hhere, hends⟩, rfl⟩⟩
        show p₁.blocks - 1 + _ = _
        omega
      · rw [if_neg hends]
        obtain ⟨r, p', hscan, hmask, hb, hverdict⟩ := ih (some (t.set (s + 1) 0)) 1 p₁ (by omega)
          hholds₂ (fun h => (nomatch h)) (fun _ => hblocks₁)
        refine ⟨r, p', hscan, hmask, ?_, ?_⟩
        · rw [Option.isSome_some, if_pos rfl] at hb
          omega
        · rcases hverdict with ⟨⟨i, hi, hin, hend⟩, hr⟩ | ⟨hall, hr⟩
          · exact .inl ⟨⟨i, by omega, hin, hend⟩, hr⟩
          · refine .inr ⟨fun i hi hin => ?_, .inl ⟨⟨s + 1, Nat.le_refl _, hhere⟩, ?_⟩⟩
            · rcases Nat.lt_or_eq_of_le hi with hlt | rfl
              · exact hall i (by omega) hin
              · exact hends
            · exact hr.elim And.right And.right
    · rw [if_neg hsep]
      have hhere : ¬ Inner path (s + 1) := fun h => hsep (hinner.mpr h)
      have hle : ∀ i ≤ s + 1, Inner path i → i ≤ s := by
        intro i hi hin
        rcases Nat.lt_or_eq_of_le hi with hlt | rfl
        · omega
        · exact absurd hin hhere
      have hnext : Holds path s tmp := by
        intro t ht
        obtain ⟨hlen, htake⟩ := hholds t ht
        have hone := congrArg (List.take s) htake
        rw [List.take_take, List.take_take, Nat.min_eq_left (Nat.le_succ s)] at hone
        exact ⟨by omega, hone⟩
      obtain ⟨r, p', hscan, hmask, hb, hverdict⟩ := ih tmp dir_seen p (by omega) hnext
        (fun hnone j hj => by
          rcases Nat.lt_or_eq_of_le (Nat.succ_le_of_lt hj) with hlt | rfl
          · exact hlast hnone j hlt
          · exact hhere) hblocks
      refine ⟨r, p', hscan, hmask, hb, ?_⟩
      rcases hverdict with ⟨⟨i, hi, hin, hend⟩, hr⟩ | ⟨hall, ⟨⟨i, hi, hin⟩, hr⟩ | ⟨hnone, hr⟩⟩
      · exact .inl ⟨⟨i, by omega, hin, hend⟩, hr⟩
      · exact .inr ⟨fun i hi hin => hall i (hle i hi hin) hin, .inl ⟨⟨i, by omega, hin⟩, hr⟩⟩
      · exact .inr ⟨fun i hi hin => hall i (hle i hi hin) hin,
          .inr ⟨fun i hi hin => hnone i (hle i hi hin) hin, hr⟩⟩

variable (oldmask) in
theorem scan_refused {i : ℕ} (hin : Inner path i) (hlast : ∀ j, i < j → ¬ Inner path j)
    (hnone : E.malloc (i + 1) = none) (s : ℕ) : ∀ dir_seen, i ≤ s → s ≤ path.length →
      scan path oldmask s none dir_seen p = .ok (0, p) := by
  induction s with
  | zero =>
    intro dir_seen hi _
    exact absurd hin.1 (Nat.not_lt.mpr hi)
  | succ s ih =>
    intro dir_seen hi hs
    obtain ⟨c, hc, hinner⟩ := byte_at hs
    rw [scan, hc]
    simp only
    rcases Nat.lt_or_eq_of_le hi with hlt | rfl
    · rw [if_neg fun hsep => hlast (s + 1) hlt (hinner.mp hsep)]
      exact ih dir_seen (by omega) (by omega)
    · rw [if_pos (hinner.mpr hin), copyOf, hnone]

end Scan

/-- When `_enoent` keeps its promise: if the copy for the last separator can be allocated, or is not
needed; or if every signal that can be blocked is blocked anyway. -/
theorem enoent_iff {E : Env} {p : Proc E} {path : Str} (h0 : 0 ∉ path) :
    Right p path (enoent (some path) p) ↔ Granted E path ∨ p.sigmask = ~~~E.fixed := by
  have hkeep : p.sigmask &&& ~~~E.fixed = p.sigmask := by
    have hsplit := BitVec.and_or_distrib_left (x := p.sigmask) (y := E.fixed) (z := ~~~E.fixed)
    rw [BitVec.or_not_self, BitVec.and_allOnes, p.clean, BitVec.zero_or] at hsplit
    exact hsplit.symm
  by_cases hgranted : Granted E path
  · refine iff_of_true ?_ (.inl hgranted)
    obtain ⟨r, p', hscan, hmask, hblocks, hverdict⟩ := scan_spec
      p.sigmask h0 hgranted path.length none 0 (Psigblock (BitVec.allOnes 32) p).2
      (Nat.le_refl _) (fun _ h => (nomatch h)) (fun _ j hj hin => by have := hin.lt; omega)
      (fun h => (nomatch h))
    refine ⟨r, p', hscan, hmask.trans hkeep, hblocks, fun _ hstat => ?_⟩
    have hends : ∀ i, Ends (E.sysStat (path.take i)) ↔ (E.sysStat (path.take i)).1 = 0 ∧
        ¬ S_ISDIR (E.sysStat (path.take i)).2 := fun i => or_iff_right (hstat _)
    rcases hverdict with ⟨⟨i, -, hin, hend⟩, rfl⟩ | ⟨hall, ⟨⟨i, -, hin⟩, rfl⟩ | ⟨hnone, rfl⟩⟩
    · exact ⟨.inl rfl, iff_of_false (by decide) fun h => h.2 i hin ((hends i).mp hend)⟩
    · refine ⟨.inr rfl, iff_of_true rfl ⟨⟨i, hin⟩, fun j hj hend => ?_⟩⟩
      exact hall j hj.lt.le hj ((hends j).mpr hend)
    · refine ⟨.inl rfl, iff_of_false (by decide) ?_⟩
      rintro ⟨⟨i, hin⟩, -⟩
      exact hnone i hin.lt.le hin
  · rw [or_iff_right hgranted]
    unfold Granted at hgranted
    push Not at hgranted
    obtain ⟨i, hin, hlast, hno⟩ := hgranted
    have hnone : E.malloc (i + 1) = none := Option.not_isSome_iff_eq_none.mp hno
    have hscan := scan_refused p.sigmask (p := (Psigblock (BitVec.allOnes 32) p).2) hin
      hlast hnone path.length 0 hin.lt.le (Nat.le_refl _)
    have hblocked : (Psigblock (BitVec.allOnes 32) p).2.sigmask = ~~~E.fixed := by
      show p.sigmask ||| BitVec.allOnes 32 &&& ~~~E.fixed = ~~~E.fixed
      rw [BitVec.allOnes_and]
      refine BitVec.eq_of_getLsbD_eq fun j hj => ?_
      have hbit := congrArg (·.getLsbD j) hkeep
      simp only [BitVec.getLsbD_and, BitVec.getLsbD_not, BitVec.getLsbD_or] at hbit ⊢
      rw [← hbit]
      cases p.sigmask.getLsbD j <;> cases E.fixed.getLsbD j <;> simp
    constructor
    · rintro ⟨r, p', heq, hmask, -⟩
      obtain ⟨-, rfl⟩ := Prod.mk.inj (Except.ok.inj (hscan.symm.trans heq))
      exact hmask.symm.trans hblocked
    · intro hfull
      refine ⟨0, _, hscan, hblocked.trans hfull.symm, rfl, fun hg => ?_⟩
      exact absurd (hg i hin hlast) hno

/-- Only the root and `a` exist; nothing can be allocated if `room` says so. -/
abbrev demo (room : Bool) : Env :=
  ⟨fun name => if name = [97] then (0, 0o100644) else (-33, 0),
    fun size => if room then some ⟨List.replicate size 1, List.length_replicate⟩ else none, 0x80200#32⟩

theorem enoent_iff_demo : Right (E := demo true) ⟨0#32, by decide, 0⟩ [97, 47, 98, 47, 99]
    (enoent (some [97, 47, 98, 47, 99]) ⟨0#32, by decide, 0⟩) :=
  (enoent_iff (by decide)).mpr (.inl fun _ _ _ => rfl)

/-- Without room for the copy of `"a/b"` every signal stays blocked. -/
theorem mask_not_restored : ¬ Right (E := demo false) ⟨0#32, by decide, 0⟩ [97, 47, 98]
    (enoent (some [97, 47, 98]) ⟨0#32, by decide, 0⟩) := by
  rintro ⟨r, p', heq, hmask, -⟩
  have hout : (enoent (E := demo false) (some [97, 47, 98]) ⟨0#32, by decide, 0⟩).map
      (·.2.sigmask) = .ok (~~~0x80200#32) := by
    decide +kernel
  rw [heq] at hout
  have hall := Except.ok.inj hout
  simp only at hall
  rw [hmask] at hall
  exact absurd hall (by decide)

end Mintlib.Enoent
