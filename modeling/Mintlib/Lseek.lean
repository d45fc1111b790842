import Mintlib.Stdio.File
import Mathlib.Data.Int.Bitwise
import Mintlib.Posix

/-!
# Seeking past the end of a file: `lseek.c`

A kernel may reject or clamp a seek past the end; `lseek` then writes zeros up to where it was
to go.
-/

namespace Mintlib.Lseek

open Text Stdio Posix

/-- An open file. `calls` counts the writes, so that two of them may be answered differently. -/
structure Handle where
  content : Str
  pos : ℕ
  calls : ℕ

/-- What the kernel decides: which positions past the end of a file it accepts, whether any other
seek past the end fails or is clamped, and how many bytes a write takes at most, or that it
fails. -/
structure Kernel where
  accepts : ℤ → Bool
  past : Handle → ℤ → Option ℕ+
  write : Handle → Str → Except ℕ+ ℕ

/-- A 32-bit `long`. -/
def long (x : ℤ) : ℤ := x.bmod (2 ^ 32)

def target (handle : Handle) (offset : ℤ) : Whence → ℤ
  | .SEEK_SET => offset
  | .SEEK_CUR => handle.pos + offset
  | .SEEK_END => handle.content.length + offset

def Fseek (kernel : Kernel) (offset : ℤ) (handle : Handle) (mode : Whence) : ℤ × Handle :=
  let new_pos := target handle offset mode
  if new_pos < 0 then (-EBADARG, handle)
  else if new_pos ≤ handle.content.length ∨ kernel.accepts new_pos = true then
    (new_pos, { handle with pos := new_pos.toNat })
  else
    match kernel.past handle new_pos with
    | some e => (-e, handle)
    | none => (handle.content.length, { handle with pos := handle.content.length })

/-- The bytes at the position are written over; a hole in front of them reads as zeros. -/
def Handle.put (handle : Handle) (bytes : Str) : Str :=
  if bytes = [] then handle.content
  else
    handle.content.take handle.pos ++
      List.replicate (handle.pos - handle.content.length) 0 ++ bytes ++
      handle.content.drop (handle.pos + bytes.length)

/-- `write`: what it returns, and `errno` if it fails. -/
def write (kernel : Kernel) (handle : Handle) (buf : Str) : ℤ × Option ℕ+ × Handle :=
  match kernel.write handle buf with
  | .error e => (-1, some e, { handle with calls := handle.calls + 1 })
  | .ok n =>
    let bytes := buf.take n
    (bytes.length, none,
      { content := handle.put bytes
        pos := handle.pos + bytes.length
        calls := handle.calls + 1 })

def extend (kernel : Kernel) (expected_pos : ℤ) :
    ℕ → ℤ → Handle → Option (Except (Option ℕ) ℤ × Handle)
  | turns, new_pos, handle =>
    if new_pos < expected_pos then
      match turns with
      | 0 => none
      | turns + 1 =>
        let offset := long (expected_pos - new_pos)
        let offset := if 256 < offset then 256 else offset
        let (current_pos, errno, handle) :=
          write kernel handle (List.replicate offset.toNat 0)
        if current_pos ≠ offset then
          some (if 0 < current_pos then .ok (long (new_pos + current_pos))
            else .error (errno.map (↑)), handle)
        else extend kernel expected_pos turns (long (new_pos + offset)) handle
    else some (.ok new_pos, handle)

/-- The errors of `Fseek`; `EBADARG` is fixed up. -/
def seekError (r : ℤ) : Option ℕ := if -r = EBADARG then some EINVAL else some (-r).toNat

/-- `lseek`: the position or `errno`, which a write that takes nothing does not set. -/
def lseek (kernel : Kernel) (handle : Handle) (offset : ℤ) (mode : Whence) :
    Option (Except (Option ℕ) ℤ × Handle) :=
  if mode = .SEEK_END ∨ offset ≤ 0 then
    let (current_pos, handle) := Fseek kernel offset handle mode
    if current_pos < 0 then some (.error (seekError current_pos), handle)
    else some (.ok current_pos, handle)
  else
    let (current_pos, handle) := Fseek kernel 0 handle .SEEK_CUR
    if current_pos < 0 then some (.error (seekError current_pos), handle)
    else
      let expected_pos := if mode = .SEEK_SET then offset else long (offset + current_pos)
      let (new_pos, handle) := Fseek kernel offset handle mode
      if new_pos = expected_pos then some (.ok new_pos, handle)
      else
        let (new_pos, handle) :=
          if new_pos < 0 then Fseek kernel 0 handle .SEEK_END else (new_pos, handle)
        extend kernel expected_pos (expected_pos - new_pos).toNat new_pos handle

section Extend

variable {kernel : Kernel} {handle : Handle} {offset expected_pos : ℤ} {mode : Whence}

theorem long_eq {x : ℤ} (h : 0 ≤ x) (hx : x < 2 ^ 31) : long x = x := by
  refine Int.bmod_eq_of_le ?_ ?_ <;> omega

/-- The old content and zeros behind it, with the position at the end. -/
structure Extended (old handle : Handle) : Prop where
  content : ∃ n, handle.content = old.content ++ List.replicate n 0
  pos : handle.pos = handle.content.length

def Short (kernel : Kernel) (handle : Handle) (buf : Str) : Prop :=
  ∀ taken, kernel.write handle buf = .ok taken → taken < buf.length

/-- The last thing that happened to the file was a write of the extension that the kernel cut
short. -/
def Cut (kernel : Kernel) (old : Handle) (target : ℤ) (handle' : Handle) : Prop :=
  ∃ handle, Extended old handle ∧ handle.pos < target ∧
    Short kernel handle (List.replicate (min 256 (target - handle.pos).toNat) 0) ∧
    handle' = (write kernel handle
      (List.replicate (min 256 (target - handle.pos).toNat) 0)).2.2

/-- What `lseek` leaves of a file, `target` being where it was to go. -/
def Sought (kernel : Kernel) (handle : Handle) (target : ℤ) :
    Except (Option ℕ) ℤ × Handle → Prop
  | (.ok r, handle') => r = handle'.pos ∧ (r = target ∨ Cut kernel handle target handle') ∧
      handle'.content = handle.content ++
        List.replicate (max handle.content.length r.toNat - handle.content.length) 0
  | (.error _, handle') => handle.content <+: handle'.content ∧ Cut kernel handle target handle'

theorem put_eq {bytes : Str} (h : handle.pos ≤ handle.content.length) :
    handle.put bytes =
      handle.content.take handle.pos ++ bytes ++ handle.content.drop (handle.pos + bytes.length) := by
  unfold Handle.put
  by_cases hbytes : bytes = []
  · rw [if_pos hbytes, hbytes, List.append_nil, List.length_nil, Nat.add_zero,
      List.take_append_drop]
  · rw [if_neg hbytes, Nat.sub_eq_zero_of_le h, List.replicate_zero, List.append_nil]

theorem put_end {bytes : Str} (h : handle.pos = handle.content.length) :
    handle.put bytes = handle.content ++ bytes := by
  rw [put_eq h.le, h, List.take_length, List.drop_eq_nil_of_le (Nat.le_add_right _ _),
    List.append_nil]

variable (kernel) in
theorem write_zeros {old : Handle} (h : Extended old handle) (n : ℕ) :
    ∃ k errno handle', write kernel handle (List.replicate n 0) = (k, errno, handle') ∧
      Extended old handle' ∧ (k ≠ n → Short kernel handle (List.replicate n 0)) ∧
      (0 ≤ k → k ≤ n ∧ (handle'.pos : ℤ) = handle.pos + k) := by
  obtain ⟨m, hm⟩ := h.content
  unfold write
  cases hk : kernel.write handle (List.replicate n 0) with
  | error e =>
    refine ⟨-1, some e, _, rfl, ⟨⟨m, hm⟩, h.pos⟩, fun _ taken htaken => ?_, fun hno => ?_⟩
    · rw [hk] at htaken
      cases htaken
    · exact absurd hno (by decide)
  | ok taken =>
    have hbytes : (List.replicate n (0 : UInt8)).take taken = List.replicate (min taken n) 0 :=
      List.take_replicate
    have hlen : (List.replicate (min taken n) (0 : UInt8)).length = min taken n :=
      List.length_replicate
    simp only [hbytes, hlen]
    refine ⟨_, _, _, rfl, ⟨⟨m + min taken n, ?_⟩, ?_⟩, fun hne more hmore => ?_, fun _ => ⟨?_, ?_⟩⟩
    · show handle.put (List.replicate (min taken n) 0) = _
      rw [put_end h.pos, hm, List.append_assoc, ← List.replicate_add]
    · show handle.pos + min taken n = (handle.put (List.replicate (min taken n) 0)).length
      rw [put_end h.pos, List.length_append, hlen, h.pos]
    · rw [hk] at hmore
      have htaken := Except.ok.inj hmore
      rw [List.length_replicate]
      omega
    · exact Int.ofNat_le.mpr (Nat.min_le_right _ _)
    · exact Nat.cast_add _ _

theorem Extended.isPrefix {old : Handle} (h : Extended old handle) :
    old.content <+: handle.content := by
  obtain ⟨n, hn⟩ := h.content
  rw [hn]
  exact List.prefix_append _ _

theorem Extended.sought {old : Handle} (h : Extended old handle) {r target : ℤ}
    (hr : r = handle.pos) (ht : r = target ∨ Cut kernel old target handle) :
    Sought kernel old target (.ok r, handle) := by
  obtain ⟨n, hn⟩ := h.content
  refine ⟨hr, ht, ?_⟩
  have hlen : handle.content.length = old.content.length + n := by
    rw [hn, List.length_append, List.length_replicate]
  have hcount : max old.content.length r.toNat - old.content.length = n := by
    have hpos := h.pos
    omega
  rw [hcount, hn]

theorem chunk_eq {new_pos : ℤ} (hgo : new_pos < expected_pos)
    (hlong : expected_pos - new_pos < 2 ^ 31) :
    (if 256 < long (expected_pos - new_pos) then 256 else long (expected_pos - new_pos)) =
      ((min 256 (expected_pos - new_pos).toNat : ℕ) : ℤ) := by
  rw [long_eq (by omega) hlong]
  split_ifs <;> omega

theorem extend_ok {old : Handle} (turns : ℕ) : ∀ {new_pos : ℤ} {handle : Handle},
    Extended old handle → new_pos = handle.pos → new_pos ≤ expected_pos → expected_pos < 2 ^ 31 →
      (expected_pos - new_pos).toNat ≤ turns →
      ∃ found, extend kernel expected_pos turns new_pos handle = some found ∧
        Sought kernel old expected_pos found := by
  induction turns with
  | zero =>
    intro new_pos handle h hpos hle hlt hturns
    have hno : ¬ new_pos < expected_pos := by omega
    refine ⟨_, ?_, h.sought hpos (Or.inl (by omega))⟩
    rw [extend, if_neg hno]
  | succ turns ih =>
    intro new_pos handle h hpos hle hlt hturns
    by_cases hgo : new_pos < expected_pos
    · obtain ⟨n, hn⟩ : ∃ n, min 256 (expected_pos - new_pos).toNat = n := ⟨_, rfl⟩
      obtain ⟨k, errno, handle', hwrite, hext, hshort, hmoved⟩ := write_zeros kernel h n
      rw [extend, if_pos hgo]
      simp only [chunk_eq hgo (show expected_pos - new_pos < 2 ^ 31 by omega), hn,
        Int.toNat_natCast, hwrite]
      by_cases hfull : k ≠ n
      · rw [if_pos hfull]
        refine ⟨_, rfl, ?_⟩
        have hcut : Cut kernel old expected_pos handle' := by
          refine ⟨handle, h, by omega, ?_, ?_⟩
          · rw [← hpos, hn]
            exact hshort hfull
          · rw [← hpos, hn, hwrite]
        by_cases hsome : 0 < k
        · obtain ⟨hkn, hk⟩ := hmoved hsome.le
          rw [if_pos hsome, long_eq (by omega) (by omega)]
          exact hext.sought (by omega) (Or.inr hcut)
        · rw [if_neg hsome]
          exact ⟨hext.isPrefix, hcut⟩
      · rw [if_neg hfull]
        rw [not_not] at hfull
        obtain ⟨-, hk⟩ := hmoved (by omega)
        rw [long_eq (by omega) (by omega)]
        exact ih hext (by omega) (by omega) hlt (by omega)
    · refine ⟨_, ?_, h.sought hpos (Or.inl (by omega))⟩
      rw [extend, if_neg hgo]

def atEnd (handle : Handle) : Handle := { handle with pos := handle.content.length }

def Open (kernel : Kernel) (handle : Handle) (pos : ℤ) : Prop :=
  0 ≤ pos ∧ (pos ≤ handle.content.length ∨ kernel.accepts pos = true)

theorem fseek_open (h : Open kernel handle (target handle offset mode)) :
    Fseek kernel offset handle mode =
      (target handle offset mode, { handle with pos := (target handle offset mode).toNat }) := by
  unfold Fseek
  simp only [if_neg (not_lt.mpr h.1), if_pos h.2]

theorem fseek_past (hnonneg : 0 ≤ target handle offset mode)
    (h : ¬ Open kernel handle (target handle offset mode)) : Fseek kernel offset handle mode =
      match kernel.past handle (target handle offset mode) with
      | some e => (-(e : ℤ), handle)
      | none => ((handle.content.length : ℤ), atEnd handle) := by
  have hout : ¬ (target handle offset mode ≤ handle.content.length ∨
      kernel.accepts (target handle offset mode) = true) := fun hin => h ⟨hnonneg, hin⟩
  unfold Fseek
  simp only [if_neg (not_lt.mpr hnonneg), if_neg hout]
  rfl

theorem fseek_cur (h : Open kernel handle handle.pos) :
    Fseek kernel 0 handle .SEEK_CUR = ((handle.pos : ℤ), handle) := by
  have hto : target handle 0 .SEEK_CUR = handle.pos := add_zero _
  rw [fseek_open (by rw [hto]; exact h), hto, Int.toNat_natCast]

theorem open_inside {pos : ℕ} (h : pos ≤ handle.content.length) : Open kernel handle pos :=
  ⟨Int.natCast_nonneg _, Or.inl (Int.ofNat_le.mpr h)⟩

theorem Open.grown {handle' : Handle} {pos : ℤ} (h : Open kernel handle pos)
    (hgrown : handle.content.length ≤ handle'.content.length) : Open kernel handle' pos :=
  ⟨h.1, h.2.imp_left fun hin => hin.trans (Int.ofNat_le.mpr hgrown)⟩

theorem fseek_end : Fseek kernel 0 handle .SEEK_END =
    ((handle.content.length : ℤ), atEnd handle) := by
  have hto : target handle 0 .SEEK_END = handle.content.length := add_zero _
  rw [fseek_open (by rw [hto]; exact open_inside le_rfl), hto, Int.toNat_natCast]
  rfl

theorem lseek_open (hmode : mode ≠ .SEEK_END) (hpos : Open kernel handle handle.pos)
    (htarget : mode = .SEEK_CUR → target handle offset mode < 2 ^ 31)
    (h : Open kernel handle (target handle offset mode)) :
    lseek kernel handle offset mode = some (.ok (target handle offset mode),
      { handle with pos := (target handle offset mode).toNat }) := by
  by_cases hzero : offset ≤ 0
  · rw [lseek, if_pos (Or.inr hzero), fseek_open h]
    simp only [if_neg (not_lt.mpr h.1)]
  · have hexpected : (if mode = .SEEK_SET then offset else long (offset + handle.pos)) =
        target handle offset mode := by
      cases mode with
      | SEEK_SET => rw [if_pos rfl]; rfl
      | SEEK_CUR =>
        rw [if_neg (by decide), add_comm]
        exact long_eq h.1 (htarget rfl)
      | SEEK_END => exact absurd rfl hmode
    rw [lseek, if_neg (not_or.mpr ⟨hmode, hzero⟩), fseek_cur hpos]
    simp only [if_neg (not_lt.mpr (Int.natCast_nonneg handle.pos)), hexpected, fseek_open h, if_true]

theorem lseek_past (hmode : mode ≠ .SEEK_END) (hpos : Open kernel handle handle.pos)
    (hoffset : 0 < offset) (htarget : target handle offset mode < 2 ^ 31)
    (hnonneg : 0 ≤ target handle offset mode)
    (h : ¬ Open kernel handle (target handle offset mode)) :
    lseek kernel handle offset mode =
      extend kernel (target handle offset mode)
        (target handle offset mode - handle.content.length).toNat handle.content.length
        (atEnd handle) := by
  have hexpected : (if mode = .SEEK_SET then offset else long (offset + handle.pos)) =
      target handle offset mode := by
    cases mode with
    | SEEK_SET => rw [if_pos rfl]; rfl
    | SEEK_CUR =>
      rw [if_neg (by decide), add_comm]
      exact long_eq hnonneg htarget
    | SEEK_END => exact absurd rfl hmode
  have hout : handle.content.length < target handle offset mode :=
    not_le.mp fun hin => h ⟨hnonneg, Or.inl hin⟩
  have hlength : ¬ (handle.content.length : ℤ) < 0 := not_lt.mpr (Int.natCast_nonneg _)
  rw [lseek, if_neg (not_or.mpr ⟨hmode, not_le.mpr hoffset⟩), fseek_cur hpos]
  simp only [if_neg (not_lt.mpr (Int.natCast_nonneg handle.pos)), hexpected,
    fseek_past hnonneg h]
  cases kernel.past handle (target handle offset mode) with
  | none => simp only [if_neg hout.ne, if_neg hlength]
  | some e =>
    -- the seek is rejected, and the next one goes to the end
    have he : -(e : ℤ) < 0 := by
      have hpos := e.pos
      omega
    have hne : ¬ -(e : ℤ) = target handle offset mode := by omega
    simp only [if_neg hne, if_pos he, fseek_end]

theorem extended_end : Extended handle (atEnd handle) :=
  ⟨⟨0, by rw [List.replicate_zero, List.append_nil]; rfl⟩, rfl⟩

/-- On a kernel that rejects or clamps seeks past the end `lseek` goes where it is to go, with
zeros in the hole, unless a write is cut short. -/
theorem lseek_sought (hkernel : ∀ pos, kernel.accepts pos = false)
    (hinside : handle.pos ≤ handle.content.length) (hlen : handle.content.length < 2 ^ 31)
    (hmode : mode ≠ .SEEK_END) (hoffset : 0 ≤ offset)
    (htarget : target handle offset mode < 2 ^ 31) :
    ∃ found, lseek kernel handle offset mode = some found ∧
      Sought kernel handle (target handle offset mode) found := by
  have hnonneg : 0 ≤ target handle offset mode := by
    cases mode with
    | SEEK_SET => exact hoffset
    | SEEK_CUR => exact add_nonneg (Int.natCast_nonneg _) hoffset
    | SEEK_END => exact absurd rfl hmode
  have hpos : Open kernel handle handle.pos := open_inside hinside
  by_cases hin : target handle offset mode ≤ handle.content.length
  · refine ⟨_, lseek_open hmode hpos (fun _ => htarget) ⟨hnonneg, Or.inl hin⟩,
      (Int.toNat_of_nonneg hnonneg).symm, Or.inl rfl, ?_⟩
    have hzero : max handle.content.length (target handle offset mode).toNat -
        handle.content.length = 0 := by omega
    rw [hzero, List.replicate_zero, List.append_nil]
  · have hno : ¬ Open kernel handle (target handle offset mode) := by
      rintro ⟨-, h | h⟩
      · exact hin h
      · rw [hkernel] at h
        exact absurd h (by decide)
    have hpast : 0 < offset := by
      cases mode with
      | SEEK_SET =>
        have hto : target handle offset .SEEK_SET = offset := rfl
        omega
      | SEEK_CUR =>
        have hto : target handle offset .SEEK_CUR = handle.pos + offset := rfl
        omega
      | SEEK_END => exact absurd rfl hmode
    rw [lseek_past hmode hpos hpast htarget hnonneg hno]
    exact extend_ok _ extended_end rfl (by omega) htarget le_rfl

/-- Ten bytes are to be added to three, and a write takes four at most. -/
theorem lseek_sought_demo : ∃ found,
    lseek ⟨fun _ => false, fun _ _ => some 64, fun _ _ => .ok 4⟩ ⟨[1, 2, 3], 1, 0⟩ 12 .SEEK_CUR =
        some found ∧
      Sought ⟨fun _ => false, fun _ _ => some 64, fun _ _ => .ok 4⟩ ⟨[1, 2, 3], 1, 0⟩ 13 found :=
  lseek_sought (fun _ => rfl) (by decide) (by decide) (by decide) (by decide) (by decide)

end Extend

end Mintlib.Lseek
