import Mintlib.Pread
import Mintlib.PipeLinks
import Mintlib.Posix

/-!
# Reserving storage: `posix_fallocate.c`

`posix_fallocate` writes a zero byte with `pwrite` at every `step` of the range. The step is
made of the offset and the block size.
-/

namespace Mintlib.Fallocate

open Text Stdio Lseek Pread PipeLinks Posix

def S_ISREG (mode : ℕ) : Prop := mode &&& S_IFMT = 0o100000

instance (mode : ℕ) : Decidable (S_ISREG mode) := inferInstanceAs (Decidable (_ = _))

/-- `__pwrite`: how much is written or `errno`. -/
def pwrite (kernel : Kernel) (handle : Handle) (buf : Str) (offset : ℤ) :
    Option (Except (Option ℕ) ℤ × Handle) :=
  match lseek kernel handle 0 .SEEK_CUR with
  | none => none
  | some (.error errno, handle) => some (.error errno, handle)
  | some (.ok old_offset, handle) =>
    match lseek kernel handle offset .SEEK_SET with
    | none => none
    | some (.error errno, handle) => some (.error errno, handle)
    | some (.ok _, handle) =>
      let (result, save_errno, handle) := write kernel handle buf
      match lseek kernel handle old_offset .SEEK_SET with
      | none => none
      | some (.error errno, handle) =>
        some (.error (if result = -1 then save_errno.map (↑) else errno), handle)
      | some (.ok _, handle) =>
        some (if result = -1 then .error (save_errno.map (↑)) else .ok result, handle)

structure Stat where
  st_mode : ℕ
  st_blksize : ℕ

/-- The alignment of the offset, which is all that the loop goes on by: `none` for a division by
zero. -/
def alignment (offset : ℤ) (st_blksize : ℕ) : Option ℕ :=
  let inverted := 2 ^ 32 - 1 - st_blksize
  if inverted = 0 then none
  else some (((offset + st_blksize - 1) % 2 ^ 32).toNat % inverted)

/-- The loop over the blocks; `turns` bounds its turns. -/
def blocks (kernel : Kernel) (errno step : ℕ) :
    ℕ → ℕ → ℤ → Handle → Option (ℕ × Handle)
  | turns, len, offset, handle =>
    if step < len then
      match turns with
      | 0 => none
      | turns + 1 =>
        let len := len - step
        match pwrite kernel handle [0] offset with
        | none => none
        | some (.error set, handle) => some (set.getD errno, handle)
        | some (.ok written, handle) =>
          if written ≠ 1 then some (errno, handle)
          else blocks kernel errno step turns len (long (offset + step)) handle
    else some (0, handle)

/-- `posix_fallocate`; the sum of an `off_t` and a `size_t` is never negative. -/
def posixFallocate (kernel : Kernel) (fstat : Option Stat) (errno turns : ℕ) (handle : Handle)
    (offset : ℤ) (len : ℕ) : Option (ℕ × Handle) :=
  if offset < 0 ∨ len = 0 then some (EINVAL, handle)
  else
    match fstat with
    | none => some (EBADF, handle)
    | some st =>
      if S_ISFIFO st.st_mode then some (ESPIPE, handle)
      else if ¬ S_ISREG st.st_mode then some (ENODEV, handle)
      else
        match alignment offset st.st_blksize with
        | none => none
        | some step => blocks kernel errno step turns len (long (offset + step)) handle

/-- The kernel of a regular file: writing is refused, or a file may have `limit` bytes and what
does not fit is not written. -/
def regular (accepts : ℤ → Bool) (past : Handle → ℤ → Option ℕ+) (refused : Option ℕ+)
    (limit : ℕ) : Kernel where
  accepts := accepts
  past := past
  write := fun handle buf =>
    match refused with
    | some errno => .error errno
    | none =>
      let room := max limit handle.content.length - handle.pos
      if buf.length ≤ room then .ok buf.length
      else if room = 0 then .error ENOSPC
      else .ok room

section Regular

variable {handle : Handle} {limit : ℕ} (accepts : ℤ → Bool) (past : Handle → ℤ → Option ℕ+)

theorem write_fits (buf : Str)
    (hfits : handle.pos + buf.length ≤ max limit handle.content.length) :
    ∃ handle' : Handle,
      write (regular accepts past none limit) handle buf = ((buf.length : ℤ), none, handle') ∧
      handle'.content = handle.put buf ∧ handle'.pos = handle.pos + buf.length := by
  have hroom : buf.length ≤ max limit handle.content.length - handle.pos := by omega
  have hwrite : (regular accepts past none limit).write handle buf = .ok buf.length := if_pos hroom
  unfold write
  rw [hwrite]
  simp only [List.take_length]
  exact ⟨_, rfl, rfl, rfl⟩

theorem write_full {buf : Str} (hne : buf ≠ [])
    (hfull : max limit handle.content.length ≤ handle.pos) :
    ∃ handle' : Handle,
      write (regular accepts past none limit) handle buf = (-1, some ENOSPC, handle') ∧
      handle'.content = handle.content ∧ handle'.pos = handle.pos := by
  have hlength := List.length_pos_of_ne_nil hne
  have hroom : ¬ buf.length ≤ max limit handle.content.length - handle.pos := by omega
  have hnone : max limit handle.content.length - handle.pos = 0 := by omega
  have hwrite : (regular accepts past none limit).write handle buf = .error ENOSPC := by
    show (if _ then _ else if _ then _ else _) = _
    rw [if_neg hroom, if_pos hnone]
  unfold write
  rw [hwrite]
  exact ⟨_, rfl, rfl, rfl⟩

theorem write_short {buf : Str} (hend : handle.pos = handle.content.length)
    (hlimit : handle.content.length < limit) (hover : limit < handle.pos + buf.length) :
    ∃ handle' : Handle, write (regular accepts past none limit) handle buf =
        (((limit - handle.content.length : ℕ) : ℤ), none, handle') ∧
      handle'.content.length = limit ∧ handle'.pos = limit := by
  have hroom : ¬ buf.length ≤ max limit handle.content.length - handle.pos := by omega
  have hsome : ¬ max limit handle.content.length - handle.pos = 0 := by omega
  have hcount : max limit handle.content.length - handle.pos =
      limit - handle.content.length := by
    omega
  have hwrite : (regular accepts past none limit).write handle buf =
      .ok (limit - handle.content.length) := by
    show (if _ then _ else if _ then _ else _) = _
    rw [if_neg hroom, if_neg hsome, hcount]
  have hbytes : (buf.take (limit - handle.content.length)).length =
      limit - handle.content.length := by
    rw [List.length_take]
    omega
  unfold write
  rw [hwrite]
  simp only [hbytes]
  refine ⟨_, rfl, ?_, ?_⟩
  · show (handle.put _).length = limit
    rw [put_end hend, List.length_append, hbytes]
    omega
  · show handle.pos + (limit - handle.content.length) = limit
    omega

variable (handle limit) in
theorem write_refused (errno : ℕ+) (buf : Str) :
    ∃ handle', write (regular accepts past (some errno) limit) handle buf = (-1, some errno, handle') ∧
      handle'.content = handle.content ∧ handle'.pos = handle.pos := by
  unfold write
  exact ⟨_, rfl, rfl, rfl⟩

variable {expected_pos : ℤ}

theorem chunk_some {new_pos : ℤ} (hgo : new_pos < expected_pos)
    (hlong : expected_pos - new_pos < 2 ^ 31) :
    ∃ n : ℕ, (if 256 < long (expected_pos - new_pos) then 256
        else long (expected_pos - new_pos)) = (n : ℤ) ∧ 0 < n ∧
      (n : ℤ) ≤ expected_pos - new_pos :=
  ⟨_, chunk_eq hgo hlong, by omega, by omega⟩

theorem extend_fits (turns : ℕ) : ∀ {new_pos : ℤ} {handle : Handle},
    handle.pos = handle.content.length → new_pos = handle.pos → new_pos ≤ expected_pos →
      expected_pos < 2 ^ 31 → expected_pos ≤ max limit handle.content.length →
      (expected_pos - new_pos).toNat ≤ turns →
      ∃ handle', extend (regular accepts past none limit) expected_pos turns new_pos handle =
          some (.ok expected_pos, handle') ∧
        handle'.content = handle.content ++
          List.replicate (expected_pos - new_pos).toNat 0 ∧
        (handle'.pos : ℤ) = expected_pos := by
  induction turns with
  | zero =>
    intro new_pos handle hend hpos hle hlt hroom hturns
    have heq : expected_pos = new_pos := by omega
    refine ⟨handle, ?_, ?_, by omega⟩
    · rw [extend, if_neg (by omega), heq]
    · rw [heq, sub_self, Int.toNat_zero, List.replicate_zero, List.append_nil]
  | succ turns ih =>
    intro new_pos handle hend hpos hle hlt hroom hturns
    by_cases hgo : new_pos < expected_pos
    · obtain ⟨n, hn, hn0, hnle⟩ := chunk_some hgo (by omega)
      have hlength : (List.replicate n (0 : UInt8)).length = n := List.length_replicate
      obtain ⟨handle₁, hwrite, hcontent₁, hpos₁⟩ := write_fits accepts past
        (List.replicate n 0) (show handle.pos + (List.replicate n (0 : UInt8)).length ≤
          max limit handle.content.length by rw [hlength]; omega)
      rw [hlength] at hwrite hpos₁
      rw [put_end hend] at hcontent₁
      have hlength₁ : handle₁.content.length = handle.content.length + n := by
        rw [hcontent₁, List.length_append, hlength]
      obtain ⟨handle', hext, hcontent', hpos'⟩ := ih
        (show handle₁.pos = handle₁.content.length by omega)
        (show new_pos + n = handle₁.pos by omega) (by omega) hlt (by omega) (by omega)
      refine ⟨handle', ?_, ?_, hpos'⟩
      · rw [extend, if_pos hgo]
        simp only [hn, Int.toNat_natCast, hwrite]
        rw [if_neg (not_not.mpr rfl), long_eq (by omega) (by omega)]
        exact hext
      · have hsum : n + (expected_pos - (new_pos + n)).toNat = (expected_pos - new_pos).toNat := by
          omega
        rw [hcontent', hcontent₁, List.append_assoc, ← List.replicate_add, hsum]
    · have heq : expected_pos = new_pos := by omega
      refine ⟨handle, ?_, ?_, by omega⟩
      · rw [extend, if_neg hgo, heq]
      · rw [heq, sub_self, Int.toNat_zero, List.replicate_zero, List.append_nil]

/-- The file is as long as it may be, or a little of the hole was filled and then no more. -/
def Full (limit : ℕ) : Except (Option ℕ) ℤ × Handle → Prop
  | (result, handle) => handle.pos = handle.content.length ∧ limit ≤ handle.content.length ∧
      ∀ errno, result = .error errno → errno = some (ENOSPC : ℕ)

theorem extend_full (turns : ℕ) : ∀ {new_pos : ℤ} {handle : Handle},
    handle.pos = handle.content.length → new_pos = handle.pos → expected_pos < 2 ^ 31 →
      max limit handle.content.length < expected_pos →
      (expected_pos - new_pos).toNat ≤ turns →
      ∃ found, extend (regular accepts past none limit) expected_pos turns new_pos handle = some found ∧
        Full limit found ∧ handle.content.length ≤ found.2.content.length := by
  induction turns with
  | zero =>
    intro new_pos handle hend hpos hlt hroom hturns
    omega
  | succ turns ih =>
    intro new_pos handle hend hpos hlt hroom hturns
    have hgo : new_pos < expected_pos := by omega
    obtain ⟨n, hn, hn0, hnle⟩ := chunk_some hgo (by omega)
    have hlength : (List.replicate n (0 : UInt8)).length = n := List.length_replicate
    have hne : List.replicate n (0 : UInt8) ≠ [] := by
      rw [← List.length_pos_iff, hlength]
      exact hn0
    rw [extend, if_pos hgo]
    by_cases hfits : handle.pos + n ≤ limit
    · -- a whole chunk, and more to come
      obtain ⟨handle₁, hwrite, hcontent₁, hpos₁⟩ := write_fits accepts past
        (List.replicate n 0) (show handle.pos + (List.replicate n (0 : UInt8)).length ≤
          max limit handle.content.length by rw [hlength]; omega)
      rw [hlength] at hwrite hpos₁
      rw [put_end hend] at hcontent₁
      have hlength₁ : handle₁.content.length = handle.content.length + n := by
        rw [hcontent₁, List.length_append, hlength]
      obtain ⟨found, hext, hfull, hgrown⟩ := ih
        (show handle₁.pos = handle₁.content.length by omega)
        (show new_pos + n = handle₁.pos by omega) hlt (by omega) (by omega)
      refine ⟨found, ?_, hfull, by omega⟩
      simp only [hn, Int.toNat_natCast, hwrite]
      rw [if_neg (not_not.mpr rfl), long_eq (by omega) (by omega)]
      exact hext
    · by_cases hsome : handle.content.length < limit
      · -- a part of it
        obtain ⟨handle₁, hwrite, hlength₁, hpos₁⟩ := write_short accepts past hend hsome
          (show limit < handle.pos + (List.replicate n (0 : UInt8)).length by
            rw [hlength]; omega)
        simp only [hn, Int.toNat_natCast, hwrite]
        rw [if_pos (by omega), if_pos (by omega)]
        refine ⟨_, rfl, ⟨hpos₁.trans hlength₁.symm, hlength₁.ge, ?_⟩, ?_⟩
        · intro errno herrno
          cases herrno
        · show handle.content.length ≤ handle₁.content.length
          omega
      · -- nothing
        obtain ⟨handle₁, hwrite, hcontent₁, hpos₁⟩ :=
          write_full accepts past hne
            (show max limit handle.content.length ≤ handle.pos by omega)
        simp only [hn, Int.toNat_natCast, hwrite]
        rw [if_pos (by omega), if_neg (by decide)]
        refine ⟨_, rfl, ⟨?_, ?_, ?_⟩, ?_⟩
        · rw [hcontent₁, hpos₁, hend]
        · rw [hcontent₁]
          exact not_lt.mp hsome
        · intro errno herrno
          exact (Except.error.inj herrno).symm
        · show handle.content.length ≤ handle₁.content.length
          rw [hcontent₁]

/-- A zero byte stands at `o`, and the rest of the old content where it was. -/
structure Zeroed (old new : Str) (o : ℕ) : Prop where
  length : new.length = max old.length (o + 1)
  get : ∀ j, j < old.length → new[j]? = if j = o then some 0 else old[j]?

theorem put_zeroed : Zeroed handle.content (handle.put [0]) handle.pos := by
  by_cases hin : handle.pos ≤ handle.content.length
  · have htake : (handle.content.take handle.pos).length = handle.pos := by
      rw [List.length_take, Nat.min_eq_left hin]
    rw [put_eq hin]
    constructor
    · rw [List.length_append, List.length_append, htake, List.length_drop, List.length_singleton]
      omega
    · intro j hj
      rw [List.append_assoc]
      by_cases hlt : j < handle.pos
      · rw [List.getElem?_append_left (by rw [htake]; exact hlt), List.getElem?_take_of_lt hlt,
          if_neg (Nat.ne_of_lt hlt)]
      · rw [List.getElem?_append_right (by rw [htake]; exact not_lt.mp hlt), htake]
        by_cases heq : j = handle.pos
        · rw [if_pos heq, heq, Nat.sub_self]
          rfl
        · obtain ⟨k, hk⟩ : ∃ k, j - handle.pos = k + 1 :=
            Nat.exists_eq_succ_of_ne_zero (by omega)
          rw [if_neg heq, hk, List.singleton_append, List.getElem?_cons_succ, List.getElem?_drop,
            List.length_singleton]
          congr 1
          omega
  · -- behind a hole
    have hhole : handle.put [0] =
        handle.content ++ (List.replicate (handle.pos - handle.content.length) 0 ++ [0]) := by
      rw [Handle.put, if_neg (List.cons_ne_nil _ _), List.take_of_length_le (by omega),
        List.drop_eq_nil_of_le (by omega), List.append_nil, List.append_assoc]
    rw [hhole]
    constructor
    · rw [List.length_append, List.length_append, List.length_replicate, List.length_singleton]
      omega
    · intro j hj
      rw [List.getElem?_append_left hj, if_neg (by omega)]

theorem Zeroed.behind {old mid new : Str} {n o : ℕ} (h : Zeroed mid new o)
    (hmid : mid = old ++ List.replicate n 0) (ho : old.length + n ≤ o) : Zeroed old new o := by
  have hlength : mid.length = old.length + n := by
    rw [hmid, List.length_append, List.length_replicate]
  constructor
  · rw [h.length, hlength]
    omega
  · intro j hj
    rw [h.get j (by omega), hmid, List.getElem?_append_left hj]

variable {kernel : Kernel} {offset : ℤ} {buf : Str}

/-- A write leaves the position where the kernel lets it be, and the file no shorter. -/
theorem write_open (buf : Str) (hpos : Open kernel handle handle.pos) :
    Open kernel (write kernel handle buf).2.2 (write kernel handle buf).2.2.pos ∧
      handle.content.length ≤ (write kernel handle buf).2.2.content.length := by
  unfold write
  cases kernel.write handle buf with
  | error e => exact ⟨hpos, le_rfl⟩
  | ok n =>
    simp only
    by_cases hbytes : buf.take n = []
    · rw [hbytes, List.length_nil, Nat.add_zero, Handle.put, if_pos rfl]
      exact ⟨hpos, le_rfl⟩
    · have hput : handle.pos + (buf.take n).length ≤ (handle.put (buf.take n)).length ∧
          handle.content.length ≤ (handle.put (buf.take n)).length := by
        rw [Handle.put, if_neg hbytes]
        simp only [List.length_append, List.length_take, List.length_replicate, List.length_drop]
        omega
      exact ⟨open_inside hput.1, hput.2⟩

theorem pwrite_sought (buf : Str) {handle₁ : Handle} {r : ℤ}
    (hpos : Open kernel handle handle.pos)
    (hseek : lseek kernel handle offset .SEEK_SET = some (.ok r, handle₁))
    (hpos₁ : Open kernel handle₁ handle₁.pos)
    (hlength : handle.content.length ≤ handle₁.content.length) :
    ∃ handle', pwrite kernel handle buf offset =
        some (if (write kernel handle₁ buf).1 = -1 then
          .error ((write kernel handle₁ buf).2.1.map (↑)) else .ok (write kernel handle₁ buf).1,
          handle') ∧
      handle'.content = (write kernel handle₁ buf).2.2.content ∧ handle'.pos = handle.pos := by
  obtain ⟨hpos₂, hgrown⟩ := write_open buf hpos₁
  have hback := lseek_set kernel (write kernel handle₁ buf).2.2 hpos₂ (hpos.grown (hlength.trans hgrown))
  refine ⟨{ (write kernel handle₁ buf).2.2 with pos := handle.pos }, ?_, rfl, rfl⟩
  rw [pwrite, lseek_cur kernel handle hpos]
  simp only [hseek, hback, Int.toNat_natCast]

theorem pwrite_error {handle' : Handle} {errno : Option ℕ} (hpos : Open kernel handle handle.pos)
    (hseek : lseek kernel handle offset .SEEK_SET = some (.error errno, handle')) :
    pwrite kernel handle buf offset = some (.error errno, handle') := by
  rw [pwrite, lseek_cur kernel handle hpos]
  simp only [hseek]

/-- From a position that the kernel does not let be, the first `lseek` fails or goes to the end. -/
theorem pwrite_closed (buf : Str) (offset : ℤ) (hpos : ¬ Open kernel handle handle.pos) :
    pwrite kernel handle buf offset =
      match kernel.past handle handle.pos with
      | some e => some (.error (seekError (-(e : ℤ))), handle)
      | none => pwrite kernel (atEnd handle) buf offset := by
  have hend : Open kernel (atEnd handle) (atEnd handle).pos := open_inside le_rfl
  have hcur := lseek_closed kernel hpos
  cases hpast : kernel.past handle handle.pos with
  | some e =>
    rw [hpast] at hcur
    rw [pwrite, hcur]
  | none =>
    rw [hpast] at hcur
    simp only
    rw [pwrite, pwrite, hcur, lseek_cur kernel _ hend]
    rfl

theorem pwrite_fits
    (hopen : Open (regular accepts past none limit) handle handle.pos)
    (hnonneg : 0 ≤ offset) (hlt : offset < 2 ^ 31)
    (hroom : offset < max limit handle.content.length) :
    ∃ handle', pwrite (regular accepts past none limit) handle [0] offset =
        some (.ok 1, handle') ∧
      Zeroed handle.content handle'.content offset.toNat ∧ handle'.pos = handle.pos := by
  by_cases hin : Open (regular accepts past none limit) handle offset
  · have hseek := lseek_set _ handle hopen hin
    obtain ⟨handle₂, hwrite, hcontent₂, -⟩ := write_fits accepts past [0]
      (show ({ handle with pos := offset.toNat } : Handle).pos + [(0 : UInt8)].length ≤
        max limit handle.content.length by
          show offset.toNat + 1 ≤ _
          omega)
    obtain ⟨handle', hpwrite, hcontent', hback⟩ := pwrite_sought [0] hopen hseek
      ((Int.toNat_of_nonneg hnonneg).symm ▸ hin) le_rfl
    rw [hwrite] at hpwrite hcontent'
    refine ⟨handle', hpwrite, ?_, hback⟩
    rw [hcontent', hcontent₂]
    exact @put_zeroed { handle with pos := offset.toNat }
  · obtain ⟨hout, hseek⟩ := lseek_beyond _ handle hlt hopen hnonneg hin
    obtain ⟨handle₁, hext, hcontent₁, hpos₁⟩ := extend_fits accepts past
      (offset - handle.content.length).toNat
      (show (atEnd handle).pos = (atEnd handle).content.length from rfl)
      (show (handle.content.length : ℤ) = (atEnd handle).pos from rfl) hout.le hlt
      (show offset ≤ max limit (handle.content.length : ℕ) by omega) le_rfl
    have hcontent₁ : handle₁.content =
      handle.content ++ List.replicate (offset - handle.content.length).toNat 0 := hcontent₁
    have hlength₁ : handle₁.content.length = offset.toNat := by
      rw [hcontent₁, List.length_append, List.length_replicate]
      omega
    obtain ⟨handle₂, hwrite, hcontent₂, -⟩ := write_fits accepts past [0]
      (show handle₁.pos + [(0 : UInt8)].length ≤ max limit handle₁.content.length by
        rw [hlength₁, List.length_singleton]; omega)
    have hat : handle₁.pos = offset.toNat := by omega
    rw [← hseek] at hext
    obtain ⟨handle', hpwrite, hcontent', hback⟩ := pwrite_sought [0] hopen hext
      (open_inside (by omega)) (by omega)
    rw [hwrite] at hpwrite hcontent'
    refine ⟨handle', hpwrite, ?_, hback⟩
    rw [hcontent', hcontent₂]
    refine Zeroed.behind ?_ hcontent₁ (by omega)
    rw [← hat]
    exact put_zeroed

theorem pwrite_at_limit {handle₁ : Handle} {r : ℤ}
    (hopen : Open (regular accepts past none limit) handle handle.pos)
    (hseek : lseek (regular accepts past none limit) handle offset .SEEK_SET =
      some (.ok r, handle₁))
    (hpos₁ : Open (regular accepts past none limit) handle₁ handle₁.pos)
    (hfull : max limit handle₁.content.length ≤ handle₁.pos)
    (hgrown : handle.content.length ≤ handle₁.content.length) :
    ∃ handle', pwrite (regular accepts past none limit) handle [0] offset =
      some (.error (some (ENOSPC : ℕ)), handle') := by
  obtain ⟨handle₂, hwrite, -⟩ :=
    write_full accepts past (show [(0 : UInt8)] ≠ [] from List.cons_ne_nil _ _) hfull
  obtain ⟨handle', hpwrite, -⟩ := pwrite_sought [0] hopen hseek hpos₁ hgrown
  rw [hwrite] at hpwrite
  exact ⟨handle', hpwrite⟩

theorem pwrite_full
    (hopen : Open (regular accepts past none limit) handle handle.pos)
    (hnonneg : 0 ≤ offset) (hlt : offset < 2 ^ 31)
    (hroom : max limit handle.content.length ≤ offset) :
    ∃ handle', pwrite (regular accepts past none limit) handle [0] offset =
      some (.error (some (ENOSPC : ℕ)), handle') := by
  by_cases hin : Open (regular accepts past none limit) handle offset
  · refine pwrite_at_limit accepts past hopen (lseek_set _ handle hopen hin)
      ((Int.toNat_of_nonneg hnonneg).symm ▸ hin) ?_ le_rfl
    show max limit handle.content.length ≤ offset.toNat
    omega
  · obtain ⟨hout, hseek⟩ := lseek_beyond _ handle hlt hopen hnonneg hin
    by_cases hjust : offset ≤ max limit handle.content.length
    · obtain ⟨handle₁, hext, hcontent₁, hpos₁⟩ := extend_fits accepts past
        (offset - handle.content.length).toNat
        (show (atEnd handle).pos = (atEnd handle).content.length from rfl)
        (show (handle.content.length : ℤ) = (atEnd handle).pos from rfl) hout.le hlt
        hjust le_rfl
      have hcontent₁ : handle₁.content =
        handle.content ++ List.replicate (offset - handle.content.length).toNat 0 := hcontent₁
      have hlength₁ : handle₁.content.length = offset.toNat := by
        rw [hcontent₁, List.length_append, List.length_replicate]
        omega
      rw [← hseek] at hext
      exact pwrite_at_limit accepts past hopen hext (open_inside (by omega)) (by omega)
        (by omega)
    · obtain ⟨⟨result, handle₁⟩, hext, hfull, hgrown⟩ := extend_full accepts past
        (offset - handle.content.length).toNat
        (show (atEnd handle).pos = (atEnd handle).content.length from rfl)
        (show (handle.content.length : ℤ) = (atEnd handle).pos from rfl) hlt
        (show max limit (handle.content.length : ℕ) < offset by omega) le_rfl
      rw [← hseek] at hext
      obtain ⟨hend, hlimit, herrno⟩ := hfull
      cases result with
      | error errno =>
        rw [herrno errno rfl] at hext
        exact ⟨handle₁, pwrite_error hopen hext⟩
      | ok r =>
        exact pwrite_at_limit accepts past hopen hext (open_inside hend.le) (by omega) hgrown

theorem pwrite_refused (errno : ℕ+)
    (hopen : Open (regular accepts past (some errno) limit) handle handle.pos)
    (hnonneg : 0 ≤ offset) (hlt : offset < 2 ^ 31) :
    ∃ handle', pwrite (regular accepts past (some errno) limit) handle [0] offset =
      some (.error (some (errno : ℕ)), handle') := by
  by_cases hin : Open (regular accepts past (some errno) limit) handle offset
  · obtain ⟨handle', hpwrite, -⟩ := pwrite_sought [0] hopen
      (lseek_set _ handle hopen hin) ((Int.toNat_of_nonneg hnonneg).symm ▸ hin) le_rfl
    exact ⟨handle', hpwrite⟩
  · obtain ⟨hout, hseek⟩ := lseek_beyond _ handle hlt hopen hnonneg hin
    obtain ⟨turns, hturns⟩ : ∃ turns, (offset - handle.content.length).toNat = turns + 1 :=
      Nat.exists_eq_succ_of_ne_zero (by omega)
    obtain ⟨n, hn, hn0, -⟩ := chunk_some hout (by omega)
    obtain ⟨handle₁, hwrite, -⟩ :=
      write_refused (atEnd handle) limit accepts past errno (List.replicate n 0)
    refine ⟨handle₁, pwrite_error hopen ?_⟩
    rw [hseek, hturns, extend, if_pos hout]
    simp only [hn, Int.toNat_natCast, hwrite]
    rw [if_pos (by omega), if_neg (by decide)]
    rfl

variable {errno step : ℕ}

theorem blocks_end {len : ℕ} (hno : ¬ step < len) (turns : ℕ) :
    blocks kernel errno step turns len offset handle = some (0, handle) := by
  cases turns with
  | zero => rw [blocks, if_neg hno]
  | succ turns => rw [blocks, if_neg hno]

theorem blocks_more (turns : ℕ) : ∀ {len : ℕ} {offset : ℤ} {handle : Handle}
    {found : ℕ × Handle}, blocks kernel errno step turns len offset handle = some found →
      ∀ more, blocks kernel errno step (turns + more) len offset handle = some found := by
  induction turns with
  | zero =>
    intro len offset handle found h more
    by_cases hgo : step < len
    · rw [blocks, if_pos hgo] at h
      cases h
    · rw [blocks_end hgo] at h ⊢
      exact h
  | succ turns ih =>
    intro len offset handle found h more
    rw [Nat.add_right_comm]
    by_cases hgo : step < len
    · rw [blocks, if_pos hgo] at h
      rw [blocks, if_pos hgo]
      cases hwrite : pwrite kernel handle [0] offset with
      | none =>
        rw [hwrite] at h
        cases h
      | some written =>
        obtain ⟨result, handle'⟩ := written
        rw [hwrite] at h
        cases result with
        | error set => exact h
        | ok written =>
          simp only at h ⊢
          by_cases hone : written ≠ 1
          · rw [if_pos hone] at h ⊢
            exact h
          · rw [if_neg hone] at h ⊢
            exact ih h more
    · rw [blocks_end hgo] at h ⊢
      exact h

theorem blocks_written {handle' : Handle} {turns len : ℕ} (hgo : step < len)
    (hwrite : pwrite kernel handle [0] offset = some (.ok 1, handle')) :
    blocks kernel errno step (turns + 1) len offset handle =
      blocks kernel errno step turns (len - step) (long (offset + step)) handle' := by
  rw [blocks, if_pos hgo]
  simp only [hwrite]
  rw [if_neg (not_not.mpr rfl)]

theorem blocks_failed {handle' : Handle} {turns len set : ℕ} (hgo : step < len)
    (hwrite : pwrite kernel handle [0] offset = some (.error (some set), handle')) :
    blocks kernel errno step (turns + 1) len offset handle = some (set, handle') := by
  rw [blocks, if_pos hgo]
  simp only [hwrite]
  rfl

theorem next_offset {len : ℕ} (hnonneg : 0 ≤ offset)
    (hlt : ∀ k, (k + 1) * step < len → offset + k * step < 2 ^ 31) {k : ℕ}
    (hk : (k + 1) * step < len - step) : long (offset + step) = offset + step := by
  have hle : step ≤ (k + 1) * step := Nat.le_mul_of_pos_left _ (Nat.succ_pos k)
  have htwo : (1 + 1) * step < len := by
    rw [Nat.add_mul, Nat.one_mul]
    omega
  have h := hlt 1 htwo
  rw [Nat.cast_one, one_mul] at h
  exact long_eq (by omega) h

theorem next_turn {len k : ℕ} (hk : (k + 1) * step < len - step) :
    (k + 1 + 1) * step < len ∧
      ∀ offset : ℤ, offset + step + k * step = offset + ((k + 1 : ℕ) : ℤ) * step := by
  constructor
  · rw [Nat.add_mul (k + 1) 1, Nat.one_mul]
    omega
  · intro offset
    push_cast
    ring

/-- What the loop leaves of the old content: zeros where it wrote, and an end behind the last
one. -/
structure Blocked (old new : Str) (offset : ℤ) (step len : ℕ) : Prop where
  longer : old.length ≤ new.length
  reaches : ∀ k : ℕ, (k + 1) * step < len → offset + k * step < new.length
  ends : new.length = old.length ∨
    ∃ k : ℕ, (k + 1) * step < len ∧ (new.length : ℤ) = offset + k * step + 1
  zero : ∀ (k j : ℕ), (k + 1) * step < len → (j : ℤ) = offset + k * step → j < old.length →
    new[j]? = some 0
  same : ∀ j : ℕ, j < old.length → (∀ k : ℕ, (k + 1) * step < len → (j : ℤ) ≠ offset + k * step) →
    new[j]? = old[j]?

theorem Blocked.none {old : Str} {len : ℕ} (hno : ¬ step < len) :
    Blocked old old offset step len := by
  have hvacuous : ∀ k : ℕ, ¬ (k + 1) * step < len := by
    intro k hk
    have hle : step ≤ (k + 1) * step := Nat.le_mul_of_pos_left _ (Nat.succ_pos k)
    omega
  exact ⟨le_rfl, fun k hk => absurd hk (hvacuous k), Or.inl rfl,
    fun k j hk => absurd hk (hvacuous k), fun _ _ _ => rfl⟩

theorem Blocked.cons {old mid new : Str} {len : ℕ} (hgo : step < len) (hnonneg : 0 ≤ offset)
    (hlt : ∀ k, (k + 1) * step < len → offset + k * step < 2 ^ 31)
    (hmid : Zeroed old mid offset.toNat)
    (h : Blocked mid new (long (offset + step)) step (len - step)) :
    Blocked old new offset step len := by
  have hlength := hmid.length
  have hlonger := h.longer
  -- every turn is this one or one of the rest
  have hback : ∀ {k : ℕ}, (k + 1) * step < len → k = 0 ∨
      ∃ k', k = k' + 1 ∧ (k' + 1) * step < len - step := by
    intro k hk
    cases k with
    | zero => exact Or.inl rfl
    | succ k =>
      refine Or.inr ⟨k, rfl, ?_⟩
      rw [Nat.add_mul (k + 1) 1, Nat.one_mul] at hk
      omega
  have hplace : ∀ {k : ℕ}, (k + 1) * step < len - step →
      long (offset + step) + k * step = offset + ((k + 1 : ℕ) : ℤ) * step := by
    intro k hk
    rw [next_offset hnonneg hlt hk]
    exact (next_turn hk).2 offset
  constructor
  · omega
  · intro k hk
    obtain rfl | ⟨k', rfl, hk'⟩ := hback hk
    · rw [Nat.cast_zero, zero_mul]
      omega
    · rw [← hplace hk']
      exact h.reaches k' hk'
  · obtain hend | ⟨k, hk, hend⟩ := h.ends
    · by_cases hin : offset.toNat + 1 ≤ old.length
      · exact Or.inl (by omega)
      · refine Or.inr ⟨0, by rw [Nat.zero_add, Nat.one_mul]; exact hgo, ?_⟩
        rw [Nat.cast_zero, zero_mul]
        omega
    · refine Or.inr ⟨k + 1, (next_turn hk).1, ?_⟩
      rw [hend, hplace hk]
  · intro k j hk hj hin
    obtain rfl | ⟨k', rfl, hk'⟩ := hback hk
    · rw [Nat.cast_zero, zero_mul] at hj
      have hat : j = offset.toNat := by omega
      have hget := hmid.get j hin
      rw [if_pos hat] at hget
      by_cases hagain : ∃ k : ℕ, (k + 1) * step < len - step ∧
          (j : ℤ) = long (offset + step) + k * step
      · obtain ⟨k, hk, hj'⟩ := hagain
        exact h.zero k j hk hj' (by omega)
      · push Not at hagain
        rw [h.same j (by omega) hagain, hget]
    · rw [← hplace hk'] at hj
      exact h.zero k' j hk' hj (by omega)
  · intro j hin hne
    have hfirst : j ≠ offset.toNat := by
      intro hat
      refine hne 0 (by rw [Nat.zero_add, Nat.one_mul]; exact hgo) ?_
      rw [Nat.cast_zero, zero_mul]
      omega
    have hget := hmid.get j hin
    rw [if_neg hfirst] at hget
    rw [h.same j (by omega), hget]
    intro k hk
    rw [hplace hk]
    exact hne (k + 1) (next_turn hk).1

theorem blocks_fits (hstep : step ≠ 0) (turns : ℕ) : ∀ {len : ℕ} {offset : ℤ} {handle : Handle},
    Open (regular accepts past none limit) handle handle.pos →
    (step < len → 0 ≤ offset) →
    (∀ k : ℕ, (k + 1) * step < len → offset + k * step < 2 ^ 31) →
    (∀ k : ℕ, (k + 1) * step < len → offset + k * step < max limit handle.content.length) →
    len ≤ turns →
    ∃ handle', blocks (regular accepts past none limit) errno step turns len offset handle =
        some (0, handle') ∧ Blocked handle.content handle'.content offset step len := by
  -- a block for each turn; what is left has the same conditions one step further
  induction turns with
  | zero =>
    intro len offset handle hopen hnonneg hlt hroom hturns
    have hno : ¬ step < len := by omega
    exact ⟨handle, blocks_end hno 0, Blocked.none hno⟩
  | succ turns ih =>
    intro len offset handle hopen hnonneg hlt hroom hturns
    by_cases hgo : step < len
    · have hfirst : (0 + 1) * step < len := by
        rw [Nat.zero_add, Nat.one_mul]
        exact hgo
      have hlt₀ := hlt 0 hfirst
      have hroom₀ := hroom 0 hfirst
      rw [Nat.cast_zero, zero_mul, add_zero] at hlt₀ hroom₀
      obtain ⟨handle₁, hwrite, hzeroed, hback⟩ :=
        pwrite_fits accepts past hopen (hnonneg hgo) hlt₀ hroom₀
      have hlength := hzeroed.length
      have hplace : ∀ k : ℕ, (k + 1) * step < len - step →
          long (offset + step) + k * step = offset + ((k + 1 : ℕ) : ℤ) * step := by
        intro k hk
        rw [next_offset (hnonneg hgo) hlt hk]
        exact (next_turn hk).2 offset
      have hnonneg' : step < len - step → 0 ≤ long (offset + step) := by
        intro hmore
        have hstep := hnonneg hgo
        rw [next_offset hstep hlt
          (show (0 + 1) * step < len - step by rw [Nat.zero_add, Nat.one_mul]; exact hmore)]
        omega
      have hlt' : ∀ k : ℕ, (k + 1) * step < len - step →
          long (offset + step) + k * step < 2 ^ 31 := by
        intro k hk
        rw [hplace k hk]
        exact hlt (k + 1) (next_turn hk).1
      have hroom' : ∀ k : ℕ, (k + 1) * step < len - step →
          long (offset + step) + k * step < max limit handle₁.content.length := by
        intro k hk
        have h := hroom (k + 1) (next_turn hk).1
        rw [hplace k hk]
        omega
      obtain ⟨handle', hrest, hblocked⟩ := ih
        (hback.symm ▸ hopen.grown (by omega)) hnonneg' hlt' hroom' (by omega)
      refine ⟨handle', ?_, hblocked.cons hgo (hnonneg hgo) hlt hzeroed⟩
      rw [blocks_written hgo hwrite]
      exact hrest
    · exact ⟨handle, blocks_end hgo (turns + 1), Blocked.none hgo⟩

theorem blocks_full (k : ℕ) : ∀ {turns len : ℕ} {offset : ℤ} {handle : Handle},
    Open (regular accepts past none limit) handle handle.pos →
    0 ≤ offset → (∀ k : ℕ, (k + 1) * step < len → offset + k * step < 2 ^ 31) →
    (k + 1) * step < len → max limit handle.content.length ≤ offset + k * step → k < turns →
    ∃ handle', blocks (regular accepts past none limit) errno step turns len offset handle =
      some ((ENOSPC : ℕ), handle') := by
  induction k with
  | zero =>
    intro turns len offset handle hopen hnonneg hlt hk hroom hturns
    obtain ⟨turns, rfl⟩ : ∃ t, turns = t + 1 := Nat.exists_eq_succ_of_ne_zero (by omega)
    have hlt₀ := hlt 0 hk
    rw [Nat.cast_zero, zero_mul, add_zero] at hlt₀ hroom
    rw [Nat.zero_add, Nat.one_mul] at hk
    obtain ⟨handle', hwrite⟩ := pwrite_full accepts past hopen hnonneg hlt₀ hroom
    exact ⟨handle', blocks_failed hk hwrite⟩
  | succ k ih =>
    intro turns len offset handle hopen hnonneg hlt hk hroom hturns
    obtain ⟨turns, rfl⟩ : ∃ t, turns = t + 1 := Nat.exists_eq_succ_of_ne_zero (by omega)
    have hgo : step < len :=
      (Nat.le_mul_of_pos_left step (Nat.succ_pos (k + 1))).trans_lt hk
    have hlt₀ := hlt 0 (by rw [Nat.zero_add, Nat.one_mul]; exact hgo)
    rw [Nat.cast_zero, zero_mul, add_zero] at hlt₀
    by_cases hfull : max limit handle.content.length ≤ offset
    · obtain ⟨handle', hwrite⟩ := pwrite_full accepts past hopen hnonneg hlt₀ hfull
      exact ⟨handle', blocks_failed hgo hwrite⟩
    · obtain ⟨handle₁, hwrite, hzeroed, hback⟩ :=
        pwrite_fits accepts past hopen hnonneg hlt₀ (not_le.mp hfull)
      have hlength := hzeroed.length
      have hk' : (k + 1) * step < len - step := by
        rw [Nat.add_mul (k + 1) 1, Nat.one_mul] at hk
        omega
      have hnext := next_offset hnonneg hlt hk'
      have hlt' : ∀ i : ℕ, (i + 1) * step < len - step → offset + step + i * step < 2 ^ 31 := by
        intro i hi
        rw [(next_turn hi).2 offset]
        exact hlt (i + 1) (next_turn hi).1
      have hroom' : max limit handle₁.content.length ≤ offset + step + k * step := by
        rw [(next_turn hk').2 offset]
        omega
      obtain ⟨handle', hrest⟩ := ih (hback.symm ▸ hopen.grown (by omega)) (by omega)
        hlt' hk' hroom' (Nat.lt_of_succ_lt_succ hturns)
      refine ⟨handle', ?_⟩
      rw [blocks_written hgo hwrite, hnext]
      exact hrest

theorem blocks_endless (turns : ℕ) : ∀ {len : ℕ} {handle : Handle},
    Open (regular accepts past none limit) handle handle.pos → 0 < len → 0 ≤ offset →
    offset < 2 ^ 31 → offset < max limit handle.content.length →
    blocks (regular accepts past none limit) errno 0 turns len offset handle = none := by
  induction turns with
  | zero =>
    intro len handle hopen hlen hnonneg hlt hroom
    rw [blocks, if_pos hlen]
  | succ turns ih =>
    intro len handle hopen hlen hnonneg hlt hroom
    obtain ⟨handle₁, hwrite, hzeroed, hback⟩ :=
      pwrite_fits accepts past hopen hnonneg hlt hroom
    have hlength := hzeroed.length
    have hsame : long (offset + (0 : ℕ)) = offset := by
      rw [Nat.cast_zero, add_zero]
      exact long_eq hnonneg hlt
    rw [blocks_written hlen hwrite, hsame]
    exact ih (hback.symm ▸ hopen.grown (by omega)) hlen hnonneg hlt (by omega)

def stride (offset : ℤ) (st_blksize : ℕ) : ℕ :=
  ((offset + st_blksize - 1) % 2 ^ 32).toNat % (2 ^ 32 - 1 - st_blksize)

/-- The position is one that the kernel does not let be, and it rejects a seek to it. -/
def Lost (kernel : Kernel) (handle : Handle) : Prop :=
  ¬ Open kernel handle handle.pos ∧ kernel.past handle handle.pos ≠ none

def Fails (kernel : Kernel) (refused : Option ℕ+) (limit : ℕ) (handle : Handle)
    (offset len step : ℕ) : Prop :=
  step < len ∧ (Lost kernel handle ∨ refused ≠ none ∨
    ∃ k, (k + 1) * step < len ∧ max limit handle.content.length ≤ offset + (k + 1) * step)

/-- The bytes that are written were zero before, and the last one is the last of the range. -/
def Harmless (content : Str) (offset len step : ℕ) : Prop :=
  step ≠ 0 ∧ (∀ k, (k + 1) * step < len → content.getD (offset + (k + 1) * step) 0 = 0) ∧
    (offset + len ≤ content.length ∨ ∃ k, (k + 1) * step + 1 = len)

def Reserves (kernel : Kernel) (refused : Option ℕ+) (limit : ℕ) (handle : Handle)
    (offset len st_blksize : ℕ) : Prop :=
  st_blksize ≠ 2 ^ 32 - 1 ∧
    (Fails kernel refused limit handle offset len (stride offset st_blksize) ∨
      Harmless handle.content offset len (stride offset st_blksize))

def Reserved (old : Str) (offset len : ℕ) : ℕ × Handle → Prop
  | (result, handle') =>
      result = 0 → old <+: handle'.content ∧ offset + len ≤ handle'.content.length

theorem Blocked.prefix_iff {old new : Str} {offset step len : ℕ}
    (h : Blocked old new ((offset : ℤ) + step) step len) :
    old <+: new ↔ ∀ k, (k + 1) * step < len → old.getD (offset + (k + 1) * step) 0 = 0 := by
  have hplace : ∀ k : ℕ, ((offset + (k + 1) * step : ℕ) : ℤ) =
      (offset : ℤ) + step + k * step := by
    intro k
    push_cast
    ring
  rw [List.prefix_iff_getElem?]
  constructor
  · intro hsame k hk
    by_cases hin : offset + (k + 1) * step < old.length
    · have hzero := h.zero k _ hk (hplace k) hin
      rw [hsame _ hin] at hzero
      rw [List.getD_eq_getElem _ _ hin]
      exact Option.some.inj hzero
    · exact List.getD_eq_default _ _ (not_lt.mp hin)
  · intro hzeros j hin
    by_cases hwritten : ∃ k : ℕ, (k + 1) * step < len ∧ (j : ℤ) = (offset : ℤ) + step + k * step
    · obtain ⟨k, hk, hj⟩ := hwritten
      have hat : j = offset + (k + 1) * step := by
        have := hplace k
        omega
      have hzero := hzeros k hk
      rw [← hat, List.getD_eq_getElem _ _ hin] at hzero
      rw [h.zero k j hk hj hin, hzero]
    · push Not at hwritten
      rw [h.same j hin hwritten, List.getElem?_eq_getElem hin]

/-- The range is there if it was before, or if the last byte that is written is its last one. -/
theorem Blocked.covers_iff {old new : Str} {offset step len : ℕ}
    (h : Blocked old new ((offset : ℤ) + step) step len) :
    offset + len ≤ new.length ↔
      offset + len ≤ old.length ∨ ∃ k, (k + 1) * step + 1 = len := by
  have hlonger := h.longer
  have hplace : ∀ k : ℕ, (offset : ℤ) + step + k * step =
      ((offset + (k + 1) * step : ℕ) : ℤ) := by
    intro k
    push_cast
    ring
  constructor
  · intro hcovers
    obtain hend | ⟨k, hk, hend⟩ := h.ends
    · exact Or.inl (hend ▸ hcovers)
    · rw [hplace] at hend
      exact Or.inr ⟨k, by omega⟩
  · rintro (hin | ⟨k, hk⟩)
    · omega
    · have hreaches := h.reaches k (by omega)
      rw [hplace] at hreaches
      omega

theorem posix_fallocate_regular {st : Stat} {turns offset len : ℕ}
    (hmode : S_ISREG st.st_mode) (hlen : 0 < len) :
    posixFallocate kernel (some st) errno turns handle offset len =
      match alignment offset st.st_blksize with
      | none => none
      | some step => blocks kernel errno step turns len (long (offset + step)) handle := by
  have hnonneg : ¬ ((offset : ℤ) < 0 ∨ len = 0) := by omega
  have hfifo : ¬ S_ISFIFO st.st_mode := by
    intro hfifo
    have hmode : st.st_mode &&& S_IFMT = 0o100000 := hmode
    rw [show st.st_mode &&& S_IFMT = 0o120000 from hfifo] at hmode
    exact absurd hmode (by decide)
  rw [posixFallocate, if_neg hnonneg]
  show (if S_ISFIFO st.st_mode then _ else if ¬ S_ISREG st.st_mode then _ else _) = _
  rw [if_neg hfifo, if_neg (not_not.mpr hmode)]

variable (limit errno) in
theorem blocks_open {refused : Option ℕ+} {offset len : ℕ}
    (hopen : Open (regular accepts past refused limit) handle handle.pos) (hlen : 0 < len)
    (hsum : offset + len < 2 ^ 31) :
    (∃ turns found, blocks (regular accepts past refused limit) errno step turns len
        (long ((offset : ℤ) + step)) handle = some found ∧
        Reserved handle.content offset len found) ↔
      Fails (regular accepts past refused limit) refused limit handle offset len step ∨
        Harmless handle.content offset len step := by
  have hplace : ∀ k : ℕ, (offset : ℤ) + step + k * step =
      ((offset + (k + 1) * step : ℕ) : ℤ) := by
    intro k
    push_cast
    ring
  have hlt : ∀ k : ℕ, (k + 1) * step < len → (offset : ℤ) + step + k * step < 2 ^ 31 := by
    intro k hk
    rw [hplace]
    omega
  have hfirst : step < len → (0 + 1) * step < len := by
    intro hgo
    rw [Nat.zero_add, Nat.one_mul]
    exact hgo
  have hstart : step < len → long ((offset : ℤ) + step) = (offset : ℤ) + step := by
    intro hgo
    exact long_eq (by omega) (by omega)
  by_cases hfails : Fails (regular accepts past refused limit) refused limit handle offset len step
  · -- a byte cannot be written, and the caller is told
    refine iff_of_true ?_ (Or.inl hfails)
    obtain ⟨hgo, hcause⟩ := hfails
    have hrefused := hcause.resolve_left fun hlost => hlost.1 hopen
    rw [hstart hgo]
    have hnonneg : (0 : ℤ) ≤ (offset : ℤ) + step := by omega
    cases refused with
    | some e =>
      obtain ⟨handle', hwrite⟩ := pwrite_refused accepts past e hopen hnonneg
        (show (offset : ℤ) + step < 2 ^ 31 by omega)
      refine ⟨1, _, blocks_failed hgo hwrite, fun hok => ?_⟩
      exact absurd hok e.pos.ne'
    | none =>
      obtain ⟨k, hk, hfull⟩ := hrefused.resolve_left fun hne => hne rfl
      obtain ⟨handle', hblocks⟩ : ∃ handle', blocks (regular accepts past none limit) errno step
          (k + 1) len ((offset : ℤ) + step) handle = some ((ENOSPC : ℕ), handle') :=
        blocks_full accepts past k hopen hnonneg hlt hk (by rw [hplace]; omega)
          (Nat.lt_succ_self k)
      refine ⟨k + 1, _, hblocks, fun hok => ?_⟩
      exact absurd hok (by decide)
  rw [or_iff_right hfails]
  have hroom : ∀ k : ℕ, (k + 1) * step < len →
      refused = none ∧ (offset : ℤ) + step + k * step < max limit handle.content.length := by
    intro k hk
    have hgo : step < len := (Nat.le_mul_of_pos_left step (Nat.succ_pos k)).trans_lt hk
    rw [hplace]
    constructor
    · by_contra hne
      exact hfails ⟨hgo, Or.inr (Or.inl hne)⟩
    · by_contra hno
      exact hfails ⟨hgo, Or.inr (Or.inr ⟨k, hk, by omega⟩)⟩
  unfold Harmless
  by_cases hstep : step = 0
  · -- the same byte again and again
    refine iff_of_false ?_ fun h => h.1 hstep
    rintro ⟨turns, found, hfound, -⟩
    have hgo : step < len := by omega
    have hroom₀ := hroom 0 (hfirst hgo)
    have hlt₀ := hlt 0 (hfirst hgo)
    have hstart₀ := hstart hgo
    obtain ⟨rfl, hroom₀⟩ := hroom₀
    rw [hstep, Nat.cast_zero, mul_zero, add_zero, add_zero] at hroom₀ hlt₀
    rw [hstep, Nat.cast_zero, add_zero] at hstart₀
    rw [hstep, Nat.cast_zero, add_zero, hstart₀,
      blocks_endless accepts past turns hopen hlen (Int.natCast_nonneg _) hlt₀ hroom₀]
      at hfound
    cases hfound
  rw [and_iff_right hstep]
  obtain ⟨handle', hblocks, hblocked⟩ : ∃ handle',
      blocks (regular accepts past refused limit) errno step len len (long ((offset : ℤ) + step))
        handle = some (0, handle') ∧
      Blocked handle.content handle'.content ((offset : ℤ) + step) step len := by
    by_cases hgo : step < len
    · obtain ⟨rfl, -⟩ := hroom 0 (hfirst hgo)
      rw [hstart hgo]
      exact blocks_fits accepts past hstep len hopen (fun _ => by omega) hlt
        (fun k hk => (hroom k hk).2) le_rfl
    · exact ⟨handle, blocks_end hgo len, Blocked.none hgo⟩
  rw [← hblocked.prefix_iff, ← hblocked.covers_iff]
  constructor
  · rintro ⟨turns, found, hfound, hkept⟩
    have hmore := blocks_more turns hfound len
    rw [Nat.add_comm, blocks_more len hblocks turns] at hmore
    cases hmore
    exact hkept rfl
  · intro hkept
    exact ⟨len, _, hblocks, fun _ => hkept⟩

theorem blocks_closed {turns len : ℕ} (hgo : step < len)
    (hclosed : ¬ Open kernel handle handle.pos) :
    blocks kernel errno step (turns + 1) len offset handle =
      match kernel.past handle handle.pos with
      | some e => some ((seekError (-(e : ℤ))).getD errno, handle)
      | none => blocks kernel errno step (turns + 1) len offset (atEnd handle) := by
  rw [blocks, if_pos hgo, blocks, if_pos hgo, pwrite_closed [0] offset hclosed]
  cases kernel.past handle handle.pos with
  | none => rfl
  | some e => rfl

theorem seekError_ne_zero (e : ℕ+) : (seekError (-(e : ℤ))).getD errno ≠ 0 := by
  have hpos := e.pos
  unfold seekError
  split_ifs
  · exact Nat.succ_ne_zero _
  · rw [neg_neg, Int.toNat_natCast, Option.getD_some]
    omega

variable (limit errno) in
theorem blocks_iff {refused : Option ℕ+} {offset len : ℕ} (hlen : 0 < len) (hsum : offset + len < 2 ^ 31) :
    (∃ turns found, blocks (regular accepts past refused limit) errno step turns len
        (long ((offset : ℤ) + step)) handle = some found ∧
        Reserved handle.content offset len found) ↔
      Fails (regular accepts past refused limit) refused limit handle offset len step ∨
        Harmless handle.content offset len step := by
  set kernel := regular accepts past refused limit with hkernel
  by_cases hopen : Open kernel handle handle.pos
  · exact blocks_open limit accepts past errno hopen hlen hsum
  have hend : Open kernel (atEnd handle) (atEnd handle).pos := open_inside le_rfl
  have hiff := @blocks_open (atEnd handle) limit accepts past errno step refused offset len hend
    hlen hsum
  by_cases hlost : step < len ∧ kernel.past handle handle.pos ≠ none
  · -- the first `lseek` fails, and the caller is told
    obtain ⟨hgo, hpast⟩ := hlost
    obtain ⟨e, he⟩ := Option.ne_none_iff_exists'.mp hpast
    have hfirst := @blocks_closed handle kernel (long ((offset : ℤ) + step)) errno step 0 len hgo hopen
    rw [he] at hfirst
    refine iff_of_true ⟨1, _, hfirst, fun hok => ?_⟩ (Or.inl ⟨hgo, Or.inl ⟨hopen, hpast⟩⟩)
    exact absurd hok (seekError_ne_zero e)
  -- it is as if the position were at the end
  have hsame : (∃ turns found, blocks kernel errno step turns len (long ((offset : ℤ) + step))
        handle = some found ∧ Reserved handle.content offset len found) ↔
      ∃ turns found, blocks kernel errno step turns len (long ((offset : ℤ) + step))
        (atEnd handle) = some found ∧ Reserved handle.content offset len found := by
    by_cases hgo : step < len
    · have hpast : kernel.past handle handle.pos = none :=
        not_not.mp fun hne => hlost ⟨hgo, hne⟩
      refine exists_congr fun turns => ?_
      cases turns with
      | zero => rw [blocks, blocks, if_pos hgo, if_pos hgo]
      | succ turns => rw [blocks_closed hgo hopen, hpast]
    · constructor
      · rintro ⟨turns, found, hfound, hkept⟩
        rw [blocks_end hgo] at hfound
        obtain rfl := Option.some.inj hfound
        exact ⟨turns, _, blocks_end hgo turns, hkept⟩
      · rintro ⟨turns, found, hfound, hkept⟩
        rw [blocks_end hgo] at hfound
        obtain rfl := Option.some.inj hfound
        exact ⟨turns, _, blocks_end hgo turns, hkept⟩
  rw [hsame]
  refine hiff.trans (or_congr (and_congr_right fun hgo => ?_) Iff.rfl)
  have hnot : ¬ Lost kernel handle := fun h => hlost ⟨hgo, h.2⟩
  have hnot' : ¬ Lost kernel (atEnd handle) := fun h => h.1 hend
  rw [or_iff_right hnot, or_iff_right hnot']
  rfl

variable (handle) in
/-- `posix_fallocate` ends, and keeps the content and reserves the range if it says so, exactly if
a byte cannot be written or the bytes it writes do no harm and reach the end of the range. -/
theorem posix_fallocate_iff {refused : Option ℕ+} {st : Stat} {offset len : ℕ}
    (hmode : S_ISREG st.st_mode) (hblksize : 0 < st.st_blksize)
    (hblksize32 : st.st_blksize < 2 ^ 32) (hlen : 0 < len) (hsum : offset + len < 2 ^ 31) :
    (∃ turns found, posixFallocate (regular accepts past refused limit) (some st) errno turns
        handle offset len = some found ∧ Reserved handle.content offset len found) ↔
      Reserves (regular accepts past refused limit) refused limit handle offset len
        st.st_blksize := by
  unfold Reserves
  simp only [posix_fallocate_regular hmode hlen]
  by_cases hzero : st.st_blksize = 2 ^ 32 - 1
  · -- a division by zero
    refine iff_of_false ?_ fun h => h.1 hzero
    have hnone : alignment offset st.st_blksize = none := if_pos (by omega)
    rintro ⟨turns, found, hfound, -⟩
    rw [hnone] at hfound
    cases hfound
  · have hsome : alignment offset st.st_blksize = some (stride offset st.st_blksize) :=
      if_neg (by omega)
    rw [and_iff_right hzero, hsome]
    exact blocks_iff limit accepts past errno hlen hsum

/-- Nine bytes are to be reserved behind three, on a kernel that accepts seeks past the end. -/
theorem posix_fallocate_iff_demo :
    (∃ turns found, posixFallocate (regular (fun _ => true) (fun _ _ => none) none 100)
        (some ⟨0o100644, 2⟩) 0 turns ⟨[7, 8, 9], 1, 0⟩ (3 : ℕ) 9 = some found ∧
        Reserved [7, 8, 9] 3 9 found) ↔
      Reserves (regular (fun _ => true) (fun _ _ => none) none 100) none 100 ⟨[7, 8, 9], 1, 0⟩
        3 9 2 :=
  posix_fallocate_iff ⟨[7, 8, 9], 1, 0⟩ _ _ (by decide) (by decide) (by decide)
    (by decide) (by decide)

/-- A zero is written at the offsets 7 and 11, and the range is there. -/
example : (posixFallocate (regular (fun _ => true) (fun _ _ => none) none 100)
    (some ⟨0o100644, 2⟩) 0 3 ⟨[7, 8, 9], 1, 0⟩ (3 : ℕ) 9).map
      (fun found => (found.1, found.2.content)) =
    some (0, [7, 8, 9, 0, 0, 0, 0, 0, 0, 0, 0, 0]) := by decide +kernel

/-- Two bytes are to be reserved where two bytes are, and the second one becomes zero. -/
theorem second_byte_lost :
    ∃ found, posixFallocate (regular (fun _ => false) (fun _ _ => none) none 100)
        (some ⟨0o100644, 2⟩) 0 2 ⟨[1, 2], 0, 0⟩ 0 2 = some found ∧
      found.2.content = [1, 0] ∧ ¬ Reserved [1, 2] 0 2 found := by
  have hrun : (posixFallocate (regular (fun _ => false) (fun _ _ => none) none 100)
      (some ⟨0o100644, 2⟩) 0 2 ⟨[1, 2], 0, 0⟩ 0 2).map
        (fun found => (found.1, found.2.content)) = some (0, [1, 0]) := by
    decide +kernel
  obtain ⟨⟨result, handle'⟩, hfound, hpair⟩ := Option.map_eq_some_iff.mp hrun
  obtain ⟨hresult, hcontent⟩ := Prod.mk.inj hpair
  refine ⟨_, hfound, hcontent, fun hkept => ?_⟩
  have hprefix : [1, 2] <+: handle'.content := (hkept hresult).1
  have hcontent : handle'.content = [1, 0] := hcontent
  rw [hcontent] at hprefix
  exact absurd hprefix (by decide)

end Regular

end Mintlib.Fallocate
