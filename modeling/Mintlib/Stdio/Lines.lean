import Mintlib.Lib.Buffer
import Mintlib.Stdio.Default
import Mintlib.Stdio.Room

/-!
# Line-buffered output: `internals.c`, `fwrite.c`

A line-buffered stream keeps its put limit at the start of the buffer, so that every `putc`
comes to `__flshfp`; `fwrite` looks at the buffer itself. What was handed to the write function
and what is in the buffer are together what was put, and no newline waits in the buffer.
-/

namespace Mintlib.Stdio.Lines

open Mintlib.Buffer Mintlib.Text Checked

/-- A file that takes what it is given. `out` is all that was written to it; asked for the
position it answers, or it cannot seek. -/
structure Device (σ : Type) where
  write : σ → Str → ℤ × σ
  seek : σ → ℤ → Whence → Except SeekError (ℤ × σ)
  out : σ → Str
  in_full : ∀ cookie bytes,
    (write cookie bytes).1 = bytes.length ∧ out (write cookie bytes).2 = out cookie ++ bytes
  tell : ∀ cookie, seek cookie 0 .SEEK_CUR = .error .ESPIPE ∨
    ∃ pos cookie', seek cookie 0 .SEEK_CUR = .ok (pos, cookie') ∧ 0 ≤ pos ∧ out cookie' = out cookie

variable {σ : Type} {malloc : ℕ → Option Str} {dev : Device σ} {fp fp' stream : FILE σ}
  {sent held p : Str} {c : UInt8}

def inBuffer (fp : FILE σ) : Str := (fp.buffer.getD []).take fp.bufp

def Placed (offset target : ℤ) (gap : ℕ) : Prop :=
  offset = -1 ∧ target = -1 ∨ 0 ≤ target ∧ offset = target + gap

def Block (fp : FILE σ) : Prop :=
  (∃ mem, fp.buffer = some mem ∧ fp.bufsize ≤ mem.length) ∧ 0 < fp.bufsize ∧ fp.bufp ≤ fp.bufsize ∨
    fp.buffer = none ∧ fp.userbuf = true ∧ fp.bufsize = 0 ∧ fp.bufp = 0

/-- A stream that is only written, is line-buffered and has seen no error. -/
structure Sound (dev : Device σ) (fp : FILE σ) : Prop where
  read : fp.mode.read = false
  write : fp.mode.write = true
  line : fp.linebuf = true
  pushed : fp.pushed_back = false
  eof : fp.eof = false
  error : fp.error = false
  get_limit : fp.get_limit = 0
  writes : fp.io_funcs.write = some dev.write
  seeks : fp.io_funcs.seek = none ∨ fp.io_funcs.seek = some dev.seek

/-- The stream after `sent` was written and while `held` is in the buffer. -/
structure Lined (dev : Device σ) (gap : ℕ) (sent held : Str) (fp : FILE σ) : Prop
    extends Sound dev fp where
  placed : Placed fp.offset fp.target gap
  block : Block fp
  written : dev.out fp.cookie = sent
  waits : inBuffer fp = held

structure Kept (fp fp' : FILE σ) : Prop where
  bufsize : fp'.bufsize = fp.bufsize
  put_limit : fp'.put_limit = fp.put_limit
  active : fp'.linebuf_active = fp.linebuf_active

theorem Kept.refl (fp : FILE σ) : Kept fp fp := ⟨rfl, rfl, rfl⟩

theorem Kept.trans {fp'' : FILE σ} (h : Kept fp fp') (h' : Kept fp' fp'') : Kept fp fp'' :=
  ⟨h'.bufsize.trans h.bufsize, h'.put_limit.trans h.put_limit, h'.active.trans h.active⟩

section Lined

variable {gap : ℕ}

theorem Placed.same {offset target : ℤ} (h : Placed offset target 0) : offset = target := by
  rcases h with ⟨hoffset, htarget⟩ | ⟨-, hoffset⟩
  · rw [hoffset, htarget]
  · rw [hoffset, Nat.cast_zero, add_zero]

theorem Placed.unknown {offset target : ℤ} (h : Placed offset target gap) :
    offset = -1 ↔ target = -1 := by
  unfold Placed at h
  omega

theorem Lined.bufp (h : Lined dev gap sent held fp) : fp.bufp = held.length := by
  have hheld := congrArg List.length h.waits
  rcases h.block with ⟨⟨mem, hmem, hsize⟩, -, hle⟩ | ⟨hnull, -, -, hzero⟩
  · rw [inBuffer, hmem, Option.getD_some, List.length_take] at hheld
    omega
  · rw [inBuffer, hnull, hzero, List.take_zero, List.length_nil] at hheld
    omega

theorem Lined.unbuffered (h : Lined dev gap sent held fp) (hsize : fp.bufsize = 0) : held = [] := by
  rcases h.block with ⟨-, hpos, -⟩ | ⟨-, -, -, hzero⟩
  · omega
  · exact List.eq_nil_of_length_eq_zero (h.bufp.symm.trans hzero)

theorem Lined.isNone_iff (h : Lined dev gap sent held fp) :
    fp.buffer.isNone = true ↔ fp.bufsize = 0 := by
  rcases h.block with ⟨⟨mem, hmem, -⟩, hpos, -⟩ | ⟨hnull, -, hsize, -⟩
  · rw [hmem]
    simp only [Option.isNone_some, Bool.false_eq_true, false_iff]
    omega
  · rw [hnull, hsize]
    simp only [Option.isNone_none]

theorem Lined.limit (h : Lined dev gap sent held fp) (limit : ℕ) (active : Bool) :
    Lined dev gap sent held { fp with put_limit := limit, linebuf_active := active } :=
  { h with }

theorem Lined.init (h : Lined dev gap sent held fp) {rooms : Rooms σ} :
    initStream rooms fp = fp := by
  rcases h.block with ⟨⟨mem, hmem, -⟩, -⟩ | ⟨-, huser, -⟩
  · exact init_eq hmem
  · rw [initStream, if_neg (by rw [huser]; simp)]

theorem Lined.store (h : Lined dev gap sent held fp) (hroom : held.length < fp.bufsize) (c : UInt8) :
    ∃ fp', fp.store c = .ok fp' ∧ Lined dev gap sent (held ++ [c]) fp' ∧ Kept fp fp' := by
  have hbufp := h.bufp
  rcases h.block with ⟨⟨mem, hmem, hsize⟩, hpos, -⟩ | ⟨-, -, hzero, -⟩
  · have hlt : fp.bufp < mem.length := by omega
    have hheld : mem.take fp.bufp = held := by
      have hheld := h.waits
      rwa [inBuffer, hmem] at hheld
    refine ⟨{ fp with buffer := some (mem.set fp.bufp c), bufp := fp.bufp + 1 }, ?_, ?_, rfl, rfl, rfl⟩
    · rw [FILE.store, hmem]
      exact if_pos hlt
    · refine { h with block := Or.inl ⟨⟨_, rfl, ?_⟩, hpos, ?_⟩, waits := ?_ }
      · rwa [List.length_set]
      · show fp.bufp + 1 ≤ fp.bufsize
        omega
      · show (mem.set fp.bufp c).take (fp.bufp + 1) = held ++ [c]
        rw [take_set_succ c hlt, hheld]
  · omega

theorem Lined.copy (p : Str) : ∀ {held : Str} {fp : FILE σ}, Lined dev gap sent held fp →
    held.length + p.length ≤ fp.bufsize →
      ∃ fp', fp.copy p = .ok fp' ∧ Lined dev gap sent (held ++ p) fp' ∧ Kept fp fp' := by
  induction p with
  | nil =>
    intro held fp h _
    exact ⟨fp, rfl, by rwa [List.append_nil], Kept.refl fp⟩
  | cons c p ih =>
    intro held fp h hroom
    rw [List.length_cons] at hroom
    obtain ⟨fp', hstore, hlined, hkept⟩ := h.store (by omega) c
    have hroom' : (held ++ [c]).length + p.length ≤ fp'.bufsize := by
      rw [hkept.bufsize, List.length_append, List.length_singleton]
      omega
    obtain ⟨fp'', hcopy, hlined', hkept'⟩ := ih hlined hroom'
    refine ⟨fp'', ?_, by rwa [List.append_assoc] at hlined', hkept.trans hkept'⟩
    rw [FILE.copy, hstore]
    exact hcopy

theorem Lined.check (h : Lined dev 0 sent held fp) (rooms : Rooms σ) :
    ∃ e fp', stdioCheckOffset rooms fp = (e, fp') ∧ e ≠ some .other ∧
      Lined dev 0 sent held fp' ∧ Kept fp fp' := by
  by_cases hoffset : fp.offset = -1
  · have htarget : fp.target = -1 := h.placed.unknown.mp hoffset
    rcases h.seeks with hseek | hseek
    · refine ⟨some .ESPIPE, fp, ?_, by decide, h, Kept.refl fp⟩
      rw [stdioCheckOffset, h.init]
      simp only [hoffset, if_true, hseek]
    · rcases dev.tell fp.cookie with hfail | ⟨pos, cookie', hpos, hle, hout⟩
      · refine ⟨some .ESPIPE, { fp with io_funcs := { fp.io_funcs with seek := none } }, ?_,
          by decide, { h with seeks := Or.inl rfl }, rfl, rfl, rfl⟩
        rw [stdioCheckOffset, h.init]
        simp only [hoffset, if_true, hseek, hfail]
      · refine ⟨none, { fp with offset := pos, target := pos, cookie := cookie' }, ?_, by decide,
          { h with placed := Or.inr ⟨hle, by simp⟩, written := hout.trans h.written }, rfl, rfl, rfl⟩
        rw [stdioCheckOffset, h.init]
        simp only [hoffset, if_true, hseek, hpos, setTarget, htarget]
  · refine ⟨none, fp, ?_, by decide, h, Kept.refl fp⟩
    rw [stdioCheckOffset, h.init]
    simp only [if_neg hoffset]
    rw [setTarget, if_neg (fun htarget => hoffset (h.placed.unknown.mpr htarget))]

variable (malloc)

theorem Lined.seekToTarget (h : Lined dev 0 sent held fp) :
    Lined dev 0 sent held (seekToTarget malloc fp) := by
  obtain ⟨e, fp', hcheck, hother, hlined, -⟩ := h.check (bare malloc)
  have heq : Stdio.seekToTarget malloc fp = fp' := by
    rw [Stdio.seekToTarget, hcheck]
    match e, hother with
    | none, _ => exact if_pos hlined.placed.same.symm
    | some .ESPIPE, _ => rfl
  rwa [heq]

theorem Block.empty (h : Block fp) : Block { fp with bufp := 0 } := by
  rcases h with ⟨hmem, hpos, -⟩ | ⟨hnull, huser, hsize, -⟩
  · exact Or.inl ⟨hmem, hpos, Nat.zero_le _⟩
  · exact Or.inr ⟨hnull, huser, hsize, rfl⟩

theorem inBuffer_empty (fp : FILE σ) : inBuffer { fp with bufp := 0 } = [] := List.take_zero

theorem Lined.writeOut (h : Lined dev 0 sent held fp) (hne : held ≠ []) :
    Lined dev held.length (sent ++ held) []
      { Stdio.writeOut malloc dev.write fp held.length with bufp := 0 } := by
  have hat : ∃ fp', (if fp.mode.append then fp else Stdio.seekToTarget malloc fp) = fp' ∧
      Lined dev 0 sent held fp' := by
    split_ifs
    · exact ⟨fp, rfl, h⟩
    · exact ⟨_, rfl, h.seekToTarget malloc⟩
  obtain ⟨fp', heq, h'⟩ := hat
  have hlength : 0 < held.length := List.length_pos_iff.mpr hne
  obtain ⟨hall, hout⟩ := dev.in_full fp'.cookie held
  have hdata : (fp'.buffer.getD []).take held.length = held := by
    rw [← h'.bufp]
    exact h'.waits
  have hwrote : Stdio.writeOut malloc dev.write fp held.length =
      if fp'.mode.append then
        { fp' with
          cookie := (dev.write fp'.cookie held).2, error := false, offset := -1, target := -1 }
      else
        { fp' with
          cookie := (dev.write fp'.cookie held).2, error := false
          offset := if fp'.offset = -1 then -1 else fp'.offset + held.length } := by
    rw [Stdio.writeOut]
    simp only [heq, h'.error, Bool.false_eq_true, if_false, hdata, hall]
    rw [if_neg (by omega)]
    simp
  have hsent : dev.out (dev.write fp'.cookie held).2 = sent ++ held := by rw [hout, h'.written]
  rw [hwrote]
  split_ifs with happend hoffset
  · exact { h' with
      error := rfl, placed := Or.inl ⟨rfl, rfl⟩, block := h'.block.empty, written := hsent,
      waits := inBuffer_empty _ }
  · exact { h' with
      error := rfl, placed := Or.inl ⟨rfl, h'.placed.unknown.mp hoffset⟩,
      block := h'.block.empty, written := hsent, waits := inBuffer_empty _ }
  · have hplaced : Placed (fp'.offset + held.length) fp'.target held.length := by
      have := h'.placed
      unfold Placed at this ⊢
      omega
    exact { h' with
      error := rfl, placed := hplaced, block := h'.block.empty, written := hsent,
      waits := inBuffer_empty _ }

theorem Lined.writeLast {gap : ℕ} (h : Lined dev gap sent [] fp) (c : UInt8) :
    ∃ fp' sent' held', Stdio.writeLast dev.write fp c = .ok fp' ∧
      Lined dev gap sent' held' fp' ∧ sent' ++ held' = sent ++ [c] ∧ NEWLINE ∉ held' := by
  have herror : ¬ fp.error = true := by rw [h.error]; decide
  by_cases hnow : fp.buffer.isNone = true ∨ fp.linebuf = true ∧ c = NEWLINE
  · obtain ⟨hall, hout⟩ := dev.in_full fp.cookie [c]
    have hsent : dev.out (dev.write fp.cookie [c]).2 = sent ++ [c] := by rw [hout, h.written]
    have hcount : ¬ (dev.write fp.cookie [c]).1 < 1 := by rw [hall]; simp
    have hwrote : Stdio.writeLast dev.write fp c = .ok (if fp.offset = -1 then
        { fp with cookie := (dev.write fp.cookie [c]).2 }
      else
        { fp with
          cookie := (dev.write fp.cookie [c]).2
          offset := fp.offset + 1, target := fp.target + 1 }) := by
      rw [Stdio.writeLast, if_neg herror, if_pos hnow]
      simp only [if_neg hcount]
      split_ifs <;> rfl
    refine ⟨_, sent ++ [c], [], hwrote, ?_, List.append_nil _, List.not_mem_nil⟩
    split_ifs with hoffset
    · exact { h with written := hsent }
    · have hplaced : Placed (fp.offset + 1) (fp.target + 1) gap := by
        have := h.placed
        unfold Placed at this ⊢
        omega
      exact { h with placed := hplaced, written := hsent }
  · have hroom : ([] : Str).length < fp.bufsize := by
      by_contra hno
      have hzero : fp.bufsize = 0 := by simpa using hno
      exact hnow (Or.inl (h.isNone_iff.mpr hzero))
    obtain ⟨fp', hstore, hlined, -⟩ := h.store hroom c
    have hline : c ≠ NEWLINE := fun hc => hnow (Or.inr ⟨h.line, hc⟩)
    refine ⟨fp', sent, [c], ?_, hlined, rfl, ?_⟩
    · rw [Stdio.writeLast, if_neg herror, if_neg hnow, hstore]
    · rw [List.mem_singleton]
      exact hline.symm

theorem Lined.endFlush {gap : ℕ} (h : Lined dev gap sent held fp) :
    Lined dev 0 sent held (Stdio.endFlush fp gap false) := by
  have heq : Stdio.endFlush fp gap false = { fp with
      target := if fp.target = -1 then -1 else fp.target + gap, get_limit := 0 } := by
    rw [Stdio.endFlush]
    simp only [h.eof, h.error, Bool.false_eq_true, if_false, or_self]
  rw [heq]
  refine { h with get_limit := rfl, placed := ?_ }
  have hplaced := h.placed
  show Placed fp.offset (if fp.target = -1 then -1 else fp.target + gap) 0
  unfold Placed at hplaced ⊢
  by_cases htarget : fp.target = -1
  · rw [if_pos htarget]
    exact Or.inl ⟨by omega, rfl⟩
  · rw [if_neg htarget]
    exact Or.inr ⟨by omega, by push_cast; omega⟩

/-- What a stream has been given: it is written, or in the buffer and without a newline. -/
def Has (dev : Device σ) (all : Str) (fp : FILE σ) : Prop :=
  ∃ sent held, Lined dev 0 sent held fp ∧ sent ++ held = all ∧ NEWLINE ∉ held

theorem Lined.to_write (h : Lined dev 0 sent held fp) :
    (if fp.bufp = 0 then 0 else if fp.bufp < fp.get_limit then fp.get_limit else fp.bufp) =
      held.length := by
  rw [h.get_limit, if_neg (Nat.not_lt_zero _), h.bufp]
  split_ifs with hzero
  · exact hzero.symm
  · rfl

theorem Lined.flushPrimed_none (h : Lined dev 0 sent held fp) :
    ∃ fp', flushPrimed malloc fp none false = .ok fp' ∧ Lined dev 0 (sent ++ held) [] fp' := by
  have hbufp := h.bufp
  by_cases hempty : held = []
  · subst hempty
    have hzero : fp.bufp = 0 := hbufp
    have hend : Lined dev 0 sent [] { fp with bufp := 0 } :=
      { h with block := h.block.empty, waits := inBuffer_empty fp }
    have hlined := hend.endFlush
    refine ⟨_, ?_, by rwa [List.append_nil]⟩
    rw [flushPrimed, h.writes]
    simp only [hzero, if_true, and_self]
  · have hpos : 0 < held.length := List.length_pos_iff.mpr hempty
    refine ⟨_, ?_, (h.writeOut malloc hempty).endFlush⟩
    rw [flushPrimed, h.writes]
    simp only [h.to_write, hpos.ne', false_and, if_false, if_pos hpos]
    rw [hbufp]

theorem Lined.flushPrimed_some (h : Lined dev 0 sent held fp) (c : UInt8) :
    ∃ fp', flushPrimed malloc fp (some c) false = .ok fp' ∧ Has dev (sent ++ held ++ [c]) fp' := by
  have hbufp := h.bufp
  have hout : ∃ out, (if 0 < held.length then Stdio.writeOut malloc dev.write fp held.length
      else fp) = out ∧ Lined dev held.length (sent ++ held) [] { out with bufp := 0 } := by
    by_cases hempty : held = []
    · subst hempty
      refine ⟨fp, rfl, ?_⟩
      rw [List.append_nil]
      exact { h with block := h.block.empty, waits := inBuffer_empty fp }
    · exact ⟨_, if_pos (List.length_pos_iff.mpr hempty), h.writeOut malloc hempty⟩
  obtain ⟨out, heq, hlined⟩ := hout
  obtain ⟨fp', sent', held', hlast, hlined', hall, hline⟩ := hlined.writeLast c
  refine ⟨_, ?_, ⟨sent', held', hlined'.endFlush, hall, hline⟩⟩
  rw [flushPrimed, h.writes]
  simp only [h.to_write, reduceCtorEq, and_false, if_false, heq, hlast]
  rw [hbufp]
  rfl

theorem Lined.has (h : Lined dev 0 sent [] fp) : Has dev sent fp :=
  ⟨sent, [], h, List.append_nil sent, List.not_mem_nil⟩

theorem Lined.prime (h : Lined dev 0 sent [] fp) : ∃ fp',
    Stdio.prime malloc fp = .ok (some ⟨fp', 0, false⟩, fp') ∧ Lined dev 0 sent [] fp' := by
  have hread : ¬ (fp.mode.read = true ∧ fp.mode.append = false) := by rw [h.read]; simp
  by_cases htarget : fp.target = -1
  · refine ⟨{ fp with get_limit := 0 }, ?_, { h with get_limit := rfl }⟩
    rw [Stdio.prime, advance, if_pos htarget]
    exact if_neg hread
  · have hadvance : advance fp = fp := by
      have hzero : fp.bufp = 0 := h.bufp
      have hsame : fp.target + fp.bufp = fp.target := by rw [hzero, Nat.cast_zero, add_zero]
      rw [advance, if_neg htarget, hsame]
    refine ⟨fp, ?_, h⟩
    rw [Stdio.prime, hadvance]
    exact if_neg hread

theorem Lined.flushPriming_none (h : Lined dev 0 sent [] fp) :
    ∃ fp', flushPriming malloc ⟨fp, 0, false⟩ none = .ok fp' ∧ Lined dev 0 sent [] fp' := by
  have hzero : fp.bufp = 0 := h.bufp
  by_cases hnull : fp.buffer.isNone = true
  · refine ⟨Stdio.endFlush fp 0 false, ?_, h.endFlush⟩
    rw [flushPriming]
    simp only [hnull, if_true, hzero, le_refl, and_self]
  · have h' : Lined dev 0 sent [] { fp with put_limit := fp.bufsize, bufp := 0 } :=
      { h with block := h.block.empty, waits := inBuffer_empty fp }
    refine ⟨_, ?_, h'.endFlush⟩
    rw [flushPriming]
    simp only [if_neg hnull]

theorem Lined.flushPriming_some (h : Lined dev 0 sent [] fp) (c : UInt8) :
    ∃ fp', flushPriming malloc ⟨fp, 0, false⟩ (some c) = .ok fp' ∧ Has dev (sent ++ [c]) fp' := by
  by_cases hnull : fp.buffer.isNone = true
  · obtain ⟨fp', hflush, hhas⟩ := h.flushPrimed_some malloc c
    refine ⟨fp', ?_, by rwa [List.append_nil] at hhas⟩
    rw [flushPriming]
    simp only [hnull, if_true, reduceCtorEq, and_false, if_false]
    exact hflush
  · have h' : Lined dev 0 sent [] { fp with put_limit := fp.bufsize, bufp := 0 } :=
      { h with block := h.block.empty, waits := inBuffer_empty fp }
    have hroom : 0 < fp.bufsize := by
      by_contra hno
      exact hnull (h.isNone_iff.mpr (by omega))
    obtain ⟨fp', hstore, hlined, -⟩ := h'.store hroom c
    by_cases hline : c = NEWLINE
    · subst hline
      obtain ⟨fp'', hflush, hflushed⟩ := hlined.flushPrimed_none malloc
      refine ⟨fp'', ?_, hflushed.has⟩
      rw [flushPriming]
      simp only [if_neg hnull, hstore, bind, Except.bind, hlined.line, reduceCtorEq, ne_eq,
        not_true_eq_false, or_self, if_false]
      exact hflush
    · refine ⟨_, ?_, ⟨sent, [c], hlined.endFlush, rfl, ?_⟩⟩
      · rw [flushPriming]
        simp only [if_neg hnull, hstore, bind, Except.bind, ne_eq, hline, not_false_eq_true, or_true,
          if_true]
      · rw [List.mem_singleton]
        exact fun hc => hline hc.symm

theorem Lined.flushbuf_none (h : Lined dev 0 sent held fp) (hprimed : fp.put_limit = 0 → held = []) :
    ∃ fp', flushbuf malloc fp none = .ok fp' ∧ Lined dev 0 (sent ++ held) [] fp' := by
  by_cases hlimit : fp.put_limit = 0
  · have hempty := hprimed hlimit
    subst hempty
    obtain ⟨fp', hprime, hlined⟩ := h.prime malloc
    obtain ⟨fp'', hflush, hflushed⟩ := hlined.flushPriming_none malloc
    refine ⟨fp'', ?_, by rwa [List.append_nil]⟩
    rw [flushbuf, if_pos hlimit, hprime]
    exact hflush
  · rw [flushbuf, if_neg hlimit]
    exact h.flushPrimed_none malloc

theorem Lined.flushbuf_some (h : Lined dev 0 sent held fp) (hprimed : fp.put_limit = 0 → held = [])
    (c : UInt8) :
    ∃ fp', flushbuf malloc fp (some c) = .ok fp' ∧ Has dev (sent ++ held ++ [c]) fp' := by
  by_cases hlimit : fp.put_limit = 0
  · have hempty := hprimed hlimit
    subst hempty
    obtain ⟨fp', hprime, hlined⟩ := h.prime malloc
    obtain ⟨fp'', hflush, hhas⟩ := hlined.flushPriming_some malloc c
    refine ⟨fp'', ?_, by rwa [List.append_nil]⟩
    rw [flushbuf, if_pos hlimit, hprime]
    exact hflush
  · rw [flushbuf, if_neg hlimit]
    exact h.flushPrimed_some malloc c

/-- A stream whose put limit is at the start of the buffer. -/
structure Waiting (dev : Device σ) (sent held : Str) (fp : FILE σ) : Prop
    extends Lined dev 0 sent held fp where
  put_limit : fp.put_limit = 0
  idle : fp.linebuf_active = false → held = []

structure Active (dev : Device σ) (sent held : Str) (fp : FILE σ) : Prop
    extends Lined dev 0 sent held fp where
  put_limit : fp.put_limit = 0
  active : fp.linebuf_active = true

def Puts (dev : Device σ) (all : Str) (fp : FILE σ) : Prop :=
  ∃ sent held, Active dev sent held fp ∧ sent ++ held = all ∧ NEWLINE ∉ held

theorem Active.waiting (h : Active dev sent held fp) : Waiting dev sent held fp :=
  { h with idle := fun hno => by rw [h.active] at hno; cases hno }

theorem Active.kept (h : Active dev sent held fp) {sent' held' : Str}
    (h' : Lined dev 0 sent' held' fp') (hkept : Kept fp fp') : Active dev sent' held' fp' :=
  { h' with
    put_limit := hkept.put_limit.trans h.put_limit, active := hkept.active.trans h.active }

theorem Active.puts (h : Active dev sent [] fp) : Puts dev sent fp :=
  ⟨sent, [], h, List.append_nil sent, List.not_mem_nil⟩

theorem Waiting.primed (h : Waiting dev sent held fp) :
    ∃ fp', (if fp.linebuf_active then { fp with put_limit := fp.bufsize } else fp) = fp' ∧
      Lined dev 0 sent held fp' ∧ (fp'.put_limit = 0 → held = []) := by
  split_ifs with hactive
  · exact ⟨_, rfl, h.toLined.limit fp.bufsize fp.linebuf_active, h.unbuffered⟩
  · exact ⟨fp, rfl, h.toLined, fun _ => h.idle (Bool.not_eq_true _ ▸ hactive)⟩

theorem Lined.active (h : Lined dev 0 sent held fp) :
    Active dev sent held { fp with put_limit := 0, linebuf_active := true } :=
  { h.limit 0 true with put_limit := rfl, active := rfl }

theorem Waiting.makeRoom_none (h : Waiting dev sent held fp) :
    ∃ fp', makeRoom (flushbuf malloc) fp none = .ok (0, fp') ∧
      Active dev (sent ++ held) [] fp' := by
  obtain ⟨primed, heq, hlined, hprimed⟩ := h.primed
  obtain ⟨fp', hflush, hflushed⟩ := hlined.flushbuf_none malloc hprimed
  refine ⟨_, ?_, hflushed.active⟩
  rw [makeRoom, heq, hflush]
  simp only [bind, Except.bind, hflushed.line, if_true, hflushed.error, Bool.false_eq_true, if_false]

theorem Waiting.makeRoom_some (h : Waiting dev sent held fp) (c : UInt8) :
    ∃ fp', makeRoom (flushbuf malloc) fp (some c) = .ok (c.toNat, fp') ∧
      Puts dev (sent ++ held ++ [c]) fp' := by
  obtain ⟨primed, heq, hlined, hprimed⟩ := h.primed
  obtain ⟨fp', hflush, sent', held', hhas, hall, hline⟩ := hlined.flushbuf_some malloc hprimed c
  refine ⟨_, ?_, ⟨sent', held', hhas.active, hall, hline⟩⟩
  rw [makeRoom, heq, hflush]
  simp only [bind, Except.bind, hhas.line, if_true, hhas.error, Bool.false_eq_true, if_false]

theorem Sound.flshfp (h : Sound dev fp) (c : Option UInt8) :
    Stdio.flshfp (defaultRooms malloc) fp c =
      Stdio.flushOrPut (flushbuf malloc) (initStream (defaultRooms malloc) fp) c := by
  have hdiscard : fp.discard = fp := by rw [FILE.discard, if_neg (by rw [h.pushed]; decide)]
  rw [Stdio.flshfp, if_neg (by rw [h.write]; decide), if_neg (by rw [h.error]; decide), hdiscard]
  rfl

theorem Waiting.flshfp (h : Waiting dev sent held fp) (c : Option UInt8) :
    Stdio.flshfp (defaultRooms malloc) fp c = Stdio.flushOrPut (flushbuf malloc) fp c := by
  rw [h.toSound.flshfp, h.init]

theorem Waiting.flush (h : Waiting dev sent held fp) :
    ∃ fp', Stdio.flshfp (defaultRooms malloc) fp none = .ok (0, fp') ∧
      Active dev (sent ++ held) [] fp' := by
  rw [h.flshfp]
  exact h.makeRoom_none malloc

theorem Waiting.fflush (h : Waiting dev sent held fp) :
    ∃ fp', Stdio.fflush (defaultRooms malloc) fp = .ok (0, fp') ∧
      Active dev (sent ++ held) [] fp' := by
  rw [Stdio.fflush, if_neg (by rw [h.read]; simp)]
  exact h.flush malloc

theorem Waiting.put (h : Waiting dev sent held fp) (hline : NEWLINE ∉ held) (c : UInt8) :
    ∃ r fp', Stdio.flshfp (defaultRooms malloc) fp (some c) = .ok (r, fp') ∧ r ≠ EOF ∧
      Puts dev (sent ++ held ++ [c]) fp' := by
  rw [h.flshfp]
  by_cases hfit : fp.bufp < (if fp.linebuf_active then fp.bufsize else fp.put_limit)
  · have hactive : fp.linebuf_active = true := by
      by_contra hno
      rw [if_neg hno, h.put_limit] at hfit
      exact absurd hfit (Nat.not_lt_zero _)
    have hroom : held.length < fp.bufsize := by
      rw [if_pos hactive, h.bufp] at hfit
      exact hfit
    obtain ⟨fp', hstore, hlined, hkept⟩ := h.toLined.store hroom c
    have hstored : Active dev sent (held ++ [c]) fp' :=
      { hlined with
        put_limit := hkept.put_limit.trans h.put_limit, active := hkept.active.trans hactive }
    by_cases hend : c = NEWLINE
    · obtain ⟨fp'', hmake, hflushed⟩ := hstored.waiting.makeRoom_none malloc
      refine ⟨0, fp'', ?_, by decide, sent ++ (held ++ [c]), [], hflushed, ?_, List.not_mem_nil⟩
      · rw [Stdio.flushOrPut, if_pos hfit, hstore]
        exact (if_pos ⟨hlined.line, hend⟩).trans hmake
      · rw [List.append_nil, List.append_assoc]
    · refine ⟨c.toNat, fp', ?_, toNat_ne_EOF c, sent, held ++ [c], hstored, ?_, ?_⟩
      · rw [Stdio.flushOrPut, if_pos hfit, hstore]
        exact if_neg (fun hno => hend hno.2)
      · rw [List.append_assoc]
      · rw [List.mem_append, List.mem_singleton, not_or]
        exact ⟨hline, fun hc => hend hc.symm⟩
  · obtain ⟨fp', hmake, hputs⟩ := h.makeRoom_some malloc c
    refine ⟨c.toNat, fp', ?_, toNat_ne_EOF c, hputs⟩
    rw [Stdio.flushOrPut, if_neg hfit]
    exact hmake

theorem Active.writeThrough (h : Active dev sent [] fp) (hne : p ≠ []) (written : ℕ) :
    ∃ fp', Stdio.writeThrough fp p written = (written + p.length, fp') ∧
      Active dev (sent ++ p) [] fp' := by
  obtain ⟨hall, hout⟩ := dev.in_full fp.cookie p
  have hpos : 0 < (p.length : ℤ) := by
    exact_mod_cast List.length_pos_iff.mpr hne
  have hsent : dev.out (dev.write fp.cookie p).2 = sent ++ p := by rw [hout, h.written]
  have hwrote : Stdio.writeThrough fp p written = (written + p.length, if fp.offset = -1 then
      { fp with cookie := (dev.write fp.cookie p).2 }
    else
      { fp with
        cookie := (dev.write fp.cookie p).2
        offset := fp.offset + p.length, target := fp.offset + p.length }) := by
    rw [Stdio.writeThrough, h.writes]
    simp only [hall, if_pos hpos, Int.toNat_natCast]
  refine ⟨_, hwrote, ?_⟩
  split_ifs with hoffset
  · exact { h with written := hsent }
  · have hplaced : Placed (fp.offset + p.length) (fp.offset + p.length) 0 := by
      have := h.placed
      unfold Placed at this ⊢
      omega
    exact { h with placed := hplaced, written := hsent }

theorem Lined.space (h : Lined dev 0 sent held fp) : fp.space = fp.bufsize - held.length := by
  rw [FILE.space, h.bufp]

theorem Active.fillBuffer (h : Active dev sent held fp) (hne : p ≠ []) (hfit : p.length ≤ fp.space)
    (turns written : ℕ) : ∃ fp',
    Stdio.fillBuffer (defaultRooms malloc) (turns + 1) fp fp.space p written =
      .ok (written + p.length, fp') ∧ Active dev sent (held ++ p) fp' := by
  have hpos : 0 < p.length := List.length_pos_iff.mpr hne
  have hroom : held.length + p.length ≤ fp.bufsize := by
    have := h.space
    omega
  obtain ⟨fp', hcopy, hlined, hkept⟩ := h.toLined.copy p hroom
  refine ⟨fp', ?_, h.kept hlined hkept⟩
  cases p with
  | nil => exact absurd rfl hne
  | cons c p =>
    have hmin : min (c :: p).length fp.space = (c :: p).length := min_eq_left hfit
    rw [Stdio.fillBuffer]
    simp only [hmin, List.take_length, List.drop_length, hcopy, bind, Except.bind, if_true]

theorem Active.fillAndFlush (h : Active dev sent held fp) (hline : NEWLINE ∉ held) (hne : p ≠ [])
    (hfit : p.length ≤ fp.space) (written : ℕ) {newlinep : Bool}
    (hnewline : newlinep = false → NEWLINE ∉ p) : ∃ n fp',
    Stdio.fillAndFlush (defaultRooms malloc) fp p written newlinep = .ok (n, fp') ∧
      Puts dev (sent ++ held ++ p) fp' := by
  obtain ⟨filled, hfill, hactive⟩ := h.fillBuffer malloc hne hfit (2 * p.length) written
  rw [Stdio.fillAndFlush, hfill]
  cases newlinep with
  | false =>
    refine ⟨_, filled, rfl, sent, held ++ p, hactive, (List.append_assoc _ _ _).symm, ?_⟩
    rw [List.mem_append, not_or]
    exact ⟨hline, hnewline rfl⟩
  | true =>
    obtain ⟨fp', hflush, hflushed⟩ := hactive.waiting.fflush malloc
    refine ⟨written + p.length, fp', ?_, by rw [List.append_assoc]; exact hflushed.puts⟩
    simp only [bind, Except.bind, if_true, hflush]

theorem writeLarge_flushed {rooms : Rooms σ} {out : FILE σ} {written : ℕ} {newlinep : Bool}
    (h : (if fp.bufp = 0 then .ok (0, fp) else Stdio.flshfp rooms fp none) = Except.ok ((0 : ℤ), out)) :
    Stdio.writeLarge rooms fp p written newlinep =
      if out.offset = out.target ∧ (out.space < p.length ∨ newlinep) then
        .ok (Stdio.writeThrough out p written)
      else Stdio.fillAndFlush rooms out p written newlinep := by
  have hgo : ¬ (0 : ℤ) = EOF := by decide
  rw [Stdio.writeLarge]
  by_cases hzero : fp.bufp = 0
  · rw [if_pos hzero] at h ⊢
    cases h
    simp only [bind, Except.bind, if_neg hgo]
  · rw [if_neg hzero] at h ⊢
    rw [h]
    simp only [bind, Except.bind, if_neg hgo]

theorem Active.writeLarge (h : Active dev sent held fp) (hne : p ≠ []) (written : ℕ)
    {newlinep : Bool} (hnewline : newlinep = false → NEWLINE ∉ p) : ∃ n fp',
    Stdio.writeLarge (defaultRooms malloc) fp p written newlinep = .ok (n, fp') ∧
      Puts dev (sent ++ held ++ p) fp' := by
  have hflush : ∃ out, (if fp.bufp = 0 then .ok (0, fp)
      else Stdio.flshfp (defaultRooms malloc) fp none) = Except.ok ((0 : ℤ), out) ∧
      Active dev (sent ++ held) [] out := by
    by_cases hzero : fp.bufp = 0
    · have hempty : held = [] := List.eq_nil_of_length_eq_zero (h.bufp.symm.trans hzero)
      refine ⟨fp, if_pos hzero, ?_⟩
      rw [hempty, List.append_nil]
      rwa [hempty] at h
    · rw [if_neg hzero]
      exact h.waiting.flush malloc
  obtain ⟨out, heq, hout⟩ := hflush
  rw [writeLarge_flushed heq]
  simp only [hout.placed.same, true_and]
  by_cases hlarge : out.space < p.length ∨ newlinep = true
  · obtain ⟨fp', hthrough, hputs⟩ := hout.writeThrough hne written
    rw [if_pos hlarge, hthrough]
    exact ⟨_, fp', rfl, hputs.puts⟩
  · rw [if_neg hlarge]
    have hfit : p.length ≤ out.space := not_lt.mp (fun hno => hlarge (Or.inl hno))
    obtain ⟨n, fp', hfill, hputs⟩ :=
      hout.fillAndFlush malloc List.not_mem_nil hne hfit written hnewline
    exact ⟨n, fp', hfill, by rwa [List.append_nil] at hputs⟩

theorem Active.writeRest_eq (h : Active dev sent held fp) (p : Str) (written : ℕ) : ∃ out,
    Active dev sent held out ∧ Stdio.writeRest (defaultRooms malloc) fp p written =
      if out.buffer.isNone ∨ p.contains NEWLINE ∧ out.bufp = 0 then
        .ok (Stdio.writeThrough out p written)
      else if p.length ≤ out.space then
        Stdio.fillAndFlush (defaultRooms malloc) out p written (p.contains NEWLINE)
      else Stdio.writeLarge (defaultRooms malloc) out p written (p.contains NEWLINE) := by
  obtain ⟨e, out, hcheck, hother, hlined, hkept⟩ := h.toLined.check (defaultRooms malloc)
  have hspecial : (defaultRooms malloc : Rooms σ).default_func = true := rfl
  refine ⟨out, h.kept hlined hkept, ?_⟩
  rw [Stdio.writeRest, hcheck]
  -- the position is known now, or it never will be
  have hknown : e = none ∨ e = some .ESPIPE := by
    cases e with
    | none => exact Or.inl rfl
    | some error =>
      cases error with
      | ESPIPE => exact Or.inr rfl
      | other => exact absurd rfl hother
  rcases hknown with rfl | rfl
  all_goals
    simp only [hspecial, hlined.line, hlined.placed.same, Bool.true_and, Bool.true_eq_false,
      and_true, and_false, false_or, if_false]
    by_cases hnull : out.buffer.isNone = true
    · rw [if_pos hnull, if_pos (Or.inl hnull)]
    · rw [if_neg hnull]
      simp only [hnull, Bool.false_eq_true, false_or]

theorem Active.writeRest (h : Active dev sent held fp) (hline : NEWLINE ∉ held) (hne : p ≠ [])
    (written : ℕ) : ∃ n fp', Stdio.writeRest (defaultRooms malloc) fp p written = .ok (n, fp') ∧
      Puts dev (sent ++ held ++ p) fp' := by
  obtain ⟨out, hout, heq⟩ := h.writeRest_eq malloc p written
  have hnewline : p.contains NEWLINE = false → NEWLINE ∉ p := by
    intro hno hmem
    rw [List.contains_iff_mem.mpr hmem] at hno
    cases hno
  rw [heq]
  by_cases hthrough : out.buffer.isNone = true ∨ p.contains NEWLINE = true ∧ out.bufp = 0
  · have hempty : held = [] := by
      rcases hthrough with hnull | ⟨-, hzero⟩
      · exact hout.unbuffered (hout.isNone_iff.mp hnull)
      · exact List.eq_nil_of_length_eq_zero (hout.bufp.symm.trans hzero)
    subst hempty
    obtain ⟨fp', hwrote, hputs⟩ := hout.writeThrough hne written
    rw [if_pos hthrough, hwrote, List.append_nil]
    exact ⟨_, fp', rfl, hputs.puts⟩
  · rw [if_neg hthrough]
    by_cases hfit : p.length ≤ out.space
    · rw [if_pos hfit]
      exact hout.fillAndFlush malloc hline hne hfit written hnewline
    · rw [if_neg hfit]
      exact hout.writeLarge malloc hne written hnewline

end Lined

/-- A line-buffered stream that was opened, or given a buffer, and has not been written since. -/
structure Fresh (dev : Device σ) (fp : FILE σ) : Prop extends Sound dev fp where
  bufp : fp.bufp = 0
  put_limit : fp.put_limit = 0
  idle : fp.linebuf_active = false
  placed : Placed fp.offset fp.target 0
  block : (∃ mem, fp.buffer = some mem ∧ 0 < fp.bufsize ∧ fp.bufsize ≤ mem.length) ∨
    fp.buffer = none ∧ (fp.userbuf = true → fp.bufsize = 0)

/-- A call that puts characters into the stream. -/
inductive Call
  | putc (c : UInt8)
  | fwrite (ptr : Str) (size : ℕ)

def Call.bytes : Call → Str
  | .putc c => [c]
  | .fwrite ptr _ => ptr

def Call.run (malloc : ℕ → Option Str) : Call → FILE σ → Except Stop (FILE σ)
  | .putc c, fp => (Stdio.putc (defaultRooms malloc) c fp).map Prod.snd
  | .fwrite ptr size, fp => (Stdio.fwrite (defaultRooms malloc) ptr size fp).map Prod.snd

def runs (malloc : ℕ → Option Str) (fp : FILE σ) (calls : List Call) : Except Stop (FILE σ) :=
  calls.foldlM (fun fp call => call.run malloc fp) fp

/-- `malloc` gives as many bytes as were asked for. -/
def Allocates (malloc : ℕ → Option Str) : Prop := ∀ n mem, malloc n = some mem → n ≤ mem.length

theorem pickBuffer_length (hm : Allocates malloc) {mem : Str} (turns : ℕ) : ∀ {size size' : ℕ},
    pickBuffer malloc turns size = (some mem, size') → 0 < size' ∧ size' ≤ mem.length := by
  induction turns with
  | zero =>
    intro size size' h
    cases h
  | succ turns ih =>
    intro size size' h
    rw [pickBuffer] at h
    split_ifs at h with hlarge
    · cases hmem : malloc size with
      | none =>
        rw [hmem] at h
        exact ih h
      | some found =>
        rw [hmem] at h
        cases h
        exact ⟨lt_of_lt_of_le (by decide) hlarge, hm _ _ hmem⟩
    · cases h

theorem Fresh.init (hm : Allocates malloc) (h : Fresh dev fp) :
    Waiting dev (dev.out fp.cookie) [] (initStream (defaultRooms malloc) fp) := by
  have hidle : fp.linebuf_active = false → ([] : Str) = [] := fun _ => rfl
  have hempty : ∀ buffer : Option Str, (buffer.getD []).take fp.bufp = [] := by
    intro buffer
    rw [h.bufp, List.take_zero]
  by_cases hinit : fp.buffer.isNone = true ∧ fp.userbuf = false
  · rw [initStream, if_pos hinit]
    simp only
    cases hpick : pickBuffer (defaultRooms malloc : Rooms σ).malloc
        (if fp.bufsize = 0 then 1024 else fp.bufsize)
        (if fp.bufsize = 0 then 1024 else fp.bufsize) with
    | mk found size =>
      cases found with
      | none =>
        have hnull : fp.buffer = none := Option.isNone_iff_eq_none.mp hinit.1
        exact { h with
          block := Or.inr ⟨hnull, rfl, rfl, h.bufp⟩, written := rfl, waits := hempty _
          idle := hidle }
      | some mem =>
        obtain ⟨hpos, hle⟩ := pickBuffer_length hm _ hpick
        exact { h with
          block := Or.inl ⟨⟨mem, rfl, hle⟩, hpos, h.bufp.le.trans (Nat.zero_le _)⟩
          written := rfl, waits := hempty _, idle := hidle }
  · have hblock : Block fp := by
      rcases h.block with ⟨mem, hmem, hpos, hle⟩ | ⟨hnull, hzero⟩
      · exact Or.inl ⟨⟨mem, hmem, hle⟩, hpos, h.bufp.le.trans (Nat.zero_le _)⟩
      · have huser : fp.userbuf = true := by
          by_contra hno
          rw [Bool.not_eq_true] at hno
          exact hinit ⟨Option.isNone_iff_eq_none.mpr hnull, hno⟩
        exact Or.inr ⟨hnull, huser, hzero huser, h.bufp⟩
    rw [initStream, if_neg hinit]
    exact { h with block := hblock, written := rfl, waits := hempty _, idle := hidle }

theorem Fresh.put (hm : Allocates malloc) (h : Fresh dev fp) (c : UInt8) :
    ∃ r fp', Stdio.flshfp (defaultRooms malloc) fp (some c) = .ok (r, fp') ∧ r ≠ EOF ∧
      Puts dev (dev.out fp.cookie ++ [c]) fp' := by
  have hinit := h.init hm
  obtain ⟨r, fp', hflush, hr, hputs⟩ := hinit.put malloc List.not_mem_nil c
  refine ⟨r, fp', ?_, hr, by rwa [List.append_nil] at hputs⟩
  rw [← hflush, h.toSound.flshfp, hinit.flshfp]

def Between (dev : Device σ) (all : Str) (fp : FILE σ) : Prop :=
  Fresh dev fp ∧ dev.out fp.cookie = all ∨ Puts dev all fp

section Between

variable {all : Str}

theorem Between.sound (h : Between dev all fp) : Sound dev fp ∧ fp.put_limit = 0 := by
  rcases h with ⟨hfresh, -⟩ | ⟨sent, held, hactive, -⟩
  · exact ⟨hfresh.toSound, hfresh.put_limit⟩
  · exact ⟨hactive.toSound, hactive.put_limit⟩

theorem Between.put (hm : Allocates malloc) (h : Between dev all fp) (c : UInt8) :
    ∃ r fp', Stdio.flshfp (defaultRooms malloc) fp (some c) = .ok (r, fp') ∧ r ≠ EOF ∧
      Puts dev (all ++ [c]) fp' := by
  rcases h with ⟨hfresh, rfl⟩ | ⟨sent, held, hactive, rfl, hline⟩
  · exact hfresh.put hm c
  · exact hactive.waiting.put malloc hline c

theorem Between.putc (hm : Allocates malloc) (h : Between dev all fp) (c : UInt8) :
    ∃ r fp', Stdio.putc (defaultRooms malloc) c fp = .ok (r, fp') ∧ Puts dev (all ++ [c]) fp' := by
  obtain ⟨r, fp', hput, -, hputs⟩ := h.put hm c
  refine ⟨r, fp', ?_, hputs⟩
  rw [Stdio.putc, h.sound.2, if_neg (Nat.not_lt_zero _)]
  exact hput

theorem Between.fwrite (hm : Allocates malloc) (h : Between dev all fp) (ptr : Str) (size : ℕ) :
    ∃ n fp', Stdio.fwrite (defaultRooms malloc) ptr size fp = .ok (n, fp') ∧
      Between dev (all ++ ptr) fp' := by
  obtain ⟨hsound, hlimit⟩ := h.sound
  have hgo : ¬ (fp.mode.write = false ∨ fp.error = true) := by
    rw [hsound.write, hsound.error]
    decide
  unfold Stdio.fwrite
  rw [if_neg hgo]
  cases ptr with
  | nil => exact ⟨0, fp, rfl, by rwa [List.append_nil]⟩
  | cons c p =>
    obtain ⟨r, fp', hput, hr, hputs⟩ := h.put hm c
    simp only [hlimit, if_true, hput, bind, Except.bind, if_neg hr]
    by_cases hlast : p = []
    · rw [if_pos hlast, hlast]
      exact ⟨1, fp', rfl, Or.inr hputs⟩
    · rw [if_neg hlast]
      obtain ⟨sent, held, hactive, hall, hline⟩ := hputs
      obtain ⟨n, fp'', hrest, hputs'⟩ := hactive.writeRest malloc hline hlast 1
      rw [hall, List.append_assoc] at hputs'
      rw [hrest]
      exact ⟨n / size, fp'', rfl, Or.inr hputs'⟩

theorem Between.call (hm : Allocates malloc) (h : Between dev all fp) (call : Call) :
    ∃ fp', call.run malloc fp = .ok fp' ∧ Between dev (all ++ call.bytes) fp' := by
  cases call with
  | putc c =>
    obtain ⟨r, fp', hput, hputs⟩ := h.putc hm c
    exact ⟨fp', by rw [Call.run, hput]; rfl, Or.inr hputs⟩
  | fwrite ptr size =>
    obtain ⟨n, fp', hwrite, hbetween⟩ := h.fwrite hm ptr size
    exact ⟨fp', by rw [Call.run, hwrite]; rfl, hbetween⟩

theorem Between.runs (hm : Allocates malloc) (calls : List Call) : ∀ {all : Str} {fp : FILE σ},
    Between dev all fp → ∃ fp', Lines.runs malloc fp calls = .ok fp' ∧
      Between dev (all ++ calls.flatMap Call.bytes) fp' := by
  induction calls with
  | nil =>
    intro all fp h
    exact ⟨fp, rfl, by rwa [List.flatMap_nil, List.append_nil]⟩
  | cons call calls ih =>
    intro all fp h
    obtain ⟨fp', hcall, hbetween⟩ := h.call hm call
    obtain ⟨fp'', hruns, hbetween'⟩ := ih hbetween
    refine ⟨fp'', ?_, by rwa [List.flatMap_cons, ← List.append_assoc]⟩
    rw [Lines.runs, List.foldlM_cons, hcall]
    exact hruns

theorem Between.split (h : Between dev all fp) :
    dev.out fp.cookie ++ inBuffer fp = all ∧ NEWLINE ∉ inBuffer fp := by
  rcases h with ⟨hfresh, hout⟩ | ⟨sent, held, hactive, hall, hline⟩
  · have hempty : inBuffer fp = [] := by rw [inBuffer, hfresh.bufp, List.take_zero]
    rw [hempty, List.append_nil]
    exact ⟨hout, List.not_mem_nil⟩
  · rw [hactive.written, hactive.waits]
    exact ⟨hall, hline⟩

end Between

/-- After any calls of `putc` and `fwrite` the bytes that were written and those in the buffer
are what was put, in order, and there is no newline among those in the buffer. -/
theorem line_buffered (hm : Allocates malloc) (h : Fresh dev fp) (calls : List Call) :
    ∃ fp', runs malloc fp calls = .ok fp' ∧
      dev.out fp'.cookie ++ inBuffer fp' = dev.out fp.cookie ++ calls.flatMap Call.bytes ∧
      NEWLINE ∉ inBuffer fp' := by
  have hstart : Between dev (dev.out fp.cookie) fp := Or.inl ⟨h, rfl⟩
  obtain ⟨fp', hruns, hbetween⟩ := hstart.runs hm calls
  exact ⟨fp', hruns, hbetween.split⟩

def demoDevice : Device Str where
  write := fun cookie bytes => (bytes.length, cookie ++ bytes)
  seek := fun _ _ _ => .error .ESPIPE
  out := id
  in_full := fun _ _ => ⟨rfl, rfl⟩
  tell := fun _ => Or.inl rfl

def demoFile : FILE Str where
  bufp := 0
  get_limit := 0
  put_limit := 0
  buffer := some [0, 0, 0, 0]
  bufsize := 4
  cookie := []
  mode := ⟨false, true, false⟩
  io_funcs := ⟨none, some demoDevice.write, some demoDevice.seek⟩
  offset := -1
  target := -1
  pushback_bufp := 0
  pushback := 0
  pushed_back := false
  eof := false
  error := false
  userbuf := true
  linebuf := true
  linebuf_active := false

theorem demoFile_fresh : Fresh demoDevice demoFile where
  read := rfl
  write := rfl
  line := rfl
  pushed := rfl
  eof := rfl
  error := rfl
  get_limit := rfl
  writes := rfl
  seeks := Or.inr rfl
  bufp := rfl
  put_limit := rfl
  idle := rfl
  placed := Or.inl ⟨rfl, rfl⟩
  block := Or.inl ⟨[0, 0, 0, 0], rfl, by decide, by decide⟩

/-- A character, half a line behind it, and more than the buffer takes. -/
def demoCalls : List Call := [.putc 97, .fwrite [98, 10, 99] 1, .fwrite [100, 101, 10, 102, 103, 104] 2]

theorem line_buffered_demo : ∃ fp', runs (fun _ => none) demoFile demoCalls = .ok fp' ∧
    demoDevice.out fp'.cookie ++ inBuffer fp' =
      demoDevice.out demoFile.cookie ++ demoCalls.flatMap Call.bytes ∧
    NEWLINE ∉ inBuffer fp' :=
  line_buffered (fun _ _ hmem => by cases hmem) demoFile_fresh demoCalls

end Mintlib.Stdio.Lines
