import Mintlib.Lib.Buffer
import Mintlib.Stdio.Room

/-!
# `vsnprintf.c`

The stream writes into the caller's buffer. When that is full its room function steps back,
so that more characters go to the last byte, where the NUL is put at the end.
-/

namespace Mintlib.Stdio.Vsnprintf

open Mintlib.Text Mintlib.Buffer Checked

def vsnprintfOutput (stream : FILE Unit) (_ : Option UInt8) : Except Stop (FILE Unit) :=
  .ok (if stream.bufp = stream.put_limit then { stream with bufp := stream.bufp - 1 } else stream)

def rooms (malloc : ℕ → Option Str)
    (input : Option (FILE Unit → Except Stop (Option UInt8 × FILE Unit))) : Rooms Unit :=
  ownRooms malloc input vsnprintfOutput

/-- The stream that `__vsnprintf` sets up; `memset` clears the rest of it. -/
def stringStream (s : Str) (maxlen : ℕ) : FILE Unit where
  bufp := 0
  get_limit := 0
  put_limit := maxlen
  buffer := some s
  bufsize := maxlen
  cookie := ()
  mode := ⟨false, true, false⟩
  io_funcs := ⟨none, none, none⟩
  offset := 0
  target := 0
  pushback_bufp := 0
  pushback := 0
  pushed_back := false
  eof := false
  error := false
  userbuf := false
  linebuf := false
  linebuf_active := false

/-- If the buffer overflowed we are at `__put_limit`. -/
def stepBack (f : FILE Unit) : FILE Unit :=
  if f.bufp = f.put_limit then { f with bufp := f.bufp - 1 } else f

/-- `__vsnprintf` behind its checks. -/
def format (rooms : Rooms Unit) (ops : List Op) (s : Str) (maxlen : ℕ) :
    Except Stop (ℤ × Option Str) := do
  let (done, f) ← vfprintf rooms ops (stringStream s maxlen)
  let f ← (stepBack f).poke 0
  .ok (done, f.buffer)

/-- `__vsnprintf`: the value and what the buffer holds then. -/
def vsnprintf (rooms : Rooms Unit) (ops : List Op) (temp : UInt8) (s : Option Str) (maxlen : ℕ) :
    Except Stop (ℤ × Option Str) :=
  if maxlen = 0 then do
    let (done, _) ← format rooms ops [temp] 1
    .ok (done, s)
  else
    match s with
    | none => .ok (0, none)
    | some s => format rooms ops s maxlen

/-- The stream behind the output `s`; `dest` is what the buffer held before. -/
structure Holds (dest : Str) (maxlen : ℕ) (f : FILE Unit) (s : Str) : Prop where
  ready : Ready f
  limit : f.put_limit = maxlen
  size : f.bufsize = maxlen
  offset : f.offset = 0
  target : f.target = 0
  bufp : f.bufp = min s.length maxlen ∨ maxlen ≤ s.length ∧ f.bufp = maxlen - 1
  mem : ∃ mem, f.buffer = some mem ∧ mem.length = dest.length ∧
    mem.drop maxlen = dest.drop maxlen ∧
    mem.take (min s.length (maxlen - 1)) = s.take (maxlen - 1)

section Holds

variable {dest s : Str} {maxlen : ℕ} {f : FILE Unit}

theorem Holds.store (h : Holds dest maxlen f s) (hpos : 0 < maxlen) (hdest : maxlen ≤ dest.length)
    (c : UInt8) (hlt : f.bufp < maxlen) {mem : Str} (hmem : f.buffer = some mem) :
    Holds dest maxlen { f with buffer := some (mem.set f.bufp c), bufp := f.bufp + 1 } (s ++ [c]) := by
  obtain ⟨mem', hmem', hlen, hdrop, htake⟩ := h.mem
  obtain rfl : mem = mem' := Option.some.inj (hmem.symm.trans hmem')
  have hs : (s ++ [c]).length = s.length + 1 := by rw [List.length_append, List.length_singleton]
  have hbufp := h.bufp
  refine ⟨⟨h.ready.write, h.ready.error, h.ready.back, h.ready.line, h.ready.active,
    ⟨_, rfl, ?_⟩, h.ready.size, ?_, h.ready.limit⟩, h.limit, h.size, h.offset, h.target, ?_,
    mem.set f.bufp c, rfl, ?_, ?_, ?_⟩
  · show f.bufsize ≤ (mem.set f.bufp c).length
    rw [List.length_set, hlen, h.size]
    exact hdest
  · show f.bufp + 1 ≤ f.bufsize
    rw [h.size]
    exact hlt
  · show f.bufp + 1 = min (s ++ [c]).length maxlen ∨ maxlen ≤ (s ++ [c]).length ∧ _
    rw [hs]
    left
    omega
  · rw [List.length_set, hlen]
  · rw [List.drop_set_of_lt hlt, hdrop]
  · rw [hs]
    by_cases hroom : s.length < maxlen - 1
    · have hat : f.bufp = s.length := by omega
      have hprefix : mem.take s.length = s := by
        rw [min_eq_left hroom.le, List.take_of_length_le hroom.le] at htake
        exact htake
      rw [min_eq_left (by omega), hat, take_set_succ c (by omega), hprefix,
        List.take_of_length_le (by omega)]
    · have hat : f.bufp = maxlen - 1 := by omega
      rw [min_eq_right (by omega), hat, List.take_set_of_le (le_refl _),
        List.take_append_of_le_length (by omega), ← htake, min_eq_right (by omega)]

theorem Holds.stepBack (h : Holds dest maxlen f s) (hpos : 0 < maxlen) :
    Holds dest maxlen (stepBack f) s ∧ (Vsnprintf.stepBack f).bufp = min s.length (maxlen - 1) := by
  have hbufp := h.bufp
  unfold Vsnprintf.stepBack
  split_ifs with hfull
  · rw [h.limit] at hfull
    refine ⟨⟨⟨h.ready.write, h.ready.error, h.ready.back, h.ready.line, h.ready.active,
      h.ready.block, h.ready.size, ?_, h.ready.limit⟩, h.limit, h.size, h.offset, h.target,
      Or.inr ⟨by omega, ?_⟩, h.mem⟩, ?_⟩
    · show f.bufp - 1 ≤ f.bufsize
      have := h.ready.bufp
      omega
    · show f.bufp - 1 = maxlen - 1
      rw [hfull]
    · show f.bufp - 1 = _
      omega
  · rw [h.limit] at hfull
    exact ⟨h, by omega⟩

theorem serves (malloc : ℕ → Option Str)
    (input : Option (FILE Unit → Except Stop (Option UInt8 × FILE Unit))) (hpos : 0 < maxlen)
    (hdest : maxlen ≤ dest.length) :
    Serves (rooms malloc input) vsnprintfOutput (fun s c => s ++ [c]) (Holds dest maxlen)
      (Holds dest maxlen) (fun _ _ => False) True where
  special := rfl
  room := rfl
  weaken := fun h => h
  keep := fun _ _ _ h => h
  ready := Holds.ready
  failed := fun h => h.elim
  store := fun c h _ hlt hmem => h.store hpos hdest c (h.size ▸ hlt) hmem
  char := by
    intro f s c h hfull
    obtain ⟨hback, -⟩ := h.stepBack hpos
    refine ⟨stepBack f, rfl, Or.inl ⟨?_, hback.limit.trans hback.size.symm⟩⟩
    rw [h.limit] at hfull
    have hlong : maxlen ≤ s.length := by
      have := h.bufp
      omega
    obtain ⟨mem, hmem, hlen, hdrop, htake⟩ := hback.mem
    have hs : (s ++ [c]).length = s.length + 1 := by
      rw [List.length_append, List.length_singleton]
    refine ⟨hback.ready, hback.limit, hback.size, hback.offset, hback.target, ?_, mem, hmem, hlen,
      hdrop, ?_⟩
    · have := hback.bufp
      rw [hs]
      omega
    · rw [List.take_append_of_le_length (by omega), ← htake, hs, min_eq_right (by omega),
        min_eq_right (by omega)]
  flush := by
    intro f s h _
    obtain ⟨hback, hbufp⟩ := h.stepBack hpos
    refine ⟨stepBack f, rfl, Or.inl ⟨hback, hback.limit.trans hback.size.symm, ?_⟩⟩
    rw [hback.size]
    omega
  offset := by
    intro f s h
    refine ⟨f, ?_, h, fun hp => hp⟩
    obtain ⟨mem, hmem, -⟩ := h.mem
    rw [stdioCheckOffset, init_eq hmem]
    simp only [setTarget]
    rw [if_neg (by rw [h.offset]; decide), if_neg (by rw [h.target]; decide)]

theorem holds_start (hpos : 0 < maxlen) (hdest : maxlen ≤ dest.length) :
    Holds dest maxlen (stringStream dest maxlen) [] where
  ready := ⟨rfl, rfl, rfl, rfl, rfl, ⟨dest, rfl, hdest⟩, hpos, Nat.zero_le _, Or.inl rfl⟩
  limit := rfl
  size := rfl
  offset := rfl
  target := rfl
  bufp := Or.inl (by rw [List.length_nil, Nat.zero_min]; rfl)
  mem := ⟨dest, rfl, rfl, rfl, by rw [List.length_nil, Nat.zero_min, List.take_zero, List.take_nil]⟩

end Holds

/-- What `vsnprintf` promises about the buffer, for the output `s`. -/
structure Formatted (dest s : Str) (maxlen : ℕ) (mem : Str) : Prop where
  text : mem.take (min s.length (maxlen - 1)) = s.take (maxlen - 1)
  nul : mem[min s.length (maxlen - 1)]? = some 0
  beyond : mem.drop maxlen = dest.drop maxlen

theorem format_ok {rs : Rooms Unit} {ops : List Op} {dest s : Str} {maxlen : ℕ} {done : ℤ}
    {f : FILE Unit} (hpos : 0 < maxlen) (hdest : maxlen ≤ dest.length)
    (hrun : vfprintf rs ops (stringStream dest maxlen) = .ok (done, f))
    (h : Holds dest maxlen f s) : ∃ mem, format rs ops dest maxlen = .ok (done, some mem) ∧
      Formatted dest s maxlen mem := by
  obtain ⟨hback, hbufp⟩ := h.stepBack hpos
  obtain ⟨mem, hmem, hlen, hdrop, htake⟩ := hback.mem
  have hlt : (stepBack f).bufp < mem.length := by omega
  refine ⟨mem.set (stepBack f).bufp 0, ?_, ?_, ?_, ?_⟩
  · rw [format, hrun]
    simp only [bind, Except.bind, FILE.poke, hmem, if_pos hlt]
  · rw [hbufp, List.take_set_of_le (le_refl _), htake]
  · rw [hbufp, List.getElem?_set_self (by omega)]
  · rw [List.drop_set_of_lt (by omega), hdrop]

/-- Whatever the formatter writes, every call succeeds, the value is the length of it all, and
the buffer holds as much of it as there is room for. -/
theorem vsnprintf_ok (malloc : ℕ → Option Str)
    (input : Option (FILE Unit → Except Stop (Option UInt8 × FILE Unit))) (ops : List Op)
    (temp : UInt8) (dest : Str) (maxlen : ℕ) (hpos : 1 ≤ maxlen) (hdest : maxlen ≤ dest.length) :
    (∃ f, runs (rooms malloc input) ops (stringStream dest maxlen) =
      .ok (ops.map Op.success, f)) ∧
    ∃ mem, vsnprintf (rooms malloc input) ops temp (some dest) maxlen =
        .ok (((ops.flatMap Op.bytes).length : ℤ), some mem) ∧
      Formatted dest (ops.flatMap Op.bytes) maxlen mem := by
  obtain ⟨rs, f, hrun, ⟨rfl, hholds⟩ | ⟨-, -, hfail, -⟩⟩ :=
    (serves malloc input hpos hdest).runs_ok ops (fun _ => trivial) (holds_start hpos hdest)
  · refine ⟨⟨f, hrun⟩, ?_⟩
    have hs : (ops.flatMap Op.bytes).foldl (fun s c => s ++ [c]) [] = ops.flatMap Op.bytes := by
      induction ops.flatMap Op.bytes using List.reverseRecOn with
    | nil => rfl
    | append_singleton s c ih => rw [List.foldl_append, ih, List.foldl_cons, List.foldl_nil]
    rw [hs] at hholds
    rw [vsnprintf, if_neg (by omega)]
    refine format_ok hpos hdest ?_ hholds
    rw [vfprintf, hrun]
    simp only [bind, Except.bind, if_true]
  · exact hfail.elim

theorem vsnprintf_demo :
    (∃ f, runs (rooms (fun _ => none) none) [.putc 97, .fflush, .fwrite [98, 99] 2 1 rfl]
        (stringStream [7, 7, 7] 2) =
      .ok ([Op.putc 97, .fflush, .fwrite [98, 99] 2 1 rfl].map Op.success, f)) ∧
    ∃ mem, vsnprintf (rooms (fun _ => none) none) [.putc 97, .fflush, .fwrite [98, 99] 2 1 rfl] 0
        (some [7, 7, 7]) 2 =
        .ok ((([Op.putc 97, .fflush, .fwrite [98, 99] 2 1 rfl].flatMap Op.bytes).length : ℤ),
          some mem) ∧
      Formatted [7, 7, 7] ([Op.putc 97, .fflush, .fwrite [98, 99] 2 1 rfl].flatMap Op.bytes) 2 mem :=
  vsnprintf_ok _ _ _ 0 [7, 7, 7] 2 (by decide) (by decide)

end Mintlib.Stdio.Vsnprintf
