import Mintlib.Lib.Buffer
import Mintlib.Stdio.Room

/-!
# `vasprintf.c`

The stream writes into a block that its room function makes larger by 100 bytes at a time.
At the end the block is given its exact size; the block it had stays if that fails.
-/

namespace Mintlib.Stdio.Vasprintf

open Mintlib.Text Mintlib.Buffer Checked

-- the requests of `malloc` and `realloc` are named by their numbers
variable (heap : Heap)

/-- The room function; the cookie counts the calls of `malloc` and `realloc`. -/
def enlargeBuffer (stream : FILE ℕ) (c : Option UInt8) : Except Stop (FILE ℕ) :=
  let bufsize := stream.bufsize + 100
  if heap.alloc stream.cookie = false then
    .ok { stream with
      bufsize := bufsize, cookie := stream.cookie + 1, buffer := none, bufp := 0, put_limit := 0,
      get_limit := 0, error := true }
  else
    -- `__get_limit` is left in the old block; nothing reads from this stream
    let stream := { stream with
      bufsize := bufsize, cookie := stream.cookie + 1,
      buffer := some (resize heap.junk (stream.buffer.getD []) bufsize),
      get_limit := stream.put_limit, put_limit := bufsize }
    match c with
    | none => .ok stream
    | some c => stream.store c

def rooms (malloc : ℕ → Option Str) : Rooms ℕ := ownRooms malloc none (enlargeBuffer heap)

/-- The stream that `vasprintf` sets up; `memset` clears the rest of it. -/
def stringStream : FILE ℕ where
  bufp := 0
  get_limit := 0
  put_limit := 100
  buffer := some (resize heap.junk [] 100)
  bufsize := 100
  cookie := 1
  mode := ⟨false, true, false⟩
  io_funcs := ⟨none, none, none⟩
  offset := 0
  target := 0
  pushback_bufp := 0
  pushback := 0
  pushed_back := false
  eof := false
  error := false
  userbuf := false
  linebuf := false
  linebuf_active := false

/-- `(*string_ptr)[n] = '\0'`, after the last `realloc`. -/
def finish (f : FILE ℕ) (done : ℤ) : Except Stop (ℤ × Option Str) :=
  let string := if heap.alloc f.cookie then some (resize heap.junk (f.buffer.getD []) (f.bufp + 1))
    else f.buffer
  match string with
  | none => .error .bounds
  | some mem => if f.bufp < mem.length then .ok (done, some (mem.set f.bufp 0)) else .error .bounds

/-- `vasprintf`: the value and the block in `*string_ptr`, if it is set. -/
def vasprintf (malloc : ℕ → Option Str) (ops : List Op) : Except Stop (ℤ × Option Str) :=
  if heap.alloc 0 = false then .ok (-1, none)
  else do
    let (done, f) ← vfprintf (rooms heap malloc) ops (stringStream heap)
    if done < 0 then .ok (done, none) else finish heap f done

/-- No store lies outside of the block; if no growth failed the string is the whole output with a
NUL behind it, inside the block. -/
def Exact (malloc : ℕ → Option Str) (ops : List Op) : Prop :=
  ∃ r out, vasprintf heap malloc ops = .ok (r, out) ∧
    ∀ rs f, heap.alloc 0 = true → runs (rooms heap malloc) ops (stringStream heap) = .ok (rs, f) →
      f.error = false → r = ((ops.flatMap Op.bytes).length : ℤ) ∧ ∃ mem, out = some mem ∧
        mem.take (ops.flatMap Op.bytes).length = ops.flatMap Op.bytes ∧
        mem[(ops.flatMap Op.bytes).length]? = some 0

/-- The output fills the block, and the first call that fails is the one that was to make room for
the NUL. -/
def Tight (length : ℕ) : Prop :=
  0 < length ∧ length % 100 = 0 ∧ (∀ k < length / 100, heap.alloc k = true) ∧
    heap.alloc (length / 100) = false

structure Holds (f : FILE ℕ) (s : Str) : Prop where
  ready : Ready f
  limit : f.put_limit = f.bufsize
  size : f.bufsize = 100 * f.cookie
  grown : 100 * (f.cookie - 1) ≤ s.length
  offset : f.offset = 0
  target : f.target = 0
  bufp : f.bufp = s.length
  allocs : ∀ k < f.cookie, heap.alloc k = true
  mem : ∃ mem, f.buffer = some mem ∧ mem.length = f.bufsize ∧ mem.take s.length = s

def Tidy (f : FILE ℕ) (s : Str) : Prop :=
  Holds heap f s ∧ (f.cookie = 1 ∨ 100 * (f.cookie - 1) < s.length)

/-- The growth behind the output `s` failed. -/
def Failed (f : FILE ℕ) (s : Str) : Prop :=
  f.error = true ∧ f.linebuf = false ∧ f.put_limit ≤ f.bufp ∧
    ∃ k, heap.alloc k = false ∧ s.length = 100 * k

section Holds

variable {heap} {f : FILE ℕ} {s : Str}

theorem Holds.full (h : Holds heap f s) (hfull : f.bufsize ≤ f.bufp) :
    s.length = 100 * f.cookie := by
  have hbufp := h.ready.bufp
  rw [h.bufp] at hfull hbufp
  rw [← h.size]
  omega

theorem Holds.store (h : Holds heap f s) (c : UInt8) (hlt : f.bufp < f.bufsize) {mem : Str}
    (hmem : f.buffer = some mem) :
    Tidy heap { f with buffer := some (mem.set f.bufp c), bufp := f.bufp + 1 } (s ++ [c]) := by
  obtain ⟨mem', hmem', hlen, htake⟩ := h.mem
  obtain rfl : mem = mem' := Option.some.inj (hmem.symm.trans hmem')
  have hs : (s ++ [c]).length = s.length + 1 := by rw [List.length_append, List.length_singleton]
  have hgrown := h.grown
  refine ⟨⟨⟨h.ready.write, h.ready.error, h.ready.back, h.ready.line, h.ready.active,
    ⟨_, rfl, ?_⟩, h.ready.size, hlt, h.ready.limit⟩, h.limit, h.size, ?_, h.offset, h.target, ?_,
    h.allocs, mem.set f.bufp c, rfl, ?_, ?_⟩, Or.inr ?_⟩
  · show f.bufsize ≤ (mem.set f.bufp c).length
    rw [List.length_set, hlen]
  · rw [hs]
    exact hgrown.trans (Nat.le_succ _)
  · show f.bufp + 1 = (s ++ [c]).length
    rw [hs, h.bufp]
  · show (mem.set f.bufp c).length = f.bufsize
    rw [List.length_set, hlen]
  · rw [hs, h.bufp, take_set_succ c (by rw [hlen, ← h.bufp]; exact hlt), htake]
  · rw [hs]
    exact Nat.lt_succ_of_le hgrown

theorem Holds.enlarge (h : Holds heap f s) (hfull : f.bufsize ≤ f.bufp)
    (halloc : heap.alloc f.cookie = true) : ∃ f', (∀ c, enlargeBuffer heap f c =
      match c with
      | none => .ok f'
      | some c => f'.store c) ∧ Holds heap f' s ∧ f'.bufp < f'.bufsize := by
  obtain ⟨mem, hmem, hlen, htake⟩ := h.mem
  have hs := h.full hfull
  refine ⟨{ f with
      bufsize := f.bufsize + 100, cookie := f.cookie + 1,
      buffer := some (resize heap.junk mem (f.bufsize + 100)), get_limit := f.put_limit,
      put_limit := f.bufsize + 100 }, ?_, ?_, ?_⟩
  · intro c
    rw [enlargeBuffer, if_neg (by rw [halloc]; decide), hmem]
    rfl
  · refine ⟨⟨h.ready.write, h.ready.error, h.ready.back, h.ready.line, h.ready.active,
      ⟨_, rfl, ?_⟩, Nat.succ_pos _, ?_, Or.inl rfl⟩, rfl, ?_, ?_, h.offset, h.target, h.bufp, ?_,
      _, rfl, length_resize _ _ _, ?_⟩
    · rw [length_resize]
    · exact h.ready.bufp.trans (Nat.le_add_right _ _)
    · show f.bufsize + 100 = 100 * (f.cookie + 1)
      rw [h.size]
      omega
    · show 100 * (f.cookie + 1 - 1) ≤ s.length
      rw [Nat.add_sub_cancel, hs]
    · intro k hk
      rcases Nat.lt_succ_iff_lt_or_eq.mp hk with hlt | rfl
      · exact h.allocs k hlt
      · exact halloc
    · have hle : s.length ≤ f.bufsize := by rw [hs, h.size]
      rw [take_resize _ (by omega) (by omega), htake]
  · show f.bufp < f.bufsize + 100
    have := h.ready.bufp
    omega

theorem Holds.fail (h : Holds heap f s) (hfull : f.bufsize ≤ f.bufp)
    (halloc : heap.alloc f.cookie = false) (c : Option UInt8) :
    ∃ f', enlargeBuffer heap f c = .ok f' ∧ Failed heap f' s := by
  refine ⟨{ f with
      bufsize := f.bufsize + 100, cookie := f.cookie + 1, buffer := none, bufp := 0, put_limit := 0,
      get_limit := 0, error := true }, ?_, rfl, h.ready.line, le_refl _, f.cookie, halloc,
    h.full hfull⟩
  rw [enlargeBuffer, if_pos halloc]

theorem serves (malloc : ℕ → Option Str) :
    Serves (rooms heap malloc) (enlargeBuffer heap) (fun s c => s ++ [c]) (Tidy heap) (Holds heap)
      (Failed heap) False where
  special := rfl
  room := rfl
  weaken := And.left
  keep := fun h => h.elim
  ready := Holds.ready
  failed := fun ⟨herror, hline, hlimit, _⟩ => ⟨herror, hline, hlimit⟩
  store := fun c h _ hlt hmem => h.store c hlt hmem
  char := by
    intro f s c h hfull
    rw [h.limit] at hfull
    cases halloc : heap.alloc f.cookie with
    | false =>
      obtain ⟨f', hout, hfail⟩ := h.fail hfull halloc (some c)
      exact ⟨f', hout, Or.inr hfail⟩
    | true =>
      obtain ⟨f₁, hout, h₁, hlt⟩ := h.enlarge hfull halloc
      obtain ⟨mem, hmem, hlen, -⟩ := h₁.mem
      refine ⟨{ f₁ with buffer := some (mem.set f₁.bufp c), bufp := f₁.bufp + 1 }, ?_,
        Or.inl ⟨h₁.store c hlt hmem, h₁.limit⟩⟩
      rw [hout (some c)]
      simp only [FILE.store, hmem]
      exact if_pos (by omega)
  flush := by
    intro f s h hfull
    have hfull := (hfull.resolve_right id).ge
    cases halloc : heap.alloc f.cookie with
    | false =>
      obtain ⟨f', hout, hfail⟩ := h.fail hfull halloc none
      exact ⟨f', hout, Or.inr hfail⟩
    | true =>
      obtain ⟨f₁, hout, h₁, hlt⟩ := h.enlarge hfull halloc
      exact ⟨f₁, hout none, Or.inl ⟨h₁, h₁.limit, hlt⟩⟩
  offset := by
    intro f s h
    refine ⟨f, ?_, h, fun hp => hp⟩
    obtain ⟨mem, hmem, -⟩ := h.1.mem
    rw [stdioCheckOffset, init_eq hmem]
    simp only [setTarget]
    rw [if_neg (by rw [h.1.offset]; decide), if_neg (by rw [h.1.target]; decide)]

theorem tidy_start (hfirst : heap.alloc 0 = true) : Tidy heap (stringStream heap) [] := by
  refine ⟨⟨⟨rfl, rfl, rfl, rfl, rfl, ⟨_, rfl, ?_⟩, Nat.succ_pos _, Nat.zero_le _, Or.inl rfl⟩, rfl,
    rfl, le_refl _, rfl, rfl, rfl, ?_, _, rfl, length_resize _ _ _, rfl⟩, Or.inl rfl⟩
  · rw [length_resize]
    rfl
  · intro k hk
    obtain rfl : k = 0 := Nat.lt_one_iff.mp hk
    exact hfirst

theorem run_ok (malloc : ℕ → Option Str) {ops : List Op} (hops : .fflush ∉ ops)
    (hfirst : heap.alloc 0 = true) : ∃ rs f,
      runs (rooms heap malloc) ops (stringStream heap) = .ok (rs, f) ∧
        (rs = ops.map Op.success ∧ Tidy heap f (ops.flatMap Op.bytes) ∨
          rs ≠ ops.map Op.success ∧ f.error = true ∧ ∃ k, heap.alloc k = false ∧
            100 * k < (ops.flatMap Op.bytes).length) := by
  obtain ⟨rs, f, hrun, hok⟩ :=
    (serves malloc).runs_ok ops (fun hmem => absurd hmem hops) (tidy_start hfirst)
  rw [foldl_snoc] at hok
  refine ⟨rs, f, hrun, hok.imp_right ?_⟩
  rintro ⟨hrs, -, -, hstop⟩
  obtain ⟨q, rest, hq, hrest, herror, -, -, k, hk, hlen⟩ := hstop hops
  rw [foldl_snoc] at hlen
  refine ⟨hrs, herror, k, hk, ?_⟩
  have := List.length_pos_iff.mpr hrest
  rw [hq, List.length_append]
  omega

theorem finish_ok (h : Tidy heap f s) (hroom : heap.alloc f.cookie = true ∨ s.length < f.bufsize)
    (done : ℤ) : ∃ mem, finish heap f done = .ok (done, some mem) ∧ mem.take s.length = s ∧
      mem[s.length]? = some 0 := by
  obtain ⟨mem, hmem, hlen, htake⟩ := h.1.mem
  have hle : s.length ≤ mem.length := by
    rw [hlen, ← h.1.bufp]
    exact h.1.ready.bufp
  obtain ⟨string, hstring, hlt, hprefix⟩ : ∃ string,
      (if heap.alloc f.cookie then some (resize heap.junk (f.buffer.getD []) (s.length + 1))
        else f.buffer) = some string ∧ s.length < string.length ∧ string.take s.length = s := by
    cases halloc : heap.alloc f.cookie with
    | true =>
      refine ⟨resize heap.junk mem (s.length + 1), by rw [if_pos rfl, hmem]; rfl, ?_, ?_⟩
      · rw [length_resize]
        exact Nat.lt_succ_self _
      · rw [take_resize _ (Nat.le_succ _) hle, htake]
    | false =>
      refine ⟨mem, by rw [if_neg (by decide), hmem], ?_, htake⟩
      rw [hlen]
      exact hroom.resolve_left (by rw [halloc]; decide)
  refine ⟨string.set s.length 0, ?_, ?_, ?_⟩
  · rw [finish]
    simp only [h.1.bufp, hstring, if_pos hlt]
  · rw [List.take_set_of_le (le_refl _), hprefix]
  · rw [List.getElem?_set_self hlt]

end Holds

/-- Without the allocations that fail where the block is exactly full, `vasprintf` is right; with
them the NUL goes behind the block. -/
theorem vasprintf_iff (malloc : ℕ → Option Str) (ops : List Op) (hops : .fflush ∉ ops) :
    Exact heap malloc ops ↔ ¬ Tight heap (ops.flatMap Op.bytes).length := by
  set s := ops.flatMap Op.bytes with hs
  -- there is no stream at all
  by_cases hfirst : heap.alloc 0 = false
  · refine iff_of_true ⟨-1, none, by rw [vasprintf, if_pos hfirst], ?_⟩ ?_
    · intro rs f halloc
      rw [hfirst] at halloc
      exact absurd halloc (by decide)
    · rintro ⟨hpos, hmod, hbefore, -⟩
      have := hbefore 0 (by omega)
      rw [hfirst] at this
      exact absurd this (by decide)
  have hfirst' : heap.alloc 0 = true := by
    rw [Bool.not_eq_false] at hfirst
    exact hfirst
  obtain ⟨rs, f, hrun, hok⟩ := run_ok malloc hops hfirst'
  rw [← hs] at hok
  have hcall : vasprintf heap malloc ops =
      if rs = ops.map Op.success then finish heap f s.length else .ok (-1, none) := by
    rw [vasprintf, if_neg hfirst, vfprintf, hrun]
    simp only [bind, Except.bind]
    by_cases hrs : rs = ops.map Op.success
    · rw [if_pos hrs, if_pos hrs, if_neg (by omega)]
    · rw [if_neg hrs, if_neg hrs, if_pos (by decide)]
  -- every character was taken, and the last block has room or has not; or one was refused
  rcases hok with ⟨hrs, htidy⟩ | ⟨hrs, herror, k, hk, hlen⟩
  · rw [if_pos hrs] at hcall
    have hsize := htidy.1.size
    have hbufp := htidy.1.ready.bufp
    rw [htidy.1.bufp] at hbufp
    constructor
    · rintro ⟨r, out, hr, -⟩ ⟨hpos, hmod, -, hlast⟩
      have hcookie : s.length / 100 = f.cookie := by
        have := htidy.2
        omega
      have hfull : ¬ s.length < f.bufsize := by omega
      rw [hcookie] at hlast
      obtain ⟨mem, hmem, hmemlen, -⟩ := htidy.1.mem
      have hbounds : finish heap f s.length = .error .bounds := by
        rw [finish, hlast, hmem]
        simp only [Bool.false_eq_true, if_false, htidy.1.bufp, hmemlen, if_neg hfull]
      rw [hcall, hbounds] at hr
      cases hr
    · intro htight
      have hroom : heap.alloc f.cookie = true ∨ s.length < f.bufsize := by
        by_contra hno
        rw [not_or, Bool.not_eq_true, not_lt] at hno
        have hcookie : s.length / 100 = f.cookie := by omega
        have hpos := htidy.1.ready.size
        refine htight ⟨by omega, by omega, fun k hk => htidy.1.allocs k (hcookie ▸ hk), ?_⟩
        rw [hcookie]
        exact hno.1
      obtain ⟨mem, hfinish, htext, hnul⟩ := finish_ok htidy hroom s.length
      exact ⟨s.length, some mem, hcall.trans hfinish, fun _ _ _ _ _ => ⟨rfl, mem, rfl, htext, hnul⟩⟩
  · rw [if_neg hrs] at hcall
    refine iff_of_true ⟨-1, none, hcall, ?_⟩ ?_
    · intro rs' f' _ hrun' herror'
      obtain ⟨-, rfl⟩ : rs = rs' ∧ f = f' := by
        have := hrun.symm.trans hrun'
        exact Prod.mk.inj (Except.ok.inj this)
      rw [herror] at herror'
      exact absurd herror' (by decide)
    · rintro ⟨hpos, hmod, hbefore, -⟩
      have := hbefore k (by omega)
      rw [hk] at this
      exact absurd this (by decide)

/-- Two hundred and fifty characters: the block grows twice before it is given its size. -/
theorem vasprintf_iff_demo :
    Exact ⟨fun _ => true, fun _ => 0⟩ (fun _ => none) (List.replicate 250 (.putc 97)) := by
  refine (vasprintf_iff _ _ _ fun hflush => ?_).mpr fun htight => ?_
  · cases List.eq_of_mem_replicate hflush
  · exact absurd htight.2.2.2 (by decide)

/-- A hundred characters, and the last `realloc` fails. -/
theorem nul_behind_block :
    ¬ Exact ⟨fun k => k == 0, fun _ => 0⟩ (fun _ => none)
      [.fwrite (List.replicate 100 97) 1 100 (by decide)] := by
  rintro ⟨r, out, hcall, -⟩
  have hbounds : vasprintf ⟨fun k => k == 0, fun _ => 0⟩ (fun _ => none)
      [.fwrite (List.replicate 100 97) 1 100 (by decide)] = .error .bounds := by
    decide +kernel
  rw [hbounds] at hcall
  cases hcall

end Mintlib.Stdio.Vasprintf
