import Mintlib.Lib.Buffer
import Mintlib.Stdio.Room

/-!
# `memstream.c`

A memory stream writes into a block that grows. One room function serves the character that
finds no room, the flush and the first write after a seek: `__put_limit` tells it which.
`*bufloc` is `__buffer`, since both are set in one place; the cookie is `*sizeloc`.
-/

namespace Mintlib.Stdio.Memstream

open Mintlib.Text Mintlib.Buffer Checked

-- the requests of `realloc` are named by their sizes
variable (heap : Heap)

/-- `*info->bufsize` once it is up to date: how much the stream takes for written. -/
def size (stream : FILE ℕ) : ℕ := if stream.put_limit = 0 then stream.cookie else stream.bufp

def reach (stream : FILE ℕ) : ℕ :=
  if stream.target ≠ -1 ∧ (size stream : ℤ) < stream.target then stream.target.toNat
  else size stream

/-- Enlarge the buffer; `error` if that fails. -/
def grow (stream : FILE ℕ) (need : ℕ) : FILE ℕ :=
  if stream.bufsize < need then
    let newsize := if stream.bufsize * 2 < need then need else stream.bufsize * 2
    if heap.alloc newsize = false then { stream with error := true }
    else
      { stream with
        buffer := some (resize heap.junk (stream.buffer.getD []) newsize), bufsize := newsize }
  else stream

def enlargeBuffer (stream : FILE ℕ) (c : Option UInt8) : Except Stop (FILE ℕ) :=
  let written := size stream
  let need := reach stream + 1
  let stream := grow heap { stream with cookie := written } need
  if stream.error then .ok stream
  else do
    let stream := { stream with
      target := 0, offset := 0, get_limit := written, bufp := written, put_limit := stream.bufsize }
    -- after an `fseek` past the end
    let stream ← stream.copy (List.replicate (need - (written + 1)) 0)
    match c with
    | some c => stream.store c
    | none => stream.poke 0

/-- `seek`: there is no external state to munge. -/
def seek (bufsize : ℕ) (pos : ℤ) : Whence → Except SeekError (ℤ × ℕ)
  | .SEEK_SET => .ok (pos, bufsize)
  | .SEEK_CUR => .ok (pos, bufsize)
  | .SEEK_END => .ok (pos + bufsize, bufsize)

def rooms (malloc : ℕ → Option Str) : Rooms ℕ := ownRooms malloc none (enlargeBuffer heap)

abbrev BUFSIZ : ℕ := 1024

/-- `open_memstream`, on top of `fmemopen` with mode `"w+"`. -/
def openMemstream (sizeloc : ℕ) : FILE ℕ where
  bufp := 0
  get_limit := BUFSIZ
  put_limit := BUFSIZ
  buffer := some (List.replicate BUFSIZ 0)
  bufsize := BUFSIZ
  cookie := sizeloc
  mode := ⟨true, true, false⟩
  io_funcs := ⟨none, none, some seek⟩
  offset := -1
  target := -1
  pushback_bufp := 0
  pushback := 0
  pushed_back := false
  eof := false
  error := false
  userbuf := true
  linebuf := false
  linebuf_active := false

/-- The reference buffer: what was written, and the position. -/
structure Ref where
  bytes : Str
  pos : ℕ

/-- A write goes to the position; a gap in front of it reads as zero bytes. -/
def Ref.put (a : Ref) (c : UInt8) : Ref :=
  ⟨(a.bytes ++ List.replicate (a.pos + 1 - a.bytes.length) 0).set a.pos c, a.pos + 1⟩

/-- Where `fseek` goes. -/
def Ref.goal (a : Ref) (offset : ℤ) : Whence → ℤ
  | .SEEK_SET => offset
  | .SEEK_CUR => offset + a.pos
  | .SEEK_END => offset + a.bytes.length

/-- `fseek` sets the position, except to a negative one. -/
def Ref.seek (a : Ref) (offset : ℤ) (whence : Whence) : Ref :=
  if a.goal offset whence < 0 then a else ⟨a.bytes, (a.goal offset whence).toNat⟩

/-- What is called on a memory stream. -/
inductive Call
  | io (op : Op)
  | fseek (offset : ℤ) (whence : Whence)
deriving DecidableEq

def Call.run (rooms : Rooms ℕ) (stream : FILE ℕ) : Call → Except Stop (ℤ × FILE ℕ)
  | io op => op.run rooms stream
  | fseek offset whence => Stdio.fseek rooms stream offset whence

def Call.effect (a : Ref) : Call → Ref
  | io op => op.bytes.foldl Ref.put a
  | fseek offset whence => a.seek offset whence

def run (rooms : Rooms ℕ) : List Call → FILE ℕ → Except Stop (FILE ℕ)
  | [], stream => .ok stream
  | call :: calls, stream => do
    let (_, stream) ← call.run rooms stream
    run rooms calls stream

/-- `*bufloc` holds the reference buffer, and behind it a NUL. -/
def Shows (stream : FILE ℕ) (a : Ref) : Prop :=
  ∃ mem, stream.buffer = some mem ∧ mem.take a.bytes.length = a.bytes ∧
    mem[a.bytes.length]? = some 0

/-- The calls stay inside of the block, and a flush at their end shows the reference buffer. -/
def Kept (rooms : Rooms ℕ) (sizeloc : ℕ) (calls : List Call) : Prop :=
  ∃ stream, run rooms calls (openMemstream sizeloc) = .ok stream ∧
    (calls.getLast? = some (.io .fflush) → Shows stream (calls.foldl Call.effect ⟨[], 0⟩))

/-- The position is not in front of what the stream takes for the end, where that matters. -/
def Fits (stream : FILE ℕ) (a : Ref) : Call → Prop
  | .io op => op.bytes = [] ∨ size stream ≤ a.pos
  | .fseek _ .SEEK_SET => True
  | .fseek _ .SEEK_CUR => size stream ≤ a.pos
  | .fseek _ .SEEK_END => size stream = a.bytes.length

instance (stream : FILE ℕ) (a : Ref) : (call : Call) → Decidable (Fits stream a call)
  | .io op => inferInstanceAs (Decidable (op.bytes = [] ∨ size stream ≤ a.pos))
  | .fseek _ .SEEK_SET => isTrue trivial
  | .fseek _ .SEEK_CUR => inferInstanceAs (Decidable (size stream ≤ a.pos))
  | .fseek _ .SEEK_END => inferInstanceAs (Decidable (size stream = a.bytes.length))

def AllFit (rooms : Rooms ℕ) : List Call → FILE ℕ → Ref → Prop
  | [], _, _ => True
  | call :: calls, stream, a => Fits stream a call ∧
    ∀ r ∈ (call.run rooms stream).toOption, AllFit rooms calls r.2 (call.effect a)

instance decideAllFit (rooms : Rooms ℕ) : (calls : List Call) → (stream : FILE ℕ) → (a : Ref) →
    Decidable (AllFit rooms calls stream a)
  | [], _, _ => isTrue trivial
  | call :: calls, stream, a =>
    have : DecidablePred fun r : ℤ × FILE ℕ => AllFit rooms calls r.2 (call.effect a) :=
      fun r => decideAllFit rooms calls r.2 (call.effect a)
    inferInstanceAs (Decidable (Fits stream a call ∧
      ∀ r ∈ (call.run rooms stream).toOption, AllFit rooms calls r.2 (call.effect a)))

/-- The stream that stands for a reference buffer, whether it has been sought in or not. -/
structure Holds (f : FILE ℕ) (a : Ref) : Prop where
  ready : Ready f
  seek : f.io_funcs.seek = some Memstream.seek
  len : a.bytes.length ≤ size f
  mem : ∃ mem, f.buffer = some mem ∧ mem.length = f.bufsize ∧
    mem.take (size f) = a.bytes ++ List.replicate (size f - a.bytes.length) 0
  primed : f.put_limit ≠ 0 → a.pos ≤ f.bufp ∧ (f.target = 0 ∨ f.target = -1 ∧ f.offset = -1)
  sought : f.put_limit = 0 → f.bufp = 0 ∧ f.target = a.pos ∧ f.cookie < f.bufsize

/-- Where the room function goes on: behind what is written, or behind the gap. -/
def start (f : FILE ℕ) (a : Ref) : ℕ :=
  if f.put_limit = 0 then max f.cookie a.pos else f.bufp

theorem Ref.put_bytes {a : Ref} (h : a.bytes.length ≤ a.pos) (c : UInt8) :
    (a.put c).bytes = a.bytes ++ List.replicate (a.pos - a.bytes.length) 0 ++ [c] := by
  have hgap : a.pos + 1 - a.bytes.length = a.pos - a.bytes.length + 1 := by omega
  have hlen : (a.bytes ++ List.replicate (a.pos - a.bytes.length) 0).length = a.pos := by
    rw [List.length_append, List.length_replicate]
    omega
  rw [Ref.put, hgap, List.replicate_succ', ← List.append_assoc,
    List.set_append_right a.pos c hlen.le, hlen, Nat.sub_self]
  rfl

section Holds

variable {heap} {f f' : FILE ℕ} {a : Ref} {c : UInt8}

theorem Holds.reach_eq (h : Holds f a) : reach f = start f a := by
  unfold reach start
  by_cases hput : f.put_limit = 0
  · obtain ⟨-, htarget, -⟩ := h.sought hput
    rw [if_pos hput, htarget, size, if_pos hput]
    split_ifs <;> omega
  · obtain ⟨-, htarget⟩ := h.primed hput
    rw [if_neg hput, size, if_neg hput]
    split_ifs <;> omega

theorem size_le_start (f : FILE ℕ) (a : Ref) : size f ≤ start f a := by
  unfold size start
  split_ifs
  · exact le_max_left _ _
  · exact le_refl _

theorem Holds.pos_le_start (h : Holds f a) : a.pos ≤ start f a := by
  unfold start
  split_ifs with hput
  · exact le_max_right _ _
  · exact (h.primed hput).1

theorem Holds.start_eq (h : Holds f a) (hfits : size f ≤ a.pos) : start f a = a.pos := by
  refine le_antisymm ?_ h.pos_le_start
  unfold start
  unfold size at hfits
  split_ifs at hfits ⊢
  · exact max_le hfits (le_refl _)
  · exact hfits

theorem Holds.size_le (h : Holds f a) : size f ≤ f.bufsize := by
  unfold size
  split_ifs with hput
  · exact (h.sought hput).2.2.le
  · exact h.ready.bufp

theorem copy_eq (p : Str) : ∀ (f : FILE ℕ) {mem : Str}, f.buffer = some mem →
    f.bufp + p.length ≤ mem.length → ∃ mem',
      f.copy p = .ok { f with buffer := some mem', bufp := f.bufp + p.length } ∧
        mem'.length = mem.length ∧ mem'.take (f.bufp + p.length) = mem.take f.bufp ++ p := by
  induction p with
  | nil =>
    intro f mem hmem _
    refine ⟨mem, ?_, rfl, by rw [List.length_nil, Nat.add_zero, List.append_nil]⟩
    rw [FILE.copy, List.length_nil, Nat.add_zero, ← hmem]
  | cons c p ih =>
    intro f mem hmem hroom
    rw [List.length_cons] at hroom
    obtain ⟨mem', hcopy, hlen, htake⟩ :=
      ih { f with buffer := some (mem.set f.bufp c), bufp := f.bufp + 1 } rfl (by
        show f.bufp + 1 + p.length ≤ (mem.set f.bufp c).length
        rw [List.length_set]
        omega)
    have hnext : f.bufp + 1 + p.length = f.bufp + (c :: p).length := by
      rw [List.length_cons]
      omega
    refine ⟨mem', ?_, hlen.trans List.length_set, ?_⟩
    · rw [FILE.copy, FILE.store, hmem]
      simp only [if_pos (show f.bufp < mem.length by omega), bind, Except.bind, hcopy, hnext]
    · rw [← hnext, htake, take_set_succ c (by omega), List.append_assoc, List.singleton_append]

theorem grow_eq (halloc : ∀ n, heap.alloc n = true) (f : FILE ℕ) {mem : Str}
    (hmem : f.buffer = some mem) (hlen : mem.length = f.bufsize) (need : ℕ) : ∃ mem' newsize,
      grow heap f need = { f with buffer := some mem', bufsize := newsize } ∧
        mem'.length = newsize ∧ need ≤ newsize ∧ ∀ n ≤ f.bufsize, mem'.take n = mem.take n := by
  unfold grow
  by_cases hneed : f.bufsize < need
  · set newsize := if f.bufsize * 2 < need then need else f.bufsize * 2 with hnew
    have hle : need ≤ newsize := by
      rw [hnew]
      split_ifs <;> omega
    refine ⟨resize heap.junk mem newsize, newsize, ?_, length_resize _ _ _, hle, fun n hn => ?_⟩
    · rw [if_pos hneed, if_neg (by rw [halloc]; decide), hmem]
      rfl
    · exact take_resize _ (by omega) (by omega)
  · exact ⟨mem, f.bufsize, by rw [if_neg hneed, ← hmem], hlen, not_lt.mp hneed, fun _ _ => rfl⟩

theorem Holds.enlarge (h : Holds f a) (halloc : ∀ n, heap.alloc n = true) : ∃ mem' newsize,
    (∀ c, enlargeBuffer heap f c =
      let f₁ : FILE ℕ := { f with
        cookie := size f, buffer := some mem', bufsize := newsize, target := 0, offset := 0,
        get_limit := size f, bufp := start f a, put_limit := newsize }
      match c with
      | some c => f₁.store c
      | none => f₁.poke 0) ∧
    mem'.length = newsize ∧ start f a < newsize ∧
    mem'.take (start f a) = a.bytes ++ List.replicate (start f a - a.bytes.length) 0 := by
  obtain ⟨mem, hmem, hlen, htake⟩ := h.mem
  have hstart := size_le_start f a
  have hsize := h.size_le
  have hbytes := h.len
  obtain ⟨mem₁, newsize, hgrow, hlen₁, hneed, hkeep⟩ :=
    grow_eq halloc { f with cookie := size f } hmem hlen (start f a + 1)
  have hgap : start f a + 1 - (size f + 1) = start f a - size f := Nat.add_sub_add_right _ _ _
  have hend : size f + (start f a - size f) = start f a := by omega
  obtain ⟨mem₂, hcopy, hlen₂, htake₂⟩ := copy_eq (List.replicate (start f a - size f) 0)
    { f with
      cookie := size f, buffer := some mem₁, bufsize := newsize, target := 0, offset := 0,
      get_limit := size f, bufp := size f, put_limit := newsize } rfl
    (by rw [List.length_replicate]; show size f + _ ≤ _; omega)
  rw [List.length_replicate] at hcopy htake₂
  simp only [hend] at hcopy htake₂
  refine ⟨mem₂, newsize, fun c => ?_, hlen₂.trans hlen₁, by omega, ?_⟩
  · rw [enlargeBuffer, h.reach_eq]
    simp only [hgrow]
    rw [if_neg (by rw [h.ready.error]; decide)]
    simp only [hgap, hcopy, bind, Except.bind]
  · rw [htake₂, hkeep _ hsize, htake, List.append_assoc, List.replicate_append_replicate]
    congr 2
    omega

theorem Holds.primed_at (h : Holds f a) {mem' : Str} {newsize bufp put_limit : ℕ}
    {target : ℤ} {a' : Ref} (cookie get_limit : ℕ) (offset : ℤ) (hput : put_limit = newsize)
    (htarget : target = 0 ∨ target = -1 ∧ offset = -1) (hlen : mem'.length = newsize)
    (hroom : bufp ≤ newsize) (hpos : 0 < newsize) (hbytes : a'.bytes.length ≤ bufp)
    (hpos' : a'.pos ≤ bufp)
    (htake : mem'.take bufp = a'.bytes ++ List.replicate (bufp - a'.bytes.length) 0) :
    Holds { f with
      cookie := cookie, buffer := some mem', bufsize := newsize, target := target,
      offset := offset, get_limit := get_limit, bufp := bufp, put_limit := put_limit } a' := by
  subst hput
  have hsize : size { f with
      cookie := cookie, buffer := some mem', bufsize := put_limit, target := target,
      offset := offset, get_limit := get_limit, bufp := bufp, put_limit := put_limit } = bufp :=
    if_neg hpos.ne'
  refine ⟨⟨h.ready.write, h.ready.error, h.ready.back, h.ready.line, h.ready.active,
    ⟨mem', rfl, hlen.ge⟩, hpos, hroom, Or.inl rfl⟩, h.seek, by rw [hsize]; exact hbytes,
    ⟨mem', rfl, hlen, by rw [hsize]; exact htake⟩, fun _ => ⟨hpos', htarget⟩, fun h0 => ?_⟩
  exact absurd h0 hpos.ne'

theorem size_primed (hready : Ready f) (hprimed : Primed f) : size f = f.bufp :=
  if_neg (by rw [hprimed]; exact hready.size.ne')

def Writes (f : FILE ℕ) (a : Ref) : Prop := Holds f a ∧ size f ≤ a.pos

theorem length_put {a : Ref} (h : a.bytes.length ≤ a.pos) (c : UInt8) :
    (a.put c).bytes.length = a.pos + 1 := by
  rw [Ref.put_bytes h, List.length_append, List.length_append, List.length_replicate,
    List.length_singleton]
  omega

theorem Holds.put_at (h : Holds f a) {mem : Str} {newsize put_limit : ℕ} {target : ℤ}
    (cookie get_limit : ℕ) (offset : ℤ) (c : UInt8) (hput : put_limit = newsize)
    (htarget : target = 0 ∨ target = -1 ∧ offset = -1) (hlen : mem.length = newsize)
    (hroom : a.pos < newsize) (hbytes : a.bytes.length ≤ a.pos)
    (htake : mem.take a.pos = a.bytes ++ List.replicate (a.pos - a.bytes.length) 0) :
    Writes { f with
      cookie := cookie, buffer := some (mem.set a.pos c), bufsize := newsize, target := target,
      offset := offset, get_limit := get_limit, bufp := a.pos + 1, put_limit := put_limit }
      (a.put c) := by
  have hlength := length_put hbytes c
  have hpos : 0 < newsize := by omega
  have htake' : (mem.set a.pos c).take (a.pos + 1) =
      (a.put c).bytes ++ List.replicate (a.pos + 1 - (a.put c).bytes.length) 0 := by
    rw [take_set_succ c (by omega), htake, hlength, Nat.sub_self, List.replicate_zero,
      List.append_nil, Ref.put_bytes hbytes]
  have hholds := h.primed_at cookie get_limit offset hput htarget (by rw [List.length_set, hlen])
    hroom hpos hlength.le (le_refl _) htake'
  exact ⟨hholds, (size_primed hholds.ready hput).le⟩

theorem Writes.char (h : Writes f a) (halloc : ∀ n, heap.alloc n = true) (c : UInt8) : ∃ f',
    enlargeBuffer heap f (some c) = .ok f' ∧ Writes f' (a.put c) ∧ Primed f' := by
  obtain ⟨hholds, hfits⟩ := h
  obtain ⟨mem, newsize, hout, hlen, hroom, htake⟩ := hholds.enlarge halloc
  have hstart := hholds.start_eq hfits
  rw [hstart] at hout hroom htake
  have hbytes := hholds.len.trans hfits
  refine ⟨_, ?_, hholds.put_at (size f) (size f) 0 c rfl (Or.inl rfl) hlen hroom hbytes htake, rfl⟩
  rw [hout]
  simp only [FILE.store]
  exact if_pos (by omega)

theorem Holds.flush (h : Holds f a) (halloc : ∀ n, heap.alloc n = true) : ∃ f',
    enlargeBuffer heap f none = .ok f' ∧ Holds f' a ∧ Shows f' a ∧ Primed f' ∧
      f'.bufp = start f a ∧ f'.bufp < f'.bufsize ∧ f'.cookie = size f ∧ f'.target = 0 := by
  obtain ⟨mem, newsize, hout, hlen, hroom, htake⟩ := h.enlarge halloc
  have hbytes := h.len.trans (size_le_start f a)
  have hpos : 0 < newsize := by omega
  have hlt : start f a < mem.length := by omega
  have htake' : (mem.set (start f a) 0).take (start f a) =
      a.bytes ++ List.replicate (start f a - a.bytes.length) 0 := by
    rw [List.take_set_of_le (le_refl _), htake]
  refine ⟨_, ?_, h.primed_at (size f) (size f) 0 rfl (Or.inl rfl) (by rw [List.length_set, hlen]) hroom.le
    hpos hbytes h.pos_le_start htake', ⟨_, rfl, ?_, ?_⟩, rfl, rfl, hroom, rfl, rfl⟩
  · rw [hout]
    simp only [FILE.poke]
    exact if_pos hlt
  · have := congrArg (List.take a.bytes.length) htake'
    rw [List.take_take, min_eq_left hbytes, List.take_left] at this
    exact this
  · rcases hbytes.eq_or_lt with heq | hgap
    · rw [heq, List.getElem?_set_self hlt]
    · have := congrArg (·[a.bytes.length]?) htake'
      rw [List.getElem?_take_of_lt hgap, List.getElem?_append_right (le_refl _), Nat.sub_self,
        List.getElem?_replicate, if_pos (by omega)] at this
      exact this

theorem check_eq (heap : Heap) (malloc : ℕ → Option Str) {mem : Str} (hmem : f.buffer = some mem)
    (hseek : f.io_funcs.seek = some Memstream.seek) (htarget : f.target = -1 → f.offset = -1) :
    ∃ offset, stdioCheckOffset (rooms heap malloc) f =
      (none, { f with offset := offset, target := if f.target = -1 then 0 else f.target }) := by
  rw [stdioCheckOffset, init_eq hmem]
  simp only [hseek]
  by_cases hoffset : f.offset = -1
  · refine ⟨0, ?_⟩
    rw [if_pos hoffset]
    simp only [Memstream.seek, setTarget]
    split_ifs <;> rfl
  · have hno : f.target ≠ -1 := fun h => hoffset (htarget h)
    exact ⟨f.offset, by rw [if_neg hoffset, setTarget, if_neg hno, if_neg hno]⟩

theorem Holds.target_offset (h : Holds f a) : f.target = -1 → f.offset = -1 := by
  intro htarget
  by_cases hput : f.put_limit = 0
  · have := (h.sought hput).2.1
    omega
  · rcases (h.primed hput).2 with h0 | ⟨-, hoffset⟩
    · omega
    · exact hoffset

theorem Holds.retarget (h : Holds f a) (offset : ℤ) (eof : Bool) :
    Holds { f with
      offset := offset, target := if f.target = -1 then 0 else f.target, eof := eof } a := by
  refine ⟨⟨h.ready.write, h.ready.error, h.ready.back, h.ready.line, h.ready.active,
    h.ready.block, h.ready.size, h.ready.bufp, h.ready.limit⟩, h.seek, h.len, h.mem,
    fun hput => ⟨(h.primed hput).1, Or.inl ?_⟩, fun hput => ?_⟩
  · show (if f.target = -1 then 0 else f.target) = 0
    rcases (h.primed hput).2 with h0 | ⟨h1, -⟩
    · rw [h0]
      decide
    · rw [if_pos h1]
  · obtain ⟨hbufp, htarget, hcookie⟩ := h.sought hput
    refine ⟨hbufp, ?_, hcookie⟩
    show (if f.target = -1 then 0 else f.target) = a.pos
    rw [if_neg (by omega), htarget]

theorem serves (malloc : ℕ → Option Str) (halloc : ∀ n, heap.alloc n = true) :
    Serves (rooms heap malloc) (enlargeBuffer heap) Ref.put Writes Writes (fun _ _ => False)
      True where
  special := rfl
  room := rfl
  weaken := fun h => h
  keep := fun _ _ _ h => h
  ready := fun h => h.1.ready
  failed := fun h => h.elim
  store := by
    intro f a mem c h hprimed hlt hmem
    have hsize := size_primed h.1.ready hprimed
    have hput : f.put_limit ≠ 0 := by
      rw [hprimed]
      exact h.1.ready.size.ne'
    obtain ⟨hpos, htarget⟩ := h.1.primed hput
    have hbufp : f.bufp = a.pos := le_antisymm (hsize ▸ h.2) hpos
    obtain ⟨mem', hmem', hlen, htake⟩ := h.1.mem
    obtain rfl : mem = mem' := Option.some.inj (hmem.symm.trans hmem')
    rw [hsize, hbufp] at htake
    rw [hbufp] at hlt ⊢
    exact h.1.put_at f.cookie f.get_limit f.offset c hprimed htarget hlen hlt (h.1.len.trans h.2) htake
  char := by
    intro f a c h _
    obtain ⟨f', hout, hwrites, hprimed⟩ := h.char halloc c
    exact ⟨f', hout, Or.inl ⟨hwrites, hprimed⟩⟩
  flush := by
    intro f a h _
    obtain ⟨f', hout, hholds, -, hprimed, hbufp, hlt, -⟩ := h.1.flush halloc
    refine ⟨f', hout, Or.inl ⟨⟨hholds, ?_⟩, hprimed, hlt⟩⟩
    rw [size_primed hholds.ready hprimed, hbufp, h.1.start_eq h.2]
  offset := by
    intro f a h
    obtain ⟨mem, hmem, -⟩ := h.1.mem
    obtain ⟨offset, hoffset⟩ := check_eq heap malloc hmem h.1.seek h.1.target_offset
    exact ⟨_, hoffset, ⟨h.1.retarget offset f.eof, h.2⟩, fun hp => hp⟩

theorem Holds.flshfp (h : Holds f a) (malloc : ℕ → Option Str)
    (halloc : ∀ n, heap.alloc n = true) : ∃ f', Stdio.flshfp (rooms heap malloc) f none = .ok (0, f') ∧
      Holds f' a ∧ Shows f' a ∧ Primed f' ∧ f'.bufp = start f a ∧ f'.bufp < f'.bufsize ∧
        f'.cookie = size f ∧ f'.target = 0 := by
  obtain ⟨f', hout, hholds, hrest⟩ := h.flush halloc
  refine ⟨f', ?_, hholds, hrest⟩
  rw [h.ready.flshfp rfl, Stdio.flushOrPut, h.ready.makeRoom none hout hholds.ready.line,
    hholds.ready.error]
  rfl

theorem seekTo_ok (h : Holds f a) (hprimed : Primed f) (hlen : a.bytes.length ≤ f.cookie)
    (hcookie : f.cookie ≤ f.bufp) (hroom : f.bufp < f.bufsize) (o : ℤ) : ∃ r f',
      seekTo f o = (r, f') ∧ Holds f' (if o < 0 then a else ⟨a.bytes, o.toNat⟩) := by
  unfold seekTo
  by_cases hneg : o < 0
  · rw [if_pos hneg]
    exact ⟨EOF, f, rfl, by rw [if_pos hneg]; exact h⟩
  · rw [if_neg hneg, if_neg hneg]
    simp only [h.seek, Memstream.seek]
    refine ⟨0, _, rfl, ?_⟩
    obtain ⟨mem, hmem, hmemlen, htake⟩ := h.mem
    rw [size_primed h.ready hprimed] at htake
    refine ⟨⟨h.ready.write, h.ready.error, h.ready.back, h.ready.line, rfl,
      ⟨mem, hmem, hmemlen.ge⟩, h.ready.size, Nat.zero_le _, Or.inr rfl⟩, h.seek, hlen,
      ⟨mem, hmem, hmemlen, ?_⟩, fun h0 => absurd rfl h0, fun _ => ⟨rfl, ?_, by
        exact Nat.lt_of_le_of_lt hcookie hroom⟩⟩
    · show mem.take f.cookie = a.bytes ++ List.replicate (f.cookie - a.bytes.length) 0
      have hshort := congrArg (List.take f.cookie) htake
      rw [List.take_take, min_eq_left hcookie, List.take_append, List.take_of_length_le hlen,
        List.take_replicate, min_eq_left (by omega)] at hshort
      exact hshort
    · show o = (o.toNat : ℤ)
      omega

/-- `fseek` goes where the reference goes, if what the stream takes for the end fits. -/
theorem Holds.fseek (h : Holds f a) (malloc : ℕ → Option Str) (halloc : ∀ n, heap.alloc n = true)
    (offset : ℤ) (whence : Whence) (hfits : Fits f a (.fseek offset whence)) : ∃ r f',
      Stdio.fseek (rooms heap malloc) f offset whence = .ok (r, f') ∧
        Holds f' (a.seek offset whence) := by
  obtain ⟨f₁, hflush, h₁, -, hprimed, hbufp, hroom, hcookie, htarget⟩ := h.flshfp malloc halloc
  obtain ⟨mem, hmem, -⟩ := h₁.mem
  obtain ⟨offset', hcheck⟩ := check_eq (f := { f₁ with offset := -1 }) heap malloc hmem h₁.seek
    fun _ => rfl
  have hg := h₁.retarget offset' false
  have hlen : a.bytes.length ≤ f₁.cookie := hcookie ▸ h.len
  have hle : f₁.cookie ≤ f₁.bufp := by
    rw [hcookie, hbufp]
    exact size_le_start _ _
  have hcall : Stdio.fseek (rooms heap malloc) f offset whence = .ok (seekWhence { f₁ with
      offset := offset', target := if f₁.target = -1 then 0 else f₁.target, eof := false }
      offset whence) := by
    rw [Stdio.fseek, if_pos h.ready.write, hflush]
    simp only [bind, Except.bind]
    rw [if_neg (by decide), seekFlushed, hcheck]
    simp only [FILE.discard, h₁.ready.back, Bool.false_eq_true, if_false]
  rw [hcall]
  cases whence with
  | SEEK_SET =>
    obtain ⟨r, f', hseek, hholds⟩ := seekTo_ok hg hprimed hlen hle hroom offset
    exact ⟨r, f', by rw [seekWhence, hseek], hholds⟩
  | SEEK_CUR =>
    have hpos : start f a = a.pos := h.start_eq hfits
    obtain ⟨r, f', hseek, hholds⟩ := seekTo_ok hg hprimed hlen hle hroom (offset + a.pos)
    refine ⟨r, f', ?_, hholds⟩
    rw [seekWhence, ← hseek]
    simp only [htarget, hbufp, hpos]
    norm_num
  | SEEK_END =>
    have hend : (f₁.cookie : ℤ) = a.bytes.length := by
      rw [hcookie]
      exact congrArg Nat.cast hfits
    obtain ⟨r, f', hseek, hholds⟩ := seekTo_ok (hg.retarget (offset + f₁.cookie) false) hprimed hlen
      hle hroom (offset + a.bytes.length)
    refine ⟨r, f', ?_, hholds⟩
    rw [seekWhence]
    simp only [h₁.seek, Memstream.seek]
    rw [← hseek, ← hend]
    simp only [htarget]
    rfl

theorem Holds.call (h : Holds f a) (malloc : ℕ → Option Str) (halloc : ∀ n, heap.alloc n = true)
    (call : Call) (hfits : Fits f a call) : ∃ r f', call.run (rooms heap malloc) f = .ok (r, f') ∧
      Holds f' (call.effect a) := by
  cases call with
  | fseek offset whence => exact h.fseek malloc halloc offset whence hfits
  | io op =>
    rcases hfits with hnil | hfits
    · rw [Call.effect, hnil]
      cases op with
      | putc c => exact absurd hnil (List.cons_ne_nil c [])
      | fwrite ptr size nmemb hlen =>
        obtain rfl : ptr = [] := hnil
        refine ⟨0, f, ?_, h⟩
        rw [Call.run, Op.run, fwrite.eq_def]
        split_ifs <;> rfl
      | fflush =>
        obtain ⟨f', hflush, hholds, -⟩ := h.flshfp malloc halloc
        refine ⟨0, f', ?_, hholds⟩
        rw [Call.run, Op.run, fflush, if_neg (by rw [h.ready.write]; simp), hflush]
    · obtain ⟨r, f', hop, ⟨-, hwrites⟩ | ⟨-, -, hfail, -⟩⟩ :=
        (serves malloc halloc).op_ok op (fun _ => trivial) ⟨h, hfits⟩
      · exact ⟨r, f', hop, hwrites.1⟩
      · exact hfail.elim

theorem Holds.run (malloc : ℕ → Option Str) (halloc : ∀ n, heap.alloc n = true)
    (calls : List Call) : ∀ {f : FILE ℕ} {a : Ref}, Holds f a →
      AllFit (rooms heap malloc) calls f a → ∃ f', run (rooms heap malloc) calls f = .ok f' ∧
        Holds f' (calls.foldl Call.effect a) ∧
        (calls.getLast? = some (.io .fflush) → Shows f' (calls.foldl Call.effect a)) := by
  induction calls with
  | nil =>
    intro f a h _
    exact ⟨f, rfl, h, fun hlast => by cases hlast⟩
  | cons call calls ih =>
    intro f a h hall
    obtain ⟨r, f₁, hcall, h₁⟩ := h.call malloc halloc call hall.1
    obtain ⟨f', hrun, h', hshows⟩ := ih h₁ (hall.2 (r, f₁) (by rw [hcall]; rfl))
    refine ⟨f', ?_, h', fun hlast => ?_⟩
    · rw [Memstream.run, hcall]
      exact hrun
    · by_cases hnil : calls = []
      · subst hnil
        obtain rfl : call = .io .fflush := Option.some.inj hlast
        obtain ⟨f₂, hflush, -, hshows₂, -⟩ := h.flshfp malloc halloc
        have hsame : f' = f₂ := by
          have hflushed : Call.run (rooms heap malloc) f (.io .fflush) = .ok (0, f₂) := by
            rw [Call.run, Op.run, fflush, if_neg (by rw [h.ready.write]; simp), hflush]
          rw [hflushed] at hcall
          obtain rfl : f₁ = f' := Except.ok.inj hrun
          exact (Prod.mk.inj (Except.ok.inj hcall)).2.symm
        rw [hsame]
        exact hshows₂
      · rw [List.getLast?_cons_of_ne_nil hnil] at hlast
        exact hshows hlast

theorem holds_start (sizeloc : ℕ) : Holds (openMemstream sizeloc) ⟨[], 0⟩ where
  ready := ⟨rfl, rfl, rfl, rfl, rfl, ⟨_, rfl, by rw [List.length_replicate]; exact le_refl _⟩,
    Nat.succ_pos _, Nat.zero_le _, Or.inl rfl⟩
  seek := rfl
  len := Nat.zero_le _
  mem := ⟨_, rfl, List.length_replicate, rfl⟩
  primed := fun _ => ⟨le_refl _, Or.inr ⟨rfl, rfl⟩⟩
  sought := fun h0 => absurd h0 (Nat.succ_ne_zero _)

end Holds

/-- In a run whose calls all fit, every flush shows the reference buffer, and no call stores
outside of the block. -/
theorem memstream_run (heap : Heap) (malloc : ℕ → Option Str) (sizeloc : ℕ) (calls : List Call)
    (halloc : ∀ n, heap.alloc n = true)
    (hfit : AllFit (rooms heap malloc) calls (openMemstream sizeloc) ⟨[], 0⟩) :
    Kept (rooms heap malloc) sizeloc calls := by
  obtain ⟨f, hrun, -, hshows⟩ := (holds_start sizeloc).run malloc halloc calls hfit
  exact ⟨f, hrun, hshows⟩

theorem memstream_run_demo :
    Kept (rooms ⟨fun _ => true, fun _ => 7⟩ fun _ => none) 0
      [.io (.putc 97), .fseek 3 .SEEK_SET, .io (.putc 98), .io .fflush] :=
  memstream_run _ _ _ _ (fun _ => rfl) (by decide +kernel)

/-- A character that is written after a seek back goes to the end. -/
theorem seek_back_lost :
    ¬ Kept (rooms ⟨fun _ => true, fun _ => 7⟩ fun _ => none) 0
      [.io (.fwrite [97, 98, 99] 1 3 rfl), .fseek 1 .SEEK_SET, .io (.putc 120), .io .fflush] := by
  rintro ⟨f, hrun, hshows⟩
  obtain ⟨mem, hmem, hbytes, -⟩ := hshows rfl
  have hbuffer : (run (rooms ⟨fun _ => true, fun _ => 7⟩ fun _ => none)
      [.io (.fwrite [97, 98, 99] 1 3 rfl), .fseek 1 .SEEK_SET, .io (.putc 120), .io .fflush]
      (openMemstream 0)).toOption.bind (·.buffer.map (·.take 3)) = some [97, 98, 99] := by
    decide +kernel
  rw [hrun] at hbuffer
  simp only [Except.toOption, Option.bind_some, hmem, Option.map_some] at hbuffer
  rw [show mem.take 3 = [97, 120, 99] from hbytes] at hbuffer
  exact absurd hbuffer (by decide)

end Mintlib.Stdio.Memstream
