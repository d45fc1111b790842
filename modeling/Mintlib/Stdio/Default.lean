import Mintlib.Stdio.File

/-!
# The default room functions: `internals.c`, and `ungetc.c`

`fillbuf` reads a block into the buffer and `flushbuf` writes it out. A stream that is also
read is primed for writing by reading back the block around its position.
-/

namespace Mintlib.Stdio

open Mintlib.Text Checked

variable {σ : Type} (malloc : ℕ → Option Str)

/-- `__stdio_check_offset` only needs `malloc`. -/
def bare : Rooms σ := ⟨malloc, none, none, true⟩

def seekToTarget (fp : FILE σ) : FILE σ :=
  match stdioCheckOffset (bare malloc) fp with
  | (some .ESPIPE, fp) => fp
  | (some .other, fp) => { fp with error := true }
  | (none, fp) =>
    if fp.target = fp.offset then fp
    else
      match fp.io_funcs.seek with
      | none => { fp with error := true }
      | some seek =>
        match seek fp.cookie fp.target .SEEK_SET with
        | .error _ => { fp with error := true }
        | .ok (pos, cookie) =>
          { fp with offset := pos, cookie := cookie, error := fp.error || pos != fp.target }

/-- The bytes that `read` put at `nread`; without a buffer there is one character. -/
def FILE.fill (fp : FILE σ) (nread : ℕ) (bytes : Str) : Option Str :=
  fp.buffer.map fun mem => mem.take nread ++ bytes ++ mem.drop (nread + bytes.length)

/-- The loop of `fillbuf`: the stream, how much was read, and the last character. -/
def fillLoop (read : σ → ℕ → Option Str × σ) (buffer_offset to_read : ℕ) :
    ℕ → FILE σ → ℕ → UInt8 → Except Stop (FILE σ × ℕ × UInt8)
  | turns, fp, nread, c =>
    if fp.error ∨ fp.eof ∨ buffer_offset < nread then .ok (fp, nread, c)
    else
      match turns with
      | 0 => .error .steps
      | turns + 1 =>
        match read fp.cookie (to_read - nread) with
        | (none, cookie) =>
          fillLoop read buffer_offset to_read turns { fp with cookie := cookie, error := true } nread c
        | (some bytes, cookie) =>
          if bytes = [] then
            fillLoop read buffer_offset to_read turns { fp with cookie := cookie, eof := true } nread c
          else if to_read - nread < bytes.length then .error .bounds
          else
            fillLoop read buffer_offset to_read turns
              { fp with
                cookie := cookie, buffer := fp.fill nread bytes,
                offset := if fp.offset = -1 then -1 else fp.offset + bytes.length }
              (nread + bytes.length) (bytes.getLastD c)

/-- Go to the target file position, at a block boundary; the offset in the block. -/
def toBlock (fp : FILE σ) : FILE σ × ℕ :=
  match stdioCheckOffset (bare malloc) fp with
  | (some _, fp) => (fp, 0)
  | (none, fp) =>
    if fp.target = fp.offset then (fp, 0)
    else
      let buffer_offset := if fp.bufsize = 0 then 0 else fp.target % fp.bufsize
      (seekToTarget malloc { fp with target := fp.target - buffer_offset }, buffer_offset.toNat)

/-- The end of `fillbuf`. -/
def endFill (fp : FILE σ) (nread : ℕ) : Except Stop (Option UInt8 × FILE σ) :=
  if fp.eof ∨ fp.error then .ok (none, { fp with put_limit := 0, get_limit := 0 })
  else
    match fp.buffer.bind (·[fp.bufp]?) with
    | none => .error .bounds
    | some c => .ok (some c, { fp with get_limit := nread, put_limit := 0, bufp := fp.bufp + 1 })

/-- `fillbuf`; `none` is `EOF`. -/
def fillbuf (fp : FILE σ) : Except Stop (Option UInt8 × FILE σ) :=
  match fp.io_funcs.read with
  | none => endFill { fp with eof := true } 0
  | some read => do
    let to_read := if fp.buffer.isNone then 1 else fp.bufsize
    let (fp, buffer_offset) := toBlock malloc { fp with eof := false }
    let (fp, nread, c) ← fillLoop read buffer_offset to_read (to_read + 1) fp 0 0
    if fp.buffer.isNone then .ok (if fp.eof ∨ fp.error then none else some c, fp)
    else endFill { fp with bufp := buffer_offset } nread

/-- What priming for output leaves: the offset in the block, and whether the target and the
reading limit have been set already. -/
structure Priming (σ : Type) where
  fp : FILE σ
  buffer_offset : ℕ
  twiddled : Bool

def readBack (fp : FILE σ) : Except Stop (Option (Priming σ) × FILE σ) := do
  let o := fp.target % fp.bufsize
  let (c, fp) ← fillbuf malloc { fp with target := fp.target - o }
  if c = none ∧ fp.error then .ok (none, fp)
  else
    let fp := { fp with error := false, eof := false }
    if fp.get_limit < o then .ok (some ⟨{ fp with target := fp.target + o }, 0, true⟩, fp)
    else .ok (some ⟨fp, o.toNat, true⟩, fp)

def aligned (fp : FILE σ) : Bool × FILE σ :=
  if fp.buffer.isNone then (true, fp)
  else
    match stdioCheckOffset (bare malloc) fp with
    | (some _, fp) => (true, fp)
    | (none, fp) => (fp.target % fp.bufsize == 0, fp)

/-- The target is where the user is; data recently read from an unseekable object is discarded. -/
def advance (fp : FILE σ) : FILE σ :=
  if fp.target = -1 then { fp with get_limit := 0 }
  else { fp with target := fp.target + fp.bufp }

/-- The target as `flushbuf` finds it, and the block around it in the buffer. -/
def prime (fp : FILE σ) : Except Stop (Option (Priming σ) × FILE σ) :=
  let fp := advance fp
  if fp.mode.read ∧ fp.mode.append = false then
    match aligned malloc fp with
    | (true, fp) => .ok (some ⟨fp, 0, false⟩, fp)
    | (false, fp) => readBack malloc fp
  else .ok (some ⟨fp, 0, false⟩, fp)

/-- The end of `flushbuf`. -/
def endFlush (fp : FILE σ) (buffer_written : ℕ) (twiddled : Bool) : FILE σ :=
  let fp := if twiddled then fp
    else
      { fp with
        target := if fp.target = -1 then -1 else fp.target + buffer_written, get_limit := 0 }
  if fp.eof ∨ fp.error then { fp with bufp := fp.put_limit } else fp

def writeOut (write : σ → Str → ℤ × σ) (fp : FILE σ) (to_write : ℕ) : FILE σ :=
  let fp := if fp.mode.append then fp else seekToTarget malloc fp
  if fp.error then fp
  else
    let (wrote, cookie) := write fp.cookie ((fp.buffer.getD []).take to_write)
    let fp := { fp with cookie := cookie, error := decide (wrote < to_write) }
    if wrote ≤ 0 then fp
    else if fp.mode.append then { fp with offset := -1, target := -1 }
    else { fp with offset := if fp.offset = -1 then -1 else fp.offset + wrote }

def writeLast (write : σ → Str → ℤ × σ) (fp : FILE σ) (c : UInt8) : Except Stop (FILE σ) :=
  if fp.error then .ok fp
  else if fp.buffer.isNone ∨ fp.linebuf ∧ c = NEWLINE then
    let (wrote, cookie) := write fp.cookie [c]
    let fp := { fp with cookie := cookie }
    if wrote < 1 then .ok { fp with error := true }
    else if fp.offset = -1 then .ok fp
    else .ok { fp with offset := fp.offset + 1, target := fp.target + 1 }
  else fp.store c

/-- `flushbuf` of a stream that is primed; `c` is the character that is still to be written. -/
def flushPrimed (fp : FILE σ) (c : Option UInt8) (twiddled : Bool) : Except Stop (FILE σ) :=
  let to_write := if fp.bufp = 0 then 0 else if fp.bufp < fp.get_limit then fp.get_limit else fp.bufp
  match fp.io_funcs.write with
  | none =>
    .ok (endFlush { fp with
      bufp := 0, offset := if fp.offset = -1 then -1 else fp.offset + to_write } fp.bufp twiddled)
  | some write =>
    if to_write = 0 ∧ c = none then
      .ok (endFlush { fp with bufp := 0 } fp.bufp twiddled)
    else do
      let out := { (if 0 < to_write then writeOut malloc write fp to_write else fp) with bufp := 0 }
      match c with
      | none => .ok (endFlush out fp.bufp twiddled)
      | some c => do
        let out ← writeLast write out c
        .ok (endFlush out fp.bufp twiddled)

/-- `flushbuf` once the stream has been primed. -/
def flushPriming (p : Priming σ) (c : Option UInt8) : Except Stop (FILE σ) :=
  if p.fp.buffer.isNone then
    if p.fp.bufp ≤ p.buffer_offset ∧ c = none then .ok (endFlush p.fp 0 p.twiddled)
    else flushPrimed malloc p.fp c p.twiddled
  else
    let fp := { p.fp with put_limit := p.fp.bufsize, bufp := p.buffer_offset }
    match c with
    | none => .ok (endFlush fp 0 p.twiddled)
    | some c => do
      let fp ← fp.store c
      if fp.linebuf = false ∨ c ≠ NEWLINE then .ok (endFlush fp 0 p.twiddled)
      -- the newline is in the buffer already
      else flushPrimed malloc fp none p.twiddled

def flushbuf (fp : FILE σ) (c : Option UInt8) : Except Stop (FILE σ) :=
  if fp.put_limit = 0 then do
    let (priming, fp) ← prime malloc fp
    match priming with
    | none => .ok fp
    | some p => flushPriming malloc p c
  else flushPrimed malloc fp c false

def defaultRooms : Rooms σ := ⟨malloc, some (fillbuf malloc), some (flushbuf malloc), true⟩

/-- The walk over the open streams flushes the line-buffered ones; the others share nothing
with this one. -/
def flushLines (fp : FILE σ) : Except Stop (FILE σ) :=
  if (fp.buffer.isNone ∨ fp.linebuf) ∧ fp.linebuf ∧ fp.mode.write then do
    let (_, fp) ← Stdio.flshfp (defaultRooms malloc) fp none
    .ok fp
  else .ok fp

def flushWritten (fp : FILE σ) : Except Stop (FILE σ) :=
  if 0 < fp.put_limit then flushbuf malloc fp none else .ok fp

/-- `__fillbf` of a stream without a character that was pushed back. -/
def fillNext (fp : FILE σ) : Except Stop (Option UInt8 × FILE σ) := do
  let fp ← flushLines malloc (initStream (bare malloc) fp)
  let fp := if fp.linebuf_active then
    { fp with put_limit := fp.bufsize, linebuf_active := false } else fp
  let new_target := fp.target + fp.get_limit
  let fp ← flushWritten malloc fp
  let fp := { fp with target := new_target }
  if fp.error then .ok (none, fp)
  else do
    let (c, fp) ← fillbuf malloc fp
    .ok (c, if fp.buffer.isNone then { fp with target := fp.target + 1 } else fp)

def fillbf (fp : FILE σ) : Except Stop (Option UInt8 × FILE σ) :=
  if fp.mode.read = false then .ok (none, fp)
  else if fp.pushed_back then
    .ok (some fp.pushback, { fp with bufp := fp.pushback_bufp, pushed_back := false })
  else fillNext malloc fp

def getc (stream : FILE σ) : Except Stop (Option UInt8 × FILE σ) :=
  if stream.bufp < stream.get_limit then
    match stream.buffer.bind (·[stream.bufp]?) with
    | none => .error .bounds
    | some c => .ok (some c, { stream with bufp := stream.bufp + 1 })
  else fillbf malloc stream

/-- `ungetc` behind its flush. -/
def pushBack (stream : FILE σ) (c : UInt8) : FILE σ :=
  { stream with
    pushback := c, pushed_back := true, pushback_bufp := stream.bufp, bufp := stream.get_limit,
    eof := false }

/-- `ungetc` of a character. -/
def ungetc (c : UInt8) (stream : FILE σ) : Except Stop (ℤ × FILE σ) :=
  if stream.mode.read = false then .ok (EOF, stream)
  else if stream.pushed_back then .ok (EOF, stream)
  else if stream.linebuf_active ∨ 0 < stream.put_limit then do
    let (r, stream) ← Stdio.flshfp (defaultRooms malloc) stream none
    if r = EOF then .ok (EOF, stream) else .ok (c.toNat, pushBack stream c)
  else .ok (c.toNat, pushBack stream c)

end Mintlib.Stdio
