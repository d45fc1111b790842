import Mintlib.Lib.Text
import Mintlib.Lib.Checked

/-!
# Streams: `internals.c`, `fwrite.c`, `fflush.c`, `fseek.c`, `ftell.c`

A pointer into the buffer is its distance from `__buffer`. The room functions of a stream
are a parameter, so that the same `__flshfp` and `fwrite` serve files and strings.
-/

namespace Mintlib.Stdio

open Mintlib.Text Checked

abbrev EOF : ℤ := -1

inductive Whence
  | SEEK_SET
  | SEEK_CUR
  | SEEK_END
deriving DecidableEq

/-- What a seek function that fails leaves in `errno`. -/
inductive SeekError
  | ESPIPE
  | other
deriving DecidableEq

structure IoMode where
  read : Bool
  write : Bool
  append : Bool

/-- `__io_functions`: `read` gives the bytes it read or fails. -/
structure IoFunctions (σ : Type) where
  read : Option (σ → ℕ → Option Str × σ)
  write : Option (σ → Str → ℤ × σ)
  seek : Option (σ → ℤ → Whence → Except SeekError (ℤ × σ))

/-- `struct __stdio_file`, of a stream whose functions are set. -/
structure FILE (σ : Type) where
  bufp : ℕ
  get_limit : ℕ
  put_limit : ℕ
  buffer : Option Str
  bufsize : ℕ
  cookie : σ
  mode : IoMode
  io_funcs : IoFunctions σ
  offset : ℤ
  target : ℤ
  pushback_bufp : ℕ
  pushback : UInt8
  pushed_back : Bool
  eof : Bool
  error : Bool
  userbuf : Bool
  linebuf : Bool
  linebuf_active : Bool

/-- `__room_functions`, with `malloc` for a buffer; whether `__output` is `flushbuf`. -/
structure Rooms (σ : Type) where
  malloc : ℕ → Option Str
  input : Option (FILE σ → Except Stop (Option UInt8 × FILE σ))
  output : Option (FILE σ → Option UInt8 → Except Stop (FILE σ))
  default_func : Bool

def ownRooms {σ : Type} (malloc : ℕ → Option Str)
    (input : Option (FILE σ → Except Stop (Option UInt8 × FILE σ)))
    (output : FILE σ → Option UInt8 → Except Stop (FILE σ)) : Rooms σ where
  malloc := malloc
  input := input
  output := some output
  default_func := false

/-- Which requests of `malloc` and `realloc` are granted, named by their sizes or their numbers, and
what new memory holds. -/
structure Heap where
  alloc : ℕ → Bool
  junk : ℕ → UInt8

variable {σ : Type} (rooms : Rooms σ)

abbrev MIN_BUFSIZE : ℕ := 128

def pickBuffer (malloc : ℕ → Option Str) : ℕ → ℕ → Option Str × ℕ
  | 0, bufsize => (none, bufsize)
  | turns + 1, bufsize =>
    if MIN_BUFSIZE ≤ bufsize then
      match malloc bufsize with
      | none => pickBuffer malloc turns (bufsize / 2)
      | some buffer => (some buffer, bufsize)
    else (none, bufsize)

def initStream (fp : FILE σ) : FILE σ :=
  if fp.buffer.isNone ∧ fp.userbuf = false then
    let bufsize := if fp.bufsize = 0 then 1024 else fp.bufsize
    match pickBuffer rooms.malloc bufsize bufsize with
    | (none, _) => { fp with userbuf := true, bufsize := 0 }
    | (some buffer, bufsize) => { fp with buffer := some buffer, bufsize := bufsize }
  else fp

/-- The second half of `__stdio_check_offset`. -/
def setTarget (stream : FILE σ) : FILE σ :=
  if stream.target = -1 then { stream with target := stream.offset } else stream

/-- `__stdio_check_offset`: `errno`, or nothing if it returns 0. -/
def stdioCheckOffset (stream : FILE σ) : Option SeekError × FILE σ :=
  let stream := initStream rooms stream
  if stream.offset = -1 then
    match stream.io_funcs.seek with
    | none => (some .ESPIPE, stream)
    | some seek =>
      match seek stream.cookie 0 .SEEK_CUR with
      | .error .ESPIPE =>
        (some .ESPIPE, { stream with io_funcs := { stream.io_funcs with seek := none } })
      | .error .other => (some .other, stream)
      | .ok (pos, cookie) => (none, setTarget { stream with offset := pos, cookie := cookie })
  else (none, setTarget stream)

/-- `*fp->__bufp++ = c`. -/
def FILE.store (fp : FILE σ) (c : UInt8) : Except Stop (FILE σ) :=
  match fp.buffer with
  | none => .error .bounds
  | some mem =>
    if fp.bufp < mem.length then
      .ok { fp with buffer := some (mem.set fp.bufp c), bufp := fp.bufp + 1 }
    else .error .bounds

/-- `*fp->__bufp = c`. -/
def FILE.poke (fp : FILE σ) (c : UInt8) : Except Stop (FILE σ) :=
  match fp.buffer with
  | none => .error .bounds
  | some mem =>
    if fp.bufp < mem.length then .ok { fp with buffer := some (mem.set fp.bufp c) }
    else .error .bounds

/-- Discard the character that `ungetc` pushed back. -/
def FILE.discard (fp : FILE σ) : FILE σ :=
  if fp.pushed_back then { fp with bufp := fp.pushback_bufp, pushed_back := false } else fp

/-- The end of `__flshfp`: make room in the buffer. -/
def makeRoom (output : FILE σ → Option UInt8 → Except Stop (FILE σ)) (fp : FILE σ)
    (c : Option UInt8) : Except Stop (ℤ × FILE σ) := do
  let fp ← output (if fp.linebuf_active then { fp with put_limit := fp.bufsize } else fp) c
  let fp := if fp.linebuf then { fp with put_limit := 0, linebuf_active := true } else fp
  if fp.error then .ok (EOF, fp)
  else
    match c with
    | none => .ok (0, fp)
    | some c => .ok (c.toNat, fp)

/-- `__flshfp` behind its checks. -/
def flushOrPut (output : FILE σ → Option UInt8 → Except Stop (FILE σ)) (fp : FILE σ) :
    Option UInt8 → Except Stop (ℤ × FILE σ)
  | none => makeRoom output fp none
  | some c =>
    if fp.bufp < (if fp.linebuf_active then fp.bufsize else fp.put_limit) then do
      let fp ← fp.store c
      if fp.linebuf ∧ c = NEWLINE then makeRoom output fp none
      else .ok (c.toNat, fp)
    else makeRoom output fp (some c)

/-- `__flshfp`; `none` is `EOF`. -/
def flshfp (fp : FILE σ) (c : Option UInt8) : Except Stop (ℤ × FILE σ) :=
  if fp.mode.write = false then .ok (EOF, fp)
  else if fp.error then .ok (EOF, fp)
  else
    let fp := initStream rooms fp.discard
    match rooms.output with
    | none => .ok (EOF, { fp with error := true })
    | some output => flushOrPut output fp c

def putc (c : UInt8) (stream : FILE σ) : Except Stop (ℤ × FILE σ) :=
  if stream.bufp < stream.put_limit then do
    let stream ← stream.store c
    .ok (c.toNat, stream)
  else flshfp rooms stream (some c)

def fflush (stream : FILE σ) : Except Stop (ℤ × FILE σ) :=
  if stream.mode.read ∧ stream.mode.write = false then .ok (0, stream)
  else flshfp rooms stream none

def FILE.copy (stream : FILE σ) : Str → Except Stop (FILE σ)
  | [] => .ok stream
  | c :: p => do
    let stream ← stream.store c
    stream.copy p

/-- `buffer_space`; `__bufp` does not lie behind the buffer. -/
def FILE.space (stream : FILE σ) : ℕ := stream.bufsize - stream.bufp

/-- Where a loop of `fwrite` goes on: the rest of the data and what was written, or `done`. -/
structure Progress (σ : Type) where
  stream : FILE σ
  p : Str
  written : ℕ
  done : Bool

/-- `check_space`: one character at a time until there is room in the buffer. -/
def checkSpace (stream : FILE σ) (written : ℕ) : Str → Except Stop (Progress σ)
  | [] => if stream.space = 0 then .error .bounds else .ok ⟨stream, [], written, false⟩
  | c :: p =>
    if stream.space = 0 then do
      let (r, stream) ← flshfp rooms stream (some c)
      if r = EOF then .ok ⟨stream, p, written, true⟩
      else checkSpace stream (written + 1) p
    else .ok ⟨stream, c :: p, written, false⟩

def flushFull (stream : FILE σ) (p : Str) (written : ℕ) : Except Stop (Progress σ) := do
  let (r, stream) ← fflush rooms stream
  if r = EOF then .ok ⟨stream, p, written, true⟩
  else checkSpace rooms stream written p

def fillBuffer : ℕ → FILE σ → ℕ → Str → ℕ → Except Stop (ℕ × FILE σ)
  | _, stream, _, [], written => .ok (written, stream)
  | 0, _, _, _ :: _, _ => .error .steps
  | turns + 1, stream, buffer_space, c :: p, written => do
    let n := min (c :: p).length buffer_space
    let stream ← stream.copy ((c :: p).take n)
    let rest := (c :: p).drop n
    if rest = [] then .ok (written + n, stream)
    else if buffer_space - n = 0 then do
      let go ← flushFull rooms stream rest (written + n)
      if go.done then .ok (go.written, go.stream)
      else fillBuffer turns go.stream go.stream.space go.p go.written
    else fillBuffer turns stream (buffer_space - n) rest (written + n)

/-- `write_through`: a straight write. -/
def writeThrough (stream : FILE σ) (p : Str) (written : ℕ) : ℕ × FILE σ :=
  let (count, cookie) :=
    match stream.io_funcs.write with
    | none => ((p.length : ℤ), stream.cookie)
    | some write => write stream.cookie p
  let stream := { stream with cookie := cookie }
  if 0 < count then
    (written + count.toNat,
      if stream.offset = -1 then stream
      else { stream with offset := stream.offset + count, target := stream.offset + count })
  else (written, { stream with error := true })

/-- The loop for a stream without a buffer and with a special function. -/
def putLoop : FILE σ → Str → ℕ → Except Stop (ℕ × FILE σ)
  | stream, [], written => .ok (written, stream)
  | stream, c :: p, written => do
    let (r, stream) ← flshfp rooms stream (some c)
    if r = EOF then .ok (written, stream) else putLoop stream p (written + 1)

/-- `fill_buffer` and the flush of a line behind it. -/
def fillAndFlush (stream : FILE σ) (p : Str) (written : ℕ) (newlinep : Bool) :
    Except Stop (ℕ × FILE σ) := do
  let (written, stream) ← fillBuffer rooms (2 * p.length + 1) stream stream.space p written
  if newlinep then do
    let (_, stream) ← fflush rooms stream
    .ok (written, stream)
  else .ok (written, stream)

def writeLarge (stream : FILE σ) (p : Str) (written : ℕ) (newlinep : Bool) :
    Except Stop (ℕ × FILE σ) := do
  let (r, stream) ← if stream.bufp = 0 then .ok (0, stream) else flshfp rooms stream none
  if r = EOF then .ok (written, stream)
  else if stream.offset = stream.target ∧ (stream.space < p.length ∨ newlinep) then
    .ok (writeThrough stream p written)
  else fillAndFlush rooms stream p written newlinep

/-- `fwrite` of a stream that is ready for it: what is left of the data, and what was written. -/
def writeRest (stream : FILE σ) (p : Str) (written : ℕ) : Except Stop (ℕ × FILE σ) :=
  match stdioCheckOffset rooms stream with
  | (some .other, stream) => .ok (written, { stream with error := true })
  | (_, stream) =>
    let newlinep := stream.linebuf && p.contains NEWLINE
    if stream.buffer.isNone ∧ rooms.default_func ∧ stream.offset = stream.target then
      .ok (writeThrough stream p written)
    else if newlinep ∧ stream.bufp = 0 ∧ stream.offset = stream.target then
      .ok (writeThrough stream p written)
    else if stream.bufsize = 0 ∧ rooms.default_func = false then putLoop rooms stream p written
    else if rooms.default_func = false ∨ p.length ≤ stream.space then
      fillAndFlush rooms stream p written newlinep
    else writeLarge rooms stream p written newlinep

/-- `fwrite` of the `size * nmemb` bytes of `ptr`. -/
def fwrite (ptr : Str) (size : ℕ) (stream : FILE σ) : Except Stop (ℕ × FILE σ) :=
  if stream.mode.write = false ∨ stream.error then .ok (0, stream)
  else
    match ptr with
    | [] => .ok (0, stream)
    | c :: p =>
      if stream.put_limit = 0 then do
        let (r, stream) ← flshfp rooms stream (some c)
        if r = EOF then .ok (0, stream)
        else if p = [] then .ok (1, stream)
        else do
          let (written, stream) ← writeRest rooms stream p 1
          .ok (written / size, stream)
      else do
        let (written, stream) ← writeRest rooms stream (c :: p) 0
        .ok (written / size, stream)

/-- `fseek` behind its switch: `o` is an absolute position. -/
def seekTo (stream : FILE σ) (o : ℤ) : ℤ × FILE σ :=
  if o < 0 then (EOF, stream)
  else
    let stream := { stream with
      target := o, bufp := 0, get_limit := 0, put_limit := 0, linebuf_active := false }
    match stream.io_funcs.seek with
    | none => (EOF, stream)
    | some seek =>
      match seek stream.cookie o .SEEK_SET with
      | .error .ESPIPE => (EOF, { stream with io_funcs := { stream.io_funcs with seek := none } })
      | .error .other => (EOF, stream)
      | .ok (pos, cookie) => (0, { stream with offset := pos, cookie := cookie })

/-- The switch of `fseek`. -/
def seekWhence (stream : FILE σ) (offset : ℤ) : Whence → ℤ × FILE σ
  | .SEEK_SET => seekTo stream offset
  | .SEEK_END =>
    match stream.io_funcs.seek with
    | none => (EOF, stream)
    | some seek =>
      match seek stream.cookie offset .SEEK_END with
      | .error .ESPIPE => (EOF, { stream with io_funcs := { stream.io_funcs with seek := none } })
      | .error .other => (EOF, stream)
      | .ok (pos, cookie) => seekTo { stream with offset := pos, cookie := cookie } pos
  | .SEEK_CUR => seekTo stream (offset + stream.bufp + stream.target)

/-- `fseek` behind the flush. -/
def seekFlushed (stream : FILE σ) (offset : ℤ) (whence : Whence) : ℤ × FILE σ :=
  match stdioCheckOffset rooms { stream with offset := -1 } with
  | (some _, stream) => (EOF, stream)
  | (none, stream) => seekWhence { stream with eof := false }.discard offset whence

def fseek (stream : FILE σ) (offset : ℤ) (whence : Whence) : Except Stop (ℤ × FILE σ) := do
  let (r, stream) ← if stream.mode.write then flshfp rooms stream none else .ok (0, stream)
  if r = EOF then .ok (EOF, stream)
  else .ok (seekFlushed rooms stream offset whence)

def ftell (stream : FILE σ) : ℤ × FILE σ :=
  match stdioCheckOffset rooms stream with
  | (some _, stream) => (-1, stream)
  | (none, stream) =>
    (stream.target + (if stream.pushed_back then (stream.pushback_bufp : ℤ) - 1 else stream.bufp),
      stream)

end Mintlib.Stdio
