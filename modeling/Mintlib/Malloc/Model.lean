import Mintlib.Lib.ByteMemory
import Mintlib.Lib.Linked
import Mintlib.Posix

/-!
# The allocator of `malloc.c`, `realloc.c`, `calloc.c`, `sbrk.c` and `posix_memalign.c`

Addresses and sizes are the machine's 32-bit words, kept as natural numbers;
sums and differences that the code takes modulo `2 ^ 32` are `add32` and `sub32`.
Chunk headers live in memory: `valid`, `next` and `size` at offsets 0, 4 and 8,
and `ALLOC_SIZE` of a border marker at offset 12.

`none` stands for a call that does not return: a list walk that never ends, or
a failed `assert`.
-/

namespace Mintlib.Malloc

open ByteMemory Posix

def add32 (a b : ℕ) : ℕ := (a + b) % 2 ^ 32

def sub32 (a b : ℕ) : ℕ := if b ≤ a then a - b else 2 ^ 32 - (b - a)

theorem add32_of_lt {a b : ℕ} (h : a + b < 2 ^ 32) : add32 a b = a + b := Nat.mod_eq_of_lt h

theorem sub32_of_le {a b : ℕ} (h : b ≤ a) : sub32 a b = a - b := if_pos h

theorem sub32_add_cancel (a b : ℕ) : sub32 (a + b) b = a := by
  rw [sub32_of_le (Nat.le_add_left b a), Nat.add_sub_cancel]

/-- `x & ~(a - 1)`. -/
def alignDown (x a : ℕ) : ℕ := x - (x &&& (a - 1))

abbrev chunkSize : ℕ := 12

abbrev VAL_FREE : ℕ := 0xf4ee0abc
abbrev VAL_ALLOC : ℕ := 0xa11c0abc
abbrev VAL_BORDER : ℕ := 0xb04d0abc

abbrev MALLOC_ALIGNMENT : ℕ := 8

/-- `BORDER_EXTRA`: a header, one `long` for `ALLOC_SIZE`, rounded up. -/
abbrev BORDER_EXTRA : ℕ := 16

def valid (m : Mem) (p : ℕ) : ℕ := load32 m p
def next (m : Mem) (p : ℕ) : ℕ := load32 m (p + 4)
def size (m : Mem) (p : ℕ) : ℕ := load32 m (p + 8)
def allocSize (m : Mem) (p : ℕ) : ℕ := load32 m (p + 12)

def setValid (m : Mem) (p v : ℕ) : Mem := store32 m p v
def setNext (m : Mem) (p v : ℕ) : Mem := store32 m (p + 4) v
def setSize (m : Mem) (p v : ℕ) : Mem := store32 m (p + 8) v
def setAllocSize (m : Mem) (p v : ℕ) : Mem := store32 m (p + 12) v

/-- What the start-up code and the linker fix: where `_mchunk_free_list` is, the
bytes of the program itself (its data, and the heap and stack of `_stksize`
bytes), and the page size that `getpagesize` reports. -/
structure Layout where
  mchunk_free_list : ℕ
  tpa : Extent
  page_size : ℕ
  head_pos : 0 < mchunk_free_list
  head_mem : Extent.Within ⟨mchunk_free_list, chunkSize⟩ tpa
  tpa_fin : tpa.fin < 2 ^ 32
  page_pow : ∃ k, 3 ≤ k ∧ k ≤ 31 ∧ page_size = 2 ^ k

structure Heap where
  mem : Mem
  MINHUNK : ℕ
  MAXHUNK : ℕ
  zeroMallocs : Bool
  heapbase : ℕ
  stksize : ℕ
  split_mem : Bool
  /-- The regions that `Malloc` handed out and `Mfree` has not taken back. -/
  regions : List Extent
  /-- The arguments of the `Mfree` calls so far, the latest first. -/
  mfrees : List ℕ

/-- What the system answers during one library call: `Malloc`'s first and second
result (0 for failure) and the address of the local array `slush` of `HeapAlloc`. -/
structure Os where
  malloc₁ : ℕ
  malloc₂ : ℕ
  sp : ℕ

/-- GEMDOS `Malloc (n)` with the answer `a`. -/
def gemMalloc (a n : ℕ) (h : Heap) : ℕ × Heap :=
  if a = 0 then (0, h) else (a, { h with regions := ⟨a, n⟩ :: h.regions })

/-- GEMDOS `Mfree (p)`. -/
def Mfree (p : ℕ) (h : Heap) : Heap :=
  { h with regions := h.regions.filter fun r => r.base ≠ p, mfrees := p :: h.mfrees }

/-- `!_split_mem && _heapbase != NULL`: memory comes from the program's own heap. -/
def ownHeap (h : Heap) : Bool := !h.split_mem && h.heapbase != 0

def HeapAlloc (os : Os) (sz : ℕ) (h : Heap) : ℕ × Heap :=
  let sz := alignDown (add32 sz 7) 8
  if os.sp < add32 h.heapbase sz then (0, h)
  else (h.heapbase,
    { h with heapbase := add32 h.heapbase sz, stksize := sub32 h.stksize sz })

/-- The first statement of `__sbrk`: where the memory comes from. -/
def sbrkSource (os : Os) (answer n : ℕ) (h : Heap) : ℕ × Heap :=
  if ownHeap h then (if n ≠ 0 then HeapAlloc os n h else (h.heapbase, h))
  else gemMalloc answer n h

abbrev SBRK_FAILED : ℕ := 2 ^ 32 - 1

def sbrk (os : Os) (n : ℕ) (h : Heap) : ℕ × Heap :=
  let (rval, h) := sbrkSource os os.malloc₁ n h
  if rval = 0 then
    if h.split_mem then
      -- the recursive call: `_split_mem` is clear now, so it does not recur again
      let (rval, h) := sbrkSource os os.malloc₂ n { h with split_mem := false }
      if rval = 0 then (SBRK_FAILED, h) else (rval, h)
    else (SBRK_FAILED, h)
  else (rval, h)

/-- Steps granted to a list walk; an ascending list of addresses is shorter. -/
abbrev walkFuel : ℕ := 2 ^ 32 + 1

/-- `while (q && c) { o = p; p = q; q = q->next; }` from the head of the free list. -/
def walkFree (E : Layout) (m : Mem) (c : ℕ → Bool) : Option (ℕ × ℕ × ℕ) :=
  walk 0 (next m) c walkFuel 0 E.mchunk_free_list (next m E.mchunk_free_list)

/-- The bytes of a chunk for a request of `n`: header added, rounded up. -/
def chunkBytes (n : ℕ) : ℕ :=
  alignDown (add32 (add32 n chunkSize) (MALLOC_ALIGNMENT - 1)) MALLOC_ALIGNMENT

/-- The bytes to ask the system for, and `MINHUNK` doubled when it was used. -/
def hunk (E : Layout) (n : ℕ) (h : Heap) : ℕ × Heap :=
  let (sz, h') :=
    if ownHeap h || decide (h.MINHUNK < add32 n BORDER_EXTRA) then
      (if h.heapbase = 0 then add32 n BORDER_EXTRA else n, h)
    else (h.MINHUNK, if h.MINHUNK < h.MAXHUNK then { h with MINHUNK := h.MINHUNK * 2 } else h)
  if h.split_mem || h.heapbase == 0 then
    (alignDown (add32 sz (E.page_size - 1)) E.page_size, h')
  else (sz, h')

/-- The new region `q` of `sz` bytes enters the free list behind a border marker,
or without one when there is a heap of our own. Gives the marker's (or the
predecessor's) address, the new free chunk and the memory. -/
def linkHunk (E : Layout) (q sz : ℕ) (h : Heap) : Option (ℕ × ℕ × Heap) := do
  let (_, p, _) ← walkFree E h.mem fun x => decide (x < q)
  let m := h.mem
  if h.heapbase = 0 then
    let m := setSize m q BORDER_EXTRA
    let sz := sub32 sz BORDER_EXTRA
    let m := setValid m q VAL_BORDER
    let m := setAllocSize m q sz
    let m := setNext m q (add32 q BORDER_EXTRA)
    let m := setNext m (next m q) (next m p)
    let m := setNext m p q
    let p := q
    let q := next m q
    let m := setSize m q sz
    let m := setValid m q VAL_FREE
    some (p, q, { h with mem := m })
  else
    let m := setNext m q (next m p)
    let m := setNext m p q
    let m := setSize m q sz
    let m := setValid m q VAL_FREE
    some (p, q, { h with mem := m })

/-- Take `n` bytes from the end of the free chunk `q` behind `p`, or all of it.
Gives the address of the allocated chunk. -/
def carve (n p q : ℕ) (m : Mem) : ℕ × Mem :=
  if add32 n chunkSize < size m q then
    let m := setSize m q (sub32 (size m q) n)
    let q := add32 q (size m q)
    let m := setSize m q n
    let m := setValid m q VAL_ALLOC
    (q, setNext m q 0)
  else
    let m := setNext m p (next m q)
    let m := setValid m q VAL_ALLOC
    (q, setNext m q 0)

/-- `malloc` once a chunk is found: split or unlink it, clear it if asked to. -/
def handOut (n p q : ℕ) (h : Heap) : ℕ × Heap :=
  let (q, m) := carve n p q h.mem
  let q := add32 q chunkSize
  let m := if h.zeroMallocs then fill m q 0 (sub32 n chunkSize) else m
  (q, { h with mem := m })

def malloc (E : Layout) (os : Os) (n : ℕ) (h : Heap) : Option (ℕ × Heap) := do
  let n := chunkBytes n
  let (_, p, q) ← walkFree E h.mem fun q =>
    decide (size h.mem q < n) || decide (valid h.mem q = VAL_BORDER)
  if q = 0 then
    let (sz, h) := hunk E n h
    let (q, h) := sbrk os sz h
    if q = SBRK_FAILED then some (0, h)
    else
      let (p, q, h) ← linkHunk E q sz h
      some (handOut n p q h)
  else some (handOut n p q h)

/-- `s` points into our own heap and stack. -/
def inReserve (s : ℕ) (h : Heap) : Bool :=
  ownHeap h && decide (h.heapbase ≤ s) && decide (s < add32 h.heapbase h.stksize)

/-- `free`: merge the chunk `r` with its upper neighbour `q`. `none` is the early
return on a corrupt list. -/
def mergeAfter (m : Mem) (r q : ℕ) : Option (Mem × ℕ) :=
  let s := add32 r (size m r)
  if q ≠ 0 ∧ q ≤ s ∧ valid m q ≠ VAL_BORDER then
    if s ≠ q then none
    else
      let m := setSize m r (add32 (size m r) (size m q))
      let q := next m q
      let m := setSize m s 0
      let m := setNext m s 0
      some (m, q)
  else some (m, q)

/-- `free`: the lower neighbour `p` takes the chunk `r` in. If that fills the
region behind the border marker `o`, the region goes back to the system. -/
def mergeBefore (E : Layout) (o p r : ℕ) (h : Heap) : Option Heap := do
  let m := h.mem
  let m := setSize m p (add32 (size m p) (size m r))
  let m := setNext m p (next m r)
  let m := setSize m r 0
  let m := setNext m r 0
  let s := add32 p (size m p)
  if inReserve s h then
    if s ≠ h.heapbase then some { h with mem := m }
    else some { h with mem := setNext m o (next m p), heapbase := p,
                       stksize := add32 h.stksize (size m p) }
  else if valid m o = VAL_BORDER ∧ allocSize m o = size m p then
    let (_, q, s) ← walkFree E m fun x => decide (x < o)
    if s ≠ 0 then
      if s ≠ o then some { h with mem := m }
      else some (Mfree o { h with mem := setNext m q (next m p) })
    else some { h with mem := m }
  else some { h with mem := m }

/-- `free`: link the chunk `r` in behind `p`, whose predecessor is `o`; `q` is
what follows `r`. -/
def linkIn (E : Layout) (o p q r : ℕ) (h : Heap) : Option Heap :=
  let m := h.mem
  let s := add32 p (size m p)
  if q ≠ 0 ∧ r ≤ s ∧ p ≠ E.mchunk_free_list then
    if s ≠ r then some h
    else if valid m p = VAL_BORDER then
      if allocSize m p = size m r then
        some (Mfree p { h with mem := setNext m o (next m r) })
      else some { h with mem := setNext m p r }
    else mergeBefore E o p r h
  else
    let s := add32 r (size m r)
    if inReserve s h then
      if s ≠ h.heapbase then some h
      else some { h with mem := setNext m p (next m r), heapbase := r,
                         stksize := add32 h.stksize (size m r) }
    else some { h with mem := setNext m p r }

def free (E : Layout) (param : ℕ) (h : Heap) : Option Heap :=
  if param = 0 then some h
  else
    let r := sub32 param chunkSize
    if valid h.mem r ≠ VAL_ALLOC then some h
    else do
      let m := setValid h.mem r VAL_FREE
      let (o, p, q) ← walkFree E m fun x => decide (x < r)
      match mergeAfter m r q with
      | none => some { h with mem := m }
      | some (m, q) => linkIn E o p q r { h with mem := setNext m r q }

/-- `realloc` when a new block is needed: allocate, copy `len` bytes, free. -/
def moveBlock (E : Layout) (os : Os) (r n len : ℕ) (h : Heap) : Option (ℕ × Heap) := do
  let (newr, h) ← malloc E os n h
  if newr ≠ 0 then
    let h ← free E r { h with mem := copy h.mem newr r len }
    some (newr, h)
  else some (0, h)

/-- `realloc` to a larger size: swallow the free upper neighbour or move. -/
def grow (E : Layout) (os : Os) (r n sz : ℕ) (h : Heap) : Option (ℕ × Heap) := do
  let p := sub32 r chunkSize
  let m := h.mem
  let (_, q, t) ← walkFree E m fun x => decide (x < p)
  let s := add32 p (size m p)
  if t ≠ 0 ∧ t ≤ s ∧ sz ≤ add32 (size m p) (size m t) ∧ valid m t ≠ VAL_BORDER then
    -- assert (s == t)
    if s = t then
      let m := setSize m p (add32 (size m p) (size m t))
      let m := setNext m q (next m t)
      let m := setSize m t 0
      let m := setNext m t 0
      some (r, { h with mem := m })
    else none
  else moveBlock E os r n (sub32 (size m p) chunkSize) h

/-- `(2 * sizeof (struct mem_chunk) + (MALLOC_ALIGNMENT - 1)) & ~(MALLOC_ALIGNMENT - 1)`. -/
abbrev resizeSlack : ℕ := 24

def realloc (E : Layout) (os : Os) (r n : ℕ) (h : Heap) : Option (ℕ × Heap) :=
  if r = 0 then malloc E os n h
  else if n = 0 then do
    let h ← free E r h
    some (0, h)
  else
    let p := sub32 r chunkSize
    let sz := chunkBytes n
    if add32 sz resizeSlack < size h.mem p then do
      let (newr, h) ← moveBlock E os r n n h
      -- a failed malloc is ignored: the old block is large enough
      some (if newr ≠ 0 then newr else r, h)
    else if size h.mem p < sz then grow E os r n sz h
    else some (r, h)

def calloc (E : Layout) (os : Os) (n sz : ℕ) (h : Heap) : Option (ℕ × Heap) := do
  let total := n * sz % 2 ^ 32
  let (r, h) ← malloc E os total h
  some (r, if r ≠ 0 then { h with mem := fill h.mem r 0 total } else h)

/-- `memalign` and `aligned_alloc`: when the block must move up to be aligned,
a header of its own, marked as not freeable, is written in front of it. -/
def libcMemalign (E : Layout) (os : Os) (alignment sz : ℕ) (h : Heap) : Option (ℕ × Heap) :=
  if alignment ≤ MALLOC_ALIGNMENT then malloc E os sz h
  else do
    let (mem, h) ← malloc E os (sub32 (add32 sz alignment) 1) h
    if mem ≠ 0 ∧ mem &&& (alignment - 1) ≠ 0 then
      let mem := alignDown (sub32 (add32 mem alignment) 1) alignment
      let p := sub32 mem chunkSize
      let m := setValid h.mem p (VAL_ALLOC + 1)
      let m := setNext m p 0
      let m := setSize m p sz
      some (mem, { h with mem := m })
    else some (mem, h)

/-- `powerof2 (x)`: `((x) - 1) & (x)) == 0`. -/
def powerof2 (x : ℕ) : Bool := (sub32 x 1 &&& x) == 0

/-- Gives the return code and what `*memptr` is set to, if it is set. -/
def posixMemalign (E : Layout) (os : Os) (alignment sz : ℕ) (h : Heap) :
    Option ((ℕ × Option ℕ) × Heap) :=
  if alignment % 4 ≠ 0 ∨ powerof2 (alignment / 4) = false ∨ alignment = 0 then
    some ((EINVAL, none), h)
  else do
    let (mem, h) ← libcMemalign E os alignment sz h
    some (if mem ≠ 0 then ((0, some mem), h) else ((ENOMEM, none), h))

end Mintlib.Malloc
