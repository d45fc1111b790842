import Mintlib.Lib.Text
import Mintlib.Lib.Checked
import Mintlib.Posix

/-!
# Reading and writing vectors: `readv.c` and `writev.c`

Both try a call of the kernel, then a message without a name, and at last one `read` or `write`
through a buffer as long as all the parts together.
-/

namespace Mintlib.Vectors

open Mintlib.Text Posix
open Checked (Stop)

/-- The calls of the kernel for one descriptor, in a state `κ`. Those that fill buffers take and
give back their contents. -/
structure Kernel (κ : Type) where
  Freadv : List Str → κ → ℤ × List Str × κ
  Fwritev : List Str → κ → ℤ × κ
  Frecvmsg : List Str → κ → ℤ × List Str × κ
  Fsendmsg : List Str → κ → ℤ × κ
  /-- `Fcntl (fd, &cmd, SOCKETCALL)` with `RECVMSG_CMD` or `SENDMSG_CMD`. -/
  recvmsgCmd : List Str → κ → ℤ × List Str × κ
  sendmsgCmd : List Str → κ → ℤ × κ
  /-- `read` and `write`: the bytes or their number, or `errno`. -/
  read : ℕ → κ → Except ℤ Str × κ
  write : Str → κ → Except ℤ ℕ × κ
  read_le : ∀ n k bytes k', read n k = (.ok bytes, k') → bytes.length ≤ n ∧ bytes.length < 2 ^ 31

/-- The calls of `read` and `write` that were made. -/
inductive Call
  | read (n : ℕ)
  | write (bytes : Str)
deriving DecidableEq

/-- What a function returns, or `errno`; what is in the buffers then; and the calls it made. -/
structure Outcome (κ : Type) where
  answer : Except ℤ ℤ
  bufs : List Str
  kernel : κ
  calls : List Call

variable {κ : Type}

/-- `recvmsg` without a name; the flag is `__libc_newsockets`. -/
def recvmsg (K : Kernel κ) (newsockets : Bool) (bufs : List Str) (k : κ) :
    Except ℤ ℤ × List Str × κ :=
  let emulated (bufs : List Str) (k : κ) : Except ℤ ℤ × List Str × κ :=
    let (r, bufs, k) := K.recvmsgCmd bufs k
    (toAnswer r, bufs, k)
  if newsockets then
    let (r, bufs, k) := K.Frecvmsg bufs k
    if r ≠ -ENOSYS then (toAnswer r, bufs, k) else emulated bufs k
  else emulated bufs k

/-- `sendmsg` without a name. -/
def sendmsg (K : Kernel κ) (newsockets : Bool) (bufs : List Str) (k : κ) : Except ℤ ℤ × κ :=
  let emulated (k : κ) : Except ℤ ℤ × κ :=
    let (r, k) := K.sendmsgCmd bufs k
    (toAnswer r, k)
  if newsockets then
    let (r, k) := K.Fsendmsg bufs k
    if r ≠ -ENOSYS then (toAnswer r, k) else emulated k
  else emulated k

/-- `size`, as it is passed on. -/
def total (bufs : List Str) : ℕ := (bufs.map List.length).sum % 2 ^ 32

def scatterLoop : Str → List Str → Except Stop (List Str)
  | [], bufs => .ok bufs
  | _ :: _, [] => .error .bounds
  | c :: p, buf :: bufs => do
    let size := (c :: p).length
    let copy := if buf.length < size then buf.length else size
    let bufs ← scatterLoop ((c :: p).drop copy) bufs
    .ok (((c :: p).take copy ++ buf.drop copy) :: bufs)

/-- The loop that puts the bytes together in a block of `room` bytes. -/
def gatherLoop (room : ℕ) : List Str → Str → Except Stop Str
  | [], block => .ok block
  | buf :: bufs, block =>
    if block.length + buf.length ≤ room then gatherLoop room bufs (block ++ buf)
    else .error .bounds

/-- The last part of `readv`. No length is negative, so there is no `EINVAL`. -/
def readBlock (K : Kernel κ) (malloc : ℕ → Bool) (bufs : List Str) (k : κ) :
    Except Stop (Outcome κ) :=
  if malloc (total bufs) then
    match K.read (total bufs) k with
    | (.error errno, k) => .ok ⟨.error errno, bufs, k, [.read (total bufs)]⟩
    | (.ok p, k) => do
      let filled ← scatterLoop p bufs
      .ok ⟨.ok p.length, filled, k, [.read (total bufs)]⟩
  else .ok ⟨.error ENOMEM, bufs, k, []⟩

/-- The last part of `writev`. -/
def writeBlock (K : Kernel κ) (malloc : ℕ → Bool) (bufs : List Str) (k : κ) :
    Except Stop (Outcome κ) :=
  if malloc (total bufs) then do
    let block ← gatherLoop (total bufs) bufs []
    let (r, k) := K.write block k
    .ok ⟨r.map (↑), bufs, k, [.write block]⟩
  else .ok ⟨.error ENOMEM, bufs, k, []⟩

/-- `readv`: `newsockets` is `__libc_newsockets`, and `malloc` says which sizes can be had. -/
def readv (K : Kernel κ) (malloc : ℕ → Bool) (newsockets : Bool) (bufs : List Str) (k : κ) :
    Except Stop (Outcome κ) :=
  let message (bufs : List Str) (k : κ) : Except Stop (Outcome κ) :=
    match recvmsg K false bufs k with
    | (.ok r, bufs, k) => .ok ⟨.ok r, bufs, k, []⟩
    | (.error errno, bufs, k) =>
      -- the sign is wrong
      if errno ≠ -ENOSYS then .ok ⟨.error errno, bufs, k, []⟩ else readBlock K malloc bufs k
  if newsockets then
    let (r, bufs, k) := K.Freadv bufs k
    if r ≠ -ENOSYS then .ok ⟨toAnswer r, bufs, k, []⟩ else message bufs k
  else message bufs k

def writev (K : Kernel κ) (malloc : ℕ → Bool) (newsockets : Bool) (bufs : List Str) (k : κ) :
    Except Stop (Outcome κ) :=
  let message (k : κ) : Except Stop (Outcome κ) :=
    match sendmsg K false bufs k with
    | (.ok r, k) => .ok ⟨.ok r, bufs, k, []⟩
    | (.error errno, k) =>
      if errno ≠ ENOSYS then .ok ⟨.error errno, bufs, k, []⟩ else writeBlock K malloc bufs k
  if newsockets then
    let (r, k) := K.Fwritev bufs k
    if r ≠ -ENOSYS then .ok ⟨toAnswer r, bufs, k, []⟩ else message k
  else message k

/-- The kernel knows none of the calls for vectors and messages. -/
structure Unsupported (K : Kernel κ) : Prop where
  readv : ∀ bufs k, K.Freadv bufs k = (-ENOSYS, bufs, k)
  writev : ∀ bufs k, K.Fwritev bufs k = (-ENOSYS, k)
  recvmsg : ∀ bufs k, K.recvmsgCmd bufs k = (-ENOSYS, bufs, k)
  sendmsg : ∀ bufs k, K.sendmsgCmd bufs k = (-ENOSYS, k)

def scatter : Str → List Str → List Str
  | _, [] => []
  | p, buf :: bufs => (p.take buf.length ++ buf.drop p.length) :: scatter (p.drop buf.length) bufs

/-- One `read` of the whole length. -/
def oneRead (K : Kernel κ) (bufs : List Str) (k : κ) : Outcome κ :=
  let n := (bufs.map List.length).sum
  match K.read n k with
  | (.error errno, k) => ⟨.error errno, bufs, k, [.read n]⟩
  | (.ok p, k) => ⟨.ok p.length, scatter p bufs, k, [.read n]⟩

/-- One `write` of all the buffers. -/
def oneWrite (K : Kernel κ) (bufs : List Str) (k : κ) : Outcome κ :=
  let (r, k) := K.write bufs.flatten k
  ⟨r.map (↑), bufs, k, [.write bufs.flatten]⟩

section Blocks

variable {K : Kernel κ} {malloc : ℕ → Bool} {bufs bufs' : List Str} {k : κ} {p : Str} {room : ℕ}

theorem scatter_nil (bufs : List Str) : scatter [] bufs = bufs := by
  induction bufs with
  | nil => rfl
  | cons buf bufs ih => rw [scatter, List.take_nil, List.drop_nil, ih]; rfl

theorem scatterLoop_eq (bufs : List Str) : ∀ p : Str, p.length ≤ (bufs.map List.length).sum →
    scatterLoop p bufs = .ok (scatter p bufs) := by
  induction bufs with
  | nil =>
    intro p hp
    rw [List.length_eq_zero_iff.mp (Nat.le_zero.mp hp)]
    rfl
  | cons buf bufs ih =>
    intro p hp
    cases p with
    | nil => rw [scatter_nil]; rfl
    | cons c p =>
      rw [List.map_cons, List.sum_cons] at hp
      have hcopy : (if buf.length < (c :: p).length then buf.length else (c :: p).length) =
          min buf.length (c :: p).length := by
        split_ifs with h
        · exact (min_eq_left h.le).symm
        · exact (min_eq_right (not_lt.mp h)).symm
      have htake : (c :: p).take (min buf.length (c :: p).length) = (c :: p).take buf.length := by
        rcases le_total buf.length (c :: p).length with h | h
        · rw [min_eq_left h]
        · rw [min_eq_right h, List.take_length, List.take_of_length_le h]
      have hdrop : buf.drop (min buf.length (c :: p).length) = buf.drop (c :: p).length := by
        rcases le_total buf.length (c :: p).length with h | h
        · rw [min_eq_left h, List.drop_length, List.drop_of_length_le h]
        · rw [min_eq_right h]
      have hrest : (c :: p).drop (min buf.length (c :: p).length) = (c :: p).drop buf.length := by
        rcases le_total buf.length (c :: p).length with h | h
        · rw [min_eq_left h]
        · rw [min_eq_right h, List.drop_length, List.drop_of_length_le h]
      rw [scatterLoop]
      simp only [hcopy, htake, hdrop, hrest]
      rw [ih _ (by rw [List.length_drop]; omega), scatter]
      rfl

variable (room) in
theorem gatherLoop_eq (bufs : List Str) : ∀ block : Str,
    (block.length + (bufs.map List.length).sum ≤ room →
      gatherLoop room bufs block = .ok (block ++ bufs.flatten)) ∧
    (room < block.length + (bufs.map List.length).sum → block.length ≤ room →
      gatherLoop room bufs block = .error .bounds) := by
  induction bufs with
  | nil =>
    intro block
    refine ⟨fun _ => by rw [gatherLoop, List.flatten_nil, List.append_nil], fun hlt hle => ?_⟩
    rw [List.map_nil, List.sum_nil] at hlt
    omega
  | cons buf bufs ih =>
    intro block
    obtain ⟨hfits, hover⟩ := ih (block ++ buf)
    rw [List.length_append, Nat.add_assoc] at hfits hover
    rw [List.map_cons, List.sum_cons, gatherLoop]
    constructor
    · intro hle
      rw [if_pos (by omega), hfits hle, List.flatten_cons, List.append_assoc]
    · intro hlt _
      by_cases hle : block.length + buf.length ≤ room
      · rw [if_pos hle]
        exact hover hlt hle
      · rw [if_neg hle]

theorem scatter_flatten (h : bufs'.map List.length = bufs.map List.length) :
    scatter bufs.flatten bufs' = bufs := by
  induction bufs generalizing bufs' with
  | nil =>
    rw [List.map_nil, List.map_eq_nil_iff] at h
    rw [h]
    rfl
  | cons buf bufs ih =>
    cases bufs' with
    | nil => cases h
    | cons buf' bufs' =>
      rw [List.map_cons, List.map_cons, List.cons.injEq] at h
      obtain ⟨hlen, hrest⟩ := h
      have hdrop : buf'.drop (buf :: bufs).flatten.length = [] := by
        refine List.drop_of_length_le ?_
        rw [List.flatten_cons, List.length_append]
        omega
      rw [scatter, hdrop, List.append_nil, hlen, List.flatten_cons, List.take_left, List.drop_left,
        ih hrest]

theorem total_eq (h : (bufs.map List.length).sum < 2 ^ 32) :
    total bufs = (bufs.map List.length).sum :=
  Nat.mod_eq_of_lt h

theorem readBlock_eq (hm : malloc (total bufs) = true) (h : (bufs.map List.length).sum < 2 ^ 32) :
    readBlock K malloc bufs k = .ok (oneRead K bufs k) := by
  rw [readBlock, if_pos hm, oneRead]
  simp only [total_eq h]
  rcases hread : K.read (bufs.map List.length).sum k with ⟨_ | p, k'⟩
  · rfl
  · obtain ⟨hle, -⟩ := K.read_le _ _ _ _ hread
    simp only [scatterLoop_eq bufs p hle]
    rfl

theorem writeBlock_iff :
    writeBlock K malloc bufs k = .ok (oneWrite K bufs k) ↔
      malloc (total bufs) = true ∧ (bufs.map List.length).sum < 2 ^ 32 := by
  obtain ⟨hfits, hover⟩ := gatherLoop_eq (total bufs) bufs []
  rw [List.length_nil, Nat.zero_add] at hfits hover
  rw [writeBlock]
  by_cases hm : malloc (total bufs) = true
  · rw [if_pos hm]
    by_cases h : (bufs.map List.length).sum < 2 ^ 32
    · rw [hfits (total_eq h).ge, List.nil_append]
      exact ⟨fun _ => ⟨hm, h⟩, fun _ => rfl⟩
    · have hwrap : total bufs < (bufs.map List.length).sum :=
        lt_of_lt_of_le (Nat.mod_lt _ (by decide)) (not_lt.mp h)
      rw [hover hwrap (Nat.zero_le _)]
      exact ⟨fun heq => (nomatch heq), fun heq => absurd heq.2 h⟩
  · rw [if_neg hm]
    refine ⟨fun heq => ?_, fun heq => absurd heq.1 hm⟩
    -- nothing was written
    have hcalls := congrArg Outcome.calls (Except.ok.inj heq)
    rw [oneWrite] at hcalls
    cases hcalls

end Blocks

section Fallback

variable {K : Kernel κ} {malloc : ℕ → Bool} {newsockets : Bool} {bufs : List Str} {k : κ}

theorem readv_unsupported (h : Unsupported K) :
    readv K malloc newsockets bufs k = .ok ⟨.error ENOSYS, bufs, k, []⟩ := by
  have hmessage : recvmsg K false bufs k = (.error ENOSYS, bufs, k) := by
    simp only [recvmsg, h.recvmsg, Bool.false_eq_true, if_false]
    rfl
  cases newsockets with
  | false =>
    simp only [readv, hmessage, Bool.false_eq_true, if_false]
    rfl
  | true =>
    simp only [readv, h.readv, hmessage, if_true]
    rfl

theorem writev_unsupported (h : Unsupported K) :
    writev K malloc newsockets bufs k = writeBlock K malloc bufs k := by
  have hmessage : sendmsg K false bufs k = (.error ENOSYS, k) := by
    simp only [sendmsg, h.sendmsg, Bool.false_eq_true, if_false]
    rfl
  cases newsockets with
  | false =>
    simp only [writev, hmessage, Bool.false_eq_true, if_false]
    rfl
  | true =>
    simp only [writev, h.writev, hmessage, if_true]
    rfl

theorem oneRead_calls (K : Kernel κ) (bufs : List Str) (k : κ) :
    (oneRead K bufs k).calls = [.read (bufs.map List.length).sum] := by
  rw [oneRead]
  rcases K.read (bufs.map List.length).sum k with ⟨_ | p, k'⟩ <;> rfl

/-- Where the kernel knows no calls for vectors and messages, `readv` is never one `read`: it fails
before that, although its last part would be right. `writev` is one `write` whenever the block can
be had and its length does not wrap around. -/
theorem vectors_iff (h : Unsupported K) (malloc : ℕ → Bool) (newsockets : Bool) (bufs : List Str)
    (k : κ) :
    readv K malloc newsockets bufs k ≠ .ok (oneRead K bufs k) ∧
    (malloc (total bufs) = true → (bufs.map List.length).sum < 2 ^ 32 →
      readBlock K malloc bufs k = .ok (oneRead K bufs k)) ∧
    (writev K malloc newsockets bufs k = .ok (oneWrite K bufs k) ↔
      malloc (total bufs) = true ∧ (bufs.map List.length).sum < 2 ^ 32) ∧
    ∀ bufs', bufs'.map List.length = bufs.map List.length → scatter bufs.flatten bufs' = bufs := by
  refine ⟨fun heq => ?_, readBlock_eq, ?_, fun bufs' => scatter_flatten⟩
  · rw [readv_unsupported h] at heq
    have hcalls := congrArg Outcome.calls (Except.ok.inj heq)
    rw [oneRead_calls] at hcalls
    cases hcalls
  · rw [writev_unsupported h]
    exact writeBlock_iff

end Fallback

def pipe : Kernel Str where
  Freadv bufs k := (-ENOSYS, bufs, k)
  Fwritev _ k := (-ENOSYS, k)
  Frecvmsg bufs k := (-ENOSYS, bufs, k)
  Fsendmsg _ k := (-ENOSYS, k)
  recvmsgCmd bufs k := (-ENOSYS, bufs, k)
  sendmsgCmd _ k := (-ENOSYS, k)
  read n k := (.ok (k.take (min n (2 ^ 31 - 1))), k.drop (min n (2 ^ 31 - 1)))
  write bytes k := (.ok bytes.length, k ++ bytes)
  read_le n k bytes k' h := by
    rw [Prod.mk.injEq, Except.ok.injEq] at h
    rw [← h.1, List.length_take]
    omega

theorem pipe_unsupported : Unsupported pipe :=
  ⟨fun _ _ => rfl, fun _ _ => rfl, fun _ _ => rfl, fun _ _ => rfl⟩

theorem vectors_iff_pipe :
    readv pipe (fun _ => true) true ([[0], [0, 0]] : List Str) ([1, 2, 3] : Str) ≠
      .ok (oneRead pipe [[0], [0, 0]] [1, 2, 3]) ∧
    writev pipe (fun _ => true) true ([[1], [2, 3]] : List Str) ([] : Str) =
      .ok (oneWrite pipe [[1], [2, 3]] []) :=
  ⟨(vectors_iff pipe_unsupported (fun _ => true) true _ _).1,
    (vectors_iff pipe_unsupported (fun _ => true) true _ _).2.2.1.mpr ⟨rfl, by decide⟩⟩

/-- What was written cannot be read back: `readv` gives `ENOSYS`, where one `read` would have filled
both buffers. -/
theorem pipe_not_read :
    writev pipe (fun _ => true) false ([[1], [2, 3]] : List Str) ([] : Str) =
      .ok ⟨.ok 3, [[1], [2, 3]], [1, 2, 3], [.write [1, 2, 3]]⟩ ∧
    readv pipe (fun _ => true) false ([[0], [0, 0]] : List Str) ([1, 2, 3] : Str) =
      .ok ⟨.error ENOSYS, [[0], [0, 0]], [1, 2, 3], []⟩ ∧
    oneRead pipe ([[0], [0, 0]] : List Str) ([1, 2, 3] : Str) =
      ⟨.ok 3, [[1], [2, 3]], [], [.read 3]⟩ := by
  refine ⟨rfl, rfl, rfl⟩

end Mintlib.Vectors
