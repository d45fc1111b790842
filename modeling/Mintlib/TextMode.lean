import Mintlib.Lib.Text
import Mintlib.Lib.Checked

/-!
# Text streams: `sysd-stdio.c`

`__stdio_text_write` puts a carriage return in front of each line feed. It converts as much
as a buffer of one block takes and gives that to `write`, which may take it in pieces.
-/

namespace Mintlib.TextMode

open Mintlib.Text
open Checked (Stop)

/-- The underlying `write`, for a device with states of type `σ`: its answer to the bytes that it
is given, and the state after the call. -/
abbrev Write (σ : Type) := σ → Str → ℤ × σ

/-- `blocksize`, from the `st_blksize` of `fstat` if that works. -/
def blockSize (st_blksize : Option ℤ) : ℕ :=
  match st_blksize with
  | none => 8192
  | some size => if 8192 < size ∨ size ≤ 0 then 8192 else size.toNat

/-- `chunk[put] = c`. -/
def store (room : ℕ) (chunk : Str) (c : UInt8) : Except Stop Str :=
  if chunk.length < room then .ok (chunk ++ [c]) else .error .bounds

/-- `if (buf[got] == '\n') chunk[put++] = '\r'`. -/
def storeCR (room : ℕ) (chunk : Str) (c : UInt8) : Except Stop Str :=
  if c = NEWLINE then store room chunk CR else .ok chunk

/-- The loop that converts: `chunk[0..put)`, and what is left of the buffer behind `got`. -/
def fill (room limit : ℕ) : Str → Str → Except Stop (Str × Str)
  | [], chunk => .ok (chunk, [])
  | c :: buf, chunk =>
    if chunk.length < limit then do
      let chunk ← storeCR room chunk c
      let chunk ← store room chunk c
      fill room limit buf chunk
    else .ok (chunk, c :: buf)

section Device

variable {σ : Type}

/-- The loop that writes one chunk; the result says whether it was written. -/
def flush (write : Write σ) : ℕ → Str → σ → Except Stop (Bool × σ)
  | _, [], dev => .ok (true, dev)
  | 0, _ :: _, _ => .error .steps
  | steps + 1, c :: writeptr, dev =>
    let n1 := (c :: writeptr).length
    let (count, dev) := write dev (c :: writeptr)
    -- `writeptr` would leave the chunk
    if (n1 : ℤ) < count then .error .bounds
    else if 0 < count then flush write steps ((c :: writeptr).drop count.toNat) dev
    else if count < 0 then .ok (false, dev)
    else flush write steps (c :: writeptr) dev

/-- The outer loop: the number of bytes of the buffer that were written, or the error. -/
def writeLoop (write : Write σ) (blocksize : ℕ) : ℕ → Str → ℕ → σ → Except Stop (ℤ × σ)
  | _, [], written, dev => .ok (Int.bmod written (2 ^ 32), dev)
  | 0, _ :: _, _, _ => .error .steps
  | steps + 1, c :: buf, written, dev => do
    let n := (c :: buf).length
    let limit := if n < blocksize then n else blocksize
    let (chunk, rest) ← fill (blocksize + 1) limit (c :: buf) []
    let (ok, dev) ← flush write steps chunk dev
    if ok then writeLoop write blocksize steps rest (written + (n - rest.length)) dev
    else .ok (-1, dev)

def stdioTextWrite (write : Write σ) (st_blksize : Option ℤ) (steps : ℕ) (buf : Str)
    (dev : σ) : Except Stop (ℤ × σ) :=
  writeLoop write (blockSize st_blksize) steps buf 0 dev

end Device

def crlf (buf : Str) : Str := buf.flatMap fun c => if c = NEWLINE then [CR, c] else [c]

/-- One call of `write`: the bytes it was given, and its answer. -/
structure Call where
  given : Str
  answer : ℤ

def taken (calls : List Call) : Str := calls.flatMap fun c => c.given.take c.answer.toNat

/-- The calls hand over a text in order: each one gets a piece that starts behind what the calls
before it have taken, and one that fails is the last. -/
def Pieces (text : Str) (calls : List Call) : Prop :=
  ∀ before c after, calls = before ++ c :: after →
    c.given ≠ [] ∧ taken before ++ c.given <+: text ∧ (c.answer < 0 → after = [])

section Write

variable {σ : Type} {write : Write σ} {room limit blocksize steps written : ℕ}
  {buf chunk rest : Str} {c : UInt8} {dev dev' : σ}

/-- The calls of `write` that lead from one state of the device to another. -/
inductive Handed (write : Write σ) : σ → List Call → σ → Prop
  | none (dev : σ) : Handed write dev [] dev
  | call {dev dev' : σ} {calls : List Call} (given : Str)
      (h : Handed write (write dev given).2 calls dev') :
      Handed write dev (⟨given, (write dev given).1⟩ :: calls) dev'

/-- `write` takes no more than it is given. -/
def Legal (write : Write σ) : Prop := ∀ dev given, (write dev given).1 ≤ given.length

/-- `write` does not answer 0 for ever, however often it is given the same. -/
def Progress (write : Write σ) : Prop :=
  ∀ dev given, ∃ j, (write ((fun dev => (write dev given).2)^[j] dev) given).1 ≠ 0

/-- What `write` has been called for when `__stdio_text_write` returns: the pieces of the image,
the whole image and its length if no call fails, and the error if one does. -/
structure WriteOk (write : Write σ) (buf : Str) (dev : σ) (ret : ℤ) (dev' : σ)
    (calls : List Call) : Prop where
  handed : Handed write dev calls dev'
  pieces : Pieces (crlf buf) calls
  written : (∀ c ∈ calls, 0 ≤ c.answer) → ret = Int.bmod buf.length (2 ^ 32) ∧
    (buf.length < 2 ^ 31 → ret = buf.length) ∧ taken calls = crlf buf
  failed : (∃ c ∈ calls, c.answer < 0) → ret = -1

theorem store_eq (c : UInt8) (h : chunk.length < room) :
    store room chunk c = .ok (chunk ++ [c]) := by
  rw [store, if_pos h]

theorem crlf_cons (c : UInt8) (buf : Str) :
    crlf (c :: buf) = (if c = NEWLINE then [CR, c] else [c]) ++ crlf buf := rfl

theorem crlf_append (a b : Str) : crlf (a ++ b) = crlf a ++ crlf b := List.flatMap_append

theorem taken_append (a b : List Call) : taken (a ++ b) = taken a ++ taken b :=
  List.flatMap_append

theorem Handed.append {calls calls' : List Call} {dev'' : σ} (h : Handed write dev calls dev')
    (h' : Handed write dev' calls' dev'') : Handed write dev (calls ++ calls') dev'' := by
  induction h with
  | none dev => exact h'
  | call given _ ih => exact Handed.call given (ih h')

theorem Pieces.nil (text : Str) : Pieces text [] := by
  intro before c after h
  cases before <;> cases h

theorem Pieces.append {text text' : Str} {calls calls' : List Call} (h : Pieces text calls)
    (hgood : ∀ c ∈ calls, 0 ≤ c.answer) (htaken : taken calls = text)
    (h' : Pieces text' calls') : Pieces (text ++ text') (calls ++ calls') := by
  intro before c after hcalls
  rcases List.append_eq_append_iff.mp hcalls with ⟨mid, rfl, hmid⟩ | ⟨mid, hmid, hafter⟩
  · -- the call is one of the second part
    obtain ⟨hne, hpre, hlast⟩ := h' mid c after hmid
    refine ⟨hne, ?_, hlast⟩
    rw [taken_append, htaken, List.append_assoc]
    exact (List.prefix_append_right_inj text).mpr hpre
  · cases mid with
    | nil =>
      rw [List.nil_append] at hafter
      rw [List.append_nil] at hmid
      obtain ⟨hne, hpre, hlast⟩ := h' [] c after hafter.symm
      refine ⟨hne, ?_, hlast⟩
      rw [← hmid, htaken]
      exact (List.prefix_append_right_inj text).mpr hpre
    | cons d mid =>
      obtain ⟨rfl, rfl⟩ := List.cons.inj hafter
      obtain ⟨hne, hpre, -⟩ := h before c mid hmid
      refine ⟨hne, hpre.trans (List.prefix_append text text'), fun hneg => ?_⟩
      have hc := hgood c (hmid ▸ List.mem_append_right before (List.mem_cons_self))
      exact absurd hneg (not_lt.mpr hc)

theorem Pieces.cons {text : Str} {calls : List Call} {c : Call} (hne : c.given ≠ [])
    (hpre : c.given <+: text) (hneg : c.answer < 0 → calls = [])
    (h : Pieces (text.drop (taken [c]).length) calls) : Pieces text (c :: calls) := by
  have hfirst : taken [c] <+: text := by
    rw [taken, List.flatMap_singleton]
    exact (List.take_prefix _ _).trans hpre
  intro before d after hcalls
  cases before with
  | nil =>
    obtain ⟨rfl, rfl⟩ := List.cons.inj hcalls
    exact ⟨hne, hpre, hneg⟩
  | cons e before =>
    obtain ⟨rfl, hrest⟩ := List.cons.inj hcalls
    obtain ⟨hne', hpre', hlast⟩ := h before d after hrest
    refine ⟨hne', ?_, hlast⟩
    rw [← List.singleton_append, taken_append, List.append_assoc]
    obtain ⟨rest, rfl⟩ := hfirst
    rw [List.drop_left] at hpre'
    exact (List.prefix_append_right_inj _).mpr hpre'

/-- The chunk is the image of the bytes that were taken from the buffer, and it ends at
most one byte behind the limit. -/
theorem fill_eq (hroom : limit < room) (buf : Str) : ∀ chunk : Str, chunk.length ≤ limit + 1 →
    ∃ got rest, fill room limit buf chunk = .ok (chunk ++ crlf got, rest) ∧ buf = got ++ rest ∧
      (chunk.length < limit → buf ≠ [] → got ≠ []) := by
  induction buf with
  | nil =>
    intro chunk _
    exact ⟨[], [], by rw [fill, crlf, List.flatMap_nil, List.append_nil], rfl, fun _ h => h⟩
  | cons c buf ih =>
    intro chunk hlen
    by_cases hlt : chunk.length < limit
    · have hfirst : storeCR room chunk c = .ok (if c = NEWLINE then chunk ++ [CR] else chunk) := by
        unfold storeCR
        by_cases hc : c = NEWLINE
        · rw [if_pos hc, if_pos hc, store_eq CR (by omega)]
        · rw [if_neg hc, if_neg hc]
      have hchunk : (if c = NEWLINE then chunk ++ [CR] else chunk).length ≤ limit := by
        split_ifs
        · rw [List.length_append, List.length_singleton]
          omega
        · omega
      obtain ⟨got, rest, hfill, hbuf, -⟩ := ih ((if c = NEWLINE then chunk ++ [CR] else chunk) ++ [c])
        (by rw [List.length_append, List.length_singleton]; omega)
      refine ⟨c :: got, rest, ?_, by rw [hbuf, List.cons_append], fun _ _ => List.cons_ne_nil _ _⟩
      rw [fill, if_pos hlt, hfirst]
      show (store room _ c >>= fun chunk => fill room limit buf chunk) = _
      rw [store_eq c (by omega)]
      show fill room limit buf _ = _
      rw [hfill, crlf_cons]
      by_cases hc : c = NEWLINE
      · rw [if_pos hc, if_pos hc]
        simp only [List.append_assoc, List.cons_append, List.nil_append]
      · rw [if_neg hc, if_neg hc]
        simp only [List.append_assoc, List.cons_append, List.nil_append]
    · exact ⟨[], c :: buf, by rw [fill, if_neg hlt, crlf, List.flatMap_nil, List.append_nil], rfl,
        fun h => absurd h hlt⟩

/-- One chunk: it is written, or a call of `write` fails. -/
structure FlushOk (write : Write σ) (chunk : Str) (dev : σ) (ok : Bool) (dev' : σ)
    (calls : List Call) : Prop where
  handed : Handed write dev calls dev'
  pieces : Pieces chunk calls
  good : ok = true → (∀ c ∈ calls, 0 ≤ c.answer) ∧ taken calls = chunk
  bad : ok = false → ∃ c ∈ calls, c.answer < 0

theorem flush_step (hlegal : Legal write) (steps : ℕ) (dev : σ) {mem : Str} (hmem : mem ≠ []) :
    flush write (steps + 1) mem dev =
      if 0 < (write dev mem).1 then
        flush write steps (mem.drop (write dev mem).1.toNat) (write dev mem).2
      else if (write dev mem).1 < 0 then .ok (false, (write dev mem).2)
      else flush write steps mem (write dev mem).2 := by
  have hle : ¬ (mem.length : ℤ) < (write dev mem).1 := not_lt.mpr (hlegal dev mem)
  obtain ⟨c, chunk, rfl⟩ := List.exists_cons_of_ne_nil hmem
  rw [flush]
  simp only [if_neg hle]

theorem flush_nil (steps : ℕ) (dev : σ) : flush write steps [] dev = .ok (true, dev) ∧
    FlushOk write [] dev true dev [] :=
  ⟨by rw [flush], Handed.none dev, Pieces.nil [], fun _ => ⟨by simp, rfl⟩, by simp⟩

theorem flush_ok (hlegal : Legal write) (steps : ℕ) : ∀ (chunk : Str) (dev : σ),
    flush write steps chunk dev = .error .steps ∨
      ∃ ok dev' calls, flush write steps chunk dev = .ok (ok, dev') ∧
        FlushOk write chunk dev ok dev' calls := by
  induction steps with
  | zero =>
    intro chunk dev
    cases chunk with
    | nil => exact Or.inr ⟨true, dev, [], flush_nil 0 dev⟩
    | cons c chunk => exact Or.inl rfl
  | succ steps ih =>
    intro chunk dev
    by_cases hne : chunk = []
    · rw [hne]
      exact Or.inr ⟨true, dev, [], flush_nil (steps + 1) dev⟩
    rw [flush_step hlegal steps dev hne]
    set count := (write dev chunk).1 with hcount
    set left := chunk.drop count.toNat with hleft
    have hcall : taken [⟨chunk, count⟩] = chunk.take count.toNat := by
      rw [taken, List.flatMap_singleton]
    have hdrop : chunk.drop (taken [⟨chunk, count⟩]).length = left := by
      rw [hcall, List.length_take, hleft]
      rcases Nat.le_total count.toNat chunk.length with hle | hle
      · rw [min_eq_left hle]
      · rw [min_eq_right hle, List.drop_length, List.drop_of_length_le hle]
    by_cases hneg : count < 0
    · rw [if_neg (not_lt.mpr hneg.le), if_pos hneg]
      refine Or.inr ⟨false, _, [⟨chunk, count⟩], rfl, Handed.call chunk (Handed.none _), ?_,
        fun h => absurd h (by decide), fun _ => ⟨_, List.mem_singleton.mpr rfl, hneg⟩⟩
      exact Pieces.cons hne List.prefix_rfl (fun _ => rfl) (Pieces.nil _)
    · -- what the call has left is written by the calls after it
      have hsame : (if 0 < count then flush write steps left (write dev chunk).2
          else if count < 0 then .ok (false, (write dev chunk).2)
          else flush write steps chunk (write dev chunk).2) =
          flush write steps left (write dev chunk).2 := by
        by_cases hpos : 0 < count
        · rw [if_pos hpos]
        · have hzero : count.toNat = 0 := Int.toNat_of_nonpos (not_lt.mp hpos)
          rw [if_neg hpos, if_neg hneg, hleft, hzero, List.drop_zero]
      rw [hsame]
      refine (ih left (write dev chunk).2).imp_right ?_
      rintro ⟨ok, dev', calls, hflush, hok⟩
      refine ⟨ok, dev', ⟨chunk, count⟩ :: calls, hflush, Handed.call chunk hok.handed, ?_, ?_, ?_⟩
      · exact Pieces.cons hne List.prefix_rfl (fun h => absurd h hneg) (hdrop ▸ hok.pieces)
      · intro htrue
        obtain ⟨hgood, htaken⟩ := hok.good htrue
        refine ⟨List.forall_mem_cons.mpr ⟨not_lt.mp hneg, hgood⟩, ?_⟩
        rw [← List.singleton_append, taken_append, hcall, htaken, hleft, List.take_append_drop]
      · intro hfalse
        obtain ⟨c, hc, hlt⟩ := hok.bad hfalse
        exact ⟨c, List.mem_cons_of_mem _ hc, hlt⟩

theorem flush_ends (hlegal : Legal write) (hprogress : Progress write) (chunk : Str) :
    ∀ dev : σ, ∃ steps r, ∀ more, steps ≤ more → flush write more chunk dev = .ok r := by
  induction hn : chunk.length using Nat.strong_induction_on generalizing chunk with
  | _ n ih =>
    subst hn
    by_cases hne : chunk = []
    · intro dev
      exact ⟨0, (true, dev), fun more _ => by rw [hne, flush]⟩
    have hlen := List.length_pos_iff.mpr hne
    -- a call that takes something or fails
    have hnow : ∀ dev : σ, (write dev chunk).1 ≠ 0 →
        ∃ steps r, ∀ more, steps ≤ more → flush write more chunk dev = .ok r := by
      intro dev h0
      by_cases hpos : 0 < (write dev chunk).1
      · obtain ⟨steps, r, hsteps⟩ := ih (chunk.drop (write dev chunk).1.toNat).length
          (by rw [List.length_drop]; omega) _ rfl (write dev chunk).2
        refine ⟨steps + 1, r, fun more hmore => ?_⟩
        obtain ⟨m, rfl⟩ : ∃ m, more = m + 1 := ⟨more - 1, by omega⟩
        rw [flush_step hlegal m dev hne, if_pos hpos]
        exact hsteps m (by omega)
      · refine ⟨1, (false, (write dev chunk).2), fun more hmore => ?_⟩
        obtain ⟨m, rfl⟩ : ∃ m, more = m + 1 := ⟨more - 1, by omega⟩
        rw [flush_step hlegal m dev hne, if_neg hpos, if_pos (by omega)]
    -- it comes after `j` calls that answer 0
    suffices hj : ∀ (j : ℕ) (dev : σ),
        (write ((fun dev => (write dev chunk).2)^[j] dev) chunk).1 ≠ 0 →
        ∃ steps r, ∀ more, steps ≤ more → flush write more chunk dev = .ok r by
      intro dev
      obtain ⟨j, h⟩ := hprogress dev chunk
      exact hj j dev h
    intro j
    induction j with
    | zero => exact hnow
    | succ j ihj =>
      intro dev hj
      by_cases hzero : (write dev chunk).1 = 0
      · rw [Function.iterate_succ_apply] at hj
        obtain ⟨steps, r, hsteps⟩ := ihj (write dev chunk).2 hj
        refine ⟨steps + 1, r, fun more hmore => ?_⟩
        obtain ⟨m, rfl⟩ : ∃ m, more = m + 1 := ⟨more - 1, by omega⟩
        rw [flush_step hlegal m dev hne, if_neg (by omega), if_neg (by omega)]
        exact hsteps m (by omega)
      · exact hnow dev hzero

theorem writeLoop_step (hblock : 0 < blocksize) (hbuf : buf ≠ []) : ∃ got rest,
    buf = got ++ rest ∧ got ≠ [] ∧ ∀ (write : Write σ) (steps written : ℕ) (dev : σ),
      writeLoop write blocksize (steps + 1) buf written dev =
        match flush write steps (crlf got) dev with
        | .error stop => .error stop
        | .ok (ok, dev) =>
          if ok then writeLoop write blocksize steps rest (written + got.length) dev
          else .ok (-1, dev) := by
  obtain ⟨c, buf', rfl⟩ := List.exists_cons_of_ne_nil hbuf
  set n := (c :: buf').length with hn
  set limit := if n < blocksize then n else blocksize with hlimit
  have hpos : 0 < n := Nat.succ_pos _
  have hroom : limit < blocksize + 1 := by
    rw [hlimit]
    split_ifs <;> omega
  have hlimit0 : 0 < limit := by
    rw [hlimit]
    split_ifs <;> omega
  obtain ⟨got, rest, hfill, hsplit, hgot⟩ := fill_eq hroom (c :: buf') [] (Nat.zero_le _)
  have hlen : n - rest.length = got.length := by
    rw [hn, hsplit, List.length_append, Nat.add_sub_cancel]
  refine ⟨got, rest, hsplit, hgot hlimit0 (List.cons_ne_nil _ _), fun write steps written dev => ?_⟩
  rw [writeLoop]
  simp only [← hn, ← hlimit, hfill, List.nil_append, hlen, bind, Except.bind]
  cases flush write steps (crlf got) dev with
  | error stop => rfl
  | ok r => rfl

/-- What the outer loop has called `write` for. -/
structure LoopOk (write : Write σ) (buf : Str) (written : ℕ) (dev : σ) (ret : ℤ) (dev' : σ)
    (calls : List Call) : Prop where
  handed : Handed write dev calls dev'
  pieces : Pieces (crlf buf) calls
  good : (∀ c ∈ calls, 0 ≤ c.answer) →
    ret = Int.bmod (written + buf.length : ℕ) (2 ^ 32) ∧ taken calls = crlf buf
  bad : (∃ c ∈ calls, c.answer < 0) → ret = -1

theorem writeLoop_ok (hlegal : Legal write) (hblock : 0 < blocksize) (steps : ℕ) :
    ∀ (buf : Str) (written : ℕ) (dev : σ),
      writeLoop write blocksize steps buf written dev = .error .steps ∨
        ∃ ret dev' calls, writeLoop write blocksize steps buf written dev = .ok (ret, dev') ∧
          LoopOk write buf written dev ret dev' calls := by
  have hnil : ∀ (steps written : ℕ) (dev : σ),
      ∃ ret dev' calls, writeLoop write blocksize steps [] written dev = .ok (ret, dev') ∧
        LoopOk write [] written dev ret dev' calls := by
    intro steps written dev
    refine ⟨Int.bmod written (2 ^ 32), dev, [], by rw [writeLoop], Handed.none dev, Pieces.nil _,
      fun _ => ⟨by rw [List.length_nil, Nat.add_zero], rfl⟩, by simp⟩
  -- each turn converts what has room in the chunk and hands it to `write`
  induction steps with
  | zero =>
    intro buf written dev
    cases buf with
    | nil => exact Or.inr (hnil 0 written dev)
    | cons c buf => exact Or.inl rfl
  | succ steps ih =>
    intro buf written dev
    by_cases hbuf : buf = []
    · rw [hbuf]
      exact Or.inr (hnil (steps + 1) written dev)
    obtain ⟨got, rest, rfl, hgot, hstep⟩ := writeLoop_step hblock hbuf
    rw [hstep]
    rcases flush_ok hlegal steps (crlf got) dev with hsteps | ⟨ok, dev₁, calls, hflush, hok⟩
    · rw [hsteps]
      exact Or.inl rfl
    rw [hflush]
    simp only
    -- an error ends the loop, and its answer is the last one
    cases ok with
    | false =>
      obtain ⟨c, hc, hneg⟩ := hok.bad rfl
      refine Or.inr ⟨-1, dev₁, calls, rfl, hok.handed, ?_,
        fun h => absurd (h c hc) (not_le.mpr hneg), fun _ => rfl⟩
      intro before d after hcalls
      obtain ⟨hne, hpre, hlast⟩ := hok.pieces before d after hcalls
      rw [crlf_append]
      exact ⟨hne, hpre.trans (List.prefix_append _ _), hlast⟩
    | true =>
      obtain ⟨hgood, htaken⟩ := hok.good rfl
      rw [if_pos rfl]
      refine (ih rest (written + got.length) dev₁).imp_right ?_
      rintro ⟨ret, dev', calls', hloop, hrest⟩
      refine ⟨ret, dev', calls ++ calls', hloop, hok.handed.append hrest.handed, ?_, fun h => ?_, ?_⟩
      · rw [crlf_append]
        exact hok.pieces.append hgood htaken hrest.pieces
      · obtain ⟨hret, hbytes⟩ := hrest.good fun c hc => h c (List.mem_append_right _ hc)
        refine ⟨by rw [hret, List.length_append, Nat.add_assoc], ?_⟩
        rw [taken_append, htaken, hbytes, crlf_append]
      · rintro ⟨c, hc, hneg⟩
        rcases List.mem_append.mp hc with hc | hc
        · exact absurd (hgood c hc) (not_le.mpr hneg)
        · exact hrest.bad ⟨c, hc, hneg⟩

theorem writeLoop_ends (hlegal : Legal write) (hprogress : Progress write) (hblock : 0 < blocksize)
    (buf : Str) : ∀ (written : ℕ) (dev : σ), ∃ steps r, ∀ more, steps ≤ more →
      writeLoop write blocksize more buf written dev = .ok r := by
  induction hn : buf.length using Nat.strong_induction_on generalizing buf with
  | _ n ih =>
    intro written dev
    subst hn
    by_cases hbuf : buf = []
    · exact ⟨0, _, fun more _ => by rw [hbuf, writeLoop]⟩
    obtain ⟨got, rest, rfl, hgot, hstep⟩ := writeLoop_step hblock hbuf
    obtain ⟨steps₁, ⟨ok, dev₁⟩, hflush⟩ := flush_ends hlegal hprogress (crlf got) dev
    have hlen := List.length_pos_iff.mpr hgot
    obtain ⟨steps₂, r, hrest⟩ := ih rest.length (by rw [List.length_append]; omega) rest rfl
      (written + got.length) dev₁
    refine ⟨max steps₁ steps₂ + 1, if ok then r else (-1, dev₁), fun more hmore => ?_⟩
    obtain ⟨m, rfl⟩ : ∃ m, more = m + 1 := ⟨more - 1, by omega⟩
    rw [hstep, hflush m (by omega)]
    cases ok with
    | false => rfl
    | true => exact hrest m (by omega)

end Write

theorem blockSize_pos (st_blksize : Option ℤ) : 0 < blockSize st_blksize := by
  unfold blockSize
  cases st_blksize with
  | none => decide
  | some size =>
    simp only
    split_ifs with h
    · decide
    · omega

/-- A device that stores what it is given, three bytes at most in one call. -/
def threeBytes : Write Str := fun dev given => (min 3 given.length, dev ++ given.take 3)

example : stdioTextWrite threeBytes (some 4) 9 [97, 10, 10, 98, 10] [] =
    .ok (5, [97, 13, 10, 13, 10, 98, 13, 10]) := by decide

end Mintlib.TextMode
