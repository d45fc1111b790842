import Mintlib.Stdio.Ungetc
import Mintlib.Unx2dos

/-!
# `getdelim.c`

`copy` counts the room that is left in the line buffer. It is taken down by the first `getc`, by a
refill and by the block that is copied, and the line buffer is only enlarged behind the block.
-/

namespace Mintlib.Stdio.Getdelim

open Mintlib.Text Checked
open Mintlib.Unx2dos (less less_eq)
open Ungetc (WellFormed)

abbrev MAX_CANON : ℕ := 256

/-- What `getdelim` returns, what it has stored in the line buffer, `*n` and the stream. -/
structure Got (σ : Type) where
  ret : ℤ
  stored : Str
  n : ℕ
  fp : FILE σ

/-- `p` stands behind `line`, in a line buffer of `size` bytes. -/
structure State (σ : Type) where
  copy : ℕ
  line : Str
  size : ℕ
  fp : FILE σ

/-- Where a turn of a loop leads to. -/
inductive Turn (σ : Type)
  | done (got : Got σ)
  | go (st : State σ)

variable {σ : Type}

/-- A difference of pointers as a `ssize_t`. -/
def ssize (len : ℕ) : ℤ := if len < 2 ^ 31 then len else len - 2 ^ 32

/-- A `char`, which is signed, as an `int`. -/
def signed (c : UInt8) : ℤ := if c.toNat < 128 then c.toNat else c.toNat - 256

/-- The conversion of an `int` to `char`. -/
def char (i : ℤ) : UInt8 := UInt8.ofNat (i % 256).toNat

/-- `stream->__get_limit - stream->__bufp`, which is unsigned. -/
def ahead (fp : FILE σ) : ℕ :=
  if fp.bufp ≤ fp.get_limit then fp.get_limit - fp.bufp else 2 ^ 32 - (fp.bufp - fp.get_limit)

/-- The bytes are stored at `p`. -/
def State.store (st : State σ) (bytes : Str) : Except Stop (State σ) :=
  if st.line.length + bytes.length ≤ st.size then .ok { st with line := st.line ++ bytes }
  else .error .bounds

def State.win (st : State σ) : Except Stop (Turn σ) :=
  if st.line.length < st.size then
    .ok (.done ⟨ssize st.line.length, st.line ++ [0], st.size, st.fp⟩)
  else .error .bounds

def State.lose (st : State σ) : Except Stop (Turn σ) :=
  if st.line = [] then .ok (.done ⟨-1, [], st.size, st.fp⟩) else st.win

/-- Enlarge the line buffer; `spare` bytes of it are not counted. -/
def State.enlarge (realloc : ℕ → Bool) (spare : ℕ) (st : State σ) : Except Stop (Turn σ) :=
  let size := st.size * 2 % 2 ^ 32
  if realloc size then
    .ok (.go { st with size := size, copy := less (less size st.line.length) spare })
  else st.lose

/-- One character is read by `get`; what is compared with the terminator is its `value`. -/
def takeOne (get : FILE σ → Except Stop (Option UInt8 × FILE σ)) (value : UInt8 → ℤ)
    (terminator : ℤ) (st : State σ) : Except Stop (Turn σ) :=
  get st.fp >>= fun r =>
    match r.1 with
    | none => State.lose { st with fp := r.2 }
    | some c =>
      State.store { st with fp := r.2 } [c] >>= fun st =>
        if value c = terminator then st.win
        else .ok (.go { st with copy := less st.copy 1 })

/-- `__memccpy`: what is copied, and whether the last byte of it is the one to stop at. -/
def memccpy (ucharstop : UInt8) : ℕ → Str → Except Stop (Str × Bool)
  | 0, _ => .ok ([], false)
  | _ + 1, [] => .error .bounds
  | size + 1, c :: src =>
    if c = ucharstop then .ok ([c], true)
    else memccpy ucharstop size src >>= fun r => .ok (c :: r.1, r.2)

def copyBlock (realloc : ℕ → Bool) (terminator : ℤ) (st : State σ) : Except Stop (Turn σ) :=
  let i := if st.copy < ahead st.fp then st.copy else ahead st.fp
  memccpy (char terminator) i ((st.fp.buffer.getD []).drop st.fp.bufp) >>= fun r =>
    State.store { st with fp := { st.fp with bufp := st.fp.bufp + r.1.length } } r.1 >>= fun st =>
      if r.2 then st.win
      else if less st.copy i = 0 then st.enlarge realloc 1
      else .ok (.go { st with copy := less st.copy i })

def Turn.next (next : State σ → Except Stop (Turn σ)) : Turn σ → Except Stop (Turn σ)
  | done got => .ok (.done got)
  | go st => next st

def unbufferedTurn (malloc : ℕ → Option Str) (realloc : ℕ → Bool) (terminator : ℤ) (st : State σ) :
    Except Stop (Turn σ) :=
  if 0 < less st.copy 1 then takeOne (getc malloc) signed terminator st
  else st.enlarge realloc 0

def bufferedTurn (malloc : ℕ → Option Str) (realloc : ℕ → Bool) (terminator : ℤ) (st : State σ) :
    Except Stop (Turn σ) :=
  (if ahead st.fp = 0 then takeOne (Stdio.fillbf malloc) (fun c => c.toNat) terminator st
    else .ok (.go st)) >>= Turn.next (copyBlock realloc terminator)

/-- `while (1)`. -/
def loop (turn : State σ → Except Stop (Turn σ)) : ℕ → State σ → Except Stop (Got σ)
  | 0, _ => .error .steps
  | steps + 1, st =>
    turn st >>= fun t =>
      match t with
      | .done got => .ok got
      | .go st => loop turn steps st

def loopFrom (turn : State σ → Except Stop (Turn σ)) (steps : ℕ) : Turn σ → Except Stop (Got σ)
  | .done got => .ok got
  | .go st => loop turn steps st

/-- Do one with `getc` to allocate a buffer. -/
def takeFirst (malloc : ℕ → Option Str) (terminator : ℤ) (seen : Bool) (st : State σ) :
    Except Stop (Turn σ) :=
  if seen = false ∨ st.fp.buffer.isNone ∨ st.fp.pushed_back then
    takeOne (getc malloc) (fun c => c.toNat) terminator st
  else .ok (.go st)

/-- The loops, once there is a line buffer of `size` bytes. -/
def readLine (malloc : ℕ → Option Str) (realloc : ℕ → Bool) (steps size : ℕ) (terminator : ℤ)
    (seen : Bool) (stream : FILE σ) : Except Stop (Got σ) :=
  if stream.buffer.isNone ∧ stream.userbuf then
    loop (unbufferedTurn malloc realloc terminator) steps ⟨size, [], size, stream⟩
  else
    takeFirst malloc terminator seen ⟨less size 1, [], size, stream⟩ >>=
      loopFrom (bufferedTurn malloc realloc terminator) steps

/-- `__getdelim`: `valid` tells whether the arguments are, `block` whether `*lineptr` is not NULL,
and `seen` is the flag of the stream. -/
def getdelim (malloc : ℕ → Option Str) (realloc : ℕ → Bool) (steps : ℕ) (valid block : Bool)
    (n : ℕ) (terminator : ℤ) (seen : Bool) (stream : FILE σ) : Except Stop (Got σ) :=
  if valid = false ∨ stream.error then .ok ⟨-1, [], n, stream⟩
  else if (block = false ∨ n < 2) ∧ realloc MAX_CANON = false then .ok ⟨-1, [], n, stream⟩
  else
    let size := if block = false ∨ n < 2 then MAX_CANON else n
    readLine malloc realloc steps size terminator seen stream

/-- How a line ends: with the file, with the character, or not that soon. -/
inductive Ending
  | eof
  | found
  | more
deriving DecidableEq

/-- The characters up to the first one that `halts` selects, as calls of `getc` deliver them. -/
inductive Line (malloc : ℕ → Option Str) (halts : UInt8 → Bool) :
    FILE σ → Str → Ending → FILE σ → Prop
  | more (fp : FILE σ) : Line malloc halts fp [] .more fp
  | eof {fp g : FILE σ} (hgetc : getc malloc fp = .ok (none, g)) : Line malloc halts fp [] .eof g
  | found {fp g : FILE σ} {c : UInt8} (hc : halts c = true)
      (hgetc : getc malloc fp = .ok (some c, g)) : Line malloc halts fp [c] .found g
  | next {fp g f : FILE σ} {c : UInt8} {s : Str} {e : Ending} (hc : halts c = false)
      (hgetc : getc malloc fp = .ok (some c, g)) (hrest : Line malloc halts g s e f) :
      Line malloc halts fp (c :: s) e f

/-- The stream is advanced by these characters. -/
inductive Takes (malloc : ℕ → Option Str) : FILE σ → Str → FILE σ → Prop
  | nil (fp : FILE σ) : Takes malloc fp [] fp
  | cons {fp g f : FILE σ} {c : UInt8} {s : Str} (hgetc : getc malloc fp = .ok (some c, g))
      (hrest : Takes malloc g s f) : Takes malloc fp (c :: s) f

structure Reading (fp : FILE σ) : Prop where
  wf : WellFormed fp
  ahead : fp.bufp ≤ fp.get_limit
  back : fp.pushed_back = true → fp.pushback_bufp ≤ fp.get_limit

/-- What is promised: a line is the next characters, up to the terminator or the end of the file
unless the line buffer is full and cannot be enlarged. -/
def Right (malloc : ℕ → Option Str) (realloc : ℕ → Bool) (stream : FILE σ) (t : UInt8)
    (out : Except Stop (Got σ)) : Prop :=
  ∃ got, out = .ok got ∧ (0 ≤ got.ret → ∃ line g, got.stored = line ++ [0] ∧
    got.ret = line.length ∧ got.stored.length ≤ got.n ∧ Takes malloc stream line g ∧
    t ∉ line.dropLast ∧
    (line.getLast? = some t ∧ got.fp = g ∨ getc malloc g = .ok (none, got.fp) ∨
      got.stored.length = got.n ∧ realloc (got.n * 2 % 2 ^ 32) = false ∧ got.fp = g))

section Reading

variable {malloc : ℕ → Option Str} {halts : UInt8 → Bool} {fp g f : FILE σ} {c : UInt8} {s w : Str}
  {e : Ending}

theorem Reading.fillbf (h : Reading fp) (hfill : Stdio.fillbf malloc fp = .ok (some c, g)) :
    Reading g := by
  obtain ⟨hwf, -⟩ := h.wf.fillbf hfill
  unfold Stdio.fillbf at hfill
  split_ifs at hfill with hread hpushed
  · cases hfill
  · obtain ⟨-, rfl⟩ := Prod.mk.inj (Except.ok.inj hfill)
    exact ⟨hwf, h.back hpushed, fun hno => absurd hno Bool.false_ne_true⟩
  · rw [Bool.not_eq_true] at hpushed
    obtain ⟨-, -, hchar⟩ := h.wf.fillNext hpushed hfill
    obtain ⟨hno, hahead⟩ := hchar (Option.some_ne_none c)
    refine ⟨hwf, hahead, fun hp => ?_⟩
    rw [hno] at hp
    exact absurd hp Bool.false_ne_true

theorem Reading.getc (h : Reading fp) (hgetc : Stdio.getc malloc fp = .ok (some c, g)) :
    Reading g := by
  obtain ⟨hwf, -⟩ := h.wf.getc hgetc
  unfold Stdio.getc at hgetc
  by_cases hleft : fp.bufp < fp.get_limit
  · rw [if_pos hleft] at hgetc
    cases hchar : fp.buffer.bind (·[fp.bufp]?) with
    | none =>
      rw [hchar] at hgetc
      cases hgetc
    | some d =>
      rw [hchar] at hgetc
      obtain ⟨-, rfl⟩ := Prod.mk.inj (Except.ok.inj hgetc)
      exact ⟨hwf, hleft, h.back⟩
  · rw [if_neg hleft] at hgetc
    exact h.fillbf hgetc

theorem Reading.ahead_eq (h : Reading fp) : Getdelim.ahead fp = fp.get_limit - fp.bufp :=
  if_pos h.ahead

theorem Takes.append {w' : Str} (h : Takes malloc fp w g) (h' : Takes malloc g w' f) :
    Takes malloc fp (w ++ w') f := by
  induction h with
  | nil fp => exact h'
  | cons hgetc _ ih => exact .cons hgetc (ih h')

theorem Takes.reading (h : Takes malloc fp w g) (hr : Reading fp) : Reading g := by
  induction h with
  | nil fp => exact hr
  | cons hgetc _ ih => exact ih (hr.getc hgetc)

theorem Takes.single (hgetc : getc malloc fp = .ok (some c, g)) : Takes malloc fp [c] g :=
  .cons hgetc (.nil g)

variable (malloc) in
theorem getc_buffer (h : fp.bufp < fp.get_limit) : getc malloc fp =
    match (fp.buffer.getD [])[fp.bufp]? with
    | none => .error .bounds
    | some c => .ok (some c, { fp with bufp := fp.bufp + 1 }) := by
  rw [Stdio.getc, if_pos h]
  cases fp.buffer with
  | none => rfl
  | some mem => rfl

theorem getc_empty (h : Reading fp) (hempty : ahead fp = 0) : getc malloc fp = Stdio.fillbf malloc fp := by
  have hle := h.ahead
  rw [h.ahead_eq] at hempty
  rw [Stdio.getc, if_neg (by omega)]

end Reading

section Turns

variable {malloc : ℕ → Option Str} {realloc : ℕ → Bool} {halts : UInt8 → Bool} {fp f : FILE σ}
  {s : Str} {e : Ending} {t : UInt8} {st : State σ}

theorem memccpy_line (hhalts : ∀ c, halts c = decide (c = t)) (k : ℕ) : ∀ {fp : FILE σ} {s : Str},
    k ≤ fp.get_limit - fp.bufp → Line malloc halts fp s e f → (e = .more → k ≤ s.length) →
    ∃ w found s', memccpy t k ((fp.buffer.getD []).drop fp.bufp) = .ok (w, found) ∧ s = w ++ s' ∧
      Takes malloc fp w { fp with bufp := fp.bufp + w.length } ∧ w.length ≤ k ∧
      (found = true → w ≠ [] ∧ s' = [] ∧ e = .found ∧ f = { fp with bufp := fp.bufp + w.length }) ∧
      (found = false → w.length = k ∧
        Line malloc halts { fp with bufp := fp.bufp + w.length } s' e f) := by
  induction k with
  | zero =>
    intro fp s _ hline _
    exact ⟨[], false, s, rfl, rfl, .nil fp, Nat.le_refl 0, (nomatch ·), fun _ => ⟨rfl, hline⟩⟩
  | succ k ih =>
    intro fp s hk hline hmore
    have hleft : fp.bufp < fp.get_limit := by omega
    have hread := getc_buffer malloc hleft
    -- a character that is delivered is the one in the buffer
    have hhead : ∀ {c : UInt8} {g : FILE σ}, getc malloc fp = .ok (some c, g) →
        (fp.buffer.getD []).drop fp.bufp = c :: (fp.buffer.getD []).drop (fp.bufp + 1) ∧
          g = { fp with bufp := fp.bufp + 1 } := by
      intro c g hgetc
      rw [hgetc] at hread
      cases hat : (fp.buffer.getD [])[fp.bufp]? with
      | none =>
        rw [hat] at hread
        cases hread
      | some d =>
        rw [hat] at hread
        obtain ⟨hc, hg⟩ := Prod.mk.inj (Except.ok.inj hread)
        obtain rfl := Option.some.inj hc
        obtain ⟨hlt, hget⟩ := List.getElem?_eq_some_iff.mp hat
        rw [List.drop_eq_getElem_cons hlt, hget]
        exact ⟨rfl, hg⟩
    cases hline with
    | more => exact absurd (hmore rfl) (Nat.not_succ_le_zero k)
    | eof hgetc =>
      rw [hgetc] at hread
      split at hread <;> cases hread
    | found hc hgetc =>
      rename_i c
      obtain ⟨hdrop, rfl⟩ := hhead hgetc
      rw [hhalts, decide_eq_true_eq] at hc
      refine ⟨[c], true, [], ?_, rfl, .single hgetc, Nat.succ_le_succ (Nat.zero_le k),
        fun _ => ⟨List.cons_ne_nil c [], rfl, rfl, rfl⟩, (nomatch ·)⟩
      rw [hdrop, memccpy, if_pos hc]
    | next hc hgetc hrest =>
      rename_i g c s
      obtain ⟨hdrop, rfl⟩ := hhead hgetc
      rw [hhalts, decide_eq_false_iff_not] at hc
      obtain ⟨w, found, s', hcopy, rfl, htakes, hlen, hfound, hgo⟩ := ih
        (show k ≤ fp.get_limit - (fp.bufp + 1) by omega) hrest
        (fun he => Nat.le_of_succ_le_succ (hmore he))
      have hbufp : fp.bufp + 1 + w.length = fp.bufp + (c :: w).length := by
        rw [List.length_cons]
        omega
      simp only [hbufp] at htakes hfound hgo
      refine ⟨c :: w, found, s', ?_, rfl, .cons hgetc htakes, Nat.succ_le_succ hlen, fun hf => ?_,
        fun hf => ?_⟩
      · rw [hdrop, memccpy, if_neg hc]
        simp only at hcopy
        rw [hcopy]
        rfl
      · obtain ⟨-, hs, he, hg⟩ := hfound hf
        exact ⟨List.cons_ne_nil c w, hs, he, hg⟩
      · obtain ⟨hlen', hline⟩ := hgo hf
        exact ⟨congrArg Nat.succ hlen', hline⟩

theorem takeOne_line {get : FILE σ → Except Stop (Option UInt8 × FILE σ)} {value : UInt8 → ℤ}
    {terminator : ℤ} (hget : getc malloc st.fp = get st.fp)
    (hvalue : ∀ c, value c = terminator ↔ halts c = true) (hline : Line malloc halts st.fp s e f)
    (hmore : e = .more → s ≠ []) (hroom : st.line.length + 1 ≤ st.size) :
    (s = [] ∧ e = .eof ∧ getc malloc st.fp = .ok (none, f) ∧
      takeOne get value terminator st = State.lose { st with fp := f }) ∨
    (∃ c, s = [c] ∧ e = .found ∧ getc malloc st.fp = .ok (some c, f) ∧
      takeOne get value terminator st =
        State.win { st with line := st.line ++ [c], fp := f }) ∨
    ∃ c s' g, s = c :: s' ∧ getc malloc st.fp = .ok (some c, g) ∧ Line malloc halts g s' e f ∧
      takeOne get value terminator st =
        .ok (.go { copy := less st.copy 1, line := st.line ++ [c], size := st.size, fp := g }) := by
  have hstore : ∀ (c : UInt8) (g : FILE σ), State.store { st with fp := g } [c] =
      .ok { st with line := st.line ++ [c], fp := g } := fun c g => if_pos hroom
  cases hline with
  | more => exact absurd rfl (hmore rfl)
  | eof hgetc =>
    refine .inl ⟨rfl, rfl, hgetc, ?_⟩
    rw [takeOne, ← hget, hgetc]
    rfl
  | found hc hgetc =>
    rename_i c
    refine .inr (.inl ⟨c, rfl, rfl, hgetc, ?_⟩)
    rw [takeOne, ← hget, hgetc, ok_bind]
    simp only
    rw [hstore, ok_bind, if_pos ((hvalue c).mpr hc)]
  | next hc hgetc hrest =>
    rename_i g c s
    refine .inr (.inr ⟨c, s, g, rfl, hgetc, hrest, ?_⟩)
    rw [takeOne, ← hget, hgetc, ok_bind]
    simp only
    rw [hstore, ok_bind, if_neg]
    rw [hvalue, hc]
    exact Bool.false_ne_true

end Turns

/-- The size up to which the line buffer can be enlarged, as long as it can be doubled. -/
def grow (realloc : ℕ → Bool) : ℕ → ℕ → ℕ
  | 0, size => size
  | turns + 1, size =>
    if size < 2 ^ 31 ∧ realloc (size * 2) = true then grow realloc turns (size * 2) else size

def largest (realloc : ℕ → Bool) (size : ℕ) : ℕ := grow realloc 32 size

def plain (s : Str) (e : Ending) : ℕ := s.length - if e = .found then 1 else 0

/-- Behind `count` characters the largest line buffer is full, and twice its size is not a
`size_t`. -/
def Wraps (realloc : ℕ → Bool) (top count : ℕ) : Prop :=
  2 ^ 31 ≤ top ∧ realloc (top * 2 % 2 ^ 32) = true ∧ top - 1 ≤ count

instance (realloc : ℕ → Bool) (top count : ℕ) : Decidable (Wraps realloc top count) :=
  inferInstanceAs (Decidable (_ ∧ _ ∧ _))

/-- How a call ends that has stored `line` and is to read `s` from `fp`; `top` is the largest size
of its line buffer. -/
def Outcome (malloc : ℕ → Option Str) (realloc : ℕ → Bool) (top : ℕ) (line : Str) (fp : FILE σ)
    (s : Str) (e : Ending) (out : Except Stop (Got σ)) : Prop :=
  if Wraps realloc top (plain (line ++ s) e) then ∀ got, out ≠ .ok got
  else ∃ got g, out = .ok got ∧
    (let all := (line ++ s).take (top - 1)
     got.ret = (if all = [] then -1 else ssize all.length) ∧
       got.stored = (if all = [] then [] else all ++ [0]) ∧ all.length < got.n ∧
       Takes malloc fp (s.take (top - 1 - line.length)) g ∧
       (e = .found ∧ (line ++ s).length < top ∧ got.fp = g ∨ getc malloc g = .ok (none, got.fp) ∨
         all.length + 1 = got.n ∧ realloc (got.n * 2 % 2 ^ 32) = false ∧ got.fp = g))

section Room

variable {malloc : ℕ → Option Str} {realloc : ℕ → Bool} {fp g : FILE σ} {line w s : Str}
  {e : Ending} {size top : ℕ} {out : Except Stop (Got σ)}

theorem le_grow (turns : ℕ) : ∀ size, size ≤ grow realloc turns size := by
  induction turns with
  | zero => exact fun size => Nat.le_refl size
  | succ turns ih =>
    intro size
    rw [grow]
    split_ifs
    · have hle := ih (size * 2)
      omega
    · exact Nat.le_refl size

theorem le_largest (realloc : ℕ → Bool) (size : ℕ) : size ≤ largest realloc size := le_grow 32 size

theorem grow_stable (turns : ℕ) : ∀ {size}, 2 ^ 31 ≤ size * 2 ^ turns →
    grow realloc (turns + 1) size = grow realloc turns size := by
  induction turns with
  | zero =>
    intro size h
    rw [grow, grow, if_neg (by omega)]
  | succ turns ih =>
    intro size h
    have hstep : grow realloc (turns + 1) (size * 2) = grow realloc turns (size * 2) := by
      refine ih ?_
      rw [Nat.mul_assoc, ← Nat.pow_succ']
      exact h
    rw [grow, hstep]
    rfl

theorem largest_double (hpos : 0 < size) (hsmall : size < 2 ^ 31) (h : realloc (size * 2) = true) :
    largest realloc size = largest realloc (size * 2) := by
  have hfar : 2 ^ 31 ≤ size * 2 * 2 ^ 31 := Nat.le_mul_of_pos_left (2 ^ 31) (Nat.mul_pos hpos two_pos)
  rw [largest, grow, if_pos ⟨hsmall, h⟩, largest]
  exact (grow_stable 31 hfar).symm

theorem largest_stop (h : 2 ^ 31 ≤ size ∨ realloc (size * 2) = false) :
    largest realloc size = size := by
  rw [largest, grow, if_neg]
  rintro ⟨hsmall, htrue⟩
  rcases h with h | h
  · omega
  · rw [h] at htrue
    exact Bool.false_ne_true htrue

theorem Outcome.take (htakes : Takes malloc fp w g) (hroom : line.length + w.length < top)
    (hout : Outcome malloc realloc top (line ++ w) g s e out) :
    Outcome malloc realloc top line fp (w ++ s) e out := by
  unfold Outcome at hout ⊢
  rw [List.append_assoc] at hout
  by_cases hwraps : Wraps realloc top (plain (line ++ (w ++ s)) e)
  · rw [if_pos hwraps] at hout ⊢
    exact hout
  · rw [if_neg hwraps] at hout ⊢
    obtain ⟨got, g', hgot, hret, hstored, hlen, htakes', hend⟩ := hout
    refine ⟨got, g', hgot, hret, hstored, hlen, ?_, hend⟩
    have htake : (w ++ s).take (top - 1 - line.length) =
        w ++ s.take (top - 1 - (line ++ w).length) := by
      rw [List.take_append, List.take_of_length_le (by omega), List.length_append,
        Nat.sub_sub (top - 1)]
    rw [htake]
    exact htakes.append htakes'

theorem win_eq {st : State σ} (hroom : st.line.length < st.size) : st.win =
    .ok (.done ⟨ssize st.line.length, st.line ++ [0], st.size, st.fp⟩) := if_pos hroom

theorem lose_eq {st : State σ} (hroom : st.line.length < st.size) : st.lose =
    .ok (.done ⟨if st.line = [] then -1 else ssize st.line.length,
      if st.line = [] then [] else st.line ++ [0], st.size, st.fp⟩) := by
  rw [State.lose]
  split_ifs
  · rfl
  · exact win_eq hroom

theorem Outcome.eof (hgetc : getc malloc fp = .ok (none, g)) (hsize : line.length < size)
    (hle : size ≤ top) (htop : line.length + 1 < top ∨ top < 2 ^ 31) :
    Outcome malloc realloc top line fp [] .eof
      (.ok ⟨if line = [] then -1 else ssize line.length, if line = [] then [] else line ++ [0], size,
        g⟩) := by
  have hall : (line ++ []).take (top - 1) = line := by
    rw [List.append_nil, List.take_of_length_le (by omega)]
  have hplain : plain (line ++ []) .eof = line.length := by
    rw [List.append_nil]
    rfl
  unfold Outcome
  rw [if_neg]
  · refine ⟨_, fp, rfl, ?_⟩
    simp only [hall, List.take_nil]
    exact ⟨trivial, trivial, hsize, .nil fp, .inr (.inl hgetc)⟩
  · rintro ⟨hlarge, -, hcount⟩
    rw [hplain] at hcount
    omega

theorem Outcome.found (hne : line ≠ []) (hsize : line.length < size) (hle : size ≤ top) :
    Outcome malloc realloc top line fp [] .found
      (.ok ⟨ssize line.length, line ++ [0], size, fp⟩) := by
  have hpos := List.length_pos_iff.mpr hne
  have hall : (line ++ []).take (top - 1) = line := by
    rw [List.append_nil, List.take_of_length_le (by omega)]
  have hplain : plain (line ++ []) .found = line.length - 1 := by
    rw [List.append_nil]
    rfl
  unfold Outcome
  rw [if_neg]
  · refine ⟨_, fp, rfl, ?_⟩
    simp only [hall, List.take_nil, if_neg hne]
    refine ⟨trivial, trivial, hsize, .nil fp, .inl ⟨trivial, ?_, trivial⟩⟩
    rw [List.append_nil]
    omega
  · rintro ⟨-, -, hcount⟩
    rw [hplain] at hcount
    omega

theorem Outcome.full (hsize : line.length + 1 = size) (hfail : realloc (size * 2 % 2 ^ 32) = false) :
    Outcome malloc realloc size line fp s e
      (.ok ⟨if line = [] then -1 else ssize line.length, if line = [] then [] else line ++ [0], size,
        fp⟩) := by
  have hlen : size - 1 = line.length := by omega
  have hall : (line ++ s).take (size - 1) = line := by rw [hlen, List.take_left]
  have hnone : size - 1 - line.length = 0 := by omega
  unfold Outcome
  rw [if_neg]
  · refine ⟨_, fp, rfl, ?_⟩
    simp only [hall, hnone, List.take_zero]
    exact ⟨trivial, trivial, by omega, .nil fp, .inr (.inr ⟨hsize, hfail, trivial⟩)⟩
  · rintro ⟨-, htrue, -⟩
    rw [hfail] at htrue
    exact Bool.false_ne_true htrue

theorem Outcome.wraps (hwraps : Wraps realloc top (plain (line ++ s) e)) (h : ∀ got, out ≠ .ok got) :
    Outcome malloc realloc top line fp s e out := by
  unfold Outcome
  rw [if_pos hwraps]
  exact h

end Room

section Over

variable {malloc : ℕ → Option Str} {realloc : ℕ → Bool} {st : State σ} {turn : State σ → Except Stop (Turn σ)}
  {terminator : ℤ}

structure State.Over (st : State σ) : Prop where
  size : st.size ≤ st.line.length
  line : st.line ≠ []

theorem State.Over.win (h : st.Over) : st.win = .error .bounds := if_neg (Nat.not_lt.mpr h.size)

theorem State.Over.lose (h : st.Over) : st.lose = .error .bounds := by
  rw [State.lose, if_neg h.line]
  exact h.win

theorem State.Over.store (h : st.Over) {bytes : Str} (hne : bytes ≠ []) :
    st.store bytes = .error .bounds := by
  have hpos := List.length_pos_iff.mpr hne
  have hsize := h.size
  rw [State.store, if_neg (by omega)]

theorem State.Over.takeOne (h : st.Over) {get : FILE σ → Except Stop (Option UInt8 × FILE σ)}
    {value : UInt8 → ℤ} (t : Turn σ) : Getdelim.takeOne get value terminator st ≠ .ok t := by
  intro hok
  obtain ⟨⟨c, g⟩, -, hok⟩ := bind_ok hok
  have hover : State.Over { st with fp := g } := ⟨h.size, h.line⟩
  cases c with
  | none =>
    simp only at hok
    rw [hover.lose] at hok
    cases hok
  | some c =>
    simp only at hok
    rw [hover.store (List.cons_ne_nil c [])] at hok
    cases hok

theorem memccpy_ne_nil {stop : UInt8} {k : ℕ} {src : Str} {r : Str × Bool} (hk : k ≠ 0)
    (h : memccpy stop k src = .ok r) : r.1 ≠ [] := by
  obtain ⟨k, rfl⟩ := Nat.exists_eq_succ_of_ne_zero hk
  cases src with
  | nil => cases h
  | cons c src =>
    rw [memccpy] at h
    split_ifs at h
    · obtain rfl := Except.ok.inj h
      exact List.cons_ne_nil c []
    · obtain ⟨r', -, h⟩ := bind_ok h
      obtain rfl := Except.ok.inj h
      exact List.cons_ne_nil c r'.1

theorem State.Over.copyBlock (h : st.Over) (hcopy : st.copy ≠ 0) (hword : st.copy < 2 ^ 32)
    {t : Turn σ} (hok : Getdelim.copyBlock realloc terminator st = .ok t) :
    ahead st.fp = 0 ∧ t = .go st := by
  obtain ⟨r, hcall, hok⟩ := bind_ok hok
  by_cases hempty : ahead st.fp = 0
  · rw [hempty, if_neg (Nat.not_lt_zero _)] at hcall hok
    obtain rfl := Except.ok.inj hcall
    obtain ⟨st', hstore, hok⟩ := bind_ok hok
    have hsame : State.store { st with fp := { st.fp with bufp := st.fp.bufp + ([] : Str).length } } [] =
        if st.line.length ≤ st.size then .ok st else .error .bounds := by
      rw [State.store, List.append_nil]
      rfl
    simp only at hstore
    rw [hsame] at hstore
    split_ifs at hstore
    obtain rfl := Except.ok.inj hstore
    rw [if_neg Bool.false_ne_true, less_eq (Nat.zero_le _) hword, Nat.sub_zero, if_neg hcopy] at hok
    exact ⟨hempty, (Except.ok.inj hok).symm⟩
  · have hne : r.1 ≠ [] := by
      refine memccpy_ne_nil ?_ hcall
      split_ifs
      · exact hcopy
      · exact hempty
    obtain ⟨st', hstore, -⟩ := bind_ok hok
    have hover : State.Over { st with fp := { st.fp with bufp := st.fp.bufp + r.1.length } } :=
      ⟨h.size, h.line⟩
    rw [hover.store hne] at hstore
    cases hstore

theorem State.Over.bufferedTurn (h : st.Over) (hcopy : st.copy ≠ 0) (hword : st.copy < 2 ^ 32)
    (t : Turn σ) : Getdelim.bufferedTurn malloc realloc terminator st ≠ .ok t := by
  intro hok
  obtain ⟨t', hrefill, hok⟩ := bind_ok hok
  split_ifs at hrefill with hempty
  · exact h.takeOne t' hrefill
  · obtain rfl := Except.ok.inj hrefill
    exact hempty (h.copyBlock hcopy hword hok).1

theorem State.Over.unbufferedTurn (h : st.Over) (hcopy : 0 < less st.copy 1) (t : Turn σ) :
    Getdelim.unbufferedTurn malloc realloc terminator st ≠ .ok t := by
  rw [Getdelim.unbufferedTurn, if_pos hcopy]
  exact h.takeOne t

theorem loop_succ (steps : ℕ) : loop turn (steps + 1) st = turn st >>= loopFrom turn steps := by
  rw [loop]
  rfl

theorem loop_never (h : ∀ t, turn st ≠ .ok t) (steps : ℕ) (got : Got σ) :
    loop turn steps st ≠ .ok got := by
  cases steps with
  | zero => exact (nomatch ·)
  | succ steps =>
    rw [loop_succ]
    intro hok
    obtain ⟨t, hturn, -⟩ := bind_ok hok
    exact h t hturn

end Over

section Run

variable {malloc : ℕ → Option Str} {realloc : ℕ → Bool} {halts : UInt8 → Bool} {f : FILE σ}
  {s : Str} {e : Ending} {t : UInt8} {st : State σ} {terminator : ℤ}
  {turn : State σ → Except Stop (Turn σ)}

theorem plain_le (line : Str) (hs : e = .found → s ≠ []) : line.length ≤ plain (line ++ s) e := by
  rw [plain, List.length_append]
  split_ifs with he
  · have hpos := List.length_pos_iff.mpr (hs he)
    omega
  · omega

theorem Line.ne_nil {fp : FILE σ} (h : Line malloc halts fp s e f) (he : e = .found) : s ≠ [] := by
  subst he
  cases h
  · exact List.cons_ne_nil _ _
  · exact List.cons_ne_nil _ _

/-- The line buffer is full: it is enlarged, and this fails, or goes wrong at the largest size. -/
theorem enlarge_outcome {spare steps : ℕ} (hfull : st.line.length + 1 = st.size)
    (htwo : 2 ≤ st.size) (hword : st.size < 2 ^ 32) (hs : e = .found → s ≠ [])
    (hgo : st.size < 2 ^ 31 → Outcome malloc realloc (largest realloc (st.size * 2)) st.line st.fp s e
      (loop turn steps
        { st with size := st.size * 2, copy := less (less (st.size * 2) st.line.length) spare }))
    (hover : 2 ^ 31 ≤ st.size → ∀ t, turn { st with
      size := st.size * 2 % 2 ^ 32,
      copy := less (less (st.size * 2 % 2 ^ 32) st.line.length) spare } ≠ .ok t) :
    Outcome malloc realloc (largest realloc st.size) st.line st.fp s e
      (st.enlarge realloc spare >>= loopFrom turn steps) := by
  have hne : st.line ≠ [] := List.ne_nil_of_length_pos (by omega)
  rw [State.enlarge]
  by_cases hcall : realloc (st.size * 2 % 2 ^ 32) = true
  · rw [if_pos hcall, ok_bind, loopFrom]
    by_cases hsmall : st.size < 2 ^ 31
    · rw [Nat.mod_eq_of_lt (by omega)] at hcall ⊢
      rw [largest_double (by omega) hsmall hcall]
      exact hgo hsmall
    · have hlarge := Nat.not_lt.mp hsmall
      have htop : largest realloc st.size = st.size := largest_stop (.inl hlarge)
      refine Outcome.wraps ?_ (loop_never (hover hlarge) steps)
      rw [htop]
      refine ⟨hlarge, hcall, ?_⟩
      have hcount := plain_le st.line hs
      omega
  · rw [Bool.not_eq_true] at hcall
    have htop : largest realloc st.size = st.size := by
      by_cases hsmall : st.size < 2 ^ 31
      · rw [Nat.mod_eq_of_lt (by omega)] at hcall
        exact largest_stop (.inr hcall)
      · exact largest_stop (.inl (Nat.not_lt.mp hsmall))
    rw [hcall, if_neg Bool.false_ne_true, lose_eq (by omega), htop]
    exact Outcome.full hfull hcall

theorem takeOne_outcome {get : FILE σ → Except Stop (Option UInt8 × FILE σ)} {value : UInt8 → ℤ}
    {next : Turn σ → Except Stop (Got σ)} {top : ℕ} (hget : getc malloc st.fp = get st.fp)
    (hvalue : ∀ c, value c = terminator ↔ halts c = true) (hline : Line malloc halts st.fp s e f)
    (hmore : e = .more → s ≠ []) (hroom : st.line.length + 1 < st.size) (hle : st.size ≤ top)
    (hdone : ∀ got, next (.done got) = .ok got)
    (hgo : ∀ c s' g, s = c :: s' → getc malloc st.fp = .ok (some c, g) →
      Line malloc halts g s' e f → Outcome malloc realloc top (st.line ++ [c]) g s' e
        (next (.go { copy := less st.copy 1, line := st.line ++ [c], size := st.size, fp := g }))) :
    Outcome malloc realloc top st.line st.fp s e (takeOne get value terminator st >>= next) := by
  rcases takeOne_line hget hvalue hline hmore hroom.le with
    ⟨rfl, rfl, hgetc, htake⟩ | ⟨c, rfl, rfl, hgetc, htake⟩ | ⟨c, s', g, rfl, hgetc, hrest, htake⟩
  · have hlt : st.line.length < st.size := by omega
    have hlose : State.lose { st with fp := f } = _ := lose_eq hlt
    rw [htake, hlose, ok_bind, hdone]
    exact Outcome.eof hgetc (by omega) hle (.inl (by omega))
  · have hlen : (st.line ++ [c]).length < st.size := by
      rw [List.length_append, List.length_singleton]
      exact hroom
    rw [htake, win_eq hlen, ok_bind, hdone]
    exact Outcome.take (.single hgetc) (by rw [List.length_singleton]; omega)
      (Outcome.found (List.append_ne_nil_of_right_ne_nil _ (List.cons_ne_nil c [])) hlen hle)
  · rw [htake, ok_bind]
    exact Outcome.take (.single hgetc) (by rw [List.length_singleton]; omega)
      (hgo c s' g rfl hgetc hrest)

theorem unbuffered_outcome (hvalue : ∀ c, signed c = terminator ↔ halts c = true) (steps : ℕ) :
    ∀ (st : State σ) (s : Str), Line malloc halts st.fp s e f →
      (e = .more → 2 ^ 32 ≤ st.line.length + s.length) → st.copy + st.line.length = st.size →
      1 ≤ st.copy → 2 ≤ st.size → st.size < 2 ^ 32 →
      2 * s.length + (if st.copy = 1 then 1 else 0) < steps →
      Outcome malloc realloc (largest realloc st.size) st.line st.fp s e
        (loop (unbufferedTurn malloc realloc terminator) steps st) := by
  -- a turn enlarges the line or takes one character, at most two turns for each
  induction steps with
  | zero => exact fun _ _ _ _ _ _ _ _ h => absurd h (Nat.not_lt_zero _)
  | succ steps ih =>
    intro st s hline hmore hroom hcopy htwo hword hsteps
    rw [loop_succ]
    by_cases hlast : st.copy = 1
    · have hzero : ¬ 0 < less st.copy 1 := by
        rw [hlast]
        decide
      rw [unbufferedTurn, if_neg hzero]
      rw [if_pos hlast] at hsteps
      have hne : st.line ≠ [] := List.ne_nil_of_length_pos (by omega)
      refine enlarge_outcome (by omega) htwo hword hline.ne_nil (fun hsmall => ?_)
        (fun hlarge => State.Over.unbufferedTurn ⟨?_, hne⟩ ?_)
      · have hleft : less (st.size * 2) st.line.length = st.size * 2 - st.line.length :=
          less_eq (by omega) (by omega)
        rw [hleft, less_eq (Nat.zero_le _) (by omega), Nat.sub_zero]
        refine ih { st with size := st.size * 2, copy := st.size * 2 - st.line.length } s hline hmore
          (show st.size * 2 - st.line.length + st.line.length = st.size * 2 by
          omega) (show 1 ≤ st.size * 2 - st.line.length by omega)
          (show 2 ≤ st.size * 2 by omega) (show st.size * 2 < 2 ^ 32 by omega) ?_
        rw [if_neg (show ¬ st.size * 2 - st.line.length = 1 by omega)]
        omega
      · show st.size * 2 % 2 ^ 32 ≤ st.line.length
        omega
      · show 0 < less (less (less (st.size * 2 % 2 ^ 32) st.line.length) 0) 1
        unfold less
        omega
    · have hpos : 0 < less st.copy 1 := by
        rw [less_eq hcopy (by omega)]
        omega
      rw [unbufferedTurn, if_pos hpos]
      rw [if_neg hlast] at hsteps
      refine takeOne_outcome rfl hvalue hline (fun he hnil => ?_) (by omega) (le_largest realloc _)
        (fun _ => rfl) fun c s' g hs hgetc hrest => ?_
      · have hfar := hmore he
        rw [hnil, List.length_nil] at hfar
        omega
      · rw [less_eq hcopy (by omega), loopFrom]
        rw [hs, List.length_cons] at hsteps hmore
        have hlen : (st.line ++ [c]).length = st.line.length + 1 := by
          rw [List.length_append, List.length_singleton]
        refine ih { copy := st.copy - 1, line := st.line ++ [c], size := st.size, fp := g } s' hrest
          (fun he => ?_) ?_ (show 1 ≤ st.copy - 1 by omega) htwo hword ?_
        · rw [hlen]
          have hfar := hmore he
          omega
        · show st.copy - 1 + (st.line ++ [c]).length = st.size
          omega
        · split_ifs <;> omega

theorem char_toNat (t : UInt8) : char t.toNat = t := by
  have hlt := t.toNat_lt
  have hmod : ((t.toNat : ℤ) % 256).toNat = t.toNat := by omega
  rw [char, hmod, UInt8.ofNat_toNat]

/-- The second loop at the beginning of a turn, and in front of the block. -/
structure Going (malloc : ℕ → Option Str) (halts : UInt8 → Bool) (e : Ending) (f : FILE σ)
    (st : State σ) (s : Str) : Prop where
  reading : Reading st.fp
  line : Line malloc halts st.fp s e f
  more : e = .more → 2 ^ 32 ≤ st.line.length + s.length
  room : st.copy + st.line.length + 1 = st.size
  two : 2 ≤ st.size
  word : st.size < 2 ^ 32

theorem Going.enlarge {steps : ℕ} (h : Going malloc halts e f st s) (hzero : st.copy = 0)
    (ih : ∀ (st : State σ) (s : Str), Going malloc halts e f st s → 1 ≤ st.copy → s.length < steps →
      Outcome malloc realloc (largest realloc st.size) st.line st.fp s e
        (loop (bufferedTurn malloc realloc t.toNat) steps st))
    (hsteps : s.length < steps) :
    Outcome malloc realloc (largest realloc st.size) st.line st.fp s e
      (st.enlarge realloc 1 >>= loopFrom (bufferedTurn malloc realloc t.toNat) steps) := by
  have hroom := h.room
  have htwo := h.two
  have hword := h.word
  have hne : st.line ≠ [] := List.ne_nil_of_length_pos (by omega)
  refine enlarge_outcome (by omega) htwo hword h.line.ne_nil (fun hsmall => ?_)
    (fun hlarge => State.Over.bufferedTurn ⟨?_, hne⟩ ?_ ?_)
  · have hleft : less (st.size * 2) st.line.length = st.size * 2 - st.line.length :=
      less_eq (by omega) (by omega)
    rw [hleft, less_eq (by omega) (by omega)]
    refine ih { st with size := st.size * 2, copy := st.size * 2 - st.line.length - 1 } s
      ⟨h.reading, h.line, h.more, ?_, ?_, ?_⟩ (show 1 ≤ st.size * 2 - st.line.length - 1 by omega) hsteps
    · show st.size * 2 - st.line.length - 1 + st.line.length + 1 = st.size * 2
      omega
    · show 2 ≤ st.size * 2
      omega
    · show st.size * 2 < 2 ^ 32
      omega
  · show st.size * 2 % 2 ^ 32 ≤ st.line.length
    omega
  · show less (less (st.size * 2 % 2 ^ 32) st.line.length) 1 ≠ 0
    unfold less
    omega
  · show less (less (st.size * 2 % 2 ^ 32) st.line.length) 1 < 2 ^ 32
    exact Nat.mod_lt _ (by omega)

theorem Going.copyBlock {steps : ℕ} (hhalts : ∀ c, halts c = decide (c = t))
    (h : Going malloc halts e f st s)
    (ih : ∀ (st : State σ) (s : Str), Going malloc halts e f st s → 1 ≤ st.copy → s.length < steps →
      Outcome malloc realloc (largest realloc st.size) st.line st.fp s e
        (loop (bufferedTurn malloc realloc t.toNat) steps st))
    (hsteps : s.length < steps ∨ 1 ≤ st.copy ∧ 0 < ahead st.fp ∧ s.length ≤ steps) :
    Outcome malloc realloc (largest realloc st.size) st.line st.fp s e
      (Getdelim.copyBlock realloc t.toNat st >>=
        loopFrom (bufferedTurn malloc realloc t.toNat) steps) := by
  have hroom := h.room
  have hword := h.word
  have hle := le_largest realloc st.size
  obtain ⟨i, hi⟩ : ∃ i, (if st.copy < ahead st.fp then st.copy else ahead st.fp) = i := ⟨_, rfl⟩
  have hcopy : i ≤ st.copy := by
    rw [← hi]
    split_ifs <;> omega
  have hahead : i ≤ st.fp.get_limit - st.fp.bufp := by
    rw [← h.reading.ahead_eq, ← hi]
    split_ifs <;> omega
  obtain ⟨w, found, s', hcall, rfl, htakes, hlen, hfound, hgo⟩ := memccpy_line hhalts i hahead h.line
    (fun he => by have hfar := h.more he; omega)
  have hstore : State.store { st with fp := { st.fp with bufp := st.fp.bufp + w.length } } w =
      .ok { st with line := st.line ++ w, fp := { st.fp with bufp := st.fp.bufp + w.length } } := by
    refine if_pos ?_
    show st.line.length + w.length ≤ st.size
    omega
  rw [Getdelim.copyBlock]
  simp only
  rw [hi, char_toNat, hcall, ok_bind]
  simp only
  rw [hstore, ok_bind]
  refine Outcome.take htakes (by omega) ?_
  have hlength : (st.line ++ w).length = st.line.length + w.length := List.length_append
  -- the end of the line was in the block, or all of the block has been copied
  cases found with
  | true =>
    obtain ⟨hne, rfl, rfl, -⟩ := hfound rfl
    have hlt : (st.line ++ w).length < st.size := by omega
    rw [if_pos rfl, win_eq hlt]
    exact Outcome.found (List.append_ne_nil_of_right_ne_nil _ hne) hlt hle
  | false =>
    obtain ⟨rfl, hline⟩ := hgo rfl
    rw [if_neg Bool.false_ne_true, less_eq hcopy (by omega)]
    have hgoing : Going malloc halts e f ⟨st.copy - w.length, st.line ++ w, st.size,
        { st.fp with bufp := st.fp.bufp + w.length }⟩ s' := by
      refine ⟨htakes.reading h.reading, hline, fun he => ?_, ?_, h.two, hword⟩
      · have hfar := h.more he
        rw [List.length_append] at hfar
        show 2 ^ 32 ≤ (st.line ++ w).length + s'.length
        omega
      · show st.copy - w.length + (st.line ++ w).length + 1 = st.size
        omega
    have hrest : s'.length < steps := by
      rw [List.length_append] at hsteps
      rcases hsteps with hsteps | ⟨hpos, hpos', hsteps⟩
      · omega
      · have hone : 1 ≤ w.length := by
          rw [← hi]
          split_ifs <;> omega
        omega
    -- the counter is at zero when the line is to be enlarged
    by_cases hzero : st.copy - w.length = 0
    · rw [if_pos hzero]
      exact hgoing.enlarge hzero ih hrest
    · rw [if_neg hzero]
      exact ih _ s' hgoing (Nat.one_le_iff_ne_zero.mpr hzero) hrest

theorem toNat_eq_iff (hhalts : ∀ c, halts c = decide (c = t)) (c : UInt8) :
    ((c.toNat : ℤ) = (t.toNat : ℤ)) ↔ halts c = true := by
  rw [hhalts, decide_eq_true_eq, Nat.cast_inj, UInt8.toNat_inj]

theorem Going.refilled {c : UInt8} {g : FILE σ} (h : Going malloc halts e f st (c :: s))
    (hcopy : 1 ≤ st.copy) (hgetc : getc malloc st.fp = .ok (some c, g))
    (hline : Line malloc halts g s e f) : Going malloc halts e f
      ⟨less st.copy 1, st.line ++ [c], st.size, g⟩ s := by
  have hroom := h.room
  have hword := h.word
  have hlen : (st.line ++ [c]).length = st.line.length + 1 := by
    rw [List.length_append, List.length_singleton]
  refine ⟨h.reading.getc hgetc, hline, fun he => ?_, ?_, h.two, hword⟩
  · have hfar := h.more he
    rw [List.length_cons] at hfar
    show 2 ^ 32 ≤ (st.line ++ [c]).length + s.length
    omega
  · show less st.copy 1 + (st.line ++ [c]).length + 1 = st.size
    rw [less_eq hcopy (by omega)]
    omega

theorem buffered_outcome (hhalts : ∀ c, halts c = decide (c = t)) (steps : ℕ) :
    ∀ (st : State σ) (s : Str), Going malloc halts e f st s → 1 ≤ st.copy → s.length < steps →
      Outcome malloc realloc (largest realloc st.size) st.line st.fp s e
        (loop (bufferedTurn malloc realloc t.toNat) steps st) := by
  induction steps with
  | zero => exact fun _ _ _ _ h => absurd h (Nat.not_lt_zero _)
  | succ steps ih =>
    intro st s h hcopy hsteps
    have hroom := h.room
    have hword := h.word
    rw [loop_succ, bufferedTurn]
    by_cases hempty : ahead st.fp = 0
    · rw [if_pos hempty, bind_assoc]
      refine takeOne_outcome (getc_empty h.reading hempty) (toNat_eq_iff hhalts) h.line
        (fun he hnil => ?_) (by omega) (le_largest realloc _) (fun _ => rfl)
        fun c s' g hs hgetc hline => ?_
      · have hfar := h.more he
        rw [hnil, List.length_nil] at hfar
        omega
      · subst hs
        have hblock := (h.refilled hcopy hgetc hline).copyBlock hhalts ih
          (.inl (Nat.lt_of_succ_lt_succ hsteps))
        rw [Turn.next]
        exact hblock
    · rw [if_neg hempty, ok_bind]
      exact h.copyBlock hhalts ih (.inr ⟨hcopy, Nat.pos_of_ne_zero hempty, Nat.le_of_lt_succ hsteps⟩)

/-- The counter wraps: a character is stored where the NUL should go, and nothing stops the
next ones. -/
theorem Going.starved (hhalts : ∀ c, halts c = decide (c = t)) (h : Going malloc halts e f st s)
    (hzero : st.copy = 0) (hline : st.line.length = 1) (hempty : ahead st.fp = 0) (hne : s ≠ [])
    (steps : ℕ) (got : Got σ) : loop (bufferedTurn malloc realloc t.toNat) steps st ≠ .ok got := by
  have hroom := h.room
  cases steps with
  | zero => exact (nomatch ·)
  | succ steps =>
    rw [loop_succ, bufferedTurn, if_pos hempty]
    have hlength : ∀ c : UInt8, (st.line ++ [c]).length = 2 := by
      intro c
      rw [List.length_append, List.length_singleton, hline]
    rcases takeOne_line (getc_empty h.reading hempty) (toNat_eq_iff hhalts) h.line (fun _ => hne)
      (by omega) with ⟨hnil, -⟩ | ⟨c, -, -, -, htake⟩ | ⟨c, s', g, -, -, -, htake⟩
    · exact absurd hnil hne
    · have hover : State.Over { st with line := st.line ++ [c], fp := f } := by
        refine ⟨?_, List.append_ne_nil_of_right_ne_nil _ (List.cons_ne_nil c [])⟩
        show st.size ≤ (st.line ++ [c]).length
        rw [hlength]
        omega
      rw [htake, hover.win, error_bind, error_bind]
      exact (nomatch ·)
    · have hover : State.Over ⟨less st.copy 1, st.line ++ [c], st.size, g⟩ := by
        refine ⟨?_, List.append_ne_nil_of_right_ne_nil _ (List.cons_ne_nil c [])⟩
        show st.size ≤ (st.line ++ [c]).length
        rw [hlength]
        omega
      have hcopy : less st.copy 1 ≠ 0 ∧ less st.copy 1 < 2 ^ 32 := by
        rw [hzero]
        unfold less
        omega
      rw [htake, ok_bind, Turn.next]
      intro hok
      obtain ⟨turn, hblock, hok⟩ := bind_ok hok
      obtain ⟨-, rfl⟩ := hover.copyBlock hcopy.1 hcopy.2 hblock
      exact loop_never (hover.bufferedTurn hcopy.1 hcopy.2) steps got hok

theorem Going.two_bytes {steps : ℕ} (hhalts : ∀ c, halts c = decide (c = t))
    (h : Going malloc halts e f st s) (hzero : st.copy = 0) (hline : st.line.length = 1)
    (hnot : ahead st.fp = 0 → s = []) (hsteps : s.length < steps) :
    Outcome malloc realloc (largest realloc st.size) st.line st.fp s e
      (loop (bufferedTurn malloc realloc t.toNat) (steps + 1) st) := by
  have hroom := h.room
  have hle := le_largest realloc st.size
  rw [loop_succ, bufferedTurn]
  by_cases hempty : ahead st.fp = 0
  · have hnil := hnot hempty
    subst hnil
    rw [if_pos hempty]
    have hmore : e = .more → ([] : Str) ≠ [] := by
      intro he
      have hfar := h.more he
      rw [List.length_nil] at hfar
      omega
    rcases takeOne_line (getc_empty h.reading hempty) (toNat_eq_iff hhalts) h.line hmore
      (by omega) with ⟨-, rfl, hgetc, htake⟩ | ⟨c, hno, -⟩ | ⟨c, s', g, hno, -⟩
    · have hlt : st.line.length < st.size := by omega
      have hlose : State.lose { st with fp := f } = _ := lose_eq hlt
      rw [htake, hlose, ok_bind, Turn.next, ok_bind, loopFrom]
      refine Outcome.eof hgetc hlt hle ?_
      by_cases htop : st.line.length + 1 < largest realloc st.size
      · exact .inl htop
      · exact .inr (by omega)
    · exact absurd hno (List.cons_ne_nil _ _).symm
    · exact absurd hno (List.cons_ne_nil _ _).symm
  · rw [if_neg hempty, ok_bind]
    exact h.copyBlock hhalts (buffered_outcome hhalts steps) (.inl hsteps)

end Run

def unbuffered (stream : FILE σ) : Bool := stream.buffer.isNone && stream.userbuf

/-- What ends a line: in the first loop a `char` is compared, which is never 128 or more. -/
def ends (stream : FILE σ) (t c : UInt8) : Bool :=
  decide (c = t ∧ (unbuffered stream = false ∨ t.toNat < 128))

/-- Two bytes, the first of which is taken by `getc`, and the next character must be read into
the buffer of the stream. -/
def Starved (malloc : ℕ → Option Str) (size : ℕ) (seen : Bool) (stream : FILE σ) (s : Str) : Prop :=
  unbuffered stream = false ∧ size = 2 ∧
    (seen = false ∨ stream.buffer.isNone = true ∨ stream.pushed_back = true) ∧ 2 ≤ s.length ∧
    ∃ c g, getc malloc stream = .ok (some c, g) ∧ ahead g = 0

/-- An unbuffered stream delivers a terminator that is not seen, and then another character. -/
def Overlooked (realloc : ℕ → Bool) (size : ℕ) (stream : FILE σ) (t : UInt8) (s : Str) : Prop :=
  unbuffered stream = true ∧ 128 ≤ t.toNat ∧ t ∈ (s.take (largest realloc size - 1)).dropLast ∧
    (s.take (largest realloc size - 1)).length < 2 ^ 31

def lineSize (block : Bool) (n : ℕ) : ℕ := if block = false ∨ n < 2 then MAX_CANON else n

section Right

variable {malloc : ℕ → Option Str} {realloc : ℕ → Bool} {halts : UInt8 → Bool}
  {fp stream f : FILE σ} {s : Str} {e : Ending} {t : UInt8} {top size : ℕ}
  {out : Except Stop (Got σ)} {seen : Bool}

theorem Line.plain (h : Line malloc halts fp s e f) : ∀ c ∈ s.dropLast, halts c = false := by
  induction h with
  | more => exact fun c hc => absurd hc List.not_mem_nil
  | eof => exact fun c hc => absurd hc List.not_mem_nil
  | found => exact fun c hc => absurd hc List.not_mem_nil
  | @next _ _ _ c s _ hc _ _ ih =>
    intro d hd
    cases s with
    | nil => exact absurd hd List.not_mem_nil
    | cons b s =>
      rw [List.dropLast_cons_cons] at hd
      rcases List.mem_cons.mp hd with rfl | hd
      · exact hc
      · exact ih d hd

theorem Line.last (h : Line malloc halts fp s e f) (he : e = .found) :
    ∃ c, s.getLast? = some c ∧ halts c = true := by
  induction h with
  | more => cases he
  | eof => cases he
  | @found _ _ c hc => exact ⟨c, rfl, hc⟩
  | @next _ _ _ c s _ _ _ _ ih =>
    obtain ⟨d, hlast, hd⟩ := ih he
    refine ⟨d, ?_, hd⟩
    cases s with
    | nil => cases hlast
    | cons b s => exact hlast

theorem mem_dropLast_of_take {c : UInt8} {k : ℕ} (h : c ∈ (s.take k).dropLast) : c ∈ s.dropLast := by
  rw [List.dropLast_eq_take, List.take_take, List.length_take] at h
  rw [List.dropLast_eq_take]
  have hsplit : min (min k s.length - 1) k = min (min (min k s.length - 1) k) (s.length - 1) := by
    omega
  rw [hsplit, ← List.take_take] at h
  exact List.mem_of_mem_take h

theorem grow_lt (turns : ℕ) : ∀ {size}, size < 2 ^ 32 → grow realloc turns size < 2 ^ 32 := by
  induction turns with
  | zero => exact id
  | succ turns ih =>
    intro size h
    rw [grow]
    split_ifs with hsmall
    · exact ih (by omega)
    · exact h

theorem ssize_neg {len : ℕ} (hlarge : 2 ^ 31 ≤ len) (hword : len < 2 ^ 32) : ssize len < 0 := by
  rw [ssize, if_neg (by omega)]
  omega

/-- The promise is kept if the room did not run out in the wrong place, and the terminator was
seen. -/
theorem Outcome.right_iff (h : Outcome malloc realloc top [] stream s e out)
    (hline : Line malloc (ends stream t) stream s e f) (hword : top < 2 ^ 32) :
    Right malloc realloc stream t out ↔ ¬ Wraps realloc top (Getdelim.plain s e) ∧
      ¬ (unbuffered stream = true ∧ 128 ≤ t.toNat ∧ t ∈ (s.take (top - 1)).dropLast ∧
        (s.take (top - 1)).length < 2 ^ 31) := by
  unfold Outcome at h
  rw [List.nil_append] at h
  by_cases hwraps : Wraps realloc top (Getdelim.plain s e)
  · rw [if_pos hwraps] at h
    exact iff_of_false (fun ⟨got, hgot, _⟩ => h got hgot) (fun hno => hno.1 hwraps)
  rw [if_neg hwraps] at h
  obtain ⟨got, g, rfl, hret, hstored, hlen, htakes, hend⟩ := h
  rw [List.length_nil, Nat.sub_zero] at htakes
  -- where the terminator ends a line, there is none in front of the last character
  have hseen : t ∈ (s.take (top - 1)).dropLast → unbuffered stream = true ∧ 128 ≤ t.toNat := by
    intro hmem
    have hno := hline.plain t (mem_dropLast_of_take hmem)
    rw [ends, decide_eq_false_iff_not] at hno
    refine ⟨?_, ?_⟩
    · by_contra hbuffered
      exact hno ⟨rfl, .inl (by rw [← Bool.not_eq_true]; exact hbuffered)⟩
    · by_contra hsmall
      exact hno ⟨rfl, .inr (Nat.not_le.mp hsmall)⟩
  have hshort : (s.take (top - 1)).length ≤ top - 1 := List.length_take_le _ _
  obtain ⟨all, hall⟩ : ∃ all, s.take (top - 1) = all := ⟨_, rfl⟩
  rw [hall] at hret hstored hlen htakes hend hseen hshort
  rw [hall, and_iff_right hwraps]
  by_cases hnil : all = []
  · rw [if_pos hnil] at hret
    refine iff_of_true ⟨got, rfl, fun hpos => ?_⟩ fun hno => ?_
    · rw [hret] at hpos
      exact absurd hpos (by decide)
    · rw [hnil] at hno
      exact absurd hno.2.2.1 List.not_mem_nil
  rw [if_neg hnil] at hret hstored
  by_cases hsmall : all.length < 2 ^ 31
  · rw [ssize, if_pos hsmall] at hret
    constructor
    · rintro ⟨got', heq, hright⟩ ⟨-, -, hmem, -⟩
      obtain rfl := Except.ok.inj heq
      obtain ⟨line, g', hstored', -, -, -, hnot, -⟩ :=
        hright (by rw [hret]; exact Int.natCast_nonneg _)
      rw [hstored] at hstored'
      obtain rfl := (List.append_inj_left' hstored' rfl)
      exact hnot hmem
    · intro hno
      refine ⟨got, rfl, fun _ => ⟨all, g, hstored, hret, ?_, htakes, fun hmem => ?_, ?_⟩⟩
      · rw [hstored, List.length_append, List.length_singleton]
        exact hlen
      · obtain ⟨hun, hhigh⟩ := hseen hmem
        exact hno ⟨hun, hhigh, hmem, hsmall⟩
      · rcases hend with ⟨he, hfits, hg⟩ | hend | ⟨hfull, hfail, hg⟩
        · refine .inl ⟨?_, hg⟩
          obtain ⟨c, hlast, hc⟩ := hline.last he
          rw [ends, decide_eq_true_eq] at hc
          rw [← hall, List.take_of_length_le (by omega), hlast, hc.1]
        · exact .inr (.inl hend)
        · refine .inr (.inr ⟨?_, hfail, hg⟩)
          rw [hstored, List.length_append, List.length_singleton]
          exact hfull
  · have hneg := ssize_neg (Nat.not_lt.mp hsmall) (by omega)
    refine iff_of_true ⟨got, rfl, fun hpos => ?_⟩ fun hno => hsmall hno.2.2.2
    rw [hret] at hpos
    exact absurd hpos (not_le.mpr hneg)

theorem signed_eq_iff (t c : UInt8) : signed c = t.toNat ↔ c = t ∧ t.toNat < 128 := by
  have hlt := c.toNat_lt
  rw [← UInt8.toNat_inj, signed]
  split_ifs with hsmall
  · rw [Nat.cast_inj]
    omega
  · omega

theorem unbuffered_iff : unbuffered stream = true ↔
    stream.buffer.isNone = true ∧ stream.userbuf = true := by
  rw [unbuffered, Bool.and_eq_true]

variable (realloc seen) in
theorem readLine_outcome {steps : ℕ} (hr : Reading stream) (htwo : 2 ≤ size) (hword : size < 2 ^ 32)
    (hline : Line malloc (ends stream t) stream s e f) (hmore : e = .more → 2 ^ 32 ≤ s.length)
    (hsteps : 2 * s.length + 2 ≤ steps) :
    (¬ Starved malloc size seen stream s → Outcome malloc realloc (largest realloc size) [] stream s e
      (readLine malloc realloc steps size t.toNat seen stream)) ∧
    (Starved malloc size seen stream s → ∀ got, readLine malloc realloc steps size t.toNat seen stream ≠ .ok got) := by
  have hfar : e = .more → s ≠ [] := by
    intro he hnil
    have hlong := hmore he
    rw [hnil, List.length_nil] at hlong
    omega
  -- without a buffer the first loop reads the whole line, and nothing starves
  by_cases hun : unbuffered stream = true
  · refine ⟨fun _ => ?_, fun hstarved => ?_⟩
    · rw [readLine, if_pos (unbuffered_iff.mp hun)]
      have hvalue : ∀ c, signed c = t.toNat ↔ ends stream t c = true := by
        intro c
        rw [signed_eq_iff, ends, decide_eq_true_eq, hun]
        simp only [Bool.true_eq_false, false_or]
      refine unbuffered_outcome hvalue steps ⟨size, [], size, stream⟩ s hline (fun he => ?_)
        (Nat.add_zero size) (show 1 ≤ size by omega) htwo hword ?_
      · rw [List.length_nil, Nat.zero_add]
        exact hmore he
      · rw [if_neg (show ¬ size = 1 by omega)]
        omega
    · have hno := hstarved.1
      rw [hun] at hno
      exact absurd hno (by decide)
  have hhalts : ∀ c, ends stream t c = decide (c = t) := by
    intro c
    rw [Bool.not_eq_true] at hun
    rw [ends, hun]
    simp only [true_or, and_true]
  have hless : less size 1 = size - 1 := less_eq (by omega) hword
  have hbegin : Going malloc (ends stream t) e f ⟨size - 1, [], size, stream⟩ s := by
    refine ⟨hr, hline, fun he => ?_, ?_, htwo, hword⟩
    · rw [List.length_nil, Nat.zero_add]
      exact hmore he
    · show size - 1 + 0 + 1 = size
      omega
  rw [readLine, if_neg (fun hyes => hun (unbuffered_iff.mpr hyes)), hless, takeFirst]
  simp only
  -- a first character is read before the loop that copies blocks, unless the buffer is there
  by_cases hfirst : seen = false ∨ stream.buffer.isNone = true ∨ stream.pushed_back = true
  · rw [if_pos hfirst]
    obtain ⟨steps, rfl⟩ := Nat.exists_eq_succ_of_ne_zero (show steps ≠ 0 by omega)
    refine ⟨fun hnot => ?_, fun hstarved => ?_⟩
    · change Outcome malloc realloc (largest realloc size)
        (State.mk (size - 1) [] size stream).line (State.mk (size - 1) [] size stream).fp s e _
      refine takeOne_outcome rfl (toNat_eq_iff hhalts) hline hfar (show 0 + 1 < size by omega)
        (le_largest realloc size) (fun _ => rfl) fun c s' g hs hgetc hrest => ?_
      subst hs
      rw [List.length_cons] at hsteps
      have hgoing := hbegin.refilled (show 1 ≤ size - 1 by omega) hgetc hrest
      have hcopy : less (size - 1) 1 = size - 2 := less_eq (by omega) (by omega)
      rw [loopFrom]
      -- with two bytes the counter is at zero behind the first character
      by_cases hthree : 3 ≤ size
      · refine buffered_outcome hhalts (steps + 1) _ s' hgoing ?_ (by omega)
        show 1 ≤ less (size - 1) 1
        omega
      · have hsize : size = 2 := by omega
        refine hgoing.two_bytes hhalts (show less (size - 1) 1 = 0 by omega) rfl (fun hempty => ?_)
          (by omega)
        by_contra hne
        have hlen := List.length_pos_iff.mpr hne
        refine hnot ⟨by rw [← Bool.not_eq_true]; exact hun, hsize, hfirst, ?_, c, g, hgetc, hempty⟩
        rw [List.length_cons]
        omega
    · obtain ⟨-, rfl, -, hlen, c, g, hgetc, hempty⟩ := hstarved
      cases hline with
      | more =>
        rw [List.length_nil] at hlen
        omega
      | eof =>
        rw [List.length_nil] at hlen
        omega
      | found =>
        rw [List.length_singleton] at hlen
        omega
      | next hc hgetc' hrest =>
        rename_i g' c' s'
        rw [hgetc] at hgetc'
        obtain ⟨hchar, rfl⟩ := Prod.mk.inj (Except.ok.inj hgetc')
        obtain rfl := Option.some.inj hchar
        have hgoing := hbegin.refilled (show 1 ≤ 2 - 1 by omega) hgetc hrest
        have htake : takeOne (getc malloc) (fun c => (c.toNat : ℤ)) t.toNat
            (⟨2 - 1, [], 2, stream⟩ : State σ) = .ok (.go ⟨less (2 - 1) 1, [] ++ [c], 2, g⟩) := by
          have hstop : ¬ (c.toNat : ℤ) = (t.toNat : ℤ) := by
            rw [toNat_eq_iff hhalts, hc]
            exact Bool.false_ne_true
          have hstore : State.store (⟨2 - 1, [], 2, g⟩ : State σ) [c] = .ok ⟨2 - 1, [] ++ [c], 2, g⟩ :=
            if_pos (show 0 + 1 ≤ 2 by omega)
          rw [takeOne, hgetc, ok_bind]
          simp only
          rw [hstore, ok_bind, if_neg hstop]
        rw [htake, ok_bind, loopFrom]
        rw [List.length_cons] at hlen
        refine hgoing.starved hhalts ?_ rfl hempty (List.ne_nil_of_length_pos (by omega)) _
        show less (2 - 1) 1 = 0
        rw [less_eq (by omega) (by omega)]
  · rw [if_neg hfirst, ok_bind, loopFrom]
    refine ⟨fun _ => ?_, fun hstarved => absurd hstarved.2.2.1 hfirst⟩
    exact buffered_outcome hhalts steps _ s hbegin (show 1 ≤ size - 1 by omega) (by omega)

theorem lineSize_bounds (block : Bool) {n : ℕ} (hn : n < 2 ^ 32) :
    2 ≤ lineSize block n ∧ lineSize block n < 2 ^ 32 := by
  rw [lineSize]
  split_ifs with hnew
  · decide
  · rw [not_or] at hnew
    omega

end Right

/-- When `getdelim` reads a line: if the line buffer cannot be had in the first place; or if the
largest one is not filled and then doubled beyond the range of `size_t`, one of two bytes is not
filled by the first `getc` with the stream's buffer empty behind it, and a terminator of 128 or more
is not overlooked on an unbuffered stream. -/
theorem getdelim_iff {σ : Type} {malloc : ℕ → Option Str} {realloc : ℕ → Bool} {steps n : ℕ}
    {valid block seen : Bool} {t : UInt8} {stream f : FILE σ} {s : Str} {e : Ending}
    (hr : Reading stream) (hn : n < 2 ^ 32) (hline : Line malloc (ends stream t) stream s e f)
    (hmore : e = .more → 2 ^ 32 ≤ s.length) (hsteps : 2 * s.length + 2 ≤ steps) :
    Right malloc realloc stream t
        (getdelim malloc realloc steps valid block n t.toNat seen stream) ↔
      valid = false ∨ stream.error = true ∨
        ((block = false ∨ n < 2) ∧ realloc MAX_CANON = false) ∨
        ¬ Wraps realloc (largest realloc (lineSize block n)) (plain s e) ∧
          ¬ Starved malloc (lineSize block n) seen stream s ∧
          ¬ Overlooked realloc (lineSize block n) stream t s := by
  have hfail : Right malloc realloc stream t (.ok ⟨-1, [], n, stream⟩) :=
    ⟨_, rfl, fun hpos => absurd (show (0 : ℤ) ≤ -1 from hpos) (by decide)⟩
  rw [getdelim]
  by_cases hvalid : valid = false ∨ stream.error = true
  · rw [if_pos hvalid]
    exact iff_of_true hfail (hvalid.imp_right .inl)
  rw [if_neg hvalid]
  rw [not_or] at hvalid
  by_cases hnew : (block = false ∨ n < 2) ∧ realloc MAX_CANON = false
  · rw [if_pos hnew]
    exact iff_of_true hfail (.inr (.inr (.inl hnew)))
  rw [if_neg hnew]
  obtain ⟨htwo, hword⟩ := lineSize_bounds block hn
  obtain ⟨hok, hstarved⟩ := readLine_outcome realloc seen hr htwo hword hline hmore
    hsteps
  change Right malloc realloc stream t
    (readLine malloc realloc steps (lineSize block n) t.toNat seen stream) ↔ _
  rw [or_iff_right hvalid.1, or_iff_right hvalid.2, or_iff_right hnew]
  by_cases hno : Starved malloc (lineSize block n) seen stream s
  · exact iff_of_false (fun ⟨got, hgot, _⟩ => hstarved hno got hgot) fun h => h.2.1 hno
  · rw [(hok hno).right_iff hline (grow_lt 32 hword)]
    exact ⟨fun h => ⟨h.1, hno, h.2⟩, fun h => ⟨h.1, h.2.2⟩⟩

/-- A file that is read through a buffer of one byte. -/
abbrev byteStream (content : Str) : FILE Ungetc.Disk :=
  Ungetc.opened ⟨true, false, false⟩ Ungetc.Disk.functions ⟨content, 0⟩
    ⟨some [0], 1, true, false, fun h => (by cases h), fun _ h => (by cases h; decide)⟩

/-- The stream behind the next character. -/
def behind (fp : FILE Ungetc.Disk) : FILE Ungetc.Disk :=
  match getc (fun _ => none) fp with
  | .ok (_, g) => g
  | .error _ => fp

theorem getc_behind {fp : FILE Ungetc.Disk} {c : Option UInt8}
    (h : (getc (fun _ => none) fp).map Prod.fst = .ok c) :
    getc (fun _ => none) fp = .ok (c, behind fp) := by
  unfold behind
  cases hget : getc (fun _ => none) fp with
  | error stop =>
    rw [hget] at h
    cases h
  | ok r =>
    rw [hget] at h
    cases h
    rfl

/-- `"abcde\n"`, each character of which is read into the stream's buffer by itself; the line buffer
has three bytes at first. -/
theorem getdelim_iff_demo :
    Right (fun _ => none) (· ≤ 100) (byteStream [97, 98, 99, 100, 101, 10]) 10
      (getdelim (fun _ => none) (· ≤ 100) 14 true true 3 (10 : UInt8).toNat false
        (byteStream [97, 98, 99, 100, 101, 10])) := by
  have hread : Reading (byteStream [97, 98, 99, 100, 101, 10]) :=
    ⟨Ungetc.opened_wf (Ungetc.stdio_seek_legal rfl), Nat.le_refl 0, fun h => absurd h (by decide)⟩
  have hline : Line (fun _ => none) (ends (byteStream [97, 98, 99, 100, 101, 10]) 10)
      (byteStream [97, 98, 99, 100, 101, 10]) [97, 98, 99, 100, 101, 10] .found _ :=
    .next (by decide) (getc_behind (by decide +kernel)) <|
    .next (by decide) (getc_behind (by decide +kernel)) <|
    .next (by decide) (getc_behind (by decide +kernel)) <|
    .next (by decide) (getc_behind (by decide +kernel)) <|
    .next (by decide) (getc_behind (by decide +kernel)) <|
    .found (by decide) (getc_behind (by decide +kernel))
  refine (getdelim_iff hread (by decide) hline (fun h => (nomatch h)) (by decide)).mpr
    (.inr (.inr (.inr ⟨?_, ?_, ?_⟩)))
  · exact fun h => absurd h.1 (by decide +kernel)
  · exact fun h => absurd h.2.1 (by decide)
  · exact fun h => absurd h.2.1 (by decide)

/-- `*n` is 2: of `"ab\n"` the second character is stored in the last byte and the third one
behind it. -/
theorem two_bytes_overrun :
    ¬ Right (fun _ => none) (fun _ => true) (byteStream [97, 98, 10]) 10
      (getdelim (fun _ => none) (fun _ => true) 20 true true 2 (10 : UInt8).toNat false
        (byteStream [97, 98, 10])) := by
  have hout : (getdelim (fun _ => none) (fun _ => true) 20 true true 2 (10 : UInt8).toNat false
      (byteStream [97, 98, 10])).map Got.ret = .error .bounds := by
    decide +kernel
  rintro ⟨got, hgot, -⟩
  rw [hgot] at hout
  cases hout

end Mintlib.Stdio.Getdelim
