import Mintlib.Stdio.File

/-!
# Streams with an output-room function of their own

Such a stream puts characters into something: `put` says what a character does to it, `Good`
which stream stands for which state of it. `Serves` lists what the room function and the
buffer have to do for this; that `putc`, `fwrite` and `fflush` then do it follows.
-/

namespace Mintlib.Stdio

open Mintlib.Text Checked

variable {σ A : Type} {rooms : Rooms σ} {output : FILE σ → Option UInt8 → Except Stop (FILE σ)}
  {put : A → UInt8 → A} {Good Mid Failed : FILE σ → A → Prop} {Flushes : Prop}
  {fp stream : FILE σ} {a : A} {c : UInt8}

/-- A stream that takes output into a buffer. -/
structure Ready (fp : FILE σ) : Prop where
  write : fp.mode.write = true
  error : fp.error = false
  back : fp.pushed_back = false
  line : fp.linebuf = false
  active : fp.linebuf_active = false
  block : ∃ mem, fp.buffer = some mem ∧ fp.bufsize ≤ mem.length
  size : 0 < fp.bufsize
  bufp : fp.bufp ≤ fp.bufsize
  limit : fp.put_limit = fp.bufsize ∨ fp.put_limit = 0

/-- `__put_limit` is the end of the buffer, as it is until a seek. -/
def Primed (fp : FILE σ) : Prop := fp.put_limit = fp.bufsize

/-- What a room function and a buffer do to serve `put`. `Mid` holds behind a flush; `Flushes`
says whether a client may flush; `Failed` is about what was put before the failure. -/
structure Serves (rooms : Rooms σ) (output : FILE σ → Option UInt8 → Except Stop (FILE σ))
    (put : A → UInt8 → A) (Good Mid Failed : FILE σ → A → Prop) (Flushes : Prop) : Prop where
  special : rooms.default_func = false
  room : rooms.output = some output
  weaken : ∀ {fp a}, Good fp a → Mid fp a
  keep : Flushes → ∀ {fp a}, Mid fp a → Good fp a
  ready : ∀ {fp a}, Mid fp a → Ready fp
  failed : ∀ {fp a}, Failed fp a → fp.error = true ∧ fp.linebuf = false ∧ fp.put_limit ≤ fp.bufp
  store : ∀ {fp a mem} (c), Mid fp a → Primed fp → fp.bufp < fp.bufsize → fp.buffer = some mem →
    Good { fp with buffer := some (mem.set fp.bufp c), bufp := fp.bufp + 1 } (put a c)
  char : ∀ {fp a} (c), Mid fp a → fp.put_limit ≤ fp.bufp →
    ∃ fp', output fp (some c) = .ok fp' ∧ (Good fp' (put a c) ∧ Primed fp' ∨ Failed fp' a)
  flush : ∀ {fp a}, Mid fp a → fp.bufp = fp.bufsize ∨ Flushes → ∃ fp', output fp none = .ok fp' ∧
    (Mid fp' a ∧ Primed fp' ∧ fp'.bufp < fp'.bufsize ∨ Failed fp' a)
  offset : ∀ {fp a}, Good fp a → ∃ fp', stdioCheckOffset rooms fp = (none, fp') ∧ Good fp' a ∧
    (Primed fp → Primed fp')

theorem toNat_ne_EOF (c : UInt8) : (c.toNat : ℤ) ≠ EOF := by
  show (c.toNat : ℤ) ≠ -1
  omega

theorem init_eq {mem : Str} (hmem : fp.buffer = some mem) : initStream rooms fp = fp := by
  rw [initStream, if_neg (by rw [hmem]; simp)]

section Ready

theorem Ready.init (h : Ready fp) : initStream rooms fp.discard = fp := by
  obtain ⟨mem, hmem, -⟩ := h.block
  rw [FILE.discard, h.back, if_neg (by decide), init_eq hmem]

theorem Ready.flshfp (h : Ready fp) (hroom : rooms.output = some output) (c : Option UInt8) :
    Stdio.flshfp rooms fp c = Stdio.flushOrPut output fp c := by
  rw [Stdio.flshfp, if_neg (by rw [h.write]; decide), if_neg (by rw [h.error]; decide), h.init, hroom]

theorem Ready.makeRoom (h : Ready fp) (c : Option UInt8) {fp' : FILE σ}
    (hout : output fp c = .ok fp') (hline : fp'.linebuf = false) :
    Stdio.makeRoom output fp c = .ok (if fp'.error then EOF else c.elim 0 (·.toNat), fp') := by
  rw [Stdio.makeRoom, h.active, if_neg (by decide), hout]
  simp only [bind, Except.bind, hline, Bool.false_eq_true, if_false]
  split_ifs <;> cases c <;> rfl

end Ready

section Serves

theorem Serves.good_ready (h : Serves rooms output put Good Mid Failed Flushes) (hg : Good fp a) :
    Ready fp :=
  h.ready (h.weaken hg)

/-- A part of `p` was put before the failure, but not all of it. -/
def Stopped (put : A → UInt8 → A) (Failed : FILE σ → A → Prop) (a : A) (p : Str) (fp : FILE σ) :
    Prop :=
  ∃ q rest, p = q ++ rest ∧ rest ≠ [] ∧ Failed fp (q.foldl put a)

theorem Stopped.of_append {q p : Str} (h : Stopped put Failed (q.foldl put a) p fp) :
    Stopped put Failed a (q ++ p) fp := by
  obtain ⟨q', rest, rfl, hrest, hfail⟩ := h
  exact ⟨q ++ q', rest, (List.append_assoc q q' rest).symm, hrest, by rwa [List.foldl_append]⟩

theorem Stopped.append {p : Str} (h : Stopped put Failed a p fp) (p' : Str) :
    Stopped put Failed a (p ++ p') fp := by
  obtain ⟨q, rest, rfl, hrest, hfail⟩ := h
  exact ⟨q, rest ++ p', List.append_assoc q rest p', by simp [hrest], hfail⟩

theorem Serves.flshfp_char (h : Serves rooms output put Good Mid Failed Flushes) (hmid : Mid fp a)
    (hfull : fp.put_limit ≤ fp.bufp) (c : UInt8) : ∃ r fp',
      Stdio.flshfp rooms fp (some c) = .ok (r, fp') ∧
        (r = c.toNat ∧ Good fp' (put a c) ∧ Primed fp' ∨ r = EOF ∧ Failed fp' a) := by
  have hready := h.ready hmid
  obtain ⟨fp', hout, hok⟩ := h.char c hmid hfull
  have hno : ¬ fp.bufp < (if fp.linebuf_active then fp.bufsize else fp.put_limit) := by
    rw [hready.active, if_neg (by decide)]
    exact not_lt.mpr hfull
  rw [hready.flshfp h.room, Stdio.flushOrPut, if_neg hno]
  rcases hok with ⟨hgood, hprimed⟩ | hfail
  · have hready' := h.good_ready hgood
    refine ⟨c.toNat, fp', ?_, Or.inl ⟨rfl, hgood, hprimed⟩⟩
    rw [hready.makeRoom (some c) hout hready'.line, hready'.error]
    rfl
  · obtain ⟨herror, hline, -⟩ := h.failed hfail
    refine ⟨EOF, fp', ?_, Or.inr ⟨rfl, hfail⟩⟩
    rw [hready.makeRoom (some c) hout hline, herror, if_pos rfl]

theorem Serves.flshfp_flush (h : Serves rooms output put Good Mid Failed Flushes) (hmid : Mid fp a)
    (hfull : fp.bufp = fp.bufsize ∨ Flushes) : ∃ r fp', Stdio.flshfp rooms fp none = .ok (r, fp') ∧
      (r = 0 ∧ Mid fp' a ∧ Primed fp' ∧ fp'.bufp < fp'.bufsize ∨ r = EOF ∧ Failed fp' a) := by
  have hready := h.ready hmid
  obtain ⟨fp', hout, hok⟩ := h.flush hmid hfull
  rw [hready.flshfp h.room, Stdio.flushOrPut]
  rcases hok with ⟨hmid', hprimed, hlt⟩ | hfail
  · have hready' := h.ready hmid'
    refine ⟨0, fp', ?_, Or.inl ⟨rfl, hmid', hprimed, hlt⟩⟩
    rw [hready.makeRoom none hout hready'.line, hready'.error]
    rfl
  · obtain ⟨herror, hline, -⟩ := h.failed hfail
    refine ⟨EOF, fp', ?_, Or.inr ⟨rfl, hfail⟩⟩
    rw [hready.makeRoom none hout hline, herror, if_pos rfl]

theorem Serves.fflush_eq (h : Serves rooms output put Good Mid Failed Flushes) (hmid : Mid fp a) :
    fflush rooms fp = Stdio.flshfp rooms fp none := by
  rw [fflush, if_neg (by rw [(h.ready hmid).write]; simp)]

theorem Serves.store_ok (h : Serves rooms output put Good Mid Failed Flushes) (hmid : Mid fp a)
    (hprimed : Primed fp) (hlt : fp.bufp < fp.bufsize) (c : UInt8) : ∃ fp',
      fp.store c = .ok fp' ∧ Good fp' (put a c) ∧ Primed fp' ∧ fp'.bufsize = fp.bufsize ∧
        fp'.bufp = fp.bufp + 1 := by
  obtain ⟨mem, hmem, hsize⟩ := (h.ready hmid).block
  refine ⟨{ fp with buffer := some (mem.set fp.bufp c), bufp := fp.bufp + 1 }, ?_,
    h.store c hmid hprimed hlt hmem, hprimed, rfl, rfl⟩
  rw [FILE.store, hmem]
  exact if_pos (by omega)

theorem Serves.putc_ok (h : Serves rooms output put Good Mid Failed Flushes) (hmid : Mid fp a)
    (c : UInt8) : ∃ r fp', putc rooms c fp = .ok (r, fp') ∧
      (r = c.toNat ∧ Good fp' (put a c) ∧ Primed fp' ∨ r = EOF ∧ Failed fp' a) := by
  by_cases hlt : fp.bufp < fp.put_limit
  · have hready := h.ready hmid
    have hprimed : Primed fp := hready.limit.resolve_right (by omega)
    obtain ⟨fp', hstore, hgood, hprimed', -, -⟩ :=
      h.store_ok hmid hprimed (by rw [← hprimed]; exact hlt) c
    refine ⟨c.toNat, fp', ?_, Or.inl ⟨rfl, hgood, hprimed'⟩⟩
    rw [putc, if_pos hlt, hstore]
    rfl
  · rw [putc, if_neg hlt]
    exact h.flshfp_char hmid (not_lt.mp hlt) c

theorem Serves.copy_ok (h : Serves rooms output put Good Mid Failed Flushes) (p : Str) :
    ∀ {fp : FILE σ} {a : A}, Mid fp a → Primed fp → fp.bufp + p.length ≤ fp.bufsize → ∃ fp',
      fp.copy p = .ok fp' ∧ Mid fp' (p.foldl put a) ∧ (p ≠ [] → Good fp' (p.foldl put a)) ∧
        Primed fp' ∧ fp'.bufsize = fp.bufsize ∧ fp'.bufp = fp.bufp + p.length := by
  induction p with
  | nil =>
    intro fp a hmid hprimed _
    exact ⟨fp, rfl, hmid, fun h => absurd rfl h, hprimed, rfl, rfl⟩
  | cons c p ih =>
    intro fp a hmid hprimed hroom
    rw [List.length_cons] at hroom
    obtain ⟨fp₁, hstore, hgood, hprimed₁, hsize, hbufp⟩ := h.store_ok hmid hprimed (by omega) c
    obtain ⟨fp', hcopy, hmid', hgood', hprimed', hsize', hbufp'⟩ :=
      ih (h.weaken hgood) hprimed₁ (by omega)
    refine ⟨fp', ?_, hmid', fun _ => ?_, hprimed', hsize'.trans hsize, ?_⟩
    · rw [FILE.copy, hstore]
      exact hcopy
    · by_cases hp : p = []
      · subst hp
        obtain rfl : fp₁ = fp' := Except.ok.inj hcopy
        exact hgood
      · exact hgood' hp
    · rw [hbufp', hbufp, List.length_cons]
      omega

/-- A flush leaves room, so that `check_space` has nothing to do. -/
theorem Serves.flushFull_ok (h : Serves rooms output put Good Mid Failed Flushes) (hmid : Mid fp a)
    (hfull : fp.bufp = fp.bufsize) {p : Str} (hp : p ≠ []) (written : ℕ) : ∃ fp' done,
      flushFull rooms fp p written = .ok ⟨fp', p, written, done⟩ ∧
        (done = false ∧ Mid fp' a ∧ Primed fp' ∧ 0 < fp'.space ∨ done = true ∧ Failed fp' a) := by
  obtain ⟨c, p, rfl⟩ := List.exists_cons_of_ne_nil hp
  obtain ⟨r, fp', hflush, ⟨rfl, hmid', hprimed, hlt⟩ | ⟨rfl, hfail⟩⟩ :=
    h.flshfp_flush hmid (Or.inl hfull)
  · have hspace : 0 < fp'.space := Nat.sub_pos_of_lt hlt
    refine ⟨fp', false, ?_, Or.inl ⟨rfl, hmid', hprimed, hspace⟩⟩
    rw [flushFull, h.fflush_eq hmid, hflush]
    simp only [bind, Except.bind]
    rw [if_neg (by decide), checkSpace, if_neg (by omega)]
  · refine ⟨fp', true, ?_, Or.inr ⟨rfl, hfail⟩⟩
    rw [flushFull, h.fflush_eq hmid, hflush]
    rfl

theorem Serves.fillBuffer_ok (h : Serves rooms output put Good Mid Failed Flushes) (turns : ℕ) :
    ∀ {fp : FILE σ} {a : A} {p : Str} (written : ℕ), Mid fp a → Primed fp → p ≠ [] →
      2 * p.length + (if fp.space = 0 then 1 else 0) ≤ turns → ∃ n fp',
        fillBuffer rooms turns fp fp.space p written = .ok (n, fp') ∧
          (n = written + p.length ∧ Good fp' (p.foldl put a) ∧ Primed fp' ∨
            n < written + p.length ∧ Stopped put Failed a p fp') := by
  -- each turn copies what has room and flushes; two turns for a byte are enough
  induction turns with
  | zero =>
    intro fp a p written _ _ hp hturns
    have := List.length_pos_iff.mpr hp
    omega
  | succ turns ih =>
    intro fp a p written hmid hprimed hp hturns
    set n := min p.length fp.space with hn
    have hspace : fp.space = fp.bufsize - fp.bufp := rfl
    have hbufp := (h.ready hmid).bufp
    have htake : (p.take n).length = n := by
      rw [List.length_take]
      omega
    have hdrop : (p.drop n).length = p.length - n := List.length_drop
    have hfold : (p.drop n).foldl put ((p.take n).foldl put a) = p.foldl put a := by
      rw [← List.foldl_append, List.take_append_drop]
    obtain ⟨fp₁, hcopy, hmid₁, hgood₁, hprimed₁, hsize₁, hbufp₁⟩ :=
      h.copy_ok (p.take n) hmid hprimed (by omega)
    have hstep : fillBuffer rooms (turns + 1) fp fp.space p written =
        if p.drop n = [] then .ok (written + n, fp₁)
        else if fp.space - n = 0 then do
          let go ← flushFull rooms fp₁ (p.drop n) (written + n)
          if go.done then .ok (go.written, go.stream)
          else fillBuffer rooms turns go.stream go.stream.space go.p go.written
        else fillBuffer rooms turns fp₁ (fp.space - n) (p.drop n) (written + n) := by
      obtain ⟨c, p, rfl⟩ := List.exists_cons_of_ne_nil hp
      rw [fillBuffer]
      simp only [← hn, hcopy, bind, Except.bind]
    rw [hstep]
    -- all of it had room
    by_cases hrest : p.drop n = []
    · have hlen : p.length = n := by
        have := List.drop_eq_nil_iff.mp hrest
        omega
      have hall : p.take n = p := List.take_of_length_le hlen.le
      rw [hall] at hgood₁
      exact ⟨written + n, fp₁, if_pos hrest, Or.inl ⟨by rw [hlen], hgood₁ hp, hprimed₁⟩⟩
    · rw [if_neg hrest]
      have hlong : fp.space < p.length := by
        by_contra hle
        exact hrest (List.drop_eq_nil_iff.mpr (by omega))
      have hnspace : n = fp.space := by omega
      rw [if_pos (by omega)]
      obtain ⟨fp₂, done, hflush, ⟨rfl, hmid₂, hprimed₂, hspace₂⟩ | ⟨rfl, hfail⟩⟩ :=
        h.flushFull_ok hmid₁ (by omega) hrest (written + n)
      · obtain ⟨m, fp', hfill, hm⟩ := ih (written + n) hmid₂ hprimed₂ hrest (by
          rw [if_neg (by omega), hdrop]
          split_ifs at hturns <;> omega)
        refine ⟨m, fp', ?_, ?_⟩
        · rw [hflush]
          exact hfill
        · rw [hdrop, hfold] at hm
          have hback : written + n + (p.length - n) = written + p.length := by omega
          rw [hback] at hm
          refine hm.imp (fun hdone => hdone) fun ⟨hlt, hstop⟩ => ⟨hlt, ?_⟩
          rw [← List.take_append_drop n p]
          exact hstop.of_append
      · refine ⟨written + n, fp₂, ?_,
          Or.inr ⟨by omega, p.take n, p.drop n, (List.take_append_drop n p).symm, hrest, hfail⟩⟩
        rw [hflush]
        rfl

theorem Serves.writeRest_ok (h : Serves rooms output put Good Mid Failed Flushes) (hgood : Good fp a)
    (hprimed : Primed fp) {p : Str} (hp : p ≠ []) (written : ℕ) : ∃ n fp',
      writeRest rooms fp p written = .ok (n, fp') ∧
        (n = written + p.length ∧ Good fp' (p.foldl put a) ∧ Primed fp' ∨
          n < written + p.length ∧ Stopped put Failed a p fp') := by
  obtain ⟨fp₁, hoffset, hgood₁, hprimed₁⟩ := h.offset hgood
  have hready := h.good_ready hgood₁
  obtain ⟨mem, hmem, -⟩ := hready.block
  have hsize := hready.size
  obtain ⟨n, fp', hfill, hn⟩ := h.fillBuffer_ok (2 * p.length + 1) written (h.weaken hgood₁)
    (hprimed₁ hprimed) hp (by split_ifs <;> omega)
  refine ⟨n, fp', ?_, hn⟩
  rw [writeRest, hoffset]
  simp only [hready.line, hmem, h.special, Bool.false_and]
  rw [if_neg (by simp), if_neg (by simp), if_neg (by simp; omega), if_pos (Or.inl trivial),
    fillAndFlush, hfill]
  rfl

theorem Serves.fwrite_ok (h : Serves rooms output put Good Mid Failed Flushes) (hgood : Good fp a)
    {ptr : Str} {size nmemb : ℕ} (hptr : ptr.length = size * nmemb) : ∃ n fp',
      fwrite rooms ptr size fp = .ok (n, fp') ∧
        (n = ptr.length / size ∧ Good fp' (ptr.foldl put a) ∨
          n < ptr.length / size ∧ Stopped put Failed a ptr fp') := by
  have hready := h.good_ready hgood
  by_cases hnil : ptr = []
  · subst hnil
    refine ⟨0, fp, ?_, Or.inl ⟨by rw [List.length_nil, Nat.zero_div], hgood⟩⟩
    rw [fwrite]
    split_ifs <;> rfl
  have hpos := List.length_pos_iff.mpr hnil
  have hsize : 0 < size := Nat.pos_of_mul_pos_right (hptr ▸ hpos)
  have hnmemb : 0 < nmemb := Nat.pos_of_mul_pos_left (hptr ▸ hpos)
  have hdiv : ptr.length / size = nmemb := by
    rw [hptr, Nat.mul_div_cancel_left nmemb hsize]
  have hless : ∀ n, n < ptr.length → n / size < ptr.length / size := by
    intro n hn
    rw [hdiv, Nat.div_lt_iff_lt_mul hsize, Nat.mul_comm, ← hptr]
    exact hn
  obtain ⟨c, p, rfl⟩ := List.exists_cons_of_ne_nil hnil
  have hopen : ¬ (fp.mode.write = false ∨ fp.error = true) := by
    rw [hready.write, hready.error]
    simp
  rw [fwrite, if_neg hopen]
  by_cases h0 : fp.put_limit = 0
  · obtain ⟨r, fp₁, hchar, ⟨rfl, hgood₁, hprimed₁⟩ | ⟨rfl, hfail⟩⟩ :=
      h.flshfp_char (h.weaken hgood) (by omega) c
    · have hne := toNat_ne_EOF c
      simp only [if_pos h0, hchar, bind, Except.bind, if_neg hne]
      by_cases hp : p = []
      · subst hp
        refine ⟨1, fp₁, if_pos rfl, Or.inl ⟨?_, hgood₁⟩⟩
        rw [List.length_singleton] at hptr ⊢
        rw [Nat.eq_one_of_mul_eq_one_right hptr.symm]
      · obtain ⟨n, fp', hrest, hn⟩ := h.writeRest_ok hgood₁ hprimed₁ hp 1
        refine ⟨n / size, fp', by rw [if_neg hp, hrest], hn.imp ?_ ?_⟩
        · rintro ⟨rfl, hgood', -⟩
          exact ⟨by rw [List.length_cons, Nat.add_comm], hgood'⟩
        · rintro ⟨hlt, hstop⟩
          exact ⟨hless n (by rw [List.length_cons]; omega), Stopped.of_append (q := [c]) hstop⟩
    · simp only [if_pos h0, hchar, bind, Except.bind]
      refine ⟨0, fp₁, rfl, Or.inr ⟨?_, [], c :: p, rfl, hnil, hfail⟩⟩
      rw [hdiv]
      exact hnmemb
  · obtain ⟨n, fp', hrest, hn⟩ := h.writeRest_ok hgood (hready.limit.resolve_right h0) hnil 0
    simp only [if_neg h0, hrest, bind, Except.bind]
    refine ⟨n / size, fp', rfl, hn.imp ?_ ?_⟩
    · rintro ⟨rfl, hgood', -⟩
      exact ⟨by rw [Nat.zero_add], hgood'⟩
    · rintro ⟨hlt, hfail⟩
      exact ⟨hless n (by omega), hfail⟩

end Serves

/-- What a client does with a stream. -/
inductive Op
  | putc (c : UInt8)
  | fwrite (ptr : Str) (size nmemb : ℕ) (length : ptr.length = size * nmemb)
  | fflush
deriving DecidableEq

def Op.bytes : Op → Str
  | putc c => [c]
  | fwrite ptr _ _ _ => ptr
  | fflush => []

def Op.success : Op → ℤ
  | putc c => c.toNat
  | fwrite _ size nmemb _ => if size = 0 then 0 else nmemb
  | fflush => 0

def Op.run (rooms : Rooms σ) (stream : FILE σ) : Op → Except Stop (ℤ × FILE σ)
  | putc c => Stdio.putc rooms c stream
  | fwrite ptr size _ _ => do
    let (n, stream) ← Stdio.fwrite rooms ptr size stream
    .ok (n, stream)
  | fflush => Stdio.fflush rooms stream

def runs (rooms : Rooms σ) : List Op → FILE σ → Except Stop (List ℤ × FILE σ)
  | [], stream => .ok ([], stream)
  | op :: ops, stream => do
    let (r, stream) ← op.run rooms stream
    let (rs, stream) ← runs rooms ops stream
    .ok (r :: rs, stream)

/-- The formatter: any client, that counts what it writes and returns -1 if a call fails. -/
def vfprintf (rooms : Rooms σ) (ops : List Op) (stream : FILE σ) : Except Stop (ℤ × FILE σ) := do
  let (rs, stream) ← runs rooms ops stream
  .ok (if rs = ops.map Op.success then ((ops.flatMap Op.bytes).length : ℤ) else -1, stream)

section Runs

theorem Serves.op_ok (h : Serves rooms output put Good Mid Failed Flushes) (op : Op)
    (hflush : op = .fflush → Flushes) (hgood : Good fp a) : ∃ r fp',
      op.run rooms fp = .ok (r, fp') ∧
        (r = op.success ∧ Good fp' (op.bytes.foldl put a) ∨
          r ≠ op.success ∧ ∃ a', Failed fp' a' ∧
            (op ≠ .fflush → Stopped put Failed a op.bytes fp')) := by
  cases op with
  | putc c =>
    obtain ⟨r, fp', hput, hok⟩ := h.putc_ok (h.weaken hgood) c
    refine ⟨r, fp', hput, hok.imp (fun ⟨hr, hgood', _⟩ => ⟨hr, hgood'⟩) ?_⟩
    rintro ⟨rfl, hfail⟩
    exact ⟨(toNat_ne_EOF c).symm, a, hfail, fun _ => ⟨[], [c], rfl, List.cons_ne_nil _ _, hfail⟩⟩
  | fwrite ptr size nmemb hlen =>
    obtain ⟨n, fp', hwrite, hok⟩ := h.fwrite_ok hgood hlen
    have hdiv : ptr.length / size = if size = 0 then 0 else nmemb := by
      split_ifs with h0
      · rw [h0, Nat.div_zero]
      · rw [hlen, Nat.mul_div_cancel_left nmemb (Nat.pos_of_ne_zero h0)]
    have hsucc : (Op.fwrite ptr size nmemb hlen).success = (ptr.length / size : ℕ) := by
      rw [hdiv, Op.success]
      split_ifs <;> rfl
    rw [hsucc]
    refine ⟨n, fp', ?_, hok.imp (fun ⟨hn, hgood'⟩ => ⟨by rw [hn], hgood'⟩) ?_⟩
    · rw [Op.run, hwrite]
      rfl
    · rintro ⟨hlt, hstop⟩
      obtain ⟨q, rest, hq, hrest, hfail⟩ := hstop
      exact ⟨by omega, _, hfail, fun _ => ⟨q, rest, hq, hrest, hfail⟩⟩
  | fflush =>
    obtain ⟨r, fp', hrun, hok⟩ := h.flshfp_flush (h.weaken hgood) (Or.inr (hflush rfl))
    refine ⟨r, fp', ?_, hok.imp (fun ⟨hr, hmid, _⟩ => ⟨hr, h.keep (hflush rfl) hmid⟩) ?_⟩
    · rw [Op.run, h.fflush_eq (h.weaken hgood), hrun]
    · rintro ⟨rfl, hfail⟩
      exact ⟨by decide, a, hfail, fun hne => absurd rfl hne⟩

theorem Serves.op_failed (h : Serves rooms output put Good Mid Failed Flushes) (op : Op)
    (hfail : Failed fp a) : ∃ r, op.run rooms fp = .ok (r, fp) := by
  obtain ⟨herror, -, hlimit⟩ := h.failed hfail
  have hroom : ∀ c, Stdio.flshfp rooms fp c = .ok (EOF, fp) := by
    intro c
    rw [Stdio.flshfp]
    by_cases hwrite : fp.mode.write = false
    · exact if_pos hwrite
    · rw [if_neg hwrite]
      exact if_pos herror
  cases op with
  | putc c => exact ⟨EOF, by rw [Op.run, putc, if_neg (not_lt.mpr hlimit), hroom]⟩
  | fwrite ptr size nmemb hlen =>
    refine ⟨0, ?_⟩
    rw [Op.run, fwrite.eq_def, if_pos (Or.inr herror)]
    rfl
  | fflush =>
    rw [Op.run, fflush]
    split_ifs
    · exact ⟨0, rfl⟩
    · exact ⟨EOF, hroom none⟩

theorem Serves.runs_failed (h : Serves rooms output put Good Mid Failed Flushes) (ops : List Op)
    (hfail : Failed fp a) : ∃ rs, runs rooms ops fp = .ok (rs, fp) := by
  induction ops with
  | nil => exact ⟨[], rfl⟩
  | cons op ops ih =>
    obtain ⟨r, hop⟩ := h.op_failed op hfail
    obtain ⟨rs, hops⟩ := ih
    refine ⟨r :: rs, ?_⟩
    rw [runs, hop]
    simp only [bind, Except.bind, hops]

/-- A whole run: every call succeeds and all output is put, or the stream has failed; without
flushes some of the output is then missing. -/
theorem Serves.runs_ok (h : Serves rooms output put Good Mid Failed Flushes) (ops : List Op) :
    ∀ {fp : FILE σ} {a : A}, (.fflush ∈ ops → Flushes) → Good fp a →
      ∃ rs fp', runs rooms ops fp = .ok (rs, fp') ∧
        (rs = ops.map Op.success ∧ Good fp' ((ops.flatMap Op.bytes).foldl put a) ∨
          rs ≠ ops.map Op.success ∧ ∃ a', Failed fp' a' ∧
            (.fflush ∉ ops → Stopped put Failed a (ops.flatMap Op.bytes) fp')) := by
  induction ops with
  | nil =>
    intro fp a _ hgood
    exact ⟨[], fp, rfl, Or.inl ⟨rfl, hgood⟩⟩
  | cons op ops ih =>
    intro fp a hflush hgood
    obtain ⟨r, fp₁, hop, ⟨rfl, hgood₁⟩ | ⟨hr, a', hfail, hstop⟩⟩ :=
      h.op_ok op (fun hop => hflush (hop ▸ List.mem_cons_self)) hgood
    · obtain ⟨rs, fp', hops, hok⟩ := ih (fun hmem => hflush (List.mem_cons_of_mem _ hmem)) hgood₁
      refine ⟨op.success :: rs, fp', ?_, ?_⟩
      · rw [runs, hop]
        simp only [bind, Except.bind, hops]
      · rw [List.flatMap_cons, List.foldl_append, List.map_cons]
        refine hok.imp (fun ⟨hrs, hgood'⟩ => ⟨by rw [hrs], hgood'⟩) ?_
        rintro ⟨hrs, a', hfail, hstop⟩
        refine ⟨fun heq => hrs (List.cons.inj heq).2, a', hfail, fun hno => ?_⟩
        exact (hstop fun hmem => hno (List.mem_cons_of_mem _ hmem)).of_append
    · obtain ⟨rs, hops⟩ := h.runs_failed ops hfail
      refine ⟨r :: rs, fp₁, ?_, Or.inr ⟨fun heq => hr (List.cons.inj heq).1, a', hfail, ?_⟩⟩
      · rw [runs, hop]
        simp only [bind, Except.bind, hops]
      · intro hno
        exact (hstop fun hop => hno (hop ▸ List.mem_cons_self)).append _

end Runs

end Mintlib.Stdio
