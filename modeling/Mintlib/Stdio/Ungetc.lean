import Mintlib.Stdio.Frames

/-!
# A character that is pushed back

`ftell` takes one off the position while a character is pushed back. `fseek` discards that
character and goes on from where the stream really is.
-/

namespace Mintlib.Stdio.Ungetc

open Mintlib.Text Checked

variable {σ : Type} (malloc : ℕ → Option Str)

/-- How `setvbuf` leaves a stream, or `fopen` if it is not called. -/
structure Buffering where
  buffer : Option Str
  bufsize : ℕ
  userbuf : Bool
  linebuf : Bool
  unbuffered : buffer = none → userbuf = true → bufsize = 0
  room : ∀ mem, buffer = some mem → bufsize = mem.length ∧ 0 < bufsize

/-- A stream that `fopen` has just opened. -/
def opened (mode : IoMode) (io_funcs : IoFunctions σ) (cookie : σ) (b : Buffering) : FILE σ where
  bufp := 0
  get_limit := 0
  put_limit := 0
  buffer := b.buffer
  bufsize := b.bufsize
  cookie := cookie
  mode := mode
  io_funcs := io_funcs
  offset := -1
  target := -1
  pushback_bufp := 0
  pushback := 0
  pushed_back := false
  eof := false
  error := false
  userbuf := b.userbuf
  linebuf := b.linebuf
  linebuf_active := false

/-- What may be called on a stream before the character is read. -/
inductive Call
  | getc
  | ungetc (c : UInt8)
  | putc (c : UInt8)
  | fflush
  | fseek (offset : ℤ) (whence : Whence)
  | ftell

def Call.run (fp : FILE σ) : Call → Except Stop (FILE σ)
  | getc => do
    let (_, fp) ← Stdio.getc malloc fp
    .ok fp
  | ungetc c => do
    let (_, fp) ← Stdio.ungetc malloc c fp
    .ok fp
  | putc c => do
    let (_, fp) ← Stdio.putc (defaultRooms malloc) c fp
    .ok fp
  | fflush => do
    let (_, fp) ← Stdio.fflush (defaultRooms malloc) fp
    .ok fp
  | fseek offset whence => do
    let (_, fp) ← Stdio.fseek (defaultRooms malloc) fp offset whence
    .ok fp
  | ftell => .ok (Stdio.ftell (defaultRooms malloc) fp).2

def run : List Call → FILE σ → Except Stop (FILE σ)
  | [], fp => .ok fp
  | call :: calls, fp => do
    let fp ← call.run malloc fp
    run calls fp

/-- The characters that the next `n` calls of `getc` deliver. -/
def reads : ℕ → FILE σ → Except Stop Str
  | 0, _ => .ok []
  | n + 1, fp => do
    let (c, fp) ← Stdio.getc malloc fp
    match c with
    | none => .ok []
    | some c => do
      let bytes ← reads n fp
      .ok (c :: bytes)

def Delivers (fp : FILE σ) (bytes : Str) : Prop := ∀ n, reads malloc n fp = .ok (bytes.take n)

/-- The promise about a stream at position `p`, where `c` was just read and `rest` follows. -/
def PushedBack (fp : FILE σ) (c : UInt8) (p : ℤ) (rest : Str) : Prop :=
  ∃ fp₁, ungetc malloc c fp = .ok ((c.toNat : ℤ), fp₁) ∧
    (ftell (defaultRooms malloc) fp₁).1 = p - 1 ∧ Delivers malloc fp₁ (c :: rest) ∧
    ∃ fp₂, fseek (defaultRooms malloc) (ftell (defaultRooms malloc) fp₁).2 0 .SEEK_CUR =
        .ok (0, fp₂) ∧
      (ftell (defaultRooms malloc) fp₂).1 = p - 1 ∧ Delivers malloc fp₂ (c :: rest)

/-- `__stdio_seek`; `__lseek` answers with the position, or below zero and with `errno`. -/
def stdioSeek (lseek : σ → ℤ → Whence → ℤ × SeekError × σ) (cookie : σ) (pos : ℤ)
    (whence : Whence) : Except SeekError (ℤ × σ) :=
  let (new, errno, cookie) := lseek cookie pos whence
  if new < 0 then .error errno else .ok (new, cookie)

theorem stdio_seek_legal {lseek : σ → ℤ → Whence → ℤ × SeekError × σ} {fp : FILE σ}
    (h : fp.io_funcs.seek = some (stdioSeek lseek)) : Legal fp := by
  intro seek hseek cookie offset whence pos cookie' hpos
  rw [h] at hseek
  obtain rfl := Option.some.inj hseek
  unfold stdioSeek at hpos
  simp only at hpos
  split_ifs at hpos with hneg
  obtain ⟨rfl, -⟩ := Prod.mk.inj (Except.ok.inj hpos)
  exact not_lt.mp hneg

structure WellFormed (fp : FILE σ) : Prop where
  null : NullPointers fp
  back : fp.buffer = none → fp.pushback_bufp = 0
  unbuffered : fp.buffer = none → fp.userbuf = true → fp.bufsize = 0
  size : fp.buffer ≠ none → 0 < fp.bufsize
  eof : fp.eof = true → fp.get_limit ≤ fp.bufp
  pushed : fp.pushed_back = true → fp.eof = false
  legal : Legal fp

section WellFormed

variable {malloc} {rooms : Rooms σ} {fp fp' : FILE σ} {r : ℤ}

theorem WellFormed.sane (h : WellFormed fp) : Sane fp := ⟨h.null, h.eof⟩

theorem WellFormed.of_frame (h : WellFormed fp) (hframe : Frame fp fp') (hsane : Sane fp')
    (hpushed : fp'.pushed_back = true → fp'.eof = false) : WellFormed fp' where
  null := hsane.null
  back := fun hnull => hframe.back.trans (h.back (hframe.null.mp hnull))
  unbuffered := fun hnull huser => hframe.bufsize.trans
    (h.unbuffered (hframe.null.mp hnull) (hframe.userbuf ▸ huser))
  size := fun hsome => by
    rw [hframe.bufsize]
    exact h.size fun hnull => hsome (hframe.null.mpr hnull)
  eof := hsane.eof
  pushed := hpushed
  legal := hframe.legal h.legal

theorem WellFormed.moved (h : WellFormed fp) (hmoved : Moved fp fp') : WellFormed fp' := by
  refine h.of_frame hmoved.frame (hmoved.sane h.sane) fun hpushed => ?_
  rw [hmoved.eof]
  exact h.pushed (hmoved.frame.pushed ▸ hpushed)

theorem pickBuffer_ok {alloc : ℕ → Option Str} {mem : Str} (turns : ℕ) : ∀ {size size' : ℕ},
    pickBuffer alloc turns size = (some mem, size') → 0 < size' := by
  induction turns with
  | zero =>
    intro size size' h
    cases h
  | succ turns ih =>
    intro size size' h
    unfold pickBuffer at h
    split_ifs at h with hlarge
    · split at h
      · exact ih h
      · obtain ⟨-, rfl⟩ := Prod.mk.inj h
        exact Nat.lt_of_lt_of_le (by decide) hlarge
    · cases h

theorem init_same (fp : FILE σ) : initStream rooms fp = { fp with
    buffer := (initStream rooms fp).buffer, bufsize := (initStream rooms fp).bufsize,
    userbuf := (initStream rooms fp).userbuf } := by
  unfold initStream
  by_cases hinit : fp.buffer.isNone = true ∧ fp.userbuf = false
  · rw [if_pos hinit]
    simp only
    generalize pickBuffer rooms.malloc _ _ = found
    obtain ⟨found, size⟩ := found
    cases found <;> rfl
  · rw [if_neg hinit]

variable (rooms) in
theorem WellFormed.init (h : WellFormed fp) : WellFormed (initStream rooms fp) ∧
    Begun (initStream rooms fp) ∧ (initStream rooms fp).pushed_back = fp.pushed_back ∧
    (initStream rooms fp).eof = fp.eof := by
  unfold initStream
  by_cases hinit : fp.buffer.isNone = true ∧ fp.userbuf = false
  · rw [if_pos hinit]
    have hnone := Option.isNone_iff_eq_none.mp hinit.1
    simp only
    generalize hsize : (if fp.bufsize = 0 then 1024 else fp.bufsize) = size
    obtain ⟨⟨found, size'⟩, hpick⟩ : ∃ x, pickBuffer rooms.malloc size size = x := ⟨_, rfl⟩
    rw [hpick]
    cases found with
    | none =>
      refine ⟨⟨h.null, h.back, fun _ _ => rfl, fun hsome => absurd hnone hsome, h.eof, h.pushed,
        h.legal⟩, fun _ => rfl, rfl, rfl⟩
    | some mem =>
      refine ⟨⟨fun hnull => (by cases hnull), fun hnull => (by cases hnull),
        fun hnull => (by cases hnull), fun _ => pickBuffer_ok size hpick, h.eof, h.pushed,
        h.legal⟩, fun hnull => (by cases hnull), rfl, rfl⟩
  · rw [if_neg hinit]
    refine ⟨h, fun hnull => ?_, rfl, rfl⟩
    by_contra huser
    rw [Bool.not_eq_true] at huser
    exact hinit ⟨Option.isNone_iff_eq_none.mpr hnull, huser⟩

theorem WellFormed.discard (h : WellFormed fp) : WellFormed fp.discard ∧
    fp.discard.pushed_back = false ∧ fp.discard.eof = fp.eof := by
  unfold FILE.discard
  split_ifs with hpushed
  · refine ⟨⟨fun hnull => ?_, h.back, h.unbuffered, h.size, fun heof => ?_, fun hno => ?_, h.legal⟩,
      rfl, rfl⟩
    · obtain ⟨-, hget, hput⟩ := h.null hnull
      exact ⟨h.back hnull, hget, hput⟩
    · have := h.pushed hpushed
      rw [show fp.eof = true from heof] at this
      exact absurd this (by decide)
    · exact absurd hno Bool.false_ne_true
  · rw [Bool.not_eq_true] at hpushed
    exact ⟨h, hpushed, rfl⟩

theorem WellFormed.store (h : WellFormed fp) {c : UInt8} (hstore : fp.store c = .ok fp') :
    WellFormed fp' ∧ fp'.pushed_back = fp.pushed_back := by
  obtain ⟨hframe, hnull, heof⟩ := store_frame hstore
  obtain ⟨mem, hmem, rfl⟩ := store_ok hstore
  exact ⟨h.of_frame hframe ⟨hnull, fun he => (h.eof he).trans (Nat.le_succ _)⟩ h.pushed, rfl⟩

theorem makeRoom_ok {output : FILE σ → Option UInt8 → Except Stop (FILE σ)} {c : Option UInt8}
    (hroom : makeRoom output fp c = .ok (r, fp')) :
    ∃ g, output (if fp.linebuf_active then { fp with put_limit := fp.bufsize } else fp) c = .ok g ∧
      fp' = (if g.linebuf then { g with put_limit := 0, linebuf_active := true } else g) ∧
      (r ≠ EOF → g.error = false) := by
  obtain ⟨g, hflush, hroom⟩ := bind_ok hroom
  refine ⟨g, hflush, ?_⟩
  have hkeep : (if g.linebuf then { g with put_limit := 0, linebuf_active := true } else g).error =
      g.error := by
    split_ifs <;> rfl
  simp only at hroom
  generalize (if g.linebuf then { g with put_limit := 0, linebuf_active := true } else g) = k
    at hroom hkeep
  by_cases herror : k.error = true
  · rw [if_pos herror] at hroom
    obtain ⟨rfl, rfl⟩ := Prod.mk.inj (Except.ok.inj hroom)
    exact ⟨rfl, fun hr => absurd rfl hr⟩
  · rw [if_neg herror] at hroom
    rw [Bool.not_eq_true] at herror
    cases c with
    | none =>
      obtain ⟨-, rfl⟩ := Prod.mk.inj (Except.ok.inj hroom)
      exact ⟨rfl, fun _ => hkeep.symm.trans herror⟩
    | some c =>
      obtain ⟨-, rfl⟩ := Prod.mk.inj (Except.ok.inj hroom)
      exact ⟨rfl, fun _ => hkeep.symm.trans herror⟩

theorem WellFormed.limit (h : WellFormed fp) (hb : Begun fp) :
    WellFormed (if fp.linebuf_active then { fp with put_limit := fp.bufsize } else fp) ∧
      Frame fp (if fp.linebuf_active then { fp with put_limit := fp.bufsize } else fp) := by
  split_ifs
  · refine ⟨⟨fun hnull => ?_, h.back, h.unbuffered, h.size, h.eof, h.pushed, h.legal⟩,
      ⟨Iff.rfl, rfl, rfl, rfl, rfl, rfl, id⟩⟩
    obtain ⟨hbufp, hget, -⟩ := h.null hnull
    exact ⟨hbufp, hget, h.unbuffered hnull (hb hnull)⟩
  · exact ⟨h, Frame.refl fp⟩

theorem WellFormed.makeRoom (h : WellFormed fp) (hb : Begun fp) (hpushed : fp.pushed_back = false)
    {c : Option UInt8} (hroom : Stdio.makeRoom (flushbuf malloc) fp c = .ok (r, fp')) :
    WellFormed fp' ∧ fp'.pushed_back = false ∧ Begun fp' := by
  obtain ⟨g, hflush, rfl, -⟩ := makeRoom_ok hroom
  obtain ⟨hlimit, hframe₁⟩ := h.limit hb
  obtain ⟨hframe₂, hsane⟩ := flushbuf_ok (hframe₁.begun hb) hlimit.legal hlimit.null hflush
  have hframe := hframe₁.trans hframe₂
  have hno : g.pushed_back = false := hframe.pushed.trans hpushed
  have hg : WellFormed g := h.of_frame hframe hsane fun hp => by
    rw [hno] at hp
    exact absurd hp Bool.false_ne_true
  split_ifs
  · refine ⟨⟨fun hnull => ?_, hg.back, hg.unbuffered, hg.size, hg.eof, hg.pushed, hg.legal⟩, hno,
      hframe.begun hb⟩
    obtain ⟨hbufp, hget, -⟩ := hg.null hnull
    exact ⟨hbufp, hget, rfl⟩
  · exact ⟨hg, hno, hframe.begun hb⟩

theorem WellFormed.flush (h : WellFormed fp) {c : Option UInt8}
    (hflush : Stdio.flshfp (defaultRooms malloc) fp c = .ok (r, fp')) : WellFormed fp' ∧
      (Begun fp → Begun fp') ∧ (fp.pushed_back = false → fp'.pushed_back = false) := by
  unfold Stdio.flshfp at hflush
  by_cases hwrite : fp.mode.write = false
  · rw [if_pos hwrite] at hflush
    obtain ⟨-, rfl⟩ := Prod.mk.inj (Except.ok.inj hflush)
    exact ⟨h, id, id⟩
  rw [if_neg hwrite] at hflush
  by_cases herror : fp.error = true
  · rw [if_pos herror] at hflush
    obtain ⟨-, rfl⟩ := Prod.mk.inj (Except.ok.inj hflush)
    exact ⟨h, id, id⟩
  rw [if_neg herror] at hflush
  obtain ⟨hdiscard, hno, -⟩ := h.discard
  obtain ⟨hinit, hbegun, hkeep, -⟩ := hdiscard.init (defaultRooms malloc)
  rw [hno] at hkeep
  simp only at hflush
  generalize initStream (defaultRooms malloc) fp.discard = g at hinit hbegun hkeep hflush
  have hend : ∀ {k : FILE σ} {d : Option UInt8}, WellFormed k → Begun k → k.pushed_back = false →
      Stdio.makeRoom (flushbuf malloc) k d = .ok (r, fp') → WellFormed fp' ∧
        (Begun fp → Begun fp') ∧ (fp.pushed_back = false → fp'.pushed_back = false) := by
    intro k d hk hkb hkp hroom
    obtain ⟨hwf, hp, hb⟩ := hk.makeRoom hkb hkp hroom
    exact ⟨hwf, fun _ => hb, fun _ => hp⟩
  cases c with
  | none => exact hend hinit hbegun hkeep hflush
  | some c =>
    simp only [flushOrPut, defaultRooms] at hflush
    generalize (if g.linebuf_active = true then g.bufsize else g.put_limit) = limit at hflush
    by_cases hfits : g.bufp < limit
    · rw [if_pos hfits] at hflush
      obtain ⟨k, hstore, hflush⟩ := bind_ok hflush
      obtain ⟨hk, hkp⟩ := hinit.store hstore
      have hkb := (store_frame hstore).1.begun hbegun
      split_ifs at hflush
      · exact hend hk hkb (hkp.trans hkeep) hflush
      · obtain ⟨-, rfl⟩ := Prod.mk.inj (Except.ok.inj hflush)
        exact ⟨hk, fun _ => hkb, fun _ => hkp.trans hkeep⟩
    · rw [if_neg hfits] at hflush
      exact hend hinit hbegun hkeep hflush

theorem WellFormed.check (h : WellFormed fp) {e : Option SeekError}
    (hcheck : stdioCheckOffset rooms fp = (e, fp')) : WellFormed fp' ∧ Begun fp' ∧
      Moved (initStream rooms fp) fp' ∧
      ((initStream rooms fp).target ≠ -1 → fp'.target = (initStream rooms fp).target) ∧
      (e = none → fp'.target ≠ -1) := by
  obtain ⟨hinit, hbegun, -, -⟩ := h.init rooms
  have hsame : stdioCheckOffset rooms fp = stdioCheckOffset rooms (initStream rooms fp) := by
    unfold stdioCheckOffset
    rw [hbegun.init]
  rw [hsame] at hcheck
  obtain ⟨hmoved, -, hkeep, hfound⟩ := check_ok hbegun hinit.legal hcheck
  exact ⟨hinit.moved hmoved, hmoved.frame.begun hbegun, hmoved, hkeep, hfound⟩

theorem WellFormed.flushLines (h : WellFormed fp) (hb : Begun fp) (hpushed : fp.pushed_back = false)
    (hlines : Stdio.flushLines malloc fp = .ok fp') :
    WellFormed fp' ∧ Begun fp' ∧ fp'.pushed_back = false := by
  unfold Stdio.flushLines at hlines
  split_ifs at hlines
  · obtain ⟨⟨r, g⟩, hflush, hlines⟩ := bind_ok hlines
    obtain rfl := Except.ok.inj hlines
    obtain ⟨hwf, hbegun, hno⟩ := h.flush hflush
    exact ⟨hwf, hbegun hb, hno hpushed⟩
  · obtain rfl := Except.ok.inj hlines
    exact ⟨h, hb, hpushed⟩

theorem WellFormed.flushWritten (h : WellFormed fp) (hb : Begun fp)
    (hpushed : fp.pushed_back = false) (hwritten : Stdio.flushWritten malloc fp = .ok fp') :
    WellFormed fp' ∧ Begun fp' ∧ fp'.pushed_back = false := by
  unfold Stdio.flushWritten at hwritten
  split_ifs at hwritten
  · obtain ⟨hframe, hsane⟩ := flushbuf_ok hb h.legal h.null hwritten
    have hno : fp'.pushed_back = false := hframe.pushed.trans hpushed
    refine ⟨h.of_frame hframe hsane fun hp => ?_, hframe.begun hb, hno⟩
    rw [hno] at hp
    exact absurd hp Bool.false_ne_true
  · obtain rfl := Except.ok.inj hwritten
    exact ⟨h, hb, hpushed⟩

theorem WellFormed.fillNext (h : WellFormed fp) (hpushed : fp.pushed_back = false)
    {c : Option UInt8} (hfill : Stdio.fillNext malloc fp = .ok (c, fp')) :
    WellFormed fp' ∧ (c ≠ none → fp'.eof = false) ∧
      (c ≠ none → fp'.pushed_back = false ∧ fp'.bufp ≤ fp'.get_limit) := by
  obtain ⟨hinit, hbegun, hkeep, -⟩ := h.init (bare malloc)
  unfold Stdio.fillNext at hfill
  obtain ⟨g, hlines, hfill⟩ := bind_ok hfill
  obtain ⟨hg, hgb, hgp⟩ := hinit.flushLines hbegun (hkeep.trans hpushed) hlines
  simp only at hfill
  generalize hk : (if g.linebuf_active = true then
    { g with put_limit := g.bufsize, linebuf_active := false } else g) = k at hfill
  have hstep : WellFormed k ∧ Begun k ∧ k.pushed_back = false := by
    obtain ⟨hlimit, -⟩ := hg.limit hgb
    rw [← hk]
    split_ifs with hactive
    · rw [if_pos hactive] at hlimit
      exact ⟨⟨hlimit.null, hlimit.back, hlimit.unbuffered, hlimit.size, hlimit.eof, hlimit.pushed,
        hlimit.legal⟩, hgb, hgp⟩
    · exact ⟨hg, hgb, hgp⟩
  obtain ⟨hkw, hkb, hkp⟩ := hstep
  obtain ⟨m, hwritten, hfill⟩ := bind_ok hfill
  obtain ⟨hm, hmb, hmp⟩ := hkw.flushWritten hkb hkp hwritten
  have hm' : WellFormed { m with target := k.target + k.get_limit } :=
    ⟨hm.null, hm.back, hm.unbuffered, hm.size, hm.eof, hm.pushed, hm.legal⟩
  by_cases herror : m.error = true
  · rw [if_pos herror] at hfill
    obtain ⟨rfl, rfl⟩ := Prod.mk.inj (Except.ok.inj hfill)
    exact ⟨hm', fun hno => absurd rfl hno, fun hno => absurd rfl hno⟩
  rw [if_neg herror] at hfill
  obtain ⟨⟨d, n⟩, hread, hfill⟩ := bind_ok hfill
  have hfilled := fillbuf_ok
    (show Begun { m with target := k.target + k.get_limit } from hmb) hm.legal hm.null hread
  have hnp : n.pushed_back = false := hfilled.frame.pushed.trans hmp
  have hn : WellFormed n := hm'.of_frame hfilled.frame hfilled.sane fun hp => by
    rw [hnp] at hp
    exact absurd hp Bool.false_ne_true
  obtain ⟨rfl, rfl⟩ := Prod.mk.inj (Except.ok.inj hfill)
  split_ifs
  · exact ⟨⟨hn.null, hn.back, hn.unbuffered, hn.size, hn.eof, hn.pushed, hn.legal⟩, hfilled.char,
      fun hc => ⟨hnp, hfilled.ahead hc⟩⟩
  · exact ⟨hn, hfilled.char, fun hc => ⟨hnp, hfilled.ahead hc⟩⟩

theorem WellFormed.fillbf (h : WellFormed fp) {c : Option UInt8}
    (hfill : Stdio.fillbf malloc fp = .ok (c, fp')) : WellFormed fp' ∧ (c ≠ none → fp'.eof = false) := by
  unfold Stdio.fillbf at hfill
  split_ifs at hfill with hread hpushed
  · obtain ⟨rfl, rfl⟩ := Prod.mk.inj (Except.ok.inj hfill)
    exact ⟨h, fun hno => absurd rfl hno⟩
  · obtain ⟨-, rfl⟩ := Prod.mk.inj (Except.ok.inj hfill)
    obtain ⟨hdiscard, -, -⟩ := h.discard
    rw [FILE.discard, if_pos hpushed] at hdiscard
    exact ⟨hdiscard, fun _ => h.pushed hpushed⟩
  · rw [Bool.not_eq_true] at hpushed
    obtain ⟨hwf, hchar, -⟩ := h.fillNext hpushed hfill
    exact ⟨hwf, hchar⟩

theorem WellFormed.getc (h : WellFormed fp) {c : Option UInt8}
    (hgetc : Stdio.getc malloc fp = .ok (c, fp')) :
    WellFormed fp' ∧ (c ≠ none → fp'.eof = false) := by
  unfold Stdio.getc at hgetc
  by_cases hleft : fp.bufp < fp.get_limit
  · rw [if_pos hleft] at hgetc
    have heof : fp.eof = false := by
      rw [← Bool.not_eq_true]
      exact fun heof => absurd (h.eof heof) (Nat.not_le.mpr hleft)
    cases hchar : fp.buffer.bind (·[fp.bufp]?) with
    | none =>
      rw [hchar] at hgetc
      cases hgetc
    | some d =>
      rw [hchar] at hgetc
      obtain ⟨-, rfl⟩ := Prod.mk.inj (Except.ok.inj hgetc)
      refine ⟨⟨fun hnull => ?_, h.back, h.unbuffered, h.size, fun he => ?_, h.pushed, h.legal⟩,
        fun _ => heof⟩
      · rw [show fp.buffer = none from hnull] at hchar
        cases hchar
      · rw [show fp.eof = true from he] at heof
        exact absurd heof (by decide)
  · rw [if_neg hleft] at hgetc
    exact h.fillbf hgetc

theorem WellFormed.pushBack (h : WellFormed fp) (c : UInt8) :
    WellFormed (Stdio.pushBack fp c) where
  null := fun hnull => by
    obtain ⟨-, hget, hput⟩ := h.null hnull
    exact ⟨hget, hget, hput⟩
  back := fun hnull => (h.null hnull).1
  unbuffered := h.unbuffered
  size := h.size
  eof := fun heof => absurd heof Bool.false_ne_true
  pushed := fun _ => rfl
  legal := h.legal

theorem WellFormed.ungetc (h : WellFormed fp) {c : UInt8}
    (hungetc : Stdio.ungetc malloc c fp = .ok (r, fp')) : WellFormed fp' := by
  unfold Stdio.ungetc at hungetc
  split_ifs at hungetc with hread hpushed hwritten
  · obtain ⟨-, rfl⟩ := Prod.mk.inj (Except.ok.inj hungetc)
    exact h
  · obtain ⟨-, rfl⟩ := Prod.mk.inj (Except.ok.inj hungetc)
    exact h
  · obtain ⟨⟨r', g⟩, hflush, hungetc⟩ := bind_ok hungetc
    obtain ⟨hg, -, -⟩ := h.flush hflush
    simp only at hungetc
    split_ifs at hungetc
    · obtain ⟨-, rfl⟩ := Prod.mk.inj (Except.ok.inj hungetc)
      exact hg
    · obtain ⟨-, rfl⟩ := Prod.mk.inj (Except.ok.inj hungetc)
      exact hg.pushBack c
  · obtain ⟨-, rfl⟩ := Prod.mk.inj (Except.ok.inj hungetc)
    exact h.pushBack c

theorem WellFormed.putc (h : WellFormed fp) {c : UInt8}
    (hputc : Stdio.putc (defaultRooms malloc) c fp = .ok (r, fp')) : WellFormed fp' := by
  unfold Stdio.putc at hputc
  split_ifs at hputc
  · obtain ⟨g, hstore, hputc⟩ := bind_ok hputc
    obtain ⟨-, rfl⟩ := Prod.mk.inj (Except.ok.inj hputc)
    exact (h.store hstore).1
  · exact (h.flush hputc).1

theorem WellFormed.fflush (h : WellFormed fp)
    (hfflush : Stdio.fflush (defaultRooms malloc) fp = .ok (r, fp')) : WellFormed fp' := by
  unfold Stdio.fflush at hfflush
  split_ifs at hfflush
  · obtain ⟨-, rfl⟩ := Prod.mk.inj (Except.ok.inj hfflush)
    exact h
  · exact (h.flush hfflush).1

variable (rooms) in
theorem WellFormed.ftell (h : WellFormed fp) : WellFormed (Stdio.ftell rooms fp).2 := by
  obtain ⟨⟨e, g⟩, hcheck⟩ : ∃ x, stdioCheckOffset rooms fp = x := ⟨_, rfl⟩
  have hg := (h.check hcheck).1
  rw [Stdio.ftell, hcheck]
  cases e with
  | none => exact hg
  | some e => exact hg

theorem WellFormed.seekTo (h : WellFormed fp) {o : ℤ} (hseek : Stdio.seekTo fp o = (r, fp')) :
    WellFormed fp' := by
  unfold Stdio.seekTo at hseek
  by_cases hneg : o < 0
  · rw [if_pos hneg] at hseek
    obtain ⟨-, rfl⟩ := Prod.mk.inj hseek
    exact h
  rw [if_neg hneg] at hseek
  have hto : WellFormed { fp with
      target := o, bufp := 0, get_limit := 0, put_limit := 0, linebuf_active := false } :=
    ⟨fun _ => ⟨rfl, rfl, rfl⟩, h.back, h.unbuffered, h.size, fun _ => le_refl 0, h.pushed, h.legal⟩
  simp only at hseek
  split at hseek
  · obtain ⟨-, rfl⟩ := Prod.mk.inj hseek
    exact hto
  · split at hseek
    all_goals
      obtain ⟨-, rfl⟩ := Prod.mk.inj hseek
    · exact ⟨hto.null, hto.back, hto.unbuffered, hto.size, hto.eof, hto.pushed,
        fun _ hno => (by cases hno)⟩
    · exact hto
    · exact ⟨hto.null, hto.back, hto.unbuffered, hto.size, hto.eof, hto.pushed, hto.legal⟩

theorem WellFormed.seekWhence (h : WellFormed fp) {offset : ℤ} {whence : Whence}
    (hseek : Stdio.seekWhence fp offset whence = (r, fp')) : WellFormed fp' := by
  cases whence with
  | SEEK_SET => exact h.seekTo hseek
  | SEEK_CUR => exact h.seekTo hseek
  | SEEK_END =>
    simp only [Stdio.seekWhence] at hseek
    split at hseek
    · obtain ⟨-, rfl⟩ := Prod.mk.inj hseek
      exact h
    · split at hseek
      · obtain ⟨-, rfl⟩ := Prod.mk.inj hseek
        exact ⟨h.null, h.back, h.unbuffered, h.size, h.eof, h.pushed, fun _ hno => (by cases hno)⟩
      · obtain ⟨-, rfl⟩ := Prod.mk.inj hseek
        exact h
      · rename_i pos cookie _
        have hat : WellFormed { fp with offset := pos, cookie := cookie } :=
          ⟨h.null, h.back, h.unbuffered, h.size, h.eof, h.pushed, h.legal⟩
        exact hat.seekTo hseek

theorem fseek_flush {offset : ℤ} {whence : Whence}
    (hfseek : fseek rooms fp offset whence = .ok (r, fp')) :
    ∃ r' g, (if fp.mode.write then Stdio.flshfp rooms fp none else .ok (0, fp)) = .ok (r', g) ∧
      (if r' = EOF then (EOF, g) else seekFlushed rooms g offset whence) = (r, fp') := by
  have hlast : ∀ r' g, (if r' = EOF then .ok (EOF, g)
      else .ok (seekFlushed rooms g offset whence) : Except Stop (ℤ × FILE σ)) = .ok (r, fp') →
      (if r' = EOF then (EOF, g) else seekFlushed rooms g offset whence) = (r, fp') := by
    intro r' g hgo
    rw [← apply_ite Except.ok] at hgo
    exact Except.ok.inj hgo
  unfold fseek at hfseek
  simp only at hfseek
  split_ifs at hfseek with hwrite
  · obtain ⟨⟨r', g⟩, hflush, hgo⟩ := bind_ok hfseek
    refine ⟨r', g, ?_, hlast r' g hgo⟩
    rw [if_pos hwrite]
    exact hflush
  · refine ⟨0, fp, ?_, hlast 0 fp hfseek⟩
    rw [if_neg hwrite]

theorem WellFormed.fseek (h : WellFormed fp) {offset : ℤ} {whence : Whence}
    (hfseek : Stdio.fseek (defaultRooms malloc) fp offset whence = .ok (r, fp')) :
    WellFormed fp' := by
  obtain ⟨r', g, hflush, hfseek⟩ := fseek_flush hfseek
  have hg : WellFormed g := by
    split_ifs at hflush
    · exact (h.flush hflush).1
    · obtain ⟨-, rfl⟩ := Prod.mk.inj (Except.ok.inj hflush)
      exact h
  by_cases hend : r' = EOF
  · rw [if_pos hend] at hfseek
    obtain ⟨-, rfl⟩ := Prod.mk.inj hfseek
    exact hg
  rw [if_neg hend] at hfseek
  have hlost : WellFormed { g with offset := -1 } :=
    ⟨hg.null, hg.back, hg.unbuffered, hg.size, hg.eof, hg.pushed, hg.legal⟩
  obtain ⟨⟨e, k⟩, hcheck⟩ : ∃ x, stdioCheckOffset (defaultRooms malloc)
      { g with offset := -1 } = x := ⟨_, rfl⟩
  have hk := (hlost.check hcheck).1
  rw [seekFlushed, hcheck] at hfseek
  cases e with
  | some e =>
    obtain ⟨-, rfl⟩ := Prod.mk.inj hfseek
    exact hk
  | none =>
    have hgo : WellFormed { k with eof := false } :=
      ⟨hk.null, hk.back, hk.unbuffered, hk.size, fun heof => absurd heof Bool.false_ne_true,
        fun _ => rfl, hk.legal⟩
    exact hgo.discard.1.seekWhence hfseek

theorem WellFormed.call (h : WellFormed fp) {call : Call} (hcall : call.run malloc fp = .ok fp') :
    WellFormed fp' := by
  cases call with
  | ftell =>
    obtain rfl := Except.ok.inj hcall
    exact h.ftell _
  | getc =>
    obtain ⟨⟨c, g⟩, hrun, hend⟩ := bind_ok hcall
    obtain rfl := Except.ok.inj hend
    exact (h.getc hrun).1
  | ungetc c =>
    obtain ⟨⟨r, g⟩, hrun, hend⟩ := bind_ok hcall
    obtain rfl := Except.ok.inj hend
    exact h.ungetc hrun
  | putc c =>
    obtain ⟨⟨r, g⟩, hrun, hend⟩ := bind_ok hcall
    obtain rfl := Except.ok.inj hend
    exact h.putc hrun
  | fflush =>
    obtain ⟨⟨r, g⟩, hrun, hend⟩ := bind_ok hcall
    obtain rfl := Except.ok.inj hend
    exact h.fflush hrun
  | fseek offset whence =>
    obtain ⟨⟨r, g⟩, hrun, hend⟩ := bind_ok hcall
    obtain rfl := Except.ok.inj hend
    exact h.fseek hrun

theorem WellFormed.run {calls : List Call} : ∀ {fp fp' : FILE σ}, WellFormed fp →
    Ungetc.run malloc calls fp = .ok fp' → WellFormed fp' := by
  induction calls with
  | nil =>
    intro fp fp' h hrun
    obtain rfl := Except.ok.inj hrun
    exact h
  | cons call calls ih =>
    intro fp fp' h hrun
    obtain ⟨g, hcall, hrest⟩ := bind_ok hrun
    exact ih (h.call hcall) hrest

theorem opened_wf {mode : IoMode} {io_funcs : IoFunctions σ} {cookie : σ} {b : Buffering}
    (hl : Legal (opened mode io_funcs cookie b)) : WellFormed (opened mode io_funcs cookie b) where
  null := fun _ => ⟨rfl, rfl, rfl⟩
  back := fun _ => rfl
  unbuffered := b.unbuffered
  size := fun hsome => by
    obtain ⟨mem, hmem⟩ := Option.ne_none_iff_exists'.mp hsome
    exact (b.room mem hmem).2
  eof := fun heof => absurd heof Bool.false_ne_true
  pushed := fun hno => absurd hno Bool.false_ne_true
  legal := hl

end WellFormed

section Position

variable {malloc} {fp fp' : FILE σ} {r : ℤ}

theorem endFlush_error (buffer_written : ℕ) (twiddled : Bool) :
    (endFlush fp buffer_written twiddled).error = fp.error := by
  unfold endFlush
  cases twiddled <;> simp only [Bool.false_eq_true, if_true, if_false] <;> split_ifs <;> rfl

theorem endFlush_bufp {buffer_written : ℕ} {twiddled : Bool} (heof : fp.eof = false)
    (herror : fp.error = false) : (endFlush fp buffer_written twiddled).bufp = fp.bufp := by
  have hgo : ¬(fp.eof = true ∨ fp.error = true) := by
    rw [heof, herror]
    decide
  unfold endFlush
  cases twiddled <;> simp only [Bool.false_eq_true, if_true, if_false] <;> rw [if_neg hgo]

theorem endFlush_target (twiddled : Bool) : (endFlush fp 0 twiddled).target = fp.target := by
  unfold endFlush
  cases twiddled with
  | true =>
    simp only [if_true]
    split_ifs <;> rfl
  | false =>
    simp only [Bool.false_eq_true, if_false, Nat.cast_zero, add_zero]
    split_ifs with _ htarget htarget
    · exact htarget.symm
    · rfl
    · exact htarget.symm
    · rfl

theorem endFlush_position {twiddled : Bool} (heof : fp.eof = false)
    (herror : (endFlush fp 0 twiddled).error = false) :
    (endFlush fp 0 twiddled).target = fp.target ∧ (endFlush fp 0 twiddled).bufp = fp.bufp := by
  rw [endFlush_error] at herror
  exact ⟨endFlush_target twiddled, endFlush_bufp heof herror⟩

theorem flushPrimed_position (hbufp : fp.bufp = 0) (heof : fp.eof = false)
    (h : flushPrimed malloc fp none false = .ok fp') (herror : fp'.error = false) :
    fp'.target = fp.target ∧ fp'.bufp = 0 := by
  unfold flushPrimed at h
  simp only [hbufp, if_true] at h
  cases hwrite : fp.io_funcs.write with
  | none =>
    rw [hwrite] at h
    obtain rfl := Except.ok.inj h
    exact endFlush_position heof herror
  | some write =>
    rw [hwrite] at h
    simp only [and_self, if_true] at h
    obtain rfl := Except.ok.inj h
    exact endFlush_position heof herror

structure Kept (p : ℤ) (q : Priming σ) : Prop where
  position : q.fp.target + q.buffer_offset = p
  target : q.fp.target ≠ -1
  offset : q.fp.buffer = none → q.buffer_offset = 0
  eof : q.fp.eof = false

theorem readBack_position {q : Priming σ} (hb : Begun fp) (hl : Legal fp) (hn : NullPointers fp)
    (hsome : fp.buffer ≠ none) (hsize : 0 < fp.bufsize) (hpos : 0 ≤ fp.target)
    (h : readBack malloc fp = .ok (some q, fp')) : Kept fp.target q := by
  obtain ⟨⟨c, g⟩, hfill, h⟩ := bind_ok h
  have hfilled := fillbuf_ok
    (show Begun { fp with target := fp.target - fp.target % fp.bufsize } from hb) hl hn hfill
  have hsize' : (0 : ℤ) < fp.bufsize := Int.natCast_pos.mpr hsize
  have hblocks : 0 ≤ fp.bufsize * (fp.target / fp.bufsize) :=
    mul_nonneg hsize'.le (Int.ediv_nonneg hpos hsize'.le)
  have hle : fp.target % fp.bufsize ≤ fp.target := by
    linarith only [hblocks, Int.emod_add_mul_ediv fp.target fp.bufsize]
  have ho : 0 ≤ fp.target % fp.bufsize := Int.emod_nonneg _ hsize'.ne'
  have hblock : g.target = fp.target - fp.target % fp.bufsize := by
    refine hfilled.target ?_ ?_
    · show fp.target - fp.target % fp.bufsize ≠ -1
      omega
    · exact Int.emod_eq_zero_of_dvd (Int.dvd_self_sub_emod)
  have hbuffer : g.buffer ≠ none := fun hno => hsome (hfilled.frame.null.mp hno)
  simp only at h
  by_cases hfail : c = none ∧ g.error = true
  · rw [if_pos hfail] at h
    cases h
  rw [if_neg hfail] at h
  by_cases hshort : (g.get_limit : ℤ) < fp.target % fp.bufsize
  · rw [if_pos hshort] at h
    obtain ⟨hq, -⟩ := Prod.mk.inj (Except.ok.inj h)
    obtain rfl := Option.some.inj hq
    refine ⟨?_, ?_, fun hno => rfl, rfl⟩
    · show g.target + fp.target % fp.bufsize + ((0 : ℕ) : ℤ) = fp.target
      omega
    · show g.target + fp.target % fp.bufsize ≠ -1
      omega
  · rw [if_neg hshort] at h
    obtain ⟨hq, -⟩ := Prod.mk.inj (Except.ok.inj h)
    obtain rfl := Option.some.inj hq
    refine ⟨?_, ?_, fun hno => absurd hno hbuffer, rfl⟩
    · show g.target + ((fp.target % fp.bufsize).toNat : ℤ) = fp.target
      rw [Int.toNat_of_nonneg ho]
      omega
    · show g.target ≠ -1
      omega

theorem prime_position {q : Priming σ} {g : FILE σ} (h : WellFormed fp) (hb : Begun fp)
    (heof : fp.eof = false) (htarget : fp.target ≠ -1) (hpos : 0 ≤ fp.target + fp.bufp)
    (hprime : prime malloc fp = .ok (some q, g)) : Kept (fp.target + fp.bufp) q := by
  have hadvance : advance fp = { fp with target := fp.target + fp.bufp } := by
    rw [advance, if_neg htarget]
  obtain ⟨hframe, hnull⟩ := advance_ok h.null
  have hno : ({ fp with target := fp.target + fp.bufp } : FILE σ).target ≠ -1 := by
    show fp.target + fp.bufp ≠ -1
    omega
  unfold prime at hprime
  rw [hadvance] at hprime hframe hnull
  simp only at hprime
  split_ifs at hprime with hread
  · obtain ⟨⟨b, k⟩, halign⟩ :
      ∃ x, aligned malloc { fp with target := fp.target + fp.bufp } = x := ⟨_, rfl⟩
    obtain ⟨hmoved, -, hkeep, hbuffer⟩ := aligned_ok (hframe.begun hb) (hframe.legal h.legal) halign
    have hk : k.target = fp.target + fp.bufp := hkeep hno
    rw [halign] at hprime
    cases b with
    | true =>
      obtain ⟨hq, -⟩ := Prod.mk.inj (Except.ok.inj hprime)
      obtain rfl := Option.some.inj hq
      refine ⟨?_, ?_, fun _ => rfl, hmoved.eof.trans heof⟩
      · show k.target + ((0 : ℕ) : ℤ) = fp.target + fp.bufp
        rw [hk, Nat.cast_zero, add_zero]
      · show k.target ≠ -1
        rw [hk]
        exact hno
    | false =>
      have hframe' := hframe.trans hmoved.frame
      have hsome : k.buffer ≠ none := fun hnone => hbuffer rfl (hmoved.frame.null.mp hnone)
      have hnull' : NullPointers k := fun hnone => absurd hnone hsome
      have hsize : 0 < k.bufsize := by
        rw [hframe'.bufsize]
        exact h.size fun hnone => hsome (hframe'.null.mpr hnone)
      rw [← hk]
      refine readBack_position (hframe'.begun hb) (hframe'.legal h.legal) hnull' hsome hsize ?_ hprime
      rw [hk]
      exact hpos
  · obtain ⟨hq, -⟩ := Prod.mk.inj (Except.ok.inj hprime)
    obtain rfl := Option.some.inj hq
    refine ⟨?_, hno, fun _ => rfl, heof⟩
    show fp.target + fp.bufp + ((0 : ℕ) : ℤ) = fp.target + fp.bufp
    rw [Nat.cast_zero, add_zero]

theorem flushPriming_position {p : ℤ} {q : Priming σ} (hkept : Kept p q) (hn : NullPointers q.fp)
    (h : flushPriming malloc q none = .ok fp') (herror : fp'.error = false) :
    fp'.target + fp'.bufp = p ∧ fp'.target ≠ -1 := by
  unfold flushPriming at h
  by_cases hnone : q.fp.buffer.isNone = true
  · have hnull := Option.isNone_iff_eq_none.mp hnone
    have hoffset := hkept.offset hnull
    have hbufp := (hn hnull).1
    rw [if_pos hnone, if_pos ⟨by omega, rfl⟩] at h
    obtain rfl := Except.ok.inj h
    obtain ⟨htarget, hat⟩ := endFlush_position hkept.eof herror
    rw [htarget, hat, hbufp]
    have hposition := hkept.position
    rw [hoffset] at hposition
    exact ⟨hposition, hkept.target⟩
  · rw [if_neg hnone] at h
    obtain rfl := Except.ok.inj h
    have heof : ({ q.fp with put_limit := q.fp.bufsize, bufp := q.buffer_offset } : FILE σ).eof =
        false := hkept.eof
    obtain ⟨htarget, hat⟩ := endFlush_position heof herror
    rw [htarget, hat]
    exact ⟨hkept.position, hkept.target⟩

/-- Nothing was written since the last flush, or the buffer is at its start. -/
theorem flushbuf_position (h : WellFormed fp) (hb : Begun fp) (heof : fp.eof = false)
    (htarget : fp.target ≠ -1) (hpos : 0 ≤ fp.target + fp.bufp)
    (hquiet : fp.bufp = 0 ∨ fp.put_limit = 0) (hflush : flushbuf malloc fp none = .ok fp')
    (herror : fp'.error = false) :
    fp'.target + fp'.bufp = fp.target + fp.bufp ∧ fp'.target ≠ -1 := by
  unfold flushbuf at hflush
  by_cases hput : fp.put_limit = 0
  · rw [if_pos hput] at hflush
    obtain ⟨⟨q, g⟩, hprime, hflush⟩ := bind_ok hflush
    obtain ⟨hfail, hprimes⟩ := prime_ok hb h.legal h.null hprime
    cases q with
    | none =>
      obtain rfl := Except.ok.inj hflush
      obtain ⟨-, -, hbad⟩ := hfail rfl
      rw [hbad] at herror
      exact absurd herror (by decide)
    | some q =>
      exact flushPriming_position (prime_position h hb heof htarget hpos hprime) (hprimes q rfl).null
        hflush herror
  · rw [if_neg hput] at hflush
    have hbufp : fp.bufp = 0 := hquiet.resolve_right hput
    obtain ⟨hkeep, hat⟩ := flushPrimed_position hbufp heof hflush herror
    rw [hkeep, hat, hbufp]
    exact ⟨rfl, htarget⟩

/-- The flush of a stream that has been written to goes back to the start of the buffer. -/
theorem flushPrimed_start {u : FILE σ} (hb : Begun u) (hl : Legal u) (heof : u.eof = false)
    (h : flushPrimed malloc u none false = .ok fp') (herror : fp'.error = false) :
    fp'.bufp = 0 := by
  have hlast : ∀ {g : FILE σ}, fp' = endFlush g u.bufp false → g.eof = false → g.bufp = 0 →
      fp'.bufp = 0 := by
    rintro g rfl hg hzero
    rw [endFlush_error] at herror
    exact (endFlush_bufp hg herror).trans hzero
  unfold flushPrimed at h
  simp only at h
  generalize (if u.bufp = 0 then 0 else if u.bufp < u.get_limit then u.get_limit else u.bufp) =
    to_write at h
  cases hwrite : u.io_funcs.write with
  | none =>
    rw [hwrite] at h
    exact hlast (Except.ok.inj h).symm heof rfl
  | some write =>
    rw [hwrite] at h
    simp only [and_true] at h
    by_cases hnothing : to_write = 0
    · rw [if_pos hnothing] at h
      exact hlast (Except.ok.inj h).symm heof rfl
    · rw [if_neg hnothing, if_pos (Nat.pos_of_ne_zero hnothing)] at h
      have hmoved := writeOut_ok malloc hb hl write to_write
      exact hlast (Except.ok.inj h).symm (hmoved.eof.trans heof) rfl

/-- The stream that `__flshfp` hands to the room function. -/
def ready (malloc : ℕ → Option Str) (fp : FILE σ) : FILE σ :=
  let fp := initStream (defaultRooms malloc) fp.discard
  if fp.linebuf_active then { fp with put_limit := fp.bufsize } else fp

theorem flush_ok (h : Stdio.flshfp (defaultRooms malloc) fp none = .ok (r, fp')) (hr : r ≠ EOF) :
    ∃ g, flushbuf malloc (ready malloc fp) none = .ok g ∧ g.error = false ∧
      fp' = (if g.linebuf then { g with put_limit := 0, linebuf_active := true } else g) := by
  unfold Stdio.flshfp at h
  split_ifs at h
  · obtain ⟨rfl, -⟩ := Prod.mk.inj (Except.ok.inj h)
    exact absurd rfl hr
  · obtain ⟨rfl, -⟩ := Prod.mk.inj (Except.ok.inj h)
    exact absurd rfl hr
  · obtain ⟨g, hflush, hlast, herror⟩ := makeRoom_ok h
    exact ⟨g, hflush, herror hr, hlast⟩

variable (malloc) in
theorem ready_wf (h : WellFormed fp) : WellFormed (ready malloc fp) ∧ Begun (ready malloc fp) := by
  obtain ⟨hinit, hbegun, -, -⟩ := h.discard.1.init (defaultRooms malloc)
  obtain ⟨hlimit, hframe⟩ := hinit.limit hbegun
  exact ⟨hlimit, hframe.begun hbegun⟩

/-- A stream with a character pushed back; its buffer has not been written to since a flush. -/
structure Pushed (fp : FILE σ) : Prop where
  wf : WellFormed fp
  pushed : fp.pushed_back = true
  quiet : fp.pushback_bufp = 0 ∨ (fp.put_limit = 0 ∧ fp.linebuf_active = false)

theorem flush_start (h : WellFormed fp) (heof : fp.eof = false) (hpushed : fp.pushed_back = false)
    (hwritten : fp.linebuf_active = true ∨ 0 < fp.put_limit)
    (hflush : Stdio.flshfp (defaultRooms malloc) fp none = .ok (r, fp')) (hr : r ≠ EOF) :
    fp'.bufp = 0 := by
  obtain ⟨hwf, -, -⟩ := h.flush hflush
  by_cases hnull : fp'.buffer = none
  · exact (hwf.null hnull).1
  obtain ⟨g, hbuf, herror, rfl⟩ := flush_ok hflush hr
  obtain ⟨hready, hbegun⟩ := ready_wf malloc h
  obtain ⟨hframe, -⟩ := flushbuf_ok hbegun hready.legal hready.null hbuf
  have hlast : (if g.linebuf then { g with put_limit := 0, linebuf_active := true } else g).bufp =
      g.bufp ∧ (if g.linebuf then { g with put_limit := 0, linebuf_active := true } else g).buffer =
      g.buffer := by
    split_ifs <;> exact ⟨rfl, rfl⟩
  rw [hlast.2] at hnull
  rw [hlast.1]
  have hsome : (ready malloc fp).buffer ≠ none := fun hno => hnull (hframe.null.mpr hno)
  have hkeep : fp.discard = fp := by
    rw [FILE.discard, hpushed]
    rfl
  have hready_eof : (ready malloc fp).eof = false := by
    rw [ready, hkeep]
    split_ifs <;> (rw [init_same]; exact heof)
  have hput : (ready malloc fp).put_limit ≠ 0 := by
    have hsize := hready.size hsome
    rw [ready, hkeep] at hsize ⊢
    split_ifs at hsize ⊢ with hactive
    · exact hsize.ne'
    · rw [init_same] at hactive ⊢
      exact (hwritten.resolve_left hactive).ne'
  rw [flushbuf, if_neg hput] at hbuf
  exact flushPrimed_start hbegun hready.legal hready_eof hbuf herror

theorem ungetc_pushed (h : WellFormed fp) (heof : fp.eof = false) {c : UInt8}
    (hungetc : ungetc malloc c fp = .ok ((c.toNat : ℤ), fp')) : Pushed fp' := by
  have hwf := h.ungetc hungetc
  have hchar : EOF ≠ (c.toNat : ℤ) := by
    intro hno
    have : (0 : ℤ) ≤ c.toNat := Int.natCast_nonneg _
    rw [← hno] at this
    exact absurd this (by decide)
  unfold ungetc at hungetc
  split_ifs at hungetc with hread hpushed hwritten
  · exact absurd (Prod.mk.inj (Except.ok.inj hungetc)).1 hchar
  · exact absurd (Prod.mk.inj (Except.ok.inj hungetc)).1 hchar
  · rw [Bool.not_eq_true] at hpushed
    obtain ⟨⟨r', g⟩, hflush, hungetc⟩ := bind_ok hungetc
    simp only at hungetc
    split_ifs at hungetc with hend
    · exact absurd (Prod.mk.inj (Except.ok.inj hungetc)).1 hchar
    · obtain ⟨-, rfl⟩ := Prod.mk.inj (Except.ok.inj hungetc)
      exact ⟨hwf, rfl, Or.inl (flush_start h heof hpushed hwritten hflush hend)⟩
  · obtain ⟨-, rfl⟩ := Prod.mk.inj (Except.ok.inj hungetc)
    rw [not_or, Bool.not_eq_true, Nat.pos_iff_ne_zero, not_not] at hwritten
    exact ⟨hwf, rfl, Or.inr ⟨hwritten.2, hwritten.1⟩⟩

/-- A stream with a character pushed back whose position, that character apart, is `p`. -/
structure At (p : ℤ) (fp : FILE σ) : Prop where
  pushed : Pushed fp
  begun : Begun fp
  target : fp.target ≠ -1
  position : fp.target + fp.pushback_bufp = p

theorem ftell_at {rooms : Rooms σ} {p : ℤ} (h : Pushed fp) (hp : 1 ≤ p)
    (hftell : (ftell rooms fp).1 = p - 1) : At p (ftell rooms fp).2 := by
  have hwf := h.wf.ftell rooms
  obtain ⟨⟨e, g⟩, hcheck⟩ : ∃ x, stdioCheckOffset rooms fp = x := ⟨_, rfl⟩
  obtain ⟨-, hbegun, hmoved, -, hfound⟩ := h.wf.check hcheck
  rw [ftell, hcheck] at hftell hwf ⊢
  cases e with
  | some e =>
    have : (-1 : ℤ) = p - 1 := hftell
    omega
  | none =>
    have hsame := hmoved.same
    rw [init_same] at hsame
    have hpushed : g.pushed_back = true := by
      rw [hsame]
      exact h.pushed
    refine ⟨⟨hwf, hpushed, ?_⟩, hbegun, hfound rfl, ?_⟩
    · show g.pushback_bufp = 0 ∨ (g.put_limit = 0 ∧ g.linebuf_active = false)
      rw [hsame]
      exact h.quiet
    · have hposition : g.target + (if g.pushed_back then (g.pushback_bufp : ℤ) - 1 else g.bufp) =
        p - 1 := hftell
      rw [if_pos hpushed] at hposition
      show g.target + (g.pushback_bufp : ℤ) = p
      omega

theorem seekTo_ok {o : ℤ} (h : seekTo fp o = (0, fp')) :
    fp'.target = o ∧ fp'.bufp = 0 ∧ fp'.pushed_back = fp.pushed_back := by
  have hend : EOF ≠ 0 := by decide
  unfold seekTo at h
  by_cases hneg : o < 0
  · rw [if_pos hneg] at h
    exact absurd (Prod.mk.inj h).1 hend
  rw [if_neg hneg] at h
  simp only at h
  split at h
  · exact absurd (Prod.mk.inj h).1 hend
  · split at h
    · exact absurd (Prod.mk.inj h).1 hend
    · exact absurd (Prod.mk.inj h).1 hend
    · obtain ⟨-, rfl⟩ := Prod.mk.inj h
      exact ⟨rfl, rfl, rfl⟩

theorem flush_at {p : ℤ} (h : At p fp) (hp : 0 ≤ p)
    (hflush : Stdio.flshfp (defaultRooms malloc) fp none = .ok (r, fp')) (hr : r ≠ EOF) :
    fp'.target + fp'.bufp = p ∧ fp'.target ≠ -1 ∧ fp'.pushed_back = false ∧ Begun fp' := by
  obtain ⟨-, hbegun', -⟩ := h.pushed.wf.flush hflush
  obtain ⟨g, hbuf, herror, rfl⟩ := flush_ok hflush hr
  obtain ⟨hready, hbegun⟩ := ready_wf malloc h.pushed.wf
  obtain ⟨hframe, -⟩ := flushbuf_ok hbegun hready.legal hready.null hbuf
  have hdiscard : fp.discard = { fp with bufp := fp.pushback_bufp, pushed_back := false } := by
    rw [FILE.discard, if_pos h.pushed.pushed]
  have hinit : initStream (defaultRooms malloc) fp.discard = fp.discard := by
    refine Begun.init fun hnull => ?_
    rw [hdiscard] at hnull ⊢
    exact h.begun hnull
  have hall : ready malloc fp = { fp with
      bufp := fp.pushback_bufp, pushed_back := false, put_limit := (ready malloc fp).put_limit } := by
    rw [ready, hinit, hdiscard]
    simp only
    split_ifs <;> rfl
  have hquiet : (ready malloc fp).bufp = 0 ∨ (ready malloc fp).put_limit = 0 := by
    rcases h.pushed.quiet with hzero | ⟨hput, hactive⟩
    · left
      rw [hall]
      exact hzero
    · right
      rw [ready, hinit, hdiscard]
      simp only [hactive, Bool.false_eq_true, if_false]
      exact hput
  have hposition : (ready malloc fp).target + (ready malloc fp).bufp = p := by
    rw [hall]
    exact h.position
  have hfields : (ready malloc fp).eof = fp.eof ∧ (ready malloc fp).target = fp.target ∧
      (ready malloc fp).pushed_back = false := by
    rw [hall]
    exact ⟨rfl, rfl, rfl⟩
  have heof : (ready malloc fp).eof = false :=
    hfields.1.trans (h.pushed.wf.pushed h.pushed.pushed)
  have htarget : (ready malloc fp).target ≠ -1 := by
    rw [hfields.2.1]
    exact h.target
  obtain ⟨hkeep, hfound⟩ := flushbuf_position hready hbegun heof htarget
    (by rw [hposition]; exact hp) hquiet hbuf herror
  rw [hposition] at hkeep
  have hno : g.pushed_back = false := hframe.pushed.trans hfields.2.2
  have hb := hbegun' h.begun
  split_ifs at hb ⊢
  · exact ⟨hkeep, hfound, hno, hb⟩
  · exact ⟨hkeep, hfound, hno, hb⟩

theorem fseek_at {p : ℤ} (h : At p fp) (hp : 0 ≤ p)
    (hfseek : fseek (defaultRooms malloc) fp 0 .SEEK_CUR = .ok (0, fp')) :
    fp'.target = p ∧ fp'.bufp = 0 ∧ fp'.pushed_back = false := by
  have hend : EOF ≠ 0 := by decide
  obtain ⟨r', g, hflush, hseek⟩ := fseek_flush hfseek
  -- a flush that fails ends the call
  by_cases hfail : r' = EOF
  · rw [if_pos hfail] at hseek
    exact absurd (Prod.mk.inj hseek).1 hend
  rw [if_neg hfail] at hseek
  -- the flush has left the position where it was
  have hg : g.discard.target + g.discard.bufp = p ∧ g.target ≠ -1 ∧ Begun g ∧ Legal g := by
    by_cases hwrite : fp.mode.write = true
    · rw [if_pos hwrite] at hflush
      obtain ⟨hposition, htarget, hno, hb⟩ := flush_at h hp hflush hfail
      refine ⟨?_, htarget, hb, (h.pushed.wf.flush hflush).1.legal⟩
      rw [FILE.discard, hno]
      exact hposition
    · rw [if_neg hwrite] at hflush
      obtain ⟨-, rfl⟩ := Prod.mk.inj (Except.ok.inj hflush)
      refine ⟨?_, h.target, h.begun, h.pushed.wf.legal⟩
      rw [FILE.discard, if_pos h.pushed.pushed]
      exact h.position
  obtain ⟨hposition, htarget, hb, hl⟩ := hg
  obtain ⟨⟨e, k⟩, hcheck⟩ : ∃ x, stdioCheckOffset (defaultRooms malloc)
      { g with offset := -1 } = x := ⟨_, rfl⟩
  obtain ⟨hmoved, -, hkeep, -⟩ := check_ok (show Begun { g with offset := -1 } from hb) hl hcheck
  rw [seekFlushed, hcheck] at hseek
  cases e with
  | some e => exact absurd (Prod.mk.inj hseek).1 hend
  | none =>
    have hat : (FILE.discard { k with eof := false }).target +
        (FILE.discard { k with eof := false }).bufp = p ∧
        (FILE.discard { k with eof := false }).pushed_back = false := by
      have hkt : k.target = g.target := hkeep htarget
      have hkb : k.bufp = g.bufp := hmoved.bufp
      have hkp : k.pushed_back = g.pushed_back := hmoved.frame.pushed
      have hkq : k.pushback_bufp = g.pushback_bufp := hmoved.frame.back
      unfold FILE.discard at hposition ⊢
      simp only [hkp]
      split_ifs at hposition ⊢ with hp
      · refine ⟨?_, rfl⟩
        show k.target + (k.pushback_bufp : ℤ) = p
        rw [hkt, hkq]
        exact hposition
      · refine ⟨?_, ?_⟩
        · show k.target + (k.bufp : ℤ) = p
          rw [hkt, hkb]
          exact hposition
        · rw [Bool.not_eq_true] at hp
          exact hp
    obtain ⟨hto, hbufp, hpushed⟩ := seekTo_ok hseek
    refine ⟨?_, hbufp, hpushed.trans hat.2⟩
    rw [hto, ← hat.1]
    ring

theorem ftell_seeked {rooms : Rooms σ} {p : ℤ} (h : WellFormed fp) (hp : 1 ≤ p)
    (htarget : fp.target = p) (hbufp : fp.bufp = 0) (hpushed : fp.pushed_back = false) :
    (ftell rooms fp).1 ≠ p - 1 := by
  obtain ⟨⟨e, g⟩, hcheck⟩ : ∃ x, stdioCheckOffset rooms fp = x := ⟨_, rfl⟩
  obtain ⟨-, -, hmoved, hkeep, -⟩ := h.check hcheck
  rw [ftell, hcheck]
  cases e with
  | some e =>
    show (-1 : ℤ) ≠ p - 1
    omega
  | none =>
    have hinit : (initStream rooms fp).target = p ∧ (initStream rooms fp).bufp = 0 ∧
        (initStream rooms fp).pushed_back = false := by
      rw [init_same]
      exact ⟨htarget, hbufp, hpushed⟩
    have hat : g.target = p := by
      rw [hkeep (by rw [hinit.1]; omega)]
      exact hinit.1
    have hno : g.pushed_back = false := hmoved.frame.pushed.trans hinit.2.2
    have hzero : g.bufp = 0 := hmoved.bufp.trans hinit.2.1
    show g.target + (if g.pushed_back then (g.pushback_bufp : ℤ) - 1 else g.bufp) ≠ p - 1
    rw [hat, hno, hzero]
    simp only [Bool.false_eq_true, if_false, Nat.cast_zero]
    omega

end Position

/-- Whatever was called before the character was read, the position is lost. -/
theorem pushed_back_lost {mode : IoMode} {io_funcs : IoFunctions σ} {cookie : σ} {b : Buffering}
    {calls : List Call} {f f' : FILE σ} {c : UInt8} {p : ℤ} {rest : Str}
    (hl : Legal (opened mode io_funcs cookie b))
    (hrun : run malloc calls (opened mode io_funcs cookie b) = .ok f)
    (hgetc : getc malloc f = .ok (some c, f')) (hp : 1 ≤ p) : ¬ PushedBack malloc f' c p rest := by
  rintro ⟨fp₁, hungetc, hftell, -, fp₂, hfseek, hlast, -⟩
  obtain ⟨hwf, heof⟩ := ((opened_wf hl).run hrun).getc hgetc
  have hpushed := ungetc_pushed hwf (heof (by simp only [ne_eq, reduceCtorEq, not_false_eq_true]))
    hungetc
  have hat := ftell_at hpushed hp hftell
  obtain ⟨htarget, hbufp, hno⟩ := fseek_at hat (by omega) hfseek
  exact ftell_seeked (hat.pushed.wf.fseek hfseek) hp htarget hbufp hno hlast

structure Disk where
  content : Str
  pos : ℕ
deriving DecidableEq

def Disk.read (d : Disk) (n : ℕ) : Option Str × Disk :=
  let bytes := (d.content.drop d.pos).take n
  (some bytes, { d with pos := d.pos + bytes.length })

def Disk.write (d : Disk) (bytes : Str) : ℤ × Disk :=
  (bytes.length,
    { content := d.content.take d.pos ++ bytes ++ d.content.drop (d.pos + bytes.length),
      pos := d.pos + bytes.length })

def Disk.lseek (d : Disk) (offset : ℤ) (whence : Whence) : ℤ × SeekError × Disk :=
  let new : ℤ :=
    match whence with
    | .SEEK_SET => offset
    | .SEEK_CUR => d.pos + offset
    | .SEEK_END => d.content.length + offset
  (new, .other, { d with pos := new.toNat })

def Disk.functions : IoFunctions Disk :=
  ⟨some Disk.read, some Disk.write, some (stdioSeek Disk.lseek)⟩

/-- An update stream over a buffer of two bytes. -/
abbrev Disk.update : FILE Disk :=
  opened ⟨true, true, false⟩ Disk.functions ⟨[97, 98, 99], 0⟩
    ⟨some [0, 0], 2, true, false, fun h => (by cases h), fun _ h => (by cases h; decide)⟩

abbrev Disk.readOnly : FILE Disk :=
  opened ⟨true, false, false⟩ Disk.functions ⟨[97, 98], 0⟩
    ⟨none, 0, true, false, fun _ _ => rfl, fun _ h => (by cases h)⟩

theorem map_ok {α β : Type} {e : Except Stop (α × β)} {a : α} (h : e.map Prod.fst = .ok a) :
    ∃ b, e = .ok (a, b) := by
  cases e with
  | error stop => cases h
  | ok found =>
    obtain rfl := Except.ok.inj h
    exact ⟨found.2, rfl⟩

/-- The update stream has been written to before the character is read. -/
theorem pushed_back_lost_demo : ∃ f f' : FILE Disk,
    run (fun _ => none) [.putc 122, .fseek 1 .SEEK_SET] Disk.update = .ok f ∧
    getc (fun _ => none) f = .ok (some 98, f') ∧ ¬ PushedBack (fun _ => none) f' 98 2 [99] := by
  have hchar : (run (fun _ => none) [.putc 122, .fseek 1 .SEEK_SET] Disk.update >>=
      getc fun _ => none).map Prod.fst = .ok (some 98) := by
    decide +kernel
  obtain ⟨f', hall⟩ := map_ok hchar
  obtain ⟨f, hrun, hgetc⟩ := bind_ok hall
  exact ⟨f, f', hrun, hgetc,
    pushed_back_lost _ (stdio_seek_legal rfl) hrun hgetc (by decide)⟩

/-- Push `c` back, seek to where the stream is, and read one character. -/
def readAgain (malloc : ℕ → Option Str) (c : UInt8) (fp : FILE σ) : Except Stop Str := do
  let (_, fp) ← ungetc malloc c fp
  let (_, fp) ← fseek (defaultRooms malloc) (ftell (defaultRooms malloc) fp).2 0 .SEEK_CUR
  reads malloc 1 fp

/-- At position 1, with `b` still to come: `fseek` goes to 1 and `a` is not read again. -/
theorem seek_skips : ∃ f : FILE Disk, getc (fun _ => none) Disk.readOnly = .ok (some 97, f) ∧
    (ftell (defaultRooms fun _ => none) f).1 = 1 ∧ ¬ PushedBack (fun _ => none) f 97 1 [98] := by
  have hchar : (getc (fun _ => none) Disk.readOnly).map Prod.fst = .ok (some 97) := by
    decide +kernel
  have hposition : (getc (fun _ => none) Disk.readOnly).map (fun found =>
      (ftell (defaultRooms fun _ => none) found.2).1) = .ok 1 := by
    decide +kernel
  have hbytes : (getc (fun _ => none) Disk.readOnly).bind (fun found =>
      readAgain (fun _ => none) 97 found.2) = .ok [98] := by
    decide +kernel
  obtain ⟨f, hgetc⟩ := map_ok hchar
  rw [hgetc] at hposition hbytes
  refine ⟨f, hgetc, Except.ok.inj hposition, ?_⟩
  rintro ⟨fp₁, hungetc, -, -, fp₂, hfseek, -, hread⟩
  replace hbytes : readAgain (fun _ => none) 97 f = .ok [98] := hbytes
  have hagain : readAgain (fun _ => none) 97 f = reads (fun _ => none) 1 fp₂ := by
    unfold readAgain
    rw [hungetc]
    show (do
      let (_, fp) ← fseek (defaultRooms fun _ => none) (ftell (defaultRooms fun _ => none) fp₁).2
        0 .SEEK_CUR
      reads (fun _ => none) 1 fp) = _
    rw [hfseek]
    rfl
  rw [hagain, hread 1] at hbytes
  exact absurd (Except.ok.inj hbytes) (by decide)

end Mintlib.Stdio.Ungetc
