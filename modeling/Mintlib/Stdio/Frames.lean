import Mintlib.Stdio.Default

/-!
# What the default room functions keep

They move the stream in the file, fill the buffer and empty it. Its size, the mode and the
character that was pushed back stay, and a stream without a buffer has no pointers into one.
-/

namespace Mintlib.Stdio

open Mintlib.Text Checked

variable {σ : Type} (malloc : ℕ → Option Str)

def Legal (fp : FILE σ) : Prop :=
  ∀ seek, fp.io_funcs.seek = some seek → ∀ cookie offset whence pos cookie',
    seek cookie offset whence = .ok (pos, cookie') → 0 ≤ pos

/-- The stream at another position of the file. -/
structure Moved (fp fp' : FILE σ) : Prop where
  same : fp' = { fp with
    offset := fp'.offset, target := fp'.target, cookie := fp'.cookie, error := fp'.error,
    io_funcs := { fp.io_funcs with seek := fp'.io_funcs.seek } }
  legal : Legal fp → Legal fp'

structure Frame (fp fp' : FILE σ) : Prop where
  null : fp'.buffer = none ↔ fp.buffer = none
  bufsize : fp'.bufsize = fp.bufsize
  userbuf : fp'.userbuf = fp.userbuf
  back : fp'.pushback_bufp = fp.pushback_bufp
  pushed : fp'.pushed_back = fp.pushed_back
  mode : fp'.mode = fp.mode
  legal : Legal fp → Legal fp'

def NullPointers (fp : FILE σ) : Prop :=
  fp.buffer = none → fp.bufp = 0 ∧ fp.get_limit = 0 ∧ fp.put_limit = 0

/-- At the end of the file the buffer has been read. -/
structure Sane (fp : FILE σ) : Prop where
  null : NullPointers fp
  eof : fp.eof = true → fp.get_limit ≤ fp.bufp

def Begun (fp : FILE σ) : Prop := fp.buffer = none → fp.userbuf = true

section Frames

variable {malloc} {rooms : Rooms σ} {fp fp' fp'' : FILE σ}

theorem bind_ok {α β : Type} {e : Except Stop α} {k : α → Except Stop β} {b : β}
    (h : (e >>= k) = .ok b) : ∃ a, e = .ok a ∧ k a = .ok b := by
  cases e with
  | error stop => cases h
  | ok a => exact ⟨a, rfl, h⟩

theorem Moved.refl (fp : FILE σ) : Moved fp fp := ⟨rfl, id⟩

theorem Moved.trans (h : Moved fp fp') (h' : Moved fp' fp'') : Moved fp fp'' := by
  refine ⟨?_, fun hl => h'.legal (h.legal hl)⟩
  have hsame := h'.same
  rw [h.same] at hsame
  exact hsame

theorem Moved.frame (h : Moved fp fp') : Frame fp fp' := by
  have hsame := h.same
  refine ⟨?_, ?_, ?_, ?_, ?_, ?_, h.legal⟩ <;> rw [hsame]

theorem Moved.buffer (h : Moved fp fp') : fp'.buffer = fp.buffer := by rw [h.same]

theorem Moved.bufp (h : Moved fp fp') : fp'.bufp = fp.bufp := by rw [h.same]

theorem Moved.get_limit (h : Moved fp fp') : fp'.get_limit = fp.get_limit := by rw [h.same]

theorem Moved.put_limit (h : Moved fp fp') : fp'.put_limit = fp.put_limit := by rw [h.same]

theorem Moved.eof (h : Moved fp fp') : fp'.eof = fp.eof := by rw [h.same]

theorem Moved.sane (h : Moved fp fp') (hs : Sane fp) : Sane fp' := by
  refine ⟨?_, ?_⟩
  · rw [NullPointers, h.buffer, h.bufp, h.get_limit, h.put_limit]
    exact hs.null
  · rw [h.eof, h.bufp, h.get_limit]
    exact hs.eof

theorem Frame.refl (fp : FILE σ) : Frame fp fp := ⟨Iff.rfl, rfl, rfl, rfl, rfl, rfl, id⟩

theorem Frame.trans (h : Frame fp fp') (h' : Frame fp' fp'') : Frame fp fp'' :=
  ⟨h'.null.trans h.null, h'.bufsize.trans h.bufsize, h'.userbuf.trans h.userbuf,
    h'.back.trans h.back, h'.pushed.trans h.pushed, h'.mode.trans h.mode,
    fun hl => h'.legal (h.legal hl)⟩

theorem Frame.begun (h : Frame fp fp') (hb : Begun fp) : Begun fp' := fun hnull => by
  rw [h.userbuf]
  exact hb (h.null.mp hnull)

theorem Begun.init (h : Begun fp) : initStream rooms fp = fp := by
  rw [initStream, if_neg]
  rintro ⟨hnull, huser⟩
  rw [h (Option.isNone_iff_eq_none.mp hnull)] at huser
  exact absurd huser (by decide)

theorem check_ok {r : Option SeekError} (hb : Begun fp) (hl : Legal fp)
    (h : stdioCheckOffset rooms fp = (r, fp')) : Moved fp fp' ∧ fp'.error = fp.error ∧
      (fp.target ≠ -1 → fp'.target = fp.target) ∧ (r = none → fp'.target ≠ -1) := by
  have hset : ∀ g : FILE σ, g.offset ≠ -1 → Moved g (setTarget g) ∧
      (setTarget g).error = g.error ∧ (g.target ≠ -1 → (setTarget g).target = g.target) ∧
      (setTarget g).target ≠ -1 := by
    intro g hoffset
    unfold setTarget
    split_ifs with htarget
    · exact ⟨⟨rfl, id⟩, rfl, fun hno => absurd htarget hno, hoffset⟩
    · exact ⟨Moved.refl g, rfl, fun _ => rfl, htarget⟩
  rw [stdioCheckOffset, hb.init] at h
  by_cases hoffset : fp.offset = -1
  · simp only [if_pos hoffset] at h
    cases hseek : fp.io_funcs.seek with
    | none =>
      simp only [hseek] at h
      obtain ⟨rfl, rfl⟩ := Prod.mk.inj h
      exact ⟨Moved.refl fp, rfl, fun _ => rfl, fun hr => by cases hr⟩
    | some seek =>
      simp only [hseek] at h
      cases hpos : seek fp.cookie 0 .SEEK_CUR with
      | error e =>
        rw [hpos] at h
        cases e with
        | ESPIPE =>
          obtain ⟨rfl, rfl⟩ := Prod.mk.inj h
          exact ⟨⟨rfl, fun _ _ hno => by cases hno⟩, rfl, fun _ => rfl, fun hr => by cases hr⟩
        | other =>
          obtain ⟨rfl, rfl⟩ := Prod.mk.inj h
          exact ⟨Moved.refl fp, rfl, fun _ => rfl, fun hr => by cases hr⟩
      | ok found =>
        obtain ⟨pos, cookie⟩ := found
        rw [hpos] at h
        obtain ⟨rfl, rfl⟩ := Prod.mk.inj h
        have hnonneg := hl seek hseek fp.cookie 0 .SEEK_CUR pos cookie hpos
        obtain ⟨hmoved, herror, hkeep, hfound⟩ :=
          hset { fp with offset := pos, cookie := cookie } (by show pos ≠ -1; omega)
        have hfirst : Moved fp { fp with offset := pos, cookie := cookie } := ⟨rfl, id⟩
        exact ⟨hfirst.trans hmoved, herror, hkeep, fun _ => hfound⟩
  · rw [if_neg hoffset] at h
    obtain ⟨rfl, rfl⟩ := Prod.mk.inj h
    obtain ⟨hmoved, herror, hkeep, hfound⟩ := hset fp hoffset
    exact ⟨hmoved, herror, hkeep, fun _ => hfound⟩

variable (malloc) in
theorem seek_to_target_ok (hb : Begun fp) (hl : Legal fp) :
    Moved fp (seekToTarget malloc fp) ∧
      (fp.target ≠ -1 → (seekToTarget malloc fp).target = fp.target) := by
  obtain ⟨⟨r, g⟩, hcheck⟩ : ∃ x, stdioCheckOffset (bare malloc) fp = x := ⟨_, rfl⟩
  obtain ⟨hmoved, -, hkeep, -⟩ := check_ok hb hl hcheck
  have herror : Moved g { g with error := true } := ⟨rfl, id⟩
  rw [seekToTarget, hcheck]
  cases r with
  | some e =>
    cases e with
    | ESPIPE => exact ⟨hmoved, hkeep⟩
    | other => exact ⟨hmoved.trans herror, hkeep⟩
  | none =>
    simp only
    split_ifs with hat
    · exact ⟨hmoved, hkeep⟩
    cases hseek : g.io_funcs.seek with
    | none => exact ⟨hmoved.trans herror, hkeep⟩
    | some seek =>
      simp only
      cases hpos : seek g.cookie g.target .SEEK_SET with
      | error e => exact ⟨hmoved.trans herror, hkeep⟩
      | ok found => exact ⟨hmoved.trans ⟨rfl, id⟩, hkeep⟩

structure Taken (fp fp' : FILE σ) : Prop where
  same : fp' = { fp with
    cookie := fp'.cookie, buffer := fp'.buffer, offset := fp'.offset, error := fp'.error,
    eof := fp'.eof }
  null : fp'.buffer = none ↔ fp.buffer = none

theorem Taken.trans (h : Taken fp fp') (h' : Taken fp' fp'') : Taken fp fp'' := by
  refine ⟨?_, h'.null.trans h.null⟩
  have hsame := h'.same
  rw [h.same] at hsame
  exact hsame

theorem Taken.frame (h : Taken fp fp') : Frame fp fp' := by
  have hsame := h.same
  refine ⟨h.null, ?_, ?_, ?_, ?_, ?_, ?_⟩ <;> rw [hsame]
  exact id

theorem fillLoop_ok {read : σ → ℕ → Option Str × σ} {buffer_offset to_read : ℕ} (turns : ℕ) :
    ∀ {fp fp' : FILE σ} {nread nread' : ℕ} {c c' : UInt8},
      fillLoop read buffer_offset to_read turns fp nread c = .ok (fp', nread', c') →
        Taken fp fp' := by
  induction turns with
  | zero =>
    intro fp fp' nread nread' c c' h
    unfold fillLoop at h
    split_ifs at h
    obtain ⟨rfl, -⟩ := Prod.mk.inj (Except.ok.inj h)
    exact ⟨rfl, Iff.rfl⟩
  | succ turns ih =>
    intro fp fp' nread nread' c c' h
    unfold fillLoop at h
    by_cases hdone : fp.error = true ∨ fp.eof = true ∨ buffer_offset < nread
    · rw [if_pos hdone] at h
      obtain ⟨rfl, -⟩ := Prod.mk.inj (Except.ok.inj h)
      exact ⟨rfl, Iff.rfl⟩
    rw [if_neg hdone] at h
    simp only at h
    obtain ⟨⟨got, cookie⟩, hread⟩ : ∃ x, read fp.cookie (to_read - nread) = x := ⟨_, rfl⟩
    rw [hread] at h
    cases got with
    | none =>
      have hrest := ih h
      refine Taken.trans ?_ hrest
      exact ⟨rfl, Iff.rfl⟩
    | some bytes =>
      simp only at h
      by_cases hnil : bytes = []
      · rw [if_pos hnil] at h
        have hrest := ih h
        refine Taken.trans ?_ hrest
        exact ⟨rfl, Iff.rfl⟩
      rw [if_neg hnil] at h
      by_cases hlong : to_read - nread < bytes.length
      · rw [if_pos hlong] at h
        cases h
      rw [if_neg hlong] at h
      have hrest := ih h
      refine Taken.trans ⟨rfl, ?_⟩ hrest
      show fp.fill nread bytes = none ↔ fp.buffer = none
      rw [FILE.fill, Option.map_eq_none_iff]

theorem fillLoop_end {read : σ → ℕ → Option Str × σ} {buffer_offset to_read : ℕ} (turns : ℕ) :
    ∀ {fp fp' : FILE σ} {nread nread' : ℕ} {c c' : UInt8},
      fillLoop read buffer_offset to_read turns fp nread c = .ok (fp', nread', c') →
        fp'.error = true ∨ fp'.eof = true ∨ buffer_offset < nread' := by
  induction turns with
  | zero =>
    intro fp fp' nread nread' c c' h
    unfold fillLoop at h
    split_ifs at h with hdone
    obtain ⟨rfl, hrest⟩ := Prod.mk.inj (Except.ok.inj h)
    obtain ⟨rfl, -⟩ := Prod.mk.inj hrest
    exact hdone
  | succ turns ih =>
    intro fp fp' nread nread' c c' h
    unfold fillLoop at h
    by_cases hdone : fp.error = true ∨ fp.eof = true ∨ buffer_offset < nread
    · rw [if_pos hdone] at h
      obtain ⟨rfl, hrest⟩ := Prod.mk.inj (Except.ok.inj h)
      obtain ⟨rfl, -⟩ := Prod.mk.inj hrest
      exact hdone
    rw [if_neg hdone] at h
    simp only at h
    obtain ⟨⟨got, cookie⟩, hread⟩ : ∃ x, read fp.cookie (to_read - nread) = x := ⟨_, rfl⟩
    rw [hread] at h
    cases got with
    | none => exact ih h
    | some bytes =>
      simp only at h
      by_cases hnil : bytes = []
      · rw [if_pos hnil] at h
        exact ih h
      rw [if_neg hnil] at h
      by_cases hlong : to_read - nread < bytes.length
      · rw [if_pos hlong] at h
        cases h
      rw [if_neg hlong] at h
      exact ih h

theorem toBlock_ok {buffer_offset : ℕ} (hb : Begun fp) (hl : Legal fp)
    (h : toBlock malloc fp = (fp', buffer_offset)) : Moved fp fp' ∧
      (fp.target ≠ -1 → fp.target % fp.bufsize = 0 → fp'.target = fp.target) := by
  obtain ⟨⟨r, g⟩, hcheck⟩ : ∃ x, stdioCheckOffset (bare malloc) fp = x := ⟨_, rfl⟩
  obtain ⟨hmoved, -, hkeep, -⟩ := check_ok hb hl hcheck
  rw [toBlock, hcheck] at h
  cases r with
  | some e =>
    obtain ⟨rfl, -⟩ := Prod.mk.inj h
    exact ⟨hmoved, fun hno _ => hkeep hno⟩
  | none =>
    simp only at h
    split_ifs at h with hat hsize
    · obtain ⟨rfl, -⟩ := Prod.mk.inj h
      exact ⟨hmoved, fun hno _ => hkeep hno⟩
    all_goals
      obtain ⟨rfl, -⟩ := Prod.mk.inj h
      clear h
    · have hstep : Moved fp { g with target := g.target - 0 } := hmoved.trans ⟨rfl, id⟩
      obtain ⟨hmoved', hkeep'⟩ :=
        seek_to_target_ok malloc (hstep.frame.begun hb) (hstep.legal hl)
      refine ⟨hstep.trans hmoved', fun hno _ => ?_⟩
      rw [hkeep' (by show g.target - 0 ≠ -1; rw [hkeep hno]; omega)]
      show g.target - 0 = fp.target
      rw [hkeep hno, sub_zero]
    · have hstep : Moved fp { g with target := g.target - g.target % g.bufsize } :=
        hmoved.trans ⟨rfl, id⟩
      obtain ⟨hmoved', hkeep'⟩ :=
        seek_to_target_ok malloc (hstep.frame.begun hb) (hstep.legal hl)
      refine ⟨hstep.trans hmoved', fun hno halign => ?_⟩
      have hzero : g.target - g.target % g.bufsize = fp.target := by
        rw [hkeep hno, hmoved.frame.bufsize, halign, sub_zero]
      rw [hkeep' (by show g.target - g.target % g.bufsize ≠ -1; rw [hzero]; exact hno)]
      exact hzero

structure Filled (fp : FILE σ) (c : Option UInt8) (fp' : FILE σ) : Prop where
  frame : Frame fp fp'
  sane : Sane fp'
  char : c ≠ none → fp'.eof = false
  put_limit : fp'.put_limit = 0
  ahead : c ≠ none → fp'.bufp ≤ fp'.get_limit
  target : fp.target ≠ -1 → fp.target % fp.bufsize = 0 → fp'.target = fp.target

theorem endFill_ok {nread : ℕ} {c : Option UInt8} (hsome : fp.buffer ≠ none ∨ fp.eof = true)
    (h : endFill fp nread = .ok (c, fp')) : fp' = { fp with
      put_limit := 0, get_limit := fp'.get_limit, bufp := fp'.bufp } ∧
      (fp'.eof = true → fp'.get_limit ≤ fp'.bufp) ∧ (c ≠ none → fp'.eof = false) ∧
      (fp.buffer = none → fp'.bufp = fp.bufp ∧ fp'.get_limit = 0) ∧
      (c ≠ none → fp.error = false ∧ fp'.bufp = fp.bufp + 1 ∧ fp'.get_limit = nread) := by
  unfold endFill at h
  split_ifs at h with hend
  · obtain ⟨rfl, rfl⟩ := Prod.mk.inj (Except.ok.inj h)
    exact ⟨rfl, fun _ => Nat.zero_le _, fun hc => absurd rfl hc, fun _ => ⟨rfl, rfl⟩,
      fun hc => absurd rfl hc⟩
  · rw [not_or, Bool.not_eq_true] at hend
    split at h
    · cases h
    · obtain ⟨rfl, rfl⟩ := Prod.mk.inj (Except.ok.inj h)
      refine ⟨rfl, fun heof => ?_, fun _ => hend.1, fun hnull => ?_,
        fun _ => ⟨by rw [← Bool.not_eq_true]; exact hend.2, rfl, rfl⟩⟩
      · rw [show fp.eof = false from hend.1] at heof
        exact absurd heof (by decide)
      · rcases hsome with hsome | heof
        · exact absurd hnull hsome
        · rw [heof] at hend
          exact absurd hend.1 (by decide)

theorem fillbuf_ok {c : Option UInt8} (hb : Begun fp) (hl : Legal fp) (hs : NullPointers fp)
    (h : fillbuf malloc fp = .ok (c, fp')) : Filled fp c fp' := by
  unfold fillbuf at h
  cases hread : fp.io_funcs.read with
  | none =>
    rw [hread] at h
    obtain ⟨hsame, heof, hc, hnull, -⟩ := endFill_ok (Or.inr rfl) h
    have heof' : fp'.eof = true := by rw [hsame]
    refine ⟨⟨?_, ?_, ?_, ?_, ?_, ?_, ?_⟩, ⟨fun hno => ?_, heof⟩, hc, ?_, fun hsome => ?_,
      fun _ _ => ?_⟩
    all_goals first | rw [hc hsome] at heof'; exact absurd heof' (by decide) | rw [hsame]
    · exact id
    · rw [hsame] at hno
      obtain ⟨hbufp, hget⟩ := hnull hno
      exact ⟨hbufp.trans (hs hno).1, hget, rfl⟩
  | some read =>
    rw [hread] at h
    simp only at h
    obtain ⟨⟨g, buffer_offset⟩, hblock⟩ : ∃ x, toBlock malloc { fp with eof := false } = x :=
      ⟨_, rfl⟩
    rw [hblock] at h
    obtain ⟨⟨k, nread, c'⟩, hloop, h⟩ := bind_ok h
    obtain ⟨hmoved, hkeep⟩ := toBlock_ok (show Begun { fp with eof := false } from hb) hl hblock
    have htaken := fillLoop_ok _ hloop
    have hframe : Frame { fp with eof := false } k := hmoved.frame.trans htaken.frame
    have hframe' : Frame fp k := ⟨hframe.null, hframe.bufsize, hframe.userbuf, hframe.back,
      hframe.pushed, hframe.mode, hframe.legal⟩
    have htarget : k.target = g.target := by rw [htaken.same]
    have hpointers : k.bufp = fp.bufp ∧ k.get_limit = fp.get_limit ∧ k.put_limit = fp.put_limit := by
      rw [htaken.same]
      exact ⟨hmoved.bufp, hmoved.get_limit, hmoved.put_limit⟩
    -- without a buffer the one byte that was read is the result
    by_cases hnull : k.buffer = none
    · simp only [hnull, Option.isNone_none, if_true] at h
      obtain ⟨hc, rfl⟩ := Prod.mk.inj (Except.ok.inj h)
      obtain ⟨hbufp, hget, hput⟩ := hs (hframe'.null.mp hnull)
      rw [hbufp, hget, hput] at hpointers
      have hle : k.bufp ≤ k.get_limit := by rw [hpointers.1, hpointers.2.1]
      refine ⟨hframe', ⟨fun _ => hpointers, fun _ => ?_⟩, fun hsome => ?_, hpointers.2.2,
        fun _ => hle, fun hno halign => htarget.trans (hkeep hno halign)⟩
      · rw [hpointers.1, hpointers.2.1]
      · by_contra heof
        rw [Bool.not_eq_false] at heof
        rw [if_pos (Or.inl heof)] at hc
        exact hsome hc.symm
    · have hisnone : k.buffer.isNone = false := by
        rw [Option.isNone_eq_false_iff, Option.isSome_iff_ne_none]
        exact hnull
      simp only [hisnone, Bool.false_eq_true, if_false] at h
      obtain ⟨hsame, heof, hc, -, hchar⟩ := endFill_ok
        (show ({ k with bufp := buffer_offset } : FILE σ).buffer ≠ none ∨ _ from Or.inl hnull) h
      have hlast : Frame k fp' := by
        refine ⟨?_, ?_, ?_, ?_, ?_, ?_, ?_⟩ <;> rw [hsame]
        exact id
      refine ⟨hframe'.trans hlast, ⟨fun hno => absurd (hlast.null.mp hno) hnull, heof⟩, hc, ?_,
        fun hsome => ?_, fun hno halign => ?_⟩
      · rw [hsame]
      · obtain ⟨herror, hbufp, hlimit⟩ := hchar hsome
        have heof' := hc hsome
        rw [hsame] at heof'
        rw [hbufp, hlimit]
        rcases fillLoop_end _ hloop with hend | hend | hend
        · rw [show k.error = false from herror] at hend
          exact absurd hend (by decide)
        · rw [show k.eof = false from heof'] at hend
          exact absurd hend (by decide)
        · exact hend
      · rw [hsame]
        exact htarget.trans (hkeep hno halign)

theorem endFlush_ok (buffer_written : ℕ) {twiddled : Bool} (hn : NullPointers fp)
    (htwiddled : twiddled = true → fp.eof = false) :
    Frame fp (endFlush fp buffer_written twiddled) ∧ Sane (endFlush fp buffer_written twiddled) := by
  unfold endFlush
  cases twiddled with
  | true =>
    have heof := htwiddled rfl
    simp only [if_true]
    split_ifs with hend
    · refine ⟨⟨Iff.rfl, rfl, rfl, rfl, rfl, rfl, id⟩, fun hnull => ?_, fun h => ?_⟩
      · obtain ⟨-, hget, hput⟩ := hn hnull
        exact ⟨hput, hget, hput⟩
      · rw [show fp.eof = true from h] at heof
        exact absurd heof (by decide)
    · refine ⟨Frame.refl fp, hn, fun h => ?_⟩
      rw [h] at heof
      exact absurd heof (by decide)
  | false =>
    simp only [Bool.false_eq_true, if_false]
    by_cases hend : fp.eof = true ∨ fp.error = true
    · rw [if_pos hend]
      refine ⟨⟨Iff.rfl, rfl, rfl, rfl, rfl, rfl, id⟩, fun hnull => ?_, fun _ => Nat.zero_le _⟩
      obtain ⟨-, -, hput⟩ := hn hnull
      exact ⟨hput, rfl, hput⟩
    · rw [if_neg hend]
      refine ⟨⟨Iff.rfl, rfl, rfl, rfl, rfl, rfl, id⟩, fun hnull => ?_, fun _ => Nat.zero_le _⟩
      obtain ⟨hbufp, -, hput⟩ := hn hnull
      exact ⟨hbufp, rfl, hput⟩

variable (malloc) in
theorem writeOut_ok (hb : Begun fp) (hl : Legal fp) (write : σ → Str → ℤ × σ) (to_write : ℕ) :
    Moved fp (writeOut malloc write fp to_write) := by
  have hat : Moved fp (if fp.mode.append then fp else seekToTarget malloc fp) := by
    split_ifs
    · exact Moved.refl fp
    · exact (seek_to_target_ok malloc hb hl).1
  unfold writeOut
  generalize (if fp.mode.append then fp else seekToTarget malloc fp) = g at hat
  simp only
  split_ifs
  · exact hat
  all_goals
    refine hat.trans ?_
    exact ⟨rfl, id⟩

theorem store_ok {c : UInt8} (h : fp.store c = .ok fp') : ∃ mem, fp.buffer = some mem ∧
    fp' = { fp with buffer := some (mem.set fp.bufp c), bufp := fp.bufp + 1 } := by
  unfold FILE.store at h
  split at h
  · cases h
  · rename_i mem hmem
    split_ifs at h
    exact ⟨mem, hmem, (Except.ok.inj h).symm⟩

theorem store_frame {c : UInt8} (h : fp.store c = .ok fp') :
    Frame fp fp' ∧ NullPointers fp' ∧ fp'.eof = fp.eof := by
  obtain ⟨mem, hmem, rfl⟩ := store_ok h
  refine ⟨⟨?_, rfl, rfl, rfl, rfl, rfl, id⟩, fun hnull => (by cases hnull), rfl⟩
  rw [hmem]
  simp only [reduceCtorEq]

theorem writeLast_ok {write : σ → Str → ℤ × σ} {c : UInt8} (hn : NullPointers fp)
    (h : writeLast write fp c = .ok fp') : Frame fp fp' ∧ NullPointers fp' ∧ fp'.eof = fp.eof := by
  unfold writeLast at h
  by_cases herror : fp.error = true
  · rw [if_pos herror] at h
    obtain rfl := Except.ok.inj h
    exact ⟨Frame.refl fp, hn, rfl⟩
  rw [if_neg herror] at h
  by_cases hout : fp.buffer.isNone = true ∨ fp.linebuf = true ∧ c = NEWLINE
  · rw [if_pos hout] at h
    simp only at h
    split_ifs at h
    all_goals
      obtain rfl := Except.ok.inj h
      exact ⟨⟨Iff.rfl, rfl, rfl, rfl, rfl, rfl, id⟩, hn, rfl⟩
  · rw [if_neg hout] at h
    exact store_frame h

theorem flushPrimed_ok {c : Option UInt8} {twiddled : Bool} (hb : Begun fp) (hl : Legal fp)
    (hn : NullPointers fp) (htwiddled : twiddled = true → fp.eof = false)
    (h : flushPrimed malloc fp c twiddled = .ok fp') : Frame fp fp' ∧ Sane fp' := by
  have hnull : ∀ {g : FILE σ}, Frame fp g → g.bufp = 0 → g.get_limit = fp.get_limit →
      g.put_limit = fp.put_limit → NullPointers g := by
    intro g hframe hbufp hget hput hno
    obtain ⟨-, hget', hput'⟩ := hn (hframe.null.mp hno)
    exact ⟨hbufp, hget.trans hget', hput.trans hput'⟩
  unfold flushPrimed at h
  simp only at h
  generalize hto : (if fp.bufp = 0 then 0 else if fp.bufp < fp.get_limit then fp.get_limit
    else fp.bufp) = to_write at h
  -- without a function that writes only the pointers are set
  cases hwrite : fp.io_funcs.write with
  | none =>
    rw [hwrite] at h
    obtain rfl := Except.ok.inj h
    have hstep : Frame fp { fp with
        bufp := 0, offset := if fp.offset = -1 then -1 else fp.offset + to_write } :=
      ⟨Iff.rfl, rfl, rfl, rfl, rfl, rfl, id⟩
    obtain ⟨hframe, hsane⟩ := endFlush_ok fp.bufp
      (hnull hstep rfl rfl rfl) htwiddled
    exact ⟨hstep.trans hframe, hsane⟩
  | some write =>
    rw [hwrite] at h
    simp only at h
    by_cases hnothing : to_write = 0 ∧ c = none
    · rw [if_pos hnothing] at h
      obtain rfl := Except.ok.inj h
      have hstep : Frame fp { fp with bufp := 0 } := ⟨Iff.rfl, rfl, rfl, rfl, rfl, rfl, id⟩
      obtain ⟨hframe, hsane⟩ := endFlush_ok fp.bufp
        (hnull hstep rfl rfl rfl) htwiddled
      exact ⟨hstep.trans hframe, hsane⟩
    rw [if_neg hnothing] at h
    have hout : Moved fp (if 0 < to_write then writeOut malloc write fp to_write else fp) := by
      split_ifs
      · exact writeOut_ok malloc hb hl write to_write
      · exact Moved.refl fp
    generalize (if 0 < to_write then writeOut malloc write fp to_write else fp) = g at h hout
    have hstep : Frame fp { g with bufp := 0 } := hout.frame.trans
      ⟨Iff.rfl, rfl, rfl, rfl, rfl, rfl, id⟩
    have hn' : NullPointers { g with bufp := 0 } :=
      hnull hstep rfl hout.get_limit hout.put_limit
    have heof : twiddled = true → g.eof = false := fun ht => hout.eof.trans (htwiddled ht)
    cases c with
    | none =>
      obtain rfl := Except.ok.inj h
      obtain ⟨hframe, hsane⟩ := endFlush_ok fp.bufp
        hn' heof
      exact ⟨hstep.trans hframe, hsane⟩
    | some c =>
      obtain ⟨k, hlast, h⟩ := bind_ok h
      obtain rfl := Except.ok.inj h
      obtain ⟨hframe₁, hn₁, heof₁⟩ := writeLast_ok hn' hlast
      obtain ⟨hframe, hsane⟩ := endFlush_ok fp.bufp
        hn₁ fun ht => heof₁.trans (heof ht)
      exact ⟨(hstep.trans hframe₁).trans hframe, hsane⟩

/-- What priming leaves, apart from the target. -/
structure Primes (fp : FILE σ) (p : Priming σ) : Prop where
  frame : Frame fp p.fp
  null : NullPointers p.fp
  eof : p.twiddled = true → p.fp.eof = false

theorem aligned_ok {b : Bool} (hb : Begun fp) (hl : Legal fp)
    (h : aligned malloc fp = (b, fp')) : Moved fp fp' ∧ fp'.error = fp.error ∧
      (fp.target ≠ -1 → fp'.target = fp.target) ∧ (b = false → fp.buffer ≠ none) := by
  unfold aligned at h
  by_cases hnull : fp.buffer.isNone = true
  · rw [if_pos hnull] at h
    obtain ⟨rfl, rfl⟩ := Prod.mk.inj h
    exact ⟨Moved.refl fp, rfl, fun _ => rfl, fun hb => absurd hb (by decide)⟩
  rw [if_neg hnull] at h
  obtain ⟨⟨r, g⟩, hcheck⟩ : ∃ x, stdioCheckOffset (bare malloc) fp = x := ⟨_, rfl⟩
  obtain ⟨hmoved, herror, hkeep, -⟩ := check_ok hb hl hcheck
  rw [hcheck] at h
  have hsome : fp.buffer ≠ none := fun hno => hnull (Option.isNone_iff_eq_none.mpr hno)
  cases r with
  | some e =>
    obtain ⟨-, rfl⟩ := Prod.mk.inj h
    exact ⟨hmoved, herror, hkeep, fun _ => hsome⟩
  | none =>
    obtain ⟨-, rfl⟩ := Prod.mk.inj h
    exact ⟨hmoved, herror, hkeep, fun _ => hsome⟩

theorem readBack_ok {r : Option (Priming σ)} (hb : Begun fp) (hl : Legal fp)
    (hn : NullPointers fp) (h : readBack malloc fp = .ok (r, fp')) :
    (r = none → Frame fp fp' ∧ Sane fp' ∧ fp'.error = true) ∧ ∀ p, r = some p → Primes fp p := by
  obtain ⟨⟨c, g⟩, hfill, h⟩ := bind_ok h
  have hfilled := fillbuf_ok
    (show Begun { fp with target := fp.target - fp.target % fp.bufsize } from hb) hl hn hfill
  have hframe : Frame fp g := by
    refine Frame.trans ?_ hfilled.frame
    exact ⟨Iff.rfl, rfl, rfl, rfl, rfl, rfl, id⟩
  simp only at h
  by_cases hfail : c = none ∧ g.error = true
  · rw [if_pos hfail] at h
    obtain ⟨rfl, rfl⟩ := Prod.mk.inj (Except.ok.inj h)
    exact ⟨fun _ => ⟨hframe, hfilled.sane, hfail.2⟩, fun p hp => by cases hp⟩
  rw [if_neg hfail] at h
  split_ifs at h
  all_goals
    obtain ⟨rfl, -⟩ := Prod.mk.inj (Except.ok.inj h)
    refine ⟨fun hr => (by cases hr), ?_⟩
    rintro p ⟨⟩
    exact ⟨hframe.trans ⟨Iff.rfl, rfl, rfl, rfl, rfl, rfl, id⟩, hfilled.sane.null, fun _ => rfl⟩

theorem advance_ok (hn : NullPointers fp) : Frame fp (advance fp) ∧ NullPointers (advance fp) := by
  unfold advance
  split_ifs
  · refine ⟨⟨Iff.rfl, rfl, rfl, rfl, rfl, rfl, id⟩, fun hnull => ?_⟩
    obtain ⟨hbufp, -, hput⟩ := hn hnull
    exact ⟨hbufp, rfl, hput⟩
  · exact ⟨⟨Iff.rfl, rfl, rfl, rfl, rfl, rfl, id⟩, hn⟩

theorem prime_ok {r : Option (Priming σ)} (hb : Begun fp) (hl : Legal fp) (hn : NullPointers fp)
    (h : prime malloc fp = .ok (r, fp')) :
    (r = none → Frame fp fp' ∧ Sane fp' ∧ fp'.error = true) ∧ ∀ p, r = some p → Primes fp p := by
  obtain ⟨hframe, hnull⟩ := advance_ok hn
  unfold prime at h
  simp only at h
  split_ifs at h
  · obtain ⟨⟨b, g⟩, halign⟩ : ∃ x, aligned malloc (advance fp) = x := ⟨_, rfl⟩
    obtain ⟨hmoved, -⟩ := aligned_ok (hframe.begun hb) (hframe.legal hl) halign
    have hframe' := hframe.trans hmoved.frame
    have hnull' : NullPointers g := by
      rw [NullPointers, hmoved.buffer, hmoved.bufp, hmoved.get_limit, hmoved.put_limit]
      exact hnull
    rw [halign] at h
    cases b with
    | true =>
      obtain ⟨rfl, -⟩ := Prod.mk.inj (Except.ok.inj h)
      refine ⟨fun hr => (by cases hr), ?_⟩
      rintro p ⟨⟩
      exact ⟨hframe', hnull', fun ht => absurd ht Bool.false_ne_true⟩
    | false =>
      obtain ⟨hfail, hprimes⟩ := readBack_ok (hframe'.begun hb) (hframe'.legal hl) hnull' h
      refine ⟨fun hr => ?_, fun p hp => ?_⟩
      · obtain ⟨hf, hs⟩ := hfail hr
        exact ⟨hframe'.trans hf, hs⟩
      · have hp' := hprimes p hp
        exact ⟨hframe'.trans hp'.frame, hp'.null, hp'.eof⟩
  · obtain ⟨rfl, -⟩ := Prod.mk.inj (Except.ok.inj h)
    refine ⟨fun hr => (by cases hr), ?_⟩
    rintro p ⟨⟩
    exact ⟨hframe, hnull, fun ht => absurd ht Bool.false_ne_true⟩

theorem flushPriming_ok {p : Priming σ} {c : Option UInt8} (hb : Begun p.fp) (hl : Legal p.fp)
    (hn : NullPointers p.fp) (heof : p.twiddled = true → p.fp.eof = false)
    (h : flushPriming malloc p c = .ok fp') : Frame p.fp fp' ∧ Sane fp' := by
  unfold flushPriming at h
  by_cases hnone : p.fp.buffer.isNone = true
  · rw [if_pos hnone] at h
    split_ifs at h
    · obtain rfl := Except.ok.inj h
      exact endFlush_ok 0 hn heof
    · exact flushPrimed_ok hb hl hn heof h
  rw [if_neg hnone] at h
  have hsome : ∀ {g : FILE σ}, Frame p.fp g → NullPointers g := by
    intro g hframe hno
    exact absurd (Option.isNone_iff_eq_none.mpr (hframe.null.mp hno)) hnone
  have hstep : Frame p.fp { p.fp with put_limit := p.fp.bufsize, bufp := p.buffer_offset } :=
    ⟨Iff.rfl, rfl, rfl, rfl, rfl, rfl, id⟩
  cases c with
  | none =>
    obtain rfl := Except.ok.inj h
    obtain ⟨hframe, hsane⟩ := endFlush_ok 0
      (hsome hstep) heof
    exact ⟨hstep.trans hframe, hsane⟩
  | some c =>
    obtain ⟨g, hstore, h⟩ := bind_ok h
    obtain ⟨hframe₁, -, heof₁⟩ := store_frame hstore
    have hframe' := hstep.trans hframe₁
    have heof' : p.twiddled = true → g.eof = false := fun ht => heof₁.trans (heof ht)
    split_ifs at h
    · obtain rfl := Except.ok.inj h
      obtain ⟨hframe, hsane⟩ := endFlush_ok 0 (hsome hframe') heof'
      exact ⟨hframe'.trans hframe, hsane⟩
    · obtain ⟨hframe, hsane⟩ := flushPrimed_ok (hframe'.begun hb) (hframe'.legal hl)
        (hsome hframe') heof' h
      exact ⟨hframe'.trans hframe, hsane⟩

theorem flushbuf_ok {c : Option UInt8} (hb : Begun fp) (hl : Legal fp) (hn : NullPointers fp)
    (h : flushbuf malloc fp c = .ok fp') : Frame fp fp' ∧ Sane fp' := by
  unfold flushbuf at h
  split_ifs at h
  · obtain ⟨⟨r, g⟩, hprime, h⟩ := bind_ok h
    obtain ⟨hfail, hprimes⟩ := prime_ok hb hl hn hprime
    cases r with
    | none =>
      obtain rfl := Except.ok.inj h
      obtain ⟨hframe, hsane, -⟩ := hfail rfl
      exact ⟨hframe, hsane⟩
    | some p =>
      have hp := hprimes p rfl
      obtain ⟨hframe, hsane⟩ :=
        flushPriming_ok (hp.frame.begun hb) (hp.frame.legal hl) hp.null hp.eof h
      exact ⟨hp.frame.trans hframe, hsane⟩
  · exact flushPrimed_ok hb hl hn (fun ht => absurd ht Bool.false_ne_true) h

end Frames

end Mintlib.Stdio
