import Mintlib.TextMode

/-!
# Reading text streams: `sysd-stdio.c`

`__stdio_text_read` makes one line feed of a carriage return and a line feed. If the last
character that it has read is a carriage return it reads one more.
-/

namespace Mintlib.TextRead

open Mintlib.Text Mintlib.TextMode
open Checked (Stop)

/-- The underlying `read`: call number `k` fails, or gives so many bytes and one more, unless
fewer are asked for or left. -/
abbrev Read := ℕ → Option ℕ

/-- The file behind the stream: what is left of it, and the calls of `read` so far. -/
structure Source where
  content : Str
  calls : ℕ

def Source.read (read : Read) (src : Source) (n : ℕ) : Option Str × Source :=
  match read src.calls with
  | none => (none, ⟨src.content, src.calls + 1⟩)
  | some short =>
    (some (src.content.take (min n (short + 1))),
      ⟨src.content.drop (min n (short + 1)), src.calls + 1⟩)

/-- The loop that squeezes `"\r\n"`, with `skipped`. -/
def squeeze : ℕ → ℕ → ℕ → Str → Except Stop (Str × ℕ)
  | 0, _, skipped, bufptr => .ok (bufptr, skipped)
  | turns + 1, i, skipped, bufptr =>
    match bufptr[i]?, bufptr[i + 1]? with
    | some c, some d =>
      if c = CR ∧ d = NEWLINE then squeeze turns (i + 1) (skipped + 1) bufptr
      else squeeze turns (i + 1) skipped (bufptr.set (i - skipped) c)
    | _, _ => .error .bounds

/-- The last character, at `bufptr[skipped]`; `pos` is where `bufptr` points to. -/
def lastChar (read : Read) (n : ℕ) (src : Source) (buf : Str) (pos skipped : ℕ) :
    Except Stop (Str × Source) :=
  match buf[pos + skipped]? with
  | none => .error .bounds
  | some c =>
    if c = CR then
      match src.read read 1 with
      | (some [d], src) =>
        -- it is stored behind what was read
        if n ≤ pos + skipped + 1 then .error .bounds
        else if d ≠ NEWLINE then
          .ok ((((buf ++ [d]).set pos c).set (pos + 1) d).take (pos + 2), src)
        else .ok ((buf.set pos NEWLINE).take (pos + 1), src)
      | (_, src) => .ok ((buf.set pos c).take (pos + 1), src)
    else .ok ((buf.set pos c).take (pos + 1), src)

/-- `__stdio_text_read`: what it delivers, or `none` for the error. -/
def stdioTextRead (read : Read) (src : Source) (n : ℕ) : Except Stop (Option Str × Source) :=
  if n = 0 then .ok (some [], src)
  else if n = 1 then .ok (src.read read 1)
  else
    match src.read read (n - 1) with
    | (none, src) => .ok (none, src)
    | (some [], src) => .ok (some [], src)
    | (some (c :: buf), src) => do
      let (bufptr, skipped) ← squeeze buf.length 0 0 (c :: buf)
      let (delivered, src) ← lastChar read n src bufptr (buf.length - skipped) skipped
      .ok (some delivered, src)

/-- Calls with the same size until one delivers nothing: all that they deliver, or `none` if
one fails. -/
def readAll (read : Read) (n : ℕ) : ℕ → Source → Except Stop (Option Str)
  | 0, _ => .error .steps
  | calls + 1, src =>
    match stdioTextRead read src n with
    | .error stop => .error stop
    | .ok (none, _) => .ok none
    | .ok (some [], _) => .ok (some [])
    | .ok (some (c :: buf), src) => (readAll read n calls src).map fun rest =>
      rest.map fun rest => c :: buf ++ rest

def unix : Str → Str
  | [] => []
  | c :: s => if c = CR ∧ s.head? = some NEWLINE then unix s else c :: unix s

/-- No `read` stops at the first of two carriage returns in front of a line feed: `calls` bounds
the calls, `k` is the number of the next `read`, and behind a carriage return one more character
is read. -/
def Unsplit (short : ℕ → ℕ) (n : ℕ) : ℕ → ℕ → Str → Prop
  | 0, _, _ => True
  | calls + 1, k, content =>
    let chunk := content.take (min (n - 1) (short k + 1))
    let rest := content.drop (min (n - 1) (short k + 1))
    if chunk.getLast? = some CR then
      rest.take 2 ≠ [CR, NEWLINE] ∧ Unsplit short n calls (k + 2) (rest.drop 1)
    else Unsplit short n calls (k + 1) rest

instance decidableUnsplit (short : ℕ → ℕ) (n : ℕ) : ∀ (calls k : ℕ) (content : Str),
    Decidable (Unsplit short n calls k content)
  | 0, _, _ => .isTrue trivial
  | calls + 1, k, content =>
    have := decidableUnsplit short n calls (k + 2)
      ((content.drop (min (n - 1) (short k + 1))).drop 1)
    have := decidableUnsplit short n calls (k + 1) (content.drop (min (n - 1) (short k + 1)))
    inferInstanceAs (Decidable (ite _ _ _))

/-- `unix` of all but the last character. -/
def kept : Str → Str
  | [] => []
  | [_] => []
  | c :: d :: s => if c = CR ∧ d = NEWLINE then kept (d :: s) else c :: kept (d :: s)

section Squeeze

variable {s tail buf rest : Str} {c d : UInt8}

theorem unix_append_last (body : Str) (c : UInt8) (rest : Str) :
    unix (body ++ c :: rest) = kept (body ++ [c]) ++ unix (c :: rest) := by
  induction body with
  | nil => rfl
  | cons d body ih =>
    cases body with
    | nil =>
      show (if d = CR ∧ some c = some NEWLINE then unix (c :: rest) else d :: unix (c :: rest)) =
        (if d = CR ∧ c = NEWLINE then kept [c] else d :: kept [c]) ++ unix (c :: rest)
      simp only [Option.some.injEq]
      split_ifs <;> rfl
    | cons e body =>
      show (if d = CR ∧ some e = some NEWLINE then unix (e :: body ++ c :: rest)
          else d :: unix (e :: body ++ c :: rest)) =
        (if d = CR ∧ e = NEWLINE then kept (e :: body ++ [c]) else d :: kept (e :: body ++ [c])) ++
          unix (c :: rest)
      simp only [Option.some.injEq]
      rw [ih]
      split_ifs <;> rfl

/-- The loop moves the characters that stay to the front; the last one is not looked at. -/
theorem squeeze_eq (body : Str) (last : UInt8) : ∀ (out junk : Str),
    ∃ junk', squeeze body.length (out.length + junk.length) junk.length
        (out ++ junk ++ (body ++ [last])) =
      .ok (out ++ kept (body ++ [last]) ++ junk' ++ [last], junk'.length) := by
  -- `out` has been moved down already, and `junk` is the gap that the dropped characters leave
  induction body with
  | nil =>
    intro out junk
    refine ⟨junk, ?_⟩
    rw [List.length_nil, squeeze]
    simp only [List.nil_append, kept, List.append_nil]
  | cons c body ih =>
    intro out junk
    obtain ⟨d, tail, htail⟩ : ∃ d tail, body ++ [last] = d :: tail :=
      List.exists_cons_of_ne_nil (by simp)
    have hlen : (out ++ junk).length = out.length + junk.length := List.length_append
    have hc : (out ++ junk ++ (c :: body ++ [last]))[out.length + junk.length]? = some c := by
      rw [← hlen, List.getElem?_append_right (le_refl _), Nat.sub_self]
      rfl
    have hd : (out ++ junk ++ (c :: body ++ [last]))[out.length + junk.length + 1]? = some d := by
      rw [← hlen, List.getElem?_append_right (Nat.le_succ _), Nat.succ_sub (le_refl _),
        Nat.sub_self, List.cons_append, htail]
      rfl
    have hkept : kept (c :: body ++ [last]) =
        if c = CR ∧ d = NEWLINE then kept (body ++ [last]) else c :: kept (body ++ [last]) := by
      rw [List.cons_append, htail]
      rfl
    rw [List.length_cons, squeeze, hc, hd, hkept]
    simp only
    -- the character is dropped and the gap grows, or it is moved over the gap
    by_cases hpair : c = CR ∧ d = NEWLINE
    · rw [if_pos hpair, if_pos hpair]
      have hstep := ih out (junk ++ [c])
      rw [List.length_append, List.length_singleton] at hstep
      simp only [List.append_assoc, List.cons_append, List.nil_append] at hstep ⊢
      exact hstep
    · rw [if_neg hpair, if_neg hpair, Nat.add_sub_cancel]
      cases junk with
      | nil =>
        have hset : (out ++ [] ++ (c :: body ++ [last])).set out.length c =
            out ++ [c] ++ [] ++ (body ++ [last]) := by
          rw [List.append_nil, List.set_append_right _ _ (le_refl _), Nat.sub_self]
          simp only [List.cons_append, List.set_cons_zero, List.append_assoc, List.nil_append]
        obtain ⟨junk', hstep⟩ := ih (out ++ [c]) []
        rw [List.length_append, List.length_singleton] at hstep
        refine ⟨junk', ?_⟩
        rw [hset]
        simp only [List.append_assoc, List.cons_append, List.nil_append] at hstep ⊢
        exact hstep
      | cons j junk =>
        have hset : (out ++ j :: junk ++ (c :: body ++ [last])).set out.length c =
            out ++ [c] ++ (junk ++ [c]) ++ (body ++ [last]) := by
          rw [List.append_assoc, List.set_append_right _ _ (le_refl _), Nat.sub_self]
          simp only [List.cons_append, List.set_cons_zero, List.append_assoc, List.nil_append]
        obtain ⟨junk', hstep⟩ := ih (out ++ [c]) (junk ++ [c])
        rw [List.length_append, List.length_append, List.length_singleton] at hstep
        refine ⟨junk', ?_⟩
        rw [hset, List.length_cons]
        have hindex : out.length + (junk.length + 1) + 1 =
            out.length + 1 + (junk.length + 1) := by omega
        rw [hindex]
        simp only [List.append_assoc, List.cons_append, List.nil_append] at hstep ⊢
        exact hstep

theorem squeeze_length : ∀ {turns i skipped skipped' : ℕ} {bufptr bufptr' : Str},
    squeeze turns i skipped bufptr = .ok (bufptr', skipped') → bufptr'.length = bufptr.length
  | 0, i, skipped, skipped', bufptr, bufptr', h => by
    rw [squeeze] at h
    cases h
    rfl
  | turns + 1, i, skipped, skipped', bufptr, bufptr', h => by
    rw [squeeze] at h
    split at h
    · split_ifs at h
      · exact squeeze_length h
      · rw [squeeze_length h, List.length_set]
    · cases h

theorem squeeze_chunk (body : Str) (last : UInt8) : ∃ junk,
    squeeze body.length 0 0 (body ++ [last]) =
        .ok (kept (body ++ [last]) ++ junk ++ [last], junk.length) ∧
      (kept (body ++ [last])).length + junk.length = body.length := by
  obtain ⟨junk, hsqueeze⟩ := squeeze_eq body last [] []
  rw [List.length_nil, List.nil_append, List.nil_append, List.nil_append] at hsqueeze
  refine ⟨junk, hsqueeze, ?_⟩
  have hlen := squeeze_length hsqueeze
  simp only [List.length_append, List.length_singleton] at hlen
  omega

end Squeeze

section Call

variable {read : Read} {n : ℕ} {src src' : Source} {out junk : Str} {d last : UInt8}

theorem move_one (out junk : Str) (c last : UInt8) :
    ((out ++ junk ++ [last]).set out.length c).take (out.length + 1) = out ++ [c] := by
  obtain ⟨x, tail, htail⟩ : ∃ x tail, junk ++ [last] = x :: tail :=
    List.exists_cons_of_ne_nil (by simp)
  rw [List.append_assoc, htail, List.set_append_right _ _ (le_refl _), Nat.sub_self,
    List.set_cons_zero, List.take_length_add_append]
  rfl

theorem move_two (out junk : Str) (c d last : UInt8) :
    (((out ++ junk ++ [last] ++ [d]).set out.length c).set (out.length + 1) d).take
      (out.length + 2) = out ++ [c, d] := by
  obtain ⟨x, tail, htail⟩ : ∃ x tail, junk ++ [last] = x :: tail :=
    List.exists_cons_of_ne_nil (by simp)
  obtain ⟨y, tail', htail'⟩ : ∃ y tail', tail ++ [d] = y :: tail' :=
    List.exists_cons_of_ne_nil (by simp)
  have hall : out ++ junk ++ [last] ++ [d] = out ++ x :: y :: tail' := by
    rw [List.append_assoc out, htail, List.append_assoc, List.cons_append, htail']
  rw [hall, List.set_append_right _ _ (le_refl _), Nat.sub_self, List.set_cons_zero,
    List.set_append_right _ _ (Nat.le_succ _), Nat.succ_sub (le_refl _), Nat.sub_self,
    List.set_cons_succ, List.set_cons_zero, List.take_length_add_append]
  rfl

theorem last_index (out junk : Str) (last : UInt8) :
    (out ++ junk ++ [last])[out.length + junk.length]? = some last := by
  rw [← List.length_append, List.getElem?_append_right (le_refl _), Nat.sub_self]
  rfl

theorem lastChar_other (h : last ≠ CR) :
    lastChar read n src (out ++ junk ++ [last]) out.length junk.length =
      .ok (out ++ [last], src) := by
  rw [lastChar, last_index]
  simp only
  rw [if_neg h, move_one]

theorem lastChar_end (h : src.read read 1 = (some [], src')) :
    lastChar read n src (out ++ junk ++ [CR]) out.length junk.length =
      .ok (out ++ [CR], src') := by
  rw [lastChar, last_index]
  simp only
  rw [if_pos trivial, h]
  simp only
  rw [move_one]

theorem lastChar_more (hroom : out.length + junk.length + 1 < n)
    (h : src.read read 1 = (some [d], src')) :
    lastChar read n src (out ++ junk ++ [CR]) out.length junk.length =
      .ok (out ++ (if d = NEWLINE then [NEWLINE] else [CR, d]), src') := by
  rw [lastChar, last_index]
  simp only
  rw [if_pos trivial, h]
  simp only
  rw [if_neg (by omega)]
  by_cases hd : d = NEWLINE
  · rw [if_neg (not_not_intro hd), if_pos hd, move_one]
  · rw [if_pos hd, if_neg hd, move_two]

end Call

section Run

variable {short : ℕ → ℕ} {n k calls : ℕ} {content : Str}

/-- What one call does to the text: it delivers its image, or one character too many. -/
structure CallOk (short : ℕ → ℕ) (n : ℕ) (src : Source) (delivered : Str) (src' : Source) (good : Prop) :
    Prop where
  some : delivered ≠ []
  less : src'.content.length < src.content.length
  unsplit : ∀ calls, Unsplit short n (calls + 1) src.calls src.content ↔
    good ∧ Unsplit short n calls src'.calls src'.content
  same : good → unix src.content = delivered ++ unix src'.content
  longer : ¬ good → (unix src.content).length < (delivered ++ unix src'.content).length

theorem read_one (short : ℕ → ℕ) (k : ℕ) (rest : Str) :
    Source.read (fun k => some (short k)) ⟨rest, k⟩ 1 =
      (some (rest.take 1), ⟨rest.drop 1, k + 1⟩) := by
  have hone : min 1 (short k + 1) = 1 := by omega
  rw [Source.read]
  simp only [hone]

theorem text_read_eq {body rest : Str} {last : UInt8}
    (hread : Source.read (fun k => some (short k)) ⟨content, k⟩ (n + 1) =
      (some (body ++ [last]), ⟨rest, k + 1⟩)) :
    ∃ junk : Str, (kept (body ++ [last])).length + junk.length = body.length ∧
      stdioTextRead (fun k => some (short k)) ⟨content, k⟩ (n + 2) =
        (lastChar (fun k => some (short k)) (n + 2) ⟨rest, k + 1⟩
          (kept (body ++ [last]) ++ junk ++ [last]) (kept (body ++ [last])).length
          junk.length).map fun r => (some r.1, r.2) := by
  obtain ⟨junk, hsqueeze, hsum⟩ := squeeze_chunk body last
  obtain ⟨c, buf, hbuf⟩ : ∃ c buf, body ++ [last] = c :: buf :=
    List.exists_cons_of_ne_nil (by simp)
  have hcount : buf.length = body.length := by
    have h := congrArg List.length hbuf
    simp only [List.length_append, List.length_cons, List.length_nil] at h
    omega
  refine ⟨junk, hsum, ?_⟩
  have hpos : body.length - junk.length = (kept (body ++ [last])).length := by omega
  have hroom : n + 2 - 1 = n + 1 := rfl
  rw [stdioTextRead, if_neg (by omega), if_neg (by omega), hroom, hread]
  simp only [hbuf]
  rw [← hbuf, hcount, hsqueeze]
  simp only [bind, Except.bind]
  rw [hpos]
  cases lastChar (fun k => some (short k)) (n + 2) ⟨rest, k + 1⟩
    (kept (body ++ [last]) ++ junk ++ [last]) (kept (body ++ [last])).length junk.length with
  | error stop => rfl
  | ok r => rfl

theorem unix_cr_other {d : UInt8} (h : d ≠ NEWLINE) (s : Str) :
    unix (CR :: d :: s) = CR :: unix (d :: s) := by
  have hpair : ¬ (CR = CR ∧ (d :: s).head? = some NEWLINE) :=
    fun hpair => h (Option.some_inj.mp hpair.2)
  rw [unix, if_neg hpair]

theorem text_read_call (short : ℕ → ℕ) (n k : ℕ) (hcontent : content ≠ []) :
    ∃ delivered src' good,
      stdioTextRead (fun k => some (short k)) ⟨content, k⟩ (n + 2) =
        .ok (some delivered, src') ∧
      CallOk short (n + 2) ⟨content, k⟩ delivered src' good := by
  set r := min (n + 1) (short k + 1) with hr
  set rest := content.drop r with hrest
  have hne : content.take r ≠ [] := by
    rw [Ne, List.take_eq_nil_iff, not_or]
    exact ⟨by omega, hcontent⟩
  obtain ⟨body, last, hchunk⟩ : ∃ body last, content.take r = body ++ [last] :=
    ⟨_, _, (List.dropLast_append_getLast hne).symm⟩
  have hread : Source.read (fun k => some (short k)) ⟨content, k⟩ (n + 1) =
      (some (body ++ [last]), ⟨rest, k + 1⟩) := by
    rw [Source.read]
    simp only [← hr, hchunk, ← hrest]
  have hsplit : content = body ++ last :: rest := by
    rw [← List.take_append_drop r content, hchunk, List.append_assoc]
    rfl
  have hless : rest.length < content.length := by
    rw [hsplit, List.length_append, List.length_cons]
    omega
  have hroom : body.length + 1 ≤ n + 1 := by
    have h := congrArg List.length hchunk
    rw [List.length_take, List.length_append, List.length_singleton] at h
    omega
  have hunix : unix content = kept (body ++ [last]) ++ unix (last :: rest) := by
    rw [hsplit, unix_append_last]
  have hunsplit : ∀ calls, Unsplit short (n + 2) (calls + 1) k content ↔
      if last = CR then rest.take 2 ≠ [CR, NEWLINE] ∧
        Unsplit short (n + 2) calls (k + 2) (rest.drop 1)
      else Unsplit short (n + 2) calls (k + 1) rest := by
    intro calls
    have hsize : n + 2 - 1 = n + 1 := rfl
    rw [Unsplit]
    simp only [hsize, ← hr, hchunk, ← hrest, List.getLast?_append, List.getLast?_singleton,
      Option.some_or, Option.some.injEq]
  obtain ⟨junk, hsum, hcall⟩ := text_read_eq hread
  by_cases hlast : last = CR
  · subst hlast
    have hone := read_one short (k + 1) rest
    cases htail : rest with
    | nil =>
      rw [htail] at hone hunsplit hunix
      rw [hcall, htail, lastChar_end hone]
      refine ⟨_, _, True, rfl, ⟨by simp, ?_, fun calls => ?_, fun _ => ?_,
        fun h => absurd trivial h⟩⟩
      · exact List.length_pos_iff.mpr hcontent
      · rw [hunsplit, if_pos rfl]
        exact and_congr_left' (iff_of_true (by decide) trivial)
      · rw [hunix, List.append_assoc]
        rfl
    | cons d rest' =>
      rw [htail] at hone hunsplit hunix hless
      rw [hcall, htail, lastChar_more (by omega) hone]
      by_cases hd : d = NEWLINE
      · -- the pair that the chunk has split
        subst hd
        rw [if_pos rfl]
        refine ⟨_, _, True, rfl, ⟨by simp, (Nat.lt_succ_self _).trans hless, fun calls => ?_,
          fun _ => ?_, fun h => absurd trivial h⟩⟩
        · rw [hunsplit, if_pos rfl]
          exact and_congr_left' (iff_of_true (fun h => absurd (List.head_eq_of_cons_eq h)
            (by decide)) trivial)
        · rw [hunix, List.append_assoc]
          rfl
      · -- the character that was read on its own may itself be half of a pair
        rw [if_neg hd]
        refine ⟨_, _, ¬ (d = CR ∧ rest'.head? = some NEWLINE), rfl, ⟨by simp,
          (Nat.lt_succ_self _).trans hless, fun calls => ?_, fun hgood => ?_, fun hbad => ?_⟩⟩
        · rw [hunsplit, if_pos rfl]
          refine and_congr_left' (not_congr ?_)
          cases rest' with
          | nil => simp
          | cons e rest' => simp
        · rw [hunix, unix_cr_other hd, unix, if_neg hgood, List.append_assoc]
          rfl
        · rw [hunix, unix_cr_other hd, unix, if_pos (not_not.mp hbad)]
          simp only [List.length_append, List.length_cons, List.length_nil, List.drop_succ_cons,
            List.drop_zero]
          omega
  · rw [hcall, lastChar_other hlast]
    refine ⟨_, _, True, rfl, ⟨by simp, hless, fun calls => ?_, fun _ => ?_, fun h => absurd trivial h⟩⟩
    · rw [hunsplit, if_neg hlast, true_and]
    · rw [hunix, unix, if_neg (fun h => hlast h.1), List.append_assoc]
      rfl

theorem unsplit_nil (short : ℕ → ℕ) (n : ℕ) : ∀ calls k : ℕ, Unsplit short n calls k []
  | 0, _ => trivial
  | calls + 1, k => by
    have hlast : ¬ ([] : Str).getLast? = some CR := by decide
    rw [Unsplit, List.take_nil, List.drop_nil, if_neg hlast]
    exact unsplit_nil short n calls (k + 1)

/-- All calls: each delivers its part, and nothing makes up for a character too many. -/
theorem readAll_ok (short : ℕ → ℕ) (n : ℕ) (calls : ℕ) : ∀ (k : ℕ) (content : Str),
    content.length < calls →
      ∃ out, readAll (fun k => some (short k)) (n + 2) calls ⟨content, k⟩ = .ok (some out) ∧
        (Unsplit short (n + 2) calls k content → out = unix content) ∧
        (¬ Unsplit short (n + 2) calls k content → (unix content).length < out.length) := by
  induction calls with
  | zero => exact fun k content h => absurd h (Nat.not_lt_zero _)
  | succ calls ih =>
    intro k content hcalls
    by_cases hcontent : content = []
    · subst hcontent
      refine ⟨[], ?_, fun _ => rfl, fun h => absurd (unsplit_nil short _ _ k) h⟩
      have hsize : n + 2 - 1 = n + 1 := rfl
      rw [readAll, stdioTextRead, if_neg (by omega), if_neg (by omega), hsize, Source.read]
      simp only [List.take_nil]
    obtain ⟨delivered, src', good, hcall, hok⟩ := text_read_call short n k hcontent
    have hless : src'.content.length < content.length := hok.less
    obtain ⟨out, hrest, hsame, hlonger⟩ := ih src'.calls src'.content (by omega)
    obtain ⟨c, buf, hbuf⟩ := List.exists_cons_of_ne_nil hok.some
    refine ⟨delivered ++ out, ?_, fun h => ?_, fun h => ?_⟩
    · rw [readAll, hcall, hbuf]
      simp only
      rw [hrest]
      rfl
    · obtain ⟨hgood, hunsplit⟩ := (hok.unsplit calls).mp h
      rw [hsame hunsplit]
      exact (hok.same hgood).symm
    · have hle : (unix src'.content).length ≤ out.length := by
        by_cases hunsplit : Unsplit short (n + 2) calls src'.calls src'.content
        · rw [hsame hunsplit]
        · exact (hlonger hunsplit).le
      by_cases hgood : good
      · have hsplit : ¬ Unsplit short (n + 2) calls src'.calls src'.content :=
          fun hunsplit => h ((hok.unsplit calls).mpr ⟨hgood, hunsplit⟩)
        have hlt := hlonger hsplit
        have hunix : unix content = delivered ++ unix src'.content := hok.same hgood
        rw [hunix, List.length_append, List.length_append]
        omega
      · have hlt : (unix content).length < (delivered ++ unix src'.content).length :=
          hok.longer hgood
        rw [List.length_append] at hlt ⊢
        omega

theorem readAll_iff :
    readAll (fun k => some (short k)) (n + 2) (content.length + 1) ⟨content, 0⟩ =
        .ok (some (unix content)) ↔
      Unsplit short (n + 2) (content.length + 1) 0 content := by
  obtain ⟨out, hread, hsame, hlonger⟩ :=
    readAll_ok short n (content.length + 1) 0 content (Nat.lt_succ_self _)
  rw [hread, Except.ok.injEq, Option.some.injEq]
  refine ⟨fun h => ?_, hsame⟩
  by_contra hsplit
  have hlt := hlonger hsplit
  rw [h] at hlt
  exact lt_irrefl _ hlt

end Run

/-- A device that keeps the calls of `write`; what it answers may depend on all of them. -/
def recorded (answer : List Call → Str → ℤ) : Write (List Call) := fun calls given =>
  (answer calls given, calls ++ [⟨given, answer calls given⟩])

/-- The text that is read back, in a file that was written by `__stdio_text_write` without an
error, is the one that was given to it. -/
def ReadsBack (short : ℕ → ℕ) (n : ℕ) (w : Str) : Prop :=
  ∀ (answer : List Call → Str → ℤ) (st_blksize : Option ℤ) (steps : ℕ) (ret : ℤ)
    (calls : List Call), Legal (recorded answer) →
    stdioTextWrite (recorded answer) st_blksize steps w [] = .ok (ret, calls) →
    (∀ c ∈ calls, 0 ≤ c.answer) →
    readAll (fun k => some (short k)) n ((taken calls).length + 1) ⟨taken calls, 0⟩ = .ok (some w)

theorem handed_recorded {answer : List Call → Str → ℤ} {before calls after : List Call}
    (h : Handed (recorded answer) before calls after) : after = before ++ calls := by
  induction h with
  | none dev => exact (List.append_nil dev).symm
  | call given _ ih =>
    rw [ih]
    exact List.append_assoc _ [_] _

theorem unix_crlf (w : Str) : unix (crlf w) = w := by
  induction w with
  | nil => rfl
  | cons c w ih =>
    rw [crlf_cons]
    by_cases hc : c = NEWLINE
    · subst hc
      rw [if_pos rfl]
      show unix (CR :: NEWLINE :: crlf w) = _
      have hpair : CR = CR ∧ (NEWLINE :: crlf w).head? = some NEWLINE := ⟨rfl, rfl⟩
      have hnot : ¬ (NEWLINE = CR ∧ (crlf w).head? = some NEWLINE) :=
        fun h => absurd h.1 (by decide)
      rw [unix, if_pos hpair, unix, if_neg hnot, ih]
    · rw [if_neg hc]
      show unix (c :: crlf w) = _
      -- a line feed that is written has its carriage return
      have hhead : (crlf w).head? ≠ some NEWLINE := by
        cases w with
        | nil => exact fun h => Option.some_ne_none _ h.symm
        | cons d w =>
          rw [crlf_cons]
          by_cases hd : d = NEWLINE
          · rw [if_pos hd]
            exact fun h => absurd (Option.some_inj.mp h) (by decide)
          · rw [if_neg hd]
            exact fun h => hd (Option.some_inj.mp h)
      have hnot : ¬ (c = CR ∧ (crlf w).head? = some NEWLINE) := fun h => hhead h.2
      rw [unix, if_neg hnot, ih]

theorem writeLoop_all {blocksize : ℕ} (hblock : 0 < blocksize) (steps : ℕ) :
    ∀ (buf : Str) (written : ℕ) (calls : List Call), buf.length < steps →
      (∀ c ∈ calls, 0 ≤ c.answer) →
      ∃ ret calls', writeLoop (recorded fun _ given => given.length) blocksize steps buf written
          calls = .ok (ret, calls') ∧ ∀ c ∈ calls', 0 ≤ c.answer := by
  induction steps with
  | zero => exact fun buf _ _ h => absurd h (Nat.not_lt_zero _)
  | succ steps ih =>
    intro buf written calls hlen hcalls
    by_cases hbuf : buf = []
    · exact ⟨Int.bmod written (2 ^ 32), calls, by rw [hbuf, writeLoop], hcalls⟩
    obtain ⟨got, rest, rfl, hgot, hstep⟩ := writeLoop_step (σ := List Call) hblock hbuf
    have hpos := List.length_pos_iff.mpr hgot
    rw [List.length_append] at hlen
    obtain ⟨m, rfl⟩ : ∃ m, steps = m + 1 := ⟨steps - 1, by omega⟩
    have hchunk : crlf got ≠ [] := by
      obtain ⟨c, got', rfl⟩ := List.exists_cons_of_ne_nil hgot
      rw [crlf_cons]
      split_ifs <;> simp
    have hcount : (0 : ℤ) < (crlf got).length :=
      Int.natCast_pos.mpr (List.length_pos_iff.mpr hchunk)
    have hflush : flush (recorded fun _ given => given.length) (m + 1) (crlf got) calls =
        .ok (true, calls ++ [⟨crlf got, (crlf got).length⟩]) := by
      have hall : 0 < (recorded (fun _ given => given.length) calls (crlf got)).1 := hcount
      rw [flush_step (fun _ _ => le_refl _) m calls hchunk, if_pos hall]
      show flush _ m ((crlf got).drop ((crlf got).length : ℤ).toNat) _ = _
      rw [Int.toNat_natCast, List.drop_length, flush]
      rfl
    rw [hstep, hflush]
    refine ih rest (written + got.length) _ (by omega) fun c hc => ?_
    rcases List.mem_append.mp hc with hc | hc
    · exact hcalls c hc
    · rw [List.mem_singleton.mp hc]
      exact hcount.le

theorem written_bytes {answer : List Call → Str → ℤ} {st_blksize : Option ℤ} {steps : ℕ}
    {w : Str} {ret : ℤ} {calls : List Call} (hlegal : Legal (recorded answer))
    (hwrite : stdioTextWrite (recorded answer) st_blksize steps w [] = .ok (ret, calls))
    (hanswers : ∀ c ∈ calls, 0 ≤ c.answer) : taken calls = crlf w := by
  rw [stdioTextWrite] at hwrite
  rcases writeLoop_ok hlegal (blockSize_pos st_blksize) steps w 0 [] with
    hsteps | ⟨ret', calls', made, hloop, hok⟩
  · rw [hsteps] at hwrite
    cases hwrite
  · rw [hloop] at hwrite
    cases hwrite
    have hmade := handed_recorded hok.handed
    rw [List.nil_append] at hmade
    rw [hmade] at hanswers ⊢
    exact (hok.good hanswers).2

/-- Reading in text mode depends on where the reads stop: it delivers the text with each pair
made one line feed, and so what was written in text mode, if and only if no read stops at the
first of two carriage returns in front of a line feed. -/
theorem text_read (short : ℕ → ℕ) (n : ℕ) (content w : Str) :
    (readAll (fun k => some (short k)) (n + 2) (content.length + 1) ⟨content, 0⟩ =
        .ok (some (unix content)) ↔
      Unsplit short (n + 2) (content.length + 1) 0 content) ∧
    (ReadsBack short (n + 2) w ↔ Unsplit short (n + 2) ((crlf w).length + 1) 0 (crlf w)) := by
  refine ⟨readAll_iff, fun h => ?_, fun h => ?_⟩
  · obtain ⟨ret, calls, hwrite, hanswers⟩ := writeLoop_all (blockSize_pos none) (w.length + 1) w 0
      [] (Nat.lt_succ_self _) (fun c hc => absurd hc List.not_mem_nil)
    have hbytes := written_bytes (fun _ _ => le_refl _) hwrite hanswers
    rw [← readAll_iff, unix_crlf, ← hbytes]
    exact h _ none (w.length + 1) ret calls (fun _ _ => le_refl _) hwrite hanswers
  · intro answer st_blksize steps ret calls hlegal hwrite hanswers
    rw [written_bytes hlegal hwrite hanswers, readAll_iff.mpr h, unix_crlf]

/-- Two carriage returns and a line feed, read through a buffer of two characters, come back as
they are. -/
theorem text_read_split :
    ¬ ∀ (short : ℕ → ℕ) (n : ℕ) (content w : Str),
      readAll (fun k => some (short k)) (n + 2) (content.length + 1) ⟨content, 0⟩ =
          .ok (some (unix content)) ∧
        ReadsBack short (n + 2) w := by
  intro h
  have hread := (h (fun _ => 0) 0 [CR, CR, NEWLINE] []).1
  have hsame : readAll (fun _ => some 0) 2 4 ⟨[CR, CR, NEWLINE], 0⟩ =
      .ok (some [CR, CR, NEWLINE]) := by decide +kernel
  rw [show [CR, CR, NEWLINE].length + 1 = 4 from rfl, hsame] at hread
  exact absurd hread (by decide)

end Mintlib.TextRead
