import Mintlib.Stores
import Mintlib.TempNames
import Mintlib.Unx2dos

/-!
# Names made in one static buffer: `tempnam.c`

Every call of `tempnam` makes its names in the same buffer. A name has no terminator of its own:
it ends where the buffer has not been written to.
-/

namespace Mintlib.Tempnam

open Text TempNames Stores Checked

abbrev lTmpnam : ℕ := 128

abbrev pTmpdir : Str := [47, 117, 115, 114, 47, 116, 109, 112]

/-- `__ugly_tos_P_tmpdir`, the same with backslashes. -/
abbrev uglyTosPTmpdir : Str := [92, 117, 115, 114, 92, 116, 109, 112]

abbrev slashTmp : Str := [47, 116, 109, 112]
abbrev backslashTmp : Str := [92, 116, 109, 112]

/-- One call of `tempnam`, and what it finds: the environment, the directories that may be
written, what `__exists` answers for a name, and whether `__strdup` gets memory. -/
structure Call where
  dir : Option CStr
  pre : Option CStr
  TMPDIR : Option CStr
  mint : ℕ
  diraccess : Str → Bool
  there : Str → Bool
  pid : ℕ
  random : ℕ × ℕ × ℕ
  memory : Bool

def getTmpdir (call : Call) (preferred : Option CStr) (try_tmpdir : Bool) : Option CStr :=
  let usable (s : CStr) : Bool := s.1.length < lTmpnam && call.diraccess s
  let trydir := if try_tmpdir then call.TMPDIR else none
  if preferred.any usable then preferred
  else if trydir.any usable then trydir
  else if (trydir.map Subtype.val ≠ some pTmpdir) ∧ call.diraccess uglyTosPTmpdir then
    if call.mint ≠ 0 then some ⟨pTmpdir, by decide⟩
    else some ⟨uglyTosPTmpdir, by decide⟩
  else if call.diraccess slashTmp then
    if call.mint ≠ 0 then some ⟨slashTmp, by decide⟩ else some ⟨backslashTmp, by decide⟩
  else none

/-- The directory that `tempnam` takes. -/
def tmpdir (call : Call) : Option CStr :=
  match call.dir with
  | none => getTmpdir call none true
  | some dir =>
    if lTmpnam - 13 < dir.1.length then getTmpdir call none true
    else getTmpdir call (some dir) true

/-- `if (!__exists (buf))`, where `there` is what `__exists` answers for a name. -/
def nameExists (call : Call) (name : Str) : Answer := if call.there name then .taken else .free

/-- What `__exists` says of the string in the buffer; without an end it reads on behind it. -/
def answer (call : Call) (buf : Str) : Answer :=
  if 0 ∉ buf then .failed else nameExists call (cstr buf)

/-- The separator behind the directory; the character before it is read. -/
def separate (call : Call) (buf : Str) (len : ℕ) : Except Stop (ℕ × Str) :=
  if len = 0 then .error .bounds
  else if buf.getD (len - 1) 0 ≠ SLASH ∧ buf.getD (len - 1) 0 ≠ BACKSLASH then do
    let buf ← store buf len (if call.mint ≠ 0 then SLASH else BACKSLASH)
    .ok (len + 1, buf)
  else .ok (len, buf)

def compose (call : Call) (tmpdir : Str) (buf : Str) : Except Stop (ℕ × Str) := do
  let buf ← strcpy buf 0 tmpdir
  let (len, buf) ← separate call buf tmpdir.length
  let (len, buf) ← copyText ((call.pre.elim [] Subtype.val).take 5) len buf
  let buf ← store buf len 0
  let len := len + 7
  let buf ← store buf (len - 4) DOT
  let pid := call.pid % 2 ^ 16
  let buf ← store buf (len - 1) (digit (pid % 10))
  let buf ← store buf (len - 2) (digit (pid / 10 % 10))
  let buf ← store buf (len - 3) (digit (pid / 10 / 10 % 10))
  .ok (len, buf)

/-- `tempnam`: the name that is returned, and the buffer afterwards. -/
def tempnam (call : Call) (buf : Str) : Except Stop (Option Str × Str) :=
  match tmpdir call with
  | none => .ok (none, buf)
  | some dir => do
    let (len, buf) ← compose call dir buf
    match loop0 (answer call) (len - 1) letters.length
        (start call.random.1, start call.random.2.1, start call.random.2.2) ⟨buf, []⟩ with
    | .more _ temp => .ok (none, temp.template)
    | .stop .free temp =>
      .ok (if call.memory then some (cstr temp.template) else none, temp.template)
    | .stop _ _ => .error .bounds

def run : List Call → Str → Except Stop (List (Option Str) × Str)
  | [], buf => .ok ([], buf)
  | call :: calls, buf => do
    let (name, buf) ← tempnam call buf
    let (names, buf) ← run calls buf
    .ok (name :: names, buf)

def empty : Str := List.replicate lTmpnam 0

def separated (call : Call) (dir : Str) : Str :=
  if dir.getLast? = some SLASH ∨ dir.getLast? = some BACKSLASH then dir
  else dir ++ [if call.mint ≠ 0 then SLASH else BACKSLASH]

def stem (call : Call) (dir : Str) : Str :=
  separated call dir ++ (call.pre.elim [] Subtype.val).take 5

def suffix (call : Call) : Str := DOT :: pidDigits call.pid

def Formed (call : Call) (dir name : Str) : Prop :=
  ∃ a b c, name = stem call dir ++ [letter a, letter b, letter c] ++ suffix call

def named (call : Call) : Option Str :=
  (tmpdir call).bind fun dir =>
    match loop0 (nameExists call) ((stem call dir).length + 6) letters.length
        (start call.random.1, start call.random.2.1, start call.random.2.2)
        ⟨stem call dir ++ [0, 0, 0] ++ suffix call, []⟩ with
    | .stop .free temp => if call.memory then some temp.template else none
    | _ => none

/-- There is a directory with a name, the buffer has room for the name made in it, and none of the
names before was longer. -/
def FitsCall (call : Call) (longest : ℕ) : Prop :=
  ∀ dir, tmpdir call = some dir → dir.1 ≠ [] ∧ (stem call dir).length + 7 < lTmpnam ∧
    longest ≤ (stem call dir).length + 7

def longer (call : Call) (longest : ℕ) : ℕ :=
  (tmpdir call).elim longest fun dir => (stem call dir).length + 7

def Fits : List Call → ℕ → Prop
  | [], _ => True
  | call :: calls, longest => FitsCall call longest ∧ Fits calls (longer call longest)

/-- The buffer has a string of `longest` characters and zeros behind it. -/
structure Kept (buf : Str) (longest : ℕ) : Prop where
  length : buf.length = lTmpnam
  zeros : ∀ i, longest ≤ i → i < lTmpnam → buf[i]? = some 0

section Loops

variable {answer answer' : Str → Answer} {head tail tail' : Str}

def around (head tail three : Str) : Str := head ++ three ++ tail

theorem set_around (tail three : Str) {k : ℕ} (hk : k < three.length) (c : UInt8) :
    (around head tail three).set (head.length + k) c = around head tail (three.set k c) := by
  unfold around
  rw [List.append_assoc, List.set_append_right _ _ (Nat.le_add_right _ _),
    Nat.add_sub_cancel_left, List.set_append_left _ _ hk, List.append_assoc]

/-- Two runs of a loop, with different texts behind the letters, that come to the same. -/
inductive Alike (answer : Str → Answer) (head tail tail' : Str) {α : Type}
    (left : Str → Str → Prop) : Outcome α → Outcome α → Prop
  | more (counters : α) (three three' : Str) (tried tried' : List Str) : left three three' →
      Alike answer head tail tail' left (.more counters ⟨around head tail three, tried⟩)
        (.more counters ⟨around head tail' three', tried'⟩)
  | stop (i j k : ℕ) (tried tried' : List Str) :
      answer (around head tail [letter i, letter j, letter k]) ≠ .taken →
      Alike answer head tail tail' left
        (.stop (answer (around head tail [letter i, letter j, letter k]))
          ⟨around head tail [letter i, letter j, letter k], tried⟩)
        (.stop (answer (around head tail [letter i, letter j, letter k]))
          ⟨around head tail' [letter i, letter j, letter k], tried'⟩)

theorem Alike.name {α : Type} {left : Str → Str → Prop} {a : Answer} {temp : Temp}
    {out : Outcome α} (h : Alike answer head tail tail' left (.stop a temp) out) :
    ∃ i j k, temp.template = around head tail [letter i, letter j, letter k] := by
  cases h with
  | stop i j k tried tried' hne => exact ⟨i, j, k, rfl⟩

def SameAnswers (answer answer' : Str → Answer) (head tail tail' : Str) : Prop :=
  ∀ i j k, answer (around head tail [letter i, letter j, letter k]) =
    answer' (around head tail' [letter i, letter j, letter k])

theorem loop2_alike (hsame : SameAnswers answer answer' head tail tail') (i j n : ℕ) :
    ∀ (i2 : ℕ) (x x' : UInt8) (tried tried' : List Str),
    Alike answer head tail tail'
      (fun y y' => ∃ z z', y = [letter i, letter j, z] ∧ y' = [letter i, letter j, z'])
      (loop2 answer (head.length + 6) n i2 ⟨around head tail [letter i, letter j, x], tried⟩)
      (loop2 answer' (head.length + 6) n i2
        ⟨around head tail' [letter i, letter j, x'], tried'⟩) := by
  induction n with
  | zero =>
    intro i2 x x' tried tried'
    exact .more _ _ _ _ _ ⟨x, x', rfl, rfl⟩
  | succ n ih =>
    intro i2 x x' tried tried'
    have hset : ∀ (t : Str) (y : UInt8), (around head t [letter i, letter j, y]).set
        (head.length + 6 - 4) (letter i2) = around head t [letter i, letter j, letter i2] :=
      fun t y => set_around t [letter i, letter j, y] (Nat.lt_succ_self 2) _
    rw [loop2, loop2]
    simp only [hset]
    rw [← hsame i j i2]
    have hstop : answer (around head tail [letter i, letter j, letter i2]) ≠ .taken →
        ∀ tried tried', Alike answer head tail tail'
        (fun y y' => ∃ z z', y = [letter i, letter j, z] ∧ y' = [letter i, letter j, z'])
        (Outcome.stop (α := ℕ) (answer (around head tail [letter i, letter j, letter i2]))
          ⟨around head tail [letter i, letter j, letter i2], tried⟩)
        (.stop (answer (around head tail [letter i, letter j, letter i2]))
          ⟨around head tail' [letter i, letter j, letter i2], tried'⟩) :=
      fun hne tried tried' => .stop i j i2 tried tried' hne
    cases hcase : answer (around head tail [letter i, letter j, letter i2]) with
    | taken => exact ih _ _ _ _ _
    | free =>
      rw [hcase] at hstop
      exact hstop (by intro h; cases h) _ _
    | failed =>
      rw [hcase] at hstop
      exact hstop (by intro h; cases h) _ _

theorem loop1_alike (hsame : SameAnswers answer answer' head tail tail') (i n : ℕ) :
    ∀ (counters : ℕ × ℕ) (x x' y y' : UInt8) (tried tried' : List Str),
    Alike answer head tail tail'
      (fun t t' => ∃ z z' w w', t = [letter i, z, w] ∧ t' = [letter i, z', w'])
      (loop1 answer (head.length + 6) n counters ⟨around head tail [letter i, x, y], tried⟩)
      (loop1 answer' (head.length + 6) n counters
        ⟨around head tail' [letter i, x', y'], tried'⟩) := by
  induction n with
  | zero =>
    intro counters x x' y y' tried tried'
    exact .more _ _ _ _ _ ⟨x, x', y, y', rfl, rfl⟩
  | succ n ih =>
    rintro ⟨i1, i2⟩ x x' y y' tried tried'
    have hset : ∀ (t : Str) (x y : UInt8), (around head t [letter i, x, y]).set
        (head.length + 6 - 5) (letter i1) = around head t [letter i, letter i1, y] :=
      fun t x y => set_around t [letter i, x, y] (by decide : 1 < 3) _
    rw [loop1, loop1]
    simp only [hset]
    have hloop := loop2_alike hsame i i1 letters.length i2 y y' tried tried'
    generalize loop2 answer (head.length + 6) letters.length i2
      ⟨around head tail [letter i, letter i1, y], tried⟩ = out at hloop ⊢
    generalize loop2 answer' (head.length + 6) letters.length i2
      ⟨around head tail' [letter i, letter i1, y'], tried'⟩ = out' at hloop ⊢
    cases hloop with
    | more i2 three three' tried tried' hleft =>
      obtain ⟨z, z', rfl, rfl⟩ := hleft
      exact ih _ _ _ _ _ _ _
    | stop i j k tried tried' hne => exact .stop i j k tried tried' hne

theorem loop0_alike (hsame : SameAnswers answer answer' head tail tail') (n : ℕ) :
    ∀ (counters : ℕ × ℕ × ℕ) (three three' : Str) (tried tried' : List Str),
    three.length = 3 → three'.length = 3 →
    Alike answer head tail tail' (fun t t' => t.length = 3 ∧ t'.length = 3)
      (loop0 answer (head.length + 6) n counters ⟨around head tail three, tried⟩)
      (loop0 answer' (head.length + 6) n counters ⟨around head tail' three', tried'⟩) := by
  induction n with
  | zero =>
    intro counters three three' tried tried' hlength hlength'
    exact .more _ _ _ _ _ ⟨hlength, hlength'⟩
  | succ n ih =>
    rintro ⟨i0, i1, i2⟩ three three' tried tried' hlength hlength'
    have hset : ∀ (t : Str) {three : Str}, three.length = 3 → ∃ x y,
        (around head t three).set (head.length + 6 - 6) (letter i0) =
          around head t [letter i0, x, y] := by
      intro t three hlength
      obtain ⟨w, x, y, rfl⟩ := List.length_eq_three.mp hlength
      exact ⟨x, y, set_around t [w, x, y] (by decide : 0 < 3) _⟩
    obtain ⟨x, y, hx⟩ := hset tail hlength
    obtain ⟨x', y', hx'⟩ := hset tail' hlength'
    rw [loop0, loop0]
    simp only [hx, hx']
    have hloop := loop1_alike hsame i0 letters.length (i1, i2) x x' y y' tried tried'
    generalize loop1 answer (head.length + 6) letters.length (i1, i2)
      ⟨around head tail [letter i0, x, y], tried⟩ = out at hloop ⊢
    generalize loop1 answer' (head.length + 6) letters.length (i1, i2)
      ⟨around head tail' [letter i0, x', y'], tried'⟩ = out' at hloop ⊢
    cases hloop with
    | more counters three three' tried tried' hleft =>
      obtain ⟨z, z', w, w', rfl, rfl⟩ := hleft
      exact ih _ _ _ _ _ rfl rfl
    | stop i j k tried tried' hne => exact .stop i j k tried tried' hne

end Loops

section Buffer

variable {buf b head : Str} {l : ℕ}

theorem split_seven (h : Written buf b head l) (hl : l = head.length + 7)
    (hroom : l ≤ buf.length) :
    ∃ m₀ m₁ m₂ m₃ m₄ m₅ m₆ : UInt8,
      b = head ++ [m₀, m₁, m₂, m₃, m₄, m₅, m₆] ++ buf.drop l := by
  have hlength := h.length
  obtain ⟨rest, hrest⟩ := h.head
  have hrestlen : head.length + rest.length = b.length := by
    rw [← hrest, List.length_append]
  have htail : rest.drop 7 = buf.drop l := by
    rw [← h.rest, ← hrest, hl, List.drop_length_add_append]
  have hseven : (rest.take 7).length = 7 := by
    rw [List.length_take]
    omega
  obtain ⟨m₀, m₁, m₂, m₃, m₄, m₅, m₆, hm⟩ : ∃ m₀ m₁ m₂ m₃ m₄ m₅ m₆ : UInt8,
      rest.take 7 = [m₀, m₁, m₂, m₃, m₄, m₅, m₆] := by
    generalize rest.take 7 = t at hseven
    match t, hseven with
    | [m₀, m₁, m₂, m₃, m₄, m₅, m₆], _ => exact ⟨m₀, m₁, m₂, m₃, m₄, m₅, m₆, rfl⟩
  refine ⟨m₀, m₁, m₂, m₃, m₄, m₅, m₆, ?_⟩
  rw [← hrest, ← hm, ← htail, List.append_assoc, List.take_append_drop]

variable (call : Call) in
theorem separate_written {dir : Str} (h : Written buf b dir l) (hne : dir ≠ [])
    (hl : (separated call dir).length ≤ l) (hroom : l ≤ buf.length) :
    ∃ b', separate call b dir.length = .ok ((separated call dir).length, b') ∧
      Written buf b' (separated call dir) l := by
  obtain ⟨rest, hrest⟩ := h.head
  obtain ⟨d, c, rfl⟩ : ∃ d c, dir = d ++ [c] :=
    ⟨dir.dropLast, dir.getLast hne, (List.dropLast_append_getLast hne).symm⟩
  have hlength : (d ++ [c]).length = d.length + 1 := List.length_append
  have hlast : b.getD ((d ++ [c]).length - 1) 0 = c := by
    rw [← hrest, hlength, Nat.add_sub_cancel, List.append_assoc,
      List.getD_append_right _ _ _ _ le_rfl, Nat.sub_self, List.singleton_append,
      List.getD_cons_zero]
  have hsome : (d ++ [c]).getLast? = some c := List.getLast?_concat
  have hzero : ¬ (d ++ [c]).length = 0 := by omega
  unfold separate separated at *
  rw [hsome] at hl ⊢
  rw [if_neg hzero, hlast]
  by_cases hsep : c = SLASH ∨ c = BACKSLASH
  · have hsep' : some c = some SLASH ∨ some c = some BACKSLASH :=
      hsep.imp (congrArg some) (congrArg some)
    rw [if_neg (by rw [not_and_or, not_not, not_not]; exact hsep), if_pos hsep']
    exact ⟨b, rfl, h⟩
  · have hsep' : ¬ (some c = some SLASH ∨ some c = some BACKSLASH) := by
      rw [Option.some.injEq, Option.some.injEq]
      exact hsep
    rw [if_neg hsep', List.length_append, List.length_singleton] at hl
    obtain ⟨b', hstore, h'⟩ := h.store (show (d ++ [c]).length < l by omega) hroom
      (if call.mint ≠ 0 then SLASH else BACKSLASH)
    rw [if_pos (not_or.mp hsep), if_neg hsep', hstore, ok_bind]
    refine ⟨b', ?_, h'⟩
    have hplus : ∀ t : Str, (d ++ [c] ++ t).length = (d ++ [c]).length + t.length :=
      fun t => List.length_append
    rw [hplus]
    rfl

theorem store_digits (head rest : Str) (m₀ m₁ m₂ m₃ m₄ m₅ m₆ d₀ d₁ d₂ : UInt8) :
    (do
      let buf ← Checked.store (head ++ [m₀, m₁, m₂, m₃, m₄, m₅, m₆] ++ rest) head.length 0
      let buf ← Checked.store buf (head.length + 7 - 4) DOT
      let buf ← Checked.store buf (head.length + 7 - 1) d₂
      let buf ← Checked.store buf (head.length + 7 - 2) d₁
      let buf ← Checked.store buf (head.length + 7 - 3) d₀
      (.ok (head.length + 7, buf) : Except Stop (ℕ × Str))) =
    .ok (head.length + 7, around head ([DOT, d₀, d₁, d₂] ++ rest) [0, m₁, m₂]) := by
  have hstore : ∀ (seven : Str) (k : ℕ) (c : UInt8), k < seven.length →
      Checked.store (head ++ seven ++ rest) (head.length + k) c =
        .ok (head ++ seven.set k c ++ rest) := by
    intro seven k c hk
    have hin : head.length + k < (head ++ seven ++ rest).length := by
      rw [List.length_append, List.length_append]
      omega
    rw [Checked.store, if_pos hin, List.append_assoc,
      List.set_append_right _ _ (Nat.le_add_right _ _), Nat.add_sub_cancel_left,
      List.set_append_left _ _ hk, List.append_assoc]
  have h0 : Checked.store (head ++ [m₀, m₁, m₂, m₃, m₄, m₅, m₆] ++ rest) head.length 0 =
      .ok (head ++ [0, m₁, m₂, m₃, m₄, m₅, m₆] ++ rest) :=
    hstore [m₀, m₁, m₂, m₃, m₄, m₅, m₆] 0 0 (by decide : 0 < 7)
  have h3 : Checked.store (head ++ [0, m₁, m₂, m₃, m₄, m₅, m₆] ++ rest) (head.length + 7 - 4) DOT =
      .ok (head ++ [0, m₁, m₂, DOT, m₄, m₅, m₆] ++ rest) :=
    hstore [0, m₁, m₂, m₃, m₄, m₅, m₆] 3 DOT (by decide : 3 < 7)
  have h6 : Checked.store (head ++ [0, m₁, m₂, DOT, m₄, m₅, m₆] ++ rest) (head.length + 7 - 1) d₂ =
      .ok (head ++ [0, m₁, m₂, DOT, m₄, m₅, d₂] ++ rest) :=
    hstore [0, m₁, m₂, DOT, m₄, m₅, m₆] 6 d₂ (by decide : 6 < 7)
  have h5 : Checked.store (head ++ [0, m₁, m₂, DOT, m₄, m₅, d₂] ++ rest) (head.length + 7 - 2) d₁ =
      .ok (head ++ [0, m₁, m₂, DOT, m₄, d₁, d₂] ++ rest) :=
    hstore [0, m₁, m₂, DOT, m₄, m₅, d₂] 5 d₁ (by decide : 5 < 7)
  have h4 : Checked.store (head ++ [0, m₁, m₂, DOT, m₄, d₁, d₂] ++ rest) (head.length + 7 - 3) d₀ =
      .ok (head ++ [0, m₁, m₂, DOT, d₀, d₁, d₂] ++ rest) :=
    hstore [0, m₁, m₂, DOT, m₄, d₁, d₂] 4 d₀ (by decide : 4 < 7)
  rw [h0, ok_bind, h3, ok_bind, h6, ok_bind, h5, ok_bind, h4, ok_bind]
  unfold around
  simp only [List.append_assoc, List.cons_append, List.nil_append]

variable (call : Call) in
theorem compose_ok (hbuf : buf.length = lTmpnam) {dir : Str} (hne : dir ≠ [])
    (hroom : (stem call dir).length + 7 ≤ lTmpnam) :
    ∃ three : Str, three.length = 3 ∧ compose call dir buf =
      .ok ((stem call dir).length + 7, around (stem call dir)
        (suffix call ++ buf.drop ((stem call dir).length + 7)) three) := by
  generalize hl : (stem call dir).length + 7 = l at *
  have hstem : (stem call dir).length = (separated call dir).length +
      ((call.pre.elim [] Subtype.val).take 5).length := List.length_append
  have hsep : dir.length ≤ (separated call dir).length := by
    unfold separated
    by_cases hlast : dir.getLast? = some SLASH ∨ dir.getLast? = some BACKSLASH
    · rw [if_pos hlast]
    · rw [if_neg hlast, List.length_append]
      exact Nat.le_add_right _ _
  rw [← hbuf] at hroom
  obtain ⟨b₁, hcopy, h₁⟩ :=
    (Written.start buf l).strcpy dir (by rw [List.length_nil]; omega) hroom
  rw [List.nil_append] at h₁
  obtain ⟨b₂, hseparate, h₂⟩ :=
    separate_written call (h₁.of_prefix (List.prefix_append _ _)) hne (by omega) hroom
  obtain ⟨b₃, hput, h₃⟩ :=
    Written.copyText hroom ((call.pre.elim [] Subtype.val).take 5) h₂ (by omega)
  obtain ⟨m₀, m₁, m₂, m₃, m₄, m₅, m₆, hm⟩ := split_seven h₃ (by rw [← hl]; rfl) hroom
  refine ⟨[0, m₁, m₂], rfl, ?_⟩
  rw [List.length_nil] at hcopy
  rw [compose, hcopy, ok_bind, hseparate, ok_bind]
  simp only [hput]
  rw [ok_bind]
  simp only [← hstem, hm]
  rw [← hl]
  exact store_digits (stem call dir) _ m₀ m₁ m₂ m₃ m₄ m₅ m₆ _ _ _

end Buffer

section Calls

variable {call : Call} {buf : Str} {longest : ℕ}

theorem letter_ne_zero (i : ℕ) : (0 : UInt8) ≠ letter i := by
  have hall : ∀ k < 62, (0 : UInt8) ≠ letters.getD k 0 := by decide
  exact hall (i % 62) (Nat.mod_lt _ (by decide))

theorem digit_ne_zero {d : ℕ} (hd : d < 10) : (0 : UInt8) ≠ digit d := by
  intro h
  have hdigit := digit_toNat hd
  rw [← h] at hdigit
  have hzero : (0 : UInt8).toNat = 0 := rfl
  omega

theorem suffix_clean (call : Call) : (0 : UInt8) ∉ suffix call := by
  intro hmem
  rcases List.mem_cons.mp hmem with h | hmem
  · exact absurd h (by decide)
  unfold pidDigits at hmem
  rcases List.mem_cons.mp hmem with h | hmem
  · exact digit_ne_zero (Nat.mod_lt _ (by decide)) h
  rcases List.mem_cons.mp hmem with h | hmem
  · exact digit_ne_zero (Nat.mod_lt _ (by decide)) h
  · exact digit_ne_zero (Nat.mod_lt _ (by decide)) (List.mem_singleton.mp hmem)

theorem stem_clean {dir : CStr} : (0 : UInt8) ∉ stem call dir := by
  intro hmem
  rcases List.mem_append.mp hmem with hmem | hmem
  · unfold separated at hmem
    split_ifs at hmem
    · exact dir.2 hmem
    all_goals
      rcases List.mem_append.mp hmem with hmem | hmem
      · exact dir.2 hmem
      · exact absurd (List.mem_singleton.mp hmem) (by decide)
  · have hpre := List.mem_of_mem_take hmem
    cases hcase : call.pre with
    | none =>
      rw [hcase] at hpre
      exact absurd hpre List.not_mem_nil
    | some pre =>
      rw [hcase] at hpre
      exact pre.2 hpre

theorem around_clean (call : Call) (dir : CStr) (i j k : ℕ) :
    (0 : UInt8) ∉ around (stem call dir) (suffix call) [letter i, letter j, letter k] := by
  intro hmem
  rcases List.mem_append.mp hmem with hmem | hmem
  · rcases List.mem_append.mp hmem with hmem | hmem
    · exact stem_clean hmem
    · rcases List.mem_cons.mp hmem with h | hmem
      · exact letter_ne_zero i h
      rcases List.mem_cons.mp hmem with h | hmem
      · exact letter_ne_zero j h
      · exact letter_ne_zero k (List.mem_singleton.mp hmem)
  · exact suffix_clean call hmem

theorem Kept.drop (h : Kept buf longest) {l : ℕ} (hle : longest ≤ l) (hl : l < lTmpnam) :
    ∃ rest, buf.drop l = 0 :: rest := by
  have hin : l < buf.length := by
    rw [h.length]
    exact hl
  refine ⟨buf.drop (l + 1), ?_⟩
  rw [List.drop_eq_getElem_cons hin]
  have hzero := h.zeros l hle hl
  rw [List.getElem?_eq_getElem hin] at hzero
  rw [Option.some.inj hzero]

theorem kept_around (h : Kept buf longest) {dir : Str} (three : Str) (hthree : three.length = 3)
    (hle : longest ≤ (stem call dir).length + 7) (hl : (stem call dir).length + 7 < lTmpnam) :
    Kept (around (stem call dir) (suffix call ++ buf.drop ((stem call dir).length + 7)) three)
      ((stem call dir).length + 7) := by
  have hlength := h.length
  have hsuffix : (suffix call).length = 4 := rfl
  have hfront : (stem call dir ++ three ++ suffix call).length = (stem call dir).length + 7 := by
    rw [List.length_append, List.length_append, hthree, hsuffix]
  have hassoc : around (stem call dir) (suffix call ++ buf.drop ((stem call dir).length + 7))
      three = (stem call dir ++ three ++ suffix call) ++
        buf.drop ((stem call dir).length + 7) := (List.append_assoc _ _ _).symm
  rw [hassoc]
  constructor
  · rw [List.length_append, hfront, List.length_drop]
    omega
  · intro i hi hiL
    have hindex : (stem call dir).length + 7 + (i - ((stem call dir).length + 7)) = i := by omega
    rw [List.getElem?_append_right (by rw [hfront]; exact hi), hfront, List.getElem?_drop, hindex]
    exact h.zeros i (hle.trans hi) hiL

theorem answer_same (h : Kept buf longest) {dir : CStr}
    (hle : longest ≤ (stem call dir).length + 7) (hl : (stem call dir).length + 7 < lTmpnam) :
    SameAnswers (answer call) (nameExists call) (stem call dir)
      (suffix call ++ buf.drop ((stem call dir).length + 7)) (suffix call) := by
  intro i j k
  obtain ⟨rest, hrest⟩ := h.drop hle hl
  have hassoc : around (stem call dir) (suffix call ++ buf.drop ((stem call dir).length + 7))
      [letter i, letter j, letter k] =
        around (stem call dir) (suffix call) [letter i, letter j, letter k] ++ 0 :: rest := by
    rw [hrest]
    exact (List.append_assoc _ _ _).symm
  have hend : ¬ (0 : UInt8) ∉
      around (stem call dir) (suffix call) [letter i, letter j, letter k] ++ 0 :: rest :=
    not_not.mpr (List.mem_append_right _ List.mem_cons_self)
  rw [hassoc, answer, if_neg hend, cstr_append (around_clean call dir i j k)]

/-- A call that fits makes the name that does not depend on the buffer, and leaves it in order. -/
theorem tempnam_ok (h : Kept buf longest) (hfits : FitsCall call longest) :
    ∃ buf', tempnam call buf = .ok (named call, buf') ∧ Kept buf' (longer call longest) := by
  unfold tempnam named longer
  cases hdir : tmpdir call with
  | none => exact ⟨buf, rfl, h⟩
  | some dir =>
    obtain ⟨hne, hl, hle⟩ := hfits dir hdir
    obtain ⟨three, hthree, hcompose⟩ := compose_ok call h.length hne hl.le
    have hsub : (stem call dir).length + 7 - 1 = (stem call dir).length + 6 := rfl
    have hloop := loop0_alike (answer_same h hle hl) letters.length
      (start call.random.1, start call.random.2.1, start call.random.2.2) three [0, 0, 0] [] []
      hthree rfl
    simp only [hcompose, ok_bind, hsub, Option.bind_some, Option.elim_some]
    unfold around at hloop ⊢
    generalize loop0 (answer call) ((stem call dir).length + 6) letters.length
      (start call.random.1, start call.random.2.1, start call.random.2.2) _ = out at hloop ⊢
    generalize loop0 _ ((stem call dir).length + 6) letters.length
      (start call.random.1, start call.random.2.1, start call.random.2.2) _ = out' at hloop ⊢
    cases hloop with
    | more counters three three' tried tried' hleft =>
      exact ⟨_, rfl, kept_around h _ hleft.1 hle hl⟩
    | stop i j k tried tried' hne =>
      obtain ⟨rest, hrest⟩ := h.drop hle hl
      have hsame := answer_same h hle hl i j k
      have hname : cstr (around (stem call dir)
          (suffix call ++ buf.drop ((stem call dir).length + 7)) [letter i, letter j, letter k]) =
          around (stem call dir) (suffix call) [letter i, letter j, letter k] := by
        have hclean := cstr_append (around_clean call dir i j k) rest
        rw [hrest, ← hclean]
        exact congrArg cstr (List.append_assoc _ _ _).symm
      cases hanswer : answer call (around (stem call dir)
          (suffix call ++ buf.drop ((stem call dir).length + 7))
          [letter i, letter j, letter k]) with
      | taken => exact absurd hanswer hne
      | failed =>
        rw [hanswer, nameExists] at hsame
        split_ifs at hsame
      | free =>
        refine ⟨_, ?_, kept_around h [letter i, letter j, letter k] rfl hle hl⟩
        show Except.ok _ = _
        rw [hname]

theorem run_ok (calls : List Call) : ∀ {buf : Str} {longest : ℕ}, Kept buf longest →
    Fits calls longest → ∃ buf', run calls buf = .ok (calls.map named, buf') := by
  induction calls with
  | nil =>
    intro buf longest _ _
    exact ⟨buf, rfl⟩
  | cons call calls ih =>
    intro buf longest h hfits
    obtain ⟨buf₁, hcall, h₁⟩ := tempnam_ok h hfits.1
    obtain ⟨buf', hrun⟩ := ih h₁ hfits.2
    refine ⟨buf', ?_⟩
    rw [run, hcall, ok_bind]
    simp only [hrun]
    rfl

theorem named_formed {name : Str} (h : named call = some name) :
    ∃ dir, tmpdir call = some dir ∧ Formed call dir name := by
  unfold named at h
  cases hdir : tmpdir call with
  | none =>
    rw [hdir] at h
    cases h
  | some dir =>
    refine ⟨dir, rfl, ?_⟩
    rw [hdir, Option.bind_some] at h
    have hself : SameAnswers (nameExists call) (nameExists call) (stem call dir) (suffix call)
        (suffix call) := fun _ _ _ => rfl
    have hloop := loop0_alike hself letters.length
      (start call.random.1, start call.random.2.1, start call.random.2.2) [0, 0, 0] [0, 0, 0] [] []
      rfl rfl
    unfold around at hloop
    cases hout : loop0 (nameExists call) ((stem call dir).length + 6) letters.length
        (start call.random.1, start call.random.2.1, start call.random.2.2)
        ⟨stem call dir ++ [0, 0, 0] ++ suffix call, []⟩ with
    | more counters temp =>
      rw [hout] at h
      cases h
    | stop a temp =>
      rw [hout] at hloop h
      obtain ⟨i, j, k, hname⟩ := hloop.name
      refine ⟨i, j, k, ?_⟩
      cases a with
      | taken => cases h
      | failed => cases h
      | free =>
        have hmade : (if call.memory then some temp.template else none) = some name := h
        split_ifs at hmade
        rw [← Option.some.inj hmade]
        exact hname

/-- As long as no name is shorter than one before and all fit into the buffer, every call returns
a name of its own, as if there had been no call before it. -/
theorem run_named {calls : List Call} (h : Fits calls 0) :
    ∃ buf, run calls empty = .ok (calls.map named, buf) ∧
      ∀ call ∈ calls, ∀ name, named call = some name →
        ∃ dir, tmpdir call = some dir ∧ Formed call dir name := by
  have hempty : Kept empty 0 := by
    constructor
    · exact List.length_replicate
    · intro i _ hi
      exact List.getElem?_replicate_of_lt hi
  obtain ⟨buf, hrun⟩ := run_ok calls hempty h
  exact ⟨buf, hrun, fun call _ name hname => named_formed hname⟩

/-- A call for the directory `dir`, where everything may be made. -/
def plain (dir : CStr) : Call :=
  ⟨some dir, none, none, 1, fun _ => true, fun _ => false, 7, (0, 0, 0), true⟩

theorem run_named_demo :
    ∃ buf, run [plain ⟨[47, 97], by decide⟩, plain ⟨[47, 98, 99], by decide⟩] empty =
        .ok ([plain ⟨[47, 97], by decide⟩, plain ⟨[47, 98, 99], by decide⟩].map named, buf) ∧
      ∀ call ∈ [plain ⟨[47, 97], by decide⟩, plain ⟨[47, 98, 99], by decide⟩], ∀ name,
        named call = some name → ∃ dir, tmpdir call = some dir ∧ Formed call dir name := by
  refine run_named ⟨?_, ?_, trivial⟩
  · intro dir hdir
    cases hdir
    exact ⟨by decide, by decide, by decide⟩
  · intro dir hdir
    cases hdir
    exact ⟨by decide, by decide, by decide⟩

/-- After a name in `/bc`, one in `/a` has the last character of that one behind it. -/
theorem shorter_name_has_tail :
    (run [plain ⟨[47, 98, 99], by decide⟩, plain ⟨[47, 97], by decide⟩] empty).toOption.map
        Prod.fst = some [some [47, 98, 99, 47, 65, 65, 65, 46, 48, 48, 55],
          some [47, 97, 47, 65, 65, 65, 46, 48, 48, 55, 55]] ∧
      ¬ Formed (plain ⟨[47, 97], by decide⟩) [47, 97]
        [47, 97, 47, 65, 65, 65, 46, 48, 48, 55, 55] := by
  constructor
  · decide +kernel
  · rintro ⟨a, b, c, h⟩
    have hlength : 11 = 10 := congrArg List.length h
    exact absurd hlength (by decide)

end Calls

end Mintlib.Tempnam
