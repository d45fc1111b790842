import Mintlib.Lib.Text
import Mintlib.Posix

/-!
# The group file: `grp.c` and `putgrent.c`

`putgrent` writes an entry as one line, `nextent` reads a line into a static buffer and
cuts it up in place. The pointers that it stores are offsets into the buffer; `none`
stands for a read behind the end of the buffer.
-/

namespace Mintlib.Grp

open Text Posix

structure Group where
  gr_name : Option Str
  gr_gid : ℕ
  gr_mem : Option (List Str)
  gr_passwd : Option Str
  deriving DecidableEq

/-- The loop over `gr_mem` from the index `i` on. -/
def putMembers : ℕ → List Str → Str
  | _, [] => []
  | i, m :: mem => (if i = 0 then m else COMMA :: m) ++ putMembers (i + 1) mem

/-- The bytes that are written. `none` is `EINVAL`. -/
def putgrent (gr : Group) : Option Str :=
  match gr.gr_name with
  | none => none
  | some name =>
    let passwd := gr.gr_passwd.getD []
    let head :=
      if name.head? = some 43 ∨ name.head? = some 45 then
        name ++ COLON :: passwd ++ [COLON, COLON]
      else name ++ COLON :: passwd ++ COLON :: decimal gr.gr_gid ++ [COLON]
    some (head ++ putMembers 0 (gr.gr_mem.getD []) ++ [NEWLINE])

/-- What `fgets` takes from a stream when there is room for `n` characters, and the rest. -/
def fgets : ℕ → List UInt8 → Str × List UInt8
  | 0, fp => ([], fp)
  | _ + 1, [] => ([], [])
  | n + 1, c :: fp =>
    if c = NEWLINE then ([c], fp) else (c :: (fgets n fp).1, (fgets n fp).2)

def isspace (c : UInt8) : Bool := c = 32 ∨ (9 ≤ c ∧ c ≤ 13)

def strtoulLoop (i : ℕ) (overflow : Bool) : Str → ℕ × Bool
  | [] => (i, overflow)
  | c :: s =>
    if IsDigit c then
      if ULONG_MAX / 10 < i ∨ (i = ULONG_MAX / 10 ∧ ULONG_MAX % 10 < c.toNat - 48) then
        strtoulLoop i true s
      else strtoulLoop (more i c) overflow s
    else (i, overflow)

/-- `strtoul (nptr, NULL, 10)`. -/
def strtoul (nptr : Str) : ℕ :=
  let s := nptr.dropWhile isspace
  let negative := s.head? = some 45
  let s := if negative ∨ s.head? = some 43 then s.tail else s
  let (i, overflow) := strtoulLoop 0 false s
  if overflow then ULONG_MAX else if negative then (2 ^ 32 - i) % 2 ^ 32 else i

abbrev SAVBUF : ℕ := 512

abbrev MAX_MEMBERS : ℕ := 128

/-- `for (; *cp && *cp != ...; cp++)`: how far `cp` moves. -/
def scan (stops : List UInt8) : List UInt8 → Option ℕ
  | [] => none
  | c :: mem => if c = 0 ∨ c ∈ stops then some 0 else (scan stops mem).map (· + 1)

/-- `for (; *cp == ' '; cp++)`. -/
def skipBlanks : List UInt8 → ℕ
  | [] => 0
  | c :: mem => if c = BLANK then skipBlanks mem + 1 else 0

/-- The loop that fills `memb`, with room for `n` pointers: the buffer and the pointers. -/
def members : ℕ → List UInt8 → ℕ → Option (List UInt8 × List ℕ)
  | n, savbuf, cp =>
    match savbuf[cp]? with
    | none => none
    | some 0 => some (savbuf, [])
    | some _ =>
      match n with
      | 0 => some (savbuf, [])
      | n + 1 => do
        let m := cp + skipBlanks (savbuf.drop cp)
        let cp := m + (← scan [COMMA, NEWLINE] (savbuf.drop m))
        let c ← savbuf[cp]?
        let (savbuf, memb) ←
          if c = NEWLINE then members n (savbuf.set cp 0) cp
          else if c ≠ 0 then members n (savbuf.set cp 0) (cp + 1)
          else members n savbuf cp
        some (savbuf, m :: memb)

/-- One entry of a stream. The result is `none` at the end of the stream; then come the
new contents of `savbuf` and the rest of the stream. -/
def nextent (savbuf fp : List UInt8) : Option (Option Group × List UInt8 × List UInt8) :=
  let (line, fp) := fgets (SAVBUF - 1) fp
  if line = [] then some (none, savbuf, fp)
  else do
    let savbuf := line ++ 0 :: savbuf.drop (line.length + 1)
    let cp ← scan [COLON] savbuf
    let savbuf := savbuf.set cp 0
    let passwd := cp + 1
    let cp := passwd + (← scan [COLON] (savbuf.drop passwd))
    let savbuf := savbuf.set cp 0
    let gid := cp + 1
    let gr_gid := strtoul (cstr (savbuf.drop gid))
    let cp := gid + (← scan [COLON] (savbuf.drop gid))
    let savbuf := savbuf.set cp 0
    let (savbuf, memb) ← members (MAX_MEMBERS - 1) savbuf (cp + 1)
    let str := fun p => cstr (savbuf.drop p)
    some (some ⟨some (str 0), gr_gid, some (memb.map str), some (str passwd)⟩, savbuf, fp)

/-- `f` is `none` for a `NULL` stream. -/
def fgetgrent (savbuf : List UInt8) (f : Option (List UInt8)) :
    Option (Option Group × List UInt8 × List UInt8) :=
  match f with
  | none => some (none, savbuf, [])
  | some fp => nextent savbuf fp

section Library

variable {w l s pre rest : List UInt8} {stops : List UInt8} {c : UInt8} {n : ℕ}

theorem scan_append (hw : ∀ d ∈ w, d ≠ 0 ∧ d ∉ stops) (hc : c = 0 ∨ c ∈ stops) :
    scan stops (w ++ c :: l) = some w.length := by
  induction w with
  | nil => exact if_pos hc
  | cons d w ih =>
    obtain ⟨hd, hstop⟩ := hw d List.mem_cons_self
    have hgo : ¬ (d = 0 ∨ d ∈ stops) := not_or.mpr ⟨hd, hstop⟩
    rw [List.cons_append, scan, if_neg hgo, ih fun d h => hw d (List.mem_cons_of_mem _ h)]
    rfl

theorem drop_pre (pre l : List UInt8) : (pre ++ l).drop pre.length = l := List.drop_left

theorem set_separator (pre w l : List UInt8) (c : UInt8) :
    (pre ++ (w ++ c :: l)).set (pre.length + w.length) 0 = pre ++ w ++ [0] ++ l := by
  rw [← List.append_assoc, ← List.length_append, List.set_append_right _ _ (le_refl _),
    Nat.sub_self, List.set_cons_zero, List.append_assoc _ [0] l, List.singleton_append]

theorem getElem?_separator (pre w l : List UInt8) (c : UInt8) :
    (pre ++ (w ++ c :: l))[pre.length + w.length]? = some c := by
  rw [← List.append_assoc, ← List.length_append, List.getElem?_append_right (le_refl _),
    Nat.sub_self, List.getElem?_cons_zero]

theorem fgets_line (hs : NEWLINE ∉ s) (hn : s.length < n) :
    fgets n (s ++ NEWLINE :: rest) = (s ++ [NEWLINE], rest) := by
  induction s generalizing n with
  | nil =>
    obtain ⟨n, rfl⟩ := Nat.exists_eq_succ_of_ne_zero (by omega : n ≠ 0)
    exact if_pos rfl
  | cons c s ih =>
    obtain ⟨n, rfl⟩ := Nat.exists_eq_succ_of_ne_zero (by omega : n ≠ 0)
    obtain ⟨hc, hs⟩ := not_or.mp (mt List.mem_cons.mpr hs)
    have hlen : s.length < n := by
      rw [List.length_cons] at hn
      omega
    rw [List.cons_append, fgets, if_neg (Ne.symm hc), ih hs hlen]
    rfl

theorem strtoulLoop_digits {i : ℕ} (hs : ∀ c ∈ s, IsDigit c)
    (hfit : s.foldl more i ≤ ULONG_MAX) (hc : ¬ IsDigit c) :
    strtoulLoop i false (s ++ c :: rest) = (s.foldl more i, false) := by
  induction s generalizing i with
  | nil => exact if_neg hc
  | cons d s ih =>
    have hle : more i d ≤ ULONG_MAX := (foldl_more_le _ _).trans hfit
    have hover : ¬ (ULONG_MAX / 10 < i ∨ (i = ULONG_MAX / 10 ∧ ULONG_MAX % 10 < d.toNat - 48)) := by
      unfold more at hle
      omega
    rw [List.cons_append, strtoulLoop, if_pos (hs d List.mem_cons_self), if_neg hover,
      ih (fun c h => hs c (List.mem_cons_of_mem _ h)) hfit]
    rfl

theorem isDigit_not_special (h : IsDigit c) :
    isspace c = false ∧ c ≠ 45 ∧ c ≠ 43 ∧ c ≠ 0 ∧ c ≠ COLON ∧ c ≠ NEWLINE := by
  obtain ⟨hlo, hhi⟩ := h
  have h1 : 48 ≤ c.toNat := UInt8.le_iff_toNat_le.mp hlo
  have h2 : c.toNat ≤ 57 := UInt8.le_iff_toNat_le.mp hhi
  have hne : ∀ d : UInt8, d.toNat < 48 ∨ 57 < d.toNat → c ≠ d := by
    rintro d hd rfl
    omega
  refine ⟨?_, hne _ (by decide), hne _ (by decide), hne _ (by decide), hne _ (by decide),
    hne _ (by decide)⟩
  have h13 : ¬ c ≤ 13 := fun h => by
    have := UInt8.le_iff_toNat_le.mp h
    have h13 : (13 : UInt8).toNat = 13 := rfl
    omega
  unfold isspace
  simp [hne 32 (by decide), h13]

theorem strtoul_decimal (hn : n ≤ ULONG_MAX) (hc : ¬ IsDigit c) :
    strtoul (decimal n ++ c :: rest) = n := by
  obtain ⟨d, s, hds⟩ := List.exists_cons_of_ne_nil (decimal_ne_nil n)
  have hd : IsDigit d := decimal_isDigit (by rw [hds]; exact List.mem_cons_self)
  obtain ⟨hspace, hminus, hplus, -⟩ := isDigit_not_special hd
  have hfit : (decimal n).foldl more 0 ≤ ULONG_MAX := by rwa [foldl_more_decimal]
  have hloop : strtoulLoop 0 false (decimal n ++ c :: rest) = ((decimal n).foldl more 0, false) :=
    strtoulLoop_digits (fun _ h => decimal_isDigit h) hfit hc
  rw [foldl_more_decimal] at hloop
  rw [hds] at hloop ⊢
  have hskip : (d :: s ++ c :: rest).dropWhile isspace = d :: s ++ c :: rest := by
    rw [List.cons_append, List.dropWhile_cons, hspace]
    rfl
  have hhead : (d :: s ++ c :: rest).head? = some d := rfl
  have hno : ¬ (d :: s ++ c :: rest).head? = some 45 := by
    rw [hhead, Option.some.injEq]
    exact hminus
  have hnoplus : ¬ (d :: s ++ c :: rest).head? = some 43 := by
    rw [hhead, Option.some.injEq]
    exact hplus
  simp only [strtoul, hskip, hno, hnoplus, or_self, if_false, hloop,
    Bool.false_eq_true]

end Library

section Line

variable {w l s pre stale rest : List UInt8} {m : Str} {mem : List Str} {n : ℕ}

def Clean (s : Str) : Prop := 0 ∉ s ∧ COLON ∉ s ∧ COMMA ∉ s ∧ NEWLINE ∉ s

instance (s : Str) : Decidable (Clean s) := inferInstanceAs (Decidable (_ ∧ _))

theorem Clean.stops {stops : List UInt8} (hs : Clean s)
    (hstops : ∀ c ∈ stops, c = COLON ∨ c = COMMA ∨ c = NEWLINE) :
    ∀ c ∈ s, c ≠ 0 ∧ c ∉ stops := by
  obtain ⟨h0, hcolon, hcomma, hnewline⟩ := hs
  refine fun c hc => ⟨fun h => h0 (h ▸ hc), fun h => ?_⟩
  rcases hstops c h with rfl | rfl | rfl
  · exact hcolon hc
  · exact hcomma hc
  · exact hnewline hc

theorem putMembers_succ (i : ℕ) (m : Str) (mem : List Str) :
    putMembers (i + 1) (m :: mem) = COMMA :: putMembers 0 (m :: mem) := by
  have hrest : ∀ i (mem : List Str), putMembers (i + 1) mem = putMembers 1 mem := by
    intro i mem
    induction mem generalizing i with
    | nil => rfl
    | cons m mem ih =>
      show COMMA :: m ++ putMembers (i + 2) mem = COMMA :: m ++ putMembers 2 mem
      rw [ih (i + 1), ih 1]
  show COMMA :: m ++ putMembers (i + 2) mem = COMMA :: (m ++ putMembers 1 mem)
  rw [hrest (i + 1), List.cons_append]

theorem members_step {c : UInt8} (hm : Clean m) (hne : m ≠ []) (hblank : m.head? ≠ some BLANK)
    (hc : c = COMMA ∨ c = NEWLINE) :
    members (n + 1) (pre ++ (m ++ c :: l)) pre.length =
      (members n (pre ++ m ++ [0] ++ l)
        (if c = NEWLINE then pre.length + m.length else (pre ++ m ++ [0]).length)).map
        fun r => (r.1, pre.length :: r.2) := by
  have hclean : ∀ c ∈ m, c ≠ 0 ∧ c ∉ [COMMA, NEWLINE] := hm.stops (by simp)
  obtain ⟨d, m', rfl⟩ := List.exists_cons_of_ne_nil hne
  have hd : d ≠ 0 := (hclean d List.mem_cons_self).1
  have hget : (pre ++ (d :: m' ++ c :: l))[pre.length]? = some d := by
    rw [List.getElem?_append_right (le_refl _), Nat.sub_self, List.cons_append,
      List.getElem?_cons_zero]
  have hskip : skipBlanks ((pre ++ (d :: m' ++ c :: l)).drop pre.length) = 0 := by
    have hd' : d ≠ BLANK := fun h => hblank (by rw [h]; rfl)
    rw [drop_pre, List.cons_append, skipBlanks, if_neg hd']
  have hscan : scan [COMMA, NEWLINE] ((pre ++ (d :: m' ++ c :: l)).drop pre.length) =
      some (d :: m').length := by
    rw [drop_pre]
    exact scan_append hclean (Or.inr (by simpa using hc))
  have hlen : (pre ++ d :: m' ++ [0]).length = pre.length + (d :: m').length + 1 := by
    simp only [List.length_append, List.length_singleton]
  have hc0 : c ≠ 0 := by
    rcases hc with rfl | rfl <;> decide
  conv_lhs => unfold members
  simp only [hget, hskip, hscan, Nat.add_zero, Option.bind_eq_bind, Option.bind_some,
    getElem?_separator, set_separator, hlen, if_pos hc0]
  by_cases hnl : c = NEWLINE
  · rw [if_pos hnl, if_pos hnl, Option.map_eq_bind]
    rfl
  · rw [if_neg hnl, if_neg hnl, Option.map_eq_bind]
    rfl

theorem members_end (pre l : List UInt8) (n : ℕ) :
    members n (pre ++ 0 :: l) pre.length = some (pre ++ 0 :: l, []) := by
  have hget : (pre ++ 0 :: l)[pre.length]? = some 0 := by
    rw [List.getElem?_append_right (le_refl _), Nat.sub_self, List.getElem?_cons_zero]
  unfold members
  simp only [hget]

theorem members_putMembers (pre : List UInt8) (hmem : mem ≠ []) (hn : mem.length ≤ n)
    (hclean : ∀ m ∈ mem, Clean m ∧ m ≠ [] ∧ m.head? ≠ some BLANK) :
    ∃ l memb, members n (pre ++ (putMembers 0 mem ++ NEWLINE :: 0 :: stale)) pre.length =
        some (pre ++ l, memb) ∧ memb.map (fun p => cstr ((pre ++ l).drop p)) = mem := by
  induction mem generalizing n pre with
  | nil => exact absurd rfl hmem
  | cons m mem ih =>
    obtain ⟨n, rfl⟩ := Nat.exists_eq_succ_of_ne_zero
      (by rw [List.length_cons] at hn; omega : n ≠ 0)
    obtain ⟨hm, hne, hblank⟩ := hclean m List.mem_cons_self
    have hlen : mem.length ≤ n := by
      rw [List.length_cons] at hn
      omega
    have hstr : ∀ l, cstr ((pre ++ m ++ [0] ++ l).drop pre.length) = m := by
      intro l
      rw [List.append_assoc, List.append_assoc, drop_pre]
      exact cstr_append hm.1 _
    cases mem with
    | nil =>
      refine ⟨m ++ 0 :: 0 :: stale, [pre.length], ?_, ?_⟩
      · have hend := members_end (pre ++ m) (0 :: stale) n
        rw [List.length_append] at hend
        show members (n + 1) (pre ++ ((m ++ []) ++ NEWLINE :: 0 :: stale)) pre.length = _
        rw [List.append_nil, members_step hm hne hblank (Or.inr rfl), if_pos rfl]
        simp only [List.append_assoc, List.singleton_append] at hend ⊢
        rw [hend]
        rfl
      · have h := hstr (0 :: stale)
        simp only [List.append_assoc, List.singleton_append] at h
        rw [List.map_singleton, h]
    | cons m' mem =>
      obtain ⟨l, memb, hrun, hread⟩ := ih (pre ++ m ++ [0]) (List.cons_ne_nil _ _) hlen
        fun m hm => hclean m (List.mem_cons_of_mem _ hm)
      refine ⟨m ++ [0] ++ l, pre.length :: memb, ?_, ?_⟩
      · have htext : putMembers 0 (m :: m' :: mem) ++ NEWLINE :: 0 :: stale =
            m ++ COMMA :: (putMembers 0 (m' :: mem) ++ NEWLINE :: 0 :: stale) := by
          show m ++ putMembers 1 (m' :: mem) ++ _ = _
          rw [putMembers_succ, List.append_assoc, List.cons_append]
        rw [htext, members_step hm hne hblank (Or.inl rfl), if_neg (by decide), hrun]
        simp only [List.append_assoc, Option.map_some]
      · rw [List.map_cons, ← List.append_assoc, ← List.append_assoc, hread, hstr]

end Line

section RoundTrip

variable {gr gr' : Group}

structure Valid (gr : Group) : Prop where
  name : ∃ name, gr.gr_name = some name ∧ Clean name ∧ name.head? ≠ some 43 ∧
    name.head? ≠ some 45
  passwd : Clean (gr.gr_passwd.getD [])
  gid : gr.gr_gid < 2 ^ 32
  mem : ∀ m ∈ gr.gr_mem.getD [], Clean m ∧ m ≠ [] ∧ m.head? ≠ some BLANK

/-- The limits of the reader: the size of `savbuf` and of `memb`. -/
def Fits (gr : Group) : Prop :=
  (∀ line, putgrent gr = some line → line.length ≤ SAVBUF - 1) ∧
    (gr.gr_mem.getD []).length ≤ MAX_MEMBERS - 1

/-- Equal entries, where a `NULL` password is an empty one and no list is an empty one. -/
def Same (gr gr' : Group) : Prop :=
  gr.gr_name = gr'.gr_name ∧ gr.gr_passwd.getD [] = gr'.gr_passwd.getD [] ∧
    gr.gr_gid = gr'.gr_gid ∧ gr.gr_mem.getD [] = gr'.gr_mem.getD []

/-- The line that is written is read back as the same entry, and no byte behind it. -/
def RoundTrips (gr : Group) : Prop :=
  ∃ line, putgrent gr = some line ∧ ∀ savbuf rest, ∃ gr' savbuf',
    fgetgrent savbuf (some (line ++ rest)) = some (some gr', savbuf', rest) ∧ Same gr' gr

/-- The entry that `fgetgrent` gives: an empty list of members comes back as one member. -/
def received (gr : Group) : Group where
  gr_name := gr.gr_name
  gr_gid := gr.gr_gid
  gr_mem := some (if gr.gr_mem.getD [] = [] then [[]] else gr.gr_mem.getD [])
  gr_passwd := some (gr.gr_passwd.getD [])

theorem members_line {mem : List Str} (pre stale : List UInt8)
    (hclean : ∀ m ∈ mem, Clean m ∧ m ≠ [] ∧ m.head? ≠ some BLANK)
    (hn : mem.length ≤ MAX_MEMBERS - 1) :
    ∃ l memb, members (MAX_MEMBERS - 1)
        (pre ++ (putMembers 0 mem ++ NEWLINE :: 0 :: stale)) pre.length = some (pre ++ l, memb) ∧
      memb.map (fun p => cstr ((pre ++ l).drop p)) = if mem = [] then [[]] else mem := by
  by_cases hmem : mem = []
  · subst hmem
    refine ⟨0 :: 0 :: stale, [pre.length], ?_, ?_⟩
    · have hget : (pre ++ NEWLINE :: 0 :: stale)[pre.length]? = some NEWLINE := by
        rw [List.getElem?_append_right (le_refl _), Nat.sub_self, List.getElem?_cons_zero]
      have hscan : scan [COMMA, NEWLINE] ((pre ++ NEWLINE :: 0 :: stale).drop pre.length) =
          some 0 := by
        rw [drop_pre]
        rfl
      have hskip : skipBlanks ((pre ++ NEWLINE :: 0 :: stale).drop pre.length) = 0 := by
        rw [drop_pre]
        rfl
      have hset : (pre ++ NEWLINE :: 0 :: stale).set pre.length 0 = pre ++ 0 :: 0 :: stale := by
        rw [List.set_append_right _ _ (le_refl _), Nat.sub_self, List.set_cons_zero]
      conv_lhs => unfold members
      simp only [putMembers, List.nil_append, hget, hskip, Nat.add_zero, hscan, hset,
        Option.bind_eq_bind, Option.bind_some, if_pos, members_end]
      rfl
    · rw [List.map_singleton, drop_pre, if_pos rfl]
      rfl
  · rw [if_neg hmem]
    exact members_putMembers pre hmem hn hclean

theorem putgrent_eq {name : Str} (hname : gr.gr_name = some name)
    (hplus : name.head? ≠ some 43) (hminus : name.head? ≠ some 45) :
    putgrent gr = some (name ++ COLON :: (gr.gr_passwd.getD [] ++ COLON ::
      (decimal gr.gr_gid ++ COLON :: (putMembers 0 (gr.gr_mem.getD []) ++ [NEWLINE])))) := by
  unfold putgrent
  simp only [hname, hplus, hminus, or_self, if_false, List.append_assoc, List.cons_append,
    List.nil_append]

theorem newline_notMem_putMembers {mem : List Str} (h : ∀ m ∈ mem, Clean m) (i : ℕ) :
    NEWLINE ∉ putMembers i mem := by
  induction mem generalizing i with
  | nil => exact List.not_mem_nil
  | cons m mem ih =>
    have hm : NEWLINE ∉ m := (h m List.mem_cons_self).2.2.2
    have hrest := ih (fun m hm => h m (List.mem_cons_of_mem _ hm)) (i + 1)
    unfold putMembers
    by_cases hi : i = 0
    · rw [if_pos hi, List.mem_append]
      exact not_or.mpr ⟨hm, hrest⟩
    · rw [if_neg hi, List.mem_append, List.mem_cons]
      exact not_or.mpr ⟨not_or.mpr ⟨by decide, hm⟩, hrest⟩

theorem fgetgrent_putgrent (h : Valid gr) (hfit : Fits gr) : ∃ line, putgrent gr = some line ∧
    ∀ savbuf rest, ∃ savbuf',
      fgetgrent savbuf (some (line ++ rest)) = some (some (received gr), savbuf', rest) := by
  obtain ⟨name, hname, hclean, hplus, hminus⟩ := h.name
  have hline := putgrent_eq hname hplus hminus
  refine ⟨_, hline, fun savbuf rest => ?_⟩
  have hlen := hfit.1 _ hline
  set passwd := gr.gr_passwd.getD [] with hpasswd
  set gid := decimal gr.gr_gid with hgid
  set mem := gr.gr_mem.getD [] with hmem
  set body := name ++ COLON :: (passwd ++ COLON :: (gid ++ COLON :: putMembers 0 mem)) with hbody
  have htext : name ++ COLON :: (passwd ++ COLON :: (gid ++ COLON ::
      (putMembers 0 mem ++ [NEWLINE]))) = body ++ [NEWLINE] := by
    simp only [hbody, List.append_assoc, List.cons_append]
  -- `fgets` takes the whole line
  have hnewline : NEWLINE ∉ body := by
    have hg : NEWLINE ∉ gid := fun hc =>
      (isDigit_not_special (decimal_isDigit hc)).2.2.2.2.2 rfl
    have hm := newline_notMem_putMembers (fun m hm => (h.mem m hm).1) 0
    have hne : NEWLINE ≠ COLON := by decide
    simp only [hbody, List.mem_append, List.mem_cons, not_or]
    exact ⟨hclean.2.2.2, hne, h.passwd.2.2.2, hne, hg, hne, hm⟩
  have hgets : fgets (SAVBUF - 1) (body ++ [NEWLINE] ++ rest) = (body ++ [NEWLINE], rest) := by
    rw [List.append_assoc, List.singleton_append]
    refine fgets_line hnewline ?_
    rw [htext, List.length_append, List.length_singleton] at hlen
    omega
  set stale := savbuf.drop ((body ++ [NEWLINE]).length + 1) with hstale
  -- the fields, one after the other
  set pre₁ := [] ++ name ++ [0] with hpre₁
  set pre₂ := pre₁ ++ passwd ++ [0] with hpre₂
  set pre₃ := pre₂ ++ gid ++ [0] with hpre₃
  set R₃ := putMembers 0 mem ++ NEWLINE :: 0 :: stale with hR₃
  set R₂ := gid ++ COLON :: R₃ with hR₂
  set R₁ := passwd ++ COLON :: R₂ with hR₁
  have hbuf : body ++ [NEWLINE] ++ 0 :: stale = [] ++ (name ++ COLON :: R₁) := by
    simp only [hbody, hR₁, hR₂, hR₃, List.append_assoc, List.cons_append, List.nil_append]
  have hl₁ : pre₁.length = name.length + 1 := by
    rw [hpre₁, List.nil_append, List.length_append, List.length_singleton]
  have hl₂ : pre₂.length = pre₁.length + passwd.length + 1 := by
    rw [hpre₂, List.length_append, List.length_append, List.length_singleton]
  have hl₃ : pre₃.length = pre₂.length + gid.length + 1 := by
    rw [hpre₃, List.length_append, List.length_append, List.length_singleton]
  have hstops : ∀ c ∈ [COLON], c = COLON ∨ c = COMMA ∨ c = NEWLINE := by simp
  have hscan₁ : scan [COLON] ([] ++ (name ++ COLON :: R₁)) = some name.length :=
    scan_append (hclean.stops hstops) (Or.inr List.mem_cons_self)
  have hset₁ : ([] ++ (name ++ COLON :: R₁)).set name.length 0 = pre₁ ++ R₁ := by
    have := set_separator [] name R₁ COLON
    rwa [List.length_nil, Nat.zero_add] at this
  have hscan₂ : scan [COLON] ((pre₁ ++ R₁).drop pre₁.length) = some passwd.length := by
    rw [drop_pre]
    exact scan_append (h.passwd.stops hstops) (Or.inr List.mem_cons_self)
  have hset₂ : (pre₁ ++ R₁).set (pre₁.length + passwd.length) 0 = pre₂ ++ R₂ :=
    set_separator pre₁ passwd R₂ COLON
  have hscan₃ : scan [COLON] ((pre₂ ++ R₂).drop pre₂.length) = some gid.length := by
    rw [drop_pre]
    refine scan_append (fun c hc => ?_) (Or.inr List.mem_cons_self)
    have hd := isDigit_not_special (decimal_isDigit hc)
    exact ⟨hd.2.2.2.1, by simpa using hd.2.2.2.2.1⟩
  have hset₃ : (pre₂ ++ R₂).set (pre₂.length + gid.length) 0 = pre₃ ++ R₃ :=
    set_separator pre₂ gid R₃ COLON
  have hvalue : strtoul (cstr ((pre₂ ++ R₂).drop pre₂.length)) = gr.gr_gid := by
    have hg : 0 ∉ gid ++ [COLON] := by
      rw [List.mem_append, not_or]
      exact ⟨fun hc => (isDigit_not_special (decimal_isDigit hc)).2.2.2.1 rfl, by decide⟩
    have hsplit : R₂ = gid ++ [COLON] ++ R₃ := by
      rw [List.append_assoc, List.singleton_append]
    have hgid' : gr.gr_gid ≤ ULONG_MAX := Nat.le_sub_one_of_lt h.gid
    rw [drop_pre, hsplit, cstr_append_left hg, List.append_assoc, List.singleton_append]
    exact strtoul_decimal hgid' (by decide)
  obtain ⟨l, memb, hmemb, hread⟩ := members_line pre₃ stale h.mem hfit.2
  change members (MAX_MEMBERS - 1) (pre₃ ++ R₃) pre₃.length = _ at hmemb
  have hname' : cstr ((pre₃ ++ l).drop 0) = name := by
    rw [hpre₃, hpre₂, hpre₁]
    simp only [List.drop_zero, List.append_assoc, List.nil_append, List.singleton_append]
    exact cstr_append hclean.1 _
  have hpasswd' : cstr ((pre₃ ++ l).drop pre₁.length) = passwd := by
    rw [hpre₃, hpre₂]
    simp only [List.append_assoc, drop_pre, List.singleton_append]
    exact cstr_append h.passwd.1 _
  refine ⟨pre₃ ++ l, ?_⟩
  have hne : ¬ body ++ [NEWLINE] = [] := by simp
  rw [htext]
  show nextent savbuf (body ++ [NEWLINE] ++ rest) = _
  simp only [nextent, hgets, if_neg hne, ← hstale, hbuf, hscan₁, Option.bind_eq_bind,
    Option.bind_some, hset₁, ← hl₁, hscan₂, hset₂, ← hl₂, hscan₃, hset₃, ← hl₃, hvalue,
    hmemb, hread, hname', hpasswd', received, hname, ← hmem, ← hpasswd]

theorem same_received_iff : Same (received gr) gr ↔ gr.gr_mem.getD [] ≠ [] := by
  constructor
  · rintro ⟨-, -, -, hmem⟩ hnil
    have hone : (received gr).gr_mem.getD [] = [[]] := by
      show (if gr.gr_mem.getD [] = [] then [[]] else gr.gr_mem.getD []) = _
      rw [if_pos hnil]
    rw [hone, hnil] at hmem
    exact List.cons_ne_nil _ _ hmem
  · intro hne
    refine ⟨rfl, rfl, rfl, ?_⟩
    show (if gr.gr_mem.getD [] = [] then [[]] else gr.gr_mem.getD []) = _
    rw [if_neg hne]

/-- An entry comes back as it was if and only if it has a member. -/
theorem putgrent_fgetgrent_iff (h : Valid gr) (hfit : Fits gr) :
    RoundTrips gr ↔ gr.gr_mem.getD [] ≠ [] := by
  obtain ⟨line, hline, hread⟩ := fgetgrent_putgrent h hfit
  rw [← same_received_iff]
  constructor
  · rintro ⟨line', hline', htrip⟩
    obtain rfl : line = line' := Option.some.inj (hline.symm.trans hline')
    obtain ⟨gr', savbuf', hget, hsame⟩ := htrip [] []
    obtain ⟨savbuf'', hget'⟩ := hread [] []
    have heq := Option.some.inj (hget.symm.trans hget')
    rwa [Option.some.inj (Prod.mk.inj heq).1] at hsame
  · intro hsame
    refine ⟨line, hline, fun savbuf rest => ?_⟩
    obtain ⟨savbuf', hget⟩ := hread savbuf rest
    exact ⟨received gr, savbuf', hget, hsame⟩

/-- The group `a` with the members `b` and `c`. -/
def demo : Group := ⟨some [97], 4294967295, some [[98], [99]], none⟩

theorem demo_valid {mem : List Str} (hmem : mem ⊆ [[98], [99]]) :
    Valid { demo with gr_mem := some mem } where
  name := ⟨[97], rfl, by decide, by decide, by decide⟩
  passwd := show Clean [] by decide
  gid := show 4294967295 < 2 ^ 32 by decide
  mem m hm := by
    have hm' : m = [98] ∨ m = [99] := by simpa using hmem hm
    rcases hm' with rfl | rfl <;> decide

theorem putgrent_fgetgrent_iff_demo : RoundTrips demo ↔ demo.gr_mem.getD [] ≠ [] :=
  putgrent_fgetgrent_iff (demo_valid (fun _ h => h)) ⟨by decide, by decide⟩

/-- A group without members comes back with one, the empty string. -/
theorem no_members_lost : Valid { demo with gr_mem := some [] } ∧
    Fits { demo with gr_mem := some [] } ∧ ¬ RoundTrips { demo with gr_mem := some [] } := by
  refine ⟨demo_valid (List.nil_subset _), ⟨by decide, by decide⟩, ?_⟩
  rintro ⟨line, hline, htrip⟩
  obtain ⟨gr', savbuf', hget, -, -, -, hmem⟩ := htrip [] []
  obtain rfl := Option.some.inj hline
  have hone : gr'.gr_mem = some [[]] := by
    have heq := congrArg (Option.map fun r => r.1.map Group.gr_mem) hget
    exact (Option.some.inj (Option.some.inj heq)).symm
  rw [hone] at hmem
  exact List.cons_ne_nil _ _ hmem

end RoundTrip

end Mintlib.Grp
