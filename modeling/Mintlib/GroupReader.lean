import Mintlib.GroupLists

/-!
# Lines and entries of the group file: `nextent` over stale buffers

`nextent` parses in a static buffer that keeps what stood behind the last line. An entry
depends on its line alone if and only if the parser stays in front of the terminator.
-/

namespace Mintlib.GroupReader

open Text Grp GroupLists

/-- The entry that is cut out of the buffer, and the buffer behind it. -/
def parse (savbuf : List UInt8) : Option (Group × List UInt8) := do
  let cp ← scan [COLON] savbuf
  let savbuf := savbuf.set cp 0
  let passwd := cp + 1
  let cp := passwd + (← scan [COLON] (savbuf.drop passwd))
  let savbuf := savbuf.set cp 0
  let gid := cp + 1
  let gr_gid := strtoul (cstr (savbuf.drop gid))
  let cp := gid + (← scan [COLON] (savbuf.drop gid))
  let savbuf := savbuf.set cp 0
  let (savbuf, memb) ← members (MAX_MEMBERS - 1) savbuf (cp + 1)
  let str := fun p => cstr (savbuf.drop p)
  some (⟨some (str 0), gr_gid, some (memb.map str), some (str passwd)⟩, savbuf)

abbrev Separator (c : UInt8) : Prop := c = 0 ∨ c ∈ [COLON]

section Parse

variable {savbuf fp l w w₁ w₂ w₃ tail stale A : List UInt8} {c c₁ c₂ c₃ : UInt8} {n cp j : ℕ}
  {stops : List UInt8}

variable (savbuf) in
theorem nextent_parse (hne : (fgets (SAVBUF - 1) fp).1 ≠ []) : nextent savbuf fp =
    (parse ((fgets (SAVBUF - 1) fp).1 ++
      0 :: savbuf.drop ((fgets (SAVBUF - 1) fp).1.length + 1))).map
        fun r => (some r.1, r.2, (fgets (SAVBUF - 1) fp).2) := by
  unfold nextent parse
  simp only [if_neg hne, Option.bind_eq_bind, Option.map_bind, Function.comp_def, Option.map_some]

theorem scan_none (h : ∀ d ∈ l, ¬ (d = 0 ∨ d ∈ stops)) : scan stops l = none := by
  induction l with
  | nil => rfl
  | cons d l ih =>
    rw [scan, if_neg (h d List.mem_cons_self), ih fun d hd => h d (List.mem_cons_of_mem _ hd)]
    rfl

theorem scan_free (hw : ∀ d ∈ w, ¬ Separator d) (hc : Separator c) (l : List UInt8) :
    scan [COLON] (w ++ c :: l) = some w.length :=
  scan_append (fun d hd => not_or.mp (hw d hd)) hc

theorem parse_first (h₁ : ∀ d ∈ w₁, ¬ Separator d) (hc₁ : Separator c₁)
    (hrest : ∀ d ∈ l, ¬ Separator d) : parse (w₁ ++ c₁ :: l) = none := by
  have hset : (w₁ ++ c₁ :: l).set w₁.length 0 = w₁ ++ [0] ++ l := by
    have := set_separator [] w₁ l c₁
    rwa [List.length_nil, Nat.zero_add] at this
  have hdrop : (w₁ ++ [0] ++ l).drop (w₁.length + 1) = l := by
    have := drop_pre (w₁ ++ [0]) l
    rwa [List.length_append, List.length_singleton] at this
  unfold parse
  simp only [scan_free h₁ hc₁, Option.bind_eq_bind, Option.bind_some, hset, hdrop,
    scan_none hrest, Option.bind_none]

theorem cut_twice (w₁ w₂ l : List UInt8) (c₁ c₂ : UInt8) :
    ((w₁ ++ c₁ :: (w₂ ++ c₂ :: l)).set w₁.length 0).set (w₁.length + 1 + w₂.length) 0 =
        w₁ ++ [0] ++ w₂ ++ [0] ++ l ∧
      ((w₁ ++ c₁ :: (w₂ ++ c₂ :: l)).set w₁.length 0).drop (w₁.length + 1) = w₂ ++ c₂ :: l ∧
      (w₁ ++ [0] ++ w₂ ++ [0] ++ l).drop (w₁.length + 1 + w₂.length + 1) = l := by
  have hset : (w₁ ++ c₁ :: (w₂ ++ c₂ :: l)).set w₁.length 0 = w₁ ++ [0] ++ (w₂ ++ c₂ :: l) := by
    have := set_separator [] w₁ (w₂ ++ c₂ :: l) c₁
    rwa [List.length_nil, Nat.zero_add] at this
  have hlen : (w₁ ++ [0]).length = w₁.length + 1 := by
    rw [List.length_append, List.length_singleton]
  refine ⟨?_, ?_, ?_⟩
  · have := set_separator (w₁ ++ [0]) w₂ l c₂
    rwa [hlen, ← hset] at this
  · have := drop_pre (w₁ ++ [0]) (w₂ ++ c₂ :: l)
    rwa [hlen, ← hset] at this
  · have := drop_pre (w₁ ++ [0] ++ w₂ ++ [0]) l
    rwa [List.length_append, List.length_append, hlen, List.length_singleton] at this

theorem parse_second (h₁ : ∀ d ∈ w₁, ¬ Separator d) (hc₁ : Separator c₁)
    (h₂ : ∀ d ∈ w₂, ¬ Separator d) (hc₂ : Separator c₂) (hrest : ∀ d ∈ l, ¬ Separator d) :
    parse (w₁ ++ c₁ :: (w₂ ++ c₂ :: l)) = none := by
  obtain ⟨hset, hdrop, hdrop'⟩ := cut_twice w₁ w₂ l c₁ c₂
  unfold parse
  simp only [scan_free h₁ hc₁, Option.bind_eq_bind, Option.bind_some, hdrop, scan_free h₂ hc₂,
    hset, hdrop', scan_none hrest, Option.bind_none]

theorem parse_fields (h₁ : ∀ d ∈ w₁, ¬ Separator d) (hc₁ : Separator c₁)
    (h₂ : ∀ d ∈ w₂, ¬ Separator d) (hc₂ : Separator c₂) (h₃ : ∀ d ∈ w₃, ¬ Separator d)
    (hc₃ : Separator c₃) :
    parse (w₁ ++ c₁ :: (w₂ ++ c₂ :: (w₃ ++ c₃ :: tail))) =
      (members (MAX_MEMBERS - 1) (w₁ ++ [0] ++ w₂ ++ [0] ++ w₃ ++ [0] ++ tail)
        (w₁ ++ [0] ++ w₂ ++ [0] ++ w₃ ++ [0]).length).map fun r =>
          (⟨some (cstr r.1), strtoul (cstr (w₃ ++ c₃ :: tail)),
            some (r.2.map fun p => cstr (r.1.drop p)),
            some (cstr (r.1.drop (w₁.length + 1)))⟩, r.1) := by
  obtain ⟨hset, hdrop, hdrop'⟩ := cut_twice w₁ w₂ (w₃ ++ c₃ :: tail) c₁ c₂
  have hlen : (w₁ ++ [0] ++ w₂ ++ [0]).length = w₁.length + 1 + w₂.length + 1 := by
    simp only [List.length_append, List.length_singleton]
  have hset' := set_separator (w₁ ++ [0] ++ w₂ ++ [0]) w₃ tail c₃
  rw [hlen] at hset'
  have hcp : (w₁ ++ [0] ++ w₂ ++ [0] ++ w₃ ++ [0]).length =
      w₁.length + 1 + w₂.length + 1 + w₃.length + 1 := by
    rw [List.length_append, List.length_append, hlen, List.length_singleton]
  unfold parse
  simp only [scan_free h₁ hc₁, Option.bind_eq_bind, Option.bind_some, hdrop, scan_free h₂ hc₂,
    hset, hdrop', scan_free h₃ hc₃, hset', hcp, List.drop_zero, Option.map_eq_bind,
    Function.comp_def]

theorem skipBlanks_inside (h : 0 ∈ w) : ∃ d < w.length, ∀ l, skipBlanks (w ++ l) = d := by
  induction w with
  | nil => exact absurd h List.not_mem_nil
  | cons c w ih =>
    by_cases hc : c = BLANK
    · have hw : 0 ∈ w := by
        rcases List.mem_cons.mp h with hzero | hw
        · rw [hc] at hzero
          exact absurd hzero (by decide)
        · exact hw
      obtain ⟨d, hd, hskip⟩ := ih hw
      refine ⟨d + 1, Nat.succ_lt_succ hd, fun l => ?_⟩
      rw [List.cons_append, skipBlanks, if_pos hc, hskip]
    · refine ⟨0, Nat.succ_pos _, fun l => ?_⟩
      rw [List.cons_append, skipBlanks, if_neg hc]

theorem scan_inside (stops : List UInt8) (h : 0 ∈ w) :
    ∃ d < w.length, ∀ l, scan stops (w ++ l) = some d := by
  induction w with
  | nil => exact absurd h List.not_mem_nil
  | cons c w ih =>
    by_cases hc : c = 0 ∨ c ∈ stops
    · refine ⟨0, Nat.succ_pos _, fun l => ?_⟩
      rw [List.cons_append, scan, if_pos hc]
    · have hw : 0 ∈ w := by
        rcases List.mem_cons.mp h with hzero | hw
        · exact absurd (Or.inl hzero.symm) hc
        · exact hw
      obtain ⟨d, hd, hscan⟩ := ih hw
      refine ⟨d + 1, Nat.succ_lt_succ hd, fun l => ?_⟩
      rw [List.cons_append, scan, if_neg hc, hscan]
      rfl

theorem set_terminator (hj : A[j]? = some 0) (p : ℕ) : (A.set p 0)[j]? = some 0 := by
  rw [List.getElem?_set]
  by_cases hp : p = j
  · have hlt : p < A.length := hp ▸ (List.getElem?_eq_some_iff.mp hj).1
    rw [if_pos hp, if_pos hlt]
  · rw [if_neg hp]
    exact hj

theorem mem_drop_terminator (hj : A[j]? = some 0) (hp : cp ≤ j) : 0 ∈ A.drop cp := by
  refine List.mem_of_getElem? (i := j - cp) ?_
  rw [List.getElem?_drop, Nat.add_sub_cancel' hp]
  exact hj

theorem members_next (n : ℕ) {d k : ℕ} (hget : savbuf[cp]? = some c₁) (hc₁ : c₁ ≠ 0)
    (hskip : skipBlanks (savbuf.drop cp) = d)
    (hscan : scan [COMMA, NEWLINE] (savbuf.drop (cp + d)) = some k)
    (hc : savbuf[cp + d + k]? = some c) : members (n + 1) savbuf cp =
      (if c = NEWLINE then members n (savbuf.set (cp + d + k) 0) (cp + d + k)
        else if c ≠ 0 then members n (savbuf.set (cp + d + k) 0) (cp + d + k + 1)
        else members n savbuf (cp + d + k)).map fun r => (r.1, (cp + d) :: r.2) := by
  conv_lhs => unfold members
  rw [hget]
  split
  · rename_i hnone
    cases hnone
  · rename_i hzero
    exact absurd (Option.some.inj hzero) hc₁
  · simp only [hskip, hscan, hc, Option.bind_eq_bind, Option.bind_some]
    split_ifs
    all_goals
      rw [Option.map_eq_bind]
      rfl

theorem members_inside (n : ℕ) (hj : A[j]? = some 0) (hlast : j + 1 = A.length) (hcp : cp ≤ j) :
    ∃ A' memb, A'.length = A.length ∧ A'[j]? = some 0 ∧ (∀ p ∈ memb, p ≤ j) ∧
      ∀ stale, members n (A ++ stale) cp = some (A' ++ stale, memb) := by
  induction n generalizing A cp with
  | zero =>
    refine ⟨A, [], rfl, hj, fun p hp => absurd hp List.not_mem_nil, fun stale => ?_⟩
    have hget : (A ++ stale)[cp]? = some A[cp] := by
      rw [List.getElem?_append_left (by omega), List.getElem?_eq_getElem (by omega)]
    unfold members
    rw [hget]
    split
    · rename_i hnone
      cases hnone
    · rfl
    · rfl
  | succ n ih =>
    have hget : ∀ stale, (A ++ stale)[cp]? = some A[cp] := fun stale => by
      rw [List.getElem?_append_left (by omega), List.getElem?_eq_getElem (by omega)]
    by_cases hzero : A[cp] = 0
    · refine ⟨A, [], rfl, hj, fun p hp => absurd hp List.not_mem_nil, fun stale => ?_⟩
      rw [hzero] at hget
      unfold members
      simp only [hget]
    -- where the member begins and where it ends
    obtain ⟨d, hd, hskip⟩ := skipBlanks_inside (mem_drop_terminator hj hcp)
    rw [List.length_drop] at hd
    have hm : cp + d ≤ j := by omega
    obtain ⟨k, hk, hscan⟩ := scan_inside [COMMA, NEWLINE] (mem_drop_terminator hj hm)
    rw [List.length_drop] at hk
    have hend : cp + d + k ≤ j := by omega
    have hskip' : ∀ stale, skipBlanks ((A ++ stale).drop cp) = d := fun stale => by
      rw [List.drop_append_of_le_length (by omega), hskip]
    have hscan' : ∀ stale, scan [COMMA, NEWLINE] ((A ++ stale).drop (cp + d)) = some k :=
      fun stale => by rw [List.drop_append_of_le_length (by omega), hscan]
    have hset : ∀ stale, (A ++ stale).set (cp + d + k) 0 = A.set (cp + d + k) 0 ++ stale :=
      fun stale => List.set_append_left _ _ (by omega)
    have hc : ∀ stale, (A ++ stale)[cp + d + k]? = some A[cp + d + k] := fun stale => by
      rw [List.getElem?_append_left (by omega), List.getElem?_eq_getElem (by omega)]
    have hnext := fun stale => members_next n (hget stale) hzero (hskip' stale) (hscan' stale)
      (hc stale)
    simp only [hset] at hnext
    have hone : ∀ {B : List UInt8} {p : ℕ}, B.length = A.length → B[j]? = some 0 → p ≤ j →
        (∀ stale, members (n + 1) (A ++ stale) cp =
          (members n (B ++ stale) p).map fun r => (r.1, (cp + d) :: r.2)) →
        ∃ A' memb, A'.length = A.length ∧ A'[j]? = some 0 ∧ (∀ p ∈ memb, p ≤ j) ∧
          ∀ stale, members (n + 1) (A ++ stale) cp = some (A' ++ stale, memb) := by
      intro B p hB hBj hp hrun
      obtain ⟨A', memb, hlen, hA', hmemb, hall⟩ := ih hBj (by omega) hp
      refine ⟨A', (cp + d) :: memb, hlen.trans hB, hA', ?_, fun stale => ?_⟩
      · intro q hq
        rcases List.mem_cons.mp hq with rfl | hq
        · exact hm
        · exact hmemb q hq
      · rw [hrun, hall]
        rfl
    by_cases hnl : A[cp + d + k] = NEWLINE
    · simp only [if_pos hnl] at hnext
      exact hone List.length_set (set_terminator hj _) hend hnext
    simp only [if_neg hnl] at hnext
    by_cases hz : A[cp + d + k] ≠ 0
    · simp only [if_pos hz] at hnext
      refine hone List.length_set (set_terminator hj _) ?_ hnext
      have hne : cp + d + k ≠ j := by
        intro heq
        have hz' : A[cp + d + k]? = some 0 := heq ▸ hj
        rw [List.getElem?_eq_getElem (by omega)] at hz'
        exact hz (Option.some.inj hz')
      omega
    · simp only [if_neg hz] at hnext
      exact hone rfl hj hend hnext

theorem members_keeps {savbuf' : List UInt8} {memb : List ℕ}
    (h : members n savbuf cp = some (savbuf', memb)) :
    savbuf'.length = savbuf.length ∧ (savbuf[j]? = some 0 → savbuf'[j]? = some 0) ∧
      memb.length ≤ n := by
  induction n generalizing savbuf cp memb with
  | zero =>
    unfold members at h
    split at h
    · cases h
    · cases h
      exact ⟨rfl, id, le_refl _⟩
    · cases h
      exact ⟨rfl, id, le_refl _⟩
  | succ n ih =>
    unfold members at h
    split at h
    · cases h
    · cases h
      exact ⟨rfl, id, Nat.zero_le _⟩
    · simp only [Option.bind_eq_bind, Option.bind_eq_some_iff] at h
      obtain ⟨d, hscan, c, hc, hrun⟩ := h
      have hone : ∀ {buf : List UInt8} {p q : ℕ}, buf.length = savbuf.length →
          (savbuf[j]? = some 0 → buf[j]? = some 0) →
          ((members n buf p).bind fun r => some (r.1, q :: r.2)) = some (savbuf', memb) →
          savbuf'.length = savbuf.length ∧ (savbuf[j]? = some 0 → savbuf'[j]? = some 0) ∧
            memb.length ≤ n + 1 := by
        intro buf p q hbuf hzero hbind
        obtain ⟨⟨buf', ms⟩, hms, hpair⟩ := Option.bind_eq_some_iff.mp hbind
        cases hpair
        obtain ⟨hsize, hkeep, hfew⟩ := ih hms
        exact ⟨hsize.trans hbuf, fun hj => hkeep (hzero hj), Nat.succ_le_succ hfew⟩
      have hset : ∀ p, savbuf[j]? = some 0 → (savbuf.set p 0)[j]? = some 0 :=
        fun p hj => set_terminator hj p
      by_cases hnl : c = NEWLINE
      · rw [if_pos hnl] at hrun
        exact hone List.length_set (hset _) hrun
      · rw [if_neg hnl] at hrun
        by_cases hzero : c ≠ 0
        · rw [if_pos hzero] at hrun
          exact hone List.length_set (hset _) hrun
        · rw [if_neg hzero] at hrun
          exact hone rfl id hrun

theorem parse_keeps {savbuf' : List UInt8} {gr : Group}
    (h : parse savbuf = some (gr, savbuf')) :
    savbuf'.length = savbuf.length ∧ (savbuf[j]? = some 0 → savbuf'[j]? = some 0) := by
  unfold parse at h
  simp only [Option.bind_eq_bind, Option.bind_eq_some_iff] at h
  obtain ⟨p, -, q, -, r, -, ⟨buf, memb⟩, hmembers, hpair⟩ := h
  cases hpair
  obtain ⟨hlen, hkeep, -⟩ := members_keeps hmembers
  simp only [List.length_set] at hlen
  refine ⟨hlen, fun hj => hkeep ?_⟩
  exact set_terminator (set_terminator (set_terminator hj _) _) _

theorem length_fgets_le (n : ℕ) (fp : List UInt8) : (fgets n fp).1.length ≤ n := by
  induction n generalizing fp with
  | zero => exact le_refl _
  | succ n ih =>
    cases fp with
    | nil => exact Nat.zero_le _
    | cons c fp =>
      rw [fgets]
      by_cases hc : c = NEWLINE
      · rw [if_pos hc]
        exact Nat.succ_le_succ (Nat.zero_le n)
      · rw [if_neg hc, List.length_cons]
        exact Nat.succ_le_succ (ih fp)

/-- `savbuf` has its size, and its last byte is never used. -/
structure Terminated (savbuf : List UInt8) : Prop where
  length : savbuf.length = SAVBUF
  last : savbuf[SAVBUF - 1]? = some 0

theorem Terminated.filled {line : List UInt8} (h : Terminated savbuf)
    (hline : line.length ≤ SAVBUF - 1) : Terminated (line ++ 0 :: savbuf.drop (line.length + 1)) := by
  have hlen := h.length
  have hbuf : SAVBUF = 512 := rfl
  refine ⟨?_, ?_⟩
  · rw [List.length_append, List.length_cons, List.length_drop]
    omega
  · rw [List.getElem?_append_right hline]
    by_cases hfull : line.length = SAVBUF - 1
    · rw [hfull, Nat.sub_self]
      rfl
    · obtain ⟨k, hk⟩ : ∃ k, SAVBUF - 1 - line.length = k + 1 :=
        Nat.exists_eq_succ_of_ne_zero (by omega)
      rw [hk, List.getElem?_cons_succ, List.getElem?_drop]
      have hindex : line.length + 1 + k = SAVBUF - 1 := by omega
      rw [hindex]
      exact h.last

theorem Terminated.nextent {savbuf' fp' : List UInt8} {gr : Option Group} (h : Terminated savbuf)
    (hnext : nextent savbuf fp = some (gr, savbuf', fp')) : Terminated savbuf' := by
  by_cases hne : (fgets (SAVBUF - 1) fp).1 = []
  · unfold Grp.nextent at hnext
    simp only [if_pos hne] at hnext
    cases hnext
    exact h
  · rw [nextent_parse savbuf hne, Option.map_eq_some_iff] at hnext
    obtain ⟨⟨g, buf⟩, hparse, hpair⟩ := hnext
    cases hpair
    obtain ⟨hlen, hlast⟩ := parse_keeps (j := SAVBUF - 1) hparse
    have hfilled := h.filled (length_fgets_le (SAVBUF - 1) fp)
    exact ⟨hlen.trans hfilled.length, hlast hfilled.last⟩

/-- The contents of `savbuf` behind any calls. -/
inductive Reachable : List UInt8 → Prop
  | start : Reachable (List.replicate SAVBUF 0)
  | call {savbuf fp savbuf' fp' : List UInt8} {gr : Option Group} (h : Reachable savbuf)
    (hnext : nextent savbuf fp = some (gr, savbuf', fp')) : Reachable savbuf'

theorem Reachable.terminated (h : Reachable savbuf) : Terminated savbuf := by
  induction h with
  | start =>
    refine ⟨List.length_replicate, ?_⟩
    rw [List.getElem?_replicate, if_pos (by decide)]
  | call h hnext ih => exact ih.nextent hnext

/-- A line of a file with its newline; the last line may have none. -/
structure Line where
  bytes : List UInt8
  nonempty : bytes ≠ []
  one : NEWLINE ∉ bytes.dropLast

def Line.separators (ℓ : Line) : ℕ := ℓ.bytes.countP fun c => Separator c

/-- The line fits and ends three fields; with two of them the next byte is the last one of
`savbuf`. -/
def Separated (ℓ : Line) : Prop :=
  ℓ.bytes.length < SAVBUF ∧
    (3 ≤ ℓ.separators ∨ (ℓ.bytes.length + 2 = SAVBUF ∧ ℓ.separators = 2))

/-- The line and nothing else is read as the entry `gr`, whatever was read before and whatever
follows. -/
def ReadAs (ℓ : Line) (gr : Group) : Prop :=
  ∀ savbuf, Reachable savbuf → ∀ rest, ℓ.bytes.getLast? = some NEWLINE ∨ rest = [] →
    ∃ savbuf', nextent savbuf (ℓ.bytes ++ rest) = some (some gr, savbuf', rest)

/-- The line is read as one entry, which depends on nothing but the line. -/
def Determined (ℓ : Line) : Prop := ∃ gr, ReadAs ℓ gr

variable {ℓ : Line} {rest : List UInt8} {gr : Group}

theorem fgets_full (hs : NEWLINE ∉ w) (hrest : w.length = n ∨ (w.length < n ∧ rest = [])) :
    fgets n (w ++ rest) = (w, rest) := by
  induction w generalizing n with
  | nil =>
    rcases hrest with rfl | ⟨hn, rfl⟩
    · rfl
    · obtain ⟨n, rfl⟩ := Nat.exists_eq_succ_of_ne_zero (Nat.ne_of_gt hn)
      rfl
  | cons c w ih =>
    obtain ⟨hc, hw⟩ := not_or.mp (mt List.mem_cons.mpr hs)
    rw [List.length_cons] at hrest
    obtain ⟨n, rfl⟩ := Nat.exists_eq_succ_of_ne_zero (show n ≠ 0 by omega)
    have hroom : w.length = n ∨ (w.length < n ∧ rest = []) :=
      hrest.imp Nat.succ.inj fun h => ⟨Nat.lt_of_succ_lt_succ h.1, h.2⟩
    rw [List.cons_append, fgets, if_neg (Ne.symm hc), ih hw hroom]

theorem fgets_whole (hfit : ℓ.bytes.length < SAVBUF)
    (hend : ℓ.bytes.getLast? = some NEWLINE ∨ rest = []) :
    fgets (SAVBUF - 1) (ℓ.bytes ++ rest) = (ℓ.bytes, rest) := by
  have hsplit := List.dropLast_append_getLast ℓ.nonempty
  have hlen := congrArg List.length hsplit
  rw [List.length_append, List.length_singleton] at hlen
  have hbuf : SAVBUF = 512 := rfl
  by_cases hlast : ℓ.bytes.getLast ℓ.nonempty = NEWLINE
  · rw [hlast] at hsplit
    rw [← hsplit, List.append_assoc, List.singleton_append]
    exact fgets_line ℓ.one (by omega)
  · have hnone : NEWLINE ∉ ℓ.bytes := by
      rw [← hsplit, List.mem_append, List.mem_singleton, not_or]
      exact ⟨ℓ.one, Ne.symm hlast⟩
    have hrest : rest = [] := by
      refine hend.resolve_left fun h => hlast ?_
      rw [List.getLast?_eq_some_getLast ℓ.nonempty] at h
      exact Option.some.inj h
    refine fgets_full hnone ?_
    by_cases hfull : ℓ.bytes.length = SAVBUF - 1
    · exact Or.inl hfull
    · exact Or.inr ⟨by omega, hrest⟩

theorem nextent_line (hfit : ℓ.bytes.length < SAVBUF)
    (hend : ℓ.bytes.getLast? = some NEWLINE ∨ rest = []) :
    nextent savbuf (ℓ.bytes ++ rest) =
      (parse (ℓ.bytes ++ 0 :: savbuf.drop (ℓ.bytes.length + 1))).map
        fun r => (some r.1, r.2, rest) := by
  have hgets := fgets_whole hfit hend
  have hne : (fgets (SAVBUF - 1) (ℓ.bytes ++ rest)).1 ≠ [] := by
    rw [hgets]
    exact ℓ.nonempty
  rw [nextent_parse savbuf hne, hgets]

theorem exists_field {k : ℕ} (h : l.countP (fun c => Separator c) = k + 1) :
    ∃ w c t, l = w ++ c :: t ∧ (∀ d ∈ w, ¬ Separator d) ∧ Separator c ∧
      t.countP (fun c => Separator c) = k := by
  induction l with
  | nil => cases h
  | cons c l ih =>
    by_cases hc : Separator c
    · rw [List.countP_cons, if_pos (decide_eq_true hc)] at h
      exact ⟨[], c, l, rfl, fun d hd => absurd hd List.not_mem_nil, hc, Nat.succ.inj h⟩
    · rw [List.countP_cons, if_neg (by simpa only [decide_eq_true_eq] using hc)] at h
      obtain ⟨w, c', t, rfl, hw, hc', ht⟩ := ih h
      refine ⟨c :: w, c', t, rfl, fun d hd => ?_, hc', ht⟩
      rcases List.mem_cons.mp hd with rfl | hd
      · exact hc
      · exact hw d hd

theorem free_of_countP (h : l.countP (fun c => Separator c) = 0) : ∀ d ∈ l, ¬ Separator d := by
  intro d hd
  have := List.countP_eq_zero.mp h d hd
  simpa only [decide_eq_true_eq] using this

theorem cstr_inside (h : 0 ∈ w) (l : List UInt8) : cstr (w ++ l) = cstr w := by
  induction w with
  | nil => exact absurd h List.not_mem_nil
  | cons c w ih =>
    rw [List.cons_append, cstr, cstr]
    by_cases hc : c = 0
    · rw [if_pos hc, if_pos hc]
    · have hw : 0 ∈ w := (List.mem_cons.mp h).resolve_left (Ne.symm hc)
      rw [if_neg hc, if_neg hc, ih hw]

theorem cstr_drop_inside (hj : A[j]? = some 0) (hp : cp ≤ j) (l : List UInt8) :
    cstr ((A ++ l).drop cp) = cstr (A.drop cp) := by
  have hlt := (List.getElem?_eq_some_iff.mp hj).1
  rw [List.drop_append_of_le_length (by omega)]
  exact cstr_inside (mem_drop_terminator hj hp) l

theorem parse_inside (h : 3 ≤ l.countP fun c => Separator c) :
    ∃ gr, ∀ stale, ∃ savbuf', parse (l ++ 0 :: stale) = some (gr, savbuf') := by
  obtain ⟨k, hk⟩ := Nat.exists_eq_add_of_le' h
  obtain ⟨w₁, c₁, t₁, rfl, h₁, hc₁, ht₁⟩ := exists_field (k := k + 2) hk
  obtain ⟨w₂, c₂, t₂, rfl, h₂, hc₂, ht₂⟩ := exists_field ht₁
  obtain ⟨w₃, c₃, t, rfl, h₃, hc₃, -⟩ := exists_field ht₂
  have hj : (w₁ ++ [0] ++ w₂ ++ [0] ++ w₃ ++ [0] ++ (t ++ [0]))[
      (w₁ ++ [0] ++ w₂ ++ [0] ++ w₃ ++ [0] ++ t).length]? = some 0 := by
    rw [← List.append_assoc, List.getElem?_append_right (le_refl _), Nat.sub_self]
    rfl
  have hfront : (w₁ ++ [0] ++ w₂ ++ [0] ++ w₃ ++ [0]).length ≤
      (w₁ ++ [0] ++ w₂ ++ [0] ++ w₃ ++ [0] ++ t).length := by
    simp only [List.length_append]
    omega
  obtain ⟨A, memb, hlen, hA, hmemb, hall⟩ := members_inside (MAX_MEMBERS - 1) hj
    (by simp only [List.length_append, List.length_singleton]; omega) hfront
  refine ⟨⟨some (cstr A), strtoul (cstr (w₃ ++ c₃ :: (t ++ [0]))),
    some (memb.map fun p => cstr (A.drop p)), some (cstr (A.drop (w₁.length + 1)))⟩,
    fun stale => ⟨A ++ stale, ?_⟩⟩
  have hbuf : w₁ ++ c₁ :: (w₂ ++ c₂ :: (w₃ ++ c₃ :: t)) ++ 0 :: stale =
      w₁ ++ c₁ :: (w₂ ++ c₂ :: (w₃ ++ c₃ :: (t ++ 0 :: stale))) := by
    simp only [List.append_assoc, List.cons_append]
  have hrun := hall stale
  have htail : w₁ ++ [0] ++ w₂ ++ [0] ++ w₃ ++ [0] ++ (t ++ [0]) ++ stale =
      w₁ ++ [0] ++ w₂ ++ [0] ++ w₃ ++ [0] ++ (t ++ 0 :: stale) := by
    simp only [List.append_assoc, List.cons_append, List.nil_append]
  rw [htail] at hrun
  have hgid : cstr (w₃ ++ c₃ :: (t ++ 0 :: stale)) = cstr (w₃ ++ c₃ :: (t ++ [0])) := by
    have := cstr_inside (w := w₃ ++ c₃ :: (t ++ [0])) (by simp) stale
    simpa only [List.append_assoc, List.cons_append, List.nil_append] using this
  have hname : cstr (A ++ stale) = cstr A := cstr_drop_inside hA (Nat.zero_le _) stale
  have hpasswd : cstr ((A ++ stale).drop (w₁.length + 1)) = cstr (A.drop (w₁.length + 1)) := by
    refine cstr_drop_inside hA ?_ stale
    simp only [List.length_append, List.length_singleton]
    omega
  have hmem : (memb.map fun p => cstr ((A ++ stale).drop p)) =
      memb.map fun p => cstr (A.drop p) := by
    refine List.map_congr_left fun p hp => cstr_drop_inside hA (hmemb p hp) stale
  rw [hbuf, parse_fields h₁ hc₁ h₂ hc₂ h₃ hc₃, hrun, Option.map_some]
  simp only [hname, hgid, hpasswd, hmem]

theorem Terminated.behind (h : Terminated savbuf) (hn : n + 1 = SAVBUF - 1) :
    savbuf.drop (n + 1) = [0] := by
  have hlen := h.length
  have hbuf : SAVBUF = 512 := rfl
  refine List.ext_getElem? fun i => ?_
  rw [List.getElem?_drop, hn]
  cases i with
  | zero => exact h.last
  | succ i =>
    rw [List.getElem?_eq_none (by omega), List.getElem?_eq_none (by
      rw [List.length_singleton]
      omega)]

theorem separated_determined (h : Separated ℓ) : Determined ℓ := by
  obtain ⟨hfit, hsep⟩ := h
  have hread : ∃ gr, ∀ savbuf, Terminated savbuf →
      ∃ savbuf', parse (ℓ.bytes ++ 0 :: savbuf.drop (ℓ.bytes.length + 1)) =
        some (gr, savbuf') := by
    rcases hsep with hthree | ⟨hlen, htwo⟩
    · obtain ⟨gr, hall⟩ := parse_inside hthree
      exact ⟨gr, fun savbuf _ => hall _⟩
    · have hbuf : SAVBUF = 512 := rfl
      obtain ⟨w₁, c₁, t₁, hℓ, h₁, hc₁, ht₁⟩ := exists_field htwo
      obtain ⟨w₂, c₂, w₃, rfl, h₂, hc₂, ht₂⟩ := exists_field ht₁
      have h₃ := free_of_countP ht₂
      obtain ⟨⟨gr, buf⟩, hparse⟩ :
          ∃ r, parse (w₁ ++ c₁ :: (w₂ ++ c₂ :: (w₃ ++ 0 :: [0]))) = some r := by
        rw [parse_fields h₁ hc₁ h₂ hc₂ h₃ (Or.inl rfl), members_end]
        exact ⟨_, rfl⟩
      refine ⟨gr, fun savbuf hsavbuf => ⟨buf, ?_⟩⟩
      have hstale := hsavbuf.behind (n := ℓ.bytes.length) (by omega)
      have hbuffer : ℓ.bytes ++ 0 :: savbuf.drop (ℓ.bytes.length + 1) =
          w₁ ++ c₁ :: (w₂ ++ c₂ :: (w₃ ++ 0 :: [0])) := by
        rw [hstale, hℓ]
        simp only [List.append_assoc, List.cons_append]
      rw [hbuffer, hparse]
  obtain ⟨gr, hgr⟩ := hread
  refine ⟨gr, fun savbuf hsavbuf rest hend => ?_⟩
  obtain ⟨savbuf', hparse⟩ := hgr savbuf hsavbuf.terminated
  refine ⟨savbuf', ?_⟩
  rw [nextent_line hfit hend, hparse]
  rfl

/-- The buffer behind a line that begins with three colons and has only fives behind them. -/
def fives : List UInt8 := [0, 0, 0] ++ List.replicate 508 53 ++ [0]

theorem fives_reachable : Reachable fives := by
  have hrun : (nextent (List.replicate SAVBUF 0) ([58, 58, 58] ++ List.replicate 508 53)).map
      (fun r => r.2.1) = some fives := by
    decide +kernel
  obtain ⟨⟨gr, savbuf', fp'⟩, hnext, hbuf⟩ := Option.map_eq_some_iff.mp hrun
  obtain rfl : savbuf' = fives := hbuf
  exact Reachable.start.call hnext

theorem fives_drop (hlow : 2 ≤ n) (hhigh : n ≤ 510) :
    fives.drop (n + 1) = List.replicate (510 - n) 53 ++ [0] := by
  have hlen : ([0, 0, 0] : List UInt8).length ≤ n + 1 := by
    show 3 ≤ n + 1
    omega
  rw [fives, List.append_assoc, List.drop_append, List.drop_eq_nil_of_le hlen, List.nil_append]
  have hsub : n + 1 - ([0, 0, 0] : List UInt8).length = n - 2 := by
    show n + 1 - 3 = n - 2
    omega
  rw [hsub, List.drop_append_of_le_length (by rw [List.length_replicate]; omega),
    List.drop_replicate]
  have hfew : 508 - (n - 2) = 510 - n := by omega
  rw [hfew]

theorem fives_end : fives.drop (511 + 1) = [] := by
  refine List.drop_eq_nil_of_le ?_
  rw [fives, List.length_append, List.length_append, List.length_replicate]
  exact le_refl _

theorem fives_free (k : ℕ) : ∀ d ∈ List.replicate k (53 : UInt8), ¬ Separator d := by
  intro d hd
  rw [(List.mem_replicate.mp hd).2]
  decide

theorem members_behind (n : ℕ) (l : List UInt8) : members n l l.length = none := by
  unfold members
  rw [List.getElem?_eq_none (le_refl _)]

theorem members_nonempty {savbuf' : List UInt8} {memb : List ℕ} (hget : savbuf[cp]? = some c)
    (hc : c ≠ 0) (h : members (n + 1) savbuf cp = some (savbuf', memb)) : memb ≠ [] := by
  unfold members at h
  rw [hget] at h
  split at h
  · cases h
  · rename_i hzero
    exact absurd (Option.some.inj hzero) hc
  · simp only [Option.bind_eq_bind, Option.bind_eq_some_iff] at h
    obtain ⟨d, -, c', -, hrun⟩ := h
    split_ifs at hrun
    all_goals
      obtain ⟨r, -, hpair⟩ := Option.bind_eq_some_iff.mp hrun
      cases hpair
      exact List.cons_ne_nil _ _

theorem parse_members {savbuf' : List UInt8} (h₁ : ∀ d ∈ w₁, ¬ Separator d) (hc₁ : Separator c₁)
    (h₂ : ∀ d ∈ w₂, ¬ Separator d) (hc₂ : Separator c₂) (h₃ : ∀ d ∈ w₃, ¬ Separator d)
    (hc₃ : Separator c₃)
    (h : parse (w₁ ++ c₁ :: (w₂ ++ c₂ :: (w₃ ++ c₃ :: tail))) = some (gr, savbuf')) :
    ∃ c t, tail = c :: t ∧ (gr.gr_mem = some [] ↔ c = 0) := by
  rw [parse_fields h₁ hc₁ h₂ hc₂ h₃ hc₃] at h
  cases tail with
  | nil =>
    rw [List.append_nil, members_behind] at h
    cases h
  | cons c t =>
    refine ⟨c, t, rfl, ?_⟩
    by_cases hc : c = 0
    · rw [hc, members_end] at h
      cases h
      exact iff_of_true rfl hc
    · obtain ⟨⟨buf, memb⟩, hmembers, hpair⟩ := Option.map_eq_some_iff.mp h
      cases hpair
      refine iff_of_false (fun hnil => ?_) hc
      have hget : (w₁ ++ [0] ++ w₂ ++ [0] ++ w₃ ++ [0] ++ c :: t)[
          (w₁ ++ [0] ++ w₂ ++ [0] ++ w₃ ++ [0]).length]? = some c := by
        rw [List.getElem?_append_right (le_refl _), Nat.sub_self]
        rfl
      refine members_nonempty hget hc hmembers ?_
      exact List.map_eq_nil_iff.mp (Option.some.inj hnil)

theorem nextent_start (hfit : ℓ.bytes.length < SAVBUF) (h : ReadAs ℓ gr) {savbuf : List UInt8}
    (hreach : Reachable savbuf) : ∃ savbuf',
      parse (ℓ.bytes ++ 0 :: savbuf.drop (ℓ.bytes.length + 1)) = some (gr, savbuf') := by
  obtain ⟨savbuf', hnext⟩ := h savbuf hreach [] (Or.inr rfl)
  rw [nextent_line hfit (Or.inr rfl)] at hnext
  obtain ⟨r, hparse, hpair⟩ := Option.map_eq_some_iff.mp hnext
  cases hpair
  exact ⟨_, hparse⟩

theorem determined_fits (h : Determined ℓ) : ℓ.bytes.length < SAVBUF := by
  by_contra hlong
  obtain ⟨gr, hgr⟩ := h
  have hbuf : SAVBUF = 512 := rfl
  have hsplit : ℓ.bytes.take (SAVBUF - 1) ++ ℓ.bytes.drop (SAVBUF - 1) = ℓ.bytes :=
    List.take_append_drop _ _
  have hnone : NEWLINE ∉ ℓ.bytes.take (SAVBUF - 1) := by
    intro hmem
    refine ℓ.one (List.mem_of_mem_take (i := SAVBUF - 1) ?_)
    rw [List.dropLast_eq_take, List.take_take, Nat.min_eq_left (by omega)]
    exact hmem
  have hlen : (ℓ.bytes.take (SAVBUF - 1)).length = SAVBUF - 1 := by
    rw [List.length_take]
    omega
  have hgets : fgets (SAVBUF - 1) ℓ.bytes =
      (ℓ.bytes.take (SAVBUF - 1), ℓ.bytes.drop (SAVBUF - 1)) := by
    have hfull : fgets (SAVBUF - 1) (ℓ.bytes.take (SAVBUF - 1) ++ ℓ.bytes.drop (SAVBUF - 1)) =
        (ℓ.bytes.take (SAVBUF - 1), ℓ.bytes.drop (SAVBUF - 1)) :=
      fgets_full hnone (Or.inl hlen)
    rwa [hsplit] at hfull
  obtain ⟨savbuf', hnext⟩ := hgr _ Reachable.start [] (Or.inr rfl)
  have hne : (fgets (SAVBUF - 1) ℓ.bytes).1 ≠ [] := by
    rw [hgets]
    refine List.ne_nil_of_length_pos ?_
    rw [hlen]
    decide
  rw [List.append_nil, nextent_parse _ hne, hgets] at hnext
  obtain ⟨r, -, hpair⟩ := Option.map_eq_some_iff.mp hnext
  have hrest := (Prod.mk.inj (Prod.mk.inj hpair).2).2
  have := congrArg List.length hrest
  rw [List.length_drop, List.length_nil] at this
  omega

theorem determined_two (hfit : ℓ.bytes.length < SAVBUF) (h : Determined ℓ)
    (htwo : ℓ.separators = 2) : ℓ.bytes.length + 2 = SAVBUF := by
  by_contra hlen
  obtain ⟨gr, hgr⟩ := h
  have hbuf : SAVBUF = 512 := rfl
  obtain ⟨w₁, c₁, t₁, hℓ, h₁, hc₁, ht₁⟩ := exists_field htwo
  obtain ⟨w₂, c₂, w₃, rfl, h₂, hc₂, ht₂⟩ := exists_field ht₁
  have h₃ := free_of_countP ht₂
  have hshape : ∀ stale, ℓ.bytes ++ 0 :: stale =
      w₁ ++ c₁ :: (w₂ ++ c₂ :: (w₃ ++ 0 :: stale)) := fun stale => by
    rw [hℓ]
    simp only [List.append_assoc, List.cons_append]
  have hlow : 2 ≤ ℓ.bytes.length := by
    rw [hℓ]
    simp only [List.length_append, List.length_cons]
    omega
  obtain ⟨buf, hzeros⟩ := nextent_start hfit hgr Reachable.start
  rw [hshape] at hzeros
  obtain ⟨c, t, htail, hnil⟩ := parse_members h₁ hc₁ h₂ hc₂ h₃ (Or.inl rfl) hzeros
  rw [List.drop_replicate] at htail
  have hc : c = 0 := by
    have hmem : c ∈ List.replicate (SAVBUF - (ℓ.bytes.length + 1)) (0 : UInt8) := by
      rw [htail]
      exact List.mem_cons_self
    exact (List.mem_replicate.mp hmem).2
  have hroom : ℓ.bytes.length + 2 ≤ SAVBUF := by
    by_contra hfull
    have hzero : SAVBUF - (ℓ.bytes.length + 1) = 0 := by omega
    rw [hzero] at htail
    cases htail
  obtain ⟨buf', hfives⟩ := nextent_start hfit hgr fives_reachable
  rw [hshape] at hfives
  obtain ⟨c', t', htail', hnil'⟩ := parse_members h₁ hc₁ h₂ hc₂ h₃ (Or.inl rfl) hfives
  obtain ⟨k, hk⟩ : ∃ k, 510 - ℓ.bytes.length = k + 1 :=
    Nat.exists_eq_succ_of_ne_zero (by omega)
  rw [fives_drop hlow (by omega), hk, List.replicate_succ, List.cons_append] at htail'
  have hfive : c' = 53 := (List.cons.inj htail').1.symm
  have hzero := hnil'.mp (hnil.mpr hc)
  rw [hfive] at hzero
  exact absurd hzero (by decide)

/-- With one field ended the parser runs behind the buffer, or reads the members from it. -/
theorem determined_one (hfit : ℓ.bytes.length < SAVBUF) (h : Determined ℓ) : ℓ.separators ≠ 1 := by
  intro hone
  obtain ⟨gr, hgr⟩ := h
  have hbuf : SAVBUF = 512 := rfl
  obtain ⟨w₁, c₁, w₂, hℓ, h₁, hc₁, ht₁⟩ := exists_field hone
  have h₂ := free_of_countP ht₁
  have hshape : ∀ stale, ℓ.bytes ++ 0 :: stale = w₁ ++ c₁ :: (w₂ ++ 0 :: stale) := fun stale => by
    rw [hℓ]
    simp only [List.append_assoc, List.cons_append]
  have hn : ℓ.bytes.length = w₁.length + w₂.length + 1 := by
    rw [hℓ, List.length_append, List.length_cons]
    omega
  obtain ⟨buf, hfives⟩ := nextent_start hfit hgr fives_reachable
  rw [hshape] at hfives
  rcases Nat.lt_or_ge ℓ.bytes.length 2 with hshort | hlow
  · have hw₁ : w₁ = [] := List.eq_nil_of_length_eq_zero (by omega)
    have hw₂ : w₂ = [] := List.eq_nil_of_length_eq_zero (by omega)
    have hlen : ℓ.bytes.length = 1 := by omega
    subst hw₁ hw₂
    obtain ⟨buf', hzeros⟩ := nextent_start hfit hgr Reachable.start
    rw [hshape, hlen] at hzeros
    rw [hlen] at hfives
    have hz : (List.replicate SAVBUF (0 : UInt8)).drop (1 + 1) =
        [] ++ 0 :: (0 :: List.replicate 508 0) := by
      rw [List.drop_replicate]
      rfl
    have hf : fives.drop (1 + 1) = [] ++ 0 :: (53 :: (List.replicate 507 53 ++ [0])) := rfl
    rw [hz] at hzeros
    rw [hf] at hfives
    obtain ⟨c, t, htail, hnil⟩ := parse_members h₁ hc₁ h₂ (Or.inl rfl) h₂ (Or.inl rfl) hzeros
    obtain ⟨c', t', htail', hnil'⟩ := parse_members h₁ hc₁ h₂ (Or.inl rfl) h₂ (Or.inl rfl) hfives
    have hzero := hnil'.mp (hnil.mpr (List.cons.inj htail).1.symm)
    rw [← (List.cons.inj htail').1] at hzero
    exact absurd hzero (by decide)
  by_cases hfull : ℓ.bytes.length = 511
  · rw [hfull, fives_end, parse_second h₁ hc₁ h₂ (Or.inl rfl)
      fun d hd => absurd hd List.not_mem_nil] at hfives
    cases hfives
  · rw [fives_drop hlow (by omega)] at hfives
    obtain ⟨c, t, htail, -⟩ :=
      parse_members h₁ hc₁ h₂ (Or.inl rfl) (fives_free _) (Or.inl rfl) hfives
    cases htail

theorem determined_none (hfit : ℓ.bytes.length < SAVBUF) (h : Determined ℓ) :
    ℓ.separators ≠ 0 := by
  intro hzero
  obtain ⟨gr, hgr⟩ := h
  have hbuf : SAVBUF = 512 := rfl
  have h₁ := free_of_countP hzero
  have hempty : ∀ d ∈ ([] : List UInt8), ¬ Separator d := fun d hd => absurd hd List.not_mem_nil
  obtain ⟨buf, hfives⟩ := nextent_start hfit hgr fives_reachable
  have hpos := List.length_pos_iff.mpr ℓ.nonempty
  rcases Nat.lt_or_ge ℓ.bytes.length 2 with hshort | hlow
  · have hlen : ℓ.bytes.length = 1 := by omega
    rw [hlen] at hfives
    have hf : fives.drop (1 + 1) = [] ++ 0 :: (List.replicate 508 53 ++ 0 :: []) := rfl
    rw [hf] at hfives
    obtain ⟨c, t, htail, -⟩ :=
      parse_members h₁ (Or.inl rfl) hempty (Or.inl rfl) (fives_free _) (Or.inl rfl) hfives
    cases htail
  by_cases hfull : ℓ.bytes.length = 511
  · rw [hfull, fives_end, parse_first h₁ (Or.inl rfl) hempty] at hfives
    cases hfives
  · rw [fives_drop hlow (by omega), parse_second h₁ (Or.inl rfl) (fives_free _) (Or.inl rfl)
      hempty] at hfives
    cases hfives

/-- An entry depends on its line alone if and only if the line fits and ends its fields. -/
theorem determined_iff (ℓ : Line) : Determined ℓ ↔ Separated ℓ := by
  refine ⟨fun h => ?_, separated_determined⟩
  have hfit := determined_fits h
  refine ⟨hfit, ?_⟩
  have hnone := determined_none hfit h
  have hone := determined_one hfit h
  by_cases htwo : ℓ.separators = 2
  · exact Or.inr ⟨determined_two hfit h htwo, htwo⟩
  · exact Or.inl (by omega)

end Parse

/-- A file as its lines; all of them but the last have a newline. -/
structure GroupFile where
  lines : List Line
  terminated : ∀ ℓ ∈ lines.dropLast, ℓ.bytes.getLast? = some NEWLINE

def GroupFile.bytes (file : GroupFile) : List UInt8 := (file.lines.map Line.bytes).flatten

/-- The reads of the file give one entry for each line, which depends on that line alone. -/
def LineByLine (file : GroupFile) : Prop :=
  ∃ entries, List.Forall₂ ReadAs file.lines entries ∧ ∀ savbuf, Reachable savbuf →
    getgrents (file.lines.length + 1) savbuf file.bytes = some entries

section Files

variable {ls : List Line} {entries : List Group} {savbuf : List UInt8}

theorem getgrents_lines (hread : List.Forall₂ ReadAs ls entries)
    (hend : ∀ ℓ ∈ ls.dropLast, ℓ.bytes.getLast? = some NEWLINE) (hsavbuf : Reachable savbuf) :
    getgrents (ls.length + 1) savbuf (ls.map Line.bytes).flatten = some entries := by
  induction hread generalizing savbuf with
  | nil => rfl
  | @cons ℓ gr ls grs hℓ hls ih =>
    have hrest : ℓ.bytes.getLast? = some NEWLINE ∨ (ls.map Line.bytes).flatten = [] := by
      cases ls with
      | nil => exact Or.inr rfl
      | cons ℓ' ls => exact Or.inl (hend ℓ List.mem_cons_self)
    have hend' : ∀ ℓ ∈ ls.dropLast, ℓ.bytes.getLast? = some NEWLINE := by
      intro ℓ' hℓ'
      cases ls with
      | nil => exact absurd hℓ' List.not_mem_nil
      | cons ℓ'' ls => exact hend ℓ' (List.mem_cons_of_mem _ hℓ')
    obtain ⟨savbuf', hnext⟩ := hℓ savbuf hsavbuf _ hrest
    have hgo := ih hend' (hsavbuf.call hnext)
    rw [List.map_cons, List.flatten_cons, List.length_cons, getgrents, hnext]
    simp only [Option.bind_eq_bind, Option.bind_some, hgo]

theorem entries_iff : (∃ entries, List.Forall₂ ReadAs ls entries) ↔ ∀ ℓ ∈ ls, Determined ℓ := by
  induction ls with
  | nil => exact iff_of_true ⟨[], List.Forall₂.nil⟩ fun ℓ hℓ => absurd hℓ List.not_mem_nil
  | cons ℓ ls ih =>
    rw [List.forall_mem_cons, ← ih]
    constructor
    · rintro ⟨entries, hread⟩
      obtain ⟨gr, grs, hgr, hgrs, rfl⟩ := List.forall₂_cons_left_iff.mp hread
      exact ⟨⟨gr, hgr⟩, ⟨grs, hgrs⟩⟩
    · rintro ⟨⟨gr, hgr⟩, ⟨grs, hgrs⟩⟩
      exact ⟨gr :: grs, List.Forall₂.cons hgr hgrs⟩

/-- A file is read line by line if and only if every line fits and ends its fields. -/
theorem line_by_line_iff (file : GroupFile) :
    LineByLine file ↔ ∀ ℓ ∈ file.lines, Separated ℓ := by
  constructor
  · rintro ⟨entries, hread, -⟩ ℓ hℓ
    exact (determined_iff ℓ).mp (entries_iff.mp ⟨entries, hread⟩ ℓ hℓ)
  · intro hall
    have hdet : ∀ ℓ ∈ file.lines, Determined ℓ := fun ℓ hℓ => (determined_iff ℓ).mpr (hall ℓ hℓ)
    obtain ⟨entries, hentries⟩ := entries_iff.mpr hdet
    exact ⟨entries, hentries, fun savbuf hsavbuf =>
      getgrents_lines hentries file.terminated hsavbuf⟩

/-- The line `a:b:5`, without a third colon. -/
def shortLine : GroupFile where
  lines := [⟨[97, 58, 98, 58, 53, 10], by decide, by decide⟩]
  terminated := by decide

/-- Behind a longer line the entry of `a:b:5` has a member. -/
theorem stale_member : ¬ LineByLine shortLine := by
  rintro ⟨entries, hread, -⟩
  have hdet := entries_iff.mp ⟨entries, hread⟩ _ List.mem_cons_self
  have hno : ¬ 3 ≤ (shortLine.lines.head (by decide)).separators := by decide
  rcases ((determined_iff _).mp hdet).2 with hthree | ⟨hlen, -⟩
  · exact hno hthree
  · exact absurd hlen (by decide)

end Files

end Mintlib.GroupReader
