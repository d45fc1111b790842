import Mintlib.Pwd

/-!
# Lines and entries of the password file: what one call of `fgetpwent_r` takes

The state machine stores a NUL for each `':'` without a look at the room, and the seventh
`':'` ends it in the middle of a line.
-/

namespace Mintlib.PwdLines

open Text Entry Pwd

def afterLine : List UInt8 → List UInt8
  | [] => []
  | c :: fp => if c = NEWLINE then fp else afterLine fp

/-- The fields of the first line that a `':'` ends. -/
def fieldsOf : List UInt8 → List Str
  | [] => []
  | c :: fp =>
    if c = NEWLINE then []
    else if c = COLON then [] :: fieldsOf fp
    else match fieldsOf fp with
      | [] => []
      | w :: ws => (c :: w) :: ws

/-- The bytes that some fields take with their NULs; `kinds` tells which of them are strings. -/
def needed : List Bool → List Str → ℕ
  | stored :: kinds, w :: ws => (if stored then w.length + 1 else 0) + needed kinds ws
  | _, _ => 0

/-- Name, password, uid, gid, gecos, home and shell: all but the ids are strings. -/
def allKinds : List Bool := [true, true, false, false, true, true, true]

/-- A text without a `':'` and without a newline. -/
def Bare (w : List UInt8) : Prop := ∀ c ∈ w, c ≠ COLON ∧ c ≠ NEWLINE

/-- A line with its newline in front of `rest`, or the last one of the stream. -/
structure IsLine (line rest : List UInt8) : Prop where
  nonempty : line ≠ []
  one : NEWLINE ∉ line.dropLast
  terminated : line.getLast? = some NEWLINE ∨ rest = []

section Lines

variable {c : UInt8} {fp fp' w l line rest : List UInt8} {ws : List Str}

theorem Bare.of_cons (h : Bare (c :: w)) : (c ≠ COLON ∧ c ≠ NEWLINE) ∧ Bare w :=
  ⟨h c List.mem_cons_self, fun d hd => h d (List.mem_cons_of_mem _ hd)⟩

theorem afterLine_append (hw : Bare w) (fp : List UInt8) : afterLine (w ++ fp) = afterLine fp := by
  induction w with
  | nil => rfl
  | cons c w ih =>
    obtain ⟨⟨-, hnewline⟩, hw⟩ := hw.of_cons
    rw [List.cons_append, afterLine, if_neg hnewline, ih hw]

theorem afterLine_colon (fp : List UInt8) : afterLine (COLON :: fp) = afterLine fp :=
  if_neg (by decide)

theorem fieldsOf_cons (h : fieldsOf fp = w :: ws) :
    ∃ fp', fp = w ++ COLON :: fp' ∧ Bare w ∧ fieldsOf fp' = ws := by
  induction fp generalizing w with
  | nil => cases h
  | cons c fp ih =>
    rw [fieldsOf] at h
    by_cases hnewline : c = NEWLINE
    · rw [if_pos hnewline] at h
      cases h
    rw [if_neg hnewline] at h
    by_cases hcolon : c = COLON
    · rw [if_pos hcolon] at h
      cases h
      exact ⟨fp, by rw [hcolon]; rfl, fun d hd => absurd hd List.not_mem_nil, rfl⟩
    · rw [if_neg hcolon] at h
      cases hrest : fieldsOf fp with
      | nil =>
        rw [hrest] at h
        cases h
      | cons w' ws' =>
        rw [hrest] at h
        cases h
        obtain ⟨fp', rfl, hw, hws⟩ := ih hrest
        refine ⟨fp', rfl, fun d hd => ?_, hws⟩
        rcases List.mem_cons.mp hd with rfl | hd
        · exact ⟨hcolon, hnewline⟩
        · exact hw d hd

theorem fieldsOf_nil (h : fieldsOf fp = []) :
    ∃ w, Bare w ∧ (fp = w ∨ fp = w ++ NEWLINE :: afterLine fp) := by
  induction fp with
  | nil => exact ⟨[], fun d hd => absurd hd List.not_mem_nil, Or.inl rfl⟩
  | cons c fp ih =>
    rw [fieldsOf] at h
    by_cases hnewline : c = NEWLINE
    · refine ⟨[], fun d hd => absurd hd List.not_mem_nil, Or.inr ?_⟩
      rw [afterLine, if_pos hnewline, hnewline]
      rfl
    rw [if_neg hnewline] at h
    by_cases hcolon : c = COLON
    · rw [if_pos hcolon] at h
      cases h
    · rw [if_neg hcolon] at h
      cases hrest : fieldsOf fp with
      | cons w' ws' =>
        rw [hrest] at h
        cases h
      | nil =>
        obtain ⟨w, hw, hfp⟩ := ih hrest
        refine ⟨c :: w, fun d hd => ?_, ?_⟩
        · rcases List.mem_cons.mp hd with rfl | hd
          · exact ⟨hcolon, hnewline⟩
          · exact hw d hd
        · rw [afterLine, if_neg hnewline]
          exact hfp.imp (congrArg (c :: ·)) (congrArg (c :: ·))

theorem length_afterLine_le (fp : List UInt8) : (afterLine fp).length ≤ fp.length := by
  induction fp with
  | nil => exact le_refl _
  | cons c fp ih =>
    rw [afterLine, List.length_cons]
    by_cases hc : c = NEWLINE
    · rw [if_pos hc]
      exact Nat.le_succ _
    · rw [if_neg hc]
      exact ih.trans (Nat.le_succ _)

theorem afterLine_eq_self : afterLine fp = fp ↔ fp = [] := by
  refine ⟨fun h => ?_, fun h => by rw [h]; rfl⟩
  cases fp with
  | nil => rfl
  | cons c fp =>
    have hlen := congrArg List.length h
    rw [afterLine, List.length_cons] at hlen
    have hle := length_afterLine_le fp
    by_cases hc : c = NEWLINE
    · rw [if_pos hc] at hlen
      omega
    · rw [if_neg hc] at hlen
      omega

theorem exists_line (hne : fp ≠ []) :
    ∃ line, fp = line ++ afterLine fp ∧ IsLine line (afterLine fp) := by
  induction fp with
  | nil => exact absurd rfl hne
  | cons c fp ih =>
    rw [afterLine]
    by_cases hc : c = NEWLINE
    · rw [if_pos hc]
      exact ⟨[c], rfl, List.cons_ne_nil _ _, List.not_mem_nil, Or.inl (by rw [hc]; rfl)⟩
    rw [if_neg hc]
    by_cases hfp : fp = []
    · subst hfp
      exact ⟨[c], rfl, List.cons_ne_nil _ _, List.not_mem_nil, Or.inr rfl⟩
    · obtain ⟨line, hline, hnonempty, hone, hend⟩ := ih hfp
      refine ⟨c :: line, by rw [List.cons_append, ← hline], List.cons_ne_nil _ _, ?_, ?_⟩
      · rw [List.dropLast_cons_of_ne_nil hnonempty, List.mem_cons, not_or]
        exact ⟨Ne.symm hc, hone⟩
      · rw [List.getLast?_cons_of_ne_nil hnonempty]
        exact hend

theorem IsLine.afterLine (h : IsLine line rest) : afterLine (line ++ rest) = rest := by
  obtain ⟨hne, hone, hend⟩ := h
  induction line with
  | nil => exact absurd rfl hne
  | cons c line ih =>
    rw [List.cons_append, PwdLines.afterLine]
    by_cases hline : line = []
    · subst hline
      by_cases hc : c = NEWLINE
      · exact if_pos hc
      · rw [if_neg hc]
        have hrest : rest = [] := hend.resolve_left fun h => hc (Option.some.inj h)
        rw [hrest]
        rfl
    · rw [List.dropLast_cons_of_ne_nil hline, List.mem_cons, not_or] at hone
      rw [List.getLast?_cons_of_ne_nil hline] at hend
      rw [if_neg (Ne.symm hone.1)]
      exact ih hline hone.2 hend

end Lines

/-- What the room and the rest of the stream depend on: the fields from the current one on and
the bytes used. -/
def track (b : ℕ) : List Bool → ℕ → List UInt8 → Option (List UInt8)
  | _, _, [] => some []
  | kinds, n, c :: fp =>
    if Dropped c fp then track b kinds n fp
    else if c = COLON then
      if kinds.headD false = true ∧ b ≤ n then none
      else if kinds.tail = [] then some fp
      else track b kinds.tail (if kinds.headD false = true then n + 1 else n) fp
    else if c = NEWLINE then some fp
    else track b kinds (if kinds.headD false = true ∧ n < b then n + 1 else n) fp

def kindsFrom : ParseState → List Bool
  | .name => [true, true, false, false, true, true, true]
  | .password => [true, false, false, true, true, true]
  | .age => [true, false, false, true, true, true]
  | .uid => [false, false, true, true, true]
  | .gid => [false, true, true, true]
  | .gecos => [true, true, true]
  | .home => [true, true]
  | .shell => [true]
  | .finished => []

section Track

variable {b n : ℕ} {c : UInt8} {fp w : List UInt8} {k : Bool} {kinds : List Bool} {st st' : St}

theorem bare_not_dropped (hw : Bare (c :: w)) (fp : List UInt8) :
    ¬ Dropped c (w ++ COLON :: fp) := by
  rintro ⟨-, hhead⟩
  cases w with
  | nil => cases hhead
  | cons d w =>
    have hd := (hw d (List.mem_cons_of_mem _ List.mem_cons_self)).2
    exact hd (Option.some.inj hhead)

theorem track_field (hw : Bare w) (hn : n ≤ b) (fp : List UInt8) :
    track b (k :: kinds) n (w ++ COLON :: fp) =
      if k = true ∧ b ≤ n + w.length then none
      else if kinds = [] then some fp
      else track b kinds (if k = true then n + w.length + 1 else n) fp := by
  induction w generalizing n with
  | nil =>
    have hdrop : ¬ Dropped COLON fp := fun h => absurd h.1 (by decide)
    rw [List.nil_append, track, if_neg hdrop, if_pos rfl]
    rfl
  | cons c w ih =>
    have hdrop := bare_not_dropped hw fp
    obtain ⟨⟨hcolon, hnewline⟩, hw⟩ := hw.of_cons
    rw [List.cons_append, track, if_neg hdrop, if_neg hcolon, if_neg hnewline, List.headD_cons,
      List.length_cons]
    cases k with
    | false =>
      rw [if_neg (fun h => absurd h.1 (by decide)), ih hw hn]
      rfl
    | true =>
      by_cases hroom : n < b
      · have hlen : n + 1 + w.length = n + (w.length + 1) := by omega
        rw [if_pos ⟨rfl, hroom⟩, ih hw hroom, hlen]
        rfl
      · rw [if_neg fun h => hroom h.2, ih hw hn, if_pos ⟨rfl, by omega⟩, if_pos ⟨rfl, by omega⟩]

theorem track_last (hfields : fieldsOf fp = []) : track b kinds n fp = some (afterLine fp) := by
  induction fp generalizing n with
  | nil => rfl
  | cons c fp ih =>
    rw [fieldsOf] at hfields
    rw [track, afterLine]
    by_cases hnewline : c = NEWLINE
    · have hdrop : ¬ Dropped c fp := fun h => absurd (hnewline ▸ h.1) (by decide)
      have hcolon : ¬ c = COLON := by
        rw [hnewline]
        decide
      rw [if_neg hdrop, if_neg hcolon, if_pos hnewline, if_pos hnewline]
    rw [if_neg hnewline] at hfields
    by_cases hcolon : c = COLON
    · rw [if_pos hcolon] at hfields
      cases hfields
    rw [if_neg hcolon] at hfields
    have hrest : fieldsOf fp = [] := by
      cases hrest : fieldsOf fp with
      | nil => rfl
      | cons w ws =>
        rw [hrest] at hfields
        cases hfields
    rw [if_neg hnewline, if_neg hcolon, if_neg hnewline, ih hrest, ih hrest, ite_self]

/-- The line is taken as a whole if and only if the fields that end have room and the last of
`kinds` is not one of them, or ends the stream. -/
theorem track_iff (hkinds : kinds ≠ []) (hn : n ≤ b) (fp : List UInt8) :
    track b kinds n fp = some (afterLine fp) ↔ n + needed kinds (fieldsOf fp) ≤ b ∧
      ((fieldsOf fp).length < kinds.length ∨
        ((fieldsOf fp).length = kinds.length ∧ fp.getLast? = some COLON ∧ NEWLINE ∉ fp)) := by
  -- one field for each kind; `n` is what has been written of the buffer
  induction kinds generalizing n fp with
  | nil => exact absurd rfl hkinds
  | cons k kinds ih =>
    cases hfields : fieldsOf fp with
    | nil =>
      refine iff_of_true (track_last hfields) ⟨?_, Or.inl (Nat.succ_pos _)⟩
      exact hn
    | cons w ws =>
      obtain ⟨fp', rfl, hw, hws⟩ := fieldsOf_cons hfields
      have hafter : afterLine (w ++ COLON :: fp') = afterLine fp' := by
        rw [afterLine_append hw, afterLine_colon]
      have hlast : (w ++ COLON :: fp').getLast? = some ((COLON :: fp').getLast (by simp)) := by
        rw [List.getLast?_append, List.getLast?_eq_some_getLast (by simp)]
        rfl
      have hmem : NEWLINE ∉ w ++ COLON :: fp' ↔ NEWLINE ∉ fp' := by
        have hnw : NEWLINE ∉ w := fun h => (hw _ h).2 rfl
        have hnc : NEWLINE ≠ COLON := by decide
        rw [List.mem_append, List.mem_cons, or_iff_right hnw, or_iff_right hnc]
      rw [track_field hw hn, hafter, needed]
      -- the NUL of the field has no room
      by_cases hroom : k = true ∧ b ≤ n + w.length
      · rw [if_pos hroom, if_pos hroom.1]
        refine iff_of_false (Option.some_ne_none _).symm fun h => ?_
        omega
      rw [if_neg hroom]
      have hused : (if k = true then n + w.length + 1 else n) ≤ b := by
        by_cases hk : k = true
        · rw [if_pos hk]
          have : ¬ b ≤ n + w.length := fun h => hroom ⟨hk, h⟩
          omega
        · rw [if_neg hk]
          exact hn
      have hsum : n + ((if k = true then w.length + 1 else 0) + needed kinds ws) =
          (if k = true then n + w.length + 1 else n) + needed kinds ws := by
        split_ifs <;> omega
      rw [hsum, List.length_cons, List.length_cons, ← hws]
      cases kinds with
      | nil =>
        rw [if_pos rfl, Option.some.injEq, eq_comm, afterLine_eq_self]
        have hzero : needed [] (fieldsOf fp') = 0 := rfl
        rw [hzero, Nat.add_zero, List.length_nil, hmem]
        constructor
        · rintro rfl
          refine ⟨hused, Or.inr ⟨rfl, ?_, List.not_mem_nil⟩⟩
          rw [List.getLast?_append]
          rfl
        · rintro ⟨-, hlen⟩
          obtain ⟨hlen, hend, hnone⟩ := hlen.resolve_left (by omega)
          obtain ⟨u, hu, hfp⟩ :=
            fieldsOf_nil (List.eq_nil_of_length_eq_zero (Nat.succ.inj hlen))
          rcases hfp with rfl | hfp
          · cases fp' with
            | nil => rfl
            | cons d u =>
              rw [hlast, Option.some.injEq, List.getLast_cons (by simp)] at hend
              exact absurd hend (hu _ (List.getLast_mem _)).1
          · rw [hfp] at hnone
            exact absurd (List.mem_append_right _ List.mem_cons_self) hnone
      | cons k' kinds =>
        rw [if_neg (List.cons_ne_nil _ _), ih (List.cons_ne_nil _ _) hused, Nat.succ_lt_succ_iff,
          Nat.succ_inj, hmem]
        refine and_congr_right fun _ => or_congr_right (and_congr_right fun hlen => ?_)
        refine and_congr_left fun _ => ?_
        have hne : fp' ≠ [] := by
          rintro rfl
          rw [List.length_cons] at hlen
          exact absurd hlen.symm (Nat.succ_ne_zero _)
        rw [hlast, List.getLast_cons hne, List.getLast?_eq_some_getLast hne]

end Track

/-- The machine between two characters, with a buffer of `b` bytes. -/
structure Ready (b : ℕ) (st : St) : Prop where
  running : st.state ≠ .finished
  set : ∀ f, st.ptr f ≠ .null
  full : st.written.length ≤ b
  begun : st.state = .name ∨ st.written ≠ []

section Machine

variable {b : ℕ} {c : UInt8} {fp line rest rest' : List UInt8} {st st' : St} {buffer : Option ℕ}

theorem Ready.open_iff (h : Ready b st) : st.open ↔ (kindsFrom st.state).headD false = true := by
  have hset := h.set st.state
  have hrun := h.running
  unfold St.open
  cases hs : st.state with
  | finished => exact absurd hs hrun
  | uid | gid => exact iff_of_false (fun hopen => absurd hopen.1 (by decide)) (by decide)
  | _ => exact iff_of_true ⟨rfl, hs ▸ hset⟩ rfl

theorem enter_set (h : ∀ f, st.ptr f ≠ .null) (state f : ParseState) :
    (St.enter b st state).ptr f ≠ .null := by
  show (if _ then Function.update st.ptr state _ else st.ptr) f ≠ _
  split_ifs
  · by_cases hf : f = state
    · rw [hf, Function.update_self]
      exact Ptr.noConfusion
    · rw [Function.update_of_ne hf]
      exact h f
  · exact h f

theorem start_ready (b : ℕ) : Ready b (start (.buffer 0)) := by
  refine ⟨ParseState.noConfusion, fun f => ?_, Nat.zero_le _, Or.inl rfl⟩
  show Function.update (fun _ => Ptr.space) ParseState.name (.buffer 0) f ≠ .null
  by_cases hf : f = .name
  · rw [hf, Function.update_self]
    exact Ptr.noConfusion
  · rw [Function.update_of_ne hf]
    exact Ptr.noConfusion

/-- The state behind a `':'`. -/
def afterColon (state : ParseState) : ParseState :=
  if state.next = .age then .uid else state.next

theorem kindsFrom_afterColon {state : ParseState} (h : state ≠ .finished) :
    kindsFrom (afterColon state) = (kindsFrom state).tail := by
  cases state with
  | finished => exact absurd rfl h
  | _ => rfl

theorem kindsFrom_eq_nil {state : ParseState} : kindsFrom state = [] ↔ state = .finished := by
  cases state <;> decide

theorem colon_step (h : Ready b st) :
    ((kindsFrom st.state).headD false = true ∧ b ≤ st.written.length → colon b st = none) ∧
    (¬ ((kindsFrom st.state).headD false = true ∧ b ≤ st.written.length) →
      ∃ st', colon b st = some st' ∧ kindsFrom st'.state = (kindsFrom st.state).tail ∧
        st'.written.length = (if (kindsFrom st.state).headD false = true then
          st.written.length + 1 else st.written.length) ∧
        (st'.state ≠ .finished → Ready b st')) := by
  have hnext := kindsFrom_afterColon h.running
  by_cases hopen : st.open
  · have hhead := h.open_iff.mp hopen
    refine ⟨fun hfull => ?_, fun hroom => ?_⟩
    · have hstore : st.store b 0 = none := if_neg (by omega)
      simp only [colon, if_pos hopen, hstore, Option.bind_eq_bind, Option.bind_none]
    · have hlt : st.written.length < b := by
        have : ¬ b ≤ st.written.length := fun hb => hroom ⟨hhead, hb⟩
        omega
      refine ⟨{ St.enter b { st with written := st.written ++ [0] } (afterColon st.state) with
        numerical_error := false }, ?_, hnext, ?_, fun hne => ⟨hne, ?_, ?_, Or.inr ?_⟩⟩
      · simp only [colon, if_pos hopen, store_eq hlt, Option.bind_eq_bind, Option.bind_some,
          afterColon]
      · rw [if_pos hhead]
        exact List.length_append
      · have hset : ∀ f, (St.ptr { st with written := st.written ++ [0] }) f ≠ .null := h.set
        exact fun f => enter_set hset _ f
      · show (st.written ++ [0]).length ≤ b
        rw [List.length_append]
        exact hlt
      · exact List.append_ne_nil_of_right_ne_nil _ (List.cons_ne_nil _ _)
  · have hhead := mt h.open_iff.mpr hopen
    refine ⟨fun hfull => absurd hfull.1 hhead, fun _ => ?_⟩
    refine ⟨{ St.enter b st (afterColon st.state) with numerical_error := false }, ?_, hnext, ?_,
      fun hne => ⟨hne, fun f => enter_set h.set _ f, h.full, Or.inr ?_⟩⟩
    · simp only [colon, if_neg hopen, Option.bind_eq_bind, Option.bind_some, afterColon]
    · rw [if_neg hhead]
      rfl
    · refine h.begun.resolve_left fun hs => hhead ?_
      rw [hs]
      rfl

theorem other_step (h : Ready b st) (c : UInt8) :
    ∃ st', other b st c = some st' ∧ kindsFrom st'.state = kindsFrom st.state ∧
      st'.written.length = (if (kindsFrom st.state).headD false = true ∧ st.written.length < b then
        st.written.length + 1 else st.written.length) ∧ Ready b st' := by
  -- the store, and what does not depend on the state
  obtain ⟨st₁, hstore, hstate, hptr, hlen, hready⟩ : ∃ st₁,
      (if st.written.length < b ∧ st.open then st.store b c else some st) = some st₁ ∧
        st₁.state = st.state ∧ st₁.ptr = st.ptr ∧
        st₁.written.length = (if (kindsFrom st.state).headD false = true ∧ st.written.length < b
          then st.written.length + 1 else st.written.length) ∧ Ready b st₁ := by
    by_cases hroom : st.written.length < b ∧ st.open
    · refine ⟨{ st with written := st.written ++ [c] }, ?_, rfl, rfl, ?_, h.running, h.set, ?_,
        Or.inr ?_⟩
      · rw [if_pos hroom, store_eq hroom.1]
      · rw [if_pos ⟨h.open_iff.mp hroom.2, hroom.1⟩]
        exact List.length_append
      · show (st.written ++ [c]).length ≤ b
        rw [List.length_append]
        exact hroom.1
      · exact List.append_ne_nil_of_right_ne_nil _ (List.cons_ne_nil _ _)
    · refine ⟨st, if_neg hroom, rfl, rfl, ?_, h⟩
      rw [if_neg fun hno => hroom ⟨hno.2, h.open_iff.mpr hno.1⟩]
  rw [← hlen, ← hstate, other_eq, hstore, Option.bind_some, consume]
  cases hs : st₁.state with
  | uid | gid =>
    have hne : st₁.written ≠ [] := hready.begun.resolve_left (by rw [hs]; decide)
    exact ⟨_, rfl, rfl, rfl, ParseState.noConfusion, hready.set, hready.full, Or.inr hne⟩
  | password =>
    simp only
    by_cases hc : c = COMMA
    · have hopen : st₁.open := hready.open_iff.mpr (by rw [hs]; rfl)
      have hne : st₁.written ≠ [] := hready.begun.resolve_left (by rw [hs]; decide)
      have hkeep : (st₁.written.dropLast ++ [0]).length = st₁.written.length := by
        have := List.length_pos_iff.mpr hne
        rw [List.length_append, List.length_dropLast, List.length_singleton]
        omega
      rw [if_pos hc, if_pos hopen, if_neg hne]
      refine ⟨_, rfl, rfl, hkeep, ParseState.noConfusion, fun f => ?_, ?_, Or.inr ?_⟩
      · have hset : ∀ f, (St.ptr { st₁ with written := st₁.written.dropLast ++ [0] }) f ≠ .null :=
          hready.set
        exact enter_set hset _ f
      · exact hkeep.le.trans hready.full
      · exact List.append_ne_nil_of_right_ne_nil _ (List.cons_ne_nil _ _)
    · rw [if_neg hc]
      exact ⟨st₁, rfl, congrArg kindsFrom hs, rfl, hready⟩
  | _ => exact ⟨st₁, rfl, congrArg kindsFrom hs, rfl, hready⟩

theorem endOfLine_step (b : ℕ) (st : St) :
    ∃ st', endOfLine b st = some st' ∧ st'.state = .finished := by
  unfold endOfLine
  by_cases hroom : st.written.length < b ∧ st.open
  · rw [if_pos hroom, store_eq hroom.1]
    exact ⟨_, rfl, rfl⟩
  · rw [if_neg hroom]
    split_ifs
    · exact ⟨_, rfl, rfl⟩
    · exact ⟨_, rfl, rfl⟩

theorem run_track (h : Ready b st) (fp : List UInt8) :
    (run b st fp).map Prod.snd = track b (kindsFrom st.state) st.written.length fp := by
  induction fp generalizing st with
  | nil =>
    obtain ⟨st', hend, -⟩ := endOfLine_step b st
    rw [run, hend]
    rfl
  | cons c fp ih =>
    rw [run, track]
    by_cases hdrop : Dropped c fp
    · rw [if_pos hdrop, if_pos hdrop, ih h]
    rw [if_neg hdrop, if_neg hdrop]
    by_cases hcolon : c = COLON
    · rw [if_pos hcolon, if_pos hcolon]
      by_cases hfull : (kindsFrom st.state).headD false = true ∧ b ≤ st.written.length
      · rw [(colon_step h).1 hfull, if_pos hfull]
        rfl
      · obtain ⟨st', hstep, hkinds, hlen, hready⟩ := (colon_step h).2 hfull
        rw [hstep, if_neg hfull, ← hkinds, ← hlen]
        simp only [Option.bind_eq_bind, Option.bind_some]
        by_cases hfin : st'.state = .finished
        · rw [if_pos hfin, if_pos (kindsFrom_eq_nil.mpr hfin)]
          rfl
        · rw [if_neg hfin, if_neg (mt kindsFrom_eq_nil.mp hfin), ih (hready hfin)]
    rw [if_neg hcolon, if_neg hcolon]
    by_cases hnewline : c = NEWLINE
    · obtain ⟨st', hend, hfin⟩ := endOfLine_step b st
      rw [if_pos hnewline, if_pos hnewline, hend]
      simp only [Option.bind_eq_bind, Option.bind_some, if_pos hfin, Option.map_some]
    · obtain ⟨st', hstep, hkinds, hlen, hready⟩ := other_step h c
      rw [if_neg hnewline, if_neg hnewline, hstep, ← hlen, ← hkinds, ← ih hready]
      simp only [Option.bind_eq_bind, Option.bind_some, if_neg hready.running]

theorem endOfLine_rest (b : ℕ) (st : St) (fp : List UInt8) :
    ∃ st', run b st (NEWLINE :: fp) = some (st', fp) := by
  obtain ⟨st', hend, hfin⟩ := endOfLine_step b st
  exact ⟨st', run_newline hend hfin⟩

theorem run_cons (hdrop : ¬ Dropped c fp) (b : ℕ) (st : St) : run b st (c :: fp) =
    (if c = COLON then colon b st else if c = NEWLINE then endOfLine b st else other b st c).bind
      fun st => if st.state = .finished then some (st, fp) else run b st fp := by
  rw [run, if_neg hdrop]
  split_ifs
  · rfl
  · rfl
  · rfl

theorem run_line (b : ℕ) (st : St) (body rest : List UInt8) :
    run b st (body ++ NEWLINE :: rest) =
      (run b st (body ++ [NEWLINE])).map fun r => (r.1, r.2 ++ rest) := by
  induction body generalizing st with
  | nil =>
    obtain ⟨st', hend, hfin⟩ := endOfLine_step b st
    rw [List.nil_append, List.nil_append, run_newline hend hfin, run_newline hend hfin]
    rfl
  | cons c body ih =>
    have hdrop : Dropped c (body ++ NEWLINE :: rest) ↔ Dropped c (body ++ [NEWLINE]) := by
      unfold Dropped
      cases body <;> exact Iff.rfl
    rw [List.cons_append, List.cons_append]
    by_cases hd : Dropped c (body ++ [NEWLINE])
    · rw [run, run, if_pos (hdrop.mpr hd), if_pos hd, ih]
    rw [run_cons (mt hdrop.mp hd), run_cons hd, Option.map_bind]
    refine congrArg _ (funext fun st' => ?_)
    by_cases hfin : st'.state = .finished
    · simp only [Function.comp_apply, if_pos hfin, Option.map_some, List.append_assoc,
        List.singleton_append]
    · simp only [Function.comp_apply, if_neg hfin, ih]

def machine (buffer : Option ℕ) (l : List UInt8) : Option (St × List UInt8) :=
  match buffer with
  | none => run 0 (start .null) l
  | some b => run b (start (.buffer 0)) l

theorem machine_line (buffer : Option ℕ) (body rest : List UInt8) :
    machine buffer (body ++ NEWLINE :: rest) =
      (machine buffer (body ++ [NEWLINE])).map fun r => (r.1, r.2 ++ rest) := by
  cases buffer with
  | none => exact run_line _ _ _ _
  | some b => exact run_line _ _ _ _

theorem fgetpwent_r_entry {l : List UInt8} (hskip : skip false fp = some l) :
    fgetpwentR (some fp) buffer = (machine buffer l).map fun r => (.entry r.1.passwd, r.2) := by
  cases buffer with
  | none =>
    simp only [fgetpwentR, hskip, machine, Option.bind_eq_bind, Option.map_eq_bind]
    rfl
  | some b =>
    simp only [fgetpwentR, hskip, machine, Option.bind_eq_bind, Option.map_eq_bind]
    rfl

theorem skip_first {comment : Bool} {l : List UInt8} (h : skip comment fp = some l) :
    ∃ c l', l = c :: l' ∧ ¬ IsBlank c ∧ c ≠ HASH := by
  induction fp generalizing comment with
  | nil => cases h
  | cons c fp ih =>
    rw [skip] at h
    split_ifs at h with hdrop hcomment hblank hhash
    · exact ih h
    · exact ih h
    · exact ih h
    · exact ih h
    · exact ⟨c, fp, (Option.some.inj h).symm, hblank, hhash⟩

theorem skip_again {comment : Bool} (h : skip comment fp = some (line ++ rest))
    (hline : line ≠ []) (l : List UInt8) : skip false (line ++ l) = some (line ++ l) := by
  obtain ⟨c, l', hl, hblank, hhash⟩ := skip_first h
  obtain ⟨d, line, rfl⟩ := List.exists_cons_of_ne_nil hline
  rw [List.cons_append] at hl ⊢
  rw [(List.cons.inj hl).1]
  exact skip_entry hblank hhash

/-- The call stores inside of the buffer, and gives an entry for one line, which it takes and on
which alone the entry depends, or the end of the file. -/
def ReadsOneLine (buffer : Option ℕ) (fp : List UInt8) : Prop :=
  (skip false fp = none ∧ fgetpwentR (some fp) buffer = some (.eof, [])) ∨
  ∃ line rest pw, skip false fp = some (line ++ rest) ∧ IsLine line rest ∧
    fgetpwentR (some fp) buffer = some (.entry pw, rest) ∧
    ∀ rest', IsLine line rest' →
      fgetpwentR (some (line ++ rest')) buffer = some (.entry pw, rest')

theorem reads_iff_machine : ReadsOneLine buffer fp ↔
    ∀ l, skip false fp = some l → (machine buffer l).map Prod.snd = some (afterLine l) := by
  constructor
  · rintro (⟨hskip, -⟩ | ⟨line, rest, pw, hskip, hline, hread, -⟩) l hl
    · rw [hskip] at hl
      cases hl
    · rw [hskip] at hl
      obtain rfl := Option.some.inj hl
      rw [fgetpwent_r_entry hskip, Option.map_eq_some_iff] at hread
      obtain ⟨r, hrun, hpair⟩ := hread
      rw [hrun, hline.afterLine, ← (Prod.mk.inj hpair).2]
      rfl
  · intro hall
    cases hskip : skip false fp with
    | none =>
      refine Or.inl ⟨hskip, ?_⟩
      simp only [fgetpwentR, hskip]
    | some l =>
      obtain ⟨⟨st, rest⟩, hrun, hrest⟩ := Option.map_eq_some_iff.mp (hall l hskip)
      obtain ⟨c, l', rfl, -⟩ := skip_first hskip
      obtain ⟨line, hsplit, hline⟩ := exists_line (List.cons_ne_nil c l')
      obtain rfl : rest = afterLine (c :: l') := hrest
      generalize afterLine (c :: l') = rest at *
      rw [hsplit] at hskip hrun
      refine Or.inr ⟨line, rest, st.passwd, hskip, hline, ?_, fun rest' hline' => ?_⟩
      · rw [fgetpwent_r_entry hskip, hrun]
        rfl
      · rw [fgetpwent_r_entry (skip_again hskip hline.nonempty rest')]
        by_cases hend : line.getLast? = some NEWLINE
        · obtain ⟨body, rfl⟩ : ∃ body, line = body ++ [NEWLINE] := by
            refine ⟨line.dropLast, ?_⟩
            rw [List.getLast?_eq_some_getLast hline.nonempty] at hend
            rw [← Option.some.inj hend, List.dropLast_append_getLast]
          rw [List.append_assoc, List.singleton_append, machine_line] at hrun ⊢
          obtain ⟨r, hr, hpair⟩ := Option.map_eq_some_iff.mp hrun
          have hnil : r.2 = [] := List.append_left_eq_self.mp (Prod.mk.inj hpair).2
          rw [hr, Option.map_some, Option.map_some, hnil, ← (Prod.mk.inj hpair).1]
          rfl
        · rw [hline.terminated.resolve_left hend] at hrun
          rw [hline'.terminated.resolve_left hend, hrun]
          rfl

def unnamed : St := { start .null with state := .password }

theorem run_unnamed_iff (fp : List UInt8) :
    (run 0 unnamed fp).map Prod.snd = some (afterLine fp) ↔
      ∀ c ∈ fp.takeWhile (· ≠ NEWLINE), c ≠ COLON ∧ c ≠ COMMA := by
  induction fp with
  | nil => exact iff_of_true rfl fun c hc => absurd hc List.not_mem_nil
  | cons c fp ih =>
    by_cases hnewline : c = NEWLINE
    · obtain ⟨st', hrun⟩ := endOfLine_rest 0 unnamed fp
      rw [hnewline, hrun, afterLine, if_pos rfl, List.takeWhile_cons_of_neg (by decide)]
      exact iff_of_true rfl fun c hc => absurd hc List.not_mem_nil
    rw [List.takeWhile_cons_of_pos (by simpa using hnewline), List.forall_mem_cons, afterLine,
      if_neg hnewline, ← ih, run]
    by_cases hdrop : Dropped c fp
    · rw [if_pos hdrop, hdrop.1, and_iff_right (by decide)]
    rw [if_neg hdrop]
    by_cases hcolon : c = COLON
    · rw [if_pos hcolon]
      exact iff_of_false (Option.some_ne_none _).symm fun h => h.1.1 hcolon
    rw [if_neg hcolon, if_neg hnewline]
    by_cases hcomma : c = COMMA
    · rw [hcomma]
      exact iff_of_false (Option.some_ne_none _).symm fun h => h.1.2 rfl
    · have hstep : other 0 unnamed c = some unnamed := by
        rw [other_eq, if_neg (fun h => absurd h.1 (Nat.not_lt_zero _))]
        exact if_neg hcomma
      rw [hstep, and_iff_right ⟨hcolon, hcomma⟩]
      rfl

theorem run_null_bare {w : List UInt8} (hw : Bare w) (fp : List UInt8) :
    run 0 (start .null) (w ++ fp) = run 0 (start .null) fp := by
  induction w with
  | nil => rfl
  | cons c w ih =>
    obtain ⟨⟨hcolon, hnewline⟩, hw⟩ := hw.of_cons
    have hstep : other 0 (start .null) c = some (start .null) := by
      rw [other_eq, if_neg (fun h => absurd h.1 (Nat.not_lt_zero _))]
      rfl
    rw [List.cons_append]
    by_cases hdrop : Dropped c (w ++ fp)
    · rw [run, if_pos hdrop, ih hw]
    · rw [run_cons hdrop, if_neg hcolon, if_neg hnewline, hstep]
      exact ih hw

/-- Without a buffer there must be neither a `':'` nor a `','` behind the first `':'`. -/
theorem machine_null_iff (l : List UInt8) :
    (machine none l).map Prod.snd = some (afterLine l) ↔
      ∀ c ∈ ((l.takeWhile (· ≠ NEWLINE)).dropWhile (· ≠ COLON)).tail, c ≠ COLON ∧ c ≠ COMMA := by
  have htake : ∀ {w : List UInt8} (l : List UInt8), Bare w →
      (w ++ l).takeWhile (· ≠ NEWLINE) = w ++ l.takeWhile (· ≠ NEWLINE) := fun l hw =>
    List.takeWhile_append_of_pos fun c hc => by simpa using (hw c hc).2
  have hdropWhile : ∀ {w : List UInt8} (l : List UInt8), Bare w →
      (w ++ l).dropWhile (· ≠ COLON) = l.dropWhile (· ≠ COLON) := fun l hw =>
    List.dropWhile_append_of_pos fun c hc => by simpa using (hw c hc).1
  cases hfields : fieldsOf l with
  | nil =>
    obtain ⟨w, hw, hl⟩ := fieldsOf_nil hfields
    have hempty : (l.takeWhile (· ≠ NEWLINE)).dropWhile (· ≠ COLON) = [] := by
      rcases hl with rfl | hl
      · have := htake [] hw
        rw [List.append_nil] at this
        rw [this, hdropWhile _ hw]
        rfl
      · rw [hl, htake _ hw, hdropWhile _ hw]
        rfl
    rw [hempty]
    refine iff_of_true ?_ fun c hc => absurd hc List.not_mem_nil
    rcases hl with rfl | hl
    · have hrun := run_null_bare hw []
      rw [List.append_nil] at hrun
      have hafter := afterLine_append hw []
      rw [List.append_nil] at hafter
      rw [machine, hrun, hafter]
      rfl
    · obtain ⟨st', hrun⟩ := endOfLine_rest 0 (start .null) (afterLine l)
      have hmachine : machine none l = some (st', afterLine l) := by
        conv_lhs => rw [hl]
        rw [machine, run_null_bare hw, hrun]
      rw [hmachine]
      rfl
  | cons w ws =>
    obtain ⟨fp', rfl, hw, -⟩ := fieldsOf_cons hfields
    have hcolon : colon 0 (start .null) = some unnamed := rfl
    rw [machine, run_null_bare hw, run_colon hcolon (by decide), afterLine_append hw,
      afterLine_colon, htake _ hw, hdropWhile _ hw, run_unnamed_iff]
    rfl

end Machine

/-- The strings that a `':'` ends fit, and the seventh `':'`, if there is one, ends the file. -/
def Fits (buffer : Option ℕ) (l : List UInt8) : Prop :=
  match buffer with
  | none =>
    ∀ c ∈ ((l.takeWhile (· ≠ NEWLINE)).dropWhile (· ≠ COLON)).tail, c ≠ COLON ∧ c ≠ COMMA
  | some b => needed allKinds (fieldsOf l) ≤ b ∧ ((fieldsOf l).length < 7 ∨
      ((fieldsOf l).length = 7 ∧ l.getLast? = some COLON ∧ NEWLINE ∉ l))

/-- A call reads one line if and only if the entry that it comes to fits. -/
theorem reads_one_line_iff (buffer : Option ℕ) (fp : List UInt8) :
    ReadsOneLine buffer fp ↔ ∀ l, skip false fp = some l → Fits buffer l := by
  rw [reads_iff_machine]
  refine forall_congr' fun l => imp_congr_right fun _ => ?_
  cases buffer with
  | none => exact machine_null_iff l
  | some b =>
    have hrun := run_track (start_ready b) l
    have hkinds : allKinds ≠ [] := List.cons_ne_nil _ _
    have hiff := track_iff hkinds (Nat.zero_le b) l
    rw [Nat.zero_add] at hiff
    rw [machine, hrun]
    exact hiff

/-- The NUL behind the name is stored outside of a buffer of two bytes. -/
theorem name_overruns : ¬ ReadsOneLine (some 2) [97, 98, 58, 120, 10] := by
  rintro (⟨hskip, -⟩ | ⟨line, rest, pw, -, -, hread, -⟩)
  · exact absurd hskip (by decide)
  · have hnone : fgetpwentR (some [97, 98, 58, 120, 10]) (some 2) = none := by decide +kernel
    rw [hnone] at hread
    cases hread

end Mintlib.PwdLines
