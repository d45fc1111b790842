import Mintlib.PwdLines

/-!
# Records of the password file: `fgetpwent_r.c` field by field

A record is what one call takes: the texts between the `':'`, of which there are seven at most.
With room for all of them the entry is made of these texts; without it a pointer is `NULL`.
-/

namespace Mintlib.PwdRecords

open Text Entry Pwd PwdLines

/-- The texts of a record, whether the seventh `':'` ended it, and what is behind it. -/
structure Record where
  first : Str
  more : List Str
  cut : Bool
  rest : List UInt8

def Record.texts (r : Record) : List Str := r.first :: r.more

/-- The texts of some fields that a `':'` ends. -/
def ended (cut : Bool) (ws : List Str) : List Str := if cut then ws else ws.dropLast

/-- The record at the beginning of a stream; behind `k` more `':'` the next one ends it. -/
def record : ℕ → List UInt8 → Record
  | _, [] => ⟨[], [], false, []⟩
  | k, c :: fp =>
    if Dropped c fp then record k fp
    else if c = COLON then
      match k with
      | 0 => ⟨[], [], true, fp⟩
      | k + 1 => { record k fp with first := [], more := (record k fp).texts }
    else if c = NEWLINE then ⟨[], [], false, fp⟩
    else { record k fp with first := c :: (record k fp).first }

def beforeComma (w : Str) : Str := w.takeWhile (· ≠ COMMA)

def afterComma (w : Str) : Str := (w.dropWhile (· ≠ COMMA)).tail

/-- The text of a string field within the text between two `':'`. -/
def value (f : ParseState) (w : Str) : Str :=
  match f with
  | .password => beforeComma w
  | .age => afterComma w
  | _ => w

def index : ParseState → ℕ
  | .name => 0
  | .password | .age => 1
  | .uid => 2
  | .gid => 3
  | .gecos => 4
  | .home => 5
  | .shell => 6
  | .finished => 7

def idOf (w : Str) : ℕ := (readId (0, false) w).1

def entryOf (ws : List Str) : Passwd :=
  let str := fun f => some (cstr (value f (ws.getD (index f) [])))
  { pw_name := str .name
    pw_passwd := str .password
    pw_uid := idOf (ws.getD 2 [])
    pw_gid := idOf (ws.getD 3 [])
    pw_age := str .age
    pw_comment := str .gecos
    pw_gecos := str .gecos
    pw_dir := str .home
    pw_shell := str .shell }

section Process

variable (b : ℕ)

def process (cut : Bool) : Str → List Str → St → Option St
  | w, [], st => (feed b st w).bind (if cut then colon b else endOfLine b)
  | w, w' :: ws, st => ((feed b st w).bind (colon b)).bind (process cut w' ws)

variable {b} {c : UInt8} {w : Str} {ws : List Str} {cut : Bool} {st st' : St} {f : ParseState}

theorem process_cons (c : UInt8) (w : Str) (ws : List Str) :
    process b cut (c :: w) ws st = (other b st c).bind (process b cut w ws) := by
  have hfeed : feed b st (c :: w) = (other b st c).bind fun st => feed b st w := rfl
  cases ws with
  | nil =>
    rw [process, hfeed, Option.bind_assoc]
    rfl
  | cons w' ws =>
    rw [process, hfeed, Option.bind_assoc, Option.bind_assoc]
    refine congrArg _ (funext fun st => ?_)
    rw [process, Option.bind_assoc]

theorem run_record {k : ℕ} (h : Ready b st) (hk : (kindsFrom st.state).length = k + 1)
    (l : List UInt8) : run b st l = (process b (record k l).cut (record k l).first
      (record k l).more st).map fun st => (st, (record k l).rest) := by
  -- character by character, along the four cases of `record`
  induction l generalizing st k with
  | nil => rfl
  | cons c fp ih =>
    unfold record
    by_cases hdrop : Dropped c fp
    · rw [if_pos hdrop, run, if_pos hdrop, ih h hk]
    rw [if_neg hdrop, run_cons hdrop]
    by_cases hcolon : c = COLON
    · rw [if_pos hcolon, if_pos hcolon]
      by_cases hfull : (kindsFrom st.state).headD false = true ∧ b ≤ st.written.length
      · have hnone := (colon_step h).1 hfull
        cases k with
        | zero =>
          show _ = (colon b st).map _
          rw [hnone]
          rfl
        | succ k =>
          show _ = ((colon b st).bind _).map _
          rw [hnone]
          rfl
      · obtain ⟨st', hstep, hkinds, -, hready⟩ := (colon_step h).2 hfull
        have hlen : (kindsFrom st'.state).length = k := by
          rw [hkinds, List.length_tail, hk, Nat.add_sub_cancel]
        rw [hstep, Option.bind_some]
        cases k with
        | zero =>
          have hfin : st'.state = .finished :=
            kindsFrom_eq_nil.mp (List.eq_nil_of_length_eq_zero hlen)
          rw [if_pos hfin]
          show _ = (colon b st).map _
          rw [hstep]
          rfl
        | succ k =>
          have hfin : st'.state ≠ .finished := by
            intro hno
            rw [kindsFrom_eq_nil.mpr hno] at hlen
            exact absurd hlen (Nat.succ_ne_zero k).symm
          rw [if_neg hfin, ih (hready hfin) hlen]
          show _ = ((colon b st).bind _).map _
          rw [hstep]
          rfl
    rw [if_neg hcolon, if_neg hcolon]
    by_cases hnewline : c = NEWLINE
    · obtain ⟨st', hend, hfin⟩ := endOfLine_step b st
      rw [if_pos hnewline, if_pos hnewline, hend, Option.bind_some, if_pos hfin]
      show _ = (endOfLine b st).map _
      rw [hend]
      rfl
    · obtain ⟨st', hstep, hkinds, -, hready⟩ := other_step h c
      rw [if_neg hnewline, if_neg hnewline, hstep, Option.bind_some, if_neg hready.running,
        ih hready (by rw [hkinds, hk])]
      simp only [process_cons, hstep, Option.bind_some]

theorem feed_step (h : Ready b st) (w : Str) :
    ∃ st', feed b st w = some st' ∧ kindsFrom st'.state = kindsFrom st.state ∧ Ready b st' ∧
      st'.written.length = if (kindsFrom st.state).headD false = true then
        min b (st.written.length + w.length) else st.written.length := by
  induction w generalizing st with
  | nil =>
    refine ⟨st, rfl, rfl, h, ?_⟩
    rw [List.length_nil, Nat.add_zero, min_eq_right h.full, ite_self]
  | cons c w ih =>
    obtain ⟨st', hstep, hkinds, hlen, hready⟩ := other_step h c
    obtain ⟨st'', hfeed, hkinds', hready', hlen'⟩ := ih hready
    refine ⟨st'', ?_, hkinds'.trans hkinds, hready', ?_⟩
    · show (other b st c).bind _ = _
      rw [hstep]
      exact hfeed
    · have hfull := h.full
      rw [hlen', hkinds, hlen, List.length_cons]
      by_cases hstring : (kindsFrom st.state).headD false = true
      · rw [if_pos hstring, if_pos hstring]
        by_cases hroom : st.written.length < b
        · rw [if_pos ⟨hstring, hroom⟩]
          omega
        · rw [if_neg fun hno => hroom hno.2]
          omega
      · rw [if_neg hstring, if_neg hstring, if_neg fun hno => hstring hno.1]

theorem endOfLine_null (hstate : st.state.isField = true) (hfull : b ≤ st.written.length) :
    ∃ st', endOfLine b st = some st' ∧ st'.ptr st.state = .null := by
  refine ⟨{ st with state := .finished, ptr := Function.update st.ptr st.state .null }, ?_,
    Function.update_self _ _ _⟩
  rw [endOfLine, if_neg fun hno => absurd hno.1 (by omega), if_pos hstate]

theorem isField_of_head (h : (kindsFrom st.state).headD false = true) :
    st.state.isField = true := by
  cases hs : st.state with
  | uid | gid | finished =>
    rw [hs] at h
    cases h
  | _ => rfl

theorem process_room (cut : Bool) (h : Ready b st) (w : Str)
    (hlen : ws.length < (kindsFrom st.state).length) :
    (b < st.written.length + needed (kindsFrom st.state) (ended cut (w :: ws)) →
      process b cut w ws st = none) ∧
    (st.written.length + needed (kindsFrom st.state) (ended cut (w :: ws)) ≤ b →
      ∃ st', process b cut w ws st = some st' ∧
        (b < st.written.length + needed (kindsFrom st.state) (w :: ws) →
          ∃ f, f.isField = true ∧ st'.ptr f = .null)) := by
  -- the texts are fed one after the other; `Ready` is kept as long as the NULs have room
  induction ws generalizing w st with
  | nil =>
    obtain ⟨st₁, hfeed, hkinds, hready, hused⟩ := feed_step h w
    obtain ⟨stored, kinds, hcons⟩ : ∃ stored kinds, kindsFrom st.state = stored :: kinds :=
      List.exists_cons_of_ne_nil fun hno => h.running (kindsFrom_eq_nil.mp hno)
    have hfull := h.full
    rw [process, hfeed, Option.bind_some]
    rw [hcons] at hkinds hused ⊢
    rw [List.headD_cons] at hused
    cases cut with
    | true =>
      obtain ⟨hno, hgo⟩ := colon_step hready
      rw [hkinds, List.headD_cons, hused] at hno hgo
      have hend : ended true [w] = [w] := rfl
      rw [hend, needed]
      have hzero : needed kinds [] = 0 := by cases kinds <;> rfl
      rw [hzero]
      refine ⟨fun hroom => hno ?_, fun hroom => ?_⟩
      · cases stored with
        | false => exact absurd hroom (by rw [if_neg (by decide)]; omega)
        | true =>
          rw [if_pos rfl] at hroom ⊢
          exact ⟨rfl, by omega⟩
      · have hspace : ¬ (stored = true ∧ b ≤ if stored = true then
            min b (st.written.length + w.length) else st.written.length) := by
          rintro ⟨rfl, hle⟩
          rw [if_pos rfl] at hroom hle
          omega
        obtain ⟨st₂, hcolon, -⟩ := hgo hspace
        exact ⟨st₂, hcolon, fun hno => absurd hno (by omega)⟩
    | false =>
      have hend : ended false [w] = [] := rfl
      have hzero : needed (stored :: kinds) [] = 0 := rfl
      have hzero' : needed kinds [] = 0 := by cases kinds <;> rfl
      rw [hend, hzero, needed, hzero']
      refine ⟨fun hroom => absurd hroom (by omega), fun _ => ?_⟩
      by_cases hroom : b < st.written.length + ((if stored = true then w.length + 1 else 0) + 0)
      · cases stored with
        | false => exact absurd hroom (by rw [if_neg (by decide)]; omega)
        | true =>
          rw [if_pos rfl] at hroom hused
          have hfield : st₁.state.isField = true := isField_of_head (by rw [hkinds]; rfl)
          obtain ⟨st₂, heol, hnull⟩ := endOfLine_null (b := b) hfield (by omega)
          exact ⟨st₂, heol, fun _ => ⟨_, hfield, hnull⟩⟩
      · obtain ⟨st₂, heol, -⟩ := endOfLine_step b st₁
        exact ⟨st₂, heol, fun hno => absurd hno hroom⟩
  | cons w' ws ih =>
    obtain ⟨st₁, hfeed, hkinds, hready, hused⟩ := feed_step h w
    obtain ⟨stored, kinds, hcons⟩ : ∃ stored kinds, kindsFrom st.state = stored :: kinds :=
      List.exists_cons_of_ne_nil fun hno => h.running (kindsFrom_eq_nil.mp hno)
    have hfull := h.full
    obtain ⟨hno, hgo⟩ := colon_step hready
    have hend : ended cut (w :: w' :: ws) = w :: ended cut (w' :: ws) := by
      cases cut <;> rfl
    rw [process, hfeed, Option.bind_some, hend]
    rw [hcons] at hkinds hused hlen ⊢
    rw [hkinds, List.headD_cons] at hno hgo
    rw [List.headD_cons] at hused
    rw [needed, needed]
    -- a NUL that finds no room stops the run
    by_cases hspace : stored = true ∧ b ≤ st₁.written.length
    · obtain ⟨rfl, hle⟩ := hspace
      rw [if_pos rfl] at hused ⊢
      rw [hno ⟨rfl, hle⟩]
      exact ⟨fun _ => rfl, fun hroom => absurd hroom (by omega)⟩
    · obtain ⟨st₂, hcolon, hkinds₂, hused₂, hready₂⟩ := hgo hspace
      rw [List.tail_cons] at hkinds₂
      rw [List.length_cons, List.length_cons, Nat.succ_lt_succ_iff] at hlen
      have hfin : st₂.state ≠ .finished := by
        intro hno
        rw [← hkinds₂, hno] at hlen
        exact absurd hlen (Nat.not_lt_zero _)
      have hih := ih (hready₂ hfin) w' (by rwa [hkinds₂])
      have hsum : ∀ m, st.written.length + ((if stored = true then w.length + 1 else 0) + m) =
          st₂.written.length + m := by
        intro m
        rw [hused₂]
        cases stored with
        | false =>
          rw [if_neg (by decide)] at hused
          rw [if_neg (by decide), if_neg (by decide), hused, Nat.zero_add]
        | true =>
          have hlt : st₁.written.length < b := not_le.mp fun hle => hspace ⟨rfl, hle⟩
          have hlen₁ : st₁.written.length = st.written.length + w.length := by
            rw [if_pos rfl] at hused
            rw [hused] at hlt ⊢
            exact min_eq_right (by omega)
          rw [if_pos rfl, if_pos rfl, hlen₁, ← Nat.add_assoc, ← Nat.add_assoc]
      rw [hkinds₂] at hih
      rw [hsum, hsum, hcolon, Option.bind_some]
      exact hih

/-- A text is behind a string pointer: its NUL is in the buffer, or it is the empty string. -/
def Reads (st : St) (f : ParseState) (x : Str) : Prop :=
  st.ptr f = .space ∧ x = [] ∨ ∃ s, Stored st f s ∧ x = cstr s

theorem cstr_ended (s mem : Str) : cstr (s ++ 0 :: mem) = cstr s := by
  induction s with
  | nil => rfl
  | cons c s ih => rw [List.cons_append, cstr, cstr, ih]

theorem Reads.str {x : Str} (h : Reads st f x) : st.str f = some x := by
  unfold St.str
  rcases h with ⟨hptr, rfl⟩ | ⟨s, ⟨pre, post, hptr, hwritten⟩, rfl⟩
  · rw [hptr]
  · simp only [hptr, hwritten, List.drop_left, cstr_ended]

theorem Reads.mono {x : Str} (h : Reads st f x) (hptr : st'.ptr f = st.ptr f)
    (hwritten : st.written <+: st'.written) : Reads st' f x := by
  rcases h with ⟨hspace, hx⟩ | ⟨s, hstored, hx⟩
  · exact Or.inl ⟨hptr.trans hspace, hx⟩
  · exact Or.inr ⟨s, hstored.mono hptr hwritten, hx⟩

structure Begins (b : ℕ) (st : St) : Prop where
  state : st.state ≠ .age
  running : st.state ≠ .finished
  error : st.numerical_error = false
  here : st.state.isField = true → st.written.length < b →
    st.ptr st.state = .buffer st.written.length
  later : ∀ f, index st.state < index f ∨ st.state = .password ∧ f = .age → st.ptr f = .space
  uid : index st.state ≤ 2 → st.pw_uid = 0
  gid : index st.state ≤ 3 → st.pw_gid = 0

/-- What a text and the NUL behind it leave, of a machine that had room for them. -/
structure Closed (st : St) (w : Str) (st' : St) : Prop where
  written : st.written <+: st'.written
  length : st'.written.length =
    if st.state.isField = true then st.written.length + w.length + 1 else st.written.length
  ptr : ∀ f, index f ≠ index st.state → st'.ptr f = st.ptr f
  reads : ∀ f, f.isField = true → index f = index st.state → Reads st' f (cstr (value f w))
  uid : st'.pw_uid = if index st.state = 2 then idOf w else st.pw_uid
  gid : st'.pw_gid = if index st.state = 3 then idOf w else st.pw_gid

structure Ends (b : ℕ) (st st₁ st₂ : St) : Prop where
  colon : colon b st₁ = some { St.enter b st₂ (afterColon st.state) with numerical_error := false }
  endOfLine : endOfLine b st₁ = some { st₂ with state := .finished }

theorem ends_of_open {st₁ : St} (hopen : st₁.open) (hroom : st₁.written.length < b)
    (hnext : afterColon st₁.state = afterColon st.state) :
    Ends b st st₁ { st₁ with written := st₁.written ++ [0] } := by
  constructor
  · simp only [Pwd.colon, if_pos hopen, store_eq hroom, Option.bind_eq_bind, Option.bind_some]
    rw [← hnext]
    rfl
  · rw [Pwd.endOfLine, if_pos ⟨hroom, hopen⟩, store_eq hroom]
    rfl

theorem beforeComma_eq_self (h : COMMA ∉ w) : beforeComma w = w := by
  refine List.takeWhile_eq_self_iff.mpr fun c hc => ?_
  simp only [ne_eq, decide_not, Bool.not_eq_true', decide_eq_false_iff_not]
  rintro rfl
  exact h hc

theorem afterComma_eq_nil (h : COMMA ∉ w) : afterComma w = [] := by
  have hall : ∀ c ∈ w, decide (c ≠ COMMA) = true := by
    intro c hc
    simp only [ne_eq, decide_not, Bool.not_eq_true', decide_eq_false_iff_not]
    rintro rfl
    exact h hc
  rw [afterComma, List.dropWhile_eq_nil_iff.mpr hall, List.tail_nil]

theorem index_eq_cases {g : ParseState} (h : index f = index g) (hg : g ≠ .age) :
    f = g ∨ g = .password ∧ f = .age := by
  revert h hg
  cases f <;> cases g <;> decide

theorem index_of_isField {s : ParseState} (h : s.isField = true) : index s ≠ 2 ∧ index s ≠ 3 := by
  revert h
  cases s <;> decide

theorem closed_string (h : Begins b st) (hfield : st.state.isField = true)
    (hroom : st.written.length + w.length + 1 ≤ b) (hcomma : st.state = .password → COMMA ∉ w) :
    ∃ st₁ st₂, feed b st w = some st₁ ∧ Ends b st st₁ st₂ ∧ Closed st w st₂ := by
  have hptr := h.here hfield (by omega)
  have hopen : st.open := ⟨hfield, by rw [hptr]; exact Ptr.noConfusion⟩
  have hfeed : feed b st w = some { st with written := st.written ++ w } :=
    feed_string hopen (by omega) hcomma
  have hopen' : St.open { st with written := st.written ++ w } := hopen
  have hlen : (st.written ++ w).length < b := by
    rw [List.length_append]
    omega
  refine ⟨_, _, hfeed, ends_of_open hopen' hlen rfl, ?_, ?_, fun f _ => rfl, ?_, ?_, ?_⟩
  · exact ⟨w ++ [0], (List.append_assoc _ _ _).symm⟩
  · rw [if_pos hfield]
    show (st.written ++ w ++ [0]).length = _
    rw [List.length_append, List.length_append, List.length_singleton]
  · intro f hf hindex
    rcases index_eq_cases hindex h.state with rfl | ⟨hs, rfl⟩
    · have hvalue : value st.state w = w := by
        cases hs : st.state with
        | password => exact beforeComma_eq_self (hcomma hs)
        | age => exact absurd hs h.state
        | _ => rfl
      rw [hvalue]
      exact Or.inr ⟨w, ⟨st.written, [], hptr, List.append_assoc _ _ _⟩, rfl⟩
    · rw [value, afterComma_eq_nil (hcomma hs)]
      exact Or.inl ⟨h.later _ (Or.inr ⟨hs, rfl⟩), rfl⟩
  · exact (if_neg (index_of_isField hfield).1).symm
  · exact (if_neg (index_of_isField hfield).2).symm

theorem feed_append (w w' : Str) : feed b st (w ++ w') = (feed b st w).bind fun st => feed b st w' := by
  unfold feed
  rw [List.foldlM_append]
  rfl

theorem closed_comma {passwd age : Str} (h : Begins b st) (hs : st.state = .password)
    (hroom : st.written.length + (passwd ++ COMMA :: age).length + 1 ≤ b)
    (hcomma : COMMA ∉ passwd) :
    ∃ st₁ st₂, feed b st (passwd ++ COMMA :: age) = some st₁ ∧ Ends b st st₁ st₂ ∧
      Closed st (passwd ++ COMMA :: age) st₂ := by
  rw [List.length_append, List.length_cons] at hroom
  have hfield : st.state.isField = true := by rw [hs]; rfl
  have hptr := h.here hfield (by omega)
  have hopen : st.open := ⟨hfield, by rw [hptr]; exact Ptr.noConfusion⟩
  -- the password up to the comma, the comma, and the age behind it
  have hpasswd : feed b st passwd = some { st with written := st.written ++ passwd } :=
    feed_string hopen (by omega) fun _ => hcomma
  have hlen : (st.written ++ passwd).length < b := by
    rw [List.length_append]
    omega
  have hlen' : (st.written ++ passwd ++ [0]).length < b := by
    rw [List.length_append, List.length_append, List.length_singleton]
    omega
  set aged : St := { st with
    state := .age
    written := st.written ++ passwd ++ [0]
    ptr := Function.update st.ptr .age (.buffer (st.written ++ passwd ++ [0]).length) } with haged
  have hother : other b { st with written := st.written ++ passwd } COMMA = some aged := by
    rw [other_comma hs hopen hlen, St.enter, if_pos ⟨hlen', rfl⟩]
  have hopenAge : aged.open := by
    refine ⟨rfl, ?_⟩
    show Function.update st.ptr .age _ .age ≠ .null
    rw [Function.update_self]
    exact Ptr.noConfusion
  have hroomAge : aged.written.length + age.length ≤ b := by
    show (st.written ++ passwd ++ [0]).length + _ ≤ b
    rw [List.length_append, List.length_append, List.length_singleton]
    omega
  have hage : feed b aged age = some { aged with written := aged.written ++ age } :=
    feed_string hopenAge hroomAge fun hno => by cases hno
  have hfeed : feed b st (passwd ++ COMMA :: age) =
      some { aged with written := aged.written ++ age } := by
    rw [feed_append, hpasswd, Option.bind_some]
    show (other b _ COMMA).bind _ = _
    rw [hother]
    exact hage
  have hopenEnd : St.open { aged with written := aged.written ++ age } := hopenAge
  have hlenEnd : (aged.written ++ age).length < b := by
    show (st.written ++ passwd ++ [0] ++ age).length < b
    rw [List.length_append, List.length_append, List.length_append, List.length_singleton]
    omega
  have hnext : afterColon .age = afterColon st.state := by rw [hs]; rfl
  have hptrs : ∀ f, f ≠ .age → aged.ptr f = st.ptr f := fun f hf => Function.update_of_ne hf _ _
  -- what a closed field is: written, counted, and its pointers where the texts are
  refine ⟨_, _, hfeed, ends_of_open hopenEnd hlenEnd hnext, ?_, ?_, fun f hf => ?_, ?_, ?_, ?_⟩
  · refine ⟨passwd ++ [0] ++ age ++ [0], ?_⟩
    simp only [haged, List.append_assoc]
  · rw [if_pos hfield]
    simp only [haged, List.length_append, List.length_cons, List.length_nil]
    omega
  · refine hptrs f fun hno => hf ?_
    rw [hno, hs]
    rfl
  · intro f hf hindex
    have hbefore : beforeComma (passwd ++ COMMA :: age) = passwd := by
      have hhead : beforeComma (COMMA :: age) = [] := rfl
      have hall := beforeComma_eq_self hcomma
      rw [beforeComma, List.takeWhile_append_of_pos, ← beforeComma, hhead, List.append_nil]
      exact List.takeWhile_eq_self_iff.mp hall
    have hafter : afterComma (passwd ++ COMMA :: age) = age := by
      have hall := beforeComma_eq_self hcomma
      rw [afterComma, List.dropWhile_append_of_pos (List.takeWhile_eq_self_iff.mp hall)]
      rfl
    rcases index_eq_cases hindex h.state with rfl | ⟨-, rfl⟩
    · rw [hs, value, hbefore]
      refine Or.inr ⟨passwd, ⟨st.written, age ++ [0], ?_, ?_⟩, rfl⟩
      · rw [← hptr, hs]
        exact hptrs .password (by decide)
      · simp only [haged, List.append_assoc, List.cons_append, List.nil_append]
    · rw [value, hafter]
      refine Or.inr ⟨age, ⟨st.written ++ passwd ++ [0], [], ?_, ?_⟩, rfl⟩
      · show Function.update st.ptr .age _ .age = _
        exact Function.update_self _ _ _
      · simp only [haged, List.append_assoc, List.cons_append, List.nil_append]
  · rw [if_neg (by rw [hs]; decide)]
  · rw [if_neg (by rw [hs]; decide)]

theorem closed_id (h : Begins b st) (hs : st.state = .uid ∨ st.state = .gid) (w : Str) :
    ∃ st₁ st₂, feed b st w = some st₁ ∧ Ends b st st₁ st₂ ∧ Closed st w st₂ := by
  have hfield : ¬ st.state.isField = true := by rcases hs with hs | hs <;> rw [hs] <;> decide
  have hno : ∀ f : ParseState, f.isField = true → index f ≠ index st.state := by
    rcases hs with hs | hs <;> rw [hs] <;> intro f <;> cases f <;> decide
  have hends : ∀ st' : St, st'.state = st.state → Ends b st st' st' := by
    intro st' hstate
    have hopen : ¬ st'.open := fun hopen => hfield (hstate ▸ hopen.1)
    constructor
    · simp only [Pwd.colon, if_neg hopen, Option.bind_eq_bind, Option.bind_some]
      rw [hstate]
      rfl
    · rw [Pwd.endOfLine, if_neg fun hno => hopen hno.2, if_neg (by rwa [hstate])]
  have hkeep : st.written.length =
      if st.state.isField = true then st.written.length + w.length + 1 else st.written.length := by
    rw [if_neg hfield]
  rcases hs with hs | hs
  · have hid : st.pw_uid = 0 := h.uid (by rw [hs]; exact le_refl _)
    refine ⟨_, _, feed_uid hs w, hends _ rfl, List.prefix_refl _, hkeep, fun f _ => rfl,
      fun f hf hindex => absurd hindex (hno f hf), ?_, ?_⟩
    · rw [if_pos (by rw [hs]; rfl), hid, h.error]
      rfl
    · rw [if_neg (by rw [hs]; decide)]
  · have hid : st.pw_gid = 0 := h.gid (by rw [hs]; exact le_refl _)
    refine ⟨_, _, feed_gid hs w, hends _ rfl, List.prefix_refl _, hkeep, fun f _ => rfl,
      fun f hf hindex => absurd hindex (hno f hf), ?_, ?_⟩
    · rw [if_neg (by rw [hs]; decide)]
    · rw [if_pos (by rw [hs]; rfl), hid, h.error]
      rfl

theorem closed_text (h : Begins b st) (w : Str)
    (hroom : st.state.isField = true → st.written.length + w.length + 1 ≤ b) :
    ∃ st₁ st₂, feed b st w = some st₁ ∧ Ends b st st₁ st₂ ∧ Closed st w st₂ := by
  by_cases hfield : st.state.isField = true
  · by_cases hage : st.state = .password ∧ COMMA ∈ w
    · obtain ⟨passwd, age, rfl, hcomma⟩ := List.eq_append_cons_of_mem hage.2
      exact closed_comma h hage.1 (hroom hfield) hcomma
    · exact closed_string h hfield (hroom hfield) fun hs hmem => hage ⟨hs, hmem⟩
  · refine closed_id h ?_ w
    have hrunning := h.running
    cases hs : st.state <;> rw [hs] at hfield hrunning
    case uid => exact Or.inl rfl
    case gid => exact Or.inr rfl
    case finished => exact absurd rfl hrunning
    all_goals exact absurd rfl hfield

theorem index_afterColon {s : ParseState} (h : s ≠ .finished) :
    index (afterColon s) = index s + 1 := by
  cases s with
  | finished => exact absurd rfl h
  | _ => rfl

theorem afterColon_ne_age (s : ParseState) : afterColon s ≠ .age := by cases s <;> decide

theorem index_lt_seven {s : ParseState} : index s < 7 ↔ s ≠ .finished := by cases s <;> decide

theorem kindsFrom_cons {s : ParseState} (h : s ≠ .finished) :
    kindsFrom s = s.isField :: kindsFrom (afterColon s) := by
  cases s with
  | finished => exact absurd rfl h
  | _ => rfl

theorem Closed.begins {st₂ : St} (h : Begins b st) (hclosed : Closed st w st₂)
    (hnext : index st.state < 6) :
    Begins b { St.enter b st₂ (afterColon st.state) with numerical_error := false } := by
  have hindex := index_afterColon h.running
  have hrunning : afterColon st.state ≠ .finished := by
    rw [← index_lt_seven, hindex]
    omega
  refine ⟨afterColon_ne_age _, hrunning, rfl, fun hfield hroom => ?_, fun f hf => ?_,
    fun huid => ?_, fun hgid => ?_⟩
  · show (if _ then Function.update st₂.ptr _ _ else st₂.ptr) (afterColon st.state) = _
    rw [if_pos ⟨hroom, hfield⟩, Function.update_self]
    rfl
  · have hlater : index st.state < index f := by
      rcases hf with hf | ⟨hs, rfl⟩
      · change index (afterColon st.state) < index f at hf
        omega
      · change afterColon st.state = .password at hs
        rw [hs] at hindex
        exact Nat.lt_of_succ_le hindex.symm.le
    have hother : f ≠ afterColon st.state := by
      rintro rfl
      rcases hf with hf | ⟨-, hf⟩
      · exact absurd hf (lt_irrefl _)
      · exact absurd hf (afterColon_ne_age _)
    have hptr : (St.enter b st₂ (afterColon st.state)).ptr f = st₂.ptr f := by
      show (if _ then Function.update st₂.ptr _ _ else st₂.ptr) f = _
      split_ifs
      · exact Function.update_of_ne hother _ _
      · rfl
    show (St.enter b st₂ (afterColon st.state)).ptr f = _
    rw [hptr, hclosed.ptr f (by omega)]
    exact h.later f (Or.inl hlater)
  · change index (afterColon st.state) ≤ 2 at huid
    exact hclosed.uid.trans ((if_neg (by omega)).trans (h.uid (by omega)))
  · change index (afterColon st.state) ≤ 3 at hgid
    exact hclosed.gid.trans ((if_neg (by omega)).trans (h.gid (by omega)))

/-- The string fields read as the texts from the current one on, and so do the ids. -/
structure Values (st : St) (ws : List Str) (st' : St) : Prop where
  before : ∀ f x, f.isField = true → index f < index st.state → Reads st f x → Reads st' f x
  strings : ∀ f, f.isField = true → index st.state ≤ index f →
    Reads st' f (cstr (value f (ws.getD (index f - index st.state) [])))
  uid : st'.pw_uid = if index st.state ≤ 2 then idOf (ws.getD (2 - index st.state) []) else st.pw_uid
  gid : st'.pw_gid = if index st.state ≤ 3 then idOf (ws.getD (3 - index st.state) []) else st.pw_gid

theorem getD_next {i j : ℕ} (h : i < j) (w : Str) (ws : List Str) :
    (w :: ws).getD (j - i) [] = ws.getD (j - (i + 1)) [] := by
  have hsub : j - i = j - (i + 1) + 1 := by omega
  rw [hsub, List.getD_cons_succ]

theorem id_last {i n id : ℕ} (w : Str) (hzero : i ≤ n → id = 0) :
    (if i = n then idOf w else id) = if i ≤ n then idOf ([w].getD (n - i) []) else id := by
  rcases lt_trichotomy i n with hlt | rfl | hgt
  · rw [if_neg hlt.ne, if_pos hlt.le, getD_next hlt, List.getD_nil, hzero hlt.le]
    rfl
  · rw [if_pos rfl, if_pos (le_refl i), Nat.sub_self]
    rfl
  · rw [if_neg hgt.ne', if_neg (not_le.mpr hgt)]

theorem id_cons {i n id : ℕ} (w : Str) (ws : List Str) :
    (if i + 1 ≤ n then idOf (ws.getD (n - (i + 1)) []) else if i = n then idOf w else id) =
      if i ≤ n then idOf ((w :: ws).getD (n - i) []) else id := by
  rcases lt_trichotomy i n with hlt | rfl | hgt
  · rw [if_pos (Nat.succ_le_of_lt hlt), if_pos hlt.le, getD_next hlt]
  · rw [if_neg (Nat.not_succ_le_self i), if_pos rfl, if_pos (le_refl i), Nat.sub_self]
    rfl
  · rw [if_neg (by omega), if_neg hgt.ne', if_neg (not_le.mpr hgt)]

theorem Closed.values {st₂ : St} (h : Begins b st) (hclosed : Closed st w st₂)
    (hptr : st'.ptr = st₂.ptr) (hwritten : st'.written = st₂.written)
    (hids : st'.pw_uid = st₂.pw_uid ∧ st'.pw_gid = st₂.pw_gid) : Values st [w] st' := by
  have hprefix : st₂.written <+: st'.written := hwritten ▸ List.prefix_refl _
  constructor
  · intro f x hf hbefore hreads
    refine hreads.mono ?_ (hclosed.written.trans hprefix)
    rw [hptr, hclosed.ptr f (by omega)]
  · intro f hf hfrom
    by_cases heq : index f = index st.state
    · rw [heq, Nat.sub_self, List.getD_cons_zero]
      exact (hclosed.reads f hf heq).mono (congrFun hptr f) hprefix
    · have hlater : index st.state < index f := by omega
      rw [getD_next hlater, List.getD_nil]
      refine Or.inl ⟨?_, by cases f <;> rfl⟩
      rw [hptr, hclosed.ptr f heq]
      exact h.later f (Or.inl hlater)
  · rw [hids.1, hclosed.uid, id_last w h.uid]
  · rw [hids.2, hclosed.gid, id_last w h.gid]

theorem Closed.values_cons {st₂ st₃ : St} (hrunning : st.state ≠ .finished)
    (hclosed : Closed st w st₂) (hst₃ : st₃ = { St.enter b st₂ (afterColon st.state) with
      numerical_error := false }) (hvalues : Values st₃ ws st') : Values st (w :: ws) st' := by
  have hindex : index st₃.state = index st.state + 1 := by
    rw [hst₃]
    exact index_afterColon hrunning
  have hptr : ∀ f, index f ≤ index st.state → st₃.ptr f = st₂.ptr f := by
    intro f hf
    have hother : f ≠ afterColon st.state := by
      rintro rfl
      rw [index_afterColon hrunning] at hf
      omega
    rw [hst₃]
    show (if _ then Function.update st₂.ptr _ _ else st₂.ptr) f = _
    split_ifs
    · exact Function.update_of_ne hother _ _
    · rfl
  have hprefix : st₂.written <+: st₃.written := by
    rw [hst₃]
    exact List.prefix_refl _
  have huid : st₃.pw_uid = st₂.pw_uid := by rw [hst₃]; rfl
  have hgid : st₃.pw_gid = st₂.pw_gid := by rw [hst₃]; rfl
  constructor
  · intro f x hf hbefore hreads
    refine hvalues.before f x hf (by omega) (hreads.mono ?_ (hclosed.written.trans hprefix))
    rw [hptr f (by omega), hclosed.ptr f (by omega)]
  · intro f hf hfrom
    by_cases heq : index f = index st.state
    · rw [heq, Nat.sub_self, List.getD_cons_zero]
      refine hvalues.before f _ hf (by omega) ((hclosed.reads f hf heq).mono ?_ hprefix)
      exact hptr f (by omega)
    · have hread := hvalues.strings f hf (by omega)
      rwa [hindex, ← getD_next (by omega) w] at hread
  · rw [hvalues.uid, hindex, huid, hclosed.uid, id_cons w ws]
  · rw [hvalues.gid, hindex, hgid, hclosed.gid, id_cons w ws]

theorem process_values (cut : Bool) (h : Begins b st) (w : Str) (hlen : index st.state + ws.length ≤ 6)
    (hcut : cut = true → index st.state + ws.length = 6)
    (hroom : st.written.length + needed (kindsFrom st.state) (w :: ws) ≤ b) :
    ∃ st', process b cut w ws st = some st' ∧ Values st (w :: ws) st' := by
  induction ws generalizing w st with
  | nil =>
    rw [kindsFrom_cons h.running, needed] at hroom
    obtain ⟨st₁, st₂, hfeed, hends, hclosed⟩ := closed_text (b := b) h w fun hfield => by
      rw [if_pos hfield] at hroom
      omega
    rw [process, hfeed, Option.bind_some]
    cases cut with
    | true =>
      have hfin : afterColon st.state = .finished := by
        have hindex := index_afterColon h.running
        have hseven := hcut rfl
        rw [List.length_nil] at hseven
        by_contra hno
        have hlt := index_lt_seven.mpr hno
        omega
      refine ⟨_, hends.colon, hclosed.values h ?_ rfl ⟨rfl, rfl⟩⟩
      rw [hfin]
      exact if_neg fun hno => absurd hno.2 (by decide)
    | false => exact ⟨_, hends.endOfLine, hclosed.values h rfl rfl ⟨rfl, rfl⟩⟩
  | cons w' ws ih =>
    rw [List.length_cons] at hlen hcut
    rw [kindsFrom_cons h.running, needed] at hroom
    obtain ⟨st₁, st₂, hfeed, hends, hclosed⟩ := closed_text (b := b) h w fun hfield => by
      rw [if_pos hfield] at hroom
      omega
    have hbegins := hclosed.begins h (by omega)
    have hindex := index_afterColon h.running
    have hlength := hclosed.length
    have hroom' : st₂.written.length + needed (kindsFrom (afterColon st.state)) (w' :: ws) ≤ b := by
      rw [hlength]
      split_ifs at hroom ⊢ <;> omega
    have hlen' : index (afterColon st.state) + ws.length ≤ 6 := by omega
    have hcut' : cut = true → index (afterColon st.state) + ws.length = 6 := by
      intro h
      have := hcut h
      omega
    obtain ⟨st', hrest, hvalues⟩ := ih hbegins w' hlen' hcut' hroom'
    refine ⟨st', ?_, hclosed.values_cons h.running rfl hvalues⟩
    rw [process, hfeed, Option.bind_some, hends.colon, Option.bind_some]
    exact hrest

def Named (x : Str) (st : St) : Prop := Reads st .name x ∧ st.state ≠ .name

section Named

variable {x : Str}

theorem Named.of_ptr (h : Named x st) (hstate : st'.state ≠ .name)
    (hptr : st'.ptr .name = st.ptr .name) (hwritten : st.written <+: st'.written) : Named x st' :=
  ⟨h.1.mono hptr hwritten, hstate⟩

theorem Named.store (h : Named x st) (hstore : st.store b c = some st') : Named x st' := by
  unfold St.store at hstore
  split_ifs at hstore
  cases hstore
  exact h.of_ptr h.2 rfl (List.prefix_append _ _)

theorem Named.enter (h : Named x st) (state : ParseState) (hstate : state ≠ .name) :
    Named x (St.enter b st state) := by
  refine h.of_ptr hstate ?_ (List.prefix_refl _)
  show (if _ then Function.update st.ptr state _ else st.ptr) .name = _
  split_ifs
  · exact Function.update_of_ne hstate.symm _ _
  · rfl

theorem Named.patch (h : Named x st) : Named x { st with written := st.written.dropLast ++ [0] } := by
  obtain ⟨hspace | ⟨s, ⟨pre, post, hptr, hwritten⟩, hx⟩, hstate⟩ := h
  · exact ⟨Or.inl hspace, hstate⟩
  refine ⟨Or.inr ⟨s, ?_, hx⟩, hstate⟩
  rcases List.eq_nil_or_concat post with rfl | ⟨post, d, rfl⟩
  · refine ⟨pre, [], hptr, ?_⟩
    show st.written.dropLast ++ [0] = _
    rw [hwritten, ← List.append_assoc, List.dropLast_concat]
  · refine ⟨pre, post ++ [0], hptr, ?_⟩
    have hsplit : pre ++ (s ++ 0 :: (post ++ [d])) = (pre ++ (s ++ 0 :: post)) ++ [d] := by
      simp only [List.append_assoc, List.cons_append]
    show st.written.dropLast ++ [0] = _
    rw [hwritten, List.concat_eq_append, hsplit, List.dropLast_concat]
    simp only [List.append_assoc, List.cons_append]

theorem Named.other (h : Named x st) (hother : other b st c = some st') : Named x st' := by
  rw [other_eq, Option.bind_eq_some_iff] at hother
  obtain ⟨st₁, hstore, hconsume⟩ := hother
  have h₁ : Named x st₁ := by
    split_ifs at hstore
    · exact h.store hstore
    · cases hstore
      exact h
  unfold consume at hconsume
  split at hconsume
  · cases hconsume
    exact h₁.of_ptr h₁.2 rfl (List.prefix_refl _)
  · cases hconsume
    exact h₁.of_ptr h₁.2 rfl (List.prefix_refl _)
  · split_ifs at hconsume
    · cases hconsume
      exact h₁.patch.enter _ (by decide)
    · cases hconsume
      exact h₁.enter _ (by decide)
    · cases hconsume
      exact h₁
  · cases hconsume
    exact h₁

theorem Named.feed (h : Named x st) (hfeed : feed b st w = some st') : Named x st' := by
  induction w generalizing st with
  | nil =>
    cases hfeed
    exact h
  | cons c w ih =>
    obtain ⟨st₁, hother, hrest⟩ := Option.bind_eq_some_iff.mp hfeed
    exact ih (h.other hother) hrest

theorem afterColon_ne_name (state : ParseState) : afterColon state ≠ .name := by
  cases state <;> decide

theorem colon_eq (b : ℕ) (st : St) : colon b st = (if st.open then st.store b 0 else some st).map
    fun st => { St.enter b st (afterColon st.state) with numerical_error := false } := by
  unfold colon
  by_cases hopen : st.open
  · rw [if_pos hopen, if_pos hopen]
    cases st.store b 0 <;> rfl
  · rw [if_neg hopen, if_neg hopen]
    rfl

theorem Named.colon (h : Named x st) (hcolon : colon b st = some st') : Named x st' := by
  rw [colon_eq] at hcolon
  obtain ⟨st₁, hstore, rfl⟩ := Option.map_eq_some_iff.mp hcolon
  have h₁ : Named x st₁ := by
    split_ifs at hstore
    · exact h.store hstore
    · cases hstore
      exact h
  have h₂ : Named x (St.enter b st₁ (afterColon st₁.state)) := h₁.enter _ (afterColon_ne_name _)
  exact h₂.of_ptr h₂.2 rfl (List.prefix_refl _)

theorem Named.endOfLine (h : Named x st) (hend : endOfLine b st = some st') : Named x st' := by
  unfold Pwd.endOfLine at hend
  split_ifs at hend
  · obtain ⟨st₁, hstore, rfl⟩ := Option.map_eq_some_iff.mp hend
    exact (h.store hstore).of_ptr ParseState.noConfusion rfl (List.prefix_refl _)
  · cases hend
    exact h.of_ptr ParseState.noConfusion (Function.update_of_ne h.2.symm _ _) (List.prefix_refl _)
  · cases hend
    exact h.of_ptr ParseState.noConfusion rfl (List.prefix_refl _)

theorem Named.process (h : Named x st) (hprocess : process b cut w ws st = some st') :
    Named x st' := by
  induction ws generalizing w st with
  | nil =>
    obtain ⟨st₁, hfeed, hend⟩ := Option.bind_eq_some_iff.mp hprocess
    cases cut with
    | true => exact (h.feed hfeed).colon hend
    | false => exact (h.feed hfeed).endOfLine hend
  | cons w' ws ih =>
    obtain ⟨st₂, hfirst, hrest⟩ := Option.bind_eq_some_iff.mp hprocess
    obtain ⟨st₁, hfeed, hcolon⟩ := Option.bind_eq_some_iff.mp hfirst
    exact ih ((h.feed hfeed).colon hcolon) hrest

end Named

theorem start_begins (b : ℕ) : Begins b (start (.buffer 0)) := by
  refine ⟨ParseState.noConfusion, ParseState.noConfusion, rfl, fun _ _ => ?_, fun f hf => ?_,
    fun _ => rfl, fun _ => rfl⟩
  · show Function.update (fun _ => Ptr.space) ParseState.name (.buffer 0) .name = _
    exact Function.update_self _ _ _
  · have hne : f ≠ .name := by
      rintro rfl
      rcases hf with hf | ⟨hf, -⟩
      · exact absurd hf (lt_irrefl _)
      · cases hf
    show Function.update (fun _ => Ptr.space) ParseState.name (.buffer 0) f = _
    exact Function.update_of_ne hne _ _

theorem process_name (hprocess : process b cut w ws (start (.buffer 0)) = some st') :
    st'.str .name = if w.length < b then some (cstr w) else none := by
  have hzero : (start (.buffer 0)).written.length = 0 := rfl
  -- the name and its NUL have room; later fields do not touch what has been written
  by_cases hroom : w.length < b
  · obtain ⟨st₁, st₂, hfeed, hends, hclosed⟩ :=
      closed_text (start_begins b) w fun _ => by rw [hzero]; omega
    have hreads : Reads st₂ .name (cstr w) := hclosed.reads .name rfl rfl
    have hcolon : Named (cstr w) { St.enter b st₂ .password with numerical_error := false } := by
      refine ⟨hreads.mono ?_ (List.prefix_refl _), ParseState.noConfusion⟩
      show (if _ then Function.update st₂.ptr .password _ else st₂.ptr) .name = _
      split_ifs
      · exact Function.update_of_ne (by decide) _ _
      · rfl
    have hend : Named (cstr w) { st₂ with state := .finished } :=
      ⟨hreads.mono rfl (List.prefix_refl _), ParseState.noConfusion⟩
    have hnamed : Named (cstr w) st' := by
      cases ws with
      | nil =>
        rw [process, hfeed, Option.bind_some] at hprocess
        cases cut with
        | true =>
          have heq := hends.colon.symm.trans hprocess
          exact Option.some.inj heq ▸ hcolon
        | false =>
          have heq := hends.endOfLine.symm.trans hprocess
          exact Option.some.inj heq ▸ hend
      | cons w' ws =>
        rw [process, hfeed, Option.bind_some, hends.colon, Option.bind_some] at hprocess
        exact hcolon.process hprocess
    rw [if_pos hroom]
    exact hnamed.1.str
  · obtain ⟨st₁, hfeed, hkinds, hready, hused⟩ := feed_step (start_ready b) w
    have hstate : st₁.state = .name := by
      cases hs : st₁.state <;> rw [hs] at hkinds
      all_goals exact absurd hkinds (by decide)
    have hfull : b ≤ st₁.written.length := by
      rw [hused, hzero]
      exact (if_pos (show (kindsFrom ParseState.name).headD false = true from rfl)).ge.trans'
        (le_min (le_refl b) (by omega))
    have hnone : colon b st₁ = none := (colon_step hready).1 ⟨by rw [hstate]; rfl, hfull⟩
    obtain ⟨st₂, hend, hnull⟩ := endOfLine_null (b := b) (by rw [hstate]; rfl) hfull
    cases ws with
    | nil =>
      rw [process, hfeed, Option.bind_some] at hprocess
      cases cut with
      | true =>
        have heq := hnone.symm.trans hprocess
        cases heq
      | false =>
        have heq := Option.some.inj (hend.symm.trans hprocess)
        rw [hstate] at hnull
        rw [if_neg hroom, ← heq, St.str, hnull]
    | cons w' ws =>
      rw [process, hfeed, Option.bind_some, hnone] at hprocess
      cases hprocess

/-- Some string of the entry is `NULL`. -/
def HasNull (pw : Passwd) : Prop :=
  pw.pw_name = none ∨ pw.pw_passwd = none ∨ pw.pw_age = none ∨ pw.pw_gecos = none ∨
    pw.pw_dir = none ∨ pw.pw_shell = none

theorem hasNull_of_ptr (hfield : f.isField = true) (hnull : st.ptr f = .null) :
    HasNull st.passwd := by
  have hstr : st.str f = none := by rw [St.str, hnull]
  unfold HasNull St.passwd
  cases f with
  | uid | gid | finished => cases hfield
  | name => exact Or.inl hstr
  | password => exact Or.inr (Or.inl hstr)
  | age => exact Or.inr (Or.inr (Or.inl hstr))
  | gecos => exact Or.inr (Or.inr (Or.inr (Or.inl hstr)))
  | home => exact Or.inr (Or.inr (Or.inr (Or.inr (Or.inl hstr))))
  | shell => exact Or.inr (Or.inr (Or.inr (Or.inr (Or.inr hstr))))

theorem passwd_eq (h : Values (start (.buffer 0)) ws st) : st.passwd = entryOf ws := by
  have hstr : ∀ f : ParseState, f.isField = true →
      st.str f = some (cstr (value f (ws.getD (index f) []))) :=
    fun f hf => (h.strings f hf (Nat.zero_le _)).str
  have huid : st.pw_uid = idOf (ws.getD 2 []) := h.uid
  have hgid : st.pw_gid = idOf (ws.getD 3 []) := h.gid
  simp only [St.passwd, entryOf, hstr _ (show ParseState.name.isField = true from rfl),
    hstr _ (show ParseState.password.isField = true from rfl),
    hstr _ (show ParseState.age.isField = true from rfl),
    hstr _ (show ParseState.gecos.isField = true from rfl),
    hstr _ (show ParseState.home.isField = true from rfl),
    hstr _ (show ParseState.shell.isField = true from rfl), huid, hgid]

end Process

theorem record_shape (k : ℕ) (l : List UInt8) : (record k l).more.length ≤ k ∧
    ((record k l).cut = true → (record k l).more.length = k) := by
  induction l generalizing k with
  | nil => exact ⟨Nat.zero_le _, fun h => by cases h⟩
  | cons c fp ih =>
    unfold record
    split_ifs with hdrop hcolon hnewline
    · exact ih k
    · cases k with
      | zero => exact ⟨le_refl _, fun _ => rfl⟩
      | succ k =>
        obtain ⟨hle, hcut⟩ := ih k
        exact ⟨Nat.succ_le_succ hle, fun h => congrArg Nat.succ (hcut h)⟩
    · exact ⟨Nat.zero_le _, fun h => by cases h⟩
    · exact ih k

theorem record_rest (k : ℕ) {l : List UInt8} (hne : l ≠ []) :
    (record k l).rest.length < l.length := by
  induction l generalizing k with
  | nil => exact absurd rfl hne
  | cons c fp ih =>
    have hshorter : ∀ k, (record k fp).rest.length < (c :: fp).length := by
      intro k
      by_cases hfp : fp = []
      · rw [hfp]
        exact Nat.zero_lt_one
      · exact (ih k hfp).trans (Nat.lt_succ_self _)
    unfold record
    split_ifs with hdrop hcolon hnewline
    · exact hshorter k
    · cases k with
      | zero => exact Nat.lt_succ_self _
      | succ k => exact hshorter k
    · exact Nat.lt_succ_self _
    · exact hshorter k

/-- What a call that comes to the record `r` does with a buffer of `b` bytes. -/
structure Reading (b : ℕ) (r : Record) (answer : Option (Result × List UInt8)) : Prop where
  overrun : b < needed allKinds (ended r.cut r.texts) → answer = none
  entry : needed allKinds (ended r.cut r.texts) ≤ b → ∃ pw, answer = some (.entry pw, r.rest) ∧
    pw.pw_name = (if r.first.length < b then some (cstr r.first) else none) ∧
    (needed allKinds r.texts ≤ b → pw = entryOf r.texts) ∧
    (b < needed allKinds r.texts → HasNull pw)

theorem fgetpwent_r_record {fp l : List UInt8} (hskip : skip false fp = some l) (b : ℕ) :
    Reading b (record 6 l) (fgetpwentR (some fp) (some b)) := by
  set r := record 6 l with hr
  have hrun := run_record (k := 6) (start_ready b) rfl l
  obtain ⟨hle, hcut⟩ := record_shape 6 l
  rw [← hr] at hrun hle hcut
  have hread : fgetpwentR (some fp) (some b) =
      (process b r.cut r.first r.more (start (.buffer 0))).map fun st =>
        (.entry st.passwd, r.rest) := by
    rw [fgetpwent_r_entry hskip, machine, hrun, Option.map_map]
    rfl
  have hlen : r.more.length < (kindsFrom (start (.buffer 0)).state).length :=
    Nat.lt_succ_of_le hle
  obtain ⟨hover, hgo⟩ := process_room r.cut (start_ready b) r.first hlen
  have hzero : ∀ m, (start (.buffer 0)).written.length + m = m := fun m => Nat.zero_add m
  rw [hzero] at hover hgo
  constructor
  · intro hroom
    rw [hread, hover hroom]
    rfl
  · intro hroom
    obtain ⟨st', hprocess, hnull⟩ := hgo hroom
    rw [hzero] at hnull
    refine ⟨st'.passwd, ?_, process_name hprocess, fun hall => ?_, fun hshort => ?_⟩
    · rw [hread, hprocess]
      rfl
    · obtain ⟨st'', hprocess', hvalues⟩ : ∃ st'', process b r.cut r.first r.more
          (start (.buffer 0)) = some st'' ∧ Values (start (.buffer 0)) r.texts st'' := by
        have hindex : index (start (.buffer 0)).state = 0 := rfl
        refine process_values r.cut (start_begins b) r.first ?_ (fun h => ?_) ?_
        · rw [hindex, Nat.zero_add]
          exact hle
        · rw [hindex, Nat.zero_add]
          exact hcut h
        · rw [hzero]
          exact hall
      obtain rfl : st' = st'' := Option.some.inj (hprocess.symm.trans hprocess')
      exact passwd_eq hvalues
    · obtain ⟨f, hfield, hptr⟩ := hnull hshort
      exact hasNull_of_ptr hfield hptr

end Mintlib.PwdRecords
