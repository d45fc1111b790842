import Mintlib.Stores

/-!
# Strings with a limit: `strncmp.c`, `strncat.c` and `strncpy.c`

All three count the limit down in a `long`. A limit with the top bit set is negative there, and
counting down from the smallest `long` is undefined.
-/

namespace Mintlib.Strn

open Text Stores Checked

abbrev Memory := ℕ → UInt8

/-- `--count`. -/
def decrement (count : ℤ) : Option ℤ := if count = -2 ^ 31 then none else some (count - 1)

/-- The loop of `strncmp`: the counter and the two characters behind it. -/
def strncmpLoop : Str → Str → ℤ → Option (ℤ × UInt8 × UInt8)
  | [], scan2, count => (decrement count).map fun count => (count, 0, scan2.headD 0)
  | c1 :: scan1, scan2, count =>
    match decrement count with
    | none => none
    | some count =>
      if 0 ≤ count ∧ c1 ≠ 0 ∧ c1 = scan2.headD 0 then strncmpLoop scan1 scan2.tail count
      else some (count, c1, scan2.headD 0)

/-- The case analysis at the end of `strncmp`. -/
def verdict (count : ℤ) (c1 c2 : UInt8) : ℤ :=
  if count < 0 then 0
  else if c1 = c2 then 0
  else if c1 = 0 then -1
  else if c2 = 0 then 1
  else (c1.toNat : ℤ) - c2.toNat

/-- `strncmp`; `none` among the arguments is `NULL`. -/
def strncmp (scan1 scan2 : Option CStr) (n : BitVec 32) : Option ℤ :=
  match scan1, scan2 with
  | none, none => some 0
  | none, some _ => some (-1)
  | some _, none => some 1
  | some scan1, some scan2 =>
    (strncmpLoop scan1.1 scan2.1 n.toInt).map fun (count, c1, c2) => verdict count c1 c2

/-- The second loop of `strncat`: `dscan` behind it, and memory. -/
def catLoop : Str → ℕ → ℤ → Memory → Option (ℕ × Memory)
  | [], dscan, _, mem => some (dscan, mem)
  | c :: sscan, dscan, count, mem =>
    if c = 0 then some (dscan, mem)
    else
      match decrement count with
      | none => none
      | some count =>
        if 0 ≤ count then catLoop sscan (dscan + 1) count (Function.update mem dscan c)
        else some (dscan, mem)

/-- `strncat` behind a string at `dst`. The first loop looks for its end. -/
def strncat (mem : Memory) (dst : ℕ) (hend : ∃ k, mem (dst + k) = 0) (src : Option CStr)
    (n : BitVec 32) : Option Memory :=
  match src with
  | none => some mem
  | some src =>
    if 0 < n then
      (catLoop src.1 (dst + Nat.find hend) n.toInt mem).map fun (dscan, mem) =>
        Function.update mem dscan 0
    else some mem

/-- The first loop of `strncpy`. -/
def copyLoop : Str → ℕ → ℤ → Memory → Option (ℕ × ℤ × Memory)
  | [], dscan, count, mem =>
    (decrement count).map fun count =>
      if 0 ≤ count then (dscan + 1, count, Function.update mem dscan 0) else (dscan, count, mem)
  | c :: sscan, dscan, count, mem =>
    match decrement count with
    | none => none
    | some count =>
      if 0 ≤ count then
        if c ≠ 0 then copyLoop sscan (dscan + 1) count (Function.update mem dscan c)
        else some (dscan + 1, count, Function.update mem dscan c)
      else some (dscan, count, mem)

/-- The second loop of `strncpy`. -/
def padLoop (dscan : ℕ) (count : ℤ) (mem : Memory) : Option Memory :=
  if count = -2 ^ 31 then none
  else if 0 ≤ count - 1 then padLoop (dscan + 1) (count - 1) (Function.update mem dscan 0)
  else some mem
termination_by count.toNat

def strncpy (mem : Memory) (dst : ℕ) (src : Option CStr) (n : BitVec 32) : Option Memory := do
  let sscan := match src with
    | none => []
    | some src => src.1
  let (dscan, count, mem) ← copyLoop sscan dst n.toInt mem
  padLoop dscan count mem

def Compares (r : ℤ) (s₁ s₂ : Str) : Prop := (r < 0 ↔ s₁ < s₂) ∧ (0 < r ↔ s₂ < s₁)

/-- Memory with a text at `p`, and nothing else changed. -/
def put (mem : Memory) (p : ℕ) (s : Str) : Memory := fun i =>
  if p ≤ i ∧ i < p + s.length then s.getD (i - p) 0 else mem i

theorem put_nil (mem : Memory) (p : ℕ) : put mem p [] = mem := by
  funext i
  rw [put, List.length_nil, if_neg (by omega)]

theorem put_cons (mem : Memory) (p : ℕ) (c : UInt8) (s : Str) :
    put (Function.update mem p c) (p + 1) s = put mem p (c :: s) := by
  funext i
  rw [put, put, List.length_cons]
  rcases Nat.lt_trichotomy i p with hlt | rfl | hgt
  · rw [if_neg (by omega), if_neg (by omega), Function.update_of_ne (by omega)]
  · rw [if_neg (by omega), if_pos (by omega), Function.update_self, Nat.sub_self, List.getD_cons_zero]
  · have hsub : i - p = i - (p + 1) + 1 := by omega
    by_cases hin : i < p + 1 + s.length
    · rw [if_pos (by omega), if_pos (by omega), hsub, List.getD_cons_succ]
    · rw [if_neg (by omega), if_neg (by omega), Function.update_of_ne (by omega)]

theorem decrement_nat (n : ℕ) : decrement n = some ((n : ℤ) - 1) := if_neg (by omega)

theorem compares_zero {s₁ s₂ : Str} : Compares 0 s₁ s₂ ↔ s₁ = s₂ := by
  constructor
  · intro h
    have h₁ := mt h.1.mpr (lt_irrefl _)
    have h₂ := mt h.2.mpr (lt_irrefl _)
    exact Std.le_antisymm h₂ h₁
  · rintro rfl
    have h := List.lt_irrefl s₁
    exact ⟨⟨fun h₀ => absurd h₀ (lt_irrefl _), fun h₀ => absurd h₀ h⟩,
      ⟨fun h₀ => absurd h₀ (lt_irrefl _), fun h₀ => absurd h₀ h⟩⟩

theorem compares_cons {r : ℤ} {c : UInt8} {s₁ s₂ : Str} (h : Compares r s₁ s₂) :
    Compares r (c :: s₁) (c :: s₂) := by
  rw [Compares, List.cons_lt_cons_iff, List.cons_lt_cons_iff]
  have hirrefl : ¬ c < c := UInt8.lt_irrefl c
  constructor
  · rw [h.1]
    exact ⟨fun hlt => Or.inr ⟨rfl, hlt⟩, fun hlt => (hlt.resolve_left hirrefl).2⟩
  · rw [h.2]
    exact ⟨fun hlt => Or.inr ⟨rfl, hlt⟩, fun hlt => (hlt.resolve_left hirrefl).2⟩

theorem compares_bytes {c d : UInt8} (hcd : c ≠ d) (s₁ s₂ : Str) :
    Compares ((c.toNat : ℤ) - d.toNat) (c :: s₁) (d :: s₂) := by
  rw [Compares, List.cons_lt_cons_iff, List.cons_lt_cons_iff, UInt8.lt_iff_toNat_lt,
    UInt8.lt_iff_toNat_lt]
  constructor
  · constructor
    · intro h
      exact Or.inl (by omega)
    · rintro (h | ⟨h, -⟩)
      · omega
      · exact absurd h hcd
  · constructor
    · intro h
      exact Or.inl (by omega)
    · rintro (h | ⟨h, -⟩)
      · omega
      · exact absurd h.symm hcd

theorem compares_nil_cons (d : UInt8) (s₂ : Str) : Compares (-1) [] (d :: s₂) :=
  ⟨⟨fun _ => List.nil_lt_cons d s₂, fun _ => by decide⟩,
    ⟨fun h => absurd h (by decide), fun h => absurd h (List.not_lt_nil _)⟩⟩

theorem compares_cons_nil (c : UInt8) (s₁ : Str) : Compares 1 (c :: s₁) [] :=
  ⟨⟨fun h => absurd h (by decide), fun h => absurd h (List.not_lt_nil _)⟩,
    ⟨fun _ => List.nil_lt_cons c s₁, fun _ => by decide⟩⟩

theorem strncmpLoop_nat {scan1 scan2 : Str} (hscan1 : (0 : UInt8) ∉ scan1)
    (hscan2 : (0 : UInt8) ∉ scan2) (n : ℕ) :
    ∃ count c1 c2, strncmpLoop scan1 scan2 n = some (count, c1, c2) ∧
      Compares (verdict count c1 c2) (scan1.take n) (scan2.take n) := by
  induction scan1 generalizing scan2 n with
  | nil =>
    refine ⟨(n : ℤ) - 1, 0, scan2.headD 0, ?_, ?_⟩
    · rw [strncmpLoop, decrement_nat]
      rfl
    · cases n with
      | zero => exact compares_zero.mpr rfl
      | succ n =>
        cases scan2 with
        | nil =>
          rw [verdict, if_neg (by omega), if_pos rfl]
          exact compares_zero.mpr rfl
        | cons d scan2 =>
          have hd : (0 : UInt8) ≠ d := fun h => hscan2 (h ▸ List.mem_cons_self)
          rw [verdict, if_neg (by omega), List.headD_cons, if_neg hd, if_pos rfl]
          exact compares_nil_cons d _
  | cons c scan1 ih =>
    have hc : c ≠ 0 := fun h => hscan1 (h ▸ List.mem_cons_self)
    rw [strncmpLoop, decrement_nat]
    simp only
    cases n with
    | zero =>
      rw [if_neg (by omega)]
      refine ⟨_, _, _, rfl, ?_⟩
      rw [verdict, if_pos (by decide)]
      exact compares_zero.mpr rfl
    | succ n =>
      have hcount : ((n + 1 : ℕ) : ℤ) - 1 = n := by omega
      rw [hcount]
      cases scan2 with
      | nil =>
        rw [List.headD_nil, if_neg (fun h => hc h.2.2)]
        refine ⟨_, _, _, rfl, ?_⟩
        rw [verdict, if_neg (by omega), if_neg hc, if_neg hc, if_pos rfl]
        exact compares_cons_nil c _
      | cons d scan2 =>
        have hd : d ≠ 0 := fun h => hscan2 (h ▸ List.mem_cons_self)
        rw [List.headD_cons, List.tail_cons, List.take_succ_cons, List.take_succ_cons]
        by_cases hcd : c = d
        · subst hcd
          obtain ⟨count, c1, c2, hloop, hcompares⟩ := ih (fun h => hscan1 (List.mem_cons_of_mem _ h))
            (fun h => hscan2 (List.mem_cons_of_mem _ h)) n
          rw [if_pos ⟨by omega, hc, rfl⟩]
          exact ⟨count, c1, c2, hloop, compares_cons hcompares⟩
        · rw [if_neg (fun h => hcd h.2.2)]
          refine ⟨_, _, _, rfl, ?_⟩
          rw [verdict, if_neg (by omega), if_neg hcd, if_neg hc, if_neg hd]
          exact compares_bytes hcd _ _

theorem strncmpLoop_neg {scan1 scan2 : Str} {count : ℤ} (hcount : count < 0) :
    strncmpLoop scan1 scan2 count =
      (decrement count).map fun count => (count, scan1.headD 0, scan2.headD 0) := by
  cases scan1 with
  | nil => rfl
  | cons c scan1 =>
    rw [strncmpLoop, decrement]
    by_cases hmin : count = -2 ^ 31
    · rw [if_pos hmin]
      rfl
    · rw [if_neg hmin]
      simp only
      rw [if_neg (by omega)]
      rfl

theorem toInt_cases (n : BitVec 32) :
    (n.toNat < 2 ^ 31 ∧ n.toInt = n.toNat) ∨
      (2 ^ 31 ≤ n.toNat ∧ n.toInt < 0 ∧ (n.toInt = -2 ^ 31 ↔ n.toNat = 2 ^ 31)) := by
  have hlt := n.isLt
  rw [BitVec.toInt_eq_toNat_cond]
  split_ifs with h
  · exact Or.inl ⟨by omega, rfl⟩
  · exact Or.inr ⟨by omega, by omega, by omega⟩

theorem strncmp_iff (s₁ s₂ : CStr) (n : BitVec 32) :
    (∃ r, strncmp (some s₁) (some s₂) n = some r ∧
      Compares r (s₁.1.take n.toNat) (s₂.1.take n.toNat)) ↔
    n.toNat < 2 ^ 31 ∨ (2 ^ 31 < n.toNat ∧ s₁.1.take n.toNat = s₂.1.take n.toNat) := by
  rw [strncmp]
  rcases toInt_cases n with ⟨hsmall, hint⟩ | ⟨hlarge, hneg, hmin⟩
  · obtain ⟨count, c1, c2, hloop, hcompares⟩ := strncmpLoop_nat s₁.2 s₂.2 n.toNat
    rw [hint, hloop]
    exact ⟨fun _ => Or.inl hsmall, fun _ => ⟨_, rfl, hcompares⟩⟩
  · rw [strncmpLoop_neg hneg, decrement]
    by_cases hn : n.toNat = 2 ^ 31
    · rw [if_pos (hmin.mpr hn)]
      constructor
      · rintro ⟨r, hr, -⟩
        exact absurd hr (by simp)
      · intro h
        omega
    · rw [if_neg (mt hmin.mp hn)]
      simp only [Option.map_some, Option.some.injEq, exists_eq_left']
      rw [verdict, if_pos (by omega), compares_zero]
      exact ⟨fun h => Or.inr ⟨by omega, h⟩, fun h => (h.resolve_left (by omega)).2⟩

theorem put_singleton (mem : Memory) (p : ℕ) (c : UInt8) :
    put mem p [c] = Function.update mem p c := by
  rw [← put_cons, put_nil]

theorem put_append (mem : Memory) (p : ℕ) (s t : Str) :
    put (put mem p s) (p + s.length) t = put mem p (s ++ t) := by
  induction s generalizing mem p with
  | nil => rw [put_nil, List.length_nil, Nat.add_zero, List.nil_append]
  | cons c s ih =>
    rw [← put_cons, List.cons_append, ← put_cons, ← ih, List.length_cons]
    congr 1
    omega

theorem put_self {mem : Memory} {p : ℕ} {c : UInt8} (h : mem p = c) : put mem p [c] = mem := by
  rw [put_singleton, ← h, Function.update_eq_self]

theorem catLoop_nat {src : Str} (hsrc : (0 : UInt8) ∉ src) (dscan n : ℕ) (mem : Memory) :
    catLoop src dscan n mem = some (dscan + (src.take n).length, put mem dscan (src.take n)) := by
  induction src generalizing dscan n mem with
  | nil =>
    rw [List.take_nil, put_nil]
    rfl
  | cons c src ih =>
    have hc : c ≠ 0 := fun h => hsrc (h ▸ List.mem_cons_self)
    rw [catLoop, if_neg hc, decrement_nat]
    simp only
    cases n with
    | zero =>
      rw [if_neg (by decide), List.take_zero, put_nil]
      rfl
    | succ n =>
      have hcount : ((n + 1 : ℕ) : ℤ) - 1 = n := by omega
      rw [hcount, if_pos (by omega), ih (fun h => hsrc (List.mem_cons_of_mem _ h)), put_cons,
        List.take_succ_cons, List.length_cons]
      congr 2
      omega

/-- What `strncat` is to do. -/
def Appends (src : CStr) (n : BitVec 32) : Prop :=
  ∀ (mem : Memory) (dst : ℕ) (hend : ∃ k, mem (dst + k) = 0),
    strncat mem dst hend (some src) n =
      some (put mem (dst + Nat.find hend) (src.1.take n.toNat ++ [0]))

theorem strncat_iff (src : CStr) (n : BitVec 32) :
    Appends src n ↔ n.toNat < 2 ^ 31 ∨ src.1 = [] := by
  constructor
  · intro happends
    by_contra hcond
    rw [not_or] at hcond
    obtain ⟨hlarge, hsrc⟩ := hcond
    rcases toInt_cases n with ⟨hsmall, -⟩ | ⟨-, hneg, -⟩
    · exact hlarge hsmall
    obtain ⟨c, rest, hcons⟩ := List.exists_cons_of_ne_nil hsrc
    have hc : c ≠ 0 := fun h => src.2 (by rw [hcons, h]; exact List.mem_cons_self)
    -- nothing is put behind the empty string
    obtain ⟨mem, hmem⟩ : ∃ mem : Memory, ∀ i, mem i = 0 := ⟨fun _ => 0, fun _ => rfl⟩
    have hend : ∃ k, mem (0 + k) = 0 := ⟨0, hmem _⟩
    have hfind : Nat.find hend = 0 := (Nat.find_eq_zero hend).mpr (hmem _)
    have h := happends mem 0 hend
    have hpos : 0 < n := by
      rw [BitVec.lt_def]
      show 0 < n.toNat
      omega
    rw [strncat] at h
    simp only at h
    rw [if_pos hpos, hfind, hcons, catLoop, if_neg hc, decrement] at h
    by_cases hmin : n.toInt = -2 ^ 31
    · rw [if_pos hmin] at h
      exact absurd h (by simp)
    · rw [if_neg hmin] at h
      simp only at h
      rw [if_neg (by omega), Option.map_some, Option.some.injEq] at h
      obtain ⟨m, hm⟩ := Nat.exists_eq_add_of_lt (show 0 < n.toNat by omega)
      have hfirst := congrFun h 0
      rw [hm, Nat.zero_add, List.take_succ_cons, Function.update_self, put,
        if_pos ⟨by omega, by simp⟩] at hfirst
      exact hc hfirst.symm
  · intro hcond mem dst hend
    have hzero : mem (dst + Nat.find hend) = 0 := Nat.find_spec hend
    rw [strncat]
    simp only
    by_cases hn : 0 < n
    · rw [if_pos hn]
      rcases hcond with hsmall | hempty
      · rcases toInt_cases n with ⟨-, hint⟩ | ⟨hlarge, -⟩
        · rw [hint, catLoop_nat src.2, Option.map_some, ← put_append, put_singleton]
        · omega
      · rw [hempty, catLoop, Option.map_some, List.take_nil, List.nil_append, put_singleton]
    · have hn0 : n.toNat = 0 := by
        rw [BitVec.lt_def] at hn
        have h0 : (0 : BitVec 32).toNat = 0 := rfl
        omega
      rw [if_neg hn, hn0, List.take_zero, List.nil_append, put_self hzero]

theorem padLoop_nat (dscan n : ℕ) (mem : Memory) :
    padLoop dscan n mem = some (put mem dscan (List.replicate n 0)) := by
  induction n generalizing dscan mem with
  | zero =>
    rw [padLoop, if_neg (by decide), if_neg (by decide), List.replicate_zero, put_nil]
  | succ n ih =>
    have hcount : ((n + 1 : ℕ) : ℤ) - 1 = n := by omega
    rw [padLoop, hcount, if_neg (by omega), if_pos (by omega), ih, put_cons, List.replicate_succ]

theorem copyLoop_nat {src : Str} (hsrc : (0 : UInt8) ∉ src) (dscan n : ℕ) (mem : Memory) :
    (copyLoop src dscan n mem >>= fun (dscan, count, mem) => padLoop dscan count mem) =
      some (put mem dscan (src.take n ++ List.replicate (n - src.length) 0)) := by
  have hend : ∀ (dscan : ℕ) (mem : Memory), padLoop dscan (-1) mem = some mem := by
    intro dscan mem
    rw [padLoop, if_neg (by decide), if_neg (by decide)]
  induction src generalizing dscan n mem with
  | nil =>
    rw [copyLoop, decrement_nat, List.take_nil, List.nil_append, List.length_nil, Nat.sub_zero]
    cases n with
    | zero => exact (hend dscan mem).trans (by rw [List.replicate_zero, put_nil])
    | succ n =>
      have hcount : ((n + 1 : ℕ) : ℤ) - 1 = n := by omega
      rw [hcount, Option.map_some, if_pos (by omega), List.replicate_succ, ← put_cons]
      exact padLoop_nat (dscan + 1) n _
  | cons c src ih =>
    have hc : c ≠ 0 := fun h => hsrc (h ▸ List.mem_cons_self)
    rw [copyLoop, decrement_nat]
    simp only
    cases n with
    | zero =>
      rw [if_neg (by decide), List.take_zero, Nat.zero_sub, List.replicate_zero, List.append_nil,
        put_nil]
      exact hend dscan mem
    | succ n =>
      have hcount : ((n + 1 : ℕ) : ℤ) - 1 = n := by omega
      rw [hcount, if_pos (by omega), if_pos hc, ih (fun h => hsrc (List.mem_cons_of_mem _ h)),
        put_cons, List.take_succ_cons, List.cons_append, List.length_cons, Nat.add_sub_add_right]

/-- What `strncpy` is to do. -/
def Copies (src : CStr) (n : BitVec 32) : Prop :=
  ∀ (mem : Memory) (dst : ℕ), strncpy mem dst (some src) n =
    some (put mem dst (src.1.take n.toNat ++ List.replicate (n.toNat - src.1.length) 0))

theorem copyLoop_neg {src : Str} {dscan : ℕ} {count : ℤ} {mem : Memory} (hcount : count < 0) :
    copyLoop src dscan count mem = (decrement count).map fun count => (dscan, count, mem) := by
  by_cases hmin : count = -2 ^ 31
  · cases src with
    | nil => rw [copyLoop, decrement, if_pos hmin, Option.map_none, Option.map_none]
    | cons c src => rw [copyLoop, decrement, if_pos hmin, Option.map_none]
  · cases src with
    | nil =>
      rw [copyLoop, decrement, if_neg hmin, Option.map_some, if_neg (by omega), Option.map_some]
    | cons c src =>
      rw [copyLoop, decrement, if_neg hmin]
      simp only
      rw [if_neg (by omega), Option.map_some]

theorem strncpy_neg {mem mem' : Memory} {dst : ℕ} {src : CStr} {n : BitVec 32} (hneg : n.toInt < 0)
    (h : strncpy mem dst (some src) n = some mem') : mem' = mem := by
  rw [strncpy, copyLoop_neg hneg] at h
  obtain ⟨⟨dscan, count, mem₁⟩, hcopy, hpad⟩ := Option.bind_eq_some_iff.mp h
  obtain ⟨count', hcount, heq⟩ := Option.map_eq_some_iff.mp hcopy
  cases heq
  simp only at hpad
  rw [decrement] at hcount
  split_ifs at hcount
  cases hcount
  rw [padLoop] at hpad
  split_ifs at hpad
  · omega
  · exact (Option.some.inj hpad).symm

theorem strncpy_iff (src : CStr) (n : BitVec 32) : Copies src n ↔ n.toNat < 2 ^ 31 := by
  constructor
  · intro hcopies
    by_contra hlarge
    rcases toInt_cases n with ⟨hsmall, -⟩ | ⟨-, hneg, -⟩
    · exact hlarge hsmall
    have hne : src.1.take n.toNat ++ List.replicate (n.toNat - src.1.length) 0 ≠ [] := by
      intro hnil
      have hlength := congrArg List.length hnil
      rw [List.length_append, List.length_take, List.length_replicate, List.length_nil] at hlength
      omega
    obtain ⟨c, rest, hcons⟩ := List.exists_cons_of_ne_nil hne
    obtain ⟨d, hd⟩ : ∃ d : UInt8, d ≠ c := by
      by_cases hzero : c = 0
      · exact ⟨1, by rw [hzero]; decide⟩
      · exact ⟨0, Ne.symm hzero⟩
    have h := strncpy_neg hneg (hcopies (fun _ => d) 0)
    have hfirst := congrFun h 0
    rw [hcons, put, if_pos ⟨by omega, by simp⟩] at hfirst
    exact hd hfirst.symm
  · intro hsmall mem dst
    rcases toInt_cases n with ⟨-, hint⟩ | ⟨hlarge, -⟩
    · rw [strncpy, hint]
      exact copyLoop_nat src.2 dst n.toNat mem
    · omega

/-- A limit below 2^31 is right for all of them. Beyond it `strncmp` finds everything equal, `strncat`
appends nothing and `strncpy` writes nothing. -/
theorem limits_iff (s₁ s₂ : CStr) (n : BitVec 32) :
    ((∃ r, strncmp (some s₁) (some s₂) n = some r ∧
        Compares r (s₁.1.take n.toNat) (s₂.1.take n.toNat)) ↔
      n.toNat < 2 ^ 31 ∨ (2 ^ 31 < n.toNat ∧ s₁.1.take n.toNat = s₂.1.take n.toNat)) ∧
    (Appends s₂ n ↔ n.toNat < 2 ^ 31 ∨ s₂.1 = []) ∧
    (Copies s₂ n ↔ n.toNat < 2 ^ 31) :=
  ⟨strncmp_iff s₁ s₂ n, strncat_iff s₂ n, strncpy_iff s₂ n⟩

theorem everything_is_equal :
    strncmp (some ⟨[97], by decide⟩) (some ⟨[98], by decide⟩) (BitVec.ofNat 32 (2 ^ 32 - 1)) =
      some 0 ∧ ([97] : Str) < [98] := by
  decide

end Mintlib.Strn
