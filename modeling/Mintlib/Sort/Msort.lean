import Mintlib.Lib.Compare
import Mintlib.Lib.Checked

/-!
# Merge sort: `msort.c`

The array that is sorted and the temporary one are arrays of items; `s`, the size of an item, counts
only where the memory for the temporary array is asked for.
-/

namespace Mintlib.Sort

open Compare Checked

variable {α : Type}

/-- Where the loop that merges is left: `b1`, `n1`, `n2`, `tmp` and the temporary array, whose items
have no value at first. -/
structure Merged (α : Type) where
  b1 : ℕ
  n1 : ℕ
  n2 : ℕ
  tmp : ℕ
  t : List (Option α)

def mergeLoop (cmp : α → α → ℤ) (a : List α) :
    ℕ → ℕ → ℕ → ℕ → ℕ → ℕ → List (Option α) → Except Stop (Merged α)
  | 0, _, _, _, _, _, _ => .error .steps
  | steps + 1, b1, n1, b2, n2, tmp, t =>
    if n1 > 0 ∧ n2 > 0 then do
      let x ← load a b1
      let y ← load a b2
      if cmp x y ≤ 0 then do
        let t ← store t tmp (some x)
        mergeLoop cmp a steps (b1 + 1) (n1 - 1) b2 n2 (tmp + 1) t
      else do
        let t ← store t tmp (some y)
        mergeLoop cmp a steps b1 n1 (b2 + 1) (n2 - 1) (tmp + 1) t
    else .ok ⟨b1, n1, n2, tmp, t⟩

/-- `memcpy (tmp, b1, n1 * s)`. -/
def copyOut (a : List α) : ℕ → ℕ → ℕ → List (Option α) → Except Stop (List (Option α))
  | 0, _, _, t => .ok t
  | n + 1, b1, tmp, t => do
    let x ← load a b1
    let t ← store t tmp (some x)
    copyOut a n (b1 + 1) (tmp + 1) t

def copyFirst (a : List α) (m : Merged α) : Except Stop (List (Option α)) :=
  if m.n1 > 0 then copyOut a m.n1 m.b1 m.tmp m.t else .ok m.t

/-- `memcpy (b, t, n * s)`. -/
def copyBack (t : List (Option α)) : ℕ → ℕ → ℕ → List α → Except Stop (List α)
  | 0, _, _, a => .ok a
  | n + 1, i, b, a =>
    match t[i]? with
    | some (some x) => do
      let a ← store a b x
      copyBack t n (i + 1) (b + 1) a
    | _ => .error .bounds

def msortWithTmp (cmp : α → α → ℤ) :
    ℕ → ℕ → ℕ → List α → List (Option α) → Except Stop (List α × List (Option α))
  | 0, _, _, _, _ => .error .steps
  | steps + 1, b, n, a, t =>
    if n ≤ 1 then .ok (a, t)
    else do
      let n1 := n / 2
      let n2 := n - n1
      let (a, t) ← msortWithTmp cmp steps b n1 a t
      let (a, t) ← msortWithTmp cmp steps (b + n1) n2 a t
      let m ← mergeLoop cmp a (n + 1) b n1 (b + n1) n2 0 t
      let t ← copyFirst a m
      let a ← copyBack t (n - m.n2) 0 b a
      .ok (a, t)

section Copies

variable {a : List α} {t : List (Option α)} {l r : List α} {b i n : ℕ}

def Holds (a : List α) (b : ℕ) (l : List α) : Prop := ∃ rest, a.drop b = l ++ rest

theorem Holds.head {x : α} (h : Holds a b (x :: l)) : a[b]? = some x := by
  obtain ⟨rest, hrest⟩ := h
  rw [← List.head?_drop, hrest]
  rfl

theorem Holds.tail {x : α} (h : Holds a b (x :: l)) : Holds a (b + 1) l := by
  obtain ⟨rest, hrest⟩ := h
  refine ⟨rest, ?_⟩
  rw [← List.drop_drop, hrest]
  rfl

theorem put_prefix {done : List α} {k : ℕ} (ht : t.take k = done.map some) (hk : done.length = k)
    (hroom : k < t.length) (x : α) :
    store t k (some x) = .ok (t.set k (some x)) ∧
      (t.set k (some x)).take (k + 1) = (done ++ [x]).map some ∧
      (done ++ [x]).length = k + 1 ∧ (t.set k (some x)).length = t.length := by
  refine ⟨store_ok hroom _, ?_, ?_, List.length_set⟩
  · rw [List.take_succ_eq_append_getElem (by rwa [List.length_set]), List.take_set_of_le (le_refl k),
      List.getElem_set_self, ht, List.map_append]
    rfl
  · rw [List.length_append, hk, List.length_singleton]

/-- The loop puts the merged parts into the temporary array, up to what is left of one of them. -/
theorem mergeLoop_ok (cmp : α → α → ℤ) (steps : ℕ) {b1 b2 : ℕ} (tmp : ℕ) (done : List α)
    (hl : Holds a b1 l) (hr : Holds a b2 r) (ht : t.take tmp = done.map some)
    (htmp : done.length = tmp) (hroom : tmp + l.length + r.length ≤ t.length)
    (hsteps : l.length + r.length < steps) :
    ∃ m l' r' done', mergeLoop cmp a steps b1 l.length b2 r.length tmp t = .ok m ∧
      Holds a m.b1 l' ∧ m.n1 = l'.length ∧ m.n2 = r'.length ∧ r' <:+ r ∧
      m.t.take m.tmp = done'.map some ∧ done'.length = m.tmp ∧ m.t.length = t.length ∧
      (l' = [] ∨ r' = []) ∧ m.tmp + l'.length + r'.length = tmp + l.length + r.length ∧
      done' ++ l' ++ r' = done ++ l.merge r fun x y => cmp x y ≤ 0 := by
  induction steps generalizing b1 b2 tmp t l r done with
  | zero => exact absurd hsteps (Nat.not_lt_zero _)
  | succ steps ih =>
    rw [mergeLoop]
    rcases l with _ | ⟨x, l⟩
    · refine ⟨⟨b1, 0, r.length, tmp, t⟩, [], r, done, if_neg (by simp), hl, rfl, rfl,
        List.suffix_rfl, ht, htmp, rfl, Or.inl rfl, rfl, ?_⟩
      rw [List.nil_merge, List.append_nil]
    · rcases r with _ | ⟨y, r⟩
      · refine ⟨⟨b1, (x :: l).length, 0, tmp, t⟩, x :: l, [], done, if_neg (by simp), hl, rfl, rfl,
          List.suffix_rfl, ht, htmp, rfl, Or.inr rfl, rfl, ?_⟩
        rw [List.merge_right, List.append_nil]
      · rw [List.length_cons, List.length_cons] at hsteps hroom
        have hgo : (x :: l).length > 0 ∧ (y :: r).length > 0 :=
          ⟨Nat.succ_pos l.length, Nat.succ_pos r.length⟩
        rw [if_pos hgo, load_ok hl.head, ok_bind, load_ok hr.head, ok_bind]
        by_cases hxy : cmp x y ≤ 0
        · obtain ⟨hput, htake, hcount, hlength⟩ := put_prefix ht htmp (by omega) x
          obtain ⟨m, l', r', done', hloop, hl', hn1, hn2, hsuffix, ht', htmp', hlength', hend,
            hsum, hsame⟩ := ih (tmp + 1) (done ++ [x]) hl.tail hr htake hcount
              (by rw [hlength, List.length_cons]; omega)
              (by rw [List.length_cons]; omega)
          rw [if_pos hxy, hput, ok_bind]
          refine ⟨m, l', r', done', hloop, hl', hn1, hn2, hsuffix, ht', htmp',
            hlength'.trans hlength, hend, ?_, ?_⟩
          · rw [hsum, List.length_cons, List.length_cons]
            omega
          · rw [hsame, List.cons_merge_cons_pos _ _ _ (decide_eq_true hxy), List.append_assoc,
              List.singleton_append]
        · obtain ⟨hput, htake, hcount, hlength⟩ := put_prefix ht htmp (by omega) y
          obtain ⟨m, l', r', done', hloop, hl', hn1, hn2, hsuffix, ht', htmp', hlength', hend,
            hsum, hsame⟩ := ih (tmp + 1) (done ++ [y]) hl hr.tail htake hcount
              (by rw [hlength, List.length_cons]; omega)
              (by rw [List.length_cons]; omega)
          rw [if_neg hxy, hput, ok_bind]
          refine ⟨m, l', r', done', hloop, hl', hn1, hn2, hsuffix.trans (List.suffix_cons y r), ht',
            htmp', hlength'.trans hlength, hend, ?_, ?_⟩
          · rw [hsum, List.length_cons, List.length_cons]
            omega
          · rw [hsame, List.cons_merge_cons_neg _ _ _ (by simpa using hxy), List.append_assoc,
              List.singleton_append]

theorem copyOut_ok {b1 tmp : ℕ} {done : List α} (hl : Holds a b1 l)
    (ht : t.take tmp = done.map some) (htmp : done.length = tmp)
    (hroom : tmp + l.length ≤ t.length) :
    ∃ t', copyOut a l.length b1 tmp t = .ok t' ∧
      t'.take (tmp + l.length) = (done ++ l).map some ∧ t'.length = t.length := by
  induction l generalizing b1 tmp t done with
  | nil =>
    refine ⟨t, rfl, ?_, rfl⟩
    rw [List.append_nil]
    exact ht
  | cons x l ih =>
    rw [List.length_cons] at hroom
    obtain ⟨hput, htake, hcount, hlength⟩ := put_prefix ht htmp (by omega) x
    obtain ⟨t', hcopy, htake', hlength'⟩ := ih hl.tail htake hcount (by omega)
    have hsum : tmp + 1 + l.length = tmp + (x :: l).length := by
      rw [List.length_cons]
      omega
    refine ⟨t', ?_, ?_, hlength'.trans hlength⟩
    · rw [List.length_cons, copyOut, load_ok hl.head, ok_bind, hput, ok_bind, hcopy]
    · rw [← hsum, htake', List.append_assoc, List.singleton_append]

theorem copyBack_ok (done : List α) (i b : ℕ)
    (ht : (t.drop i).take done.length = done.map some) (hroom : b + done.length ≤ a.length) :
    copyBack t done.length i b a =
      .ok (a.take b ++ done ++ a.drop (b + done.length)) := by
  induction done generalizing i b a with
  | nil =>
    rw [List.append_nil]
    show Except.ok a = .ok (a.take b ++ a.drop b)
    rw [List.take_append_drop]
  | cons x done ih =>
    rw [List.length_cons] at hroom ht
    have hhead : t[i]? = some (some x) := by
      have hfirst := congrArg List.head? ht
      rw [List.head?_take, List.head?_drop] at hfirst
      simpa using hfirst
    have htail : (t.drop (i + 1)).take done.length = done.map some := by
      have hrest := congrArg (List.drop 1) ht
      rw [List.drop_take, List.drop_drop] at hrest
      simpa using hrest
    have hlt : b < a.length := by omega
    rw [List.length_cons, copyBack, hhead]
    dsimp only
    rw [store_ok hlt, ok_bind, ih (i + 1) (b + 1) htail (by rw [List.length_set]; omega)]
    congr 1
    rw [List.take_succ_eq_append_getElem (by rwa [List.length_set]), List.take_set_of_le (le_refl b),
      List.getElem_set_self, List.drop_set_of_lt (by omega), List.append_assoc, List.append_assoc,
      List.append_assoc, List.singleton_append, Nat.add_assoc b 1, Nat.add_comm 1]
    rfl

end Copies

theorem msort_with_tmp_ok {cmp : α → α → ℤ} (hcmp : Consistent cmp) (steps : ℕ) {b n : ℕ}
    (front l rest : List α) (t : List (Option α)) (hfront : front.length = b) (hl : l.length = n)
    (ht : n ≤ t.length) (hsteps : n ≤ steps) (hpos : 0 < steps) :
    ∃ r t', msortWithTmp cmp steps b n (front ++ l ++ rest) t = .ok (front ++ r ++ rest, t') ∧
      StableSort cmp l r ∧ t'.length = t.length := by
  induction steps generalizing b n front l rest t with
  | zero => exact absurd hpos (Nat.lt_irrefl 0)
  | succ steps ih =>
    rw [msortWithTmp]
    by_cases hshort : n ≤ 1
    · rw [if_pos hshort]
      exact ⟨l, t, rfl, StableSort.short (by omega), rfl⟩
    · rw [if_neg hshort]
      dsimp only
      have hl1 : (l.take (n / 2)).length = n / 2 := by
        rw [List.length_take]
        omega
      have hl2 : (l.drop (n / 2)).length = n - n / 2 := by
        rw [List.length_drop, hl]
      have hparts : front ++ l ++ rest =
          front ++ l.take (n / 2) ++ (l.drop (n / 2) ++ rest) := by
        rw [List.append_assoc, List.append_assoc, ← List.append_assoc (l.take _),
          List.take_append_drop]
      obtain ⟨r1, t1, hsort1, hr1, hlength1⟩ := ih front (l.take (n / 2))
        (l.drop (n / 2) ++ rest) t hfront hl1 (by omega) (by omega) (by omega)
      have hcount1 : r1.length = n / 2 := by
        rw [hr1.perm.length_eq, hl1]
      have hfront1 : (front ++ r1).length = b + n / 2 := by
        rw [List.length_append, hfront, hcount1]
      obtain ⟨r2, t2, hsort2, hr2, hlength2⟩ := ih (front ++ r1)
        (l.drop (n / 2)) rest t1 hfront1 hl2 (by omega) (by omega) (by omega)
      have hcount2 : r2.length = n - n / 2 := by
        rw [hr2.perm.length_eq, hl2]
      have hsecond : front ++ r1 ++ (l.drop (n / 2) ++ rest) =
          front ++ r1 ++ l.drop (n / 2) ++ rest := by
        rw [List.append_assoc _ (l.drop _)]
      rw [hparts, hsort1, ok_bind]
      dsimp only
      rw [hsecond, hsort2, ok_bind]
      dsimp only
      -- the two halves, where they stand
      have hholds1 : Holds (front ++ r1 ++ r2 ++ rest) b r1 := by
        refine ⟨r2 ++ rest, ?_⟩
        rw [List.append_assoc, List.append_assoc, List.drop_left' hfront]
      have hholds2 : Holds (front ++ r1 ++ r2 ++ rest) (b + n / 2) r2 := by
        refine ⟨rest, ?_⟩
        rw [List.append_assoc, List.drop_left' hfront1]
      have hwhole : (front ++ r1 ++ r2 ++ rest).length = b + n + rest.length := by
        rw [List.length_append, List.length_append, hfront1, hcount2]
        omega
      obtain ⟨m, l', r', done, hloop, hl', hn1, hn2, hsuffix, hdone, htmp, hlength, hend, hsum,
        hsame⟩ := mergeLoop_ok cmp (n + 1) 0 [] (t := t2) hholds1 hholds2 rfl rfl
          (by omega) (by omega)
      rw [hcount1, hcount2] at hloop
      rw [hloop, ok_bind]
      have hstable := hr1.merge hcmp hr2
      rw [List.take_append_drop] at hstable
      rw [List.nil_append] at hsame
      -- what is left of the first half follows in the temporary array
      obtain ⟨t3, hout, htake, hlength3⟩ := copyOut_ok hl' hdone htmp (by omega)
      have hout' : copyFirst (front ++ r1 ++ r2 ++ rest) m = .ok t3 := by
        rw [copyFirst, hn1]
        split
        · exact hout
        · next hnone =>
          have hnil : l' = [] := List.length_eq_zero_iff.mp (by omega)
          rw [hnil] at hout
          exact hout
      rw [hout', ok_bind]
      have hcount : (done ++ l').length = n - m.n2 := by
        rw [List.length_append, htmp, hn2]
        omega
      have hback := copyBack_ok (a := front ++ r1 ++ r2 ++ rest) (t := t3) (done ++ l') 0 b
        (by rw [List.drop_zero, List.length_append, htmp, htake]) (by rw [hcount]; omega)
      rw [hcount] at hback
      rw [hback, ok_bind]
      refine ⟨done ++ l' ++ r', t3, ?_, ?_, by omega⟩
      · congr 2
        -- what is left of the second half is where it belongs
        obtain ⟨r₀, hr₀⟩ := hsuffix
        have hbefore : (front ++ r1 ++ r₀).length = b + (n - m.n2) := by
          have hr2' := congrArg List.length hr₀
          rw [List.length_append] at hr2'
          rw [List.length_append, hfront1]
          omega
        have htail : (front ++ r1 ++ r2 ++ rest).drop (b + (n - m.n2)) = r' ++ rest := by
          rw [← hr₀, ← List.append_assoc _ r₀, List.append_assoc _ r' rest,
            List.drop_left' hbefore]
        have hhead : (front ++ r1 ++ r2 ++ rest).take b = front := by
          rw [List.append_assoc, List.append_assoc, List.take_left' hfront]
        rw [htail, hhead, List.append_assoc, List.append_assoc, List.append_assoc,
          List.append_assoc, List.append_assoc]
      · rw [hsame]
        exact hstable

end Mintlib.Sort
