import Mintlib.Lib.Checked
import Mintlib.Unx2dos

/-!
# The directory part of a path: `dirname.c`

`dirname` cuts its argument in place. It looks for the last separator, of which there are two,
goes back over the separators before it, and treats a drive as a special case.
-/

namespace Mintlib.Dirname

open Text Unx2dos Checked

def isSep (c : UInt8) : Bool := c = SLASH ∨ c = BACKSLASH

/-- The place of the last `c` in a string. -/
def strrchr : Str → UInt8 → Option ℕ
  | [], _ => none
  | d :: s, c =>
    match strrchr s c with
    | some i => some (i + 1)
    | none => if d = c then some 0 else none

/-- The same in the first `n` characters. -/
def memrchr (s : Str) (c : UInt8) (n : ℕ) : Option ℕ := strrchr (s.take n) c

/-- Pointers into the string are compared; `NULL` is in front of all. -/
def ptr : Option ℕ → ℕ
  | none => 0
  | some i => i + 1

/-- `for (runp = last_slash; runp != path; --runp)`. -/
def skipBack (mem : Str) : ℕ → Except Stop ℕ
  | 0 => .ok 0
  | i + 1 => do
    let c ← load mem i
    if isSep c then skipBack mem i else .ok (i + 1)

/-- A letter or a digit in front of a colon, and nothing else: the third test of the code. -/
def isDrive (c : UInt8) : Bool :=
  (65 ≤ c ∧ c ≤ 90 ∧ c ≠ 85) ∨ (97 ≤ c ∧ c ≤ 122) ∨ (48 ≤ c ∧ c ≤ 57)

/-- `path[1] == ':' && path[2] == '\0'`. -/
def onlyDrive (mem : Str) : Except Stop Bool := do
  if (← load mem 1) = COLON then
    return (← load mem 2) = 0
  else return false

/-- `last_slash`, as it is found first. -/
def findLast (s : Str) : Option ℕ :=
  let slash := strrchr s SLASH
  let backslash := strrchr s BACKSLASH
  if ptr backslash < ptr slash then slash else if backslash ≠ none then backslash else none

/-- The search is repeated if the separator that was found ends the path. -/
def lookFurther (s : Str) : Option ℕ → Except Stop (Option ℕ)
  | none => .ok none
  | some 0 => .ok (some 1)
  | some (i + 1) => do
    let last := i + 1
    if (← load (s ++ [0]) (last + 1)) = 0 then
      let runp ← skipBack (s ++ [0]) last
      if runp ≠ 0 then
        let slash := memrchr s SLASH runp
        let backslash := memrchr s BACKSLASH runp
        .ok (if slash = none ∨ ptr slash < ptr backslash then backslash else slash)
      else .ok (some last)
    else .ok (some last)

/-- Where the path is cut if nothing but separators is in front of `last`. -/
def rootEnd (mem : Str) (last : ℕ) : Except Stop ℕ :=
  if last = 1 then do
    .ok (if (← load mem 0) = (← load mem 1) then 2 else 1)
  else .ok 1

/-- The path without the separators in front of `last`. -/
def cutAt (mem : Str) (last : ℕ) : Except Stop Str := do
  let runp ← skipBack mem last
  let last ← if runp = 0 then rootEnd mem last else .ok runp
  let mem ← store mem last 0
  .ok (cstr mem)

def cutLast (s : Str) : Except Stop Str := do
  match ← lookFurther s (findLast s) with
  | none => .ok [DOT]
  | some last => cutAt (s ++ [0]) last

/-- `dirname`; `mint` is `__mint`. -/
def dirname (mint : Bool) : Option Str → Except Stop Str
  | none => .ok [DOT]
  | some s => do
    let mem := s ++ [0]
    let first ← load mem 0
    let unified ← if first = 85 ∨ first = 117 then onlyDrive mem else .ok false
    if unified ∧ mint then .ok (cstr ((mem.set 0 SLASH).set 1 0))
    else
      let drive ← onlyDrive mem
      if drive ∧ isDrive first then
        if mint then do
          -- it is not the letter that is folded
          let c ← load mem 1
          .ok (cstr ((mem.set 1 (tolower c)).set 0 SLASH))
        else .ok s
      else cutLast s

/-- The root that a path with these separators in front names: two equal ones are kept. -/
def root (seps : Str) : Str :=
  if seps.length = 2 ∧ seps[0]? = seps[1]? then seps else seps.take 1

def parent (s : Str) : Str :=
  ((s.rdropWhile isSep).rdropWhile fun c => !isSep c).rdropWhile isSep

def leading (s : Str) : Str := s.takeWhile isSep

def plain (s : Str) : Str :=
  if parent s ≠ [] then parent s else if leading s ≠ [] then root (leading s) else [DOT]

def driveRoot (x : UInt8) : Str := if tolower x = 117 then [SLASH] else [SLASH, tolower x]

def below (top name : Str) : Str :=
  if name = [] then top
  else (if top = [SLASH] then [] else top) ++ (if leading name = [] then [SLASH] else []) ++ name

def HasDrive : Str → Prop
  | x :: c :: _ => (isDrive x ∨ x = 85) ∧ c = COLON
  | _ => False

instance : DecidablePred HasDrive
  | [] => .isFalse id
  | [_] => .isFalse id
  | _ :: _ :: _ => inferInstanceAs (Decidable (_ ∧ _))

def reference (mint : Bool) (s : Str) : Str :=
  if mint ∧ HasDrive s then below (driveRoot (s.headD 0)) (parent (s.drop 2)) else plain s

def BareDrive (s : Str) : Prop := ∃ x, isDrive x ∧ s = [x, COLON]

section Scan

variable {s a b t seps : Str} {c : UInt8} {i : ℕ}

def lastSep : Str → Option ℕ
  | [] => none
  | c :: s =>
    match lastSep s with
    | some i => some (i + 1)
    | none => if isSep c then some 0 else none

theorem isSep_iff : isSep c = true ↔ c = SLASH ∨ c = BACKSLASH := by
  rw [isSep, decide_eq_true_iff]

theorem ptr_inj {x y : Option ℕ} (h : ptr x = ptr y) : x = y := by
  cases x <;> cases y <;> simp_all [ptr]

theorem ptr_strrchr (d : UInt8) (s : Str) (c : UInt8) :
    ptr (strrchr (d :: s) c) =
      if ptr (strrchr s c) = 0 then (if d = c then 1 else 0) else ptr (strrchr s c) + 1 := by
  rw [strrchr]
  cases strrchr s c with
  | none =>
    show ptr (if d = c then some 0 else none) = if d = c then 1 else 0
    split_ifs <;> rfl
  | some i => rfl

theorem ptr_lastSep (s : Str) :
    ptr (lastSep s) = max (ptr (strrchr s SLASH)) (ptr (strrchr s BACKSLASH)) := by
  induction s with
  | nil => rfl
  | cons c s ih =>
    have hcons : ptr (lastSep (c :: s)) =
        if ptr (lastSep s) = 0 then (if isSep c then 1 else 0) else ptr (lastSep s) + 1 := by
      rw [lastSep]
      cases lastSep s with
      | none =>
        show ptr (if isSep c then some 0 else none) = if isSep c then 1 else 0
        split_ifs <;> rfl
      | some i => rfl
    have hsep : isSep c = true ↔ c = SLASH ∨ c = BACKSLASH := isSep_iff
    rw [hcons, ptr_strrchr, ptr_strrchr, ih]
    split_ifs <;> first | omega | simp_all

theorem findLast_eq (s : Str) : findLast s = lastSep s := by
  refine ptr_inj ?_
  rw [ptr_lastSep, findLast]
  split_ifs with hlt hsome
  · exact (max_eq_left hlt.le).symm
  · exact (max_eq_right (not_lt.mp hlt)).symm
  · rw [not_not.mp hsome] at hlt ⊢
    simp only [ptr] at hlt ⊢
    omega

theorem findAgain_eq (s : Str) :
    (if strrchr s SLASH = none ∨ ptr (strrchr s SLASH) < ptr (strrchr s BACKSLASH) then
      strrchr s BACKSLASH else strrchr s SLASH) = lastSep s := by
  refine ptr_inj ?_
  rw [ptr_lastSep]
  split_ifs with h
  · rcases h with h | h
    · rw [h]
      exact (max_eq_right (Nat.zero_le _)).symm
    · exact (max_eq_right h.le).symm
  · exact (max_eq_left (not_lt.mp (not_or.mp h).2)).symm

theorem lastSep_none (h : ∀ c ∈ s, isSep c = false) : lastSep s = none := by
  induction s with
  | nil => rfl
  | cons c s ih =>
    obtain ⟨hc, hs⟩ := List.forall_mem_cons.mp h
    rw [lastSep, ih hs, hc]
    rfl

theorem lastSep_append (a : Str) (hc : isSep c = true) (hb : ∀ c ∈ b, isSep c = false) :
    lastSep (a ++ c :: b) = some a.length := by
  induction a with
  | nil =>
    rw [List.nil_append, lastSep, lastSep_none hb]
    exact if_pos hc
  | cons d a ih => rw [List.cons_append, lastSep, ih, List.length_cons]

/-- The loop goes back over the separators and stops behind a character that is none. -/
theorem skipBack_eq (ha : a.rdropWhile isSep = a) (hseps : ∀ c ∈ seps, isSep c = true)
    (t : Str) : skipBack (a ++ (seps ++ t)) (a.length + seps.length) = .ok a.length := by
  induction seps using List.reverseRecOn generalizing t with
  | nil =>
    rw [List.length_nil, Nat.add_zero, List.nil_append]
    rcases List.eq_nil_or_concat' a with rfl | ⟨a', d, rfl⟩
    · rfl
    · have hd : isSep d = false := by
        rw [← Bool.not_eq_true]
        intro hd
        rw [List.rdropWhile_concat_pos _ _ _ hd] at ha
        have hlen := congrArg List.length ha
        have hle := (List.rdropWhile_prefix isSep a').length_le
        rw [List.length_append, List.length_singleton] at hlen
        omega
      rw [List.length_append, List.length_singleton, skipBack, List.append_assoc,
        List.singleton_append, load_append]
      show (if isSep d then _ else _) = _
      rw [if_neg (Bool.eq_false_iff.mp hd)]
  | append_singleton seps c ih =>
    obtain ⟨hseps, hc⟩ := List.forall_mem_append.mp hseps
    have hlen : a.length + (seps ++ [c]).length = (a ++ seps).length + 1 := by
      rw [List.length_append, List.length_append, List.length_singleton, Nat.add_assoc]
    have hmem : a ++ (seps ++ [c] ++ t) = (a ++ seps) ++ c :: t := by
      simp only [List.append_assoc, List.singleton_append]
    rw [hlen, skipBack, hmem, load_append]
    show (if isSep c then _ else _) = _
    rw [if_pos (hc c (List.mem_singleton_self c)), List.append_assoc, List.length_append]
    exact ih hseps (c :: t)

end Scan

/-- A path in front of which `front` is left, and the separators and the component behind it. -/
structure Parts (s seps comp trail : Str) : Prop where
  eq : s = parent s ++ (seps ++ (comp ++ trail))
  separators : ∀ c ∈ seps, isSep c = true
  component : ∀ c ∈ comp, isSep c = false
  trailing : ∀ c ∈ trail, isSep c = true
  named : comp = [] → seps = []
  below : seps = [] → parent s = []

theorem mem_rtakeWhile {p : UInt8 → Bool} {s : Str} {c : UInt8} (h : c ∈ s.rtakeWhile p) :
    p c = true := by
  rw [List.rtakeWhile, List.mem_reverse] at h
  exact List.mem_takeWhile_imp h

theorem rtakeWhile_nil {p : UInt8 → Bool} {s : Str} (h : s.rtakeWhile p = []) :
    s.rdropWhile p = s := by
  have hsplit := List.rdropWhile_append_rtakeWhile (p := p) (l := s)
  rwa [h, List.append_nil] at hsplit

theorem rdropWhile_nil_of {p q : UInt8 → Bool} (hpq : ∀ c, q c = false → p c = true) {s : Str}
    (h : (s.rdropWhile q).rtakeWhile p = []) : s.rdropWhile q = [] := by
  by_contra hne
  have hlast := List.rdropWhile_last_not q s hne
  have hnot := List.rdropWhile_eq_self_iff.mp (rtakeWhile_nil h) hne
  exact hnot (hpq _ (Bool.eq_false_iff.mpr hlast))

theorem exists_parts (s : Str) : ∃ seps comp trail, Parts s seps comp trail := by
  have hbody := List.rdropWhile_append_rtakeWhile (p := isSep) (l := s)
  have hdir := List.rdropWhile_append_rtakeWhile (p := fun c => !isSep c)
    (l := s.rdropWhile isSep)
  have hfront := List.rdropWhile_append_rtakeWhile (p := isSep)
    (l := (s.rdropWhile isSep).rdropWhile fun c => !isSep c)
  refine ⟨((s.rdropWhile isSep).rdropWhile fun c => !isSep c).rtakeWhile isSep,
    (s.rdropWhile isSep).rtakeWhile fun c => !isSep c, s.rtakeWhile isSep, ?_,
    fun c hc => mem_rtakeWhile hc, fun c hc => ?_, fun c hc => mem_rtakeWhile hc, fun h => ?_,
    fun h => ?_⟩
  · rw [← List.append_assoc, parent, hfront, ← List.append_assoc, hdir, hbody]
  · simpa only [Bool.not_eq_true'] using mem_rtakeWhile hc
  · have hnil := rdropWhile_nil_of (fun c hc => by rw [hc]; rfl) h
    rw [hnil]
    rfl
  · have hnil := rdropWhile_nil_of (fun c hc => by simpa only [Bool.not_eq_false'] using hc) h
    rw [parent, hnil]
    rfl

theorem parent_ends (s : Str) : (parent s).rdropWhile isSep = parent s :=
  List.rdropWhile_idempotent _ _

theorem leading_of_all {s : Str} (h : ∀ c ∈ s, isSep c = true) : leading s = s :=
  List.takeWhile_eq_self_iff.mpr h

section Pieces

variable {s front seps comp trail t : Str} {c : UInt8} {i : ℕ}

theorem leading_append (hseps : ∀ c ∈ seps, isSep c = true) (hcomp : ∀ c ∈ comp, isSep c = false)
    (hne : comp ≠ []) (t : Str) : leading (seps ++ (comp ++ t)) = seps := by
  obtain ⟨d, comp', rfl⟩ := List.exists_cons_of_ne_nil hne
  have hd : isSep d = false := hcomp d List.mem_cons_self
  rw [leading, List.takeWhile_append_of_pos hseps, List.cons_append,
    List.takeWhile_cons_of_neg (Bool.eq_false_iff.mp hd), List.append_nil]

theorem cutAt_front (h0 : 0 ∉ front) (hfront : front.rdropWhile isSep = front) (hne : front ≠ [])
    (hseps : ∀ c ∈ seps, isSep c = true) (c : UInt8) (t : Str) :
    cutAt (front ++ (seps ++ c :: t)) (front.length + seps.length) = .ok front := by
  have hpos : front.length ≠ 0 := List.length_pos_iff.mpr hne |>.ne'
  obtain ⟨d, t', ht⟩ : ∃ d t', seps ++ c :: t = d :: t' := List.exists_cons_of_ne_nil (by simp)
  rw [cutAt, skipBack_eq hfront hseps]
  simp only [bind, Except.bind]
  rw [if_neg hpos, ht, store_append]
  show Except.ok (cstr (front ++ 0 :: t')) = _
  rw [cstr_append h0]

theorem cutAt_start (hseps : ∀ c ∈ seps, isSep c = true) (hi : i ≤ seps.length) (t : Str) :
    cutAt (seps ++ t) i = (rootEnd (seps ++ t) i >>= fun last => store (seps ++ t) last 0).map cstr := by
  have hskip : skipBack (seps ++ t) i = .ok 0 := by
    have htake : (seps.take i).length = i := by rw [List.length_take, min_eq_left hi]
    have hsome : ∀ c ∈ seps.take i, isSep c = true := fun c hc => hseps c (List.mem_of_mem_take hc)
    have h := skipBack_eq (a := []) rfl hsome (seps.drop i ++ t)
    rwa [List.nil_append, ← List.append_assoc, List.take_append_drop, htake, List.length_nil,
      Nat.zero_add] at h
  rw [cutAt, hskip]
  simp only [bind, Except.bind]
  rw [if_pos trivial]
  cases rootEnd (seps ++ t) i with
  | error stop => rfl
  | ok last =>
    simp only
    cases store (seps ++ t) last 0 <;> rfl

theorem cutAt_root (h0 : 0 ∉ seps) (hseps : ∀ c ∈ seps, isSep c = true) (hc : isSep c = false)
    (hi : i + 1 = seps.length ∨ (seps.length = 1 ∧ i = 1)) (t : Str) :
    cutAt (seps ++ c :: t) i = .ok (root seps) := by
  rw [cutAt_start hseps (by omega)]
  match seps, hseps, h0, hi with
  | [], _, _, hi =>
    rw [List.length_nil] at hi
    omega
  | [x], hseps, h0, hi =>
    have hx : isSep x = true := hseps x (List.mem_singleton_self x)
    have hend : rootEnd ([x] ++ c :: t) i = .ok 1 := by
      rw [rootEnd]
      split_ifs with hone
      · show Except.ok (if x = c then 2 else 1) = _
        have hne : x ≠ c := by
          rintro rfl
          exact absurd hx (Bool.eq_false_iff.mp hc)
        rw [if_neg hne]
      · rfl
    rw [hend]
    show Except.ok (cstr ([x] ++ 0 :: t)) = _
    rw [cstr_append h0]
    rfl
  | [x, y], hseps, h0, hi =>
    have hone : i = 1 := by
      rw [List.length_cons, List.length_singleton] at hi
      omega
    have hend : rootEnd ([x, y] ++ c :: t) i = .ok (if x = y then 2 else 1) := by
      rw [rootEnd, if_pos hone]
      rfl
    have hroot : root [x, y] = if x = y then [x, y] else [x] := by
      by_cases hxy : x = y
      · rw [if_pos hxy, root, if_pos ⟨rfl, congrArg some hxy⟩]
      · rw [if_neg hxy, root, if_neg (fun h => hxy (Option.some_inj.mp h.2))]
        rfl
    have hx : 0 ∉ [x] := fun h => h0 (by
      rw [List.mem_singleton.mp h]
      exact List.mem_cons_self)
    rw [hend, hroot]
    split_ifs with hxy
    · show Except.ok (cstr ([x, y] ++ 0 :: t)) = _
      rw [cstr_append h0]
    · show Except.ok (cstr ([x] ++ 0 :: c :: t)) = _
      rw [cstr_append hx]
  | x :: y :: z :: l, hseps, h0, hi =>
    have hend : rootEnd (x :: y :: z :: l ++ c :: t) i = .ok 1 := by
      rw [rootEnd, if_neg]
      simp only [List.length_cons] at hi
      omega
    have hx : 0 ∉ [x] := fun h => h0 (by
      rw [List.mem_singleton.mp h]
      exact List.mem_cons_self)
    have hroot : root (x :: y :: z :: l) = [x] := by
      rw [root, if_neg]
      · rfl
      · intro h
        simp only [List.length_cons] at h
        omega
    rw [hend, hroot]
    show Except.ok (cstr ([x] ++ 0 :: z :: (l ++ c :: t))) = _
    rw [cstr_append hx]

theorem lookFurther_inner (h0 : 0 ∉ s) {a : Str} {c d : UInt8} {t : Str}
    (hs : s = a ++ c :: d :: t) :
    lookFurther s (some a.length) = .ok (some (if a = [] then 1 else a.length)) := by
  by_cases ha : a = []
  · rw [ha]
    rfl
  · obtain ⟨i, hi⟩ := Nat.exists_eq_add_of_le' (List.length_pos_iff.mpr ha)
    have hd : d ≠ 0 := by
      rintro rfl
      exact h0 (by rw [hs]; simp)
    have hbyte : load (s ++ [0]) (i + 1 + 1) = .ok d := by
      have hmem : s ++ [0] = (a ++ [c]) ++ d :: (t ++ [0]) := by
        rw [hs]
        simp only [List.append_assoc, List.cons_append, List.nil_append]
      have hlen : i + 1 + 1 = (a ++ [c]).length := by
        rw [List.length_append, List.length_singleton, hi]
      rw [hmem, hlen, load_append]
    rw [if_neg ha, hi, lookFurther]
    simp only [bind, Except.bind, hbyte]
    rw [if_neg hd]

theorem lookFurther_last {a : Str} {c : UInt8} (hs : s = a ++ [c]) (ha : a ≠ []) {runp : ℕ}
    (hrunp : skipBack (s ++ [0]) a.length = .ok runp) :
    lookFurther s (some a.length) =
      .ok (if runp = 0 then some a.length else lastSep (s.take runp)) := by
  obtain ⟨i, hi⟩ := Nat.exists_eq_add_of_le' (List.length_pos_iff.mpr ha)
  have hbyte : load (s ++ [0]) (i + 1 + 1) = .ok 0 := by
    have hlen : i + 1 + 1 = s.length := by
      rw [hs, List.length_append, List.length_singleton, hi]
    rw [hlen, load_append]
  rw [hi] at hrunp ⊢
  rw [lookFurther]
  simp only [bind, Except.bind, hbyte, hrunp]
  rw [if_pos trivial]
  by_cases hzero : runp = 0
  · rw [if_neg (not_not_intro hzero), if_pos hzero]
  · rw [if_pos hzero, if_neg hzero]
    exact congrArg _ (findAgain_eq _)

theorem cutLast_of_none (h : lookFurther s (findLast s) = .ok none) : cutLast s = .ok [DOT] := by
  rw [cutLast, h]
  rfl

theorem cutLast_of_some (h : lookFurther s (findLast s) = .ok (some i)) :
    cutLast s = cutAt (s ++ [0]) i := by
  rw [cutLast, h]
  rfl

end Pieces

theorem cutLast_seps {s : Str} (h0 : 0 ∉ s) (hs : ∀ c ∈ s, isSep c = true) (hne : s ≠ []) :
    cutLast s = .ok (root s) := by
  rcases List.eq_nil_or_concat' s with rfl | ⟨a, c, rfl⟩
  · exact absurd rfl hne
  obtain ⟨ha, hc⟩ := List.forall_mem_append.mp hs
  have hfind : findLast (a ++ [c]) = some a.length := by
    rw [findLast_eq]
    exact lastSep_append a (hc c (List.mem_singleton_self c)) (fun d hd => absurd hd List.not_mem_nil)
  have hnul : isSep 0 = false := rfl
  by_cases hnil : a = []
  · subst hnil
    have hlook : lookFurther ([] ++ [c]) (findLast ([] ++ [c])) = .ok (some 1) := by
      rw [hfind]
      rfl
    rw [cutLast_of_some hlook]
    exact cutAt_root h0 hs hnul (Or.inr ⟨rfl, rfl⟩) []
  · have hskip : skipBack (a ++ [c] ++ [0]) a.length = .ok 0 := by
      have h := skipBack_eq (a := []) rfl ha ([c] ++ [0])
      rwa [List.nil_append, List.length_nil, Nat.zero_add, ← List.append_assoc] at h
    have hlook := lookFurther_last rfl hnil hskip
    rw [if_pos rfl, ← hfind] at hlook
    rw [cutLast_of_some (hlook.trans (congrArg _ hfind))]
    refine cutAt_root h0 hs hnul (Or.inl ?_) []
    rw [List.length_append, List.length_singleton]

theorem cutLast_cut {s front seps comp trail : Str} (h0 : 0 ∉ s)
    (hs : s = front ++ (seps ++ (comp ++ trail))) (hfront : front.rdropWhile isSep = front)
    (hseps : ∀ c ∈ seps, isSep c = true) (hcomp : ∀ c ∈ comp, isSep c = false) (hne : seps ≠ [])
    (hne' : comp ≠ [])
    (hlook : lookFurther s (findLast s) = .ok (some (front.length + seps.length - 1)) ∨
      (front = [] ∧ seps.length = 1 ∧ lookFurther s (findLast s) = .ok (some 1))) :
    cutLast s = .ok (if front = [] then root seps else front) := by
  have hpos := List.length_pos_iff.mpr hne
  obtain ⟨d, comp', rfl⟩ := List.exists_cons_of_ne_nil hne'
  have hd : isSep d = false := hcomp d List.mem_cons_self
  have hfront0 : 0 ∉ front := fun h => h0 (by rw [hs]; exact List.mem_append_left _ h)
  have hseps0 : 0 ∉ seps := fun h => h0 (by
    rw [hs]
    exact List.mem_append_right _ (List.mem_append_left _ h))
  have hmem : s ++ [0] = front ++ (seps ++ d :: (comp' ++ trail ++ [0])) := by
    rw [hs]
    simp only [List.append_assoc, List.cons_append]
  by_cases hnil : front = []
  · subst hnil
    rw [if_pos rfl]
    rw [List.nil_append] at hmem
    rcases hlook with hlook | ⟨-, hone, hlook⟩
    · rw [cutLast_of_some hlook, hmem]
      refine cutAt_root hseps0 hseps hd (Or.inl ?_) _
      rw [List.length_nil]
      omega
    · rw [cutLast_of_some hlook, hmem]
      exact cutAt_root hseps0 hseps hd (Or.inr ⟨hone, rfl⟩) _
  · rw [if_neg hnil]
    rcases hlook with hlook | ⟨h, -⟩
    · obtain ⟨seps', c, rfl⟩ : ∃ seps' c, seps = seps' ++ [c] :=
        ⟨_, _, (List.dropLast_append_getLast hne).symm⟩
      have hlen : front.length + (seps' ++ [c]).length - 1 = front.length + seps'.length := by
        rw [List.length_append, List.length_singleton]
        omega
      rw [hlen] at hlook
      rw [cutLast_of_some hlook, hmem, List.append_assoc]
      exact cutAt_front hfront0 hfront hnil (List.forall_mem_append.mp hseps).1 c _
    · exact absurd h hnil

theorem ends_comp (a : Str) {comp : Str} (hcomp : ∀ c ∈ comp, isSep c = false) (hne : comp ≠ []) :
    (a ++ comp).rdropWhile isSep = a ++ comp := by
  obtain ⟨comp', c, rfl⟩ : ∃ comp' c, comp = comp' ++ [c] :=
    ⟨_, _, (List.dropLast_append_getLast hne).symm⟩
  have hc : isSep c = false := hcomp c (List.mem_append_right _ (List.mem_singleton_self c))
  rw [← List.append_assoc, List.rdropWhile_concat_neg _ _ _ (Bool.eq_false_iff.mp hc)]

/-- The search in a path that ends in separators is the one in the path without them. -/
theorem lookFurther_trail {a trail : Str} (ha : a.rdropWhile isSep = a) (hne : a ≠ [])
    (htrail : ∀ c ∈ trail, isSep c = true) (hne' : trail ≠ []) :
    lookFurther (a ++ trail) (findLast (a ++ trail)) = .ok (lastSep a) := by
  obtain ⟨trail', c, rfl⟩ : ∃ trail' c, trail = trail' ++ [c] :=
    ⟨_, _, (List.dropLast_append_getLast hne').symm⟩
  obtain ⟨htrail', hc⟩ := List.forall_mem_append.mp htrail
  have hs : a ++ (trail' ++ [c]) = (a ++ trail') ++ [c] := (List.append_assoc _ _ _).symm
  have hfind : findLast (a ++ (trail' ++ [c])) = some (a ++ trail').length := by
    rw [findLast_eq, hs]
    exact lastSep_append _ (hc c (List.mem_singleton_self c)) (fun d hd => absurd hd List.not_mem_nil)
  have hskip : skipBack (a ++ (trail' ++ [c]) ++ [0]) (a ++ trail').length = .ok a.length := by
    rw [List.append_assoc, List.append_assoc, List.length_append]
    exact skipBack_eq ha htrail' _
  have hlook := lookFurther_last hs (List.append_ne_nil_of_left_ne_nil hne _) hskip
  rw [if_neg (List.length_pos_iff.mpr hne).ne', List.take_left] at hlook
  rw [hfind, hlook]

theorem cutLast_eq {s : Str} (h0 : 0 ∉ s) : cutLast s = .ok (plain s) := by
  obtain ⟨seps, comp, trail, hparts⟩ := exists_parts s
  have hs := hparts.eq
  have hcomp := hparts.component
  have hseps := hparts.separators
  have hfront := parent_ends s
  -- a name of separators only, then one without a parent, then the others
  by_cases hnil : comp = []
  · have hseps' := hparts.named hnil
    have hparent := hparts.below hseps'
    rw [hseps', hnil, hparent] at hs
    simp only [List.nil_append] at hs
    have hall : ∀ c ∈ s, isSep c = true := hs ▸ hparts.trailing
    rw [plain, hparent, if_neg (fun h => h rfl), leading_of_all hall]
    by_cases hempty : s = []
    · rw [hempty]
      rfl
    · rw [if_pos hempty]
      exact cutLast_seps h0 hall hempty
  · by_cases hseps' : seps = []
    · have hparent := hparts.below hseps'
      rw [hseps', hparent] at hs
      simp only [List.nil_append] at hs
      have hleading : leading s = [] := by
        rw [hs]
        show leading ([] ++ (comp ++ trail)) = []
        exact leading_append (fun c hc => absurd hc List.not_mem_nil) hcomp hnil trail
      rw [plain, hparent, if_neg (fun h => h rfl), hleading, if_neg (fun h => h rfl)]
      refine cutLast_of_none ?_
      by_cases htrail : trail = []
      · rw [htrail, List.append_nil] at hs
        rw [findLast_eq, hs, lastSep_none hcomp]
        rfl
      · have hends : comp.rdropWhile isSep = comp := ends_comp [] hcomp hnil
        rw [hs, lookFurther_trail hends hnil hparts.trailing htrail, lastSep_none hcomp]
    · obtain ⟨seps', c, hsplit⟩ : ∃ seps' c, seps = seps' ++ [c] :=
        ⟨_, _, (List.dropLast_append_getLast hseps').symm⟩
      have hc : isSep c = true := hseps c (by rw [hsplit]; simp)
      have hlast : lastSep (parent s ++ (seps ++ comp)) =
          some (parent s ++ seps').length := by
        have hmem : parent s ++ (seps ++ comp) = (parent s ++ seps') ++ c :: comp := by
          rw [hsplit]
          simp only [List.append_assoc, List.cons_append, List.nil_append]
        rw [hmem, lastSep_append _ hc hcomp]
      have hlen : (parent s ++ seps').length = (parent s).length + seps.length - 1 := by
        rw [hsplit, List.length_append, List.length_append, List.length_singleton]
        omega
      have hresult := cutLast_cut h0 hs hfront hseps hcomp hseps' hnil
      have hplain : plain s = if parent s = [] then root seps else parent s := by
        by_cases hparent : parent s = []
        · have hleading : leading s = seps := by
            rw [hparent, List.nil_append] at hs
            rw [hs]
            exact leading_append hseps hcomp hnil trail
          rw [plain, hparent, if_neg (fun h => h rfl), hleading, if_pos hseps', if_pos rfl]
        · rw [plain, if_pos hparent, if_neg hparent]
      rw [hplain]
      refine hresult ?_
      -- the search for the last separator begins in front of those at the end
      by_cases htrail : trail = []
      · rw [htrail, List.append_nil] at hs
        have hfind : findLast s = some (parent s ++ seps').length := by
          rw [findLast_eq, ← hlast, ← hs]
        obtain ⟨d, comp', hd⟩ := List.exists_cons_of_ne_nil hnil
        have hinner := lookFurther_inner h0 (a := parent s ++ seps') (c := c) (d := d) (t := comp') (by
          conv_lhs => rw [hs, hsplit, hd]
          simp only [List.append_assoc, List.cons_append, List.nil_append])
        rw [← hfind] at hinner
        by_cases hfirst : parent s ++ seps' = []
        · rw [if_pos hfirst] at hinner
          obtain ⟨hparent, hseps''⟩ := List.append_eq_nil_iff.mp hfirst
          refine Or.inr ⟨hparent, ?_, hinner⟩
          rw [hsplit, hseps'']
          rfl
        · rw [if_neg hfirst, hlen] at hinner
          exact Or.inl hinner
      · have hall : s = (parent s ++ (seps ++ comp)) ++ trail := by
          conv_lhs => rw [hs]
          simp only [List.append_assoc]
        have hends : (parent s ++ (seps ++ comp)).rdropWhile isSep = parent s ++ (seps ++ comp) := by
          rw [← List.append_assoc]
          exact ends_comp _ hcomp hnil
        have hlook := lookFurther_trail hends (by simp [hnil]) hparts.trailing htrail
        rw [← hall, hlast, hlen] at hlook
        exact Or.inl hlook

section Drive

variable {mint : Bool} {s rest : Str} {x c : UInt8}

theorem onlyDrive_two (x c : UInt8) (h0 : 0 ∉ x :: c :: rest) :
    onlyDrive (x :: c :: rest ++ [0]) = .ok (decide (c = COLON ∧ rest = [])) := by
  show (if c = COLON then (load (x :: c :: rest ++ [0]) 2).map fun d => decide (d = 0)
    else Except.ok false) = _
  by_cases hc : c = COLON
  · rw [if_pos hc]
    cases rest with
    | nil => simp [load, Except.map, hc]
    | cons d rest =>
      have hd : d ≠ 0 := by
        rintro rfl
        exact h0 (by simp)
      simp [load, Except.map, hd]
  · simp [hc]

theorem dirname_long (h0 : 0 ∉ s) (hne : s ≠ []) (hlong : ∀ x, s ≠ [x, COLON]) :
    dirname mint (some s) = .ok (plain s) := by
  rw [← cutLast_eq h0]
  match s, h0, hne, hlong with
  | [x], h0, _, _ =>
    have hdrive : onlyDrive ([x] ++ [0]) = .ok false := rfl
    have hbyte : load ([x] ++ [0]) 0 = .ok x := rfl
    rw [dirname, hbyte]
    simp only [bind, Except.bind, hdrive, ite_self, Bool.false_eq_true, false_and, if_false]
  | x :: c :: rest, h0, _, hlong =>
    have hnot : ¬ (c = COLON ∧ rest = []) := by
      rintro ⟨rfl, rfl⟩
      exact hlong x rfl
    have hdrive := onlyDrive_two x c h0
    rw [decide_eq_false hnot] at hdrive
    have hbyte : load (x :: c :: rest ++ [0]) 0 = .ok x := rfl
    rw [dirname, hbyte]
    simp only [bind, Except.bind, hdrive, ite_self, Bool.false_eq_true, false_and, if_false]

theorem dirname_drive (x : UInt8) (h0 : 0 ∉ [x, COLON]) :
    dirname mint (some [x, COLON]) =
      if (x = 85 ∨ x = 117) ∧ mint then .ok [SLASH]
      else if isDrive x then (if mint then .ok [SLASH, COLON] else .ok [x, COLON])
      else .ok (plain [x, COLON]) := by
  have hdrive : onlyDrive ([x, COLON] ++ [0]) = .ok true := onlyDrive_two x COLON h0
  have hbyte : load ([x, COLON] ++ [0]) 0 = .ok x := rfl
  rw [← cutLast_eq h0, dirname, hbyte]
  simp only [bind, Except.bind, hdrive, true_and]
  by_cases hx : x = 85 ∨ x = 117
  · rw [if_pos hx]
    cases mint with
    | true =>
      rw [if_pos rfl, if_pos ⟨hx, rfl⟩]
      rfl
    | false => simp only [Bool.false_eq_true, and_false, if_false]
  · rw [if_neg hx]
    simp only [Bool.false_eq_true, false_and, if_false, hx]
    cases mint <;> split_ifs <;> rfl

theorem drive_plain (h : isDrive x ∨ x = 85) :
    isSep x = false ∧ x ≠ DOT ∧ tolower x ≠ COLON := by
  have hall : ∀ n : Fin 256, (isDrive (UInt8.ofNat n) ∨ UInt8.ofNat n = 85) →
      isSep (UInt8.ofNat n) = false ∧ UInt8.ofNat n ≠ DOT ∧ tolower (UInt8.ofNat n) ≠ COLON := by
    decide +kernel
  have hx : UInt8.ofNat (⟨x.toNat, x.toNat_lt⟩ : Fin 256) = x := UInt8.ofNat_toNat
  rw [← hx] at h ⊢
  exact hall _ h

theorem head_plain (rest : Str) (h : isSep x = false) :
    plain (x :: rest) = [DOT] ∨ (plain (x :: rest)).head? = some x := by
  have hleading : leading (x :: rest) = [] := List.takeWhile_cons_of_neg (Bool.eq_false_iff.mp h)
  rw [plain, hleading]
  by_cases hparent : parent (x :: rest) = []
  · rw [if_neg (not_not_intro hparent)]
    exact Or.inl rfl
  · rw [if_pos hparent]
    obtain ⟨seps, comp, trail, hparts⟩ := exists_parts (x :: rest)
    obtain ⟨d, t, ht⟩ := List.exists_cons_of_ne_nil hparent
    have heq := hparts.eq
    rw [ht, List.cons_append] at heq
    rw [ht, List.head?_cons, (List.cons.inj heq).1]
    exact Or.inr rfl

theorem plain_drive (h : isSep x = false) : plain [x, COLON] = [DOT] := by
  have hall : ∀ c ∈ [x, COLON], isSep c = false := by
    intro c hc
    rcases List.mem_cons.mp hc with rfl | hc
    · exact h
    · rw [List.mem_singleton.mp hc]
      rfl
  have hbody : [x, COLON].rdropWhile isSep = [x, COLON] := ends_comp [] hall (List.cons_ne_nil _ _)
  have hdir : [x, COLON].rdropWhile (fun c => !isSep c) = [] :=
    List.rdropWhile_eq_nil_iff.mpr fun c hc => by rw [hall c hc]; rfl
  have hparent : parent [x, COLON] = [] := by
    rw [parent, hbody, hdir]
    rfl
  have hleading : leading [x, COLON] = [] :=
    List.takeWhile_cons_of_neg (Bool.eq_false_iff.mp h)
  rw [plain, hparent, hleading]
  rfl

theorem head_below (name : Str) (x : UInt8) :
    ∃ c t, below (driveRoot x) name = c :: t ∧ isSep c = true := by
  have hroot : ∃ t, driveRoot x = SLASH :: t := by
    unfold driveRoot
    split_ifs
    · exact ⟨_, rfl⟩
    · exact ⟨_, rfl⟩
  obtain ⟨t, ht⟩ := hroot
  unfold below
  by_cases hname : name = []
  · rw [if_pos hname]
    exact ⟨SLASH, t, ht, rfl⟩
  · rw [if_neg hname]
    by_cases hone : driveRoot x = [SLASH]
    · rw [if_pos hone, List.nil_append]
      by_cases hleading : leading name = []
      · rw [if_pos hleading]
        exact ⟨SLASH, name, rfl, rfl⟩
      · rw [if_neg hleading, List.nil_append]
        obtain ⟨c, l, rfl⟩ := List.exists_cons_of_ne_nil hname
        refine ⟨c, l, rfl, ?_⟩
        by_contra hc
        exact hleading (List.takeWhile_cons_of_neg hc)
    · rw [if_neg hone, ht]
      exact ⟨SLASH, _, rfl, rfl⟩

end Drive

/-- The paths for which `dirname` keeps what is promised. -/
def Kept (mint : Bool) (s : Str) : Prop :=
  s ≠ [] ∧ if mint then HasDrive s → s = [85, COLON] ∨ s = [117, COLON] else ¬ BareDrive s

/-- `dirname` gives the directory part and stays inside the string unless the path is empty or
begins with a drive that is not all of it, or not the root drive; without MiNT, unless it is a
drive. Of a path that is more than a drive it gives the directory part in which the drive is
left as it is. -/
theorem dirname_iff (mint : Bool) (s : Str) (h0 : 0 ∉ s) :
    (dirname mint (some s) = .ok (reference mint s) ↔ Kept mint s) ∧
    (s ≠ [] → (∀ x, s ≠ [x, COLON]) → dirname mint (some s) = .ok (plain s)) := by
  refine ⟨⟨fun h => ?_, fun h => ?_⟩, dirname_long h0⟩
  · have hne : s ≠ [] := by
      rintro rfl
      have hbounds : dirname mint (some []) = .error .bounds := rfl
      rw [hbounds] at h
      cases h
    refine ⟨hne, ?_⟩
    cases mint with
    | true =>
      rw [if_pos rfl]
      intro hdrive
      match s, hdrive with
      | x :: c :: rest, ⟨hx, hc⟩ =>
        subst hc
        obtain ⟨hsep, hdot, hcolon⟩ := drive_plain hx
        have hreference : reference true (x :: COLON :: rest) =
            below (driveRoot x) (parent rest) := if_pos ⟨rfl, hx, rfl⟩
        rw [hreference] at h
        by_cases hrest : rest = []
        · subst hrest
          rw [dirname_drive x h0] at h
          by_cases hroot : x = 85 ∨ x = 117
          · exact hroot.imp (fun h => by rw [h]) (fun h => by rw [h])
          · -- the colon is folded
            have hx' : isDrive x = true := hx.resolve_right fun h => hroot (Or.inl h)
            rw [if_neg (fun h => hroot h.1), if_pos hx', if_pos rfl] at h
            have heq : [SLASH, COLON] = driveRoot x := Except.ok.inj h
            unfold driveRoot at heq
            split_ifs at heq
            · cases heq
            · exact absurd (List.cons.inj (List.cons.inj heq).2).1.symm hcolon
        · have hlong : ∀ y, x :: COLON :: rest ≠ [y, COLON] := by
            rintro y hy
            exact hrest (List.cons.inj (List.cons.inj hy).2).2
          rw [dirname_long h0 hne hlong] at h
          obtain ⟨c, t, hbelow, hc⟩ := head_below (parent rest) x
          have heq : plain (x :: COLON :: rest) = c :: t := by
            rw [← hbelow]
            exact Except.ok.inj h
          rcases head_plain (COLON :: rest) hsep with hplain | hplain
          · rw [heq] at hplain
            rw [(List.cons.inj hplain).1] at hc
            exact absurd hc (by decide)
          · rw [heq] at hplain
            rw [Option.some.inj hplain, hsep] at hc
            cases hc
    | false =>
      rintro ⟨x, hx, rfl⟩
      rw [dirname_drive x h0] at h
      simp only [Bool.false_eq_true, and_false, if_false, hx, if_true] at h
      have heq : [x, COLON] = plain [x, COLON] := Except.ok.inj h
      rw [plain_drive (drive_plain (Or.inl hx)).1] at heq
      cases heq
  · obtain ⟨hne, hkept⟩ := h
    by_cases hbare : ∃ x, s = [x, COLON]
    · obtain ⟨x, rfl⟩ := hbare
      rw [dirname_drive x h0]
      cases mint with
      | true =>
        rw [if_pos rfl] at hkept
        by_cases hdrive : isDrive x ∨ x = 85
        · rcases hkept ⟨hdrive, rfl⟩ with h | h
          · cases h
            rfl
          · cases h
            rfl
        · obtain ⟨hx, hroot⟩ := not_or.mp hdrive
          have hsmall : ¬ (x = 85 ∨ x = 117) := by
            rintro (rfl | rfl)
            · exact hroot rfl
            · exact hx rfl
          have hreference : reference true [x, COLON] = plain [x, COLON] :=
            if_neg fun h => hdrive h.2.1
          rw [if_neg (fun h => hsmall h.1), if_neg hx, hreference]
      | false =>
        have hx : ¬ isDrive x = true := fun hx => hkept ⟨x, hx, rfl⟩
        have hreference : reference false [x, COLON] = plain [x, COLON] :=
          if_neg fun h => Bool.false_ne_true h.1
        rw [if_neg (fun h => Bool.false_ne_true h.2), if_neg hx, hreference]
    · have hlong : ∀ x, s ≠ [x, COLON] := fun x h => hbare ⟨x, h⟩
      have hreference : reference mint s = plain s := by
        refine if_neg ?_
        rintro ⟨hmint, hdrive⟩
        rw [if_pos hmint] at hkept
        rcases hkept hdrive with h | h
        · exact hlong _ h
        · exact hlong _ h
      rw [dirname_long h0 hne hlong, hreference]

theorem dirname_iff_demo :
    (dirname true (some [97, 47, 98]) = .ok (reference true [97, 47, 98]) ↔
      Kept true [97, 47, 98]) ∧
    (([97, 47, 98] : Str) ≠ [] → (∀ x, ([97, 47, 98] : Str) ≠ [x, COLON]) →
      dirname true (some [97, 47, 98]) = .ok (plain [97, 47, 98])) :=
  dirname_iff true [97, 47, 98] (by decide)

/-- The root of drive `c` comes out as `/:`, and the empty path is read behind its end. -/
theorem drive_spoilt :
    ¬ ∀ (mint : Bool) (s : Str), 0 ∉ s → dirname mint (some s) = .ok (reference mint s) := by
  intro h
  have hdrive := h true [99, COLON] (by decide)
  have hresult : dirname true (some [99, COLON]) = .ok [SLASH, COLON] := rfl
  rw [hresult] at hdrive
  exact absurd (Except.ok.inj hdrive) (by decide)

end Mintlib.Dirname
