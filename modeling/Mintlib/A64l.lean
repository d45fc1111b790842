import Mintlib.Stores
import Mintlib.Posix

/-!
# Numbers in base 64: `a64l.c` and `l64a.c`

The digits are `.`, `/`, `0` to `9`, `A` to `Z` and `a` to `z`. Both files reckon with the distance
from `.`, and correct it behind `9` and behind `Z`.
-/

namespace Mintlib.A64l

open Text Stores Posix Checked

/-- `a64i`: `'A' - '9' - 1` and `'a' - 'Z' - 1` are the corrections. -/
def a64i (c : UInt8) : Except ℕ ℤ :=
  let retval := c.toInt8.toInt
  if retval < 46 ∨ retval > 122 then .error EBADARG
  else
    let retval := retval - 46
    let retval := if c.toInt8.toInt > 57 then retval - 7 else retval
    let retval := if c.toInt8.toInt > 90 then retval - 6 else retval
    if retval > 63 then .error EBADARG else .ok retval

/-- The loop of `a64l`: the value, or `errno`. -/
def a64lLoop : ℕ → Str → BitVec 32 → Except ℕ (BitVec 32)
  | 0, _, retval => .ok retval
  | _ + 1, [], retval => .ok retval
  | counter + 1, c :: ptr, retval =>
    match a64i c with
    | .error errno => .error errno
    | .ok val => a64lLoop counter ptr (retval <<< 6 + BitVec.ofInt 32 val)

/-- `a64l`: what it returns, and `errno` if it sets it. -/
def a64l (s : Str) : BitVec 32 × Option ℕ :=
  match a64lLoop 6 s 0 with
  | .ok retval => (retval, none)
  | .error errno => (-1, some errno)

/-- `i64a`, with `errno` if it sets it. -/
def i64a (i : ℤ) : UInt8 × Option ℕ :=
  if i < 0 ∨ i > 63 then (0x7F, some EBADARG)
  else
    let retval := i + 46
    let retval := if i > 11 then retval + 7 else retval
    let retval := if i > 37 then retval + 6 else retval
    (UInt8.ofInt retval, none)

/-- The loop of `l64a`: what stands in front of `ptr1`, or `errno`. -/
def l64aLoop : ℕ → BitVec 32 → Str → Except (Option ℕ) Str
  | 0, _, buffer => .ok buffer
  | counter + 1, l, buffer =>
    if 0 < l.toInt then
      let (val, errno) := i64a (l &&& 0x3F).toInt
      if val = 0x7F then .error errno else l64aLoop counter (l.sshiftRight 6) (buffer ++ [val])
    else .ok buffer

/-- `l64a`: the string, and `errno` if it sets it. -/
def l64a (l : BitVec 32) : Str × Option ℕ :=
  if l.toInt < 0 then ([], some EBADARG)
  else if l.toInt = 0 then ([], none)
  else
    match l64aLoop 6 l [] with
    | .ok buffer => (buffer.reverse, none)
    | .error errno => ([], errno)

def Legal (c : UInt8) : Prop :=
  c = 46 ∨ c = 47 ∨ (48 ≤ c ∧ c ≤ 57) ∨ (65 ≤ c ∧ c ≤ 90) ∨ (97 ≤ c ∧ c ≤ 122)

instance (c : UInt8) : Decidable (Legal c) := by
  unfold Legal
  exact inferInstance

def value (c : UInt8) : ℕ :=
  if c ≤ 57 then c.toNat - 46 else if c ≤ 90 then c.toNat - 53 else c.toNat - 59

def number (s : Str) : ℕ := Nat.ofDigits 64 (s.map value).reverse

def InRange (c : UInt8) : Prop := 46 ≤ c ∧ c ≤ 122

instance (c : UInt8) : Decidable (InRange c) := inferInstanceAs (Decidable (_ ∧ _))

theorem forall_uint8 {P : UInt8 → Prop} (h : ∀ n : Fin 256, P (UInt8.ofFin n)) (c : UInt8) : P c :=
  h c.toFin

theorem a64i_legal (c : UInt8) (hc : Legal c) :
    a64i c = .ok (value c) ∧ value c < 64 ∧ i64a (value c) = (c, none) := by
  revert c
  apply forall_uint8
  decide +kernel

theorem i64a_digit (d : Fin 64) :
    Legal (i64a d).1 ∧ value (i64a d).1 = d ∧ (i64a d).1 ≠ 0x7F := by
  revert d
  decide +kernel

theorem a64i_isSome (c : UInt8) : (a64i c).toOption.isSome = true ↔ InRange c := by
  revert c
  apply forall_uint8
  decide +kernel

theorem a64i_ok {c : UInt8} (hc : InRange c) : ∃ val, a64i c = .ok val := by
  have hsome := (a64i_isSome c).mpr hc
  cases h : a64i c with
  | ok val => exact ⟨val, rfl⟩
  | error errno =>
    rw [h] at hsome
    exact absurd hsome (by simp [Except.toOption])

theorem a64i_error {c : UInt8} (hc : ¬ InRange c) : a64i c = .error EBADARG := by
  have hnone := mt (a64i_isSome c).mp hc
  cases h : a64i c with
  | ok val =>
    rw [h] at hnone
    exact absurd rfl hnone
  | error errno =>
    -- both tests set the same number
    simp only [a64i] at h
    split_ifs at h
    all_goals exact h.symm

theorem number_append (s : Str) (c : UInt8) : number (s ++ [c]) = 64 * number s + value c := by
  rw [number, number, List.map_append, List.map_singleton, List.reverse_append,
    List.reverse_singleton, List.singleton_append, Nat.ofDigits_cons]
  exact Nat.add_comm _ _

theorem a64lLoop_legal {counter : ℕ} (done : Str) {ptr : Str} (hlegal : ∀ c ∈ ptr, Legal c)
    (hcounter : ptr.length ≤ counter) :
    a64lLoop counter ptr (BitVec.ofNat 32 (number done)) =
      .ok (BitVec.ofNat 32 (number (done ++ ptr))) := by
  induction ptr generalizing counter done with
  | nil =>
    rw [List.append_nil]
    cases counter <;> rfl
  | cons c ptr ih =>
    rw [List.length_cons] at hcounter
    obtain ⟨counter, rfl⟩ := Nat.exists_eq_add_of_le' (show 1 ≤ counter by omega)
    have hnext : BitVec.ofNat 32 (number done) <<< 6 + BitVec.ofInt 32 (value c : ℤ) =
        BitVec.ofNat 32 (number (done ++ [c])) := by
      rw [number_append, BitVec.ofInt_natCast]
      apply BitVec.eq_of_toNat_eq
      simp only [BitVec.toNat_add, BitVec.toNat_shiftLeft, BitVec.toNat_ofNat, Nat.shiftLeft_eq]
      omega
    rw [a64lLoop, (a64i_legal c (hlegal c List.mem_cons_self)).1]
    simp only
    rw [hnext, ih (done ++ [c]) (fun c hc => hlegal c (List.mem_cons_of_mem _ hc)) (by omega),
      List.append_assoc, List.singleton_append]

theorem a64lLoop_ok {counter : ℕ} {ptr : Str} (retval : BitVec 32)
    (hrange : ∀ c ∈ ptr.take counter, InRange c) : ∃ out, a64lLoop counter ptr retval = .ok out := by
  induction counter generalizing ptr retval with
  | zero => exact ⟨retval, rfl⟩
  | succ counter ih =>
    cases ptr with
    | nil => exact ⟨retval, rfl⟩
    | cons c ptr =>
      rw [List.take_succ_cons] at hrange
      obtain ⟨val, hval⟩ := a64i_ok (hrange c List.mem_cons_self)
      rw [a64lLoop, hval]
      exact ih _ fun c hc => hrange c (List.mem_cons_of_mem _ hc)

theorem a64lLoop_error {counter : ℕ} {ptr : Str} {retval : BitVec 32}
    (hrange : ∃ c ∈ ptr.take counter, ¬ InRange c) :
    a64lLoop counter ptr retval = .error EBADARG := by
  induction counter generalizing ptr retval with
  | zero =>
    obtain ⟨c, hc, -⟩ := hrange
    exact absurd hc (by simp)
  | succ counter ih =>
    cases ptr with
    | nil =>
      obtain ⟨c, hc, -⟩ := hrange
      exact absurd hc (by simp)
    | cons c ptr =>
      rw [a64lLoop]
      by_cases hin : InRange c
      · obtain ⟨val, hval⟩ := a64i_ok hin
        rw [hval]
        apply ih
        obtain ⟨d, hd, hout⟩ := hrange
        rw [List.take_succ_cons] at hd
        rcases List.mem_cons.mp hd with rfl | hd
        · exact absurd hin hout
        · exact ⟨d, hd, hout⟩
      · rw [a64i_error hin]

def charOf (d : ℕ) : UInt8 := (i64a d).1

def encode (n : ℕ) : Str := (Nat.digits 64 n).map charOf

theorem l64aLoop_eq {counter n : ℕ} {buffer : Str} (hn : n < 2 ^ 31) (hcounter : n < 64 ^ counter) :
    l64aLoop counter (BitVec.ofNat 32 n) buffer = .ok (buffer ++ encode n) := by
  induction counter generalizing n buffer with
  | zero =>
    obtain rfl : n = 0 := by omega
    rw [encode, Nat.digits_zero, List.map_nil, List.append_nil]
    rfl
  | succ counter ih =>
    have hint : (BitVec.ofNat 32 n).toInt = n := by
      rw [BitVec.toInt_eq_toNat_of_lt] <;> rw [BitVec.toNat_ofNat] <;> omega
    rw [l64aLoop, hint]
    by_cases hzero : n = 0
    · rw [hzero, if_neg (by decide), encode, Nat.digits_zero, List.map_nil, List.append_nil]
    · have hand : (BitVec.ofNat 32 n &&& 0x3F).toInt = ((n % 64 : ℕ) : ℤ) := by
        have hmod : (BitVec.ofNat 32 n &&& 0x3F).toNat = n % 64 := by
          rw [BitVec.toNat_and, BitVec.toNat_ofNat, Nat.mod_eq_of_lt (by omega)]
          exact Nat.and_two_pow_sub_one_eq_mod n 6
        rw [BitVec.toInt_eq_toNat_of_lt (by omega), hmod]
      have hshift : (BitVec.ofNat 32 n).sshiftRight 6 = BitVec.ofNat 32 (n / 64) := by
        rw [BitVec.sshiftRight_eq_of_msb_false]
        · apply BitVec.eq_of_toNat_eq
          rw [BitVec.toNat_ushiftRight, BitVec.toNat_ofNat, BitVec.toNat_ofNat,
            Nat.shiftRight_eq_div_pow, Nat.mod_eq_of_lt (by omega), Nat.mod_eq_of_lt (by omega)]
        · rw [BitVec.msb_eq_decide, BitVec.toNat_ofNat]
          exact decide_eq_false (by omega)
      have hdigit := i64a_digit ⟨n % 64, Nat.mod_lt _ (by norm_num)⟩
      have hencode : encode n = charOf (n % 64) :: encode (n / 64) := by
        rw [encode, Nat.digits_def' (by norm_num) (Nat.pos_of_ne_zero hzero), List.map_cons, encode]
      rw [if_pos (by omega), hand]
      simp only
      rw [if_neg hdigit.2.2, hshift, ih (by omega) (by omega), hencode, List.append_assoc,
        List.singleton_append]
      rfl

theorem map_value_encode (n : ℕ) : (encode n).map value = Nat.digits 64 n := by
  rw [encode, List.map_map]
  conv_rhs => rw [← List.map_id (Nat.digits 64 n)]
  apply List.map_congr_left
  intro d hd
  exact (i64a_digit ⟨d, Nat.digits_lt_base (by norm_num) hd⟩).2.1

theorem encode_legal (n : ℕ) : ∀ c ∈ (encode n).reverse, Legal c := by
  intro c hc
  obtain ⟨d, hd, rfl⟩ := List.mem_map.mp (List.mem_reverse.mp hc)
  exact (i64a_digit ⟨d, Nat.digits_lt_base (by norm_num) hd⟩).1

theorem number_encode (n : ℕ) : number (encode n).reverse = n := by
  rw [number, List.map_reverse, List.reverse_reverse, map_value_encode, Nat.ofDigits_digits]

theorem encode_number {s : Str} (hlegal : ∀ c ∈ s, Legal c) (hhead : s.head? ≠ some DOT) :
    (encode (number s)).reverse = s := by
  have hdigits : Nat.digits 64 (number s) = (s.map value).reverse := by
    apply Nat.digits_ofDigits 64 (by norm_num)
    · intro d hd
      obtain ⟨c, hc, rfl⟩ := List.mem_map.mp (List.mem_reverse.mp hd)
      exact (a64i_legal c (hlegal c hc)).2.1
    · intro hne
      cases s with
      | nil => exact absurd rfl hne
      | cons c s =>
        have hlast : ((c :: s).map value).reverse.getLast hne = value c := by
          rw [List.getLast_reverse]
          rfl
        rw [hlast]
        intro hzero
        -- only the dot stands for 0
        have hc := (a64i_legal c (hlegal c List.mem_cons_self)).2.2
        rw [hzero] at hc
        exact hhead (congrArg some (congrArg Prod.fst hc).symm)
  rw [encode, hdigits, ← List.map_reverse, List.reverse_reverse, List.map_map]
  conv_rhs => rw [← List.map_id s]
  apply List.map_congr_left
  intro c hc
  exact congrArg Prod.fst (a64i_legal c (hlegal c hc)).2.2

theorem l64a_eq {n : ℕ} (hn : n < 2 ^ 31) :
    l64a (BitVec.ofNat 32 n) = ((encode n).reverse, none) := by
  have hint : (BitVec.ofNat 32 n).toInt = n := by
    rw [BitVec.toInt_eq_toNat_of_lt] <;> rw [BitVec.toNat_ofNat] <;> omega
  rw [l64a, hint, if_neg (by omega)]
  by_cases hzero : n = 0
  · rw [if_pos (by exact_mod_cast hzero), hzero, encode, Nat.digits_zero]
    rfl
  · rw [if_neg (by exact_mod_cast hzero), l64aLoop_eq hn (by omega), List.nil_append]

theorem a64l_eq {s : Str} (hlegal : ∀ c ∈ s, Legal c) (hlength : s.length ≤ 6) :
    a64l s = (BitVec.ofNat 32 (number s), none) := by
  have hloop := a64lLoop_legal [] hlegal hlength
  rw [List.nil_append] at hloop
  rw [a64l, show (0 : BitVec 32) = BitVec.ofNat 32 (number []) from rfl, hloop]

theorem a64l_l64a (n : BitVec 32) (hn : 0 ≤ n.toInt) : (a64l (l64a n).1).1 = n := by
  have hlt : n.toNat < 2 ^ 31 := by
    rw [BitVec.toInt_eq_toNat_cond] at hn
    split at hn <;> omega
  have hlength : (encode n.toNat).reverse.length ≤ 6 := by
    rw [List.length_reverse, encode, List.length_map, Nat.digits_length_le_iff (by norm_num)]
    omega
  have hn' : BitVec.ofNat 32 n.toNat = n := by
    apply BitVec.eq_of_toNat_eq
    rw [BitVec.toNat_ofNat, Nat.mod_eq_of_lt n.isLt]
  rw [← hn', l64a_eq hlt, a64l_eq (encode_legal _) hlength, number_encode]

theorem l64a_a64l {s : Str} (hlegal : ∀ c ∈ s, Legal c) (hlength : s.length ≤ 6)
    (hhead : s.head? ≠ some DOT) (hsmall : number s < 2 ^ 31) : (l64a (a64l s).1).1 = s := by
  rw [a64l_eq hlegal hlength, l64a_eq hsmall, encode_number hlegal hhead]

theorem a64l_fails_iff (s : Str) :
    a64l s = (-1, some EBADARG) ↔ ∃ c ∈ s.take 6, ¬ InRange c := by
  constructor
  · intro hfails
    by_contra hrange
    push Not at hrange
    obtain ⟨out, hout⟩ := a64lLoop_ok 0 hrange
    rw [a64l, hout] at hfails
    exact absurd (congrArg Prod.snd hfails) (by simp)
  · intro hrange
    rw [a64l, a64lLoop_error hrange]

/-- The two are inverse to each other; and a string with an illegal character among its first six is
refused exactly when one of them is out of the range from `'.'` to `'z'`. -/
theorem base64_iff (n : BitVec 32) (s : CStr) :
    (0 ≤ n.toInt → (a64l (l64a n).1).1 = n) ∧
    (s.1.length ≤ 6 → (∀ c ∈ s.1, Legal c) → s.1.head? ≠ some DOT →
      number s.1 < 2 ^ 31 → (l64a (a64l s.1).1).1 = s.1) ∧
    (((∃ c ∈ s.1.take 6, ¬ Legal c) → a64l s.1 = (-1, some EBADARG)) ↔
      ((∃ c ∈ s.1.take 6, ¬ Legal c) → ∃ c ∈ s.1.take 6, ¬ InRange c)) := by
  refine ⟨a64l_l64a n, ?_, ?_⟩
  · intro hlength hlegal hhead hsmall
    exact l64a_a64l hlegal hlength hhead hsmall
  · rw [a64l_fails_iff]

theorem colon_is_three : ¬ Legal 58 ∧ a64l [58] = (5, none) ∧ a64l [51] = (5, none) := by
  decide +kernel

end Mintlib.A64l
