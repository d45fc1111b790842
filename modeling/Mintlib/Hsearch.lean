import Mintlib.Lib.Probing
import Mintlib.Lib.Text
import Mintlib.Lib.Checked

/-!
# Hash tables: `hsearch_r.c`

The size of a table is prime, so that the steps of the second hash function lead to every entry. The
entry 0 is never used: `used` is 0 where an entry is free.
-/

namespace Mintlib.Hsearch

open Text Checked

variable {D : Type}

structure ENTRY (D : Type) where
  key : Str
  data : D

/-- `_ENTRY`; what `calloc` gives has no `entry`. -/
structure Slot (D : Type) where
  used : ℕ := 0
  entry : Option (ENTRY D) := none

structure HsearchData (D : Type) where
  table : Option (List (Slot D))
  size : ℕ
  filled : ℕ

inductive ACTION
  | FIND
  | ENTER
deriving DecidableEq

inductive Errno
  | ENOMEM
  | ESRCH
deriving DecidableEq

/-- `a - b` of an `unsigned int`. -/
def sub (a b : ℕ) : ℕ := (a + 2 ^ 32 - b) % 2 ^ 32

/-- The loop of `isprime`. -/
def isprimeLoop (number : ℕ) : ℕ → ℕ → Except Stop Bool
  | 0, _ => .error .steps
  | steps + 1, div =>
    if div * div % 2 ^ 32 < number ∧ number % div ≠ 0 then
      isprimeLoop number steps ((div + 2) % 2 ^ 32)
    else .ok (number % div ≠ 0)

def isprime (number : ℕ) : Except Stop Bool := isprimeLoop number number 3

/-- `while (!isprime (nel)) nel += 2;` -/
def nextPrime : ℕ → ℕ → Except Stop ℕ
  | 0, _ => .error .steps
  | steps + 1, nel => do
    let prime ← isprime nel
    if prime then .ok nel else nextPrime steps ((nel + 2) % 2 ^ 32)

/-- The entries of 12 bytes in what `calloc` gives for one more than `size` of them. Its product
wraps. -/
def entries (size : ℕ) : ℕ := (size + 1) * 12 % 2 ^ 32 / 12

/-- `memory` says whether `calloc` succeeds. -/
def hcreateR (nel : ℕ) (memory : Bool) (htab : HsearchData D) :
    Except Stop (HsearchData D × ℕ) :=
  if htab.table.isSome then .ok (htab, 0)
  else do
    let size ← nextPrime (nel + 1) (nel ||| 1)
    if memory then .ok (⟨some (List.replicate (entries size) {}), size, 0⟩, 1)
    else .ok (⟨none, size, 0⟩, 0)

/-- A `char`, which has a sign, as an `unsigned int`. -/
def char (c : UInt8) : ℕ := if c < 128 then c.toNat else c.toNat + 2 ^ 32 - 2 ^ 8

/-- The loop over `count`. -/
def hash (key : Str) : ℕ :=
  key.foldr (fun c hval => (hval * 2 ^ 4 + char c) % 2 ^ 32) (key.length % 2 ^ 32)

def hval (size : ℕ) (key : Str) : ℕ := if hash key % size = 0 then 1 else hash key % size

def hval2 (size : ℕ) (key : Str) : ℕ := 1 + hval size key % sub size 2

/-- `used == hval && strcmp (item.key, entry.key) == 0`. -/
def matchesKey (slot : Slot D) (hval : ℕ) (key : Str) : Except Stop Bool :=
  if slot.used = hval then
    match slot.entry with
    | some entry => .ok (entry.key = key)
    | none => .error .bounds
  else .ok false

/-- Where a search ends: at the entry of the key, or at one that is taken for empty. -/
inductive Where
  | entry (idx : ℕ)
  | bucket (idx : ℕ)

/-- `idx` one step on. -/
def stepBack (size hval2 idx : ℕ) : ℕ := if idx ≤ hval2 then sub (size + idx) hval2 else idx - hval2

/-- The `do` loop. -/
def probeLoop (table : List (Slot D)) (size : ℕ) (key : Str) : ℕ → ℕ → Except Stop Where
  | 0, _ => .error .steps
  | steps + 1, idx =>
    let idx := stepBack size (hval2 size key) idx
    if idx = hval size key then .ok (.bucket idx)
    else do
      let slot ← load table idx
      let found ← matchesKey slot (hval size key) key
      if found then .ok (.entry idx)
      else if slot.used ≠ 0 then probeLoop table size key steps idx
      else .ok (.bucket idx)

def locate (table : List (Slot D)) (size : ℕ) (key : Str) : Except Stop Where := do
  let slot ← load table (hval size key)
  if slot.used ≠ 0 then do
    let found ← matchesKey slot (hval size key) key
    if found then .ok (.entry (hval size key))
    else probeLoop table size key (size + 1) (hval size key)
  else .ok (.bucket (hval size key))

/-- The table afterwards, `*retval` and the error. -/
def hsearchR (item : ENTRY D) (action : ACTION) (htab : HsearchData D) :
    Except Stop (HsearchData D × Option ℕ × Option Errno) :=
  match htab.table with
  | none => .error .bounds
  | some table => do
    match ← locate table htab.size item.key with
    | .entry idx =>
      if action = .ENTER then do
        let slot ← load table idx
        let table ← store table idx { slot with entry := slot.entry.map ({ · with data := item.data }) }
        .ok ({ htab with table := some table }, some idx, none)
      else .ok (htab, some idx, none)
    | .bucket idx =>
      if action = .ENTER then
        if htab.filled = htab.size then .ok (htab, none, some .ENOMEM)
        else do
          let table ← store table idx ⟨hval htab.size item.key, some item⟩
          .ok (⟨some table, htab.size, htab.filled + 1⟩, some idx, none)
      else .ok (htab, none, some .ESRCH)

def Size (n : ℕ) : Prop := n = 1 ∨ n.Prime ∧ 5 ≤ n

instance (n : ℕ) : Decidable (Size n) := inferInstanceAs (Decidable (_ ∨ _))

section Prime

variable {number nel : ℕ}

theorem Size.odd (h : Size number) : number % 2 = 1 := by
  rcases h with rfl | ⟨hprime, hlarge⟩
  · rfl
  · rcases hprime.eq_two_or_odd with htwo | hodd
    · omega
    · exact hodd

theorem minFac_odd (hodd : number % 2 = 1) (hone : number ≠ 1) : 3 ≤ number.minFac ∧
    number.minFac % 2 = 1 := by
  have hprime := Nat.minFac_prime hone
  have htwo := hprime.two_le
  have hdvd := Nat.minFac_dvd number
  rcases hprime.eq_two_or_odd with heq | hodd'
  · rw [heq] at hdvd
    omega
  · omega

/-- No divisor below `div` has been found, and the loop stops at the root of the number. -/
theorem isprimeLoop_eq (hodd : number % 2 = 1) (hsmall : number ≤ 65535 * 65535) {steps div : ℕ}
    (hdiv : div % 2 = 1) (hsteps : div + 2 * steps = 3 + 2 * number)
    (hroot : div = 3 ∨ 3 < div ∧ (div - 2) * (div - 2) < number)
    (hnone : ∀ d, 3 ≤ d → d < div → d % 2 = 1 → ¬ d ∣ number) :
    isprimeLoop number steps div = .ok (decide (Size number)) := by
  -- the odd numbers below `div` have been tried; `div - 2` was still below the root, so nothing
  -- wraps
  induction steps generalizing div with
  | zero =>
    have hlarge : div - 2 = 1 + 2 * number := by omega
    rw [hlarge] at hroot
    have hsquare : number ≤ (1 + 2 * number) * (1 + 2 * number) := by nlinarith
    omega
  | succ steps ih =>
    have hlow : div ≤ 65535 := by
      rcases hroot with rfl | ⟨-, hroot⟩
      · norm_num
      · have hless : div - 2 < 65535 := by
          by_contra hge
          have hsquare := Nat.mul_self_le_mul_self (Nat.le_of_not_lt hge)
          omega
        omega
    have hsquare : div * div ≤ 65535 * 65535 := Nat.mul_le_mul hlow hlow
    have hnowrap : div * div % 2 ^ 32 = div * div := Nat.mod_eq_of_lt (by omega)
    have hnext : (div + 2) % 2 ^ 32 = div + 2 := Nat.mod_eq_of_lt (by omega)
    have hthree : 3 ≤ div := by omega
    rw [isprimeLoop, hnowrap, hnext]
    by_cases hgo : div * div < number ∧ number % div ≠ 0
    · rw [if_pos hgo]
      refine ih (by omega) (by omega) (Or.inr ⟨by omega, hgo.1⟩) fun d hd hlt hd' hdvd => ?_
      by_cases heq : d = div
      · rw [heq] at hdvd
        exact hgo.2 (Nat.mod_eq_zero_of_dvd hdvd)
      · exact hnone d hd (by omega) hd' hdvd
    · rw [if_neg hgo]
      congr 1
      rw [decide_eq_decide]
      constructor
      · intro hrest
        have hstop : number ≤ div * div := by
          by_contra hlt
          exact hgo ⟨by omega, hrest⟩
        by_cases hone : number = 1
        · exact Or.inl hone
        · obtain ⟨hfac, hfacodd⟩ := minFac_odd hodd hone
          have hprime : number.Prime := by
            by_contra hnot
            have hfacsquare := Nat.minFac_sq_le_self (by omega) hnot
            have hfacle : number.minFac ≤ div := by
              by_contra hgt
              nlinarith
            rcases Nat.lt_or_eq_of_le hfacle with hlt | heq
            · exact hnone _ hfac hlt hfacodd (Nat.minFac_dvd number)
            · have hdvd := Nat.minFac_dvd number
              rw [heq] at hdvd
              exact hrest (Nat.mod_eq_zero_of_dvd hdvd)
          refine Or.inr ⟨hprime, ?_⟩
          have htwo := hprime.two_le
          by_contra hless
          have hthree' : number = 3 := by omega
          rw [hthree'] at hroot hrest
          rcases hroot with rfl | ⟨hgt, hlt⟩
          · exact hrest rfl
          · have hfive : 3 ≤ div - 2 := by omega
            nlinarith
      · intro hsize hrest
        have hdvd := Nat.dvd_of_mod_eq_zero hrest
        rcases hsize with rfl | ⟨hprime, hlarge⟩
        · have hle := Nat.le_of_dvd Nat.one_pos hdvd
          omega
        · rcases hprime.eq_one_or_self_of_dvd div hdvd with hone | hself
          · omega
          · rw [← hself] at hroot hlarge
            rcases hroot with hdiv3 | ⟨hgt, hlt⟩
            · omega
            · have hfive : 3 ≤ div - 2 := by omega
              have hmul : 3 * (div - 2) ≤ (div - 2) * (div - 2) := Nat.mul_le_mul_right _ hfive
              omega

theorem isprime_eq (hodd : number % 2 = 1) (hsmall : number ≤ 65535 * 65535) :
    isprime number = .ok (decide (Size number)) := by
  refine isprimeLoop_eq hodd hsmall rfl rfl (Or.inl rfl) fun d hd hlt _ _ => ?_
  omega

theorem nextPrime_ok {p : ℕ} (steps : ℕ) (hp : Size p) (hsmall : p ≤ 65535 * 65535) (hodd : nel % 2 = 1)
    (hle : nel ≤ p) (hleast : ∀ q, nel ≤ q → Size q → p ≤ q) (hsteps : p < nel + 2 * steps) :
    nextPrime steps nel = .ok p := by
  induction steps generalizing nel with
  | zero => omega
  | succ steps ih =>
    rw [nextPrime, isprime_eq hodd (by omega), ok_bind]
    by_cases hsize : Size nel
    · rw [if_pos (decide_eq_true hsize)]
      congr 1
      exact Nat.le_antisymm hle (hleast nel (Nat.le_refl nel) hsize)
    · rw [if_neg (by simpa using hsize)]
      have hne : nel ≠ p := fun heq => hsize (heq ▸ hp)
      have hpodd := hp.odd
      have hnext : (nel + 2) % 2 ^ 32 = nel + 2 := Nat.mod_eq_of_lt (by omega)
      rw [hnext]
      exact ih (by omega) (by omega) (fun q hq => hleast q (by omega)) (by omega)

theorem or_one (nel : ℕ) : (nel ||| 1) % 2 = 1 ∧ nel ≤ (nel ||| 1) ∧ (nel ||| 1) ≤ nel + 1 := by
  have hodd : (nel ||| 1) % 2 = 1 := by
    rw [← Nat.and_one_is_mod, Nat.and_or_distrib_right]
    rcases Nat.mod_two_eq_zero_or_one nel with h | h
    all_goals simp [Nat.and_one_is_mod, h]
  have hhalf : (nel ||| 1) / 2 = nel / 2 := by
    have hshift := Nat.shiftRight_or_distrib (i := 1) (a := nel) (b := 1)
    simpa [Nat.shiftRight_eq_div_pow] using hshift
  omega

theorem exists_size (hodd : nel % 2 = 1) : ∃ p, Size p ∧ nel ≤ p ∧ p < 2 * nel := by
  by_cases hone : nel = 1
  · exact ⟨1, Or.inl rfl, by omega, by omega⟩
  · by_cases hthree : nel = 3
    · exact ⟨5, Or.inr ⟨by norm_num, Nat.le_refl 5⟩, by omega, by omega⟩
    · obtain ⟨p, hprime, hlt, hle⟩ := Nat.exists_prime_lt_and_le_two_mul (nel - 1) (by omega)
      exact ⟨p, Or.inr ⟨hprime, by omega⟩, by omega, by omega⟩

theorem nextPrime_least (hnel : nel ≤ 2 ^ 31 - 2 ^ 16) :
    ∃ size, nextPrime (nel + 1) (nel ||| 1) = .ok size ∧ Size size ∧ nel ≤ size ∧ size < 2 ^ 32 ∧
      ∀ q, nel ≤ q → Size q → size ≤ q := by
  obtain ⟨hodd, hle, hone⟩ := or_one nel
  obtain ⟨p, hsize, hlarge, hsmall⟩ := exists_size hodd
  have hex : ∃ q, Size q ∧ (nel ||| 1) ≤ q := ⟨p, hsize, hlarge⟩
  have hfind := Nat.find_spec hex
  have hmin : Nat.find hex ≤ p := Nat.find_min' hex ⟨hsize, hlarge⟩
  have hleast : ∀ q, (nel ||| 1) ≤ q → Size q → Nat.find hex ≤ q :=
    fun q hq hqsize => Nat.find_min' hex ⟨hqsize, hq⟩
  refine ⟨Nat.find hex, ?_, hfind.1, hle.trans hfind.2, by omega, fun q hq hqsize => ?_⟩
  · exact nextPrime_ok (nel + 1) hfind.1 (by omega) hodd hfind.2 hleast (by omega)
  · refine hleast q ?_ hqsize
    have hqodd := hqsize.odd
    by_contra hlt
    have hsame : nel % 2 = 0 := by omega
    omega

end Prime

theorem entries_eq {size : ℕ} (h : (size + 1) * 12 < 2 ^ 32) : entries size = size + 1 := by
  rw [entries, Nat.mod_eq_of_lt h]
  exact Nat.mul_div_cancel (size + 1) (by norm_num)

/-- Up to about half of what an `unsigned int` holds, the size of a new table is the least one that is
not too small: 1, or a prime from 5 on. A second table is refused. The table has one entry more than
its size as long as it takes less than 2^32 bytes. -/
theorem hcreate_r_size (nel : ℕ) (memory : Bool) (htab : HsearchData D)
    (hnel : nel ≤ 2 ^ 31 - 2 ^ 16) :
    ∃ size, Size size ∧ nel ≤ size ∧ (∀ q, nel ≤ q → Size q → size ≤ q) ∧
      hcreateR nel memory htab = .ok (if htab.table.isSome then (htab, 0) else
        if memory then (⟨some (List.replicate (entries size) {}), size, 0⟩, 1)
        else (⟨none, size, 0⟩, 0)) ∧
      ((size + 1) * 12 < 2 ^ 32 → entries size = size + 1) := by
  obtain ⟨size, hnext, hsize, hle, -, hleast⟩ := nextPrime_least hnel
  refine ⟨size, hsize, hle, hleast, ?_, entries_eq⟩
  rw [hcreateR, hnext, ok_bind]
  split
  · rfl
  · split <;> rfl

theorem hcreate_r_size_demo : ∃ size, Size size ∧ 8 ≤ size ∧ (∀ q, 8 ≤ q → Size q → size ≤ q) ∧
    hcreateR 8 true (⟨none, 0, 0⟩ : HsearchData ℕ) =
      .ok (if (⟨none, 0, 0⟩ : HsearchData ℕ).table.isSome then (⟨none, 0, 0⟩, 0) else
        if true then (⟨some (List.replicate (entries size) {}), size, 0⟩, 1)
        else (⟨none, size, 0⟩, 0)) ∧
    ((size + 1) * 12 < 2 ^ 32 → entries size = size + 1) :=
  hcreate_r_size 8 true ⟨none, 0, 0⟩ (by norm_num)

/-- The index from 1 to `size` that a number stands for. -/
def wrap (size v : ℕ) : ℕ := if v % size = 0 then size else v % size

/-- The index of the `j`th try. -/
def place (size : ℕ) (key : Str) (j : ℕ) : ℕ :=
  wrap size (hval size key + j * (size - hval2 size key))

section Place

variable {size : ℕ} {key : Str}

theorem Size.pos (h : Size size) : 0 < size := by
  rcases h with rfl | ⟨-, hlarge⟩
  · exact Nat.one_pos
  · omega

theorem wrap_mem (h : 0 < size) (v : ℕ) : 1 ≤ wrap size v ∧ wrap size v ≤ size := by
  have hlt := Nat.mod_lt v h
  rw [wrap]
  split <;> omega

theorem wrap_eq {x v : ℕ} (hlow : 1 ≤ x) (hhigh : x ≤ size) (h : x % size = v % size) :
    wrap size v = x := by
  rw [wrap, ← h]
  by_cases heq : x = size
  · rw [heq, Nat.mod_self, if_pos rfl]
  · rw [Nat.mod_eq_of_lt (by omega), if_neg (by omega)]

theorem wrap_mod (size v : ℕ) : wrap size v % size = v % size := by
  rw [wrap]
  split
  · next hzero => rw [Nat.mod_self, hzero]
  · exact Nat.mod_mod _ _

theorem hval_pos (size : ℕ) (key : Str) : 1 ≤ hval size key := by
  rw [hval]
  split <;> omega

theorem hval_le (h : 0 < size) (key : Str) : hval size key ≤ size := by
  have hlt := Nat.mod_lt (hash key) h
  rw [hval]
  split <;> omega

theorem hval2_range (h : 5 ≤ size) (hsmall : size < 2 ^ 32) (key : Str) :
    1 ≤ hval2 size key ∧ hval2 size key ≤ size - 2 := by
  have hsub : sub size 2 = size - 2 := by
    rw [sub]
    omega
  have hlt := Nat.mod_lt (hval size key) (show 0 < size - 2 by omega)
  rw [hval2, hsub]
  omega

theorem place_inj (h : Size size) (hsmall : size < 2 ^ 32) (key : Str) {i j : ℕ} (hi : i < size)
    (hj : j < size) (heq : place size key i = place size key j) : i = j := by
  rcases h with rfl | ⟨hprime, hlarge⟩
  · omega
  · have hmod := congrArg (· % size) heq
    simp only [place, wrap_mod] at hmod
    have hcancel : i * (size - hval2 size key) ≡ j * (size - hval2 size key) [MOD size] :=
      Nat.ModEq.add_left_cancel' _ hmod
    obtain ⟨hlow, hhigh⟩ := hval2_range hlarge hsmall key
    have hcoprime : size.Coprime (size - hval2 size key) := by
      rw [Nat.Prime.coprime_iff_not_dvd hprime]
      exact Nat.not_dvd_of_pos_of_lt (by omega) (by omega)
    have hsame := Nat.ModEq.cancel_right_of_coprime hcoprime hcancel
    rwa [Nat.ModEq, Nat.mod_eq_of_lt hi, Nat.mod_eq_of_lt hj] at hsame

def probing (size : ℕ) (h : Size size) (hsmall : size < 2 ^ 32) : Probing Str where
  slots := Finset.Icc 1 size
  place := place size
  mem key j _ := Finset.mem_Icc.mpr (wrap_mem h.pos _)
  inj key i j hi hj heq := by
    rw [Nat.card_Icc, Nat.add_sub_cancel] at hi hj
    exact place_inj h hsmall key hi hj heq

theorem place_zero (h : 0 < size) (key : Str) : place size key 0 = hval size key := by
  rw [place, Nat.zero_mul, Nat.add_zero]
  exact wrap_eq (hval_pos size key) (hval_le h key) rfl

theorem stepBack_place (h : 5 ≤ size) (hsmall : size < 2 ^ 32) (key : Str) (j : ℕ) :
    stepBack size (hval2 size key) (place size key j) = place size key (j + 1) := by
  obtain ⟨hlow, hhigh⟩ := hval2_range h hsmall key
  obtain ⟨hplace, hplace'⟩ := wrap_mem (show 0 < size by omega)
    (hval size key + j * (size - hval2 size key))
  have hmod := wrap_mod size (hval size key + j * (size - hval2 size key))
  rw [← place] at hplace hplace' hmod
  have hnext : (place size key j + (size - hval2 size key)) % size =
      (hval size key + (j + 1) * (size - hval2 size key)) % size := by
    rw [Nat.add_mod, hmod, ← Nat.add_mod]
    congr 1
    ring
  symm
  rw [place, stepBack]
  split
  · next hle =>
    have hsub : sub (size + place size key j) (hval2 size key) =
        place size key j + (size - hval2 size key) := by
      rw [sub]
      omega
    rw [hsub]
    exact wrap_eq (by omega) (by omega) hnext
  · next hgt =>
    refine wrap_eq (by omega) (by omega) ?_
    rw [← hnext]
    have hback : place size key j + (size - hval2 size key) =
        place size key j - hval2 size key + size := by omega
    rw [hback, Nat.add_mod_right]

theorem place_size (h : 0 < size) (key : Str) : place size key size = hval size key := by
  rw [place]
  refine wrap_eq (hval_pos size key) (hval_le h key) ?_
  rw [Nat.add_mul_mod_self_left]

end Place

def contentOf (table : List (Slot D)) : Probing.Table Str D := fun i =>
  match table[i]? with
  | some slot => if slot.used = 0 then none else slot.entry.map fun e => (e.key, e.data)
  | none => none

structure Kept (table : List (Slot D)) (size filled : ℕ) (h : Size size)
    (hsmall : size < 2 ^ 32) : Prop where
  length : table.length = size + 1
  zero : ∀ slot : Slot D, table[0]? = some slot → slot.used = 0
  used : ∀ (i : ℕ) (slot : Slot D), table[i]? = some slot → slot.used ≠ 0 →
    ∃ e, slot.entry = some e ∧ slot.used = hval size e.key
  reached : (probing size h hsmall).Reached (contentOf table)
  filled : filled = ((probing size h hsmall).occupied (contentOf table)).card

section Locate

variable {table : List (Slot D)} {size filled i : ℕ} {h : Size size} {hsmall : size < 2 ^ 32}
  {key : Str} {slot : Slot D}

theorem Kept.get (hkept : Kept table size filled h hsmall) (hi : i ≤ size) :
    ∃ slot, table[i]? = some slot := by
  have hlt : i < table.length := by
    rw [hkept.length]
    omega
  exact ⟨table[i], List.getElem?_eq_getElem hlt⟩

theorem Kept.compare (hkept : Kept table size filled h hsmall) (hi : table[i]? = some slot)
    (key : Str) :
    (slot.used = 0 ∧ contentOf table i = none ∧
      matchesKey slot (hval size key) key = .ok false) ∨
    (slot.used ≠ 0 ∧ ∃ k v, contentOf table i = some (k, v) ∧
      matchesKey slot (hval size key) key = .ok (decide (k = key))) := by
  by_cases hused : slot.used = 0
  · left
    have hpos := hval_pos size key
    refine ⟨hused, ?_, ?_⟩
    · rw [contentOf, hi]
      exact if_pos hused
    · rw [matchesKey, if_neg (by omega)]
  · right
    obtain ⟨e, he, hsame⟩ := hkept.used i slot hi hused
    refine ⟨hused, e.key, e.data, ?_, ?_⟩
    · rw [contentOf, hi]
      dsimp only
      rw [if_neg hused, he]
      rfl
    · rw [matchesKey, he, hsame]
      by_cases hkey : e.key = key
      · rw [if_pos (by rw [hkey])]
      · rw [decide_eq_false hkey]
        dsimp only
        rw [decide_eq_false hkey]
        split <;> rfl

theorem probeLoop_ok (hkept : Kept table size filled h hsmall) (hlarge : 5 ≤ size) (key : Str)
    (steps left j : ℕ) (hleft : j + 1 + left = size) (hsteps : left < steps) :
    match (probing size h hsmall).lookFrom (contentOf table) key left (j + 1) with
    | .found i => probeLoop table size key steps (place size key j) = .ok (.entry i)
    | .free i => probeLoop table size key steps (place size key j) = .ok (.bucket i)
    | .full => ∃ i, probeLoop table size key steps (place size key j) = .ok (.bucket i) := by
  induction left generalizing j steps with
  | zero =>
    obtain ⟨steps, rfl⟩ := Nat.exists_eq_add_of_le' hsteps
    rw [Probing.lookFrom]
    refine ⟨hval size key, ?_⟩
    have hend : place size key (j + 1) = hval size key := by
      rw [show j + 1 = size by omega]
      exact place_size (by omega) key
    rw [probeLoop, stepBack_place hlarge hsmall, hend]
    exact if_pos rfl
  | succ left ih =>
    obtain ⟨steps, rfl⟩ := Nat.exists_eq_add_of_le' (Nat.succ_le_of_lt (Nat.zero_lt_of_lt hsteps))
    have hgo : place size key (j + 1) ≠ hval size key := by
      rw [← place_zero h.pos key]
      intro heq
      exact absurd (place_inj h hsmall key (by omega) h.pos heq) (Nat.succ_ne_zero j)
    obtain ⟨hlow, hhigh⟩ := wrap_mem h.pos (hval size key + (j + 1) * (size - hval2 size key))
    obtain ⟨slot, hslot⟩ := hkept.get (i := place size key (j + 1)) hhigh
    have hnext := ih steps (j + 1) (by omega) (by omega)
    rw [Probing.lookFrom, probeLoop, stepBack_place hlarge hsmall, if_neg hgo, load_ok hslot, ok_bind]
    rw [show (probing size h hsmall).place key (j + 1) = place size key (j + 1) from rfl]
    rcases hkept.compare hslot key with ⟨hused, hcontent, hmatch⟩ | ⟨hused, k, v, hcontent, hmatch⟩
    · rw [hcontent, hmatch, ok_bind, if_neg Bool.false_ne_true, if_neg (not_not.mpr hused)]
    · rw [hcontent, hmatch, ok_bind]
      dsimp only
      by_cases hkey : k = key
      · rw [if_pos hkey, if_pos (decide_eq_true hkey)]
      · rw [if_neg hkey, if_neg (by simpa using hkey), if_pos hused]
        exact hnext

theorem locate_ok (hkept : Kept table size filled h hsmall) (key : Str) :
    match (probing size h hsmall).look (contentOf table) key with
    | .found i => locate table size key = .ok (.entry i)
    | .free i => locate table size key = .ok (.bucket i)
    | .full => ∃ i, locate table size key = .ok (.bucket i) := by
  have hcard : (probing size h hsmall).slots.card = size := by
    show (Finset.Icc 1 size).card = size
    rw [Nat.card_Icc, Nat.add_sub_cancel]
  obtain ⟨left, hleft⟩ : ∃ left, size = left + 1 := ⟨size - 1, by have := h.pos; omega⟩
  obtain ⟨slot, hslot⟩ := hkept.get (hval_le h.pos key)
  have hlook : (probing size h hsmall).look (contentOf table) key =
      (probing size h hsmall).lookFrom (contentOf table) key (left + 1) 0 := by
    rw [Probing.look, hcard]
    exact congrArg (fun n => Probing.lookFrom _ (contentOf table) key n 0) hleft
  rw [hlook, Probing.lookFrom, locate, load_ok hslot, ok_bind]
  rw [show (probing size h hsmall).place key 0 = hval size key from place_zero h.pos key]
  rcases hkept.compare hslot key with ⟨hused, hcontent, -⟩ | ⟨hused, k, v, hcontent, hmatch⟩
  · rw [hcontent, if_neg (not_not.mpr hused)]
  · rw [hcontent, if_pos hused, hmatch, ok_bind]
    dsimp only
    by_cases hkey : k = key
    · rw [if_pos hkey, if_pos (decide_eq_true hkey)]
    · rw [if_neg hkey, if_neg (by simpa using hkey)]
      by_cases hlarge : 5 ≤ size
      · have hloop := probeLoop_ok hkept hlarge key (size + 1) left 0 (by omega) (by omega)
        rw [place_zero h.pos] at hloop
        exact hloop
      · -- the table of one entry: the loop ends at the entry 0
        have hone : size = 1 := by
          rcases h with hone | ⟨-, hfive⟩
          · exact hone
          · exact absurd hfive hlarge
        subst hone
        have hleft0 : left = 0 := by omega
        rw [hleft0, Probing.lookFrom]
        obtain ⟨slot', hslot'⟩ := hkept.get (i := 0) (Nat.zero_le 1)
        have hzero := hkept.zero slot' hslot'
        have hhval : hval 1 key = 1 := by
          rw [hval, Nat.mod_one, if_pos rfl]
        have hstep : stepBack 1 (hval2 1 key) 1 = 0 := by
          rw [hval2, hhval]
          rfl
        refine ⟨0, ?_⟩
        rw [probeLoop, hhval, hstep, if_neg (by simp), load_ok hslot', ok_bind, matchesKey,
          if_neg (by omega), ok_bind,
          if_neg Bool.false_ne_true, if_neg (not_not.mpr hzero)]

end Locate

/-- What a table is for: the value of each key, and how many keys there are. -/
structure Dict (D : Type) where
  find : Str → Option D := fun _ => none
  count : ℕ := 0

/-- What a call does to a dictionary of so many keys at most, and the error. -/
def Dict.call (size : ℕ) (d : Dict D) (item : ENTRY D) (action : ACTION) :
    Dict D × Option Errno :=
  match d.find item.key, action with
  | some _, .ENTER => ({ d with find := Function.update d.find item.key (some item.data) }, none)
  | some _, .FIND => (d, none)
  | none, .ENTER =>
    if d.count = size then (d, some .ENOMEM)
    else (⟨Function.update d.find item.key (some item.data), d.count + 1⟩, none)
  | none, .FIND => (d, some .ESRCH)

/-- The table holds what the dictionary does. -/
structure Holds (table : List (Slot D)) (size filled : ℕ) (d : Dict D) (h : Size size)
    (hsmall : size < 2 ^ 32) : Prop where
  kept : Kept table size filled h hsmall
  find : ∀ k v, d.find k = some v ↔ ∃ i, contentOf table i = some (k, v)
  count : d.count = filled

section Step

variable {table : List (Slot D)} {size filled i : ℕ} {h : Size size} {hsmall : size < 2 ^ 32}
  {slot : Slot D} {k : Str} {v : D}

theorem contentOf_set (hi : i < table.length) (hused : slot.used ≠ 0) :
    contentOf (table.set i slot) =
      Function.update (contentOf table) i (slot.entry.map fun e => (e.key, e.data)) := by
  funext l
  by_cases heq : l = i
  · rw [heq, Function.update_self, contentOf, List.getElem?_set_self hi]
    exact if_neg hused
  · rw [Function.update_of_ne heq, contentOf, contentOf, List.getElem?_set_ne (Ne.symm heq)]

theorem contentOf_lt (hi : contentOf table i = some (k, v)) :
    ∃ slot e, table[i]? = some slot ∧ slot.used ≠ 0 ∧ slot.entry = some e ∧ e.key = k ∧
      e.data = v := by
  rw [contentOf] at hi
  cases hslot : table[i]? with
  | none =>
    rw [hslot] at hi
    exact absurd hi (by simp)
  | some slot =>
    rw [hslot] at hi
    dsimp only at hi
    by_cases hused : slot.used = 0
    · rw [if_pos hused] at hi
      exact absurd hi (by simp)
    · rw [if_neg hused] at hi
      obtain ⟨e, he, hpair⟩ := Option.map_eq_some_iff.mp hi
      obtain ⟨hkey, hdata⟩ := Prod.mk.inj hpair
      exact ⟨slot, e, rfl, hused, he, hkey, hdata⟩

theorem Kept.set (hkept : Kept table size filled h hsmall) (hi : i < table.length) (hpos : i ≠ 0)
    (e : ENTRY D) (filled' : ℕ)
    (hreached : (probing size h hsmall).Reached
      (Function.update (contentOf table) i (some (e.key, e.data))))
    (hfilled : filled' = ((probing size h hsmall).occupied
      (Function.update (contentOf table) i (some (e.key, e.data)))).card) :
    Kept (table.set i ⟨hval size e.key, some e⟩) size filled' h hsmall ∧
      contentOf (table.set i ⟨hval size e.key, some e⟩) =
        Function.update (contentOf table) i (some (e.key, e.data)) := by
  have hused : (⟨hval size e.key, some e⟩ : Slot D).used ≠ 0 := by
    have hval := hval_pos size e.key
    dsimp only
    omega
  have hcontent : contentOf (table.set i ⟨hval size e.key, some e⟩) =
      Function.update (contentOf table) i (some (e.key, e.data)) := contentOf_set hi hused
  refine ⟨⟨?_, ?_, ?_, ?_, ?_⟩, hcontent⟩
  · rw [List.length_set, hkept.length]
  · intro slot hslot
    rw [List.getElem?_set_ne hpos] at hslot
    exact hkept.zero slot hslot
  · intro l slot hslot hne
    by_cases heq : i = l
    · rw [← heq, List.getElem?_set_self hi] at hslot
      rw [← Option.some.inj hslot]
      exact ⟨e, rfl, rfl⟩
    · rw [List.getElem?_set_ne heq] at hslot
      exact hkept.used l slot hslot hne
  · rwa [hcontent]
  · rw [hcontent]
    exact hfilled

theorem find_update {T : Probing.Table Str D} {find : Str → Option D}
    (hfind : ∀ k v, find k = some v ↔ ∃ i, T i = some (k, v)) {k : Str} (v : D)
    (hone : ∀ l v', T l = some (k, v') → l = i) (hhere : ∀ k' v', T i = some (k', v') → k' = k) :
    ∀ k' v', Function.update find k (some v) k' = some v' ↔
      ∃ l, Function.update T i (some (k, v)) l = some (k', v') := by
  intro k' v'
  by_cases hk : k' = k
  · rw [hk, Function.update_self]
    constructor
    · intro hv
      exact ⟨i, by rw [Function.update_self, Option.some.inj hv]⟩
    · rintro ⟨l, hl⟩
      by_cases heq : l = i
      · rw [heq, Function.update_self] at hl
        exact congrArg some (Prod.mk.inj (Option.some.inj hl)).2
      · rw [Function.update_of_ne heq] at hl
        exact absurd (hone l v' hl) heq
  · rw [Function.update_of_ne hk, hfind]
    constructor
    · rintro ⟨l, hl⟩
      refine ⟨l, ?_⟩
      have hne : l ≠ i := fun heq => hk (hhere k' v' (heq ▸ hl))
      rwa [Function.update_of_ne hne]
    · rintro ⟨l, hl⟩
      by_cases heq : l = i
      · rw [heq, Function.update_self] at hl
        exact absurd (Prod.mk.inj (Option.some.inj hl)).1.symm hk
      · rw [Function.update_of_ne heq] at hl
        exact ⟨l, hl⟩

end Step

/-- A call does to the table what it does to the dictionary. The entry that it returns is the one of
its key, and no key moves. -/
theorem hsearch_r_step {table : List (Slot D)} {size filled : ℕ} {d : Dict D} {h : Size size}
    {hsmall : size < 2 ^ 32} (hholds : Holds table size filled d h hsmall) (item : ENTRY D)
    (action : ACTION) :
    ∃ table' filled' ret, hsearchR item action ⟨some table, size, filled⟩ =
        .ok (⟨some table', size, filled'⟩, ret, (d.call size item action).2) ∧
      Holds table' size filled' (d.call size item action).1 h hsmall ∧
      ((d.call size item action).2 ≠ none → ret = none) ∧
      ((d.call size item action).2 = none → ∃ i v, ret = some i ∧
        contentOf table' i = some (item.key, v)) ∧
      ∀ i k v, contentOf table i = some (k, v) → ∃ v', contentOf table' i = some (k, v') := by
  obtain ⟨hkept, hfind, hcount⟩ := hholds
  have hstay : ∀ i k v, contentOf table i = some (k, v) →
      ∃ v', contentOf table i = some (k, v') := fun i k v hi => ⟨v, hi⟩
  have hlocate := locate_ok hkept item.key
  have hcard : (probing size h hsmall).slots.card = size := by
    show (Finset.Icc 1 size).card = size
    rw [Nat.card_Icc, Nat.add_sub_cancel]
  rw [hsearchR]
  dsimp only
  cases hlook : (probing size h hsmall).look (contentOf table) item.key with
  -- the key is there: only `ENTER` writes, and only the data at its place
  | found i =>
    rw [hlook] at hlocate
    obtain ⟨v, hv⟩ := Probing.look_found hlook
    have hd : d.find item.key = some v := (hfind _ _).mpr ⟨i, hv⟩
    obtain ⟨slot, e, hslot, hused, he, hkey, hdata⟩ := contentOf_lt hv
    rw [hlocate, ok_bind]
    dsimp only
    cases action with
    | FIND =>
      simp only [Dict.call, hd]
      rw [if_neg (by decide)]
      exact ⟨table, filled, some i, rfl, ⟨hkept, hfind, hcount⟩,
        fun hne => absurd rfl hne, fun _ => ⟨i, v, rfl, hv⟩, hstay⟩
    | ENTER =>
      have hlt : i < table.length := (List.getElem?_eq_some_iff.mp hslot).1
      have hi : i ≠ 0 := by
        rintro rfl
        exact hused (hkept.zero slot hslot)
      obtain ⟨e', he', husedval⟩ := hkept.used i slot hslot hused
      have hee : e = e' := Option.some.inj (he.symm.trans he')
      have hvalue : slot.used = hval size item.key := by
        rw [husedval, ← hee, hkey]
      have hnew : ({ slot with entry := slot.entry.map ({ · with data := item.data }) } : Slot D) =
          ⟨hval size item.key, some ⟨item.key, item.data⟩⟩ := by
        rw [he, hvalue, ← hkey]
        rfl
      have hcall : d.call size item .ENTER =
          ({ d with find := Function.update d.find item.key (some item.data) }, none) := by
        simp only [Dict.call, hd]
      obtain ⟨hkept', hcontent⟩ := hkept.set hlt hi ⟨item.key, item.data⟩ filled
        (hkept.reached.replace hv item.data)
        (hkept.filled.trans (Probing.card_replace hv _).symm)
      rw [if_pos rfl, load_ok hslot, ok_bind, hnew, store, if_pos hlt, ok_bind, hcall]
      refine ⟨_, filled, some i, rfl, ⟨hkept', ?_, hcount⟩, fun hne => absurd rfl hne,
        fun _ => ⟨i, item.data, rfl, ?_⟩, ?_⟩
      · rw [hcontent]
        refine find_update hfind item.data (fun l v' hl => hkept.reached.unique hl hv) ?_
        intro k' v' hl
        rw [hv] at hl
        exact (Prod.mk.inj (Option.some.inj hl)).1.symm
      · rw [hcontent, Function.update_self]
      · intro l k v' hl
        rw [hcontent]
        by_cases heq : l = i
        · rw [heq, hv] at hl
          rw [heq, Function.update_self, (Prod.mk.inj (Option.some.inj hl)).1]
          exact ⟨_, rfl⟩
        · rw [Function.update_of_ne heq]
          exact ⟨v', hl⟩
  -- the key is new and its search ends at a free place, which `ENTER` fills
  | free i =>
    rw [hlook] at hlocate
    have hd : d.find item.key = none := by
      cases hd : d.find item.key with
      | none => rfl
      | some v =>
        obtain ⟨l, hl⟩ := (hfind _ _).mp hd
        rw [hkept.reached.look hl] at hlook
        exact absurd hlook (by simp)
    rw [hlocate, ok_bind]
    dsimp only
    cases action with
    | FIND =>
      simp only [Dict.call, hd]
      rw [if_neg (by decide)]
      exact ⟨table, filled, none, rfl, ⟨hkept, hfind, hcount⟩, fun _ => rfl,
        fun hno => absurd hno (by simp), hstay⟩
    | ENTER =>
      obtain ⟨hmem, -⟩ := Probing.free_mem hlook
      obtain ⟨hlow, hhigh⟩ := Finset.mem_Icc.mp hmem
      have hlt : i < table.length := by
        rw [hkept.length]
        omega
      have hless := Probing.card_of_free hlook
      rw [hcard, ← hkept.filled] at hless
      obtain ⟨hnone, -⟩ := Probing.look_free hlook
      obtain ⟨hkept', hcontent⟩ := hkept.set hlt (by omega) item (filled + 1)
        (hkept.reached.insert hlook item.data) (by rw [Probing.card_insert hlook, hkept.filled])
      have hcall : d.call size item .ENTER =
          (⟨Function.update d.find item.key (some item.data), d.count + 1⟩, none) := by
        simp only [Dict.call, hd]
        rw [if_neg (by omega)]
      rw [if_pos rfl, if_neg (by omega), store, if_pos hlt, ok_bind, hcall]
      refine ⟨_, filled + 1, some i, rfl, ⟨hkept', ?_, by rw [← hcount]⟩,
        fun hne => absurd rfl hne, fun _ => ⟨i, item.data, rfl, ?_⟩, ?_⟩
      · rw [hcontent]
        refine find_update hfind item.data (fun l v' hl => ?_) fun k' v' hl => ?_
        · rw [hkept.reached.look hl] at hlook
          exact absurd hlook (by simp)
        · rw [hnone] at hl
          exact absurd hl (by simp)
      · rw [hcontent, Function.update_self]
      · intro l k v' hl
        have hne : l ≠ i := by
          rintro rfl
          rw [hnone] at hl
          exact absurd hl (by simp)
        rw [hcontent, Function.update_of_ne hne]
        exact ⟨v', hl⟩
  -- the key is new and no place is free: the dictionary has no room either
  | full =>
    rw [hlook] at hlocate
    obtain ⟨i, hi⟩ := hlocate
    have hd : d.find item.key = none := by
      cases hd : d.find item.key with
      | none => rfl
      | some v =>
        obtain ⟨l, hl⟩ := (hfind _ _).mp hd
        rw [hkept.reached.look hl] at hlook
        exact absurd hlook (by simp)
    have hfull := Probing.card_of_full hlook
    rw [hcard, ← hkept.filled] at hfull
    rw [hi, ok_bind]
    dsimp only
    cases action with
    | FIND =>
      simp only [Dict.call, hd]
      rw [if_neg (by decide)]
      exact ⟨table, filled, none, rfl, ⟨hkept, hfind, hcount⟩, fun _ => rfl,
        fun hno => absurd hno (by simp), hstay⟩
    | ENTER =>
      have hcall : d.call size item .ENTER = (d, some .ENOMEM) := by
        simp only [Dict.call, hd]
        rw [if_pos (by omega)]
      rw [if_pos rfl, if_pos hfull, hcall]
      exact ⟨table, filled, none, rfl, ⟨hkept, hfind, hcount⟩, fun _ => rfl,
        fun hno => absurd hno (by simp), hstay⟩

def run : HsearchData D → List (ENTRY D × ACTION) →
    Except Stop (HsearchData D × List (Option ℕ × Option Errno))
  | htab, [] => .ok (htab, [])
  | htab, c :: calls => do
    let (htab, answer) ← hsearchR c.1 c.2 htab
    let (htab, answers) ← run htab calls
    .ok (htab, answer :: answers)

def Dict.run (size : ℕ) : Dict D → List (ENTRY D × ACTION) → Dict D × List (Option Errno)
  | d, [] => (d, [])
  | d, c :: calls =>
    let (d, error) := d.call size c.1 c.2
    let (d, errors) := Dict.run size d calls
    (d, error :: errors)

def answer (addr : Str → ℕ) (c : ENTRY D × ACTION) (error : Option Errno) :
    Option ℕ × Option Errno :=
  (if error = none then some (addr c.1.key) else none, error)

section Run

variable {table : List (Slot D)} {size filled : ℕ} {d : Dict D} {h : Size size}
  {hsmall : size < 2 ^ 32}

/-- The entry of a key in the table that a run leaves is what all calls for it return. -/
theorem run_ok (hholds : Holds table size filled d h hsmall) (calls : List (ENTRY D × ACTION)) :
    ∃ table' filled' answers, run ⟨some table, size, filled⟩ calls =
        .ok (⟨some table', size, filled'⟩, answers) ∧
      Holds table' size filled' (d.run size calls).1 h hsmall ∧
      (∀ i k v, contentOf table i = some (k, v) → ∃ v', contentOf table' i = some (k, v')) ∧
      ∀ addr : Str → ℕ, (∀ i k v, contentOf table' i = some (k, v) → addr k = i) →
        answers = List.zipWith (answer addr) calls (d.run size calls).2 := by
  induction calls generalizing table filled d with
  | nil =>
    exact ⟨table, filled, [], rfl, hholds, fun i k v hi => ⟨v, hi⟩, fun _ _ => rfl⟩
  | cons c calls ih =>
    obtain ⟨table₁, filled₁, ret, hstep, hholds₁, herror, hentry, hstay₁⟩ :=
      hsearch_r_step hholds c.1 c.2
    obtain ⟨table₂, filled₂, answers, hrun, hholds₂, hstay₂, hanswers⟩ := ih hholds₁
    refine ⟨table₂, filled₂, (ret, (d.call size c.1 c.2).2) :: answers, ?_, hholds₂,
      fun i k v hi => ?_, fun addr haddr => ?_⟩
    · rw [run, hstep, ok_bind]
      dsimp only
      rw [hrun, ok_bind]
    · obtain ⟨v₁, hv₁⟩ := hstay₁ i k v hi
      exact hstay₂ i k v₁ hv₁
    · rw [hanswers addr haddr]
      show _ = answer addr c (d.call size c.1 c.2).2 :: _
      congr 1
      rw [answer]
      by_cases hnone : (d.call size c.1 c.2).2 = none
      · obtain ⟨i, v, hret, hi⟩ := hentry hnone
        obtain ⟨v', hv'⟩ := hstay₂ i c.1.key v hi
        rw [if_pos hnone, haddr i _ v' hv', hret]
      · rw [if_neg hnone, herror hnone]

theorem contentOf_new (n : ℕ) : contentOf (List.replicate n ({} : Slot D)) = fun _ => none := by
  funext i
  rw [contentOf, List.getElem?_replicate]
  split
  · next slot hslot =>
    split at hslot
    · rw [← Option.some.inj hslot]
      exact if_pos rfl
    · exact absurd hslot (by simp)
  · rfl

theorem holds_new (h : Size size) (hsmall : size < 2 ^ 32) :
    Holds (List.replicate (size + 1) ({} : Slot D)) size 0 {} h hsmall := by
  have hfree : ∀ (i : ℕ) (slot : Slot D),
      (List.replicate (size + 1) ({} : Slot D))[i]? = some slot → slot.used = 0 := by
    intro i slot hslot
    rw [List.getElem?_replicate] at hslot
    split at hslot
    · rw [← Option.some.inj hslot]
    · exact absurd hslot (by simp)
  refine ⟨⟨List.length_replicate, hfree 0, fun i slot hslot hne => absurd (hfree i slot hslot) hne,
    ?_, ?_⟩, fun k v => ?_, rfl⟩
  · intro i k v hi
    rw [contentOf_new] at hi
    exact absurd hi (by simp)
  · rw [contentOf_new, Probing.occupied]
    simp
  · rw [contentOf_new]
    simp

end Run

/-- For any calls of `hsearch_r` with a table that `hcreate_r` has made there is one entry for each
key, which never changes, such that the calls do what they do to a dictionary of as many keys at most
as its size. The number of entries that is asked for is not above a size whose table takes less than
2^32 bytes. -/
theorem hsearch_run (nel : ℕ) (htab : HsearchData D)
    (hnel : ∃ q, nel ≤ q ∧ Size q ∧ (q + 1) * 12 < 2 ^ 32)
    (htable : htab.table = none) (calls : List (ENTRY D × ACTION)) :
    ∃ created size table filled, ∃ addr : Str → ℕ, hcreateR nel true htab = .ok (created, 1) ∧
      nel ≤ size ∧
      run created calls = .ok (⟨some table, size, filled⟩,
        List.zipWith (answer addr) calls (Dict.run size {} calls).2) ∧
      (∀ k v, (Dict.run size {} calls).1.find k = some v →
        ∃ used, table[addr k]? = some ⟨used, some ⟨k, v⟩⟩) := by
  obtain ⟨q, hq, hqsize, hbytes⟩ := hnel
  obtain ⟨size, hnext, hsize, hle, hsmall, hleast⟩ := nextPrime_least (show nel ≤ 2 ^ 31 - 2 ^ 16 by omega)
  have hsizeq : size ≤ q := hleast q hq hqsize
  have hcreate : hcreateR nel true htab =
      .ok (⟨some (List.replicate (size + 1) {}), size, 0⟩, 1) := by
    rw [hcreateR, htable, if_neg (by simp), hnext, ok_bind, entries_eq (by omega)]
    rfl
  obtain ⟨table, filled, answers, hrun, hholds, -, hanswers⟩ :=
    run_ok (holds_new hsize hsmall) calls
  classical
  let addr : Str → ℕ := fun k =>
    if hk : ∃ i v, contentOf table i = some (k, v) then hk.choose else 0
  have haddr : ∀ i k v, contentOf table i = some (k, v) → addr k = i := by
    intro i k v hi
    have hk : ∃ i v, contentOf table i = some (k, v) := ⟨i, v, hi⟩
    obtain ⟨v', hv'⟩ := hk.choose_spec
    show dite _ _ _ = i
    rw [dif_pos hk]
    exact hholds.kept.reached.unique hv' hi
  refine ⟨_, size, table, filled, addr, hcreate, hle, ?_, fun k v hfind => ?_⟩
  · rw [← hanswers addr haddr]
    exact hrun
  · obtain ⟨i, hi⟩ := (hholds.find k v).mp hfind
    obtain ⟨slot, e, hslot, -, he, hkey, hdata⟩ := contentOf_lt hi
    rw [haddr i k v hi, hslot, ← hkey, ← hdata, ← he]
    exact ⟨slot.used, rfl⟩

theorem hsearch_run_demo : ∃ created size table filled, ∃ addr : Str → ℕ,
    hcreateR 1 true (⟨none, 0, 0⟩ : HsearchData ℕ) = .ok (created, 1) ∧ 1 ≤ size ∧
    run created [(⟨[97], 5⟩, .ENTER), (⟨[97], 6⟩, .ENTER), (⟨[97], 0⟩, .FIND)] =
      .ok (⟨some table, size, filled⟩, List.zipWith (answer addr)
        [(⟨[97], 5⟩, .ENTER), (⟨[97], 6⟩, .ENTER), (⟨[97], 0⟩, .FIND)]
        (Dict.run size {} [(⟨[97], 5⟩, .ENTER), (⟨[97], 6⟩, .ENTER), (⟨[97], 0⟩, .FIND)]).2) ∧
    (∀ k v, (Dict.run size {} [(⟨[97], 5⟩, .ENTER), (⟨[97], 6⟩, .ENTER),
      (⟨[97], 0⟩, .FIND)]).1.find k = some v → ∃ used, table[addr k]? = some ⟨used, some ⟨k, v⟩⟩) :=
  hsearch_run 1 ⟨none, 0, 0⟩ ⟨1, Nat.le_refl 1, Or.inl rfl, by norm_num⟩ rfl _

end Mintlib.Hsearch
