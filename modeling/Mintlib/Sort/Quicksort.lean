import Mintlib.Lib.Rearranged
import Mintlib.Sort.Msort

/-!
# Quicksort: `qsort.c`

Partitions are put on a stack of fixed size while they have more than `MAX_THRESH` items more than
one. What is left then is done by an insertion sort, whose inner loop relies on the least item being
the first one. Pointers are indices of items; one that goes below the array stops the run, as does an
access behind it. What the code computes in bytes takes `size`, the size of an item.
-/

namespace Mintlib.Sort

open Compare Checked

variable {α : Type}

abbrev MAX_THRESH : ℕ := 4

abbrev STACK_SIZE : ℕ := 32

/-- `p -= size`. -/
def back (p : ℕ) : Except Stop ℕ := if p = 0 then .error .bounds else .ok (p - 1)

def SWAP (a : List α) (i j : ℕ) : Except Stop (List α) := do
  let x ← load a i
  let y ← load a j
  let a ← store a i y
  store a j x

/-- `if (cmp (i, j) < 0) SWAP (i, j);`, and whether it has been done. -/
def swapIf (cmp : α → α → ℤ) (a : List α) (i j : ℕ) : Except Stop (List α × Bool) := do
  let x ← load a i
  let y ← load a j
  if cmp x y < 0 then do
    let a ← SWAP a i j
    .ok (a, true)
  else .ok (a, false)

/-- The items at `lo`, `mid` and `hi` are sorted. -/
def median (cmp : α → α → ℤ) (a : List α) (lo mid hi : ℕ) : Except Stop (List α) := do
  let r ← swapIf cmp a mid lo
  let r ← swapIf cmp r.1 hi mid
  if r.2 then do
    let r ← swapIf cmp r.1 mid lo
    .ok r.1
  else .ok r.1

/-- `left_ptr` goes up. -/
def scanUp (cmp : α → α → ℤ) (a : List α) (pivot : α) : ℕ → ℕ → Except Stop ℕ
  | 0, _ => .error .steps
  | steps + 1, left => do
    let x ← load a left
    if cmp x pivot < 0 then scanUp cmp a pivot steps (left + 1) else .ok left

/-- `right_ptr` goes down. -/
def scanDown (cmp : α → α → ℤ) (a : List α) (pivot : α) : ℕ → ℕ → Except Stop ℕ
  | 0, _ => .error .steps
  | steps + 1, right => do
    let x ← load a right
    if cmp pivot x < 0 then do
      let right ← back right
      scanDown cmp a pivot steps right
    else .ok right

/-- The walls collapse. It gives the array, `left_ptr` and `right_ptr`. -/
def collapse (cmp : α → α → ℤ) (pivot : α) :
    ℕ → List α → ℕ → ℕ → Except Stop (List α × ℕ × ℕ)
  | 0, _, _, _ => .error .steps
  | steps + 1, a, left, right => do
    let left ← scanUp cmp a pivot (a.length + 1) left
    let right ← scanDown cmp a pivot (a.length + 1) right
    if left < right then do
      let a ← SWAP a left right
      let right ← back right
      if left + 1 ≤ right then collapse cmp pivot steps a (left + 1) right
      else .ok (a, left + 1, right)
    else if left = right then do
      let right ← back right
      .ok (a, left + 1, right)
    else .ok (a, left, right)

def partition (cmp : α → α → ℤ) (a : List α) (lo hi : ℕ) : Except Stop (List α × ℕ × ℕ) := do
  let mid := lo + (hi - lo) / 2
  let a ← median cmp a lo mid hi
  let pivot ← load a mid
  let right ← back hi
  collapse cmp pivot (a.length + 1) a (lo + 1) right

/-- `MAX_THRESH * size`. -/
def maxThresh (size : ℕ) : ℕ := MAX_THRESH * size % 2 ^ 32

/-- `(size_t) (p - q) <= max_thresh`. -/
def Small (size p q : ℕ) : Prop := ((p : ℤ) - q) * size % 2 ^ 32 ≤ maxThresh size

instance (size p q : ℕ) : Decidable (Small size p q) := Int.decLe _ _

/-- `p - q`, a `ptrdiff_t`. -/
def distance (size p q : ℕ) : ℤ := Int.bmod (((p : ℤ) - q) * size) (2 ^ 32)

/-- `PUSH`; the first entry of the stack is not used. -/
def PUSH (lo hi : ℕ) (stack : List (ℕ × ℕ)) : Except Stop (List (ℕ × ℕ)) :=
  if 1 + stack.length < STACK_SIZE then .ok ((lo, hi) :: stack) else .error .bounds

def quickLoop (cmp : α → α → ℤ) (size : ℕ) :
    ℕ → List α → ℕ → ℕ → List (ℕ × ℕ) → Except Stop (List α)
  | 0, _, _, _, _ => .error .steps
  | steps + 1, a, lo, hi, stack => do
    let (a, left, right) ← partition cmp a lo hi
    if Small size right lo then
      if Small size hi left then
        match stack with
        | [] => .ok a
        | (lo, hi) :: stack => quickLoop cmp size steps a lo hi stack
      else quickLoop cmp size steps a left hi stack
    else if Small size hi left then quickLoop cmp size steps a lo right stack
    else if distance size right lo > distance size hi left then do
      let stack ← PUSH lo right stack
      quickLoop cmp size steps a left hi stack
    else do
      let stack ← PUSH left hi stack
      quickLoop cmp size steps a lo right stack

/-- The least item from `run_ptr` up to `thresh`, which counts bytes, or that at `tmp_ptr`. -/
def leastLoop (cmp : α → α → ℤ) (size : ℕ) (a : List α) (thresh : ℕ) :
    ℕ → ℕ → ℕ → Except Stop ℕ
  | 0, _, _ => .error .steps
  | steps + 1, run, tmp =>
    if run * size ≤ thresh then do
      let x ← load a run
      let y ← load a tmp
      leastLoop cmp size a thresh steps (run + 1) (if cmp x y < 0 then run else tmp)
    else .ok tmp

/-- `tmp_ptr` goes down while the item at `run_ptr` is less. -/
def findPlace (cmp : α → α → ℤ) (a : List α) (run : ℕ) : ℕ → ℕ → Except Stop ℕ
  | 0, _ => .error .steps
  | steps + 1, tmp => do
    let x ← load a run
    let y ← load a tmp
    if cmp x y < 0 then do
      let tmp ← back tmp
      findPlace cmp a run steps tmp
    else .ok tmp

/-- The loop over `hi` and `lo`, and the store behind it, for all bytes of the items. -/
def shiftUp (c : α) (tmp : ℕ) : ℕ → List α → ℕ → Except Stop (List α)
  | 0, _, _ => .error .steps
  | steps + 1, a, hi => do
    let lo ← back hi
    if tmp ≤ lo then do
      let x ← load a lo
      let a ← store a hi x
      shiftUp c tmp steps a lo
    else store a hi c

/-- The item at `run_ptr` comes to `tmp_ptr`. -/
def moveDown (a : List α) (tmp run : ℕ) : Except Stop (List α) :=
  if tmp ≠ run then do
    let c ← load a run
    shiftUp c tmp (run + 1) a run
  else .ok a

/-- The insertion sort from `run_ptr` on. -/
def insertLoop (cmp : α → α → ℤ) (endp : ℕ) : ℕ → List α → ℕ → Except Stop (List α)
  | 0, _, _ => .error .steps
  | steps + 1, a, run =>
    if run ≤ endp then do
      let tmp ← back run
      let tmp ← findPlace cmp a run (run + 1) tmp
      let a ← moveDown a (tmp + 1) run
      insertLoop cmp endp steps a (run + 1)
    else .ok a

def toFront (a : List α) (tmp : ℕ) : Except Stop (List α) :=
  if tmp ≠ 0 then SWAP a tmp 0 else .ok a

def insertionSort (cmp : α → α → ℤ) (size : ℕ) (a : List α) : Except Stop (List α) := do
  let thresh := min ((a.length - 1) * size) (maxThresh size)
  let tmp ← leastLoop cmp size a thresh (a.length + 2) 1 0
  let a ← toFront a tmp
  insertLoop cmp (a.length - 1) (a.length + 1) a 2

def partitions (cmp : α → α → ℤ) (size : ℕ) (a : List α) : Except Stop (List α) :=
  if a.length > MAX_THRESH then quickLoop cmp size a.length a 0 (a.length - 1) [] else .ok a

def quicksort (cmp : α → α → ℤ) (size : ℕ) (a : List α) : Except Stop (List α) :=
  if a.length = 0 then .ok a
  else do
    let a ← partitions cmp size a
    insertionSort cmp size a

section Bytes

variable {size n p q : ℕ}

/-- Two items take less than 2^31 bytes, so that four of them take less than 2^32. -/
theorem max_thresh_eq (hbytes : n * size < 2 ^ 31) (htwo : 2 ≤ n) :
    maxThresh size = MAX_THRESH * size := by
  have hpair : 2 * size ≤ n * size := Nat.mul_le_mul_right size htwo
  have hfour : MAX_THRESH = 4 := rfl
  rw [maxThresh, hfour]
  exact Nat.mod_eq_of_lt (by omega)

theorem bytes_between (hbytes : n * size < 2 ^ 31) (hle : q ≤ p) (hp : p < n) :
    ((p : ℤ) - q) * size = ((p - q) * size : ℕ) ∧ (p - q) * size < 2 ^ 31 := by
  have hwhole : (p - q) * size ≤ n * size := Nat.mul_le_mul_right size (by omega)
  rw [Nat.cast_mul, Nat.cast_sub hle]
  exact ⟨rfl, lt_of_le_of_lt hwhole hbytes⟩

theorem small_iff (hsize : 0 < size) (hbytes : n * size < 2 ^ 31) (htwo : 2 ≤ n) (hle : q ≤ p)
    (hp : p < n) : Small size p q ↔ p - q ≤ MAX_THRESH := by
  obtain ⟨hbetween, hless⟩ := bytes_between hbytes hle hp
  have hnowrap : (((p - q) * size : ℕ) : ℤ) % 2 ^ 32 = ((p - q) * size : ℕ) :=
    Int.emod_eq_of_lt (by omega) (by omega)
  rw [Small, hbetween, hnowrap, max_thresh_eq hbytes htwo, Nat.cast_le]
  exact Nat.mul_le_mul_right_iff hsize

theorem distance_eq (hbytes : n * size < 2 ^ 31) (hle : q ≤ p) (hp : p < n) :
    distance size p q = ((p - q) * size : ℕ) := by
  obtain ⟨hbetween, hless⟩ := bytes_between hbytes hle hp
  rw [distance, hbetween]
  exact Int.bmod_eq_of_le (by omega) (by omega)

theorem distance_lt_iff {p' q' : ℕ} (hsize : 0 < size) (hbytes : n * size < 2 ^ 31) (hle : q ≤ p)
    (hp : p < n) (hle' : q' ≤ p') (hp' : p' < n) :
    distance size p q > distance size p' q' ↔ p' - q' < p - q := by
  rw [distance_eq hbytes hle hp, distance_eq hbytes hle' hp', gt_iff_lt, Nat.cast_lt]
  exact Nat.mul_lt_mul_right hsize

end Bytes

section Partition

variable {cmp : α → α → ℤ} {a b : List α} {p : α} {lo hi i j : ℕ} {x y : α}

/-- The items from `lo` up to `l`, without it, are not greater than `p`. -/
def Below (cmp : α → α → ℤ) (p : α) (a : List α) (lo l : ℕ) : Prop :=
  ∀ i x, lo ≤ i → i < l → a[i]? = some x → cmp x p ≤ 0

/-- The items behind `r` up to `hi` are not less than `p`. -/
def Above (cmp : α → α → ℤ) (p : α) (a : List α) (r hi : ℕ) : Prop :=
  ∀ i x, r < i → i ≤ hi → a[i]? = some x → cmp p x ≤ 0

theorem exists_get (h : i < a.length) : ∃ x, a[i]? = some x := ⟨_, List.getElem?_eq_getElem h⟩

theorem back_ok (h : 0 < i) : back i = .ok (i - 1) := if_neg (by omega)

theorem SWAP_ok (hx : a[i]? = some x) (hy : a[j]? = some y) :
    SWAP a i j = .ok ((a.set i y).set j x) := by
  have hi := (List.getElem?_eq_some_iff.mp hx).1
  have hj := (List.getElem?_eq_some_iff.mp hy).1
  rw [SWAP, load_ok hx, ok_bind, load_ok hy, ok_bind, store_ok hi, ok_bind,
    store_ok (by rwa [List.length_set])]

theorem get_swap_left (hne : i ≠ j) (hx : a[i]? = some x) :
    ((a.set i y).set j x)[i]? = some y := by
  have hi := (List.getElem?_eq_some_iff.mp hx).1
  rw [List.getElem?_set_ne (Ne.symm hne), List.getElem?_set_self hi]

theorem get_swap_right (hy : a[j]? = some y) : ((a.set i y).set j x)[j]? = some x := by
  have hj := (List.getElem?_eq_some_iff.mp hy).1
  exact List.getElem?_set_self (by rwa [List.length_set])

theorem get_swap_ne {k : ℕ} (hi : k ≠ i) (hj : k ≠ j) :
    ((a.set i y).set j x)[k]? = a[k]? := by
  rw [List.getElem?_set_ne (Ne.symm hj), List.getElem?_set_ne (Ne.symm hi)]

theorem swapIf_ok (hcmp : Consistent cmp) (lo hi : ℕ) (hne : i ≠ j) (hi₁ : lo ≤ i) (hi₂ : i ≤ hi)
    (hj₁ : lo ≤ j) (hj₂ : j ≤ hi) (hx : a[i]? = some x) (hy : a[j]? = some y) :
    ∃ b done x' y', swapIf cmp a i j = .ok (b, done) ∧ Rearranged lo hi a b ∧
      b[i]? = some x' ∧ b[j]? = some y' ∧ cmp y' x' ≤ 0 ∧
      (∀ k, k ≠ i → k ≠ j → b[k]? = a[k]?) ∧
      (done = true → x' = y ∧ y' = x ∧ cmp x y < 0) ∧ (done = false → x' = x ∧ y' = y) := by
  rw [swapIf, load_ok hx, ok_bind, load_ok hy, ok_bind]
  by_cases hless : cmp x y < 0
  · rw [if_pos hless, SWAP_ok hx hy, ok_bind]
    exact ⟨_, true, y, x, rfl, Rearranged.swap hi₁ hi₂ hj₁ hj₂ hx hy, get_swap_left hne hx,
      get_swap_right hy, hless.le, fun k hki hkj => get_swap_ne hki hkj,
      fun _ => ⟨rfl, rfl, hless⟩, fun h => absurd h (by simp)⟩
  · rw [if_neg hless]
    exact ⟨a, false, x, y, rfl, Rearranged.refl lo hi a, hx, hy, (hcmp.not_neg x y).mp hless,
      fun _ _ _ => rfl, fun h => absurd h (by simp), fun _ => ⟨rfl, rfl⟩⟩

theorem median_ok (hcmp : Consistent cmp) (lo mid hi : ℕ) (hlo : lo < mid) (hhi : mid < hi)
    (hlength : hi < a.length) :
    ∃ b x p z, median cmp a lo mid hi = .ok b ∧ Rearranged lo hi a b ∧ b[lo]? = some x ∧
      b[mid]? = some p ∧ b[hi]? = some z ∧ cmp x p ≤ 0 ∧ cmp p z ≤ 0 := by
  obtain ⟨x₀, hx₀⟩ := exists_get (a := a) (i := lo) (by omega)
  obtain ⟨m₀, hm₀⟩ := exists_get (a := a) (i := mid) (by omega)
  obtain ⟨z₀, hz₀⟩ := exists_get (a := a) (i := hi) hlength
  obtain ⟨b, d₁, m₁, x₁, hswap₁, hrear₁, hm₁, hx₁, hle₁, hother₁, -, -⟩ :=
    swapIf_ok hcmp lo hi (by omega : mid ≠ lo) (by omega) (by omega) (by omega)
      (by omega) hm₀ hx₀
  have hz₁ : b[hi]? = some z₀ := by
    rw [hother₁ hi (by omega) (by omega), hz₀]
  obtain ⟨b', d₂, z₂, m₂, hswap₂, hrear₂, hz₂, hm₂, hle₂, hother₂, hdone₂, hkept₂⟩ :=
    swapIf_ok hcmp lo hi (by omega : hi ≠ mid) (by omega) (by omega) (by omega)
      (by omega) hz₁ hm₁
  have hx₂ : b'[lo]? = some x₁ := by
    rw [hother₂ lo (by omega) (by omega), hx₁]
  rw [median, hswap₁, ok_bind]
  dsimp only
  rw [hswap₂, ok_bind]
  cases d₂ with
  | false =>
    obtain ⟨-, rfl⟩ := hkept₂ rfl
    exact ⟨b', x₁, m₂, z₂, rfl, hrear₁.trans hrear₂, hx₂, hm₂, hz₂, hle₁, hle₂⟩
  | true =>
    obtain ⟨rfl, rfl, hless⟩ := hdone₂ rfl
    obtain ⟨b'', d₃, m₃, x₃, hswap₃, hrear₃, hm₃, hx₃, hle₃, hother₃, hdone₃, hkept₃⟩ :=
      swapIf_ok hcmp lo hi (by omega : mid ≠ lo) (by omega) (by omega) (by omega)
        (by omega) hm₂ hx₂
    have hz₃ : b''[hi]? = some z₂ := by
      rw [hother₃ hi (by omega) (by omega), hz₂]
    dsimp only
    rw [if_pos rfl, hswap₃, ok_bind]
    refine ⟨b'', x₃, m₃, z₂, rfl, hrear₁.trans (hrear₂.trans hrear₃), hx₃, hm₃, hz₃, hle₃, ?_⟩
    -- the last item has been the middle one before
    cases d₃ with
    | true =>
      obtain ⟨rfl, -, -⟩ := hdone₃ rfl
      exact hle₁
    | false =>
      obtain ⟨rfl, -⟩ := hkept₃ rfl
      exact hle₂

theorem scanUp_ok (hcmp : Consistent cmp) (steps left : ℕ) (hle : left ≤ j) (hsteps : j < left + steps)
    (hx : a[j]? = some x) (hstop : cmp p x ≤ 0) :
    ∃ l y, scanUp cmp a p steps left = .ok l ∧ left ≤ l ∧ l ≤ j ∧ a[l]? = some y ∧
      cmp p y ≤ 0 ∧ Below cmp p a left l := by
  induction steps generalizing left with
  | zero => omega
  | succ steps ih =>
    have hj := (List.getElem?_eq_some_iff.mp hx).1
    obtain ⟨y, hy⟩ := exists_get (a := a) (i := left) (by omega)
    rw [scanUp, load_ok hy, ok_bind]
    by_cases hless : cmp y p < 0
    · rw [if_pos hless]
      have hne : left ≠ j := by
        rintro rfl
        rw [hx] at hy
        rw [← Option.some.inj hy, ← hcmp.not_le] at hless
        exact hless hstop
      obtain ⟨l, z, hscan, hlow, hhigh, hz, hpz, hbelow⟩ := ih (left + 1) (by omega) (by omega)
      refine ⟨l, z, hscan, by omega, hhigh, hz, hpz, fun i w hi hil hw => ?_⟩
      by_cases heq : i = left
      · rw [heq, hy] at hw
        rw [← Option.some.inj hw]
        exact hless.le
      · exact hbelow i w (by omega) hil hw
    · rw [if_neg hless]
      exact ⟨left, y, rfl, le_refl _, hle, hy, (hcmp.not_neg y p).mp hless,
        fun i w hi hil => absurd hi (by omega)⟩

theorem scanDown_ok (hcmp : Consistent cmp) (steps right : ℕ) (hle : j ≤ right)
    (hsteps : right < j + steps) (hright : right < a.length) (hx : a[j]? = some x)
    (hstop : cmp x p ≤ 0) :
    ∃ r y, scanDown cmp a p steps right = .ok r ∧ j ≤ r ∧ r ≤ right ∧ a[r]? = some y ∧
      cmp y p ≤ 0 ∧ Above cmp p a r right := by
  induction steps generalizing right with
  | zero => omega
  | succ steps ih =>
    obtain ⟨y, hy⟩ := exists_get hright
    rw [scanDown, load_ok hy, ok_bind]
    by_cases hless : cmp p y < 0
    · rw [if_pos hless]
      have hne : right ≠ j := by
        rintro rfl
        rw [hx] at hy
        rw [← Option.some.inj hy, ← hcmp.not_le] at hless
        exact hless hstop
      obtain ⟨r, z, hscan, hlow, hhigh, hz, hpz, habove⟩ :=
        ih (right - 1) (by omega) (by omega) (by omega)
      rw [back_ok (by omega), ok_bind]
      refine ⟨r, z, hscan, hlow, by omega, hz, hpz, fun i w hi hir hw => ?_⟩
      by_cases heq : i = right
      · rw [heq, hy] at hw
        rw [← Option.some.inj hw]
        exact hless.le
      · exact habove i w hi (by omega) hw
    · rw [if_neg hless]
      exact ⟨right, y, rfl, hle, le_refl _, hy, (hcmp.not_neg p y).mp hless,
        fun i w hi hir => absurd hi (by omega)⟩

structure Split (cmp : α → α → ℤ) (p : α) (lo hi : ℕ) (a b : List α) (left right : ℕ) :
    Prop where
  rearranged : Rearranged lo hi a b
  below : Below cmp p b lo left
  above : Above cmp p b right hi
  lo_lt : lo < left
  left_le : left ≤ hi
  lo_le : lo ≤ right
  right_lt : right < hi
  apart : right < left

theorem collapse_ok (hcmp : Consistent cmp) (steps left right : ℕ) (hsteps : right + 1 < left + steps)
    (hlo : lo < left) (hwalls : left ≤ right + 1) (hright : right < hi) (hhi : hi < a.length)
    (hbelow : Below cmp p a lo left) (habove : Above cmp p a right hi) :
    ∃ b l r, collapse cmp p steps a left right = .ok (b, l, r) ∧ Split cmp p lo hi a b l r := by
  -- `Below` and `Above` carry the induction; the items at the ends stop the two walks
  induction steps generalizing a left right with
  | zero => omega
  | succ steps ih =>
    obtain ⟨z, hz⟩ := exists_get (a := a) (i := right + 1) (by omega)
    have hpz := habove (right + 1) z (Nat.lt_succ_self right) (by omega) hz
    obtain ⟨l, x, hup, hlow, hhigh, hx, hpx, hbelow'⟩ :=
      scanUp_ok hcmp (a.length + 1) left hwalls (by omega) hz hpz
    have hbelowl : Below cmp p a lo l := by
      intro i w hi₁ hi₂ hw
      rcases Nat.lt_or_ge i left with hlt | hge
      · exact hbelow i w hi₁ hlt hw
      · exact hbelow' i w hge hi₂ hw
    obtain ⟨w, hw⟩ := exists_get (a := a) (i := l - 1) (by omega)
    have hwp := hbelowl (l - 1) w (by omega) (by omega) hw
    obtain ⟨r, y, hdown, hrlow, hrhigh, hy, hyp, habove'⟩ :=
      scanDown_ok hcmp (a.length + 1) right (by omega) (by omega) (by omega) hw
        hwp
    have habover : Above cmp p a r hi := by
      intro i w hi₁ hi₂ hw
      rcases Nat.lt_or_ge right i with hgt | hle
      · exact habove i w hgt hi₂ hw
      · exact habove' i w hi₁ hle hw
    rw [collapse, hup, ok_bind, hdown, ok_bind]
    -- the two are swapped, or the walks have met, or they have crossed
    rcases Nat.lt_trichotomy l r with hlt | heq | hgt
    · have hrear : Rearranged lo hi a ((a.set l y).set r x) :=
        Rearranged.swap (by omega) (by omega) (by omega) (by omega) hx hy
      have hbelow₁ : Below cmp p ((a.set l y).set r x) lo (l + 1) := by
        intro i w hi₁ hi₂ hw
        by_cases hil : i = l
        · rw [hil, get_swap_left (by omega) hx] at hw
          rwa [← Option.some.inj hw]
        · rw [get_swap_ne hil (by omega)] at hw
          exact hbelowl i w hi₁ (by omega) hw
      have habove₁ : Above cmp p ((a.set l y).set r x) (r - 1) hi := by
        intro i w hi₁ hi₂ hw
        by_cases hir : i = r
        · rw [hir, get_swap_right hy] at hw
          rwa [← Option.some.inj hw]
        · rw [get_swap_ne (by omega) hir] at hw
          exact habover i w (by omega) hi₂ hw
      rw [if_pos hlt, SWAP_ok hx hy, ok_bind, back_ok (by omega), ok_bind]
      by_cases hgo : l + 1 ≤ r - 1
      · rw [if_pos hgo]
        obtain ⟨b, l', r', hcollapse, hsplit⟩ := ih (a := (a.set l y).set r x) (l + 1)
          (r - 1) (by omega) (by omega) (by omega) (by omega)
          (by rw [List.length_set, List.length_set]; exact hhi) hbelow₁ habove₁
        exact ⟨b, l', r', hcollapse, { hsplit with rearranged := hrear.trans hsplit.rearranged }⟩
      · rw [if_neg hgo]
        exact ⟨_, l + 1, r - 1, rfl, hrear, hbelow₁, habove₁, by omega, by omega, by omega,
          by omega, by omega⟩
    · rw [if_neg (by omega), if_pos heq, back_ok (by omega), ok_bind]
      refine ⟨a, l + 1, r - 1, rfl, Rearranged.refl lo hi a, ?_, ?_, by omega, by omega, by omega,
        by omega, by omega⟩
      · intro i w hi₁ hi₂ hw
        by_cases hil : i = l
        · rw [hil, heq, hy] at hw
          rwa [← Option.some.inj hw]
        · exact hbelowl i w hi₁ (by omega) hw
      · intro i w hi₁ hi₂ hw
        by_cases hir : i = r
        · rw [hir, ← heq, hx] at hw
          rwa [← Option.some.inj hw]
        · exact habover i w (by omega) hi₂ hw
    · rw [if_neg (by omega), if_neg (by omega)]
      exact ⟨a, l, r, rfl, Rearranged.refl lo hi a, hbelowl, habover, by omega, by omega, by omega,
        by omega, by omega⟩

theorem partition_ok (hcmp : Consistent cmp) (lo hi : ℕ) (hlong : lo + 2 ≤ hi) (hhi : hi < a.length) :
    ∃ b l r p, partition cmp a lo hi = .ok (b, l, r) ∧ Split cmp p lo hi a b l r := by
  obtain ⟨b, x, p, z, hmedian, hrear, hx, hp, hz, hxp, hpz⟩ :=
    median_ok hcmp lo (lo + (hi - lo) / 2) hi (by omega) (by omega) hhi
  have hbelow : Below cmp p b lo (lo + 1) := by
    intro i w hi₁ hi₂ hw
    have hilo : i = lo := by omega
    rw [hilo, hx] at hw
    rwa [← Option.some.inj hw]
  have habove : Above cmp p b (hi - 1) hi := by
    intro i w hi₁ hi₂ hw
    have hihi : i = hi := by omega
    rw [hihi, hz] at hw
    rwa [← Option.some.inj hw]
  have hlength := hrear.length
  obtain ⟨c, l, r, hcollapse, hsplit⟩ := collapse_ok hcmp (b.length + 1) (lo + 1)
    (hi - 1) (by omega) (by omega) (by omega) (by omega) (by omega) hbelow habove
  refine ⟨c, l, r, p, ?_, { hsplit with rearranged := hrear.trans hsplit.rearranged }⟩
  rw [partition, hmedian, ok_bind, load_ok hp, ok_bind, back_ok (by omega), ok_bind]
  exact hcollapse

end Partition

/-- A partition that is worth the work: it has more than `MAX_THRESH` items. -/
def Long (n : ℕ) (s : ℕ × ℕ) : Prop := s.1 + MAX_THRESH ≤ s.2 ∧ s.2 < n

/-- The partitions on the stack get shorter, by half from one to the next. -/
def Deep (n : ℕ) : List (ℕ × ℕ) → Prop
  | [] => True
  | s :: stack => (s.2 - s.1) * 2 ^ stack.length ≤ n ∧ Deep n stack

def work (stack : List (ℕ × ℕ)) : ℕ := (stack.map fun s => s.2 - s.1).sum

/-- The items up to `r` are the least ones. -/
def Least (cmp : α → α → ℤ) (a : List α) (r : ℕ) : Prop :=
  ∀ i j x y, i ≤ r → r < j → a[i]? = some x → a[j]? = some y → cmp x y ≤ 0

/-- The partitions that begin at `r` or in front of it. -/
def upTo (r : ℕ) (segs : List (ℕ × ℕ)) : List (ℕ × ℕ) := segs.filter fun s => s.1 ≤ r

/-- The items up to `r` are the least ones; they are few, or else one of the partitions still to be
done. -/
structure Pending (cmp : α → α → ℤ) (a : List α) (r : ℕ) (segs : List (ℕ × ℕ)) : Prop where
  lt : r < a.length
  least : Least cmp a r
  first : upTo r segs = [] ∧ r ≤ MAX_THRESH ∨ upTo r segs = [(0, r)]

section Loop

variable {cmp : α → α → ℤ} {a b : List α} {p : α} {lo hi r left right : ℕ}
  {stack : List (ℕ × ℕ)}

theorem upTo_cons_lt {s : ℕ × ℕ} (h : r < s.1) : upTo r (s :: stack) = upTo r stack := by
  rw [upTo, List.filter_cons, if_neg (by simpa using h)]
  rfl

theorem upTo_cons_le {s : ℕ × ℕ} (h : s.1 ≤ r) : upTo r (s :: stack) = s :: upTo r stack := by
  rw [upTo, List.filter_cons, if_pos (by simpa using h)]
  rfl

theorem Least.later (h : Least cmp a r) (hrear : Rearranged lo hi a b) (hr : r < lo) :
    Least cmp b r := by
  intro i j x y hi₁ hj₁ hx hy
  rw [hrear.get (Or.inl (by omega))] at hx
  by_cases hin : lo ≤ j ∧ j ≤ hi
  · obtain ⟨j', hj'₁, -, hy'⟩ := hrear.mem_range hin.1 hin.2 hy
    exact h i j' x y hi₁ (by omega) hx hy'
  · rw [hrear.get (by omega)] at hy
    exact h i j x y hi₁ hj₁ hx hy

theorem Least.split (hcmp : Consistent cmp) (h : Least cmp a hi)
    (hsplit : Split cmp p 0 hi a b left right) : Least cmp b right := by
  have hlt := hsplit.right_lt
  intro i j x y hi₁ hj₁ hx hy
  by_cases hin : j ≤ hi
  · have hxp := hsplit.below i x (Nat.zero_le i) (lt_of_le_of_lt hi₁ hsplit.apart) hx
    exact hcmp.trans x p y hxp (hsplit.above j y hj₁ hin hy)
  · rw [hsplit.rearranged.get (by omega)] at hy
    obtain ⟨i', -, hi', hx'⟩ := hsplit.rearranged.mem_range (Nat.zero_le i) (by omega) hx
    exact h i' j x y hi' (by omega) hx' hy

theorem Pending.split (hcmp : Consistent cmp) (h : Pending cmp a r ((lo, hi) :: stack))
    (hsplit : Split cmp p lo hi a b left right) (hhi : hi < a.length) :
    ∃ r', r' < b.length ∧ Least cmp b r' ∧ r' < left ∧
      (r' < lo ∧ (upTo r' stack = [] ∧ r' ≤ MAX_THRESH ∨ upTo r' stack = [(0, r')]) ∨
        lo = 0 ∧ r' = right ∧ upTo r' stack = []) := by
  have hlength := hsplit.rearranged.length
  have hlt := hsplit.lo_lt
  have hright := hsplit.right_lt
  rcases Nat.lt_or_ge r lo with hr | hr
  · refine ⟨r, by rw [hlength]; exact h.lt, h.least.later hsplit.rearranged hr, by omega,
      Or.inl ⟨hr, ?_⟩⟩
    have hfirst := h.first
    rwa [upTo_cons_lt hr] at hfirst
  · have hfirst := h.first
    rw [upTo_cons_le hr] at hfirst
    rcases hfirst with ⟨hnil, -⟩ | hone
    · exact absurd hnil (List.cons_ne_nil _ _)
    · obtain ⟨hpair, hnone⟩ := List.cons.inj hone
      obtain ⟨hlo, hhir⟩ := Prod.mk.inj hpair
      subst hlo hhir
      refine ⟨right, by omega, h.least.split hcmp hsplit, hsplit.apart, Or.inr ⟨rfl, rfl, ?_⟩⟩
      rw [upTo, List.filter_eq_nil_iff] at hnone ⊢
      intro s hs
      have hbehind := hnone s hs
      simp only [decide_eq_true_eq] at hbehind ⊢
      omega

theorem work_cons (s : ℕ × ℕ) : work (s :: stack) = s.2 - s.1 + work stack := List.sum_cons

theorem pow_bound {x d n k : ℕ} (hx : 2 * x ≤ d) (hd : d * 2 ^ k ≤ n) : x * 2 ^ (k + 1) ≤ n := by
  have hsame : x * 2 ^ (k + 1) = 2 * x * 2 ^ k := by ring
  rw [hsame]
  exact (Nat.mul_le_mul_right _ hx).trans hd

theorem PUSH_ok (n : ℕ) (hn : n < 2 ^ 32) {x : ℕ} (hx : 2 ≤ x)
    (hdeep : x * 2 ^ (stack.length + 1) ≤ n) :
    PUSH lo hi stack = .ok ((lo, hi) :: stack) := by
  have hsize : STACK_SIZE = 32 := rfl
  refine if_pos ?_
  by_contra hfull
  have hpow : 2 ^ 32 ≤ 2 ^ (stack.length + 1) :=
    Nat.pow_le_pow_right (by norm_num) (by omega)
  have hmul : 2 * 2 ^ (stack.length + 1) ≤ x * 2 ^ (stack.length + 1) := Nat.mul_le_mul_right _ hx
  omega

/-- What the loop over the partitions keeps, and that it ends with few items that are the least. -/
theorem quickLoop_ok (hcmp : Consistent cmp) {size : ℕ} (hsize : 0 < size) (steps : ℕ)
    (a : List α) (lo hi : ℕ) (stack : List (ℕ × ℕ)) (r : ℕ) (hbytes : a.length * size < 2 ^ 31)
    (hlong : ∀ s ∈ (lo, hi) :: stack, Long a.length s)
    (hcur : (hi - lo) * 2 ^ stack.length ≤ a.length) (hdeep : Deep a.length stack)
    (hpending : Pending cmp a r ((lo, hi) :: stack)) (hsteps : work ((lo, hi) :: stack) < steps) :
    ∃ b r, quickLoop cmp size steps a lo hi stack = .ok b ∧ b.Perm a ∧ r < b.length ∧
      r ≤ MAX_THRESH ∧ Least cmp b r := by
  induction steps generalizing a lo hi stack r with
  | zero => exact absurd hsteps (Nat.not_lt_zero _)
  | succ steps ih =>
    obtain ⟨hlen, hhi⟩ := hlong (lo, hi) List.mem_cons_self
    dsimp only at hlen hhi
    have hfour : MAX_THRESH = 4 := rfl
    have hstack : ∀ s ∈ stack, Long a.length s := fun s hs => hlong s (List.mem_cons_of_mem _ hs)
    obtain ⟨b, left, right, p, hpart, hsplit⟩ := partition_ok hcmp lo hi (by omega) hhi
    obtain ⟨r', hr', hleast, hr'left, hfirst⟩ := hpending.split hcmp hsplit hhi
    have hlength := hsplit.rearranged.length
    have hperm := hsplit.rearranged.perm
    have hlo₁ := hsplit.lo_lt
    have hleft := hsplit.left_le
    have hlo₂ := hsplit.lo_le
    have hright := hsplit.right_lt
    have hapart := hsplit.apart
    rw [work_cons] at hsteps
    dsimp only at hsteps
    rw [← hlength] at hbytes hcur hdeep hstack hhi
    have hn : b.length < 2 ^ 32 :=
      lt_of_le_of_lt (Nat.le_mul_of_pos_right _ hsize) (hbytes.trans (by norm_num))
    have hsmall₁ := small_iff hsize hbytes (by omega) hlo₂ (hright.trans hhi)
    have hsmall₂ := small_iff hsize hbytes (by omega) hleft hhi
    rw [quickLoop, hpart, ok_bind]
    dsimp only
    by_cases hs₁ : Small size right lo
    · have hfew := hsmall₁.mp hs₁
      rw [if_pos hs₁]
      -- the least items are not on the stack, or they are few
      have hfirst' : upTo r' stack = [] ∧ r' ≤ MAX_THRESH ∨ upTo r' stack = [(0, r')] := by
        rcases hfirst with ⟨-, hfirst⟩ | ⟨hzero, hsame, hnone⟩
        · exact hfirst
        · exact Or.inl ⟨hnone, by omega⟩
      by_cases hs₂ : Small size hi left
      · rw [if_pos hs₂]
        cases stack with
        | nil =>
          refine ⟨b, r', rfl, hperm, hr', ?_, hleast⟩
          rcases hfirst' with ⟨-, hsmall⟩ | hone
          · exact hsmall
          · exact absurd hone (by simp [upTo])
        | cons s stack =>
          rw [work_cons] at hsteps
          obtain ⟨c, r₁, hloop, hperm₁, hr₁, hsmall, hleast₁⟩ :=
            ih b s.1 s.2 stack r' hbytes hstack hdeep.1 hdeep.2 ⟨hr', hleast, hfirst'⟩
            (by rw [work_cons]; dsimp only; omega)
          exact ⟨c, r₁, hloop, hperm₁.trans hperm, hr₁, hsmall, hleast₁⟩
      · rw [if_neg hs₂]
        have hlarge : left + MAX_THRESH ≤ hi := by
          rw [hsmall₂] at hs₂
          omega
        have hcur' : (hi - left) * 2 ^ stack.length ≤ b.length :=
          (Nat.mul_le_mul_right _ (by omega)).trans hcur
        obtain ⟨c, r₁, hloop, hperm₁, hr₁, hsmall, hleast₁⟩ := ih b left hi stack r' hbytes
          (List.forall_mem_cons.mpr ⟨⟨hlarge, hhi⟩, hstack⟩) hcur' hdeep
          ⟨hr', hleast, by rwa [upTo_cons_lt hr'left]⟩ (by rw [work_cons]; dsimp only; omega)
        exact ⟨c, r₁, hloop, hperm₁.trans hperm, hr₁, hsmall, hleast₁⟩
    · have hlarge : lo + MAX_THRESH < right := by
        rw [hsmall₁] at hs₁
        omega
      rw [if_neg hs₁]
      -- the least items are the left part, or they are in front of it
      have hfirst' : upTo r' ((lo, right) :: stack) = [] ∧ r' ≤ MAX_THRESH ∨
          upTo r' ((lo, right) :: stack) = [(0, r')] := by
        rcases hfirst with ⟨hbefore, hfirst⟩ | ⟨hzero, hsame, hnone⟩
        · rwa [upTo_cons_lt (s := (lo, right)) hbefore]
        · right
          rw [upTo_cons_le (s := (lo, right)) (by dsimp only; omega), hnone, hzero, hsame]
      by_cases hs₂ : Small size hi left
      · rw [if_pos hs₂]
        have hcur' : (right - lo) * 2 ^ stack.length ≤ b.length :=
          (Nat.mul_le_mul_right _ (by omega)).trans hcur
        obtain ⟨c, r₁, hloop, hperm₁, hr₁, hsmall, hleast₁⟩ := ih b lo right stack r' hbytes
          (List.forall_mem_cons.mpr ⟨⟨hlarge.le, by omega⟩, hstack⟩) hcur' hdeep
          ⟨hr', hleast, hfirst'⟩ (by rw [work_cons]; dsimp only; omega)
        exact ⟨c, r₁, hloop, hperm₁.trans hperm, hr₁, hsmall, hleast₁⟩
      · have hlarge₂ : left + MAX_THRESH < hi := by
          rw [hsmall₂] at hs₂
          omega
        rw [if_neg hs₂]
        have hlonger := distance_lt_iff hsize hbytes hlo₂ (hright.trans hhi) hleft hhi
        by_cases hside : distance size right lo > distance size hi left
        · have hless := hlonger.mp hside
          have hcur' : (hi - left) * 2 ^ (stack.length + 1) ≤ b.length :=
            pow_bound (by omega) hcur
          have hkept : (right - lo) * 2 ^ stack.length ≤ b.length :=
            (Nat.mul_le_mul_right _ (by omega)).trans hcur
          have hlong' : ∀ s ∈ (left, hi) :: (lo, right) :: stack, Long b.length s := by
            refine List.forall_mem_cons.mpr ⟨⟨hlarge₂.le, hhi⟩, ?_⟩
            exact List.forall_mem_cons.mpr ⟨⟨hlarge.le, by dsimp only; omega⟩, hstack⟩
          rw [if_pos hside, PUSH_ok b.length hn (by omega) hcur', ok_bind]
          obtain ⟨c, r₁, hloop, hperm₁, hr₁, hsmall, hleast₁⟩ := ih b left hi
            ((lo, right) :: stack) r' hbytes hlong' hcur' ⟨hkept, hdeep⟩
            ⟨hr', hleast, by rwa [upTo_cons_lt hr'left]⟩
            (by rw [work_cons, work_cons]; dsimp only; omega)
          exact ⟨c, r₁, hloop, hperm₁.trans hperm, hr₁, hsmall, hleast₁⟩
        · have hnotless := mt hlonger.mpr hside
          have hcur' : (right - lo) * 2 ^ (stack.length + 1) ≤ b.length :=
            pow_bound (by omega) hcur
          have hkept : (hi - left) * 2 ^ stack.length ≤ b.length :=
            (Nat.mul_le_mul_right _ (by omega)).trans hcur
          have hlong' : ∀ s ∈ (lo, right) :: (left, hi) :: stack, Long b.length s := by
            refine List.forall_mem_cons.mpr ⟨⟨hlarge.le, by dsimp only; omega⟩, ?_⟩
            exact List.forall_mem_cons.mpr ⟨⟨hlarge₂.le, hhi⟩, hstack⟩
          have hswap : upTo r' ((lo, right) :: (left, hi) :: stack) =
              upTo r' ((lo, right) :: stack) := by
            by_cases hlor : lo ≤ r'
            · rw [upTo_cons_le (s := (lo, right)) hlor, upTo_cons_le (s := (lo, right)) hlor,
                upTo_cons_lt (s := (left, hi)) hr'left]
            · rw [upTo_cons_lt (s := (lo, right)) (Nat.lt_of_not_le hlor),
                upTo_cons_lt (s := (lo, right)) (Nat.lt_of_not_le hlor),
                upTo_cons_lt (s := (left, hi)) hr'left]
          rw [if_neg hside, PUSH_ok b.length hn (by omega) hcur', ok_bind]
          obtain ⟨c, r₁, hloop, hperm₁, hr₁, hsmall, hleast₁⟩ := ih b lo right
            ((left, hi) :: stack) r' hbytes hlong' hcur' ⟨hkept, hdeep⟩
            ⟨hr', hleast, by rwa [hswap]⟩
            (by rw [work_cons, work_cons]; dsimp only; omega)
          exact ⟨c, r₁, hloop, hperm₁.trans hperm, hr₁, hsmall, hleast₁⟩

end Loop

section Insertion

variable {cmp : α → α → ℤ} {a : List α} {x y z : α}

theorem leastLoop_ok (hcmp : Consistent cmp) {size thresh : ℕ} (hsize : 0 < size)
    (hthresh : thresh < a.length)
    (steps run tmp : ℕ) (hsteps : thresh + 1 < run + steps) (hpos : 0 < steps) (htmp : tmp < run)
    (hin : tmp ≤ thresh) (hy : a[tmp]? = some y)
    (hleast : ∀ i x, i < run → a[i]? = some x → cmp y x ≤ 0) :
    ∃ m w, leastLoop cmp size a (thresh * size) steps run tmp = .ok m ∧ m ≤ thresh ∧ a[m]? = some w ∧
      ∀ i x, i ≤ thresh → a[i]? = some x → cmp w x ≤ 0 := by
  induction steps generalizing run tmp y with
  | zero => exact absurd hpos (Nat.lt_irrefl 0)
  | succ steps ih =>
    rw [leastLoop]
    by_cases hgo : run ≤ thresh
    · obtain ⟨x, hx⟩ := exists_get (a := a) (i := run) (by omega)
      rw [if_pos (Nat.mul_le_mul_right size hgo), load_ok hx, ok_bind, load_ok hy, ok_bind]
      by_cases hless : cmp x y < 0
      · rw [if_pos hless]
        refine ih (run + 1) run (by omega) (by omega) (Nat.lt_succ_self run) hgo hx
          fun i w hi hw => ?_
        rcases Nat.lt_succ_iff_lt_or_eq.mp hi with hlt | rfl
        · exact hcmp.trans x y w hless.le (hleast i w hlt hw)
        · rw [hx] at hw
          rw [Option.some.inj hw, hcmp.refl]
      · rw [if_neg hless]
        refine ih (run + 1) tmp (by omega) (by omega) (by omega) hin hy fun i w hi hw => ?_
        rcases Nat.lt_succ_iff_lt_or_eq.mp hi with hlt | rfl
        · exact hleast i w hlt hw
        · rw [hx] at hw
          rw [← Option.some.inj hw]
          exact (hcmp.not_neg x y).mp hless
    · rw [if_neg (mt (Nat.mul_le_mul_right_iff hsize).mp hgo)]
      exact ⟨tmp, y, rfl, hin, hy, fun i x hi hx => hleast i x (by omega) hx⟩

theorem get_append_right {P : List α} (Q : List α) {i : ℕ} (h : P.length = i) :
    (P ++ x :: Q)[i]? = some x := by
  rw [← h, List.getElem?_append_right (Nat.le_refl _), Nat.sub_self]
  rfl

theorem store_append_right {P : List α} (Q : List α) {i : ℕ} (h : P.length = i) (y : α) :
    store (P ++ x :: Q) i y = .ok (P ++ y :: Q) := by
  rw [← h, store_append]

/-- The place is behind the last item that is not greater; the first item is none of those that are
greater. -/
theorem findPlace_ok (P Q R : List α) (y x : α) {run : ℕ} (steps : ℕ) (hsteps : P.length < steps)
    (hrun : (P ++ y :: Q).length = run) (hfirst : ∀ w ∈ (P ++ [y]).head?, ¬ cmp x w < 0)
    (hQ : ∀ q ∈ Q, cmp x q < 0) :
    ∃ P' Q', findPlace cmp (P ++ y :: Q ++ x :: R) run steps P.length = .ok (P'.length - 1) ∧
      P' ++ Q' = P ++ y :: Q ∧ P' ≠ [] ∧ (∀ w ∈ P'.getLast?, ¬ cmp x w < 0) ∧
      ∀ q ∈ Q', cmp x q < 0 := by
  induction steps generalizing P y Q with
  | zero => exact absurd hsteps (Nat.not_lt_zero _)
  | succ steps ih =>
    have hx : (P ++ y :: Q ++ x :: R)[run]? = some x := get_append_right R hrun
    have hy : (P ++ y :: Q ++ x :: R)[P.length]? = some y := by
      rw [List.append_assoc]
      exact get_append_right _ rfl
    rw [findPlace, load_ok hx, ok_bind, load_ok hy, ok_bind]
    by_cases hless : cmp x y < 0
    · rw [if_pos hless]
      rcases List.eq_nil_or_concat' P with rfl | ⟨P₀, y₀, rfl⟩
      · exact absurd hless (hfirst y rfl)
      · rw [List.length_append, List.length_singleton] at hsteps
        have hcons : P₀ ++ [y₀] ++ y :: Q = P₀ ++ y₀ :: (y :: Q) := by
          rw [List.append_assoc, List.singleton_append]
        have hfirst' : ∀ w ∈ (P₀ ++ [y₀]).head?, ¬ cmp x w < 0 := by
          intro w hw
          refine hfirst w ?_
          rw [List.head?_append_of_ne_nil _ (List.append_ne_nil_of_right_ne_nil _ (by simp))]
          exact hw
        rw [back_ok (by rw [List.length_append, List.length_singleton]; omega), ok_bind,
          List.length_append, List.length_singleton, Nat.add_sub_cancel, hcons]
        rw [hcons] at hrun
        exact ih P₀ (y :: Q) y₀ (by omega) hrun hfirst'
          (List.forall_mem_cons.mpr ⟨hless, hQ⟩)
    · rw [if_neg hless]
      refine ⟨P ++ [y], Q, ?_, ?_, by simp, fun w hw => ?_, hQ⟩
      · rw [List.length_append, List.length_singleton, Nat.add_sub_cancel]
      · rw [List.append_assoc, List.singleton_append]
      · rw [List.getLast?_concat] at hw
        rwa [← Option.some.inj hw]

theorem shiftUp_ok (P Q R : List α) (z x : α) (hP : P ≠ []) {hi : ℕ} (steps : ℕ)
    (hsteps : Q.length < steps) (hhi : (P ++ Q).length = hi) :
    shiftUp x P.length steps (P ++ Q ++ z :: R) hi = .ok (P ++ x :: Q ++ R) := by
  induction steps generalizing Q z R hi with
  | zero => exact absurd hsteps (Nat.not_lt_zero _)
  | succ steps ih =>
    have hpos := List.length_pos_of_ne_nil hP
    rw [List.length_append] at hhi
    rw [shiftUp, back_ok (by omega), ok_bind]
    rcases List.eq_nil_or_concat' Q with rfl | ⟨Q₀, q, rfl⟩
    · rw [List.length_nil, Nat.add_zero] at hhi
      rw [if_neg (by omega), List.append_nil, store_append_right R hhi, List.append_assoc]
      rfl
    · rw [List.length_append, List.length_singleton] at hhi hsteps
      have hlo : (P ++ Q₀).length = hi - 1 := by
        rw [List.length_append]
        omega
      have harr : P ++ (Q₀ ++ [q]) ++ z :: R = P ++ Q₀ ++ q :: (z :: R) := by
        rw [← List.append_assoc, List.append_assoc _ [q], List.singleton_append]
      have harr' : P ++ Q₀ ++ q :: (z :: R) = (P ++ Q₀ ++ [q]) ++ z :: R := by
        rw [List.append_assoc _ [q], List.singleton_append]
      have hcount : (P ++ Q₀ ++ [q]).length = hi := by
        rw [List.length_append, hlo, List.length_singleton]
        omega
      rw [if_pos (by omega), harr, load_ok (get_append_right _ hlo), ok_bind, harr',
        store_append_right R hcount, ok_bind]
      have hnext := ih Q₀ (q :: R) q (by omega) hlo
      have hback : P ++ Q₀ ++ [q] ++ q :: R = P ++ Q₀ ++ q :: (q :: R) := by
        rw [List.append_assoc _ [q], List.singleton_append]
      rw [hback, hnext]
      congr 1
      rw [List.append_assoc, List.append_assoc, List.cons_append, List.cons_append,
        List.append_assoc, List.singleton_append]

theorem moveDown_ok (P Q R : List α) (x : α) (hP : P ≠ []) {run : ℕ}
    (hrun : (P ++ Q).length = run) :
    moveDown (P ++ Q ++ x :: R) P.length run = .ok (P ++ x :: Q ++ R) := by
  have hlength : (P ++ Q).length = P.length + Q.length := List.length_append
  rw [moveDown]
  split
  · rw [load_ok (get_append_right R hrun), ok_bind]
    exact shiftUp_ok P Q R x x hP (run + 1) (by omega) hrun
  · next hsame =>
    have hQ : Q = [] := List.length_eq_zero_iff.mp (by omega)
    rw [hQ, List.append_nil, List.append_assoc]
    rfl

theorem sorted_insert (hcmp : Consistent cmp) {P Q : List α} (hP : P ≠ [])
    (hsorted : Sorted cmp (P ++ Q)) (hlast : ∀ w ∈ P.getLast?, ¬ cmp x w < 0)
    (hQ : ∀ q ∈ Q, cmp x q < 0) : Sorted cmp (P ++ x :: Q) := by
  obtain ⟨hsP, hsQ, hPQ⟩ := List.pairwise_append.mp hsorted
  rcases List.eq_nil_or_concat' P with hnil | ⟨P₀, y, rfl⟩
  · exact absurd hnil hP
  · have hyx : cmp y x ≤ 0 := by
      rw [← hcmp.not_neg x y]
      exact hlast y List.getLast?_concat
    refine List.pairwise_append.mpr ⟨hsP, List.pairwise_cons.mpr ⟨fun q hq => (hQ q hq).le, hsQ⟩,
      fun w hw v hv => ?_⟩
    rcases List.mem_cons.mp hv with rfl | hv
    · rcases List.mem_append.mp hw with hw | hw
      · have hwy := (List.pairwise_append.mp hsP).2.2 w hw y (List.mem_singleton_self y)
        exact hcmp.trans w y v hwy hyx
      · rwa [List.mem_singleton.mp hw]
    · exact hPQ w hw v hv

/-- The items in front of `run_ptr` are sorted, and the first one is the least of all. -/
theorem insertLoop_ok (hcmp : Consistent cmp) (steps run : ℕ) (hrun : 1 ≤ run)
    (hsteps : a.length < run + steps) (hpos : 0 < steps) (hsorted : Sorted cmp (a.take run))
    (hleast : ∀ w ∈ a.head?, ∀ x ∈ a, cmp w x ≤ 0) :
    ∃ b, insertLoop cmp (a.length - 1) steps a run = .ok b ∧ b.Perm a ∧ Sorted cmp b := by
  induction steps generalizing a run with
  | zero => exact absurd hpos (Nat.lt_irrefl 0)
  | succ steps ih =>
    rw [insertLoop]
    by_cases hgo : run ≤ a.length - 1
    · have hlt : run < a.length := by omega
      -- the array is what is sorted, the next item and the rest
      obtain ⟨S, x, R, ha, hS, hsplit⟩ : ∃ S x R, a = S ++ x :: R ∧ S.length = run ∧
          a.take run = S := by
        refine ⟨a.take run, a[run], a.drop (run + 1), ?_, ?_, rfl⟩
        · rw [← List.drop_eq_getElem_cons hlt, List.take_append_drop]
        · rw [List.length_take]
          omega
      rw [hsplit] at hsorted
      obtain ⟨P, y, rfl⟩ : ∃ P y, S = P ++ [y] := by
        rcases List.eq_nil_or_concat' S with rfl | hconcat
        · rw [List.length_nil] at hS
          omega
        · exact hconcat
      have hhead : ∀ w ∈ (P ++ [y]).head?, ¬ cmp x w < 0 := by
        intro w hw
        rw [hcmp.not_neg]
        refine hleast w ?_ x ?_
        · rw [ha, List.head?_append_of_ne_nil _ (by simp)]
          exact hw
        · rw [ha]
          exact List.mem_append_right _ List.mem_cons_self
      have hPlen : P.length = run - 1 := by
        rw [List.length_append, List.length_singleton] at hS
        omega
      obtain ⟨P', Q', hplace, hsame, hne, hlast, hQ'⟩ := findPlace_ok P [] R y x
        (run + 1) (by omega) hS hhead (fun q hq => absurd hq List.not_mem_nil)
      have hPpos := List.length_pos_of_ne_nil hne
      have hcount : (P' ++ Q').length = run := by
        rw [hsame, hS]
      rw [if_pos hgo, back_ok (by omega), ok_bind, ← hPlen, ha, hplace, ok_bind,
        Nat.sub_add_cancel hPpos, ← hsame, moveDown_ok P' Q' R x hne hcount, ok_bind]
      have hnew : (P' ++ x :: Q' ++ R).Perm a := by
        have hmiddle : (Q' ++ x :: R).Perm (x :: (Q' ++ R)) := List.perm_middle
        rw [ha, ← hsame, List.append_assoc, List.append_assoc]
        exact List.Perm.append_left P' hmiddle.symm
      have hlength := hnew.length_eq
      have hfront : (P' ++ x :: Q').length = run + 1 := by
        rw [List.length_append, List.length_cons, ← hcount, List.length_append]
        omega
      have hstart : ∀ w ∈ (P' ++ x :: Q' ++ R).head?, ∀ v ∈ P' ++ x :: Q' ++ R, cmp w v ≤ 0 := by
        intro w hw v hv
        refine hleast w ?_ v (hnew.mem_iff.mp hv)
        rw [List.append_assoc, List.head?_append_of_ne_nil _ hne] at hw
        rw [ha, ← hsame, List.append_assoc, List.head?_append_of_ne_nil _ hne]
        exact hw
      obtain ⟨b, hloop, hperm, hb⟩ := ih (a := P' ++ x :: Q' ++ R) (run + 1) (by omega) (by omega)
        (by omega) (by
          rw [List.take_left' hfront]
          rw [← hsame] at hsorted
          exact sorted_insert hcmp hne hsorted hlast hQ') hstart
      rw [hsame, ← ha, ← hlength]
      exact ⟨b, hloop, hperm.trans hnew, hb⟩
    · rw [if_neg hgo]
      refine ⟨a, rfl, List.Perm.refl a, ?_⟩
      rwa [List.take_of_length_le (by omega)] at hsorted

end Insertion

section Quicksort

variable {cmp : α → α → ℤ} {size : ℕ} {a : List α}

theorem partitions_ok (hcmp : Consistent cmp) (hsize : 0 < size)
    (hbytes : a.length * size < 2 ^ 31) (hpos : 0 < a.length) :
    ∃ b r, partitions cmp size a = .ok b ∧ b.Perm a ∧ r < b.length ∧ r ≤ MAX_THRESH ∧
      Least cmp b r := by
  have hfour : MAX_THRESH = 4 := rfl
  have hwhole : Least cmp a (a.length - 1) := by
    intro i j x y _ hj _ hy
    have hlt := (List.getElem?_eq_some_iff.mp hy).1
    omega
  rw [partitions]
  by_cases hlarge : a.length > MAX_THRESH
  · rw [if_pos hlarge]
    have hfirst : upTo (a.length - 1) [(0, a.length - 1)] = [(0, a.length - 1)] :=
      upTo_cons_le (s := (0, a.length - 1)) (Nat.zero_le _)
    refine quickLoop_ok hcmp hsize a.length a 0 (a.length - 1) [] (a.length - 1) hbytes ?_ ?_ trivial
      ⟨by omega, hwhole, Or.inr hfirst⟩ ?_
    · intro s hs
      rw [List.mem_singleton.mp hs]
      exact ⟨by dsimp only; omega, by dsimp only; omega⟩
    · rw [List.length_nil, Nat.pow_zero, Nat.mul_one]
      omega
    · rw [work_cons]
      show a.length - 1 - 0 + 0 < a.length
      omega
  · rw [if_neg hlarge]
    exact ⟨a, a.length - 1, rfl, List.Perm.refl a, by omega, by omega, hwhole⟩

theorem thresh_eq (hbytes : a.length * size < 2 ^ 31) :
    min ((a.length - 1) * size) (maxThresh size) = min (a.length - 1) MAX_THRESH * size := by
  by_cases htwo : 2 ≤ a.length
  · rw [max_thresh_eq hbytes htwo, Nat.mul_min_mul_right]
  · rw [show a.length - 1 = 0 by omega, Nat.zero_mul, Nat.zero_min, Nat.zero_min, Nat.zero_mul]

theorem insertionSort_ok (hcmp : Consistent cmp) (hsize : 0 < size)
    (hbytes : a.length * size < 2 ^ 31) {r : ℕ} (hr : r < a.length) (hfew : r ≤ MAX_THRESH)
    (hleast : Least cmp a r) :
    ∃ b, insertionSort cmp size a = .ok b ∧ b.Perm a ∧ Sorted cmp b := by
  obtain ⟨y, hy⟩ := exists_get (a := a) (i := 0) (by omega)
  obtain ⟨m, w, hloop, hm, hw, hmin⟩ := leastLoop_ok hcmp hsize
    (show min (a.length - 1) MAX_THRESH < a.length by omega) (a.length + 2) 1 0 (by omega)
    (by omega) Nat.one_pos (Nat.zero_le _) hy (by
      intro i x hi hx
      obtain rfl : i = 0 := by omega
      rw [hy] at hx
      rw [Option.some.inj hx, hcmp.refl])
  -- what is the least of the first items is the least of all
  have hall : ∀ x ∈ a, cmp w x ≤ 0 := by
    intro x hx
    obtain ⟨i, hi⟩ := List.mem_iff_getElem?.mp hx
    rcases Nat.lt_or_ge r i with hgt | hle
    · obtain ⟨z, hz⟩ := exists_get (a := a) (i := r) hr
      exact hcmp.trans w z x (hmin r z (by omega) hz) (hleast r i z x (le_refl r) hgt hz hi)
    · exact hmin i x (by omega) hi
  obtain ⟨b, hfront, hperm, hhead⟩ : ∃ b, toFront a m = .ok b ∧ b.Perm a ∧ b[0]? = some w := by
    rw [toFront]
    by_cases hzero : m = 0
    · rw [if_neg (not_not.mpr hzero)]
      rw [hzero] at hw
      exact ⟨a, rfl, List.Perm.refl a, hw⟩
    · rw [if_pos hzero, SWAP_ok hw hy]
      exact ⟨_, rfl, (Rearranged.swap (Nat.zero_le m) (le_refl m) (le_refl 0) (Nat.zero_le m) hw
        hy).perm, get_swap_right hy⟩
  have hlength := hperm.length_eq
  have hbleast : ∀ v ∈ b.head?, ∀ x ∈ b, cmp v x ≤ 0 := by
    intro v hv x hx
    rw [List.head?_eq_getElem?, hhead] at hv
    rw [← Option.some.inj hv]
    exact hall x (hperm.mem_iff.mp hx)
  have hsorted : Sorted cmp (b.take 2) := by
    rcases b with _ | ⟨x, _ | ⟨z, b⟩⟩
    · exact List.Pairwise.nil
    · exact List.pairwise_singleton _ x
    · refine List.pairwise_pair.mpr (hbleast x rfl z ?_)
      exact List.mem_cons_of_mem _ List.mem_cons_self
  obtain ⟨c, hinsert, hperm', hc⟩ := insertLoop_ok hcmp (b.length + 1) 2 (by norm_num) (by omega)
    (Nat.succ_pos _) hsorted hbleast
  refine ⟨c, ?_, hperm'.trans hperm, hc⟩
  rw [insertionSort, thresh_eq hbytes, hloop, ok_bind, hfront, ok_bind]
  exact hinsert

/-- For every consistent comparison the quicksort of less than 2^31 bytes stays inside the array and
inside its stack, ends, and leaves the items sorted. -/
theorem quicksort_ok (hcmp : Consistent cmp) (hsize : 0 < size)
    (hbytes : a.length * size < 2 ^ 31) :
    ∃ b, quicksort cmp size a = .ok b ∧ b.Perm a ∧ Sorted cmp b := by
  rw [quicksort]
  by_cases hzero : a.length = 0
  · rw [if_pos hzero]
    rw [List.length_eq_zero_iff.mp hzero]
    exact ⟨[], rfl, List.Perm.refl [], List.Pairwise.nil⟩
  · rw [if_neg hzero]
    obtain ⟨b, r, hparts, hperm, hr, hfew, hleast⟩ :=
      partitions_ok hcmp hsize hbytes (by omega)
    rw [← hperm.length_eq] at hbytes
    obtain ⟨c, hinsert, hperm', hc⟩ := insertionSort_ok hcmp hsize hbytes hr hfew hleast
    rw [hparts, ok_bind]
    exact ⟨c, hinsert, hperm'.trans hperm, hc⟩

end Quicksort

end Mintlib.Sort
