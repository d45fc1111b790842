import Mintlib.Lib.Extent

/-!
# Byte-addressed memory with big-endian 32-bit words

Loads and stores of words, block fill and block copy, and the frame rules that
say which addresses such an operation leaves alone.
-/

namespace Mintlib.ByteMemory

abbrev Mem := ℕ → UInt8

/-- The big-endian 32-bit word at address `a`. -/
def load32 (m : Mem) (a : ℕ) : ℕ :=
  (((m a).toNat * 256 + (m (a + 1)).toNat) * 256 + (m (a + 2)).toNat) * 256 + (m (a + 3)).toNat

/-- Store the low 32 bits of `v` at address `a`, most significant byte first. -/
def store32 (m : Mem) (a v : ℕ) : Mem := fun x =>
  if x = a then UInt8.ofNat (v / 2 ^ 24)
  else if x = a + 1 then UInt8.ofNat (v / 2 ^ 16)
  else if x = a + 2 then UInt8.ofNat (v / 2 ^ 8)
  else if x = a + 3 then UInt8.ofNat v
  else m x

def fill (m : Mem) (a : ℕ) (b : UInt8) (len : ℕ) : Mem := fun x =>
  if a ≤ x ∧ x < a + len then b else m x

/-- `memcpy`: the bytes of the source as they were before the copy. -/
def copy (m : Mem) (dst src len : ℕ) : Mem := fun x =>
  if dst ≤ x ∧ x < dst + len then m (src + (x - dst)) else m x

/-- The bytes `l` stored from `a` on. -/
def write (m : Mem) (a : ℕ) (l : List UInt8) : Mem := fun x =>
  if a ≤ x then l[x - a]?.getD (m x) else m x

/-- The bytes `l` stand at `a`. -/
def Holds (m : Mem) (a : ℕ) (l : List UInt8) : Prop :=
  ∀ i, (h : i < l.length) → m (a + i) = l[i]

/-- `m'` holds the same bytes as `m` on the extent `e`. -/
def AgreeOn (m m' : Mem) (e : Extent) : Prop := ∀ x ∈ e, m' x = m x

/-- `m'` differs from `m` at most inside the extents `es`. -/
def ChangesIn (m m' : Mem) (es : List Extent) : Prop :=
  ∀ x, (∀ e ∈ es, x ∉ e) → m' x = m x

theorem load32_congr {m m' : Mem} {a : ℕ} (h : AgreeOn m m' ⟨a, 4⟩) :
    load32 m' a = load32 m a := by
  have hx : ∀ i < 4, m' (a + i) = m (a + i) :=
    fun i hi => h (a + i) ⟨by simp, by simp only; omega⟩
  have h0 := hx 0 (by omega)
  have h1 := hx 1 (by omega)
  have h2 := hx 2 (by omega)
  have h3 := hx 3 (by omega)
  simp only [Nat.add_zero] at h0
  simp only [load32, h0, h1, h2, h3]

theorem load32_store32_self (m : Mem) (a v : ℕ) : load32 (store32 m a v) a = v % 2 ^ 32 := by
  have h1 : a + 1 ≠ a := by omega
  have h2 : a + 2 ≠ a := by omega
  have h3 : a + 3 ≠ a := by omega
  have h21 : a + 2 ≠ a + 1 := by omega
  have h31 : a + 3 ≠ a + 1 := by omega
  have h32 : a + 3 ≠ a + 2 := by omega
  simp only [load32, store32, if_true, if_neg h1, if_neg h2, if_neg h3, if_neg h21, if_neg h31,
    if_neg h32, UInt8.toNat_ofNat']
  omega

theorem store32_of_not_mem {m : Mem} {a v x : ℕ} (h : x < a ∨ a + 4 ≤ x) :
    store32 m a v x = m x := by
  simp only [store32]
  rw [if_neg (by omega), if_neg (by omega), if_neg (by omega), if_neg (by omega)]

theorem load32_store32_of_apart (m : Mem) {a b : ℕ} (v : ℕ) (h : a + 4 ≤ b ∨ b + 4 ≤ a) :
    load32 (store32 m a v) b = load32 m b := by
  apply load32_congr
  intro x hx
  rw [Extent.mem_iff] at hx
  exact store32_of_not_mem (by simp only at hx; omega)

theorem store32_comm (m : Mem) {a b : ℕ} (v w : ℕ) (h : a + 4 ≤ b ∨ b + 4 ≤ a) :
    store32 (store32 m a v) b w = store32 (store32 m b w) a v := by
  funext x
  by_cases hb : b ≤ x ∧ x < b + 4
  · rw [store32_of_not_mem (a := a) (by omega)]
    simp only [store32]
    split_ifs <;> first | rfl | omega
  · rw [store32_of_not_mem (a := b) (by omega)]
    simp only [store32]
    rw [if_neg (show ¬ x = b by omega), if_neg (show ¬ x = b + 1 by omega),
      if_neg (show ¬ x = b + 2 by omega), if_neg (show ¬ x = b + 3 by omega)]

theorem fill_of_not_mem {m : Mem} {a len x : ℕ} {b : UInt8} (h : x < a ∨ a + len ≤ x) :
    fill m a b len x = m x := by
  simp only [fill]
  rw [if_neg (by omega)]

theorem copy_of_not_mem {m : Mem} {dst src len x : ℕ} (h : x < dst ∨ dst + len ≤ x) :
    copy m dst src len x = m x := by
  simp only [copy]
  rw [if_neg (by omega)]

theorem holds_write (m : Mem) (a : ℕ) (l : List UInt8) : Holds (write m a l) a l := by
  intro i hi
  simp only [write]
  rw [if_pos (by omega), Nat.add_sub_cancel_left, List.getElem?_eq_getElem hi, Option.getD_some]

theorem write_of_not_mem {m : Mem} {a x : ℕ} {l : List UInt8} (h : x < a ∨ a + l.length ≤ x) :
    write m a l x = m x := by
  simp only [write]
  by_cases hx : a ≤ x
  · rw [if_pos hx, List.getElem?_eq_none (by omega), Option.getD_none]
  · rw [if_neg hx]

theorem Holds.congr {m m' : Mem} {a : ℕ} {l : List UInt8} (h : Holds m a l)
    (hagree : AgreeOn m m' ⟨a, l.length⟩) : Holds m' a l := by
  intro i hi
  rw [hagree (a + i) ⟨Nat.le_add_right a i, Nat.add_lt_add_left hi a⟩]
  exact h i hi

theorem copy_apply {m : Mem} {dst src len i : ℕ} (h : i < len) :
    copy m dst src len (dst + i) = m (src + i) := by
  simp only [copy]
  rw [if_pos (by omega), Nat.add_sub_cancel_left]

namespace ChangesIn

theorem refl (m : Mem) (es : List Extent) : ChangesIn m m es := fun _ _ => rfl

theorem trans {m m' m'' : Mem} {es : List Extent} (h : ChangesIn m m' es)
    (h' : ChangesIn m' m'' es) : ChangesIn m m'' es :=
  fun x hx => (h' x hx).trans (h x hx)

theorem cover {m m' : Mem} {es fs : List Extent} (h : ChangesIn m m' es)
    (hw : ∀ e ∈ es, ∀ x ∈ e, ∃ f ∈ fs, x ∈ f) : ChangesIn m m' fs := by
  intro x hx
  apply h
  intro e he hxe
  obtain ⟨f, hf, hxf⟩ := hw e he x hxe
  exact hx f hf hxf

theorem mono {m m' : Mem} {es fs : List Extent} (h : ChangesIn m m' es)
    (hw : ∀ e ∈ es, ∃ f ∈ fs, e.Within f) : ChangesIn m m' fs := by
  apply h.cover
  intro e he x hx
  obtain ⟨f, hf, hef⟩ := hw e he
  exact ⟨f, hf, hef.mem hx⟩

theorem subset {m m' : Mem} {es fs : List Extent} (h : ChangesIn m m' es) (hs : es ⊆ fs) :
    ChangesIn m m' fs :=
  h.mono fun e he => ⟨e, hs he, Extent.Within.refl e⟩

theorem agreeOn {m m' : Mem} {es : List Extent} (h : ChangesIn m m' es) {e : Extent}
    (ha : ∀ f ∈ es, e.Apart f) : AgreeOn m m' e :=
  fun x hx => h x fun f hf => (ha f hf).not_mem hx

theorem store32 (m : Mem) (a v : ℕ) : ChangesIn m (store32 m a v) [⟨a, 4⟩] := by
  intro x hx
  have := hx ⟨a, 4⟩ (by simp)
  rw [Extent.mem_iff] at this
  exact store32_of_not_mem (by simp only at this; omega)

theorem fill (m : Mem) (a : ℕ) (b : UInt8) (len : ℕ) : ChangesIn m (fill m a b len) [⟨a, len⟩] := by
  intro x hx
  have := hx ⟨a, len⟩ (by simp)
  rw [Extent.mem_iff] at this
  exact fill_of_not_mem (by simp only at this; omega)

theorem copy (m : Mem) (dst src len : ℕ) : ChangesIn m (copy m dst src len) [⟨dst, len⟩] := by
  intro x hx
  have := hx ⟨dst, len⟩ (by simp)
  rw [Extent.mem_iff] at this
  exact copy_of_not_mem (by simp only at this; omega)

theorem write (m : Mem) (a : ℕ) (l : List UInt8) :
    ChangesIn m (write m a l) [⟨a, l.length⟩] := by
  intro x hx
  have := hx ⟨a, l.length⟩ (by simp)
  rw [Extent.mem_iff] at this
  exact write_of_not_mem (by simp only at this; omega)

theorem step {m m' : Mem} {es : List Extent} (h : ChangesIn m m' es) {e : Extent} (he : e ∈ es)
    {a v : ℕ} (hw : Extent.Within ⟨a, 4⟩ e) : ChangesIn m (ByteMemory.store32 m' a v) es :=
  h.trans ((store32 m' a v).mono fun f hf => ⟨e, he, by
    obtain rfl : f = ⟨a, 4⟩ := by simpa using hf
    exact hw⟩)

end ChangesIn

theorem AgreeOn.mono {m m' : Mem} {e f : Extent} (h : AgreeOn m m' f) (hw : e.Within f) :
    AgreeOn m m' e :=
  fun x hx => h x (hw.mem hx)

end Mintlib.ByteMemory
