import Mintlib.Malloc.Release

/-!
# What `malloc` does to the free list

`Supplied` is a region or a piece of our own heap that enters the free list,
`Carved` is the block that leaves it. `malloc_spec` shows that the code does
these two, or fails and leaves the list alone.
-/

namespace Mintlib.Malloc

open ByteMemory

theorem alignDown_two_pow (x k : ℕ) : alignDown x (2 ^ k) = x - x % 2 ^ k := by
  rw [alignDown, Nat.and_two_pow_sub_one_eq_mod]

theorem alignDown_eight (x : ℕ) : alignDown x 8 = x - x % 8 := alignDown_two_pow x 3

theorem alignDown_page (E : Layout) {x : ℕ} (h : x + E.page_size ≤ 2 ^ 32) :
    x ≤ alignDown (add32 x (E.page_size - 1)) E.page_size ∧
      alignDown (add32 x (E.page_size - 1)) E.page_size < x + E.page_size ∧
      8 ∣ alignDown (add32 x (E.page_size - 1)) E.page_size := by
  obtain ⟨k, hk3, hk31, hk⟩ := E.page_pow
  have hpos : 0 < 2 ^ k := Nat.two_pow_pos k
  have hsum : add32 x (E.page_size - 1) = x + (2 ^ k - 1) := by
    rw [add32, hk, Nat.mod_eq_of_lt (by omega)]
  have hlt := Nat.mod_lt (x + (2 ^ k - 1)) hpos
  rw [hsum, hk, alignDown_two_pow]
  refine ⟨by omega, by omega, ?_⟩
  have h8 : 8 ∣ 2 ^ k := pow_dvd_pow 2 hk3
  exact h8.trans (Nat.dvd_sub_mod _)

theorem chunkBytes_eq {n : ℕ} (h : n + 19 < 2 ^ 32) : chunkBytes n = n + 19 - (n + 19) % 8 := by
  have h12 : add32 (add32 n chunkSize) (MALLOC_ALIGNMENT - 1) = n + 19 := by
    simp only [add32, chunkSize, MALLOC_ALIGNMENT]
    omega
  rw [chunkBytes, h12, alignDown_eight]

theorem chunkBytes_bounds {n : ℕ} (h : n + 19 < 2 ^ 32) :
    n + chunkSize ≤ chunkBytes n ∧ 16 ≤ chunkBytes n ∧ chunkBytes n ≤ n + 19 ∧
      8 ∣ chunkBytes n := by
  rw [chunkBytes_eq h]
  simp only [chunkSize]
  omega

/-- The arithmetic on the request `n` does not wrap: adding the header and
rounding up, adding a border marker and rounding up to a page, and moving
`_heapbase` up. -/
structure NoWrap (E : Layout) (h : Heap) (n : ℕ) : Prop where
  chunk : n + 19 < 2 ^ 32
  page : h.split_mem = true ∨ h.heapbase = 0 →
    chunkBytes n + BORDER_EXTRA + E.page_size ≤ 2 ^ 32
  heap : h.heapbase ≠ 0 → h.heapbase + (hunk E (chunkBytes n) h).1 < 2 ^ 32

/-- The system's answers: a region that `Malloc` hands out is new, and the stack
pointer is in the stack, above our own heap. -/
structure OsOk (E : Layout) (h : Heap) (n : ℕ) (os : Os) : Prop where
  malloc₁ : os.malloc₁ = 0 ∨ Fresh E h.regions ⟨os.malloc₁, (hunk E (chunkBytes n) h).1⟩
  malloc₂ : os.malloc₂ = 0 ∨ Fresh E h.regions ⟨os.malloc₂, (hunk E (chunkBytes n) h).1⟩
  sp : h.heapbase ≠ 0 → os.sp < h.heapbase + h.stksize

/-- `MINHUNK` never doubles past the machine word. -/
structure HunkOk (h : Heap) : Prop where
  min : h.MINHUNK ≤ 2 ^ 30
  max : h.MAXHUNK ≤ 2 ^ 29

section Supply

variable {E : Layout} {h : Heap} {n : ℕ} {os : Os}

theorem hunk_spec (hh : HunkOk h) (hw : NoWrap E h n) :
    ∃ k, (hunk E (chunkBytes n) h).2 = { h with MINHUNK := k } ∧ k ≤ 2 ^ 30 ∧
      chunkBytes n ≤ (hunk E (chunkBytes n) h).1 ∧ (hunk E (chunkBytes n) h).1 < 2 ^ 32 ∧
      8 ∣ (hunk E (chunkBytes n) h).1 ∧
      (h.heapbase = 0 → chunkBytes n + BORDER_EXTRA ≤ (hunk E (chunkBytes n) h).1) := by
  have hmin := hh.min
  have hmax := hh.max
  obtain ⟨hn12, hn16, hn19, hn8⟩ := chunkBytes_bounds hw.chunk
  have hn := hw.chunk
  have hpage : 0 < E.page_size ∧ E.page_size ≤ 2 ^ 31 := by
    obtain ⟨j, hj3, hj31, hj⟩ := E.page_pow
    exact hj ▸ ⟨Nat.two_pow_pos j, Nat.pow_le_pow_right (by norm_num) hj31⟩
  -- the size before it is rounded up to a page
  obtain ⟨sz, k, hsz, hk, hle, hborder, hsys, hown⟩ : ∃ sz k,
      (if ownHeap h || decide (h.MINHUNK < add32 (chunkBytes n) BORDER_EXTRA) then
        (if h.heapbase = 0 then add32 (chunkBytes n) BORDER_EXTRA else chunkBytes n, h)
      else (h.MINHUNK, if h.MINHUNK < h.MAXHUNK then { h with MINHUNK := h.MINHUNK * 2 } else h))
        = (sz, { h with MINHUNK := k }) ∧ k ≤ 2 ^ 30 ∧ chunkBytes n ≤ sz ∧
      (h.heapbase = 0 → chunkBytes n + BORDER_EXTRA ≤ sz) ∧
      (h.split_mem = true ∨ h.heapbase = 0 → sz + E.page_size ≤ 2 ^ 32) ∧
      (¬ (h.split_mem = true ∨ h.heapbase = 0) → sz = chunkBytes n) := by
    by_cases hsys : h.split_mem = true ∨ h.heapbase = 0
    · have hroom := hw.page hsys
      have hadd : add32 (chunkBytes n) BORDER_EXTRA = chunkBytes n + BORDER_EXTRA := by
        simp only [add32, BORDER_EXTRA] at *
        omega
      rw [hadd]
      simp only [BORDER_EXTRA] at *
      split_ifs with h1 h2 h3
      · exact ⟨_, h.MINHUNK, rfl, hmin, by omega, fun _ => le_rfl, fun _ => by omega,
          fun hc => absurd hsys hc⟩
      · exact ⟨_, h.MINHUNK, rfl, hmin, le_rfl, fun hz => absurd hz h2, fun _ => by omega,
          fun hc => absurd hsys hc⟩
      all_goals
        simp only [Bool.or_eq_true, decide_eq_true_eq, not_or, not_lt] at h1
      · exact ⟨_, h.MINHUNK * 2, rfl, by omega, by omega, fun _ => h1.2, fun _ => by omega,
          fun hc => absurd hsys hc⟩
      · exact ⟨_, h.MINHUNK, rfl, hmin, by omega, fun _ => h1.2, fun _ => by omega,
          fun hc => absurd hsys hc⟩
    · have hown : ownHeap h = true := by
        simp only [not_or, Bool.not_eq_true] at hsys
        simp [ownHeap, hsys.1, hsys.2]
      have hne : h.heapbase ≠ 0 := fun hz => hsys (Or.inr hz)
      rw [hown, Bool.true_or, if_pos rfl, if_neg hne]
      exact ⟨_, h.MINHUNK, rfl, hmin, le_rfl, fun hz => absurd hz hne, fun hc => absurd hc hsys,
        fun _ => rfl⟩
  have hunfold : hunk E (chunkBytes n) h =
      if h.split_mem || h.heapbase == 0 then
        (alignDown (add32 sz (E.page_size - 1)) E.page_size, { h with MINHUNK := k })
      else (sz, { h with MINHUNK := k }) := by
    rw [hunk, hsz]
  have hcond : (h.split_mem || h.heapbase == 0) = true ↔ h.split_mem = true ∨ h.heapbase = 0 := by
    simp
  by_cases hc : h.split_mem = true ∨ h.heapbase = 0
  · rw [hunfold, if_pos (hcond.mpr hc)]
    obtain ⟨h1, h2, h3⟩ := alignDown_page E (hsys hc)
    have := hsys hc
    exact ⟨k, rfl, hk, by omega, by omega, h3, fun hz => (hborder hz).trans h1⟩
  · rw [hunfold, if_neg (fun hb => hc (hcond.mp hb))]
    have := hown hc
    subst this
    exact ⟨k, rfl, hk, le_rfl, by omega, hn8, hborder⟩

/-- What `__sbrk (sz)` may do: fail, hand out a new region, or move `_heapbase`. -/
inductive Granted (E : Layout) (h : Heap) (sz : ℕ) : ℕ → Heap → Prop
  | fail (b : Bool) : Granted E h sz SBRK_FAILED { h with split_mem := b }
  | region (b : Bool) {q : ℕ} (hq : Fresh E h.regions ⟨q, sz⟩) :
      Granted E h sz q { h with split_mem := b, regions := ⟨q, sz⟩ :: h.regions }
  | heap (b : Bool) (hne : h.heapbase ≠ 0) (hst : sz < h.stksize) :
      Granted E h sz h.heapbase { h with split_mem := b, heapbase := h.heapbase + sz,
                                         stksize := h.stksize - sz }

theorem gemMalloc_spec {a sz : ℕ} (ha : a = 0 ∨ Fresh E h.regions ⟨a, sz⟩) :
    gemMalloc a sz h = (0, h) ∨ (a ≠ 0 ∧ Fresh E h.regions ⟨a, sz⟩ ∧
      gemMalloc a sz h = (a, { h with regions := ⟨a, sz⟩ :: h.regions })) := by
  by_cases hz : a = 0
  · exact Or.inl (if_pos hz)
  · exact Or.inr ⟨hz, ha.resolve_left hz, if_neg hz⟩

theorem HeapAlloc_spec {sz : ℕ} (os : Os) (hsz : 8 ∣ sz) (hlt : sz < 2 ^ 32)
    (hsum : h.heapbase + sz < 2 ^ 32) (hsp : os.sp < h.heapbase + h.stksize) :
    HeapAlloc os sz h = (0, h) ∨ (sz < h.stksize ∧ HeapAlloc os sz h = (h.heapbase,
      { h with heapbase := h.heapbase + sz, stksize := h.stksize - sz })) := by
  have hround : alignDown (add32 sz 7) 8 = sz := by
    rw [alignDown_eight, add32]
    omega
  have hmove : add32 h.heapbase sz = h.heapbase + sz := Nat.mod_eq_of_lt hsum
  rw [HeapAlloc]
  simp only [hround, hmove]
  by_cases hc : os.sp < h.heapbase + sz
  · exact Or.inl (if_pos hc)
  · right
    have hst : sz < h.stksize := by omega
    rw [if_neg hc, sub32_of_le hst.le]
    exact ⟨hst, rfl⟩

theorem sbrk_spec {sz : ℕ} (os : Os) (hsz : 8 ∣ sz) (hpos : 0 < sz) (hlt : sz < 2 ^ 32)
    (h₁ : os.malloc₁ = 0 ∨ Fresh E h.regions ⟨os.malloc₁, sz⟩)
    (h₂ : os.malloc₂ = 0 ∨ Fresh E h.regions ⟨os.malloc₂, sz⟩)
    (hsum : h.heapbase ≠ 0 → h.heapbase + sz < 2 ^ 32)
    (hsp : h.heapbase ≠ 0 → os.sp < h.heapbase + h.stksize) :
    Granted E h sz (sbrk os sz h).1 (sbrk os sz h).2 := by
  have hsource : ∀ a b, (a = 0 ∨ Fresh E h.regions ⟨a, sz⟩) →
      (sbrkSource os a sz { h with split_mem := b } = (0, { h with split_mem := b })) ∨
      ∃ q h', sbrkSource os a sz { h with split_mem := b } = (q, h') ∧ q ≠ 0 ∧
        Granted E h sz q h' := by
    intro a b ha
    by_cases hown : ownHeap { h with split_mem := b } = true
    · have hne : h.heapbase ≠ 0 := ownHeap_ne (h := { h with split_mem := b }) hown
      rw [sbrkSource, if_pos hown, if_pos (by omega)]
      rcases HeapAlloc_spec (h := { h with split_mem := b }) os hsz hlt (hsum hne)
        (hsp hne) with hf | ⟨hst, hg⟩
      · exact Or.inl hf
      · exact Or.inr ⟨_, _, hg, hne, .heap b hne hst⟩
    · rw [sbrkSource, if_neg hown]
      rcases gemMalloc_spec (h := { h with split_mem := b }) ha with hf | ⟨hz, hq, hg⟩
      · exact Or.inl hf
      · exact Or.inr ⟨_, _, hg, hz, .region b hq⟩
  rcases hsource os.malloc₁ h.split_mem h₁ with hf | ⟨q, h', hg, hq, hgr⟩
  · have hf' : sbrkSource os os.malloc₁ sz h = (0, h) := hf
    simp only [sbrk, hf', if_true]
    by_cases hsplit : h.split_mem = true
    · rw [if_pos hsplit]
      rcases hsource os.malloc₂ false h₂ with hf₂ | ⟨q, h', hg, hq, hgr⟩
      · simp only [hf₂, if_true]
        exact .fail false
      · simp only [hg, if_neg hq]
        exact hgr
    · rw [if_neg hsplit]
      exact .fail h.split_mem
  · have hg' : sbrkSource os os.malloc₁ sz h = (q, h') := hg
    simp only [sbrk, hg', if_neg hq]
    exact hgr

end Supply

section Carve

variable {E : Layout} {rs : List Extent} {hb st : ℕ} {m m' : Mem} {L L' A C : List Chunk}
  {B : List Block} {c : Chunk} {b : Block} {n req : ℕ} {e : Extent}

/-- `Carved n L b L'`: the block `b` of `n` bytes or a few more leaves the list `L`. -/
inductive Carved (n : ℕ) : List Chunk → Extent → List Chunk → Prop
  | split {A C : List Chunk} {c : Chunk} (hc : c.border = none) (hn : n + chunkSize < c.size) :
      Carved n (A ++ c :: C) ⟨c.addr + (c.size - n), n⟩ (A ++ ⟨c.addr, c.size - n, none⟩ :: C)
  | take {A C : List Chunk} {c : Chunk} (hc : c.border = none) (hn : n ≤ c.size)
      (hle : c.size ≤ n + chunkSize) : Carved n (A ++ c :: C) c.ext (A ++ C)

theorem Carved.len_le (h : Carved n L e L') : n ≤ e.len := by
  cases h with
  | split hc hn => exact le_rfl
  | take hc hn hle => exact hn

theorem Carved.geo (h : Carved n L e L') (hg : Geo E rs hb st L B)
    (he : b.ext = e) (hw : b.Wf) : Geo E rs hb st L' (b :: B) := by
  cases h with
  | @split A C c hc hn =>
    simp only [Block.ext, Extent.mk.injEq] at he
    exact hg.split hc rfl (by simp only; omega) he.1 (by simp only; omega) hw
  | take hc hn hle => exact hg.take hc he hw

/-- A block as `malloc` makes it: one header, at the start of its chunk. -/
def plainBlock (e : Extent) (req : ℕ) : Block := ⟨e.base, e.len, e.base, e.len, false, req⟩

theorem plainBlock_wf (h16 : 16 ≤ e.len) (hreq : req + chunkSize ≤ e.len) :
    (plainBlock e req).Wf where
  size := by
    simp only [plainBlock, chunkSize]
    omega
  base_le := le_rfl
  ptr_lt := by
    simp only [plainBlock, chunkSize]
    omega
  plain _ := ⟨rfl, rfl, hreq⟩
  moved hm := absurd hm (by simp [plainBlock])

/-- Writing behind the header of a block in use disturbs nothing that the
allocator reads. -/
theorem Rep.write {k : ℕ} (h : Rep E m L (b :: B)) (hg : Geo E rs hb st L (b :: B))
    (hch : ChangesIn m m' [⟨b.ptr, k⟩]) (hk : Extent.Within ⟨b.ptr, k⟩ b.ext) :
    Rep E m' L (b :: B) := by
  have hb' := h.block b (by simp)
  have hhdr : AgreeOn m m' ⟨b.hdr, chunkSize⟩ := by
    apply hch.agreeOn
    intro e he
    rw [List.mem_singleton.mp he]
    exact Or.inl le_rfl
  obtain ⟨hv, -, hz⟩ := header_congr hhdr
  exact (h.frame_block hg hch hk).addBlock ⟨hv.trans hb'.valid, hz.trans hb'.size⟩

theorem carve_split (req : ℕ) (hr : Rep E m (A ++ c :: C) B) (hg : Geo E rs hb st (A ++ c :: C) B)
    (hc : c.border = none) (h16 : 16 ≤ n) (hn : n + chunkSize < c.size) :
    ∃ m', carve n (lastAddr E A) c.addr m = (c.addr + (c.size - n), m') ∧
      Rep E m' (A ++ ⟨c.addr, c.size - n, none⟩ :: C)
        (plainBlock ⟨c.addr + (c.size - n), n⟩ req :: B) ∧
      ChangesIn m m' [c.ext] := by
  have hs := hg.clearance
  have hcb := hg.bounds (c := c) (by simp)
  have hck := hr.chunk c (by simp)
  have hcs : size m c.addr = c.size := hck.size
  have hcw := (hs.chunk c (by simp)).1
  have hparts : Parts E m A C B := Rep.without (M := [c]) (by simpa using hr)
  set d : Chunk := ⟨c.addr, c.size - n, none⟩ with hd
  set q := c.addr + (c.size - n) with hq
  have h12 : add32 n chunkSize = n + chunkSize := by
    rw [add32, Nat.mod_eq_of_lt (by omega)]
  have hsub : sub32 c.size n = c.size - n := sub32_of_le (by omega)
  have hsz : size (setSize m c.addr (c.size - n)) c.addr = c.size - n := by
    rw [size, setSize, load32_store32_self, Nat.mod_eq_of_lt (by omega)]
  have hqq : add32 c.addr (c.size - n) = q := by
    simp only [chunkSize] at hn
    rw [add32, Nat.mod_eq_of_lt (by omega)]
  have hin₁ : Extent.Within ⟨c.addr, chunkSize⟩ c.ext := hcw.hdr_within
  have hin₂ : Extent.Within ⟨q, chunkSize⟩ c.ext := by
    simp only [Extent.Within, Extent.fin, Chunk.ext, chunkSize] at *
    omega
  -- the chunk is cut: its size, and the header of the block at its end
  set m₁ := setNext (setValid (setSize (setSize m c.addr (c.size - n)) q n) q VAL_ALLOC) q 0
    with hm₁
  have hcarve : carve n (lastAddr E A) c.addr m = (q, m₁) := by
    rw [carve, hcs, h12, if_pos hn]
    simp only [hsub, hsz, hqq]
    rfl
  have hch : ChangesIn m m₁ ([c].map Chunk.ext) :=
    ((((ChangesIn.refl m _).setSize (by simp) hin₁).setSize (by simp) hin₂).setValid (by simp)
      hin₂).setNext (by simp) hin₂
  have hsc : Clear E (A ++ [c] ++ C) B := by simpa using hs
  refine ⟨m₁, hcarve, ?_, hch⟩
  have hsep : c.addr + 12 ≤ q := by
    simp only [chunkSize] at hn
    omega
  have hdat : ChunkAt m₁ d := by
    refine ⟨?_, ?_, by simp [hd]⟩
    · have hv := hck.valid
      simp only [Chunk.tag, hc, if_true] at hv
      simp only [hd, Chunk.tag, if_true]
      rw [← hv, hm₁]
      simp only [valid, setNext, setValid, setSize]
      simp (disch := omega) only [load32_store32_of_apart]
    · rw [hm₁]
      simp only [hd, size, setNext, setValid, setSize]
      simp (disch := omega) only [load32_store32_of_apart, load32_store32_self]
      exact Nat.mod_eq_of_lt (by omega)
  have hdnext : next m₁ d.addr = headAddr C := by
    have hnx : next m c.addr = headAddr C :=
      (Rep.parts (A := A) hr).next_head
    rw [← hnx, hm₁]
    simp only [hd, next, setNext, setValid, setSize]
    simp (disch := omega) only [load32_store32_of_apart]
  have hrep : Rep E m₁ (A ++ d :: C) B := by
    refine ((hparts.frame_mid hsc hch).cons hdat hdnext).rep ?_
    have hlast : next m (lastAddr E A) = c.addr := Rep.next_last hr
    rw [next_last_frame_mid hsc hch, hlast]
    rfl
  -- the block is at the end of the chunk, which stays in the list
  refine hrep.addBlock ⟨?_, ?_⟩
  · show valid m₁ q = VAL_ALLOC
    rw [hm₁]
    simp only [valid, setNext, setValid]
    rw [load32_store32_of_apart _ _ (by omega), load32_store32_self]
    rfl
  · show size m₁ q = n
    rw [hm₁]
    simp only [size, setNext, setValid, setSize]
    simp (disch := omega) only [load32_store32_of_apart, load32_store32_self]
    exact Nat.mod_eq_of_lt (by omega)

theorem carve_take (req : ℕ) (hr : Rep E m (A ++ c :: C) B) (hg : Geo E rs hb st (A ++ c :: C) B)
    (hn : n ≤ c.size) (hle : c.size ≤ n + chunkSize) :
    ∃ m', carve n (lastAddr E A) c.addr m = (c.addr, m') ∧
      Rep E m' (A ++ C) (plainBlock c.ext req :: B) ∧
      ChangesIn m m' (E.freeExts (A ++ c :: C)) := by
  have hs := hg.clearance
  have hcb := hg.bounds (c := c) (by simp)
  have hck := hr.chunk c (by simp)
  have hcs : size m c.addr = c.size := hck.size
  have hcw := (hs.chunk c (by simp)).1
  have hparts : Parts E m A C B := Rep.without (M := [c]) (by simpa using hr)
  have hsub : Clear E (A ++ C) B := hs.sub (by simp) fun b hb => hb
  have hrep₁ := hparts.join hsub
  have hnx : next m c.addr = headAddr C := (Rep.parts (A := A) hr).next_head
  have hin : Extent.Within ⟨c.addr, chunkSize⟩ c.ext := hcw.hdr_within
  set m₁ := setNext m (lastAddr E A) (headAddr C) with hm₁
  set m₂ := setNext (setValid m₁ c.addr VAL_ALLOC) c.addr 0 with hm₂
  have hch₁ : ChangesIn m m₁ (E.freeExts (A ++ c :: C)) :=
    hsub.changes_link (fun x hx => mem_around [c] hx) (ChangesIn.refl _ _)
  have hch₂ : ChangesIn m₁ m₂ [c.ext] :=
    ((ChangesIn.refl m₁ _).setValid (by simp) hin).setNext (by simp) hin
  have hcarve : carve n (lastAddr E A) c.addr m = (c.addr, m₂) := by
    have h12 : ¬ add32 n chunkSize < c.size := by
      -- a chunk is not so large that the sum would wrap: the head of the list is elsewhere
      have hh := (hs.chunk c (by simp)).2.1
      have hpos := E.head_pos
      have hfin := E.head_mem.2.trans_lt E.tpa_fin
      simp only [add32, Chunk.ext, Extent.Apart, Extent.fin, chunkSize] at *
      omega
    rw [carve, hcs, if_neg h12, hnx]
  refine ⟨m₂, hcarve, ?_, hch₁.trans (hch₂.subset ?_)⟩
  · have hrep₂ : Rep E m₂ (A ++ C) B := hrep₁.frame_chunk hs hch₂
    refine hrep₂.addBlock ⟨?_, ?_⟩
    · show valid m₂ c.addr = VAL_ALLOC
      rw [hm₂]
      simp only [valid, setNext, setValid]
      rw [load32_store32_of_apart _ _ (by omega), load32_store32_self]
      rfl
    · show size m₂ c.addr = c.size
      have hlast : lastAddr E A + 12 ≤ c.addr ∨ c.addr + 12 ≤ lastAddr E A := by
        have := hs.apart_last (c := c) (by simp)
        have h12 := hcw.size
        simp only [Chunk.ext, Extent.Apart, Extent.fin, chunkSize] at *
        omega
      rw [← hcs, hm₂, hm₁]
      simp only [size, setNext, setValid]
      simp (disch := omega) only [load32_store32_of_apart]
  · intro e he
    rw [List.mem_singleton.mp he]
    simp [Layout.freeExts]

theorem handOut_spec {h : Heap} (hr : Rep E h.mem (A ++ c :: C) B)
    (hg : Geo E rs hb st (A ++ c :: C) B) (hc : c.border = none) (h16 : 16 ≤ n) (hn : n ≤ c.size)
    (hreq : req + chunkSize ≤ n) :
    ∃ e L' m', handOut n (lastAddr E A) c.addr h =
        ((plainBlock e req).ptr, { h with mem := m' }) ∧
      Carved n (A ++ c :: C) e L' ∧ Rep E m' L' (plainBlock e req :: B) ∧
      Geo E rs hb st L' (plainBlock e req :: B) ∧
      ChangesIn h.mem m' (E.freeExts (A ++ c :: C)) ∧ e.Within c.ext ∧ e.fin = c.ext.fin := by
  have hcb := hg.bounds (c := c) (by simp)
  have hcw := (hg.chunk c (by simp)).wf.size
  have hcext : c.ext ∈ E.freeExts (A ++ c :: C) := by simp [Layout.freeExts]
  -- the two ways to carve, with one description
  obtain ⟨e, L', m₁, hcarve, hcv, hrep, hch, hin, hend⟩ : ∃ e L' m₁,
      carve n (lastAddr E A) c.addr h.mem = (e.base, m₁) ∧ Carved n (A ++ c :: C) e L' ∧
      Rep E m₁ L' (plainBlock e req :: B) ∧ ChangesIn h.mem m₁ (E.freeExts (A ++ c :: C)) ∧
      e.Within c.ext ∧ e.fin = c.ext.fin := by
    by_cases hsplit : n + chunkSize < c.size
    · obtain ⟨m₁, h1, h2, h3⟩ := carve_split req hr hg hc h16 hsplit
      refine ⟨_, _, m₁, h1, .split hc hsplit, h2, h3.subset (by simp [hcext]), ?_⟩
      simp only [Extent.Within, Extent.fin, Chunk.ext]
      omega
    · obtain ⟨m₁, h1, h2, h3⟩ := carve_take req hr hg hn (by omega)
      exact ⟨c.ext, _, m₁, h1, .take hc hn (by omega), h2, h3, Extent.Within.refl _, rfl⟩
  have hlen := hcv.len_le
  have hwf : (plainBlock e req).Wf := plainBlock_wf (by omega) (by omega)
  have hgeo := hcv.geo (b := plainBlock e req) hg rfl hwf
  have hptr : add32 e.base chunkSize = (plainBlock e req).ptr := by
    have h1 := hin.2
    simp only [Extent.fin, Chunk.ext, add32, plainBlock, Block.ptr, chunkSize] at *
    omega
  have hsub : sub32 n chunkSize = n - chunkSize := sub32_of_le (by omega)
  have hbody : Extent.Within ⟨(plainBlock e req).ptr, n - chunkSize⟩ (plainBlock e req).ext := by
    simp only [Extent.Within, Extent.fin, plainBlock, Block.ptr, Block.ext, chunkSize] at *
    omega
  have hunfold : handOut n (lastAddr E A) c.addr h = ((plainBlock e req).ptr,
      { h with mem := if h.zeroMallocs then fill m₁ (plainBlock e req).ptr 0 (n - chunkSize)
                      else m₁ }) := by
    rw [handOut, hcarve]
    simp only [hptr, hsub]
  refine ⟨e, L', _, hunfold, hcv, ?_, hgeo, ?_, hin, hend⟩
  · split_ifs
    · exact hrep.write hgeo (ChangesIn.fill _ _ _ _) hbody
    · exact hrep
  · split_ifs
    · refine hch.trans ((ChangesIn.fill _ _ _ _).mono fun f hf => ⟨c.ext, hcext, ?_⟩)
      rw [List.mem_singleton.mp hf]
      exact hbody.trans hin
    · exact hch

end Carve

section Link

variable {E : Layout} {rs : List Extent} {hb st : ℕ} {m m' : Mem} {L L' A C : List Chunk}
  {B : List Block} {c : Chunk} {b : Block} {n q sz : ℕ} {h : Heap}

theorem linkHunk_chunk (hr : Rep E h.mem (A ++ C) B) (hs : Clear E (A ++ ⟨q, sz, none⟩ :: C) B)
    (hA : ∀ x ∈ A, x.addr < q) (hC : ∀ x ∈ C, q ≤ x.addr) (hne : h.heapbase ≠ 0)
    (hsz : sz < 2 ^ 32) :
    ∃ m', linkHunk E q sz h = some (lastAddr E A, q, { h with mem := m' }) ∧
      Rep E m' (A ++ ⟨q, sz, none⟩ :: C) B ∧
      ChangesIn h.mem m' (E.freeExts (A ++ ⟨q, sz, none⟩ :: C)) := by
  set f : Chunk := ⟨q, sz, none⟩ with hf
  have hsub : Clear E (A ++ C) B := hs.sub (by simp) fun b hb => hb
  have hsM : Clear E (A ++ [f] ++ C) B := by simpa using hs
  have hwalk := walkFree_to hr hsub hA hC
  have hfw := (hs.chunk f (by simp)).1
  have hin : Extent.Within ⟨q, chunkSize⟩ f.ext := hfw.hdr_within
  have hlast : lastAddr E A + 12 ≤ q ∨ q + 12 ≤ lastAddr E A := by
    have h1 := hs.apart_last (c := f) (by simp)
    have h2 := hfw.size
    simp only [hf, Chunk.ext, Extent.Apart, Extent.fin, chunkSize] at *
    omega
  set m₁ := setValid (setSize (setNext h.mem q (headAddr C)) q sz) q VAL_FREE with hm₁
  have hch : ChangesIn h.mem m₁ ([f].map Chunk.ext) :=
    (((ChangesIn.refl _ _).setNext (by simp) hin).setSize (by simp) hin).setValid (by simp) hin
  have hnx : next h.mem (lastAddr E A) = headAddr C := Rep.next_last hr
  have hunfold : linkHunk E q sz h = some (lastAddr E A, q,
      { h with mem := setNext m₁ (lastAddr E A) (headAddr (f :: C)) }) := by
    have hmem : setValid (setSize (setNext (setNext h.mem q (next h.mem (lastAddr E A)))
        (lastAddr E A) q) q sz) q VAL_FREE = setNext m₁ (lastAddr E A) (headAddr (f :: C)) := by
      rw [hnx, hm₁]
      simp only [setValid, setSize, setNext, headAddr_cons, hf]
      rw [store32_comm _ (a := lastAddr E A + 4) (b := q + 8) _ _ (by omega),
        store32_comm _ (a := lastAddr E A + 4) (b := q) _ _ (by omega)]
    rw [linkHunk, hwalk]
    simp only [Option.bind_eq_bind, Option.bind_some, if_neg hne, hmem]
  have hparts : Parts E m₁ A (f :: C) B := by
    refine (hr.parts.frame_mid hsM hch).cons ⟨?_, ?_, by simp [hf]⟩ ?_
    · show valid m₁ q = f.tag
      rw [valid, hm₁, setValid, load32_store32_self]
      rfl
    · show size m₁ q = sz
      rw [hm₁]
      simp only [size, setNext, setValid, setSize]
      simp (disch := omega) only [load32_store32_of_apart, load32_store32_self]
      exact Nat.mod_eq_of_lt hsz
    · show next m₁ q = headAddr C
      have hmod := Nat.mod_eq_of_lt hsub.headAddr_lt
      rw [hm₁]
      simp only [next, setNext, setValid, setSize]
      simp (disch := omega) only [load32_store32_of_apart, load32_store32_self, hmod]
  exact ⟨_, hunfold, hparts.join hs,
    hs.changes_link (fun x hx => hx) (changes_mid (M := [f]) hch)⟩

theorem linkHunk_region (hr : Rep E h.mem (A ++ C) B)
    (hs : Clear E (A ++ ⟨q, BORDER_EXTRA, some (sz - BORDER_EXTRA)⟩ ::
      ⟨q + BORDER_EXTRA, sz - BORDER_EXTRA, none⟩ :: C) B)
    (hA : ∀ x ∈ A, x.addr < q) (hC : ∀ x ∈ C, q ≤ x.addr) (hz : h.heapbase = 0)
    (hsz : sz < 2 ^ 32) :
    ∃ m', linkHunk E q sz h = some (q, q + BORDER_EXTRA, { h with mem := m' }) ∧
      Rep E m' (A ++ ⟨q, BORDER_EXTRA, some (sz - BORDER_EXTRA)⟩ ::
        ⟨q + BORDER_EXTRA, sz - BORDER_EXTRA, none⟩ :: C) B ∧
      ChangesIn h.mem m' (E.freeExts (A ++ ⟨q, BORDER_EXTRA, some (sz - BORDER_EXTRA)⟩ ::
        ⟨q + BORDER_EXTRA, sz - BORDER_EXTRA, none⟩ :: C)) := by
  set o : Chunk := ⟨q, BORDER_EXTRA, some (sz - BORDER_EXTRA)⟩ with ho
  set f : Chunk := ⟨q + BORDER_EXTRA, sz - BORDER_EXTRA, none⟩ with hf
  have hsub : Clear E (A ++ C) B := hs.sub (by simp) fun b hb => hb
  have hsM : Clear E (A ++ [o, f] ++ C) B := by simpa using hs
  have hwalk := walkFree_to hr hsub hA hC
  have hfw := (hs.chunk f (by simp)).1
  have hfb := (hs.chunk f (by simp)).2.2
  have hf12 : 12 ≤ sz - 16 := hfw.size
  have hfin : q + 16 + (sz - 16) ≤ 2 ^ 32 := hfb.2
  have hoin : Extent.Within ⟨q, chunkSize⟩ o.ext := (hs.chunk o (by simp)).1.hdr_within
  have hfi : Extent.Within ⟨q + 16, chunkSize⟩ f.ext := hfw.hdr_within
  have hlast : lastAddr E A + 12 ≤ q ∨ q + 28 ≤ lastAddr E A := by
    have h1 := hs.apart_last (c := o) (by simp)
    have h2 := hs.apart_last (c := f) (by simp)
    simp only [ho, hf, Chunk.ext, Extent.Apart, Extent.fin, BORDER_EXTRA, chunkSize] at *
    omega
  have hsub16 : sub32 sz BORDER_EXTRA = sz - 16 := sub32_of_le (by simp only [BORDER_EXTRA]; omega)
  have hadd16 : add32 q BORDER_EXTRA = q + 16 := add32_of_lt (by simp only [BORDER_EXTRA]; omega)
  -- the stores in their order: the header of the border, that of the free chunk, the link to it
  set m₀ := setNext (setAllocSize (setValid (setSize h.mem q 16) q VAL_BORDER) q (sz - 16)) q
    (q + 16) with hm₀
  set m₁ := setValid (setSize (setNext m₀ (q + 16) (headAddr C)) (q + 16) (sz - 16)) (q + 16)
    VAL_FREE with hm₁
  have hch : ChangesIn h.mem m₁ ([o, f].map Chunk.ext) := by
    have h1 : ChangesIn h.mem (setValid (setSize h.mem q 16) q VAL_BORDER) ([o, f].map Chunk.ext) :=
      ((ChangesIn.refl _ _).setSize (by simp) hoin).setValid (by simp) hoin
    have h2 : ChangesIn h.mem m₀ ([o, f].map Chunk.ext) := by
      refine ChangesIn.setNext (h1.step (e := o.ext) (by simp) ?_) (e := o.ext) (by simp) hoin
      simp only [ho, Extent.Within, Extent.fin, Chunk.ext, BORDER_EXTRA]
      omega
    exact ((h2.setNext (by simp) hfi).setSize (by simp) hfi).setValid (by simp) hfi
  -- the links are read from the memory that has just been written
  have hnx : next m₀ (lastAddr E A) = headAddr C := by
    rw [← Rep.next_last hr, hm₀]
    simp only [next, setNext, setAllocSize, setValid, setSize]
    simp (disch := omega) only [load32_store32_of_apart]
  have hnq : next m₀ q = q + 16 := next_setNext_self _ (by omega)
  have hunfold : linkHunk E q sz h = some (q, q + 16,
      { h with mem := setNext m₁ (lastAddr E A) (headAddr (o :: f :: C)) }) := by
    have hq' : next (setNext (setNext m₀ (q + 16) (headAddr C)) (lastAddr E A) q) q = q + 16 := by
      simp only [next, setNext]
      simp (disch := omega) only [load32_store32_of_apart]
      exact hnq
    have hmem : setValid (setSize (setNext (setNext m₀ (q + 16) (headAddr C)) (lastAddr E A) q)
        (q + 16) (sz - 16)) (q + 16) VAL_FREE =
        setNext m₁ (lastAddr E A) (headAddr (o :: f :: C)) := by
      rw [hm₁]
      simp only [setValid, setSize, setNext, headAddr_cons, ho]
      rw [store32_comm _ (a := lastAddr E A + 4) (b := q + 16 + 8) _ _ (by omega),
        store32_comm _ (a := lastAddr E A + 4) (b := q + 16) _ _ (by omega)]
    rw [linkHunk, hwalk]
    simp only [Option.bind_eq_bind, Option.bind_some, if_pos hz, hsub16, hadd16]
    simp only [← hm₀, hnq, hnx, hq', hmem]
  -- field by field, the free chunk first
  have hparts : Parts E m₁ A (o :: f :: C) B := by
    refine ((hr.parts.frame_mid hsM hch).cons (c := f) ⟨?_, ?_, by simp [hf]⟩ ?_).cons
      ⟨?_, ?_, ?_⟩ ?_
    · show valid m₁ (q + 16) = f.tag
      rw [valid, hm₁, setValid, load32_store32_self]
      rfl
    · show size m₁ (q + 16) = sz - 16
      rw [hm₁]
      simp only [size, setNext, setValid, setSize]
      simp (disch := omega) only [load32_store32_of_apart, load32_store32_self]
      exact Nat.mod_eq_of_lt (by omega)
    · show next m₁ (q + 16) = headAddr C
      have hmod := Nat.mod_eq_of_lt hsub.headAddr_lt
      rw [hm₁]
      simp only [next, setNext, setValid, setSize]
      simp (disch := omega) only [load32_store32_of_apart, load32_store32_self, hmod]
    · show valid m₁ q = VAL_BORDER
      rw [hm₁, hm₀]
      simp only [valid, setNext, setAllocSize, setValid, setSize]
      simp (disch := omega) only [load32_store32_of_apart, load32_store32_self]
      rfl
    · show size m₁ q = 16
      rw [hm₁, hm₀]
      simp only [size, setNext, setAllocSize, setValid, setSize]
      simp (disch := omega) only [load32_store32_of_apart, load32_store32_self]
      rfl
    · intro a ha
      obtain rfl : sz - 16 = a := by simpa [ho] using ha
      show allocSize m₁ q = sz - 16
      rw [hm₁, hm₀]
      simp only [allocSize, setNext, setAllocSize, setValid, setSize]
      simp (disch := omega) only [load32_store32_of_apart, load32_store32_self]
      exact Nat.mod_eq_of_lt (by omega)
    · show next m₁ q = q + 16
      rw [hm₁]
      simp only [next, setNext, setValid, setSize]
      simp (disch := omega) only [load32_store32_of_apart]
      exact hnq
  exact ⟨_, hunfold, hparts.join hs,
    hs.changes_link (fun x hx => hx) (changes_mid (M := [o, f]) hch)⟩

end Link

/-- The heap invariant: memory holds the free list `L` and the blocks `B`, and
they lie as `Geo` says. -/
structure Inv (E : Layout) (h : Heap) (L : List Chunk) (B : List Block) : Prop where
  rep : Rep E h.mem L B
  geo : Geo E h.regions h.heapbase h.stksize L B
  hunk : HunkOk h

/-- What `malloc` adds to the free list when no chunk is large enough. -/
inductive Supplied (E : Layout) (rs : List Extent) (hb st : ℕ) (L : List Chunk) :
    List Extent → ℕ → ℕ → List Chunk → Prop
  | nothing : Supplied E rs hb st L rs hb st L
  | region {A C : List Chunk} {q sz : ℕ} (hz : hb = 0) (hL : L = A ++ C)
      (hq : Fresh E rs ⟨q, sz⟩) (hsz : BORDER_EXTRA + chunkSize ≤ sz) (hA : ∀ x ∈ A, x.addr < q)
      (hC : ∀ x ∈ C, q ≤ x.addr) :
      Supplied E rs hb st L (⟨q, sz⟩ :: rs) hb st
        (A ++ ⟨q, BORDER_EXTRA, some (sz - BORDER_EXTRA)⟩ ::
          ⟨q + BORDER_EXTRA, sz - BORDER_EXTRA, none⟩ :: C)
  | chunk {A C : List Chunk} {q sz : ℕ} (hne : hb ≠ 0) (hL : L = A ++ C)
      (hq : Fresh E rs ⟨q, sz⟩) (hsz : chunkSize ≤ sz) (hA : ∀ x ∈ A, x.addr < q)
      (hC : ∀ x ∈ C, q ≤ x.addr) :
      Supplied E rs hb st L (⟨q, sz⟩ :: rs) hb st (A ++ ⟨q, sz, none⟩ :: C)
  | heap {A C : List Chunk} {sz : ℕ} (hne : hb ≠ 0) (hL : L = A ++ C) (hst : sz < st)
      (hsz : chunkSize ≤ sz) (hA : ∀ x ∈ A, x.addr < hb) (hC : ∀ x ∈ C, hb ≤ x.addr) :
      Supplied E rs hb st L rs (hb + sz) (st - sz) (A ++ ⟨hb, sz, none⟩ :: C)

section Spec

variable {E : Layout} {h : Heap} {os : Os} {n : ℕ} {L : List Chunk} {B : List Block}

theorem Supplied.geo {rs rs' : List Extent} {hb st hb' st' : ℕ} {L' : List Chunk}
    (hsup : Supplied E rs hb st L rs' hb' st' L') (hg : Geo E rs hb st L B) :
    Geo E rs' hb' st' L' B := by
  cases hsup with
  | nothing => exact hg
  | region hz hL hq hsz hA hC =>
    subst hz hL
    exact hg.addRegion hq hsz hA hC
  | chunk hne hL hq hsz hA hC =>
    subst hL
    exact hg.addChunk hne hq hsz hA hC
  | heap hne hL hst hsz hA hC =>
    subst hL
    exact hg.heapAlloc hne hst hsz hA hC

theorem Geo.agreeOn_block {rs : List Extent} {hb st : ℕ} {m m' : Mem} {b : Block}
    (hg : Geo E rs hb st L B) (hch : ChangesIn m m' (E.freeExts L)) (hb' : b ∈ B) :
    AgreeOn m m' b.ext := by
  apply hch.agreeOn
  intro e he
  rcases List.mem_cons.mp he with rfl | he
  · exact (hg.block b hb').home.head
  · obtain ⟨c, hc, rfl⟩ := List.mem_map.mp he
    exact (hg.clear c hc b hb').symm

/-- The outcome of `malloc` when it succeeds: a block of at least `chunkBytes n`
bytes, carved out of the free list or out of what the system supplied. -/
structure Allocated (E : Layout) (h : Heap) (L : List Chunk) (B : List Block) (n : ℕ)
    (e : Extent) (h' : Heap) (L' : List Chunk) : Prop where
  inv : Inv E h' L' (plainBlock e n :: B)
  path : ∃ L₁, Supplied E h.regions h.heapbase h.stksize L h'.regions h'.heapbase h'.stksize L₁ ∧
    Carved (chunkBytes n) L₁ e L' ∧ ChangesIn h.mem h'.mem (E.freeExts L₁)
  fresh : ∀ R ∈ h'.regions, R ∉ h.regions → e.Within R
  top : h'.heapbase ≠ h.heapbase → e.fin = h'.heapbase
  mfrees : h'.mfrees = h.mfrees

theorem handOut_allocated (h₁ : Heap) {A C : List Chunk} {c : Chunk} {p : ℕ}
    (hgeo : Geo E h.regions h.heapbase h.stksize L B)
    (hsup : Supplied E h.regions h.heapbase h.stksize L h₁.regions h₁.heapbase h₁.stksize
      (A ++ c :: C)) (hr : Rep E h₁.mem (A ++ c :: C) B)
    (hch : ChangesIn h.mem h₁.mem (E.freeExts (A ++ c :: C))) (hh : HunkOk h₁)
    (hmf : h₁.mfrees = h.mfrees) (hc : c.border = none) (hn : n + 19 < 2 ^ 32)
    (hfit : chunkBytes n ≤ c.size) (hp : p = lastAddr E A)
    (hfresh : ∀ R ∈ h₁.regions, R ∉ h.regions → c.ext.Within R)
    (htop : h₁.heapbase ≠ h.heapbase → c.ext.fin = h₁.heapbase) :
    ∃ e h' L', handOut (chunkBytes n) p c.addr h₁ = ((plainBlock e n).ptr, h') ∧
      Allocated E h L B n e h' L' := by
  obtain ⟨hn12, hn16, -, -⟩ := chunkBytes_bounds hn
  obtain ⟨e, L', m', h1, h2, h3, h4, h5, h6, h7⟩ :=
    handOut_spec (h := h₁) hr (hsup.geo hgeo) hc hn16 hfit hn12
  subst hp
  refine ⟨e, _, L', h1, ⟨h3, h4, ?_⟩, ⟨_, hsup, h2, hch.trans h5⟩,
    fun R hR hRn => h6.trans (hfresh R hR hRn), fun hne => h7.trans (htop hne), hmf⟩
  exact ⟨hh.min, hh.max⟩

theorem malloc_spec (hi : Inv E h L B) (hw : NoWrap E h n) (hos : OsOk E h n os) :
    (∃ k b, malloc E os n h = some (0, { h with MINHUNK := k, split_mem := b }) ∧ k ≤ 2 ^ 30) ∨
    ∃ e h' L', malloc E os n h = some ((plainBlock e n).ptr, h') ∧ Allocated E h L B n e h' L' := by
  have hr := hi.rep
  have hg := hi.geo
  obtain ⟨hn12, hn16, hn19, hn8⟩ := chunkBytes_bounds hw.chunk
  obtain ⟨A, C, hL, hA, hC⟩ :=
    exists_split (fun c => decide (c.size < chunkBytes n) || c.border.isSome) L
  -- the test of the loop, read off the list
  have htest : ∀ c ∈ L, (decide (size h.mem c.addr < chunkBytes n) ||
      decide (valid h.mem c.addr = VAL_BORDER)) =
      (decide (c.size < chunkBytes n) || c.border.isSome) := by
    intro c hc
    have hck := hr.chunk c hc
    rw [hck.size, hck.valid, Chunk.tag]
    cases c.border <;> simp
  have hwalk : walkFree E h.mem (fun q => decide (size h.mem q < chunkBytes n) ||
      decide (valid h.mem q = VAL_BORDER)) = some (prevAddr E A, lastAddr E A, headAddr C) := by
    apply walkFree_spec (hL ▸ hr) (hL ▸ hg.clearance)
    · intro c hc
      rw [htest c (by simp [hL, hc])]
      exact hA c hc
    · intro c hc
      rw [htest c (by simp [hL, List.mem_of_mem_head? hc])]
      exact hC c hc
  cases C with
  | cons c C =>
    -- a chunk is large enough
    right
    subst hL
    have hfit := hC c rfl
    simp only [Bool.or_eq_false_iff, decide_eq_false_iff_not, not_lt, Option.isSome_eq_false_iff,
      Option.isNone_iff_eq_none] at hfit
    have hne : headAddr (c :: C) ≠ 0 := Nat.pos_iff_ne_zero.mp (hg.bounds (c := c) (by simp)).1
    obtain ⟨e, h', L', h1, h2⟩ := handOut_allocated h hg .nothing hr (ChangesIn.refl _ _)
      hi.hunk rfl hfit.2 hw.chunk hfit.1 rfl (fun R hR hRn => absurd hR hRn) fun hne => absurd rfl hne
    refine ⟨e, h', L', ?_, h2⟩
    rw [malloc]
    simp only [hwalk, Option.bind_eq_bind, Option.bind_some, if_neg hne]
    rw [headAddr_cons, h1]
  | nil =>
    obtain ⟨k, hk, hkle, hsz, hszlt, hsz8, hszb⟩ := hunk_spec hi.hunk hw
    have hgr := sbrk_spec (E := E) (h := { h with MINHUNK := k }) os hsz8 (by omega) hszlt
      hos.malloc₁ hos.malloc₂ hw.heap hos.sp
    set sz := (hunk E (chunkBytes n) h).1 with hszdef
    have hhunk : hunk E (chunkBytes n) h = (sz, { h with MINHUNK := k }) := by
      rw [← hk]
    have hunfold : malloc E os n h =
        if (sbrk os sz { h with MINHUNK := k }).1 = SBRK_FAILED then
          some (0, (sbrk os sz { h with MINHUNK := k }).2)
        else (linkHunk E (sbrk os sz { h with MINHUNK := k }).1 sz
          (sbrk os sz { h with MINHUNK := k }).2).bind fun r =>
            some (handOut (chunkBytes n) r.1 r.2.1 r.2.2) := by
      rw [malloc]
      simp only [hwalk, Option.bind_eq_bind, Option.bind_some, headAddr_nil, if_true, hhunk]
    rw [hunfold]
    clear_value sz
    generalize sbrk os sz { h with MINHUNK := k } = r at hgr ⊢
    obtain ⟨q, h₁⟩ := r
    simp only at hgr ⊢
    have hhunkOk : ∀ h₁ : Heap, h₁.MINHUNK = k → h₁.MAXHUNK = h.MAXHUNK → HunkOk h₁ :=
      fun h₁ hmin hmax => ⟨hmin ▸ hkle, hmax ▸ hi.hunk.max⟩
    cases hgr with
    | fail b =>
      rw [if_pos rfl]
      exact Or.inl ⟨k, b, rfl, hkle⟩
    | region b hq =>
      have hqp := hq.pos ⟨q, sz⟩ (by simp)
      simp only [Extent.fin] at hqp
      rw [if_neg (by simp only [SBRK_FAILED]; omega)]
      obtain ⟨A', C', hL', hA', hC'⟩ := hg.clearance.split_at q
      have hnew : ∀ R ∈ (⟨q, sz⟩ : Extent) :: h.regions, R ∉ h.regions → ∀ {e : Extent},
          e.Within ⟨q, sz⟩ → e.Within R := by
        intro R hR hRn e he
        rcases List.mem_cons.mp hR with rfl | hR
        · exact he
        · exact absurd hR hRn
      right
      by_cases hz : h.heapbase = 0
      · have hsz28 : BORDER_EXTRA + chunkSize ≤ sz := by
          have := hszb hz
          simp only [BORDER_EXTRA, chunkSize] at *
          omega
        have hsup : Supplied E h.regions h.heapbase h.stksize L (⟨q, sz⟩ :: h.regions) h.heapbase
          h.stksize _ := .region hz hL' hq hsz28 hA' hC'
        obtain ⟨m', h1, h2, h3⟩ := linkHunk_region
          (h := { h with MINHUNK := k, split_mem := b, regions := ⟨q, sz⟩ :: h.regions })
          (hL' ▸ hr) (hsup.geo hg).clearance hA' hC' hz hszlt
        obtain ⟨e, h', L', h4, h5⟩ := handOut_allocated
          { h with mem := m', MINHUNK := k, split_mem := b, regions := ⟨q, sz⟩ :: h.regions }
          (A := A' ++ [⟨q, BORDER_EXTRA, some (sz - BORDER_EXTRA)⟩]) (C := C') (p := q)
          (c := ⟨q + BORDER_EXTRA, sz - BORDER_EXTRA, none⟩) hg (by simpa using hsup)
          (by simpa using h2) (by simpa using h3) (hhunkOk _ rfl rfl) rfl rfl hw.chunk
          (by have := hszb hz; simp only [BORDER_EXTRA] at *; omega) (by simp)
          (fun R hR hRn => hnew R hR hRn ⟨by simp [Chunk.ext], by
            simp only [Extent.fin, Chunk.ext, BORDER_EXTRA, chunkSize] at *
            omega⟩) fun hne => absurd rfl hne
        refine ⟨e, h', L', ?_, h5⟩
        simp only [h1, Option.bind_some]
        rw [h4]
      · have hsz12 : chunkSize ≤ sz := by
          simp only [chunkSize]
          omega
        have hsup : Supplied E h.regions h.heapbase h.stksize L (⟨q, sz⟩ :: h.regions) h.heapbase
          h.stksize _ := .chunk hz hL' hq hsz12 hA' hC'
        obtain ⟨m', h1, h2, h3⟩ := linkHunk_chunk
          (h := { h with MINHUNK := k, split_mem := b, regions := ⟨q, sz⟩ :: h.regions })
          (hL' ▸ hr) (hsup.geo hg).clearance hA' hC' hz hszlt
        obtain ⟨e, h', L', h4, h5⟩ := handOut_allocated
          { h with mem := m', MINHUNK := k, split_mem := b, regions := ⟨q, sz⟩ :: h.regions }
          (c := ⟨q, sz, none⟩) hg hsup h2 h3 (hhunkOk _ rfl rfl) rfl rfl hw.chunk hsz rfl
          (fun R hR hRn => hnew R hR hRn (Extent.Within.refl _)) fun hne => absurd rfl hne
        refine ⟨e, h', L', ?_, h5⟩
        simp only [h1, Option.bind_some]
        rw [h4]
    | heap b hne hst =>
      have hne' : h.heapbase ≠ 0 := hne
      have hst' : sz < h.stksize := hst
      have hfin := (hg.reserve hne').fin
      rw [if_neg (by simp only [SBRK_FAILED]; omega)]
      obtain ⟨A', C', hL', hA', hC'⟩ := hg.clearance.split_at h.heapbase
      right
      have hsz12 : chunkSize ≤ sz := by
        simp only [chunkSize]
        omega
      have hsup : Supplied E h.regions h.heapbase h.stksize L h.regions (h.heapbase + sz)
        (h.stksize - sz) _ := .heap hne' hL' hst' hsz12 hA' hC'
      obtain ⟨m', h1, h2, h3⟩ := linkHunk_chunk
        (h := { h with MINHUNK := k, split_mem := b, heapbase := h.heapbase + sz,
                       stksize := h.stksize - sz })
        (hL' ▸ hr) (hsup.geo hg).clearance hA' hC' (by simp only; omega) hszlt
      obtain ⟨e, h', L', h4, h5⟩ := handOut_allocated
        { h with mem := m', MINHUNK := k, split_mem := b, heapbase := h.heapbase + sz,
                 stksize := h.stksize - sz }
        (c := ⟨h.heapbase, sz, none⟩) hg hsup h2 h3 (hhunkOk _ rfl rfl) rfl rfl hw.chunk hsz rfl
        (fun R hR hRn => absurd hR hRn) fun _ => rfl
      refine ⟨e, h', L', ?_, h5⟩
      simp only [h1, Option.bind_some]
      rw [h4]

end Spec

end Mintlib.Malloc
