import Mintlib.Malloc.Packed

/-!
# `free`, `realloc`, `calloc` and the aligned allocators keep the heap invariant

One specification for each entry point: the list and the blocks afterwards, the
contents of the block that it works on, and the blocks that it leaves alone.
-/

namespace Mintlib.Malloc

open ByteMemory

/-- At most one region goes back to the system, and no block of `B` is in it. -/
def MfreeOk (h h' : Heap) (B : List Block) : Prop :=
  h'.mfrees = h.mfrees ∨ ∃ R ∈ h.regions, h'.mfrees = R.base :: h.mfrees ∧ ∀ b ∈ B, b.ext.Apart R

/-- The blocks `B` hold the same bytes as before, headers included. -/
def Kept (h h' : Heap) (B : List Block) : Prop := ∀ b ∈ B, AgreeOn h.mem h'.mem b.ext

section Free

variable {E : Layout} {h h' : Heap} {L A C : List Chunk} {B : List Block} {b : Block}

theorem Effect.apply_mem (e : Effect) (h : Heap) : (e.apply h).mem = h.mem := by
  cases e <;> rfl

theorem Effect.apply_hunk {e : Effect} (hh : HunkOk h) : HunkOk (e.apply h) := by
  cases e <;> exact ⟨hh.min, hh.max⟩

theorem kept_of_free {m' : Mem} (hg : Geo E h.regions h.heapbase h.stksize L (b :: B))
    (hch : ChangesIn h.mem m' (b.ext :: E.freeExts L)) {a : Block} (ha : a ∈ B) :
    AgreeOn h.mem m' a.ext := by
  apply hch.agreeOn
  intro e he
  rcases List.mem_cons.mp he with rfl | he
  · exact ((List.pairwise_cons.mp hg.apart).1 a ha).symm
  rcases List.mem_cons.mp he with rfl | he
  · exact (hg.block a (by simp [ha])).home.head
  · obtain ⟨c, hc, rfl⟩ := List.mem_map.mp he
    exact (hg.clear c hc a (by simp [ha])).symm

/-- What `free` does with a block of `malloc`: the entries `A` below and `C` above its
chunk become the list `L'`, with the effect `f` and the memory `m'`. -/
structure Freed (E : Layout) (h : Heap) (L : List Chunk) (b : Block) (B : List Block)
    (A C L' : List Chunk) (f : Effect) (m' : Mem) : Prop where
  split : L = A ++ C
  below : ∀ x ∈ A, x.addr < b.base
  above : ∀ x ∈ C, b.base ≤ x.addr
  link : Geo E h.regions h.heapbase h.stksize (A ++ b.chunk :: C) B
  geo : Geo E h.regions h.heapbase h.stksize
    (A ++ (absorbUp b.chunk C).1 :: (absorbUp b.chunk C).2) B
  border : (absorbUp b.chunk C).1.border = none
  addr : (absorbUp b.chunk C).1.addr = b.base
  released : Released (ownHeap h) h.heapbase A (absorbUp b.chunk C).1 (absorbUp b.chunk C).2 L' f
  result : free E b.ptr h = some (f.apply { h with mem := m' })
  inv : Inv E (f.apply { h with mem := m' }) L' B
  changes : ChangesIn h.mem m' (b.ext :: E.freeExts L)

theorem free_steps (hi : Inv E h L (b :: B)) (hm : b.moved = false) :
    ∃ A C L' f m', Freed E h L b B A C L' f m' := by
  obtain ⟨A, C, L', f, m', rfl, hA, hC, hfree, hrel, hrep, hch⟩ := free_spec hi.rep hi.geo hm
  have hlink : Geo E h.regions h.heapbase h.stksize (A ++ b.chunk :: C) B := hi.geo.link hA hC
  obtain ⟨habs, hnone, haddr⟩ := absorbUp_geo hlink rfl
  refine ⟨A, C, L', f, m', rfl, hA, hC, hlink, habs, hnone, haddr, hrel, hfree, ⟨?_, ?_, ?_⟩, hch⟩
  · rw [Effect.apply_mem]
    exact hrep
  · exact Released.geo (h := { h with mem := m' }) hnone hrel habs
  · exact Effect.apply_hunk ⟨hi.hunk.min, hi.hunk.max⟩

theorem free_inv (hi : Inv E h L (b :: B)) :
    ∃ h' L', free E b.ptr h = some h' ∧ Inv E h' L' B ∧ Kept h h' B ∧ MfreeOk h h' B ∧
      (b.moved = false → Tight h L (b :: B) → FarOk L b → Tight h' L' B ∧ Exact h h' B) := by
  cases hm : b.moved with
  | true =>
    refine ⟨h, L, free_moved (hi.rep.block b (by simp)) hm, ?_, fun a _ x _ => rfl, Or.inl rfl,
      fun hf => by simp at hf⟩
    exact ⟨hi.rep.forget, hi.geo.forget, hi.hunk⟩
  | false =>
    obtain ⟨A, C, L', f, m', hf⟩ := free_steps hi hm
    refine ⟨_, L', hf.result, hf.inv, fun a ha => ?_, ?_, fun _ ht hfar => ?_⟩
    · rw [Effect.apply_mem]
      exact kept_of_free hi.geo hf.changes ha
    · cases f with
      | keep => exact Or.inl rfl
      | toHeap c => exact Or.inl rfl
      | mfree p =>
        obtain ⟨R, hR, rfl, hap⟩ := hf.released.mfree_region hf.border hf.geo
        exact Or.inr ⟨R, hR, rfl, hap⟩
    · obtain rfl := hf.split
      obtain ⟨⟨hz, hp, hu⟩, hex⟩ := ht.free hi hfar hf.below hf.above hf.released
      cases f <;> exact ⟨⟨hz, hp, hu⟩, ⟨hex.gone, hex.given⟩⟩

end Free

section Realloc

variable {E : Layout} {h : Heap} {os : Os} {n len : ℕ} {L A C : List Chunk} {B : List Block}
  {b : Block} {c : Chunk}

theorem Inv.perm {B' : List Block} (hi : Inv E h L B) (hp : B.Perm B') : Inv E h L B' :=
  ⟨hi.rep.perm hp, hi.geo.perm hp, hi.hunk⟩

theorem Allocated.kept {e : Extent} {h' : Heap} {L' : List Chunk}
    (ha : Allocated E h L B n e h' L') (hg : Geo E h.regions h.heapbase h.stksize L B) :
    Kept h h' B := by
  obtain ⟨L₁, hsup, -, hch⟩ := ha.path
  exact fun b hb => (hsup.geo hg).agreeOn_block hch hb

theorem Inv.write {k : ℕ} {m' : Mem} (hi : Inv E h L (b :: B))
    (hch : ChangesIn h.mem m' [⟨b.ptr, k⟩]) (hk : Extent.Within ⟨b.ptr, k⟩ b.ext) :
    Inv E { h with mem := m' } L (b :: B) :=
  ⟨hi.rep.write hi.geo hch hk, hi.geo, ⟨hi.hunk.min, hi.hunk.max⟩⟩

theorem agreeOn_of_write {rs : List Extent} {hb st k : ℕ} {m m' : Mem} {a : Block}
    (hg : Geo E rs hb st L (b :: B)) (hch : ChangesIn m m' [⟨b.ptr, k⟩])
    (hk : Extent.Within ⟨b.ptr, k⟩ b.ext) (ha : a ∈ B) : AgreeOn m m' a.ext := by
  apply hch.agreeOn
  intro e he
  rw [List.mem_singleton.mp he]
  exact ((List.pairwise_cons.mp hg.apart).1 a ha).symm.mono (Extent.Within.refl _) hk

theorem moveBlock_steps (hi : Inv E h L (b :: B)) (hw : NoWrap E h n) (hos : OsOk E h n os)
    (hlen : len + chunkSize ≤ chunkBytes n ∨ ∃ h', malloc E os n h = some (0, h')) :
    (∃ k s, moveBlock E os b.ptr n len h = some (0, { h with MINHUNK := k, split_mem := s }) ∧
      k ≤ 2 ^ 30) ∨
    ∃ e h₁ L₁, malloc E os n h = some ((plainBlock e n).ptr, h₁) ∧
      Allocated E h L (b :: B) n e h₁ L₁ ∧ len + chunkSize ≤ chunkBytes n ∧
      Inv E { h₁ with mem := copy h₁.mem (plainBlock e n).ptr b.ptr len } L₁
        (b :: plainBlock e n :: B) ∧
      moveBlock E os b.ptr n len h =
        (free E b.ptr { h₁ with mem := copy h₁.mem (plainBlock e n).ptr b.ptr len }).map
          fun h' => ((plainBlock e n).ptr, h') := by
  rcases malloc_spec hi hw hos with ⟨k, s, hmal, hk⟩ | ⟨e, h₁, L₁, hmal, hall⟩
  · left
    refine ⟨k, s, ?_, hk⟩
    rw [moveBlock, hmal]
    rfl
  · right
    have hptr : (plainBlock e n).ptr ≠ 0 := (plainBlock e n).ptr_ne_zero
    have hlen' : len + chunkSize ≤ chunkBytes n := by
      rcases hlen with hlen | ⟨h', hfail⟩
      · exact hlen
      · rw [hmal, Option.some.injEq, Prod.mk.injEq] at hfail
        exact absurd hfail.1 hptr
    obtain ⟨L₂, hsup, hcv, -⟩ := hall.path
    have hbody : Extent.Within ⟨(plainBlock e n).ptr, len⟩ (plainBlock e n).ext := by
      have := hcv.len_le
      simp only [Extent.Within, Extent.fin, plainBlock, Block.ptr, Block.ext, chunkSize] at *
      omega
    refine ⟨e, h₁, L₁, hmal, hall, hlen', ?_, ?_⟩
    · exact (hall.inv.write (ChangesIn.copy _ _ _ _) hbody).perm (List.Perm.swap _ _ _)
    · rw [moveBlock, hmal]
      simp only [Option.bind_eq_bind, Option.bind_some, if_pos hptr]
      cases free E b.ptr { h₁ with mem := copy h₁.mem (plainBlock e n).ptr b.ptr len } <;> rfl

/-- `realloc` cannot do with the chunk it has: it is far too large, or too small
even with the free chunk behind it. -/
def Moves (L : List Chunk) (b : Block) (n : ℕ) : Prop :=
  chunkBytes n + resizeSlack < b.hsize ∨ (b.hsize < chunkBytes n ∧
    ∀ c ∈ L, c.border = none → c.addr = b.hdr + b.hsize → b.hsize + c.size < chunkBytes n)

/-- The four ways in which `realloc` ends for a live block `b` and `n > 0`. -/
inductive Resized (E : Layout) (os : Os) (h : Heap) (L : List Chunk) (b : Block) (B : List Block)
    (n : ℕ) : ℕ → Heap → List Chunk → List Block → Prop
  | kept (k : ℕ) (s : Bool) :
      Resized E os h L b B n b.ptr { h with MINHUNK := k, split_mem := s } L ({ b with req := n } :: B)
  | grown {A C : List Chunk} {c : Chunk} (m' : Mem) (hL : L = A ++ c :: C)
      (hc : c.border = none) (hj : b.base + b.size = c.addr) (hm : b.moved = false)
      (hhdr : b.hdr = b.base) :
      Resized E os h L b B n b.ptr { h with mem := m' } (A ++ C)
        (plainBlock ⟨b.base, b.size + c.size⟩ n :: B)
  | moved {e : Extent} {h₁ h' : Heap} {L₁ L' : List Chunk} {m₂ : Mem}
      (hmv : Moves L b n) (hall : Allocated E h L (b :: B) n e h₁ L₁)
      (hmal : malloc E os n h = some ((plainBlock e n).ptr, h₁))
      (hinv : Inv E { h₁ with mem := m₂ } L₁ (b :: plainBlock e n :: B))
      (hfree : free E b.ptr { h₁ with mem := m₂ } = some h') :
      Resized E os h L b B n (plainBlock e n).ptr h' L' (plainBlock e n :: B)
  | failed (k : ℕ) (s : Bool) :
      Resized E os h L b B n 0 { h with MINHUNK := k, split_mem := s } L (b :: B)

/-- Where `realloc` moves a block, its call of `free` gets to merge downwards. -/
def MoveFarOk (E : Layout) (os : Os) (h : Heap) (L : List Chunk) (b : Block) (B : List Block)
    (n : ℕ) : Prop :=
  Moves L b n → ∀ e h₁ L₁, malloc E os n h = some ((plainBlock e n).ptr, h₁) →
    Allocated E h L (b :: B) n e h₁ L₁ → FarOk L₁ b

/-- What `realloc` guarantees of its result, whichever way it ends. -/
structure ReallocOk (E : Layout) (h : Heap) (b : Block) (B : List Block) (n r : ℕ) (h' : Heap) :
    Prop where
  /-- The other blocks are unchanged. -/
  kept : Kept h h' B
  /-- The first bytes are at the result. -/
  contents : r ≠ 0 → ∀ i < min b.req n, h'.mem (r + i) = h.mem (b.ptr + i)
  /-- A failed call leaves the block as it is. -/
  failed : r = 0 → AgreeOn h.mem h'.mem b.ext

theorem mem_ext_of_lt (hw : b.Wf) {i : ℕ} (hi : i < b.req) : b.ptr + i ∈ b.ext := by
  apply hw.contents_within.mem
  rw [Extent.mem_iff]
  simp only [Block.contents]
  omega

theorem moveBlock_spec (hmv : Moves L b n) (hi : Inv E h L (b :: B)) (hw : NoWrap E h n)
    (hos : OsOk E h n os)
    (hlen : len + chunkSize ≤ chunkBytes n ∨ ∃ h', malloc E os n h = some (0, h'))
    (hcov : min b.req n ≤ len ∨ ∃ h', malloc E os n h = some (0, h')) :
    (∃ k s, moveBlock E os b.ptr n len h = some (0, { h with MINHUNK := k, split_mem := s }) ∧
      k ≤ 2 ^ 30) ∨
    ∃ r h' L' B', moveBlock E os b.ptr n len h = some (r, h') ∧ r ≠ 0 ∧
      Resized E os h L b B n r h' L' B' ∧ Inv E h' L' B' ∧ ReallocOk E h b B n r h' ∧
      MfreeOk h h' B' ∧ (b.moved = false → Tight h L (b :: B) → MoveFarOk E os h L b B n →
        Tight h' L' B' ∧ Exact h h' B') := by
  rcases moveBlock_steps hi hw hos hlen with hfail | ⟨e, h₁, L₁, hmal, hall, hlen', hinv, hmove⟩
  · exact Or.inl hfail
  right
  have hptr : (plainBlock e n).ptr ≠ 0 := (plainBlock e n).ptr_ne_zero
  have hcov' : min b.req n ≤ len := by
    rcases hcov with hcov | ⟨h', hfail⟩
    · exact hcov
    · rw [hmal, Option.some.injEq, Prod.mk.injEq] at hfail
      exact absurd hfail.1 hptr
  obtain ⟨h', L', hfree, hinv', hkept, hmf, htight⟩ := free_inv hinv
  have hblk := hi.geo.block b (by simp)
  have hnlen : len + chunkSize ≤ e.len := by
    obtain ⟨L₂, -, hcv, -⟩ := hall.path
    exact hlen'.trans hcv.len_le
  have hbody : Extent.Within ⟨(plainBlock e n).ptr, len⟩ (plainBlock e n).ext := by
    simp only [Extent.Within, Extent.fin, plainBlock, Block.ptr, Block.ext, chunkSize] at *
    omega
  have hkept₁ : Kept h h₁ (b :: B) := hall.kept hi.geo
  refine ⟨(plainBlock e n).ptr, h', L', plainBlock e n :: B, ?_, hptr, .moved hmv hall hmal hinv hfree,
    hinv', ⟨?_, ?_, fun hz => absurd hz hptr⟩, ?_, ?_⟩
  · rw [hmove, hfree]
    rfl
  · intro a ha x hx
    have h1 := hkept₁ a (by simp [ha]) x hx
    have h2 := agreeOn_of_write (a := a) hall.inv.geo (ChangesIn.copy h₁.mem _ b.ptr len) hbody
      (by simp [ha]) x hx
    have h3 := hkept a (by simp [ha]) x hx
    exact h3.trans (h2.trans h1)
  · intro _ i hi'
    have hilen : i < len := lt_of_lt_of_le hi' hcov'
    have hin : (plainBlock e n).ptr + i ∈ (plainBlock e n).ext := by
      apply hbody.mem
      rw [Extent.mem_iff]
      simp only
      omega
    have h1 := hkept (plainBlock e n) (by simp) _ hin
    have h2 := hkept₁ b (by simp) _ (mem_ext_of_lt hblk.wf (lt_of_lt_of_le hi' (min_le_left _ _)))
    rw [h1, ← h2]
    exact copy_apply hilen
  · -- the region handed back was there before the call: the new block is not in it
    rcases hmf with hmf | ⟨R, hR, hmf, hap⟩
    · exact Or.inl (hmf.trans hall.mfrees)
    · exact Or.inr ⟨R, hall.old_region hR (hap _ (by simp)),
        hmf.trans (by rw [← hall.mfrees]), hap⟩
  · intro hm ht hfar
    have hn16 := (chunkBytes_bounds hw.chunk).2.1
    obtain ⟨ht₁, hex₁⟩ := ht.alloc hi hall (by omega)
    have ht₂ := ht₁.perm (List.Perm.swap b (plainBlock e n) B)
    obtain ⟨ht', hex⟩ := htight hm ⟨ht₂.heapbase, ht₂.packed, ht₂.used⟩ (hfar hmv e h₁ L₁ hmal hall)
    obtain ⟨L₂, hsup, -, -⟩ := hall.path
    refine ⟨ht', fun R hR hRn => ?_, ?_⟩
    · rw [← hall.mfrees]
      exact hex.gone R (hsup.regions hR) hRn
    · rcases hex.given with hg | ⟨R, hR, hRn, hmf', hap⟩
      · exact Or.inl (hg.trans hall.mfrees)
      · exact Or.inr ⟨R, hall.old_region hR (hap _ (by simp)), hRn,
          hmf'.trans (by rw [← hall.mfrees]), hap⟩

theorem grow_absorb {m₃ : Mem} (hi : Inv E h (A ++ c :: C) (b :: B)) (hm : b.moved = false)
    (hc : c.border = none) (hj : b.base + b.size = c.addr) (hn : n + chunkSize ≤ b.size + c.size)
    (hm₃ : m₃ = setNext (setSize (setNext (setSize h.mem b.base (b.size + c.size)) (lastAddr E A)
      (headAddr C)) c.addr 0) c.addr 0) :
    Inv E { h with mem := m₃ } (A ++ C) (plainBlock ⟨b.base, b.size + c.size⟩ n :: B) ∧
      ChangesIn h.mem m₃ (⟨b.base, chunkSize⟩ :: E.freeExts (A ++ c :: C)) := by
  have hs := hi.geo.clearance
  have hr := hi.rep
  have hbk := hi.geo.block b (by simp)
  have hb12 := hbk.wf.size
  have hcw := (hs.chunk c (by simp)).1
  have hc12 := hcw.size
  have hcb := (hs.chunk c (by simp)).2.2
  obtain ⟨hhdr, hhs, -⟩ := hbk.wf.plain hm
  have hcin : Extent.Within ⟨c.addr, chunkSize⟩ c.ext := hcw.hdr_within
  have hbin : Extent.Within ⟨b.base, chunkSize⟩ b.ext := ⟨le_rfl, Nat.add_le_add_left hb12 _⟩
  have hsB : Clear E (A ++ c :: C) B := hi.geo.forget.clearance
  have hsub : Clear E (A ++ C) B := hsB.sub (by simp) fun b hb => hb
  have hlast : lastAddr E A + 12 ≤ b.base ∨ b.base + 12 ≤ lastAddr E A := by
    have := hs.block_apart_last (b := b) (by simp)
    simp only [Block.ext, Extent.Apart, Extent.fin, chunkSize] at *
    omega
  -- the size of the block, the link over the chunk, and the chunk that is cleared
  set m₁ := setSize h.mem b.base (b.size + c.size) with hm₁
  set m₂ := setNext m₁ (lastAddr E A) (headAddr C) with hm₂
  have hch₁ : ChangesIn h.mem m₁ [⟨b.base, chunkSize⟩] :=
    (ChangesIn.refl _ _).setSize (by simp) (Extent.Within.refl _)
  have hch₂ : ChangesIn m₁ m₂ (E.freeExts (A ++ c :: C)) :=
    hsub.changes_link (fun x hx => mem_around [c] hx) (ChangesIn.refl _ _)
  have hch₃ : ChangesIn m₂ m₃ [c.ext] := by
    rw [hm₃]
    exact ((ChangesIn.refl m₂ _).setSize (by simp) hcin).setNext (by simp) hcin
  have hrep₁ : Rep E m₁ (A ++ c :: C) B := hr.frame_block hi.geo hch₁ hbin
  have hrep₂ : Rep E m₂ (A ++ C) B :=
    (Rep.without (A := A) (M := [c]) (by simpa using hrep₁)).join hsub
  have hrep₃ : Rep E m₃ (A ++ C) B := hrep₂.frame_chunk hsB hch₃
  have hsum : (b.size + c.size) % 2 ^ 32 = b.size + c.size := by
    have := hbk.home.pos.1
    simp only [Block.ext] at this
    exact Nat.mod_eq_of_lt (by omega)
  have hwf : (plainBlock ⟨b.base, b.size + c.size⟩ n).Wf :=
    plainBlock_wf (by simp only [chunkSize] at *; omega) hn
  refine ⟨⟨hrep₃.addBlock ⟨?_, ?_⟩, hi.geo.absorb hc hj rfl hwf, ⟨hi.hunk.min, hi.hunk.max⟩⟩, ?_⟩
  · show valid m₃ b.base = VAL_ALLOC
    have hv := (hr.block b (by simp)).valid
    rw [hm, hhdr, if_neg (by simp)] at hv
    rw [← hv, hm₃, hm₂, hm₁]
    simp only [valid, setNext, setSize]
    simp (disch := (simp only [chunkSize] at *; omega)) only [load32_store32_of_apart]
  · show size m₃ b.base = b.size + c.size
    rw [hm₃, hm₂, hm₁]
    simp only [size, setNext, setSize]
    simp (disch := (simp only [chunkSize] at *; omega)) only [load32_store32_of_apart,
      load32_store32_self, hsum]
  · refine ((hch₁.subset (by simp)).trans (hch₂.subset (by simp))).trans (hch₃.subset ?_)
    intro e he
    rw [List.mem_singleton.mp he]
    simp [Layout.freeExts]

theorem Inv.reask {k : ℕ} {s : Bool} (hi : Inv E h L (b :: B)) (hk : k ≤ 2 ^ 30)
    (hw : ({ b with req := n } : Block).Wf) :
    Inv E { h with MINHUNK := k, split_mem := s } L ({ b with req := n } :: B) := by
  have hb := hi.rep.block b (by simp)
  exact ⟨hi.rep.forget.addBlock ⟨hb.valid, hb.size⟩, hi.geo.redescribe rfl hw, ⟨hk, hi.hunk.max⟩⟩

theorem Inv.settings {k : ℕ} {s : Bool} (hi : Inv E h L B) (hk : k ≤ 2 ^ 30) :
    Inv E { h with MINHUNK := k, split_mem := s } L B :=
  ⟨hi.rep, hi.geo, ⟨hk, hi.hunk.max⟩⟩

/-- The header in front of the pointer tells how many bytes may be copied: the
aligned allocators write a header that `realloc` takes 12 bytes off too many. -/
def CopyOk (E : Layout) (os : Os) (h : Heap) (b : Block) (n : ℕ) : Prop :=
  b.moved = false ∨ chunkBytes n ≤ b.hsize ∨ min b.req n + chunkSize ≤ b.hsize ∨
    ∃ h', malloc E os n h = some (0, h')

theorem fits_of_le (hw : b.Wf) (hn : n + chunkSize ≤ b.hsize) : ({ b with req := n } : Block).Wf where
  size := hw.size
  base_le := hw.base_le
  ptr_lt := hw.ptr_lt
  plain hm := by
    have := hw.plain hm
    exact ⟨this.1, this.2.1, by show n + chunkSize ≤ b.size; omega⟩
  moved hm := by
    have := hw.moved hm
    exact ⟨this.1, by show n ≤ b.hsize; omega⟩

theorem kept_spec {k : ℕ} {s : Bool} (hi : Inv E h L (b :: B)) (hn : n + chunkSize ≤ b.hsize)
    (hk : k ≤ 2 ^ 30) :
    Inv E { h with MINHUNK := k, split_mem := s } L ({ b with req := n } :: B) ∧
      ReallocOk E h b B n b.ptr { h with MINHUNK := k, split_mem := s } :=
  ⟨hi.reask hk (fits_of_le (hi.geo.block b (by simp)).wf hn),
    ⟨fun _ _ _ _ => rfl, fun _ _ _ => rfl, fun _ _ _ => rfl⟩⟩

theorem grow_spec (hi : Inv E h L (b :: B)) (hw : NoWrap E h n) (hos : OsOk E h n os)
    (hlt : b.hsize < chunkBytes n) (hcopy : CopyOk E os h b n) :
    ∃ r h' L' B', grow E os b.ptr n (chunkBytes n) h = some (r, h') ∧
      Resized E os h L b B n r h' L' B' ∧ Inv E h' L' B' ∧ ReallocOk E h b B n r h' ∧
      MfreeOk h h' B' ∧ (b.moved = false → Tight h L (b :: B) → MoveFarOk E os h L b B n →
        Tight h' L' B' ∧ Exact h h' B') := by
  have hg := hi.geo
  have hbk := hg.block b (by simp)
  have hbw := hbk.wf
  have hbsize := hbw.size
  have hbfin := hbk.home.pos
  have hbs : size h.mem b.hdr = b.hsize := (hi.rep.block b (by simp)).size
  have hn12 := (chunkBytes_bounds hw.chunk).1
  have hptr : sub32 b.ptr chunkSize = b.hdr := sub32_add_cancel _ _
  have hend : b.hdr + b.hsize ≤ b.base + b.size ∧ (b.moved = true → b.hdr + b.hsize <
      b.base + b.size) := by
    cases hm : b.moved with
    | false =>
      have := hbw.plain hm
      exact ⟨by omega, by simp⟩
    | true =>
      have := (hbw.moved hm).1
      simp only [chunkSize] at this
      exact ⟨by omega, fun _ => by omega⟩
  obtain ⟨A, C, hL, hA, hC⟩ := hg.clearance.split_at b.hdr
  subst hL
  have hwalk := walkFree_to hi.rep hg.clearance hA hC
  -- what happens when the block has to move
  have hmove : Moves (A ++ C) b n → ∃ r h' L' B', moveBlock E os b.ptr n (sub32 b.hsize chunkSize) h = some (r, h') ∧
      Resized E os h (A ++ C) b B n r h' L' B' ∧ Inv E h' L' B' ∧ ReallocOk E h b B n r h' ∧
      MfreeOk h h' B' ∧ (b.moved = false → Tight h (A ++ C) (b :: B) →
        MoveFarOk E os h (A ++ C) b B n → Tight h' L' B' ∧ Exact h h' B') := by
    intro hmv
    have hroom : chunkSize ≤ b.hsize ∧ min b.req n ≤ b.hsize - chunkSize ∨
        ∃ h', malloc E os n h = some (0, h') := by
      rcases hcopy with hm | hle | hle | hf
      · have := hbw.plain hm
        have := min_le_left b.req n
        left
        omega
      · omega
      · left
        omega
      · exact Or.inr hf
    have hlen : sub32 b.hsize chunkSize + chunkSize ≤ chunkBytes n ∨
        ∃ h', malloc E os n h = some (0, h') := by
      rcases hroom with ⟨h12, -⟩ | hf
      · rw [sub32_of_le h12]
        exact Or.inl (by omega)
      · exact Or.inr hf
    have hcov : min b.req n ≤ sub32 b.hsize chunkSize ∨ ∃ h', malloc E os n h = some (0, h') := by
      rcases hroom with ⟨h12, hmin⟩ | hf
      · rw [sub32_of_le h12]
        exact Or.inl hmin
      · exact Or.inr hf
    rcases moveBlock_spec hmv hi hw hos hlen hcov with ⟨k, s, hmv, hk⟩ |
      ⟨r, h', L', B', hmv, -, hres, hinv, hok, hmf, htight⟩
    · exact ⟨0, _, _, _, hmv, .failed k s, hi.settings hk,
        ⟨fun _ _ _ _ => rfl, fun hne => absurd rfl hne, fun _ _ _ => rfl⟩, Or.inl rfl,
        fun _ ht _ => ⟨⟨ht.heapbase, ht.packed, ht.used⟩, Exact.of_same rfl rfl⟩⟩
    · exact ⟨r, h', L', B', hmv, hres, hinv, hok, hmf, htight⟩
  cases C with
  | nil =>
    rw [grow]
    simp only [hptr, hwalk, Option.bind_eq_bind, Option.bind_some, headAddr_nil, hbs]
    rw [if_neg (by simp)]
    refine hmove (Or.inr ⟨hlt, fun c hc _ hj => ?_⟩)
    have hcA : c ∈ A := by simpa using hc
    have := hA c hcA
    omega
  | cons c C =>
    have hcb := hg.bounds (c := c) (by simp)
    have hcw := (hg.chunk c (by simp)).wf.size
    have hck := hi.rep.chunk c (by simp)
    have hcs : size h.mem c.addr = c.size := hck.size
    have hce : b.base + b.size ≤ c.addr := by
      have h1 := hg.clear c (by simp) b (by simp)
      have h2 := hC c (by simp)
      have h3 := hbw.base_le
      simp only [Chunk.ext, Block.ext, Extent.Apart, Extent.fin, chunkSize] at *
      omega
    have hs : add32 b.hdr b.hsize = b.hdr + b.hsize := by
      simp only [chunkSize] at hcw
      exact add32_of_lt (by omega)
    rw [grow]
    simp only [hptr, hwalk, Option.bind_eq_bind, Option.bind_some, headAddr_cons, hbs, hcs, hs]
    by_cases hcond : c.addr ≠ 0 ∧ c.addr ≤ b.hdr + b.hsize ∧
        chunkBytes n ≤ add32 b.hsize c.size ∧ valid h.mem c.addr ≠ VAL_BORDER
    · -- the chunk right behind the block is free and large enough
      rw [if_pos hcond]
      have hm : b.moved = false := by
        by_contra hm
        have := hend.2 (by simpa using hm)
        omega
      obtain ⟨hhdr, hhs, hreq⟩ := hbw.plain hm
      have hj : b.base + b.size = c.addr := by omega
      have hc : c.border = none := by
        by_contra hc
        apply hcond.2.2.2
        rw [hck.valid, Chunk.tag, if_neg hc]
      have hsum : add32 b.hsize c.size = b.size + c.size := by
        have := hbfin.1
        simp only [Block.ext] at this
        rw [hhs]
        exact add32_of_lt (by omega)
      have hnx : next (setSize h.mem b.base (b.size + c.size)) c.addr = headAddr C := by
        rw [← (Rep.parts (A := A) hi.rep).next_head]
        apply load32_store32_of_apart
        simp only [chunkSize] at hbsize
        omega
      obtain ⟨hinv, hch⟩ := grow_absorb hi hm hc hj (hn12.trans (hsum ▸ hcond.2.2.1)) rfl
      rw [if_pos (by omega), hsum, hhdr, hnx]
      refine ⟨b.ptr, _, A ++ C, _, rfl, .grown _ rfl hc hj hm hhdr, hinv, ?_, Or.inl rfl,
        fun _ ht _ => ?_⟩
      swap
      · simp only [chunkSize] at hbsize
        have hgeo : Geo E h.regions 0 h.stksize (A ++ C)
            (plainBlock ⟨b.base, b.size + c.size⟩ n :: B) := ht.heapbase ▸ hinv.geo
        have ht' := ht.grow hj (by omega) rfl hgeo
        exact ⟨⟨ht'.heapbase, ht'.packed, ht'.used⟩, Exact.of_same rfl rfl⟩
      refine ⟨fun a ha => hch.agreeOn fun e he => ?_, fun _ i hi' => ?_, fun hz => ?_⟩
      · rcases List.mem_cons.mp he with rfl | he
        · have hbin : Extent.Within ⟨b.base, chunkSize⟩ b.ext :=
            ⟨le_rfl, Nat.add_le_add_left hbsize _⟩
          exact ((List.pairwise_cons.mp hg.apart).1 a ha).symm.mono (Extent.Within.refl _) hbin
        rcases List.mem_cons.mp he with rfl | he
        · exact (hg.block a (by simp [ha])).home.head
        · obtain ⟨d, hd, rfl⟩ := List.mem_map.mp he
          exact (hg.clear d hd a (by simp [ha])).symm
      · have hin := mem_ext_of_lt hbw (lt_of_lt_of_le hi' (min_le_left _ _))
        apply hch
        intro e he
        rcases List.mem_cons.mp he with rfl | he
        · rw [Extent.mem_iff]
          simp only [Block.ptr, hhdr]
          omega
        rcases List.mem_cons.mp he with rfl | he
        · exact hbk.home.head.not_mem hin
        · obtain ⟨d, hd, rfl⟩ := List.mem_map.mp he
          exact (hg.clear d hd b (by simp)).symm.not_mem hin
      · simp only [Block.ptr, chunkSize] at hz
        omega
    · rw [if_neg hcond]
      refine hmove (Or.inr ⟨hlt, fun d hd hdn hj => ?_⟩)
      -- only the first entry above the block can be right behind it
      have hdc : d = c := by
        rcases List.mem_append.mp hd with hd | hd
        · have := hA d hd
          omega
        rcases List.mem_cons.mp hd with rfl | hd
        · rfl
        · have := (Geo.asc_around hg.asc).2 d hd
          simp only [chunkSize] at hcw
          omega
      subst hdc
      by_contra hle
      refine hcond ⟨by omega, by omega, ?_, ?_⟩
      · rw [add32]
        have hfit : (b.hsize + d.size) % 2 ^ 32 = b.hsize + d.size := by
          apply Nat.mod_eq_of_lt
          have := hbfin.1
          have := hbw.base_le
          simp only [Block.ext] at *
          omega
        rw [hfit]
        omega
      · rw [hck.valid, Chunk.tag, if_pos hdn]
        decide

theorem realloc_spec (hi : Inv E h L (b :: B)) (hpos : n ≠ 0) (hw : NoWrap E h n)
    (hslack : chunkBytes n + resizeSlack < 2 ^ 32) (hos : OsOk E h n os)
    (hcopy : CopyOk E os h b n) :
    ∃ r h' L' B', realloc E os b.ptr n h = some (r, h') ∧
      Resized E os h L b B n r h' L' B' ∧ Inv E h' L' B' ∧ ReallocOk E h b B n r h' ∧
      MfreeOk h h' B' ∧ (b.moved = false → Tight h L (b :: B) → MoveFarOk E os h L b B n →
        Tight h' L' B' ∧ Exact h h' B') := by
  have hptr0 : b.ptr ≠ 0 := b.ptr_ne_zero
  have hptr : sub32 b.ptr chunkSize = b.hdr := sub32_add_cancel _ _
  have hbs : size h.mem b.hdr = b.hsize := (hi.rep.block b (by simp)).size
  have hn12 := (chunkBytes_bounds hw.chunk).1
  have hadd : add32 (chunkBytes n) resizeSlack = chunkBytes n + resizeSlack := add32_of_lt hslack
  rw [realloc, if_neg hptr0, if_neg hpos]
  simp only [hptr, hbs, hadd]
  by_cases hshrink : chunkBytes n + resizeSlack < b.hsize
  · rw [if_pos hshrink]
    have hroom : n + chunkSize ≤ b.hsize := by omega
    rcases moveBlock_spec (Or.inl hshrink) hi hw hos (Or.inl hn12) (Or.inl (min_le_right _ _)) with
      ⟨k, s, hmv, hk⟩ | ⟨r, h', L', B', hmv, hr0, hres, hinv, hok, hmf, htight⟩
    · obtain ⟨hinv, hok⟩ := kept_spec (s := s) hi hroom hk
      refine ⟨b.ptr, _, L, _, ?_, .kept k s, hinv, hok, Or.inl rfl, fun _ ht _ => ?_⟩
      · rw [hmv]
        rfl
      · have ht' := ht.redescribe (d := { b with req := n }) rfl
        exact ⟨⟨ht'.heapbase, ht'.packed, ht'.used⟩, Exact.of_same rfl rfl⟩
    · refine ⟨r, h', L', B', ?_, hres, hinv, hok, hmf, htight⟩
      rw [hmv]
      simp only [Option.bind_eq_bind, Option.bind_some]
      rw [if_pos hr0]
  · rw [if_neg hshrink]
    by_cases hgrow : b.hsize < chunkBytes n
    · rw [if_pos hgrow]
      exact grow_spec hi hw hos hgrow hcopy
    · rw [if_neg hgrow]
      obtain ⟨hinv, hok⟩ := kept_spec (k := h.MINHUNK) (s := h.split_mem) hi
        (hn12.trans (not_lt.mp hgrow)) hi.hunk.min
      exact ⟨b.ptr, h, L, _, rfl, .kept _ _, hinv, hok, Or.inl rfl,
        fun _ ht _ => ⟨ht.redescribe (d := { b with req := n }) rfl, Exact.of_same rfl rfl⟩⟩

end Realloc

section Entry

variable {E : Layout} {h : Heap} {os : Os} {n sz alignment : ℕ} {L : List Chunk} {B : List Block}

/-- `calloc` whose product does not wrap is a `malloc` that fills the block with zeros. -/
theorem calloc_steps (hi : Inv E h L B) (hw : NoWrap E h (n * sz)) (hos : OsOk E h (n * sz) os) :
    (∃ k s, calloc E os n sz h = some (0, { h with MINHUNK := k, split_mem := s }) ∧ k ≤ 2 ^ 30) ∨
    ∃ e h₁ L₁, Allocated E h L B (n * sz) e h₁ L₁ ∧
      calloc E os n sz h = some ((plainBlock e (n * sz)).ptr,
        { h₁ with mem := fill h₁.mem (plainBlock e (n * sz)).ptr 0 (n * sz) }) ∧
      Inv E { h₁ with mem := fill h₁.mem (plainBlock e (n * sz)).ptr 0 (n * sz) } L₁
        (plainBlock e (n * sz) :: B) := by
  have hmod : n * sz % 2 ^ 32 = n * sz := Nat.mod_eq_of_lt (by have := hw.chunk; omega)
  rcases malloc_spec hi hw hos with ⟨k, s, hmal, hk⟩ | ⟨e, h₁, L₁, hmal, hall⟩
  · left
    refine ⟨k, s, ?_, hk⟩
    rw [calloc, hmod, hmal]
    rfl
  · right
    have hptr : (plainBlock e (n * sz)).ptr ≠ 0 := (plainBlock e (n * sz)).ptr_ne_zero
    have hwf := (hall.inv.geo.block _ List.mem_cons_self).wf
    refine ⟨e, h₁, L₁, hall, ?_, hall.inv.write (ChangesIn.fill _ _ _ _) hwf.contents_within⟩
    rw [calloc, hmod, hmal]
    simp only [Option.bind_eq_bind, Option.bind_some]
    rw [if_pos hptr]

theorem calloc_spec (hi : Inv E h L B) (hw : NoWrap E h (n * sz)) (hos : OsOk E h (n * sz) os) :
    (∃ k s, calloc E os n sz h = some (0, { h with MINHUNK := k, split_mem := s }) ∧ k ≤ 2 ^ 30) ∨
    ∃ b h' L', calloc E os n sz h = some (b.ptr, h') ∧ b.moved = false ∧ b.req = n * sz ∧
      Inv E h' L' (b :: B) ∧ Kept h h' B ∧ h'.mfrees = h.mfrees ∧
      (Tight h L B → Tight h' L' (b :: B) ∧ Exact h h' (b :: B)) ∧
      ∀ x ∈ b.contents, h'.mem x = 0 := by
  rcases calloc_steps hi hw hos with hfail | ⟨e, h₁, L₁, hall, hcal, hinv⟩
  · exact Or.inl hfail
  · right
    set b := plainBlock e (n * sz) with hb
    have hbody : Extent.Within ⟨b.ptr, n * sz⟩ b.ext :=
      (hall.inv.geo.block b List.mem_cons_self).wf.contents_within
    have hfill := ChangesIn.fill h₁.mem b.ptr 0 (n * sz)
    refine ⟨b, _, L₁, hcal, rfl, rfl, hinv, ?_, hall.mfrees, fun ht => ?_, ?_⟩
    · intro a ha x hx
      have h1 := hall.kept hi.geo a ha x hx
      have h2 := agreeOn_of_write hall.inv.geo hfill hbody ha x hx
      exact h2.trans h1
    · have := (chunkBytes_bounds hw.chunk).2.1
      obtain ⟨ht', hex⟩ := ht.alloc hi hall (by omega)
      exact ⟨⟨ht'.heapbase, ht'.packed, ht'.used⟩, ⟨hex.gone, hex.given⟩⟩
    · intro x hx
      exact if_pos hx

theorem alignDown_bounds (x a : ℕ) : x - (a - 1) ≤ alignDown x a ∧ alignDown x a ≤ x := by
  have := @Nat.and_le_right x (a - 1)
  rw [alignDown]
  omega

/-- The bytes that an aligned allocator asks `malloc` for. -/
def alignedBytes (alignment sz : ℕ) : ℕ :=
  if alignment ≤ MALLOC_ALIGNMENT then sz else sz + alignment - 1

/-- The block `b` that an aligned allocator makes of the chunk `e` from `malloc`. -/
structure Shifted (alignment sz : ℕ) (e : Extent) (b : Block) : Prop where
  ext : b.ext = e
  req : b.req = sz
  plain : b.moved = false → b.ptr = e.base + chunkSize ∧
    (alignment ≤ MALLOC_ALIGNMENT ∨ (e.base + chunkSize) &&& (alignment - 1) = 0)
  moved : b.moved = true → b.ptr = alignDown (e.base + chunkSize + alignment - 1) alignment ∧
    MALLOC_ALIGNMENT < alignment ∧ (e.base + chunkSize) &&& (alignment - 1) ≠ 0

/-- `memalign` and `aligned_alloc`, for an alignment that is small or a multiple of 8, are a
`malloc` and at most one header further up in its block. -/
theorem libcMemalign_steps (hi : Inv E h L B) (ha : alignment ≤ MALLOC_ALIGNMENT ∨ 8 ∣ alignment)
    (hw : NoWrap E h (alignedBytes alignment sz)) (hos : OsOk E h (alignedBytes alignment sz) os) :
    (∃ k s, libcMemalign E os alignment sz h =
      some (0, { h with MINHUNK := k, split_mem := s }) ∧
      malloc E os (alignedBytes alignment sz) h =
        some (0, { h with MINHUNK := k, split_mem := s }) ∧ k ≤ 2 ^ 30) ∨
    ∃ e h₁ L' b m', malloc E os (alignedBytes alignment sz) h =
        some ((plainBlock e (alignedBytes alignment sz)).ptr, h₁) ∧
      Allocated E h L B (alignedBytes alignment sz) e h₁ L' ∧
      libcMemalign E os alignment sz h = some (b.ptr, { h₁ with mem := m' }) ∧
      Shifted alignment sz e b ∧ Inv E { h₁ with mem := m' } L' (b :: B) ∧
      ChangesIn h₁.mem m' [e] := by
  by_cases hsmall : alignment ≤ MALLOC_ALIGNMENT
  · rw [alignedBytes, if_pos hsmall] at hw hos ⊢
    rw [libcMemalign, if_pos hsmall]
    rcases malloc_spec hi hw hos with ⟨k, s, hmal, hk⟩ | ⟨e, h', L', hmal, hall⟩
    · exact Or.inl ⟨k, s, hmal, hmal, hk⟩
    · refine Or.inr ⟨e, h', L', plainBlock e sz, h'.mem, hmal, hall, hmal, ⟨rfl, rfl, fun _ =>
        ⟨rfl, Or.inl hsmall⟩, fun hm => absurd hm (by simp [plainBlock])⟩, hall.inv,
        ChangesIn.refl _ _⟩
  rw [alignedBytes, if_neg hsmall] at hw hos ⊢
  have h8 : 8 ∣ alignment := ha.resolve_left hsmall
  have hal : 8 < alignment := not_le.mp hsmall
  have hn := hw.chunk
  obtain ⟨hc12, hc16, hc19, hc8⟩ := chunkBytes_bounds hn
  have hsum : sub32 (add32 sz alignment) 1 = sz + alignment - 1 := by
    rw [add32_of_lt (by omega), sub32_of_le (by omega)]
  rw [libcMemalign, if_neg hsmall, hsum]
  rcases malloc_spec hi hw hos with ⟨k, s, hmal, hk⟩ | ⟨e, h₁, L₁, hmal, hall⟩
  · left
    refine ⟨k, s, ?_, hmal, hk⟩
    rw [hmal]
    simp only [Option.bind_eq_bind, Option.bind_some]
    rw [if_neg (by simp)]
  right
  obtain ⟨L₂, -, hcv, -⟩ := hall.path
  have hlen := hcv.len_le
  set b := plainBlock e (sz + alignment - 1) with hb
  have hbk := hall.inv.geo.block b List.mem_cons_self
  have hfin := hbk.home.pos
  have hbptr : b.ptr = e.base + 12 := rfl
  simp only [hb, plainBlock, Block.ext, Extent.fin] at hfin
  by_cases hcond : b.ptr ≠ 0 ∧ b.ptr &&& (alignment - 1) ≠ 0
  · simp only [chunkSize] at *
    have hup : sub32 (add32 b.ptr alignment) 1 = b.ptr + alignment - 1 := by
      rw [add32_of_lt (by omega), sub32_of_le (by omega)]
    obtain ⟨hlo, hhi⟩ := alignDown_bounds (b.ptr + alignment - 1) alignment
    set mem := alignDown (b.ptr + alignment - 1) alignment with hmem
    have hp : sub32 mem 12 = mem - 12 := sub32_of_le (by omega)
    -- the second header lies in the block, its size is what was asked for
    set d : Block := ⟨e.base, e.len, mem - 12, sz, true, sz⟩ with hd
    have hdptr : d.ptr = mem := by
      simp only [hd, Block.ptr, chunkSize]
      omega
    have hdw : d.Wf := by
      refine ⟨?_, ?_, ?_, by simp [hd], fun _ => ⟨?_, le_rfl⟩⟩ <;>
        simp only [hd, chunkSize] <;> omega
    have hin : Extent.Within ⟨mem - 12, chunkSize⟩ e := by
      simp only [Extent.Within, Extent.fin, chunkSize]
      omega
    set m₁ := setSize (setNext (setValid h₁.mem (mem - 12) (VAL_ALLOC + 1)) (mem - 12) 0)
      (mem - 12) sz with hm₁
    have hch : ChangesIn h₁.mem m₁ [e] :=
      (((ChangesIn.refl _ _).setValid (by simp) hin).setNext (by simp) hin).setSize (by simp) hin
    refine ⟨e, h₁, L₁, d, m₁, hmal, hall, ?_, ⟨rfl, rfl, by simp [hd], fun _ =>
      ⟨by rw [hdptr, hmem, hbptr], hal, hbptr ▸ hcond.2⟩⟩,
      ⟨(hall.inv.rep.frame_block hall.inv.geo hch (Extent.Within.refl _)).addBlock ⟨?_, ?_⟩,
        hall.inv.geo.redescribe rfl hdw, hall.inv.hunk.min, hall.inv.hunk.max⟩, hch⟩
    · rw [hmal]
      simp only [Option.bind_eq_bind, Option.bind_some]
      rw [if_pos hcond, hup, ← hmem, hp, hdptr]
    · show valid m₁ (mem - 12) = VAL_ALLOC + 1
      rw [hm₁]
      simp only [valid, setNext, setValid, setSize]
      simp (disch := omega) only [load32_store32_of_apart, load32_store32_self]
      rfl
    · show size m₁ (mem - 12) = sz
      rw [hm₁, size, setSize, load32_store32_self]
      exact Nat.mod_eq_of_lt (by omega)
  · -- already aligned: the block as `malloc` made it, with fewer bytes asked for
    have haligned : (e.base + chunkSize) &&& (alignment - 1) = 0 := by
      by_contra hne
      exact hcond ⟨b.ptr_ne_zero, hne⟩
    refine ⟨e, h₁, L₁, { b with req := sz }, h₁.mem, hmal, hall, ?_, ⟨rfl, rfl, fun _ =>
      ⟨rfl, Or.inr haligned⟩, fun hm => absurd hm (by simp [hb, plainBlock])⟩, ?_,
      ChangesIn.refl _ _⟩
    · rw [hmal]
      simp only [Option.bind_eq_bind, Option.bind_some]
      rw [if_neg hcond]
      rfl
    · refine hall.inv.reask (k := h₁.MINHUNK) (s := h₁.split_mem) hall.inv.hunk.min
        (fits_of_le hbk.wf ?_)
      simp only [hb, plainBlock, chunkSize] at *
      omega

theorem Shifted.kept {b : Block} {e : Extent} {h₁ : Heap} {m' : Mem}
    (hs : Shifted alignment sz e b) (hi : Inv E { h₁ with mem := m' } L (b :: B))
    (hch : ChangesIn h₁.mem m' [e]) : Kept h₁ { h₁ with mem := m' } B := by
  intro a ha
  apply hch.agreeOn
  intro f hf
  rw [List.mem_singleton.mp hf, ← hs.ext]
  exact ((List.pairwise_cons.mp hi.geo.apart).1 a ha).symm

/-- `memalign` and `aligned_alloc` for an alignment that is small or a multiple of 8. -/
theorem libcMemalign_spec (hi : Inv E h L B) (ha : alignment ≤ MALLOC_ALIGNMENT ∨ 8 ∣ alignment)
    (hw : NoWrap E h (alignedBytes alignment sz)) (hos : OsOk E h (alignedBytes alignment sz) os) :
    (∃ k s, libcMemalign E os alignment sz h =
      some (0, { h with MINHUNK := k, split_mem := s }) ∧ k ≤ 2 ^ 30) ∨
    ∃ b h' L', libcMemalign E os alignment sz h = some (b.ptr, h') ∧ b.req = sz ∧
      Inv E h' L' (b :: B) ∧ Kept h h' B ∧ h'.mfrees = h.mfrees := by
  rcases libcMemalign_steps hi ha hw hos with ⟨k, s, hmem, -, hk⟩ |
    ⟨e, h₁, L', b, m', -, hall, hmem, hs, hinv, hch⟩
  · exact Or.inl ⟨k, s, hmem, hk⟩
  · refine Or.inr ⟨b, _, L', hmem, hs.req, hinv, fun a ha x hx => ?_, hall.mfrees⟩
    exact (hs.kept hinv hch a ha x hx).trans (hall.kept hi.geo a ha x hx)

end Entry

end Mintlib.Malloc
