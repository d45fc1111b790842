import Mintlib.Malloc.Regions

/-!
# The free list in memory

`Rep` says that memory holds a given abstract heap: the free list threaded from
`_mchunk_free_list` through the `next` fields, and the headers of its entries
and of the blocks in use. `Parts` is the same while one link is being changed.
-/

namespace Mintlib.ByteMemory.ChangesIn

variable {m m' : Mem} {es : List Extent} {e : Extent} {p v : ℕ}

theorem setValid (h : ChangesIn m m' es) (he : e ∈ es)
    (hw : Extent.Within ⟨p, Malloc.chunkSize⟩ e) : ChangesIn m (Malloc.setValid m' p v) es := by
  apply h.step he
  simp only [Extent.Within, Extent.fin, Malloc.chunkSize] at *
  omega

theorem setNext (h : ChangesIn m m' es) (he : e ∈ es)
    (hw : Extent.Within ⟨p, Malloc.chunkSize⟩ e) : ChangesIn m (Malloc.setNext m' p v) es := by
  apply h.step he
  simp only [Extent.Within, Extent.fin, Malloc.chunkSize] at *
  omega

theorem setSize (h : ChangesIn m m' es) (he : e ∈ es)
    (hw : Extent.Within ⟨p, Malloc.chunkSize⟩ e) : ChangesIn m (Malloc.setSize m' p v) es := by
  apply h.step he
  simp only [Extent.Within, Extent.fin, Malloc.chunkSize] at *
  omega

end Mintlib.ByteMemory.ChangesIn

namespace Mintlib.Malloc

open ByteMemory

structure ChunkAt (m : Mem) (c : Chunk) : Prop where
  valid : valid m c.addr = c.tag
  size : size m c.addr = c.size
  alloc : ∀ a ∈ c.border, allocSize m c.addr = a

theorem Chunk.Wf.hdr_within {c : Chunk} (h : c.Wf) : Extent.Within ⟨c.addr, chunkSize⟩ c.ext :=
  ⟨le_rfl, Nat.add_le_add_left h.size _⟩

/-- The header that `free` and `realloc` find in front of a block's pointer. -/
structure BlockAt (m : Mem) (b : Block) : Prop where
  valid : valid m b.hdr = if b.moved then VAL_ALLOC + 1 else VAL_ALLOC
  size : size m b.hdr = b.hsize

/-- The address of the first entry, or `NULL`. -/
def headAddr (L : List Chunk) : ℕ := (L.map Chunk.addr).headD 0

/-- The address of the last entry, or of `_mchunk_free_list`. -/
def lastAddr (E : Layout) (L : List Chunk) : ℕ := (L.map Chunk.addr).getLastD E.mchunk_free_list

@[simp] theorem headAddr_nil : headAddr [] = 0 := rfl
@[simp] theorem headAddr_cons (c : Chunk) (L : List Chunk) : headAddr (c :: L) = c.addr := rfl
@[simp] theorem lastAddr_nil (E : Layout) : lastAddr E [] = E.mchunk_free_list := rfl

@[simp] theorem lastAddr_concat (E : Layout) (L : List Chunk) (c : Chunk) :
    lastAddr E (L ++ [c]) = c.addr := by
  simp [lastAddr]

/-- The free list up to and including `A`, and the free list from `C` on; nothing
is said about the link between the two. -/
structure Parts (E : Layout) (m : Mem) (A C : List Chunk) (B : List Block) : Prop where
  front : ∃ x, Linked (next m) E.mchunk_free_list (A.map Chunk.addr) x
  back : ∀ c ∈ C.head?, Linked (next m) c.addr (C.tail.map Chunk.addr) 0
  head : valid m E.mchunk_free_list = VAL_FREE
  chunk : ∀ c ∈ A ++ C, ChunkAt m c
  block : ∀ b ∈ B, BlockAt m b

structure Rep (E : Layout) (m : Mem) (L : List Chunk) (B : List Block) : Prop where
  links : Linked (next m) E.mchunk_free_list (L.map Chunk.addr) 0
  head : valid m E.mchunk_free_list = VAL_FREE
  chunk : ∀ c ∈ L, ChunkAt m c
  block : ∀ b ∈ B, BlockAt m b

section Frame

variable {m m' : Mem} {c : Chunk} {b : Block}

theorem load32_within {a : ℕ} {e : Extent} (h : AgreeOn m m' e) (hle : e.base ≤ a)
    (hfin : a + 4 ≤ e.fin) : load32 m' a = load32 m a :=
  load32_congr (h.mono ⟨hle, hfin⟩)

theorem header_congr {p : ℕ} (h : AgreeOn m m' ⟨p, chunkSize⟩) :
    valid m' p = valid m p ∧ next m' p = next m p ∧ size m' p = size m p := by
  refine ⟨load32_within h ?_ ?_, load32_within h ?_ ?_, load32_within h ?_ ?_⟩ <;>
    simp only [Extent.fin, chunkSize] <;> omega

theorem next_congr (h : AgreeOn m m' c.ext) (hw : c.Wf) : next m' c.addr = next m c.addr := by
  have := hw.size
  apply load32_within h
  · simp only [Chunk.ext]
    omega
  · simp only [Chunk.ext, Extent.fin, chunkSize] at *
    omega

theorem ChunkAt.congr (h : ChunkAt m c) (ha : AgreeOn m m' c.ext) (hw : c.Wf) : ChunkAt m' c := by
  have hs := hw.size
  refine ⟨?_, ?_, fun a hca => ?_⟩
  · rw [← h.valid]
    apply load32_within ha
    · exact le_rfl
    · simp only [Chunk.ext, Extent.fin, chunkSize] at *
      omega
  · rw [← h.size]
    apply load32_within ha
    · simp only [Chunk.ext]
      omega
    · simp only [Chunk.ext, Extent.fin, chunkSize] at *
      omega
  · rw [← h.alloc a hca]
    have hb := hw.border (by rintro hn; simp [hn] at hca)
    apply load32_within ha
    · simp only [Chunk.ext]
      omega
    · simp only [Chunk.ext, Extent.fin, BORDER_EXTRA] at *
      omega

theorem Block.Wf.hdr_within (hw : b.Wf) : Extent.Within ⟨b.hdr, chunkSize⟩ b.ext := by
  have hs := hw.size
  have hle := hw.base_le
  simp only [Extent.Within, Extent.fin, Block.ext]
  cases hm : b.moved with
  | false =>
    have := hw.plain hm
    omega
  | true =>
    have := hw.moved hm
    omega

theorem BlockAt.congr (h : BlockAt m b) (ha : AgreeOn m m' b.ext) (hw : b.Wf) : BlockAt m' b := by
  obtain ⟨hv, -, hz⟩ := header_congr (ha.mono hw.hdr_within)
  exact ⟨hv.trans h.valid, hz.trans h.size⟩

end Frame

section Parts

variable {E : Layout} {rs : List Extent} {hb st : ℕ} {m m' : Mem} {L A M C : List Chunk}
  {B : List Block} {c : Chunk} {b : Block}

theorem Rep.parts (h : Rep E m (A ++ C) B) : Parts E m A C B := by
  have hl := h.links
  rw [List.map_append, Linked.append_iff] at hl
  refine ⟨⟨_, hl.1⟩, fun c hc => ?_, h.head, h.chunk, h.block⟩
  cases C with
  | nil => simp at hc
  | cons d C =>
    obtain rfl : d = c := by simpa using hc
    exact hl.2.2

theorem Parts.rep (h : Parts E m A C B) (hlink : next m (lastAddr E A) = headAddr C) :
    Rep E m (A ++ C) B := by
  refine ⟨?_, h.head, h.chunk, h.block⟩
  obtain ⟨x, hx⟩ := h.front
  have hback : Linked (next m) (lastAddr E A) (C.map Chunk.addr) 0 := by
    cases C with
    | nil => exact hlink
    | cons d C => exact ⟨hlink, h.back d rfl⟩
  have hlast : next m (lastAddr E A) = x := hx.next_last
  rw [List.map_append, Linked.append_iff]
  refine ⟨?_, hback⟩
  have hxC : x = (C.map Chunk.addr).headD 0 := hlast.symm.trans hlink
  exact hxC ▸ hx

theorem Rep.next_last (h : Rep E m (A ++ C) B) : next m (lastAddr E A) = headAddr C := by
  have hl := h.links
  rw [List.map_append, Linked.append_iff] at hl
  exact hl.2.next_eq

theorem Parts.narrow (h : Parts E m (A ++ M) C B) : Parts E m A C B := by
  obtain ⟨x, hx⟩ := h.front
  rw [List.map_append, Linked.append_iff] at hx
  exact ⟨⟨_, hx.1⟩, h.back, h.head, fun c hc => h.chunk c (by simp at hc ⊢; tauto), h.block⟩

theorem Rep.without (h : Rep E m (A ++ (M ++ C)) B) : Parts E m A C B :=
  (Rep.parts (A := A ++ M) (by simpa using h)).narrow

theorem Parts.cons (h : Parts E m A C B) (hc : ChunkAt m c) (hn : next m c.addr = headAddr C) :
    Parts E m A (c :: C) B := by
  refine ⟨h.front, ?_, h.head, ?_, h.block⟩
  · intro d hd
    obtain rfl : c = d := by simpa using hd
    cases C with
    | nil => exact hn
    | cons d C => exact ⟨hn, h.back d rfl⟩
  · intro d hd
    rcases List.mem_append.mp hd with hd | hd
    · exact h.chunk d (by simp [hd])
    rcases List.mem_cons.mp hd with rfl | hd
    · exact hc
    · exact h.chunk d (by simp [hd])

theorem Parts.next_head (h : Parts E m A (c :: C) B) : next m c.addr = headAddr C :=
  (h.back c rfl).next_eq

theorem Parts.tail (h : Parts E m A (c :: C) B) : Parts E m A C B := by
  refine ⟨h.front, fun d hd => ?_, h.head, fun d hd => h.chunk d (by simp at hd ⊢; tauto), h.block⟩
  have hl := h.back c rfl
  cases C with
  | nil => simp at hd
  | cons d' C =>
    obtain rfl : d' = d := by simpa using hd
    exact hl.2

theorem Parts.next_prev (h : Parts E m (A ++ [c]) C B) : next m (lastAddr E A) = c.addr := by
  obtain ⟨x, hx⟩ := h.front
  rw [List.map_append, Linked.append_iff] at hx
  exact hx.1.next_last

theorem Rep.forget (h : Rep E m L (b :: B)) : Rep E m L B :=
  ⟨h.links, h.head, h.chunk, fun b hb => h.block b (List.mem_cons_of_mem _ hb)⟩

theorem Rep.addBlock (h : Rep E m L B) (hb : BlockAt m b) : Rep E m L (b :: B) := by
  refine ⟨h.links, h.head, h.chunk, fun a ha => ?_⟩
  rcases List.mem_cons.mp ha with rfl | ha
  · exact hb
  · exact h.block a ha

theorem Rep.perm {B' : List Block} (h : Rep E m L B) (hp : B.Perm B') : Rep E m L B' :=
  ⟨h.links, h.head, h.chunk, fun b hb => h.block b (hp.mem_iff.mpr hb)⟩

theorem Parts.frame (h : Parts E m A C B)
    (hhead : AgreeOn m m' ⟨E.mchunk_free_list, chunkSize⟩)
    (hchunk : ∀ c ∈ A ++ C, c.Wf ∧ AgreeOn m m' c.ext)
    (hblock : ∀ b ∈ B, b.Wf ∧ AgreeOn m m' b.ext) : Parts E m' A C B := by
  have hnext : ∀ x ∈ (A ++ C).map Chunk.addr, next m' x = next m x := by
    intro x hx
    obtain ⟨c, hc, rfl⟩ := List.mem_map.mp hx
    exact next_congr (hchunk c hc).2 (hchunk c hc).1
  obtain ⟨hvalidHead, hnextHead, -⟩ := header_congr hhead
  refine ⟨?_, ?_, ?_, fun c hc => (h.chunk c hc).congr (hchunk c hc).2 (hchunk c hc).1,
    fun b hb => (h.block b hb).congr (hblock b hb).2 (hblock b hb).1⟩
  · obtain ⟨x, hx⟩ := h.front
    refine ⟨x, hx.congr hnextHead fun y hy => hnext y ?_⟩
    rw [List.map_append]
    exact List.mem_append_left _ hy
  · intro c hc
    have hcC : c ∈ C := List.mem_of_mem_head? hc
    refine (h.back c hc).congr (hnext _ (List.mem_map_of_mem (by simp [hcC]))) fun y hy => ?_
    obtain ⟨d, hd, rfl⟩ := List.mem_map.mp hy
    exact hnext _ (List.mem_map_of_mem (by simp [List.mem_of_mem_tail hd]))
  · exact hvalidHead.trans h.head

theorem lastAddr_cases (E : Layout) (A : List Chunk) :
    (A = [] ∧ lastAddr E A = E.mchunk_free_list) ∨
      ∃ A' p, A = A' ++ [p] ∧ lastAddr E A = p.addr := by
  rcases List.eq_nil_or_concat A with rfl | ⟨A', p, rfl⟩
  · exact Or.inl ⟨rfl, rfl⟩
  · exact Or.inr ⟨A', p, by simp, by simp⟩

end Parts

abbrev Layout.headExt (E : Layout) : Extent := ⟨E.mchunk_free_list, chunkSize⟩

def Layout.freeExts (E : Layout) (L : List Chunk) : List Extent := E.headExt :: L.map Chunk.ext

/-- Entries, blocks and the head of the list, all off each other: what `Geo` says
about the headers that the list operations touch. -/
structure Clear (E : Layout) (L : List Chunk) (B : List Block) : Prop where
  asc : L.Pairwise fun c d => c.addr + c.size ≤ d.addr
  chunk : ∀ c ∈ L, c.Wf ∧ c.ext.Apart E.headExt ∧ 0 < c.addr ∧ c.addr + c.size ≤ 2 ^ 32
  block : ∀ b ∈ B, b.Wf ∧ b.ext.Apart E.headExt
  clear : ∀ c ∈ L, ∀ b ∈ B, c.ext.Apart b.ext

section Clear

variable {E : Layout} {rs : List Extent} {hb st : ℕ} {m m' : Mem} {L L' A M C : List Chunk}
  {B B' : List Block} {c : Chunk} {b : Block}

theorem Geo.bounds (h : Geo E rs hb st L B) (hc : c ∈ L) :
    0 < c.addr ∧ c.addr + c.size ≤ 2 ^ 32 := by
  have hk := h.chunk c hc
  cases hcb : c.border with
  | none => exact (hk.home hcb).pos
  | some a =>
    have hR := h.regions.pos _ (hk.region a hcb).2
    have hs := hk.wf.border (by simp [hcb])
    simp only [Extent.fin] at hR
    omega

theorem Geo.clearance (h : Geo E rs hb st L B) : Clear E L B where
  asc := h.asc
  chunk c hc := ⟨(h.chunk c hc).wf, (h.chunk c hc).head, h.bounds hc⟩
  block b hb := ⟨(h.block b hb).wf, (h.block b hb).home.head⟩
  clear := h.clear

theorem Clear.sub (h : Clear E L B) (hL : L'.Sublist L) (hB : ∀ b ∈ B', b ∈ B) :
    Clear E L' B' where
  asc := h.asc.sublist hL
  chunk c hc := h.chunk c (hL.subset hc)
  block b hb := h.block b (hB b hb)
  clear c hc b hb := h.clear c (hL.subset hc) b (hB b hb)

theorem Clear.apart_last (h : Clear E (A ++ C) B) (hc : c ∈ C) :
    Extent.Apart ⟨lastAddr E A, chunkSize⟩ c.ext := by
  rcases lastAddr_cases E A with ⟨rfl, hl⟩ | ⟨A', p, rfl, hl⟩
  · rw [hl]
    exact (h.chunk c (by simpa using hc)).2.1.symm
  · have hp := (h.chunk p (by simp)).1.size
    have hpc : p.addr + p.size ≤ c.addr :=
      (List.pairwise_append.mp h.asc).2.2 p (by simp) c hc
    rw [hl]
    left
    simp only [Chunk.ext, Extent.fin]
    omega

theorem Clear.last_within (h : Clear E (A ++ C) B) :
    ∃ e ∈ E.freeExts (A ++ C), Extent.Within ⟨lastAddr E A, chunkSize⟩ e := by
  rcases lastAddr_cases E A with ⟨rfl, hl⟩ | ⟨A', p, rfl, hl⟩
  · exact ⟨E.headExt, by simp [Layout.freeExts], by rw [hl]; exact Extent.Within.refl _⟩
  · refine ⟨p.ext, by simp [Layout.freeExts], ?_⟩
    rw [hl]
    exact (h.chunk p (by simp)).1.hdr_within

theorem Clear.block_apart_last (h : Clear E (A ++ C) B) (hb : b ∈ B) :
    Extent.Apart ⟨lastAddr E A, chunkSize⟩ b.ext := by
  rcases lastAddr_cases E A with ⟨rfl, hl⟩ | ⟨A', p, rfl, hl⟩
  · rw [hl]
    exact (h.block b hb).2.symm
  · have hp := (h.chunk p (by simp)).1.size
    rw [hl]
    apply (h.clear p (by simp) b hb).mono _ (Extent.Within.refl _)
    simp only [Extent.Within, Chunk.ext, Extent.fin]
    omega

theorem setNext_agreeOn (m : Mem) {p v : ℕ} {e : Extent} (h : Extent.Apart ⟨p, chunkSize⟩ e) :
    AgreeOn m (setNext m p v) e := by
  apply (ChangesIn.store32 m (p + 4) v).agreeOn
  intro f hf
  obtain rfl : f = ⟨p + 4, 4⟩ := by simpa using hf
  simp only [Extent.Apart, Extent.fin, chunkSize] at *
  omega

@[simp] theorem next_setNext_self (m : Mem) {p v : ℕ} (hv : v < 2 ^ 32) :
    next (setNext m p v) p = v := by
  rw [next, setNext, load32_store32_self, Nat.mod_eq_of_lt hv]

theorem ChunkAt.setNext (h : ChunkAt m c) (v : ℕ) : ChunkAt (setNext m c.addr v) c := by
  refine ⟨?_, ?_, fun a ha => ?_⟩
  · rw [← h.valid]
    exact load32_store32_of_apart _ _ (by omega)
  · rw [← h.size]
    exact load32_store32_of_apart _ _ (by omega)
  · rw [← h.alloc a ha]
    exact load32_store32_of_apart _ _ (by omega)

theorem Clear.headAddr_lt (h : Clear E (A ++ C) B) : headAddr C < 2 ^ 32 := by
  cases C with
  | nil => simp
  | cons c C =>
    have hc := h.chunk c (by simp)
    have := hc.1.size
    simp only [headAddr_cons, chunkSize] at *
    omega

theorem Parts.join (h : Parts E m A C B) (hs : Clear E (A ++ C) B) :
    Rep E (setNext m (lastAddr E A) (headAddr C)) (A ++ C) B := by
  have hC : ∀ c ∈ C, AgreeOn m (setNext m (lastAddr E A) (headAddr C)) c.ext := fun c hc =>
    setNext_agreeOn m (hs.apart_last hc)
  have hback : ∀ c ∈ C.head?, Linked (next (setNext m (lastAddr E A) (headAddr C))) c.addr
      (C.tail.map Chunk.addr) 0 := by
    intro c hc
    have hcC : c ∈ C := List.mem_of_mem_head? hc
    have hnx : ∀ d ∈ C, next (setNext m (lastAddr E A) (headAddr C)) d.addr = next m d.addr :=
      fun d hd => next_congr (hC d hd) (hs.chunk d (by simp [hd])).1
    refine (h.back c hc).congr (hnx c hcC) fun y hy => ?_
    obtain ⟨d, hd, rfl⟩ := List.mem_map.mp hy
    exact hnx d (List.mem_of_mem_tail hd)
  have hblock : ∀ b ∈ B, BlockAt (setNext m (lastAddr E A) (headAddr C)) b := fun b hb =>
    (h.block b hb).congr (setNext_agreeOn m (hs.block_apart_last hb)) (hs.block b hb).1
  refine Parts.rep ⟨?_, hback, ?_, ?_, hblock⟩ (next_setNext_self m hs.headAddr_lt)
  · rcases lastAddr_cases E A with ⟨rfl, hl⟩ | ⟨A', p, rfl, hl⟩
    · exact ⟨_, rfl⟩
    · -- only the last entry's successor changes
      obtain ⟨x, hx⟩ := h.front
      rw [List.map_append, Linked.append_iff] at hx
      have hcut : Clear E (A' ++ [p]) B := hs.sub (List.sublist_append_left _ _) fun b hb => hb
      have hp : ∀ c ∈ A', Extent.Apart ⟨p.addr, chunkSize⟩ c.ext := by
        intro c hc
        have := (List.pairwise_append.mp hcut.asc).2.2 c hc p (by simp)
        right
        simpa only [Chunk.ext, Extent.fin] using this
      have hph : Extent.Apart ⟨p.addr, chunkSize⟩ E.headExt := by
        apply (hcut.chunk p (by simp)).2.1.mono _ (Extent.Within.refl _)
        have := (hcut.chunk p (by simp)).1.size
        simp only [Extent.Within, Chunk.ext, Extent.fin]
        omega
      rw [hl]
      have hfront : Linked (next (setNext m p.addr (headAddr C))) E.mchunk_free_list
          (A'.map Chunk.addr) p.addr := by
        refine Linked.congr hx.1 (header_congr (setNext_agreeOn m hph)).2.1 fun y hy => ?_
        obtain ⟨d, hd, rfl⟩ := List.mem_map.mp hy
        exact next_congr (setNext_agreeOn m (hp d hd)) (hcut.chunk d (by simp [hd])).1
      refine ⟨headAddr C, ?_⟩
      rw [List.map_append, Linked.append_iff]
      exact ⟨hfront, hfront.next_last, next_setNext_self m hs.headAddr_lt⟩
  · rw [← h.head]
    rcases lastAddr_cases E A with ⟨rfl, hl⟩ | ⟨A', p, rfl, hl⟩
    · rw [hl]
      exact load32_store32_of_apart _ _ (by omega)
    · have hph := (hs.chunk p (by simp)).2.1
      have hps := (hs.chunk p (by simp)).1.size
      rw [hl]
      apply load32_store32_of_apart
      simp only [Chunk.ext, Extent.Apart, Extent.fin, chunkSize] at *
      omega
  · intro c hc
    rcases List.mem_append.mp hc with hcA | hcC
    · rcases lastAddr_cases E A with ⟨rfl, hl⟩ | ⟨A', p, rfl, hl⟩
      · simp at hcA
      · rw [hl]
        rcases List.mem_append.mp hcA with hcA' | hcp
        · have hlt : c.addr + c.size ≤ p.addr := by
            have := hs.sub (List.sublist_append_left (A' ++ [p]) C) fun b hb => hb
            exact (List.pairwise_append.mp this.asc).2.2 c hcA' p (by simp)
          apply (h.chunk c hc).congr (setNext_agreeOn m _) (hs.chunk c hc).1
          right
          simpa only [Chunk.ext, Extent.fin] using hlt
        · obtain rfl : c = p := by simpa using hcp
          exact (h.chunk c hc).setNext _
    · exact (h.chunk c hc).congr (hC c hcC) (hs.chunk c hc).1

end Clear

section Walks

variable {E : Layout} {m m' : Mem} {L A M C : List Chunk} {B : List Block} {c d : Chunk} {b : Block}

/-- The address of the last entry but one, or of `_mchunk_free_list`. -/
def prevAddr (E : Layout) (A : List Chunk) : ℕ :=
  (lastTwo 0 E.mchunk_free_list (A.map Chunk.addr)).1

@[simp] theorem prevAddr_concat (E : Layout) (A : List Chunk) (p : Chunk) :
    prevAddr E (A ++ [p]) = lastAddr E A := by
  rw [prevAddr, List.map_append, List.map_singleton, lastTwo_append_singleton]
  rfl

theorem Clear.length_le (h : Clear E L B) : L.length ≤ 2 ^ 32 := by
  rw [← List.length_map (f := Chunk.addr)]
  apply length_le_of_ascending
  · rw [List.pairwise_map]
    refine h.asc.imp_of_mem fun {c d} hc _ hcd => ?_
    have := (h.chunk c hc).1.size
    simp only [chunkSize] at this
    omega
  · intro x hx
    obtain ⟨c, hc, rfl⟩ := List.mem_map.mp hx
    have h1 := h.chunk c hc
    have := h1.1.size
    simp only [chunkSize] at this
    omega

theorem ChunkAt.free_iff (h : ChunkAt m c) :
    Malloc.valid m c.addr = VAL_FREE ↔ c.border = none := by
  rw [h.valid, Chunk.tag]
  by_cases hn : c.border = none
  · simp [hn]
  · simp [hn]

theorem ChunkAt.unique (hc : ChunkAt m c) (hd : ChunkAt m d) (h : c.addr = d.addr) : c = d := by
  have hsize : c.size = d.size := by rw [← hc.size, ← hd.size, h]
  have htag : c.tag = d.tag := by rw [← hc.valid, ← hd.valid, h]
  have hborder : c.border = d.border := by
    cases hcb : c.border with
    | none =>
      by_contra hne
      rw [Chunk.tag, Chunk.tag, if_pos hcb, if_neg fun hdb => hne hdb.symm] at htag
      exact absurd htag (by decide)
    | some a =>
      cases hdb : d.border with
      | none =>
        rw [Chunk.tag, Chunk.tag, if_pos hdb, if_neg (by simp [hcb])] at htag
        exact absurd htag (by decide)
      | some a' => rw [← hc.alloc a hcb, ← hd.alloc a' hdb, h]
  cases c
  cases d
  simp only at h hsize hborder
  rw [h, hsize, hborder]

theorem Rep.unique {L' : List Chunk} {B' : List Block} (h : Rep E m L B) (h' : Rep E m L' B')
    (hs : Clear E L B) (hs' : Clear E L' B') : L = L' := by
  have hnull : ∀ {L : List Chunk} {B : List Block}, Clear E L B → 0 ∉ L.map Chunk.addr := by
    intro L B hs hm
    obtain ⟨c, hc, hz⟩ := List.mem_map.mp hm
    have := (hs.chunk c hc).2.2.1
    omega
  have haddr := h.links.unique h'.links (hnull hs) (hnull hs')
  have hlen : L.length = L'.length := by simpa using congrArg List.length haddr
  refine List.ext_getElem hlen fun i hi hi' => ?_
  apply (h.chunk _ (List.getElem_mem hi)).unique (h'.chunk _ (List.getElem_mem hi'))
  have hget := congrArg (fun l => l[i]?) haddr
  simpa [hi, hi'] using hget

theorem walkFree_spec {f : ℕ → Bool} (h : Rep E m (A ++ C) B) (hs : Clear E (A ++ C) B)
    (hA : ∀ c ∈ A, f c.addr = true) (hC : ∀ c ∈ C.head?, f c.addr = false) :
    walkFree E m f = some (prevAddr E A, lastAddr E A, headAddr C) := by
  have hlen := hs.length_le
  have hlinks : Linked (next m) E.mchunk_free_list (A.map Chunk.addr ++ C.map Chunk.addr) 0 := by
    simpa using h.links
  have hw := walk_eq walkFuel (c := f) (o := 0) hlinks ?_ ?_ ?_ ?_
  · rw [walkFree, hw, prevAddr, lastTwo_snd]
    rfl
  · intro x hx
    obtain ⟨c, hc, rfl⟩ := List.mem_map.mp hx
    have := (hs.chunk c (by simp [hc])).2.2.1
    omega
  · intro x hx
    obtain ⟨c, hc, rfl⟩ := List.mem_map.mp hx
    exact hA c hc
  · intro y hy
    cases C with
    | nil => simp at hy
    | cons c C =>
      obtain rfl : c.addr = y := by simpa using hy
      exact hC c rfl
  · simp only [List.length_append] at hlen
    simp only [List.length_map, walkFuel]
    omega

theorem exists_split (f : Chunk → Bool) (L : List Chunk) :
    ∃ A C, L = A ++ C ∧ (∀ c ∈ A, f c = true) ∧ ∀ c ∈ C.head?, f c = false := by
  refine ⟨L.takeWhile f, L.dropWhile f, (List.takeWhile_append_dropWhile).symm,
    fun c hc => List.all_eq_true.mp List.all_takeWhile c hc, fun c hc => ?_⟩
  have := List.head?_dropWhile_not f L
  rw [Option.mem_def] at hc
  rw [hc] at this
  simpa using this

theorem Clear.split_at (h : Clear E L B) (r : ℕ) :
    ∃ A C, L = A ++ C ∧ (∀ c ∈ A, c.addr < r) ∧ ∀ c ∈ C, r ≤ c.addr := by
  obtain ⟨A, C, rfl, hA, hC⟩ := exists_split (fun c => decide (c.addr < r)) L
  refine ⟨A, C, rfl, fun c hc => by simpa using hA c hc, fun c hc => ?_⟩
  cases C with
  | nil => simp at hc
  | cons d C =>
    have hd : r ≤ d.addr := by simpa using hC d rfl
    rcases List.mem_cons.mp hc with rfl | hc
    · exact hd
    · have := (List.pairwise_cons.mp (List.pairwise_append.mp h.asc).2.1).1 c hc
      omega

theorem walkFree_to {r : ℕ} (h : Rep E m (A ++ C) B) (hs : Clear E (A ++ C) B)
    (hA : ∀ c ∈ A, c.addr < r) (hC : ∀ c ∈ C, r ≤ c.addr) :
    walkFree E m (fun x => decide (x < r)) = some (prevAddr E A, lastAddr E A, headAddr C) := by
  apply walkFree_spec h hs
  · intro c hc
    simpa using hA c hc
  · intro c hc
    simpa using hC c (List.mem_of_mem_head? hc)

theorem Clear.apart_mid (h : Clear E (A ++ M ++ C) B) (hc : c ∈ A ++ C) (hd : d ∈ M) :
    c.ext.Apart d.ext := by
  have hp := h.asc
  rw [List.append_assoc, List.pairwise_append, List.pairwise_append] at hp
  rcases List.mem_append.mp hc with hc | hc
  · exact Or.inl (hp.2.2 c hc d (by simp [hd]))
  · exact Or.inr (hp.2.1.2.2 d hd c hc)

theorem Parts.frame_changes {es : List Extent} (h : Parts E m A C B) (hs : Clear E (A ++ C) B)
    (hch : ChangesIn m m' es) (hhead : ∀ e ∈ es, E.headExt.Apart e)
    (hchunk : ∀ c ∈ A ++ C, ∀ e ∈ es, c.ext.Apart e)
    (hblock : ∀ b ∈ B, ∀ e ∈ es, b.ext.Apart e) : Parts E m' A C B :=
  h.frame (hch.agreeOn hhead)
    (fun c hc => ⟨(hs.chunk c hc).1, hch.agreeOn (hchunk c hc)⟩)
    fun b hb => ⟨(hs.block b hb).1, hch.agreeOn (hblock b hb)⟩

theorem Parts.frame_mid (h : Parts E m A C B) (hs : Clear E (A ++ M ++ C) B)
    (hch : ChangesIn m m' (M.map Chunk.ext)) : Parts E m' A C B := by
  have hsub : Clear E (A ++ C) B := hs.sub (by simp) fun b hb => hb
  have hM : ∀ e ∈ M.map Chunk.ext, ∃ d ∈ M, d.ext = e := fun e he => List.mem_map.mp he
  apply h.frame_changes hsub hch
  · intro e he
    obtain ⟨d, hd, rfl⟩ := hM e he
    exact (hs.chunk d (by simp [hd])).2.1.symm
  · intro c hc e he
    obtain ⟨d, hd, rfl⟩ := hM e he
    exact hs.apart_mid hc hd
  · intro b hb e he
    obtain ⟨d, hd, rfl⟩ := hM e he
    exact (hs.clear d (by simp [hd]) b hb).symm

theorem Rep.frame_changes {es : List Extent} (h : Rep E m L B) (hs : Clear E L B)
    (hch : ChangesIn m m' es) (hhead : ∀ e ∈ es, E.headExt.Apart e)
    (hchunk : ∀ c ∈ L, ∀ e ∈ es, c.ext.Apart e)
    (hblock : ∀ b ∈ B, ∀ e ∈ es, b.ext.Apart e) : Rep E m' L B := by
  have hp : Parts E m [] L B := Rep.parts (A := []) h
  refine Parts.rep (A := []) (hp.frame_changes hs hch hhead hchunk hblock) ?_
  rw [lastAddr_nil, (header_congr (hch.agreeOn hhead)).2.1]
  exact Rep.next_last (A := []) h

theorem Rep.frame_one {e : Extent} (h : Rep E m L B) (hs : Clear E L B)
    (hch : ChangesIn m m' [e]) (hhead : E.headExt.Apart e) (hchunk : ∀ c ∈ L, c.ext.Apart e)
    (hblock : ∀ b ∈ B, b.ext.Apart e) : Rep E m' L B := by
  have hone : ∀ f ∈ [e], f = e := fun f hf => List.mem_singleton.mp hf
  apply h.frame_changes hs hch
  · exact fun f hf => hone f hf ▸ hhead
  · exact fun c hc f hf => hone f hf ▸ hchunk c hc
  · exact fun b hb f hf => hone f hf ▸ hblock b hb

theorem Rep.frame_block {rs : List Extent} {hb st : ℕ} {e : Extent} (h : Rep E m L (b :: B))
    (hg : Geo E rs hb st L (b :: B)) (hch : ChangesIn m m' [e]) (he : e.Within b.ext) :
    Rep E m' L B := by
  apply h.forget.frame_one hg.forget.clearance hch
  · exact ((hg.block b (by simp)).home.head.mono he (Extent.Within.refl _)).symm
  · exact fun c hc => (hg.clear c hc b (by simp)).mono (Extent.Within.refl _) he
  · exact fun a ha =>
      ((List.pairwise_cons.mp hg.apart).1 a ha).symm.mono (Extent.Within.refl _) he

theorem Rep.frame_chunk (h : Rep E m (A ++ C) B) (hs : Clear E (A ++ c :: C) B)
    (hch : ChangesIn m m' [c.ext]) : Rep E m' (A ++ C) B := by
  apply h.frame_one (hs.sub (by simp) fun b hb => hb) hch
  · exact (hs.chunk c (by simp)).2.1.symm
  · intro d hd
    have hsc : Clear E (A ++ [c] ++ C) B := by simpa using hs
    exact hsc.apart_mid hd (by simp)
  · exact fun a ha => (hs.clear c (by simp) a ha).symm

theorem next_last_frame_mid (hs : Clear E (A ++ M ++ C) B)
    (hch : ChangesIn m m' (M.map Chunk.ext)) :
    next m' (lastAddr E A) = next m (lastAddr E A) := by
  apply (header_congr (hch.agreeOn _)).2.1
  intro e he
  obtain ⟨d, hd, rfl⟩ := List.mem_map.mp he
  have hs' : Clear E (A ++ (M ++ C)) B := by simpa using hs
  exact hs'.apart_last (by simp [hd])

end Walks

end Mintlib.Malloc
