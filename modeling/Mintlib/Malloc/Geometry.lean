import Mintlib.Malloc.Model

/-!
# The layout of a heap

The abstract heap is the list of free chunks and border markers, and the list of
blocks in use. `Geo` says how they lie in the address space; each elementary
step of the allocator (a new region, a split, a link, a merge, a hand-back)
keeps it.
-/

namespace Mintlib.Malloc

/-- An entry of the free list: a free chunk, or a border marker with its `ALLOC_SIZE`. -/
structure Chunk where
  addr : ℕ
  size : ℕ
  border : Option ℕ
deriving DecidableEq

/-- A block in use: its chunk, the header that `realloc` and `free` will find in
front of the pointer, the size in that header, whether an aligned allocator wrote
that header, and the bytes asked for. -/
structure Block where
  base : ℕ
  size : ℕ
  hdr : ℕ
  hsize : ℕ
  moved : Bool
  req : ℕ
deriving DecidableEq

namespace Chunk

def ext (c : Chunk) : Extent := ⟨c.addr, c.size⟩

/-- The `valid` field of the entry. -/
def tag (c : Chunk) : ℕ := if c.border = none then VAL_FREE else VAL_BORDER

structure Wf (c : Chunk) : Prop where
  size : chunkSize ≤ c.size
  border : c.border ≠ none → c.size = BORDER_EXTRA

end Chunk

namespace Block

def ext (b : Block) : Extent := ⟨b.base, b.size⟩

def ptr (b : Block) : ℕ := b.hdr + chunkSize

theorem ptr_ne_zero (b : Block) : b.ptr ≠ 0 := by
  simp only [ptr, chunkSize]
  omega

def chunk (b : Block) : Chunk := ⟨b.base, b.size, none⟩

def contents (b : Block) : Extent := ⟨b.ptr, b.req⟩

/-- A block as `malloc` leaves it has one header; the aligned allocators may
write a second one further up, whose size counts no header. -/
structure Wf (b : Block) : Prop where
  size : chunkSize ≤ b.size
  base_le : b.base ≤ b.hdr
  ptr_lt : b.hdr + chunkSize < b.base + b.size
  plain : b.moved = false → b.hdr = b.base ∧ b.hsize = b.size ∧ b.req + chunkSize ≤ b.size
  moved : b.moved = true → b.hdr + chunkSize + b.hsize ≤ b.base + b.size ∧ b.req ≤ b.hsize

theorem Wf.contents_within {b : Block} (h : b.Wf) : b.contents.Within b.ext := by
  have hle := h.base_le
  simp only [Extent.Within, Extent.fin, contents, ptr, ext]
  cases hm : b.moved with
  | false =>
    have := h.plain hm
    omega
  | true =>
    have := h.moved hm
    omega

end Block

/-- `e` lies in one of the regions, behind its border marker. -/
def InBody (rs : List Extent) (e : Extent) : Prop :=
  ∃ R ∈ rs, R.base + BORDER_EXTRA ≤ e.base ∧ e.fin ≤ R.fin

/-- The regions that the system handed out: separate from each other and from the program. -/
structure RegionsWf (E : Layout) (rs : List Extent) : Prop where
  apart : rs.Pairwise Extent.Apart
  tpa : ∀ R ∈ rs, R.Apart E.tpa
  pos : ∀ R ∈ rs, 0 < R.base ∧ 0 < R.len ∧ R.fin ≤ 2 ^ 32

/-- A region that `Malloc` may hand out. -/
def Fresh (E : Layout) (rs : List Extent) (R : Extent) : Prop := RegionsWf E (R :: rs)

/-- Every address of `e` is in the program or in a region that the system handed out. -/
def Owned (E : Layout) (rs : List Extent) (e : Extent) : Prop :=
  ∀ x ∈ e, x ∈ E.tpa ∨ ∃ R ∈ rs, x ∈ R

/-- Where a chunk may lie: off the head of the free list, off the part of our own
heap and stack that is not handed out, and in memory that we own. -/
structure Home (E : Layout) (rs : List Extent) (hb st : ℕ) (e : Extent) : Prop where
  pos : 0 < e.base ∧ e.fin ≤ 2 ^ 32
  head : e.Apart ⟨E.mchunk_free_list, chunkSize⟩
  reserve : hb ≠ 0 → e.Apart ⟨hb, st⟩
  owned : hb ≠ 0 → Owned E rs e
  body : hb = 0 → InBody rs e

/-- A border marker opens a region; a free chunk has its home. -/
structure ChunkOk (E : Layout) (rs : List Extent) (hb st : ℕ) (c : Chunk) : Prop where
  wf : c.Wf
  head : c.ext.Apart ⟨E.mchunk_free_list, chunkSize⟩
  home : c.border = none → Home E rs hb st c.ext
  region : ∀ a ∈ c.border, hb = 0 ∧ (⟨c.addr, BORDER_EXTRA + a⟩ : Extent) ∈ rs

structure BlockOk (E : Layout) (rs : List Extent) (hb st : ℕ) (b : Block) : Prop where
  wf : b.Wf
  home : Home E rs hb st b.ext

structure ReserveOk (E : Layout) (rs : List Extent) (hb st : ℕ) : Prop where
  fin : hb + st < 2 ^ 32
  pos : 0 < st
  head : Extent.Apart ⟨hb, st⟩ ⟨E.mchunk_free_list, chunkSize⟩
  owned : Owned E rs ⟨hb, st⟩

/-- The layout invariant. `hb` and `st` are `_heapbase` and `_stksize`. -/
structure Geo (E : Layout) (rs : List Extent) (hb st : ℕ) (L : List Chunk) (B : List Block) :
    Prop where
  asc : L.Pairwise fun c d => c.addr + c.size ≤ d.addr
  apart : B.Pairwise fun a b => a.ext.Apart b.ext
  clear : ∀ c ∈ L, ∀ b ∈ B, c.ext.Apart b.ext
  chunk : ∀ c ∈ L, ChunkOk E rs hb st c
  block : ∀ b ∈ B, BlockOk E rs hb st b
  regions : RegionsWf E rs
  reserve : hb ≠ 0 → ReserveOk E rs hb st
  borderOf : hb = 0 → ∀ R ∈ rs, ∃ c ∈ L, ∃ a ∈ c.border, R = ⟨c.addr, BORDER_EXTRA + a⟩

theorem RegionsWf.apart_of_ne {E : Layout} {rs : List Extent} (h : RegionsWf E rs) {R S : Extent}
    (hR : R ∈ rs) (hS : S ∈ rs) (hne : R ≠ S) : R.Apart S := by
  have hsymm : Std.Symm Extent.Apart := ⟨fun _ _ hap => hap.symm⟩
  exact h.apart.forall hR hS hne

namespace InBody

theorem mono {rs : List Extent} {e f : Extent} (h : InBody rs f) (hw : e.Within f) :
    InBody rs e := by
  obtain ⟨R, hR, h1, h2⟩ := h
  exact ⟨R, hR, h1.trans hw.1, hw.2.trans h2⟩

theorem cons {rs : List Extent} {e R : Extent} (h : InBody rs e) : InBody (R :: rs) e := by
  obtain ⟨S, hS, h⟩ := h
  exact ⟨S, List.mem_cons_of_mem _ hS, h⟩

theorem join {E : Layout} {rs : List Extent} (hrs : RegionsWf E rs) {e f : Extent}
    (he : InBody rs e) (hf : InBody rs f) (hj : e.fin = f.base) (hpe : 0 < e.len)
    (hpf : 0 < f.len) : InBody rs ⟨e.base, e.len + f.len⟩ := by
  obtain ⟨R, hR, h1, h2⟩ := he
  obtain ⟨S, hS, h3, h4⟩ := hf
  by_cases hRS : R = S
  · subst hRS
    refine ⟨R, hR, h1, ?_⟩
    simp only [Extent.fin] at *
    omega
  · have ha : R.Apart S := hrs.apart.forall hR hS hRS
    simp only [Extent.fin, Extent.Apart, BORDER_EXTRA] at *
    omega

end InBody

namespace Home

variable {E : Layout} {rs : List Extent} {hb st : ℕ} {e f : Extent}

theorem mono (h : Home E rs hb st f) (hw : e.Within f) : Home E rs hb st e where
  pos := by
    have := h.pos
    simp only [Extent.Within, Extent.fin] at *
    omega
  head := h.head.mono hw (Extent.Within.refl _)
  reserve hne := (h.reserve hne).mono hw (Extent.Within.refl _)
  owned hne x hx := h.owned hne x (hw.mem hx)
  body hz := (h.body hz).mono hw

theorem cons (h : Home E rs hb st e) (R : Extent) : Home E (R :: rs) hb st e where
  pos := h.pos
  head := h.head
  reserve := h.reserve
  owned hne x hx := (h.owned hne x hx).imp id fun ⟨S, hS, hxS⟩ =>
    ⟨S, List.mem_cons_of_mem _ hS, hxS⟩
  body hz := (h.body hz).cons

theorem join (hrs : RegionsWf E rs) (he : Home E rs hb st e) (hf : Home E rs hb st f)
    (hj : e.fin = f.base) (hpe : 0 < e.len) (hpf : 0 < f.len) (hst : hb ≠ 0 → 0 < st) :
    Home E rs hb st ⟨e.base, e.len + f.len⟩ where
  pos := by
    have := he.pos
    have := hf.pos
    simp only [Extent.fin] at *
    omega
  head := by
    have h1 := he.head
    have h2 := hf.head
    simp only [Extent.Apart, Extent.fin, chunkSize] at *
    omega
  reserve hne := by
    have h1 := he.reserve hne
    have h2 := hf.reserve hne
    have h3 := hst hne
    simp only [Extent.Apart, Extent.fin] at *
    omega
  owned hne x hx := by
    by_cases hxe : x ∈ e
    · exact he.owned hne x hxe
    · apply hf.owned hne x
      simp only [Extent.mem_iff, Extent.fin] at *
      omega
  body hz := (he.body hz).join hrs (hf.body hz) hj hpe hpf

end Home

theorem Owned.apart_fresh {E : Layout} {rs : List Extent} {e R : Extent} (h : Owned E rs e)
    (hR : Fresh E rs R) (hpos : 0 < e.len) : e.Apart R := by
  by_contra hna
  obtain ⟨x, hxe, hxR⟩ := Extent.exists_common_of_not_apart hna hpos (hR.pos R (by simp)).2.1
  rcases h x hxe with ht | ⟨S, hS, hxS⟩
  · exact (hR.tpa R (by simp)).not_mem hxR ht
  · exact ((List.pairwise_cons.mp hR.apart).1 S hS).not_mem hxR hxS

theorem InBody.owned {rs : List Extent} {e : Extent} (h : InBody rs e) (E : Layout) :
    Owned E rs e := by
  obtain ⟨S, hS, h1, h2⟩ := h
  refine fun x hx => Or.inr ⟨S, hS, ?_⟩
  simp only [Extent.mem_iff, Extent.fin] at *
  omega

theorem Home.all_owned {E : Layout} {rs : List Extent} {hb st : ℕ} {e : Extent}
    (h : Home E rs hb st e) : Owned E rs e := by
  by_cases hz : hb = 0
  · exact (h.body hz).owned E
  · exact h.owned hz

theorem ChunkOk.owned {E : Layout} {rs : List Extent} {hb st : ℕ} {c : Chunk}
    (h : ChunkOk E rs hb st c) : Owned E rs c.ext := by
  cases hc : c.border with
  | none => exact (h.home hc).all_owned
  | some a =>
    have hsz := h.wf.border (by simp [hc])
    refine fun x hx => Or.inr ⟨_, (h.region a hc).2, ?_⟩
    simp only [Extent.mem_iff, Chunk.ext] at *
    omega

namespace Geo

variable {E : Layout} {rs : List Extent} {hb st : ℕ} {L pre post : List Chunk} {B : List Block}
  {b b' : Block} {c d r : Chunk}

theorem perm {B' : List Block} (h : Geo E rs hb st L B) (hp : B.Perm B') :
    Geo E rs hb st L B' where
  asc := h.asc
  apart := (hp.pairwise_iff fun h => h.symm).mp h.apart
  clear c hc b hb' := h.clear c hc b (hp.mem_iff.mpr hb')
  chunk := h.chunk
  block b hb' := h.block b (hp.mem_iff.mpr hb')
  regions := h.regions
  reserve := h.reserve
  borderOf := h.borderOf

theorem forget (h : Geo E rs hb st L (b :: B)) : Geo E rs hb st L B where
  asc := h.asc
  apart := (List.pairwise_cons.mp h.apart).2
  clear c hc b hb' := h.clear c hc b (List.mem_cons_of_mem _ hb')
  chunk := h.chunk
  block b hb' := h.block b (List.mem_cons_of_mem _ hb')
  regions := h.regions
  reserve := h.reserve
  borderOf := h.borderOf

theorem redescribe (h : Geo E rs hb st L (b :: B)) (he : b'.ext = b.ext) (hw : b'.Wf) :
    Geo E rs hb st L (b' :: B) where
  asc := h.asc
  apart := by
    have := List.pairwise_cons.mp h.apart
    exact List.pairwise_cons.mpr ⟨fun a ha => he ▸ this.1 a ha, this.2⟩
  clear c hc a ha := by
    rcases List.mem_cons.mp ha with rfl | ha
    · exact he ▸ h.clear c hc b (by simp)
    · exact h.clear c hc a (List.mem_cons_of_mem _ ha)
  chunk := h.chunk
  block a ha := by
    rcases List.mem_cons.mp ha with rfl | ha
    · exact ⟨hw, he ▸ (h.block b (by simp)).home⟩
    · exact h.block a (List.mem_cons_of_mem _ ha)
  regions := h.regions
  reserve := h.reserve
  borderOf := h.borderOf

theorem asc_around (h : (pre ++ c :: post).Pairwise fun c d : Chunk => c.addr + c.size ≤ d.addr) :
    (∀ x ∈ pre, x.addr + x.size ≤ c.addr) ∧ (∀ y ∈ post, c.addr + c.size ≤ y.addr) := by
  rw [List.pairwise_append, List.pairwise_cons] at h
  exact ⟨fun x hx => h.2.2 x hx c (by simp), h.2.1.1⟩

theorem asc_insert (h : (pre ++ post).Pairwise fun c d : Chunk => c.addr + c.size ≤ d.addr)
    (hpre : ∀ x ∈ pre, x.addr + x.size ≤ c.addr) (hpost : ∀ y ∈ post, c.addr + c.size ≤ y.addr) :
    (pre ++ c :: post).Pairwise fun c d : Chunk => c.addr + c.size ≤ d.addr := by
  rw [List.pairwise_append] at h ⊢
  refine ⟨h.1, List.pairwise_cons.mpr ⟨hpost, h.2.1⟩, fun x hx y hy => ?_⟩
  rcases List.mem_cons.mp hy with rfl | hy
  · exact hpre x hx
  · exact h.2.2 x hx y hy

theorem asc_remove (h : (pre ++ c :: post).Pairwise fun c d : Chunk => c.addr + c.size ≤ d.addr) :
    (pre ++ post).Pairwise fun c d : Chunk => c.addr + c.size ≤ d.addr :=
  h.sublist (List.Sublist.append_left (List.sublist_cons_self c post) pre)

theorem link (h : Geo E rs hb st (pre ++ post) (b :: B)) (hpre : ∀ x ∈ pre, x.addr < b.base)
    (hpost : ∀ y ∈ post, b.base ≤ y.addr) :
    Geo E rs hb st (pre ++ ⟨b.base, b.size, none⟩ :: post) B where
  asc := by
    have hbw := (h.block b (by simp)).wf.size
    apply asc_insert h.asc
    · intro x hx
      have h1 := h.clear x (by simp [hx]) b (by simp)
      have h2 := hpre x hx
      simp only [Chunk.ext, Block.ext, Extent.Apart, Extent.fin, chunkSize] at *
      omega
    · intro y hy
      have h1 := h.clear y (by simp [hy]) b (by simp)
      have h2 := hpost y hy
      have h3 := (h.chunk y (by simp [hy])).wf.size
      simp only [Chunk.ext, Block.ext, Extent.Apart, Extent.fin, chunkSize] at *
      omega
  apart := h.forget.apart
  clear c hc a ha := by
    rcases List.mem_append.mp hc with hc | hc
    · exact h.forget.clear c (by simp [hc]) a ha
    rcases List.mem_cons.mp hc with rfl | hc
    · exact (List.pairwise_cons.mp h.apart).1 a ha
    · exact h.forget.clear c (by simp [hc]) a ha
  chunk c hc := by
    rcases List.mem_append.mp hc with hc | hc
    · exact h.chunk c (by simp [hc])
    rcases List.mem_cons.mp hc with rfl | hc
    · have hk := h.block b (by simp)
      exact ⟨⟨hk.wf.size, by simp⟩, hk.home.head, fun _ => hk.home, by simp⟩
    · exact h.chunk c (by simp [hc])
  block := h.forget.block
  regions := h.regions
  reserve := h.reserve
  borderOf hz R hR := by
    obtain ⟨c, hc, ha⟩ := h.borderOf hz R hR
    exact ⟨c, by simp only [List.mem_append, List.mem_cons] at hc ⊢; tauto, ha⟩

theorem merge (h : Geo E rs hb st (pre ++ c :: d :: post) B) (hc : c.border = none)
    (hd : d.border = none) (hj : c.addr + c.size = d.addr) :
    Geo E rs hb st (pre ++ ⟨c.addr, c.size + d.size, none⟩ :: post) B := by
  have hkc := h.chunk c (by simp)
  have hkd := h.chunk d (by simp)
  have hsc := hkc.wf.size
  have hsd := hkd.wf.size
  have hac := asc_around h.asc
  have hdp : (pre ++ [c] ++ d :: post).Pairwise fun c d : Chunk => c.addr + c.size ≤ d.addr := by
    simpa using h.asc
  have had := asc_around hdp
  refine ⟨?_, h.apart, ?_, ?_, h.block, h.regions, h.reserve, ?_⟩
  · apply asc_insert (asc_remove (by simpa using asc_remove h.asc))
    · exact hac.1
    · intro y hy
      have := had.2 y hy
      simp only
      omega
  · intro x hx a ha
    rcases List.mem_append.mp hx with hx | hx
    · exact h.clear x (by simp [hx]) a ha
    rcases List.mem_cons.mp hx with rfl | hx
    · have h1 := h.clear c (by simp) a ha
      have h2 := h.clear d (by simp) a ha
      have h3 := (h.block a ha).wf.size
      simp only [Chunk.ext, Block.ext, Extent.Apart, Extent.fin, chunkSize] at *
      omega
    · exact h.clear x (by simp [hx]) a ha
  · intro x hx
    rcases List.mem_append.mp hx with hx | hx
    · exact h.chunk x (by simp [hx])
    rcases List.mem_cons.mp hx with rfl | hx
    · have hm : Home E rs hb st ⟨c.addr, c.size + d.size⟩ :=
        Home.join h.regions (hkc.home hc) (hkd.home hd) hj
          (by simp only [Chunk.ext, chunkSize] at *; omega)
          (by simp only [Chunk.ext, chunkSize] at *; omega) fun hne => (h.reserve hne).pos
      exact ⟨⟨by simp only [chunkSize] at *; omega, by simp⟩, hm.head, fun _ => hm, by simp⟩
    · exact h.chunk x (by simp [hx])
  · intro hz R hR
    obtain ⟨x, hx, a, ha, hxR⟩ := h.borderOf hz R hR
    refine ⟨x, ?_, a, ha, hxR⟩
    simp only [List.mem_append, List.mem_cons] at hx ⊢
    rcases hx with hx | rfl | rfl | hx
    · exact Or.inl hx
    · simp [hc] at ha
    · simp [hd] at ha
    · exact Or.inr (Or.inr hx)

/-- `malloc` takes `b` from the end of the free chunk `c` and leaves the rest, `d`, free. -/
theorem split (h : Geo E rs hb st (pre ++ c :: post) B) (hc : c.border = none)
    (hd : d = ⟨c.addr, d.size, none⟩) (hds : chunkSize ≤ d.size)
    (hbase : b.base = c.addr + d.size) (hsize : d.size + b.size = c.size) (hbw : b.Wf) :
    Geo E rs hb st (pre ++ d :: post) (b :: B) := by
  have hkc := h.chunk c (by simp)
  have hac := asc_around h.asc
  have hbs := hbw.size
  have hdw : d.ext.Within c.ext := by
    rw [hd]
    simp only [Extent.Within, Extent.fin, Chunk.ext]
    omega
  have hbc : b.ext.Within c.ext := by
    simp only [Extent.Within, Extent.fin, Chunk.ext, Block.ext]
    omega
  have hda : d.addr = c.addr := by rw [hd]
  -- order, blocks apart, chunks off the blocks, homes of chunks and of blocks, borders
  refine ⟨?_, ?_, ?_, ?_, ?_, h.regions, h.reserve, ?_⟩
  · apply asc_insert (asc_remove h.asc)
    · intro x hx
      have := hac.1 x hx
      omega
    · intro y hy
      have := hac.2 y hy
      omega
  · refine List.pairwise_cons.mpr ⟨fun a ha => ?_, h.apart⟩
    exact (h.clear c (by simp) a ha).mono hbc (Extent.Within.refl _)
  · intro x hx a ha
    rcases List.mem_append.mp hx with hx | hx
    · rcases List.mem_cons.mp ha with rfl | ha
      · have := hac.1 x hx
        simp only [Chunk.ext, Block.ext, Extent.Apart, Extent.fin]
        omega
      · exact h.clear x (by simp [hx]) a ha
    rcases List.mem_cons.mp hx with rfl | hx
    · rcases List.mem_cons.mp ha with rfl | ha
      · simp only [Chunk.ext, Block.ext, Extent.Apart, Extent.fin]
        omega
      · exact (h.clear c (by simp) a ha).mono hdw (Extent.Within.refl _)
    · rcases List.mem_cons.mp ha with rfl | ha
      · have := hac.2 x hx
        simp only [Chunk.ext, Block.ext, Extent.Apart, Extent.fin]
        omega
      · exact h.clear x (by simp [hx]) a ha
  · intro x hx
    rcases List.mem_append.mp hx with hx | hx
    · exact h.chunk x (by simp [hx])
    rcases List.mem_cons.mp hx with rfl | hx
    · have hm := (hkc.home hc).mono hdw
      have hn : x.border = none := by rw [hd]
      exact ⟨⟨hds, by simp [hn]⟩, hm.head, fun _ => hm, by simp [hn]⟩
    · exact h.chunk x (by simp [hx])
  · intro a ha
    rcases List.mem_cons.mp ha with rfl | ha
    · exact ⟨hbw, (hkc.home hc).mono hbc⟩
    · exact h.block a ha
  · intro hz R hR
    obtain ⟨x, hx, a, ha, hxR⟩ := h.borderOf hz R hR
    refine ⟨x, ?_, a, ha, hxR⟩
    simp only [List.mem_append, List.mem_cons] at hx ⊢
    rcases hx with hx | rfl | hx
    · exact Or.inl hx
    · simp [hc] at ha
    · exact Or.inr (Or.inr hx)

theorem take (h : Geo E rs hb st (pre ++ c :: post) B) (hc : c.border = none)
    (he : b.ext = c.ext) (hbw : b.Wf) : Geo E rs hb st (pre ++ post) (b :: B) := by
  have hsub : ∀ x ∈ pre ++ post, x ∈ pre ++ c :: post := by
    intro x hx
    simp only [List.mem_append, List.mem_cons] at hx ⊢
    tauto
  have hac := asc_around h.asc
  refine ⟨asc_remove h.asc, ?_, ?_, fun x hx => h.chunk x (hsub x hx), ?_, h.regions, h.reserve, ?_⟩
  · exact List.pairwise_cons.mpr ⟨fun a ha => he ▸ h.clear c (by simp) a ha, h.apart⟩
  · intro x hx a ha
    rcases List.mem_cons.mp ha with rfl | ha
    · rw [he]
      rcases List.mem_append.mp hx with hx | hx
      · exact Or.inl (hac.1 x hx)
      · exact Or.inr (hac.2 x hx)
    · exact h.clear x (hsub x hx) a ha
  · intro a ha
    rcases List.mem_cons.mp ha with rfl | ha
    · exact ⟨hbw, he ▸ (h.chunk c (by simp)).home hc⟩
    · exact h.block a ha
  · intro hz R hR
    obtain ⟨x, hx, a, ha, hxR⟩ := h.borderOf hz R hR
    refine ⟨x, ?_, a, ha, hxR⟩
    simp only [List.mem_append, List.mem_cons] at hx ⊢
    rcases hx with hx | rfl | hx
    · exact Or.inl hx
    · simp [hc] at ha
    · exact Or.inr hx

theorem absorb (h : Geo E rs hb st (pre ++ c :: post) (b :: B)) (hc : c.border = none)
    (hj : b.base + b.size = c.addr) (he : b'.ext = ⟨b.base, b.size + c.size⟩) (hw : b'.Wf) :
    Geo E rs hb st (pre ++ post) (b' :: B) := by
  have hsb := (h.block b (by simp)).wf.size
  have hkc := h.chunk c (by simp)
  have hsc := hkc.wf.size
  have hlink : Geo E rs hb st (pre ++ ⟨b.base, b.size, none⟩ :: c :: post) B := by
    have hac := asc_around h.asc
    apply h.link
    · intro x hx
      have h1 := h.clear x (by simp [hx]) b (by simp)
      have h2 := hac.1 x hx
      have h3 := (h.chunk x (by simp [hx])).wf.size
      simp only [Chunk.ext, Block.ext, Extent.Apart, Extent.fin, chunkSize] at *
      omega
    · intro y hy
      rcases List.mem_cons.mp hy with rfl | hy
      · omega
      · have := hac.2 y hy
        omega
  exact (hlink.merge rfl hc hj).take rfl he hw

theorem shrink_reserve {e : Extent} {sz : ℕ} (h : Home E rs hb st e) (hne : hb ≠ 0)
    (hsz : sz < st) : Home E rs (hb + sz) (st - sz) e where
  pos := h.pos
  head := h.head
  reserve _ := (h.reserve hne).mono (Extent.Within.refl _) (by
    simp only [Extent.Within, Extent.fin]
    omega)
  owned _ := h.owned hne
  body hz := by omega

theorem heapAlloc {sz : ℕ} (h : Geo E rs hb st (pre ++ post) B) (hne : hb ≠ 0) (hsz : sz < st)
    (h12 : chunkSize ≤ sz) (hpre : ∀ x ∈ pre, x.addr < hb) (hpost : ∀ y ∈ post, hb ≤ y.addr) :
    Geo E rs (hb + sz) (st - sz) (pre ++ ⟨hb, sz, none⟩ :: post) B := by
  have hres := h.reserve hne
  have hfin := hres.fin
  have hin : Extent.Within ⟨hb, sz⟩ ⟨hb, st⟩ := by
    simp only [Extent.Within, Extent.fin]
    omega
  have hout : Extent.Within ⟨hb + sz, st - sz⟩ ⟨hb, st⟩ := by
    simp only [Extent.Within, Extent.fin]
    omega
  have hnone : ∀ x ∈ pre ++ post, x.border = none := by
    intro x hx
    by_contra hn
    obtain ⟨a, ha⟩ := Option.ne_none_iff_exists'.mp hn
    exact hne ((h.chunk x hx).region a ha).1
  have hsep : ∀ x ∈ pre ++ post, x.ext.Apart ⟨hb, st⟩ := fun x hx =>
    ((h.chunk x hx).home (hnone x hx)).reserve hne
  -- the order, the new chunk off the blocks, the homes of chunks and of blocks, the rest of the
  -- stack
  refine ⟨?_, h.apart, ?_, ?_, ?_, h.regions, ?_, fun hz => by omega⟩
  · apply asc_insert h.asc
    · intro x hx
      have h1 := hsep x (by simp [hx])
      have h2 := hpre x hx
      simp only [Chunk.ext, Extent.Apart, Extent.fin] at *
      omega
    · intro y hy
      have h1 := hsep y (by simp [hy])
      have h2 := hpost y hy
      have h3 := (h.chunk y (by simp [hy])).wf.size
      simp only [Chunk.ext, Extent.Apart, Extent.fin, chunkSize] at *
      omega
  · intro x hx a ha
    rcases List.mem_append.mp hx with hx | hx
    · exact h.clear x (by simp [hx]) a ha
    rcases List.mem_cons.mp hx with rfl | hx
    · exact (((h.block a ha).home.reserve hne).mono (Extent.Within.refl _) hin).symm
    · exact h.clear x (by simp [hx]) a ha
  · have hold : ∀ x ∈ pre ++ post, ChunkOk E rs (hb + sz) (st - sz) x := by
      intro x hx
      have hk := h.chunk x hx
      have hn := hnone x hx
      refine ⟨hk.wf, hk.head, fun _ => shrink_reserve (hk.home hn) hne hsz, ?_⟩
      simp [hn]
    intro x hx
    rcases List.mem_append.mp hx with hx | hx
    · exact hold x (by simp [hx])
    rcases List.mem_cons.mp hx with rfl | hx
    · refine ⟨⟨h12, by simp⟩, ?_, fun _ => ?_, by simp⟩
      · exact hres.head.mono hin (Extent.Within.refl _)
      · refine ⟨?_, hres.head.mono hin (Extent.Within.refl _), fun _ => ?_,
          fun _ x hx => hres.owned x (hin.mem hx), fun hz => by omega⟩
        · simp only [Chunk.ext, Extent.fin]
          omega
        · simp only [Chunk.ext, Extent.Apart, Extent.fin]
          omega
    · exact hold x (by simp [hx])
  · intro a ha
    have hk := h.block a ha
    exact ⟨hk.wf, shrink_reserve hk.home hne hsz⟩
  · intro _
    exact ⟨by omega, by omega, hres.head.mono hout (Extent.Within.refl _),
      fun x hx => hres.owned x (hout.mem hx)⟩

theorem toHeap (h : Geo E rs hb st (pre ++ r :: post) B) (hne : hb ≠ 0) (hr : r.border = none)
    (hj : r.addr + r.size = hb) : Geo E rs r.addr (st + r.size) (pre ++ post) B := by
  have hres := h.reserve hne
  have hfin := hres.fin
  have hpos := hres.pos
  have hkr := h.chunk r (by simp)
  have hhr := hkr.home hr
  have hr0 : r.addr ≠ 0 := by
    have := hhr.pos.1
    simp only [Chunk.ext] at this
    omega
  have hrs := hkr.wf.size
  have hac := asc_around h.asc
  have hsub : ∀ x ∈ pre ++ post, x ∈ pre ++ r :: post := by
    intro x hx
    simp only [List.mem_append, List.mem_cons] at hx ⊢
    tauto
  have hnone : ∀ x ∈ pre ++ post, x.border = none := by
    intro x hx
    by_contra hn
    obtain ⟨a, ha⟩ := Option.ne_none_iff_exists'.mp hn
    exact hne ((h.chunk x (hsub x hx)).region a ha).1
  -- what is off `r` and off the old reserve is off the new one
  have hwiden : ∀ e : Extent, e.Apart r.ext → e.Apart ⟨hb, st⟩ → 0 < e.len →
      e.Apart ⟨r.addr, st + r.size⟩ := by
    intro e h1 h2 h3
    simp only [Chunk.ext, Extent.Apart, Extent.fin, chunkSize] at *
    omega
  have hhome : ∀ e : Extent, Home E rs hb st e → e.Apart r.ext → 0 < e.len →
      Home E rs r.addr (st + r.size) e := by
    intro e he h1 h2
    exact ⟨he.pos, he.head, fun _ => hwiden e h1 (he.reserve hne) h2, fun _ => he.owned hne,
      fun hz => absurd hz hr0⟩
  refine ⟨asc_remove h.asc, h.apart, fun x hx => h.clear x (hsub x hx), ?_, ?_, h.regions, ?_,
    fun hz => absurd hz hr0⟩
  · intro x hx
    have hk := h.chunk x (hsub x hx)
    have hn := hnone x hx
    have hap : x.ext.Apart r.ext := by
      rcases List.mem_append.mp hx with hx | hx
      · exact Or.inl (hac.1 x hx)
      · exact Or.inr (hac.2 x hx)
    have hlen : 0 < x.ext.len := Nat.lt_of_lt_of_le (by decide) hk.wf.size
    exact ⟨hk.wf, hk.head, fun _ => hhome _ (hk.home hn) hap hlen, by simp [hn]⟩
  · intro a ha
    have hk := h.block a ha
    have hlen : 0 < a.ext.len := Nat.lt_of_lt_of_le (by decide) hk.wf.size
    exact ⟨hk.wf, hhome _ hk.home (h.clear r (by simp) a ha).symm hlen⟩
  · intro _
    refine ⟨by omega, by omega, ?_, ?_⟩
    · have h1 := hres.head
      have h2 := hkr.head
      simp only [Chunk.ext, Extent.Apart, Extent.fin, chunkSize] at *
      omega
    · intro x hx
      by_cases hxr : x ∈ r.ext
      · exact hhr.owned hne x hxr
      · apply hres.owned x
        simp only [Chunk.ext, Extent.mem_iff] at *
        omega

end Geo

end Mintlib.Malloc
