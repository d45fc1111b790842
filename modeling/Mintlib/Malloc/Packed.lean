import Mintlib.Malloc.Allocate

/-!
# Packed regions

Without a heap of our own, the regions from the system are tiled by free chunks
and blocks, and no two free chunks touch. Then a region without a block is one
free chunk behind its border marker, which is what `free` looks for when it hands
a region back. `Tight` adds that every region holds a block.
-/

namespace Mintlib.Malloc

open ByteMemory

/-- Every byte behind a border marker is in a free chunk or in a block. -/
def Tiled (rs : List Extent) (L : List Chunk) (B : List Block) : Prop :=
  ∀ R ∈ rs, ∀ x, R.base + BORDER_EXTRA ≤ x → x < R.fin →
    (∃ c ∈ L, c.border = none ∧ x ∈ c.ext) ∨ ∃ b ∈ B, x ∈ b.ext

structure Packed (rs : List Extent) (L : List Chunk) (B : List Block) : Prop where
  room : ∀ R ∈ rs, BORDER_EXTRA < R.len
  tiled : Tiled rs L B
  merged : ∀ c ∈ L, ∀ d ∈ L, c.border = none → d.border = none → c.addr + c.size ≠ d.addr

def Used (rs : List Extent) (B : List Block) : Prop := ∀ R ∈ rs, ∃ b ∈ B, b.ext.Within R

section Abstract

variable {E : Layout} {rs : List Extent} {st : ℕ} {L L' A C : List Chunk} {B B' : List Block}
  {b : Block} {c d o r : Chunk} {R : Extent} {x n : ℕ}

theorem InBody.of_mem {e : Extent} (hrs : RegionsWf E rs) (he : InBody rs e) (hR : R ∈ rs)
    (hx : x ∈ e) (hxR : x ∈ R) : R.base + BORDER_EXTRA ≤ e.base ∧ e.fin ≤ R.fin := by
  obtain ⟨S, hS, h1, h2⟩ := he
  by_cases hne : S = R
  · subst hne
    exact ⟨h1, h2⟩
  · have hap := hrs.apart.forall hS hR hne
    refine absurd hxR (hap.not_mem ?_)
    simp only [Extent.mem_iff, Extent.fin] at *
    omega

theorem Geo.chunk_body (hg : Geo E rs 0 st L B) (hc : c ∈ L) (hn : c.border = none) (hR : R ∈ rs)
    (hx : x ∈ c.ext) (hxR : x ∈ R) :
    R.base + BORDER_EXTRA ≤ c.addr ∧ c.addr + c.size ≤ R.fin :=
  (((hg.chunk c hc).home hn).body rfl).of_mem hg.regions hR hx hxR

theorem Geo.block_body (hg : Geo E rs 0 st L B) (hb : b ∈ B) (hR : R ∈ rs) (hx : x ∈ b.ext)
    (hxR : x ∈ R) : b.ext.Within R := by
  have h := ((hg.block b hb).home.body rfl).of_mem hg.regions hR hx hxR
  simp only [Extent.Within]
  omega

theorem Geo.apart_chunks {hb : ℕ} (hg : Geo E rs hb st L B) (hc : c ∈ L) (hd : d ∈ L)
    (hne : c ≠ d) : c.ext.Apart d.ext := by
  have hsymm : Std.Symm fun c d : Chunk => c.ext.Apart d.ext := ⟨fun _ _ h => h.symm⟩
  have hap : L.Pairwise fun c d => c.ext.Apart d.ext := hg.asc.imp fun h => Or.inl h
  exact hap.forall hc hd hne

theorem Geo.chunk_unique {hb : ℕ} (hg : Geo E rs hb st L B) (hc : c ∈ L) (hd : d ∈ L)
    (hx : x ∈ c.ext) (hxd : x ∈ d.ext) : c = d := by
  by_contra hne
  exact (hg.apart_chunks hc hd hne).not_mem hx hxd

theorem Geo.size_pos {hb : ℕ} (hg : Geo E rs hb st L B) (hc : c ∈ L) : 0 < c.size :=
  Nat.lt_of_lt_of_le (by decide) (hg.chunk c hc).wf.size

theorem Geo.eq_of_fin {hb : ℕ} (hg : Geo E rs hb st L B) (hc : c ∈ L) (hd : d ∈ L)
    (h : c.addr + c.size = d.addr + d.size) : c = d := by
  have hcs := hg.size_pos hc
  have hds := hg.size_pos hd
  apply hg.chunk_unique (x := c.addr + c.size - 1) hc hd
  all_goals
    rw [Extent.mem_iff]
    simp only [Chunk.ext]
    omega

theorem Packed.filled (hp : Packed rs L B) (hg : Geo E rs 0 st L B) (hR : R ∈ rs)
    (hnone : ∀ b ∈ B, ¬ b.ext.Within R) (hd : d ∈ L) (hdn : d.border = none) (hx : x ∈ d.ext)
    (hxR : x ∈ R) : ∃ o ∈ L, o.border = some d.size ∧ o.addr + o.size = d.addr ∧ o.addr = R.base := by
  have hds := hg.size_pos hd
  obtain ⟨hlo, hhi⟩ := hg.chunk_body hd hdn hR hx hxR
  simp only [Extent.fin] at hhi
  -- a byte of the body is in a free chunk, since the region holds no block
  have hfree : ∀ y, R.base + BORDER_EXTRA ≤ y → y < R.fin →
      ∃ c ∈ L, c.border = none ∧ y ∈ c.ext := by
    intro y h1 h2
    rcases hp.tiled R hR y h1 h2 with hc | ⟨b, hb, hy⟩
    · exact hc
    · refine absurd (hg.block_body hb hR hy ?_) (hnone b hb)
      rw [Extent.mem_iff]
      exact ⟨by omega, h2⟩
  have hleft : d.addr = R.base + BORDER_EXTRA := by
    by_contra hne
    obtain ⟨c, hc, hcn, hy⟩ := hfree (d.addr - 1) (by omega) (by simp only [Extent.fin]; omega)
    have hcd : c ≠ d := by
      rintro rfl
      simp only [Extent.mem_iff, Chunk.ext] at hy
      omega
    refine hp.merged c hc d hd hcn hdn ?_
    have := hg.apart_chunks hc hd hcd
    simp only [Extent.mem_iff, Extent.Apart, Extent.fin, Chunk.ext] at *
    omega
  have hright : d.addr + d.size = R.base + R.len := by
    by_contra hne
    obtain ⟨c, hc, hcn, hy⟩ := hfree (d.addr + d.size) (by omega) (by simp only [Extent.fin]; omega)
    have hcd : c ≠ d := by
      rintro rfl
      simp only [Extent.mem_iff, Chunk.ext] at hy
      omega
    refine hp.merged d hd c hc hdn hcn ?_
    have := hg.apart_chunks hc hd hcd
    simp only [Extent.mem_iff, Extent.Apart, Extent.fin, Chunk.ext] at *
    omega
  obtain ⟨o, ho, a, ha, rfl⟩ := hg.borderOf rfl R hR
  have hos := (hg.chunk o ho).wf.border (by rintro hn; simp [hn] at ha)
  have ha' : o.border = some a := ha
  simp only at hleft hright
  refine ⟨o, ho, ?_, by omega, rfl⟩
  rw [ha']
  congr 1
  omega

theorem Supplied.packed {rs' : List Extent} {hb' st' : ℕ}
    (hsup : Supplied E rs 0 st L rs' hb' st' L') (hp : Packed rs L B) (hg : Geo E rs 0 st L B) :
    hb' = 0 ∧ Packed rs' L' B := by
  have hg' := hsup.geo hg
  cases hsup with
  | nothing => exact ⟨rfl, hp⟩
  | @region A C q sz hz hL hq hsz hA hC =>
    refine ⟨rfl, ?_, ?_, ?_⟩
    · intro R hR
      rcases List.mem_cons.mp hR with rfl | hR
      · simp only [chunkSize] at *
        omega
      · exact hp.room R hR
    · intro R hR x h1 h2
      rcases List.mem_cons.mp hR with rfl | hR
      · refine Or.inl ⟨⟨q + BORDER_EXTRA, sz - BORDER_EXTRA, none⟩, by simp, rfl, ?_⟩
        rw [Extent.mem_iff]
        simp only [Chunk.ext, Extent.fin] at *
        omega
      · rcases hp.tiled R hR x h1 h2 with ⟨c, hc, hcx⟩ | hb
        · refine Or.inl ⟨c, ?_, hcx⟩
          rw [hL] at hc
          exact mem_around [_, _] hc
        · exact Or.inr hb
    · intro c hc d hd hcn hdn hj
      set f : Chunk := ⟨q + BORDER_EXTRA, sz - BORDER_EXTRA, none⟩ with hf
      set o : Chunk := ⟨q, BORDER_EXTRA, some (sz - BORDER_EXTRA)⟩ with ho
      have hcases : ∀ c ∈ A ++ o :: f :: C, c.border = none → c = f ∨ c ∈ L := by
        intro c hc hn
        rw [hL]
        rcases List.mem_append.mp hc with hc | hc
        · exact Or.inr (by simp [hc])
        rcases List.mem_cons.mp hc with rfl | hc
        · simp [ho] at hn
        rcases List.mem_cons.mp hc with rfl | hc
        · exact Or.inl rfl
        · exact Or.inr (by simp [hc])
      -- a free chunk of an older region cannot touch the new region
      have hapart : ∀ c ∈ L, c.border = none → c.addr ≠ q + sz ∧ c.addr + c.size ≠ q + BORDER_EXTRA := by
        intro c hc hn
        have hcq := hg.chunk_apart_fresh hq hc
        have hcs := hg.size_pos hc
        obtain ⟨S, hS, h1, h2⟩ := ((hg.chunk c hc).home hn).body rfl
        have hSq := (List.pairwise_cons.mp hq.apart).1 S hS
        simp only [Extent.Apart, Extent.fin, Chunk.ext, BORDER_EXTRA, chunkSize] at *
        omega
      rcases hcases c hc hcn with rfl | hcL <;> rcases hcases d hd hdn with rfl | hdL
      · have := hg'.size_pos hc
        omega
      · have := (hapart d hdL hdn).1
        simp only [hf] at hj
        omega
      · exact (hapart c hcL hcn).2 hj
      · exact hp.merged c hcL d hdL hcn hdn hj
  | chunk hne _ _ _ _ _ => exact absurd rfl hne
  | heap hne _ _ _ _ _ => exact absurd rfl hne

theorem Carved.packed {e : Extent} (h : Carved n L e L') (he : b.ext = e) (hp : Packed rs L B)
    (hg : Geo E rs 0 st L B) (hn : 0 < n) : Packed rs L' (b :: B) := by
  refine ⟨hp.room, ?_, ?_⟩
  · intro R hR x h1 h2
    -- what a chunk has covered is covered by the chunk and the block it is cut into
    rcases hp.tiled R hR x h1 h2 with ⟨c, hc, hcn, hx⟩ | ⟨a, ha, hx⟩
    · cases h with
      | @split A C d hd hdn =>
        rcases List.mem_append.mp hc with hc | hc
        · exact Or.inl ⟨c, by simp [hc], hcn, hx⟩
        rcases List.mem_cons.mp hc with rfl | hc
        · simp only [Extent.mem_iff, Chunk.ext] at hx
          by_cases hlt : x < c.addr + (c.size - n)
          · exact Or.inl ⟨⟨c.addr, c.size - n, none⟩, by simp, rfl, by
              rw [Extent.mem_iff]
              exact ⟨hx.1, hlt⟩⟩
          · refine Or.inr ⟨b, by simp, ?_⟩
            rw [he, Extent.mem_iff]
            simp only
            omega
        · exact Or.inl ⟨c, by simp [hc], hcn, hx⟩
      | @take A C d hd hdn hle =>
        rcases List.mem_append.mp hc with hc | hc
        · exact Or.inl ⟨c, by simp [hc], hcn, hx⟩
        rcases List.mem_cons.mp hc with rfl | hc
        · exact Or.inr ⟨b, by simp, by rw [he]; exact hx⟩
        · exact Or.inl ⟨c, by simp [hc], hcn, hx⟩
    · exact Or.inr ⟨a, by simp [ha], hx⟩
  · cases h with
    | @split A C d hd hdn =>
      set d' : Chunk := ⟨d.addr, d.size - n, none⟩ with hd'
      have hdL : d ∈ A ++ d :: C := by simp
      -- a chunk that became shorter ends in front of the block, where no free chunk begins
      have hcases : ∀ c ∈ A ++ d' :: C, c = d' ∨ (c ∈ A ++ d :: C ∧ c ≠ d) := by
        intro c hc
        have hne : c ∈ A ++ C → c ≠ d := by
          intro hcAC heq
          have hac := Geo.asc_around hg.asc
          have hds := hg.size_pos hdL
          rcases List.mem_append.mp hcAC with h | h
          · have := hac.1 c h
            subst heq
            omega
          · have := hac.2 c h
            subst heq
            omega
        rcases List.mem_append.mp hc with hc | hc
        · exact Or.inr ⟨by simp [hc], hne (by simp [hc])⟩
        rcases List.mem_cons.mp hc with rfl | hc
        · exact Or.inl rfl
        · exact Or.inr ⟨by simp [hc], hne (by simp [hc])⟩
      intro c hc k hk hcn hkn hj
      rcases hcases c hc with rfl | ⟨hcL, hcd⟩ <;> rcases hcases k hk with rfl | ⟨hkL, hkd⟩
      · simp only [hd'] at hj
        simp only [chunkSize] at hdn
        omega
      · have h1 := hg.apart_chunks hdL hkL (Ne.symm hkd)
        have h2 := hg.size_pos hkL
        simp only [hd', Extent.Apart, Extent.fin, Chunk.ext, chunkSize] at *
        omega
      · exact hp.merged c hcL d hdL hcn hd hj
      · exact hp.merged c hcL k hkL hcn hkn hj
    | @take A C d hd hdn hle =>
      intro c hc k hk
      exact hp.merged c (mem_around [d] hc) k (mem_around [d] hk)

theorem Geo.order (hg : Geo E rs 0 st (A ++ r :: C) B) :
    (∀ x ∈ A, x.addr + x.size ≤ r.addr) ∧ ∀ y ∈ C, r.addr + r.size ≤ y.addr :=
  Geo.asc_around hg.asc

theorem absorbUp_packed (hp : Packed rs (A ++ C) (b :: B)) (hg : Geo E rs 0 st (A ++ C) (b :: B))
    (hA : ∀ x ∈ A, x.addr < b.base) (hC : ∀ x ∈ C, b.base ≤ x.addr) :
    Tiled rs (A ++ (absorbUp b.chunk C).1 :: (absorbUp b.chunk C).2) B ∧
    ∀ c ∈ A ++ (absorbUp b.chunk C).1 :: (absorbUp b.chunk C).2,
      ∀ d ∈ A ++ (absorbUp b.chunk C).1 :: (absorbUp b.chunk C).2, c.border = none →
      d.border = none → c.addr + c.size = d.addr → d = (absorbUp b.chunk C).1 ∧ c ∈ A := by
  have hlink : Geo E rs 0 st (A ++ b.chunk :: C) B := hg.link hA hC
  obtain ⟨hg', hnone, -⟩ := absorbUp_geo hlink rfl
  have hord := hlink.order
  -- what the freed chunk covers, and what stays
  have hcover : ∀ x, x ∈ b.ext → x ∈ (absorbUp b.chunk C).1.ext :=
    fun x hx => absorbUp_covers (r := b.chunk) hx
  have hstay : ∀ c ∈ C, c ∈ (absorbUp b.chunk C).2 ∨
      ∀ x ∈ c.ext, x ∈ (absorbUp b.chunk C).1.ext := by
    intro c hc
    cases C with
    | nil => simp at hc
    | cons d C =>
      rw [absorbUp]
      split_ifs with h
      · rcases List.mem_cons.mp hc with rfl | hc
        · right
          intro x hx
          have := h.2
          simp only [Extent.mem_iff, Chunk.ext, Block.chunk] at *
          omega
        · exact Or.inl hc
      · exact Or.inl hc
  have hafter : ∀ d ∈ (absorbUp b.chunk C).2, d.border = none →
      (absorbUp b.chunk C).1.addr + (absorbUp b.chunk C).1.size ≠ d.addr := by
    intro d hd hdn
    cases C with
    | nil => simp [absorbUp] at hd
    | cons c C =>
      have hcC := hord.2 c (by simp)
      rw [absorbUp] at hd ⊢
      split_ifs at hd ⊢ with h
      · have := hp.merged c (by simp) d (by simp [hd]) h.1 hdn
        have := h.2
        simp only [Block.chunk] at *
        omega
      · intro hj
        rcases List.mem_cons.mp hd with rfl | hd
        · exact h ⟨hdn, hj⟩
        · have hcs := hg.size_pos (c := c) (by simp)
          have hcd := hg.order.2 d hd
          simp only at hj
          omega
  set r := (absorbUp b.chunk C).1 with hr
  set C' := (absorbUp b.chunk C).2 with hC'
  have hsub : ∀ c ∈ C', c ∈ C := fun c hc => absorbUp_subset hc
  have hord' := hg'.order
  have hrs := hg'.size_pos (c := r) (by simp)
  constructor
  · intro R hR x h1 h2
    rcases hp.tiled R hR x h1 h2 with ⟨c, hc, hcn, hx⟩ | ⟨a, ha, hx⟩
    · rcases List.mem_append.mp hc with hc | hc
      · exact Or.inl ⟨c, by simp [hc], hcn, hx⟩
      · rcases hstay c hc with hc' | hc'
        · exact Or.inl ⟨c, by simp [hc'], hcn, hx⟩
        · exact Or.inl ⟨r, by simp, hnone, hc' x hx⟩
    · rcases List.mem_cons.mp ha with rfl | ha
      · exact Or.inl ⟨r, by simp, hnone, hcover x hx⟩
      · exact Or.inr ⟨a, ha, hx⟩
  · intro c hc d hd hcn hdn hj
    have hcs := hg'.size_pos hc
    have hold : ∀ c ∈ A ++ r :: C', c = r ∨ c ∈ A ++ C := by
      intro c hc
      rcases List.mem_append.mp hc with hc | hc
      · exact Or.inr (by simp [hc])
      rcases List.mem_cons.mp hc with rfl | hc
      · exact Or.inl rfl
      · exact Or.inr (by simp [hsub c hc])
    rcases hold d hd with rfl | hdL
    · refine ⟨rfl, ?_⟩
      rcases List.mem_append.mp hc with hc | hc
      · exact hc
      rcases List.mem_cons.mp hc with rfl | hc
      · omega
      · have := hord'.2 c hc
        omega
    · exfalso
      rcases hold c hc with rfl | hcL
      · rcases List.mem_append.mp hd with hd | hd
        · have := hord'.1 d hd
          have := hg'.size_pos (c := d) (by simp [hd])
          omega
        rcases List.mem_cons.mp hd with rfl | hd
        · omega
        · exact hafter d hd hdn hj
      · exact hp.merged c hcL d hdL hcn hdn hj

/-- The last entry of the front part is the only one that can end where the next begins. -/
theorem Geo.last_of_fin (hg : Geo E rs 0 st (A ++ r :: C) B) (ho : o ∈ A ++ r :: C)
    (hj : o.addr + o.size = r.addr) : A.getLast? = some o := by
  have hrs := hg.size_pos (c := r) (by simp)
  have hos := hg.size_pos ho
  have hoA : o ∈ A := by
    rcases List.mem_append.mp ho with ho | ho
    · exact ho
    rcases List.mem_cons.mp ho with rfl | ho
    · omega
    · have := hg.order.2 o ho
      omega
  rcases List.eq_nil_or_concat A with rfl | ⟨A', z, rfl⟩
  · simp at hoA
  · have hz : z.addr + z.size ≤ r.addr := hg.order.1 z (by simp)
    have hg' : Geo E rs 0 st (A' ++ z :: (r :: C)) B := by simpa using hg
    have hzs := hg'.size_pos (c := z) (by simp)
    rw [List.concat_eq_append] at hoA ⊢
    rcases List.mem_append.mp hoA with ho' | ho'
    · have := hg'.order.1 o ho'
      omega
    · rw [List.mem_singleton.mp ho']
      simp

theorem Geo.not_mem_rest {M : List Chunk} (hg : Geo E rs 0 st (A ++ (M ++ C)) B) (hr : r ∈ M) :
    r ∉ A ++ C := by
  intro hmem
  have hrs := hg.size_pos (c := r) (by simp [hr])
  have hasc := hg.asc
  rw [List.pairwise_append, List.pairwise_append] at hasc
  rcases List.mem_append.mp hmem with h | h
  · have := hasc.2.2 r h r (by simp [hr])
    omega
  · have := hasc.2.1.2.2 r hr r h
    omega

theorem Geo.drop_packed (hg : Geo E rs 0 st (A ++ o :: r :: C) B) (ho : o.border = some r.size)
    (hr : r.border = none) (hroom : ∀ R ∈ rs, BORDER_EXTRA < R.len)
    (htile : Tiled rs (A ++ o :: r :: C) B)
    (hmerged : ∀ c ∈ A ++ C, ∀ d ∈ A ++ C, c.border = none → d.border = none →
      c.addr + c.size ≠ d.addr)
    (hx : x ∈ r.ext) (hused : ∀ R ∈ rs, x ∉ R → ∃ b ∈ B, b.ext.Within R) :
    Packed (rs.filter fun R => R.base ≠ o.addr) (A ++ C) B ∧
      Used (rs.filter fun R => R.base ≠ o.addr) B := by
  have hreg := ((hg.chunk o (by simp)).region _ ho).2
  have hbehind := hg.behind_border ho hr
  -- the bytes of the chunk belong to the region that goes back, to no other
  have hout : ∀ R ∈ rs.filter (fun R => R.base ≠ o.addr), R ∈ rs ∧ ∀ y ∈ r.ext, y ∉ R := by
    intro R hR
    rw [List.mem_filter, decide_eq_true_eq] at hR
    refine ⟨hR.1, fun y hy hyR => ?_⟩
    have hne : R ≠ ⟨o.addr, BORDER_EXTRA + r.size⟩ := by
      rintro rfl
      exact hR.2 rfl
    refine (hg.regions.apart.forall hR.1 hreg hne).not_mem hyR ?_
    simp only [Extent.mem_iff, Chunk.ext] at *
    omega
  refine ⟨⟨fun R hR => hroom R (hout R hR).1, ?_, hmerged⟩, ?_⟩
  · intro R hR y h1 h2
    obtain ⟨hRs, hno⟩ := hout R hR
    rcases htile R hRs y h1 h2 with ⟨c, hc, hcn, hy⟩ | hb
    · rcases List.mem_append.mp hc with hc | hc
      · exact Or.inl ⟨c, by simp [hc], hcn, hy⟩
      rcases List.mem_cons.mp hc with rfl | hc
      · simp [ho] at hcn
      rcases List.mem_cons.mp hc with rfl | hc
      · refine absurd ?_ (hno y hy)
        rw [Extent.mem_iff]
        exact ⟨by omega, h2⟩
      · exact Or.inl ⟨c, by simp [hc], hcn, hy⟩
    · exact Or.inr hb
  · intro R hR
    obtain ⟨hRs, hno⟩ := hout R hR
    exact hused R hRs (hno x hx)

theorem Tiled.merge {p : Chunk} (h : Tiled rs (A ++ p :: r :: C) B)
    (hj : p.addr + p.size = r.addr) :
    Tiled rs (A ++ ⟨p.addr, p.size + r.size, none⟩ :: C) B := by
  intro R hR y h1 h2
  rcases h R hR y h1 h2 with ⟨c, hc, hcn, hy⟩ | hb
  · have hnew : (⟨p.addr, p.size + r.size, none⟩ : Chunk) ∈
        A ++ ⟨p.addr, p.size + r.size, none⟩ :: C := by simp
    rcases List.mem_append.mp hc with hc | hc
    · exact Or.inl ⟨c, by simp [hc], hcn, hy⟩
    rcases List.mem_cons.mp hc with rfl | hc
    · refine Or.inl ⟨_, hnew, rfl, ?_⟩
      simp only [Extent.mem_iff, Chunk.ext] at *
      omega
    rcases List.mem_cons.mp hc with rfl | hc
    · refine Or.inl ⟨_, hnew, rfl, ?_⟩
      simp only [Extent.mem_iff, Chunk.ext] at *
      omega
    · exact Or.inl ⟨c, by simp [hc], hcn, hy⟩
  · exact Or.inr hb

/-- `free` keeps the heap packed and every region in use, if it can merge downwards. -/
theorem Released.packed {h : Heap} {e : Effect}
    (hrel : Released (ownHeap h) h.heapbase A r C L' e) (hz : h.heapbase = 0)
    (hg : Geo E h.regions 0 h.stksize (A ++ r :: C) B) (hr : r.border = none)
    (hfar : C ≠ [] ∨ ∀ p ∈ A.getLast?, p.addr + p.size ≠ r.addr)
    (hroom : ∀ R ∈ h.regions, BORDER_EXTRA < R.len) (htile : Tiled h.regions (A ++ r :: C) B)
    (hmerged : ∀ c ∈ A ++ r :: C, ∀ d ∈ A ++ r :: C, c.border = none → d.border = none →
      c.addr + c.size = d.addr → d = r ∧ c ∈ A)
    (hx : x ∈ r.ext) (hused : ∀ R ∈ h.regions, x ∉ R → ∃ b ∈ B, b.ext.Within R) :
    Packed (e.apply h).regions L' B ∧ Used (e.apply h).regions B := by
  have hown : ownHeap h = false := by simp [ownHeap, hz]
  have hgeo : Geo E (e.apply h).regions (e.apply h).heapbase (e.apply h).stksize L' B :=
    hrel.geo hr (by rw [hz]; exact hg)
  -- with a packed list, only the region of the freed chunk is in question
  have huse : ∀ {rs' : List Extent} {st' : ℕ} {L' : List Chunk} {k : Chunk},
      (∀ R ∈ rs', R ∈ h.regions) → Packed rs' L' B → Geo E rs' 0 st' L' B → k ∈ L' →
      k.border = none → x ∈ k.ext → (∀ o ∈ L', o.border = some k.size →
        o.addr + o.size = k.addr → ⟨o.addr, BORDER_EXTRA + k.size⟩ ∉ rs') → Used rs' B := by
    intro rs' st' L' k hsub hp hg' hk hkn hxk hno R hR
    by_cases hxR : x ∈ R
    · by_contra hnone
      push Not at hnone
      obtain ⟨o, ho, hob, hoj, hoR⟩ := hp.filled hg' hR (fun b hb hw => hnone b hb hw) hk hkn hxk hxR
      have hreg := ((hg'.chunk o ho).region _ hob).2
      exact hno o ho hob hoj hreg
    · exact hused R (hsub R hR) hxR
  cases hrel with
  | link hfar' hown' =>
    have hfar : ∀ p ∈ A.getLast?, p.addr + p.size ≠ r.addr := by
      rcases hfar with hne | hfar
      · exact hfar'.resolve_left hne
      · exact hfar
    have hp : Packed h.regions (A ++ r :: C) B := by
      refine ⟨hroom, htile, fun c hc d hd hcn hdn hj => ?_⟩
      obtain ⟨rfl, hcA⟩ := hmerged c hc d hd hcn hdn hj
      exact hfar c (hg.last_of_fin hc hj) hj
    refine ⟨hp, huse (fun _ h => h) hp hg (k := r) (by simp) hr hx ?_⟩
    exact fun o ho _ hj _ => hfar o (hg.last_of_fin ho hj) hj
  | toHeap hfar' hown' => simp [hown] at hown'
  | @behindBorder A C p r a hp hj hC ha =>
    have hlist : A ++ p :: r :: C = A ++ [p] ++ r :: C := by simp
    have hpk : Packed h.regions (A ++ [p] ++ r :: C) B := by
      refine ⟨hroom, htile, fun c hc d hd hcn hdn hj' => ?_⟩
      obtain ⟨rfl, hcA⟩ := hmerged c hc d hd hcn hdn hj'
      obtain rfl : p = c := by simpa using hg.last_of_fin hc hj'
      rw [hp] at hcn
      simp at hcn
    rw [hlist]
    refine ⟨hpk, huse (fun _ h => h) hpk hg (k := r) (by simp) hr hx ?_⟩
    intro o ho hob hoj _
    obtain rfl : p = o := by simpa using hg.last_of_fin ho hoj
    rw [hp, Option.some.injEq] at hob
    exact ha hob
  | @drop A C p r hp hj hC =>
    have hlist : A ++ [p] ++ r :: C = A ++ p :: r :: C := by simp
    rw [hlist] at hg htile hmerged
    refine hg.drop_packed hp hr hroom htile ?_ hx hused
    intro c hc d hd hcn hdn hj'
    obtain ⟨rfl, -⟩ := hmerged c (mem_around [p, r] hc) d (mem_around [p, r] hd) hcn hdn hj'
    exact hg.not_mem_rest (M := [p, d]) (by simp) hd
  | @merge A C p r hp hj hC hown' hopen =>
    have hlist : A ++ [p] ++ r :: C = A ++ p :: r :: C := by simp
    rw [hlist] at hg htile hmerged
    have hg₂ : Geo E h.regions 0 h.stksize (A ++ ⟨p.addr, p.size + r.size, none⟩ :: C) B :=
      hg.merge hp hr hj
    have hpr : p ≠ r := by
      rintro rfl
      have := hg.size_pos (c := p) (by simp)
      omega
    have hpk : Packed h.regions (A ++ ⟨p.addr, p.size + r.size, none⟩ :: C) B := by
      refine ⟨hroom, htile.merge hj, fun c hc d hd hcn hdn hj' => ?_⟩
      have hcases : ∀ c ∈ A ++ (⟨p.addr, p.size + r.size, none⟩ : Chunk) :: C,
          c = ⟨p.addr, p.size + r.size, none⟩ ∨ c ∈ A ++ C := by
        intro c hc
        simp only [List.mem_append, List.mem_cons] at hc ⊢
        rcases hc with hc | hc | hc
        · exact Or.inr (Or.inl hc)
        · exact Or.inl hc
        · exact Or.inr (Or.inr hc)
      rcases hcases c hc with rfl | hcL <;> rcases hcases d hd with rfl | hdL
      · have := hg₂.size_pos hd
        omega
      · obtain ⟨rfl, -⟩ := hmerged r (by simp) d (mem_around [p, r] hdL) hr hdn
          (by simp only at hj'; omega)
        exact hg.not_mem_rest (M := [p, d]) (by simp) hdL
      · exact hpr (hmerged c (mem_around [p, r] hcL) p (by simp) hcn hp hj').1
      · obtain ⟨rfl, -⟩ := hmerged c (mem_around [p, r] hcL) d (mem_around [p, r] hdL) hcn hdn hj'
        exact hg.not_mem_rest (M := [p, d]) (by simp) hdL
    refine ⟨hpk, huse (fun _ h => h) hpk hg₂ (k := ⟨p.addr, p.size + r.size, none⟩) (by simp) rfl
      ?_ ?_⟩
    · simp only [Extent.mem_iff, Chunk.ext] at *
      omega
    · exact fun o ho hob hoj _ => hopen o (hg₂.last_of_fin ho hoj) hob
  | mergeToHeap hp hj hC hown' => simp [hown] at hown'
  | @mergeDrop A C o p r hp hj hC ho =>
    have hlist : A ++ [o] ++ [p] ++ r :: C = A ++ o :: p :: r :: C := by simp
    rw [hlist] at hg htile hmerged
    have hg₁ : Geo E h.regions 0 h.stksize (A ++ [o] ++ p :: r :: C) B := by simpa using hg
    have hg₂ : Geo E h.regions 0 h.stksize (A ++ o :: ⟨p.addr, p.size + r.size, none⟩ :: C) B := by
      simpa using hg₁.merge hp hr hj
    have htile₁ : Tiled h.regions (A ++ [o] ++ p :: r :: C) B := by simpa using htile
    have htile₂ : Tiled h.regions (A ++ o :: ⟨p.addr, p.size + r.size, none⟩ :: C) B := by
      simpa using htile₁.merge hj
    refine hg₂.drop_packed ho rfl hroom htile₂ ?_ (x := x) ?_ hused
    · intro c hc d hd hcn hdn hj'
      obtain ⟨rfl, -⟩ := hmerged c (mem_around [o, p, r] hc) d (mem_around [o, p, r] hd) hcn hdn hj'
      exact hg.not_mem_rest (M := [o, p, d]) (by simp) hd
    · simp only [Extent.mem_iff, Chunk.ext] at *
      omega

end Abstract

/-- There is no heap of our own, the regions are packed, and each holds a block. -/
structure Tight (h : Heap) (L : List Chunk) (B : List Block) : Prop where
  heapbase : h.heapbase = 0
  packed : Packed h.regions L B
  used : Used h.regions B

/-- Each region that is gone was handed to `Mfree` once, nothing else was, and
none of the blocks `B` is in it. -/
structure Exact (h h' : Heap) (B : List Block) : Prop where
  gone : ∀ R ∈ h.regions, R ∉ h'.regions → h'.mfrees = R.base :: h.mfrees ∧
    ∀ S ∈ h'.regions, S.Apart R
  given : h'.mfrees = h.mfrees ∨ ∃ R ∈ h.regions, R ∉ h'.regions ∧
    h'.mfrees = R.base :: h.mfrees ∧ ∀ b ∈ B, b.ext.Apart R

/-- Freeing `b` gets to merge it downwards where that is possible: an entry of the
list remains above, or the entry below does not touch the block. -/
def FarOk (L : List Chunk) (b : Block) : Prop :=
  ∀ A C, L = A ++ C → (∀ x ∈ A, x.addr < b.base) → (∀ x ∈ C, b.base ≤ x.addr) →
    (absorbUp b.chunk C).2 ≠ [] ∨ ∀ p ∈ A.getLast?, p.addr + p.size ≠ b.base

section Tight

variable {E : Layout} {h h' : Heap} {L L' A C : List Chunk} {B B' : List Block} {b d : Block}
  {c : Chunk} {e : Extent} {n : ℕ}

theorem Tight.perm (ht : Tight h L B) (hp : B.Perm B') : Tight h L B' where
  heapbase := ht.heapbase
  packed := by
    refine ⟨ht.packed.room, fun R hR x h1 h2 => ?_, ht.packed.merged⟩
    rcases ht.packed.tiled R hR x h1 h2 with hc | ⟨b, hb, hx⟩
    · exact Or.inl hc
    · exact Or.inr ⟨b, hp.mem_iff.mp hb, hx⟩
  used R hR := by
    obtain ⟨b, hb, hw⟩ := ht.used R hR
    exact ⟨b, hp.mem_iff.mp hb, hw⟩

theorem Tight.grow (ht : Tight h (A ++ c :: C) (b :: B)) (hj : b.base + b.size = c.addr)
    (hb : 0 < b.size)
    (hd : d.ext = ⟨b.base, b.size + c.size⟩)
    (hg : Geo E h.regions 0 h.stksize (A ++ C) (d :: B)) : Tight h (A ++ C) (d :: B) where
  heapbase := ht.heapbase
  packed := by
    have hcover : ∀ x, x ∈ b.ext ∨ x ∈ c.ext → x ∈ d.ext := by
      intro x hx
      rw [hd]
      simp only [Extent.mem_iff, Block.ext, Chunk.ext] at *
      omega
    refine ⟨ht.packed.room, fun R hR x h1 h2 => ?_, fun k hk l hl =>
      ht.packed.merged k (mem_around [c] hk) l (mem_around [c] hl)⟩
    rcases ht.packed.tiled R hR x h1 h2 with ⟨k, hk, hkn, hx⟩ | ⟨a, ha, hx⟩
    · rcases List.mem_append.mp hk with hk | hk
      · exact Or.inl ⟨k, by simp [hk], hkn, hx⟩
      rcases List.mem_cons.mp hk with rfl | hk
      · exact Or.inr ⟨d, by simp, hcover x (Or.inr hx)⟩
      · exact Or.inl ⟨k, by simp [hk], hkn, hx⟩
    · rcases List.mem_cons.mp ha with rfl | ha
      · exact Or.inr ⟨d, by simp, hcover x (Or.inl hx)⟩
      · exact Or.inr ⟨a, by simp [ha], hx⟩
  used R hR := by
    obtain ⟨a, ha, hw⟩ := ht.used R hR
    rcases List.mem_cons.mp ha with rfl | ha
    · refine ⟨d, by simp, ?_⟩
      refine hg.block_body (x := a.base) (by simp) hR ?_ (hw.mem ?_)
      · rw [hd, Extent.mem_iff]
        simp only
        omega
      · rw [Extent.mem_iff]
        simp only [Block.ext]
        omega
    · exact ⟨a, by simp [ha], hw⟩

theorem Tight.redescribe (ht : Tight h L (b :: B)) (hd : d.ext = b.ext) : Tight h L (d :: B) where
  heapbase := ht.heapbase
  packed := by
    refine ⟨ht.packed.room, fun R hR x h1 h2 => ?_, ht.packed.merged⟩
    rcases ht.packed.tiled R hR x h1 h2 with hc | ⟨a, ha, hx⟩
    · exact Or.inl hc
    · rcases List.mem_cons.mp ha with rfl | ha
      · exact Or.inr ⟨d, by simp, hd ▸ hx⟩
      · exact Or.inr ⟨a, by simp [ha], hx⟩
  used R hR := by
    obtain ⟨a, ha, hw⟩ := ht.used R hR
    rcases List.mem_cons.mp ha with rfl | ha
    · exact ⟨d, by simp, hd ▸ hw⟩
    · exact ⟨a, by simp [ha], hw⟩

theorem Exact.of_same (hr : h'.regions = h.regions) (hm : h'.mfrees = h.mfrees) :
    Exact h h' B where
  gone _ hR hn := absurd (hr ▸ hR) hn
  given := Or.inl hm

theorem Supplied.regions {rs rs' : List Extent} {hb st hb' st' : ℕ}
    (hsup : Supplied E rs hb st L rs' hb' st' L') : rs ⊆ rs' := by
  cases hsup with
  | nothing => exact List.Subset.refl _
  | region hz hL hq hsz hA hC => exact List.subset_cons_self _ _
  | chunk hne hL hq hsz hA hC => exact List.subset_cons_self _ _
  | heap hne hL hst hsz hA hC => exact List.Subset.refl _

theorem Tight.alloc (ht : Tight h L B) (hi : Inv E h L B) (hall : Allocated E h L B n e h' L')
    (hn : 0 < chunkBytes n) : Tight h' L' (plainBlock e n :: B) ∧ Exact h h' (plainBlock e n :: B) := by
  obtain ⟨L₁, hsup, hcv, -⟩ := hall.path
  have hg : Geo E h.regions 0 h.stksize L B := ht.heapbase ▸ hi.geo
  have hsup' : Supplied E h.regions 0 h.stksize L h'.regions h'.heapbase h'.stksize L₁ :=
    ht.heapbase ▸ hsup
  obtain ⟨hz, hp⟩ := hsup'.packed ht.packed hg
  have hg₁ : Geo E h'.regions 0 h'.stksize L₁ B := hz ▸ hsup'.geo hg
  refine ⟨⟨hz, hcv.packed rfl hp hg₁ hn, fun R hR => ?_⟩, ?_, Or.inl hall.mfrees⟩
  · by_cases hRold : R ∈ h.regions
    · obtain ⟨b, hb, hw⟩ := ht.used R hRold
      exact ⟨b, by simp [hb], hw⟩
    · exact ⟨plainBlock e n, by simp, hall.fresh R hR hRold⟩
  · exact fun _ hR hn => absurd (hsup.regions hR) hn

theorem Allocated.old_region {R : Extent} (hall : Allocated E h L B n e h' L')
    (hR : R ∈ h'.regions) (hap : (plainBlock e n).ext.Apart R) : R ∈ h.regions := by
  by_contra hn
  have hin : (plainBlock e n).ext.Within R := hall.fresh R hR hn
  have hsize := (hall.inv.geo.block (plainBlock e n) (by simp)).wf.size
  simp only [Extent.Within, Extent.Apart, Extent.fin, plainBlock, Block.ext, chunkSize] at *
  omega

theorem Released.effect {hb : ℕ} {r : Chunk} {f : Effect} (hrel : Released false hb A r C L' f) :
    f = .keep ∨ ∃ p, f = .mfree p := by
  cases hrel with
  | link hfar hown => exact Or.inl rfl
  | toHeap hfar hown => exact absurd hown.1 (by decide)
  | behindBorder hp hj hC ha => exact Or.inl rfl
  | drop hp hj hC => exact Or.inr ⟨_, rfl⟩
  | merge hp hj hC hown hopen => exact Or.inl rfl
  | mergeToHeap hp hj hC hown => exact absurd hown.1 (by decide)
  | mergeDrop hp hj hC ho => exact Or.inr ⟨_, rfl⟩

theorem Tight.free {f : Effect} (ht : Tight h (A ++ C) (b :: B)) (hi : Inv E h (A ++ C) (b :: B))
    (hfar : FarOk (A ++ C) b) (hA : ∀ x ∈ A, x.addr < b.base) (hC : ∀ x ∈ C, b.base ≤ x.addr)
    (hrel : Released (ownHeap h) h.heapbase A (absorbUp b.chunk C).1 (absorbUp b.chunk C).2 L' f) :
    Tight (f.apply h) L' B ∧ Exact h (f.apply h) B := by
  have hg : Geo E h.regions 0 h.stksize (A ++ C) (b :: B) := ht.heapbase ▸ hi.geo
  have hlink : Geo E h.regions 0 h.stksize (A ++ b.chunk :: C) B := hg.link hA hC
  obtain ⟨habs, hnone, haddr⟩ := absorbUp_geo hlink rfl
  obtain ⟨htile, hmerged⟩ := absorbUp_packed ht.packed hg hA hC
  have hbs : 0 < b.size := Nat.lt_of_lt_of_le (by decide) (hg.block b (by simp)).wf.size
  have haddr' : (absorbUp b.chunk C).1.addr = b.base := haddr
  have hx : b.base ∈ (absorbUp b.chunk C).1.ext := by
    have := habs.size_pos (c := (absorbUp b.chunk C).1) (by simp)
    rw [Extent.mem_iff]
    simp only [Chunk.ext]
    omega
  have hused : ∀ R ∈ h.regions, b.base ∉ R → ∃ a ∈ B, a.ext.Within R := by
    intro R hR hbR
    obtain ⟨a, ha, hw⟩ := ht.used R hR
    rcases List.mem_cons.mp ha with rfl | ha
    · refine absurd (hw.mem ?_) hbR
      rw [Extent.mem_iff]
      simp only [Block.ext]
      omega
    · exact ⟨a, ha, hw⟩
  have hfar' := hfar A C rfl hA hC
  rw [← haddr'] at hfar'
  obtain ⟨hp, hu⟩ := hrel.packed ht.heapbase habs hnone hfar' ht.packed.room htile hmerged hx hused
  have hown : ownHeap h = false := by simp [ownHeap, ht.heapbase]
  have hrel' := hrel
  rw [hown, ht.heapbase] at hrel'
  rcases hrel'.effect with rfl | ⟨p, rfl⟩
  · exact ⟨⟨ht.heapbase, hp, hu⟩, Exact.of_same rfl rfl⟩
  · obtain ⟨R, hR, rfl, hap⟩ := hrel'.mfree_region hnone habs
    refine ⟨⟨ht.heapbase, hp, hu⟩, ⟨fun S hS hn => ?_, Or.inr ⟨R, hR, ?_, rfl, hap⟩⟩⟩
    · have hbase : S.base = R.base := by
        by_contra hne
        exact hn (List.mem_filter.mpr ⟨hS, decide_eq_true hne⟩)
      refine ⟨?_, fun T hT => ?_⟩
      · show R.base :: h.mfrees = S.base :: h.mfrees
        rw [hbase]
      · have hTh : T ∈ h.regions := (List.mem_filter.mp hT).1
        exact hg.regions.apart_of_ne hTh hS (ne_of_mem_of_not_mem hT hn)
    · intro hmem
      have := (List.mem_filter.mp hmem).2
      simp at this

end Tight

end Mintlib.Malloc
