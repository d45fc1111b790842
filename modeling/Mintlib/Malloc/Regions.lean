import Mintlib.Malloc.Geometry

/-!
# Regions from the system

A region enters the heap with its border marker, or as a bare free chunk when
there is a heap of our own, and leaves it when its only free chunk fills it.
-/

namespace Mintlib.Malloc

variable {E : Layout} {rs : List Extent} {hb st : ℕ} {L pre post : List Chunk} {B : List Block}

theorem ChunkOk.cons {c : Chunk} (h : ChunkOk E rs hb st c) (R : Extent) :
    ChunkOk E (R :: rs) hb st c where
  wf := h.wf
  head := h.head
  home hn := (h.home hn).cons R
  region a ha := ⟨(h.region a ha).1, List.mem_cons_of_mem _ (h.region a ha).2⟩

theorem BlockOk.cons {b : Block} (h : BlockOk E rs hb st b) (R : Extent) :
    BlockOk E (R :: rs) hb st b :=
  ⟨h.wf, h.home.cons R⟩

namespace Geo

theorem chunk_apart_fresh {R : Extent} (h : Geo E rs hb st L B) (hR : Fresh E rs R) {c : Chunk}
    (hc : c ∈ L) : c.ext.Apart R :=
  (h.chunk c hc).owned.apart_fresh hR (Nat.lt_of_lt_of_le (by decide) (h.chunk c hc).wf.size)

theorem block_apart_fresh {R : Extent} (h : Geo E rs hb st L B) (hR : Fresh E rs R) {b : Block}
    (hb' : b ∈ B) : b.ext.Apart R :=
  (h.block b hb').home.all_owned.apart_fresh hR
    (Nat.lt_of_lt_of_le (by decide) (h.block b hb').wf.size)

theorem fresh_apart_head {R : Extent} (hR : Fresh E rs R) :
    R.Apart ⟨E.mchunk_free_list, chunkSize⟩ :=
  (hR.tpa R (by simp)).mono (Extent.Within.refl _) E.head_mem

theorem before_fresh {R : Extent} (h : Geo E rs hb st L B) (hR : Fresh E rs R) {c : Chunk}
    (hc : c ∈ L) (hlt : c.addr < R.base) : c.addr + c.size ≤ R.base := by
  have h1 := h.chunk_apart_fresh hR hc
  have h2 := (hR.pos R (by simp)).2.1
  simp only [Chunk.ext, Extent.Apart, Extent.fin] at h1
  omega

theorem after_fresh {R : Extent} (h : Geo E rs hb st L B) (hR : Fresh E rs R) {c : Chunk}
    (hc : c ∈ L) (hle : R.base ≤ c.addr) : R.fin ≤ c.addr := by
  have h1 := h.chunk_apart_fresh hR hc
  have h2 := (h.chunk c hc).wf.size
  simp only [Chunk.ext, Extent.Apart, Extent.fin, chunkSize] at *
  omega

theorem addRegion {q sz : ℕ} (h : Geo E rs 0 st (pre ++ post) B) (hR : Fresh E rs ⟨q, sz⟩)
    (hsz : BORDER_EXTRA + chunkSize ≤ sz) (hpre : ∀ x ∈ pre, x.addr < q)
    (hpost : ∀ y ∈ post, q ≤ y.addr) :
    Geo E (⟨q, sz⟩ :: rs) 0 st
      (pre ++ ⟨q, BORDER_EXTRA, some (sz - BORDER_EXTRA)⟩ ::
        ⟨q + BORDER_EXTRA, sz - BORDER_EXTRA, none⟩ :: post) B := by
  have hposR := hR.pos ⟨q, sz⟩ (by simp)
  have hhead := fresh_apart_head hR
  have hbefore : ∀ x ∈ pre, x.addr + x.size ≤ q := fun x hx =>
    h.before_fresh hR (by simp [hx]) (hpre x hx)
  have hafter : ∀ y ∈ post, q + sz ≤ y.addr := fun y hy =>
    h.after_fresh hR (by simp [hy]) (hpost y hy)
  have hin₁ : Extent.Within ⟨q, BORDER_EXTRA⟩ ⟨q, sz⟩ := by
    simp only [Extent.Within, Extent.fin]
    omega
  have hin₂ : Extent.Within ⟨q + BORDER_EXTRA, sz - BORDER_EXTRA⟩ ⟨q, sz⟩ := by
    simp only [Extent.Within, Extent.fin]
    omega
  have hsum : BORDER_EXTRA + (sz - BORDER_EXTRA) = sz := by omega
  have hhome : Home E (⟨q, sz⟩ :: rs) 0 st ⟨q + BORDER_EXTRA, sz - BORDER_EXTRA⟩ := by
    refine ⟨?_, hhead.mono hin₂ (Extent.Within.refl _), by simp, by simp, fun _ => ?_⟩
    · simp only [Extent.fin] at *
      omega
    · refine ⟨⟨q, sz⟩, by simp, le_refl _, ?_⟩
      simp only [Extent.fin]
      omega
  -- the new border and the new chunk among the others: order, blocks, homes, borders
  refine ⟨?_, h.apart, ?_, ?_, fun b hb => (h.block b hb).cons _, hR, by simp, ?_⟩
  · have h1 := asc_insert (c := ⟨q + BORDER_EXTRA, sz - BORDER_EXTRA, none⟩) h.asc
      (fun x hx => (hbefore x hx).trans (Nat.le_add_right _ _)) fun y hy => by
        have := hafter y hy
        simp only
        omega
    apply asc_insert h1 hbefore
    intro y hy
    rcases List.mem_cons.mp hy with rfl | hy
    · exact le_refl _
    · have := hafter y hy
      simp only
      omega
  · intro x hx b hb
    have hbR := (h.block_apart_fresh hR hb).symm
    rcases List.mem_append.mp hx with hx | hx
    · exact h.clear x (by simp [hx]) b hb
    rcases List.mem_cons.mp hx with rfl | hx
    · exact hbR.mono hin₁ (Extent.Within.refl _)
    rcases List.mem_cons.mp hx with rfl | hx
    · exact hbR.mono hin₂ (Extent.Within.refl _)
    · exact h.clear x (by simp [hx]) b hb
  · intro x hx
    rcases List.mem_append.mp hx with hx | hx
    · exact (h.chunk x (by simp [hx])).cons _
    rcases List.mem_cons.mp hx with rfl | hx
    · refine ⟨⟨(by decide : chunkSize ≤ BORDER_EXTRA), fun _ => rfl⟩, hhead.mono hin₁ (Extent.Within.refl _), by simp, ?_⟩
      intro a ha
      have ha' : sz - BORDER_EXTRA = a := by simpa using ha
      subst ha'
      simp only [hsum]
      exact ⟨trivial, List.mem_cons_self⟩
    rcases List.mem_cons.mp hx with rfl | hx
    · refine ⟨⟨?_, by simp⟩, hhome.head, fun _ => hhome, by simp⟩
      simp only
      omega
    · exact (h.chunk x (by simp [hx])).cons _
  · intro hz R hRm
    rcases List.mem_cons.mp hRm with rfl | hRm
    · refine ⟨⟨q, BORDER_EXTRA, some (sz - BORDER_EXTRA)⟩, by simp, sz - BORDER_EXTRA, rfl, ?_⟩
      simp only [hsum]
    · obtain ⟨x, hx, a, ha, hxR⟩ := h.borderOf hz R hRm
      refine ⟨x, ?_, a, ha, hxR⟩
      simp only [List.mem_append, List.mem_cons] at hx ⊢
      tauto

theorem addChunk {q sz : ℕ} (h : Geo E rs hb st (pre ++ post) B) (hne : hb ≠ 0)
    (hR : Fresh E rs ⟨q, sz⟩) (hsz : chunkSize ≤ sz) (hpre : ∀ x ∈ pre, x.addr < q)
    (hpost : ∀ y ∈ post, q ≤ y.addr) :
    Geo E (⟨q, sz⟩ :: rs) hb st (pre ++ ⟨q, sz, none⟩ :: post) B := by
  have hposR := hR.pos ⟨q, sz⟩ (by simp)
  have hhead := fresh_apart_head hR
  have hres := h.reserve hne
  have hhome : Home E (⟨q, sz⟩ :: rs) hb st ⟨q, sz⟩ := by
    refine ⟨⟨hposR.1, hposR.2.2⟩, hhead, fun _ => ?_, fun _ x hx => ?_, fun hz => absurd hz hne⟩
    · exact (hres.owned.apart_fresh hR hres.pos).symm
    · exact Or.inr ⟨_, List.mem_cons_self, hx⟩
  refine ⟨?_, h.apart, ?_, ?_, fun b hb => (h.block b hb).cons _, hR, fun _ => ?_,
    fun hz => absurd hz hne⟩
  · exact asc_insert h.asc (fun x hx => h.before_fresh hR (by simp [hx]) (hpre x hx))
      fun y hy => h.after_fresh hR (by simp [hy]) (hpost y hy)
  · intro x hx b hb
    rcases List.mem_append.mp hx with hx | hx
    · exact h.clear x (by simp [hx]) b hb
    rcases List.mem_cons.mp hx with rfl | hx
    · exact (h.block_apart_fresh hR hb).symm
    · exact h.clear x (by simp [hx]) b hb
  · intro x hx
    rcases List.mem_append.mp hx with hx | hx
    · exact (h.chunk x (by simp [hx])).cons _
    rcases List.mem_cons.mp hx with rfl | hx
    · exact ⟨⟨hsz, by simp⟩, hhead, fun _ => hhome, by simp⟩
    · exact (h.chunk x (by simp [hx])).cons _
  · refine ⟨hres.fin, hres.pos, hres.head, fun x hx => ?_⟩
    exact (hres.owned x hx).imp id fun ⟨S, hS, hxS⟩ => ⟨S, List.mem_cons_of_mem _ hS, hxS⟩

theorem behind_border {o p : Chunk} {a : ℕ} (h : Geo E rs hb st (pre ++ o :: p :: post) B)
    (ho : o.border = some a) (hp : p.border = none) :
    o.addr + BORDER_EXTRA ≤ p.addr ∧ p.addr + p.size ≤ o.addr + (BORDER_EXTRA + a) := by
  have hko := (h.chunk o (by simp)).region a ho
  have hz := hko.1
  have hac := asc_around h.asc
  have hop := hac.2 p (by simp)
  have hos := (h.chunk o (by simp)).wf.border (by simp [ho])
  have hps := (h.chunk p (by simp)).wf.size
  obtain ⟨R, hR, h1, h2⟩ := ((h.chunk p (by simp)).home hp).body hz
  by_cases hRo : R = ⟨o.addr, BORDER_EXTRA + a⟩
  · subst hRo
    exact ⟨h1, h2⟩
  -- the marker of `p`'s region would have to stand between `o` and `p`
  exfalso
  have hap : R.Apart ⟨o.addr, BORDER_EXTRA + a⟩ := h.regions.apart.forall hR hko.2 hRo
  obtain ⟨x, hx, a', ha', rfl⟩ := h.borderOf hz R hR
  have hxs := (h.chunk x hx).wf.size
  simp only [Chunk.ext, Extent.Apart, Extent.fin, BORDER_EXTRA, chunkSize] at *
  rcases List.mem_append.mp hx with hx | hx
  · have := hac.1 x hx
    omega
  rcases List.mem_cons.mp hx with rfl | hx
  · simp only [ho, Option.mem_def, Option.some.injEq] at ha'
    exact hRo (by rw [ha'])
  rcases List.mem_cons.mp hx with rfl | hx
  · simp [hp] at ha'
  · have hpp : (pre ++ [o] ++ p :: post).Pairwise fun c d : Chunk => c.addr + c.size ≤ d.addr := by
      simpa using h.asc
    have := (asc_around hpp).2 x hx
    omega

theorem filled_region_apart {o p : Chunk} {a : ℕ} (h : Geo E rs hb st (pre ++ o :: p :: post) B)
    (ho : o.border = some a) (hp : p.border = none) (hsize : p.size = a) {b : Block}
    (hb : b ∈ B) : b.ext.Apart ⟨o.addr, BORDER_EXTRA + a⟩ := by
  have hbe := h.behind_border ho hp
  have hos := (h.chunk o (by simp)).wf.border (by simp [ho])
  have hbs := (h.block b hb).wf.size
  have h1 := h.clear o (by simp) b hb
  have h2 := h.clear p (by simp) b hb
  simp only [Chunk.ext, Block.ext, Extent.Apart, Extent.fin, BORDER_EXTRA, chunkSize] at *
  omega

theorem dropRegion {o p : Chunk} {a : ℕ} (h : Geo E rs hb st (pre ++ o :: p :: post) B)
    (ho : o.border = some a) (hp : p.border = none) (hsize : p.size = a) :
    Geo E (rs.filter fun r => r.base ≠ o.addr) hb st (pre ++ post) B := by
  have hko := (h.chunk o (by simp)).region a ho
  have hz := hko.1
  have hac := asc_around h.asc
  have hos := (h.chunk o (by simp)).wf.border (by simp [ho])
  have hbe := h.behind_border ho hp
  have hpp : (pre ++ [o] ++ p :: post).Pairwise fun c d : Chunk => c.addr + c.size ≤ d.addr := by
    simpa using h.asc
  have hap := asc_around hpp
  have hsub : ∀ x ∈ pre ++ post, x ∈ pre ++ o :: p :: post := by
    intro x hx
    simp only [List.mem_append, List.mem_cons] at hx ⊢
    tauto
  have hfilter : ∀ R : Extent, R ∈ rs.filter (fun r => r.base ≠ o.addr) ↔
      R ∈ rs ∧ R.base ≠ o.addr := by
    intro R
    simp
  -- the other entries and the blocks have their homes in other regions
  have hbody : ∀ e : Extent, InBody rs e → e.Apart ⟨o.addr, BORDER_EXTRA + a⟩ → 0 < e.len →
      InBody (rs.filter fun r => r.base ≠ o.addr) e := by
    rintro e ⟨R, hR, h1, h2⟩ hea hlen
    refine ⟨R, (hfilter R).mpr ⟨hR, fun hbase => ?_⟩, h1, h2⟩
    have hRo : R = ⟨o.addr, BORDER_EXTRA + a⟩ := by
      by_contra hne
      have hRa := h.regions.apart.forall hR hko.2 hne
      have hRp := (h.regions.pos R hR).2.1
      simp only [Extent.Apart, Extent.fin, BORDER_EXTRA] at *
      omega
    subst hRo
    simp only [Extent.Apart, Extent.fin, BORDER_EXTRA] at *
    omega
  have hhome : ∀ e : Extent, Home E rs hb st e → e.Apart ⟨o.addr, BORDER_EXTRA + a⟩ → 0 < e.len →
      Home E (rs.filter fun r => r.base ≠ o.addr) hb st e := by
    intro e he hea hlen
    exact ⟨he.pos, he.head, he.reserve, fun hne => absurd hz hne,
      fun _ => hbody e (he.body hz) hea hlen⟩
  have hout : ∀ x ∈ pre ++ post, x.ext.Apart ⟨o.addr, BORDER_EXTRA + a⟩ := by
    intro x hx
    rcases List.mem_append.mp hx with hx | hx
    · exact Or.inl (hac.1 x hx)
    · have h1 := hap.2 x hx
      refine Or.inr ?_
      simp only [Chunk.ext, Extent.fin, BORDER_EXTRA] at *
      omega
  refine ⟨asc_remove (by simpa using asc_remove h.asc), h.apart,
    fun x hx => h.clear x (hsub x hx), ?_, ?_, ?_, fun hne => absurd hz hne, ?_⟩
  · intro x hx
    have hk := h.chunk x (hsub x hx)
    have hlen : 0 < x.ext.len := Nat.lt_of_lt_of_le (by decide) hk.wf.size
    refine ⟨hk.wf, hk.head, fun hn => hhome _ (hk.home hn) (hout x hx) hlen, ?_⟩
    intro a' ha'
    refine ⟨hz, (hfilter _).mpr ⟨(hk.region a' ha').2, fun hbase => ?_⟩⟩
    have hxs := hk.wf.size
    have hxo := hout x hx
    simp only [Chunk.ext, Extent.Apart, Extent.fin, BORDER_EXTRA, chunkSize] at *
    omega
  · intro b hb'
    have hk := h.block b hb'
    have hlen : 0 < b.ext.len := Nat.lt_of_lt_of_le (by decide) hk.wf.size
    exact ⟨hk.wf, hhome _ hk.home (h.filled_region_apart ho hp hsize hb') hlen⟩
  · exact ⟨h.regions.apart.sublist List.filter_sublist,
      fun R hR => h.regions.tpa R ((hfilter R).mp hR).1,
      fun R hR => h.regions.pos R ((hfilter R).mp hR).1⟩
  · intro _ R hR
    obtain ⟨x, hx, a', ha', hxR⟩ := h.borderOf hz R ((hfilter R).mp hR).1
    refine ⟨x, ?_, a', ha', hxR⟩
    have hne := ((hfilter R).mp hR).2
    simp only [List.mem_append, List.mem_cons] at hx ⊢
    rcases hx with hx | rfl | rfl | hx
    · exact Or.inl hx
    · exact absurd (by rw [hxR]) hne
    · simp [hp] at ha'
    · exact Or.inr hx

end Geo

end Mintlib.Malloc
