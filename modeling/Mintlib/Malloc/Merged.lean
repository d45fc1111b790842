import Mintlib.Malloc.HandBack

/-!
# Free chunks that touch

`free` merges a chunk with its lower neighbour only while an entry of the free list
remains above the chunk. Under the condition `JoinOk` no two free chunks of one
region touch, in every state of a run; `touching_after_free` runs into the other case.
-/

namespace Mintlib

/-- Where one of two separate extents begins or ends, the other has no inner address. -/
theorem Extent.Apart.not_inner {e f : Extent} (h : e.Apart f) (hpos : 0 < e.len) :
    ¬ (f.base < e.base ∧ e.base < f.fin) ∧ ¬ (f.base < e.fin ∧ e.fin < f.fin) := by
  simp only [Extent.Apart, Extent.fin] at *
  omega

namespace Malloc

open ByteMemory

/-- No region of the list reaches across the address `x`. -/
def Seam (rs : List Extent) (x : ℕ) : Prop := ∀ R ∈ rs, ¬ (R.base < x ∧ x < R.fin)

/-- Free chunks meet each other, and the part of our own heap that is not handed
out, only where two regions meet. -/
structure Sealed (rs : List Extent) (hb : ℕ) (L : List Chunk) : Prop where
  chunks : ∀ c ∈ L, ∀ d ∈ L, c.border = none → d.border = none → c.addr + c.size = d.addr →
    Seam rs d.addr
  base : hb ≠ 0 → ∀ c ∈ L, c.border = none → c.addr + c.size = hb → Seam rs hb

def HeapIn (E : Layout) (H : Extent) : Prop := H = ⟨0, 0⟩ ∨ (0 < H.len ∧ H.Within E.tpa)

section Abstract

variable {E : Layout} {rs rs' : List Extent} {hb hb' st st' : ℕ} {L L' A C : List Chunk}
  {B : List Block} {b : Block} {c d r : Chunk} {H R e : Extent} {x n : ℕ}

theorem Seam.mono (h : Seam rs x) (hsub : ∀ R ∈ rs', R ∈ rs) : Seam rs' x :=
  fun R hR => h R (hsub R hR)

theorem Seam.insert (h : Seam (H :: rs) x) (hR : ¬ (R.base < x ∧ x < R.fin)) :
    Seam (H :: R :: rs) x := by
  intro S hS
  rcases List.mem_cons.mp hS with rfl | hS
  · exact h S List.mem_cons_self
  rcases List.mem_cons.mp hS with rfl | hS
  · exact hR
  · exact h S (List.mem_cons_of_mem _ hS)

theorem Sealed.mono (h : Sealed rs hb L) (hrs : ∀ R ∈ rs', R ∈ rs) (hL : ∀ c ∈ L', c ∈ L) :
    Sealed rs' hb L' where
  chunks c hc d hd hcn hdn hj := (h.chunks c (hL c hc) d (hL d hd) hcn hdn hj).mono hrs
  base hne c hc hcn hj := (h.base hne c (hL c hc) hcn hj).mono hrs

theorem HeapIn.apart (h : HeapIn E H) (hR : R.Apart E.tpa) : R.Apart H := by
  rcases h with rfl | ⟨-, hw⟩
  · exact Or.inr (Nat.zero_le _)
  · exact hR.mono (Extent.Within.refl _) hw

theorem Fresh.seam (hR : Fresh E rs R) (hH : HeapIn E H) :
    Seam (H :: R :: rs) R.base ∧ Seam (H :: R :: rs) R.fin := by
  have hpos := (hR.pos R List.mem_cons_self).2.1
  have hout : ∀ S ∈ H :: R :: rs, S ≠ R →
      ¬ (S.base < R.base ∧ R.base < S.fin) ∧ ¬ (S.base < R.fin ∧ R.fin < S.fin) := by
    intro S hS hne
    have hap : R.Apart S := by
      rcases List.mem_cons.mp hS with rfl | hS
      · exact hH.apart (hR.tpa R List.mem_cons_self)
      rcases List.mem_cons.mp hS with rfl | hS
      · exact absurd rfl hne
      · exact (List.pairwise_cons.mp hR.apart).1 S hS
    exact hap.not_inner hpos
  constructor
  · intro S hS
    by_cases hne : S = R
    · subst hne
      omega
    · exact (hout S hS hne).1
  · intro S hS
    by_cases hne : S = R
    · subst hne
      omega
    · exact (hout S hS hne).2

theorem Supplied.sealed (hsup : Supplied E rs hb st L rs' hb' st' L') (hg : Geo E rs hb st L B)
    (hH : HeapIn E H) (hs : Sealed (H :: rs) hb L) : Sealed (H :: rs') hb L' := by
  -- a seam below an old entry survives the new region
  have hold : ∀ q sz, Fresh E rs ⟨q, sz⟩ → ∀ c ∈ L, ∀ x, c.addr + c.size = x →
      Seam (H :: rs) x → Seam (H :: ⟨q, sz⟩ :: rs) x := by
    rintro q sz hq c hc _ rfl hx
    exact hx.insert ((hg.chunk_apart_fresh hq hc).not_inner (hg.size_pos hc)).2
  cases hsup with
  | nothing => exact hs
  | @region A C q sz hz hL hq hsz hA hC =>
    subst hL
    have hsplit : ∀ c ∈ A ++ ⟨q, BORDER_EXTRA, some (sz - BORDER_EXTRA)⟩ ::
        ⟨q + BORDER_EXTRA, sz - BORDER_EXTRA, none⟩ :: C, c.border = none →
        c ∈ A ++ C ∨ c = ⟨q + BORDER_EXTRA, sz - BORDER_EXTRA, none⟩ := by
      intro c hc hn
      simp only [List.mem_append, List.mem_cons] at hc ⊢
      rcases hc with hc | rfl | rfl | hc
      · exact Or.inl (Or.inl hc)
      · simp at hn
      · exact Or.inr rfl
      · exact Or.inl (Or.inr hc)
    refine ⟨fun c hc d hd hcn hdn hj => ?_, fun hne => absurd hz hne⟩
    simp only [BORDER_EXTRA, chunkSize] at *
    rcases hsplit c hc hcn with hc | rfl
    · have hcs := hg.size_pos hc
      rcases hsplit d hd hdn with hd | rfl
      · exact hold q sz hq c hc _ hj (hs.chunks c hc d hd hcn hdn hj)
      · -- an old entry does not end inside the new region
        have hap := hg.chunk_apart_fresh hq hc
        simp only [Chunk.ext, Extent.Apart, Extent.fin] at *
        omega
    · have hend : d.addr = (⟨q, sz⟩ : Extent).fin := by
        simp only [Extent.fin] at *
        omega
      rw [hend]
      exact (hq.seam hH).2
  | @chunk A C q sz hne hL hq hsz hA hC =>
    subst hL
    have hsplit : ∀ c ∈ A ++ ⟨q, sz, none⟩ :: C, c ∈ A ++ C ∨ c = ⟨q, sz, none⟩ := by
      intro c hc
      simp only [List.mem_append, List.mem_cons] at hc ⊢
      tauto
    have hseam := hq.seam hH
    refine ⟨fun c hc d hd hcn hdn hj => ?_, fun hne c hc hcn hj => ?_⟩
    · rcases hsplit d hd with hd | rfl
      · rcases hsplit c hc with hc | rfl
        · exact hold q sz hq c hc _ hj (hs.chunks c hc d hd hcn hdn hj)
        · exact hj ▸ hseam.2
      · exact hseam.1
    · rcases hsplit c hc with hc | rfl
      · exact hold q sz hq c hc _ hj (hs.base hne c hc hcn hj)
      · exact hj ▸ hseam.2
  | @heap A C sz hne hL hst hsz hA hC =>
    subst hL
    have hsplit : ∀ c ∈ A ++ ⟨hb, sz, none⟩ :: C, c ∈ A ++ C ∨ c = ⟨hb, sz, none⟩ := by
      intro c hc
      simp only [List.mem_append, List.mem_cons] at hc ⊢
      tauto
    simp only [chunkSize] at hsz
    refine ⟨fun c hc d hd hcn hdn hj => ?_, fun hne c hc hcn hj => ?_⟩
    · rcases hsplit c hc with hc | rfl
      · rcases hsplit d hd with hd | rfl
        · exact hs.chunks c hc d hd hcn hdn hj
        · exact hs.base hne c hc hcn hj
      · -- nothing begins in the part that is not handed out
        rcases hsplit d hd with hd | rfl
        · have hap := ((hg.chunk d hd).home hdn).reserve hne
          have hds := hg.size_pos hd
          simp only [Chunk.ext, Extent.Apart, Extent.fin] at *
          omega
        · simp only at hj
          omega
    · rcases hsplit c hc with hc | rfl
      · exact hs.base hne c hc hcn hj
      · simp only at hj
        omega

theorem Carved.sealed (hcv : Carved n L e L') (hg : Geo E rs hb' st L' (b :: B)) (he : b.ext = e)
    (hs : Sealed (H :: rs) hb L) (htop : hb' ≠ hb → e.fin = hb') : Sealed (H :: rs) hb' L' := by
  have hbs := (hg.block b List.mem_cons_self).wf.size
  have hblk : ∀ c ∈ L', c.ext.Apart e := fun c hc => he ▸ hg.clear c hc b List.mem_cons_self
  have hepos : 0 < e.len := by
    rw [← he]
    exact Nat.lt_of_lt_of_le (by decide) hbs
  -- an entry is an old one, or it ends where the block begins
  have hrest : ∀ c ∈ L', c.border = none → (c ∈ L ∨ c.addr + c.size = e.base) ∧
      ∃ k ∈ L, k.border = none ∧ k.addr = c.addr := by
    intro c hc hn
    cases hcv with
    | @split A C k hk hlt =>
      simp only [List.mem_append, List.mem_cons] at hc
      rcases hc with hc | rfl | hc
      · exact ⟨Or.inl (by simp [hc]), c, by simp [hc], hn, rfl⟩
      · exact ⟨Or.inr rfl, k, by simp, hk, rfl⟩
      · exact ⟨Or.inl (by simp [hc]), c, by simp [hc], hn, rfl⟩
    | @take A C k hk hlt hle =>
      have hcL : c ∈ A ++ k :: C := mem_around [k] hc
      exact ⟨Or.inl hcL, c, hcL, hn, rfl⟩
  constructor
  · intro c hc d hd hcn hdn hj
    obtain ⟨k, hk, hkn, hkd⟩ := (hrest d hd hdn).2
    rcases (hrest c hc hcn).1 with hcL | hend
    · exact hkd ▸ hs.chunks c hcL k hk hcn hkn (hkd ▸ hj)
    · -- the entry above would begin where the block does
      have hap := hblk d hd
      have hds := hg.size_pos hd
      simp only [Chunk.ext, Extent.Apart, Extent.fin] at *
      omega
  · intro hne c hc hcn hj
    have hcs := hg.size_pos hc
    have hap := hblk c hc
    by_cases hsame : hb' = hb
    · subst hsame
      rcases (hrest c hc hcn).1 with hcL | hend
      · exact hs.base hne c hcL hcn hj
      · -- the block would begin where the reserve does
        have hres := (hg.block b List.mem_cons_self).home.reserve hne
        have hst := (hg.reserve hne).pos
        rw [he] at hres
        simp only [Extent.Apart, Extent.fin] at *
        omega
    · have := htop hsame
      simp only [Chunk.ext, Extent.Apart, Extent.fin] at *
      omega

theorem Allocated.sealed {h h' : Heap} (hall : Allocated E h L B n e h' L')
    (hg : Geo E h.regions h.heapbase h.stksize L B) (hH : HeapIn E H)
    (hs : Sealed (H :: h.regions) h.heapbase L) : Sealed (H :: h'.regions) h'.heapbase L' := by
  obtain ⟨L₁, hsup, hcv, -⟩ := hall.path
  exact hcv.sealed hall.inv.geo rfl (hsup.sealed hg hH hs) hall.top

theorem Geo.last_below (hg : Geo E rs hb st (A ++ r :: C) B) (hc : c ∈ A)
    (hj : c.addr + c.size = r.addr) : A.getLast? = some c := by
  obtain ⟨A', p, rfl⟩ : ∃ A' p, A = A' ++ [p] := by
    rcases List.eq_nil_or_concat A with rfl | ⟨A', p, rfl⟩
    · simp at hc
    · exact ⟨A', p, by simp⟩
  rcases List.mem_append.mp hc with hc | hc
  · have hasc := (List.pairwise_append.mp (List.pairwise_append.mp hg.asc).1).2.2 c hc p (by simp)
    have hpr := (Geo.asc_around hg.asc).1 p (by simp)
    have hps := hg.size_pos (c := p) (by simp)
    omega
  · rw [List.mem_singleton.mp hc]
    simp

/-- The freed chunk has taken in what lies right behind it: it may touch only an
entry below. -/
structure SealedAbove (rs : List Extent) (hb : ℕ) (A : List Chunk) (r : Chunk) (C : List Chunk) :
    Prop where
  chunks : ∀ c ∈ A ++ r :: C, ∀ d ∈ A ++ r :: C, c.border = none → d.border = none →
    c.addr + c.size = d.addr → d.addr ≠ r.addr → Seam rs d.addr
  base : hb ≠ 0 → ∀ c ∈ A ++ C, c.border = none → c.addr + c.size = hb → Seam rs hb

theorem absorbUp_sealed (hs : Sealed rs hb (A ++ C)) (hg : Geo E rs' hb st (A ++ r :: C) B) :
    SealedAbove rs hb A (absorbUp r C).1 (absorbUp r C).2 := by
  have hsub : ∀ c ∈ A ++ (absorbUp r C).2, c ∈ A ++ C := by
    intro c hc
    rcases List.mem_append.mp hc with hc | hc
    · exact List.mem_append_left _ hc
    · exact List.mem_append_right _ (absorbUp_subset hc)
  have hsplit : ∀ c ∈ A ++ (absorbUp r C).1 :: (absorbUp r C).2,
      c ∈ A ++ (absorbUp r C).2 ∨ c = (absorbUp r C).1 := by
    intro c hc
    simp only [List.mem_append, List.mem_cons] at hc ⊢
    tauto
  refine ⟨fun c hc d hd hcn hdn hj hne => ?_, fun hne c hc => hs.base hne c (hsub c hc)⟩
  rcases hsplit d hd with hd | rfl
  · rcases hsplit c hc with hc | rfl
    · exact hs.chunks c (hsub c hc) d (hsub d hd) hcn hdn hj
    · -- what the chunk took in ended there already
      have hac := Geo.asc_around hg.asc
      have hrs := hg.size_pos (c := r) (by simp)
      have hds := hg.size_pos (c := d) (mem_around [r] (hsub d hd))
      cases C with
      | nil =>
        simp only [absorbUp, List.append_nil] at hd hj
        have := hac.1 d hd
        omega
      | cons k C =>
        by_cases hk : k.border = none ∧ r.addr + r.size = k.addr
        · rw [absorbUp, if_pos hk] at hd hj
          refine hs.chunks k (by simp) d ?_ hk.1 hdn ?_
          · exact mem_around [k] hd
          · simp only at hj
            omega
        · rw [absorbUp, if_neg hk] at hd hj
          simp only at hd hj
          rcases List.mem_append.mp hd with hd | hd
          · have := hac.1 d hd
            omega
          rcases List.mem_cons.mp hd with rfl | hd
          · exact absurd ⟨hdn, hj⟩ hk
          · have hgk : Geo E rs' hb st ((A ++ [r]) ++ k :: C) B := by simpa using hg
            have h1 := (Geo.asc_around hgk.asc).2 d hd
            have h2 := (Geo.asc_around hgk.asc).1 r (by simp)
            have h3 := hg.size_pos (c := k) (by simp)
            omega
  · exact absurd rfl hne

theorem mem_mfree {h : Heap} (p : ℕ) : ∀ R ∈ H :: (Mfree p h).regions, R ∈ H :: h.regions := by
  intro R hR
  rcases List.mem_cons.mp hR with rfl | hR
  · exact List.mem_cons_self
  · exact List.mem_cons_of_mem _ (List.mem_of_mem_filter hR)

/-- Whatever `free` does with the chunk, no two free chunks touch afterwards if the
lower neighbour is merged where that is possible. -/
theorem Released.sealed {h : Heap} {f : Effect} (hn : r.border = none)
    (hrel : Released (ownHeap h) h.heapbase A r C L f)
    (hg : Geo E h.regions h.heapbase h.stksize (A ++ r :: C) B)
    (hs : SealedAbove (H :: h.regions) h.heapbase A r C)
    (hjoin : C = [] → ∀ p ∈ A, p.border = none → p.addr + p.size = r.addr →
      Seam (H :: h.regions) r.addr)
    (hown : ownHeap h = false → h.heapbase ≠ 0 → Seam (H :: h.regions) h.heapbase) :
    Sealed (H :: (f.apply h).regions) (f.apply h).heapbase L := by
  have hac := Geo.asc_around hg.asc
  have hrs := hg.size_pos (c := r) (by simp)
  have hpos := fun c hc => hg.size_pos (c := c) hc
  have hmem : ∀ c ∈ A ++ C, c ∈ A ++ r :: C := fun c hc => mem_around [r] hc
  -- another entry does not begin where the freed chunk does
  have hoff : ∀ c ∈ A ++ C, c.addr ≠ r.addr := by
    intro c hc
    have hcs := hpos c (hmem c hc)
    rcases List.mem_append.mp hc with hc | hc
    · have := hac.1 c hc
      omega
    · have := hac.2 c hc
      omega
  have hrest : ∀ c ∈ A ++ C, ∀ d ∈ A ++ C, c.border = none → d.border = none →
      c.addr + c.size = d.addr → Seam (H :: h.regions) d.addr := fun c hc d hd hcn hdn hj =>
    hs.chunks c (hmem c hc) d (hmem d hd) hcn hdn hj (hoff d hd)
  -- below the chunk there is a seam, unless a merge took the lower neighbour in
  have hfar : (C = [] ∨ ∀ p ∈ A.getLast?, p.addr + p.size ≠ r.addr) → ∀ c ∈ A ++ C,
      c.border = none → c.addr + c.size = r.addr → Seam (H :: h.regions) r.addr := by
    intro hfar c hc hcn hj
    have hcA : c ∈ A := by
      rcases List.mem_append.mp hc with hc | hc
      · exact hc
      · have := hac.2 c hc
        have := hpos c (by simp [hc])
        omega
    rcases hfar with hC | hfar
    · exact hjoin hC c hcA hcn hj
    · exact absurd hj (hfar c (hg.last_below hcA hj))
  cases hrel with
  | link hfar' hno =>
    refine ⟨fun c hc d hd hcn hdn hj => ?_, fun hne c hc hcn hj => ?_⟩
    · by_cases hdr : d.addr = r.addr
      · rw [hdr] at hj ⊢
        refine hfar hfar' c ?_ hcn hj
        simp only [List.mem_append, List.mem_cons] at hc ⊢
        rcases hc with hc | rfl | hc
        · exact Or.inl hc
        · omega
        · exact Or.inr hc
      · exact hs.chunks c hc d hd hcn hdn hj hdr
    · simp only [List.mem_append, List.mem_cons] at hc
      rcases hc with hc | rfl | hc
      · exact hs.base hne c (by simp [hc]) hcn hj
      · exact hown (by simpa using fun ho => hno ⟨ho, hj⟩) hne
      · exact hs.base hne c (by simp [hc]) hcn hj
  | toHeap hfar' hyes =>
    exact ⟨hrest, fun _ => hfar hfar'⟩
  | @behindBorder A C p r a hp hj hC ha =>
    have hz : h.heapbase = 0 := ((hg.chunk p (by simp)).region a hp).1
    refine ⟨fun c hc d hd hcn hdn hcd => ?_, fun hne => absurd hz hne⟩
    have hsame : A ++ p :: r :: C = A ++ [p] ++ r :: C := by simp
    rw [hsame] at hc hd
    by_cases hdr : d.addr = r.addr
    · -- only the border marker ends where the chunk begins
      have hcp : c = p := hg.eq_of_fin hc (by simp) (by omega)
      rw [hcp, hp] at hcn
      simp at hcn
    · exact hs.chunks c hc d hd hcn hdn hcd hdr
  | @drop A C p r hp hj hC =>
    have hz : h.heapbase = 0 := ((hg.chunk p (by simp)).region _ hp).1
    have hsub : ∀ c ∈ A ++ C, c ∈ A ++ [p] ++ C := fun c hc => by
      rw [List.append_assoc]
      exact mem_around [p] hc
    refine ⟨fun c hc d hd hcn hdn hcd => ?_, fun hne => absurd hz hne⟩
    exact (hrest c (hsub c hc) d (hsub d hd) hcn hdn hcd).mono (mem_mfree _)
  | @merge A C p r hp hj hC hno hopen =>
    have hps := hpos p (by simp)
    have hsub : ∀ c ∈ A ++ C, c ∈ A ++ [p] ++ C := fun c hc => by
      rw [List.append_assoc]
      exact mem_around [p] hc
    have hsplit : ∀ c ∈ A ++ ⟨p.addr, p.size + r.size, none⟩ :: C,
        c ∈ A ++ C ∨ c = ⟨p.addr, p.size + r.size, none⟩ := by
      intro c hc
      simp only [List.mem_append, List.mem_cons] at hc ⊢
      tauto
    refine ⟨fun c hc d hd hcn hdn hcd => ?_, fun hne c hc hcn hcd => ?_⟩
    · rcases hsplit c hc with hc | rfl
      · rcases hsplit d hd with hd | rfl
        · exact hrest c (hsub c hc) d (hsub d hd) hcn hdn hcd
        · exact hrest c (hsub c hc) p (by simp) hcn hp hcd
      · -- the joined chunk ends where the freed one did
        rcases hsplit d hd with hd | rfl
        · simp only at hcd
          exact hs.chunks r (by simp) d (hmem d (hsub d hd)) hn hdn (by omega)
            (hoff d (hsub d hd))
        · simp only at hcd
          omega
    · rcases hsplit c hc with hc | rfl
      · exact hs.base hne c (hsub c hc) hcn hcd
      · exact hown (by simpa using fun ho => hno ⟨ho, hcd⟩) hne
  | @mergeToHeap A C p r hp hj hC hyes =>
    have hsub : ∀ c ∈ A ++ C, c ∈ A ++ [p] ++ C := fun c hc => by
      rw [List.append_assoc]
      exact mem_around [p] hc
    exact ⟨fun c hc d hd => hrest c (hsub c hc) d (hsub d hd), fun _ c hc hcn hcd =>
      hrest c (hsub c hc) p (by simp) hcn hp hcd⟩
  | @mergeDrop A C o p r hp hj hC ho =>
    have hz : h.heapbase = 0 := ((hg.chunk o (by simp)).region _ ho).1
    have hsub : ∀ c ∈ A ++ C, c ∈ A ++ [o] ++ [p] ++ C := fun c hc => by
      rw [List.append_assoc, List.append_assoc]
      exact mem_around ([o] ++ [p]) hc
    refine ⟨fun c hc d hd hcn hdn hcd => ?_, fun hne => absurd hz hne⟩
    exact (hrest c (hsub c hc) d (hsub d hd) hcn hdn hcd).mono (mem_mfree _)

end Abstract

/-- While `_split_mem` is set, our own heap has not been touched. -/
def SplitKept (h h' : Heap) : Prop :=
  h'.split_mem = true → h.split_mem = true ∧ h'.heapbase = h.heapbase

section Split

variable {E : Layout} {os : Os} {h h₁ h₂ h' : Heap} {n sz p q r o len a : ℕ} {x : ℕ × Heap}

theorem SplitKept.of_same (hs : h'.split_mem = h.split_mem) (hb : h'.heapbase = h.heapbase) :
    SplitKept h h' := fun ht => ⟨hs ▸ ht, hb⟩

theorem SplitKept.trans (h₁₂ : SplitKept h h₁) (h₂₃ : SplitKept h₁ h₂) : SplitKept h h₂ := by
  intro ht
  obtain ⟨hs, hb⟩ := h₂₃ ht
  obtain ⟨hs', hb'⟩ := h₁₂ hs
  exact ⟨hs', hb.trans hb'⟩

theorem SplitKept.of_clear (hc : h.split_mem = false) (hs : h'.split_mem = h.split_mem) :
    SplitKept h h' := by
  intro ht
  rw [hs, hc] at ht
  exact absurd ht (by decide)

theorem split_of_ownHeap (ho : ownHeap h = true) : h.split_mem = false := by
  simp only [ownHeap, Bool.and_eq_true, Bool.not_eq_true'] at ho
  exact ho.1

theorem split_of_inReserve {s : ℕ} (hin : inReserve s h = true) : h.split_mem = false := by
  simp only [inReserve, Bool.and_eq_true] at hin
  exact split_of_ownHeap hin.1.1

theorem HeapAlloc_split (os : Os) (n : ℕ) (h : Heap) :
    (HeapAlloc os n h).2.split_mem = h.split_mem := by
  unfold HeapAlloc
  simp only
  split_ifs <;> rfl

theorem sbrkSource_split (os : Os) (a n : ℕ) (h : Heap) : SplitKept h (sbrkSource os a n h).2 := by
  unfold sbrkSource
  split_ifs with ho hn
  · exact SplitKept.of_clear (split_of_ownHeap ho) (HeapAlloc_split os n h)
  · exact SplitKept.of_same rfl rfl
  · unfold gemMalloc
    split_ifs <;> exact SplitKept.of_same rfl rfl

theorem sbrk_split (os : Os) (n : ℕ) (h : Heap) : SplitKept h (sbrk os n h).2 := by
  have hfirst := sbrkSource_split os os.malloc₁ n h
  have hsecond := sbrkSource_split os os.malloc₂ n
    { (sbrkSource os os.malloc₁ n h).2 with split_mem := false }
  -- the second attempt is made with `_split_mem` clear
  have hclear : ∀ h', SplitKept { (sbrkSource os os.malloc₁ n h).2 with split_mem := false } h' →
      SplitKept h h' := fun h' hk ht => absurd (hk ht).1 (by simp)
  unfold sbrk
  simp only
  split_ifs
  · exact hclear _ hsecond
  · exact hclear _ hsecond
  · exact hfirst
  · exact hfirst

theorem hunk_split (E : Layout) (n : ℕ) (h : Heap) : SplitKept h (hunk E n h).2 := by
  unfold hunk
  apply SplitKept.of_same <;> (simp only; split_ifs <;> rfl)

theorem linkHunk_split (hl : linkHunk E q sz h = some (p, r, h')) : SplitKept h h' := by
  rw [linkHunk, Option.bind_eq_bind, Option.bind_eq_some_iff] at hl
  obtain ⟨w, -, hl⟩ := hl
  simp only at hl
  by_cases hz : h.heapbase = 0
  · rw [if_pos hz] at hl
    cases hl
    exact SplitKept.of_same rfl rfl
  · rw [if_neg hz] at hl
    cases hl
    exact SplitKept.of_same rfl rfl

theorem handOut_split (n p q : ℕ) (h : Heap) : SplitKept h (handOut n p q h).2 :=
  SplitKept.of_same rfl rfl

theorem malloc_split (hm : malloc E os n h = some x) : SplitKept h x.2 := by
  rw [malloc, Option.bind_eq_bind, Option.bind_eq_some_iff] at hm
  obtain ⟨w, -, hm⟩ := hm
  have hask := (hunk_split E (chunkBytes n) h).trans
    (sbrk_split os (hunk E (chunkBytes n) h).1 (hunk E (chunkBytes n) h).2)
  simp only at hm
  split_ifs at hm
  · cases hm
    exact hask
  · rw [Option.bind_eq_bind, Option.bind_eq_some_iff] at hm
    obtain ⟨y, hl, hm⟩ := hm
    cases hm
    exact (hask.trans (linkHunk_split hl)).trans (handOut_split _ _ _ _)
  · cases hm
    exact handOut_split _ _ _ _

theorem mergeBefore_split (hf : mergeBefore E o p r h = some h') : SplitKept h h' := by
  unfold mergeBefore at hf
  simp only at hf
  split_ifs at hf with hin hend
  · cases hf
    exact SplitKept.of_same rfl rfl
  · -- our own heap takes the chunk back
    cases hf
    exact SplitKept.of_clear (split_of_inReserve hin) rfl
  · rw [Option.bind_eq_bind, Option.bind_eq_some_iff] at hf
    obtain ⟨w, -, hf⟩ := hf
    split_ifs at hf <;> cases hf <;> exact SplitKept.of_same rfl rfl
  · cases hf
    exact SplitKept.of_same rfl rfl

theorem linkIn_split (hf : linkIn E o p q r h = some h') : SplitKept h h' := by
  unfold linkIn at hf
  simp only at hf
  split_ifs at hf with hnear hjoin hborder hfull hin hend
  · cases hf
    exact SplitKept.of_same rfl rfl
  · cases hf
    exact SplitKept.of_same rfl rfl
  · cases hf
    exact SplitKept.of_same rfl rfl
  · exact mergeBefore_split hf
  · cases hf
    exact SplitKept.of_same rfl rfl
  · cases hf
    exact SplitKept.of_clear (split_of_inReserve hin) rfl
  · cases hf
    exact SplitKept.of_same rfl rfl

theorem free_split (hf : free E p h = some h') : SplitKept h h' := by
  unfold free at hf
  simp only at hf
  split_ifs at hf
  · cases hf
    exact SplitKept.of_same rfl rfl
  · cases hf
    exact SplitKept.of_same rfl rfl
  · rw [Option.bind_eq_bind, Option.bind_eq_some_iff] at hf
    obtain ⟨w, -, hf⟩ := hf
    split at hf
    · cases hf
      exact SplitKept.of_same rfl rfl
    · have hlink := linkIn_split hf
      exact hlink

theorem moveBlock_split (hm : moveBlock E os r n len h = some x) : SplitKept h x.2 := by
  rw [moveBlock, Option.bind_eq_bind, Option.bind_eq_some_iff] at hm
  obtain ⟨y, hmal, hm⟩ := hm
  have hfirst := malloc_split hmal
  simp only at hm
  split_ifs at hm
  · rw [Option.bind_eq_bind, Option.bind_eq_some_iff] at hm
    obtain ⟨h₁, hfree, hm⟩ := hm
    cases hm
    have hcopy : SplitKept y.2 { y.2 with mem := copy y.2.mem y.1 r len } :=
      SplitKept.of_same rfl rfl
    exact hfirst.trans (hcopy.trans (free_split hfree))
  · cases hm
    exact hfirst

theorem realloc_split (hr : realloc E os r n h = some x) : SplitKept h x.2 := by
  unfold realloc at hr
  simp only at hr
  split_ifs at hr
  · exact malloc_split hr
  · rw [Option.bind_eq_bind, Option.bind_eq_some_iff] at hr
    obtain ⟨h₁, hfree, hr⟩ := hr
    cases hr
    exact free_split hfree
  · rw [Option.bind_eq_bind, Option.bind_eq_some_iff] at hr
    obtain ⟨y, hmv, hr⟩ := hr
    have hfirst := moveBlock_split hmv
    cases hr
    exact hfirst
  · rw [grow, Option.bind_eq_bind, Option.bind_eq_some_iff] at hr
    obtain ⟨w, -, hr⟩ := hr
    simp only at hr
    split_ifs at hr
    · cases hr
      exact SplitKept.of_same rfl rfl
    · exact moveBlock_split hr
  · cases hr
    exact SplitKept.of_same rfl rfl

theorem libcMemalign_split (hm : libcMemalign E os a sz h = some x) : SplitKept h x.2 := by
  unfold libcMemalign at hm
  split_ifs at hm
  · exact malloc_split hm
  · rw [Option.bind_eq_bind, Option.bind_eq_some_iff] at hm
    obtain ⟨y, hmal, hm⟩ := hm
    have hfirst := malloc_split hmal
    simp only at hm
    split_ifs at hm
    · cases hm
      exact hfirst.trans (SplitKept.of_same rfl rfl)
    · cases hm
      exact hfirst

theorem exec_split {c : Call} {s : Sys} {y : ℕ × Sys} (he : exec E os c s = some y) :
    SplitKept s.heap y.2.heap := by
  cases c with
  | malloc n =>
    obtain ⟨z, hz, rfl⟩ := Option.map_eq_some_iff.mp he
    exact malloc_split hz
  | calloc n sz =>
    obtain ⟨z, hz, rfl⟩ := Option.map_eq_some_iff.mp he
    rw [calloc, Option.bind_eq_bind, Option.bind_eq_some_iff] at hz
    obtain ⟨w, hmal, hz⟩ := hz
    cases hz
    refine (malloc_split hmal).trans ?_
    simp only
    split_ifs <;> exact SplitKept.of_same rfl rfl
  | realloc p n =>
    obtain ⟨z, hz, rfl⟩ := Option.map_eq_some_iff.mp he
    exact realloc_split hz
  | free p =>
    obtain ⟨z, hz, rfl⟩ := Option.map_eq_some_iff.mp he
    exact free_split hz
  | memalign a n =>
    obtain ⟨z, hz, rfl⟩ := Option.map_eq_some_iff.mp he
    exact libcMemalign_split hz
  | posixMemalign a n =>
    obtain ⟨z, hz, rfl⟩ := Option.map_eq_some_iff.mp he
    unfold posixMemalign at hz
    split_ifs at hz
    · cases hz
      exact SplitKept.of_same rfl rfl
    · rw [Option.bind_eq_bind, Option.bind_eq_some_iff] at hz
      obtain ⟨w, hmem, hz⟩ := hz
      have hfirst := libcMemalign_split hmem
      simp only at hz
      split_ifs at hz <;> cases hz <;> exact hfirst
  | store p i v =>
    cases he
    exact SplitKept.of_same rfl rfl

end Split

/-- `free (p)` gets to merge the chunk downwards, as far as it has to: an entry of the
free list above the chunk remains once the free chunk right behind is merged, or a
free chunk that ends where the chunk begins lies in another region. `free` ignores a
pointer whose header the aligned allocators wrote. -/
def JoinOk (E : Layout) (rs : List Extent) (m : Mem) (p : ℕ) : Prop :=
  valid m (p - chunkSize) = VAL_ALLOC → ∀ F, Linked (next m) E.mchunk_free_list F 0 →
    (∃ a ∈ F, (blockAt m p).base < a ∧ ¬ (valid m a = VAL_FREE ∧ a = (blockAt m p).fin)) ∨
    ∀ a ∈ F, valid m a = VAL_FREE → (chunkAt m a).fin = (blockAt m p).base →
      Seam rs (blockAt m p).base

/-- The condition on `free`, also where `realloc` calls it. `H` is our own heap. -/
def JoinsOk (E : Layout) (H : Extent) (os : Os) (s : Sys) : Call → Prop
  | .free p => p ≠ 0 → JoinOk E (H :: s.heap.regions) s.heap.mem p
  | .realloc p n => p ≠ 0 → (n = 0 → JoinOk E (H :: s.heap.regions) s.heap.mem p) ∧
      (n ≠ 0 → MovesAt E s.heap.mem p n →
        ∀ r h, malloc E os n s.heap = some (r, h) → r ≠ 0 → JoinOk E (H :: h.regions) h.mem p)
  | _ => True

/-- No free chunk of the list ends where another one of the same region begins. -/
def Merged (E : Layout) (H : Extent) (s : Sys) : Prop :=
  ∃ F, Linked (next s.heap.mem) E.mchunk_free_list F 0 ∧ ∀ a ∈ F, ∀ d ∈ F,
    valid s.heap.mem a = VAL_FREE → valid s.heap.mem d = VAL_FREE →
    (chunkAt s.heap.mem a).fin = d → Seam (H :: s.heap.regions) d

/-- What every run under the condition keeps. -/
structure Joined (E : Layout) (H : Extent) (h : Heap) (L : List Chunk) : Prop where
  heap : HeapIn E H
  split : h.split_mem = true → h.heapbase = H.base
  sealed : Sealed (H :: h.regions) h.heapbase L

section Calls

variable {E : Layout} {os : Os} {H : Extent} {rs : List Extent} {m : Mem} {h h' : Heap}
  {s s' : Sys} {c : Call} {L L' : List Chunk} {B B' : List Block} {b : Block} {e : Extent}
  {p n k : ℕ} {t : Bool}

/-- What `JoinOk` says of the abstract list. -/
def JoinFar (rs : List Extent) (L : List Chunk) (b : Block) : Prop :=
  ∀ A C, L = A ++ C → (∀ x ∈ A, x.addr < b.base) → (∀ x ∈ C, b.base ≤ x.addr) →
    (absorbUp b.chunk C).2 ≠ [] ∨
    ∀ q ∈ A, q.border = none → q.addr + q.size = b.base → Seam rs b.base

theorem JoinOk.far (h : JoinOk E rs m b.ptr) (hr : Rep E m L B) (hb : b ∈ B) (hw : b.Wf)
    (hm : b.moved = false) : JoinFar rs L b := by
  intro A C hL hA hC
  have hblk : blockAt m b.ptr = b.ext := blockAt_eq (hr.block b hb) hw hm
  have hvalid : valid m (b.ptr - chunkSize) = VAL_ALLOC := by
    have hptr : b.ptr - chunkSize = b.hdr := Nat.add_sub_cancel _ _
    rw [hptr, (hr.block b hb).valid, hm]
    rfl
  rcases h hvalid (L.map Chunk.addr) hr.links with ⟨a, ha, hlt, hnot⟩ | hall
  · rw [hblk] at hlt hnot
    exact Or.inl (rest_of_above hr hL hA ha hlt hnot)
  · right
    intro q hq hqn hj
    have hqL : q ∈ L := by
      rw [hL]
      exact List.mem_append_left _ hq
    have hk := hr.chunk q hqL
    have hseam := hall q.addr (List.mem_map_of_mem hqL) (hk.free_iff.mpr hqn)
    rw [hblk, chunkAt_eq hk] at hseam
    exact hseam hj

theorem Joined.own (hj : Joined E H h L) (hg : Geo E h.regions h.heapbase h.stksize L B)
    (ho : ownHeap h = false) (hne : h.heapbase ≠ 0) : Seam (H :: h.regions) h.heapbase := by
  have hsplit : h.split_mem = true := by
    simpa [ownHeap, hne] using ho
  rw [hj.split hsplit]
  intro R hR
  rcases List.mem_cons.mp hR with rfl | hR
  · omega
  rcases hj.heap with hz | ⟨hpos, hin⟩
  · rw [hz]
    simp
  · exact (((hg.regions.tpa R hR).mono (Extent.Within.refl _) hin).symm.not_inner hpos).1

theorem free_joined (hi : Inv E h L (b :: B)) (hj : Joined E H h L)
    (hfar : b.moved = false → JoinFar (H :: h.regions) L b) :
    ∃ h' L', free E b.ptr h = some h' ∧ Inv E h' L' B ∧ Sealed (H :: h'.regions) h'.heapbase L' := by
  cases hm : b.moved with
  | true =>
    refine ⟨h, L, free_moved (hi.rep.block b (by simp)) hm, ?_, hj.sealed⟩
    exact ⟨hi.rep.forget, hi.geo.forget, hi.hunk⟩
  | false =>
    obtain ⟨A, C, L', f, m', hf⟩ := free_steps hi hm
    refine ⟨_, L', hf.result, hf.inv, ?_⟩
    refine Released.sealed (h := { h with mem := m' }) hf.border hf.released hf.geo
      (absorbUp_sealed (hf.split ▸ hj.sealed) hf.link) ?_ (hj.own hi.geo)
    intro hnil q hq hqn hqj
    rw [hf.addr] at hqj ⊢
    rcases hfar hm A C hf.split hf.below hf.above with hne | hseam
    · exact absurd hnil hne
    · exact hseam q hq hqn hqj

def Stays (E : Layout) (H : Extent) (os : Os) (c : Call) (s : Sys) : Prop :=
  ∃ r s' L' B', exec E os c s = some (r, s') ∧ Inv E s'.heap L' B' ∧
    Sealed (H :: s'.heap.regions) s'.heap.heapbase L'

theorem stays_malloc (hh : Holds E s L B) (hj : Joined E H s.heap L) (hw : NoWrap E s.heap n)
    (hos : OsOk E s.heap n os) : Stays E H os (.malloc n) s := by
  rcases malloc_spec hh.inv hw hos with ⟨k, t, hmal, hk⟩ | ⟨e, h', L', hmal, hall⟩
  · refine ⟨0, ⟨{ s.heap with MINHUNK := k, split_mem := t }, s.live⟩, L, B, ?_,
      hh.inv.settings hk, hj.sealed⟩
    rw [exec, hmal]
    rfl
  · refine ⟨(plainBlock e n).ptr, ⟨h', hold (plainBlock e n).ptr n s.live⟩, L', _, ?_,
      hall.inv, hall.sealed hh.inv.geo hj.heap hj.sealed⟩
    rw [exec, hmal]
    rfl

theorem stays_calloc {sz : ℕ} (hh : Holds E s L B) (hj : Joined E H s.heap L)
    (hw : NoWrap E s.heap (n * sz)) (hos : OsOk E s.heap (n * sz) os) :
    Stays E H os (.calloc n sz) s := by
  rcases calloc_steps hh.inv hw hos with ⟨k, t, hcal, hk⟩ | ⟨e, h₁, L', hall, hcal, hinv⟩
  · refine ⟨0, ⟨{ s.heap with MINHUNK := k, split_mem := t }, s.live⟩, L, B, ?_,
      hh.inv.settings hk, hj.sealed⟩
    rw [exec, hcal]
    rfl
  · refine ⟨(plainBlock e (n * sz)).ptr,
      ⟨{ h₁ with mem := fill h₁.mem (plainBlock e (n * sz)).ptr 0 (n * sz) },
        hold (plainBlock e (n * sz)).ptr (n * sz) s.live⟩, L', _, ?_, hinv, hall.sealed hh.inv.geo hj.heap hj.sealed⟩
    rw [exec, hcal]
    rfl

theorem stays_memalign {a : ℕ} (hh : Holds E s L B) (hj : Joined E H s.heap L)
    (ha : a ≤ MALLOC_ALIGNMENT ∨ 8 ∣ a) (hw : NoWrap E s.heap (alignedBytes a n))
    (hos : OsOk E s.heap (alignedBytes a n) os) : Stays E H os (.memalign a n) s := by
  rcases libcMemalign_steps hh.inv ha hw hos with ⟨k, t, hmem, -, hk⟩ |
    ⟨e, h₁, L', b, m', -, hall, hmem, -, hinv, -⟩
  · refine ⟨0, ⟨{ s.heap with MINHUNK := k, split_mem := t }, s.live⟩, L, B, ?_,
      hh.inv.settings hk, hj.sealed⟩
    rw [exec, hmem]
    rfl
  · refine ⟨b.ptr, ⟨{ h₁ with mem := m' }, hold b.ptr n s.live⟩, L', _, ?_, hinv, hall.sealed hh.inv.geo hj.heap hj.sealed⟩
    rw [exec, hmem]
    rfl

theorem stays_posixMemalign {a : ℕ} (hh : Holds E s L B) (hj : Joined E H s.heap L)
    (hw : ∀ k ∈ request (.posixMemalign a n), NoWrap E s.heap k)
    (hos : ∀ k ∈ request (.posixMemalign a n), OsOk E s.heap k os) :
    Stays E H os (.posixMemalign a n) s := by
  by_cases hbad : a % 4 ≠ 0 ∨ powerof2 (a / 4) = false ∨ a = 0
  · refine ⟨0, s, L, B, ?_, hh.inv, hj.sealed⟩
    rw [exec, posixMemalign, if_pos hbad]
    rfl
  · simp only [request, if_neg hbad, Option.mem_def, Option.some.injEq, forall_eq'] at hw hos
    -- it is `memalign` with another way to return the pointer
    obtain ⟨r, s', L', B', hex, hinv, hs⟩ :=
      stays_memalign (n := n) hh hj (alignment_of_check hbad) hw hos
    rw [exec, Option.map_eq_some_iff] at hex
    obtain ⟨⟨r', h'⟩, hmem, heq⟩ := hex
    rw [Prod.mk.injEq] at heq
    obtain ⟨rfl, rfl⟩ := heq
    by_cases hz : r' = 0
    · refine ⟨0, ⟨h', hold 0 n s.live⟩, L', B', ?_, hinv, hs⟩
      rw [exec, posixMemalign, if_neg hbad, hmem, hz]
      rfl
    · refine ⟨r', ⟨h', hold r' n s.live⟩, L', B', ?_, hinv, hs⟩
      rw [exec, posixMemalign, if_neg hbad, hmem]
      simp only [Option.bind_eq_bind, Option.bind_some, if_pos hz, Option.map_some,
        Option.getD_some]

theorem stays_free (hh : Holds E s L B) (hj : Joined E H s.heap L) (hp : Proper s (.free p))
    (hk : JoinsOk E H os s (.free p)) : Stays E H os (.free p) s := by
  rcases hp with rfl | ⟨old, hm⟩
  · refine ⟨0, ⟨s.heap, drop 0 s.live⟩, L, B, ?_, hh.inv, hj.sealed⟩
    rw [exec, free, if_pos rfl]
    rfl
  · obtain ⟨b, B', rfl, -, -, hb⟩ := hh.find hm
    have hbw := (hb.inv.geo.block b List.mem_cons_self).wf
    obtain ⟨h', L', hfree, hinv, hs⟩ := free_joined hb.inv hj fun hm =>
      (hk b.ptr_ne_zero).far hb.inv.rep List.mem_cons_self hbw hm
    refine ⟨0, ⟨h', drop b.ptr s.live⟩, L', B', ?_, hinv, hs⟩
    rw [exec, hfree]
    rfl

theorem stays_realloc (hh : Holds E s L B) (hj : Joined E H s.heap L)
    (hp : Proper s (.realloc p n)) (hf : Fits E s (.realloc p n))
    (ho : OsFits E s (.realloc p n) os) (hc : CopySafe E os s (.realloc p n))
    (hk : JoinsOk E H os s (.realloc p n)) : Stays E H os (.realloc p n) s := by
  rcases hp with rfl | ⟨old, hm⟩
  · -- `realloc (NULL, n)` is `malloc (n)`
    have hreq : n ∈ request (.realloc 0 n) := by simp [request]
    obtain ⟨r, s', L', B', hex, hinv, hs⟩ := stays_malloc hh hj (hf.request n hreq) (ho n hreq)
    rw [exec, Option.map_eq_some_iff] at hex
    obtain ⟨⟨r', h'⟩, hmal, heq⟩ := hex
    rw [Prod.mk.injEq] at heq
    obtain ⟨rfl, rfl⟩ := heq
    refine ⟨r', ⟨h', hold r' n s.live⟩, L', B', ?_, hinv, hs⟩
    rw [exec, realloc, if_pos rfl, hmal]
    rfl
  obtain ⟨b, B', rfl, -, -, hb⟩ := hh.find hm
  have hbw := (hb.inv.geo.block b List.mem_cons_self).wf
  obtain ⟨hz, hmove⟩ := hk b.ptr_ne_zero
  by_cases hn : n = 0
  · -- `realloc (p, 0)` is `free (p)`
    obtain ⟨h', L', hfree, hinv, hs⟩ := free_joined hb.inv hj fun hm =>
      (hz hn).far hb.inv.rep List.mem_cons_self hbw hm
    refine ⟨0, ⟨h', heldAfter b.ptr n 0 s.live⟩, L', B', ?_, hinv, hs⟩
    rw [exec, realloc, if_neg b.ptr_ne_zero, if_pos hn, hfree]
    rfl
  · have hreq : n ∈ request (.realloc b.ptr n) := by simp [request, hn]
    obtain ⟨r, h', L', B₁, hre, hres, hinv, -⟩ := realloc_spec hb.inv hn
      (hf.request n hreq) (hf.slack b.ptr n rfl b.ptr_ne_zero hn) (ho n hreq) (hc.block hb hn)
    have hex : exec E os (.realloc b.ptr n) s = some (r, ⟨h', heldAfter b.ptr n r s.live⟩) := by
      rw [exec, hre]
      rfl
    cases hres with
    | kept k t => exact ⟨_, _, _, _, hex, hinv, hj.sealed⟩
    | failed k t => exact ⟨_, _, _, _, hex, hinv, hj.sealed⟩
    | @grown A C c m' hL hc' hjoin hm' hhdr =>
      refine ⟨_, _, _, _, hex, hinv, hj.sealed.mono (fun R hR => hR) fun d hd => ?_⟩
      rw [hL]
      exact mem_around [c] hd
    | @moved e h₁ h' L₁ L' m₂ hmv hall hmal hinv₁ hfree =>
      have hj₁ : Joined E H { h₁ with mem := m₂ } L₁ := by
        refine ⟨hj.heap, fun ht => ?_, hall.sealed hb.inv.geo hj.heap hj.sealed⟩
        obtain ⟨hs, hbase⟩ := malloc_split hmal ht
        exact hbase.trans (hj.split hs)
      obtain ⟨h₂, L₂, hfree₂, hinv₂, hs⟩ := free_joined hinv₁ hj₁ fun hm => by
        have hat := hmv.at hb.inv.rep List.mem_cons_self hbw hm
        have hjoin := hmove hn hat _ _ hmal (Block.ptr_ne_zero _)
        exact hjoin.far hall.inv.rep (by simp) hbw hm
      obtain rfl : h' = h₂ := Option.some.inj (hfree.symm.trans hfree₂)
      exact ⟨_, _, L₂, _, hex, hinv₂, hs⟩

theorem stays (hh : Holds E s L B) (hj : Joined E H s.heap L) (hp : Proper s c) (hf : Fits E s c)
    (ho : OsFits E s c os) (hc : CopySafe E os s c) (hk : JoinsOk E H os s c) :
    Stays E H os c s := by
  cases c with
  | malloc n => exact stays_malloc hh hj (hf.request n rfl) (ho n rfl)
  | calloc n sz => exact stays_calloc hh hj (hf.request _ rfl) (ho _ rfl)
  | realloc p n => exact stays_realloc hh hj hp hf ho hc hk
  | free p => exact stays_free hh hj hp hk
  | memalign a n => exact stays_memalign hh hj hp (hf.request _ rfl) (ho _ rfl)
  | posixMemalign a n => exact stays_posixMemalign hh hj hf.request ho
  | store p i v =>
    obtain ⟨old, hm, hi⟩ := hp
    obtain ⟨b, B', rfl, rfl, -, hb⟩ := hh.find hm
    obtain ⟨hch, hin⟩ := store_changes (v := v) hb hi
    exact ⟨0, _, L, b :: B', rfl, hb.inv.write hch hin, hj.sealed⟩

end Calls

section Runs

variable {E : Layout} {os : Os} {H : Extent} {s s' : Sys} {c : Call} {L : List Chunk}
  {B : List Block} {es : List (Call × Os × ℕ)} {p old : ℕ}

theorem Joined.merged (hj : Joined E H s.heap L) (hh : Holds E s L B) : Merged E H s := by
  refine ⟨L.map Chunk.addr, hh.inv.rep.links, fun a ha d hd hav hdv hfin => ?_⟩
  obtain ⟨k, hk, rfl⟩ := List.mem_map.mp ha
  obtain ⟨l, hl, rfl⟩ := List.mem_map.mp hd
  have hkc := hh.inv.rep.chunk k hk
  rw [chunkAt_eq hkc] at hfin
  exact hj.sealed.chunks k hk l hl (hkc.free_iff.mp hav)
    ((hh.inv.rep.chunk l hl).free_iff.mp hdv) hfin

def ownExtent (h : Heap) : Extent := if h.heapbase = 0 then ⟨0, 0⟩ else ⟨h.heapbase, h.stksize⟩

/-- Programs whose calls of `free` all meet the condition; `H` is our own heap. -/
def joiningProgram (E : Layout) (H : Extent) : Machine Sys (Call × Os × ℕ) where
  init s := Start E s ∧ ownExtent s.heap = H
  step := (program E fun s c os => CopySafe E os s c ∧ JoinsOk E H os s c).step

theorem Start.joined (h : Start E s) : Joined E (ownExtent s.heap) s.heap [] := by
  refine ⟨?_, fun _ => ?_, ⟨by simp, by simp⟩⟩
  · rw [ownExtent]
    split_ifs with hz
    · exact Or.inl rfl
    · have hres := h.reserve hz
      have hin : ∀ x ∈ (⟨s.heap.heapbase, s.heap.stksize⟩ : Extent), x ∈ E.tpa := by
        intro x hx
        rcases hres.owned x hx with ht | ⟨R, hR, -⟩
        · exact ht
        · simp at hR
      have hpos := hres.pos
      have hlo := hin s.heap.heapbase (by
        rw [Extent.mem_iff]
        simp only
        omega)
      have hhi := hin (s.heap.heapbase + s.heap.stksize - 1) (by
        rw [Extent.mem_iff]
        simp only
        omega)
      right
      simp only [Extent.Within, Extent.fin, Extent.mem_iff] at *
      omega
  · rw [ownExtent]
    split_ifs with hz
    · exact hz
    · rfl

theorem joined_step (hh : Holds E s L B) (hj : Joined E H s.heap L) (hp : Proper s c)
    (hf : Fits E s c) (ho : OsFits E s c os) (hc : CopySafe E os s c) (hk : JoinsOk E H os s c) :
    ∃ r s' L' B', exec E os c s = some (r, s') ∧ Holds E s' L' B' ∧ Joined E H s'.heap L' := by
  obtain ⟨r, s', L', B', hex, hd⟩ := exec_spec hh hp hf ho hc
  obtain ⟨r₁, s₁, L₁, B₁, hex₁, hinv, hs⟩ := stays hh hj hp hf ho hc hk
  rw [hex, Option.some.injEq, Prod.mk.injEq] at hex₁
  obtain ⟨rfl, rfl⟩ := hex₁
  -- memory holds only one free list
  obtain rfl : L' = L₁ := hd.holds.inv.rep.unique hinv.rep hd.holds.inv.geo.clearance
    hinv.geo.clearance
  refine ⟨r, s', L', B', hex, hd.holds, hj.heap, fun ht => ?_, hs⟩
  obtain ⟨hsplit, hbase⟩ := exec_split hex ht
  exact hbase.trans (hj.split hsplit)

theorem joined_of_run (hrun : (joiningProgram E H).Run es s) :
    ∃ L B, Holds E s L B ∧ Joined E H s.heap L := by
  refine hrun.invariant (P := fun s => ∃ L B, Holds E s L B ∧ Joined E H s.heap L) ?_ ?_
  · rintro s ⟨hstart, rfl⟩
    exact ⟨[], [], hstart.holds, hstart.joined⟩
  · rintro s ⟨c, os, r⟩ s' ⟨L, B, hh, hj⟩ ⟨hp, hf, ho, ⟨hc, hk⟩, hex⟩
    obtain ⟨r', t, L', B', hex', hh', hj'⟩ := joined_step hh hj hp hf ho hc hk
    obtain rfl : t = s' := by
      rw [hex] at hex'
      simpa using (congrArg (Option.map Prod.snd) hex').symm
    exact ⟨L', B', hh', hj'⟩

/-- In every run of such calls no two free chunks of one region touch, and `free` of a
live pointer that meets the condition returns and leaves it so. -/
theorem merged_of_run (hrun : (joiningProgram E H).Run es s) :
    Merged E H s ∧ ∀ p old os, (p, old) ∈ s.live → JoinOk E (H :: s.heap.regions) s.heap.mem p →
      ∃ r s', exec E os (.free p) s = some (r, s') ∧ Merged E H s' := by
  obtain ⟨L, B, hh, hj⟩ := joined_of_run hrun
  refine ⟨hj.merged hh, fun p old os hm hk => ?_⟩
  obtain ⟨r, s', L', B', hex, hh', hj'⟩ : ∃ r s' L' B', exec E os (.free p) s = some (r, s') ∧
      Holds E s' L' B' ∧ Joined E H s'.heap L' := joined_step hh hj
    (Or.inr ⟨old, hm⟩) ⟨by simp [request], by simp⟩ (by simp [OsFits, request])
    (fun _ _ _ he => by simp at he) fun _ => hk
  exact ⟨r, s', hex, hj'.merged hh'⟩

theorem demo_joining_one :
    (joiningProgram demoLayout ⟨0, 0⟩).Run [(.malloc 100, demoOs, demoPtr)] demoHeld := by
  have hstart : (joiningProgram demoLayout ⟨0, 0⟩).Run [] demoStart :=
    .start ⟨demoStart_start, rfl⟩
  exact hstart.snoc ⟨demo_step.1, demo_step.2.1, demo_step.2.2.1,
    ⟨fun _ _ _ he => by simp at he, trivial⟩, exec_demo⟩

theorem demo_joining : (joiningProgram demoLayout ⟨0, 0⟩).Run [(.malloc 100, demoOs, demoPtr),
    (.malloc 20000, ⟨0x40000, 0, 0⟩, 0x411dc)] demoTwo := by
  obtain ⟨hp, hf, ho, -, hex⟩ := demo_two_step
  exact demo_joining_one.snoc ⟨hp, hf, ho, ⟨fun _ _ _ he => by simp at he, trivial⟩, hex⟩

theorem merged_of_run_demo : ∃ r s',
    exec demoLayout demoFull (.free demoPtr) demoTwo = some (r, s') ∧
      Merged demoLayout ⟨0, 0⟩ s' := by
  refine (merged_of_run demo_joining).2 demoPtr 100 demoFull (by decide +kernel)
    fun _ F hF => Or.inl ⟨0x40000, ?_, by decide +kernel, by decide +kernel⟩
  -- the third entry is the border marker of the upper region
  have hmem := hF.iterate_mem (k := 2) (by decide +kernel)
  rwa [show (next demoTwo.heap.mem)^[2 + 1] demoLayout.mchunk_free_list = 0x40000 by
    decide +kernel] at hmem

/-- With one region, its last block is freed at the end of the list: the free chunk
below it stays a chunk of its own. -/
theorem touching_after_free :
    (joiningProgram demoLayout ⟨0, 0⟩).Run [(.malloc 100, demoOs, demoPtr)] demoHeld ∧
    (demoPtr, 100) ∈ demoHeld.live ∧
    ∃ r s', exec demoLayout demoFull (.free demoPtr) demoHeld = some (r, s') ∧
      ¬ Merged demoLayout ⟨0, 0⟩ s' := by
  refine ⟨demo_joining_one, by decide +kernel, ?_⟩
  have hex : (exec demoLayout demoFull (.free demoPtr) demoHeld).map
      (fun r => (r.2.heap.regions, (List.range 3).map fun k =>
        (next r.2.heap.mem)^[k + 1] 0x10000, (chunkAt r.2.heap.mem 0x20010).fin,
        valid r.2.heap.mem 0x20010, valid r.2.heap.mem 0x21f90)) =
      some ([⟨0x20000, 0x2000⟩], [0x20000, 0x20010, 0x21f90], 0x21f90, VAL_FREE, VAL_FREE) := by
    decide +kernel
  obtain ⟨⟨r, s'⟩, hr, heq⟩ := Option.map_eq_some_iff.mp hex
  simp only [Prod.mk.injEq] at heq
  obtain ⟨hregions, hlist, hfin, hlow, hhigh⟩ := heq
  refine ⟨r, s', hr, fun ⟨F, hF, hm⟩ => ?_⟩
  simp only [List.range_succ, List.range_zero, List.nil_append, List.map_cons,
    List.map_nil, List.cons_append, List.cons.injEq, and_true] at hlist
  obtain ⟨h1, h2, h3⟩ := hlist
  have hstep : ∀ i ≤ 2, (next s'.heap.mem)^[i + 1] 0x10000 ≠ 0 := by
    intro i hi
    interval_cases i
    · rw [h1]; decide
    · rw [h2]; decide
    · rw [h3]; decide
  have hmem1 := hF.iterate_mem (k := 1) fun i hi => hstep i (by omega)
  have hmem2 := hF.iterate_mem (k := 2) hstep
  rw [show demoLayout.mchunk_free_list = 0x10000 from rfl] at hmem1 hmem2
  rw [h2] at hmem1
  rw [h3] at hmem2
  have hseam := hm _ hmem1 _ hmem2 hlow hhigh hfin
  rw [hregions] at hseam
  exact hseam ⟨0x20000, 0x2000⟩ (by simp) (by decide)

end Runs

end Malloc

end Mintlib
