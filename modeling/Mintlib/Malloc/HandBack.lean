import Mintlib.Malloc.Guarantees

/-!
# Regions go back to the system

`free` looks for an empty region only while it merges a chunk downwards, which it
does not do when the chunk is the last entry of the free list. Under the condition
`FreeOk` every region from `Malloc` holds a live block, in every state of a run.
-/

namespace Mintlib.Malloc

open ByteMemory

/-- `free (p)` gets to merge the chunk downwards, as far as that is possible: an entry
of the free list above the chunk remains once the free chunk right behind is merged,
or no entry ends where the chunk begins. -/
def FreeOk (E : Layout) (m : Mem) (p : ℕ) : Prop :=
  ∀ F, Linked (next m) E.mchunk_free_list F 0 →
    (∃ a ∈ F, (blockAt m p).base < a ∧ ¬ (valid m a = VAL_FREE ∧ a = (blockAt m p).fin)) ∨
    ∀ a ∈ F, (chunkAt m a).fin ≠ (blockAt m p).base

/-- `realloc (p, n)` allocates a new block. -/
def MovesAt (E : Layout) (m : Mem) (p n : ℕ) : Prop :=
  chunkBytes n + resizeSlack < (blockAt m p).len ∨ ((blockAt m p).len < chunkBytes n ∧
    ∃ F, Linked (next m) E.mchunk_free_list F 0 ∧ ∀ a ∈ F, valid m a = VAL_FREE →
      a = (blockAt m p).fin → (blockAt m p).len + size m a < chunkBytes n)

/-- The condition on `free`, also where `realloc` calls it. -/
def ReleaseOk (E : Layout) (os : Os) (s : Sys) : Call → Prop
  | .free p => p ≠ 0 → FreeOk E s.heap.mem p
  | .realloc p n => p ≠ 0 → (n = 0 → FreeOk E s.heap.mem p) ∧
      (n ≠ 0 → MovesAt E s.heap.mem p n →
        ∀ r h, malloc E os n s.heap = some (r, h) → r ≠ 0 → FreeOk E h.mem p)
  | _ => True

/-- Every region from `Malloc` holds a live block, and the free list stays in these regions. -/
structure RegionsUsed (E : Layout) (s : Sys) : Prop where
  used : ∀ R ∈ s.heap.regions, ∃ e ∈ s.live, (blockAt s.heap.mem e.1).Within R
  listed : ∃ F, Linked (next s.heap.mem) E.mchunk_free_list F 0 ∧
    ∀ a ∈ F, ∃ R ∈ s.heap.regions, (chunkAt s.heap.mem a).Within R

/-- A region whose last live block is gone has been handed to `Mfree`, once, and no
entry of the free list is in it. Nothing else has been handed to `Mfree`. -/
structure HandedBack (E : Layout) (s s' : Sys) : Prop where
  empty : ∀ R ∈ s.heap.regions, (∀ e ∈ s'.live, ¬ (blockAt s'.heap.mem e.1).Within R) →
    s'.heap.mfrees = R.base :: s.heap.mfrees ∧ R ∉ s'.heap.regions ∧
      ∃ F, Linked (next s'.heap.mem) E.mchunk_free_list F 0 ∧
        ∀ a ∈ F, (chunkAt s'.heap.mem a).Apart R
  once : s'.heap.mfrees = s.heap.mfrees ∨ ∃ R ∈ s.heap.regions, R ∉ s'.heap.regions ∧
    s'.heap.mfrees = R.base :: s.heap.mfrees ∧
      ∀ e ∈ s'.live, (blockAt s'.heap.mem e.1).Apart R

section Release

variable {E : Layout} {os : Os} {s s' : Sys} {c : Call} {L L' : List Chunk} {B B' : List Block}
  {b : Block} {p n r : ℕ} {m : Mem} {es : List (Call × Os × ℕ)}

/-- An entry above the block stays above the chunk that `free` makes of it, unless it
is the free chunk right behind. -/
theorem rest_of_above {A C : List Chunk} {a : ℕ} (hr : Rep E m L B) (hL : L = A ++ C)
    (hA : ∀ x ∈ A, x.addr < b.base) (ha : a ∈ L.map Chunk.addr) (hlt : b.ext.base < a)
    (hnot : ¬ (valid m a = VAL_FREE ∧ a = b.ext.fin)) : (absorbUp b.chunk C).2 ≠ [] := by
  obtain ⟨c, hc, rfl⟩ := List.mem_map.mp ha
  have hcC : c ∈ C := by
    rw [hL] at hc
    rcases List.mem_append.mp hc with hc | hc
    · exact absurd (hA c hc) (Nat.not_lt.mpr (Nat.le_of_lt hlt))
    · exact hc
  cases C with
  | nil => simp at hcC
  | cons d C =>
    by_cases hd : d.border = none ∧ b.chunk.addr + b.chunk.size = d.addr
    · rw [absorbUp, if_pos hd]
      rcases List.mem_cons.mp hcC with rfl | hcC
      · -- the entry is the chunk that is merged first
        refine absurd ⟨?_, hd.2.symm⟩ hnot
        exact (hr.chunk c hc).free_iff.mpr hd.1
      · exact List.ne_nil_of_mem hcC
    · rw [absorbUp, if_neg hd]
      exact List.cons_ne_nil _ _

/-- What `FreeOk` reads in memory is what the invariant needs. -/
theorem FreeOk.far (h : FreeOk E m b.ptr) (hr : Rep E m L B) (hb : b ∈ B) (hw : b.Wf)
    (hm : b.moved = false) : FarOk L b := by
  intro A C hL hA hC
  have hblk : blockAt m b.ptr = b.ext := blockAt_eq (hr.block b hb) hw hm
  rcases h (L.map Chunk.addr) hr.links with ⟨a, ha, hlt, hnot⟩ | hall
  · rw [hblk] at hlt hnot
    exact Or.inl (rest_of_above hr hL hA ha hlt hnot)
  · right
    intro q hq
    have hqL : q ∈ L := by
      rw [hL]
      exact List.mem_append_left _ (List.mem_of_getLast? hq)
    have hne := hall q.addr (List.mem_map_of_mem hqL)
    rw [hblk, chunkAt_eq (hr.chunk q hqL)] at hne
    exact hne

theorem Moves.at (h : Moves L b n) (hr : Rep E m L B) (hb : b ∈ B) (hw : b.Wf)
    (hm : b.moved = false) : MovesAt E m b.ptr n := by
  have hblk : blockAt m b.ptr = b.ext := blockAt_eq (hr.block b hb) hw hm
  obtain ⟨hhdr, hhs, -⟩ := hw.plain hm
  rw [Moves, hhdr, hhs] at h
  rw [MovesAt, hblk]
  refine h.imp_right fun ⟨hlt, hall⟩ => ⟨hlt, L.map Chunk.addr, hr.links, ?_⟩
  intro a ha hfree hfin
  obtain ⟨c, hc, rfl⟩ := List.mem_map.mp ha
  have hk := hr.chunk c hc
  rw [hk.size]
  exact hall c hc (hk.free_iff.mp hfree) hfin

theorem ReleaseOk.merges (h : ReleaseOk E os s c) (hh : Holds E s L B)
    (hpl : ∀ b ∈ B, b.moved = false) : Merges E os s L B c := by
  have hat : ∀ b B₀, B.Perm (b :: B₀) → FreeOk E s.heap.mem b.ptr → FarOk L b := by
    intro b B₀ hperm hfree
    have hb : b ∈ B := hperm.mem_iff.mpr List.mem_cons_self
    exact hfree.far hh.inv.rep hb (hh.inv.geo.block b hb).wf (hpl b hb)
  cases c with
  | free p =>
    rintro b B₀ hperm rfl
    exact hat b B₀ hperm (h b.ptr_ne_zero)
  | realloc p n =>
    rintro b B₀ hperm rfl
    obtain ⟨hz, hmove⟩ := h b.ptr_ne_zero
    refine ⟨fun hn => hat b B₀ hperm (hz hn), fun hn hmv e h₁ L₁ hmal hall => ?_⟩
    have hb : b ∈ B := hperm.mem_iff.mpr List.mem_cons_self
    have hw := (hh.inv.geo.block b hb).wf
    have hfree := hmove hn (hmv.at hh.inv.rep hb hw (hpl b hb)) _ h₁ hmal (Block.ptr_ne_zero _)
    exact hfree.far hall.inv.rep (by simp) hw (hpl b hb)
  | _ => trivial

theorem Chunk.within_region {rs : List Extent} {st : ℕ} {k : Chunk} (hg : Geo E rs 0 st L B)
    (hk : k ∈ L) : ∃ R ∈ rs, k.ext.Within R := by
  have hok := hg.chunk k hk
  cases hb : k.border with
  | none =>
    obtain ⟨R, hR, h1, h2⟩ := (hok.home hb).body rfl
    exact ⟨R, hR, (Nat.le_add_right _ _).trans h1, h2⟩
  | some a =>
    have hsz := hok.wf.border (by simp [hb])
    refine ⟨_, (hok.region a hb).2, le_rfl, ?_⟩
    simp only [Extent.fin, Chunk.ext]
    omega

theorem Tight.regionsUsed (ht : Tight s.heap L B) (hh : Holds E s L B)
    (hpl : ∀ b ∈ B, b.moved = false) : RegionsUsed E s where
  used R hR := by
    obtain ⟨b, hb, hw⟩ := ht.used R hR
    refine ⟨b.entry, hh.live.mem_iff.mpr (List.mem_map_of_mem hb), ?_⟩
    show (blockAt s.heap.mem b.ptr).Within R
    rw [blockAt_eq (hh.inv.rep.block b hb) (hh.inv.geo.block b hb).wf (hpl b hb)]
    exact hw
  listed := by
    refine ⟨L.map Chunk.addr, hh.inv.rep.links, fun a ha => ?_⟩
    obtain ⟨k, hk, rfl⟩ := List.mem_map.mp ha
    rw [chunkAt_eq (hh.inv.rep.chunk k hk)]
    exact Chunk.within_region (ht.heapbase ▸ hh.inv.geo) hk

theorem Exact.handedBack (hex : Exact s.heap s'.heap B') (ht : Tight s'.heap L' B')
    (hh : Holds E s' L' B') (hpl : ∀ b ∈ B', b.moved = false) : HandedBack E s s' where
  empty R hR hnone := by
    obtain ⟨hused, F, hF, hlisted⟩ := ht.regionsUsed hh hpl
    have hgone : R ∉ s'.heap.regions := by
      intro hmem
      obtain ⟨e, he, hw⟩ := hused R hmem
      exact hnone e he hw
    obtain ⟨hmf, hap⟩ := hex.gone R hR hgone
    refine ⟨hmf, hgone, F, hF, fun a ha => ?_⟩
    obtain ⟨S, hS, hw⟩ := hlisted a ha
    exact (hap S hS).mono hw (Extent.Within.refl _)
  once := by
    rcases hex.given with hsame | ⟨R, hR, hgone, hmf, hap⟩
    · exact Or.inl hsame
    · refine Or.inr ⟨R, hR, hgone, hmf, fun e he => ?_⟩
      obtain ⟨b, hb, -, hbe⟩ := hh.blockAt_entry hpl he
      rw [hbe]
      exact hap b hb

/-- Programs without a heap of their own, whose calls of `free` all meet the condition. -/
def releasingProgram (E : Layout) : Machine Sys (Call × Os × ℕ) where
  init s := Start E s ∧ s.heap.heapbase = 0
  step := (program E fun s c os => c.Basic ∧ ReleaseOk E os s c).step

theorem Start.tight (h : Start E s) (hz : s.heap.heapbase = 0) : Tight s.heap [] [] where
  heapbase := hz
  packed := by
    rw [h.regions]
    exact ⟨by simp, fun R hR => absurd hR List.not_mem_nil, by simp⟩
  used := by
    rw [h.regions]
    exact fun R hR => absurd hR List.not_mem_nil

theorem tight_step (hh : Holds E s L B) (hpl : ∀ b ∈ B, b.moved = false) (ht : Tight s.heap L B)
    (hb : c.Basic) (hp : Proper s c) (hf : Fits E s c) (ho : OsFits E s c os)
    (hr : ReleaseOk E os s c) :
    ∃ r s' L' B', exec E os c s = some (r, s') ∧ Holds E s' L' B' ∧
      (∀ b ∈ B', b.moved = false) ∧ Tight s'.heap L' B' ∧ Exact s.heap s'.heap B' := by
  obtain ⟨r, s', L', B', hex, hd⟩ := exec_spec hh hp hf ho (hh.copySafe hpl)
  obtain ⟨ht', hx⟩ := hd.tight hb hpl ht (hr.merges hh hpl)
  exact ⟨r, s', L', B', hex, hd.holds, hd.plain hb hpl, ht', hx⟩

theorem tight_of_run (hrun : (releasingProgram E).Run es s) :
    ∃ L B, Holds E s L B ∧ (∀ b ∈ B, b.moved = false) ∧ Tight s.heap L B := by
  refine hrun.invariant
    (P := fun s => ∃ L B, Holds E s L B ∧ (∀ b ∈ B, b.moved = false) ∧ Tight s.heap L B) ?_ ?_
  · exact fun s h => ⟨[], [], h.1.holds, by simp, h.1.tight h.2⟩
  · rintro s ⟨c, os, r⟩ s' ⟨L, B, hh, hpl, ht⟩ ⟨hp, hf, ho, ⟨hb, hr⟩, hex⟩
    obtain ⟨r', t, L', B', hex', hh', hpl', ht', -⟩ := tight_step hh hpl ht hb hp hf ho hr
    obtain rfl : t = s' := by
      rw [hex] at hex'
      simpa using (congrArg (Option.map Prod.snd) hex').symm
    exact ⟨L', B', hh', hpl', ht'⟩

/-- In every run of such calls each region holds a live block, and each call hands the
region that it has emptied back to the system. -/
theorem handed_back_of_run (hrun : (releasingProgram E).Run es s) :
    RegionsUsed E s ∧ ∀ c os, c.Basic → Proper s c → Fits E s c → OsFits E s c os →
      ReleaseOk E os s c → ∃ r s', exec E os c s = some (r, s') ∧ RegionsUsed E s' ∧
        HandedBack E s s' := by
  obtain ⟨L, B, hh, hpl, ht⟩ := tight_of_run hrun
  refine ⟨ht.regionsUsed hh hpl, fun c os hb hp hf ho hr => ?_⟩
  obtain ⟨r, s', L', B', hex, hh', hpl', ht', hx⟩ := tight_step hh hpl ht hb hp hf ho hr
  exact ⟨r, s', hex, ht'.regionsUsed hh' hpl', hx.handedBack ht' hh' hpl'⟩

def demoTwo : Sys := ((exec demoLayout ⟨0x40000, 0, 0⟩ (.malloc 20000) demoHeld).getD (0, demoHeld)).2

theorem demo_two_fresh : Fresh demoLayout [⟨0x20000, 0x2000⟩] ⟨0x40000, 0x6000⟩ where
  apart := by simp [Extent.Apart, Extent.fin]
  tpa R hR := by
    right
    rcases List.mem_pair.mp hR with rfl | rfl <;> decide
  pos R hR := by rcases List.mem_pair.mp hR with rfl | rfl <;> decide

theorem demo_releasing_one :
    (releasingProgram demoLayout).Run [(.malloc 100, demoOs, demoPtr)] demoHeld := by
  have hstart : (releasingProgram demoLayout).Run [] demoStart := .start ⟨demoStart_start, rfl⟩
  exact hstart.snoc ⟨demo_step.1, demo_step.2.1, demo_step.2.2.1, ⟨trivial, trivial⟩, exec_demo⟩

theorem demo_two_step : (program demoLayout fun _ _ _ => True).step demoHeld
    (.malloc 20000, ⟨0x40000, 0, 0⟩, 0x411dc) demoTwo := by
  have hex : exec demoLayout ⟨0x40000, 0, 0⟩ (.malloc 20000) demoHeld = some (0x411dc, demoTwo) :=
    getD_of_fst _ (by decide +kernel)
  have hrs : demoHeld.heap.regions = [⟨0x20000, 0x2000⟩] := by decide +kernel
  have hlen : (hunk demoLayout (chunkBytes 20000) demoHeld.heap).1 = 0x6000 := by decide +kernel
  refine ⟨trivial, ⟨?_, by simp⟩, ?_, trivial, hex⟩
  · intro n hn
    obtain rfl : 20000 = n := by simpa [request] using hn
    exact ⟨by decide, fun _ => by decide, fun h => absurd h (by decide +kernel)⟩
  · intro n hn
    obtain rfl : 20000 = n := by simpa [request] using hn
    refine ⟨Or.inr ?_, Or.inl rfl, fun h => absurd h (by decide +kernel)⟩
    rw [hrs, hlen]
    exact demo_two_fresh

theorem demo_releasing : (releasingProgram demoLayout).Run [(.malloc 100, demoOs, demoPtr),
    (.malloc 20000, ⟨0x40000, 0, 0⟩, 0x411dc)] demoTwo := by
  obtain ⟨hp, hf, ho, -, hex⟩ := demo_two_step
  exact demo_releasing_one.snoc ⟨hp, hf, ho, ⟨trivial, trivial⟩, hex⟩

theorem handed_back_of_run_demo : ∃ r s',
    exec demoLayout demoFull (.free demoPtr) demoTwo = some (r, s') ∧ RegionsUsed demoLayout s' ∧
      HandedBack demoLayout demoTwo s' := by
  refine (handed_back_of_run demo_releasing).2 (.free demoPtr) demoFull trivial
    (Or.inr ⟨100, by decide +kernel⟩) ⟨by simp [request], by simp⟩ (by simp [OsFits, request])
    fun _ F hF => Or.inl ⟨0x40000, ?_, by decide +kernel, by decide +kernel⟩
  -- the third entry is the border marker of the upper region
  have hmem := hF.iterate_mem (k := 2) (by decide +kernel)
  rwa [show (next demoTwo.heap.mem)^[2 + 1] demoLayout.mchunk_free_list = 0x40000 by
    decide +kernel] at hmem

/-- With one region, its last block is freed at the end of the list: the region stays. -/
theorem region_not_handed_back :
    (releasingProgram demoLayout).Run [(.malloc 100, demoOs, demoPtr)] demoHeld ∧
    Proper demoHeld (.free demoPtr) ∧ Fits demoLayout demoHeld (.free demoPtr) ∧
    OsFits demoLayout demoHeld (.free demoPtr) demoFull ∧
    ∃ r s', exec demoLayout demoFull (.free demoPtr) demoHeld = some (r, s') ∧ s'.live = [] ∧
      s'.heap.regions = [⟨0x20000, 0x2000⟩] ∧ ¬ HandedBack demoLayout demoHeld s' := by
  refine ⟨demo_releasing_one, Or.inr ⟨100, by decide +kernel⟩, ⟨by simp [request], by simp⟩,
    by simp [OsFits, request], ?_⟩
  have hrs : demoHeld.heap.regions = [⟨0x20000, 0x2000⟩] := by decide +kernel
  have hex : (exec demoLayout demoFull (.free demoPtr) demoHeld).map
      (fun r => (r.2.live, r.2.heap.regions)) = some ([], [⟨0x20000, 0x2000⟩]) := by decide +kernel
  obtain ⟨⟨r, s'⟩, hr, heq⟩ := Option.map_eq_some_iff.mp hex
  rw [Prod.mk.injEq] at heq
  refine ⟨r, s', hr, heq.1, heq.2, fun hb => ?_⟩
  have hgone := (hb.empty ⟨0x20000, 0x2000⟩ (by rw [hrs]; simp) (by rw [heq.1]; simp)).2.1
  rw [heq.2] at hgone
  simp at hgone

end Release

end Mintlib.Malloc
