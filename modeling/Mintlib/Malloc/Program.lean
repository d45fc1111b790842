import Mintlib.Lib.Run
import Mintlib.Malloc.Resize

/-!
# Programs that use the allocator

A program makes calls and writes into the blocks that it holds. `exec_spec` says
what one call does to the heap and to the blocks, `Holds` is the invariant that
every run keeps.
-/

namespace Mintlib.Malloc

open ByteMemory

/-- A call of the library, or one byte stored into a block. -/
inductive Call
  | malloc (n : ℕ)
  | calloc (n sz : ℕ)
  | realloc (p n : ℕ)
  | free (p : ℕ)
  | memalign (alignment n : ℕ)
  | posixMemalign (alignment n : ℕ)
  | store (p i : ℕ) (v : UInt8)
deriving DecidableEq

/-- The allocator's state, and the pointers that the program holds with the sizes
that it asked for. -/
structure Sys where
  heap : Heap
  live : List (ℕ × ℕ)

/-- A pointer from an allocator, unless it is `NULL`. -/
def hold (r n : ℕ) (live : List (ℕ × ℕ)) : List (ℕ × ℕ) := if r = 0 then live else (r, n) :: live

def drop (p : ℕ) (live : List (ℕ × ℕ)) : List (ℕ × ℕ) := live.filter fun e => e.1 ≠ p

/-- The pointers held after `realloc (p, n)` has returned `r`. -/
def heldAfter (p n r : ℕ) (live : List (ℕ × ℕ)) : List (ℕ × ℕ) :=
  if p = 0 then hold r n live
  else if n = 0 then drop p live
  else if r = 0 then live
  else (r, n) :: drop p live

def exec (E : Layout) (os : Os) : Call → Sys → Option (ℕ × Sys)
  | .malloc n, s => (malloc E os n s.heap).map fun (r, h) => (r, ⟨h, hold r n s.live⟩)
  | .calloc n sz, s =>
    (calloc E os n sz s.heap).map fun (r, h) => (r, ⟨h, hold r (n * sz) s.live⟩)
  | .realloc p n, s =>
    (realloc E os p n s.heap).map fun (r, h) => (r, ⟨h, heldAfter p n r s.live⟩)
  | .free p, s => (free E p s.heap).map fun h => (0, ⟨h, drop p s.live⟩)
  | .memalign a n, s => (libcMemalign E os a n s.heap).map fun (r, h) => (r, ⟨h, hold r n s.live⟩)
  | .posixMemalign a n, s => (posixMemalign E os a n s.heap).map fun (r, h) =>
      (r.2.getD 0, ⟨h, hold (r.2.getD 0) n s.live⟩)
  | .store p i v, s =>
    some (0, ⟨{ s.heap with mem := fill s.heap.mem (p + i) v 1 }, s.live⟩)

/-- `free` and `realloc` get `NULL` or a pointer that is held, the program writes
into its own bytes, and an alignment is small or a multiple of 8. -/
def Proper (s : Sys) : Call → Prop
  | .realloc p _ => p = 0 ∨ ∃ n, (p, n) ∈ s.live
  | .free p => p = 0 ∨ ∃ n, (p, n) ∈ s.live
  | .memalign a _ => a ≤ MALLOC_ALIGNMENT ∨ 8 ∣ a
  | .store p i _ => ∃ n, (p, n) ∈ s.live ∧ i < n
  | _ => True

/-- The bytes that a call asks `malloc` for, if it comes to that. -/
def request : Call → Option ℕ
  | .malloc n => some n
  | .calloc n sz => some (n * sz)
  | .realloc p n => if p ≠ 0 ∧ n = 0 then none else some n
  | .memalign a n => some (alignedBytes a n)
  | .posixMemalign a n =>
    if a % 4 ≠ 0 ∨ powerof2 (a / 4) = false ∨ a = 0 then none else some (alignedBytes a n)
  | _ => none

/-- The size arithmetic of the call does not wrap. -/
structure Fits (E : Layout) (s : Sys) (c : Call) : Prop where
  request : ∀ n ∈ request c, NoWrap E s.heap n
  slack : ∀ p n, c = .realloc p n → p ≠ 0 → n ≠ 0 → chunkBytes n + resizeSlack < 2 ^ 32

def OsFits (E : Layout) (s : Sys) (c : Call) (os : Os) : Prop :=
  ∀ n ∈ request c, OsOk E s.heap n os

/-- The chunk that the header at `a` describes. -/
def chunkAt (m : Mem) (a : ℕ) : Extent := ⟨a, size m a⟩

/-- A `realloc` that moves a block from an aligned allocator finds enough bytes
in its header, which `realloc` takes to count the header itself. -/
def CopySafe (E : Layout) (os : Os) (s : Sys) (c : Call) : Prop :=
  ∀ p n old, c = .realloc p n → n ≠ 0 → (p, old) ∈ s.live →
    valid s.heap.mem (p - chunkSize) = VAL_ALLOC ∨
    chunkBytes n ≤ size s.heap.mem (p - chunkSize) ∨
    min old n + chunkSize ≤ size s.heap.mem (p - chunkSize) ∨
    ∃ h', malloc E os n s.heap = some (0, h')

def Block.entry (b : Block) : ℕ × ℕ := (b.ptr, b.req)

/-- The heap holds exactly the blocks of the program. -/
structure Holds (E : Layout) (s : Sys) (L : List Chunk) (B : List Block) : Prop where
  inv : Inv E s.heap L B
  live : s.live.Perm (B.map Block.entry)

/-- Every block but the one at `p` is still held and has the same bytes. -/
def Others (s s' : Sys) (p : ℕ) : Prop :=
  ∀ e ∈ s.live, e.1 ≠ p → e ∈ s'.live ∧ AgreeOn s.heap.mem s'.heap.mem ⟨e.1, e.2⟩

/-- What a call that returned `r` has done to the block that it is about. -/
def Result (s : Sys) (r : ℕ) (s' : Sys) : Call → Prop
  | .malloc n => (r ≠ 0 → (r, n) ∈ s'.live)
  | .calloc n sz => (r ≠ 0 → (r, n * sz) ∈ s'.live ∧ ∀ x ∈ (⟨r, n * sz⟩ : Extent), s'.heap.mem x = 0)
  | .realloc p n =>
    (r ≠ 0 → (r, n) ∈ s'.live ∧ ∀ old, (p, old) ∈ s.live →
      ∀ i < min old n, s'.heap.mem (r + i) = s.heap.mem (p + i)) ∧
    (r = 0 → n ≠ 0 → ∀ old, (p, old) ∈ s.live →
      (p, old) ∈ s'.live ∧ AgreeOn s.heap.mem s'.heap.mem ⟨p, old⟩)
  | .memalign _ n => (r ≠ 0 → (r, n) ∈ s'.live)
  | .posixMemalign _ n => (r ≠ 0 → (r, n) ∈ s'.live)
  | _ => True

def target : Call → ℕ
  | .realloc p _ => p
  | .free p => p
  | .store p _ _ => p
  | _ => 0

def Call.Basic : Call → Prop
  | .memalign _ _ => False
  | .posixMemalign _ _ => False
  | _ => True

section Step

variable {E : Layout} {os : Os} {s s' : Sys} {c : Call} {L L' : List Chunk} {B B' : List Block}
  {b : Block} {p n old r : ℕ}

/-- Where the call frees a block, `free` gets to merge it downwards. -/
def Merges (E : Layout) (os : Os) (s : Sys) (L : List Chunk) (B : List Block) : Call → Prop
  | .free p => ∀ b B₀, B.Perm (b :: B₀) → b.ptr = p → FarOk L b
  | .realloc p n => ∀ b B₀, B.Perm (b :: B₀) → b.ptr = p →
      (n = 0 → FarOk L b) ∧ (n ≠ 0 → MoveFarOk E os s.heap L b B₀ n)
  | _ => True

structure Done (E : Layout) (os : Os) (s : Sys) (L : List Chunk) (B : List Block) (c : Call)
    (r : ℕ) (s' : Sys) (L' : List Chunk) (B' : List Block) : Prop where
  holds : Holds E s' L' B'
  mfree : MfreeOk s.heap s'.heap B'
  plain : c.Basic → (∀ b ∈ B, b.moved = false) → ∀ b ∈ B', b.moved = false
  tight : c.Basic → (∀ b ∈ B, b.moved = false) → Tight s.heap L B → Merges E os s L B c →
    Tight s'.heap L' B' ∧ Exact s.heap s'.heap B'
  others : Others s s' (target c)
  result : Result s r s' c

theorem Block.Wf.ptr_mem (hw : b.Wf) : b.ptr ∈ b.ext := by
  have h1 := hw.base_le
  have h2 := hw.ptr_lt
  rw [Extent.mem_iff]
  simp only [Block.ptr, Block.ext]
  omega

theorem Inv.ptr_ne {h : Heap} (hi : Inv E h L (b :: B)) {a : Block} (ha : a ∈ B) :
    a.ptr ≠ b.ptr := by
  intro heq
  have hap := (List.pairwise_cons.mp hi.geo.apart).1 a ha
  have hb := (hi.geo.block b (by simp)).wf.ptr_mem
  exact hap.not_mem hb (heq ▸ (hi.geo.block a (by simp [ha])).wf.ptr_mem)

theorem Holds.find (hh : Holds E s L B) (hm : (p, old) ∈ s.live) :
    ∃ b B', b.ptr = p ∧ b.req = old ∧ B.Perm (b :: B') ∧ Holds E s L (b :: B') := by
  obtain ⟨b, hb, hbe⟩ := List.mem_map.mp (hh.live.mem_iff.mp hm)
  have hperm : B.Perm (b :: B.erase b) := List.perm_cons_erase hb
  rw [Block.entry, Prod.mk.injEq] at hbe
  exact ⟨b, B.erase b, hbe.1, hbe.2, hperm, hh.inv.perm hperm,
    hh.live.trans (hperm.map Block.entry)⟩

theorem Holds.drop_perm (hh : Holds E s L (b :: B)) :
    (drop b.ptr s.live).Perm (B.map Block.entry) := by
  have hp := hh.live.filter fun e => decide (e.1 ≠ b.ptr)
  have hrest : (B.map Block.entry).filter (fun e => decide (e.1 ≠ b.ptr)) = B.map Block.entry := by
    rw [List.filter_eq_self]
    intro e he
    obtain ⟨a, ha, rfl⟩ := List.mem_map.mp he
    exact decide_eq_true (hh.inv.ptr_ne ha)
  rw [List.map_cons, List.filter_cons_of_neg (by simp [Block.entry]), hrest] at hp
  exact hp

theorem Holds.hold {h' : Heap} (hh : Holds E s L B) (hi : Inv E h' L' (b :: B)) :
    Holds E ⟨h', Malloc.hold b.ptr b.req s.live⟩ L' (b :: B) := by
  refine ⟨hi, ?_⟩
  rw [Malloc.hold, if_neg b.ptr_ne_zero]
  exact hh.live.cons b.entry

theorem contents_agree {m m' : Mem} (hw : b.Wf) (h : AgreeOn m m' b.ext) :
    AgreeOn m m' ⟨b.entry.1, b.entry.2⟩ :=
  h.mono hw.contents_within

theorem others_of_kept (hh : Holds E s L B) (hk : ∀ a ∈ B, a.ptr ≠ p →
    AgreeOn s.heap.mem s'.heap.mem a.ext ∧ a.entry ∈ s'.live) : Others s s' p := by
  intro e he hne
  obtain ⟨a, ha, rfl⟩ := List.mem_map.mp (hh.live.mem_iff.mp he)
  obtain ⟨h1, h2⟩ := hk a ha hne
  exact ⟨h2, contents_agree (hh.inv.geo.block a ha).wf h1⟩

theorem others_of_tail (hh : Holds E s L (b :: B)) (hk : Kept s.heap s'.heap B)
    (hsub : ∀ a ∈ B, a.entry ∈ s'.live) : Others s s' b.ptr := by
  apply others_of_kept hh
  intro a ha hne
  rcases List.mem_cons.mp ha with rfl | ha
  · exact absurd rfl hne
  · exact ⟨hk a ha, hsub a ha⟩

theorem Done.of_settings {k : ℕ} {t : Bool} (hh : Holds E s L B) (hk : k ≤ 2 ^ 30)
    (hres : Result s r ⟨{ s.heap with MINHUNK := k, split_mem := t }, s.live⟩ c) :
    Done E os s L B c r ⟨{ s.heap with MINHUNK := k, split_mem := t }, s.live⟩ L B where
  holds := ⟨hh.inv.settings hk, hh.live⟩
  mfree := Or.inl rfl
  plain _ h := h
  tight _ _ ht _ := ⟨⟨ht.heapbase, ht.packed, ht.used⟩, Exact.of_same rfl rfl⟩
  others _ he _ := ⟨he, fun _ _ => rfl⟩
  result := hres

theorem Done.of_alloc {h' : Heap} (hh : Holds E s L B) (hi : Inv E h' L' (b :: B))
    (hk : Kept s.heap h' B) (hmf : h'.mfrees = s.heap.mfrees)
    (hplain : c.Basic → b.moved = false)
    (htight : c.Basic → Tight s.heap L B → Tight h' L' (b :: B) ∧ Exact s.heap h' (b :: B))
    (hres : Result s r ⟨h', Malloc.hold b.ptr b.req s.live⟩ c) :
    Done E os s L B c r ⟨h', Malloc.hold b.ptr b.req s.live⟩ L' (b :: B) where
  holds := hh.hold hi
  mfree := Or.inl hmf
  plain hc h a ha := by
    rcases List.mem_cons.mp ha with rfl | ha
    · exact hplain hc
    · exact h a ha
  tight hc _ ht _ := htight hc ht
  others := by
    apply others_of_kept hh
    intro a ha _
    refine ⟨hk a ha, (hh.hold hi).live.mem_iff.mpr ?_⟩
    exact List.mem_map_of_mem (List.mem_cons_of_mem _ ha)
  result := hres

theorem mem_hold (hr : r ≠ 0) (n : ℕ) (live : List (ℕ × ℕ)) : (r, n) ∈ hold r n live := by
  rw [hold, if_neg hr]
  exact List.mem_cons_self

theorem exec_malloc (hh : Holds E s L B) (hw : NoWrap E s.heap n) (hos : OsOk E s.heap n os) :
    ∃ r s' L' B', exec E os (.malloc n) s = some (r, s') ∧ Done E os s L B (.malloc n) r s' L' B' := by
  rcases malloc_spec hh.inv hw hos with ⟨k, t, hmal, hk⟩ | ⟨e, h', L', hmal, hall⟩
  · refine ⟨0, _, L, B, ?_, Done.of_settings (k := k) (t := t) hh hk fun hr => absurd rfl hr⟩
    rw [exec, hmal]
    rfl
  · have hn16 := (chunkBytes_bounds hw.chunk).2.1
    refine ⟨(plainBlock e n).ptr, _, L', _, ?_, Done.of_alloc hh hall.inv (hall.kept hh.inv.geo)
      hall.mfrees (fun _ => rfl) (fun _ ht => ht.alloc hh.inv hall (by omega))
      fun hr => mem_hold hr _ _⟩
    rw [exec, hmal]
    rfl

theorem exec_calloc {sz : ℕ} (hh : Holds E s L B) (hw : NoWrap E s.heap (n * sz))
    (hos : OsOk E s.heap (n * sz) os) :
    ∃ r s' L' B', exec E os (.calloc n sz) s = some (r, s') ∧
      Done E os s L B (.calloc n sz) r s' L' B' := by
  rcases calloc_spec hh.inv hw hos with ⟨k, t, hcal, hk⟩ |
    ⟨b, h', L', hcal, hm, hreq, hinv, hkept, hmf, htight, hzero⟩
  · refine ⟨0, _, L, B, ?_, Done.of_settings (k := k) (t := t) hh hk fun hr => absurd rfl hr⟩
    rw [exec, hcal]
    rfl
  · refine ⟨b.ptr, _, L', _, ?_, Done.of_alloc hh hinv hkept hmf (fun _ => hm)
      (fun _ => htight) fun hr => ⟨?_, ?_⟩⟩
    · rw [exec, hcal, ← hreq]
      rfl
    · rw [← hreq]
      exact mem_hold hr _ _
    · intro x hx
      exact hzero x (by rw [Block.contents, hreq]; exact hx)

theorem exec_memalign {a : ℕ} (hh : Holds E s L B) (ha : a ≤ MALLOC_ALIGNMENT ∨ 8 ∣ a)
    (hw : NoWrap E s.heap (alignedBytes a n)) (hos : OsOk E s.heap (alignedBytes a n) os) :
    ∃ r s' L' B', exec E os (.memalign a n) s = some (r, s') ∧
      Done E os s L B (.memalign a n) r s' L' B' := by
  rcases libcMemalign_spec hh.inv ha hw hos with ⟨k, t, hmem, hk⟩ |
    ⟨b, h', L', hmem, hreq, hinv, hkept, hmf⟩
  · refine ⟨0, _, L, B, ?_, Done.of_settings (k := k) (t := t) hh hk fun hr => absurd rfl hr⟩
    rw [exec, hmem]
    rfl
  · refine ⟨b.ptr, _, L', _, ?_, Done.of_alloc hh hinv hkept hmf (fun hc => absurd hc id)
      (fun hc => absurd hc id) ?_⟩
    · rw [exec, hmem, ← hreq]
      rfl
    · intro hr
      rw [← hreq]
      exact mem_hold hr _ _

theorem alignment_of_check {a : ℕ} (h : ¬ (a % 4 ≠ 0 ∨ powerof2 (a / 4) = false ∨ a = 0)) :
    a ≤ MALLOC_ALIGNMENT ∨ 8 ∣ a := by
  simp only [not_or, not_not, Bool.not_eq_false] at h
  obtain ⟨h4, hpow, hne⟩ := h
  have hq : a / 4 ≠ 0 := by omega
  have hand : a / 4 &&& (a / 4 - 1) = 0 := by
    rw [powerof2, sub32_of_le (by omega), beq_iff_eq] at hpow
    rw [Nat.and_comm]
    exact hpow
  obtain ⟨k, hk⟩ := (Nat.and_sub_one_eq_zero_iff_isPowerOfTwo hq).mp hand
  rcases k with _ | k
  · left
    simp only [MALLOC_ALIGNMENT]
    omega
  · right
    rw [pow_succ] at hk
    omega

theorem exec_posixMemalign {a : ℕ} (hh : Holds E s L B)
    (hw : ∀ k ∈ request (.posixMemalign a n), NoWrap E s.heap k)
    (hos : ∀ k ∈ request (.posixMemalign a n), OsOk E s.heap k os) :
    ∃ r s' L' B', exec E os (.posixMemalign a n) s = some (r, s') ∧
      Done E os s L B (.posixMemalign a n) r s' L' B' := by
  by_cases hbad : a % 4 ≠ 0 ∨ powerof2 (a / 4) = false ∨ a = 0
  · refine ⟨0, s, L, B, ?_, Done.of_settings (k := s.heap.MINHUNK) (t := s.heap.split_mem) hh
      hh.inv.hunk.min fun hr => absurd rfl hr⟩
    rw [exec, posixMemalign, if_pos hbad]
    rfl
  · simp only [request, if_neg hbad, Option.mem_def, Option.some.injEq, forall_eq'] at hw hos
    rcases libcMemalign_spec hh.inv (alignment_of_check hbad) hw hos with ⟨k, t, hmem, hk⟩ |
      ⟨b, h', L', hmem, hreq, hinv, hkept, hmf⟩
    · refine ⟨0, _, L, B, ?_, Done.of_settings (k := k) (t := t) hh hk fun hr => absurd rfl hr⟩
      rw [exec, posixMemalign, if_neg hbad, hmem]
      rfl
    · refine ⟨b.ptr, _, L', _, ?_, Done.of_alloc hh hinv hkept hmf (fun hc => absurd hc id)
      (fun hc => absurd hc id) ?_⟩
      · rw [exec, posixMemalign, if_neg hbad, hmem, ← hreq]
        simp only [Option.bind_eq_bind, Option.bind_some, if_pos b.ptr_ne_zero, Option.map_some,
          Option.getD_some]
      · intro hr
        rw [← hreq]
        exact mem_hold hr _ _

theorem exec_free (os : Os) (hh : Holds E s L B) (hp : Proper s (.free p)) :
    ∃ r s' L' B', exec E os (.free p) s = some (r, s') ∧ Done E os s L B (.free p) r s' L' B' := by
  rcases hp with rfl | ⟨old, hm⟩
  · have hdrop : drop 0 s.live = s.live := by
      rw [drop, List.filter_eq_self]
      intro e he
      obtain ⟨a, ha, rfl⟩ := List.mem_map.mp (hh.live.mem_iff.mp he)
      exact decide_eq_true a.ptr_ne_zero
    refine ⟨0, s, L, B, ?_, Done.of_settings (k := s.heap.MINHUNK) (t := s.heap.split_mem) hh
      hh.inv.hunk.min trivial⟩
    rw [exec, free, if_pos rfl, hdrop]
    rfl
  · obtain ⟨b, B', rfl, rfl, hperm, hb⟩ := hh.find hm
    obtain ⟨h', L', hfree, hinv, hkept, hmf, htight⟩ := free_inv hb.inv
    have hlive : (drop b.ptr s.live).Perm (B'.map Block.entry) := hb.drop_perm
    refine ⟨0, ⟨h', drop b.ptr s.live⟩, L', B', ?_, ⟨hinv, hlive⟩, hmf, ?_, ?_, ?_, trivial⟩
    · rw [exec, hfree]
      rfl
    · exact fun _ h a ha => h a (hperm.mem_iff.mpr (List.mem_cons_of_mem _ ha))
    · exact fun _ hpl ht hfar => htight (hpl b (hperm.mem_iff.mpr List.mem_cons_self))
        (ht.perm hperm) (hfar b B' hperm rfl)
    · exact others_of_tail hb hkept fun a ha => hlive.mem_iff.mpr (List.mem_map_of_mem ha)

theorem store_changes {i : ℕ} {v : UInt8} (hh : Holds E s L (b :: B)) (hi : i < b.req) :
    ChangesIn s.heap.mem (fill s.heap.mem (b.ptr + i) v 1) [⟨b.ptr, b.req⟩] ∧
      Extent.Within ⟨b.ptr, b.req⟩ b.ext := by
  refine ⟨(ChangesIn.fill _ _ _ _).mono fun e he => ⟨⟨b.ptr, b.req⟩, by simp, ?_⟩,
    (hh.inv.geo.block b List.mem_cons_self).wf.contents_within⟩
  rw [List.mem_singleton.mp he]
  simp only [Extent.Within, Extent.fin]
  omega

theorem exec_store {i : ℕ} {v : UInt8} (hh : Holds E s L B) (hp : Proper s (.store p i v)) :
    ∃ r s' L' B', exec E os (.store p i v) s = some (r, s') ∧
      Done E os s L B (.store p i v) r s' L' B' := by
  obtain ⟨old, hm, hi⟩ := hp
  obtain ⟨b, B', rfl, rfl, hperm, hb⟩ := hh.find hm
  obtain ⟨hch, hin⟩ := store_changes (v := v) hb hi
  refine ⟨0, _, L, b :: B', rfl, ⟨hb.inv.write hch hin, hb.live⟩, Or.inl rfl, ?_, ?_, ?_, trivial⟩
  · exact fun _ h a ha => h a (hperm.mem_iff.mpr ha)
  · intro _ _ ht _
    have ht' := ht.perm hperm
    exact ⟨⟨ht'.heapbase, ht'.packed, ht'.used⟩, Exact.of_same rfl rfl⟩
  · apply others_of_tail hb
    · exact fun a ha => agreeOn_of_write hb.inv.geo hch hin ha
    · exact fun a ha => hb.live.mem_iff.mpr (List.mem_map_of_mem (List.mem_cons_of_mem _ ha))

/-- The block that `realloc` leaves: the old one, or one of `n` bytes at the result. -/
theorem Resized.shape {h h' : Heap} (hres : Resized E os h L b B n r h' L' B') :
    (r = 0 ∧ B' = b :: B) ∨
      (r ≠ 0 ∧ ∃ d, B' = d :: B ∧ d.entry = (r, n) ∧ (b.moved = false → d.moved = false)) := by
  cases hres with
  | kept k t => exact Or.inr ⟨b.ptr_ne_zero, _, rfl, rfl, id⟩
  | grown m' hL hc hj hm hhdr =>
    refine Or.inr ⟨b.ptr_ne_zero, _, rfl, ?_, fun _ => rfl⟩
    rw [Block.entry, Block.ptr, Block.ptr, hhdr]
    rfl
  | moved hmv hall hmal hinv hfree => exact Or.inr ⟨Block.ptr_ne_zero _, _, rfl, rfl, fun _ => rfl⟩
  | failed k t => exact Or.inl ⟨rfl, rfl⟩

theorem Resized.live {h' : Heap} (hres : Resized E os s.heap L b B n r h' L' B')
    (hb : Holds E s L (b :: B)) (hn : n ≠ 0) :
    (heldAfter b.ptr n r s.live).Perm (B'.map Block.entry) := by
  rcases hres.shape with ⟨rfl, rfl⟩ | ⟨hr, d, rfl, hde, -⟩
  · rw [heldAfter, if_neg b.ptr_ne_zero, if_neg hn, if_pos rfl]
    exact hb.live
  · rw [heldAfter, if_neg b.ptr_ne_zero, if_neg hn, if_neg hr, List.map_cons, hde]
    exact hb.drop_perm.cons _

theorem CopySafe.block (hh : Holds E s L (b :: B)) (hn : n ≠ 0)
    (hc : CopySafe E os s (.realloc b.ptr n)) : CopyOk E os s.heap b n := by
  have hhdr : b.ptr - chunkSize = b.hdr := Nat.add_sub_cancel _ _
  have hat := hh.inv.rep.block b List.mem_cons_self
  have hm : (b.ptr, b.req) ∈ s.live := hh.live.mem_iff.mpr List.mem_cons_self
  have h := hc b.ptr n b.req rfl hn hm
  rw [hhdr, hat.valid, hat.size] at h
  rcases h with h | h
  · left
    cases hmv : b.moved with
    | false => rfl
    | true => simp [hmv] at h
  · exact Or.inr h

theorem exec_realloc (hh : Holds E s L B) (hp : Proper s (.realloc p n))
    (hf : Fits E s (.realloc p n)) (ho : OsFits E s (.realloc p n) os)
    (hc : CopySafe E os s (.realloc p n)) :
    ∃ r s' L' B', exec E os (.realloc p n) s = some (r, s') ∧
      Done E os s L B (.realloc p n) r s' L' B' := by
  rcases hp with rfl | ⟨old, hm⟩
  · -- `realloc (NULL, n)` is `malloc (n)`
    have hreq : n ∈ request (.realloc 0 n) := by simp [request]
    obtain ⟨r, s', L', B', hex, hd⟩ := exec_malloc (n := n) hh (hf.request n hreq) (ho n hreq)
    have hnot : ∀ old, (0, old) ∉ s.live := by
      intro old hm
      obtain ⟨b, B', hb, -⟩ := hh.find hm
      exact b.ptr_ne_zero hb
    refine ⟨r, s', L', B', ?_, hd.holds, hd.mfree, fun _ => hd.plain trivial,
      fun _ hpl ht _ => hd.tight trivial hpl ht trivial, hd.others, ?_, ?_⟩
    · rw [← hex, exec, exec, realloc, if_pos rfl]
      rfl
    · exact fun hr => ⟨hd.result hr, fun old hm => absurd hm (hnot old)⟩
    · exact fun _ _ old hm => absurd hm (hnot old)
  obtain ⟨b, B₀, rfl, rfl, hperm, hb⟩ := hh.find hm
  by_cases hn : n = 0
  · -- `realloc (p, 0)` is `free (p)`
    subst hn
    obtain ⟨r, s', L', B', hex, hd⟩ := exec_free os hh (Or.inr ⟨_, hm⟩)
    obtain ⟨h', hfree, hr, hs'⟩ : ∃ h', free E b.ptr s.heap = some h' ∧ r = 0 ∧
        s' = ⟨h', drop b.ptr s.live⟩ := by
      rw [exec] at hex
      cases hfr : free E b.ptr s.heap with
      | none => simp [hfr] at hex
      | some h' =>
        simp only [hfr, Option.map_some, Option.some.injEq, Prod.mk.injEq] at hex
        exact ⟨h', rfl, hex.1.symm, hex.2.symm⟩
    refine ⟨r, s', L', B', ?_, hd.holds, hd.mfree, fun _ => hd.plain trivial,
      fun _ hpl ht hmg => hd.tight trivial hpl ht fun a A hp ha => (hmg a A hp ha).1 rfl,
      hd.others, ?_, ?_⟩
    · rw [exec, realloc, if_neg b.ptr_ne_zero, if_pos rfl, hfree, hr, hs']
      simp only [Option.bind_eq_bind, Option.bind_some, Option.map_some, heldAfter,
        if_neg b.ptr_ne_zero, if_true]
    · exact fun hne => absurd hr hne
    · exact fun _ hne => absurd rfl hne
  · have hreq : n ∈ request (.realloc b.ptr n) := by simp [request, hn]
    obtain ⟨r, h', L', B', hre, hres, hinv, hok, hmf, htight⟩ := realloc_spec hb.inv hn
      (hf.request n hreq) (hf.slack b.ptr n rfl b.ptr_ne_zero hn) (ho n hreq) (hc.block hb hn)
    have hex : exec E os (.realloc b.ptr n) s = some (r, ⟨h', heldAfter b.ptr n r s.live⟩) := by
      rw [exec, hre]
      rfl
    have hentry : ∀ k, (b.ptr, k) ∈ s.live → k = b.req := by
      intro k hk
      obtain ⟨a, ha, hae⟩ := List.mem_map.mp (hb.live.mem_iff.mp hk)
      rw [Block.entry, Prod.mk.injEq] at hae
      rcases List.mem_cons.mp ha with rfl | ha
      · exact hae.2.symm
      · exact absurd hae.1 (hb.inv.ptr_ne ha)
    have htight' : (∀ a ∈ B, a.moved = false) → Tight s.heap L B →
        Merges E os s L B (.realloc b.ptr n) → Tight h' L' B' ∧ Exact s.heap h' B' := by
      intro hpl ht hmg
      exact htight (hpl b (hperm.mem_iff.mpr List.mem_cons_self)) (ht.perm hperm)
        ((hmg b B₀ hperm rfl).2 hn)
    have hbw := (hb.inv.geo.block b List.mem_cons_self).wf
    rcases hres.shape with ⟨rfl, rfl⟩ | ⟨hr, d, rfl, -, hdm⟩
    · have hlive : heldAfter b.ptr n 0 s.live = s.live := by
        rw [heldAfter, if_neg b.ptr_ne_zero, if_neg hn, if_pos rfl]
      rw [hlive] at hex
      refine ⟨0, _, L', b :: B₀, hex, ⟨hinv, hb.live⟩, hmf, ?_, fun _ => htight', ?_, ?_, ?_⟩
      · exact fun _ h a ha => h a (hperm.mem_iff.mpr ha)
      · exact others_of_tail hb hok.kept fun a ha =>
          hb.live.mem_iff.mpr (List.mem_map_of_mem (List.mem_cons_of_mem _ ha))
      · exact fun hne => absurd rfl hne
      · intro _ _ k hk
        obtain rfl := hentry k hk
        exact ⟨hk, contents_agree hbw (hok.failed rfl)⟩
    · have hlive : heldAfter b.ptr n r s.live = (r, n) :: drop b.ptr s.live := by
        rw [heldAfter, if_neg b.ptr_ne_zero, if_neg hn, if_neg hr]
      rw [hlive] at hex
      have hperm' : ((r, n) :: drop b.ptr s.live).Perm ((d :: B₀).map Block.entry) :=
        hlive ▸ hres.live hb hn
      refine ⟨r, _, L', d :: B₀, hex, ⟨hinv, hperm'⟩, hmf, ?_, fun _ => htight', ?_, ?_, ?_⟩
      · intro _ h a ha
        rcases List.mem_cons.mp ha with rfl | ha
        · exact hdm (h b (hperm.mem_iff.mpr List.mem_cons_self))
        · exact h a (hperm.mem_iff.mpr (List.mem_cons_of_mem _ ha))
      · exact others_of_tail hb hok.kept fun a ha =>
          hperm'.mem_iff.mpr (List.mem_map_of_mem (List.mem_cons_of_mem _ ha))
      · intro _
        refine ⟨List.mem_cons_self, fun k hk i hi => ?_⟩
        obtain rfl := hentry k hk
        exact hok.contents hr i hi
      · exact fun hz => absurd hz hr

/-- Every proper call whose sizes do not wrap returns, and keeps the invariant. -/
theorem exec_spec (hh : Holds E s L B) (hp : Proper s c) (hf : Fits E s c)
    (ho : OsFits E s c os) (hc : CopySafe E os s c) :
    ∃ r s' L' B', exec E os c s = some (r, s') ∧ Done E os s L B c r s' L' B' := by
  cases c with
  | malloc n => exact exec_malloc hh (hf.request n rfl) (ho n rfl)
  | calloc n sz => exact exec_calloc hh (hf.request _ rfl) (ho _ rfl)
  | realloc p n => exact exec_realloc hh hp hf ho hc
  | free p => exact exec_free os hh hp
  | memalign a n => exact exec_memalign hh hp (hf.request _ rfl) (ho _ rfl)
  | posixMemalign a n => exact exec_posixMemalign hh hf.request ho
  | store p i v => exact exec_store hh hp

end Step

/-- The state in which a program starts: an empty free list, no block and no
region, and a heap of its own or none. -/
structure Start (E : Layout) (s : Sys) : Prop where
  live : s.live = []
  regions : s.heap.regions = []
  next : next s.heap.mem E.mchunk_free_list = 0
  valid : valid s.heap.mem E.mchunk_free_list = VAL_FREE
  hunk : HunkOk s.heap
  reserve : s.heap.heapbase ≠ 0 → ReserveOk E [] s.heap.heapbase s.heap.stksize

theorem Start.holds {E : Layout} {s : Sys} (h : Start E s) : Holds E s [] [] where
  inv := by
    refine ⟨⟨h.next, h.valid, by simp, by simp⟩, ⟨.nil, .nil, by simp, by simp, by simp,
      ⟨?_, ?_, ?_⟩, ?_, ?_⟩, h.hunk⟩
    · rw [h.regions]
      exact .nil
    · simp [h.regions]
    · simp [h.regions]
    · rw [h.regions]
      exact h.reserve
    · simp [h.regions]
  live := by
    rw [h.live]
    rfl

/-- Programs whose calls satisfy `ok` besides being proper. The label of a step is
the call, the system's answers and the result. -/
def program (E : Layout) (ok : Sys → Call → Os → Prop) : Machine Sys (Call × Os × ℕ) where
  init := Start E
  step s l s' := Proper s l.1 ∧ Fits E s l.1 ∧ OsFits E s l.1 l.2.1 ∧ ok s l.1 l.2.1 ∧
    exec E l.2.1 l.1 s = some (l.2.2, s')

theorem program_holds {E : Layout} {ok : Sys → Call → Os → Prop}
    (hok : ∀ s c os, ok s c os → CopySafe E os s c) {es : List (Call × Os × ℕ)} {s : Sys}
    (hrun : (program E ok).Run es s) : ∃ L B, Holds E s L B := by
  refine hrun.invariant (P := fun s => ∃ L B, Holds E s L B) ?_ ?_
  · exact fun s h => ⟨[], [], h.holds⟩
  · rintro s ⟨c, os, r⟩ s' ⟨L, B, hh⟩ ⟨hp, hf, ho, hk, hex⟩
    obtain ⟨r', t, L', B', hex', hd⟩ := exec_spec hh hp hf ho (hok s c os hk)
    obtain rfl : t = s' := by
      rw [hex] at hex'
      simpa using (congrArg (Option.map Prod.snd) hex').symm
    exact ⟨L', B', hd.holds⟩

end Mintlib.Malloc
