import Mintlib.Tsearch.Memory

/-!
# Splitting a node: `maybe_split_for_insert`

A node with two red successors becomes red and they become black. When its parent is red then, the two
and the grandparent are rotated.
-/

namespace Mintlib.Tsearch

open NodeTree NTree Checked

variable {κ : Type}

def sideOf (r : ℤ) : Side := if r < 0 then .left else .right

/-- The child becomes the top, with its parent and grandparent as successors. For `Side.left` the
child is left of the parent. -/
def zigzag (m : Mem κ) (gparentp : Loc) (gp p root : ℕ) (s : Side) : Except Stop (Mem κ) := do
  let m ← m.paint p true
  let m ← m.paint gp true
  let m ← m.paint root false
  let n ← m.load root
  let m ← m.set (.child s p) (n.child s.other)
  let m ← m.set (.child s.other root) (some p)
  let n ← m.load root
  let m ← m.set (.child s.other gp) (n.child s)
  let m ← m.set (.child s root) (some gp)
  m.set gparentp (some root)

/-- The parent becomes the top, with the grandparent and the child as successors. -/
def zigzig (m : Mem κ) (gparentp : Loc) (gp p : ℕ) (s : Side) : Except Stop (Mem κ) := do
  let m ← m.set gparentp (some p)
  let m ← m.paint p false
  let m ← m.paint gp true
  let n ← m.load p
  let m ← m.set (.child s gp) (n.child s.other)
  m.set (.child s.other p) (some gp)

/-- What is done when the parent is red; the pointers to pointers have to be right then. -/
def rotate (m : Mem κ) (root p : ℕ) (gparentp : Option Loc) (p_r gp_r : ℤ) :
    Except Stop (Mem κ) :=
  match gparentp with
  | none => .error .bounds
  | some gparentp => do
    let gp ← m.deref gparentp
    if (p_r > 0) ≠ (gp_r > 0) then zigzag m gparentp gp p root (sideOf p_r)
    else zigzig m gparentp gp p (sideOf p_r)

def recolor (m : Mem κ) (root : ℕ) (n : Node κ) : Except Stop (Mem κ) := do
  let m ← m.paint root true
  let m ← m.blacken n.right
  m.blacken n.left

def maybeSplitForInsert (m : Mem κ) (rootp : Loc) (parentp gparentp : Option Loc)
    (p_r gp_r : ℤ) (mode : Bool) : Except Stop (Mem κ) := do
  let root ← m.deref rootp
  let n ← m.load root
  let left ← m.isRed n.left
  let right ← m.isRed n.right
  if mode || (left && right) then do
    let m ← recolor m root n
    match parentp with
    | none => .ok m
    | some parentp => do
      let p ← m.deref parentp
      let pn ← m.load p
      if pn.red then rotate m root p gparentp p_r gp_r else .ok m
  else .ok m

/-- Three nodes of a memory that is as another one elsewhere. -/
structure Three (m₀ m : Mem κ) (g p r : ℕ) (G P R : Node κ) : Prop where
  root : m.root = m₀.root
  top : m.node g = some G
  mid : m.node p = some P
  low : m.node r = some R
  rest : ∀ b, b ≠ g → b ≠ p → b ≠ r → m.node b = m₀.node b

section Three

variable {m₀ m : Mem κ} {g p r : ℕ} {G P R : Node κ}

theorem Three.modify_top (h : Three m₀ m g p r G P R) (hp : p ≠ g) (hr : r ≠ g)
    (f : Node κ → Node κ) : ∃ m', m.modify g f = .ok m' ∧ Three m₀ m' g p r (f G) P R := by
  refine ⟨_, modify_ok h.top f, h.root, Function.update_self _ _ _, ?_, ?_, fun b hg hb hb' => ?_⟩
  · exact (Function.update_of_ne hp _ _).trans h.mid
  · exact (Function.update_of_ne hr _ _).trans h.low
  · exact (Function.update_of_ne hg _ _).trans (h.rest b hg hb hb')

theorem Three.modify_mid (h : Three m₀ m g p r G P R) (hg : g ≠ p) (hr : r ≠ p)
    (f : Node κ → Node κ) : ∃ m', m.modify p f = .ok m' ∧ Three m₀ m' g p r G (f P) R := by
  refine ⟨_, modify_ok h.mid f, h.root, ?_, Function.update_self _ _ _, ?_, fun b hb hp hb' => ?_⟩
  · exact (Function.update_of_ne hg _ _).trans h.top
  · exact (Function.update_of_ne hr _ _).trans h.low
  · exact (Function.update_of_ne hp _ _).trans (h.rest b hb hp hb')

theorem Three.modify_low (h : Three m₀ m g p r G P R) (hg : g ≠ r) (hp : p ≠ r)
    (f : Node κ → Node κ) : ∃ m', m.modify r f = .ok m' ∧ Three m₀ m' g p r G P (f R) := by
  refine ⟨_, modify_ok h.low f, h.root, ?_, ?_, Function.update_self _ _ _, fun b hb hb' hr => ?_⟩
  · exact (Function.update_of_ne hg _ _).trans h.top
  · exact (Function.update_of_ne hp _ _).trans h.mid
  · exact (Function.update_of_ne hr _ _).trans (h.rest b hb hb' hr)

end Three

section Rotations

variable {m : Mem κ} {rest : List (Frame κ)} {o₁ o₂ x y : NTree κ} {g p a : ℕ} {k₁ k₂ k : κ}
  {c c₁ c₂ : Bool} {s s₂ : Side}

/-- A node, its parent and its grandparent, and what hangs at them. -/
structure Apart (rest : List (Frame κ)) (g p a : ℕ) (o₂ o₁ x y : NTree κ) : Prop where
  gp : g ≠ p
  ga : g ≠ a
  pa : p ≠ a
  g_out : g ∉ ctxAddrs rest ++ (o₂.addrs ++ (o₁.addrs ++ (x.addrs ++ y.addrs)))
  p_out : p ∉ ctxAddrs rest ++ (o₂.addrs ++ (o₁.addrs ++ (x.addrs ++ y.addrs)))
  a_out : a ∉ ctxAddrs rest ++ (o₂.addrs ++ (o₁.addrs ++ (x.addrs ++ y.addrs)))
  nodup : (ctxAddrs rest ++ (o₂.addrs ++ (o₁.addrs ++ (x.addrs ++ y.addrs)))).Nodup

theorem addrs_three (rest : List (Frame κ)) (g p a : ℕ) (k₁ k₂ k : κ) (c c₁ c₂ : Bool)
    (s s₁ s₂ : Side) (o₂ o₁ x y : NTree κ) :
    (ctxAddrs (⟨s₁, p, k₁, c₁, o₁⟩ :: ⟨s₂, g, k₂, c₂, o₂⟩ :: rest) ++ (mk s a k c x y).addrs).Perm
      (g :: p :: a :: (ctxAddrs rest ++ (o₂.addrs ++ (o₁.addrs ++ (x.addrs ++ y.addrs))))) := by
  have hctx : ctxAddrs (⟨s₁, p, k₁, c₁, o₁⟩ :: ⟨s₂, g, k₂, c₂, o₂⟩ :: rest) =
      p :: (o₁.addrs ++ g :: (o₂.addrs ++ ctxAddrs rest)) := rfl
  rw [hctx]
  refine ((addrs_mk s a k c x y).append_left _).trans ?_
  classical
  rw [List.perm_iff_count]
  intro b
  simp only [List.count_append, List.count_cons]
  omega

theorem Apart.of_nodup
    (h : (ctxAddrs (⟨s, p, k₁, c₁, o₁⟩ :: ⟨s₂, g, k₂, c₂, o₂⟩ :: rest) ++
      (NTree.mk s a k c x y).addrs).Nodup) : Apart rest g p a o₂ o₁ x y := by
  have hall := (addrs_three rest g p a k₁ k₂ k c c₁ c₂ s s s₂ o₂ o₁ x y).nodup_iff.mp h
  obtain ⟨hg, hall⟩ := List.nodup_cons.mp hall
  obtain ⟨hp, hall⟩ := List.nodup_cons.mp hall
  obtain ⟨ha, hall⟩ := List.nodup_cons.mp hall
  refine ⟨?_, ?_, ?_, ?_, ?_, ha, hall⟩
  · rintro rfl
    exact hg List.mem_cons_self
  · rintro rfl
    exact hg (List.mem_cons_of_mem _ List.mem_cons_self)
  · rintro rfl
    exact hp List.mem_cons_self
  · exact fun hmem => hg (List.mem_cons_of_mem _ (List.mem_cons_of_mem _ hmem))
  · exact fun hmem => hp (List.mem_cons_of_mem _ hmem)

theorem Apart.out (h : Apart rest g p a o₂ o₁ x y) {b : ℕ}
    (hb : b ∈ ctxAddrs rest ++ (o₂.addrs ++ (o₁.addrs ++ (x.addrs ++ y.addrs)))) :
    b ≠ g ∧ b ≠ p ∧ b ≠ a := by
  refine ⟨?_, ?_, ?_⟩
  · rintro rfl
    exact h.g_out hb
  · rintro rfl
    exact h.p_out hb
  · rintro rfl
    exact h.a_out hb

theorem count_mk (s : Side) (a : ℕ) (k : κ) (c : Bool) (x y : NTree κ) (b : ℕ) :
    (mk s a k c x y).addrs.count b = (a :: (x.addrs ++ y.addrs)).count b :=
  (addrs_mk s a k c x y).count_eq b

theorem nodup_rotated (h : Apart rest g p a o₂ o₁ x y) {t : NTree κ}
    (ht : t.addrs.Perm (g :: p :: a :: (o₂.addrs ++ (o₁.addrs ++ (x.addrs ++ y.addrs))))) :
    (ctxAddrs rest ++ t.addrs).Nodup := by
  have hperm : (ctxAddrs rest ++ t.addrs).Perm
      (g :: p :: a :: (ctxAddrs rest ++ (o₂.addrs ++ (o₁.addrs ++ (x.addrs ++ y.addrs))))) := by
    refine (ht.append_left _).trans ?_
    rw [List.perm_iff_count]
    intro b
    simp only [List.count_append, List.count_cons]
    omega
  refine hperm.nodup_iff.mpr (List.nodup_cons.mpr ⟨?_, List.nodup_cons.mpr ⟨?_,
    List.nodup_cons.mpr ⟨h.a_out, h.nodup⟩⟩⟩)
  · simp only [List.mem_cons, not_or]
    exact ⟨h.gp, h.ga, h.g_out⟩
  · simp only [List.mem_cons, not_or]
    exact ⟨h.pa, h.p_out⟩

theorem outside_three {b : ℕ}
    (hb : b ∉ (fill (⟨s, p, k₁, c₁, o₁⟩ :: ⟨s₂, g, k₂, c₂, o₂⟩ :: rest) (mk s a k c x y)).addrs) :
    b ≠ g ∧ b ≠ p ∧ b ≠ a ∧ b ∉ ctxAddrs rest := by
  have hperm := (addrs_fill (⟨s, p, k₁, c₁, o₁⟩ :: ⟨s₂, g, k₂, c₂, o₂⟩ :: rest)
    (mk s a k c x y)).trans (addrs_three rest g p a k₁ k₂ k c c₁ c₂ s s s₂ o₂ o₁ x y)
  rw [hperm.mem_iff, List.mem_cons, List.mem_cons, List.mem_cons, List.mem_append] at hb
  tauto

/-- The child with its parent and grandparent as successors is hung where the grandparent was. -/
theorem relink_ok {m' : Mem κ} {c' c₁' c₂' : Bool}
    (h : Stands m (fill (⟨s, p, k₁, c₁, o₁⟩ :: ⟨s.other, g, k₂, c₂, o₂⟩ :: rest) (mk s a k c x y)))
    (h' : Three m m' g p a (Node.mk' s.other k₂ c₂' x.addr o₂.addr)
      (Node.mk' s k₁ c₁' y.addr o₁.addr) (Node.mk' s k c' (some g) (some p))) :
    ∃ m'', m'.set (locOf rest) (some a) = .ok m'' ∧
      Stands m'' (fill rest (mk s a k c' (mk s.other g k₂ c₂' x o₂) (mk s p k₁ c₁' y o₁))) ∧
      Outside (fill (⟨s, p, k₁, c₁, o₁⟩ :: ⟨s.other, g, k₂, c₂, o₂⟩ :: rest) (mk s a k c x y))
        m m'' := by
  obtain ⟨⟨-, ho₁, -, ho₂, -⟩, ht, hnodup⟩ := h.split
  have hapart := Apart.of_nodup hnodup
  obtain ⟨-, hx, hy⟩ := (holds_mk s a k c x y).mp ht
  have hbelow : ∀ b ∈ o₂.addrs ++ (o₁.addrs ++ (x.addrs ++ y.addrs)), m'.node b = m.node b := by
    intro b hb
    obtain ⟨hbg, hbp, hba⟩ := hapart.out (List.mem_append_right _ hb)
    exact h'.rest b hbg hbp hba
  have htree : Stands m (fill rest (mk s.other g k₂ c₂ (mk s p k₁ c₁ (mk s a k c x y) o₁) o₂)) := h
  have hholds : Holds m'.node (mk s a k c' (mk s.other g k₂ c₂' x o₂) (mk s p k₁ c₁' y o₁)) := by
    rw [holds_mk, addr_mk, addr_mk, holds_mk, holds_mk]
    refine ⟨h'.low, ⟨h'.top, hx.congr fun b hb => hbelow b ?_, ho₂.congr fun b hb => hbelow b ?_⟩,
      h'.mid, hy.congr fun b hb => hbelow b ?_, ho₁.congr fun b hb => hbelow b ?_⟩
    · simp [hb]
    · simp [hb]
    · simp [hb]
    · simp [hb]
  have hsame : (mk s a k c' (mk s.other g k₂ c₂' x o₂) (mk s p k₁ c₁' y o₁)).addrs =
      (mk s.other g k₂ c₂ (mk s p k₁ c₁ (mk s a k c x y) o₁) o₂).addrs := by
    rw [mk_other, mk_other]
    exact addrs_eq_of_entries (entries_turn_twice s g p a k₂ k₁ k c₂ c₁ c c₂' c₁' c' o₂ x y o₁)
  have hrest : ∀ b, b ∉ (mk s.other g k₂ c₂ (mk s p k₁ c₁ (mk s a k c x y) o₁) o₂).addrs →
      m'.node b = m.node b := by
    intro b hb
    simp only [mem_addrs_mk, not_or] at hb
    exact h'.rest b hb.1 hb.2.1.1 hb.2.1.2.1.1
  obtain ⟨m'', hm'', h'', hout⟩ := hang_ok htree h'.root hrest hholds (List.Perm.of_eq hsame)
  rw [addr_mk] at hm''
  exact ⟨m'', hm'', h'', hout⟩

theorem zigzag_ok (h : Stands m (fill (⟨s, p, k₁, true, o₁⟩ :: ⟨s.other, g, k₂, c₂, o₂⟩ :: rest)
      (mk s a k c x y))) :
    ∃ m', zigzag m (locOf rest) g p a s = .ok m' ∧
      Stands m' (fill rest (mk s a k false (mk s.other g k₂ true x o₂) (mk s p k₁ true y o₁))) ∧
      Outside (fill (⟨s, p, k₁, true, o₁⟩ :: ⟨s.other, g, k₂, c₂, o₂⟩ :: rest) (mk s a k c x y))
        m m' := by
  obtain ⟨hctx, ht, hnodup⟩ := h.split
  have hapart := Apart.of_nodup hnodup
  obtain ⟨hp, -, hg, -, -⟩ := hctx
  obtain ⟨ha, -, -⟩ := (holds_mk s a k c x y).mp ht
  rw [addr_mk] at hp
  have h₀ : Three m m g p a _ _ _ := ⟨rfl, hg, hp, ha, fun _ _ _ _ => rfl⟩
  obtain ⟨m₁, hm₁, h₁⟩ := h₀.modify_mid hapart.gp (Ne.symm hapart.pa) fun n => { n with red := true }
  obtain ⟨m₂, hm₂, h₂⟩ := h₁.modify_top (Ne.symm hapart.gp) (Ne.symm hapart.ga)
    fun n => { n with red := true }
  obtain ⟨m₃, hm₃, h₃⟩ := h₂.modify_low hapart.ga hapart.pa fun n => { n with red := false }
  obtain ⟨m₄, hm₄, h₄⟩ := h₃.modify_mid hapart.gp (Ne.symm hapart.pa) fun n => n.setChild y.addr s
  obtain ⟨m₅, hm₅, h₅⟩ := h₄.modify_low hapart.ga hapart.pa fun n => n.setChild (some p) s.other
  obtain ⟨m₆, hm₆, h₆⟩ := h₅.modify_top (Ne.symm hapart.gp) (Ne.symm hapart.ga)
    fun n => n.setChild x.addr s.other
  obtain ⟨m₇, hm₇, h₇⟩ := h₆.modify_low hapart.ga hapart.pa fun n => n.setChild (some g) s
  simp only [Node.mk'_setRed, Node.mk'_setChild, Node.mk'_setChild_other] at h₃ h₅ h₇
  obtain ⟨m₈, hm₈, h₈, hout⟩ := relink_ok h h₇
  refine ⟨m₈, ?_, h₈, hout⟩
  rw [zigzag, Mem.paint, hm₁, ok_bind, Mem.paint, hm₂, ok_bind, Mem.paint, hm₃, ok_bind,
    load_ok h₃.low, ok_bind, Node.mk'_child_other, Mem.set, hm₄, ok_bind, Mem.set, hm₅, ok_bind,
    load_ok h₅.low, ok_bind, Node.mk'_child, Mem.set, hm₆, ok_bind, Mem.set, hm₇, ok_bind, hm₈]

theorem zigzig_ok (h : Stands m (fill (⟨s, p, k₁, true, o₁⟩ :: ⟨s, g, k₂, c₂, o₂⟩ :: rest)
      (mk s a k c x y))) :
    ∃ m', zigzig m (locOf rest) g p s = .ok m' ∧
      Stands m' (fill rest (mk s p k₁ false (mk s a k c x y) (mk s g k₂ true o₁ o₂))) ∧
      Outside (fill (⟨s, p, k₁, true, o₁⟩ :: ⟨s, g, k₂, c₂, o₂⟩ :: rest) (mk s a k c x y))
        m m' := by
  obtain ⟨hctx, ht, hnodup⟩ := h.split
  have hapart := Apart.of_nodup hnodup
  obtain ⟨hp, ho₁, hg, ho₂, hrest⟩ := hctx
  obtain ⟨ha, hx, hy⟩ := (holds_mk s a k c x y).mp ht
  rw [addr_mk] at hp
  dsimp only at hp ho₁ hg ho₂ hrest
  obtain ⟨hnrest, -, hdisjoint⟩ := List.nodup_append.mp hapart.nodup
  -- the place above first, then the colours, then the two pointers of the rotation
  obtain ⟨m₁, hm₁, hrest₁, hkeep⟩ := set_locOf hrest hnrest (some p)
  have hg₁ : m₁.node g = _ :=
    (hkeep g fun hmem => hapart.g_out (List.mem_append_left _ hmem)).trans hg
  have hp₁ : m₁.node p = _ :=
    (hkeep p fun hmem => hapart.p_out (List.mem_append_left _ hmem)).trans hp
  have ha₁ : m₁.node a = _ :=
    (hkeep a fun hmem => hapart.a_out (List.mem_append_left _ hmem)).trans ha
  have h₁ : Three m₁ m₁ g p a _ _ _ := ⟨rfl, hg₁, hp₁, ha₁, fun _ _ _ _ => rfl⟩
  obtain ⟨m₂, hm₂, h₂⟩ := h₁.modify_mid hapart.gp (Ne.symm hapart.pa)
    fun n => { n with red := false }
  obtain ⟨m₃, hm₃, h₃⟩ := h₂.modify_top (Ne.symm hapart.gp) (Ne.symm hapart.ga)
    fun n => { n with red := true }
  obtain ⟨m₄, hm₄, h₄⟩ := h₃.modify_top (Ne.symm hapart.gp) (Ne.symm hapart.ga)
    fun n => n.setChild o₁.addr s
  obtain ⟨m₅, hm₅, h₅⟩ := h₄.modify_mid hapart.gp (Ne.symm hapart.pa)
    fun n => n.setChild (some g) s.other
  simp only [Node.mk'_setRed, Node.mk'_setChild, Node.mk'_setChild_other] at h₃ h₅
  have hbelow : ∀ b ∈ o₂.addrs ++ (o₁.addrs ++ (x.addrs ++ y.addrs)), m₅.node b = m.node b := by
    intro b hb
    obtain ⟨hbg, hbp, hba⟩ := hapart.out (List.mem_append_right _ hb)
    rw [h₅.rest b hbg hbp hba, hkeep b fun hmem => hdisjoint b hmem b hb rfl]
  -- the run; the path above, the three nodes, no node twice; the rest of memory
  refine ⟨m₅, ?_, Stands.join ?_ ?_ ?_, ?_⟩
  · rw [zigzig, hm₁, ok_bind, Mem.paint, hm₂, ok_bind, Mem.paint, hm₃, ok_bind, load_ok h₃.mid,
      ok_bind, Node.mk'_child_other, Mem.set, hm₄, ok_bind, Mem.set, hm₅]
  · rw [addr_mk, h₅.root]
    refine hrest₁.congr fun b hb => ?_
    obtain ⟨hbg, hbp, hba⟩ := hapart.out (List.mem_append_left _ hb)
    exact h₅.rest b hbg hbp hba
  · rw [holds_mk, addr_mk, addr_mk, holds_mk, holds_mk]
    refine ⟨h₅.mid, ⟨h₅.low, hx.congr fun b hb => hbelow b ?_, hy.congr fun b hb => hbelow b ?_⟩,
      h₅.top, ho₁.congr fun b hb => hbelow b ?_, ho₂.congr fun b hb => hbelow b ?_⟩
    · simp [hb]
    · simp [hb]
    · simp [hb]
    · simp [hb]
  · refine nodup_rotated hapart ?_
    rw [List.perm_iff_count]
    intro b
    simp only [count_mk, List.count_append, List.count_cons]
    omega
  · intro b hb
    obtain ⟨hbg, hbp, hba, hbrest⟩ := outside_three hb
    rw [h₅.rest b hbg hbp hba, hkeep b hbrest]

end Rotations

def Went (r : ℤ) (s : Side) : Prop := r ≠ 0 ∧ sideOf r = s

section Split

variable {m : Mem κ} {ctx rest : List (Frame κ)} {l r' o₁ o₂ x y : NTree κ} {a g p : ℕ} {k k₁ k₂ : κ}
  {c c₁ c₂ : Bool} {r : ℤ} {s s' : Side} {parentp gparentp : Option Loc} {p_r gp_r : ℤ} {mode : Bool}

theorem Went.pos (h : Went r s) : r > 0 ↔ s = .right := by
  obtain ⟨hne, hside⟩ := h
  rw [← hside, sideOf]
  split
  · next hneg => exact ⟨fun hpos => absurd hneg (by omega), fun heq => absurd heq (by decide)⟩
  · next hneg => exact ⟨fun _ => rfl, fun _ => by omega⟩

theorem Went.neg (h : Went r s) : r < 0 ↔ s = .left := by
  obtain ⟨hne, hside⟩ := h
  rw [← hside, sideOf]
  split
  · next hneg => exact ⟨fun _ => rfl, fun _ => hneg⟩
  · next hneg => exact ⟨fun hless => absurd hless hneg, fun heq => absurd heq (by decide)⟩

theorem side_eq_or (s s' : Side) : s' = s ∨ s' = s.other := by
  cases s <;> cases s' <;> simp [Side.other]

theorem recolor_ok (h : Stands m (fill ctx (.node a k c l r'))) :
    ∃ m', recolor m a ⟨k, l.addr, r'.addr, c⟩ = .ok m' ∧
      Stands m' (fill ctx (.node a k true (l.paint false) (r'.paint false))) ∧
      Outside (fill ctx (.node a k c l r')) m m' := by
  obtain ⟨m₁, hm₁, h₁, hout₁⟩ := paint_ok h rfl true
  have hright : Stands m₁ (fill (⟨.right, a, k, true, l⟩ :: ctx) r') := h₁
  obtain ⟨m₂, hm₂, h₂, hout₂⟩ := blacken_ok hright
  have hleft : Stands m₂ (fill (⟨.left, a, k, true, r'.paint false⟩ :: ctx) l) := h₂
  obtain ⟨m₃, hm₃, h₃, hout₃⟩ := blacken_ok hleft
  refine ⟨m₃, ?_, h₃, fun b hb => ?_⟩
  · rw [recolor, hm₁, ok_bind, hm₂, ok_bind, hm₃]
  · have hmem : ∀ t : NTree κ, t.addrs = (NTree.node a k c l r').addrs → b ∉ (fill ctx t).addrs := by
      intro t ht hb'
      rw [mem_addrs_fill, ht, ← mem_addrs_fill] at hb'
      exact hb hb'
    rw [hout₃ b (hmem (.node a k true l (r'.paint false)) (by simp [addrs, entries])),
      hout₂ b (hmem (.node a k true l r') (by simp [addrs, entries])), hout₁ b hb]

theorem maybe_split_loads (h : Stands m (fill ctx (.node a k c l r'))) :
    maybeSplitForInsert m (locOf ctx) parentp gparentp p_r gp_r mode =
      if mode || (l.isRed && r'.isRed) then (do
        let m ← recolor m a ⟨k, l.addr, r'.addr, c⟩
        match parentp with
        | none => .ok m
        | some parentp => do
          let p ← m.deref parentp
          let pn ← m.load p
          if pn.red then rotate m a p gparentp p_r gp_r else .ok m)
      else .ok m := by
  obtain ⟨hctx, ⟨ha, hl, hr⟩, -⟩ := h.split
  rw [maybeSplitForInsert, deref_locOf hctx, ok_bind, load_ok ha, ok_bind, isRed_ok hl, ok_bind,
    isRed_ok hr, ok_bind]

theorem maybe_split_none (h : Stands m (fill ctx (.node a k c l r')))
    (hboth : (l.isRed && r'.isRed) = false) :
    maybeSplitForInsert m (locOf ctx) parentp gparentp p_r gp_r false = .ok m := by
  rw [maybe_split_loads h, hboth]
  rfl

theorem maybe_split_recolor (h : Stands m (fill ctx (.node a k c l r')))
    (hdo : (mode || (l.isRed && r'.isRed)) = true)
    (hparent : ctx = [] ∧ parentp = none ∨
      ∃ f rest, ctx = f :: rest ∧ parentp = some (locOf rest) ∧ f.red = false) :
    ∃ m', maybeSplitForInsert m (locOf ctx) parentp gparentp p_r gp_r mode = .ok m' ∧
      Stands m' (fill ctx (.node a k true (l.paint false) (r'.paint false))) ∧
      Outside (fill ctx (.node a k c l r')) m m' := by
  obtain ⟨m', hm', h', hout⟩ := recolor_ok h
  refine ⟨m', ?_, h', hout⟩
  rw [maybe_split_loads h, if_pos hdo, hm', ok_bind]
  rcases hparent with ⟨-, rfl⟩ | ⟨f, rest, rfl, rfl, hblack⟩
  · rfl
  · obtain ⟨⟨hf, -, hrest⟩, -, -⟩ := h'.split
    dsimp only
    rw [deref_locOf hrest, ok_bind, load_ok hf, ok_bind, Node.mk'_red, hblack]
    rfl

theorem maybe_split_rotate
    (h : Stands m (fill (⟨s, p, k₁, true, o₁⟩ :: ⟨s', g, k₂, c₂, o₂⟩ :: rest) (.node a k c l r')))
    (hdo : (mode || (l.isRed && r'.isRed)) = true) (hp : Went p_r s) (hgp : Went gp_r s') :
    (s' = s → ∃ m', maybeSplitForInsert m
        (locOf (⟨s, p, k₁, true, o₁⟩ :: ⟨s', g, k₂, c₂, o₂⟩ :: rest))
        (some (locOf (⟨s', g, k₂, c₂, o₂⟩ :: rest))) (some (locOf rest)) p_r gp_r mode = .ok m' ∧
      Stands m' (fill rest (mk s p k₁ false (.node a k true (l.paint false) (r'.paint false))
        (mk s g k₂ true o₁ o₂))) ∧
      Outside (fill (⟨s, p, k₁, true, o₁⟩ :: ⟨s', g, k₂, c₂, o₂⟩ :: rest) (.node a k c l r')) m m') ∧
    (s' = s.other → ∀ x y, .node a k true (l.paint false) (r'.paint false) = mk s a k true x y →
      ∃ m', maybeSplitForInsert m
        (locOf (⟨s, p, k₁, true, o₁⟩ :: ⟨s', g, k₂, c₂, o₂⟩ :: rest))
        (some (locOf (⟨s', g, k₂, c₂, o₂⟩ :: rest))) (some (locOf rest)) p_r gp_r mode = .ok m' ∧
      Stands m' (fill rest (mk s a k false (mk s.other g k₂ true x o₂) (mk s p k₁ true y o₁))) ∧
      Outside (fill (⟨s, p, k₁, true, o₁⟩ :: ⟨s', g, k₂, c₂, o₂⟩ :: rest) (.node a k c l r')) m m') := by
  obtain ⟨m₁, hm₁, h₁, hout₁⟩ := recolor_ok h
  have hperm : (fill (⟨s, p, k₁, true, o₁⟩ :: ⟨s', g, k₂, c₂, o₂⟩ :: rest)
      (.node a k true (l.paint false) (r'.paint false))).addrs.Perm
      (fill (⟨s, p, k₁, true, o₁⟩ :: ⟨s', g, k₂, c₂, o₂⟩ :: rest) (.node a k c l r')).addrs :=
    addrs_fill_perm _ (by simp [addrs, entries])
  obtain ⟨⟨hf, -, hrest⟩, -, -⟩ := h₁.split
  obtain ⟨hg, ho₂, hrest₂⟩ := hrest
  have hstart : maybeSplitForInsert m
      (locOf (⟨s, p, k₁, true, o₁⟩ :: ⟨s', g, k₂, c₂, o₂⟩ :: rest))
      (some (locOf (⟨s', g, k₂, c₂, o₂⟩ :: rest))) (some (locOf rest)) p_r gp_r mode =
        if (p_r > 0) ≠ (gp_r > 0) then zigzag m₁ (locOf rest) g p a (sideOf p_r)
        else zigzig m₁ (locOf rest) g p (sideOf p_r) := by
    rw [maybe_split_loads h, if_pos hdo, hm₁, ok_bind]
    dsimp only
    have hctx₂ : CtxHolds m₁.node m₁.root (some p) (⟨s', g, k₂, c₂, o₂⟩ :: rest) :=
      ⟨hg, ho₂, hrest₂⟩
    rw [deref_locOf hctx₂, ok_bind, load_ok hf, ok_bind, Node.mk'_red, if_pos rfl, rotate, deref_locOf hrest₂,
      ok_bind]
  have hsame : ((p_r > 0) ≠ (gp_r > 0)) ↔ s' ≠ s := by
    rw [ne_eq, eq_iff_iff, hp.pos, hgp.pos]
    cases s <;> cases s' <;> simp
  rw [hstart, hp.2]
  refine ⟨fun heq => ?_, fun heq x y hmk => ?_⟩
  · rw [if_neg (by rw [hsame]; simpa using heq)]
    subst heq
    obtain ⟨x, y, hmk⟩ := node_eq_mk s' a k true (l.paint false) (r'.paint false)
    rw [hmk] at h₁ hperm ⊢
    obtain ⟨m₂, hm₂, h₂, hout₂⟩ := zigzig_ok h₁
    exact ⟨m₂, hm₂, h₂, hout₁.trans hout₂ hperm⟩
  · rw [if_pos (by rw [hsame, heq]; simp)]
    subst heq
    rw [hmk] at h₁ hperm
    obtain ⟨m₂, hm₂, h₂, hout₂⟩ := zigzag_ok h₁
    exact ⟨m₂, hm₂, h₂, hout₁.trans hout₂ hperm⟩

end Split

end Mintlib.Tsearch
