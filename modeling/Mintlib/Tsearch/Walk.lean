import Mintlib.Tsearch.Calls

/-!
# `twalk` and `tdestroy`

`twalk` calls a function at every node, which is told when it is called and how deep the node is.
`tdestroy` frees the nodes, children first.
-/

namespace Mintlib.Tsearch

open NodeTree NTree Compare Checked

variable {κ : Type}

inductive VISIT
  | preorder
  | postorder
  | endorder
  | leaf
deriving DecidableEq

/-- A call of the function: the node, when, and its level. -/
structure Visit where
  node : ℕ
  value : VISIT
  level : ℕ

def ifNode {α : Type} (p : Option ℕ) (other : α) (f : ℕ → Except Stop α) : Except Stop α :=
  match p with
  | some a => f a
  | none => .ok other

def trecurse : ℕ → Mem κ → ℕ → ℕ → Except Stop (List Visit)
  | 0, _, _, _ => .error .steps
  | steps + 1, m, root, level => do
    let n ← m.load root
    if n.left = none ∧ n.right = none then .ok [⟨root, .leaf, level⟩]
    else do
      let l ← ifNode n.left [] fun a => trecurse steps m a (level + 1)
      let r ← ifNode n.right [] fun a => trecurse steps m a (level + 1)
      .ok (⟨root, .preorder, level⟩ :: l ++ ⟨root, .postorder, level⟩ :: r ++ [⟨root, .endorder, level⟩])

def twalk (steps : ℕ) (m : Mem κ) (vroot : Option ℕ) : Except Stop (List Visit) :=
  ifNode vroot [] fun root => trecurse steps m root 0

/-- The memory, and the keys that have been given to `freefct`. -/
def tdestroyRecurse : ℕ → Mem κ → ℕ → Except Stop (Mem κ × List κ)
  | 0, _, _ => .error .steps
  | steps + 1, m, root => do
    let n ← m.load root
    let (m, l) ← ifNode n.left (m, []) fun a => tdestroyRecurse steps m a
    let n ← m.load root
    let (m, r) ← ifNode n.right (m, []) fun a => tdestroyRecurse steps m a
    let n ← m.load root
    let m ← m.free root
    .ok (m, l ++ r ++ [n.key])

def tdestroy (steps : ℕ) (m : Mem κ) (vroot : Option ℕ) : Except Stop (Mem κ × List κ) :=
  ifNode vroot (m, []) fun root => tdestroyRecurse steps m root

def inOrder (v : Visit) : Bool := v.value = .postorder ∨ v.value = .leaf

def atFirst (v : Visit) : Bool := v.value = .preorder ∨ v.value = .leaf

def atLast (v : Visit) : Bool := v.value = .endorder ∨ v.value = .leaf

def preList : ℕ → NTree κ → List (ℕ × ℕ)
  | _, .nil => []
  | level, .node a _ _ l r => (a, level) :: preList (level + 1) l ++ preList (level + 1) r

def inList : ℕ → NTree κ → List (ℕ × ℕ)
  | _, .nil => []
  | level, .node a _ _ l r => inList (level + 1) l ++ (a, level) :: inList (level + 1) r

def postList : ℕ → NTree κ → List (ℕ × ℕ)
  | _, .nil => []
  | level, .node a _ _ l r => postList (level + 1) l ++ postList (level + 1) r ++ [(a, level)]

def nodesAt (which : Visit → Bool) (vs : List Visit) : List (ℕ × ℕ) :=
  (vs.filter which).map fun v => (v.node, v.level)

structure Walked (level : ℕ) (t : NTree κ) (vs : List Visit) : Prop where
  first : nodesAt atFirst vs = preList level t
  middle : nodesAt inOrder vs = inList level t
  last : nodesAt atLast vs = postList level t

section Walk

variable {m m' : Mem κ} {t : NTree κ} {steps : ℕ}

theorem nodesAt_append (which : Visit → Bool) (vs ws : List Visit) :
    nodesAt which (vs ++ ws) = nodesAt which vs ++ nodesAt which ws := by
  rw [nodesAt, List.filter_append, List.map_append]
  rfl

theorem nodesAt_cons (which : Visit → Bool) (v : Visit) (vs : List Visit) :
    nodesAt which (v :: vs) = (if which v then [(v.node, v.level)] else []) ++ nodesAt which vs := by
  rw [nodesAt, List.filter_cons]
  split <;> rfl

theorem trecurse_ok : ∀ (steps : ℕ) (t : NTree κ) (level : ℕ), Holds m.node t → t.height ≤ steps →
    ∃ vs, ifNode t.addr [] (fun a => trecurse steps m a level) = .ok vs ∧ Walked level t vs := by
  intro steps
  induction steps with
  | zero =>
    intro t level _ hsteps
    cases t with
    | nil => exact ⟨[], rfl, rfl, rfl, rfl⟩
    | node => exact absurd hsteps (Nat.not_succ_le_zero _)
  | succ steps ih =>
    intro t level h hsteps
    cases t with
    | nil => exact ⟨[], rfl, rfl, rfl, rfl⟩
    | node a k c l r =>
      obtain ⟨ha, hl, hr⟩ := h
      have hheight : (NTree.node a k c l r).height = max l.height r.height + 1 := rfl
      have hlel := Nat.le_max_left l.height r.height
      have hler := Nat.le_max_right l.height r.height
      rw [NTree.addr, ifNode, trecurse, load_ok ha, ok_bind]
      by_cases hleaf : l.addr = none ∧ r.addr = none
      · rw [if_pos hleaf]
        obtain ⟨hlnil, hrnil⟩ := hleaf
        rw [addr_eq_none] at hlnil hrnil
        subst hlnil hrnil
        exact ⟨_, rfl, rfl, rfl, rfl⟩
      · obtain ⟨vs, hvs, hleft⟩ := ih l (level + 1) hl (by omega)
        obtain ⟨ws, hws, hright⟩ := ih r (level + 1) hr (by omega)
        rw [if_neg hleaf, hvs, ok_bind, hws, ok_bind]
        refine ⟨_, rfl, ?_, ?_, ?_⟩
        · simp only [nodesAt_append, nodesAt_cons, hleft.first, hright.first]
          simp [atFirst, nodesAt, preList]
        · simp only [nodesAt_append, nodesAt_cons, hleft.middle, hright.middle]
          simp [inOrder, nodesAt, inList]
        · simp only [nodesAt_append, nodesAt_cons, hleft.last, hright.last]
          simp [atLast, nodesAt, postList]

theorem inList_addrs (level : ℕ) (t : NTree κ) : (inList level t).map Prod.fst = t.addrs := by
  induction t generalizing level with
  | nil => rfl
  | node a k c l r ihl ihr =>
    rw [inList, List.map_append, List.map_cons, ihl, ihr, addrs, addrs, addrs, entries,
      List.map_append, List.map_cons]

theorem preList_perm (level : ℕ) (t : NTree κ) : (preList level t).Perm (inList level t) := by
  induction t generalizing level with
  | nil => exact List.Perm.refl _
  | node a k c l r ihl ihr =>
    rw [preList, inList]
    refine List.Perm.trans ?_ List.perm_middle.symm
    exact List.Perm.cons _ ((ihl _).append (ihr _))

theorem postList_perm (level : ℕ) (t : NTree κ) : (postList level t).Perm (inList level t) := by
  induction t generalizing level with
  | nil => exact List.Perm.refl _
  | node a k c l r ihl ihr =>
    rw [postList, inList]
    refine List.Perm.trans ?_ List.perm_middle.symm
    refine (List.perm_append_singleton _ _).trans ?_
    exact List.Perm.cons _ ((ihl _).append (ihr _))

end Walk

/-- A walk reaches every node once in the order of the keys, once before and once after what is below
it, and tells the same level each time. -/
theorem twalk_ok {cmp : κ → κ → ℤ} {m : Mem κ} {t : NTree κ} (h : SearchTree cmp m t) {steps : ℕ}
    (hsteps : t.height ≤ steps) :
    ∃ vs, twalk steps m m.root = .ok vs ∧ (nodesAt inOrder vs).map Prod.fst = t.addrs ∧
      (nodesAt atFirst vs).Perm (nodesAt inOrder vs) ∧ (nodesAt atLast vs).Perm (nodesAt inOrder vs) ∧
      nodesAt atFirst vs = preList 0 t ∧ nodesAt atLast vs = postList 0 t := by
  obtain ⟨vs, hvs, hwalked⟩ := trecurse_ok steps t 0 h.stands.holds hsteps
  refine ⟨vs, ?_, ?_, ?_, ?_, hwalked.first, hwalked.last⟩
  · rw [twalk, h.stands.root]
    exact hvs
  · rw [hwalked.middle, inList_addrs]
  · rw [hwalked.first, hwalked.middle]
    exact preList_perm 0 t
  · rw [hwalked.last, hwalked.middle]
    exact postList_perm 0 t

theorem twalk_ok_demo : ∃ vs, twalk 3 fourNodes fourNodes.root = .ok vs ∧
    (nodesAt inOrder vs).map Prod.fst = [1, 3, 0, 2] ∧
    (nodesAt atFirst vs).Perm (nodesAt inOrder vs) ∧ (nodesAt atLast vs).Perm (nodesAt inOrder vs) ∧
    nodesAt atFirst vs = [(0, 0), (1, 1), (3, 2), (2, 1)] ∧
    nodesAt atLast vs = [(3, 2), (1, 1), (2, 1), (0, 0)] :=
  twalk_ok fourNodes_tree (Nat.le_refl 3)

section Destroy

variable {m m' : Mem κ} {t : NTree κ} {steps : ℕ}

/-- What has been freed: the nodes of a tree and nothing else, and its keys. -/
structure Freed (m m' : Mem κ) (t : NTree κ) (keys : List κ) : Prop where
  root : m'.root = m.root
  none : ∀ a ∈ t.addrs, m'.node a = none
  rest : ∀ a, a ∉ t.addrs → m'.node a = m.node a
  keys : keys.Perm (keysOf t)

theorem tdestroy_recurse_ok : ∀ (steps : ℕ) (m : Mem κ) (t : NTree κ), Holds m.node t → t.addrs.Nodup →
    t.height ≤ steps →
    ∃ m' keys, ifNode t.addr (m, []) (fun a => tdestroyRecurse steps m a) = .ok (m', keys) ∧
      Freed m m' t keys := by
  intro steps
  induction steps with
  | zero =>
    intro m t _ _ hsteps
    cases t with
    | nil =>
      exact ⟨m, [], rfl, rfl, fun a ha => absurd ha List.not_mem_nil, fun _ _ => rfl, List.Perm.refl _⟩
    | node => exact absurd hsteps (Nat.not_succ_le_zero _)
  | succ steps ih =>
    intro m t h hnodup hsteps
    cases t with
    | nil =>
      exact ⟨m, [], rfl, rfl, fun a ha => absurd ha List.not_mem_nil, fun _ _ => rfl, List.Perm.refl _⟩
    | node a k c l r =>
      obtain ⟨ha, hl, hr⟩ := h
      have hheight : (NTree.node a k c l r).height = max l.height r.height + 1 := rfl
      have hlel := Nat.le_max_left l.height r.height
      have hler := Nat.le_max_right l.height r.height
      have hperm := (addrs_mk .left a k c l r).nodup_iff.mp hnodup
      obtain ⟨haout, hlr⟩ := List.nodup_cons.mp hperm
      obtain ⟨hlnodup, hrnodup, happart⟩ := List.nodup_append.mp hlr
      have hal : a ∉ l.addrs := fun hmem => haout (List.mem_append_left _ hmem)
      have har : a ∉ r.addrs := fun hmem => haout (List.mem_append_right _ hmem)
      have hmem : ∀ b, b ∈ (NTree.node a k c l r).addrs ↔ b = a ∨ b ∈ l.addrs ∨ b ∈ r.addrs :=
        fun b => mem_addrs_mk (s := .left)
      -- the left subtree is freed, then the right one, then the node
      obtain ⟨m₁, ks, hm₁, h₁⟩ := ih m l hl hlnodup (by omega)
      have ha₁ : m₁.node a = _ := (h₁.rest a hal).trans ha
      have hr₁ : Holds m₁.node r := hr.congr fun b hb => h₁.rest b fun hbl => happart b hbl b hb rfl
      obtain ⟨m₂, ks', hm₂, h₂⟩ := ih m₁ r hr₁ hrnodup (by omega)
      have ha₂ : m₂.node a = _ := (h₂.rest a har).trans ha₁
      have hfree : m₂.free a = .ok { m₂ with node := Function.update m₂.node a none } := by
        rw [Mem.free, load_ok ha₂, ok_bind]
      have hother : ∀ b, b ≠ a → Function.update m₂.node a none b = m₂.node b :=
        fun b hb => Function.update_of_ne hb _ _
      refine ⟨{ m₂ with node := Function.update m₂.node a none }, ks ++ ks' ++ [k], ?_, ?_, ?_, ?_, ?_⟩
      · rw [NTree.addr, ifNode, tdestroyRecurse, load_ok ha, ok_bind, hm₁, ok_bind]
        dsimp only
        rw [load_ok ha₁, ok_bind, hm₂, ok_bind]
        dsimp only
        rw [load_ok ha₂, ok_bind, hfree, ok_bind]
      · exact h₂.root.trans h₁.root
      · intro b hb
        dsimp only
        by_cases hba : b = a
        · rw [hba]
          exact Function.update_self _ _ _
        · rw [hother b hba]
          rcases (hmem b).mp hb with heq | hbl | hbr
          · exact absurd heq hba
          · rw [h₂.rest b (fun hbr => happart b hbl b hbr rfl), h₁.none b hbl]
          · exact h₂.none b hbr
      · intro b hb
        rw [hmem, not_or, not_or] at hb
        dsimp only
        rw [hother b hb.1, h₂.rest b hb.2.2, h₁.rest b hb.2.1]
      · have hkeys : keysOf (.node a k c l r) = keysOf l ++ k :: keysOf r := by
          rw [keysOf, entries, List.map_append, List.map_cons]
          rfl
        rw [hkeys]
        refine (List.perm_append_singleton _ _).trans (List.Perm.trans ?_ List.perm_middle.symm)
        exact List.Perm.cons k (h₁.keys.append h₂.keys)

end Destroy

/-- Every node of the tree is freed once, and every key is given to the function once. -/
theorem tdestroy_ok {cmp : κ → κ → ℤ} {m : Mem κ} {t : NTree κ} (h : Kept cmp m t) {steps : ℕ}
    (hsteps : t.height ≤ steps) :
    ∃ m' keys, tdestroy steps m m.root = .ok (m', keys) ∧ (∀ a, m'.node a = none) ∧
      keys.Perm (keysOf t) := by
  obtain ⟨m', keys, hm', hfreed⟩ :=
    tdestroy_recurse_ok steps m t h.tree.stands.holds h.tree.stands.nodup hsteps
  refine ⟨m', keys, ?_, fun a => ?_, hfreed.keys⟩
  · rw [tdestroy, h.tree.stands.root]
    exact hm'
  · by_cases ha : a ∈ t.addrs
    · exact hfreed.none a ha
    · rw [hfreed.rest a ha, h.only a ha]

theorem tdestroy_ok_demo : ∃ m' keys, tdestroy 3 fourNodes fourNodes.root = .ok (m', keys) ∧
    (∀ a, m'.node a = none) ∧ keys.Perm [1, 2, 3, 5] := by
  have hkept : Kept (fun x y : ℤ => x - y) fourNodes fourTree := by
    refine ⟨fourNodes_tree, fun a ha => ?_⟩
    have hlarge : 4 ≤ a := by
      by_contra hless
      have hmem : ∀ b < 4, b ∈ fourTree.addrs := by decide
      exact ha (hmem a (Nat.lt_of_not_le hless))
    obtain ⟨b, rfl⟩ := Nat.exists_eq_add_of_le' hlarge
    rfl
  exact tdestroy_ok hkept (Nat.le_refl 3)

end Mintlib.Tsearch
