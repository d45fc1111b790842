import Mintlib.Tsearch.Mend

/-!
# Deleting: `tdelete`

A node with two successors gets the key of the next one in order, which has no left successor and is
unchained in its place.
-/

namespace Mintlib.Tsearch

open NodeTree NTree Compare Checked

variable {κ : Type}

/-- The way down: the place of the node, its parent and the stack, if the key is there. -/
def deleteLoop (cmp : κ → κ → ℤ) (key : κ) :
    ℕ → Mem κ → Loc → ℕ → Nodestack → Except Stop (Option (Loc × ℕ × Nodestack))
  | 0, _, _, _, _ => .error .steps
  | steps + 1, m, rootp, p, st => do
    let root ← m.deref rootp
    let n ← m.load root
    let r := cmp key n.key
    if r = 0 then .ok (some (rootp, p, st))
    else do
      let st := st.push rootp
      let rootp := Loc.child (sideOf r) root
      let q ← m.get rootp
      match q with
      | none => .ok none
      | some _ => deleteLoop cmp key steps m rootp root st

def successorLoop : ℕ → Mem κ → Loc → Loc → Nodestack → Except Stop (ℕ × Nodestack)
  | 0, _, _, _, _ => .error .steps
  | steps + 1, m, parent, up, st => do
    let st := st.push parent
    let u ← m.deref up
    let n ← m.load u
    match n.left with
    | none => .ok (u, st)
    | some _ => successorLoop steps m up (.child .left u) st

def findUnchained (steps : ℕ) (m : Mem κ) (rootp : Loc) (root : ℕ) (st : Nodestack) :
    Except Stop (ℕ × Nodestack) := do
  let n ← m.load root
  match n.left, n.right with
  | some _, some _ => successorLoop steps m rootp (.child .right root) st
  | _, _ => .ok (root, st)

/-- The node is taken out, and `r` is chained into its parent. -/
def unchain (m : Mem κ) (rootp : Loc) (st : Nodestack) (unchained : ℕ) (r : Option ℕ) :
    Except Stop (Mem κ) :=
  match st.places with
  | [] => m.set rootp r
  | pp :: _ => do
    let q ← m.deref pp
    let qn ← m.load q
    if qn.right = some unchained then m.set (.child .right q) r
    else m.set (.child .left q) r

/-- `if (unchained != root) root->key = unchained->key;` -/
def copyKey (m : Mem κ) (root unchained : ℕ) : Except Stop (Mem κ) := do
  let un ← m.load unchained
  if unchained ≠ root then m.modify root fun n => { n with key := un.key }
  else .ok m

def rebalance (steps : ℕ) (m : Mem κ) (st : Nodestack) (unchained : ℕ) (r : Option ℕ) :
    Except Stop (Mem κ) := do
  let un ← m.load unchained
  if !un.red then do
    let (m, r) ← mendLoop steps m st r
    m.blacken r
  else .ok m

def Mem.free (m : Mem κ) (a : ℕ) : Except Stop (Mem κ) := do
  let _ ← m.load a
  .ok { m with node := Function.update m.node a none }

def deleteNode (steps : ℕ) (m : Mem κ) (rootp : Loc) (st : Nodestack) : Except Stop (Mem κ) := do
  let root ← m.deref rootp
  let (unchained, st) ← findUnchained steps m rootp root st
  let un ← m.load unchained
  let r := match un.left with
    | some l => some l
    | none => un.right
  let m ← unchain m rootp st unchained r
  let m ← copyKey m root unchained
  let m ← rebalance steps m st unchained r
  m.free unchained

/-- The memory, and the parent of the node that had the key, or the root itself. -/
def tdelete (cmp : κ → κ → ℤ) (steps : ℕ) (m : Mem κ) (key : κ) : Except Stop (Mem κ × Option ℕ) :=
  match m.root with
  | none => .ok (m, none)
  | some p => do
    let found ← deleteLoop cmp key steps m .root p ⟨[], 40⟩
    match found with
    | none => .ok (m, none)
    | some (rootp, retval, st) => do
      let m ← deleteNode steps m rootp st
      .ok (m, some retval)

def parentOf (ctx : List (Frame κ)) (a : ℕ) : ℕ :=
  match ctx with
  | [] => a
  | f :: _ => f.addr

/-- There is room on the stack for 40 places. -/
structure Roomy (st : Nodestack) (ctx : List (Frame κ)) : Prop where
  places : st.places = placesOf ctx
  least : 40 ≤ st.stacksize

section Down

variable {cmp : κ → κ → ℤ} {key : κ} {m : Mem κ} {ctx rest : List (Frame κ)} {t : NTree κ} {f : Frame κ}
  {st : Nodestack} {a : ℕ}

theorem Roomy.push (h : Roomy st rest) (f : Frame κ) : Roomy (st.push (locOf rest)) (f :: rest) := by
  have hleast := h.least
  rw [Nodestack.push]
  split
  · refine ⟨?_, ?_⟩
    · rw [h.places]
      rfl
    · dsimp only
      omega
  · refine ⟨?_, hleast⟩
    rw [h.places]
    rfl

theorem deref_fill {b : ℕ} {k : κ} {c : Bool} {l r : NTree κ}
    (h : Stands m (fill ctx (.node b k c l r))) :
    m.deref (locOf ctx) = .ok b ∧ m.load b = .ok ⟨k, l.addr, r.addr, c⟩ := by
  obtain ⟨hctx, ⟨hb, -, -⟩, -⟩ := h.split
  exact ⟨deref_locOf hctx, load_ok hb⟩

inductive Sought (cmp : κ → κ → ℤ) (key : κ) (t : NTree κ) : Option (Loc × ℕ × Nodestack) → Prop
  | absent (h : ∀ e ∈ t.entries, cmp key e.2 ≠ 0) : Sought cmp key t none
  | there {ctx : List (Frame κ)} {a : ℕ} {k : κ} {c : Bool} {l r : NTree κ} {st : Nodestack}
      (htree : t = fill ctx (.node a k c l r)) (hkey : cmp key k = 0) (hroomy : Roomy st ctx) :
      Sought cmp key t (some (locOf ctx, parentOf ctx a, st))

theorem deleteLoop_ok (key : κ) (hcmp : Consistent cmp) : ∀ (steps : ℕ) (ctx : List (Frame κ)) (t : NTree κ)
    (st : Nodestack) (p : ℕ), Stands m (fill ctx t) →
    (fill ctx t).entries.Pairwise (fun e e' => cmp e.2 e'.2 < 0) → Toward cmp key ctx → t ≠ .nil →
    Roomy st ctx → (∀ a ∈ t.addr, p = parentOf ctx a) → t.height ≤ steps →
    ∃ found, deleteLoop cmp key steps m (locOf ctx) p st = .ok found ∧
      Sought cmp key (fill ctx t) found := by
  intro steps
  induction steps with
  | zero =>
    intro ctx t st p _ _ _ hne _ _ hsteps
    have hpos := height_pos hne
    omega
  | succ steps ih =>
    intro ctx t st p h hordered htoward hne hroomy hp hsteps
    cases t with
    | nil => exact absurd rfl hne
    | node b k c left right =>
      obtain ⟨hderef, hload⟩ := deref_fill h
      rw [deleteLoop, hderef, ok_bind, hload, ok_bind]
      dsimp only
      by_cases hzero : cmp key k = 0
      · rw [if_pos hzero, hp b rfl]
        exact ⟨_, rfl, Sought.there rfl hzero hroomy⟩
      · rw [if_neg hzero]
        obtain ⟨x, y, hmk⟩ := node_eq_mk (sideOf (cmp key k)) b k c left right
        rw [hmk] at h hordered hsteps ⊢
        have hbelow : Stands m (fill (⟨sideOf (cmp key k), b, k, c, y⟩ :: ctx) x) := h
        have htoward' := htoward.cons (f := ⟨sideOf (cmp key k), b, k, c, y⟩) (went_sideOf hzero)
        have hget : m.get (.child (sideOf (cmp key k)) b) = .ok x.addr := get_locOf hbelow.split.1
        rw [hget, ok_bind]
        cases x with
        | nil => exact ⟨none, rfl, Sought.absent (toward_absent hcmp hordered htoward')⟩
        | node d kd cd ld rd =>
          rw [height_mk] at hsteps
          have hle := Nat.le_max_left (NTree.node d kd cd ld rd).height y.height
          exact ih (⟨sideOf (cmp key k), b, k, c, y⟩ :: ctx) (.node d kd cd ld rd) (st.push (locOf ctx)) b
            hbelow hordered htoward' (by simp) (hroomy.push _) (fun _ _ => rfl) (by omega)

theorem before_left (hleft : ∀ f ∈ ctx, f.side = .left) : before ctx = [] := by
  induction ctx with
  | nil => rfl
  | cons f ctx ih =>
    rw [before, hleft f List.mem_cons_self]
    exact ih fun g hg => hleft g (List.mem_cons_of_mem _ hg)

theorem successorLoop_ok : ∀ (steps : ℕ) (f : Frame κ) (rest : List (Frame κ)) (t : NTree κ)
    (st : Nodestack), Stands m (fill (f :: rest) t) → t ≠ .nil → Roomy st rest → t.height ≤ steps →
    ∃ ctx u ku cu ru st', successorLoop steps m (locOf rest) (locOf (f :: rest)) st = .ok (u, st') ∧
      t = fill ctx (.node u ku cu .nil ru) ∧ (∀ g ∈ ctx, g.side = .left) ∧
      Roomy st' (ctx ++ f :: rest) := by
  intro steps
  induction steps with
  | zero =>
    intro f rest t st _ hne _ hsteps
    have hpos := height_pos hne
    omega
  | succ steps ih =>
    intro f rest t st h hne hroomy hsteps
    cases t with
    | nil => exact absurd rfl hne
    | node u ku cu left ru =>
      obtain ⟨hderef, hload⟩ := deref_fill h
      rw [successorLoop, hderef, ok_bind, hload, ok_bind]
      dsimp only
      cases left with
      | nil =>
        exact ⟨[], u, ku, cu, ru, _, rfl, rfl, fun g hg => absurd hg List.not_mem_nil, hroomy.push f⟩
      | node d kd cd ld rd =>
        have hbelow : Stands m (fill (⟨.left, u, ku, cu, ru⟩ :: f :: rest) (.node d kd cd ld rd)) := h
        have hheight : (NTree.node u ku cu (.node d kd cd ld rd) ru).height =
          max (NTree.node d kd cd ld rd).height ru.height + 1 := rfl
        have hle := Nat.le_max_left (NTree.node d kd cd ld rd).height ru.height
        obtain ⟨ctx, u', ku', cu', ru', st', hloop, htree, hleft, hroomy'⟩ :=
          ih ⟨.left, u, ku, cu, ru⟩ (f :: rest) (.node d kd cd ld rd) (st.push (locOf rest)) hbelow
            (by simp) (hroomy.push f) (by omega)
        refine ⟨ctx ++ [⟨.left, u, ku, cu, ru⟩], u', ku', cu', ru', st', hloop, ?_, ?_, ?_⟩
        · rw [fill_append, ← htree]
          rfl
        · intro g hg
          rcases List.mem_append.mp hg with hg | hg
          · exact hleft g hg
          · rw [List.mem_singleton.mp hg]
        · rw [List.append_assoc]
          exact hroomy'

end Down

/-- The node itself, or the next one in order, with the ways to it before and after the key has been
copied. -/
inductive Taken (ctx : List (Frame κ)) (a : ℕ) (k : κ) (c : Bool) (l r : NTree κ) :
    ℕ → κ → Bool → NTree κ → NTree κ → List (Frame κ) → List (Frame κ) → Prop
  | itself (h : l = .nil ∨ r = .nil) : Taken ctx a k c l r a k c l r ctx ctx
  | next (way : List (Frame κ)) (u : ℕ) (ku : κ) (cu : Bool) (ru : NTree κ)
      (hr : r = fill way (.node u ku cu .nil ru)) (hleft : ∀ f ∈ way, f.side = .left) :
      Taken ctx a k c l r u ku cu .nil ru (way ++ ⟨.right, a, k, c, l⟩ :: ctx)
        (way ++ ⟨.right, a, ku, c, l⟩ :: ctx)

def onlyChild : NTree κ → NTree κ → NTree κ
  | .nil, r => r
  | .node a k c x y, _ => .node a k c x y

/-- An entry is taken out; when the next node goes in its place, the key of that one stays. -/
inductive Removed (a : ℕ) (k : κ) : ℕ → List (ℕ × κ) → List (ℕ × κ) → Prop
  | itself (l r : List (ℕ × κ)) : Removed a k a (l ++ (a, k) :: r) (l ++ r)
  | next (l r : List (ℕ × κ)) (u : ℕ) (ku : κ) :
      Removed a k u (l ++ (a, k) :: (u, ku) :: r) (l ++ (a, ku) :: r)

section Removed

variable {cmp : κ → κ → ℤ} {a u : ℕ} {k : κ} {l l' : List (ℕ × κ)}

theorem Removed.keys (h : Removed a k u l l') :
    ∃ x y, l.map Prod.snd = x ++ k :: y ∧ l'.map Prod.snd = x ++ y := by
  cases h with
  | itself x y => exact ⟨x.map Prod.snd, y.map Prod.snd, by simp, by simp⟩
  | next x y u ku => exact ⟨x.map Prod.snd, ku :: y.map Prod.snd, by simp, by simp⟩

theorem Removed.addrs (h : Removed a k u l l') :
    (l.map Prod.fst).Perm (u :: l'.map Prod.fst) := by
  cases h with
  | itself x y =>
    rw [List.map_append, List.map_cons, List.map_append]
    exact List.perm_middle
  | next x y u ku =>
    rw [List.map_append, List.map_cons, List.map_cons, List.map_append, List.map_cons]
    refine (List.Perm.append_left _ (List.Perm.swap _ _ _)).trans ?_
    exact List.perm_middle

theorem Removed.ordered (h : Removed a k u l l')
    (hordered : l.Pairwise fun e e' => cmp e.2 e'.2 < 0) :
    l'.Pairwise fun e e' => cmp e.2 e'.2 < 0 := by
  obtain ⟨x, y, hl, hl'⟩ := h.keys
  have hpair : (l.map Prod.snd).Pairwise fun d d' => cmp d d' < 0 := List.pairwise_map.mpr hordered
  rw [hl] at hpair
  have hsub : (x ++ y).Sublist (x ++ k :: y) := (List.sublist_cons_self k y).append_left x
  have hpair' := hpair.sublist hsub
  rw [← hl'] at hpair'
  exact List.pairwise_map.mp hpair'

end Removed

section Taken

variable {ctx ctxu ctxu' : List (Frame κ)} {a u : ℕ} {k ku : κ} {c cu : Bool} {l r lu ru : NTree κ}
  {m : Mem κ} {st : Nodestack}

theorem entries_onlyChild (h : l = .nil ∨ r = .nil) :
    (onlyChild l r).entries = l.entries ++ r.entries := by
  cases l with
  | nil => rfl
  | node b kb cb x y =>
    rcases h with h | rfl
    · exact absurd h (by simp)
    · exact (List.append_nil _).symm

theorem addr_onlyChild (l r : NTree κ) :
    (match l.addr with | some b => some b | none => r.addr) = (onlyChild l r).addr := by
  cases l <;> rfl

theorem onlyChild_or (l r : NTree κ) : onlyChild l r = l ∨ onlyChild l r = r := by
  cases l with
  | nil => exact Or.inr rfl
  | node => exact Or.inl rfl

theorem ctxRB_rekey (way ctx : List (Frame κ)) (s : Side) (a : ℕ) (k k' : κ) (c : Bool) (x : NTree κ)
    (b : Bool) (n : ℕ) :
    CtxRB (way ++ ⟨s, a, k', c, x⟩ :: ctx) b n ↔ CtxRB (way ++ ⟨s, a, k, c, x⟩ :: ctx) b n := by
  induction way generalizing b n with
  | nil => exact Iff.rfl
  | cons f way ih =>
    rw [List.cons_append, List.cons_append, CtxRB, CtxRB, ih, ih]

theorem locOf_rekey (way ctx : List (Frame κ)) (s : Side) (a : ℕ) (k k' : κ) (c : Bool) (x : NTree κ) :
    locOf (way ++ ⟨s, a, k', c, x⟩ :: ctx) = locOf (way ++ ⟨s, a, k, c, x⟩ :: ctx) := by
  cases way <;> rfl

theorem placesOf_rekey (way ctx : List (Frame κ)) (s : Side) (a : ℕ) (k k' : κ) (c : Bool)
    (x : NTree κ) :
    placesOf (way ++ ⟨s, a, k', c, x⟩ :: ctx) = placesOf (way ++ ⟨s, a, k, c, x⟩ :: ctx) := by
  induction way with
  | nil => rfl
  | cons f way ih => rw [List.cons_append, List.cons_append, placesOf, placesOf, ih, locOf_rekey]

theorem Taken.half (h : Taken ctx a k c l r u ku cu lu ru ctxu ctxu') : lu = .nil ∨ ru = .nil := by
  cases h with
  | itself h => exact h
  | next => exact Or.inl rfl

theorem Taken.tree (h : Taken ctx a k c l r u ku cu lu ru ctxu ctxu') :
    fill ctx (.node a k c l r) = fill ctxu (.node u ku cu lu ru) := by
  cases h with
  | itself => rfl
  | next way u ku cu ru hr =>
    rw [fill_append, hr]
    rfl

theorem Taken.ctxRB (h : Taken ctx a k c l r u ku cu lu ru ctxu ctxu') (b : Bool) (n : ℕ) :
    CtxRB ctxu' b n ↔ CtxRB ctxu b n := by
  cases h with
  | itself => exact Iff.rfl
  | next way => exact ctxRB_rekey way ctx .right a k ku c l b n

theorem Taken.placesOf (h : Taken ctx a k c l r u ku cu lu ru ctxu ctxu') :
    placesOf ctxu' = placesOf ctxu := by
  cases h with
  | itself => rfl
  | next way => exact placesOf_rekey way ctx .right a k ku c l

theorem Taken.root (h : Taken ctx a k c l r u ku cu lu ru ctxu ctxu') (hnil : ctxu = []) :
    ctx = [] := by
  cases h with
  | itself => exact hnil
  | next way => exact absurd hnil (by simp)

theorem Taken.removed (h : Taken ctx a k c l r u ku cu lu ru ctxu ctxu') :
    Removed a k u (fill ctx (.node a k c l r)).entries (fill ctxu' (onlyChild lu ru)).entries := by
  cases h with
  | itself h =>
    rw [entries_fill, entries_fill, entries_onlyChild h, entries]
    have hremoved := Removed.itself (a := a) (k := k) (before ctx ++ l.entries) (r.entries ++ after ctx)
    simp only [List.append_assoc, List.cons_append] at hremoved ⊢
    exact hremoved
  | next way u ku cu ru hr hleft =>
    have hbefore : ∀ k' : κ, (fill (way ++ ⟨.right, a, k', c, l⟩ :: ctx) ru).entries =
        before ctx ++ l.entries ++ (a, k') :: (ru.entries ++ after way ++ after ctx) := by
      intro k'
      rw [fill_append, fill, entries_fill]
      show before ctx ++ (l.entries ++ (a, k') :: (fill way ru).entries) ++ after ctx = _
      rw [entries_fill, before_left hleft]
      simp only [List.append_assoc, List.cons_append, List.nil_append]
    have hold : (fill ctx (.node a k c l r)).entries =
        before ctx ++ l.entries ++ (a, k) :: (u, ku) :: (ru.entries ++ after way ++ after ctx) := by
      rw [entries_fill, entries, hr, entries_fill, before_left hleft, entries, entries]
      simp only [List.append_assoc, List.cons_append, List.nil_append]
    have hchild : onlyChild .nil ru = ru := rfl
    rw [hchild, hbefore ku, hold]
    exact Removed.next _ _ u ku

theorem findUnchained_ok (h : Stands m (fill ctx (.node a k c l r))) (hroomy : Roomy st ctx)
    {steps : ℕ} (hsteps : (fill ctx (.node a k c l r)).height ≤ steps) :
    ∃ u ku cu lu ru ctxu ctxu' st', findUnchained steps m (locOf ctx) a st = .ok (u, st') ∧
      Taken ctx a k c l r u ku cu lu ru ctxu ctxu' ∧ Roomy st' ctxu := by
  obtain ⟨-, hload⟩ := deref_fill h
  rw [findUnchained, hload, ok_bind]
  dsimp only
  cases l with
  | nil => exact ⟨a, k, c, .nil, r, ctx, ctx, st, rfl, Taken.itself (Or.inl rfl), hroomy⟩
  | node b kb cb x y =>
    cases r with
    | nil => exact ⟨a, k, c, _, .nil, ctx, ctx, st, rfl, Taken.itself (Or.inr rfl), hroomy⟩
    | node d kd cd z w =>
      have hbelow : Stands m (fill (⟨.right, a, k, c, .node b kb cb x y⟩ :: ctx) (.node d kd cd z w)) := h
      have hheight := height_fill (⟨.right, a, k, c, .node b kb cb x y⟩ :: ctx) (.node d kd cd z w)
      have hheight : (⟨.right, a, k, c, .node b kb cb x y⟩ :: ctx : List (Frame κ)).length +
          (NTree.node d kd cd z w).height ≤
          (fill ctx (.node a k c (.node b kb cb x y) (.node d kd cd z w))).height := hheight
      obtain ⟨way, u, ku, cu, ru, st', hloop, htree, hleft, hroomy'⟩ := successorLoop_ok steps
        ⟨.right, a, k, c, .node b kb cb x y⟩ ctx (.node d kd cd z w) st hbelow (by simp) hroomy (by omega)
      exact ⟨u, ku, cu, .nil, ru, _, _, st', hloop, Taken.next way u ku cu ru htree hleft, hroomy'⟩

end Taken

section Delete

variable {cmp : κ → κ → ℤ} {key : κ} {m m' : Mem κ} {ctx ctxu ctxu' : List (Frame κ)} {a u : ℕ} {k ku : κ}
  {c cu : Bool} {t l r lu ru w : NTree κ} {st : Nodestack} {rootp : Loc} {steps : ℕ}

theorem unchain_ok (rootp : Loc) (h : Stands m (fill ctxu (.node u ku cu lu ru))) (hw : w = lu ∨ w = ru)
    (hroomy : Roomy st ctxu) (hrootp : ctxu = [] → rootp = .root) :
    ∃ m', unchain m rootp st u w.addr = .ok m' ∧ Stands m' (fill ctxu w) ∧ m'.node u = m.node u ∧
      u ∉ (fill ctxu w).addrs ∧ Outside (fill ctxu (.node u ku cu lu ru)) m m' := by
  obtain ⟨hctx, ⟨-, hl, hr⟩, hnodup⟩ := h.split
  obtain ⟨hnctx, htree, happart⟩ := List.nodup_append.mp hnodup
  have hmem : ∀ b, b ∈ (NTree.node u ku cu lu ru).addrs ↔ b = u ∨ b ∈ lu.addrs ∨ b ∈ ru.addrs :=
    fun b => mem_addrs_mk (s := .left)
  have hperm := (addrs_mk .left u ku cu lu ru).nodup_iff.mp htree
  rw [List.nodup_cons] at hperm
  have hout : u ∉ ctxAddrs ctxu := fun hb => happart u hb u ((hmem u).mpr (Or.inl rfl)) rfl
  have hsub : ∀ b ∈ w.addrs, b ∈ lu.addrs ++ ru.addrs := by
    intro b hb
    rcases hw with rfl | rfl
    · exact List.mem_append_left _ hb
    · exact List.mem_append_right _ hb
  obtain ⟨m', hm', hctx', hkeep⟩ := set_locOf hctx hnctx w.addr
  -- the run goes by what is on the stack; the tree is the one below in the same place
  refine ⟨m', ?_, Stands.join hctx' ?_ ?_, hkeep u hout, ?_, fun b hb => hkeep b fun hb' => ?_⟩
  · cases ctxu with
    | nil =>
      rw [unchain, hroomy.places, hrootp rfl]
      exact hm'
    | cons f rest =>
      obtain ⟨hf, -, hrest⟩ := hctx
      rw [unchain, hroomy.places, placesOf]
      dsimp only
      rw [deref_locOf hrest, ok_bind, load_ok hf, ok_bind, ← hm', locOf]
      obtain ⟨s, p, kp, cp, other⟩ := f
      cases s with
      | right => exact if_pos rfl
      | left =>
        refine if_neg fun heq => hout ?_
        have heq : other.addr = some u := heq
        cases other with
        | nil => exact absurd heq (by simp [NTree.addr])
        | node b kb cb x y =>
          obtain rfl : b = u := Option.some.inj heq
          exact mem_ctxAddrs_cons.mpr (Or.inr (Or.inl (by simp [addrs, entries])))
  · have hholds : Holds m.node w := by
      rcases hw with rfl | rfl
      · exact hl
      · exact hr
    refine hholds.congr fun b hb => hkeep b fun hb' => happart b hb' b ?_ rfl
    exact (hmem b).mpr (Or.inr (List.mem_append.mp (hsub b hb)))
  · have hwnodup : w.addrs.Nodup := by
      rcases hw with rfl | rfl
      · exact hperm.2.of_append_left
      · exact hperm.2.of_append_right
    refine List.nodup_append.mpr ⟨hnctx, hwnodup, fun b hb d hd hbd => ?_⟩
    exact happart b hb d ((hmem d).mpr (Or.inr (List.mem_append.mp (hsub d hd)))) hbd
  · rw [mem_addrs_fill, not_or]
    exact ⟨hout, fun hb => hperm.1 (hsub u hb)⟩
  · exact hb (mem_addrs_fill.mpr (Or.inl hb'))

theorem copyKey_ok (htaken : Taken ctx a k c l r u ku cu lu ru ctxu ctxu')
    (h : Stands m (fill ctxu w)) (hu : m.node u = some ⟨ku, lu.addr, ru.addr, cu⟩)
    (hout : u ∉ (fill ctxu w).addrs) :
    ∃ m', copyKey m a u = .ok m' ∧ Stands m' (fill ctxu' w) ∧ m'.node u = m.node u ∧
      u ∉ (fill ctxu' w).addrs ∧ Outside (fill ctxu w) m m' := by
  rw [copyKey, load_ok hu, ok_bind]
  cases htaken with
  | itself =>
    rw [if_neg (by simp)]
    exact ⟨m, rfl, h, rfl, hout, Outside.refl _ _⟩
  | next way u ku cu ru hr hleft =>
    have hsplit : ∀ k' : κ, fill (way ++ ⟨.right, a, k', c, l⟩ :: ctx) w =
        fill ctx (.node a k' c l (fill way w)) := by
      intro k'
      rw [fill_append]
      rfl
    rw [hsplit k] at h hout ⊢
    rw [hsplit ku]
    have hne : u ≠ a := by
      rintro rfl
      exact hout (mem_addrs_fill.mpr (Or.inr (by simp [addrs, entries])))
    obtain ⟨m', hm', h', hkeep⟩ := modify_root_ok (fun n => { n with key := ku }) h rfl
    have haddrs : (fill ctx (.node a ku c l (fill way w))).addrs.Perm
        (fill ctx (.node a k c l (fill way w))).addrs := addrs_fill_perm _ (by simp [addrs, entries])
    rw [if_pos hne]
    exact ⟨m', hm', h', hkeep u hout, fun hb => hout (haddrs.mem_iff.mp hb), hkeep⟩

theorem rebalance_ok (steps : ℕ) (htaken : Taken ctx a k c l r u ku cu lu ru ctxu ctxu')
    (hbal : Balanced (fill ctxu (.node u ku cu lu ru))) (h : Stands m (fill ctxu' w))
    (hw : w = onlyChild lu ru) (hu : m.node u = some ⟨ku, lu.addr, ru.addr, cu⟩)
    (hroomy : Roomy st ctxu) (hroom : ctxu.length < st.stacksize) (hsteps : ctxu.length < steps) :
    ∃ m' t', rebalance steps m st u w.addr = .ok m' ∧ Same m m' (fill ctxu' w) t' ∧ Balanced t' := by
  have hchild := onlyChild_or lu ru
  rw [← hw] at hchild
  have hlength : ctxu'.length = ctxu.length := by
    rw [← length_placesOf, htaken.placesOf, length_placesOf]
  obtain ⟨n, hrb, hctx⟩ := (rb_fill _ _).mp hbal
  rw [rebalance, load_ok hu, ok_bind]
  dsimp only
  cases cu with
  | true =>
    -- a red node with one successor at most has none
    obtain ⟨hlred, hrred, hlrb, hrrb⟩ := hrb
    have hblack : w.isRed = false := by
      rcases hchild with rfl | rfl
      · exact hlred
      · exact hrred
    have hwrb : w.RB n := by
      rcases hchild with rfl | rfl
      · exact hlrb
      · exact hrrb
    refine ⟨m, fill ctxu' w, rfl, ⟨h, rfl, Outside.refl _ _⟩, (rb_fill _ _).mpr ⟨n, hwrb, ?_⟩⟩
    rw [hblack, htaken.ctxRB]
    exact hctx.of_red
  | false =>
    obtain ⟨n, rfl, hlrb, hrrb⟩ := hrb
    have hwrb : w.RB n := by
      rcases hchild with rfl | rfl
      · exact hlrb
      · exact hrrb
    have hshort : Short ctxu' w := by
      cases hred : w.isRed with
      | false => exact Or.inl ⟨hred, n, hwrb, (htaken.ctxRB _ _).mpr hctx⟩
      | true => exact Or.inr ⟨hred, n + 1, hwrb.blacken hred, (htaken.ctxRB _ _).mpr hctx⟩
    have hmending : Mending m m (fill ctxu' w) ctxu' w st :=
      ⟨⟨h, rfl, Outside.refl _ _⟩, hshort, by rw [hroomy.places, htaken.placesOf]⟩
    have hrounds : roundsLeft ctxu' w < steps := by
      rw [roundsLeft, hlength]
      split
      · omega
      · exact hsteps
    obtain ⟨m₁, r, m', t', hloop, hm', hsame, hbal'⟩ :=
      mendLoop_ok steps m ctxu' w st hmending (by rw [hlength]; exact hroom) hrounds
    refine ⟨m', t', ?_, hsame, hbal'⟩
    rw [Bool.not_false, if_pos rfl, hloop, ok_bind]
    exact hm'

theorem free_ok (h : Stands m t) (hout : a ∉ t.addrs) {n : Node κ} (ha : m.node a = some n) :
    ∃ m', m.free a = .ok m' ∧ Stands m' t ∧ m'.node a = none ∧ ∀ b, b ≠ a → m'.node b = m.node b := by
  have hother : ∀ b, b ≠ a → Function.update m.node a none b = m.node b :=
    fun b hb => Function.update_of_ne hb _ _
  refine ⟨{ m with node := Function.update m.node a none }, ?_,
    ⟨h.root, h.holds.congr fun b hb => hother b ?_, h.nodup⟩, Function.update_self _ _ _, hother⟩
  · rw [Mem.free, load_ok ha, ok_bind]
  · rintro rfl
    exact hout hb

/-- What a call of `tdelete` does. -/
inductive Deleted (cmp : κ → κ → ℤ) (key : κ) (t t' : NTree κ) (m' : Mem κ) : Option ℕ → Prop
  | absent (habsent : ∀ e ∈ t.entries, cmp key e.2 ≠ 0) (hsame : t' = t) :
      Deleted cmp key t t' m' none
  | gone {ctx : List (Frame κ)} {a : ℕ} {k : κ} {c : Bool} {l r : NTree κ} (u : ℕ)
      (htree : t = fill ctx (.node a k c l r)) (hkey : cmp key k = 0)
      (hremoved : Removed a k u t.entries t'.entries) (hfree : m'.node u = none) :
      Deleted cmp key t t' m' (some (parentOf ctx a))

theorem deleteNode_ok (h : SearchTree cmp m (fill ctx (.node a k c l r))) (hroomy : Roomy st ctx)
    (hroom : (fill ctx (.node a k c l r)).height ≤ 40)
    (hsteps : (fill ctx (.node a k c l r)).height ≤ steps) :
    ∃ m' t' u, deleteNode steps m (locOf ctx) st = .ok m' ∧ SearchTree cmp m' t' ∧
      Removed a k u (fill ctx (.node a k c l r)).entries t'.entries ∧ m'.node u = none ∧
      Outside (fill ctx (.node a k c l r)) m m' := by
  obtain ⟨hderef, -⟩ := deref_fill h.stands
  obtain ⟨u, ku, cu, lu, ru, ctxu, ctxu', st', hfind, htaken, hroomy'⟩ :=
    findUnchained_ok h.stands hroomy hsteps
  have htree := htaken.tree
  have hremoved := htaken.removed
  have hordered := h.ordered
  have hstands := h.stands
  have hbal := h.balanced
  rw [htree] at hstands hbal hroom hsteps
  have hheight := height_fill ctxu (.node u ku cu lu ru)
  have hnode : (NTree.node u ku cu lu ru).height = max lu.height ru.height + 1 := rfl
  have hleast := hroomy'.least
  obtain ⟨hctxu, ⟨hu, -, -⟩, -⟩ := hstands.split
  obtain ⟨m₁, hm₁, h₁, hu₁, hout₁, hkeep₁⟩ := unchain_ok (locOf ctx) hstands
    (onlyChild_or lu ru) hroomy' (fun hnil => by rw [htaken.root hnil, locOf])
  obtain ⟨m₂, hm₂, h₂, hu₂, hout₂, hkeep₂⟩ := copyKey_ok htaken h₁ (hu₁.trans hu) hout₁
  obtain ⟨m₃, t', hm₃, hsame, hbal'⟩ := rebalance_ok steps htaken hbal h₂ rfl
    (hu₂.trans (hu₁.trans hu)) hroomy' (by omega) (by omega)
  have haddrs : t'.addrs = (fill ctxu' (onlyChild lu ru)).addrs := addrs_eq_of_entries hsame.entries
  have hu₃ : m₃.node u = some ⟨ku, lu.addr, ru.addr, cu⟩ :=
    (hsame.outside u hout₂).trans (hu₂.trans (hu₁.trans hu))
  obtain ⟨m₄, hm₄, h₄, hfree, hkeep₄⟩ := free_ok hsame.stands (by rwa [haddrs]) hu₃
  rw [← hsame.entries] at hremoved
  refine ⟨m₄, t', u, ?_, ⟨h₄, hbal', hremoved.ordered hordered⟩, hremoved, hfree, fun b hb => ?_⟩
  · rw [deleteNode, hderef, ok_bind, hfind, ok_bind]
    dsimp only
    rw [load_ok hu, ok_bind]
    dsimp only
    rw [addr_onlyChild, hm₁, ok_bind, hm₂, ok_bind, hm₃, ok_bind, hm₄]
  · have hperm := hremoved.addrs
    have hbu : b ≠ u := by
      rintro rfl
      exact hb (hperm.mem_iff.mpr List.mem_cons_self)
    have hbt : b ∉ t'.addrs := fun hmem => hb (hperm.mem_iff.mpr (List.mem_cons_of_mem _ hmem))
    have hb₁ : b ∉ (fill ctxu (.node u ku cu lu ru)).addrs := by rwa [← htree]
    have hb₂ : b ∉ (fill ctxu (onlyChild lu ru)).addrs := by
      intro hmem
      rw [mem_addrs_fill] at hmem hb₁
      refine hb₁ (hmem.imp_right fun hmem => mem_addrs_mk (s := .left).mpr (Or.inr ?_))
      rcases onlyChild_or lu ru with heq | heq
      · exact Or.inl (heq ▸ hmem)
      · exact Or.inr (heq ▸ hmem)
    rw [hkeep₄ b hbu, hsame.outside b (by rwa [← haddrs]), hkeep₂ b hb₂, hkeep₁ b hb₁]

theorem tdelete_step (key : κ) (hcmp : Consistent cmp) (h : SearchTree cmp m t) (hroom : t.height ≤ 40)
    (hsteps : t.height ≤ steps) :
    ∃ m' t' p, tdelete cmp steps m key = .ok (m', p) ∧ SearchTree cmp m' t' ∧
      Deleted cmp key t t' m' p ∧ Outside t m m' := by
  have hroot := h.stands.root
  cases t with
  | nil =>
    have hroot : m.root = none := hroot
    refine ⟨m, .nil, none, ?_, h, Deleted.absent (fun e he => absurd he List.not_mem_nil) rfl,
      Outside.refl _ _⟩
    rw [tdelete, hroot]
  | node b kb cb x y =>
    have hroot : m.root = some b := hroot
    obtain ⟨found, hloop, hsought⟩ := deleteLoop_ok key hcmp steps [] (.node b kb cb x y) ⟨[], 40⟩ b
      h.stands h.ordered (fun f hf => absurd hf List.not_mem_nil) (by simp) ⟨rfl, Nat.le_refl 40⟩
      (fun a ha => Option.some.inj ha) hsteps
    have hloop' : deleteLoop cmp key steps m .root b ⟨[], 40⟩ = .ok found := hloop
    rw [tdelete, hroot]
    dsimp only
    rw [hloop', ok_bind]
    cases hsought with
    | absent habsent => exact ⟨m, _, none, rfl, h, Deleted.absent habsent rfl, Outside.refl _ _⟩
    | @there ctx a k c l r st htree hkey hroomy =>
      have htree : NTree.node b kb cb x y = fill ctx (.node a k c l r) := htree
      rw [htree] at h hroom hsteps ⊢
      obtain ⟨m', t', u, hm', h', hremoved, hfree, hkeep⟩ := deleteNode_ok h hroomy hroom hsteps
      refine ⟨m', t', _, ?_, h', Deleted.gone u rfl hkey hremoved hfree, hkeep⟩
      dsimp only
      rw [hm', ok_bind]

end Delete

end Mintlib.Tsearch
