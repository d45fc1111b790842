import Mintlib.Tsearch.Insert

/-!
# Balancing after a node has been unchained

The subtree `r` has one black edge less than the others. The loop of `tdelete` moves the error up to
the root, or repairs it with rotations. `nodestack` holds the places of all nodes above `r`.
-/

namespace Mintlib.Tsearch

open NodeTree NTree Checked

variable {κ : Type}

/-- `nodestack`, with the innermost place first, and the room that it has. -/
structure Nodestack where
  places : List Loc
  stacksize : ℕ

def Nodestack.push (st : Nodestack) (l : Loc) : Nodestack :=
  if st.places.length = st.stacksize then ⟨l :: st.places, st.stacksize + 20⟩
  else ⟨l :: st.places, st.stacksize⟩

def Nodestack.put (st : Nodestack) (l : Loc) : Except Stop Nodestack :=
  if st.places.length < st.stacksize then .ok ⟨l :: st.places, st.stacksize⟩ else .error .bounds

/-- `q` is rotated above `p`. -/
def turn (m : Mem κ) (pp : Loc) (p q : ℕ) (s : Side) : Except Stop (Mem κ) := do
  let qn ← m.load q
  let m ← m.set (.child s.other p) (qn.child s)
  let m ← m.set (.child s q) (some p)
  m.set pp (some q)

/-- `q` is red: it is rotated above `p`, and the place of `p` is pushed. -/
def lift (m : Mem κ) (st : Nodestack) (pp : Loc) (p q : ℕ) (s : Side) :
    Except Stop (Mem κ × Nodestack × Loc) := do
  let m ← m.paint q false
  let m ← m.paint p true
  let m ← turn m pp p q s
  let st ← st.put (.child s q)
  .ok (m, st, .child s q)

/-- `q2`, the successor of `q` on the side of `r`, becomes the top. -/
def repairNear (m : Mem κ) (pp : Loc) (p q q2 : ℕ) (s : Side) : Except Stop (Mem κ) := do
  let pn ← m.load p
  let m ← m.paint q2 pn.red
  let n ← m.load q2
  let m ← m.set (.child s.other p) (n.child s)
  let m ← m.set (.child s q) (n.child s.other)
  let m ← m.set (.child s.other q2) (some q)
  let m ← m.set (.child s q2) (some p)
  let m ← m.set pp (some q2)
  m.paint p false

/-- The other successor of `q` is red: `q` becomes the top. -/
def repairFar (m : Mem κ) (pp : Loc) (p q far : ℕ) (s : Side) : Except Stop (Mem κ) := do
  let pn ← m.load p
  let m ← m.paint q pn.red
  let m ← m.paint p false
  let m ← m.paint far false
  turn m pp p q s

/-- What is done when `q` is black; then the next `r`, and whether the loop is done. -/
def mendBlack (m : Mem κ) (pp : Loc) (p q : ℕ) (s : Side) : Except Stop (Mem κ × Option ℕ × Bool) := do
  let qn ← m.load q
  let left ← m.isRed qn.left
  let right ← m.isRed qn.right
  if !left && !right then do
    let m ← m.paint q true
    .ok (m, some p, false)
  else do
    let far ← m.isRed (qn.child s.other)
    match qn.child s, qn.child s.other, far with
    | _, some f, true => do
      let m ← repairFar m pp p q f s
      .ok (m, none, true)
    | some q2, _, false => do
      let m ← repairNear m pp p q q2 s
      .ok (m, none, true)
    | _, _, _ => .error .bounds

/-- `q` where it is black, after a rotation if it was red. -/
def mendBrother (m : Mem κ) (st : Nodestack) (pp : Loc) (p : ℕ) (s : Side) :
    Except Stop (Mem κ × Nodestack × Loc) := do
  let pn ← m.load p
  let red ← m.isRed (pn.child s.other)
  match pn.child s.other, red with
  | some q, true => lift m st pp p q s
  | _, _ => .ok (m, st, pp)

/-- One round: the memory, the stack and `r`. -/
def mendRound (m : Mem κ) (st : Nodestack) (pp : Loc) (r : Option ℕ) :
    Except Stop (Mem κ × Nodestack × Option ℕ) := do
  let p ← m.deref pp
  let pn ← m.load p
  let s : Side := if r = pn.left then .left else .right
  let (m, st, pp) ← mendBrother m st pp p s
  let q ← m.deref (.child s.other p)
  let (m, r, done) ← mendBlack m pp p q s
  .ok (m, ⟨if done then [] else st.places.tail, st.stacksize⟩, r)

def mendLoop : ℕ → Mem κ → Nodestack → Option ℕ → Except Stop (Mem κ × Option ℕ)
  | 0, _, _, _ => .error .steps
  | steps + 1, m, st, r =>
    match st.places with
    | [] => .ok (m, r)
    | pp :: _ => do
      let red ← m.isRed r
      if red then .ok (m, r)
      else do
        let (m, st, r) ← mendRound m st pp r
        mendLoop steps m st r

def placesOf : List (Frame κ) → List Loc
  | [] => []
  | _ :: rest => locOf rest :: placesOf rest

section Rotations

variable {m : Mem κ} {rest : List (Frame κ)} {t x near far u v : NTree κ} {p q q2 b : ℕ}
  {kp kq k2 : κ} {cp cq c2 : Bool} {s : Side}

theorem turn_ok (h : Stands m (fill rest (mk s p kp cp x (mk s q kq cq near far)))) :
    ∃ m', turn m (locOf rest) p q s = .ok m' ∧
      Stands m' (fill rest (mk s q kq cq (mk s p kp cp x near) far)) ∧
      Outside (fill rest (mk s p kp cp x (mk s q kq cq near far))) m m' := by
  obtain ⟨-, ht, hnodup⟩ := h.split
  obtain ⟨hp, hx, ht⟩ := (holds_mk _ _ _ _ _ _).mp ht
  obtain ⟨hq, hnear, hfar⟩ := (holds_mk _ _ _ _ _ _).mp ht
  rw [addr_mk] at hp
  have htree := (List.nodup_append.mp hnodup).2.1
  have hperm : (mk s p kp cp x (mk s q kq cq near far)).addrs.Perm
      (p :: q :: (x.addrs ++ (near.addrs ++ far.addrs))) := by
    rw [List.perm_iff_count]
    intro b
    simp only [count_mk, List.count_append, List.count_cons]
    omega
  rw [hperm.nodup_iff, List.nodup_cons, List.nodup_cons] at htree
  obtain ⟨hpout, hqout, -⟩ := htree
  have hpq : p ≠ q := by
    rintro rfl
    exact hpout List.mem_cons_self
  -- the two nodes are changed one after the other, and then hung in place of the upper one
  obtain ⟨m₁, hm₁, hroot₁, hp₁, hrest₁⟩ := modify_at hp fun n => n.setChild near.addr s.other
  obtain ⟨m₂, hm₂, hroot₂, hq₂, hrest₂⟩ := modify_at (by rw [hrest₁ q (Ne.symm hpq), hq])
    fun n => n.setChild (some p) s
  rw [Node.mk'_setChild_other] at hp₁
  rw [Node.mk'_setChild] at hq₂
  have hsame : ∀ b, b ≠ p → b ≠ q → m₂.node b = m.node b := by
    intro b hbp hbq
    rw [hrest₂ b hbq, hrest₁ b hbp]
  have hbelow : ∀ b ∈ x.addrs ++ (near.addrs ++ far.addrs), m₂.node b = m.node b := by
    intro b hb
    refine hsame b ?_ ?_
    · rintro rfl
      exact hpout (List.mem_cons_of_mem _ hb)
    · rintro rfl
      exact hqout hb
  have hholds : Holds m₂.node (mk s q kq cq (mk s p kp cp x near) far) := by
    rw [holds_mk, addr_mk, holds_mk]
    refine ⟨hq₂, ⟨?_, hx.congr fun b hb => hbelow b ?_, hnear.congr fun b hb => hbelow b ?_⟩,
      hfar.congr fun b hb => hbelow b ?_⟩
    · rw [hrest₂ p hpq, hp₁]
    · simp [hb]
    · simp [hb]
    · simp [hb]
  have hturned := addrs_eq_of_entries (entries_turn s p q kp kq cp cp cq cq x near far)
  have hrest : ∀ b, b ∉ (mk s p kp cp x (mk s q kq cq near far)).addrs → m₂.node b = m.node b := by
    intro b hb
    simp only [mem_addrs_mk, not_or] at hb
    exact hsame b hb.1 hb.2.2.1
  obtain ⟨m₃, hm₃, h₃, hout⟩ := hang_ok h (hroot₂.trans hroot₁) hrest hholds (List.Perm.of_eq hturned)
  rw [addr_mk] at hm₃
  refine ⟨m₃, ?_, h₃, hout⟩
  rw [turn, load_ok hq, ok_bind, Node.mk'_child, Mem.set, hm₁, ok_bind, Mem.set, hm₂, ok_bind, hm₃]

theorem outside_place {m₁ m₂ : Mem κ} {t' : NTree κ} (h : Outside (fill rest t) m m₁)
    (h' : Outside (fill rest t') m₁ m₂) (hperm : t'.addrs.Perm t.addrs) :
    Outside (fill rest t) m m₂ :=
  h.trans h' (addrs_fill_perm rest hperm)

theorem repairFar_ok (h : Stands m (fill rest (mk s p kp cp x (mk s q kq cq near far))))
    (hfar : far.addr = some b) :
    ∃ m', repairFar m (locOf rest) p q b s = .ok m' ∧
      Stands m' (fill rest (mk s q kq cp (mk s p kp false x near) (far.paint false))) ∧
      Outside (fill rest (mk s p kp cp x (mk s q kq cq near far))) m m' := by
  obtain ⟨-, ht, -⟩ := h.split
  obtain ⟨hp, -, -⟩ := (holds_mk _ _ _ _ _ _).mp ht
  have hsame : ∀ (c c' : Bool) (z : NTree κ), z.entries = far.entries →
      (mk s p kp c x (mk s q kq c' near z)).addrs = (mk s p kp cp x (mk s q kq cq near far)).addrs :=
    fun c c' z hz => addrs_eq_of_entries
      (entries_mk_congr p kp cp c rfl (entries_mk_congr q kq cq c' rfl hz))
  rw [← fill_other] at h
  obtain ⟨m₁, hm₁, h₁, hout₁⟩ := paint_ok h (addr_mk _ _ _ _ _ _) cp
  rw [paint_mk, fill_other] at h₁
  obtain ⟨m₂, hm₂, h₂, hout₂⟩ := paint_ok h₁ (addr_mk _ _ _ _ _ _) false
  rw [paint_mk, ← fill_other, ← fill_other] at h₂
  obtain ⟨m₃, hm₃, h₃, hout₃⟩ := paint_ok h₂ hfar false
  rw [fill_other, fill_other] at h₃ hout₃
  obtain ⟨m₄, hm₄, h₄, hout₄⟩ := turn_ok h₃
  rw [fill_other] at hout₁
  refine ⟨m₄, ?_, h₄, ?_⟩
  · rw [repairFar, load_ok hp, ok_bind, Node.mk'_red, hm₁, ok_bind, hm₂, ok_bind, hm₃, ok_bind, hm₄]
  · refine outside_place (outside_place (outside_place hout₁ hout₂ ?_) hout₃ ?_) hout₄ ?_
    · exact List.Perm.of_eq (hsame cp cp far rfl)
    · exact List.Perm.of_eq (hsame false cp far rfl)
    · exact List.Perm.of_eq (hsame false cp (far.paint false) (entries_paint false far))

theorem repairNear_ok
    (h : Stands m (fill rest (mk s p kp cp x (mk s q kq cq (mk s q2 k2 c2 u v) far)))) :
    ∃ m', repairNear m (locOf rest) p q q2 s = .ok m' ∧
      Stands m' (fill rest (mk s q2 k2 cp (mk s p kp false x u) (mk s q kq cq v far))) ∧
      Outside (fill rest (mk s p kp cp x (mk s q kq cq (mk s q2 k2 c2 u v) far))) m m' := by
  have h' : Stands m (fill (⟨s, q, kq, cq, far⟩ :: ⟨s.other, p, kp, cp, x⟩ :: rest)
      (mk s q2 k2 c2 u v)) := by
    rw [fill, fill_other]
    exact h
  obtain ⟨hctx, ht, hnodup⟩ := h'.split
  have hapart := Apart.of_nodup hnodup
  obtain ⟨hq, -, hp, -, -⟩ := hctx
  obtain ⟨hq2, -, -⟩ := (holds_mk _ _ _ _ _ _).mp ht
  rw [addr_mk] at hq
  have h₀ : Three m m p q q2 _ _ _ := ⟨rfl, hp, hq, hq2, fun _ _ _ _ => rfl⟩
  obtain ⟨m₁, hm₁, h₁⟩ := h₀.modify_low hapart.ga hapart.pa fun n => { n with red := cp }
  obtain ⟨m₂, hm₂, h₂⟩ := h₁.modify_top (Ne.symm hapart.gp) (Ne.symm hapart.ga)
    fun n => n.setChild u.addr s.other
  obtain ⟨m₃, hm₃, h₃⟩ := h₂.modify_mid hapart.gp (Ne.symm hapart.pa) fun n => n.setChild v.addr s
  obtain ⟨m₄, hm₄, h₄⟩ := h₃.modify_low hapart.ga hapart.pa fun n => n.setChild (some q) s.other
  obtain ⟨m₅, hm₅, h₅⟩ := h₄.modify_low hapart.ga hapart.pa fun n => n.setChild (some p) s
  simp only [Node.mk'_setRed, Node.mk'_setChild, Node.mk'_setChild_other] at h₁ h₅
  obtain ⟨m₆, hm₆, h₆, hout₆⟩ := relink_ok h' h₅
  rw [mk_other] at h₆
  have h₆' : Stands m₆ (fill (⟨s, q2, k2, cp, mk s q kq cq v far⟩ :: rest) (mk s p kp cp x u)) := h₆
  obtain ⟨m₇, hm₇, h₇, hout₇⟩ := paint_ok h₆' (addr_mk _ _ _ _ _ _) false
  rw [paint_mk] at h₇
  rw [fill, fill_other] at hout₆
  refine ⟨m₇, ?_, h₇, ?_⟩
  · have hp₀ : m.load p = _ := load_ok hp
    rw [repairNear, hp₀, ok_bind, Node.mk'_red, Mem.paint, hm₁, ok_bind, load_ok h₁.low, ok_bind,
      Node.mk'_child, Node.mk'_child_other, Mem.set, hm₂, ok_bind, Mem.set, hm₃, ok_bind, Mem.set, hm₄,
      ok_bind, Mem.set, hm₅, ok_bind, hm₆, ok_bind, hm₇]
  · have hout₇' : Outside (fill rest (mk s q2 k2 cp (mk s p kp cp x u) (mk s q kq cq v far))) m₆ m₇ :=
      hout₇
    exact outside_place hout₆ hout₇' (List.Perm.of_eq (addrs_eq_of_entries
      (entries_turn_twice s p q q2 kp kq k2 cp cq c2 cp cq cp x u v far)))

end Rotations

/-- The subtree has one black edge less than what fits in, or will have as many when its root becomes
black. -/
def Short (ctx : List (Frame κ)) (t : NTree κ) : Prop :=
  t.isRed = false ∧ (∃ n, t.RB n ∧ CtxRB ctx false (n + 1)) ∨
    t.isRed = true ∧ ∃ n, (t.paint false).RB n ∧ CtxRB ctx false n

/-- The same tree in memory as far as its entries go. -/
structure Same (m₀ m : Mem κ) (t₀ t : NTree κ) : Prop where
  stands : Stands m t
  entries : t.entries = t₀.entries
  outside : Outside t₀ m₀ m

section Round

variable {m : Mem κ} {rest : List (Frame κ)} {t near far : NTree κ} {p q n : ℕ} {kp kq : κ} {cp cq : Bool}
  {s : Side}

theorem ctxRB_other {f : Frame κ} {c : Bool} (h : CtxRB (f :: rest) c n) : f.other.RB n := by
  rw [CtxRB] at h
  split at h
  · exact h.2.2.1
  · exact h.1

theorem exists_of_rb_succ (s : Side) (h : t.RB (n + 1)) (hblack : t.isRed = false) :
    ∃ b k x y, t = mk s b k false x y ∧ x.RB n ∧ y.RB n := by
  have hne : t ≠ .nil := by
    rintro rfl
    exact absurd h (Nat.succ_ne_zero n)
  obtain ⟨b, k, c, x, y, rfl⟩ := mk_cases s t hne
  rw [isRed_mk] at hblack
  subst hblack
  obtain ⟨n', hn', hx, hy⟩ := (rb_mk_black _ _ _ _ _ _).mp h
  obtain rfl : n = n' := Nat.succ.inj hn'
  exact ⟨b, k, x, y, rfl, hx, hy⟩

/-- Afterwards the brother is black; the place of the node above is below it if it has been red. -/
theorem mendBrother_ok {m₀ : Mem κ} {t₀ other : NTree κ} {st : Nodestack}
    (h : Same m₀ m t₀ (fill (⟨s, p, kp, cp, other⟩ :: rest) t))
    (hctx : CtxRB (⟨s, p, kp, cp, other⟩ :: rest) false (n + 1))
    (hst : st.places = placesOf (⟨s, p, kp, cp, other⟩ :: rest))
    (hroom : st.places.length < st.stacksize) :
    ∃ m' st' rest' cp' other', mendBrother m st (locOf rest) p s = .ok (m', st', locOf rest') ∧
      Same m₀ m' t₀ (fill (⟨s, p, kp, cp', other'⟩ :: rest') t) ∧ other'.isRed = false ∧
      CtxRB (⟨s, p, kp, cp', other'⟩ :: rest') false (n + 1) ∧
      st'.places = placesOf (⟨s, p, kp, cp', other'⟩ :: rest') ∧ st'.stacksize = st.stacksize ∧
      (rest' = rest ∨ cp' = true ∧ rest'.length = rest.length + 1) := by
  obtain ⟨⟨hp, hother, -⟩, -, -⟩ := h.stands.split
  rw [mendBrother, load_ok hp, ok_bind, Node.mk'_child_other, isRed_ok hother, ok_bind]
  cases hred : other.isRed with
  | false =>
    refine ⟨m, st, rest, cp, other, ?_, h, hred, hctx, hst, rfl, Or.inl rfl⟩
    cases other.addr <;> rfl
  | true =>
    obtain ⟨q, kq, l, r, rfl⟩ := exists_of_isRed hred
    obtain ⟨near, far, hmk⟩ := node_eq_mk s q kq true l r
    rw [hmk] at h hctx ⊢
    rw [addr_mk]
    dsimp only
    have hblack : cp = false := by
      cases cp with
      | false => rfl
      | true =>
        rw [CtxRB, if_pos rfl, isRed_mk] at hctx
        exact absurd hctx.2.1 (by decide)
    subst hblack
    rw [CtxRB, if_neg Bool.false_ne_true] at hctx
    obtain ⟨hnear, hfar, hnearrb, hfarrb⟩ := (rb_mk_red _ _ _ _ _ _).mp hctx.1
    -- `q` is painted, `p` is painted, and then `q` is rotated above `p`
    have h₀ : Stands m (fill (⟨s.other, p, kp, false, t⟩ :: rest) (mk s q kq true near far)) := by
      rw [fill_other]
      exact h.stands
    obtain ⟨m₁, hm₁, h₁, hout₁⟩ := paint_ok h₀ (addr_mk _ _ _ _ _ _) false
    rw [paint_mk, fill_other] at h₁
    obtain ⟨m₂, hm₂, h₂, hout₂⟩ := paint_ok h₁ (addr_mk _ _ _ _ _ _) true
    rw [paint_mk] at h₂
    obtain ⟨m₃, hm₃, h₃, hout₃⟩ := turn_ok h₂
    have hput : st.put (.child s q) = .ok ⟨.child s q :: st.places, st.stacksize⟩ := if_pos hroom
    have hentries : (fill (⟨s, p, kp, true, near⟩ :: ⟨s, q, kq, false, far⟩ :: rest) t).entries =
        (fill (⟨s, p, kp, false, mk s q kq true near far⟩ :: rest) t).entries :=
      entries_fill_congr rest (entries_turn s p q kp kq false true true false t near far)
    rw [fill_other] at hout₁
    refine ⟨m₃, ⟨.child s q :: st.places, st.stacksize⟩, ⟨s, q, kq, false, far⟩ :: rest, true, near, ?_,
      ⟨h₃, hentries.trans h.entries, ?_⟩, hnear, ?_, ?_, rfl, Or.inr ⟨rfl, rfl⟩⟩
    · rw [lift, hm₁, ok_bind, hm₂, ok_bind, hm₃, ok_bind, hput, ok_bind]
      rfl
    · have hout : Outside (fill rest (mk s p kp false t (mk s q kq true near far))) m m₃ := by
        have hsame : ∀ c c' : Bool, (mk s p kp c t (mk s q kq c' near far)).addrs =
            (mk s p kp false t (mk s q kq true near far)).addrs := fun c c' => addrs_eq_of_entries
          (entries_mk_congr p kp false c rfl (entries_mk_congr q kq true c' rfl rfl))
        exact outside_place (outside_place hout₁ hout₂ (List.Perm.of_eq (hsame false false))) hout₃
          (List.Perm.of_eq (hsame true false))
      exact outside_of_entries h.entries h.outside hout
    · rw [CtxRB, if_pos rfl, CtxRB, if_neg Bool.false_ne_true]
      exact ⟨rfl, hnear, hnearrb, hfarrb, hctx.2⟩
    · rw [hst]
      rfl

theorem mendBlack_loads (h : Holds m.node (mk s q kq cq near far)) (pp : Loc) :
    mendBlack m pp p q s =
      if !near.isRed && !far.isRed then (do
        let m ← m.paint q true
        .ok (m, some p, false))
      else
        match near.addr, far.addr, far.isRed with
        | _, some f, true => do
          let m ← repairFar m pp p q f s
          .ok (m, none, true)
        | some q2, _, false => do
          let m ← repairNear m pp p q q2 s
          .ok (m, none, true)
        | _, _, _ => .error .bounds := by
  obtain ⟨hq, hnear, hfar⟩ := (holds_mk _ _ _ _ _ _).mp h
  rw [mendBlack, load_ok hq, ok_bind, Node.mk'_child, Node.mk'_child_other]
  cases s with
  | left =>
    rw [Node.mk', isRed_ok hnear, ok_bind, isRed_ok hfar, ok_bind, ok_bind]
  | right =>
    rw [Node.mk', isRed_ok hfar, ok_bind, isRed_ok hnear, ok_bind, ok_bind,
      Bool.and_comm (!near.isRed)]

theorem mendBlack_ok {m₀ : Mem κ} {t₀ : NTree κ}
    (h : Same m₀ m t₀ (fill (⟨s, p, kp, cp, mk s q kq false near far⟩ :: rest) t))
    (ht : t.RB n) (hnear : near.RB n) (hfar : far.RB n)
    (hctx : CtxRB rest cp (if cp then n + 1 else n + 2)) :
    ∃ m' r done, mendBlack m (locOf rest) p q s = .ok (m', r, done) ∧
      ((done = true ∧ r = none ∧ ∃ t', Same m₀ m' t₀ t' ∧ Balanced t') ∨
        (done = false ∧ ∃ t', r = t'.addr ∧ t'.isRed = cp ∧ Same m₀ m' t₀ (fill rest t') ∧
          Short rest t')) := by
  have hstands : Stands m (fill rest (mk s p kp cp t (mk s q kq false near far))) := h.stands
  obtain ⟨⟨-, hq, -⟩, -, -⟩ := h.stands.split
  rw [mendBlack_loads hq]
  cases hboth : !near.isRed && !far.isRed with
  | true =>
    rw [Bool.and_eq_true, Bool.not_eq_true', Bool.not_eq_true'] at hboth
    rw [if_pos rfl]
    have h₀ : Stands m (fill (⟨s.other, p, kp, cp, t⟩ :: rest) (mk s q kq false near far)) := by
      rw [fill_other]
      exact hstands
    obtain ⟨m', hm', h', hout⟩ := paint_ok h₀ (addr_mk _ _ _ _ _ _) true
    rw [paint_mk, fill_other] at h'
    rw [fill_other] at hout
    refine ⟨m', some p, false, by rw [hm', ok_bind], Or.inr ⟨rfl, mk s p kp cp t
      (mk s q kq true near far), (addr_mk _ _ _ _ _ _).symm, isRed_mk _ _ _ _ _ _, ⟨h', ?_, ?_⟩, ?_⟩⟩
    · rw [← h.entries]
      exact entries_fill_congr rest (entries_mk_congr p kp cp cp rfl
        (entries_mk_congr q kq false true rfl rfl))
    · exact outside_of_entries h.entries h.outside hout
    · have hqrb : (mk s q kq true near far).RB n :=
        (rb_mk_red _ _ _ _ _ _).mpr ⟨hboth.1, hboth.2, hnear, hfar⟩
      have hprb : (mk s p kp false t (mk s q kq true near far)).RB (n + 1) :=
        (rb_mk_black _ _ _ _ _ _).mpr ⟨n, rfl, ht, hqrb⟩
      cases cp with
      | false => exact Or.inl ⟨isRed_mk _ _ _ _ _ _, n + 1, hprb, hctx⟩
      | true =>
        refine Or.inr ⟨isRed_mk _ _ _ _ _ _, n + 1, ?_, hctx.of_red⟩
        rw [paint_mk]
        exact hprb
  | false =>
    rw [if_neg Bool.false_ne_true]
    -- the colour and the height of what is hung at the place
    have hfits : ∀ (b : ℕ) (k : κ) (x y : NTree κ), x.isRed = false → y.isRed = false →
        x.RB (n + 1) → y.RB (n + 1) → Balanced (fill rest (mk s b k cp x y)) := by
      intro b k x y hx hy hxrb hyrb
      refine (rb_fill _ _).mpr ⟨_, ?_, by rw [isRed_mk]; exact hctx⟩
      cases cp with
      | true => exact (rb_mk_red _ _ _ _ _ _).mpr ⟨hx, hy, hxrb, hyrb⟩
      | false => exact (rb_mk_black _ _ _ _ _ _).mpr ⟨n + 1, rfl, hxrb, hyrb⟩
    cases hfarred : far.isRed with
    | true =>
      obtain ⟨b, kb, l, r, hfareq⟩ := exists_of_isRed hfarred
      have haddr : far.addr = some b := by
        rw [hfareq]
        rfl
      obtain ⟨m', hm', h', hout⟩ := repairFar_ok hstands haddr
      refine ⟨m', none, true, ?_, Or.inl ⟨rfl, rfl, _, ⟨h', ?_, ?_⟩, ?_⟩⟩
      · rw [haddr]
        dsimp only
        rw [hm', ok_bind]
      · rw [← h.entries]
        refine entries_fill_congr rest ?_
        rw [entries_mk_congr q kq cp cp rfl (entries_paint false far)]
        exact entries_turn s p q kp kq cp false false cp t near far
      · exact outside_of_entries h.entries h.outside hout
      · exact hfits q kq _ _ (isRed_mk _ _ _ _ _ _) (isRed_paint_false far)
          ((rb_mk_black _ _ _ _ _ _).mpr ⟨n, rfl, ht, hnear⟩) (hfar.blacken hfarred)
    | false =>
      have hnearred : near.isRed = true := by
        rw [hfarred] at hboth
        simpa using hboth
      have hne : near ≠ .nil := by
        rintro rfl
        exact Bool.false_ne_true hnearred
      obtain ⟨q2, k2, c2, u, v, rfl⟩ := mk_cases s near hne
      rw [isRed_mk] at hnearred
      subst hnearred
      obtain ⟨-, -, hu, hv⟩ := (rb_mk_red _ _ _ _ _ _).mp hnear
      obtain ⟨m', hm', h', hout⟩ := repairNear_ok hstands
      refine ⟨m', none, true, ?_, Or.inl ⟨rfl, rfl, _, ⟨h', ?_, ?_⟩, ?_⟩⟩
      · rw [addr_mk]
        cases far.addr with
        | none =>
          dsimp only
          rw [hm', ok_bind]
        | some b =>
          dsimp only
          rw [hm', ok_bind]
      · rw [← h.entries]
        exact entries_fill_congr rest
          (entries_turn_twice s p q q2 kp kq k2 cp false true false false cp t u v far)
      · exact outside_of_entries h.entries h.outside hout
      · exact hfits q2 k2 _ _ (isRed_mk _ _ _ _ _ _) (isRed_mk _ _ _ _ _ _)
          ((rb_mk_black _ _ _ _ _ _).mpr ⟨n, rfl, ht, hu⟩)
          ((rb_mk_black _ _ _ _ _ _).mpr ⟨n, rfl, hv, hfar⟩)

end Round

/-- Where the loop stands: `r` is short of a black edge, and all places above are on the stack. -/
structure Mending (m₀ m : Mem κ) (t₀ : NTree κ) (ctx : List (Frame κ)) (t : NTree κ)
    (st : Nodestack) : Prop where
  same : Same m₀ m t₀ (fill ctx t)
  short : Short ctx t
  places : st.places = placesOf ctx

/-- A red `r` ends the loop at once. -/
def roundsLeft (ctx : List (Frame κ)) (t : NTree κ) : ℕ := if t.isRed then 0 else ctx.length

theorem length_placesOf (ctx : List (Frame κ)) : (placesOf ctx).length = ctx.length := by
  induction ctx with
  | nil => rfl
  | cons f ctx ih => rw [placesOf, List.length_cons, List.length_cons, ih]

section Loop

variable {m₀ m : Mem κ} {t₀ t : NTree κ} {ctx rest : List (Frame κ)} {f : Frame κ} {st : Nodestack} {n : ℕ}

theorem side_of_pointer (h : Stands m (fill (f :: rest) t)) (ht : t.RB n)
    (hctx : CtxRB (f :: rest) false (n + 1)) :
    (if t.addr = (Node.mk' f.side f.key f.red t.addr f.other.addr).left then Side.left else Side.right) =
      f.side := by
  obtain ⟨s, p, kp, cp, other⟩ := f
  cases s with
  | left => exact if_pos rfl
  | right =>
    refine if_neg fun heq => ?_
    have heq : t.addr = other.addr := heq
    have hother : other.RB (n + 1) := ctxRB_other hctx
    obtain ⟨-, -, hnodup⟩ := h.split
    cases other with
    | nil => exact absurd hother (Nat.succ_ne_zero n)
    | node b kb c l r =>
      have happart := (List.nodup_append.mp hnodup).2.2
      refine happart b ?_ b ?_ rfl
      · exact mem_ctxAddrs_cons.mpr (Or.inr (Or.inl (by simp [addrs, entries])))
      · cases t with
        | nil => exact absurd heq (by simp [NTree.addr])
        | node d kd c' l' r' =>
          obtain rfl : d = b := Option.some.inj heq
          simp [addrs, entries]

theorem mendRound_ok (h : Mending m₀ m t₀ (f :: rest) t st) (hblack : t.isRed = false)
    (hroom : st.places.length < st.stacksize) :
    ∃ m' st' r, mendRound m st (locOf rest) t.addr = .ok (m', st', r) ∧
      st'.stacksize = st.stacksize ∧
      ((st'.places = [] ∧ r = none ∧ ∃ t', Same m₀ m' t₀ t' ∧ Balanced t') ∨
        ∃ ctx' t', r = t'.addr ∧ Mending m₀ m' t₀ ctx' t' st' ∧ ctx'.length ≤ (f :: rest).length ∧
          roundsLeft ctx' t' < (f :: rest).length) := by
  obtain ⟨n, ht, hctx⟩ : ∃ n, t.RB n ∧ CtxRB (f :: rest) false (n + 1) := by
    rcases h.short with ⟨-, hshort⟩ | ⟨hred, -⟩
    · exact hshort
    · exact absurd (hblack.symm.trans hred) (by decide)
  obtain ⟨⟨hf, hother, hrest⟩, -, -⟩ := h.same.stands.split
  have hside := side_of_pointer h.same.stands ht hctx
  obtain ⟨s, p, kp, cp, other⟩ := f
  obtain ⟨m₁, st₁, rest₁, cp₁, other₁, hm₁, h₁, hotherblack, hctx₁, hst₁, hsize, hcases⟩ :=
    mendBrother_ok h.same hctx h.places hroom
  obtain ⟨q, kq, near, far, rfl, hnear, hfar⟩ := exists_of_rb_succ s (ctxRB_other hctx₁) hotherblack
  have hctx₂ : CtxRB rest₁ cp₁ (if cp₁ then n + 1 else n + 2) := by
    rw [CtxRB] at hctx₁
    cases cp₁ with
    | true => exact hctx₁.2.2.2
    | false => exact hctx₁.2
  obtain ⟨m₂, r, done, hm₂, hdone⟩ := mendBlack_ok h₁ ht hnear hfar hctx₂
  obtain ⟨⟨hp₁, -, -⟩, -, -⟩ := h₁.stands.split
  have hq : m₁.deref (.child s.other p) = .ok q := by
    rw [Mem.deref, Mem.get, load_ok hp₁, ok_bind, ok_bind, Node.mk'_child_other, addr_mk]
  have hround : mendRound m st (locOf rest) t.addr =
      .ok (m₂, ⟨if done then [] else st₁.places.tail, st₁.stacksize⟩, r) := by
    rw [mendRound, deref_locOf hrest, ok_bind, load_ok hf, ok_bind]
    dsimp only at hside ⊢
    rw [hside, hm₁, ok_bind]
    dsimp only
    rw [hq, ok_bind, hm₂, ok_bind]
  refine ⟨m₂, _, r, hround, hsize, ?_⟩
  rcases hdone with ⟨rfl, rfl, hend⟩ | ⟨rfl, t', hr, hred, h₂, hshort⟩
  · exact Or.inl ⟨rfl, rfl, hend⟩
  · refine Or.inr ⟨rest₁, t', hr, ⟨h₂, hshort, ?_⟩, ?_, ?_⟩
    · dsimp only
      rw [hst₁]
      rfl
    · rw [List.length_cons]
      rcases hcases with rfl | ⟨-, hlength⟩
      · exact Nat.le_succ _
      · exact hlength.le
    · rw [roundsLeft, hred, List.length_cons]
      rcases hcases with rfl | ⟨rfl, -⟩
      · split
        · exact Nat.succ_pos _
        · exact Nat.lt_succ_self _
      · rw [if_pos rfl]
        exact Nat.succ_pos _

theorem mendLoop_ok : ∀ (steps : ℕ) (m : Mem κ) (ctx : List (Frame κ)) (t : NTree κ) (st : Nodestack),
    Mending m₀ m t₀ ctx t st → ctx.length < st.stacksize → roundsLeft ctx t < steps →
    ∃ m₁ r m' t', mendLoop steps m st t.addr = .ok (m₁, r) ∧ m₁.blacken r = .ok m' ∧
      Same m₀ m' t₀ t' ∧ Balanced t' := by
  intro steps
  induction steps with
  | zero =>
    intro m ctx t st _ _ hsteps
    exact absurd hsteps (Nat.not_lt_zero _)
  | succ steps ih =>
    intro m ctx t st h hroom hsteps
    have hplaces := h.places
    -- the loop is left with this `r`, whose root becomes black
    have hleave : (∃ n, (t.paint false).RB n ∧ CtxRB ctx false n) →
        ∃ m' t', m.blacken t.addr = .ok m' ∧ Same m₀ m' t₀ t' ∧ Balanced t' := by
      rintro ⟨n, hrb, hctx⟩
      obtain ⟨m', hm', h', hout⟩ := blacken_ok h.same.stands
      refine ⟨m', _, hm', ⟨h', ?_, outside_of_entries h.same.entries h.same.outside hout⟩,
        (rb_fill _ _).mpr ⟨n, hrb, ?_⟩⟩
      · rw [← h.same.entries]
        exact entries_fill_congr ctx (entries_paint false t)
      · rw [isRed_paint_false]
        exact hctx
    cases ctx with
    | nil =>
      obtain ⟨m', t', hm', hsame, hbal⟩ := hleave (by
        rcases h.short with ⟨hblack, n, hrb, -⟩ | ⟨-, n, hrb, -⟩
        · rw [paint_eq hblack]
          exact ⟨n, hrb, trivial⟩
        · exact ⟨n, hrb, trivial⟩)
      refine ⟨m, t.addr, m', t', ?_, hm', hsame, hbal⟩
      rw [mendLoop, hplaces, placesOf]
    | cons f rest =>
      obtain ⟨-, ht, -⟩ := h.same.stands.split
      rw [mendLoop, hplaces, placesOf, isRed_ok ht]
      dsimp only
      rw [ok_bind]
      cases hred : t.isRed with
      | true =>
        obtain ⟨m', t', hm', hsame, hbal⟩ := hleave (by
          rcases h.short with ⟨hblack, -⟩ | ⟨-, hshort⟩
          · exact absurd (hblack.symm.trans hred) (by decide)
          · exact hshort)
        exact ⟨m, t.addr, m', t', rfl, hm', hsame, hbal⟩
      | false =>
        have hlength : st.places.length < st.stacksize := by
          rw [hplaces, length_placesOf]
          exact hroom
        obtain ⟨m', st', r, hm', hsize, hnext⟩ := mendRound_ok h hred hlength
        rw [if_neg Bool.false_ne_true, hm', ok_bind]
        dsimp only
        rcases hnext with ⟨hempty, rfl, t', hsame, hbal⟩ | ⟨ctx', t', rfl, h', hle, hless⟩
        · refine ⟨m', none, m', t', ?_, rfl, hsame, hbal⟩
          obtain ⟨steps, rfl⟩ : ∃ k, steps = k + 1 := by
            rw [roundsLeft, hred, List.length_cons] at hsteps
            rw [if_neg Bool.false_ne_true] at hsteps
            exact ⟨steps - 1, by omega⟩
          rw [mendLoop, hempty]
        · refine ih m' ctx' t' st' h' (by rw [hsize]; omega) ?_
          rw [roundsLeft, hred, if_neg Bool.false_ne_true] at hsteps
          omega

end Loop

end Mintlib.Tsearch
