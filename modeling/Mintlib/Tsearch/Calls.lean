import Mintlib.Tsearch.Delete

/-!
# Runs of `tsearch`, `tfind` and `tdelete`

Whatever is called in whatever order, the nodes in memory are a balanced tree of the keys that have
been put in and not been deleted, and no other node is left in memory.
-/

namespace Mintlib.Tsearch

open NodeTree NTree Compare Checked

variable {κ : Type}

/-- The loop of `tfind`. -/
def tfindLoop (cmp : κ → κ → ℤ) (key : κ) : ℕ → Mem κ → Loc → Except Stop (Option ℕ)
  | 0, _, _ => .error .steps
  | steps + 1, m, rootp => do
    let p ← m.get rootp
    match p with
    | none => .ok none
    | some root => do
      let n ← m.load root
      let r := cmp key n.key
      if r = 0 then .ok (some root)
      else tfindLoop cmp key steps m (.child (sideOf r) root)

def tfind (cmp : κ → κ → ℤ) (steps : ℕ) (m : Mem κ) (key : κ) : Except Stop (Option ℕ) :=
  tfindLoop cmp key steps m .root

/-- A call; `tsearch` comes with what `malloc` returns if it is called. -/
inductive Call (κ : Type)
  | tsearch (key : κ) (q : ℕ)
  | tfind (key : κ)
  | tdelete (key : κ)

def Call.exec (cmp : κ → κ → ℤ) (steps : ℕ) (m : Mem κ) : Call κ → Except Stop (Mem κ × Option ℕ)
  | .tsearch key q => Tsearch.tsearch cmp steps m key (some q)
  | .tfind key => do
    let p ← Tsearch.tfind cmp steps m key
    .ok (m, p)
  | .tdelete key => Tsearch.tdelete cmp steps m key

def run (cmp : κ → κ → ℤ) (steps : ℕ) :
    Mem κ → List (Call κ) → Except Stop (Mem κ × List (Option ℕ))
  | m, [] => .ok (m, [])
  | m, call :: calls => do
    let (m, p) ← call.exec cmp steps m
    let (m, ps) ← run cmp steps m calls
    .ok (m, p :: ps)

/-- `malloc` gives memory in which no node stands. -/
def Fresh (cmp : κ → κ → ℤ) (steps : ℕ) : Mem κ → List (Call κ) → Prop
  | _, [] => True
  | m, call :: calls => (∀ key q, call = .tsearch key q → m.node q = none) ∧
      ∀ m' p, call.exec cmp steps m = .ok (m', p) → Fresh cmp steps m' calls

def answer (cmp : κ → κ → ℤ) (keys : List κ) : Call κ → List κ × Bool
  | .tsearch key _ =>
    if keys.any fun k => cmp key k = 0 then (keys, true)
    else (keys.filter (fun k => cmp k key < 0) ++ key :: keys.filter (fun k => cmp key k < 0), true)
  | .tfind key => (keys, keys.any fun k => cmp key k = 0)
  | .tdelete key => (keys.filter fun k => cmp key k ≠ 0, keys.any fun k => cmp key k = 0)

def answers (cmp : κ → κ → ℤ) : List κ → List (Call κ) → List κ × List Bool
  | keys, [] => (keys, [])
  | keys, call :: calls =>
    let (keys, b) := answer cmp keys call
    let (keys, bs) := answers cmp keys calls
    (keys, b :: bs)

def keysOf (t : NTree κ) : List κ := t.entries.map Prod.snd

/-- A search tree, and no other node in memory. -/
structure Kept (cmp : κ → κ → ℤ) (m : Mem κ) (t : NTree κ) : Prop where
  tree : SearchTree cmp m t
  only : ∀ a, a ∉ t.addrs → m.node a = none

section Calls

variable {cmp : κ → κ → ℤ} {key : κ} {m m' : Mem κ} {ctx : List (Frame κ)} {t t' : NTree κ} {p : Option ℕ}
  {a steps : ℕ}

/-- What a call of `tfind` returns. -/
inductive Found (cmp : κ → κ → ℤ) (key : κ) (t : NTree κ) : Option ℕ → Prop
  | absent (h : ∀ e ∈ t.entries, cmp key e.2 ≠ 0) : Found cmp key t none
  | there {a : ℕ} (k : κ) (hmem : (a, k) ∈ t.entries) (hkey : cmp key k = 0) :
      Found cmp key t (some a)

theorem tfindLoop_ok (hcmp : Consistent cmp) : ∀ (steps : ℕ) (ctx : List (Frame κ)) (t : NTree κ),
    Stands m (fill ctx t) → (fill ctx t).entries.Pairwise (fun e e' => cmp e.2 e'.2 < 0) →
    Toward cmp key ctx → t.height < steps →
    ∃ p, tfindLoop cmp key steps m (locOf ctx) = .ok p ∧ Found cmp key (fill ctx t) p := by
  intro steps
  induction steps with
  | zero =>
    intro ctx t _ _ _ hsteps
    exact absurd hsteps (Nat.not_lt_zero _)
  | succ steps ih =>
    intro ctx t h hordered htoward hsteps
    rw [tfindLoop, get_locOf h.split.1, ok_bind]
    cases t with
    | nil => exact ⟨none, rfl, Found.absent (toward_absent hcmp hordered htoward)⟩
    | node b k c left right =>
      obtain ⟨-, hload⟩ := deref_fill h
      rw [NTree.addr]
      dsimp only
      rw [hload, ok_bind]
      dsimp only
      by_cases hzero : cmp key k = 0
      · rw [if_pos hzero]
        refine ⟨some b, rfl, Found.there k ?_ hzero⟩
        rw [entries_fill]
        simp [entries]
      · rw [if_neg hzero]
        obtain ⟨x, y, hmk⟩ := node_eq_mk (sideOf (cmp key k)) b k c left right
        rw [hmk] at h hordered hsteps ⊢
        rw [height_mk] at hsteps
        have hle := Nat.le_max_left x.height y.height
        have htoward' := htoward.cons (f := ⟨sideOf (cmp key k), b, k, c, y⟩) (went_sideOf hzero)
        exact ih (⟨sideOf (cmp key k), b, k, c, y⟩ :: ctx) x h hordered htoward' (by omega)

theorem tfind_step (key : κ) (hcmp : Consistent cmp) (h : SearchTree cmp m t) (hsteps : t.height < steps) :
    ∃ p, tfind cmp steps m key = .ok p ∧ Found cmp key t p :=
  tfindLoop_ok hcmp steps [] t h.stands h.ordered (fun _ hf => absurd hf List.not_mem_nil) hsteps

theorem any_keysOf (t : NTree κ) :
    ((keysOf t).any fun k => cmp key k = 0) = true ↔ ∃ e ∈ t.entries, cmp key e.2 = 0 := by
  rw [keysOf, List.any_map, List.any_eq_true]
  simp

theorem any_absent (h : ∀ e ∈ t.entries, cmp key e.2 ≠ 0) :
    ((keysOf t).any fun k => cmp key k = 0) = false := by
  rw [← Bool.not_eq_true, any_keysOf]
  rintro ⟨e, he, hkey⟩
  exact h e he hkey

theorem SearchTree.keys_ordered (h : SearchTree cmp m t) :
    (keysOf t).Pairwise fun k k' => cmp k k' < 0 := List.pairwise_map.mpr h.ordered

theorem filter_between (hcmp : Consistent cmp) {x y : List κ}
    (h : (x ++ key :: y).Pairwise fun k k' => cmp k k' < 0) :
    (x ++ y).filter (fun k => cmp k key < 0) ++ key :: (x ++ y).filter (fun k => cmp key k < 0) =
      x ++ key :: y := by
  obtain ⟨-, hkey, hx⟩ := List.pairwise_append.mp h
  obtain ⟨hy, -⟩ := List.pairwise_cons.mp hkey
  have hless : ∀ k ∈ x, cmp k key < 0 := fun k hk => hx k hk key List.mem_cons_self
  have hnot : ∀ k k', cmp k k' < 0 → ¬ cmp k' k < 0 := by
    intro k k' hlt
    rw [hcmp.not_neg]
    exact hlt.le
  have hx₁ : x.filter (fun k => cmp k key < 0) = x :=
    List.filter_eq_self.mpr fun k hk => decide_eq_true (hless k hk)
  have hy₁ : y.filter (fun k => cmp k key < 0) = [] :=
    List.filter_eq_nil_iff.mpr fun k hk => by simpa using hnot key k (hy k hk)
  have hx₂ : x.filter (fun k => cmp key k < 0) = [] :=
    List.filter_eq_nil_iff.mpr fun k hk => by simpa using hnot k key (hless k hk)
  have hy₂ : y.filter (fun k => cmp key k < 0) = y :=
    List.filter_eq_self.mpr fun k hk => decide_eq_true (hy k hk)
  rw [List.filter_append, List.filter_append, hx₁, hy₁, hx₂, hy₂, List.append_nil, List.nil_append]

theorem filter_without (hcmp : Consistent cmp) {k : κ} {x y : List κ}
    (h : (x ++ k :: y).Pairwise fun k k' => cmp k k' < 0) (hkey : cmp key k = 0) :
    (x ++ k :: y).filter (fun k => cmp key k ≠ 0) = x ++ y := by
  obtain ⟨-, hk, hx⟩ := List.pairwise_append.mp h
  obtain ⟨hy, -⟩ := List.pairwise_cons.mp hk
  have hkk : cmp k key ≤ 0 := by
    rw [← hcmp.not_neg]
    omega
  have hx₁ : x.filter (fun k => cmp key k ≠ 0) = x := by
    refine List.filter_eq_self.mpr fun d hd => decide_eq_true ?_
    have hless : cmp d key < 0 := hcmp.lt_of_lt_of_le (hx d hd k List.mem_cons_self) hkk
    rw [hcmp.sign] at hless
    exact hless.ne'
  have hy₁ : y.filter (fun k => cmp key k ≠ 0) = y := by
    refine List.filter_eq_self.mpr fun d hd => decide_eq_true ?_
    intro hzero
    have hdk : cmp d key ≤ 0 := by
      rw [← hcmp.not_neg]
      omega
    have hback := hcmp.trans d key k hdk hkey.le
    exact ((hcmp.not_le d k).mpr (hy d hd)) hback
  rw [List.filter_append, List.filter_cons_of_neg (by simpa using hkey), hx₁, hy₁]

/-- A tree of fewer than `2 ^ 20 - 1` nodes is not higher than the stack has room for. -/
theorem height_lt (h : Balanced t) (hsize : t.size + 1 < 2 ^ 20) : t.height < 40 := by
  obtain ⟨n, hrb⟩ := h
  have hpow := hrb.size_ge
  have hheight := hrb.height_le
  have hn : n < 20 := (Nat.pow_lt_pow_iff_right (by decide : 1 < 2)).mp (hpow.trans_lt hsize)
  split at hheight <;> omega

theorem pow_height_le (h : Balanced t) : 2 ^ (t.height / 2) ≤ t.size + 1 := by
  obtain ⟨n, hrb⟩ := h
  have hheight := hrb.height_le
  have hle : t.height / 2 ≤ n := by
    split at hheight <;> omega
  exact (Nat.pow_le_pow_right (by decide) hle).trans hrb.size_ge

theorem exec_ok (hcmp : Consistent cmp) (h : Kept cmp m t) (hsize : t.size + 1 < 2 ^ 20)
    (hsteps : 80 ≤ steps) (call : Call κ) (hfresh : ∀ key q, call = .tsearch key q → m.node q = none) :
    ∃ m' p t', call.exec cmp steps m = .ok (m', p) ∧ Kept cmp m' t' ∧
      answer cmp (keysOf t) call = (keysOf t', p.isSome) ∧ t'.size ≤ t.size + 1 ∧
      ∀ a ∈ t'.addrs, a ∈ t.addrs ∨ ∃ key, call = .tsearch key a := by
  have hheight := height_lt h.tree.balanced hsize
  cases call with
  | tsearch key q =>
    have hq : q ∉ t.addrs := by
      intro hmem
      obtain ⟨n, hn⟩ := h.tree.stands.holds.node_at hmem
      rw [hfresh key q rfl] at hn
      cases hn
    obtain ⟨m', t', p, hm', h', hsearched⟩ := tsearch_step key hcmp h.tree hq
      (show 2 * t.height < steps by omega)
    -- no other nodes are left in memory; the answer; the size; the addresses
    refine ⟨m', some p, t', hm', ⟨h', ?_⟩, ?_, ?_, ?_⟩
    · intro b hb
      cases hsearched with
      | there k hmem hkey hsame hout =>
        rw [addrs_eq_of_entries hsame] at hb
        rw [hout b hb, h.only b hb]
      | made habsent l r hold hnew hout =>
        rw [addrs, hnew, List.map_append, List.map_cons, List.mem_append, List.mem_cons] at hb
        have hbq : b ≠ q := fun heq => hb (Or.inr (Or.inl heq))
        have hbt : b ∉ t.addrs := by
          rw [addrs, hold, List.map_append, List.mem_append]
          exact fun hmem => hb (hmem.imp_right Or.inr)
        rw [hout b hbq hbt, h.only b hbt]
    · cases hsearched with
      | there k hmem hkey hsame hout =>
        have hany := (any_keysOf t).mpr ⟨_, hmem, hkey⟩
        rw [answer, if_pos hany, keysOf, keysOf, hsame]
        rfl
      | made habsent l r hold hnew hout =>
        have hordered := h'.keys_ordered
        rw [answer, any_absent habsent, if_neg Bool.false_ne_true]
        have hkeys : keysOf t = l.map Prod.snd ++ r.map Prod.snd := by
          rw [keysOf, hold, List.map_append]
        have hkeys' : keysOf t' = l.map Prod.snd ++ key :: r.map Prod.snd := by
          rw [keysOf, hnew, List.map_append, List.map_cons]
        rw [hkeys'] at hordered ⊢
        rw [hkeys, filter_between hcmp hordered]
        rfl
    · cases hsearched with
      | there k hmem hkey hsame hout =>
        rw [size, size, hsame]
        exact Nat.le_succ _
      | made habsent l r hold hnew hout =>
        rw [size, size, hold, hnew, List.length_append, List.length_append, List.length_cons]
        exact (Nat.add_assoc _ _ _).ge
    · intro b hb
      cases hsearched with
      | there k hmem hkey hsame hout =>
        rw [addrs_eq_of_entries hsame] at hb
        exact Or.inl hb
      | made habsent l r hold hnew hout =>
        rw [addrs, hnew, List.map_append, List.map_cons, List.mem_append, List.mem_cons] at hb
        rw [addrs, hold, List.map_append, List.mem_append]
        rcases hb with hl | rfl | hr
        · exact Or.inl (Or.inl hl)
        · exact Or.inr ⟨key, rfl⟩
        · exact Or.inl (Or.inr hr)
  | tfind key =>
    obtain ⟨p, hp, hfound⟩ := tfind_step key hcmp h.tree (show t.height < steps by omega)
    refine ⟨m, p, t, by rw [Call.exec, hp, ok_bind], h, ?_, Nat.le_succ _, fun b hb => Or.inl hb⟩
    rw [answer]
    cases hfound with
    | absent habsent => rw [any_absent habsent]; rfl
    | there k hmem hkey => rw [(any_keysOf t).mpr ⟨_, hmem, hkey⟩]; rfl
  | tdelete key =>
    obtain ⟨m', t', p, hm', h', hdeleted, hout⟩ := tdelete_step key hcmp h.tree hheight.le
      (show t.height ≤ steps by omega)
    -- the same four, with a node less or the same tree
    refine ⟨m', p, t', hm', ⟨h', ?_⟩, ?_, ?_, ?_⟩
    · intro b hb
      cases hdeleted with
      | absent habsent hsame =>
        rw [hsame] at hb
        rw [hout b hb, h.only b hb]
      | gone u htree hkey hremoved hfree =>
        by_cases hbu : b = u
        · rw [hbu, hfree]
        · have hbt : b ∉ t.addrs := by
            intro hmem
            rcases List.mem_cons.mp (hremoved.addrs.mem_iff.mp hmem) with heq | hmem
            · exact hbu heq
            · exact hb hmem
          rw [hout b hbt, h.only b hbt]
    · have hordered := h.tree.keys_ordered
      rw [answer]
      cases hdeleted with
      | absent habsent hsame =>
        rw [any_absent habsent, hsame]
        refine Prod.ext (List.filter_eq_self.mpr fun k hk => ?_) rfl
        obtain ⟨e, he, rfl⟩ := List.mem_map.mp hk
        exact decide_eq_true (habsent e he)
      | @gone ctx a k c l r u htree hkey hremoved hfree =>
        obtain ⟨x, y, hold, hnew⟩ := hremoved.keys
        have hkeys : keysOf t = x ++ k :: y := hold
        have hkeys' : keysOf t' = x ++ y := hnew
        rw [hkeys] at hordered ⊢
        rw [filter_without hcmp hordered hkey, hkeys', List.any_append, List.any_cons]
        simp [hkey]
    · cases hdeleted with
      | absent habsent hsame =>
        rw [hsame]
        exact Nat.le_succ _
      | gone u htree hkey hremoved hfree =>
        have hlength := hremoved.addrs.length_eq
        rw [List.length_map, List.length_cons, List.length_map] at hlength
        rw [size, size, hlength]
        omega
    · intro b hb
      left
      cases hdeleted with
      | absent habsent hsame => rwa [hsame] at hb
      | gone u htree hkey hremoved hfree =>
        exact hremoved.addrs.mem_iff.mpr (List.mem_cons_of_mem _ hb)

theorem run_ok (hcmp : Consistent cmp) (hsteps : 80 ≤ steps) (calls : List (Call κ)) :
    ∀ (m : Mem κ) (t : NTree κ), Kept cmp m t → t.size + calls.length < 2 ^ 20 → Fresh cmp steps m calls →
    ∃ m' ps t', run cmp steps m calls = .ok (m', ps) ∧ Kept cmp m' t' ∧
      answers cmp (keysOf t) calls = (keysOf t', ps.map Option.isSome) := by
  induction calls with
  | nil =>
    intro m t h _ _
    exact ⟨m, [], t, rfl, h, rfl⟩
  | cons call calls ih =>
    intro m t h hsize hfresh
    rw [List.length_cons] at hsize
    obtain ⟨m₁, p, t₁, hm₁, h₁, hanswer, hgrow, -⟩ :=
      exec_ok hcmp h (by omega) hsteps call hfresh.1
    obtain ⟨m₂, ps, t₂, hm₂, h₂, hanswers⟩ := ih m₁ t₁ h₁ (by omega) (hfresh.2 m₁ p hm₁)
    refine ⟨m₂, p :: ps, t₂, ?_, h₂, ?_⟩
    · rw [run, hm₁, ok_bind]
      dsimp only
      rw [hm₂, ok_bind]
    · rw [answers, hanswer]
      dsimp only
      rw [hanswers]
      rfl

/-- The nodes that `malloc` returns. -/
def given (calls : List (Call κ)) : List ℕ :=
  calls.filterMap fun call =>
    match call with
    | .tsearch _ q => some q
    | _ => none

theorem fresh_of_nodup (hcmp : Consistent cmp) (hsteps : 80 ≤ steps) (calls : List (Call κ)) :
    ∀ (m : Mem κ) (t : NTree κ), Kept cmp m t → t.size + calls.length < 2 ^ 20 →
    (given calls).Nodup → (∀ a ∈ t.addrs, a ∉ given calls) → Fresh cmp steps m calls := by
  induction calls with
  | nil => exact fun _ _ _ _ _ _ => trivial
  | cons call calls ih =>
    intro m t h hsize hnodup hapart
    rw [List.length_cons] at hsize
    have hfirst : ∀ key q, call = .tsearch key q → given (call :: calls) = q :: given calls := by
      rintro key q rfl
      rfl
    have hfresh : ∀ key q, call = .tsearch key q → m.node q = none := by
      intro key q hcall
      refine h.only q fun hmem => hapart q hmem ?_
      rw [hfirst key q hcall]
      exact List.mem_cons_self
    refine ⟨hfresh, fun m' p' hexec => ?_⟩
    obtain ⟨m₁, p, t₁, hm₁, h₁, -, hgrow, hnodes⟩ := exec_ok hcmp h (by omega) hsteps call hfresh
    rw [hexec] at hm₁
    obtain ⟨rfl, rfl⟩ := Prod.mk.inj (Except.ok.inj hm₁)
    have hrest : ∀ a, a ∈ given calls → a ∈ given (call :: calls) := by
      intro a ha
      rw [given, List.filterMap_cons]
      split
      · exact ha
      · exact List.mem_cons_of_mem _ ha
    refine ih m' t₁ h₁ (by omega) ?_ fun a ha hgiven => ?_
    · refine hnodup.sublist ?_
      rw [given, given, List.filterMap_cons]
      split
      · exact List.Sublist.refl _
      · exact List.sublist_cons_self _ _
    · rcases hnodes a ha with hold | ⟨key, hcall⟩
      · exact hapart a hold (hrest a hgiven)
      · rw [hfirst key a hcall] at hnodup
        exact (List.nodup_cons.mp hnodup).1 hgiven

end Calls

def noMem (κ : Type) : Mem κ := ⟨none, fun _ => none⟩

theorem kept_noMem (cmp : κ → κ → ℤ) : Kept cmp (noMem κ) .nil :=
  ⟨⟨⟨rfl, trivial, List.nodup_nil⟩, ⟨0, rfl⟩, List.Pairwise.nil⟩, fun _ _ => rfl⟩

/-- Calls in any order, from the empty tree on: none faults, each answers as a sorted list of the
keys does, and in the end the tree is balanced and nothing else is left in memory. -/
theorem calls_ok {cmp : κ → κ → ℤ} (hcmp : Consistent cmp) {steps : ℕ} (hsteps : 80 ≤ steps)
    (calls : List (Call κ)) (hcalls : calls.length < 2 ^ 20)
    (hfresh : Fresh cmp steps (noMem κ) calls) :
    ∃ m ps t, run cmp steps (noMem κ) calls = .ok (m, ps) ∧ SearchTree cmp m t ∧
      (∀ a, m.node a = none ↔ a ∉ t.addrs) ∧
      answers cmp [] calls = (keysOf t, ps.map Option.isSome) ∧
      2 ^ (t.height / 2) ≤ t.size + 1 := by
  have hsize : (NTree.nil : NTree κ).size + calls.length < 2 ^ 20 := by
    rw [size, entries, List.length_nil, Nat.zero_add]
    exact hcalls
  obtain ⟨m, ps, t, hrun, h, hanswers⟩ :=
    run_ok hcmp hsteps calls (noMem κ) .nil (kept_noMem cmp) hsize hfresh
  refine ⟨m, ps, t, hrun, h.tree, fun a => ⟨fun hnone hmem => ?_, h.only a⟩, hanswers,
    pow_height_le h.tree.balanced⟩
  obtain ⟨n, hn⟩ := h.tree.stands.holds.node_at hmem
  rw [hnone] at hn
  cases hn

/-- Five keys are put in, so that a node with two red ones below it is split and another one is turned
down; one with two below it is deleted. -/
def someCalls : List (Call ℤ) :=
  [.tsearch 5 0, .tsearch 3 1, .tsearch 8 2, .tsearch 1 3, .tsearch 2 4, .tfind 3, .tdelete 5, .tfind 5]

theorem calls_ok_demo : ∃ m ps t, run (fun x y : ℤ => x - y) 80 (noMem ℤ) someCalls = .ok (m, ps) ∧
    SearchTree (fun x y : ℤ => x - y) m t ∧ (∀ a, m.node a = none ↔ a ∉ t.addrs) ∧
    answers (fun x y : ℤ => x - y) [] someCalls = (keysOf t, ps.map Option.isSome) ∧
    2 ^ (t.height / 2) ≤ t.size + 1 := by
  have hcmp : Consistent fun x y : ℤ => x - y :=
    ⟨fun x y => by omega, fun x y z hxy hyz => by omega⟩
  have hfresh : Fresh (fun x y : ℤ => x - y) 80 (noMem ℤ) someCalls :=
    fresh_of_nodup hcmp (Nat.le_refl 80) someCalls (noMem ℤ) .nil (kept_noMem _) (by decide)
      (by decide) fun a ha => absurd ha List.not_mem_nil
  exact calls_ok hcmp (Nat.le_refl 80) someCalls (by decide) hfresh

end Mintlib.Tsearch
