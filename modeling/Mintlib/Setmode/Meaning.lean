import Mintlib.Setmode.Reader

/-!
# What the text of a mode means

Clauses as they are written, and what they do to a mode. The commands that `setmode` makes of their
text do the same.
-/

namespace Mintlib.Setmode

open Text Checked

inductive Who
  | u
  | g
  | o
  | a

inductive Class
  | u
  | g
  | o

inductive Perm
  | r
  | w
  | x
  | X
  | s
  | t
deriving DecidableEq

inductive Op
  | plus
  | minus
  | equal

/-- Permissions, or the bits of one class, that are added, taken away or given. -/
inductive Action
  | perms (op : Op) (ps : List Perm)
  | copy (op : Op) (source : Class)

structure Clause where
  who : List Who
  first : Action
  more : List Action

def Who.char : Who → UInt8
  | .u => 117
  | .g => 103
  | .o => 111
  | .a => 97

def Class.char : Class → UInt8
  | .u => 117
  | .g => 103
  | .o => 111

def Perm.char : Perm → UInt8
  | .r => 114
  | .w => 119
  | .x => 120
  | .X => 88
  | .s => 115
  | .t => 116

def Op.char : Op → UInt8
  | .plus => PLUS
  | .minus => MINUS
  | .equal => EQ

def Action.op : Action → Op
  | .perms op _ => op
  | .copy op _ => op

def Action.body : Action → Str
  | .perms _ ps => ps.map Perm.char
  | .copy _ source => [source.char]

def Action.text (a : Action) : Str := a.op.char :: a.body

def Clause.actions (c : Clause) : List Action := c.first :: c.more

def Clause.text (c : Clause) : Str := c.who.map Who.char ++ c.actions.flatMap Action.text

def textOf : List Clause → Str
  | [] => []
  | c :: cs => if cs = [] then c.text else c.text ++ COMMA :: textOf cs

def Who.bits : Who → Mode
  | .u => S_ISUID ||| S_IRWXU
  | .g => S_ISGID ||| S_IRWXG
  | .o => S_IRWXO
  | .a => STANDARD_BITS

def whoBits (who : List Who) : Mode := who.foldl (fun bits w => bits ||| w.bits) 0

def Perm.bits (who : Mode) : Perm → Mode
  | .r => READ
  | .w => WRITE
  | .x => EXEC
  | .X => 0
  | .s => if MaySet who then S_ISUID ||| S_ISGID else 0
  | .t => if MaySet who then S_ISTXT else 0

def permBits (who : Mode) (ps : List Perm) : Mode := ps.foldl (fun bits p => bits ||| p.bits who) 0

/-- With `t` it is the sticky bit that is meant as well; if nobody is named, it alone. -/
def meant (who : Mode) (ps : List Perm) : Mode :=
  if MaySet who ∧ .t ∈ ps then who ||| S_ISTXT else who

def spread (who umask v : Mode) : Mode :=
  let reach := if who ≠ 0 then BitVec.allOnes 32 else ~~~umask
  (if who = 0 ∨ who &&& 0o400 ≠ 0 then (v <<< 6) &&& reach else 0) |||
    (if who = 0 ∨ who &&& 0o040 ≠ 0 then (v <<< 3) &&& reach else 0) |||
      (if who = 0 ∨ who &&& 0o004 ≠ 0 then v &&& reach else 0)

def Class.value (m : Mode) : Class → Mode
  | .u => (m &&& S_IRWXU) >>> 6
  | .g => (m &&& S_IRWXG) >>> 3
  | .o => m &&& S_IRWXO

/-- What an action makes of a mode `m`, the mode having been `omode` at first. `X` always adds. -/
def Action.meaning (umask omode who m : Mode) : Action → Mode
  | .perms op ps =>
    let bits := given (meant who ps) (~~~umask) &&& permBits who ps
    let m := match op with
      | .plus => m ||| bits
      | .minus => m &&& ~~~bits
      | .equal => (m &&& ~~~given (meant who ps) STANDARD_BITS) ||| bits
    if .X ∈ ps ∧ Executable omode then m ||| (given (meant who ps) (~~~umask) &&& EXEC) else m
  | .copy op source =>
    match op with
    | .plus => m ||| spread who umask (source.value m)
    | .minus => m &&& ~~~spread who umask (source.value m)
    | .equal => (m &&& ~~~spread who umask S_IRWXO) ||| spread who umask (source.value m)

def Clause.meaning (umask omode m : Mode) (c : Clause) : Mode :=
  c.actions.foldl (fun m a => a.meaning umask omode (whoBits c.who) m) m

def meaning (umask omode : Mode) (cs : List Clause) : Mode :=
  cs.foldl (fun m c => c.meaning umask omode m) omode

def run (omode : Mode) (cmds : List BitCmd) (m : Mode) : Mode :=
  cmds.foldl (fun m c => apply omode c m) m

section Run

variable {omode m : Mode} {cmds new : List BitCmd} {umask who : Mode} {op : Op} {ps : List Perm}

theorem getmodeLoop_run (h : ∀ c ∈ cmds, c.cmd ≠ .stop) (m : Mode) :
    getmodeLoop omode (cmds ++ [⟨.stop, {}, 0⟩]) m = some (run omode cmds m) := by
  induction cmds generalizing m with
  | nil => rfl
  | cons c cmds ih =>
    rw [List.cons_append, getmodeLoop_cons (h c List.mem_cons_self),
      ih fun c hc => h c (List.mem_cons_of_mem _ hc)]
    rfl

theorem run_append (omode : Mode) (cmds new : List BitCmd) (m : Mode) :
    run omode (cmds ++ new) m = run omode new (run omode cmds m) := List.foldl_append

/-- The bits that `common` takes away or adds. -/
def reached (c : BitCmd) (v : Mode) : Mode :=
  (if c.cmd2.ubits then (v <<< 6) &&& c.bits else 0) |||
    (if c.cmd2.gbits then (v <<< 3) &&& c.bits else 0) |||
      (if c.cmd2.obits then v &&& c.bits else 0)

theorem clear_reached (c : BitCmd) (v m : Mode) :
    (let m := if c.cmd2.ubits then m &&& ~~~((v <<< 6) &&& c.bits) else m
     let m := if c.cmd2.gbits then m &&& ~~~((v <<< 3) &&& c.bits) else m
     if c.cmd2.obits then m &&& ~~~(v &&& c.bits) else m) = m &&& ~~~reached c v := by
  rw [reached]
  generalize (v <<< 6) &&& c.bits = x
  generalize (v <<< 3) &&& c.bits = y
  generalize v &&& c.bits = z
  have hthree : ∀ x y z : Mode, m &&& ~~~x &&& ~~~y &&& ~~~z = m &&& ~~~(x ||| y ||| z) := by
    intro x y z
    ext i hi
    simp only [BitVec.getElem_or, BitVec.getElem_and, BitVec.getElem_not]
    grind
  have hif : ∀ (b : Bool) (m x : Mode), (if b then m &&& ~~~x else m) =
      m &&& ~~~(if b then x else 0) := by
    intro b m x
    cases b with
    | true => rfl
    | false => exact (and_not_zero m).symm
  dsimp only
  rw [hif, hif, hif, hthree]

theorem set_reached (c : BitCmd) (v m : Mode) :
    (let m := if c.cmd2.ubits then m ||| ((v <<< 6) &&& c.bits) else m
     let m := if c.cmd2.gbits then m ||| ((v <<< 3) &&& c.bits) else m
     if c.cmd2.obits then m ||| (v &&& c.bits) else m) = m ||| reached c v := by
  rw [reached]
  have hif : ∀ (b : Bool) (m x : Mode), (if b then m ||| x else m) = m ||| (if b then x else 0) := by
    intro b m x
    cases b with
    | true => rfl
    | false => exact (or_zero m).symm
  dsimp only
  rw [hif, hif, hif]
  simp only [BitVec.or_assoc]

theorem common_eq (c : BitCmd) (v m : Mode) : common c v m =
    (let m := if c.cmd2.clr then m &&& ~~~reached c (if c.cmd2.set then S_IRWXO else v) else m
     if c.cmd2.set then m ||| reached c v else m) := by
  rw [common]
  dsimp only
  rw [← clear_reached, ← set_reached]

theorem run_addcmd_op (op : Op) (who perm mask : Mode) :
    run omode (addcmd op.char who perm mask) m =
      match op with
      | .plus => m ||| (given who mask &&& perm)
      | .minus => m &&& ~~~(given who mask &&& perm)
      | .equal => (m &&& ~~~given who STANDARD_BITS) ||| (given who mask &&& perm) := by
  cases op <;> rfl

theorem run_addcmd_X (who mask : Mode) : run omode (addcmd 88 who EXEC mask) m =
    if Executable omode then m ||| (given who mask &&& EXEC) else m := rfl

def Op.clears : Op → Bool
  | .plus => false
  | _ => true

def Op.sets : Op → Bool
  | .minus => false
  | _ => true

theorem clears_eq (op : Op) :
    decide (int op.char = int MINUS ∨ int op.char = int EQ) = op.clears := by
  cases op <;> decide

theorem sets_eq (op : Op) :
    decide (int op.char = int PLUS ∨ int op.char = int EQ) = op.sets := by
  cases op <;> decide

theorem run_addcmd_copy (op : Op) (source : Class) :
    run omode (addcmd source.char who (int op.char) (~~~umask)) m =
      (Action.copy op source).meaning umask omode who m := by
  obtain ⟨c, hadd, happly, hclr, hset, hreached⟩ : ∃ c : BitCmd,
      addcmd source.char who (int op.char) (~~~umask) = [c] ∧
      apply omode c m = common c (source.value m) m ∧ c.cmd2.clr = op.clears ∧
      c.cmd2.set = op.sets ∧ ∀ v, reached c v = spread who umask v := by
    rw [← clears_eq, ← sets_eq]
    cases source
    all_goals
      refine ⟨_, rfl, rfl, rfl, rfl, fun v => ?_⟩
      simp only [reached, spread, decide_eq_true_eq]
  rw [hadd]
  show apply omode c m = _
  rw [happly, common_eq, hclr, hset, hreached, hreached]
  cases op <;> rfl

end Run

section Read

variable {E : Env} {s : Saved} {q : Local} {who : Mode} {rest : Str} {f : Mode → Mode → Mode}

def Local.after (q : Local) (ps : List Perm) : Local :=
  ps.foldl (fun q p => (permChar p.char q).getD q) q

theorem maySet_sticky (who : Mode) : MaySet (who ||| S_ISTXT) := by
  refine Or.inr fun hzero => ?_
  have hbit := congrArg (fun m : Mode => m.getLsbD 9) hzero
  simp at hbit

theorem permBits_cons (who : Mode) (p : Perm) (ps : List Perm) :
    permBits who (p :: ps) = p.bits who ||| permBits who ps := by
  have hstart : ∀ (ps : List Perm) (bits : Mode),
      ps.foldl (fun bits p => bits ||| p.bits who) bits = bits ||| permBits who ps := by
    intro ps
    induction ps with
    | nil => exact fun bits => (or_zero bits).symm
    | cons p ps ih =>
      intro bits
      rw [permBits, List.foldl_cons, List.foldl_cons, ih, ih, zero_or, BitVec.or_assoc]
  rw [permBits, List.foldl_cons, hstart, zero_or]

/-- That `t` adds the sticky bit to those that are meant makes no difference to what follows. -/
theorem permBits_sticky (h : MaySet who) (ps : List Perm) :
    permBits (who ||| S_ISTXT) ps = permBits who ps := by
  have hone : ∀ p : Perm, p.bits (who ||| S_ISTXT) = p.bits who := by
    intro p
    cases p
    all_goals first
      | rfl
      | rw [Perm.bits, Perm.bits, if_pos h, if_pos (maySet_sticky _)]
  induction ps with
  | nil => rfl
  | cons p ps ih => rw [permBits_cons, permBits_cons, hone, ih]

theorem after_eq (q : Local) (ps : List Perm) : q.after ps =
    ⟨meant q.who ps, q.perm ||| permBits q.who ps, if .X ∈ ps then EXEC else q.permXbits,
      q.equalopdone⟩ := by
  induction ps generalizing q with
  | nil =>
    have hnil : permBits q.who [] = 0 := rfl
    rw [meant, hnil, or_zero, if_neg (by simp), if_neg (by simp)]
    rfl
  | cons p ps ih =>
    have hstep : q.after (p :: ps) = ((permChar p.char q).getD q).after ps := rfl
    rw [hstep, ih, permBits_cons, meant, meant]
    cases p with
    | r => simp [permChar, Perm.char, Perm.bits, BitVec.or_assoc]
    | w => simp [permChar, Perm.char, Perm.bits, BitVec.or_assoc]
    | x => simp [permChar, Perm.char, Perm.bits, BitVec.or_assoc]
    | X => simp [permChar, Perm.char, Perm.bits]
    | s =>
      by_cases hset : MaySet q.who
      · simp [permChar, Perm.char, Perm.bits, hset, BitVec.or_assoc]
      · simp [permChar, Perm.char, Perm.bits, hset]
    | t =>
      by_cases hset : MaySet q.who
      · have hchar : (permChar Perm.t.char q).getD q =
            { q with who := q.who ||| S_ISTXT, perm := q.perm ||| S_ISTXT } := by
          simp [permChar, Perm.char, hset]
        have htwice : q.who ||| S_ISTXT ||| S_ISTXT = q.who ||| S_ISTXT := by
          rw [BitVec.or_assoc, BitVec.or_self]
        have hmeant : MaySet q.who ∧ Perm.t ∈ Perm.t :: ps := ⟨hset, List.mem_cons_self⟩
        rw [hchar]
        dsimp only
        rw [htwice, ite_self, permBits_sticky hset, if_pos hmeant, Perm.bits, if_pos hset,
          BitVec.or_assoc]
        simp
      · simp [permChar, Perm.char, Perm.bits, hset]

def Stops (rest : Str) : Prop :=
  ∀ c ∈ rest.head?, c = COMMA ∨ c = PLUS ∨ c = MINUS ∨ c = EQ

theorem permLoop_stops (h : Stops rest) (op : UInt8) (q : Local) (s : Saved) :
    permLoop E op rest q s = andThen (finish E op q s) fun t => .ok (some (rest, t)) := by
  cases rest with
  | nil => rfl
  | cons c rest =>
    have hc : permChar c q = none ∧ ¬ (c = 117 ∨ c = 103 ∨ c = 111) := by
      rcases h c rfl with rfl | rfl | rfl | rfl
      all_goals exact ⟨rfl, by decide⟩
    rw [permLoop, hc.1]
    dsimp only
    rw [if_neg hc.2]

theorem permLoop_perms (op : UInt8) (ps : List Perm) (rest : Str) (q : Local) (s : Saved) :
    permLoop E op (ps.map Perm.char ++ rest) q s = permLoop E op rest (q.after ps) s := by
  induction ps generalizing q with
  | nil => rfl
  | cons p ps ih =>
    have hstep : q.after (p :: ps) = ((permChar p.char q).getD q).after ps := rfl
    obtain ⟨q', hq'⟩ : ∃ q', permChar p.char q = some q' := by
      cases p <;> exact ⟨_, rfl⟩
    rw [List.map_cons, List.cons_append, permLoop, hq', hstep, hq', Option.getD_some]
    exact ih q'

structure Means (s : Saved) (f : Mode → Mode → Mode) : Prop where
  sound : Sound s
  run : ∀ omode m, run omode s.cmds m = f omode m

theorem meant_and (who : Mode) (ps : List Perm) (h : who &&& ~~~S_ISTXT = who) :
    meant who ps &&& ~~~S_ISTXT = who := by
  rw [meant]
  split
  · rw [← h]
    ext i hi
    simp only [BitVec.getElem_or, BitVec.getElem_and, BitVec.getElem_not]
    grind
  · exact h

theorem addcmd_zero (op : UInt8) (who mask m omode : Mode) (h : op = PLUS ∨ op = MINUS) :
    run omode (addcmd op who 0 mask) m = m := by
  rcases h with rfl | rfl
  · show m ||| (given who mask &&& 0) = m
    rw [and_zero, or_zero]
  · show m &&& ~~~(given who mask &&& 0) = m
    rw [and_zero, and_not_zero]

theorem run_finishCmds (op : Op) (ps : List Perm) (who m omode : Mode) (b : Bool)
    (hb : op = .equal → b = false) :
    run omode (finishCmds E op.char ((⟨who, 0, 0, b⟩ : Local).after ps)) m =
      (Action.perms op ps).meaning E.umask omode who m := by
  rw [after_eq, finishCmds, run_append]
  dsimp only
  have hfirst : run omode (if (0 ||| permBits who ps) ≠ 0 ∨ op.char = EQ ∧ b = false then
        addcmd op.char (meant who ps) (0 ||| permBits who ps) E.mask else []) m =
      run omode (addcmd op.char (meant who ps) (permBits who ps) E.mask) m := by
    rw [zero_or]
    split
    · rfl
    · next hnone =>
      rw [not_or, not_not] at hnone
      have hop : op.char = PLUS ∨ op.char = MINUS := by
        cases op with
        | plus => exact Or.inl rfl
        | minus => exact Or.inr rfl
        | equal => exact absurd ⟨rfl, hb rfl⟩ hnone.2
      rw [hnone.1]
      exact (addcmd_zero _ _ _ _ _ hop).symm
  rw [hfirst, run_addcmd_op]
  by_cases hX : Perm.X ∈ ps
  · rw [if_pos hX, if_pos (by decide), run_addcmd_X]
    by_cases hx : Executable omode
    · rw [if_pos hx]
      cases op <;> simp [Action.meaning, hX, hx, Env.mask]
    · rw [if_neg hx]
      cases op <;> simp [Action.meaning, hx, Env.mask]
  · rw [if_neg hX, if_neg (by simp)]
    cases op <;> simp [Action.meaning, hX, Env.mask, run]

theorem permLoop_action (a : Action) (hrest : Stops rest) (h : Means s f)
    (hwho : who &&& ~~~S_ISTXT = who) (b : Bool) (hb : a.op = .equal → b = false) :
    Gives E (fun t => t.1 = rest ∧ t.2.1.who &&& ~~~S_ISTXT = who ∧
        Means t.2.2 fun omode m => a.meaning E.umask omode who (f omode m))
      (permLoop E a.op.char (a.body ++ rest) ⟨who, 0, 0, b⟩ s) := by
  cases a with
  | perms op ps =>
    show Gives E _ (permLoop E op.char (ps.map Perm.char ++ rest) ⟨who, 0, 0, b⟩ s)
    rw [permLoop_perms, permLoop_stops hrest]
    refine (finish_gives h.sound _ _).andThen fun t ht => Gives.some ⟨rfl, ?_, ht.1, ?_⟩
    · show t.1.who &&& _ = _
      rw [ht.2.2, after_eq]
      exact meant_and who ps hwho
    · intro omode m
      show run omode t.2.cmds m = _
      rw [ht.2.1, run_append, h.run, run_finishCmds op ps who _ omode b hb]
  | copy op source =>
    have hcopy : permChar source.char ⟨who, 0, 0, b⟩ = none ∧
        (source.char = 117 ∨ source.char = 103 ∨ source.char = 111) := by
      cases source
      all_goals exact ⟨rfl, by decide⟩
    show Gives E _ (permLoop E op.char (source.char :: rest) ⟨who, 0, 0, b⟩ s)
    rw [permLoop, hcopy.1]
    dsimp only
    have hfirst : ¬ ((0 : Mode) ≠ 0) := by simp
    have hsecond : ¬ (op.char = PLUS ∧ (0 : Mode) ≠ 0) := by simp
    rw [if_pos hcopy.2, copyChar]
    simp only [if_neg hfirst, if_neg hsecond]
    have hadd := ADDCMD_gives (E := E) h.sound source.char who (int op.char)
    have hcopied : Gives E (fun t => t.1 = (⟨who, 0, 0, b || op.char = EQ⟩ : Local) ∧
        Means t.2 fun omode m => (Action.copy op source).meaning E.umask omode who (f omode m))
        (andThen (.ok (some s)) fun s => andThen (ADDCMD E s source.char who (int op.char)) fun s =>
          .ok (some ((⟨who, 0, 0, b || op.char = EQ⟩ : Local), s))) := by
      refine hadd.andThen fun s₁ h₁ => Gives.some ⟨rfl, h₁.1, fun omode m => ?_⟩
      rw [h₁.2, run_append, h.run]
      exact run_addcmd_copy op source
    refine hcopied.andThen fun t ht => ?_
    rw [ht.1, permLoop_stops hrest]
    have hdone : ¬ ((0 : Mode) ≠ 0 ∨ op.char = EQ ∧ (b || decide (op.char = EQ)) = false) := by
      rintro (hzero | ⟨hop, hflag⟩)
      · exact hzero rfl
      · rw [hop] at hflag
        simp at hflag
    rw [finish]
    dsimp only
    rw [if_neg hdone, finishX, if_neg (by simp)]
    exact Gives.some ⟨rfl, hwho, ht.2⟩

end Read

section Clauses

variable {E : Env} {s : Saved} {who who₀ : Mode} {rest : Str} {f : Mode → Mode → Mode}
  {Q : Saved → Prop}

theorem whoLoop_text (ws : List Who) (who : Mode) (op : Op) (rest : Str) :
    whoLoop (ws.map Who.char ++ op.char :: rest) who =
      (ws.foldl (fun bits w => bits ||| w.bits) who, op.char :: rest) := by
  induction ws generalizing who with
  | nil => cases op <;> rfl
  | cons w ws ih =>
    have hstep : whoLoop ((w :: ws).map Who.char ++ op.char :: rest) who =
        whoLoop (ws.map Who.char ++ op.char :: rest) (who ||| w.bits) := by
      cases w <;> rfl
    rw [hstep, ih, List.foldl_cons]

theorem whoBits_and (ws : List Who) : whoBits ws &&& ~~~S_ISTXT = whoBits ws := by
  have hstart : ∀ (ws : List Who) (bits : Mode), bits &&& ~~~S_ISTXT = bits →
      ws.foldl (fun bits w => bits ||| w.bits) bits &&& ~~~S_ISTXT =
        ws.foldl (fun bits w => bits ||| w.bits) bits := by
    intro ws
    induction ws with
    | nil => exact fun bits h => h
    | cons w ws ih =>
      intro bits h
      have hw : w.bits &&& ~~~S_ISTXT = w.bits := by
        cases w <;> decide
      have hboth : ∀ x y : Mode, (x ||| y) &&& ~~~S_ISTXT =
          (x &&& ~~~S_ISTXT) ||| (y &&& ~~~S_ISTXT) := by
        intro x y
        ext i hi
        simp only [BitVec.getElem_or, BitVec.getElem_and, BitVec.getElem_not]
        grind
      refine ih _ ?_
      rw [hboth, h, hw]
  exact hstart ws 0 (by decide)

theorem stops_actions (more : List Action) (h : ∀ c ∈ rest.head?, c = COMMA) :
    Stops (more.flatMap Action.text ++ rest) := by
  cases more with
  | nil => exact fun c hc => Or.inl (h c hc)
  | cons a more =>
    intro c hc
    have hop : c = a.op.char := (Option.some.inj hc).symm
    rw [hop]
    cases a.op
    · exact Or.inr (Or.inl rfl)
    · exact Or.inr (Or.inr (Or.inl rfl))
    · exact Or.inr (Or.inr (Or.inr rfl))

def goOn (E : Env) (n : ℕ) (rest : Str) (equalopdone : Bool) (s : Saved) :
    Except Stop (Option Saved) :=
  match rest with
  | [] => .ok (some s)
  | _ :: p => clauseLoop E n (whoLoop p 0).2 (whoLoop p 0).1 equalopdone s

theorem op_char (op : Op) :
    (op.char = PLUS ∨ op.char = MINUS ∨ op.char = EQ) ∧ op.char ≠ COMMA ∧
      (op.char = EQ → op = .equal) := by
  cases op
  · exact ⟨Or.inl rfl, by decide, fun h => absurd h (by decide)⟩
  · exact ⟨Or.inr (Or.inl rfl), by decide, fun h => absurd h (by decide)⟩
  · exact ⟨Or.inr (Or.inr rfl), by decide, fun _ => rfl⟩

theorem clauseLoop_actions (acts : List Action) (hne : acts ≠ [])
    (hrest : ∀ c ∈ rest.head?, c = COMMA) (n : ℕ) (b : Bool) (hwho : who &&& ~~~S_ISTXT = who₀)
    (h : Means s f) (hgo : ∀ b' s', Means s' (fun omode m =>
      acts.foldl (fun m a => a.meaning E.umask omode who₀ m) (f omode m)) →
      Gives E Q (goOn E n rest b' s')) :
    Gives E Q (clauseLoop E (n + acts.length) (acts.flatMap Action.text ++ rest) who b s) := by
  induction acts generalizing who s f b with
  | nil => exact absurd rfl hne
  | cons a more ih =>
    have hclean : who₀ &&& ~~~S_ISTXT = who₀ := by
      rw [← hwho, BitVec.and_assoc, BitVec.and_self]
    obtain ⟨hop, hcomma, hequal⟩ := op_char a.op
    have hone := permLoop_action (E := E) a (stops_actions more hrest) h hclean
      (if a.op.char = EQ then false else b) (fun heq => if_pos (by rw [heq]; rfl))
    have htext : (a :: more).flatMap Action.text ++ rest =
        a.op.char :: (a.body ++ (more.flatMap Action.text ++ rest)) := by
      rw [List.flatMap_cons, List.append_assoc]
      rfl
    rw [htext, List.length_cons, ← Nat.add_assoc, clauseLoop, if_pos hop, hwho]
    refine hone.andThen fun t ht => ?_
    obtain ⟨ht₁, htwho, hmeans⟩ := ht
    rw [ht₁]
    by_cases hnil : more = []
    · rw [hnil] at hgo ⊢
      rw [List.flatMap_nil, List.nil_append]
      have hnext := hgo t.2.1.equalopdone t.2.2 hmeans
      cases rest with
      | nil => exact hnext
      | cons c p =>
        have hc : c = COMMA := hrest c rfl
        have hno : ¬ c ≠ COMMA := not_not.mpr hc
        dsimp only
        rw [if_neg hno]
        exact hnext
    · have hnext := ih hnil t.2.1.equalopdone htwho hmeans hgo
      obtain ⟨a', more', rfl⟩ := List.exists_cons_of_ne_nil hnil
      rw [List.flatMap_cons, List.append_assoc] at hnext ⊢
      show Gives E Q (if a'.op.char ≠ COMMA then _ else _)
      rw [if_pos (op_char a'.op).2.1]
      exact hnext

def actionCount (cs : List Clause) : ℕ := (cs.map fun c => c.actions.length).sum

theorem clauseLoop_clauses (cs : List Clause) (hne : cs ≠ []) {steps : ℕ}
    (hsteps : actionCount cs ≤ steps) (b : Bool) (h : Means s f) :
    Gives E (fun s' => Means s' fun omode m =>
        cs.foldl (fun m c => c.meaning E.umask omode m) (f omode m))
      (clauseLoop E steps (whoLoop (textOf cs) 0).2 (whoLoop (textOf cs) 0).1 b s) := by
  induction cs generalizing s f b steps with
  | nil => exact absurd rfl hne
  | cons c cs ih =>
    have hcount : actionCount (c :: cs) = c.actions.length + actionCount cs := List.sum_cons
    obtain ⟨n, rfl⟩ : ∃ n, steps = n + c.actions.length := ⟨steps - c.actions.length, by omega⟩
    obtain ⟨rest, htext, hrest, hcomma⟩ : ∃ rest, textOf (c :: cs) =
        c.who.map Who.char ++ c.first.op.char :: (c.first.body ++
          (c.more.flatMap Action.text ++ rest)) ∧ (∀ d ∈ rest.head?, d = COMMA) ∧
        (cs = [] ∧ rest = [] ∨ cs ≠ [] ∧ rest = COMMA :: textOf cs) := by
      by_cases hnil : cs = []
      · refine ⟨[], ?_, fun d hd => absurd hd (by simp), Or.inl ⟨hnil, rfl⟩⟩
        rw [textOf, if_pos hnil, List.append_nil]
        rfl
      · refine ⟨COMMA :: textOf cs, ?_, fun d hd => (Option.some.inj hd).symm,
          Or.inr ⟨hnil, rfl⟩⟩
        rw [textOf, if_neg hnil, Clause.text, Clause.actions, List.flatMap_cons, Action.text]
        simp only [List.append_assoc, List.cons_append]
    have hactions : c.first.op.char :: (c.first.body ++ (c.more.flatMap Action.text ++ rest)) =
        c.actions.flatMap Action.text ++ rest := by
      rw [Clause.actions, List.flatMap_cons, Action.text]
      simp only [List.append_assoc, List.cons_append]
    rw [htext, whoLoop_text]
    dsimp only
    rw [hactions]
    refine clauseLoop_actions c.actions (List.cons_ne_nil _ _) hrest n b (whoBits_and c.who) h ?_
    intro b' s' hs'
    rcases hcomma with ⟨hnil, rfl⟩ | ⟨hmore, rfl⟩
    · rw [hnil]
      exact Gives.some hs'
    · exact ih hmore (by omega) b' hs'

theorem actionCount_le (cs : List Clause) : actionCount cs ≤ (textOf cs).length := by
  induction cs with
  | nil => exact Nat.le_refl 0
  | cons c cs ih =>
    have hone : ∀ acts : List Action, acts.length ≤ (acts.flatMap Action.text).length := by
      intro acts
      induction acts with
      | nil => exact Nat.le_refl 0
      | cons a acts ih =>
        rw [List.flatMap_cons, List.length_append, List.length_cons, Action.text, List.length_cons]
        omega
    have hactions := hone c.actions
    have hcount : actionCount (c :: cs) = c.actions.length + actionCount cs := List.sum_cons
    have htext : c.text.length = (c.who.map Who.char).length +
        (c.actions.flatMap Action.text).length := List.length_append
    rw [textOf]
    split
    · next hnil =>
      have hzero : actionCount [] = 0 := rfl
      rw [hcount, hnil, hzero]
      omega
    · rw [List.length_append, List.length_cons]
      omega

end Clauses

/-- With memory enough, the text of clauses becomes commands that make of every mode what the clauses
mean. -/
theorem setmode_means (E : Env) (cs : List Clause) (hne : cs ≠ [])
    (hmemory : ∀ n, E.memory n = true) : ∃ cmds, setmode E (textOf cs) = .ok (some cmds) ∧
      ∀ omode, getmode cmds omode = some (meaning E.umask omode cs) := by
  obtain ⟨c, p, htext, hdigit⟩ : ∃ c p, textOf cs = c :: p ∧ ¬ IsDigit c := by
    obtain ⟨k, cs, rfl⟩ := List.exists_cons_of_ne_nil hne
    have hhead : ∀ rest : Str, ∃ c p, k.text ++ rest = c :: p ∧ ¬ IsDigit c := by
      intro rest
      rw [Clause.text]
      cases k.who with
      | nil =>
        refine ⟨k.first.op.char, _, rfl, ?_⟩
        cases k.first.op <;> decide
      | cons w ws =>
        refine ⟨w.char, _, rfl, ?_⟩
        cases w <;> decide
    rw [textOf]
    split
    · have hfirst := hhead []
      rwa [List.append_nil] at hfirst
    · exact hhead _
  have hstart : Means ⟨[], 8, 1⟩ fun _ m => m := ⟨sound_start, fun _ _ => rfl⟩
  have hcount := actionCount_le cs
  rw [htext, List.length_cons] at hcount
  obtain ⟨t, ht, hP, hsome⟩ := clauseLoop_clauses (E := E) cs hne
    (show actionCount cs ≤ p.length + 2 by omega) false hstart
  obtain ⟨s, rfl⟩ := Option.ne_none_iff_exists'.mp (hsome hmemory)
  obtain ⟨hsound, hrun⟩ := hP s rfl
  obtain ⟨cmds, hcompress, hsame⟩ := compress_mode_keeps (s.cmds ++ [⟨.stop, {}, 0⟩])
    ⟨_, List.mem_append_right _ (List.mem_singleton_self _), rfl⟩
  refine ⟨cmds, ?_, fun omode => ?_⟩
  · rw [htext, setmode, if_neg (by rw [hmemory]; decide), if_neg hdigit, ← htext]
    dsimp only
    rw [ht, andThen, Saved.ended_ok hsound, ok_bind, hcompress, ok_bind]
  · rw [hsame, getmode, getmodeLoop_run hsound.open_, hrun]
    rfl

/-- `"u=rw,go-w,+X"` for a directory, the `umask` being 022. -/
theorem setmode_means_demo : ∃ cmds,
    setmode ⟨0o022, fun _ => true⟩ (textOf [⟨[.u], .perms .equal [.r, .w], []⟩,
      ⟨[.g, .o], .perms .minus [.w], []⟩, ⟨[], .perms .plus [.X], []⟩]) = .ok (some cmds) ∧
    ∀ omode, getmode cmds omode = some (meaning 0o022 omode [⟨[.u], .perms .equal [.r, .w], []⟩,
      ⟨[.g, .o], .perms .minus [.w], []⟩, ⟨[], .perms .plus [.X], []⟩]) :=
  setmode_means ⟨0o022, fun _ => true⟩ _ (by simp) (fun _ => rfl)

end Mintlib.Setmode
