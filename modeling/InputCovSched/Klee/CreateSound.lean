import InputCovSched.Klee.Denotes
import InputCovSched.Klee.Weight

/-!
# And, Or, Eq, Add, Sub and Xor keep the value

The rewritings of `create` one by one. The only one that can fail is in `EqExpr_create`: a sum
is found unequal to its term whatever the constant is, so its rule asks that the constant is
not 0 (`addsZero`). `NoZeroSum` is what the other functions need of their operands for that.
-/

namespace InputCovSched.Klee

open Klee.Expr
open BitVec (ofBool setWidth_eq)

variable {S : Env → Prop} {e l r c t : Expr} {w : Nat} {f g : Env → BitVec w} {op : BinaryOp}
  {ρ : Env}

/-! ## And, Or -/

lemma andPartial_denotes (hl : Denotes S l w f) (v : BitVec w) :
    Denotes S (andPartial w v l) w fun ρ => f ρ &&& v := by
  unfold andPartial
  split
  · next hv => exact hl.congr fun ρ _ => by rw [hv, BitVec.and_allOnes]
  split
  · next hv => exact (Denotes.constant hl.width_pos v).congr fun ρ _ => by simp [hv]
  · exact hl.binary .and (.constant hl.width_pos v)

lemma orPartial_denotes (hl : Denotes S l w f) (v : BitVec w) :
    Denotes S (orPartial w v l) w fun ρ => f ρ ||| v := by
  unfold orPartial
  split
  · next hv =>
    exact (Denotes.constant hl.width_pos v).congr fun ρ _ => by rw [hv, BitVec.or_allOnes]
  split
  · next hv => exact hl.congr fun ρ _ => by simp [hv]
  · exact hl.binary .or (.constant hl.width_pos v)

structure Absorbs (op : BinaryOp) (n : BitVec 1) : Prop where
  assoc : ∀ x y z : BitVec 1, op.apply (op.apply x y) z = op.apply x (op.apply y z)
  comm : ∀ x y : BitVec 1, op.apply x y = op.apply y x
  idem : ∀ x : BitVec 1, op.apply x x = x
  negation : ∀ x : BitVec 1, op.apply (~~~ x) x = n
  bound : ∀ x : BitVec 1, op.apply x n = n

lemma absorbs_and : Absorbs .and 0 := by
  constructor <;> decide

lemma absorbs_or : Absorbs .or 1 := by
  constructor <;> decide

lemma naryTerms_apply (hop : Absorbs op n) (r t : Expr)
    {g : Env → BitVec 1} (hr : Denotes S r 1 g) (ht : t ∈ r.naryTerms op) :
    ∀ ρ, S ρ → op.apply (t.eval ρ 1) (g ρ) = g ρ := by
  intro ρ hρ
  fun_induction Expr.naryTerms op r generalizing g with
  | case1 a b ih =>
    obtain ⟨ha, hb, hg⟩ := hr.binary_inv
    rcases List.mem_cons.1 ht with rfl | ht
    · rw [hg ρ hρ, ← hop.assoc, hop.idem]
    · rw [hg ρ hρ, ← hop.assoc, hop.comm (t.eval ρ 1), hop.assoc, ih hb ht]
  | case2 | case3 =>
    obtain rfl := List.mem_singleton.1 ht
    rw [hr.value ρ hρ, hop.idem]

lemma isNegationPartial_value (l r : Expr) (ρ : Env) (h : isNegationPartial l r = true) :
    l.eval ρ 1 = ~~~ r.eval ρ 1 := by
  rw [isNegationPartial, beq_iff_eq] at h
  subst h
  have hbits : ∀ x : BitVec 1, ofBool ((0 : BitVec 1) == x) = ~~~ x := by decide
  exact hbits (r.eval ρ 1)

lemma isNegation_value {f : Env → BitVec 1} (hl : Denotes S l 1 f)
    (h : isNegation l t = true) (hρ : S ρ) : f ρ = ~~~ t.eval ρ 1 := by
  rw [← hl.value ρ hρ]
  rw [isNegation, Bool.or_eq_true] at h
  rcases h with h | h
  · exact isNegationPartial_value l t ρ h
  · rw [isNegationPartial_value t l ρ h, BitVec.not_not]

section
variable (hl : Denotes S l w f) (hr : Denotes S r w g)
include hl hr

lemma absorbCreate_denotes {n : BitVec 1} (hop : Absorbs op n)
    (hneg : Denotes S neg 1 fun _ => n) :
    Denotes S (absorbCreate op neg l r) w fun ρ => op.apply (f ρ) (g ρ) := by
  unfold absorbCreate
  split
  · next hw =>
    obtain rfl : w = 1 := hl.width.symm.trans hw
    cases habs : absorb op neg l r with
    | none => exact hl.binary op hr
    | some e =>
      obtain ⟨t, ht, hdec⟩ := List.exists_of_findSome?_eq_some habs
      have hval := naryTerms_apply hop r t hr ht
      split at hdec
      · -- the term is l: r alone
        next hlt =>
        cases hdec
        refine hr.congr fun ρ hρ => ?_
        rw [← hl.value ρ hρ, hlt, hval ρ hρ]
      split at hdec
      · next hn =>
        cases hdec
        refine hneg.congr fun ρ hρ => ?_
        rw [← hval ρ hρ, isNegation_value hl hn hρ, ← hop.assoc, hop.negation, hop.comm, hop.bound]
      · cases hdec
  · exact hl.binary op hr

lemma andCreate_denotes : Denotes S (andCreate l r) w fun ρ => f ρ &&& g ρ := by
  fun_induction andCreate l r generalizing f g with
  | case1 a b r ihb iha =>
    obtain ⟨ha, hb, hf⟩ := hl.binary_inv
    refine bcreateR_denotes hl hr (fun v => ?_) (andPartial_denotes hl) ?_
    · exact (andPartial_denotes hr v).congr fun ρ _ => BitVec.and_comm _ _
    · refine (iha _ ha (ihb _ hb hr)).congr fun ρ hρ => ?_
      rw [hf ρ hρ]
      exact (BitVec.and_assoc _ _ _).symm
  | case2 l r =>
    refine bcreateR_denotes hl hr (fun v => ?_) (andPartial_denotes hl)
      (absorbCreate_denotes hl hr absorbs_and .falseExpr)
    exact (andPartial_denotes hr v).congr fun ρ _ => BitVec.and_comm _ _

lemma orCreate_denotes : Denotes S (orCreate l r) w fun ρ => f ρ ||| g ρ := by
  fun_induction orCreate l r generalizing f g with
  | case1 a b r ihb iha =>
    obtain ⟨ha, hb, hf⟩ := hl.binary_inv
    refine bcreateR_denotes hl hr (fun v => ?_) (orPartial_denotes hl) ?_
    · exact (orPartial_denotes hr v).congr fun ρ _ => BitVec.or_comm _ _
    · refine (iha _ ha (ihb _ hb hr)).congr fun ρ hρ => ?_
      rw [hf ρ hρ]
      exact (BitVec.or_assoc _ _ _).symm
  | case2 l r =>
    refine bcreateR_denotes hl hr (fun v => ?_) (orPartial_denotes hl)
      (absorbCreate_denotes hl hr absorbs_or .trueExpr)
    exact (orPartial_denotes hr v).congr fun ρ _ => BitVec.or_comm _ _

end

/-! ## Eq -/

def addsZero (l r : Expr) : Bool :=
  match l with
  | binary .add (constant _ k) x => k == 0 && x == r
  | _ => false

/-- At every node that is reached by operands. -/
def Expr.EveryNode (P : Expr → Prop) : Expr → Prop
  | constant w v => P (constant w v)
  | notOptimized e => P (notOptimized e) ∧ e.EveryNode P
  | read updates index => P (read updates index) ∧ index.EveryNode P
  | select c t f => P (select c t f) ∧ c.EveryNode P ∧ t.EveryNode P ∧ f.EveryNode P
  | concat l r => P (concat l r) ∧ l.EveryNode P ∧ r.EveryNode P
  | extract e offset w => P (extract e offset w) ∧ e.EveryNode P
  | zext e w => P (zext e w) ∧ e.EveryNode P
  | sext e w => P (sext e w) ∧ e.EveryNode P
  | .not e => P (.not e) ∧ e.EveryNode P
  | binary op l r => P (binary op l r) ∧ l.EveryNode P ∧ r.EveryNode P
  | .cmp op l r => P (.cmp op l r) ∧ l.EveryNode P ∧ r.EveryNode P
  | implies l r => P (implies l r) ∧ l.EveryNode P ∧ r.EveryNode P
  | qvar name w => P (qvar name w)
  | all name w e => P (all name w e) ∧ e.EveryNode P

lemma Expr.EveryNode.here {P : Expr → Prop} {e : Expr} (h : e.EveryNode P) : P e := by
  cases e <;> first | exact h | exact h.1

/-- Not the sum of two boolean zeros. -/
def NoZeroSum (e : Expr) : Prop := e ≠ binary .add (constant 1 0) (constant 1 0)

lemma addsZero_inv (h : addsZero l r = true) : ∃ n, l = binary .add (constant n 0) r := by
  unfold addsZero at h
  split at h
  · rw [Bool.and_eq_true, beq_iff_eq, beq_iff_eq] at h
    obtain ⟨rfl, rfl⟩ := h
    exact ⟨_, rfl⟩
  · cases h

lemma isNeq_value (hl : Denotes S l w f) (hr : Denotes S r w g) (h : isNeq l r = true)
    (hz : addsZero l r = false) (hρ : S ρ) : f ρ ≠ g ρ := by
  unfold isNeq at h
  split at h
  · next k x =>
    rw [Bool.and_eq_true, beq_iff_eq] at h
    obtain ⟨hk, rfl⟩ := h
    cases k with
    | constant n v =>
      obtain ⟨hv, -, hf⟩ := hl.binary_inv
      obtain ⟨rfl, -⟩ := hv.constant_inv
      have hne : v ≠ 0 := by simpa [addsZero] using hz
      have hsum : f ρ = v + g ρ := by
        rw [hf ρ hρ, hr.value ρ hρ, eval, setWidth_eq]
        rfl
      rw [hsum]
      exact fun heq => hne (add_eq_right.1 heq)
    | _ => cases hk
  · cases h

lemma eqAlloc_denotes (hl : Denotes S l w f) (hr : Denotes S r w g) (hlr : addsZero l r = false)
    (hrl : addsZero r l = false) :
    Denotes S (eqAlloc l r) 1 fun ρ => ofBool (f ρ == g ρ) := by
  unfold eqAlloc
  split
  · next heq =>
    subst heq
    refine Denotes.trueExpr.congr fun ρ hρ => ?_
    rw [← hl.value ρ hρ, ← hr.value ρ hρ, beq_self_eq_true]
    rfl
  split
  · next hn =>
    refine Denotes.falseExpr.congr fun ρ hρ => ?_
    have hne : f ρ ≠ g ρ := by
      rcases Bool.or_eq_true _ _ ▸ hn with hn | hn
      · exact isNeq_value hl hr hn hlr hρ
      · exact (isNeq_value hr hl hn hrl hρ).symm
    rw [beq_false_of_ne hne]
    rfl
  · exact hl.cmp .eq hr

lemma eqAlloc_constant_denotes (hr : Denotes S r w g) {v : BitVec w}
    (hz : ∀ n, r ≠ binary .add (constant n 0) (constant w v)) :
    Denotes S (eqAlloc (constant w v) r) 1 fun ρ => ofBool (v == g ρ) := by
  refine eqAlloc_denotes (Denotes.constant hr.width_pos v) hr rfl (Bool.eq_false_iff.2 fun h => ?_)
  obtain ⟨n, heq⟩ := addsZero_inv h
  exact hz n heq

/-- The one sum that a test of a boolean for 0 takes for a difference. -/
lemma NoZeroSum.ne_sum {g : Env → BitVec 1} (hz : NoZeroSum r) (hr : Denotes S r 1 g) {v : BitVec 1}
    (hv : ¬ isTrueBits v = true) (n : Nat) : r ≠ binary .add (constant n 0) (constant 1 v) := by
  rintro rfl
  obtain ⟨rfl, -⟩ := hr.binary_inv.1.constant_inv
  have hzero : ∀ v : BitVec 1, ¬ isTrueBits v = true → v = 0 := by decide
  exact hz (by rw [hzero v hv])

section Bits

variable {m n : Nat} {extend : BitVec m → BitVec n}

lemma setWidth_signExtend (h : m ≤ n) (x : BitVec m) : (x.signExtend n).setWidth m = x := by
  ext i hi
  rw [BitVec.getElem_setWidth, BitVec.getLsbD_signExtend]
  simp [hi, hi.trans_le h]

lemma setWidth_setWidth_self (h : m ≤ n) (x : BitVec m) : (x.setWidth n).setWidth m = x := by
  rw [BitVec.setWidth_setWidth (by omega), setWidth_eq]

lemma beq_extend (hinv : ∀ x, (extend x).setWidth m = x) {v : BitVec n}
    (hv : v = extend (v.setWidth m)) (x : BitVec m) : (v == extend x) = (v.setWidth m == x) := by
  rw [Bool.eq_iff_iff, beq_iff_eq, beq_iff_eq]
  constructor
  · rintro rfl
    exact hinv x
  · rintro rfl
    exact hv

lemma beq_extend_false (hinv : ∀ x, (extend x).setWidth m = x) {v : BitVec n}
    (hv : v ≠ extend (v.setWidth m)) (x : BitVec m) : (v == extend x) = false := by
  refine beq_false_of_ne ?_
  rintro rfl
  exact hv (by rw [hinv])

end Bits

lemma zeroTest_denotes {g : Env → BitVec 1} (hr : Denotes S r 1 g)
    (hz : Denotes S (eqPartialR r.width 0 r) 1 fun ρ => ofBool (0 == r.eval ρ r.width)) :
    Denotes S (match r.asConstant with
      | some ⟨_, v⟩ => boolExpr (v == 0)
      | none => eqPartialR r.width 0 r) 1 fun ρ => ~~~ g ρ := by
  have hbits : ∀ x : BitVec 1, ofBool (0 == x) = ~~~ x := by decide
  split
  · next hc =>
    obtain ⟨rfl, hg⟩ := hr.asConstant_some hc
    refine (Denotes.boolExpr _).congr fun ρ hρ => ?_
    rw [hg ρ hρ, setWidth_eq, ← hbits, Bool.beq_comm]
  · refine hz.congr fun ρ hρ => ?_
    rw [← hr.value ρ hρ, ← hbits, hr.width]

lemma eqPartialR_denotes (hr : Denotes S r w g) (hz : r.EveryNode NoZeroSum) (v : BitVec w) :
    Denotes S (eqPartialR w v r) 1 fun ρ => ofBool (v == g ρ) := by
  have hbits : ∀ v x : BitVec 1, isTrueBits v = true → x = ofBool (v == x) := by decide
  have hbits' : ∀ v x : BitVec 1, ¬ isTrueBits v = true → ~~~ x = ofBool (v == x) := by
    decide
  fun_induction eqPartialR w v r with
  | case1 r v hv => exact hr.congr fun ρ _ => hbits v _ hv
  | case2 a v hv =>
    -- 0 == (0 == A)
    obtain ⟨-, ha, hg⟩ := hr.cmp_inv
    refine ha.congr fun ρ hρ => ?_
    rw [← hbits' v _ hv, hg ρ hρ]
    have hnot : ∀ x : BitVec 1, x = ~~~ ofBool (CmpOp.eq.holds 0 x) := by decide
    exact hnot _
  | case4 a b v hv iha ihb =>
    obtain ⟨ha, hb, hg⟩ := hr.binary_inv
    obtain ⟨-, hza, hzb⟩ := hz
    refine (andCreate_denotes (zeroTest_denotes ha (iha ha.typed.denotes hza))
      (zeroTest_denotes hb (ihb hb.typed.denotes hzb))).congr fun ρ hρ => ?_
    rw [← hbits' v _ hv, hg ρ hρ]
    exact BitVec.not_or.symm
  | case6 w v hw src n trunc hv m u =>
    rename_i hc
    obtain ⟨hsrc, hle, hg⟩ := hr.sext_inv
    obtain ⟨rfl, hval⟩ := hsrc.denotes.asConstant_some hc
    refine (Denotes.boolExpr _).congr fun ρ hρ => ?_
    rw [hg ρ hρ, beq_extend (setWidth_signExtend hle) hv, hval ρ hρ, Bool.beq_comm]
  | case7 w v hw src n trunc hv hc =>
    rename_i ih
    obtain ⟨hsrc, hle, hg⟩ := hr.sext_inv
    refine (ih hsrc.denotes hz.2).congr fun ρ hρ => ?_
    rw [hg ρ hρ, beq_extend (setWidth_signExtend hle) hv]
  | case8 w v hw src n trunc =>
    rename_i hv
    obtain ⟨hsrc, hle, hg⟩ := hr.sext_inv
    refine Denotes.falseExpr.congr fun ρ hρ => ?_
    rw [hg ρ hρ, beq_extend_false (setWidth_signExtend hle) hv]
    rfl
  | case9 w v hw src n trunc hv m u =>
    rename_i hc
    obtain ⟨hsrc, hle, hg⟩ := hr.zext_inv
    obtain ⟨rfl, hval⟩ := hsrc.denotes.asConstant_some hc
    refine (Denotes.boolExpr _).congr fun ρ hρ => ?_
    rw [hg ρ hρ, beq_extend (setWidth_setWidth_self hle) hv, hval ρ hρ, Bool.beq_comm]
  | case10 w v hw src n trunc hv hc =>
    rename_i ih
    obtain ⟨hsrc, hle, hg⟩ := hr.zext_inv
    refine (ih hsrc.denotes hz.2).congr fun ρ hρ => ?_
    rw [hg ρ hρ, beq_extend (setWidth_setWidth_self hle) hv]
  | case11 w v hw src n trunc =>
    rename_i hv
    obtain ⟨hsrc, hle, hg⟩ := hr.zext_inv
    refine Denotes.falseExpr.congr fun ρ hρ => ?_
    rw [hg ρ hρ, beq_extend_false (setWidth_setWidth_self hle) hv]
    rfl
  | case12 w v hw n k b ih =>
    obtain ⟨hk, hb, hg⟩ := hr.binary_inv
    refine (ih hb hz.2.2).congr fun ρ hρ => ?_
    rw [hg ρ hρ]
    congr 1
    rw [Bool.eq_iff_iff, beq_iff_eq, beq_iff_eq]
    exact sub_eq_iff_eq_add'
  | case13 w v hw n k b ih =>
    obtain ⟨hk, hb, hg⟩ := hr.binary_inv
    refine (ih hb hz.2.2).congr fun ρ hρ => ?_
    rw [hg ρ hρ]
    congr 1
    rw [Bool.eq_iff_iff, beq_iff_eq, beq_iff_eq, sub_eq_iff_eq_add', eq_comm]
    exact eq_sub_iff_add_eq.symm
  | case3 =>
    refine eqAlloc_constant_denotes hr fun n heq => ?_
    cases heq
  | case5 r _ _ v hv => exact eqAlloc_constant_denotes hr (hz.here.ne_sum hr hv)
  | case14 w v hw r _ _ hadd => exact eqAlloc_constant_denotes hr fun n heq => hadd n 0 _ heq

lemma eqCreate_denotes_of (hl : Denotes S l w f) (hr : Denotes S r w g)
    (hzl : l.EveryNode NoZeroSum) (hzr : r.EveryNode NoZeroSum)
    (hsum : l.asConstant = none → r.asConstant = none →
      addsZero l r = false ∧ addsZero r l = false) :
    Denotes S (eqCreate l r) 1 fun ρ => ofBool (f ρ == g ρ) := by
  unfold eqCreate
  split
  · next ha hb =>
    obtain ⟨rfl, hf⟩ := hl.asConstant_some ha
    obtain ⟨rfl, hg⟩ := hr.asConstant_some hb
    refine (Denotes.boolExpr _).congr fun ρ hρ => ?_
    rw [hf ρ hρ, hg ρ hρ]
    simp only [CmpOp.holds, setWidth_eq]
  · next ha _ =>
    obtain ⟨rfl, hf⟩ := hl.asConstant_some ha
    refine (eqPartialR_denotes hr hzr _).congr fun ρ hρ => ?_
    rw [hf ρ hρ, setWidth_eq]
  · next hb =>
    obtain ⟨rfl, hg⟩ := hr.asConstant_some hb
    refine (eqPartialR_denotes hl hzl _).congr fun ρ hρ => ?_
    rw [hg ρ hρ, setWidth_eq, Bool.beq_comm]
  · next ha hb => exact eqAlloc_denotes hl hr (hsum ha hb).1 (hsum ha hb).2

lemma eqCreate_denotes (hl : Denotes S l w f) (hr : Denotes S r w g)
    (hzl : l.EveryNode NoZeroSum) (hzr : r.EveryNode NoZeroSum) (hlr : addsZero l r = false)
    (hrl : addsZero r l = false) :
    Denotes S (eqCreate l r) 1 fun ρ => ofBool (f ρ == g ρ) :=
  eqCreate_denotes_of hl hr hzl hzr fun _ _ => ⟨hlr, hrl⟩

lemma createIsZero_denotes (he : Denotes S e w f) (hz : e.EveryNode NoZeroSum) :
    Denotes S (createIsZero e) 1 fun ρ => ofBool (f ρ == 0) := by
  obtain rfl := he.width
  exact eqCreate_denotes_of he (.constant he.width_pos 0) hz
    (nofun : EveryNode NoZeroSum (constant e.width 0)) fun _ hc => nomatch hc

lemma createIsZero_bool {f : Env → BitVec 1} (he : Denotes S e 1 f)
    (hz : e.EveryNode NoZeroSum) : Denotes S (createIsZero e) 1 fun ρ => ~~~ f ρ := by
  refine (createIsZero_denotes he hz).congr fun ρ _ => ?_
  have hbits : ∀ x : BitVec 1, ofBool (x == 0) = ~~~ x := by decide
  exact hbits (f ρ)

/-! ## Add, Sub, Mul, Xor -/

lemma xorPartialR_denotes (hr : Denotes S r w g) (hz : w = 1 → r.EveryNode NoZeroSum)
    (v : BitVec w) : Denotes S (xorPartialR w v r) w fun ρ => v ^^^ g ρ := by
  unfold xorPartialR
  split
  · next hv => exact hr.congr fun ρ _ => by simp [hv]
  split
  · next hne hw =>
    subst hw
    refine (eqPartialR_denotes hr (hz rfl) 0).congr fun ρ _ => ?_
    have hbits : ∀ v x : BitVec 1, v ≠ 0 → ofBool (0 == x) = v ^^^ x := by decide
    exact hbits v (g ρ) hne
  · exact (Denotes.constant hr.width_pos v).binary .xor hr

lemma xorCreate_denotes (hl : Denotes S l w f) (hr : Denotes S r w g)
    (hzl : l.EveryNode NoZeroSum) (hzr : r.EveryNode NoZeroSum) :
    Denotes S (xorCreate l r) w fun ρ => f ρ ^^^ g ρ :=
  bcreateR_denotes hl hr (xorPartialR_denotes hr fun _ => hzr)
    (fun v => (xorPartialR_denotes hl (fun _ => hzl) v).congr fun _ _ => BitVec.xor_comm _ _)
    (hl.binary .xor hr)

lemma add_bool (x y : BitVec 1) : x + y = x ^^^ y := by decide +revert

lemma sub_bool (x y : BitVec 1) : x - y = x ^^^ y := by decide +revert

lemma addConst_of (hr : Denotes S r w g) (v : BitVec w)
    (h : Denotes S (addPartialR w v r) w fun ρ => v + g ρ) :
    Denotes S (addConst w v r) w fun ρ => v + g ρ := by
  unfold addConst
  split
  · next hc =>
    obtain ⟨rfl, hg⟩ := hr.asConstant_some hc
    exact (Denotes.constant hr.width_pos _).congr fun ρ hρ => by rw [hg ρ hρ]
  · exact h

lemma subConst_of (hr : Denotes S r w g) (v : BitVec w)
    (h : Denotes S (subPartialR w v r) w fun ρ => v - g ρ) :
    Denotes S (subConst w v r) w fun ρ => v - g ρ := by
  unfold subConst
  split
  · next hc =>
    obtain ⟨rfl, hg⟩ := hr.asConstant_some hc
    exact (Denotes.constant hr.width_pos _).congr fun ρ hρ => by rw [hg ρ hρ]
  · exact h

lemma sum_inv (hr : Denotes S (binary op (constant n k) x) w g) :
    n = w ∧ Denotes S x w (x.eval · w) ∧ ∀ ρ, S ρ → g ρ = op.apply (k.setWidth w) (x.eval ρ w) :=
  ⟨hr.binary_inv.1.width, hr.binary_inv.2⟩

lemma partialR_denotes (n : Nat) (hn : r.size ≤ n) (hr : Denotes S r w g)
    (hz : w = 1 → r.EveryNode NoZeroSum) (v : BitVec w) :
    (Denotes S (addPartialR w v r) w fun ρ => v + g ρ) ∧
      Denotes S (subPartialR w v r) w fun ρ => v - g ρ := by
  induction n generalizing r g v with
  | zero => cases r <;> simp [Expr.size] at hn
  | succ n ih =>
    have hrec : ∀ {op : BinaryOp} {m : Nat} {k : BitVec m} {x : Expr},
        r = binary op (constant m k) x → w ≠ 1 → ∀ v : BitVec w,
          (Denotes S (addConst w v x) w fun ρ => v + x.eval ρ w) ∧
            Denotes S (subConst w v x) w fun ρ => v - x.eval ρ w := by
      rintro op m k x rfl hw v
      obtain ⟨-, hx, -⟩ := sum_inv hr
      have hsize : x.size ≤ n := by rw [Expr.size] at hn; omega
      obtain ⟨hadd, hsub⟩ := ih hsize hx (absurd · hw) v
      exact ⟨addConst_of hx v hadd, subConst_of hx v hsub⟩
    constructor
    · rw [addPartialR.eq_def]
      split
      · next hw =>
        subst hw
        exact (xorPartialR_denotes hr hz v).congr fun ρ _ => (add_bool _ _).symm
      split
      · next hv => exact hr.congr fun ρ _ => by simp [hv]
      split
      · next hw _ _ m k x =>
        refine (hrec rfl hw _).1.congr fun ρ hρ => ?_
        rw [(sum_inv hr).2.2 ρ hρ]
        exact add_assoc _ _ _
      · next hw _ _ m k x =>
        refine (hrec rfl hw _).2.congr fun ρ hρ => ?_
        rw [(sum_inv hr).2.2 ρ hρ]
        exact add_sub_assoc _ _ _
      · exact (Denotes.constant hr.width_pos v).binary .add hr
    · rw [subPartialR.eq_def]
      split
      · next hw =>
        subst hw
        exact (xorPartialR_denotes hr hz v).congr fun ρ _ => (sub_bool _ _).symm
      split
      · next hw _ m k x =>
        refine (hrec rfl hw _).2.congr fun ρ hρ => ?_
        rw [(sum_inv hr).2.2 ρ hρ]
        exact sub_sub _ _ _
      · next hw _ m k x =>
        refine (hrec rfl hw _).1.congr fun ρ hρ => ?_
        rw [(sum_inv hr).2.2 ρ hρ]
        exact sub_add _ _ _
      · exact (Denotes.constant hr.width_pos v).binary .sub hr

section
variable (hr : Denotes S r w g) (hz : w = 1 → r.EveryNode NoZeroSum) (v : BitVec w)
include hr hz v

lemma addPartialR_denotes : Denotes S (addPartialR w v r) w fun ρ => v + g ρ :=
  (partialR_denotes r.size le_rfl hr hz v).1

lemma addConst_denotes : Denotes S (addConst w v r) w fun ρ => v + g ρ :=
  addConst_of hr v (addPartialR_denotes hr hz v)

lemma subConst_denotes : Denotes S (subConst w v r) w fun ρ => v - g ρ :=
  subConst_of hr v (partialR_denotes r.size le_rfl hr hz v).2

end

lemma subByConst_denotes (hl : Denotes S l w f) (hz : w = 1 → l.EveryNode NoZeroSum)
    (v : BitVec w) : Denotes S (subByConst l w v) w fun ρ => f ρ - v := by
  unfold subByConst
  split
  · next hc =>
    obtain ⟨rfl, hf⟩ := hl.asConstant_some hc
    refine (Denotes.constant hl.width_pos _).congr fun ρ hρ => ?_
    simp only [hf ρ hρ, setWidth_eq]
  · refine (addPartialR_denotes hl hz _).congr fun ρ _ => ?_
    rw [zero_sub, neg_add_eq_sub]

lemma addSub_denotes (n : Nat) (hn : l.size + r.size ≤ n) (hl : Denotes S l w f)
    (hr : Denotes S r w g) (hzl : w = 1 → l.EveryNode NoZeroSum)
    (hzr : w = 1 → r.EveryNode NoZeroSum) :
    (Denotes S (addCreate l r) w fun ρ => f ρ + g ρ) ∧
      Denotes S (subCreate l r) w fun ρ => f ρ - g ρ := by
  induction n generalizing l r f g with
  | zero => cases l <;> simp [Expr.size] at hn
  | succ n ih =>
    have hleft : ∀ {op m} {k : BitVec m} {a : Expr}, l = binary op (constant m k) a → w ≠ 1 →
        m = w ∧ (∀ ρ, S ρ → f ρ = op.apply (k.setWidth w) (a.eval ρ w)) ∧
          ((Denotes S (addCreate a r) w fun ρ => a.eval ρ w + g ρ) ∧
            Denotes S (subCreate a r) w fun ρ => a.eval ρ w - g ρ) ∧
          Denotes S (subCreate r a) w fun ρ => g ρ - a.eval ρ w := by
      rintro op m k a rfl hw
      obtain ⟨rfl, ha, hf⟩ := sum_inv hl
      rw [Expr.size] at hn
      exact ⟨rfl, hf, ih (by omega) ha hr (absurd · hw) (absurd · hw),
        (ih (by omega) hr ha (absurd · hw) (absurd · hw)).2⟩
    have hright : ∀ {op m} {k : BitVec m} {b : Expr}, r = binary op (constant m k) b → w ≠ 1 →
        m = w ∧ (∀ ρ, S ρ → g ρ = op.apply (k.setWidth w) (b.eval ρ w)) ∧
          (Denotes S (addCreate l b) w fun ρ => f ρ + b.eval ρ w) ∧
            Denotes S (subCreate l b) w fun ρ => f ρ - b.eval ρ w := by
      rintro op m k b rfl hw
      obtain ⟨rfl, hb, hg⟩ := sum_inv hr
      simp only [Expr.size] at hn
      exact ⟨rfl, hg, ih (by omega) hl hb (absurd · hw) (absurd · hw)⟩
    constructor
    · rw [addCreate.eq_def]
      split
      · next hc =>
        obtain ⟨rfl, hf⟩ := hl.asConstant_some hc
        refine (addConst_denotes hr hzr _).congr fun ρ hρ => ?_
        rw [hf ρ hρ, setWidth_eq]
      · next hc =>
        obtain ⟨rfl, hg⟩ := hr.asConstant_some hc
        refine (addPartialR_denotes hl hzl _).congr fun ρ hρ => ?_
        rw [hg ρ hρ, setWidth_eq, add_comm]
      split
      · next hw =>
        obtain rfl : w = 1 := hl.width.symm.trans hw
        exact (hl.binary .xor hr).congr fun ρ _ => (add_bool _ _).symm
      next hw =>
      replace hw : w ≠ 1 := fun h => hw (hl.width.trans h)
      split
      · obtain ⟨rfl, hf, hrec, -⟩ := hleft rfl hw
        refine (addConst_denotes hrec.1 (absurd · hw) _).congr fun ρ hρ => ?_
        rw [hf ρ hρ, setWidth_eq]
        exact (add_assoc _ _ _).symm
      · obtain ⟨rfl, hf, -, hrec⟩ := hleft rfl hw
        refine (addConst_denotes hrec (absurd · hw) _).congr fun ρ hρ => ?_
        rw [hf ρ hρ, setWidth_eq]
        exact (add_sub_assoc _ _ _).symm.trans (sub_add_eq_add_sub _ _ _).symm
      · obtain ⟨rfl, hg, hrec, -⟩ := hright rfl hw
        refine (addConst_denotes hrec (absurd · hw) _).congr fun ρ hρ => ?_
        rw [hg ρ hρ, setWidth_eq]
        exact add_left_comm _ _ _
      · obtain ⟨rfl, hg, -, hrec⟩ := hright rfl hw
        refine (addConst_denotes hrec (absurd · hw) _).congr fun ρ hρ => ?_
        rw [hg ρ hρ, setWidth_eq]
        exact add_sub_left_comm _ _ _
      · exact hl.binary .add hr
    · rw [subCreate.eq_def]
      split
      · next hc =>
        obtain ⟨rfl, hf⟩ := hl.asConstant_some hc
        refine (subConst_denotes hr hzr _).congr fun ρ hρ => ?_
        rw [hf ρ hρ, setWidth_eq]
      · next hc =>
        obtain ⟨rfl, hg⟩ := hr.asConstant_some hc
        refine (subByConst_denotes hl hzl _).congr fun ρ hρ => ?_
        rw [hg ρ hρ, setWidth_eq]
      split
      · next hw =>
        obtain rfl : w = 1 := hl.width.symm.trans hw
        exact (hl.binary .xor hr).congr fun ρ _ => (sub_bool _ _).symm
      next hw =>
      replace hw : w ≠ 1 := fun h => hw (hl.width.trans h)
      split
      · next heq =>
        subst heq
        obtain rfl := hl.width
        refine (Denotes.constant hl.width_pos 0).congr fun ρ hρ => ?_
        rw [← hl.value ρ hρ, ← hr.value ρ hρ, sub_self]
      split
      · obtain ⟨rfl, hf, hrec, -⟩ := hleft rfl hw
        refine (addConst_denotes hrec.2 (absurd · hw) _).congr fun ρ hρ => ?_
        rw [hf ρ hρ, setWidth_eq]
        exact (add_sub_assoc _ _ _).symm
      · obtain ⟨rfl, hf, hrec, -⟩ := hleft rfl hw
        refine (subConst_denotes hrec.1 (absurd · hw) _).congr fun ρ hρ => ?_
        rw [hf ρ hρ, setWidth_eq]
        exact (sub_sub _ _ _).symm
      · obtain ⟨rfl, hg, -, hrec⟩ := hright rfl hw
        refine (subByConst_denotes hrec (absurd · hw) _).congr fun ρ hρ => ?_
        rw [hg ρ hρ, setWidth_eq]
        exact (sub_sub _ _ _).trans (congrArg _ (add_comm _ _))
      · obtain ⟨rfl, hg, hrec, -⟩ := hright rfl hw
        refine (subByConst_denotes hrec (absurd · hw) _).congr fun ρ hρ => ?_
        rw [hg ρ hρ, setWidth_eq]
        exact (sub_sub_eq_add_sub _ _ _).symm
      · exact hl.binary .sub hr

section
variable (hl : Denotes S l w f) (hr : Denotes S r w g) (hzl : l.EveryNode NoZeroSum)
  (hzr : r.EveryNode NoZeroSum)
include hl hr hzl hzr

lemma addCreate_denotes : Denotes S (addCreate l r) w fun ρ => f ρ + g ρ :=
  (addSub_denotes _ le_rfl hl hr (fun _ => hzl) fun _ => hzr).1

lemma subCreate_denotes : Denotes S (subCreate l r) w fun ρ => f ρ - g ρ :=
  (addSub_denotes _ le_rfl hl hr (fun _ => hzl) fun _ => hzr).2

end

lemma addCreate_constant (w : Nat) (v : BitVec w) (r : Expr) :
    addCreate (constant w v) r = addConst w v r := by
  rw [addCreate.eq_def]
  rfl

lemma subCreate_constant (w : Nat) (v : BitVec w) (r : Expr) :
    subCreate (constant w v) r = subConst w v r := by
  rw [subCreate.eq_def]
  rfl

end InputCovSched.Klee
