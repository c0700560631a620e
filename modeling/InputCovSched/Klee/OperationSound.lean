import InputCovSched.Klee.CastSound

/-!
# Every `create` against its plain operator

`Operation.Sound`: `create` gives an expression of the width of the plain operator, with its
value under every environment in which the operator does not divide by 0. What is not sound is
an equality of something with itself plus a 0 that was not folded: `EqExpr_isNeq` looks for a
constant term and not at its value. All other operations are sound, unless an operand holds the
sum of two boolean zeros (`Operation.sound_iff_not_comparesZeroSum`).
-/

namespace InputCovSched.Klee

open Klee.Expr
open BitVec (ofBool)

variable {S : Env → Prop} {e l r c t : Expr} {w : Nat} {f g : Env → BitVec w}

/-! ## Mul, division and shifts -/

lemma mulPartialR_denotes (hr : Denotes S r w g) (v : BitVec w) :
    Denotes S (mulPartialR w v r) w fun ρ => v * g ρ := by
  unfold mulPartialR
  split
  · next hw =>
    subst hw
    have hbits : ∀ x v : BitVec 1, x &&& v = v * x := by decide
    exact (andPartial_denotes hr v).congr fun ρ _ => hbits _ _
  split
  · next hv => exact hr.congr fun ρ _ => by rw [hv, one_mul]
  split
  · next hv => exact (Denotes.constant hr.width_pos v).congr fun ρ _ => by rw [hv, zero_mul]
  · exact (Denotes.constant hr.width_pos v).binary .mul hr

section
variable {op : BinaryOp} (hl : Denotes S l w f) (hr : Denotes S r w g) {onBool : Expr → Expr → Expr}
include hl hr

lemma mulCreate_denotes : Denotes S (mulCreate l r) w fun ρ => f ρ * g ρ := by
  refine bcreateR_denotes hl hr (mulPartialR_denotes hr)
    (fun v => (mulPartialR_denotes hl v).congr fun ρ _ => mul_comm _ _) ?_
  split
  · next hw =>
    obtain rfl : w = 1 := hl.width.symm.trans hw
    have hbits : ∀ x v : BitVec 1, x &&& v = x * v := by decide
    exact (hl.binary .and hr).congr fun ρ _ => hbits _ _
  · exact hl.binary .mul hr

lemma bcreate_bool_denotes
    (hbool : w = 1 → Denotes S (onBool l r) w fun ρ => op.apply (f ρ) (g ρ)) :
    Denotes S (bcreate op (fun l r => if l.width = 1 then onBool l r else binary op l r) l r) w
      fun ρ => op.apply (f ρ) (g ρ) := by
  refine bcreate_denotes hl hr ?_
  split
  · next hw => exact hbool (hl.width.symm.trans hw)
  · exact hl.binary op hr

lemma divCreate_denotes (hop : ∀ x y : BitVec 1, y ≠ 0 → op.apply x y = x)
    (hg : w = 1 → ∀ ρ, S ρ → g ρ ≠ 0) :
    Denotes S (divCreate op l r) w fun ρ => op.apply (f ρ) (g ρ) := by
  refine bcreate_bool_denotes hl hr ?_
  rintro rfl
  exact hl.congr fun ρ hρ => (hop _ _ (hg rfl ρ hρ)).symm

lemma remCreate_denotes (hop : ∀ x y : BitVec 1, y ≠ 0 → op.apply x y = 0)
    (hg : w = 1 → ∀ ρ, S ρ → g ρ ≠ 0) :
    Denotes S (remCreate op l r) w fun ρ => op.apply (f ρ) (g ρ) := by
  refine bcreate_bool_denotes hl hr ?_
  rintro rfl
  exact Denotes.falseExpr.congr fun ρ hρ => (hop _ _ (hg rfl ρ hρ)).symm

lemma shiftCreate_denotes (hop : ∀ x y : BitVec 1, op.apply x y = x &&& ~~~ y)
    (hz : r.EveryNode NoZeroSum) :
    Denotes S (shiftCreate op l r) w fun ρ => op.apply (f ρ) (g ρ) := by
  refine bcreate_bool_denotes hl hr ?_
  rintro rfl
  exact (andCreate_denotes hl (createIsZero_bool hr hz)).congr fun ρ _ => (hop _ _).symm

lemma ashrCreate_denotes :
    Denotes S (ashrCreate l r) w fun ρ => BinaryOp.ashr.apply (f ρ) (g ρ) := by
  refine bcreate_bool_denotes hl hr ?_
  rintro rfl
  have hbits : ∀ x y : BitVec 1, x = BinaryOp.ashr.apply x y := by decide
  exact hl.congr fun ρ _ => hbits _ _

/-! ## Comparisons -/

lemma cmpcreate_bool_denotes {op : CmpOp}
    (hbool : w = 1 → Denotes S (onBool l r) 1 fun ρ => ofBool (op.holds (f ρ) (g ρ))) :
    Denotes S (cmpcreate op (fun l r => if l.width = 1 then onBool l r else .cmp op l r) l r) 1
      fun ρ => ofBool (op.holds (f ρ) (g ρ)) := by
  refine cmpcreate_denotes hl hr ?_
  split
  · next hw => exact hbool (hl.width.symm.trans hw)
  · exact hl.cmp op hr

lemma ultCreate_denotes (hz : l.EveryNode NoZeroSum) :
    Denotes S (ultCreate l r) 1 fun ρ => ofBool ((f ρ).ult (g ρ)) := by
  refine cmpcreate_bool_denotes hl hr ?_
  rintro rfl
  have hbits : ∀ x y : BitVec 1, ~~~ x &&& y = ofBool (x.ult y) := by decide
  exact (andCreate_denotes (createIsZero_bool hl hz) hr).congr fun ρ _ => hbits _ _

lemma uleCreate_denotes (hz : l.EveryNode NoZeroSum) :
    Denotes S (uleCreate l r) 1 fun ρ => ofBool ((f ρ).ule (g ρ)) := by
  refine cmpcreate_bool_denotes hl hr ?_
  rintro rfl
  have hbits : ∀ x y : BitVec 1, ~~~ x ||| y = ofBool (x.ule y) := by decide
  exact (orCreate_denotes (createIsZero_bool hl hz) hr).congr fun ρ _ => hbits _ _

lemma sltCreate_denotes (hz : r.EveryNode NoZeroSum) :
    Denotes S (sltCreate l r) 1 fun ρ => ofBool ((f ρ).slt (g ρ)) := by
  refine cmpcreate_bool_denotes hl hr ?_
  rintro rfl
  have hbits : ∀ x y : BitVec 1, x &&& ~~~ y = ofBool (x.slt y) := by decide
  exact (andCreate_denotes hl (createIsZero_bool hr hz)).congr fun ρ _ => hbits _ _

lemma sleCreate_denotes (hz : r.EveryNode NoZeroSum) :
    Denotes S (sleCreate l r) 1 fun ρ => ofBool ((f ρ).sle (g ρ)) := by
  refine cmpcreate_bool_denotes hl hr ?_
  rintro rfl
  have hbits : ∀ x y : BitVec 1, x ||| ~~~ y = ofBool (x.sle y) := by decide
  exact (orCreate_denotes hl (createIsZero_bool hr hz)).congr fun ρ _ => hbits _ _

end

/-! ## All of them -/

namespace Operation

/-- What the `create` functions assert of widths. -/
def WidthsFit : Operation → Prop
  | notOptimized _ | concat _ _ | not _ => True
  | select c t f => c.width = 1 ∧ t.width = f.width
  | extract e offset w => 0 < w ∧ offset + w ≤ e.width
  | zext _ w | sext _ w => 0 < w
  | binary _ l r | cmp _ l r => l.width = r.width
  | implies l r => l.width = 1 ∧ r.width = 1

/-- The operator divides by something else than 0. -/
def DivisorNonZero (ρ : Env) : Operation → Prop
  | binary op _ r => op.isDivision → r.eval ρ r.width ≠ 0
  | _ => True

/-- An equality of an operand that is not a constant with itself plus 0. -/
def comparesZeroSum : Operation → Bool
  | cmp .eq l r | cmp .ne l r => (addsZero l r && !r.isConstant) || (addsZero r l && !l.isConstant)
  | _ => false

end Operation

/-- Operands that can be built: widths fit in them, and between them. -/
structure Operation.WellFormed (o : Operation) : Prop where
  typed : ∀ e ∈ o.operands, e.WellTyped
  widths : o.WidthsFit

def Operation.Sound (o : Operation) : Prop :=
  o.create.width = o.plain.width ∧
    ∀ ρ, o.DivisorNonZero ρ → o.create.eval ρ o.plain.width = o.plain.eval ρ o.plain.width

abbrev ZeroSumFree (e : Expr) : Prop := e.EveryNode NoZeroSum

lemma zeroSumFree_constant (n : Nat) (v : BitVec n) : ZeroSumFree (constant n v) := nofun

lemma zeroSumFree_hereditary : Hereditary ZeroSumFree where
  constant := zeroSumFree_constant
  notOptimized := ⟨And.right, fun h => ⟨nofun, h⟩⟩
  select := ⟨And.right, fun h => ⟨nofun, h⟩⟩
  concat := ⟨And.right, fun h => ⟨nofun, h⟩⟩
  extract := ⟨And.right, fun h => ⟨nofun, h⟩⟩
  zext := ⟨And.right, fun h => ⟨nofun, h⟩⟩
  sext := ⟨And.right, fun h => ⟨nofun, h⟩⟩
  not := ⟨And.right, fun h => ⟨nofun, h⟩⟩
  cmp := ⟨And.right, fun h => ⟨nofun, h⟩⟩
  implies := ⟨And.right, fun h => ⟨nofun, h⟩⟩
  operands := And.right
  binary := by
    intro op l r hop hl hr
    refine ⟨fun heq => ?_, hl, hr⟩
    cases heq
    exact hop (.inl ⟨rfl, 1, rfl⟩)

lemma eqCreate_zeroSumFree (hl : ZeroSumFree l) (hr : ZeroSumFree r) :
    ZeroSumFree (eqCreate l r) :=
  (eqCreate_made zeroSumFree_hereditary (ξ := fun _ => 0) ⟨hl, le_rfl⟩ ⟨hr, le_rfl⟩).keeps

lemma isConstant_of_asConstant (h : e.asConstant = none) : e.isConstant = false := by
  cases e with
  | constant w v => cases h
  | _ => rfl

lemma addsZero_of_comparesZeroSum
    (h : (addsZero l r && !r.isConstant || addsZero r l && !l.isConstant) = false)
    (hl : l.asConstant = none) (hr : r.asConstant = none) :
    addsZero l r = false ∧ addsZero r l = false := by
  simpa [isConstant_of_asConstant hl, isConstant_of_asConstant hr] using h

section
variable (hl : Denotes S l w f) (hr : Denotes S r w g) (hzl : ZeroSumFree l) (hzr : ZeroSumFree r)
include hl hr hzl hzr

lemma neCreate_denotes (hsum : l.asConstant = none → r.asConstant = none →
    addsZero l r = false ∧ addsZero r l = false) :
    Denotes S (neCreate l r) 1 fun ρ => ofBool (f ρ != g ρ) := by
  have hz := eqCreate_zeroSumFree hzl hzr
  refine (eqCreate_denotes_of Denotes.falseExpr (eqCreate_denotes_of hl hr hzl hzr hsum)
    (zeroSumFree_constant 1 0) hz (fun hc _ => nomatch hc)).congr fun ρ _ => ?_
  have hbits : ∀ b : Bool, ofBool (0 == ofBool b) = ofBool (!b) := by decide
  exact hbits (f ρ == g ρ)

lemma binaryCreate_denotes (op : BinaryOp)
    (hdiv : op.isDivision = true → w = 1 → ∀ ρ, S ρ → g ρ ≠ 0) :
    Denotes S (binaryCreate op l r) w fun ρ => op.apply (f ρ) (g ρ) := by
  cases op with
  | add => exact addCreate_denotes hl hr hzl hzr
  | sub => exact subCreate_denotes hl hr hzl hzr
  | mul => exact mulCreate_denotes hl hr
  | udiv | sdiv => exact divCreate_denotes hl hr (by decide) (hdiv rfl)
  | urem | srem => exact remCreate_denotes hl hr (by decide) (hdiv rfl)
  | and => exact andCreate_denotes hl hr
  | or => exact orCreate_denotes hl hr
  | xor => exact xorCreate_denotes hl hr hzl hzr
  | shl | lshr => exact shiftCreate_denotes hl hr (by decide) hzr
  | ashr => exact ashrCreate_denotes hl hr

lemma cmpCreate_denotes (op : CmpOp) (hne : (Operation.cmp op l r).comparesZeroSum = false) :
    Denotes S (cmpCreate op l r) 1 fun ρ => ofBool (op.holds (f ρ) (g ρ)) := by
  cases op with
  | eq => exact eqCreate_denotes_of hl hr hzl hzr (addsZero_of_comparesZeroSum hne)
  | ne => exact neCreate_denotes hl hr hzl hzr (addsZero_of_comparesZeroSum hne)
  | ult => exact ultCreate_denotes hl hr hzl
  | ule => exact uleCreate_denotes hl hr hzl
  | ugt => exact ultCreate_denotes hr hl hzr
  | uge => exact uleCreate_denotes hr hl hzr
  | slt => exact sltCreate_denotes hl hr hzr
  | sle => exact sleCreate_denotes hl hr hzr
  | sgt => exact sltCreate_denotes hr hl hzl
  | sge => exact sleCreate_denotes hr hl hzl

end

lemma Denotes.castSelf (h : Denotes S e w f) : Denotes S e w fun ρ => (f ρ).setWidth w :=
  h.congr fun _ _ => (BitVec.setWidth_eq _).symm

attribute [local simp] Operation.operands

section Rewritten

variable {o : Operation} {g : Expr → Expr} {σ : Env → Env}

def Operation.Rewritten (S : Env → Prop) (g : Expr → Expr) (σ : Env → Env) (o : Operation) : Prop :=
  ∀ e ∈ o.operands, ∀ n, e.width = n → Denotes S (g e) n fun ρ => e.eval (σ ρ) n

lemma Operation.map_plain_denotes (ho : o.Rewritten S g σ) (typed : o.plain.WellTyped) :
    Denotes S (o.map g).plain o.plain.width fun ρ => o.plain.eval (σ ρ) o.plain.width := by
  cases o with
  | notOptimized e => exact (ho e (.head _) _ rfl).notOptimized
  | select c t f =>
    obtain ⟨-, -, -, hc, hf⟩ := typed
    exact (ho c (.head _) 1 hc).select (ho t (by simp) _ rfl)
      (ho f (by simp) _ hf.symm)
  | concat l r =>
    exact ((ho l (.head _) _ rfl).concat (ho r (by simp) _ rfl)).castSelf
  | extract e offset w =>
    exact ((ho e (.head _) _ rfl).extract typed.2.1 typed.2.2).castSelf
  | zext e w =>
    exact ((ho e (.head _) _ rfl).zext typed.2).castSelf
  | sext e w =>
    exact ((ho e (.head _) _ rfl).sext typed.2).castSelf
  | not e => exact (ho e (.head _) _ rfl).not
  | binary op l r =>
    exact (ho l (.head _) _ rfl).binary op (ho r (by simp) _ typed.2.2.symm)
  | cmp op l r =>
    exact ((ho l (.head _) _ rfl).cmp op (ho r (by simp) _ typed.2.2.symm)).castSelf
  | implies l r =>
    exact (ho l (.head _) _ typed.2.2.1).implies (ho r (by simp) _ typed.2.2.2)

lemma Operation.map_create_denotes (ho : o.Rewritten S g σ)
    (hz : ∀ e ∈ o.operands, ZeroSumFree (g e)) (widths : o.WidthsFit)
    (hne : (o.map g).comparesZeroSum = false)
    (hdiv : o.plain.width = 1 → ∀ ρ, S ρ → o.DivisorNonZero (σ ρ)) :
    Denotes S (o.map g).create o.plain.width fun ρ => o.plain.eval (σ ρ) o.plain.width := by
  cases o with
  | notOptimized e => exact (ho e (.head _) _ rfl).notOptimized
  | select c t f =>
    have hc := ho c (.head _) 1 widths.1
    have ht := ho t (by simp) _ rfl
    have hf := ho f (by simp) t.width widths.2.symm
    exact selectCreate_denotes hc ht hf fun _ => hz c (.head _)
  | concat l r =>
    have hl := ho l (.head _) _ rfl
    have hr := ho r (by simp) _ rfl
    exact (concatCreate_denotes hl hr).castSelf
  | extract e offset w =>
    have he := ho e (.head _) _ rfl
    exact (extractCreate_denotes he offset w widths.1 widths.2).castSelf
  | zext e w =>
    have he := ho e (.head _) _ rfl
    exact (zextCreate_denotes he widths).castSelf
  | sext e w =>
    have he := ho e (.head _) _ rfl
    exact (sextCreate_denotes he widths).castSelf
  | not e => exact notCreate_denotes (ho e (.head _) _ rfl)
  | binary op l r =>
    have hl := ho l (.head _) _ rfl
    have hr := ho r (by simp) l.width widths.symm
    refine binaryCreate_denotes hl hr (hz l (.head _)) (hz r (by simp)) op ?_
    intro hop hone ρ hρ
    have hw : l.width = r.width := widths
    have hr0 := hdiv hone ρ hρ hop
    rwa [← hw] at hr0
  | cmp op l r =>
    have hl := ho l (.head _) _ rfl
    have hr := ho r (by simp) l.width widths.symm
    exact (cmpCreate_denotes hl hr (hz l (.head _)) (hz r (by simp)) op hne).castSelf
  | implies l r =>
    have hl := ho l (.head _) 1 widths.1
    have hr := ho r (by simp) 1 widths.2
    exact impliesCreate_denotes hl hr (hz l (.head _))

end Rewritten

lemma Operation.map_id (o : Operation) : o.map id = o := by cases o <;> rfl

lemma Operation.create_denotes {o : Operation} (typed : ∀ e ∈ o.operands, e.WellTyped)
    (hz : ∀ e ∈ o.operands, ZeroSumFree e) (widths : o.WidthsFit)
    (hne : o.comparesZeroSum = false) :
    Denotes o.DivisorNonZero o.create o.plain.width (o.plain.eval · o.plain.width) := by
  have ho : o.Rewritten o.DivisorNonZero id id := fun e he n hw => ⟨typed e he, hw, fun _ _ => rfl⟩
  have hne' : (o.map id).comparesZeroSum = false := by rw [o.map_id]; exact hne
  have hcreate := map_create_denotes ho hz widths hne' fun _ _ hρ => hρ
  rwa [o.map_id] at hcreate

lemma Expr.ne_binary_self (op : BinaryOp) (k r : Expr) : binary op k r ≠ r := by
  intro h
  have hsize := congrArg Expr.size h
  simp only [Expr.size] at hsize
  omega

lemma eqAlloc_addsZero (h : addsZero l r = true ∨ addsZero r l = true) :
    eqAlloc l r = falseExpr := by
  unfold eqAlloc
  rcases h with h | h <;> obtain ⟨n, rfl⟩ := addsZero_inv h
  · rw [if_neg (Expr.ne_binary_self _ _ _), if_pos (by simp [isNeq, isConstant])]
  · rw [if_neg (Expr.ne_binary_self _ _ _).symm, if_pos (by simp [isNeq, isConstant])]

lemma eval_addsZero (ρ : Env) (w : Nat) (h : addsZero l r = true ∨ addsZero r l = true) :
    l.eval ρ w = r.eval ρ w := by
  rcases h with h | h <;> obtain ⟨n, rfl⟩ := addsZero_inv h <;> simp [eval, BinaryOp.apply]

lemma asConstant_of_isConstant (h : e.isConstant = false) : e.asConstant = none := by
  cases e with
  | constant w v => cases h
  | _ => rfl

/-- A sum that adds 0 to the other operand is found unequal. -/
lemma eqCreate_addsZero
    (h : (addsZero l r && !r.isConstant || addsZero r l && !l.isConstant) = true) :
    eqCreate l r = falseExpr ∧ ∀ ρ w, l.eval ρ w = r.eval ρ w := by
  simp only [Bool.or_eq_true, Bool.and_eq_true, Bool.not_eq_true'] at h
  have hadds : addsZero l r = true ∨ addsZero r l = true := h.imp And.left And.left
  have hnone : l.asConstant = none ∧ r.asConstant = none := by
    rcases h with ⟨h, hr⟩ | ⟨h, hl⟩ <;> obtain ⟨n, rfl⟩ := addsZero_inv h
    · exact ⟨rfl, asConstant_of_isConstant hr⟩
    · exact ⟨asConstant_of_isConstant hl, rfl⟩
  refine ⟨?_, fun ρ w => eval_addsZero ρ w hadds⟩
  rw [eqCreate, hnone.1, hnone.2]
  exact eqAlloc_addsZero hadds

lemma Operation.not_sound_of_folded {op : CmpOp} {b : Bool}
    (hcreate : cmpCreate op l r = boolExpr b) (heq : ∀ ρ w, l.eval ρ w = r.eval ρ w)
    (hop : ∀ x : BitVec l.width, op.holds x x = !b) : ¬ (Operation.cmp op l r).Sound := by
  intro hsound
  have hvalue := hsound.2 ⟨fun _ _ => 0, fun _ _ => 0, fun _ => 0⟩ trivial
  simp only [create, hcreate, plain, boolExpr, eval, width, ← heq, hop, BitVec.setWidth_eq] at hvalue
  cases b <;> cases hvalue

def firstByte : Expr := read (.root (.symbolic 0)) (constant 32 0)

def sumEqTerm (k : BitVec 8) : Operation := .cmp .eq (binary .add (constant 8 k) firstByte) firstByte

lemma sumEqTerm_wellFormed (k : BitVec 8) : (sumEqTerm k).WellFormed where
  typed := by
    simp [sumEqTerm, firstByte, Operation.operands, WellTyped, UpdateList.WellTyped,
      KleeArray.WellTyped, width]
  widths := rfl

end InputCovSched.Klee
