import InputCovSched.Klee.Create

/-!
# What the folding constructors build

    weight  the result of `create` does not weigh more than the operator applied to its
      operands, so a visitor that rebuilds an expression cannot go on for ever
    Hereditary Q
      the result has every property of the operands that goes from parts to the whole
      and back, as long as no sum has the constant 0 on its left and no boolean is divided

The weight of a read counts what the arrays under it can be unfolded to; a variable weighs what
`ξ` says.
-/

namespace InputCovSched

/-- A negated `Or` is built as the conjunction of two negations, and a boolean shift as a
conjunction with one. -/
def BinaryOp.weight : BinaryOp → Nat
  | .or => 3
  | .shl | .lshr => 3
  | _ => 1

/-- `Ne` is a negated `Eq`; of two booleans `Ult` is a conjunction with a negation, and `Ule` a
disjunction with one. -/
def CmpOp.weight : CmpOp → Nat
  | .eq => 1
  | .ne | .ult | .ugt | .slt | .sgt => 3
  | .ule | .uge | .sle | .sge => 5

lemma BinaryOp.one_le_weight (op : BinaryOp) : 1 ≤ op.weight := by cases op <;> decide

lemma CmpOp.one_le_weight (op : CmpOp) : 1 ≤ op.weight := by cases op <;> decide

end InputCovSched

namespace InputCovSched.Klee

open Klee.Expr Function

mutual

def Expr.weight : Expr → (Nat → Nat) → Nat
  | .constant _ _, _ => 1
  | .notOptimized e, ξ => e.weight ξ + 1
  | .read updates index, ξ => updates.weight (index.weight ξ) ξ
  | .select c t f, ξ => c.weight ξ + t.weight ξ + f.weight ξ + 4
  | .concat l r, ξ => l.weight ξ + r.weight ξ + 1
  | .extract e _ _, ξ => 2 * e.weight ξ
  | .zext e _, ξ => e.weight ξ + 1
  | .sext e _, ξ => e.weight ξ + 1
  | .not e, ξ => e.weight ξ + 1
  | .binary op l r, ξ => l.weight ξ + r.weight ξ + op.weight
  | .cmp op l r, ξ => l.weight ξ + r.weight ξ + op.weight
  | .implies l r, ξ => l.weight ξ + r.weight ξ + 1
  | .qvar name _, ξ => ξ name + 1
  | .all _ _ e, ξ => e.weight ξ + 1

/-- Of a read at an index that weighs `x`. -/
def UpdateList.weight : UpdateList → Nat → (Nat → Nat) → Nat
  | .root array, x, ξ => array.weight x ξ
  | .byteUpdate index value guard next, x, ξ =>
    index.weight ξ + value.weight ξ + guard.weight ξ + next.weight x ξ
  | .multiUpdate src guard next, x, ξ => src.weight x ξ + guard.weight ξ + next.weight x ξ

def KleeArray.weight : KleeArray → Nat → (Nat → Nat) → Nat
  | .symbolic _, x, _ => x + 1
  | .constantValues _, x, _ => x + 1
  | .function q valueExpr, x, ξ => valueExpr.weight (update ξ q x) + x + 1
  | .guarded q valueExpr guard nextSrc, x, ξ =>
    valueExpr.weight (update ξ q x) + guard.weight (update ξ q x) +
      nextSrc.weight x (update ξ q x) + x + 5

end

lemma KleeArray.lt_weight (a : KleeArray) (x : Nat) (ξ : Nat → Nat) : x < a.weight x ξ := by
  cases a <;> simp only [KleeArray.weight] <;> omega

lemma UpdateList.lt_weight : (u : UpdateList) → (x : Nat) → (ξ : Nat → Nat) → x < u.weight x ξ
  | .root a, x, ξ => a.lt_weight x ξ
  | .byteUpdate _ _ _ next, x, ξ
  | .multiUpdate _ _ next, x, ξ => (next.lt_weight x ξ).trans_le (Nat.le_add_left _ _)

/-- Nothing is weightless, so every operand weighs less than its expression. -/
lemma Expr.one_le_weight (ξ : Nat → Nat) : (e : Expr) → 1 ≤ e.weight ξ
  | .constant _ _ => le_rfl
  | .notOptimized _ | .zext _ _ | .sext _ _ | .not _ | .qvar _ _ | .all _ _ _ =>
    Nat.le_add_left _ _
  | .read u _ => Nat.one_le_of_lt (u.lt_weight _ ξ)
  | .select _ _ _ => (by decide : 1 ≤ 4).trans (Nat.le_add_left _ _)
  | .concat _ _ | .implies _ _ => Nat.le_add_left _ _
  | .extract e _ _ => by
    have he := e.one_le_weight ξ
    simp only [weight]
    omega
  | .binary op _ _ | .cmp op _ _ => op.one_le_weight.trans (Nat.le_add_left _ _)

lemma Expr.two_le_weight (ξ : Nat → Nat) {e : Expr} (he : e.isConstant = false)
    (hq : ∀ name w, e ≠ .qvar name w) : 2 ≤ e.weight ξ := by
  cases e with
  | constant => cases he
  | qvar name w => exact absurd rfl (hq name w)
  | read u i =>
    have hi := i.one_le_weight ξ
    have hu := u.lt_weight (i.weight ξ) ξ
    simp only [weight]
    omega
  | binary op l | cmp op l =>
    have hl := l.one_le_weight ξ
    have hop := op.one_le_weight
    simp only [weight]
    omega
  | notOptimized e | extract e | zext e | sext e | not e | all _ _ e | select e | concat e
  | implies e =>
    have he := e.one_le_weight ξ
    simp only [weight]
    omega

/-- The weight when variables weigh nothing. -/
abbrev Expr.mass (e : Expr) : Nat := e.weight fun _ => 0

/-- The measure of every recursion into the operands. -/
lemma Operation.operand_lt {o : Operation} (he : e ∈ o.operands) (ξ : Nat → Nat) :
    e.weight ξ < o.plain.weight ξ := by
  cases o <;> simp only [operands, List.mem_cons, List.not_mem_nil, or_false] at he
  case select c t f => rcases he with rfl | rfl | rfl <;> simp only [plain, weight] <;> omega
  case notOptimized | zext | sext | not =>
    subst he
    simp only [plain, weight]
    omega
  case extract =>
    subst he
    have hk := e.one_le_weight ξ
    simp only [plain, weight]
    omega
  case concat l r | implies l r => rcases he with rfl | rfl <;> simp only [plain, weight] <;> omega
  case binary op l r | cmp op l r =>
    have hop := op.one_le_weight
    rcases he with rfl | rfl <;> simp only [plain, weight] <;> omega

mutual

/-- In what the variables weigh. The three recurse together, over expressions, updates and arrays.
-/
theorem Expr.weight_mono (hξ : ξ ≤ ξ') : (e : Expr) → e.weight ξ ≤ e.weight ξ'
  | .constant _ _ => le_rfl
  | .notOptimized e | .zext e _ | .sext e _ | .not e | .all _ _ e =>
    Nat.add_le_add_right (e.weight_mono hξ) 1
  | .read u i => u.weight_mono hξ (i.weight_mono hξ)
  | .select c t f =>
    Nat.add_le_add_right (add_le_add (add_le_add (c.weight_mono hξ) (t.weight_mono hξ))
      (f.weight_mono hξ)) 4
  | .concat l r | .implies l r =>
    Nat.add_le_add_right (add_le_add (l.weight_mono hξ) (r.weight_mono hξ)) 1
  | .extract e _ _ => Nat.mul_le_mul_left 2 (e.weight_mono hξ)
  | .binary _ l r | .cmp _ l r =>
    Nat.add_le_add_right (add_le_add (l.weight_mono hξ) (r.weight_mono hξ)) _
  | .qvar name _ => Nat.add_le_add_right (hξ name) 1

theorem UpdateList.weight_mono (hξ : ξ ≤ ξ') (hx : x ≤ x') :
    (u : UpdateList) → u.weight x ξ ≤ u.weight x' ξ'
  | .root a => a.weight_mono hξ hx
  | .byteUpdate index value guard next =>
    add_le_add (add_le_add (add_le_add (index.weight_mono hξ) (value.weight_mono hξ))
      (guard.weight_mono hξ)) (next.weight_mono hξ hx)
  | .multiUpdate src guard next =>
    add_le_add (add_le_add (src.weight_mono hξ hx) (guard.weight_mono hξ))
      (next.weight_mono hξ hx)

theorem KleeArray.weight_mono (hξ : ξ ≤ ξ') (hx : x ≤ x') :
    (a : KleeArray) → a.weight x ξ ≤ a.weight x' ξ'
  | .symbolic _ | .constantValues _ => Nat.add_le_add_right hx 1
  | .function q valueExpr =>
    have hq := update_le_update_iff.2 ⟨hx, fun n (_ : n ≠ q) => hξ n⟩
    Nat.add_le_add_right (add_le_add (valueExpr.weight_mono hq) hx) 1
  | .guarded q valueExpr guard nextSrc =>
    have hq := update_le_update_iff.2 ⟨hx, fun n (_ : n ≠ q) => hξ n⟩
    Nat.add_le_add_right (add_le_add (add_le_add (add_le_add
      (valueExpr.weight_mono hq) (guard.weight_mono hq)) (nextSrc.weight_mono hq hx)) hx) 5

end

/-! ## Properties that go from parts to the whole -/

/-- What `create` never builds: a sum with 0 on its left, and a division of booleans. -/
def Unfolded (op : BinaryOp) (l : Expr) : Prop :=
  (op = .add ∧ ∃ n, l = constant n 0) ∨ (op.isDivision = true ∧ l.width = 1)

/-- A property that the parts of an expression have if and only if the whole has it; a binary
operator need have it from its operands only where `create` builds it. -/
structure Hereditary (Q : Expr → Prop) : Prop where
  constant : ∀ w (v : BitVec w), Q (constant w v)
  notOptimized : ∀ {e}, Q (notOptimized e) ↔ Q e
  select : ∀ {c t f}, Q (select c t f) ↔ Q c ∧ Q t ∧ Q f
  concat : ∀ {l r}, Q (concat l r) ↔ Q l ∧ Q r
  extract : ∀ {e offset w}, Q (extract e offset w) ↔ Q e
  zext : ∀ {e w}, Q (zext e w) ↔ Q e
  sext : ∀ {e w}, Q (sext e w) ↔ Q e
  not : ∀ {e}, Q (.not e) ↔ Q e
  cmp : ∀ {op l r}, Q (.cmp op l r) ↔ Q l ∧ Q r
  implies : ∀ {l r}, Q (implies l r) ↔ Q l ∧ Q r
  operands : ∀ {op l r}, Q (binary op l r) → Q l ∧ Q r
  binary : ∀ {op l r}, ¬ Unfolded op l → Q l → Q r → Q (binary op l r)

/-- A read at a heavier index is heavier. -/
lemma KleeArray.weight_lt (hx : x < x') (ξ : Nat → Nat) (a : KleeArray) :
    a.weight x ξ < a.weight x' ξ := by
  cases a with
  | symbolic | constantValues => exact Nat.add_lt_add_right hx 1
  | function q valueExpr =>
    have hq := update_le_update_iff.2 ⟨hx.le, fun n (_ : n ≠ q) => le_refl (ξ n)⟩
    have hv := valueExpr.weight_mono hq
    simp only [KleeArray.weight]
    omega
  | guarded q valueExpr guard nextSrc =>
    have hq := update_le_update_iff.2 ⟨hx.le, fun n (_ : n ≠ q) => le_refl (ξ n)⟩
    have hv := valueExpr.weight_mono hq
    have hg := guard.weight_mono hq
    have hn := nextSrc.weight_mono hq hx.le
    simp only [KleeArray.weight]
    omega

lemma UpdateList.weight_lt (hx : x < x') (ξ : Nat → Nat) :
    (u : UpdateList) → u.weight x ξ < u.weight x' ξ
  | .root a => a.weight_lt hx ξ
  | .byteUpdate _ _ _ next => Nat.add_lt_add_left (next.weight_lt hx ξ) _
  | .multiUpdate src _ next =>
    Nat.add_lt_add (Nat.add_lt_add_right (src.weight_lt hx ξ) _) (next.weight_lt hx ξ)

lemma hereditary_true : Hereditary fun _ => True := by constructor <;> simp

namespace Hereditary

variable {Q : Expr → Prop} {o : Operation}

lemma plain_operands (hQ : Hereditary Q) (h : Q o.plain) : ∀ e ∈ o.operands, Q e := by
  have hkids : ∀ op l r, Q (.binary op l r) → Q l ∧ Q r := fun _ _ _ => hQ.operands
  cases o <;> simp_all [Operation.operands, Operation.plain, hQ.notOptimized, hQ.select, hQ.concat,
      hQ.extract, hQ.zext, hQ.sext, hQ.not, hQ.cmp, hQ.implies]
  exact hkids _ _ _ h

/-- The operator applied to operands with the property, without any folding. -/
lemma plain_of (hQ : Hereditary Q) (hop : ∀ op l r, o = .binary op l r → ¬ Unfolded op l)
    (ho : ∀ e ∈ o.operands, Q e) : Q o.plain := by
  cases o <;> simp_all [Operation.operands, Operation.plain, hQ.notOptimized, hQ.select, hQ.concat,
      hQ.extract, hQ.zext, hQ.sext, hQ.not, hQ.cmp, hQ.implies, hQ.binary]

end Hereditary

/-- An expression that has the property and weighs at most `n`. -/
structure Made (Q : Expr → Prop) (ξ : Nat → Nat) (n : Nat) (e : Expr) : Prop where
  keeps : Q e
  weight_le : e.weight ξ ≤ n

section Made

variable {Q : Expr → Prop} (hQ : Hereditary Q) {ξ : Nat → Nat} {n m k w : Nat} {e l r : Expr}

namespace Made

lemma mono (h : Made Q ξ m e) (hmn : m ≤ n) : Made Q ξ n e := ⟨h.keeps, h.weight_le.trans hmn⟩

lemma one_le (h : Made Q ξ n e) : 1 ≤ n := (e.one_le_weight ξ).trans h.weight_le

include hQ

/-! ## Nodes -/

lemma constant (v : BitVec w) (hn : 1 ≤ n) : Made Q ξ n (.constant w v) := ⟨hQ.constant w v, hn⟩

lemma boolExpr (b : Bool) (hn : 1 ≤ n) : Made Q ξ n (boolExpr b) := constant hQ _ hn

lemma binary (op : BinaryOp) (hl : Made Q ξ m l) (hr : Made Q ξ k r) (hop : ¬ Unfolded op l) :
    Made Q ξ (m + k + op.weight) (.binary op l r) :=
  ⟨hQ.binary hop hl.keeps hr.keeps,
    Nat.add_le_add_right (add_le_add hl.weight_le hr.weight_le) _⟩

lemma cmp (op : CmpOp) (hl : Made Q ξ m l) (hr : Made Q ξ k r) :
    Made Q ξ (m + k + op.weight) (.cmp op l r) :=
  ⟨hQ.cmp.2 ⟨hl.keeps, hr.keeps⟩, Nat.add_le_add_right (add_le_add hl.weight_le hr.weight_le) _⟩

lemma select (hc : Made Q ξ n c) (hl : Made Q ξ m l) (hr : Made Q ξ k r) :
    Made Q ξ (n + m + k + 4) (.select c l r) := by
  refine ⟨hQ.select.2 ⟨hc.keeps, hl.keeps, hr.keeps⟩, ?_⟩
  have hc := hc.weight_le
  have hl := hl.weight_le
  have hr := hr.weight_le
  simp only [weight]
  omega

lemma concat (hl : Made Q ξ m l) (hr : Made Q ξ k r) : Made Q ξ (m + k + 1) (.concat l r) :=
  ⟨hQ.concat.2 ⟨hl.keeps, hr.keeps⟩,
    Nat.add_le_add_right (add_le_add hl.weight_le hr.weight_le) _⟩

lemma extract (he : Made Q ξ n e) (offset w : Nat) : Made Q ξ (2 * n) (.extract e offset w) :=
  ⟨hQ.extract.2 he.keeps, Nat.mul_le_mul_left 2 he.weight_le⟩

lemma zext (he : Made Q ξ n e) (w : Nat) : Made Q ξ (n + 1) (.zext e w) :=
  ⟨hQ.zext.2 he.keeps, Nat.add_le_add_right he.weight_le 1⟩

/-! ## Operands -/

lemma binary_inv (h : Made Q ξ n (.binary op l r)) :
    Made Q ξ (l.weight ξ) l ∧ Made Q ξ (r.weight ξ) r ∧ l.weight ξ + r.weight ξ + op.weight ≤ n :=
  have hlr := hQ.operands h.keeps
  ⟨⟨hlr.1, le_rfl⟩, ⟨hlr.2, le_rfl⟩, h.weight_le⟩

/-- Of a sum with a constant on its left, as the rules for constants take it apart. -/
lemma term_inv (h : Made Q ξ n (.binary op (.constant w v) e)) :
    Made Q ξ (e.weight ξ) e ∧ e.weight ξ + 2 ≤ n := by
  obtain ⟨-, he, hle⟩ := h.binary_inv hQ
  have hop := op.one_le_weight
  simp only [weight] at hle
  exact ⟨he, by omega⟩

lemma cmp_inv (h : Made Q ξ n (.cmp op l r)) :
    Made Q ξ (l.weight ξ) l ∧ Made Q ξ (r.weight ξ) r ∧ l.weight ξ + r.weight ξ + op.weight ≤ n :=
  have hlr := hQ.cmp.1 h.keeps
  ⟨⟨hlr.1, le_rfl⟩, ⟨hlr.2, le_rfl⟩, h.weight_le⟩

lemma concat_inv (h : Made Q ξ n (.concat l r)) :
    Made Q ξ (l.weight ξ) l ∧ Made Q ξ (r.weight ξ) r ∧ l.weight ξ + r.weight ξ + 1 ≤ n :=
  have hlr := hQ.concat.1 h.keeps
  ⟨⟨hlr.1, le_rfl⟩, ⟨hlr.2, le_rfl⟩, h.weight_le⟩

lemma select_inv (h : Made Q ξ n (.select c t f)) :
    Made Q ξ (c.weight ξ) c ∧ Made Q ξ (t.weight ξ) t ∧ Made Q ξ (f.weight ξ) f ∧
      c.weight ξ + t.weight ξ + f.weight ξ + 4 ≤ n :=
  have hctf := hQ.select.1 h.keeps
  ⟨⟨hctf.1, le_rfl⟩, ⟨hctf.2.1, le_rfl⟩, ⟨hctf.2.2, le_rfl⟩, h.weight_le⟩

lemma zext_inv (h : Made Q ξ n (.zext e w)) : Made Q ξ (e.weight ξ) e ∧ e.weight ξ + 1 ≤ n :=
  ⟨⟨hQ.zext.1 h.keeps, le_rfl⟩, h.weight_le⟩

lemma sext_inv (h : Made Q ξ n (.sext e w)) : Made Q ξ (e.weight ξ) e ∧ e.weight ξ + 1 ≤ n :=
  ⟨⟨hQ.sext.1 h.keeps, le_rfl⟩, h.weight_le⟩

lemma extract_inv {offset : Nat} (h : Made Q ξ n (.extract e offset w)) :
    Made Q ξ (e.weight ξ) e ∧ 2 * e.weight ξ ≤ n :=
  ⟨⟨hQ.extract.1 h.keeps, le_rfl⟩, h.weight_le⟩

end Made

/-! ## And, Or, Eq -/

variable {op : BinaryOp} {create : Expr → Expr → Expr}

/-- No operator but a sum or a division is unfolded. -/
lemma not_unfolded (hadd : op ≠ .add) (hdiv : op.isDivision = false) (l : Expr) :
    ¬ Unfolded op l := by
  rintro (h | h)
  · exact hadd h.1
  · rw [hdiv] at h
    cases h.1

lemma not_unfolded_of_width (hadd : op ≠ .add) (hw : l.width ≠ 1) : ¬ Unfolded op l := by
  rintro (h | h)
  · exact hadd h.1
  · exact hw h.2

include hQ

/-- The frame of all binary operators with rules for one constant operand. -/
lemma bcreateR_made {partialR partialL : (w : Nat) → BitVec w → Expr → Expr}
    (hR : ∀ w (v : BitVec w), Made Q ξ n (partialR w v r))
    (hL : ∀ w (v : BitVec w), Made Q ξ n (partialL w v l)) (hcreate : Made Q ξ n (create l r)) :
    Made Q ξ n (bcreateR op partialR partialL create l r) := by
  unfold bcreateR
  split
  · exact .constant hQ _ hcreate.one_le
  · exact hR _ _
  · exact hL _ _
  · exact hcreate

/-- The frame of the operators that fold two constants only. -/
lemma bcreate_made (hcreate : Made Q ξ n (create l r)) : Made Q ξ n (bcreate op create l r) := by
  unfold bcreate
  split
  · exact .constant hQ _ hcreate.one_le
  · exact hcreate

/-- The frame of the comparisons. -/
lemma cmpcreate_made {op : CmpOp} (hcreate : Made Q ξ n (create l r)) :
    Made Q ξ n (cmpcreate op create l r) := by
  unfold cmpcreate
  split
  · exact .boolExpr hQ _ hcreate.one_le
  · exact hcreate

section
variable (v : BitVec w) (hl : Made Q ξ m l) (hr : Made Q ξ k r)

include hr

variable {op : BinaryOp} {onBool : Expr → Expr → Expr}

/-- A constant and an operand weigh two more than the operand. -/
lemma term_made (hop : op.weight = 1) (hu : ¬ Unfolded op (constant w v)) :
    Made Q ξ (k + 2) (binary op (constant w v) r) := by
  have h := Made.binary hQ op (.constant hQ v le_rfl) hr hu
  exact h.mono (by omega)

lemma andPartial_made : Made Q ξ (k + 2) (andPartial w v r) := by
  unfold andPartial
  split
  · exact hr.mono (by omega)
  split
  · exact .constant hQ v (by omega)
  · exact .binary hQ .and hr (.constant hQ v le_rfl) (not_unfolded (by decide) rfl r)

lemma orPartial_made : Made Q ξ (k + 4) (orPartial w v r) := by
  unfold orPartial
  split
  · exact .constant hQ v (by omega)
  split
  · exact hr.mono (by omega)
  · exact .binary hQ .or hr (.constant hQ v le_rfl) (not_unfolded (by decide) rfl r)

section
include hl

/-- A term that is there already, or is there negated, makes the result lighter. -/
lemma absorbCreate_made (op : BinaryOp) (hadd : op ≠ .add) (hdiv : op.isDivision = false)
    (b : BitVec 1) : Made Q ξ (m + k + op.weight) (absorbCreate op (constant 1 b) l r) := by
  have hboth := Made.binary hQ op hl hr (not_unfolded hadd hdiv l)
  unfold absorbCreate
  split
  · cases habs : absorb op (constant 1 b) l r with
    | none => exact hboth
    | some e =>
      obtain ⟨t, -, hdec⟩ := List.exists_of_findSome?_eq_some habs
      split at hdec
      · cases hdec
        exact hr.mono (by omega)
      split at hdec
      · cases hdec
        exact .constant hQ b hboth.one_le
      · cases hdec
  · exact hboth

/-- A conjunction on the left is taken apart and its terms are added one by one. -/
lemma andCreate_made : Made Q ξ (m + k + 1) (andCreate l r) := by
  have hm := hl.one_le
  have hk := hr.one_le
  fun_induction andCreate l r generalizing m k with
  | case1 a b r ihb iha =>
    obtain ⟨ha, hb, hle⟩ := hl.binary_inv hQ
    change a.weight ξ + b.weight ξ + 1 ≤ m at hle
    refine bcreateR_made hQ (fun w v => (andPartial_made hQ v hr).mono (by omega))
      (fun w v => (andPartial_made hQ v hl).mono (by omega)) ?_
    have hbr := ihb r hb hr hb.one_le hk
    exact (iha r ha hbr ha.one_le hbr.one_le).mono (by omega)
  | case2 l r =>
    exact bcreateR_made hQ (fun w v => (andPartial_made hQ v hr).mono (by omega))
      (fun w v => (andPartial_made hQ v hl).mono (by omega))
      (absorbCreate_made hQ hl hr .and (by decide) rfl 0)

lemma orCreate_made : Made Q ξ (m + k + 3) (orCreate l r) := by
  have hm := hl.one_le
  have hk := hr.one_le
  fun_induction orCreate l r generalizing m k with
  | case1 a b r ihb iha =>
    obtain ⟨ha, hb, hle⟩ := hl.binary_inv hQ
    change a.weight ξ + b.weight ξ + 3 ≤ m at hle
    refine bcreateR_made hQ (fun w v => (orPartial_made hQ v hr).mono (by omega))
      (fun w v => (orPartial_made hQ v hl).mono (by omega)) ?_
    have hbr := ihb r hb hr hb.one_le hk
    exact (iha r ha hbr ha.one_le hbr.one_le).mono (by omega)
  | case2 l r =>
    exact bcreateR_made hQ (fun w v => (orPartial_made hQ v hr).mono (by omega))
      (fun w v => (orPartial_made hQ v hl).mono (by omega))
      (absorbCreate_made hQ hl hr .or (by decide) rfl 1)

lemma eqAlloc_made : Made Q ξ (m + k + 1) (eqAlloc l r) := by
  unfold eqAlloc
  split
  · exact .constant hQ 1 (by omega)
  split
  · exact .constant hQ 0 (by omega)
  · exact .cmp hQ .eq hl hr

end

lemma eqAlloc_constant_made : Made Q ξ (k + 2) (eqAlloc (constant w v) r) :=
  (eqAlloc_made hQ (.constant hQ v le_rfl) hr).mono (by omega)

/-- A constant on the left goes through negations, disjunctions, extensions and sums. -/
lemma eqPartialR_made : Made Q ξ (k + 2) (eqPartialR w v r) := by
  fun_induction eqPartialR w v r generalizing k with
  | case1 r v hv => exact hr.mono (by omega)
  | case2 a v hv =>
    obtain ⟨-, ha, hle⟩ := hr.cmp_inv hQ
    exact ha.mono (by omega)
  | case4 a b v hv iha ihb =>
    obtain ⟨ha, hb, hle⟩ := hr.binary_inv hQ
    change a.weight ξ + b.weight ξ + 3 ≤ k at hle
    have hone {e x : Expr} (hx : (∃ b, x = boolExpr b) ∨ x = eqPartialR e.width 0 e)
        (hpart : Made Q ξ (e.weight ξ + 2) (eqPartialR e.width 0 e)) :
        Made Q ξ (e.weight ξ + 2) x := by
      rcases hx with ⟨b, rfl⟩ | rfl
      · exact .boolExpr hQ _ (by omega)
      · exact hpart
    refine (andCreate_made hQ (hone ?_ (iha ha)) (hone ?_ (ihb hb))).mono (by omega)
    all_goals
      split
      · exact .inl ⟨_, rfl⟩
      · exact .inr rfl
  | case7 w v hw src n trunc hv hc =>
    rename_i ih
    obtain ⟨hsrc, hle⟩ := hr.sext_inv hQ
    exact (ih hsrc).mono (by omega)
  | case10 w v hw src n trunc hv hc =>
    rename_i ih
    obtain ⟨hsrc, hle⟩ := hr.zext_inv hQ
    exact (ih hsrc).mono (by omega)
  | case12 w v hw n j b ih | case13 w v hw n j b ih =>
    obtain ⟨hb, hle⟩ := hr.term_inv hQ
    exact (ih hb).mono (by omega)
  | case3 | case5 | case14 => exact eqAlloc_constant_made hQ _ hr
  | case6 | case9 => exact .boolExpr hQ _ (by omega)
  | case8 | case11 => exact .constant hQ _ (by omega)

section
include hl

lemma eqCreate_made : Made Q ξ (m + k + 1) (eqCreate l r) := by
  have hm := hl.one_le
  have hk := hr.one_le
  unfold eqCreate
  split
  · exact .boolExpr hQ _ (by omega)
  · exact (eqPartialR_made hQ _ hr).mono (by omega)
  · exact (eqPartialR_made hQ _ hl).mono (by omega)
  · exact eqAlloc_made hQ hl hr

end

/-- A negation weighs two more. -/
lemma createIsZero_made : Made Q ξ (k + 2) (createIsZero r) :=
  eqCreate_made hQ hr (.constant hQ 0 le_rfl)

/-! ## Add, Sub, Mul, Xor -/

lemma xorPartialR_made : Made Q ξ (k + 2) (xorPartialR w v r) := by
  unfold xorPartialR
  split
  · exact hr.mono (by omega)
  split
  · exact eqPartialR_made hQ _ hr
  · exact term_made hQ v hr rfl (not_unfolded (by decide) rfl _)

/-- The rules for a constant summand call each other, with smaller operands. -/
lemma partialR_made (s : Nat) (hs : r.size ≤ s) :
    Made Q ξ (k + 2) (addPartialR w v r) ∧ Made Q ξ (k + 2) (subPartialR w v r) := by
  induction s generalizing r k v with
  | zero => cases r <;> simp [Expr.size] at hs
  | succ s ih =>
    have hrec : ∀ {op : BinaryOp} {j : Nat} {u : BitVec j} {x : Expr},
        r = binary op (constant j u) x → ∀ v : BitVec w,
          Made Q ξ (k + 2) (addConst w v x) ∧ Made Q ξ (k + 2) (subConst w v x) := by
      rintro op j u x rfl v
      obtain ⟨hx, hle⟩ := hr.term_inv hQ
      have hsize : x.size ≤ s := by rw [Expr.size] at hs; omega
      obtain ⟨hadd, hsub⟩ := ih v hx hsize
      unfold addConst subConst
      constructor
      · split
        · exact .constant hQ _ (by omega)
        · exact hadd.mono (by omega)
      · split
        · exact .constant hQ _ (by omega)
        · exact hsub.mono (by omega)
    constructor
    · rw [addPartialR.eq_def]
      split
      · exact xorPartialR_made hQ v hr
      split
      · exact hr.mono (by omega)
      next hv =>
      split
      · exact (hrec rfl _).1
      · exact (hrec rfl _).2
      refine term_made hQ v hr rfl ?_
      rintro (⟨-, j, hzero⟩ | ⟨hdiv, -⟩)
      · obtain ⟨rfl, hzero⟩ := Expr.constant.inj hzero
        exact hv (eq_of_heq hzero)
      · cases hdiv
    · rw [subPartialR.eq_def]
      split
      · exact xorPartialR_made hQ v hr
      split
      · exact (hrec rfl _).2
      · exact (hrec rfl _).1
      · exact term_made hQ v hr rfl (not_unfolded (by decide) rfl _)

lemma addPartialR_made : Made Q ξ (k + 2) (addPartialR w v r) :=
  (partialR_made hQ v hr _ le_rfl).1

lemma addConst_made : Made Q ξ (k + 2) (addConst w v r) := by
  unfold addConst
  split
  · exact .constant hQ _ (by omega)
  · exact addPartialR_made hQ v hr

lemma subConst_made : Made Q ξ (k + 2) (subConst w v r) := by
  unfold subConst
  split
  · exact .constant hQ _ (by omega)
  · exact (partialR_made hQ v hr _ le_rfl).2

lemma subByConst_made : Made Q ξ (k + 2) (subByConst r w v) := by
  unfold subByConst
  split
  · exact .constant hQ _ (by omega)
  · exact addPartialR_made hQ _ hr

lemma mulPartialR_made : Made Q ξ (k + 2) (mulPartialR w v r) := by
  unfold mulPartialR
  split
  · exact andPartial_made hQ v hr
  split
  · exact hr.mono (by omega)
  split
  · exact .constant hQ v (by omega)
  · exact term_made hQ v hr rfl (not_unfolded (by decide) rfl _)

include hl

lemma neCreate_made : Made Q ξ (m + k + 3) (neCreate l r) :=
  (eqCreate_made hQ (.constant hQ 0 le_rfl) (eqCreate_made hQ hl hr)).mono (by omega)

lemma xorCreate_made : Made Q ξ (m + k + 1) (xorCreate l r) := by
  have hm := hl.one_le
  have hk := hr.one_le
  exact bcreateR_made hQ (fun w v => (xorPartialR_made hQ v hr).mono (by omega))
    (fun w v => (xorPartialR_made hQ v hl).mono (by omega))
    (.binary hQ .xor hl hr (not_unfolded (by decide) rfl _))

/-- The same for sums and differences of two expressions, by the size of both. -/
lemma addSub_made (s : Nat) (hs : l.size + r.size ≤ s) :
    Made Q ξ (m + k + 1) (addCreate l r) ∧ Made Q ξ (m + k + 1) (subCreate l r) := by
  induction s generalizing l r m k with
  | zero => cases l <;> simp [Expr.size] at hs
  | succ s ih =>
    have hm := hl.one_le
    have hk := hr.one_le
    have hleft : ∀ {op j} {u : BitVec j} {a : Expr}, l = binary op (constant j u) a →
        ∃ p, p + 2 ≤ m + k + 1 ∧ (Made Q ξ p (addCreate a r) ∧ Made Q ξ p (subCreate a r)) ∧
          Made Q ξ p (subCreate r a) := by
      rintro op j u a rfl
      obtain ⟨ha, hle⟩ := hl.term_inv hQ
      rw [Expr.size] at hs
      refine ⟨a.weight ξ + k + 1, by omega, ih ha hr (by omega), ?_⟩
      exact (ih hr ha (by omega)).2.mono (by omega)
    have hright : ∀ {op j} {u : BitVec j} {b : Expr}, r = binary op (constant j u) b →
        ∃ p, p + 2 ≤ m + k + 1 ∧ Made Q ξ p (addCreate l b) ∧ Made Q ξ p (subCreate l b) := by
      rintro op j u b rfl
      obtain ⟨hb, hle⟩ := hr.term_inv hQ
      rw [Expr.size.eq_def (binary _ _ _)] at hs
      exact ⟨m + b.weight ξ + 1, by omega, ih hl hb (by dsimp only at hs; omega)⟩
    constructor
    · rw [addCreate.eq_def]
      split
      · exact (addConst_made hQ _ hr).mono (by omega)
      · exact (addPartialR_made hQ _ hl).mono (by omega)
      next hconst _ =>
      split
      · exact .binary hQ .xor hl hr (not_unfolded (by decide) rfl _)
      split
      · obtain ⟨p, hp, h, -⟩ := hleft rfl
        exact (addConst_made hQ _ h.1).mono hp
      · obtain ⟨p, hp, -, h⟩ := hleft rfl
        exact (addConst_made hQ _ h).mono hp
      · obtain ⟨p, hp, h, -⟩ := hright rfl
        exact (addConst_made hQ _ h).mono hp
      · obtain ⟨p, hp, -, h⟩ := hright rfl
        exact (addConst_made hQ _ h).mono hp
      · refine .binary hQ .add hl hr ?_
        rintro (⟨-, j, rfl⟩ | ⟨hdiv, -⟩)
        · cases hconst
        · cases hdiv
    · rw [subCreate.eq_def]
      split
      · exact (subConst_made hQ _ hr).mono (by omega)
      · exact (subByConst_made hQ _ hl).mono (by omega)
      split
      · exact .binary hQ .xor hl hr (not_unfolded (by decide) rfl _)
      split
      · exact .constant hQ _ (by omega)
      split
      · obtain ⟨p, hp, h, -⟩ := hleft rfl
        exact (addConst_made hQ _ h.2).mono hp
      · obtain ⟨p, hp, h, -⟩ := hleft rfl
        exact (subConst_made hQ _ h.1).mono hp
      · obtain ⟨p, hp, -, h⟩ := hright rfl
        exact (subByConst_made hQ _ h).mono hp
      · obtain ⟨p, hp, h, -⟩ := hright rfl
        exact (subByConst_made hQ _ h).mono hp
      · exact .binary hQ .sub hl hr (not_unfolded (by decide) rfl _)

lemma mulCreate_made : Made Q ξ (m + k + 1) (mulCreate l r) := by
  have hm := hl.one_le
  have hk := hr.one_le
  refine bcreateR_made hQ (fun w v => (mulPartialR_made hQ v hr).mono (by omega))
    (fun w v => (mulPartialR_made hQ v hl).mono (by omega)) ?_
  split
  · exact .binary hQ .and hl hr (not_unfolded (by decide) rfl _)
  · exact .binary hQ .mul hl hr (not_unfolded (by decide) rfl _)

/-! ## Division, shifts, comparisons -/

lemma bcreate_bool_made (op : BinaryOp) (hadd : op ≠ .add)
    (hbool : Made Q ξ (m + k + op.weight) (onBool l r)) : Made Q ξ (m + k + op.weight)
      (bcreate op (fun l r => if l.width = 1 then onBool l r else binary op l r) l r) := by
  refine bcreate_made hQ ?_
  split
  · exact hbool
  · next hw => exact .binary hQ op hl hr (not_unfolded_of_width hadd hw)

lemma divCreate_made (hadd : op ≠ .add) : Made Q ξ (m + k + op.weight) (divCreate op l r) :=
  bcreate_bool_made hQ hl hr op hadd (hl.mono (by omega))

lemma remCreate_made (hadd : op ≠ .add) : Made Q ξ (m + k + op.weight) (remCreate op l r) :=
  bcreate_bool_made hQ hl hr op hadd (.constant hQ 0 (hl.one_le.trans (by omega)))

lemma shiftCreate_made (hadd : op ≠ .add) (hop : op.weight = 3) :
    Made Q ξ (m + k + op.weight) (shiftCreate op l r) :=
  bcreate_bool_made hQ hl hr op hadd
    ((andCreate_made hQ hl (createIsZero_made hQ hr)).mono (by omega))

lemma ashrCreate_made : Made Q ξ (m + k + 1) (ashrCreate l r) :=
  bcreate_bool_made hQ hl hr .ashr (by decide) (hl.mono (by omega))

/-- No binary operator builds more than itself. -/
lemma binaryCreate_made (op : BinaryOp) : Made Q ξ (m + k + op.weight) (binaryCreate op l r) := by
  cases op with
  | add => exact (addSub_made hQ hl hr _ le_rfl).1
  | sub => exact (addSub_made hQ hl hr _ le_rfl).2
  | mul => exact mulCreate_made hQ hl hr
  | udiv | sdiv => exact divCreate_made hQ hl hr (by decide)
  | urem | srem => exact remCreate_made hQ hl hr (by decide)
  | and => exact andCreate_made hQ hl hr
  | or => exact orCreate_made hQ hl hr
  | xor => exact xorCreate_made hQ hl hr
  | shl | lshr => exact shiftCreate_made hQ hl hr (by decide) rfl
  | ashr => exact ashrCreate_made hQ hl hr

lemma cmpcreate_bool_made (op : CmpOp)
    (hbool : Made Q ξ (m + k + op.weight) (onBool l r)) : Made Q ξ (m + k + op.weight)
      (cmpcreate op (fun l r => if l.width = 1 then onBool l r else .cmp op l r) l r) := by
  refine cmpcreate_made hQ ?_
  split
  · exact hbool
  · exact .cmp hQ op hl hr

lemma ultCreate_made : Made Q ξ (m + k + 3) (ultCreate l r) :=
  cmpcreate_bool_made hQ hl hr .ult
    ((andCreate_made hQ (createIsZero_made hQ hl) hr).mono (by simp only [CmpOp.weight]; omega))

lemma uleCreate_made : Made Q ξ (m + k + 5) (uleCreate l r) :=
  cmpcreate_bool_made hQ hl hr .ule
    ((orCreate_made hQ (createIsZero_made hQ hl) hr).mono (by simp only [CmpOp.weight]; omega))

lemma sltCreate_made : Made Q ξ (m + k + 3) (sltCreate l r) :=
  cmpcreate_bool_made hQ hl hr .slt
    ((andCreate_made hQ hl (createIsZero_made hQ hr)).mono (by simp only [CmpOp.weight]; omega))

lemma sleCreate_made : Made Q ξ (m + k + 5) (sleCreate l r) :=
  cmpcreate_bool_made hQ hl hr .sle
    ((orCreate_made hQ hl (createIsZero_made hQ hr)).mono (by simp only [CmpOp.weight]; omega))

/-- No comparison builds more than itself. -/
lemma cmpCreate_made (op : CmpOp) : Made Q ξ (m + k + op.weight) (cmpCreate op l r) := by
  have hcomm := add_comm k m
  cases op with
  | eq => exact eqCreate_made hQ hl hr
  | ne => exact neCreate_made hQ hl hr
  | ult => exact ultCreate_made hQ hl hr
  | ule => exact uleCreate_made hQ hl hr
  | ugt => exact hcomm ▸ ultCreate_made hQ hr hl
  | uge => exact hcomm ▸ uleCreate_made hQ hr hl
  | slt => exact sltCreate_made hQ hl hr
  | sle => exact sleCreate_made hQ hl hr
  | sgt => exact hcomm ▸ sltCreate_made hQ hr hl
  | sge => exact hcomm ▸ sleCreate_made hQ hr hl

end

/-! ## Select, Concat, Extract, casts -/

/-- A select of booleans is built from `And`, `Or` and a negation. -/
lemma selectCreate_made (hc : Made Q ξ n c) (hl : Made Q ξ m l) (hr : Made Q ξ k r) :
    Made Q ξ (n + m + k + 4) (selectCreate c l r) := by
  have hm := hl.one_le
  have hk := hr.one_le
  unfold selectCreate
  split
  · split
    · exact hl.mono (by omega)
    · exact hr.mono (by omega)
  split
  · exact hl.mono (by omega)
  split
  · split
    · split
      · exact (orCreate_made hQ hc hr).mono (by omega)
      · exact (andCreate_made hQ (createIsZero_made hQ hc) hr).mono (by omega)
    · split
      · exact (orCreate_made hQ (createIsZero_made hQ hc) hl).mono (by omega)
      · exact (andCreate_made hQ hc hl).mono (by omega)
    · exact .select hQ hc hl hr
  · exact .select hQ hc hl hr

lemma zextWiden_made (w : Nat) (he : Made Q ξ n e) : Made Q ξ (n + 1) (zextWiden e w) := by
  unfold zextWiden
  split
  · exact he.mono (by omega)
  split
  · exact .constant hQ _ (by omega)
  · next src _ =>
    obtain ⟨hsrc, hle⟩ := he.zext_inv hQ
    exact (hsrc.zext hQ w).mono (by omega)
  · exact he.zext hQ w

/-- What is asked of `ExtractExpr::create`. -/
def ExtractMade (Q : Expr → Prop) (ξ : Nat → Nat) (create : Expr → Nat → Nat → Expr) : Prop :=
  ∀ {e n} (offset w), Made Q ξ n e → Made Q ξ (2 * n) (create e offset w)

/-- Two extracts that lie next to each other are joined to one. -/
lemma concatWith_made {create : Expr → Nat → Nat → Expr} (hcreate : ExtractMade Q ξ create)
    (hl : Made Q ξ m l) (hr : Made Q ξ k r) :
    Made Q ξ (m + k + 1) (concatWith create l r) := by
  fun_induction concatWith create l r generalizing m k with
  | case1 r a b ihb iha =>
    obtain ⟨ha, hb, hle⟩ := hl.concat_inv hQ
    exact (iha ha (ihb hb hr)).mono (by omega)
  | case2 => exact .constant hQ _ (by omega)
  | case3 =>
    have hm := hl.one_le
    exact (zextWiden_made hQ _ hr).mono (by omega)
  | case5 e offset w e' offset' w' heq =>
    obtain ⟨rfl, -⟩ := heq
    obtain ⟨he, hle⟩ := hl.extract_inv hQ
    exact (hcreate _ _ he).mono (by omega)
  | case8 c t f t' f' iht ihf =>
    obtain ⟨hc, ht, hf, hle⟩ := hl.select_inv hQ
    obtain ⟨-, ht', hf', hle'⟩ := hr.select_inv hQ
    exact (selectCreate_made hQ hc (iht ht ht') (ihf hf hf')).mono (by omega)
  | case4 | case6 | case7 | case9 | case10 | case11 => exact .concat hQ hl hr

/-- By induction on the bound of the recursion; an extract of a concat goes into both halves, hence
the factor 2. -/
lemma extractBounded_made (bound : Nat) : ExtractMade Q ξ (extractBounded bound) := by
  induction bound using Nat.strong_induction_on with
  | _ bound ih =>
    intro e n offset w he
    have hn := he.one_le
    unfold extractBounded
    split
    · exact he.mono (by omega)
    split
    · exact .constant hQ _ (by omega)
    · next x y j _ =>
      obtain ⟨hx, hy, hle⟩ := he.concat_inv hQ
      have hj : ExtractMade Q ξ (extractBounded j) := ih j (Nat.lt_succ_self j)
      split
      · exact (hj _ _ hx).mono (by omega)
      split
      · exact (hj _ _ hy).mono (by omega)
      · exact (concatWith_made hQ hj (hj _ _ hx) (hj _ _ hy)).mono (by omega)
    · obtain ⟨hsrc, hle⟩ := he.zext_inv hQ
      split
      · exact hsrc.mono (by omega)
      split
      · exact .constant hQ _ (by omega)
      · exact he.extract hQ offset w
    · exact he.extract hQ offset w

lemma extractCreate_made : ExtractMade Q ξ extractCreate :=
  fun offset w he => extractBounded_made hQ _ offset w he

lemma zextCreate_made (he : Made Q ξ n e) (hw : e.width ≤ w) :
    Made Q ξ (n + 1) (zextCreate e w) := by
  unfold zextCreate
  split
  · exact he.mono (by omega)
  split
  · omega
  · exact zextWiden_made hQ w he

lemma sextCreate_made (he : Made Q ξ n e) (hw : e.width ≤ w) :
    Made Q ξ (n + 1) (sextCreate e w) := by
  unfold sextCreate
  split
  · exact he.mono (by omega)
  split
  · omega
  split
  · exact .constant hQ _ (by omega)
  · exact ⟨hQ.sext.2 he.keeps, Nat.add_le_add_right he.weight_le 1⟩

lemma notCreate_made (he : Made Q ξ n e) : Made Q ξ (n + 1) (notCreate e) := by
  unfold notCreate
  split
  · exact .constant hQ _ (by omega)
  · exact ⟨hQ.not.2 he.keeps, Nat.add_le_add_right he.weight_le 1⟩

lemma impliesCreate_made (hl : Made Q ξ m l) (hr : Made Q ξ k r) :
    Made Q ξ (m + k + 1) (impliesCreate l r) := by
  have hk := hr.one_le
  unfold impliesCreate
  split
  · split
    · exact hr.mono (by omega)
    · exact .constant hQ 1 (by omega)
  · split
    · exact .constant hQ 1 (by omega)
    · exact (createIsZero_made hQ hl).mono (by omega)
  · exact ⟨hQ.implies.2 ⟨hl.keeps, hr.keeps⟩,
      Nat.add_le_add_right (add_le_add hl.weight_le hr.weight_le) _⟩

/-! ## All of them -/

/-- The casts are used to widen; to a smaller width they extract. -/
def Operation.Widens : Operation → Prop
  | .zext e w => e.width ≤ w
  | .sext e w => e.width ≤ w
  | _ => True

/-- What the visitors need: rebuilding an expression from its operands makes it no heavier. -/
lemma Operation.create_made {o : Operation} (hwide : o.Widens) (ho : ∀ e ∈ o.operands, Q e) :
    Made Q ξ (o.plain.weight ξ) o.create := by
  have h : ∀ e ∈ o.operands, Made Q ξ (e.weight ξ) e := fun e he => ⟨ho e he, le_rfl⟩
  cases o <;> simp only [operands, List.forall_mem_cons] at h
  case notOptimized e => exact ⟨hQ.notOptimized.2 h.1.keeps, le_rfl⟩
  case select c t f => exact selectCreate_made hQ h.1 h.2.1 h.2.2.1
  case concat l r => exact concatWith_made hQ (extractCreate_made hQ) h.1 h.2.1
  case extract e offset w => exact extractCreate_made hQ offset w h.1
  case zext e w => exact zextCreate_made hQ h.1 hwide
  case sext e w => exact sextCreate_made hQ h.1 hwide
  case not e => exact notCreate_made hQ h.1
  case binary op l r => exact binaryCreate_made hQ h.1 h.2.1 op
  case cmp op l r => exact cmpCreate_made hQ h.1 h.2.1 op
  case implies l r => exact impliesCreate_made hQ h.1 h.2.1

/-- For the property alone the width of a cast does not matter. -/
lemma Operation.create_keeps {o : Operation} (ho : ∀ e ∈ o.operands, Q e) : Q o.create := by
  have hextract : ∀ {e} w, Q e → Q (extractCreate e 0 w) := fun w he =>
    (extractCreate_made hQ (ξ := fun _ => 0) 0 w ⟨he, le_rfl⟩).keeps
  by_cases hwide : o.Widens
  · exact (create_made hQ (ξ := fun _ => 0) hwide ho).keeps
  -- a cast to a smaller width
  cases o with
  | zext e w | sext e w =>
    have hlt : w < e.width := Nat.lt_of_not_le hwide
    simp only [create, zextCreate, sextCreate, if_neg hlt.ne, if_pos hlt]
    exact hextract w (ho e (.head _))
  | _ => exact absurd trivial hwide

end Made

end InputCovSched.Klee
