import InputCovSched.Klee.Create

/-!
# What an expression denotes

`Denotes S e w f`: under every environment of `S` the well-typed expression `e` of width `w` has
the value `f`. One rule for each node, and for each of the two macros that fold constants; they
are about values only, so that no width has to be rewritten.
-/

namespace InputCovSched.Klee

open BitVec

open Klee.Expr

structure Denotes (S : Env → Prop) (e : Expr) (w : Nat) (f : Env → BitVec w) : Prop where
  typed : e.WellTyped
  width : e.width = w
  value : ∀ ρ, S ρ → e.eval ρ w = f ρ

lemma Expr.width_pos : (e : Expr) → e.WellTyped → 0 < e.width
  | .constant _ _, h => h
  | .notOptimized e, h => e.width_pos h
  | .read _ _, _ => Nat.succ_pos 7
  | .select _ t _, h => t.width_pos h.2.1
  | .concat l _, h => Nat.add_pos_left (l.width_pos h.1) _
  | .extract _ _ _, h => h.2.1
  | .zext e _, h | .sext e _, h => (e.width_pos h.1).trans_le h.2
  | .not e, h => e.width_pos h
  | .binary _ l _, h => l.width_pos h.1
  | .cmp _ _ _, _ | .implies _ _, _ | .all _ _ _, _ => one_pos
  | .qvar _ _, h => h

variable {S : Env → Prop} {e l r : Expr} {w : Nat} {f g : Env → BitVec w}

lemma Expr.WellTyped.denotes (h : e.WellTyped) : Denotes S e e.width (e.eval · e.width) :=
  ⟨h, rfl, fun _ _ => rfl⟩

namespace Denotes

attribute [local simp] eval

lemma congr (h : Denotes S e w f) (hfg : ∀ ρ, S ρ → f ρ = g ρ) : Denotes S e w g :=
  ⟨h.typed, h.width, fun ρ hρ => (h.value ρ hρ).trans (hfg ρ hρ)⟩

lemma width_pos (h : Denotes S e w f) : 0 < w := h.width ▸ e.width_pos h.typed

/-! ## Nodes -/

lemma constant (hw : 0 < w) (v : BitVec w) : Denotes S (.constant w v) w fun _ => v :=
  ⟨hw, rfl, fun ρ _ => by simp⟩

lemma boolExpr (b : Bool) : Denotes S (boolExpr b) 1 fun _ => ofBool b :=
  constant one_pos _

lemma trueExpr : Denotes S trueExpr 1 fun _ => 1 := constant one_pos _

lemma falseExpr : Denotes S falseExpr 1 fun _ => 0 := constant one_pos _

lemma binary (op : BinaryOp) (hl : Denotes S l w f) (hr : Denotes S r w g) :
    Denotes S (.binary op l r) w fun ρ => op.apply (f ρ) (g ρ) :=
  ⟨⟨hl.typed, hr.typed, hl.width.trans hr.width.symm⟩, hl.width, fun ρ hρ => by
    rw [eval, hl.value ρ hρ, hr.value ρ hρ]⟩

lemma cmp (op : CmpOp) (hl : Denotes S l w f) (hr : Denotes S r w g) :
    Denotes S (.cmp op l r) 1 fun ρ => ofBool (op.holds (f ρ) (g ρ)) := by
  obtain rfl := hl.width
  refine ⟨⟨hl.typed, hr.typed, hr.width.symm⟩, rfl, fun ρ hρ => ?_⟩
  rw [eval, hl.value ρ hρ, hr.value ρ hρ, setWidth_eq]

lemma select (hc : Denotes S c 1 b) (hl : Denotes S l w f)
    (hr : Denotes S r w g) : Denotes S (.select c l r) w fun ρ => if b ρ = 1 then f ρ else g ρ :=
  ⟨⟨hc.typed, hl.typed, hr.typed, hc.width, hl.width.trans hr.width.symm⟩, hl.width,
    fun ρ hρ => by rw [eval, hc.value ρ hρ, hl.value ρ hρ, hr.value ρ hρ]⟩

lemma read (hu : u.WellTyped) (hi : Denotes S e 32 i) :
    Denotes S (.read u e) 8 fun ρ => u.byteAt ρ (i ρ) :=
  ⟨⟨hu, hi.typed, hi.width⟩, rfl, fun ρ hρ => by rw [eval, hi.value ρ hρ, setWidth_eq]⟩

lemma concat {g : Env → BitVec w'} (hl : Denotes S l w f) (hr : Denotes S r w' g) :
    Denotes S (.concat l r) (w + w') fun ρ => f ρ ++ g ρ := by
  obtain rfl := hl.width
  obtain rfl := hr.width
  refine ⟨⟨hl.typed, hr.typed⟩, rfl, fun ρ hρ => ?_⟩
  rw [eval, hl.value ρ hρ, hr.value ρ hρ, setWidth_eq]

variable {n : Nat}

section
variable (h : Denotes S e w f)
include h

lemma extract {offset : Nat} (hn : 0 < n) (hle : offset + n ≤ w) :
    Denotes S (.extract e offset n) n fun ρ => (f ρ).extractLsb' offset n := by
  obtain rfl := h.width
  refine ⟨⟨h.typed, hn, hle⟩, rfl, fun ρ hρ => ?_⟩
  rw [eval, h.value ρ hρ, setWidth_eq]

lemma zext (hle : w ≤ n) : Denotes S (.zext e n) n fun ρ => (f ρ).setWidth n := by
  obtain rfl := h.width
  refine ⟨⟨h.typed, hle⟩, rfl, fun ρ hρ => ?_⟩
  rw [eval, h.value ρ hρ, setWidth_eq]

lemma sext (hle : w ≤ n) : Denotes S (.sext e n) n fun ρ => (f ρ).signExtend n := by
  obtain rfl := h.width
  refine ⟨⟨h.typed, hle⟩, rfl, fun ρ hρ => ?_⟩
  rw [eval, h.value ρ hρ, setWidth_eq]

lemma not : Denotes S (.not e) w fun ρ => ~~~ f ρ :=
  ⟨h.typed, h.width, fun ρ hρ => by rw [eval, h.value ρ hρ]⟩

lemma notOptimized : Denotes S (.notOptimized e) w f :=
  ⟨h.typed, h.width, fun ρ hρ => by rw [eval, h.value ρ hρ]⟩

end

lemma implies {f g : Env → BitVec 1} (hl : Denotes S l 1 f) (hr : Denotes S r 1 g) :
    Denotes S (.implies l r) 1 fun ρ => if f ρ = 1 then g ρ else 1 :=
  ⟨⟨hl.typed, hr.typed, hl.width, hr.width⟩, rfl, fun ρ hρ => by
    rw [eval, hl.value ρ hρ, hr.value ρ hρ]; rfl⟩

/-! ## Operands -/

lemma binary_inv (h : Denotes S (.binary op l r) w f) :
    Denotes S l w (l.eval · w) ∧ Denotes S r w (r.eval · w) ∧
      ∀ ρ, S ρ → f ρ = op.apply (l.eval ρ w) (r.eval ρ w) :=
  ⟨⟨h.typed.1, h.width, fun _ _ => rfl⟩,
    ⟨h.typed.2.1, h.typed.2.2.symm.trans h.width, fun _ _ => rfl⟩,
    fun ρ hρ => (h.value ρ hρ).symm⟩

lemma cmp_inv {f : Env → BitVec 1} (h : Denotes S (.cmp op l r) 1 f) :
    Denotes S l l.width (l.eval · l.width) ∧ Denotes S r l.width (r.eval · l.width) ∧
      ∀ ρ, S ρ → f ρ = ofBool (op.holds (l.eval ρ l.width) (r.eval ρ l.width)) :=
  ⟨⟨h.typed.1, rfl, fun _ _ => rfl⟩, ⟨h.typed.2.1, h.typed.2.2.symm, fun _ _ => rfl⟩,
    fun ρ hρ => by rw [← h.value ρ hρ, eval, setWidth_eq]⟩

lemma select_inv (h : Denotes S (.select c l r) w f) :
    Denotes S c 1 (c.eval · 1) ∧ Denotes S l w (l.eval · w) ∧ Denotes S r w (r.eval · w) ∧
      ∀ ρ, S ρ → f ρ = if c.eval ρ 1 = 1 then l.eval ρ w else r.eval ρ w := by
  obtain ⟨hc, hl, hr, hcw, hlr⟩ := h.typed
  exact ⟨⟨hc, hcw, fun _ _ => rfl⟩, ⟨hl, h.width, fun _ _ => rfl⟩,
    ⟨hr, hlr.symm.trans h.width, fun _ _ => rfl⟩, fun ρ hρ => (h.value ρ hρ).symm⟩

lemma sext_inv (h : Denotes S (.sext e n) w f) :
    e.WellTyped ∧ e.width ≤ w ∧ ∀ ρ, S ρ → f ρ = (e.eval ρ e.width).signExtend w := by
  obtain rfl : n = w := h.width
  exact ⟨h.typed.1, h.typed.2, fun ρ hρ => by rw [← h.value ρ hρ, eval, setWidth_eq]⟩

lemma zext_inv (h : Denotes S (.zext e n) w f) :
    e.WellTyped ∧ e.width ≤ w ∧ ∀ ρ, S ρ → f ρ = (e.eval ρ e.width).setWidth w := by
  obtain rfl : n = w := h.width
  exact ⟨h.typed.1, h.typed.2, fun ρ hρ => by rw [← h.value ρ hρ, eval, setWidth_eq]⟩

lemma constant_inv (h : Denotes S (.constant n v) w f) : n = w ∧ ∀ ρ, S ρ → f ρ = v.setWidth w :=
  ⟨h.width, fun ρ hρ => (h.value ρ hρ).symm⟩

lemma asConstant_some (h : Denotes S e w f) (he : e.asConstant = some ⟨n, v⟩) :
    n = w ∧ ∀ ρ, S ρ → f ρ = v.setWidth w := by
  unfold asConstant at he
  split at he
  · cases he; exact h.constant_inv
  · cases he

end Denotes

/-! ## The macros -/

section Macros

section
variable (hl : Denotes S l w f) (hr : Denotes S r w g)
include hl hr

lemma bcreateR_denotes
    (hR : ∀ v : BitVec w, Denotes S (partialR w v r) w fun ρ => op.apply v (g ρ))
    (hL : ∀ v : BitVec w, Denotes S (partialL w v l) w fun ρ => op.apply (f ρ) v)
    (hc : Denotes S (create l r) w fun ρ => op.apply (f ρ) (g ρ)) :
    Denotes S (bcreateR op partialR partialL create l r) w fun ρ => op.apply (f ρ) (g ρ) := by
  unfold bcreateR
  split
  · next ha hb =>
    obtain ⟨rfl, hf⟩ := hl.asConstant_some ha
    obtain ⟨rfl, hg⟩ := hr.asConstant_some hb
    refine (Denotes.constant hl.width_pos _).congr fun ρ hρ => ?_
    simp only [hf ρ hρ, hg ρ hρ, setWidth_eq]
  · next ha _ =>
    obtain ⟨rfl, hf⟩ := hl.asConstant_some ha
    refine (hR _).congr fun ρ hρ => ?_
    rw [hf ρ hρ, setWidth_eq]
  · next hb =>
    obtain ⟨rfl, hg⟩ := hr.asConstant_some hb
    refine (hL _).congr fun ρ hρ => ?_
    rw [hg ρ hρ, setWidth_eq]
  · exact hc

lemma bcreate_denotes (hc : Denotes S (create l r) w fun ρ => op.apply (f ρ) (g ρ)) :
    Denotes S (bcreate op create l r) w fun ρ => op.apply (f ρ) (g ρ) := by
  unfold bcreate
  split
  · next ha hb =>
    obtain ⟨rfl, hf⟩ := hl.asConstant_some ha
    obtain ⟨rfl, hg⟩ := hr.asConstant_some hb
    refine (Denotes.constant hl.width_pos _).congr fun ρ hρ => ?_
    simp only [hf ρ hρ, hg ρ hρ, setWidth_eq]
  · exact hc

lemma cmpcreate_denotes {op : CmpOp}
    (hc : Denotes S (create l r) 1 fun ρ => ofBool (op.holds (f ρ) (g ρ))) :
    Denotes S (cmpcreate op create l r) 1 fun ρ => ofBool (op.holds (f ρ) (g ρ)) := by
  unfold cmpcreate
  split
  · next ha hb =>
    obtain ⟨rfl, hf⟩ := hl.asConstant_some ha
    obtain ⟨rfl, hg⟩ := hr.asConstant_some hb
    refine (Denotes.boolExpr _).congr fun ρ hρ => ?_
    simp only [hf ρ hρ, hg ρ hρ, setWidth_eq]
  · exact hc

end

end Macros

end InputCovSched.Klee
