import InputCovSched.Klee.Replace
import InputCovSched.Lib.Fuel

/-!
# The constraint manager (`Constraints.cpp`)

    simplifyExpr  known equalities are put into an expression (`ExprReplaceVisitor2`)
    addConstraint  simplified, split at `And`; an equality with a constant is put into the
      constraints that are there, and what changes is added again

The constraints are the terms of one `And`. Two recursions are not structural: a rebuilt node is
visited again, and a rewritten constraint is added again; both are modelled over fuel, and both
end because a rewritten expression weighs less.
-/

namespace InputCovSched.Klee

open Klee.Expr

/-- How a call ends that does not return. -/
inductive Stop where
  | fuel
  /-- a constraint that is false -/
  | contradiction
  deriving DecidableEq

/-- `ExprReplaceVisitor2::visitExprPost`; the first equality that was inserted for an expression
counts. -/
def visitExprPost (equalities : List (Expr × Expr)) (e : Expr) : Expr :=
  if e.isConstant then e else (equalities.lookup e).getD e

/-- `ExprReplaceVisitor2`, a recursive visitor: a node that was rebuilt is visited again. -/
def simplifyVisit (equalities : List (Expr × Expr)) : Nat → Expr → Except Stop Expr
  | 0, _ => throw .fuel
  | fuel + 1, e =>
    match e with
    | constant w v => return constant w v
    | qvar name w => return qvar name w
    | .read u i => do
      let i' ← simplifyVisit equalities fuel i
      let e' ←
        if i' = i then pure (read u i) else simplifyVisit equalities fuel (readCreate u i')
      return visitExprPost equalities e'
    | all name w body => do
      let body' ← simplifyVisit equalities fuel body
      let e' ←
        if body' = body then pure (all name w body)
        else simplifyVisit equalities fuel (forallCreate name w body')
      return visitExprPost equalities e'
    | e =>
      match e.asOperation with
      | some o => do
        let o' ← o.mapM (simplifyVisit equalities fuel)
        let e' ← if o'.plain = e then pure e else simplifyVisit equalities fuel o'.create
        return visitExprPost equalities e'
      | none => return e

structure ConstraintManager where
  summary : Expr := trueExpr
  size : Nat := 0
  deriving DecidableEq

namespace ConstraintManager

def terms (cm : ConstraintManager) : List Expr :=
  if cm.summary = trueExpr then [] else cm.summary.naryTerms .and

def pushConstraint (cm : ConstraintManager) (e : Expr) : ConstraintManager where
  summary := andCreate e cm.summary
  size := cm.size + 1

/-- The equality that a constraint is known to state. -/
def equality : Expr → Expr × Expr
  | .cmp .eq l r => if l.isConstant then (r, l) else (.cmp .eq l r, trueExpr)
  | e => (e, trueExpr)

def simplifyExpr (fuel : Nat) (cm : ConstraintManager) (e : Expr) : Except Stop Expr :=
  if e.isConstant then return e else simplifyVisit (cm.terms.map equality) fuel e

/-- The loop of `rewriteConstraints`, over the constraints that were there. -/
def rewriteLoop (visit : Expr → Expr)
    (add : ConstraintManager → Expr → Except Stop ConstraintManager) :
    List Expr → ConstraintManager → Bool → Except Stop (ConstraintManager × Bool)
  | [], cm, changed => return (cm, changed)
  | ce :: rest, cm, changed => do
    if visit ce ≠ ce then
      rewriteLoop visit add rest (← add cm (visit ce)) true
    else
      rewriteLoop visit add rest (cm.pushConstraint ce) changed

def rewriteConstraints (visit : Expr → Expr)
    (add : ConstraintManager → Expr → Except Stop ConstraintManager) (old : ConstraintManager) :
    Except Stop ConstraintManager := do
  let (cm, changed) ← rewriteLoop visit add old.terms {} false
  return if changed then cm else old

def addConstraintWithSimplification :
    Nat → ConstraintManager → Expr → Except Stop ConstraintManager
  | 0, _, _ => throw .fuel
  | fuel + 1, cm, e =>
    match e with
    | constant _ v => if isTrueBits v then return cm else throw .contradiction
    | binary .and l r => do
      let cm ← addConstraintWithSimplification fuel cm l
      addConstraintWithSimplification fuel cm r
    | .cmp .eq l r => do
      let cm ←
        if l.isConstant then
          rewriteConstraints (replaceVisit r l true) (addConstraintWithSimplification fuel) cm
        else pure cm
      return cm.pushConstraint (.cmp .eq l r)
    | e => return cm.pushConstraint e

def addConstraint (fuel : Nat) (cm : ConstraintManager) (e : Expr) :
    Except Stop ConstraintManager := do
  addConstraintWithSimplification fuel cm (← cm.simplifyExpr fuel e)

def addConstraints (fuel : Nat) (cm : ConstraintManager) (es : List Expr) :
    Except Stop ConstraintManager := es.foldlM (addConstraint fuel) cm

end ConstraintManager

/-! ## Weights -/

attribute [local simp] Operation.operands

lemma Operation.plain_weight_lt {ξ : Nat → Nat} {g : Expr → Expr} {o : Operation}
    (h : ∀ e ∈ o.operands, g e = e ∨ (g e).weight ξ < e.weight ξ) :
    (o.map g).plain = o.plain ∨ (o.map g).plain.weight ξ < o.plain.weight ξ := by
  cases o with
  | select c t f =>
    rcases h c (.head _) with hc | hc <;> rcases h t (by simp) with ht | ht <;>
      rcases h f (by simp) with hf | hf <;> simp only [map, plain, weight, *] <;>
      first | exact .inl trivial | (right; omega)
  | notOptimized e | extract e | zext e | sext e | not e =>
    rcases h e (.head _) with he | he <;> simp only [map, plain, weight, *] <;>
      first | exact .inl trivial | (right; omega)
  | concat l r | binary _ l r | cmp _ l r | implies l r =>
    rcases h l (.head _) with hl | hl <;> rcases h r (by simp) with hr | hr <;>
      simp only [map, plain, weight, *] <;> first | exact .inl trivial | (right; omega)

/-! ## Simplifying -/

section Simplify

variable {S : Env → Prop} {equalities : List (Expr × Expr)} {e : Expr}

structure Visited (S : Env → Prop) (e e' : Expr) : Prop where
  replaced : Replaced S none id e e'
  lighter : e' = e ∨ e'.mass < e.mass

/-- Equalities that hold on `S`, with constants. -/
def Known (S : Env → Prop) (equalities : List (Expr × Expr)) : Prop :=
  ∀ p ∈ equalities, p.2.isConstant = true ∧ Replaced S none id p.1 p.2

lemma Visited.refl (typed : e.WellTyped) (hc : e.Clean none) : Visited S e e :=
  ⟨⟨hc, typed, rfl, fun _ _ => rfl⟩, .inl rfl⟩

lemma Visited.mass_le (h : Visited S e e₁) : e₁.mass ≤ e.mass := by
  rcases h.lighter with rfl | hlt
  · exact le_rfl
  · exact hlt.le

lemma Visited.post (hknown : Known S equalities) (h : Visited S e e₁) (he : 2 ≤ e.mass) :
    Visited S e (visitExprPost equalities e₁) := by
  unfold visitExprPost
  split
  · exact h
  cases hlook : equalities.lookup e₁ with
  | none => exact h
  | some v =>
    have hmem : (e₁, v) ∈ equalities := by
      obtain ⟨l₁, l₂, heq, -⟩ := List.lookup_eq_some_iff.1 hlook
      simp [heq]
    obtain ⟨hconst, hrep⟩ := hknown _ hmem
    refine ⟨h.replaced.trans hrep, .inr ?_⟩
    cases v with
    | constant => exact he
    | _ => cases hconst

lemma Operation.mapM_settles {F : Nat → Expr → Except Stop Expr} {g : Expr → Expr}
    {o : Operation} (h : ∀ e ∈ o.operands, Settles (F · e) (.ok (g e))) :
    Settles (fun fuel => o.mapM (F fuel)) (.ok (o.map g)) := by
  -- one, two or three calls, and the operator of their results
  have one : ∀ {e} (k : Expr → Operation), e ∈ o.operands →
      Settles (fun fuel => F fuel e >>= fun x => pure (k x)) (.ok (k (g e)) : Except Stop Operation) :=
    fun k he => (h _ he).bind (F := fun _ x => x >>= fun x => pure (k x)) (.const _)
  have two : ∀ {l r} (k : Expr → Expr → Operation), l ∈ o.operands → r ∈ o.operands →
      Settles (fun fuel => F fuel l >>= fun x => F fuel r >>= fun y => pure (k x y))
        (.ok (k (g l) (g r)) : Except Stop Operation) :=
    fun k hl hr => (h _ hl).bind (F := fun n x => x >>= fun x => F n _ >>= fun y => pure (k x y))
      (one (k _) hr)
  cases o with
  | notOptimized e => exact one .notOptimized (.head _)
  | select c t f =>
    exact (h c (.head _)).bind (F := fun n x =>
        x >>= fun x => F n t >>= fun y => F n f >>= fun z => pure (Operation.select x y z))
      (two (.select (g c)) (by simp) (by simp))
  | concat l r => exact two .concat (.head _) (by simp)
  | extract e offset w => exact one (.extract · offset w) (.head _)
  | zext e w => exact one (.zext · w) (.head _)
  | sext e w => exact one (.sext · w) (.head _)
  | not e => exact one .not (.head _)
  | binary op l r => exact two (.binary op) (.head _) (by simp)
  | cmp op l r => exact two (.cmp op) (.head _) (by simp)
  | implies l r => exact two .implies (.head _) (by simp)

lemma simplifyVisit_plain (fuel : Nat) (o : Operation) :
    simplifyVisit equalities (fuel + 1) o.plain = do
      let o' ← o.mapM (simplifyVisit equalities fuel)
      let e' ← if o'.plain = o.plain then pure o.plain else simplifyVisit equalities fuel o'.create
      return visitExprPost equalities e' := by
  cases o <;> rfl

lemma again_settles {new : Expr} {same : Prop} [Decidable same] (hknown : Known S equalities)
    (he : 2 ≤ e.mass) (typed : e.WellTyped) (hc : e.Clean none)
    (hnew : same ∨ Replaced S none id e new ∧ new.mass < e.mass ∧
      ∃ e', Settles (simplifyVisit equalities · new) (.ok e') ∧ Visited S new e') :
    ∃ e', Settles (fun fuel => do
        let e' ← if same then pure e else simplifyVisit equalities fuel new
        return visitExprPost equalities e') (.ok e' : Except Stop Expr) ∧ Visited S e e' := by
  by_cases h : same
  · simp only [if_pos h]
    exact ⟨_, .const _, (Visited.refl typed hc).post hknown he⟩
  obtain ⟨hrep, hlt, e', hset, hvis⟩ := hnew.resolve_left h
  have hvis' : Visited S e e' := ⟨hrep.trans hvis.replaced, .inr (hvis.mass_le.trans_lt hlt)⟩
  simp only [if_neg h]
  exact ⟨_, hset.bind (F := fun _ x => x >>= fun x => pure (visitExprPost equalities x)) (.const _),
    hvis'.post hknown he⟩

/-- The visitor ends, and keeps the value on `S`. -/
lemma simplifyVisit_settles (hknown : Known S equalities) (m : Nat) :
    ∀ e : Expr, e.mass ≤ m → e.WellTyped → e.Clean none →
      ∃ e', Settles (simplifyVisit equalities · e) (.ok e') ∧ Visited S e e' := by
  induction m with
  | zero =>
    intro e hm
    have hpos : 1 ≤ e.mass := e.one_le_weight _
    omega
  | succ m ih =>
    intro e hm typed hc
    cases e using Expr.operationRec with
    | constant w v => exact ⟨_, (Settles.const _).step fun _ => rfl, .refl typed hc⟩
    | qvar name w => cases hc.1
    | all => exact hc.elim
    | read u i =>
      have hlt : i.mass < (read u i).mass := u.lt_weight _ _
      obtain ⟨i', hset, hvis⟩ := ih i (by omega) typed.2.1 hc.2
      have hi := hvis.replaced.denotes
      rw [typed.2.2] at hi
      have hread : Replaced S none id (read u i) (readCreate u i') :=
        ⟨readCreate_clean hc.1 hvis.replaced.clean,
          (readCreate_denotes typed.1 hc.1 hi hvis.replaced.clean).congr fun ρ _ =>
            (BitVec.setWidth_eq _).symm⟩
      have hnew : i' = i ∨ Replaced S none id (read u i) (readCreate u i') ∧
          (readCreate u i').mass < (read u i).mass ∧ ∃ e',
            Settles (simplifyVisit equalities · (readCreate u i')) (.ok e') ∧
              Visited S (readCreate u i') e' := by
        refine hvis.lighter.imp_right fun hlight => ?_
        have hmass : (readCreate u i').mass < (read u i).mass :=
          (readCreate_weight _ u i').trans_lt (u.weight_lt hlight _)
        exact ⟨hread, hmass, ih _ (by omega) hread.denotes.typed hread.clean⟩
      obtain ⟨e', hend, hvis'⟩ := again_settles hknown (two_le_weight _ rfl (by simp)) typed hc hnew
      exact ⟨e', (hset.bind (F := fun fuel x => do
        let i' ← x
        let e' ← if i' = i then pure (read u i) else simplifyVisit equalities fuel (readCreate u i')
        return visitExprPost equalities e') hend).step fun _ => rfl, hvis'⟩
    | operation o =>
      obtain ⟨htyped, -, hwide⟩ := Operation.plain_wellTyped typed
      have hkids := (clean_hereditary none).plain_operands hc
      have hvisit : ∀ e ∈ o.operands, ∃ e', Settles (simplifyVisit equalities · e) (.ok e') ∧
          Visited S e e' := by
        intro e he
        have hlt : e.mass < o.plain.mass := o.operand_lt he _
        exact ih e (by omega) (htyped e he) (hkids e he)
      choose! g hset hvis using hvisit
      have hreb := Replaced.rebuild typed hc fun e he => (hvis e he).replaced
      have hnew : (o.map g).plain = o.plain ∨ Replaced S none id o.plain (o.map g).create ∧
          (o.map g).create.mass < o.plain.mass ∧ ∃ e',
            Settles (simplifyVisit equalities · (o.map g).create) (.ok e') ∧
              Visited S (o.map g).create e' := by
        by_cases hsame : (o.map g).plain = o.plain
        · exact .inl hsame
        right
        rw [Operation.rebuild, if_neg hsame] at hreb
        have hlight : (o.map g).plain.mass < o.plain.mass :=
          (Operation.plain_weight_lt fun e he => (hvis e he).lighter).resolve_left hsame
        have hwide' : (o.map g).Widens :=
          Operation.map_widens hwide fun e he => (hvis e he).replaced.denotes.width
        have hmass : (o.map g).create.mass < o.plain.mass :=
          (Operation.create_made hereditary_true hwide' fun _ _ => trivial).weight_le.trans_lt hlight
        exact ⟨hreb, hmass, ih _ (by omega) hreb.denotes.typed hreb.clean⟩
      have htwo : 2 ≤ o.plain.mass :=
        two_le_weight _ (by cases o <;> rfl) (by cases o <;> simp [Operation.plain])
      obtain ⟨e', hend, hvis'⟩ := again_settles hknown htwo typed hc hnew
      exact ⟨e', ((Operation.mapM_settles hset).bind (F := fun fuel x => do
        let o' ← x
        let e' ← if o'.plain = o.plain then pure o.plain
          else simplifyVisit equalities fuel o'.create
        return visitExprPost equalities e') hend).step fun fuel => simplifyVisit_plain fuel o, hvis'⟩

end Simplify

/-! ## The constraints that are held -/

/-- A boolean that was built by `create`. -/
structure IsConstraint (e : Expr) : Prop where
  typed : e.WellTyped
  width : e.width = 1
  clean : e.Clean none

abbrev Condition := {e : Expr // IsConstraint e}

variable {S : Env → Prop}

lemma IsConstraint.denotes {e : Expr} (h : IsConstraint e) :
    Denotes S e 1 (e.eval · 1) := ⟨h.typed, h.width, fun _ _ => rfl⟩

lemma IsConstraint.binary_inv (h : IsConstraint (binary op l r)) :
    IsConstraint l ∧ IsConstraint r :=
  have hw : l.width = 1 := h.width
  ⟨⟨h.typed.1, hw, h.clean.2.1⟩, ⟨h.typed.2.1, h.typed.2.2.symm.trans hw, h.clean.2.2⟩⟩

lemma createIsZero_isConstraint (h : IsConstraint e) : IsConstraint (createIsZero e) := by
  have hd := createIsZero_bool (S := fun _ => True) h.denotes h.clean.zeroSumFree
  have hzero : (constant e.width 0).Clean none := trivial
  exact ⟨hd.typed, hd.width, (eqCreate_made (clean_hereditary none) (ξ := fun _ => 0)
    ⟨h.clean, le_rfl⟩ ⟨hzero, le_rfl⟩).keeps⟩

def Condition.createIsZero (e : Condition) : Condition :=
  ⟨Klee.createIsZero e.1, createIsZero_isConstraint e.2⟩

lemma createIsZero_holds (h : IsConstraint e) (ρ : Env) :
    (createIsZero e).Holds ρ ↔ ¬ e.Holds ρ := by
  have hd := (createIsZero_bool (S := fun _ => True) h.denotes h.clean.zeroSumFree).value ρ trivial
  have hbits : ∀ x : BitVec 1, ~~~ x = 1 ↔ ¬ x = 1 := by decide
  unfold Expr.Holds
  rw [hd]
  exact hbits _

section
variable {e e' : Expr} (h : IsConstraint e) (he : Replaced S none id e e')
include h he

lemma IsConstraint.replaced : IsConstraint e' :=
  ⟨he.denotes.typed, he.denotes.width.trans h.width, he.clean⟩

lemma holds_replaced (hρ : S ρ) : e'.Holds ρ ↔ e.Holds ρ := by
  have hval := he.denotes.value ρ hρ
  rw [h.width] at hval
  unfold Expr.Holds
  rw [hval, id_eq]

end

lemma holds_and (l r : Expr) (ρ : Env) : (binary .and l r).Holds ρ ↔ l.Holds ρ ∧ r.Holds ρ := by
  have hbits : ∀ x y : BitVec 1, x &&& y = 1 ↔ x = 1 ∧ y = 1 := by decide
  exact hbits _ _

lemma naryTerms_mass (s : Expr) :
    ((s.naryTerms .and).map fun t => t.mass + 1).sum = s.mass + 1 := by
  fun_induction Expr.naryTerms .and s with
  | case1 l r ih =>
    rw [List.map_cons, List.sum_cons, ih]
    simp only [Expr.mass, weight, BinaryOp.weight]
    omega
  | case2 => simp
  | case3 => simp

lemma naryTerms_isConstraint (s : Expr) (h : IsConstraint s) :
    ∀ t ∈ s.naryTerms op, IsConstraint t := by
  fun_induction Expr.naryTerms op s with
  | case1 l r ih =>
    obtain ⟨hl, hr⟩ := h.binary_inv
    simpa [hl] using ih hr
  | case2 => simpa using h
  | case3 => simpa using h

lemma naryTerms_holds (s : Expr) (ρ : Env) : s.Holds ρ ↔ ∀ t ∈ s.naryTerms .and, t.Holds ρ := by
  fun_induction Expr.naryTerms .and s with
  | case1 l r ih => rw [holds_and, ih, List.forall_mem_cons]
  | case2 => simp
  | case3 => simp

lemma andCreate_true (hw : e.width = 1) : andCreate e trueExpr = e := by
  have hones : (1 : BitVec 1) = BitVec.allOnes 1 := by decide
  have hpart : ∀ l : Expr, andPartial 1 1 l = l := fun l => by rw [andPartial, if_pos hones]
  have hbits : ∀ v : BitVec 1, v &&& 1 = v := by decide
  cases e with
  | constant w v =>
    obtain rfl : w = 1 := hw
    exact congrArg (constant 1) (hbits v)
  | binary op l r => cases op <;> exact hpart _
  | _ => exact hpart _

namespace ConstraintManager

variable {cm cm' : ConstraintManager} {e t : Expr}

def Ok (cm : ConstraintManager) : Prop := IsConstraint cm.summary

def Holds (cm : ConstraintManager) (ρ : Env) : Prop := cm.summary.Holds ρ

def load (cm : ConstraintManager) : Nat := (cm.terms.map fun t => t.mass + 1).sum

lemma empty_ok : Ok {} := ⟨one_pos, rfl, trivial⟩

lemma empty_holds (ρ : Env) : Holds {} ρ := rfl

lemma terms_isConstraint (h : cm.Ok) : ∀ t ∈ cm.terms, IsConstraint t := by
  unfold terms
  split
  · simp
  · exact naryTerms_isConstraint _ h

lemma holds_iff_terms (cm : ConstraintManager) (ρ : Env) :
    cm.Holds ρ ↔ ∀ t ∈ cm.terms, t.Holds ρ := by
  unfold terms Holds
  split
  · next h =>
    rw [h]
    exact ⟨fun _ _ ht => (List.not_mem_nil ht).elim, fun _ => rfl⟩
  · exact naryTerms_holds _ ρ

lemma load_le (cm : ConstraintManager) : cm.load ≤ cm.summary.mass + 1 := by
  unfold load terms
  split
  · exact Nat.zero_le _
  · exact (naryTerms_mass _).le

section
variable (hcm : cm.Ok) (he : IsConstraint e)
include hcm he

lemma pushConstraint_denotes :
    Denotes S (cm.pushConstraint e).summary 1 fun ρ => e.eval ρ 1 &&& cm.summary.eval ρ 1 :=
  andCreate_denotes he.denotes hcm.denotes

lemma pushConstraint_ok : (cm.pushConstraint e).Ok := by
  have hd := pushConstraint_denotes (S := fun _ => True) hcm he
  exact ⟨hd.typed, hd.width, (andCreate_made (clean_hereditary none) (ξ := fun _ => 0)
    ⟨he.clean, le_rfl⟩ ⟨hcm.clean, le_rfl⟩).keeps⟩

lemma pushConstraint_holds (ρ : Env) :
    (cm.pushConstraint e).Holds ρ ↔ cm.Holds ρ ∧ e.Holds ρ := by
  have hd := (pushConstraint_denotes (S := fun _ => True) hcm he).value ρ trivial
  have hbits : ∀ x y : BitVec 1, x &&& y = 1 ↔ y = 1 ∧ x = 1 := by decide
  unfold Holds Expr.Holds
  rw [hd]
  exact hbits _ _

end

lemma pushConstraint_load (he : IsConstraint e) :
    (cm.pushConstraint e).load ≤ cm.load + (e.mass + 1) := by
  refine (load_le _).trans ?_
  by_cases htrue : cm.summary = trueExpr
  · have hsum : (cm.pushConstraint e).summary = e := by
      rw [pushConstraint, htrue, andCreate_true he.width]
    rw [hsum]
    omega
  have hmade := (andCreate_made hereditary_true (ξ := fun _ => 0) (l := e) (r := cm.summary)
    ⟨trivial, le_rfl⟩ ⟨trivial, le_rfl⟩).weight_le
  have hload : cm.load = cm.summary.mass + 1 := by
    rw [load, terms, if_neg htrue, naryTerms_mass]
  have hsum : (cm.pushConstraint e).summary.mass ≤ e.mass + cm.summary.mass + 1 := hmade
  omega

/-! ## Adding a constraint -/

/-- How adding `e` ends: with the constraints and `e`, or because nothing makes both true. -/
def Adds (cm : ConstraintManager) (e : Expr) : Except Stop ConstraintManager → Prop
  | .ok cm' => cm'.Ok ∧ (∀ ρ, cm'.Holds ρ ↔ cm.Holds ρ ∧ e.Holds ρ) ∧
      cm'.load ≤ cm.load + (e.mass + 1)
  | .error .contradiction => ∀ ρ, ¬ (cm.Holds ρ ∧ e.Holds ρ)
  | .error .fuel => False

def AddsAll (S : Env → Prop) (cm : ConstraintManager) (ts : List Expr) :
    Except Stop (ConstraintManager × Bool) → Prop
  | .ok (cm', _) => cm'.Ok ∧ (∀ ρ, S ρ → (cm'.Holds ρ ↔ cm.Holds ρ ∧ ∀ t ∈ ts, t.Holds ρ)) ∧
      cm'.load ≤ cm.load + (ts.map fun t => t.mass + 1).sum
  | .error .contradiction => ∀ ρ, S ρ → ¬ (cm.Holds ρ ∧ ∀ t ∈ ts, t.Holds ρ)
  | .error .fuel => False

section Loop

variable {add : Nat → ConstraintManager → Expr → Except Stop ConstraintManager}
  {visit : Expr → Expr}

lemma AddsAll.cons (hload : cm'.load ≤ cm.load + (ce.mass + 1))
    (hholds : ∀ ρ, S ρ → (cm'.Holds ρ ↔ cm.Holds ρ ∧ ce.Holds ρ)) (h : AddsAll S cm' ts r) :
    AddsAll S cm (ce :: ts) r := by
  match r with
  | .ok (cm'', _) =>
    obtain ⟨hok, hiff, hle⟩ := h
    refine ⟨hok, fun ρ hρ => ?_, ?_⟩
    · rw [hiff ρ hρ, hholds ρ hρ, List.forall_mem_cons, and_assoc]
    · rw [List.map_cons, List.sum_cons]
      omega
  | .error .contradiction =>
    intro ρ hρ hboth
    rw [List.forall_mem_cons, ← and_assoc, ← hholds ρ hρ] at hboth
    exact h ρ hρ hboth
  | .error .fuel => exact h.elim

lemma rewriteLoop_settles
    (hvisit : ∀ t, IsConstraint t → Replaced S none id t (visit t) ∧ (visit t).mass ≤ t.mass)
    (hadd : ∀ cm e, Ok cm → IsConstraint e → cm.load + (e.mass + 1) ≤ bound →
      ∃ r, Settles (add · cm e) r ∧ Adds cm e r) (ts : List Expr) :
    ∀ (cm : ConstraintManager) (changed : Bool), (∀ t ∈ ts, IsConstraint t) → cm.Ok →
      cm.load + (ts.map fun t => t.mass + 1).sum ≤ bound →
      ∃ r, Settles (fun fuel => rewriteLoop visit (add fuel) ts cm changed) r ∧ AddsAll S cm ts r := by
  induction ts with
  | nil =>
    intro cm changed _ hcm _
    exact ⟨_, .const _, hcm, fun ρ _ => by simp, by simp⟩
  | cons ce ts ih =>
    intro cm changed hts hcm hle
    obtain ⟨hce, hts⟩ := List.forall_mem_cons.1 hts
    rw [List.map_cons, List.sum_cons] at hle
    by_cases hsame : visit ce = ce
    · -- the constraint stays
      have hload : (cm.pushConstraint ce).load ≤ cm.load + (ce.mass + 1) := pushConstraint_load hce
      obtain ⟨r, hset, hr⟩ := ih (cm.pushConstraint ce) changed hts (pushConstraint_ok hcm hce)
        (by omega)
      refine ⟨r, ?_, hr.cons hload fun ρ _ => pushConstraint_holds hcm hce ρ⟩
      simpa [rewriteLoop, hsame] using hset
    obtain ⟨hrep, hmass⟩ := hvisit ce hce
    obtain ⟨r₁, hset₁, hr₁⟩ := hadd cm (visit ce) hcm (hce.replaced hrep) (by omega)
    have hloop : ∀ fuel, rewriteLoop visit (add fuel) (ce :: ts) cm changed =
        add fuel cm (visit ce) >>= fun cm' => rewriteLoop visit (add fuel) ts cm' true := by
      intro fuel
      simp [rewriteLoop, hsame]
    simp only [hloop]
    match r₁ with
    | .ok cm' =>
      obtain ⟨hok, hiff, hload⟩ := hr₁
      obtain ⟨r, hset, hr⟩ := ih cm' true hts hok (by omega)
      refine ⟨r, hset₁.bind (F := fun fuel x =>
        x >>= fun cm' => rewriteLoop visit (add fuel) ts cm' true) hset,
        hr.cons (by omega) fun ρ hρ => ?_⟩
      rw [hiff ρ, holds_replaced hce hrep hρ]
    | .error .contradiction =>
      refine ⟨_, hset₁.bind (F := fun fuel x =>
        x >>= fun cm' => rewriteLoop visit (add fuel) ts cm' true) (.const _), ?_⟩
      intro ρ hρ hboth
      rw [List.forall_mem_cons] at hboth
      exact hr₁ ρ ⟨hboth.1, (holds_replaced hce hrep hρ).2 hboth.2.1⟩
    | .error .fuel => exact hr₁.elim

end Loop

lemma replaceVisit_constraint
    (he : IsConstraint (.cmp .eq (constant w v) r)) (ht : IsConstraint t) :
    Replaced (Expr.cmp .eq (constant w v) r).Holds none id t
        (replaceVisit r (constant w v) true t) ∧
      (replaceVisit r (constant w v) true t).mass ≤ t.mass := by
  have hw : r.width = w := he.typed.2.2.symm
  have hrep : Replaces (Expr.cmp .eq (constant w v) r).Holds r (constant w v) true none none id := by
    refine .constant he.typed.2.1 hw fun ρ hρ => ?_
    have hbits : ∀ b : Bool, (BitVec.ofBool b).setWidth 1 = 1 → b = true := by decide
    have heq : (v.setWidth w == r.eval ρ w) = true := hbits _ hρ
    rw [BitVec.setWidth_eq] at heq
    exact (eq_of_beq heq).symm
  have hmass := r.one_le_weight fun _ => 0
  exact ⟨replaceVisit_replaced hrep t ht.typed ht.clean,
    replaceVisit_weight hrep le_rfl (fun _ => hmass) hmass t ht.typed ht.clean⟩

lemma rewriteConstraints_settles {visit : Expr → Expr}
    {add : Nat → ConstraintManager → Expr → Except Stop ConstraintManager} {old : ConstraintManager}
    (hvisit : ∀ t, IsConstraint t → Replaced S none id t (visit t) ∧ (visit t).mass ≤ t.mass)
    (hadd : ∀ cm e, Ok cm → IsConstraint e → cm.load + (e.mass + 1) ≤ old.load →
      ∃ r, Settles (add · cm e) r ∧ Adds cm e r) (hold : old.Ok) :
    (∃ cm', Settles (fun fuel => rewriteConstraints visit (add fuel) old) (.ok cm') ∧ cm'.Ok ∧
        (∀ ρ, S ρ → (cm'.Holds ρ ↔ old.Holds ρ)) ∧ cm'.load ≤ old.load) ∨
      Settles (fun fuel => rewriteConstraints visit (add fuel) old) (.error .contradiction) ∧
        ∀ ρ, S ρ → ¬ old.Holds ρ := by
  have hempty : load {} = 0 := rfl
  obtain ⟨r, hset, hr⟩ := rewriteLoop_settles hvisit hadd old.terms {} false
    (terms_isConstraint hold) empty_ok (by rw [hempty, zero_add]; exact le_rfl)
  have hres : Settles (fun fuel => rewriteConstraints visit (add fuel) old)
      (r >>= fun (cm, changed) => pure (if changed then cm else old)) :=
    hset.bind (F := fun _ (x : Except Stop (ConstraintManager × Bool)) =>
      x >>= fun (cm, changed) => pure (if changed then cm else old)) (.const _)
  match r with
  | .ok (cm', changed) =>
    left
    obtain ⟨hok, hiff, hload⟩ := hr
    cases changed with
    | true =>
      rw [hempty, zero_add] at hload
      refine ⟨cm', hres, hok, fun ρ hρ => ?_, hload⟩
      rw [hiff ρ hρ, and_iff_right (empty_holds ρ), holds_iff_terms]
    | false => exact ⟨old, hres, hold, fun _ _ => Iff.rfl, le_rfl⟩
  | .error .contradiction =>
    right
    exact ⟨hres, fun ρ hρ h => hr ρ hρ ⟨empty_holds ρ, (holds_iff_terms old ρ).1 h⟩⟩
  | .error .fuel => exact hr.elim

lemma Adds.push (he : IsConstraint e) (hcm' : cm'.Ok)
    (hiff : ∀ ρ, e.Holds ρ → (cm'.Holds ρ ↔ cm.Holds ρ)) (hload : cm'.load ≤ cm.load) :
    Adds cm e (.ok (cm'.pushConstraint e)) := by
  refine ⟨pushConstraint_ok hcm' he, fun ρ => ?_,
    (pushConstraint_load he).trans (Nat.add_le_add_right hload _)⟩
  rw [pushConstraint_holds hcm' he]
  exact and_congr_left (hiff ρ)

section Step

lemma Adds.and {r₁ r₂ : Except Stop ConstraintManager} (h₁ : Adds cm l r₁)
    (h₂ : ∀ cm', r₁ = .ok cm' → Adds cm' r r₂) (herr : ∀ stop, r₁ = .error stop → r₂ = .error stop) :
    Adds cm (binary .and l r) r₂ := by
  match r₁ with
  | .ok cm' =>
    have h₂ := h₂ cm' rfl
    obtain ⟨-, hiff, hload⟩ := h₁
    match r₂ with
    | .ok cm'' =>
      obtain ⟨hok, hiff', hload'⟩ := h₂
      have hmass : (binary .and l r).mass = l.mass + r.mass + 1 := rfl
      refine ⟨hok, fun ρ => ?_, by omega⟩
      rw [hiff' ρ, hiff ρ, holds_and, and_assoc]
    | .error .contradiction =>
      intro ρ h
      rw [holds_and, ← and_assoc, ← hiff ρ] at h
      exact h₂ ρ h
    | .error .fuel => exact h₂
  | .error .contradiction =>
    rw [herr _ rfl]
    intro ρ h
    rw [holds_and] at h
    exact h₁ ρ ⟨h.1, h.2.1⟩
  | .error .fuel => exact h₁.elim

end Step

/-- The recursion is on the weight of all constraints, and within an `And` on its size. -/
lemma addConstraintWithSimplification_settles (bound : Nat) :
    ∀ (size : Nat) (e : Expr) (cm : ConstraintManager), e.size ≤ size → cm.Ok → IsConstraint e →
      cm.load + (e.mass + 1) ≤ bound →
      ∃ r, Settles (addConstraintWithSimplification · cm e) r ∧ Adds cm e r := by
  induction bound with
  | zero => intro size e cm _ _ _ hle; omega
  | succ bound ihBound =>
    intro size
    induction size with
    | zero =>
      intro e cm hsize
      cases e <;> simp [Expr.size] at hsize
    | succ size ihSize =>
      intro e cm hsize hcm he hle
      have plain : Adds cm e (.ok (cm.pushConstraint e)) := .push he hcm (fun _ _ => Iff.rfl) le_rfl
      cases e with
      | constant w v =>
        obtain rfl : w = 1 := he.width
        have hbits : ∀ v : BitVec 1, (isTrueBits v = true ↔ v = 1) := by decide
        have hholds : ∀ ρ, (constant 1 v).Holds ρ ↔ isTrueBits v = true := fun ρ => by
          rw [hbits, Expr.Holds, eval, BitVec.setWidth_eq]
        refine ⟨if isTrueBits v then .ok cm else .error .contradiction,
          (Settles.const _).step fun _ => by rfl, ?_⟩
        split
        · next htrue =>
          exact ⟨hcm, fun ρ => by rw [hholds, and_iff_left htrue], by omega⟩
        · next hfalse => exact fun ρ h => hfalse ((hholds ρ).1 h.2)
      | binary op l r =>
        rcases eq_or_ne op .and with rfl | hop
        · obtain ⟨hl, hr⟩ := he.binary_inv
          have hmass : (binary .and l r).mass = l.mass + r.mass + 1 := rfl
          simp only [Expr.size] at hsize
          obtain ⟨r₁, hset₁, hr₁⟩ := ihSize l cm (by omega) hcm hl (by omega)
          have hset : ∀ r₂, Settles (fun fuel =>
              r₁ >>= fun cm' => addConstraintWithSimplification fuel cm' r) r₂ →
              Settles (addConstraintWithSimplification · cm (binary .and l r)) r₂ := fun r₂ h =>
            (hset₁.bind (F := fun fuel x =>
              x >>= fun cm' => addConstraintWithSimplification fuel cm' r) h).step fun _ => rfl
          cases r₁ with
          | error stop =>
            exact ⟨_, hset _ (.const _), hr₁.and (by simp) (by simp +contextual)⟩
          | ok cm' =>
            have hload := hr₁.2.2
            obtain ⟨r₂, hset₂, hr₂⟩ := ihSize r cm' (by omega) hr₁.1 hr (by omega)
            refine ⟨r₂, hset r₂ hset₂, hr₁.and ?_ (by simp)⟩
            rintro _ ⟨⟩
            exact hr₂
        · exact ⟨_, (Settles.const _).step fun _ => by cases op <;> first | rfl | exact absurd rfl hop,
            plain⟩
      | cmp op l r =>
        by_cases heq : op = .eq ∧ l.isConstant = true
        · obtain ⟨rfl, hconst⟩ := heq
          obtain ⟨w, v, rfl⟩ : ∃ w v, l = constant w v := by
            cases l with
            | constant w v => exact ⟨w, v, rfl⟩
            | _ => cases hconst
          have hnested : ∀ cm' e', Ok cm' → IsConstraint e' → cm'.load + (e'.mass + 1) ≤ cm.load →
              ∃ r, Settles (addConstraintWithSimplification · cm' e') r ∧ Adds cm' e' r :=
            fun cm' e' hcm' he' hle' => ihBound e'.size e' cm' le_rfl hcm' he' (by omega)
          have hset : ∀ r₁, Settles (fun fuel => rewriteConstraints (replaceVisit r (constant w v) true)
              (addConstraintWithSimplification fuel) cm) r₁ →
              Settles (addConstraintWithSimplification · cm (.cmp .eq (constant w v) r))
                (r₁ >>= fun cm' => pure (cm'.pushConstraint (.cmp .eq (constant w v) r))) :=
            fun r₁ h => (h.bind (F := fun _ x =>
              x >>= fun cm' => pure (cm'.pushConstraint (.cmp .eq (constant w v) r)))
                (.const _)).step fun _ => rfl
          rcases rewriteConstraints_settles (fun t ht => replaceVisit_constraint he ht) hnested hcm
            with ⟨cm', hrew, hok, hiff, hload⟩ | ⟨hrew, hnone⟩
          · exact ⟨_, hset _ hrew, .push he hok hiff hload⟩
          · exact ⟨_, hset _ hrew, fun ρ h => hnone ρ h.2 h.1⟩
        · refine ⟨_, (Settles.const _).step fun fuel => ?_, plain⟩
          cases op with
          | eq =>
            have hl : ¬ l.isConstant = true := fun hl => heq ⟨rfl, hl⟩
            rw [addConstraintWithSimplification, if_neg hl]
            rfl
          | _ => rfl
      | _ => exact ⟨_, (Settles.const _).step fun _ => rfl, plain⟩

/-! ## Whole runs -/

lemma equality_replaced (ht : IsConstraint t) (hS : ∀ ρ, S ρ → t.Holds ρ) :
    (equality t).2.isConstant = true ∧ Replaced S none id (equality t).1 (equality t).2 := by
  have htrue : trueExpr.isConstant = true ∧ Replaced S none id t trueExpr := by
    refine ⟨rfl, trivial, one_pos, ht.width.symm, fun ρ hρ => ?_⟩
    rw [id_eq, ht.width]
    exact (hS ρ hρ).symm
  unfold equality
  split
  · next l r =>
    split
    · next hconst =>
      obtain ⟨w, v, rfl⟩ : ∃ w v, l = constant w v := by
        cases l with
        | constant w v => exact ⟨w, v, rfl⟩
        | _ => cases hconst
      refine ⟨rfl, trivial, ht.typed.1, ht.typed.2.2, fun ρ hρ => ?_⟩
      have hw : w = r.width := ht.typed.2.2
      subst hw
      have hbits : ∀ b : Bool, (BitVec.ofBool b).setWidth 1 = 1 → b = true := by decide
      have heq : (v.setWidth r.width == r.eval ρ r.width) = true := hbits _ (hS ρ hρ)
      exact eq_of_beq heq
    · exact htrue
  · exact htrue

lemma simplifyExpr_settles (hcm : cm.Ok) (typed : e.WellTyped) (hc : e.Clean none) :
    ∃ e', Settles (simplifyExpr · cm e) (.ok e') ∧ Replaced cm.Holds none id e e' := by
  unfold simplifyExpr
  split
  · exact ⟨e, .const _, (Visited.refl typed hc).replaced⟩
  have hknown : Known cm.Holds (cm.terms.map equality) := by
    intro p hp
    obtain ⟨t, ht, rfl⟩ := List.mem_map.1 hp
    exact equality_replaced (terms_isConstraint hcm t ht) fun ρ hρ =>
      (holds_iff_terms cm ρ).1 hρ t ht
  obtain ⟨e', hset, hvis⟩ := simplifyVisit_settles hknown _ e le_rfl typed hc
  exact ⟨e', hset, hvis.replaced⟩

def AddsEach (cm : ConstraintManager) (es : List Expr) : Except Stop ConstraintManager → Prop
  | .ok cm' => cm'.Ok ∧ ∀ ρ, cm'.Holds ρ ↔ cm.Holds ρ ∧ ∀ e ∈ es, e.Holds ρ
  | .error .contradiction => ∀ ρ, ¬ (cm.Holds ρ ∧ ∀ e ∈ es, e.Holds ρ)
  | .error .fuel => False

lemma addConstraint_settles (hcm : cm.Ok) (he : IsConstraint e) :
    ∃ r, Settles (addConstraint · cm e) r ∧ AddsEach cm [e] r := by
  obtain ⟨e', hset, hrep⟩ := simplifyExpr_settles hcm he.typed he.clean
  have he' := he.replaced hrep
  obtain ⟨r, hadd, hr⟩ := addConstraintWithSimplification_settles _ e'.size e' cm le_rfl hcm he' le_rfl
  have hsame : ∀ ρ, (cm.Holds ρ ∧ e'.Holds ρ) ↔ cm.Holds ρ ∧ ∀ e' ∈ [e], e'.Holds ρ := by
    intro ρ
    rw [List.forall_mem_singleton]
    exact and_congr_right fun hρ => holds_replaced he hrep hρ
  refine ⟨r, hset.bind (F := fun fuel x =>
    x >>= addConstraintWithSimplification fuel cm) hadd, ?_⟩
  match r with
  | .ok cm' => exact ⟨hr.1, fun ρ => (hr.2.1 ρ).trans (hsame ρ)⟩
  | .error .contradiction => exact fun ρ h => hr ρ ((hsame ρ).2 h)
  | .error .fuel => exact hr.elim

lemma addConstraints_settles (es : List Expr) :
    ∀ cm : ConstraintManager, cm.Ok → (∀ e ∈ es, IsConstraint e) →
      ∃ r, Settles (addConstraints · cm es) r ∧ AddsEach cm es r := by
  induction es with
  | nil =>
    intro cm hcm _
    exact ⟨_, .const _, hcm, fun ρ => by simp⟩
  | cons e es ih =>
    intro cm hcm hes
    obtain ⟨he, hes⟩ := List.forall_mem_cons.1 hes
    obtain ⟨r₁, hset₁, hr₁⟩ := addConstraint_settles hcm he
    have hset : ∀ r₂, Settles (fun fuel => r₁ >>= fun cm' => addConstraints fuel cm' es) r₂ →
        Settles (addConstraints · cm (e :: es)) r₂ := fun r₂ h =>
      (hset₁.bind (F := fun fuel x => x >>= fun cm' => addConstraints fuel cm' es) h)
    match r₁ with
    | .ok cm' =>
      obtain ⟨hok, hiff⟩ := hr₁
      obtain ⟨r, hset₂, hr⟩ := ih cm' hok hes
      refine ⟨r, hset r hset₂, ?_⟩
      simp only [List.forall_mem_singleton] at hiff
      match r with
      | .ok cm'' =>
        refine ⟨hr.1, fun ρ => ?_⟩
        rw [hr.2 ρ, hiff ρ, List.forall_mem_cons, and_assoc]
      | .error .contradiction =>
        intro ρ h
        rw [List.forall_mem_cons, ← and_assoc, ← hiff ρ] at h
        exact hr ρ h
      | .error .fuel => exact hr.elim
    | .error .contradiction =>
      refine ⟨_, hset _ (.const _), fun ρ h => hr₁ ρ ⟨h.1, ?_⟩⟩
      rw [List.forall_mem_cons] at h
      exact List.forall_mem_singleton.2 h.2.1
    | .error .fuel => exact hr₁.elim

def inputByte (i : BitVec 32) : Expr := read (.root (.symbolic 0)) (constant 32 i)

/-- Byte 2 is less than byte 0. -/
def bytesBelow : Expr := .cmp .ult (inputByte 2) (inputByte 0)

def isFive : Expr := .cmp .eq (constant 8 5) (inputByte 2)

lemma fiveBelow_isConstraint : ∀ e ∈ [bytesBelow, isFive], IsConstraint e := by
  refine List.forall_mem_cons.2 ⟨⟨?_, rfl, ?_⟩, List.forall_mem_singleton.2 ⟨?_, rfl, ?_⟩⟩
  · simp [bytesBelow, inputByte, WellTyped, UpdateList.WellTyped, KleeArray.WellTyped, width]
  · simp [bytesBelow, inputByte, Clean, UpdateList.Clean, KleeArray.Clean]
  · simp [isFive, inputByte, WellTyped, UpdateList.WellTyped, KleeArray.WellTyped, width]
  · simp [isFive, inputByte, Clean, UpdateList.Clean, KleeArray.Clean]

def allBytes (b : BitVec 8) : Env := ⟨fun _ _ => b, fun _ _ => 0, fun _ => 0⟩

/-- Byte 2 is 5, the others are 6. -/
def fiveAtTwo : Env := ⟨fun _ i => if i = 2 then 5 else 6, fun _ _ => 0, fun _ => 0⟩

end ConstraintManager

end InputCovSched.Klee
