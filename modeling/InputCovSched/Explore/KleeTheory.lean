import InputCovSched.Explore.PathManager
import InputCovSched.Explore.PathSummaries
import InputCovSched.Klee.FindReads
import InputCovSched.Klee.Independent

/-!
# The engine's expressions in exploration

`kleeTheory` is what exploration needs of expressions, made of the functions of the engine: conditions
are booleans that were built by `create`, conjunctions are made by `AndExpr::create`, the concise
forms by a new `ConstraintManager`, and the dependent constraints by `getDependentConstraints` over
the terms of a manager.

`addConstraintNoSimplify` joins a constraint to the others with `AndExpr::create`, which takes
conjunctions apart. The manager then holds the terms of a conjunction and not the conjunction; all
other constraints are held as they are (`mem_heldTerms`).
-/

namespace InputCovSched.Klee

open List Klee.Expr ConstraintManager

/-! ## The terms of a conjunction -/

def Expr.isAnd : Expr → Bool
  | binary .and _ _ => true
  | _ => false

section
variable {e l r s : Expr} {ρ : Env}

lemma naryTerms_of_not_and (h : e.isAnd = false) : e.naryTerms .and = [e] := by
  cases e with
  | binary op a b =>
    have hop : op ≠ .and := by
      rintro rfl
      cases h
    exact if_neg hop
  | _ => rfl

lemma eq_trueExpr_of_constant (h : IsConstraint e) (hconst : e.asConstant = some c)
    (hholds : e.Holds ρ) : e = trueExpr := by
  cases e with
  | constant w v =>
    obtain rfl : w = 1 := h.width
    have hv : v.setWidth 1 = 1 := hholds
    rw [BitVec.setWidth_eq] at hv
    rw [hv, trueExpr]
  | _ => cases hconst

/-- Of a conjunction `s` of the two: the terms of `r` are terms of it, and so is `l` unless it is a
conjunction. -/
def KeepsTerms (l r s : Expr) : Prop :=
  (∀ t ∈ r.naryTerms .and, t = trueExpr ∨ t ∈ s.naryTerms .and) ∧
    (l.isAnd = false → l = trueExpr ∨ l ∈ s.naryTerms .and)

lemma KeepsTerms.right (hl : l = trueExpr ∨ l ∈ r.naryTerms .and) : KeepsTerms l r r :=
  ⟨fun _ => .inr, fun _ => hl⟩

lemma KeepsTerms.left (hr : r = trueExpr) : KeepsTerms l r l := by
  subst hr
  refine ⟨fun t ht => .inl (mem_singleton.1 ht), fun h => .inr ?_⟩
  rw [naryTerms_of_not_and h]
  exact mem_singleton_self l

lemma andPartial_true (e : Expr) : andPartial 1 1 e = e := if_pos (by decide)

variable (hl : IsConstraint l) (hr : IsConstraint r) (hlρ : l.Holds ρ) (hrρ : r.Holds ρ)
include hl hr hlρ hrρ

lemma bcreateR_keepsTerms {create : Expr → Expr → Expr} (hcreate : KeepsTerms l r (create l r)) :
    KeepsTerms l r (bcreateR .and andPartial andPartial create l r) := by
  cases hlc : l.asConstant with
  | none =>
    cases hrc : r.asConstant with
    | none =>
      rw [bcreateR, hlc, hrc]
      exact hcreate
    | some c =>
      have htrue := eq_trueExpr_of_constant hr hrc hrρ
      have hsame : bcreateR .and andPartial andPartial create l r = l := by
        rw [bcreateR, hlc, htrue]
        exact andPartial_true l
      rw [hsame]
      exact .left htrue
  | some c =>
    have htrue := eq_trueExpr_of_constant hl hlc hlρ
    have hsame : bcreateR .and andPartial andPartial create l r = r := by
      subst htrue
      cases hrc : r.asConstant with
      | none =>
        rw [bcreateR, hrc]
        exact andPartial_true r
      | some c =>
        rw [eq_trueExpr_of_constant hr hrc hrρ]
        rfl
    rw [hsame]
    exact .right (.inl htrue)

omit hr in
lemma absorbCreate_keepsTerms : KeepsTerms l r (absorbCreate .and falseExpr l r) := by
  unfold absorbCreate
  rw [if_pos hl.width]
  cases habs : absorb .and falseExpr l r with
  | none => exact ⟨fun t ht => .inr (mem_cons_of_mem l ht), fun _ => .inr mem_cons_self⟩
  | some e =>
    obtain ⟨t, ht, hdec⟩ := exists_of_findSome?_eq_some habs
    split at hdec
    · next hlt =>
      cases hdec
      exact .right (.inr (hlt ▸ ht))
    split at hdec
    · -- a term and its negation are not both true
      next hneg =>
      have htρ : t.eval ρ 1 = 1 := (naryTerms_holds r ρ).1 hrρ t ht
      have hval := isNegation_value (S := fun _ => True) hl.denotes hneg (ρ := ρ) trivial
      rw [htρ] at hval
      have hl1 : l.eval ρ 1 = 1 := hlρ
      rw [hl1] at hval
      exact absurd hval (by decide)
    · cases hdec

/-- Where both sides are true no term is lost. -/
lemma andCreate_keepsTerms : KeepsTerms l r (andCreate l r) := by
  fun_induction andCreate l r with
  | case1 a b r ihb iha =>
    obtain ⟨ha, hb⟩ := hl.binary_inv
    obtain ⟨haρ, hbρ⟩ := (holds_and a b ρ).1 hlρ
    refine bcreateR_keepsTerms hl hr hlρ hrρ ⟨fun t ht => ?_, fun h => absurd h.symm Bool.false_ne_true⟩
    have hbr := andCreate_isConstraint hb hr
    have hbrρ := (andCreate_holds hb hr ρ).2 ⟨hbρ, hrρ⟩
    rcases (ihb r hb hr hbρ hrρ).1 t ht with htrue | ht
    · exact .inl htrue
    · exact (iha r ha hbr haρ hbrρ).1 t ht
  | case2 l r => exact bcreateR_keepsTerms hl hr hlρ hrρ (absorbCreate_keepsTerms hl hlρ hrρ)

end

/-! ## A manager that was given conditions -/

/-- `addConstraintNoSimplify` for each of the conditions. -/
def pushAll (es : List Condition) (cm : ConstraintManager) : ConstraintManager :=
  es.foldl (fun cm e => cm.pushConstraint e.1) cm

section
variable {cm : ConstraintManager} {es : List Condition} {ρ : Env}

lemma pushAll_ok (hcm : cm.Ok) (es : List Condition) : (pushAll es cm).Ok := by
  induction es generalizing cm with
  | nil => exact hcm
  | cons e es ih => exact ih (pushConstraint_ok hcm e.2)

/-- The conditions that a new manager holds. -/
def heldTerms (es : List Condition) : List Condition :=
  (pushAll es {}).terms.attachWith IsConstraint (terms_isConstraint (pushAll_ok empty_ok es))

lemma pushAll_terms (hcm : cm.Ok) (hρ : cm.Holds ρ) (hes : ∀ e ∈ es, e.1.Holds ρ) :
    (∀ t ∈ cm.summary.naryTerms .and,
        t = trueExpr ∨ t ∈ (pushAll es cm).summary.naryTerms .and) ∧
      ∀ e ∈ es, e.1.isAnd = false →
        e.1 = trueExpr ∨ e.1 ∈ (pushAll es cm).summary.naryTerms .and := by
  induction es generalizing cm with
  | nil => exact ⟨fun _ => .inr, by simp⟩
  | cons e es ih =>
    obtain ⟨heρ, hes⟩ := forall_mem_cons.1 hes
    obtain ⟨hold, hnew⟩ := andCreate_keepsTerms e.2 hcm heρ hρ
    obtain ⟨hterms, hrest⟩ := ih (pushConstraint_ok hcm e.2)
      ((pushConstraint_holds hcm e.2 ρ).2 ⟨hρ, heρ⟩) hes
    refine ⟨fun t ht => (hold t ht).elim .inl (hterms t), forall_mem_cons.2 ⟨fun hand => ?_, hrest⟩⟩
    exact (hnew hand).elim .inl (hterms e.1)

/-- A condition that is no conjunction is held, if all of them can be true. -/
lemma mem_heldTerms {e : Condition} (hes : ∀ e ∈ es, e.1.Holds ρ) (he : e ∈ es)
    (hand : e.1.isAnd = false) : e.1 = trueExpr ∨ e ∈ heldTerms es := by
  rcases (pushAll_terms empty_ok (empty_holds ρ) hes).2 e he hand with htrue | hmem
  · exact .inl htrue
  by_cases hsum : (pushAll es {}).summary = trueExpr
  · rw [hsum] at hmem
    exact .inl (mem_singleton.1 hmem)
  · refine .inr ((mem_attachWith _ _).2 ?_)
    rw [terms, if_neg hsum]
    exact hmem

end

/-! ## The theory -/

lemma forall_attachWith_holds {l : List Expr} (hl : ∀ e ∈ l, IsConstraint e) (ρ : Env) :
    (∀ t ∈ l.attachWith IsConstraint hl, t.1.Holds ρ) ↔ ∀ t ∈ l, t.Holds ρ := by
  constructor
  · exact fun h t ht => h ⟨t, hl t ht⟩ ((mem_attachWith _ _).2 ht)
  · exact fun h t ht => h t.1 ((mem_attachWith _ _).1 ht)

/-- What a new manager makes of a condition; the condition itself if it stops at a contradiction. -/
lemma exists_conciseTerms (e : Condition) : ∃ ts : List Condition,
    (∃ r, Settles (addConstraint · {} e.1) r ∧ (∀ cm, r = .ok cm → ts.map Subtype.val = cm.terms)) ∧
      ∀ ρ, (∀ t ∈ ts, t.1.Holds ρ) ↔ e.1.Holds ρ := by
  obtain ⟨r, hset, hr⟩ := addConstraint_settles empty_ok e.2
  match r with
  | .ok cm =>
    refine ⟨cm.terms.attachWith IsConstraint (terms_isConstraint hr.1), ⟨_, hset, ?_⟩, fun ρ => ?_⟩
    · intro cm' hcm'
      cases hcm'
      exact attachWith_map_subtype_val _
    · rw [forall_attachWith_holds, ← holds_iff_terms, hr.2 ρ, forall_mem_singleton]
      exact and_iff_right (empty_holds ρ)
  | .error stop => exact ⟨[e], ⟨_, hset, nofun⟩, fun ρ => forall_mem_singleton⟩

noncomputable def conciseTerms (e : Condition) : List Condition := (exists_conciseTerms e).choose

def disjuncts (e : Condition) : Option (List Condition) :=
  match e.1 with
  | binary .or _ _ => some ((e.1.naryTerms .or).attachWith IsConstraint (naryTerms_isConstraint _ e.2))
  | _ => none

lemma naryTerms_or_holds (s : Expr) (ρ : Env) : s.Holds ρ ↔ ∃ t ∈ s.naryTerms .or, t.Holds ρ := by
  have hbits : ∀ x y : BitVec 1, x ||| y = 1 ↔ x = 1 ∨ y = 1 := by decide
  fun_induction Expr.naryTerms .or s with
  | case1 l r ih =>
    rw [exists_mem_cons_iff]
    exact (hbits _ _).trans (or_congr_right ih)
  | case2 => simp
  | case3 => simp

/-- The engine's functions, with the reads that `findReads` gives for a condition. -/
noncomputable def kleeTheory {I : Type} (env : I → Env)
    (reads : Condition → List (ReadAt KleeArray)) : ExprTheory Condition I where
  eval e i := decide (e.1.Holds (env i))
  trueExpr := ⟨trueExpr, empty_ok⟩
  and a b := ⟨andCreate a.1 b.1, andCreate_isConstraint a.2 b.2⟩
  createIsZero := Condition.createIsZero
  orTerms := disjuncts
  constraintsOf := conciseTerms
  dependentConstraints es := getDependentConstraints reads (heldTerms es)
  eval_trueExpr i := decide_eq_true (empty_holds (env i))
  eval_and a b i := by
    rw [← Bool.decide_and, decide_eq_decide]
    exact andCreate_holds a.2 b.2 (env i)
  eval_createIsZero e i := by
    rw [← decide_not, decide_eq_decide]
    exact createIsZero_holds e.2 (env i)
  eval_orTerms e ts h i := by
    unfold disjuncts at h
    split at h
    · cases h
      rw [Bool.eq_iff_iff, decide_eq_true_iff, any_eq_true, naryTerms_or_holds]
      constructor
      · rintro ⟨t, ht, hρ⟩
        exact ⟨⟨t, naryTerms_isConstraint _ e.2 t ht⟩, (mem_attachWith _ _).2 ht, decide_eq_true hρ⟩
      · rintro ⟨t, ht, hρ⟩
        exact ⟨t.1, (mem_attachWith _ _).1 ht, of_decide_eq_true hρ⟩
    · cases h
  eval_constraintsOf e i := by
    rw [Bool.eq_iff_iff, decide_eq_true_iff, all_eq_true, ← (exists_conciseTerms e).choose_spec.2]
    simp only [decide_eq_true_iff]
    rfl

/-- What the constructor of `IndependentElementSet` takes from a read. -/
def readAt : Expr → Option (ReadAt KleeArray)
  | .read u i => some (u.rootArray, i.asConstant.map fun c => c.2.toNat)
  | _ => none

/-- `findReads`, as `IndependentElementSet` calls it. -/
def kleeReads {A : Type} [DecidableEq A] (heads : Heads A) (fuel : Nat) (e : Condition) :
    List (ReadAt KleeArray) :=
  ((findReads heads true fuel e.1).getD []).filterMap readAt

end InputCovSched.Klee
