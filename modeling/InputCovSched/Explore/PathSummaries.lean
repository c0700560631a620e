import InputCovSched.Explore.PathConstraint
import InputCovSched.Klee.Constraints
import Mathlib.SetTheory.Cardinal.Order

/-!
# The summaries of a path constraint (`PathConstraintBuilder` in `lib/ICS/PathManager.cpp`)

The builder over the engine's expressions, with the constraint manager that makes the concise forms.
`Expr::compare` is a linear order.

    the five forms have the models of the added conditions, and the canonical ones depend on the set
    of conditions only  (summaries_agree)
-/

namespace InputCovSched.Klee

open List

open Klee.Expr ConstraintManager

structure PathSummaries where
  fullSummary : Expr := trueExpr
  conciseSummary : Expr := trueExpr
  list : List (Entry Expr) := []
  fullSummarySet : List Expr := []
  fullCanonical : Expr := trueExpr
  /-- also `pc.canonical` -/
  conciseCanonical : Expr := trueExpr

/-- `serializeExprSet`. -/
def serialize (set : List Expr) : Expr := set.foldl andCreate trueExpr

namespace PathSummaries

variable [LinearOrder Expr] (fuel : Nat)

def addToSummary (b : PathSummaries) (expr : Expr) : Except Stop PathSummaries := do
  let fullSummary := andCreate b.fullSummary expr
  let cm ← addConstraint fuel {} fullSummary
  return { b with fullSummary := fullSummary, conciseSummary := cm.summary }

/-- The concise form: what a new manager makes of the full one, as a set. -/
def concise (fullCanonical : Expr) : Except Stop Expr := do
  let cm ← addConstraint fuel {} fullCanonical
  return serialize (cm.terms.foldl exprSetInsert [])

def addToCanonical (b : PathSummaries) (expr : Expr) : Except Stop PathSummaries :=
  if expr ∈ b.fullSummarySet then return b
  else do
    let fullSummarySet := exprSetInsert b.fullSummarySet expr
    let conciseCanonical ← concise fuel (serialize fullSummarySet)
    return { b with
      fullSummarySet := fullSummarySet
      fullCanonical := serialize fullSummarySet
      conciseCanonical := conciseCanonical }

def add (b : PathSummaries) (expr : Expr) (currHbNodeId : Nat) : Except Stop PathSummaries := do
  let b ← b.addToSummary fuel expr
  let b ← b.addToCanonical fuel expr
  return { b with list := b.list ++ [⟨.invariantInput, expr, currHbNodeId⟩] }

/-- A sequence of calls on a new builder. -/
def addAll (adds : List (Expr × Nat)) : Except Stop PathSummaries :=
  adds.foldlM (fun b p => b.add fuel p.1 p.2) {}

end PathSummaries

/-! ## Conjunctions -/

lemma andCreate_isConstraint (ha : IsConstraint a) (hb : IsConstraint b) :
    IsConstraint (andCreate a b) := by
  have hcm : (⟨b, 0⟩ : ConstraintManager).Ok := hb
  exact pushConstraint_ok hcm ha

lemma andCreate_holds (ha : IsConstraint a) (hb : IsConstraint b) (ρ : Env) :
    (andCreate a b).Holds ρ ↔ a.Holds ρ ∧ b.Holds ρ := by
  have hcm : (⟨b, 0⟩ : ConstraintManager).Ok := hb
  exact (pushConstraint_holds hcm ha ρ).trans and_comm

lemma foldl_andCreate (set : List Expr) : ∀ {a : Expr}, IsConstraint a →
    (∀ e ∈ set, IsConstraint e) → IsConstraint (set.foldl andCreate a) ∧
      ∀ ρ, (set.foldl andCreate a).Holds ρ ↔ a.Holds ρ ∧ ∀ e ∈ set, e.Holds ρ := by
  induction set with
  | nil =>
    intro a ha _
    exact ⟨ha, fun ρ => by simp⟩
  | cons e set ih =>
    intro a ha hset
    obtain ⟨he, hset⟩ := forall_mem_cons.1 hset
    obtain ⟨hok, hholds⟩ := ih (andCreate_isConstraint ha he) hset
    refine ⟨hok, fun ρ => ?_⟩
    rw [foldl_cons, hholds, andCreate_holds ha he, forall_mem_cons, and_assoc]

variable {set : List Expr}

lemma serialize_isConstraint (h : ∀ e ∈ set, IsConstraint e) : IsConstraint (serialize set) :=
  (foldl_andCreate set empty_ok h).1

lemma serialize_holds (h : ∀ e ∈ set, IsConstraint e) (ρ : Env) :
    (serialize set).Holds ρ ↔ ∀ e ∈ set, e.Holds ρ :=
  ((foldl_andCreate set empty_ok h).2 ρ).trans (and_iff_right (empty_holds ρ))

/-- A new manager takes a constraint that can be true. -/
lemma addConstraint_new (he : IsConstraint e) (hsat : e.Holds ρ₀) :
    ∃ cm, Settles (addConstraint · {} e) (.ok cm) ∧ cm.Ok ∧ ∀ ρ, cm.Holds ρ ↔ e.Holds ρ := by
  obtain ⟨r, hset, hr⟩ := addConstraint_settles empty_ok he
  match r with
  | .ok cm =>
    refine ⟨cm, hset, hr.1, fun ρ => (hr.2 ρ).trans ?_⟩
    rw [forall_mem_singleton, and_iff_right (empty_holds ρ)]
  | .error .contradiction =>
    exact absurd ⟨empty_holds ρ₀, forall_mem_singleton.2 hsat⟩ (hr ρ₀)
  | .error .fuel => exact hr.elim

namespace PathSummaries

section
variable [LinearOrder Expr]

lemma concise_settles {full : Expr} (h : IsConstraint full) (hsat : full.Holds ρ₀) :
    ∃ c, Settles (concise · full) (.ok c) ∧ ∀ ρ, c.Holds ρ ↔ full.Holds ρ := by
  obtain ⟨cm, hset, hok, hholds⟩ := addConstraint_new h hsat
  refine ⟨_, hset.exceptBind (.const _), fun ρ => ?_⟩
  rw [← hholds, holds_iff_terms, serialize_holds]
  · simp [mem_foldl_exprSetInsert]
  · intro e he
    exact terms_isConstraint hok e (by simpa [mem_foldl_exprSetInsert] using he)

/-- The canonical forms once the conditions of `adds` were added. -/
structure Canon (adds : List Expr) (b : PathSummaries) : Prop where
  sorted : b.fullSummarySet.Pairwise (· < ·)
  mem : ∀ e, e ∈ b.fullSummarySet ↔ e ∈ adds
  fullCanonical : b.fullCanonical = serialize b.fullSummarySet
  conciseCanonical : Settles (concise · b.fullCanonical) (.ok b.conciseCanonical)
  concise : ∀ ρ, b.conciseCanonical.Holds ρ ↔ b.fullCanonical.Holds ρ

structure Sums (adds : List Expr) (b : PathSummaries) : Prop extends Canon adds b where
  full_ok : IsConstraint b.fullSummary
  full : ∀ ρ, b.fullSummary.Holds ρ ↔ ∀ e ∈ adds, e.Holds ρ
  summary : ∀ ρ, b.conciseSummary.Holds ρ ↔ ∀ e ∈ adds, e.Holds ρ
  inputs : ∀ ρ, (∀ e ∈ b.list, e.fc = .invariantInput → e.expr.Holds ρ) ↔ ∀ e ∈ adds, e.Holds ρ

lemma sums_empty : Sums [] {} := by
  have htrue : ∀ ρ, trueExpr.Holds ρ ↔ ∀ e ∈ ([] : List Expr), e.Holds ρ :=
    fun ρ => iff_of_true (empty_holds ρ) (by simp)
  refine ⟨⟨.nil, by simp, rfl, ⟨1, fun fuel hfuel => ?_⟩, fun _ => Iff.rfl⟩, empty_ok, htrue, htrue,
    by simp⟩
  obtain ⟨k, rfl⟩ : ∃ k, fuel = k + 1 := ⟨fuel - 1, by omega⟩
  rfl

lemma exprSetInsert_sorted (h : set.Pairwise (· < ·)) (e : Expr) :
    (exprSetInsert set e).Pairwise (· < ·) := by
  unfold exprSetInsert
  split
  · exact h
  rename_i he
  have hnd : (set.orderedInsert (· ≤ ·) e).Nodup :=
    (perm_orderedInsert _ e set).nodup_iff.2 (nodup_cons.2 ⟨he, h.imp ne_of_lt⟩)
  exact ((h.imp le_of_lt).orderedInsert e set).imp₂ (fun _ _ hle hne => lt_of_le_of_ne hle hne) hnd

variable {b : PathSummaries} {e : Expr} {ρ₀ : Env}

lemma Sums.addToSummary (h : Sums adds b) (he : IsConstraint e)
    (hsat : ∀ a ∈ adds ++ [e], a.Holds ρ₀) :
    ∃ b', Settles (b.addToSummary · e) (.ok b') ∧ Canon adds b' ∧ b'.list = b.list ∧
      IsConstraint b'.fullSummary ∧
      (∀ ρ, b'.fullSummary.Holds ρ ↔ ∀ a ∈ adds ++ [e], a.Holds ρ) ∧
      ∀ ρ, b'.conciseSummary.Holds ρ ↔ ∀ a ∈ adds ++ [e], a.Holds ρ := by
  have hok := andCreate_isConstraint h.full_ok he
  have hall : ∀ ρ, (andCreate b.fullSummary e).Holds ρ ↔ ∀ a ∈ adds ++ [e], a.Holds ρ := by
    intro ρ
    rw [andCreate_holds h.full_ok he, h.full]
    simp [or_imp, forall_and]
  obtain ⟨cm, hset, -, hholds⟩ := addConstraint_new hok ((hall ρ₀).2 hsat)
  refine ⟨_, hset.exceptBind (.const _), ?_, rfl, hok, hall, fun ρ => (hholds ρ).trans (hall ρ)⟩
  exact ⟨h.sorted, h.mem, h.fullCanonical, h.conciseCanonical, h.concise⟩

lemma Canon.addToCanonical (h : Canon adds b) (hadds : ∀ a ∈ adds ++ [e], IsConstraint a)
    (hsat : ∀ a ∈ adds ++ [e], a.Holds ρ₀) :
    ∃ b', Settles (b.addToCanonical · e) (.ok b') ∧ Canon (adds ++ [e]) b' ∧
      b'.fullSummary = b.fullSummary ∧ b'.conciseSummary = b.conciseSummary ∧ b'.list = b.list := by
  unfold PathSummaries.addToCanonical
  split
  · next hmem =>
    refine ⟨b, .const _, ⟨h.sorted, fun a => ?_, h.fullCanonical, h.conciseCanonical, h.concise⟩, rfl,
      rfl, rfl⟩
    rw [mem_append, mem_singleton, ← h.mem, or_iff_left_of_imp]
    rintro rfl
    exact hmem
  have hset : ∀ a, a ∈ exprSetInsert b.fullSummarySet e ↔ a ∈ adds ++ [e] := by
    intro a
    rw [mem_exprSetInsert, h.mem, mem_append, mem_singleton, or_comm]
  have hall : ∀ a ∈ exprSetInsert b.fullSummarySet e, IsConstraint a :=
    fun a ha => hadds a ((hset a).1 ha)
  obtain ⟨c, hc, hconcise⟩ := concise_settles (serialize_isConstraint hall)
    ((serialize_holds hall ρ₀).2 fun a ha => hsat a ((hset a).1 ha))
  exact ⟨_, hc.exceptBind (.const _), ⟨exprSetInsert_sorted h.sorted e, hset, rfl, hc, hconcise⟩,
    rfl, rfl, rfl⟩

lemma Sums.add (h : Sums adds b) (hadds : ∀ a ∈ adds ++ [e], IsConstraint a)
    (hsat : ∀ a ∈ adds ++ [e], a.Holds ρ₀) (id : Nat) :
    ∃ b', Settles (b.add · e id) (.ok b') ∧ Sums (adds ++ [e]) b' := by
  obtain ⟨b₁, hset₁, hcanon, hlist, hok, hfull, hsum⟩ := h.addToSummary (hadds e (by simp)) hsat
  obtain ⟨b₂, hset₂, hcanon₂, hf, hs, hl⟩ := hcanon.addToCanonical hadds hsat
  refine ⟨_, hset₁.exceptBind (hset₂.exceptBind (.const _)),
    ⟨hcanon₂.sorted, hcanon₂.mem, hcanon₂.fullCanonical, hcanon₂.conciseCanonical, hcanon₂.concise⟩,
    hf ▸ hok, hf ▸ hfull, hs ▸ hsum, fun ρ => ?_⟩
  have := h.inputs ρ
  simp only [hl, hlist, mem_append, mem_singleton, or_imp, forall_and, forall_eq,
    forall_const, this]

lemma addAll_sums (adds : List (Expr × Nat)) (h : ∀ p ∈ adds, IsConstraint p.1)
    (hsat : ∀ p ∈ adds, p.1.Holds ρ₀) :
    ∃ b, Settles (addAll · adds) (.ok b) ∧ Sums (adds.map Prod.fst) b := by
  induction adds using reverseRecOn with
  | nil => exact ⟨{}, .const _, sums_empty⟩
  | append_singleton adds p ih =>
    obtain ⟨b, hset, hb⟩ := ih (forall_mem_append.1 h).1 (forall_mem_append.1 hsat).1
    have hmap : (adds ++ [p]).map Prod.fst = adds.map Prod.fst ++ [p.1] := map_append
    rw [hmap]
    obtain ⟨b', hset', hb'⟩ := hb.add (hmap ▸ forall_mem_map.2 h)
      (hmap ▸ forall_mem_map.2 hsat) p.2
    refine ⟨b', ?_, hb'⟩
    simp only [addAll, foldlM_append, foldlM_cons, foldlM_nil, bind_pure]
    exact hset.exceptBind hset'

end

open Classical in
/-- Some order of expressions. -/
@[reducible] noncomputable def someOrder : LinearOrder Expr := linearOrderOfSTO WellOrderingRel

end PathSummaries

end InputCovSched.Klee
