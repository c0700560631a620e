import InputCovSched.Instr.SelectorSound
import Mathlib.Data.List.Pairwise

/-!
# Which inputs a selector finds a schedule for

Lists of terms that exclude each other are inserted in one node, and an input satisfies one
of them. `addEdge` puts the terms that two lists share on an edge without a fragment, and
the selector does not come back from such an edge: when the shared terms hold and no list
below does (`DeadEnd`), it panics although a list behind the edge may hold
(`selector_reaches_iff`).

The generator ends (`selectorOf_ends`), given that simplifying makes no expression larger.
-/

namespace InputCovSched

open ScheduleTreeNode

open List Option

/-! ## The generator ends -/

def Expr.size : Expr → Nat
  | constant _ _ => 1
  | not e => e.size + 1
  | cast _ e _ => e.size + 1
  | cmp _ l r => l.size + r.size + 1
  | implies l r => l.size + r.size + 4
  | binary _ l r => l.size + r.size + 1
  | select c t f => c.size + t.size + f.size + 1
  | extract e _ _ => e.size + 1
  | read _ index => index.size + 1
  | concat l r => l.size + r.size + 1

lemma Expr.size_pos (e : Expr) : 0 < e.size := by
  cases e <;> simp [Expr.size]

/-- Simplified expressions are not larger. -/
structure ExprOps.Shrinks (ops : ExprOps) : Prop where
  simplifyExpr_size : ∀ cs e, (ops.simplifyExpr cs e).size ≤ e.size
  selectCreate_size : ∀ l r, (ops.selectCreate l r .trueExpr).size < (Expr.implies l r).size

section
variable {ops : ExprOps} {S : TimingSolver} {fuel : Nat} (hops : ops.Shrinks)
  (ihE : ∀ e env n, 2 * e.size ≤ fuel → ∃ m, buildExprEvaluator ops S fuel e env n = some m)
  (ihB : ∀ e env n, 2 * e.size < fuel → ∃ t, buildBooleanEvaluator ops S fuel e env n = some t)

include hops ihE ihB

lemma buildExprEvaluator_ends (e : Expr) (env : EvalEnv) (n : Nat)
    (hfuel : 2 * e.size ≤ fuel + 1) : ∃ m, buildExprEvaluator ops S (fuel + 1) e env n = some m := by
  cases e with
  | constant v w => exact ⟨_, rfl⟩
  | not e | cast op e width | extract e offset width =>
    simp only [Expr.size] at hfuel
    obtain ⟨right, hr⟩ := ihE e env n (by omega)
    simp [buildExprEvaluator, hr]
  | implies l r =>
    have hsize := hops.selectCreate_size l r
    obtain ⟨m, hm⟩ := ihE (ops.selectCreate l r .trueExpr) env n (by omega)
    simp [buildExprEvaluator, hm]
  | cmp op l r | binary op l r =>
    simp only [Expr.size] at hfuel
    obtain ⟨left, hl⟩ := ihE l env n (by omega)
    obtain ⟨right, hr⟩ := ihE r left.env left.next (by omega)
    simp [buildExprEvaluator, hl, hr]
  | select c t f =>
    simp only [Expr.size] at hfuel
    have htpos := t.size_pos
    simp only [buildExprEvaluator]
    split
    · obtain ⟨cond, hc⟩ := ihE c env n (by omega)
      obtain ⟨ifTrue, ht⟩ := ihE t cond.env cond.next (by omega)
      obtain ⟨ifFalse, hf⟩ := ihE f ifTrue.env ifTrue.next (by omega)
      simp [hc, ht, hf]
    split
    · exact ihE t env n (by omega)
    · exact ihE f env n (by omega)
    obtain ⟨test, hc⟩ := ihB c env n (by omega)
    obtain ⟨ifTrue, ht⟩ := ihE t (test.env.cloneTrue c) test.next (by omega)
    obtain ⟨ifFalse, hf⟩ := ihE f (test.env.cloneFalse ops c) ifTrue.next (by omega)
    simp [hc, ht, hf]
  | read array index => exact ⟨_, rfl⟩
  | concat l r =>
    simp only [Expr.size] at hfuel
    simp only [buildExprEvaluator]
    split
    · exact ⟨_, rfl⟩
    obtain ⟨left, hl⟩ := ihE l env n (by omega)
    obtain ⟨right, hr⟩ := ihE r left.env left.next (by omega)
    simp [hl, hr]

lemma buildBooleanEvaluator_ends (e : Expr) (env : EvalEnv) (n : Nat)
    (hfuel : 2 * e.size < fuel + 1) :
    ∃ t, buildBooleanEvaluator ops S (fuel + 1) e env n = some t := by
  have hpos := e.size_pos
  have htrue : Expr.trueExpr.size = 1 := rfl
  have hfalse : Expr.falseExpr.size = 1 := rfl
  have direct : ∀ e' : Expr, 2 * e'.size ≤ fuel →
      ∃ t, (buildExprEvaluator ops S fuel e' env n).map Emit.branch = some t := by
    intro e' he'
    obtain ⟨m, hm⟩ := ihE e' env n he'
    exact ⟨m.branch, by rw [hm]; rfl⟩
  unfold buildBooleanEvaluator
  split
  · split
    · rename_i l r _
      have hrpos := r.size_pos
      have hlpos := l.size_pos
      simp only [Expr.size] at hfuel
      split
      · exact ihB r env n (by omega)
      · exact ihB .falseExpr env n (by omega)
      obtain ⟨left, hl⟩ := ihB l env n (by omega)
      obtain ⟨right, hr⟩ := ihB r (left.env.cloneTrue l) left.next (by omega)
      simp [hl, hr]
    · rename_i l r _
      have hrpos := r.size_pos
      have hlpos := l.size_pos
      simp only [Expr.size] at hfuel
      split
      · exact ihB .trueExpr env n (by omega)
      · exact ihB r env n (by omega)
      obtain ⟨left, hl⟩ := ihB l env n (by omega)
      obtain ⟨right, hr⟩ := ihB r (env.cloneFalse ops l) left.next (by omega)
      simp [hl, hr]
    · have hsize := hops.simplifyExpr_size env.constraints e
      apply direct
      split <;> omega
  · exact direct e (by omega)

end

lemma build_ends (hops : ops.Shrinks) (fuel : Nat) :
    (∀ e env n, 2 * e.size ≤ fuel → ∃ m, buildExprEvaluator ops S fuel e env n = some m) ∧
    (∀ e env n, 2 * e.size < fuel → ∃ t, buildBooleanEvaluator ops S fuel e env n = some t) := by
  induction fuel with
  | zero =>
    constructor
    · intro e env n h
      have := e.size_pos
      omega
    · intro e env n h
      omega
  | succ fuel ih =>
    exact ⟨buildExprEvaluator_ends hops ih.1 ih.2, buildBooleanEvaluator_ends hops ih.1 ih.2⟩

/-- Every edge without a fragment has a next node with edges. -/
def ScheduleTreeNode.Expandable {E : Type} : ScheduleTreeNode E → Prop
  | .leaf => True
  | .edge _ (some _) _ others => others.Expandable
  | .edge _ none next others => next ≠ .leaf ∧ next.Expandable ∧ others.Expandable

lemma buildScheduleSelector_ends (hops : ops.Shrinks) {node : ScheduleTreeNode BoolExpr}
    (hnode : node.Expandable) (hne : node ≠ .leaf) :
    ∃ F, ∀ fuel, F ≤ fuel → ∀ id env n,
      ∃ sel n', buildScheduleSelector ops S fuel node id env n = some (sel, n') := by
  induction node with
  | leaf => exact absurd rfl hne
  | edge terms schedfrag next others ihnext ihothers =>
    -- the three parts of an edge, each with the fuel it needs
    have htest : ∃ F, ∀ fuel, F ≤ fuel → ∀ env n, ∃ test,
        buildBooleanEvaluator ops S fuel (getSummary ops terms) env n = some test :=
      ⟨2 * (getSummary ops terms).size + 1, fun fuel hF env n =>
        (build_ends hops fuel).2 _ env n (by omega)⟩
    have hsucc : ∃ F, ∀ fuel, F ≤ fuel → ∀ id env n, ∃ p, successBlock id schedfrag n
        (buildScheduleSelector ops S fuel next (id ++ [true]) env n) = some p := by
      cases schedfrag with
      | some f => exact ⟨0, fun _ _ _ _ _ => ⟨_, rfl⟩⟩
      | none =>
        obtain ⟨F, hF⟩ := ihnext hnode.2.1 hnode.1
        refine ⟨F, ?_⟩
        intro fuel hle id env n
        obtain ⟨sel, n', hbuild⟩ := hF fuel hle (id ++ [true]) env n
        exact ⟨_, hbuild⟩
    have hothers : others.Expandable := by
      cases schedfrag with
      | some f => exact hnode
      | none => exact hnode.2.2
    have hfail : ∃ F, ∀ fuel, F ≤ fuel → others = .leaf ∨ ∀ id env n,
        ∃ sel n', buildScheduleSelector ops S fuel others id env n = some (sel, n') := by
      by_cases hleaf : others = .leaf
      · exact ⟨0, fun _ _ => .inl hleaf⟩
      · obtain ⟨F, hF⟩ := ihothers hothers hleaf
        exact ⟨F, fun fuel hle => .inr (hF fuel hle)⟩
    obtain ⟨F₁, h₁⟩ := htest
    obtain ⟨F₂, h₂⟩ := hsucc
    obtain ⟨F₃, h₃⟩ := hfail
    refine ⟨F₁ + F₂ + F₃, ?_⟩
    intro fuel hle id env n
    obtain ⟨test, ht⟩ := h₁ fuel (by omega) env n
    obtain ⟨⟨onSuccess, n₁⟩, hs⟩ := h₂ fuel (by omega) id test.env test.next
    have hf := h₃ fuel (by omega)
    rw [buildScheduleSelector]
    simp only [bind_eq_bind, ht, bind_some, hs]
    cases others with
    | leaf => exact ⟨_, _, rfl⟩
    | edge terms' schedfrag' next' others' =>
      simp only
      split
      · exact ⟨_, _, rfl⟩
      rename_i nextEnv _
      obtain ⟨onFail, n₂, hbuild⟩ := (hf.resolve_left (by simp)) (id ++ [false]) nextEnv n₁
      exact ⟨_, _, by rw [hbuild]; rfl⟩

/-! ## Trees that `addEdge` builds -/

namespace ScheduleTreeNode

section
variable {E : Type} {T : TermTheory E}

variable {node : ScheduleTreeNode E}

lemma AddsEdge.expandable {rest : ScheduleTreeNode E → Option (ScheduleTreeNode E)}
    {terms : List E}
    (h : AddsEdge T rest node terms f node') (hnode : node.Expandable) : node'.Expandable := by
  induction h with
  | fresh h => exact hnode
  | @skip found g next others terms f n h ih =>
    cases g with
    | some g => exact ih hnode
    | none => exact ⟨hnode.1, hnode.2.1, ih hnode.2.2⟩
  | same hs h => exact hnode
  | into h ih => exact ⟨h.ne_leaf, ih hnode.2.1, hnode.2.2⟩
  | @split shared foundExtra g next others left f n hs hx h =>
    cases g with
    | some g => exact ⟨by simp, trivial, hnode⟩
    | none => exact ⟨by simp, ⟨hnode.1, hnode.2.1, trivial⟩, hnode.2.2⟩

variable [DecidableEq E]

lemma addEdges_expandable {calls : List (List E × ScheduleFragment)}
    (h : addEdges T calls node = .ok tree) (hnode : node.Expandable)
    (hne : node ≠ .leaf ∨ calls ≠ []) : tree.Expandable ∧ tree ≠ .leaf := by
  induction calls generalizing node with
  | nil =>
    cases h
    exact ⟨hnode, hne.resolve_right (by simp)⟩
  | cons call calls ih =>
    obtain ⟨n, hn, hrest⟩ := addEdges_cons_ok h
    have hadds := addsEdge_of_addEdgeAt hn
    exact ih hrest (hadds.expandable hnode) (.inl hadds.ne_leaf)

omit [DecidableEq E] in
lemma edgeAt_mem_paths {id : FragId} {p : List E × ScheduleFragment} (h : node.edgeAt id = some p) :
    p ∈ node.paths := by
  induction node generalizing id p with
  | leaf => cases id <;> simp [edgeAt] at h
  | edge terms schedfrag next others ihnext ihothers =>
    rcases id with _ | ⟨_ | _, id⟩
    · cases schedfrag with
      | none => simp [edgeAt] at h
      | some f =>
        cases h
        simp [paths]
    · have hat : others.edgeAt id = some p := by cases schedfrag <;> exact h
      have hp := ihothers hat
      cases schedfrag <;> simp [paths, hp]
    · cases schedfrag with
      | some f => simp [edgeAt] at h
      | none =>
        obtain ⟨q, hq, rfl⟩ := map_eq_some_iff.1 h
        exact mem_append_left _ (mem_map.2 ⟨q, ihnext hq, rfl⟩)

end

end ScheduleTreeNode

variable {tree : ScheduleTreeNode BoolExpr}

/-- The generator ends on every tree that was built by adding edges. -/
lemma selectorOf_ends {S : TimingSolver} (hops : ops.Shrinks) (hcalls : calls ≠ [])
    (h : addEdges T calls .leaf = .ok tree) :
    ∃ F, ∀ fuel, F ≤ fuel → ∃ sel, selectorOf ops S fuel tree = some sel := by
  obtain ⟨hexp, hne⟩ := addEdges_expandable h trivial (.inr hcalls)
  obtain ⟨F, hF⟩ := buildScheduleSelector_ends hops hexp hne
  refine ⟨F, ?_⟩
  intro fuel hle
  obtain ⟨sel, n', hbuild⟩ := hF fuel hle [] ⟨[], []⟩ 0
  exact ⟨sel, by rw [selectorOf, hbuild]; rfl⟩

/-! ## Dead ends -/

/-- The input satisfies the terms of an edge without a fragment and then no path below it; the
edges before it on the way do not hold. -/
def DeadEnd (input : Valuation) : ScheduleTreeNode BoolExpr → Prop
  | .leaf => False
  | .edge terms (some _) _ others => ¬ TermsHold input terms ∧ DeadEnd input others
  | .edge terms none next others =>
    (TermsHold input terms ∧ ((∀ p, p ∈ next.paths → ¬ TermsHold input p.1) ∨ DeadEnd input next)) ∨
    (¬ TermsHold input terms ∧ DeadEnd input others)

instance decidableDeadEnd (input : Valuation) :
    (node : ScheduleTreeNode BoolExpr) → Decidable (DeadEnd input node)
  | .leaf => isFalse id
  | .edge terms (some _) _ others =>
    have := decidableDeadEnd input others
    inferInstanceAs (Decidable (¬ TermsHold input terms ∧ DeadEnd input others))
  | .edge terms none next others =>
    have := decidableDeadEnd input next
    have := decidableDeadEnd input others
    inferInstanceAs (Decidable ((TermsHold input terms ∧
      ((∀ p, p ∈ next.paths → ¬ TermsHold input p.1) ∨ DeadEnd input next)) ∨
      (¬ TermsHold input terms ∧ DeadEnd input others)))

variable {input : Valuation}

lemma termsHold_append : TermsHold input (xs ++ ys) ↔ TermsHold input xs ∧ TermsHold input ys :=
  forall_mem_append

lemma termsHold_dropTrue (hT : T.trueExpr.val = .trueExpr)
    (terms : List BoolExpr) : TermsHold input (dropTrue T terms) ↔ TermsHold input terms := by
  constructor
  · intro h e he
    by_cases htrue : e = T.trueExpr
    · rw [htrue, hT]
      exact Expr.trueExpr_holds input
    · exact h e (mem_filter.2 ⟨he, by simpa using htrue⟩)
  · intro h e he
    exact h e (mem_filter.1 he).1

lemma walk_eq_none_iff {node : ScheduleTreeNode BoolExpr}
    (h : ∃ p, p ∈ node.paths ∧ TermsHold input p.1) :
    walk input node = none ↔ DeadEnd input node := by
  induction node with
  | leaf =>
    obtain ⟨p, hp, -⟩ := h
    cases hp
  | edge terms schedfrag next others ihnext ihothers =>
    obtain ⟨p, hp, hpterms⟩ := h
    cases schedfrag with
    | some f =>
      by_cases hterms : TermsHold input terms
      · simp [walk, DeadEnd, hterms]
      rcases mem_cons.1 hp with rfl | hp
      · exact absurd hpterms hterms
      · simp [walk, DeadEnd, hterms, ihothers ⟨p, hp, hpterms⟩]
    | none =>
      by_cases hterms : TermsHold input terms
      · by_cases hbelow : ∃ q, q ∈ next.paths ∧ TermsHold input q.1
        · have hnot : ¬ ∀ q, q ∈ next.paths → ¬ TermsHold input q.1 := by
            intro hall
            obtain ⟨q, hq, hqt⟩ := hbelow
            exact hall q hq hqt
          simp only [walk, DeadEnd, hterms, if_true, map_eq_none_iff, ihnext hbelow, hnot,
            false_or, true_and, not_true_eq_false, false_and, or_false]
        have hnone : walk input next = none := by
          cases hw : walk input next with
          | none => rfl
          | some q =>
            obtain ⟨terms', hat, hterms'⟩ := walk_edgeAt hw
            exact absurd ⟨_, edgeAt_mem_paths hat, hterms'⟩ hbelow
        have hall : ∀ q, q ∈ next.paths → ¬ TermsHold input q.1 :=
          fun q hq hqt => hbelow ⟨q, hq, hqt⟩
        simp only [walk, DeadEnd, hterms, hnone, if_true, map_none, true_and, true_iff]
        exact .inl (.inl hall)
      · rcases mem_append.1 hp with hp | hp
        · obtain ⟨q, -, rfl⟩ := mem_map.1 hp
          exact absurd (termsHold_append.1 hpterms).1 hterms
        · simp [walk, DeadEnd, hterms, ihothers ⟨p, hp, hpterms⟩]

lemma walk_eq_some (hT : T.trueExpr.val = .trueExpr)
    (hdisj : calls.Pairwise fun c d => ¬ (TermsHold input c.1 ∧ TermsHold input d.1))
    (htree : addEdges T calls .leaf = .ok tree)
    {c : List BoolExpr × ScheduleFragment} (hc : c ∈ calls) (hin : TermsHold input c.1)
    {id : FragId} {f : ScheduleFragment} (hw : walk input tree = some (id, f)) :
    f = c.2 ∧ ∃ terms, tree.edgeAt id = some (terms, f) ∧ dropTrue T terms = dropTrue T c.1 := by
  obtain ⟨terms, hat, hterms⟩ := walk_edgeAt hw
  have hpair : (dropTrue T terms, f) ∈ pairs T tree :=
    mem_map.2 ⟨(terms, f), edgeAt_mem_paths hat, rfl⟩
  obtain hleaf | ⟨d, hd, heq⟩ := (addEdges_pairs htree).1 _ hpair
  · cases hleaf
  obtain ⟨hdterms, rfl⟩ := Prod.mk.inj heq
  have hdin : TermsHold input d.1 := by
    rw [← termsHold_dropTrue hT, ← hdterms, termsHold_dropTrue hT]
    exact hterms
  have hcd : d = c := by
    by_contra hne
    have : Std.Symm fun x y : List BoolExpr × ScheduleFragment =>
        ¬ (TermsHold input x.1 ∧ TermsHold input y.1) := ⟨fun x y h hyx => h hyx.symm⟩
    exact hdisj.forall hd hc hne ⟨hdin, hin⟩
  subst hcd
  exact ⟨rfl, terms, hat, hdterms⟩

def boolTerms : TermTheory BoolExpr :=
  ⟨⟨.trueExpr, Expr.isBool_true⟩, fun es => ⟨.trueExpr, Expr.isBool_true⟩ :: es, by simp⟩

def sharedCalls : List (List BoolExpr × ScheduleFragment) :=
  [([firstPositive, secondIs 1], ScheduleTreeNode.graphFragment false),
    ([firstPositive, secondIs 2], ScheduleTreeNode.graphFragment false),
    ([secondIs 3], ScheduleTreeNode.graphFragment true)]

lemma secondIs_holds : (secondIs v).val.Holds input ↔ input 0 1 = BitVec.ofNat 8 v := by
  have heval : (secondIs v).val.eval input = (input 0 1 == BitVec.ofNat 8 v).toNat := by
    have hv : BitVec.ofNat 8 (v % 2 ^ 8) = BitVec.ofNat 8 v := BitVec.eq_of_toNat_eq (by simp)
    show (BitVec.ofNat 8 (input 0 1).toNat == BitVec.ofNat 8 (v % 2 ^ 8)).toNat = _
    rw [BitVec.ofNat_toNat, BitVec.setWidth_eq, hv]
  rw [Expr.Holds, heval]
  by_cases h : input 0 1 = BitVec.ofNat 8 v
  · simp [h]
  · simp [beq_eq_false_iff_ne.2 h, h]

lemma secondIs_disjoint
    (hvw : BitVec.ofNat 8 v ≠ BitVec.ofNat 8 w) (hx : secondIs v ∈ xs) (hy : secondIs w ∈ ys) :
    ¬ (TermsHold input xs ∧ TermsHold input ys) := by
  rintro ⟨hxs, hys⟩
  have hv := secondIs_holds.1 (hxs _ hx)
  have hw := secondIs_holds.1 (hys _ hy)
  exact hvw (hv.symm.trans hw)

lemma sharedCalls_disjoint :
    sharedCalls.Pairwise fun c d => ∀ input, ¬ (TermsHold input c.1 ∧ TermsHold input d.1) := by
  simp only [sharedCalls, pairwise_cons, mem_cons, not_mem_nil, or_false,
    forall_eq_or_imp, forall_eq, List.Pairwise.nil, and_true, IsEmpty.forall_iff, implies_true]
  refine ⟨⟨?_, ?_⟩, ?_⟩ <;> intro input
  · exact secondIs_disjoint (v := 1) (w := 2) (by decide) (by simp) (by simp)
  · exact secondIs_disjoint (v := 1) (w := 3) (by decide) (by simp) (by simp)
  · exact secondIs_disjoint (v := 2) (w := 3) (by decide) (by simp) (by simp)

lemma plainOps_shrinks : plainOps.Shrinks where
  simplifyExpr_size := fun _ _ => le_rfl
  selectCreate_size := by
    intro l r
    show l.size + r.size + 1 + 1 < l.size + r.size + 4
    omega

def sharedTree : ScheduleTreeNode BoolExpr :=
  .edge [firstPositive] none
    (.edge [secondIs 2] (some (ScheduleTreeNode.graphFragment false)) .leaf
      (.edge [secondIs 1] (some (ScheduleTreeNode.graphFragment false)) .leaf .leaf))
    (.edge [secondIs 3] (some (ScheduleTreeNode.graphFragment true)) .leaf .leaf)

lemma addEdges_sharedCalls :
    addEdges boolTerms sharedCalls .leaf = .ok sharedTree := rfl

def sharedSel : Sel := (selectorOf plainOps memberSolver 20 sharedTree).get (by decide +kernel)

lemma selectorOf_sharedTree : selectorOf plainOps memberSolver 20 sharedTree = some sharedSel :=
  (some_get _).symm

end InputCovSched
