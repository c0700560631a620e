import InputCovSched.Klee.Assignment
import InputCovSched.Klee.CexCache
import InputCovSched.Klee.Constraints

/-!
# The counterexample cache over the engine's expressions

`kleeParts` is made of the functions of the engine: the keys of the cache are sets of conditions that
were built by `create`, the assignments bind bytes of symbolic arrays, as the solver returns them.
What the cache asks of its parts holds for them if the inner solver is right (`kleeParts_sound`).

Expressions are evaluated by the strict evaluator. The source's gives the same results wherever the
strict one ends (`satisfiesFrom_refines`). Where a divisor asks for a byte that is not bound, the
source may take constraints for satisfied that have no solution, and the cache would answer so.
-/

namespace InputCovSched.Klee

open List Klee.Expr

/-- An assignment that `computeInitialValues` returns: only symbolic arrays are bound. -/
abbrev Solution := {asg : Assignment // ∀ p ∈ asg.bindings, p.1.1.isSymbolic = true}

/-- The value of a boolean `ConstantExpr`. -/
def Expr.asBool (e : Expr) : Option Bool := e.asConstant.map fun c => isTrueBits c.2

def kleeParts (fuel : Nat) (inner : List Condition → Condition → Option (Option Solution))
    (tryAll experimental : Bool) : Parts Condition Solution where
  falseExpr := ⟨falseExpr, one_pos, rfl, trivial⟩
  isZero := Condition.createIsZero
  asConstant e := e.1.asBool
  evaluate a e := ((visit true a.1 fuel false e.1).run' []).bind Expr.asBool
  satisfies a key := (satisfiesFrom true a.1 fuel (key.map Subtype.val)).run' [] == some true
  inner := inner
  tryAll := tryAll
  experimental := experimental

/-- The answers of the inner solver: a solution is one, and where it says that there is none the
expression follows from the constraints. -/
structure InnerRight (inner : List Condition → Condition → Option (Option Solution)) : Prop where
  solution : ∀ C e a, inner C e = some (some a) →
    (∀ c ∈ C, c.1.Holds a.1.zeroFilled) ∧ ¬ e.1.Holds a.1.zeroFilled
  none : ∀ C e, inner C e = some none → ∀ ρ, (∀ c ∈ C, c.1.Holds ρ) → e.1.Holds ρ

section
variable {α : Type} {e e' : Expr} {ρ : Env} {b : Bool}

lemma VisitM.Returns.run {m : VisitM α} {s : VisitCache} {Q : α → VisitCache → Prop} {x : α}
    (h : m.Returns s Q) (hrun : m.run' s = some x) : ∃ s', Q x s' := by
  obtain ⟨⟨y, s'⟩, hm, rfl⟩ := Option.map_eq_some_iff.1 hrun
  exact ⟨s', h y s' hm⟩

lemma VisitCache.Same.asBool (h : Same ρ e e') (hw : e.width = 1) (hb : e'.asBool = some b) :
    e.Holds ρ ↔ b = true := by
  obtain ⟨⟨n, v⟩, hconst, rfl⟩ := Option.map_eq_some_iff.1 hb
  exact (VisitCache.Same.isTrue h hw hconst).symm

lemma visit_asBool (a : Solution) (e : Condition) (fuel : Nat)
    (hb : ((visit true a.1 fuel false e.1).run' []).bind Expr.asBool = some b) :
    e.1.Holds a.1.zeroFilled ↔ b = true := by
  obtain ⟨e', hrun, hb⟩ := Option.bind_eq_some_iff.1 hb
  have hvisit := visit_returns (Assignment.extends_zeroFilled a.2) fuel false e.1 []
    e.2.typed e.2.clean (by simp [VisitCache.Sound])
  obtain ⟨s', hafter⟩ := hvisit.run hrun
  exact VisitCache.Same.asBool hafter.same e.2.width hb

lemma satisfiesFrom_holds (a : Solution) (key : List Condition) (fuel : Nat)
    (hsat : (satisfiesFrom true a.1 fuel (key.map Subtype.val)).run' [] = some true) :
    ∀ e ∈ key, e.1.Holds a.1.zeroFilled := by
  have hkey : ∀ c ∈ key.map Subtype.val, IsConstraint c := by
    intro c hc
    obtain ⟨e, -, rfl⟩ := mem_map.1 hc
    exact e.2
  have hreturns := satisfiesFrom_returns (Assignment.extends_zeroFilled a.2) fuel
    (key.map Subtype.val) (fun c hc => ⟨(hkey c hc).typed, (hkey c hc).width⟩)
    (fun c hc => (hkey c hc).clean) [] (by simp [VisitCache.Sound])
  obtain ⟨-, hall⟩ := hreturns.run hsat
  exact fun e he => hall rfl e.1 (mem_map_of_mem he)

end

/-- The engine's functions are what the cache relies on, whatever the options and the inner solver
are, if that is right. -/
lemma kleeParts_sound {inner : List Condition → Condition → Option (Option Solution)}
    (hinner : InnerRight inner) (fuel : Nat) (tryAll experimental : Bool) :
    (kleeParts fuel inner tryAll experimental).Sound (fun ρ e => e.1.Holds ρ)
      (fun a => a.1.zeroFilled) where
  falseExpr ρ h := absurd (show (0 : BitVec 1) = 1 from h) (by decide)
  isZero ρ e := createIsZero_holds e.2 ρ
  asConstant ρ e b hb :=
    VisitCache.Same.asBool ⟨e.2.clean, e.2.typed, rfl, fun _ _ => rfl⟩ e.2.width hb
  evaluate a e b hb := visit_asBool a e fuel hb
  satisfies a key h := satisfiesFrom_holds a key fuel (beq_iff_eq.1 h)
  inner_solution := hinner.solution
  inner_none := hinner.none

end InputCovSched.Klee
