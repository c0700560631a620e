import InputCovSched.Klee.Constraints

/-!
# The targets of a branch (`GetTargetsForBranch`, `PathsMaySyncOrWriteLiveMem`)

The conditions of the branches that were not taken are kept by target block. A condition goes over
to the taken one when no path from its block matters.
-/

namespace InputCovSched.Klee

open Klee.Expr List
open ConstraintManager (allBytes inputByte)

/-- A branch of the trace; a `switch` has its other conditions with it. -/
structure BranchEntry (B : Type) where
  targetBB : B
  condition : Option Expr
  flippedConditions : Option (List (Expr × B))
  successors : List B

/-- The map of the other targets is listed by address. -/
structure BranchTargets (B : Type) where
  takenBB : B
  takenCond : Option Expr
  other : List (B × Option Expr)

variable {B : Type}

namespace BranchTargets

/-- The loop over `other`, where `mayWrite b` says whether a path from `b` may sync or write live
memory. -/
def visitOther (mayWrite : B → Bool) (takenBB : B) :
    Option Expr → List (B × Option Expr) → Bool × BranchTargets B
  | taken, [] => (false, ⟨takenBB, taken, []⟩)
  | taken, (b, cond) :: other =>
    if mayWrite b then
      let targets := (visitOther mayWrite takenBB taken other).2
      (true, { targets with other := (b, cond) :: targets.other })
    else visitOther mayWrite takenBB (taken.map fun t => cond.elim t (orCreate · t)) other

def pathsMaySyncOrWriteLiveMem (targets : BranchTargets B) (mayWrite : B → Bool) :
    Bool × BranchTargets B :=
  visitOther mayWrite targets.takenBB targets.takenCond targets.other

abbrev Covers (targets : BranchTargets B) (ρ : Env) : Prop :=
  (∃ c ∈ targets.takenCond, c.Holds ρ) ∨ ∃ p ∈ targets.other, ∃ c ∈ p.2, c.Holds ρ

end BranchTargets

def IsCond (c : Expr) : Prop := c.WellTyped ∧ c.width = 1

lemma orCreate_holds (hc : IsCond c) (hd : IsCond d) :
    IsCond (orCreate c d) ∧ ∀ ρ, (orCreate c d).Holds ρ ↔ c.Holds ρ ∨ d.Holds ρ := by
  have hor : Denotes (fun _ => True) (orCreate c d) 1 fun ρ => c.eval ρ 1 ||| d.eval ρ 1 :=
    orCreate_denotes ⟨hc.1, hc.2, fun _ _ => rfl⟩ ⟨hd.1, hd.2, fun _ _ => rfl⟩
  have hbits : ∀ x y : BitVec 1, x ||| y = 1 ↔ x = 1 ∨ y = 1 := by decide
  refine ⟨⟨hor.typed, hor.width⟩, fun ρ => ?_⟩
  rw [Holds, hor.value ρ trivial]
  exact hbits _ _

lemma BranchTargets.visitOther_covers (mayWrite : B → Bool) (b : B) (ρ : Env) {taken : Expr}
    {other : List (B × Option Expr)} (htaken : IsCond taken)
    (hother : ∀ p ∈ other, ∃ c, p.2 = some c ∧ IsCond c) :
    (visitOther mayWrite b (some taken) other).2.Covers ρ ↔ Covers ⟨b, some taken, other⟩ ρ := by
  induction other generalizing taken with
  | nil => rfl
  | cons p other ih =>
    obtain ⟨⟨c, hp, hc⟩, hrest⟩ := forall_mem_cons.1 hother
    obtain ⟨b', cond⟩ := p
    obtain rfl : cond = some c := hp
    rw [visitOther]
    split
    · -- the condition stays where it is
      have := ih htaken hrest
      simp only [Covers, exists_mem_cons_iff] at this ⊢
      rw [or_left_comm, this, or_left_comm]
    · obtain ⟨hor, hholds⟩ := orCreate_holds hc htaken
      refine (ih hor hrest).trans ?_
      simp [Covers, hholds, or_assoc, or_left_comm]

variable [LinearOrder B]

/-- `other[b] = cond` for one pair after the other. -/
def assignAll (pairs : List (B × Option Expr)) : List (B × Option Expr) :=
  (pairs.foldl (fun other p => p :: other.filter (·.1 ≠ p.1)) []).insertionSort (·.1 ≤ ·.1)

def getTargetsForBranch (e : BranchEntry B) : BranchTargets B :=
  match e.flippedConditions, e.condition with
  | some flips, cond => ⟨e.targetBB, cond, assignAll (flips.map fun p => (p.2, some p.1))⟩
  | none, some cond =>
    match e.successors.find? (· ≠ e.targetBB) with
    | some otherBB => ⟨e.targetBB, cond, [(otherBB, some (createIsZero cond))]⟩
    | none => ⟨e.targetBB, trueExpr, []⟩
  | none, none =>
    ⟨e.targetBB, none, assignAll ((e.successors.filter (· ≠ e.targetBB)).map (·, none))⟩

/-- `p` is the last of the conditions that lead to its block. -/
def Kept (flips : List (Expr × B)) (p : Expr × B) : Prop :=
  flips.reverse.find? (·.2 = p.2) = some p

lemma mem_assignAll {flips : List (Expr × B)} :
    q ∈ assignAll (flips.map fun p => (p.2, some p.1)) ↔
      ∃ c, q.2 = some c ∧ Kept flips (c, q.1) := by
  rw [assignAll, mem_insertionSort]
  induction flips using reverseRecOn with
  | nil => simp [Kept]
  | append_singleton flips p ih =>
    obtain ⟨b, cond⟩ := q
    rw [map_append, map_singleton, foldl_append, foldl_cons, foldl_nil, mem_cons, mem_filter, ih]
    by_cases hb : p.2 = b
    · subst hb
      simp [Kept, Prod.ext_iff, eq_comm]
    · simp [Kept, hb, Ne.symm hb]

/-- **Result.**  What is covered stays the same exactly where every flipped condition is covered by
the taken one and those that are the last for their blocks. -/
theorem branch_covered_iff (e : BranchEntry B) (taken : Expr) (flips : List (Expr × B))
    (mayWrite : B → Bool) (ρ : Env) (hcond : e.condition = some taken)
    (hflips : e.flippedConditions = some flips)
    (typed : ∀ c ∈ taken :: flips.map Prod.fst, IsCond c) :
    (((getTargetsForBranch e).pathsMaySyncOrWriteLiveMem mayWrite).2.Covers ρ ↔
        taken.Holds ρ ∨ ∃ p ∈ flips, p.1.Holds ρ) ↔
      ∀ p ∈ flips, p.1.Holds ρ → taken.Holds ρ ∨ ∃ q ∈ flips, Kept flips q ∧ q.1.Holds ρ := by
  have hmem : ∀ {c b}, Kept flips (c, b) → (c, b) ∈ flips := fun h =>
    mem_reverse.1 (mem_of_find?_eq_some h)
  simp only [getTargetsForBranch, hcond, hflips, BranchTargets.pathsMaySyncOrWriteLiveMem]
  rw [BranchTargets.visitOther_covers mayWrite _ ρ (typed _ (.head _))]
  · have hcovers : BranchTargets.Covers
          ⟨e.targetBB, taken, assignAll (flips.map fun p => (p.2, some p.1))⟩ ρ ↔
        taken.Holds ρ ∨ ∃ q ∈ flips, Kept flips q ∧ q.1.Holds ρ := by
      simp only [BranchTargets.Covers, mem_assignAll, Option.mem_some_iff, exists_eq_left']
      refine or_congr Iff.rfl ⟨?_, ?_⟩
      · rintro ⟨⟨b, _⟩, ⟨c, rfl, hkept⟩, c', hc', hρ⟩
        cases hc'
        exact ⟨(c, b), hmem hkept, hkept, hρ⟩
      · rintro ⟨⟨c, b⟩, -, hkept, hρ⟩
        exact ⟨(b, some c), ⟨c, rfl, hkept⟩, c, rfl, hρ⟩
    rw [hcovers]
    constructor
    · intro h p hp hρ
      exact h.2 (.inr ⟨p, hp, hρ⟩)
    · intro h
      constructor
      · exact Or.imp_right fun ⟨q, hq, _, hρ⟩ => ⟨q, hq, hρ⟩
      · rintro (hρ | ⟨p, hp, hρ⟩)
        · exact .inl hρ
        · exact h p hp hρ
  · intro p hp
    obtain ⟨c, hc, hkept⟩ := mem_assignAll.1 hp
    exact ⟨c, hc, typed c (mem_cons_of_mem _ (mem_map.2 ⟨_, hmem hkept, rfl⟩))⟩

/-- The input byte is `n`. -/
def caseOf (n : BitVec 8) : Expr := .cmp .eq (constant 8 n) (inputByte 0)

/-- The cases 1 and 2 lead to block 1; block 0 was taken, for 0. -/
def sharedCase : BranchEntry Nat :=
  ⟨0, some (caseOf 0), some [(caseOf 1, 1), (caseOf 2, 1)], [0, 1]⟩

theorem branch_covered_iff_second :
    ((getTargetsForBranch sharedCase).pathsMaySyncOrWriteLiveMem (· == 1)).2.Covers (allBytes 2) := by
  refine ((branch_covered_iff sharedCase (caseOf 0) _ _ _ rfl rfl ?_).2 ?_).2 ?_
  · simp [IsCond, caseOf, inputByte, WellTyped, UpdateList.WellTyped, KleeArray.WellTyped, width]
  · intro p hp hρ
    exact .inr ⟨(caseOf 2, 1), by simp, rfl, by decide⟩
  · exact .inr ⟨(caseOf 2, 1), by simp, by decide⟩

/-- Of the two conditions that lead to block 1 the first is lost. -/
theorem sharedCase_lost : (caseOf 1).Holds (allBytes 1) ∧
    ¬ ((getTargetsForBranch sharedCase).pathsMaySyncOrWriteLiveMem (· == 1)).2.Covers
      (allBytes 1) := by
  decide

end InputCovSched.Klee
