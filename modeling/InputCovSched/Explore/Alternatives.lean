import InputCovSched.Explore.InputCoverage

/-!
# Alternative schedules on the frontier (`processSlice` in `lib/ICS/PathManager.cpp`)

Where a slice has a context switch with alternatives, `processSlice` puts a path for each of
them on the frontier, under the path constraint collected so far. At its end the same call erases
the frontier entries whose canonical form is that of an explored prefix.
So an alternative behind a branch that is kept is erased (canonical_mem_explored).
-/

namespace InputCovSched

open SliceState

open List

section
variable {E I : Type} [LinearOrder E] (T : ExprTheory E I)

/-- The entries of `pushCtxSwitches`. -/
def ctxAlternatives (hbGraph : HBGraph) (lastId : Nat) (b : PathConstraintBuilder E)
    (others : List Nat) : List (QueuedPathConstraint E) :=
  others.map fun t => ⟨{ b.pc with ctxswitches := b.pc.ctxswitches ++ [t] }, hbGraph, lastId⟩

def alternativesFrom (call : SliceCall E) :
    List (SliceEntry E) → SliceState E → List (QueuedPathConstraint E)
  | [], _ => []
  | e :: slice, st =>
    if anyBranchesLeft (e :: slice) then
      ctxAlternatives call.hbGraph st.oldHbGraphLastId st.pcBuilder (e.otherCtxSwitches.getD []) ++
        alternativesFrom call slice (SliceState.processEntry T call st e)
    else []

def SliceState.start (harness : List E) (pm : PathManager E) : SliceState E :=
  ⟨pm, PathConstraintBuilder.empty T, harness, 0⟩

def SliceCall.alternatives (call : SliceCall E) (harness : List E) (pm : PathManager E) :
    List (QueuedPathConstraint E) :=
  alternativesFrom T call call.slice (SliceState.start T harness pm)

def AlternativesFirst (call : SliceCall E) : List (SliceEntry E) → List E → Prop
  | [], _ => True
  | e :: slice, constraints =>
    match e.action call constraints with
    | .branch _ => ∀ e', e' ∈ slice → e'.otherCtxSwitches.getD [] = []
    | a => AlternativesFirst call slice (constraints ++ a.constraint)

/-- The two canonical forms of a set of conditions. -/
def canonicalForms (set : List E) : List E :=
  let full := serializeExprSet T set
  [serializeExprSet T ((T.constraintsOf full).foldl exprSetInsert []), full]

/-- What counts as explored along a path with these conditions, from a set of conditions on: every
prefix, and every term of a disjunction behind the prefix before it. -/
def exploredForms : List E → List E → List E
  | _, [] => []
  | conds, cond :: rest =>
    canonicalForms T (exprSetInsert conds cond) ++
      ((T.orTerms cond).getD []).flatMap (fun term => canonicalForms T (exprSetInsert conds term)) ++
      exploredForms (exprSetInsert conds cond) rest

/-! ## Calls with their alternatives -/

inductive FrontierCall (E : Type) where
  | processSlice (call : SliceCall E)
  | instantiateNextInput

structure Tracked (E : Type) where
  pm : PathManager E
  alternatives : List (QueuedPathConstraint E)

namespace Tracked

def init : Tracked E := ⟨⟨[], [], [], [], 0⟩, []⟩

open Classical in
noncomputable def step (harness : List E) (s : Tracked E) : FrontierCall E → Option (Tracked E)
  | .processSlice call =>
    some ⟨s.pm.processSlice T harness call,
      s.alternatives ++ call.alternatives T harness s.pm⟩
  | .instantiateNextInput =>
    match s.pm.instantiateNextInput with
    | none => none
    | some (next, pm) => some ⟨pm, s.alternatives.erase next⟩

def NotLost (s : Tracked E) : Prop := s.alternatives.Subperm s.pm.frontier

/-- The alternatives of the call come before its branches. While there are alternatives, the
constant true is not explored and is no canonical form of what the branches explore. -/
def SliceOk (harness : List E) (s : Tracked E) : FrontierCall E → Prop
  | .processSlice call =>
    AlternativesFirst call call.slice harness ∧
      (s.alternatives ≠ [] ∨ (∃ e ∈ call.slice, e.otherCtxSwitches.getD [] ≠ []) →
        T.trueExpr ∉ s.pm.exploredSet ∧
          T.trueExpr ∉ exploredForms T [] ((call.branches harness).map SliceBranch.cond))
  | .instantiateNextInput => True

def Keeps (harness : List E) (s : Tracked E) (c : FrontierCall E) : Prop :=
  ∀ s', s.step T harness c = some s' → s'.NotLost

end Tracked

end

/-! ## One entry of the slice -/

section
variable {E I : Type} [LinearOrder E] {T : ExprTheory E I}

namespace PathManager

variable {pm : PathManager E} {b : PathConstraintBuilder E}

omit [LinearOrder E] in
lemma insertExplored_subset : pm.exploredSet ⊆ (pm.insertExplored b).exploredSet :=
  fun _ h => mem_cons_of_mem _ (mem_cons_of_mem _ h)

omit [LinearOrder E] in
lemma foldl_insertExplored {α : Type} (f : α → PathConstraintBuilder E) (l : List α) :
    (l.foldl (fun pm a => pm.insertExplored (f a)) pm).frontier = pm.frontier ∧
      pm.exploredSet ⊆ (l.foldl (fun pm a => pm.insertExplored (f a)) pm).exploredSet := by
  induction l generalizing pm with
  | nil => exact ⟨rfl, fun _ h => h⟩
  | cons a l ih =>
    obtain ⟨h1, h2⟩ := @ih (pm.insertExplored (f a))
    exact ⟨h1, fun _ h => h2 (insertExplored_subset h)⟩

lemma addExplored_spec (cond : E) (id : Nat) :
    (pm.addExplored T b cond id).1.frontier = pm.frontier ∧
      pm.exploredSet ⊆ (pm.addExplored T b cond id).1.exploredSet ∧
      (pm.addExplored T b cond id).2 = b.add T cond id ∧
      (b.add T cond id).conciseCanonical ∈ (pm.addExplored T b cond id).1.exploredSet := by
  have hnew : (b.add T cond id).conciseCanonical ∈
      (pm.insertExplored (b.add T cond id)).exploredSet := mem_cons_self
  unfold addExplored
  cases T.orTerms cond with
  | none => exact ⟨rfl, insertExplored_subset, rfl, hnew⟩
  | some terms =>
    obtain ⟨h1, h2⟩ := @foldl_insertExplored E (pm.insertExplored (b.add T cond id)) E
      (fun term => b.addToCanonical T term) terms
    exact ⟨h1, fun _ h => h2 (insertExplored_subset h), rfl, h2 hnew⟩

lemma foldl_pushFlipped (g : HBGraph) (id : Nat) (flips : List E) :
    (∃ new, (flips.foldl (pushFlipped T g id b) pm).frontier = pm.frontier ++ new) ∧
      (flips.foldl (pushFlipped T g id b) pm).exploredSet = pm.exploredSet := by
  induction flips generalizing pm with
  | nil => exact ⟨⟨[], by simp⟩, rfl⟩
  | cons f flips ih =>
    obtain ⟨⟨new, h1⟩, h2⟩ := @ih (pushFlipped T g id b pm f)
    rw [foldl_cons, h1, h2]
    unfold pushFlipped
    dsimp only
    split
    · exact ⟨⟨new, rfl⟩, rfl⟩
    · exact ⟨⟨_, append_assoc _ _ _⟩, rfl⟩

end PathManager

lemma add_canonical {b : PathConstraintBuilder E} (h : b.pc.canonical = b.conciseCanonical)
    (cond : E) (id : Nat) :
    (b.add T cond id).pc.canonical = (b.add T cond id).conciseCanonical := by
  unfold PathConstraintBuilder.add PathConstraintBuilder.addToCanonical
    PathConstraintBuilder.addToSummary
  split
  · exact h
  · rfl

/-- What the entry leaves behind: its alternatives and possibly flipped paths on the frontier,
and the canonical form of the path so far, which is explored once a branch is kept. -/
structure EntrySpec (call : SliceCall E) (e : SliceEntry E) (st st' : SliceState E) : Prop where
  frontier : ∃ new, st'.pm.frontier = st.pm.frontier ++ ctxAlternatives call.hbGraph
    st.oldHbGraphLastId st.pcBuilder (e.otherCtxSwitches.getD []) ++ new
  explored : st.pm.exploredSet ⊆ st'.pm.exploredSet
  canonical : st'.pcBuilder.pc.canonical = st'.pcBuilder.conciseCanonical
  constraints : st'.constraints = st.constraints ++ (e.action call st.constraints).constraint
  branch : ∀ b, e.action call st.constraints = .branch b →
    st'.pcBuilder.pc.canonical ∈ st'.pm.exploredSet
  noBranch : (∀ b, e.action call st.constraints ≠ .branch b) →
    st'.pcBuilder.pc.canonical = st.pcBuilder.pc.canonical

omit [LinearOrder E] in
lemma ctxSwitch_frontier (call : SliceCall E) (st : SliceState E) (e : SliceEntry E) :
    (st.ctxSwitch call e).pm.frontier = st.pm.frontier ++ ctxAlternatives call.hbGraph
      st.oldHbGraphLastId st.pcBuilder (e.otherCtxSwitches.getD []) ∧
    (st.ctxSwitch call e).pm.exploredSet = st.pm.exploredSet ∧
    (st.ctxSwitch call e).pcBuilder.pc.canonical = st.pcBuilder.pc.canonical ∧
    (st.ctxSwitch call e).pcBuilder.conciseCanonical = st.pcBuilder.conciseCanonical ∧
    (st.ctxSwitch call e).constraints = st.constraints := by
  unfold ctxSwitch
  cases e.otherCtxSwitches with
  | none => exact ⟨(append_nil _).symm, rfl, rfl, rfl, rfl⟩
  | some others => exact ⟨rfl, rfl, rfl, rfl, rfl⟩

lemma act_noBranch (call : SliceCall E) (id : Nat) (st : SliceState E) (h : ∀ b, a ≠ .branch b) :
    (st.act T call id a).pm = st.pm ∧
      (st.act T call id a).pcBuilder.pc.canonical = st.pcBuilder.pc.canonical ∧
      (st.act T call id a).pcBuilder.conciseCanonical = st.pcBuilder.conciseCanonical := by
  cases a with
  | skip | assume cond | extraInvariant fc cond => exact ⟨rfl, rfl, rfl⟩
  | branch b => exact absurd rfl (h b)

section
variable (call : SliceCall E) {st : SliceState E}
  (hcan : st.pcBuilder.pc.canonical = st.pcBuilder.conciseCanonical)
include call hcan

lemma act_branch (id : Nat) (b : SliceBranch E) :
    (∃ new, (st.act T call id (.branch b)).pm.frontier = st.pm.frontier ++ new) ∧
      st.pm.exploredSet ⊆ (st.act T call id (.branch b)).pm.exploredSet ∧
      (st.act T call id (.branch b)).pcBuilder.pc.canonical =
        (st.act T call id (.branch b)).pcBuilder.conciseCanonical ∧
      (st.act T call id (.branch b)).pcBuilder.pc.canonical ∈
        (st.act T call id (.branch b)).pm.exploredSet := by
  obtain ⟨⟨new, h1⟩, h2⟩ := @PathManager.foldl_pushFlipped E I _ T st.pm st.pcBuilder
    call.hbGraph id (b.flips T)
  unfold act
  dsimp only
  generalize (b.flips T).foldl (PathManager.pushFlipped T call.hbGraph id st.pcBuilder) st.pm = pm
    at h1 h2
  obtain ⟨g1, g2, g3, g4⟩ := @PathManager.addExplored_spec E I _ T pm st.pcBuilder b.cond id
  have hadd := add_canonical (T := T) hcan b.cond id
  rw [g3]
  exact ⟨⟨new, g1.trans h1⟩, h2 ▸ g2, hadd, hadd ▸ g4⟩

lemma processEntry_spec (e : SliceEntry E) :
    EntrySpec call e st (processEntry T call st e) := by
  obtain ⟨hf, he, hc, hcc, hcs⟩ := ctxSwitch_frontier call st e
  have hcan₁ := (hc.trans hcan).trans hcc.symm
  unfold processEntry
  dsimp only
  rw [hcs]
  generalize ha : e.action call st.constraints = a
  have hcon : ((st.ctxSwitch call e).act T call e.maxHbNodeId a).constraints =
      st.constraints ++ (e.action call st.constraints).constraint := by
    rw [act_constraints, hcs, ha]
  by_cases hb : ∃ b, a = .branch b
  · obtain ⟨b, rfl⟩ := hb
    obtain ⟨⟨new, h1⟩, h2, h3, h4⟩ := act_branch call hcan₁ e.maxHbNodeId b
    exact ⟨⟨new, by rw [h1, hf]⟩, he ▸ h2, h3, hcon, fun _ _ => h4, fun hno => absurd ha (hno b)⟩
  have hno : ∀ b, a ≠ .branch b := fun b hab => hb ⟨b, hab⟩
  obtain ⟨h1, h2, h3⟩ := act_noBranch call e.maxHbNodeId (st.ctxSwitch call e) hno
  refine ⟨⟨[], by rw [h1, hf, append_nil]⟩, ?_, ?_, hcon, ?_, fun _ => h2.trans hc⟩
  · rw [h1, he]
    exact fun _ h => h
  · rw [h2, h3, hcan₁]
  · exact fun b hb => absurd (ha.symm.trans hb) (hno b)

end

/-! ## The loop over the slice -/

variable {call : SliceCall E} {slice : List (SliceEntry E)} {st : SliceState E}

section
variable (hcan : st.pcBuilder.pc.canonical = st.pcBuilder.conciseCanonical)
include hcan

lemma processEntries_frontier :
    (∃ new, (processEntries T call slice st).pm.frontier = st.pm.frontier ++ new ∧
        (alternativesFrom T call slice st).Sublist new) ∧
      st.pm.exploredSet ⊆ (processEntries T call slice st).pm.exploredSet := by
  induction slice generalizing st with
  | nil => exact ⟨⟨[], by simp [processEntries], List.Sublist.refl _⟩, fun _ h => h⟩
  | cons e slice ih =>
    rw [processEntries, alternativesFrom]
    split
    · have hspec := processEntry_spec (T := T) call hcan e
      obtain ⟨⟨new, h1, h2⟩, h3⟩ := ih hspec.canonical
      obtain ⟨flips, hf⟩ := hspec.frontier
      refine ⟨⟨ctxAlternatives call.hbGraph st.oldHbGraphLastId st.pcBuilder
        (e.otherCtxSwitches.getD []) ++ (flips ++ new), ?_, ?_⟩,
        fun x hx => h3 (hspec.explored hx)⟩
      · rw [h1, hf]
        simp only [append_assoc]
      · exact (append_sublist_append_left _).2 (h2.trans (sublist_append_right _ _))
    · exact ⟨⟨[], by simp, List.Sublist.refl _⟩, fun _ h => h⟩

lemma canonical_mem_explored (hbehind : st.pcBuilder.pc.canonical ∈ st.pm.exploredSet) :
    ∀ q, q ∈ alternativesFrom T call slice st →
      q.pc.canonical ∈ (processEntries T call slice st).pm.exploredSet := by
  induction slice generalizing st with
  | nil => simp [alternativesFrom]
  | cons e slice ih =>
    rw [processEntries, alternativesFrom]
    split
    · have hspec := processEntry_spec (T := T) call hcan e
      intro q hq
      rcases mem_append.1 hq with hq | hq
      · obtain ⟨t, -, rfl⟩ := mem_map.1 hq
        exact (processEntries_frontier hspec.canonical).2 (hspec.explored hbehind)
      refine ih hspec.canonical ?_ q hq
      by_cases hb : ∃ b, e.action call st.constraints = .branch b
      · obtain ⟨b, hb⟩ := hb
        exact hspec.branch b hb
      · rw [hspec.noBranch fun b hab => hb ⟨b, hab⟩]
        exact hspec.explored hbehind
    · simp

end

lemma alternativesFrom_eq_nil (h : ∀ e, e ∈ slice → e.otherCtxSwitches.getD [] = []) :
    alternativesFrom T call slice st = [] := by
  induction slice generalizing st with
  | nil => rfl
  | cons e slice ih =>
    rw [forall_mem_cons] at h
    rw [alternativesFrom, h.1, ih h.2]
    simp [ctxAlternatives]

lemma alternativesFrom_ne_nil (he : e ∈ slice)
    (h : e.otherCtxSwitches.getD [] ≠ []) : alternativesFrom T call slice st ≠ [] := by
  induction slice generalizing st with
  | nil => cases he
  | cons e' slice ih =>
    have hleft : anyBranchesLeft (e' :: slice) = true := by
      refine any_eq_true.2 ⟨e, he, ?_⟩
      cases hs : e.otherCtxSwitches with
      | none =>
        rw [hs] at h
        exact absurd rfl h
      | some others => simp
    rw [alternativesFrom, if_pos hleft]
    rcases mem_cons.1 he with rfl | he
    · simp [ctxAlternatives, h]
    · simp [ih he]

omit [LinearOrder E] in
lemma alternativesFirst_of_none {constraints : List E}
    (h : ∀ e, e ∈ slice → e.otherCtxSwitches.getD [] = []) :
    AlternativesFirst call slice constraints := by
  induction slice generalizing constraints with
  | nil => trivial
  | cons e slice ih =>
    rw [forall_mem_cons] at h
    unfold AlternativesFirst
    split
    · exact h.2
    · exact ih h.2

section
variable (hcan : st.pcBuilder.pc.canonical = st.pcBuilder.conciseCanonical)
include hcan

lemma canonical_of_alternativesFirst (hfirst : AlternativesFirst call slice st.constraints) :
    ∀ q, q ∈ alternativesFrom T call slice st → q.pc.canonical = st.pcBuilder.pc.canonical := by
  induction slice generalizing st with
  | nil => simp [alternativesFrom]
  | cons e slice ih =>
    rw [alternativesFrom]
    split
    · have hspec := processEntry_spec (T := T) call hcan e
      intro q hq
      rcases mem_append.1 hq with hq | hq
      · obtain ⟨t, -, rfl⟩ := mem_map.1 hq
        rfl
      unfold AlternativesFirst at hfirst
      split at hfirst
      · rw [alternativesFrom_eq_nil hfirst] at hq
        cases hq
      rename_i hno
      rw [← hspec.noBranch hno]
      rw [← hspec.constraints] at hfirst
      exact ih hspec.canonical hfirst q hq
    · simp

lemma exists_explored_of_not_first (hfirst : ¬ AlternativesFirst call slice st.constraints) :
    ∃ q, q ∈ alternativesFrom T call slice st ∧
      q.pc.canonical ∈ (processEntries T call slice st).pm.exploredSet := by
  induction slice generalizing st with
  | nil => exact absurd trivial hfirst
  | cons e slice ih =>
    rw [processEntries, alternativesFrom]
    by_cases hleft : anyBranchesLeft (e :: slice) = true
    · have hspec := processEntry_spec (T := T) call hcan e
      rw [if_pos hleft, if_pos hleft]
      unfold AlternativesFirst at hfirst
      split at hfirst
      · rename_i b hb
        simp only [not_forall] at hfirst
        obtain ⟨e', he', hne⟩ := hfirst
        obtain ⟨q, hq⟩ : ∃ q, q ∈ alternativesFrom T call slice (processEntry T call st e) :=
          exists_mem_of_ne_nil _ (alternativesFrom_ne_nil he' hne)
        exact ⟨q, mem_append_right _ hq,
          canonical_mem_explored hspec.canonical (hspec.branch b hb) q hq⟩
      · rw [← hspec.constraints] at hfirst
        obtain ⟨q, hq, hmem⟩ := ih hspec.canonical hfirst
        exact ⟨q, mem_append_right _ hq, hmem⟩
    · -- nothing is left that could have alternatives
      refine absurd (alternativesFirst_of_none fun e' he' => ?_) hfirst
      cases hs : e'.otherCtxSwitches with
      | none => rfl
      | some others =>
        refine absurd (any_eq_true.2 ⟨e', he', ?_⟩) hleft
        simp [hs]

end

/-! ## What a call explores -/

/-- The canonical forms are those of the set of conditions. -/
def PathConstraintBuilder.Forms (T : ExprTheory E I) (b : PathConstraintBuilder E) : Prop :=
  b.fullSummarySet ≠ [] → [b.conciseCanonical, b.fullCanonical] = canonicalForms T b.fullSummarySet

lemma addToCanonical_forms {b : PathConstraintBuilder E} (h : b.Forms T) (expr : E) :
    (b.addToCanonical T expr).fullSummarySet = exprSetInsert b.fullSummarySet expr ∧
      [(b.addToCanonical T expr).conciseCanonical, (b.addToCanonical T expr).fullCanonical] =
        canonicalForms T (exprSetInsert b.fullSummarySet expr) := by
  unfold PathConstraintBuilder.addToCanonical
  split
  · rename_i hmem
    have hset : exprSetInsert b.fullSummarySet expr = b.fullSummarySet := if_pos hmem
    rw [hset]
    exact ⟨rfl, h (ne_nil_of_mem hmem)⟩
  · exact ⟨rfl, rfl⟩

omit [LinearOrder E] in
lemma mem_insertExplored {pm : PathManager E} {b : PathConstraintBuilder E} :
    x ∈ (pm.insertExplored b).exploredSet ↔
      x ∈ [b.conciseCanonical, b.fullCanonical] ∨ x ∈ pm.exploredSet := by
  simp [PathManager.insertExplored, or_assoc]

omit [LinearOrder E] in
lemma mem_foldl_insertExplored {pm : PathManager E} {α : Type} (f : α → PathConstraintBuilder E)
    (l : List α) : x ∈ (l.foldl (fun pm a => pm.insertExplored (f a)) pm).exploredSet ↔
      x ∈ pm.exploredSet ∨ x ∈ l.flatMap fun a => [(f a).conciseCanonical, (f a).fullCanonical] := by
  induction l generalizing pm with
  | nil => simp
  | cons a l ih => rw [foldl_cons, ih, mem_insertExplored, flatMap_cons, mem_append, or_comm (a := x ∈ _),
      or_assoc]

lemma mem_addExplored {pm : PathManager E} {b : PathConstraintBuilder E} (h : b.Forms T) (cond : E)
    (id : Nat) : x ∈ (pm.addExplored T b cond id).1.exploredSet ↔
      x ∈ pm.exploredSet ∨ x ∈ canonicalForms T (exprSetInsert b.fullSummarySet cond) ++
        ((T.orTerms cond).getD []).flatMap fun term =>
          canonicalForms T (exprSetInsert b.fullSummarySet term) := by
  have hsummary : (b.addToSummary T cond).Forms T := h
  have hadd : [(b.add T cond id).conciseCanonical, (b.add T cond id).fullCanonical] =
    canonicalForms T (exprSetInsert b.fullSummarySet cond) := (addToCanonical_forms hsummary cond).2
  have hfirst : x ∈ (pm.insertExplored (b.add T cond id)).exploredSet ↔
      x ∈ pm.exploredSet ∨ x ∈ canonicalForms T (exprSetInsert b.fullSummarySet cond) := by
    rw [mem_insertExplored, hadd, or_comm]
  unfold PathManager.addExplored
  cases T.orTerms cond with
  | none => simpa using hfirst
  | some terms =>
    have hterms : (terms.flatMap fun term => [(b.addToCanonical T term).conciseCanonical,
        (b.addToCanonical T term).fullCanonical]) =
        terms.flatMap fun term => canonicalForms T (exprSetInsert b.fullSummarySet term) :=
      congrArg terms.flatMap (funext fun term => (addToCanonical_forms h term).2)
    show x ∈ (terms.foldl (fun (pm : PathManager E) term => _) _).exploredSet ↔ _
    rw [mem_foldl_insertExplored, hfirst, hterms, mem_append, or_assoc]
    rfl

lemma mem_explored_act (call : SliceCall E) (id : Nat) (h : st.pcBuilder.Forms T)
    (a : SliceAction E) (rest : List E) :
    (st.act T call id a).pcBuilder.Forms T ∧
      ((x ∈ (st.act T call id a).pm.exploredSet ∨
          x ∈ exploredForms T (st.act T call id a).pcBuilder.fullSummarySet rest) ↔
        x ∈ st.pm.exploredSet ∨ x ∈ exploredForms T st.pcBuilder.fullSummarySet
          (a.branch?.toList.map SliceBranch.cond ++ rest)) := by
  cases a with
  | skip | assume cond | extraInvariant fc cond => exact ⟨h, Iff.rfl⟩
  | branch b =>
    have hsummary : (st.pcBuilder.addToSummary T b.cond).Forms T := h
    obtain ⟨hset, hforms⟩ := addToCanonical_forms hsummary b.cond
    have hpushed := (@PathManager.foldl_pushFlipped E I _ T st.pm st.pcBuilder call.hbGraph id
      (b.flips T)).2
    simp only [act]
    generalize (b.flips T).foldl (PathManager.pushFlipped T call.hbGraph id st.pcBuilder) st.pm = pm
      at hpushed
    have hadd := (@PathManager.addExplored_spec E I _ T pm st.pcBuilder b.cond id).2.2.1
    have hset' : (st.pcBuilder.add T b.cond id).fullSummarySet =
      exprSetInsert st.pcBuilder.fullSummarySet b.cond := hset
    rw [hadd, mem_addExplored h, hpushed, hset']
    refine ⟨fun _ => hforms.trans (congrArg _ hset.symm), ?_⟩
    show _ ↔ _ ∨ x ∈ exploredForms T _ (b.cond :: rest)
    rw [exploredForms, mem_append (t := exploredForms T _ _), or_assoc]

/-- The loop explores the forms of the branches that it keeps. -/
lemma mem_explored_processEntries (h : st.pcBuilder.Forms T) :
    x ∈ (processEntries T call slice st).pm.exploredSet ↔ x ∈ st.pm.exploredSet ∨
      x ∈ exploredForms T st.pcBuilder.fullSummarySet
        (((actionsOf call slice st.constraints).filterMap SliceAction.branch?).map
          SliceBranch.cond) := by
  induction slice generalizing st with
  | nil => simp [processEntries, actionsOf, exploredForms]
  | cons e slice ih =>
    simp only [processEntries, actionsOf]
    split
    · obtain ⟨-, hexp, -, -, hcs⟩ := ctxSwitch_frontier call st e
      obtain ⟨hset, hforms⟩ : (st.ctxSwitch call e).pcBuilder.fullSummarySet =
          st.pcBuilder.fullSummarySet ∧ (st.ctxSwitch call e).pcBuilder.Forms T := by
        unfold ctxSwitch
        split <;> exact ⟨rfl, h⟩
      unfold processEntry
      dsimp only
      rw [hcs]
      obtain ⟨hforms', hact⟩ := mem_explored_act (x := x) call e.maxHbNodeId hforms
        (e.action call st.constraints) (((actionsOf call slice (st.constraints ++
          (e.action call st.constraints).constraint)).filterMap SliceAction.branch?).map
          SliceBranch.cond)
      rw [ih hforms', act_constraints, hcs, hact, hexp, hset, filterMap_cons]
      cases (e.action call st.constraints).branch? <;> rfl
    · simp [exploredForms]

lemma mem_explored_processSlice (pm : PathManager E) (harness : List E) (call : SliceCall E) :
    x ∈ (pm.processSlice T harness call).exploredSet ↔ x ∈ pm.exploredSet ∨
      x ∈ exploredForms T [] ((call.branches harness).map SliceBranch.cond) := by
  have hstart : (start T harness pm).pcBuilder.Forms T := fun hne => absurd rfl hne
  exact mem_explored_processEntries hstart

/-! ## The calls -/

namespace Tracked

variable {s s' : Tracked E}

structure Good (T : ExprTheory E I) (s : Tracked E) : Prop where
  notLost : s.NotLost
  canonical : ∀ q, q ∈ s.alternatives → q.pc.canonical = T.trueExpr

lemma processSlice_frontier (T : ExprTheory E I) (harness : List E) (pm : PathManager E)
    (call : SliceCall E) :
    ∃ new, (call.alternatives T harness pm).Sublist new ∧
      (pm.processSlice T harness call).frontier = (pm.frontier ++ new).filter fun q =>
        !(pm.processSlice T harness call).exploredSet.contains q.pc.canonical := by
  have hstart : (start T harness pm).pcBuilder.pc.canonical =
    (start T harness pm).pcBuilder.conciseCanonical := rfl
  obtain ⟨⟨new, h1, h2⟩, -⟩ := @processEntries_frontier E I _ T call call.slice _ hstart
  refine ⟨new, h2, ?_⟩
  show List.filter _ (processEntries T call call.slice (start T harness pm)).pm.frontier = _
  rw [h1]
  rfl

lemma keeps_iff (hg : s.Good T) (call : SliceCall E) :
    s.Keeps T harness (.processSlice call) ↔ s.SliceOk T harness (.processSlice call) := by
  obtain ⟨new, hnew, hfront⟩ := processSlice_frontier T harness s.pm call
  have hkeeps : s.Keeps T harness (.processSlice call) ↔
      (s.alternatives ++ call.alternatives T harness s.pm).Subperm
        (s.pm.processSlice T harness call).frontier := by
    constructor
    · exact fun h => h _ rfl
    · rintro h s' hs'
      cases hs'
      exact h
  have hcanon : AlternativesFirst call call.slice harness →
      ∀ q ∈ s.alternatives ++ call.alternatives T harness s.pm, q.pc.canonical = T.trueExpr := by
    intro hfirst q hq
    rcases mem_append.1 hq with hq | hq
    · exact hg.canonical q hq
    · exact canonical_of_alternativesFirst rfl hfirst q hq
  have hany : s.alternatives ++ call.alternatives T harness s.pm ≠ [] ↔
      s.alternatives ≠ [] ∨ ∃ e ∈ call.slice, e.otherCtxSwitches.getD [] ≠ [] := by
    rw [Ne, append_eq_nil_iff, not_and_or]
    refine or_congr_right ⟨fun hne => ?_, fun ⟨e, he, hne⟩ => alternativesFrom_ne_nil he hne⟩
    by_contra hno
    simp only [not_exists, not_and, not_not] at hno
    exact hne (alternativesFrom_eq_nil hno)
  rw [hkeeps, SliceOk, ← hany, ← not_or, ← mem_explored_processSlice]
  constructor
  · intro h
    have hkept : ∀ q, q ∈ s.alternatives ++ call.alternatives T harness s.pm →
        q.pc.canonical ∉ (s.pm.processSlice T harness call).exploredSet := by
      intro q hq
      have := h.subset hq
      rw [hfront, mem_filter] at this
      simpa using this.2
    have hfirst : AlternativesFirst call call.slice harness := by
      by_contra hno
      obtain ⟨q, hq, hmem⟩ := @exists_explored_of_not_first E I _ T call call.slice
        (start T harness s.pm) rfl hno
      exact hkept q (mem_append_right _ hq) hmem
    refine ⟨hfirst, fun hne => ?_⟩
    obtain ⟨q, hq⟩ := exists_mem_of_ne_nil _ hne
    exact hcanon hfirst q hq ▸ hkept q hq
  · rintro ⟨hfirst, htrue⟩
    by_cases hnil : s.alternatives ++ call.alternatives T harness s.pm = []
    · rw [hnil]
      exact nil_subperm
    have hself : (s.alternatives ++ call.alternatives T harness s.pm).filter (fun q =>
        !(s.pm.processSlice T harness call).exploredSet.contains q.pc.canonical) =
        s.alternatives ++ call.alternatives T harness s.pm := by
      refine filter_eq_self.2 fun q hq => ?_
      rw [hcanon hfirst q hq]
      simpa using htrue hnil
    rw [← hself, hfront]
    exact (hg.notLost.append hnew.subperm).filter _

open Classical in
lemma Good.step (hg : s.Good T) (hok : s.SliceOk T harness c)
    (h : s.step T harness c = some s') : s'.Good T := by
  cases c with
  | processSlice call =>
    have hkeep := (keeps_iff hg call).2 hok s' h
    cases h
    refine ⟨hkeep, fun q hq => ?_⟩
    rcases mem_append.1 hq with hq | hq
    · exact hg.canonical q hq
    · exact canonical_of_alternativesFirst (T := T) rfl hok.1 q hq
  | instantiateNextInput =>
    unfold Tracked.step PathManager.instantiateNextInput at h
    have hsub := hg.notLost
    unfold NotLost at hsub
    cases hf : s.pm.frontier with
    | nil =>
      rw [hf] at h
      cases h
    | cons next frontier =>
      rw [hf] at h hsub
      cases h
      refine ⟨?_, fun q hq => hg.canonical q (mem_of_mem_erase hq)⟩
      have := hsub.erase next
      rwa [erase_cons_head] at this

omit [LinearOrder E] in
lemma good_init (T : ExprTheory E I) : (init : Tracked E).Good T :=
  ⟨nil_subperm, by simp [init]⟩

/-- Along any run of calls on a new manager: every alternative stays on the frontier until it is
returned if and only if in every call of `processSlice` the alternatives come before the
branches that are kept and, while there are alternatives, no explored prefix is the constant
true. -/
theorem keepsAlternatives_iff (T : ExprTheory E I) (harness : List E)
    (calls : List (FrontierCall E)) :
    Machine.Meets (Tracked.step T harness) (Tracked.Keeps T harness) init calls ↔
      Machine.Meets (Tracked.step T harness) (Tracked.SliceOk T harness) init calls := by
  refine (Machine.meets_iff (Tracked.step T harness) (I := Good T)
    (fun s c s' hg hok h => hg.step hok h) (fun s c hg => ?_) (good_init T)).symm
  cases c with
  | processSlice call => exact (keeps_iff hg call).symm
  | instantiateNextInput =>
    exact ⟨fun _ s' h => (hg.step (c := .instantiateNextInput) trivial h).notLost, fun _ => trivial⟩

end Tracked

end

/-! ## A context switch and a branch -/

def switchEntry : SliceEntry Nat := ⟨none, .branch, none, 0, 1, some [2, 3]⟩

def branchEntry (cond : Nat) : SliceEntry Nat := ⟨some cond, .branch, none, 0, 0, none⟩

/-- A slice under a solver that finds nothing redundant. -/
def plainCall (slice : List (SliceEntry Nat)) : SliceCall Nat where
  slice := slice
  solver := ⟨fun _ _ => false, fun _ _ => false⟩
  noConcretizationConstraintsInSlice := false
  hbGraph := HBGraph.empty
  programExited := false

namespace Tracked

/-- The switch comes first: the alternatives stay on the frontier, until the next call returns
the first of them. -/
theorem keepsAlternatives_switch_first :
    Machine.Meets (step tables []) (Keeps tables []) init
      [.processSlice (plainCall [switchEntry, branchEntry 170]), .instantiateNextInput] := by
  refine (keepsAlternatives_iff tables [] _).2 ⟨⟨?_, fun _ => by decide⟩, trivial, ?_⟩
  · simp [AlternativesFirst, plainCall, switchEntry, branchEntry, SliceEntry.action,
      ForkClass.isBranching]
  · split <;> trivial

/-- The branch comes first: the call erases the alternatives that it has pushed. -/
theorem alternatives_lost_behind_branch :
    ∃ s', step tables [] init (.processSlice (plainCall [branchEntry 170, switchEntry])) = some s' ∧
      s'.alternatives.length = 2 ∧ ¬ s'.NotLost := by
  refine ⟨_, rfl, rfl, fun h => ?_⟩
  have hlen := h.length_le
  exact absurd hlen (by decide)

end Tracked

end InputCovSched
