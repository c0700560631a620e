import InputCovSched.Explore.KleeTheory
import InputCovSched.Explore.SliceLoop
import InputCovSched.Lib.Machine

/-!
# Instantiating a path from the frontier (`instantiateNextInput` in `lib/ICS/PathManager.cpp`)

The executor gets the branch conditions of the path, and of its other invariants those that are
found dependent on the summary. They are looked up as they were recorded among the terms of a
manager, which has taken conjunctions apart:

    a conjunction is dropped, also if the branches depend on it  (instantiated_drops_conjunction)
    no invariant that reads a linked byte is a conjunction → an input satisfies what is kept exactly
    when what it says about the linked bytes can be extended to an input that satisfies all
      (instantiated_iff_extends)

The summary means the branch conditions (`frontierOk_of_run`) and reads linked bytes only, and the
invariants that are left out read none.
-/

namespace InputCovSched

open List Gluing Klee

section
variable {E I : Type} [LinearOrder E] {T : ExprTheory E I} {pm : PathManager E}
  {b : PathConstraintBuilder E} {S : Set I} {st : SliceState E} {s : Exploration E}

def PathManager.FrontierOk (T : ExprTheory E I) (pm : PathManager E) : Prop :=
  ∀ q ∈ pm.frontier, q.pc.Ok T

lemma PathManager.FrontierOk.pushFlipped (h : pm.FrontierOk T) (hb : b.Means T S) (g : HBGraph)
    (id : Nat) (flip : E) : (pm.pushFlipped T g id b flip).FrontierOk T := by
  unfold PathManager.pushFlipped
  dsimp only
  split
  · exact h
  · exact forall_mem_append.2 ⟨h, forall_mem_singleton.2 ((hb.add flip id).ok)⟩

lemma PathManager.addExplored_eq (cond : E) (id : Nat) :
    (pm.addExplored T b cond id).1.frontier = pm.frontier ∧
      (pm.addExplored T b cond id).2 = b.add T cond id := by
  unfold PathManager.addExplored
  split
  · exact ⟨rfl, rfl⟩
  rename_i terms _
  refine ⟨?_, rfl⟩
  exact foldlRecOn (motive := fun pm' : PathManager E => pm'.frontier = pm.frontier) terms _ rfl
    fun _ h _ _ => h

/-- The frontier, and the builder of the path that is processed. -/
def SliceState.Ok (T : ExprTheory E I) (st : SliceState E) : Prop :=
  st.pm.FrontierOk T ∧ ∃ S, st.pcBuilder.Means T S

omit [LinearOrder E] in
lemma SliceState.Ok.ctxSwitch (h : st.Ok T) (call : SliceCall E) (e : SliceEntry E) :
    (st.ctxSwitch call e).Ok T := by
  unfold SliceState.ctxSwitch
  split
  · exact h
  obtain ⟨hq, S, hb⟩ := h
  refine ⟨fun q hmem => ?_, S, { hb with }⟩
  rcases mem_append.1 hmem with hmem | hmem
  · exact hq q hmem
  · obtain ⟨t, -, rfl⟩ := mem_map.1 hmem
    exact { hb.ok with }

lemma SliceState.Ok.processEntry (h : st.Ok T) (call : SliceCall E) (e : SliceEntry E) :
    (SliceState.processEntry T call st e).Ok T := by
  obtain ⟨hq, S, hb⟩ := h.ctxSwitch call e
  unfold SliceState.processEntry
  dsimp only
  cases ha : e.action call (st.ctxSwitch call e).constraints with
  | skip => exact ⟨hq, S, hb⟩
  | assume cond => exact ⟨hq, S, hb⟩
  | extraInvariant fc cond => exact ⟨hq, S, hb.addExtraInvariant (ne_input_of_action ha) cond⟩
  | branch br =>
    refine ⟨?_, S ∩ T.sem br.cond, ?_⟩
    · show ∀ q ∈ (PathManager.addExplored T _ _ _ _).1.frontier, q.pc.Ok T
      rw [(PathManager.addExplored_eq _ _).1]
      exact foldlRecOn (motive := PathManager.FrontierOk T) (br.flips T) _ hq
        fun _ h flip _ => h.pushFlipped hb call.hbGraph e.maxHbNodeId flip
    · show (PathManager.addExplored T _ _ _ _).2.Means T _
      rw [(PathManager.addExplored_eq _ _).2]
      exact hb.add br.cond e.maxHbNodeId

lemma SliceState.Ok.processEntries (call : SliceCall E) (slice : List (SliceEntry E))
    (h : st.Ok T) : (SliceState.processEntries T call slice st).Ok T := by
  induction slice generalizing st with
  | nil => exact h
  | cons e slice ih =>
    rw [SliceState.processEntries]
    split
    · exact ih (h.processEntry call e)
    · exact h

lemma frontierOk_step
    (h : s.pm.FrontierOk T) (hstep : s.step T harness c = some s') : s'.pm.FrontierOk T := by
  cases c with
  | processSlice path input call =>
    obtain ⟨-, hs⟩ := Option.ite_none_right_eq_some.1 hstep
    cases hs
    have hstart : SliceState.Ok T ⟨s.pm, PathConstraintBuilder.empty T, harness, 0⟩ :=
      ⟨h, _, PathConstraintBuilder.means_empty⟩
    exact fun q hq => (hstart.processEntries call call.slice).1 q (mem_of_mem_filter hq)
  | instantiateNextInput =>
    unfold Exploration.step PathManager.instantiateNextInput at hstep
    cases hf : s.pm.frontier with
    | nil => simp [hf] at hstep
    | cons next frontier =>
      rw [hf] at hstep
      cases hstep
      exact fun q hq => h q (hf ▸ mem_cons_of_mem next hq)

lemma frontierOk_of_run
    (h : Machine.Reaches (Exploration.step T harness) (.init T) s) : s.pm.FrontierOk T := by
  obtain ⟨calls, hrun⟩ := h
  exact Machine.inv_of_run (Exploration.step T harness) (I := fun s => s.pm.FrontierOk T)
    (fun _ _ _ h hstep => frontierOk_step h hstep) (fun q hq => absurd hq not_mem_nil) hrun

end

/-! ## The invariants that are kept -/

lemma PathConstraint.mem_instantiated {E I : Type} [LinearOrder E] {T : ExprTheory E I}
    {pc : PathConstraint E} {c : E} : c ∈ pc.instantiated T ↔ ∃ e ∈ pc.list,
      (e.fc = .invariantInput ∨ e.expr ∈ T.dependentConstraints ((pc.list.filter fun e =>
        e.fc ≠ .invariantInput).map Entry.expr) pc.fullSummary) ∧ e.expr = c := by
  simp [PathConstraint.instantiated, and_assoc]

lemma mem_sem_kleeTheory {I : Type} {env : I → Env} {reads : Condition → List (ReadAt KleeArray)}
    {e : Condition} {y : I} : y ∈ (kleeTheory env reads).sem e ↔ e.1.Holds (env y) :=
  decide_eq_true_iff

/-- The bytes of the arrays that a condition is evaluated under. -/
def inputEnv (m : KleeArray × Nat → BitVec 8) : Env where
  bytes name i := m (.symbolic name, i.toNat)
  outside _ _ := 0
  qvars _ := 0

def PathConstraint.extraInvariants {E : Type} (pc : PathConstraint E) : List E :=
  (pc.list.filter fun e => e.fc ≠ .invariantInput).map Entry.expr

section
variable [LinearOrder Condition] (reads : Condition → List (ReadAt KleeArray))

/-- The bytes that the summary is linked to through the terms of the path's invariants. -/
def PathConstraint.linkedBytes (pc : PathConstraint Condition) : Set (KleeArray × Nat) :=
  {x | ∃ e, (e = pc.fullSummary ∨ Relation.TransGen (Link reads (heldTerms pc.extraInvariants))
    pc.fullSummary e) ∧ x ∈ readsOf reads e}

end

/-! ## A path with invariants before its branch -/

section
variable {E I : Type}

def boundsEntry (e : E) : SliceEntry E := ⟨some e, .boundsCheck, none, 0, 0, none⟩

def flippedEntry (cond flip : E) : SliceEntry E := ⟨some cond, .branch, some [flip], 0, 0, none⟩

/-- Bounds checks, then a branch, with a solver that finds nothing redundant. -/
def flippedCall (invs : List E) (cond flip : E) : SliceCall E where
  slice := invs.map boundsEntry ++ [flippedEntry cond flip]
  solver := ⟨fun _ _ => false, fun _ _ => false⟩
  noConcretizationConstraintsInSlice := false
  hbGraph := .empty
  programExited := false

def boundsBuilder (invs : List E) (b : PathConstraintBuilder E) : PathConstraintBuilder E :=
  invs.foldl (fun b e => b.addExtraInvariant .boundsCheck e) b

lemma boundsBuilder_means {T : ExprTheory E I} {b : PathConstraintBuilder E} {S : Set I}
    (h : b.Means T S) (invs : List E) : (boundsBuilder invs b).Means T S := by
  induction invs generalizing b with
  | nil => exact h
  | cons e invs ih => exact ih (h.addExtraInvariant (by decide) e)

lemma boundsBuilder_pc (invs : List E) (b : PathConstraintBuilder E) :
    (boundsBuilder invs b).pc.list = b.pc.list ++ invs.map (⟨.boundsCheck, ·, 0⟩) ∧
      (boundsBuilder invs b).pc.fullSummary = b.pc.fullSummary := by
  induction invs generalizing b with
  | nil => exact ⟨(append_nil _).symm, rfl⟩
  | cons e invs ih =>
    obtain ⟨hlist, hsum⟩ := ih (b.addExtraInvariant .boundsCheck e)
    exact ⟨hlist.trans (append_assoc ..), hsum⟩

variable [LinearOrder E] (T : ExprTheory E I)

lemma processEntries_flippedCall (invs all : List E) (cond flip : E) (st : SliceState E) :
    SliceState.processEntries T (flippedCall all cond flip)
        (invs.map boundsEntry ++ [flippedEntry cond flip]) st =
      SliceState.processEntry T (flippedCall all cond flip)
        { st with
          pcBuilder := boundsBuilder invs st.pcBuilder
          constraints := st.constraints ++ invs } (flippedEntry cond flip) := by
  induction invs generalizing st with
  | nil =>
    rw [append_nil]
    rfl
  | cons e invs ih =>
    have hleft : anyBranchesLeft (boundsEntry e :: (invs.map boundsEntry ++
        [flippedEntry cond flip])) = true := by
      simp [anyBranchesLeft, flippedEntry, ForkClass.isBranchingOrInput, ForkClass.isBranching]
    rw [map_cons, cons_append, SliceState.processEntries, if_pos hleft, ih]
    simp [SliceState.processEntry, SliceState.ctxSwitch, boundsEntry, SliceEntry.action, flippedCall,
      ForkClass.isBranching, ForkClass.isConcretization, SliceState.act, boundsBuilder]

/-- The flipped path is queued behind its invariants. -/
lemma flipped_queued (invs : List E) (cond flip : E) (i : I) (hor : T.orTerms cond = none)
    (hne : T.sem flip ≠ T.sem cond) :
    ∃ s next, Machine.Reaches (Exploration.step T []) (.init T) s ∧ next ∈ s.pm.frontier ∧
      next.pc.list = invs.map (⟨.boundsCheck, ·, 0⟩) ++ [⟨.invariantInput, flip, 0⟩] ∧
      next.pc.fullSummary = T.and T.trueExpr flip := by
  have hmeans := boundsBuilder_means (PathConstraintBuilder.means_empty (T := T)) invs
  obtain ⟨hlist, hsum⟩ := boundsBuilder_pc invs (PathConstraintBuilder.empty T)
  have hrun := processEntries_flippedCall T invs invs cond flip
    ⟨⟨[], [], [], [], 0⟩, .empty T, [], 0⟩
  generalize boundsBuilder invs (.empty T) = b at hmeans hlist hsum hrun
  have hpm : (SliceState.processEntries T (flippedCall invs cond flip)
      (flippedCall invs cond flip).slice ⟨(Exploration.init T).pm, .empty T, [], 0⟩).pm =
      ((⟨[], [], [], [], 0⟩ : PathManager E).pushFlipped T .empty 0 b flip).insertExplored
        (b.add T cond 0) := by
    refine (congrArg SliceState.pm hrun).trans ?_
    simp [SliceState.processEntry, SliceState.ctxSwitch, flippedEntry, SliceEntry.action, flippedCall,
      ForkClass.isBranching, ForkClass.isConcretization, SliceState.act, SliceBranch.flips,
      PathManager.addExplored, hor]
  have hs : Machine.Reaches (Exploration.step T []) (.init T) _ :=
    ⟨[.processSlice 0 i (flippedCall invs cond flip)], rfl⟩
  refine ⟨_, ⟨(b.add T flip 0).pc, .empty, 0⟩, hs, mem_filter.2 ?_, ?_, ?_⟩
  · show _ ∈ (SliceState.processEntries T _ _ _).pm.frontier ∧
      (!(SliceState.processEntries T _ _ _).pm.exploredSet.contains _) = true
    rw [hpm]
    refine ⟨mem_singleton_self _, ?_⟩
    -- what was explored means the branch that was taken
    have hflip := hmeans.add flip 0
    have hcond := hmeans.add cond 0
    have hmean : ∀ c ∈ [(b.add T cond 0).conciseCanonical, (b.add T cond 0).fullCanonical],
        T.sem c = T.sem cond := by
      simp [hcond.concise, hcond.full]
    have hcanon : T.sem (b.add T flip 0).pc.canonical = T.sem flip := by
      rw [hflip.canonical, hflip.concise, Set.univ_inter]
    rw [Bool.not_eq_true', ← Bool.not_eq_true, contains_iff_mem]
    exact fun hmem => hne (hcanon.symm.trans (hmean _ hmem))
  · rw [PathConstraintBuilder.add_pc b flip 0 |>.2, hlist]
    rfl
  · rw [PathConstraintBuilder.add_pc b flip 0 |>.1, hsum]
    rfl

end

/-! ## Two paths -/

namespace FlippedPath

/-- A byte of the input, or a constant. -/
def operand : BitVec 32 ⊕ BitVec 8 → Klee.Expr
  | .inl i => .read (.root (.symbolic 0)) (.constant 32 i)
  | .inr v => .constant 8 v

def value (m : KleeArray × Nat → BitVec 8) : BitVec 32 ⊕ BitVec 8 → BitVec 8
  | .inl i => m (.symbolic 0, i.toNat)
  | .inr v => v

lemma below_isConstraint (l r : BitVec 32 ⊕ BitVec 8) :
    IsConstraint (.cmp .ult (operand l) (operand r)) := by
  refine ⟨?_, rfl, ?_⟩
  · cases l <;> cases r <;> simp [operand, Klee.Expr.WellTyped, UpdateList.WellTyped,
      KleeArray.WellTyped, Klee.Expr.width]
  · cases l <;> cases r <;> simp [operand, Klee.Expr.Clean, UpdateList.Clean, KleeArray.Clean]

def below (l r : BitVec 32 ⊕ BitVec 8) : Condition := ⟨_, below_isConstraint l r⟩

lemma below_holds (l r : BitVec 32 ⊕ BitVec 8) (m : KleeArray × Nat → BitVec 8) :
    (below l r).1.Holds (inputEnv m) ↔ value m l < value m r := by
  have hbit : ∀ b : Bool, (BitVec.ofBool b).setWidth 1 = 1 ↔ b = true := by decide
  rw [← BitVec.ult_iff_lt]
  cases l <;> cases r <;> exact hbit _

/-- The reads as `findReads` collects them. -/
def reads : Condition → List (ReadAt KleeArray) := kleeReads sharedHeads 9

def bytes : BitVec 32 ⊕ BitVec 8 → List (KleeArray × Nat)
  | .inl i => [(.symbolic 0, i.toNat)]
  | .inr _ => []

lemma value_congr {m m' : KleeArray × Nat → BitVec 8} :
    ∀ {o}, (∀ x ∈ bytes o, m x = m' x) → value m o = value m' o
  | .inl _, h => h _ (mem_singleton_self _)
  | .inr _, _ => rfl

lemma below_dependsOnly {l r : BitVec 32 ⊕ BitVec 8}
    (h : bytes l ++ bytes r ⊆ (elementSet reads (below l r)).elements) :
    DependsOnly (fun m (e : Condition) => e.1.Holds (inputEnv m)) (below l r)
      (readsOf reads (below l r)) := by
  intro m m' hsame
  have hbytes : ∀ x ∈ bytes l ++ bytes r, m x = m' x := fun x hx => hsame x (.inl (h hx))
  obtain ⟨hl, hr⟩ := forall_mem_append.1 hbytes
  show (below l r).1.Holds _ ↔ (below l r).1.Holds _
  rw [below_holds, below_holds, value_congr hl, value_congr hr]

/-- The branch is taken for `byte 0 < 5`. -/
def cond : Condition := below (.inl 0) (.inr 5)

def flip : Condition := below (.inr 4) (.inl 0)

/-- Byte 0 is linked to byte 1, and nothing to byte 2. -/
def invs : List Condition := [below (.inl 0) (.inl 1), below (.inl 1) (.inr 9), below (.inl 2) (.inr 3)]

/-- Byte 0 is less than 9 and byte 1 is less than 3. -/
def both : Condition :=
  ⟨_, andCreate_isConstraint (below (.inl 0) (.inr 9)).2 (below (.inl 1) (.inr 3)).2⟩

lemma dependent_invs : getDependentConstraints reads (heldTerms invs) flip =
    [below (.inl 0) (.inl 1), below (.inl 1) (.inr 9)] := by decide +kernel

lemma dependent_both : getDependentConstraints reads (heldTerms [both]) flip =
    [below (.inl 0) (.inr 9)] := by decide +kernel

lemma sem_flip_ne : (kleeTheory inputEnv reads).sem flip ≠ (kleeTheory inputEnv reads).sem cond := by
  intro h
  have hflip : (fun _ => 9) ∈ (kleeTheory inputEnv reads).sem flip :=
    mem_sem_kleeTheory.2 ((below_holds _ _ _).2 (by decide))
  rw [h, mem_sem_kleeTheory] at hflip
  exact absurd ((below_holds _ _ _).1 hflip) (by decide)

lemma unlinked_not_kept : below (.inl 2) (.inr 3) ≠ flip ∧ below (.inl 2) (.inr 3) ∉
    [below (.inl 0) (.inl 1), below (.inl 1) (.inr 9)] := by decide +kernel

lemma both_not_kept : both ∉ [below (.inl 0) (.inr 9)] := by decide +kernel

open Classical in
/-- Some order of conditions. -/
noncomputable local instance someOrder : LinearOrder Condition := linearOrderOfSTO WellOrderingRel

/-- The entry of the flipped path. -/
structure Queued (invs : List Condition) (s : Exploration Condition)
    (next : QueuedPathConstraint Condition) : Prop where
  reached : Machine.Reaches (Exploration.step (kleeTheory inputEnv reads) [])
    (.init (kleeTheory inputEnv reads)) s
  mem : next ∈ s.pm.frontier
  list : next.pc.list = invs.map (⟨.boundsCheck, ·, 0⟩) ++ [⟨.invariantInput, flip, 0⟩]
  summary : next.pc.fullSummary = flip

lemma exists_queued (invs : List Condition) : ∃ s next, Queued invs s next := by
  obtain ⟨s, next, hs, hnext, hlist, hsum⟩ := flipped_queued (kleeTheory inputEnv reads) invs cond flip
    (fun _ => 0) rfl sem_flip_ne
  exact ⟨s, next, hs, hnext, hlist, hsum.trans (Subtype.ext (andPartial_true _))⟩

section
variable {invs : List Condition} {s : Exploration Condition} {next : QueuedPathConstraint Condition}
  (h : Queued invs s next)
include h

lemma Queued.extraInvariants : next.pc.extraInvariants = invs := by
  simp [PathConstraint.extraInvariants, h.list, filter_append, filter_map, Function.comp_def]

lemma Queued.kept {c : Condition} (hc : c ∈ next.pc.instantiated (kleeTheory inputEnv reads)) :
    c = flip ∨ c ∈ invs ∧ c ∈ getDependentConstraints reads (heldTerms invs) flip := by
  obtain ⟨e, he, hkept, rfl⟩ := PathConstraint.mem_instantiated.1 hc
  rw [h.list, mem_append, mem_map, mem_singleton] at he
  rcases he with ⟨c, hmem, rfl⟩ | rfl
  · have hdep : c ∈ getDependentConstraints reads (heldTerms next.pc.extraInvariants)
        next.pc.fullSummary := hkept.resolve_left (by rintro ⟨⟩)
    rw [h.extraInvariants, h.summary] at hdep
    exact .inr ⟨hmem, hdep⟩
  · exact .inl rfl

lemma Queued.forall_list (P : Condition → Prop) :
    (∀ e ∈ next.pc.list, P e.expr) ↔ (∀ c ∈ invs, P c) ∧ P flip := by
  rw [h.list, forall_mem_append, forall_mem_map, forall_mem_singleton]

end

end FlippedPath

end InputCovSched
