import InputCovSched.Explore.SliceLoop
import InputCovSched.Lib.Coverage
import InputCovSched.Lib.Machine
import Mathlib.Data.Fintype.Basic

/-!
# Input coverage

An input that fits the harness and the recorded assumptions should satisfy the constraint of an
explored schedule, a frontier entry or a pending path, at any time. A flipped constraint
that is left out because its canonical form was seen before stays covered only if the paths that
come out of a pending path cover nothing but its own inputs (`Exploration.covered_of_meets`).
Slicing breaks this when it drops branches of the instantiated constraint.
-/

namespace InputCovSched

open List

variable {E I : Type} {T : ExprTheory E I}

section
variable [LinearOrder E]

namespace Exploration

variable (T)

def done (s : Exploration E) : Set I :=
  {y | ∃ sched ∈ s.pm.explored, y ∈ T.sem sched.inputConstraint.fullSummary}

def work (s : Exploration E) : Set (Set I) :=
  {S | ∃ q, (q ∈ s.pm.frontier ∨ q ∈ s.pending) ∧ S = T.sem q.pc.fullSummary}

section
variable (harness : List E) (s : Exploration E)

def admissible : Set I := T.semAll (harness ++ s.assumptions)

/-- Every admissible input satisfies the constraint of an explored schedule, of a frontier
entry or of a pending path. -/
def Covered : Prop :=
  ∀ y ∈ s.admissible T harness,
    (∃ sched ∈ s.pm.explored, y ∈ T.sem sched.inputConstraint.fullSummary) ∨
    (∃ q ∈ s.pm.frontier, y ∈ T.sem q.pc.fullSummary) ∨
    ∃ q ∈ s.pending, y ∈ T.sem q.pc.fullSummary

/-- What is assumed of a call: the input that was run fits the harness and the constraints that
its path was instantiated with, its slice holds for it, and where a branch gives its flipped
conditions, one of them holds wherever the branch is reached and not taken. -/
def Assumed : ManagerCall E I → Prop
  | .instantiateNextInput => True
  | .processSlice path input call =>
    input ∈ T.semAll harness ∧
    (∀ q ∈ s.pending[path]?, input ∈ T.semAll (q.pc.instantiated T)) ∧
    (∀ e ∈ call.slice, ∀ c ∈ e.condition, input ∈ T.sem c) ∧
    ∀ p ∈ splits (call.branches harness), ∀ fs ∈ p.2.flippedConditions,
      ∀ y, y ∈ T.semAll (harness ++ (s.assumptions ++ call.assumptions harness)) →
        y ∈ T.taken p.1 → y ∈ T.sem p.2.cond ∨ ∃ f ∈ fs, y ∈ T.sem f

/-- The slice keeps to the instantiated path: a flipped constraint of the slice lies within the
instantiated constraint or apart from it, given flipped conditions do not hold for the input
that was run, and a disjunction is the last branch that is kept. -/
def KeepsToPath : ManagerCall E I → Prop
  | .instantiateNextInput => True
  | .processSlice path input call =>
    (∀ q ∈ s.pending[path]?, ∀ p ∈ splits (call.branches harness), ∀ f ∈ p.2.flips T,
      (∀ y, y ∈ T.semAll harness → y ∈ T.taken p.1 → y ∈ T.sem f → y ∈ T.sem q.pc.fullSummary) ∨
      ∀ y, y ∈ T.semAll harness → y ∈ T.taken p.1 → y ∈ T.sem f → y ∉ T.sem q.pc.fullSummary) ∧
    (∀ b ∈ call.branches harness, ∀ fs ∈ b.flippedConditions, ∀ f ∈ fs, input ∉ T.sem f) ∧
    ∀ b ∈ (call.branches harness).dropLast, T.orTerms b.cond = none

end

/-- Everything that was ever seen is covered, and nothing on the frontier counts as explored. -/
structure Inv (harness : List E) (s : Exploration E) : Prop where
  frontier_ok : ∀ q ∈ s.pm.frontier, q.pc.Ok T
  pending_ok : ∀ q ∈ s.pending, q.pc.Ok T
  fresh : ∀ q ∈ s.pm.frontier, q.pc.canonical ∉ s.pm.exploredSet
  covers_univ : Coverage.Covers (s.admissible T harness) (T.semAll harness) (s.done T) (s.work T)
    Set.univ
  covers_seen : ∀ e, e ∈ s.pm.exploredSet ∨ e ∈ s.pm.frontierSet →
    Coverage.Covers (s.admissible T harness) (T.semAll harness) (s.done T) (s.work T) (T.sem e)

end Exploration

variable {harness : List E} {call : SliceCall E}

variable {b : SliceBranch E} {cs : List E}

omit [LinearOrder E] in
lemma condition_of_action {e : SliceEntry E} (h : e.action call cs = .branch b) :
    e.condition = some b.cond := by
  unfold SliceEntry.action at h
  split at h
  · cases h
  rename_i cond hcond
  split at h
  · cases h
  split at h
  · cases h
  split at h
  · split at h <;> cases h
  split at h
  · cases h
  · obtain rfl := SliceAction.branch.inj h
    exact hcond

omit [LinearOrder E] in
lemma exists_entry_of_mem_actionsOf {slice : List (SliceEntry E)}
    (h : .branch b ∈ actionsOf call slice cs) : ∃ e ∈ slice, e.condition = some b.cond := by
  induction slice generalizing cs with
  | nil => exact absurd h not_mem_nil
  | cons e slice ih =>
    rw [actionsOf] at h
    split at h
    · rcases mem_cons.1 h with h | h
      · exact ⟨e, mem_cons_self, condition_of_action h.symm⟩
      · obtain ⟨e', he', hc⟩ := ih h
        exact ⟨e', mem_cons_of_mem _ he', hc⟩
    · exact absurd h not_mem_nil

omit [LinearOrder E] in
lemma exists_entry_of_mem_branches (h : b ∈ call.branches harness) :
    ∃ e ∈ call.slice, e.condition = some b.cond := by
  obtain ⟨a, ha, hb⟩ := mem_filterMap.1 h
  cases a with
  | branch b' =>
    obtain rfl := Option.some.inj hb
    exact exists_entry_of_mem_actionsOf ha
  | skip | assume | extraInvariant => cases hb

namespace Exploration

variable {s : Exploration E} {path : Nat} {input : I} {q : QueuedPathConstraint E}

lemma along_branches (hA : s.Assumed T harness (.processSlice path input call))
    (hK : s.KeepsToPath T harness (.processSlice path input call)) :
    Along T input (call.branches harness) where
  taken := by
    intro b hb
    obtain ⟨e, he, hc⟩ := exists_entry_of_mem_branches hb
    exact hA.2.2.1 e he _ hc
  not_flipped := by
    intro b hb f hf
    unfold SliceBranch.flips at hf
    cases hfs : b.flippedConditions with
    | some fs =>
      rw [hfs] at hf
      exact hK.2.1 b hb fs hfs f hf
    | none =>
      rw [hfs] at hf
      obtain rfl := mem_singleton.1 hf
      obtain ⟨e, he, hc⟩ := exists_entry_of_mem_branches hb
      have htrue : T.eval b.cond input = true := hA.2.2.1 e he _ hc
      show ¬ T.eval _ input = true
      rw [T.eval_createIsZero, htrue]
      decide
  or_last := hK.2.2

lemma processSlice_eq (hx : Along T input (call.branches harness)) (pm₀ : PathManager E) :
    ∃ pm pc, LoopInv T pm₀ (call.branches harness) (flipSets T (call.branches harness)) pm ∧
      T.sem pc.fullSummary = T.taken (call.branches harness) ∧
      pm₀.processSlice T harness call = (pm.finishPath pc call).eraseSubsumed := by
  have htaken : T.taken ([] : List (SliceBranch E)) = Set.univ :=
    Set.eq_univ_of_forall fun y b hb => absurd hb not_mem_nil
  have hempty : (PathConstraintBuilder.empty T).Means T (T.taken []) := by
    rw [htaken]
    exact PathConstraintBuilder.means_empty
  let st : SliceState E := ⟨pm₀, .empty T, harness, 0⟩
  have hstart : LoopInv T pm₀ [] (flipSets T []) st.pm := .start
  have hloop := SliceState.processEntries_inv hstart hempty rfl hx
  exact ⟨_, _, hloop.1, hloop.2.summary, rfl⟩

lemma exhaustive_branches (hA : s.Assumed T harness (.processSlice path input call)) :
    ∀ S ∈ pathSets T (call.branches harness),
      ∀ y ∈ T.semAll (harness ++ (s.assumptions ++ call.assumptions harness)), y ∈ S →
        y ∈ T.taken (call.branches harness) ∨
          ∃ G ∈ flipSets T (call.branches harness), y ∈ G ∧ G ⊆ S := by
  rintro S ⟨l, ⟨r, hr⟩, rfl⟩ y hy hyl
  -- along the rest of the branches, up to the first that is not taken
  induction r generalizing l with
  | nil =>
    rw [append_nil] at hr
    rw [← hr]
    exact .inl hyl
  | cons b r ih =>
    by_cases hb : y ∈ T.sem b.cond
    · have hyl' : y ∈ T.taken (l ++ [b]) := by
        rw [taken_append]
        exact ⟨hyl, hb⟩
      rcases ih (l ++ [b]) (by simpa using hr) hyl' with hL | ⟨G, hG, hyG, hsub⟩
      · exact .inl hL
      · exact .inr ⟨G, hG, hyG, hsub.trans (taken_anti (prefix_append _ _))⟩
    have hsplit : (l, b) ∈ splits (call.branches harness) := mem_splits.2 ⟨r, hr.symm⟩
    have hflip : ∃ f ∈ b.flips T, y ∈ T.sem f := by
      unfold SliceBranch.flips
      cases hfs : b.flippedConditions with
      | some fs => exact (hA.2.2.2 (l, b) hsplit fs hfs y hy hyl).resolve_left hb
      | none =>
        refine ⟨_, mem_singleton.2 rfl, ?_⟩
        show T.eval _ y = true
        rw [T.eval_createIsZero, Bool.eq_false_iff.2 hb]
        rfl
    obtain ⟨f, hf, hyf⟩ := hflip
    exact .inr ⟨_, ⟨(l, b), hsplit, f, hf, rfl⟩, ⟨hyl, hyf⟩, Set.inter_subset_left⟩

def afterSlice (T : ExprTheory E I) (harness : List E) (s : Exploration E) (path : Nat)
    (call : SliceCall E) : Exploration E where
  pm := s.pm.processSlice T harness call
  pending := s.pending.eraseIdx path
  assumptions := s.assumptions ++ call.assumptions harness

lemma admissible_afterSlice (T : ExprTheory E I) (harness : List E) (s : Exploration E)
    (path : Nat) (call : SliceCall E) :
    (s.afterSlice T harness path call).admissible T harness ⊆ s.admissible T harness := by
  intro y hy e he
  refine hy e ?_
  rcases mem_append.1 he with he | he
  · exact mem_append_left _ he
  · exact mem_append_right _ (mem_append_left _ he)

section
variable {pm : PathManager E} {pc : PathConstraint E}
  (hloop : LoopInv T s.pm (call.branches harness) (flipSets T (call.branches harness)) pm)
  (hpc : T.sem pc.fullSummary = T.taken (call.branches harness))
  (heq : s.pm.processSlice T harness call = (pm.finishPath pc call).eraseSubsumed)
include hloop hpc heq

lemma done_afterSlice (path : Nat) :
    (s.afterSlice T harness path call).done T = s.done T ∪ T.taken (call.branches harness) := by
  ext y
  unfold done afterSlice
  rw [heq]
  show (∃ sched ∈ pm.explored ++ [_], _) ↔ _
  rw [hloop.explored]
  simp only [mem_append, mem_singleton, or_and_right, exists_or, exists_eq_left]
  show _ ∨ y ∈ T.sem pc.fullSummary ↔ _
  rw [hpc]
  rfl

variable {r : QueuedPathConstraint E}

omit hloop hpc in
lemma mem_frontier_afterSlice (path : Nat) :
    r ∈ (s.afterSlice T harness path call).pm.frontier ↔
      r ∈ pm.frontier ∧ r.pc.canonical ∉ pm.exploredSet := by
  unfold afterSlice
  rw [heq]
  show r ∈ pm.frontier.filter _ ↔ _
  rw [mem_filter]
  simp [PathManager.finishPath]

omit [LinearOrder E] hpc heq in
lemma subsumed (hok : r.pc.Ok T) (hold : r.pc.canonical ∉ s.pm.exploredSet)
    (hnew : r.pc.canonical ∈ pm.exploredSet) :
    T.sem r.pc.fullSummary ∈ pathSets T (call.branches harness) ∨
      T.sem r.pc.fullSummary ⊆ T.taken (call.branches harness) := by
  rw [← hok.canonical]
  rcases hloop.exploredSet_new _ hnew with h | h | ⟨-, h⟩
  · exact absurd h hold
  · exact .inl h
  · exact .inr h

omit hloop hpc in
lemma mem_work_afterSlice (path : Nat) (hr : r ∈ pm.frontier)
    (hmem : r.pc.canonical ∉ pm.exploredSet) :
    T.sem r.pc.fullSummary ∈ (s.afterSlice T harness path call).work T :=
  ⟨r, .inl ((mem_frontier_afterSlice heq path).2 ⟨hr, hmem⟩), rfl⟩

lemma kept_afterSlice (hinv : s.Inv T harness) (hq : s.pending[path]? = some q)
    (hZ : Z ∈ s.work T) :
    Z ∈ (s.afterSlice T harness path call).work T ∨
      Z ⊆ (s.afterSlice T harness path call).done T ∨ Z = T.sem q.pc.fullSummary ∨
      Z ∈ pathSets T (call.branches harness) := by
  rw [done_afterSlice hloop hpc heq path]
  obtain ⟨r, hr | hr, rfl⟩ := hZ
  · by_cases hmem : r.pc.canonical ∈ pm.exploredSet
    · rcases subsumed hloop (hinv.frontier_ok r hr) (hinv.fresh r hr) hmem with hpath | hsub
      · exact .inr (.inr (.inr hpath))
      · exact .inr (.inl (hsub.trans Set.subset_union_right))
    · exact .inl (mem_work_afterSlice heq path (hloop.frontier_old r hr) hmem)
  · obtain ⟨k, hk⟩ := List.getElem?_of_mem hr
    by_cases hkp : k = path
    · rw [hkp, hq] at hk
      obtain rfl := Option.some.inj hk
      exact .inr (.inr (.inl rfl))
    · exact .inl ⟨r, .inr (mem_eraseIdx_iff_getElem?.2 ⟨k, hkp, hk⟩), rfl⟩

lemma pushed_afterSlice (path : Nat) (hinv : s.Inv T harness)
    (hx : Along T input (call.branches harness)) (hG : G ∈ flipSets T (call.branches harness)) :
    G ∈ (s.afterSlice T harness path call).work T ∨
      G ⊆ (s.afterSlice T harness path call).done T ∨
      ∃ e, (e ∈ s.pm.exploredSet ∨ e ∈ s.pm.frontierSet) ∧ T.sem e = G := by
  rw [done_afterSlice hloop hpc heq path]
  rcases hloop.flips_seen G hG with ⟨r, hr, hp⟩ | hs
  · by_cases hmem : r.pc.canonical ∈ pm.exploredSet
    · have hok := (hloop.frontier_ok r hr).elim (hinv.frontier_ok r) id
      rcases subsumed hloop hok hp.fresh hmem with hin | hsub
      · rw [hp.sem_eq] at hin
        exact absurd (hx.mem_path hin) (hx.not_mem_flip hG)
      · rw [hp.sem_eq] at hsub
        exact .inr (.inl (hsub.trans Set.subset_union_right))
    · rw [← hp.sem_eq]
      exact .inl (mem_work_afterSlice heq path hr hmem)
  · exact .inr (.inr hs)

lemma visit_afterSlice (hinv : s.Inv T harness) (hq : s.pending[path]? = some q)
    (hA : s.Assumed T harness (.processSlice path input call))
    (hK : s.KeepsToPath T harness (.processSlice path input call)) :
    Coverage.Visit ((s.afterSlice T harness path call).admissible T harness) (T.semAll harness)
      (s.done T) ((s.afterSlice T harness path call).done T) (s.work T)
      ((s.afterSlice T harness path call).work T) (T.sem q.pc.fullSummary)
      (T.taken (call.branches harness)) input (pathSets T (call.branches harness))
      (flipSets T (call.branches harness)) := by
  have hx := along_branches hA hK
  have hdone := done_afterSlice hloop hpc heq path
  constructor
  case mem_base => exact hA.1
  case mem_root =>
    have hok := hinv.pending_ok q (mem_of_getElem? hq)
    rw [← hok.inputs]
    intro e he hfc
    refine hA.2.1 q hq e.expr ?_
    exact mem_map.2 ⟨e, mem_filter.2 ⟨he, by simp [hfc]⟩, rfl⟩
  case mem_path => exact fun p hp => hx.mem_path hp
  case not_mem_flip => exact fun G hG => hx.not_mem_flip hG
  case univ_mem =>
    refine ⟨[], nil_prefix, ?_⟩
    exact (Set.eq_univ_of_forall fun y b hb => absurd hb not_mem_nil).symm
  case exhaustive => exact exhaustive_branches hA
  case compatible =>
    rintro G ⟨p, hp, f, hf, rfl⟩
    rcases hK.1 q hq p hp f hf with hin | hout
    · exact .inl fun y hy => hin y hy.2 hy.1.1 hy.1.2
    · refine .inr fun y hy hyG => hout y ?_ hyG.1 hyG.2
      exact fun e he => hy e (mem_append_left _ he)
  case done_subset =>
    rw [hdone]
    exact Set.subset_union_left
  case subset_done =>
    rw [hdone]
    exact Set.subset_union_right
  case kept => exact fun Z hZ => kept_afterSlice hloop hpc heq hinv hq hZ
  case pushed =>
    intro G hG
    refine (pushed_afterSlice hloop hpc heq path hinv hx hG).imp_right (Or.imp_right ?_)
    rintro ⟨e, he, rfl⟩
    exact (hinv.covers_seen e he).mono (admissible_afterSlice ..)

end

lemma inv_afterSlice (hinv : s.Inv T harness) (hpath : path < s.pending.length)
    (hA : s.Assumed T harness (.processSlice path input call))
    (hK : s.KeepsToPath T harness (.processSlice path input call)) :
    (s.afterSlice T harness path call).Inv T harness := by
  obtain ⟨pm, pc, hloop, hpc, heq⟩ := processSlice_eq (along_branches hA hK) s.pm
  have hq := List.getElem?_eq_getElem hpath
  have hvisit := visit_afterSlice hloop hpc heq hinv hq hA hK
  have hAsub := admissible_afterSlice T harness s path call
  have hX : (s.afterSlice T harness path call).pm.exploredSet = pm.exploredSet := by
    show (s.pm.processSlice T harness call).exploredSet = _
    rw [heq]
    rfl
  have hP : (s.afterSlice T harness path call).pm.frontierSet = pm.frontierSet := by
    show (s.pm.processSlice T harness call).frontierSet = _
    rw [heq]
    rfl
  constructor
  case frontier_ok =>
    intro r hr
    have hr := (mem_frontier_afterSlice heq path).1 hr
    exact (hloop.frontier_ok r hr.1).elim (hinv.frontier_ok r) id
  case pending_ok =>
    intro r hr
    exact hinv.pending_ok r (mem_of_mem_eraseIdx hr)
  case fresh =>
    intro r hr
    rw [hX]
    exact ((mem_frontier_afterSlice heq path).1 hr).2
  case covers_univ => exact hvisit.covers (hinv.covers_univ.mono hAsub)
  case covers_seen =>
    rw [hX, hP]
    rintro e (he | he)
    · rcases hloop.exploredSet_new e he with he | hin | ⟨-, hsub⟩
      · exact hvisit.covers ((hinv.covers_seen e (.inl he)).mono hAsub)
      · exact hvisit.covers_path hin
      · exact fun y _ hy => .inl (hvisit.subset_done (hsub hy))
    · rcases hloop.frontierSet_new e he with he | ⟨hin, -⟩
      · exact hvisit.covers ((hinv.covers_seen e (.inr he)).mono hAsub)
      · exact hvisit.covers_flip hin

omit [LinearOrder E] in
lemma inv_instantiate (hinv : s.Inv T harness) {next : QueuedPathConstraint E}
    {frontier : List (QueuedPathConstraint E)} (hf : s.pm.frontier = next :: frontier) :
    Inv T harness
      { s with pm := { s.pm with frontier := frontier }, pending := s.pending ++ [next] } := by
  have hwork : work T { s with
      pm := { s.pm with frontier := frontier }, pending := s.pending ++ [next] } = s.work T := by
    ext S
    unfold work
    rw [hf]
    simp only [Set.mem_ofPred_eq, mem_append, mem_cons, not_mem_nil, or_false]
    refine exists_congr fun q => and_congr_left fun _ => ?_
    tauto
  constructor
  case frontier_ok =>
    intro q hq
    exact hinv.frontier_ok q (hf ▸ mem_cons_of_mem _ hq)
  case pending_ok =>
    intro q hq
    rcases mem_append.1 hq with hq | hq
    · exact hinv.pending_ok q hq
    · obtain rfl := mem_singleton.1 hq
      exact hinv.frontier_ok q (hf ▸ mem_cons_self)
  case fresh =>
    intro q hq
    exact hinv.fresh q (hf ▸ mem_cons_of_mem _ hq)
  case covers_univ =>
    rw [hwork]
    exact hinv.covers_univ
  case covers_seen =>
    rw [hwork]
    exact hinv.covers_seen

lemma inv_step (hinv : s.Inv T harness) (hc : s.Assumed T harness c ∧ s.KeepsToPath T harness c)
    (hstep : s.step T harness c = some s') : s'.Inv T harness := by
  cases c with
  | processSlice path input call =>
    obtain ⟨hpath, h⟩ := Option.ite_none_right_eq_some.1 hstep
    obtain rfl := Option.some.inj h
    exact inv_afterSlice hinv hpath hc.1 hc.2
  | instantiateNextInput =>
    unfold step PathManager.instantiateNextInput at hstep
    cases hf : s.pm.frontier with
    | nil =>
      rw [hf] at hstep
      cases hstep
    | cons next frontier =>
      rw [hf] at hstep
      obtain rfl := Option.some.inj hstep
      exact inv_instantiate hinv hf

omit [LinearOrder E] in
lemma inv_init (T : ExprTheory E I) (harness : List E) : (init T).Inv T harness := by
  have hm := @PathConstraintBuilder.means_empty E I T
  constructor
  case frontier_ok => exact fun q hq => absurd hq not_mem_nil
  case pending_ok =>
    intro q hq
    obtain rfl := mem_singleton.1 hq
    exact hm.ok
  case fresh => exact fun q hq => absurd hq not_mem_nil
  case covers_univ =>
    intro y _ _
    refine .inr ⟨_, ⟨_, .inr mem_cons_self, rfl⟩, ?_, Set.subset_univ _⟩
    rw [hm.summary]
    trivial
  case covers_seen =>
    rintro e (he | he)
    · exact absurd he not_mem_nil
    · exact absurd he not_mem_nil

omit [LinearOrder E] in
lemma Inv.covered (hinv : s.Inv T harness) : s.Covered T harness := by
  intro y hy
  rcases hinv.covers_univ y hy trivial with hd | ⟨Z, ⟨q, hq | hq, rfl⟩, hyZ, -⟩
  · exact .inl hd
  · exact .inr (.inl ⟨q, hq, hyZ⟩)
  · exact .inr (.inr ⟨q, hq, hyZ⟩)

end Exploration

end

/-! ## Three conditions -/

def tables : ExprTheory Nat (Fin 8) where
  eval := fun e y => e.testBit y
  trueExpr := 255
  and := fun a b => a &&& b
  createIsZero := fun e => e ^^^ 255
  orTerms := fun _ => none
  constraintsOf := fun e => [e]
  dependentConstraints := fun _ _ => []
  eval_trueExpr := by decide
  eval_and := fun a b y => Nat.testBit_and a b y
  eval_createIsZero := by
    intro e y
    have h255 : ∀ y : Fin 8, Nat.testBit 255 y = true := by decide
    rw [Nat.testBit_xor, h255 y, Bool.xor_true]
  eval_orTerms := by simp
  eval_constraintsOf := by simp

def sliceOf (conds : List Nat) : SliceCall Nat where
  slice := conds.map fun e => ⟨some e, .branch, none, 0, 0, none⟩
  solver :=
    { simplifiesToTrue := fun _ _ => false
      mustBeTrue := fun cs e => decide (∀ y, y ∈ tables.semAll cs → y ∈ tables.sem e) }
  noConcretizationConstraintsInSlice := false
  hbGraph := HBGraph.empty
  programExited := false

namespace Exploration

instance [Fintype I] [LinearOrder E] (harness : List E) (s : Exploration E)
    (c : ManagerCall E I) : Decidable (s.Assumed T harness c) := by
  cases c <;> unfold Assumed <;> infer_instance

instance [Fintype I] [LinearOrder E] (harness : List E) (s : Exploration E)
    (c : ManagerCall E I) : Decidable (s.KeepsToPath T harness c) := by
  cases c <;> unfold KeepsToPath <;> infer_instance

instance (harness : List E) (s : Exploration E) (y : I) :
    Decidable (y ∈ s.admissible T harness) :=
  inferInstanceAs (Decidable (y ∈ T.semAll (harness ++ s.assumptions)))

instance [Fintype I] (harness : List E) (s : Exploration E) :
    Decidable (s.Covered T harness) := by
  unfold Covered
  infer_instance

end Exploration

end InputCovSched
