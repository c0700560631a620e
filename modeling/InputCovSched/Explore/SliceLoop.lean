import InputCovSched.Explore.PathManager
import Mathlib.Data.List.Infix

/-!
# The loop of `processSlice`

Each branch that the loop keeps narrows the inputs down (`pathSets`), and leaves aside the inputs
of its flipped constraints (`flipSets`). `LoopInv` says what the loop has done with them: a
flipped constraint is on the frontier now or was seen before the call began, and what has
become explored is on the path of the call. It holds at the end of the loop if the input that
was run goes along the branches (`SliceState.processEntries_inv`).
-/

namespace InputCovSched

open List

variable {E I : Type} (T : ExprTheory E I)

/-! ## Inputs -/

def ExprTheory.semAll (es : List E) : Set I := {y | ∀ e ∈ es, y ∈ T.sem e}

def ExprTheory.taken (bs : List (SliceBranch E)) : Set I := {y | ∀ b ∈ bs, y ∈ T.sem b.cond}

instance (e : E) (y : I) : Decidable (y ∈ T.sem e) :=
  inferInstanceAs (Decidable (T.eval e y = true))

instance (es : List E) (y : I) : Decidable (y ∈ T.semAll es) :=
  inferInstanceAs (Decidable (∀ e ∈ es, y ∈ T.sem e))

instance (bs : List (SliceBranch E)) (y : I) : Decidable (y ∈ T.taken bs) :=
  inferInstanceAs (Decidable (∀ b ∈ bs, y ∈ T.sem b.cond))

/-- Each branch with the branches before it. -/
def splits {β : Type} (bs : List β) : List (List β × β) := bs.inits.zip bs

lemma mem_splits {β : Type} {bs pre : List β} {b : β} :
    (pre, b) ∈ splits bs ↔ ∃ post, bs = pre ++ b :: post := by
  unfold splits
  induction bs generalizing pre with
  | nil => simp
  | cons a bs ih =>
    rw [inits_cons, zip_cons_cons, mem_cons, zip_map_left, mem_map]
    constructor
    · rintro (h | ⟨⟨pre', b'⟩, hmem, h⟩)
      · obtain ⟨rfl, rfl⟩ := Prod.mk.inj h
        exact ⟨bs, rfl⟩
      · obtain ⟨rfl, rfl⟩ := Prod.mk.inj h
        obtain ⟨post, rfl⟩ := ih.1 hmem
        exact ⟨post, rfl⟩
    · rintro ⟨post, h⟩
      cases pre with
      | nil =>
        obtain ⟨rfl, rfl⟩ := List.cons.inj h
        exact .inl rfl
      | cons c pre =>
        obtain ⟨rfl, htail⟩ := List.cons.inj h
        exact .inr ⟨(pre, b), ih.2 ⟨post, htail⟩, rfl⟩

def pathSets (bs : List (SliceBranch E)) : Set (Set I) := {S | ∃ l, l <+: bs ∧ S = T.taken l}

def flipSets (bs : List (SliceBranch E)) : Set (Set I) :=
  {S | ∃ p ∈ splits bs, ∃ f ∈ p.2.flips T, S = T.taken p.1 ∩ T.sem f}

variable {T}

lemma taken_append : T.taken (bs ++ [b]) = T.taken bs ∩ T.sem b.cond := by
  ext y
  constructor
  · intro h
    exact ⟨fun d hd => h d (mem_append_left _ hd), h b (by simp)⟩
  · rintro ⟨h, hb⟩ d hd
    rcases mem_append.1 hd with hd | hd
    · exact h d hd
    · obtain rfl := mem_singleton.1 hd
      exact hb

lemma taken_anti (h : l <+: bs) : T.taken bs ⊆ T.taken l :=
  fun _ hy b hb => hy b (h.subset hb)

lemma pathSets_mono (h : l <+: bs) : pathSets T l ⊆ pathSets T bs := by
  rintro S ⟨l', hl', rfl⟩
  exact ⟨l', hl'.trans h, rfl⟩

lemma flipSets_append {b : SliceBranch E} :
    flipSets T (bs ++ [b]) = flipSets T bs ∪ {S | ∃ f ∈ b.flips T, S = T.taken bs ∩ T.sem f} := by
  ext S
  constructor
  · rintro ⟨⟨pre, c⟩, hp, f, hf, rfl⟩
    obtain ⟨post, hpost⟩ := mem_splits.1 hp
    rcases eq_nil_or_concat post with rfl | ⟨post', d, rfl⟩
    · obtain ⟨rfl, h⟩ := append_inj' hpost rfl
      obtain rfl := List.cons.inj h |>.1
      exact .inr ⟨f, hf, rfl⟩
    have heq : bs ++ [b] = (pre ++ c :: post') ++ [d] := by simpa using hpost
    have hbs := append_inj_left' heq rfl
    exact .inl ⟨(pre, c), mem_splits.2 ⟨post', hbs⟩, f, hf, rfl⟩
  · rintro (⟨⟨pre, c⟩, hp, f, hf, rfl⟩ | ⟨f, hf, rfl⟩)
    · obtain ⟨post, rfl⟩ := mem_splits.1 hp
      exact ⟨(pre, c), mem_splits.2 ⟨post ++ [b], by simp⟩, f, hf, rfl⟩
    · exact ⟨(bs, b), mem_splits.2 ⟨[], rfl⟩, f, hf, rfl⟩

/-! ## One call of `processSlice` -/

section
variable (T)

structure Pushed (pm₀ : PathManager E) (q : QueuedPathConstraint E) (G : Set I) : Prop where
  sem_eq : T.sem q.pc.fullSummary = G
  fresh : q.pc.canonical ∉ pm₀.exploredSet

/-- Where the loop is when it has seen the branches `bs` and the flipped constraints in
`flips`; `pm₀` is the manager at the beginning of the call. -/
structure LoopInv (pm₀ : PathManager E) (bs : List (SliceBranch E)) (flips : Set (Set I))
    (pm : PathManager E) : Prop where
  explored : pm.explored = pm₀.explored
  frontier_old : ∀ q ∈ pm₀.frontier, q ∈ pm.frontier
  frontier_ok : ∀ q ∈ pm.frontier, q ∈ pm₀.frontier ∨ q.pc.Ok T
  exploredSet_old : ∀ e ∈ pm₀.exploredSet, e ∈ pm.exploredSet
  /-- the terms of a disjunction are explored as parts of the path that took it -/
  exploredSet_new : ∀ e ∈ pm.exploredSet, e ∈ pm₀.exploredSet ∨ T.sem e ∈ pathSets T bs ∨
    (∃ b ∈ bs, T.orTerms b.cond ≠ none) ∧ T.sem e ⊆ T.taken bs
  frontierSet_new : ∀ e ∈ pm.frontierSet, e ∈ pm₀.frontierSet ∨
    T.sem e ∈ flips ∧ ∃ q ∈ pm.frontier, Pushed T pm₀ q (T.sem e)
  flips_seen : ∀ G ∈ flips, (∃ q ∈ pm.frontier, Pushed T pm₀ q G) ∨
    ∃ e, (e ∈ pm₀.exploredSet ∨ e ∈ pm₀.frontierSet) ∧ T.sem e = G

end

variable {pm₀ pm : PathManager E} {bs : List (SliceBranch E)} {flips : Set (Set I)}

lemma LoopInv.start : LoopInv T pm₀ [] (flipSets T []) pm₀ where
  explored := rfl
  frontier_old := fun _ => id
  frontier_ok := fun _ => .inl
  exploredSet_old := fun _ => id
  exploredSet_new := fun _ => .inl
  frontierSet_new := fun _ => .inl
  flips_seen := by
    rintro G ⟨p, hp, -⟩
    exact absurd hp not_mem_nil

lemma LoopInv.pushCtxSwitches (h : LoopInv T pm₀ bs flips pm) (hb : b.Means T S)
    (g : HBGraph) (lastId : Nat) (others : List Nat) :
    LoopInv T pm₀ bs flips (pm.pushCtxSwitches g lastId b others) where
  explored := h.explored
  frontier_old := fun q hq => mem_append_left _ (h.frontier_old q hq)
  frontier_ok := by
    intro q hq
    rcases mem_append.1 hq with hq | hq
    · exact h.frontier_ok q hq
    · obtain ⟨t, -, rfl⟩ := mem_map.1 hq
      exact .inr ⟨hb.ok.canonical, hb.ok.inputs⟩
  exploredSet_old := h.exploredSet_old
  exploredSet_new := h.exploredSet_new
  frontierSet_new := by
    intro e he
    rcases h.frontierSet_new e he with he | ⟨hf, q, hq, hp⟩
    · exact .inl he
    · exact .inr ⟨hf, q, mem_append_left _ hq, hp⟩
  flips_seen := by
    intro G hG
    rcases h.flips_seen G hG with ⟨q, hq, hp⟩ | hs
    · exact .inl ⟨q, mem_append_left _ hq, hp⟩
    · exact .inr hs

/-- What the loop needs of the branches: `x` takes all of them and none of their flips, and a
disjunction is the last one. -/
structure Along (T : ExprTheory E I) (x : I) (bs : List (SliceBranch E)) : Prop where
  taken : x ∈ T.taken bs
  not_flipped : ∀ b ∈ bs, ∀ f ∈ b.flips T, x ∉ T.sem f
  or_last : ∀ b ∈ bs.dropLast, T.orTerms b.cond = none

lemma Along.mem_path (h : Along T x bs) (hS : S ∈ pathSets T bs) : x ∈ S := by
  obtain ⟨l, hl, rfl⟩ := hS
  exact taken_anti hl h.taken

lemma Along.not_mem_flip {x : I} (h : Along T x bs) (hG : G ∈ flipSets T bs) : x ∉ G := by
  obtain ⟨⟨pre, b⟩, hp, f, hf, rfl⟩ := hG
  obtain ⟨post, rfl⟩ := mem_splits.1 hp
  intro hxG
  exact h.not_flipped b (mem_append_right _ mem_cons_self) f hf hxG.2

section
variable [LinearOrder E]

variable {b : PathConstraintBuilder E} {x : I} {call : SliceCall E}

lemma exists_of_alreadySeen (hb : b.Means T S) (hseen : pm.alreadySeen b = true) :
    ∃ e, (e ∈ pm.exploredSet ∨ e ∈ pm.frontierSet) ∧ T.sem e = S := by
  simp only [PathManager.alreadySeen, Bool.or_eq_true, contains_iff_mem] at hseen
  rcases hseen with ((h | h) | h) | h
  · exact ⟨_, .inl h, hb.full⟩
  · exact ⟨_, .inl h, hb.concise⟩
  · exact ⟨_, .inr h, hb.full⟩
  · exact ⟨_, .inr h, hb.concise⟩

section
variable (h : LoopInv T pm₀ bs flips pm)
include h

lemma LoopInv.seenFlipped (hb : b.Means T G) (hor : ∀ d ∈ bs, T.orTerms d.cond = none)
    (hx : x ∈ T.taken bs) (hG : x ∉ G) (hseen : pm.alreadySeen b = true) :
    LoopInv T pm₀ bs (flips ∪ {G}) pm := by
  refine { h with frontierSet_new := ?_, flips_seen := ?_ }
  · intro e he
    rcases h.frontierSet_new e he with he | ⟨hin, hq⟩
    · exact .inl he
    · exact .inr ⟨.inl hin, hq⟩
  rintro G' (hG' | rfl)
  · exact h.flips_seen G' hG'
  · obtain ⟨e, he, hsem⟩ := exists_of_alreadySeen hb hseen
    rcases he with he | he
    · rcases h.exploredSet_new e he with he | ⟨l, hl, hpath⟩ | ⟨⟨d, hd, hne⟩, -⟩
      · exact .inr ⟨e, .inl he, hsem⟩
      · have hxe : x ∈ T.sem e := by
          rw [hpath]
          exact taken_anti hl hx
        rw [hsem] at hxe
        exact absurd hxe hG
      · exact absurd (hor d hd) hne
    · rcases h.frontierSet_new e he with he | ⟨-, hq⟩
      · exact .inr ⟨e, .inr he, hsem⟩
      · rw [hsem] at hq
        exact .inl hq

lemma LoopInv.newFlipped (hb : b.Means T G) (hnew : ¬ pm.alreadySeen b = true)
    (g : HBGraph) (lastId : Nat) :
    LoopInv T pm₀ bs (flips ∪ {G}) { pm with
        frontier := pm.frontier ++ [⟨b.pc, g, lastId⟩]
        frontierSet := b.conciseCanonical :: b.fullCanonical :: pm.frontierSet } := by
  have hpush : Pushed T pm₀ ⟨b.pc, g, lastId⟩ G := by
    refine ⟨hb.summary, fun hmem => hnew ?_⟩
    have := h.exploredSet_old _ hmem
    rw [hb.canonical] at this
    simp [PathManager.alreadySeen, this]
  have hself : ∀ e, T.sem e = G → T.sem e ∈ flips ∪ {G} ∧
      ∃ q ∈ pm.frontier ++ [⟨b.pc, g, lastId⟩], Pushed T pm₀ q (T.sem e) := by
    intro e heq
    rw [heq]
    exact ⟨.inr rfl, _, mem_append_right _ mem_cons_self, hpush⟩
  refine { h with frontier_old := ?_, frontier_ok := ?_, frontierSet_new := ?_, flips_seen := ?_ }
  · exact fun q hq => mem_append_left _ (h.frontier_old q hq)
  · exact forall_mem_append.2 ⟨h.frontier_ok, forall_mem_singleton.2 (.inr hb.ok)⟩
  · intro e he
    rcases mem_cons.1 he with rfl | he
    · exact .inr (hself _ hb.concise)
    rcases mem_cons.1 he with rfl | he
    · exact .inr (hself _ hb.full)
    rcases h.frontierSet_new e he with he | ⟨hin, q, hq, hp⟩
    · exact .inl he
    · exact .inr ⟨.inl hin, q, mem_append_left _ hq, hp⟩
  · rintro G' (hG' | rfl)
    · rcases h.flips_seen G' hG' with ⟨q, hq, hp⟩ | hs
      · exact .inl ⟨q, mem_append_left _ hq, hp⟩
      · exact .inr hs
    · exact .inl ⟨_, mem_append_right _ mem_cons_self, hpush⟩

section
variable (hb : b.Means T (T.taken bs)) (hor : ∀ d ∈ bs, T.orTerms d.cond = none)
  (hx : x ∈ T.taken bs)
include hb hor hx

lemma LoopInv.pushFlipped (hf : x ∉ T.sem f) (g : HBGraph) (lastId : Nat) :
    LoopInv T pm₀ bs (flips ∪ {T.taken bs ∩ T.sem f}) (pm.pushFlipped T g lastId b f) := by
  have hm := hb.add f lastId
  unfold PathManager.pushFlipped
  dsimp only
  split
  · rename_i hseen
    exact h.seenFlipped hm hor hx (fun hxG => hf hxG.2) hseen
  · rename_i hnew
    exact h.newFlipped hm hnew g lastId

lemma LoopInv.pushAllFlipped {fs : List E}
    (hfs : ∀ f ∈ fs, x ∉ T.sem f) (g : HBGraph) (lastId : Nat) :
    LoopInv T pm₀ bs (flips ∪ {S | ∃ f ∈ fs, S = T.taken bs ∩ T.sem f})
      (fs.foldl (PathManager.pushFlipped T g lastId b) pm) := by
  induction fs generalizing pm flips with
  | nil =>
    have hempty : flips ∪ {S | ∃ f ∈ ([] : List E), S = T.taken bs ∩ T.sem f} = flips := by
      simp
    rw [hempty]
    exact h
  | cons f fs ih =>
    have hcons : flips ∪ {S | ∃ f' ∈ f :: fs, S = T.taken bs ∩ T.sem f'} =
        flips ∪ {T.taken bs ∩ T.sem f} ∪ {S | ∃ f' ∈ fs, S = T.taken bs ∩ T.sem f'} := by
      ext S
      simp only [exists_mem_cons_iff, Set.mem_union, Set.mem_ofPred_eq, Set.mem_singleton_iff,
        or_assoc]
    rw [hcons, foldl_cons]
    obtain ⟨hf, hfs⟩ := forall_mem_cons.1 hfs
    exact ih (h.pushFlipped hb hor hx hf g lastId) hfs

end

omit [LinearOrder E] in
lemma LoopInv.takeBranch (hor : ∀ d ∈ bs, T.orTerms d.cond = none) (b : SliceBranch E) :
    LoopInv T pm₀ (bs ++ [b]) flips pm := by
  refine { h with exploredSet_new := ?_ }
  intro e he
  rcases h.exploredSet_new e he with he | hpath | ⟨⟨d, hd, hne⟩, -⟩
  · exact .inl he
  · exact .inr (.inl (pathSets_mono (prefix_append _ _) hpath))
  · exact absurd (hor d hd) hne

omit [LinearOrder E] in
lemma LoopInv.insertExplored (hb : b.Canon T S)
    (hS : S ∈ pathSets T bs ∨ (∃ b ∈ bs, T.orTerms b.cond ≠ none) ∧ S ⊆ T.taken bs) :
    LoopInv T pm₀ bs flips (pm.insertExplored b) := by
  refine { h with exploredSet_old := ?_, exploredSet_new := ?_ }
  · intro e he
    exact mem_cons_of_mem _ (mem_cons_of_mem _ (h.exploredSet_old e he))
  intro e he
  rcases mem_cons.1 he with rfl | he
  · rw [hb.concise]
    exact .inr hS
  rcases mem_cons.1 he with rfl | he
  · rw [hb.full]
    exact .inr hS
  · exact h.exploredSet_new e he

lemma LoopInv.addExplored (hb : prior.Means T (T.taken bs))
    (hor : ∀ d ∈ bs, T.orTerms d.cond = none) (b : SliceBranch E) (lastId : Nat) :
    LoopInv T pm₀ (bs ++ [b]) flips (pm.addExplored T prior b.cond lastId).1 ∧
      (pm.addExplored T prior b.cond lastId).2.Means T (T.taken (bs ++ [b])) := by
  have hm := hb.add b.cond lastId
  rw [← taken_append] at hm
  have hpath : T.taken (bs ++ [b]) ∈ pathSets T (bs ++ [b]) := ⟨_, prefix_rfl, rfl⟩
  have h₁ := (h.takeBranch hor b).insertExplored hm.toCanon (.inl hpath)
  unfold PathManager.addExplored
  dsimp only
  split
  · exact ⟨h₁, hm⟩
  rename_i terms hterms
  refine ⟨?_, hm⟩
  have hterm : ∀ t ∈ terms, (∃ d ∈ bs ++ [b], T.orTerms d.cond ≠ none) ∧
      T.taken bs ∩ T.sem t ⊆ T.taken (bs ++ [b]) := by
    intro t ht
    refine ⟨⟨b, by simp, by simp [hterms]⟩, ?_⟩
    rw [taken_append]
    refine Set.inter_subset_inter_right _ fun y hy => ?_
    show T.eval b.cond y = true
    rw [T.eval_orTerms _ _ hterms, any_eq_true]
    exact ⟨t, ht, hy⟩
  generalize pm.insertExplored (prior.add T b.cond lastId) = pm₁ at h₁
  clear hterms
  induction terms generalizing pm₁ with
  | nil => exact h₁
  | cons t terms ih =>
    obtain ⟨ht, hterm⟩ := forall_mem_cons.1 hterm
    exact ih hterm _ (h₁.insertExplored (hb.toCanon.addToCanonical t) (.inr ht))

end

namespace SliceState

variable {st : SliceState E}

omit [LinearOrder E] in
lemma ctxSwitch_inv (call : SliceCall E) (h : LoopInv T pm₀ bs flips st.pm)
    (hb : st.pcBuilder.Means T S) (e : SliceEntry E) :
    LoopInv T pm₀ bs flips (st.ctxSwitch call e).pm ∧ (st.ctxSwitch call e).pcBuilder.Means T S ∧
      (st.ctxSwitch call e).constraints = st.constraints := by
  unfold ctxSwitch
  split
  · exact ⟨h, hb, rfl⟩
  · exact ⟨h.pushCtxSwitches hb _ _ _,
      ⟨⟨hb.set, hb.full, hb.concise, hb.canonical⟩, hb.summary, hb.inputs⟩, rfl⟩

lemma act_constraints (a : SliceAction E) :
    (st.act T call n a).constraints = st.constraints ++ a.constraint := by
  cases a with
  | skip => exact (append_nil _).symm
  | assume | extraInvariant | branch => rfl

lemma act_inv (call : SliceCall E) (n : Nat) {a : SliceAction E}
    (h : LoopInv T pm₀ bs (flipSets T bs) st.pm) (hb : st.pcBuilder.Means T (T.taken bs))
    (hfc : ∀ fc c, a = .extraInvariant fc c → fc ≠ .invariantInput)
    (hor : ∀ b, a = .branch b → ∀ d ∈ bs, T.orTerms d.cond = none) (hx : x ∈ T.taken bs)
    (hflip : ∀ b, a = .branch b → ∀ f ∈ b.flips T, x ∉ T.sem f) :
    LoopInv T pm₀ (bs ++ a.branch?.toList) (flipSets T (bs ++ a.branch?.toList))
        (st.act T call n a).pm ∧
      (st.act T call n a).pcBuilder.Means T (T.taken (bs ++ a.branch?.toList)) := by
  cases a with
  | skip | assume cond =>
    simp only [SliceAction.branch?, Option.toList_none, append_nil]
    exact ⟨h, hb⟩
  | extraInvariant fc cond =>
    simp only [SliceAction.branch?, Option.toList_none, append_nil]
    exact ⟨h, hb.addExtraInvariant (hfc fc cond rfl) cond⟩
  | branch b =>
    have hpush := h.pushAllFlipped hb (hor b rfl) hx (hflip b rfl) call.hbGraph n
    rw [← flipSets_append] at hpush
    exact hpush.addExplored hb (hor b rfl) b n

end SliceState

omit [LinearOrder E] in
lemma ne_input_of_action {e : SliceEntry E} {fc : ForkClass}
    {c : E} (h : e.action call cs = .extraInvariant fc c) : fc ≠ .invariantInput := by
  unfold SliceEntry.action at h
  split at h
  · cases h
  rename_i cond _
  split at h
  · cases h
  rename_i hne
  split at h
  · cases h
  split at h
  · split at h
    · cases h
    · obtain ⟨rfl, -⟩ := SliceAction.extraInvariant.inj h
      exact hne
  · split at h <;> cases h

lemma SliceState.processEntries_inv {slice : List (SliceEntry E)}
    {st : SliceState E} (h : LoopInv T pm₀ bs (flipSets T bs) st.pm)
    (hb : st.pcBuilder.Means T (T.taken bs)) {rest : List (SliceBranch E)}
    (hrest : rest = (actionsOf call slice st.constraints).filterMap SliceAction.branch?)
    (hx : Along T x (bs ++ rest)) :
    LoopInv T pm₀ (bs ++ rest) (flipSets T (bs ++ rest)) (processEntries T call slice st).pm ∧
      (processEntries T call slice st).pcBuilder.Means T (T.taken (bs ++ rest)) := by
  induction slice generalizing st bs rest with
  | nil =>
    simp only [actionsOf, filterMap_nil] at hrest
    subst hrest
    rw [append_nil]
    exact ⟨h, hb⟩
  | cons e slice ih =>
    rw [processEntries]
    rw [actionsOf] at hrest
    split
    case isFalse hleft =>
      rw [if_neg hleft, filterMap_nil] at hrest
      subst hrest
      rw [append_nil]
      exact ⟨h, hb⟩
    case isTrue hleft =>
      rw [if_pos hleft] at hrest
      obtain ⟨h₁, hb₁, hcs⟩ := ctxSwitch_inv call h hb e
      generalize ha : e.action call st.constraints = a at hrest
      have hcons : rest = a.branch?.toList ++
          (actionsOf call slice (st.constraints ++ a.constraint)).filterMap
            SliceAction.branch? := by
        rw [hrest, filterMap_cons]
        cases a.branch? <;> rfl
      have hor : ∀ b, a = .branch b → ∀ d ∈ bs, T.orTerms d.cond = none := by
        rintro b rfl d hd
        refine hx.or_last d ?_
        rw [hcons]
        simp [SliceAction.branch?, hd]
      have hflip : ∀ b, a = .branch b → ∀ f ∈ b.flips T, x ∉ T.sem f := by
        rintro b rfl f hf
        refine hx.not_flipped b ?_ f hf
        rw [hcons]
        simp [SliceAction.branch?]
      have hact := act_inv call e.maxHbNodeId h₁ hb₁
        (fun fc c hc => ne_input_of_action (ha.trans hc)) hor
        (taken_anti (prefix_append _ _) hx.taken) hflip
      have hproc : processEntry T call st e = (st.ctxSwitch call e).act T call e.maxHbNodeId a := by
        rw [← ha, ← hcs]
        rfl
      rw [hproc, hcons, ← append_assoc]
      refine ih hact.1 hact.2 ?_ ?_
      · rw [act_constraints, hcs]
      · rw [append_assoc, ← hcons]
        exact hx

end

end InputCovSched
