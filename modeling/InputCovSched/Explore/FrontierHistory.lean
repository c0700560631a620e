import InputCovSched.Explore.Alternatives

/-!
# No input constraint is queued twice (`alreadySeen` in `lib/ICS/PathManager.cpp`)

A flipped path is pushed when neither of its two canonical forms was explored or pushed before. The
history of a run of calls lists what is put on the frontier and what is explored, in the order of
the loop:

    a call appends the queued entries of its events to the frontier and inserts the explored
    forms into the explored set; nothing else gets there  (logged_processSlice)
    the canonical form of a pushed path is that of no earlier entry of the history  (pushed_once)
-/

namespace InputCovSched

open List

/-- A flipped path or an alternative of a context switch is put on the frontier, or a canonical form
is put into the explored set. -/
inductive QueueEvent (E : Type) where
  | pushed (q : QueuedPathConstraint E)
  | switched (q : QueuedPathConstraint E)
  | explored (canonical : E)

namespace QueueEvent

variable {E : Type}

/-- The canonical form of an input constraint. The alternative of a context switch adds none. -/
def canonical? : QueueEvent E → Option E
  | .pushed q => some q.pc.canonical
  | .switched _ => none
  | .explored c => some c

/-- The entry of the frontier. -/
def queued? : QueueEvent E → Option (QueuedPathConstraint E)
  | .pushed q => some q
  | .switched q => some q
  | .explored _ => none

def Fresh (a b : QueueEvent E) : Prop := ∀ q, b = .pushed q → a.canonical? ≠ some q.pc.canonical

end QueueEvent

section
variable {E I : Type} [LinearOrder E] (T : ExprTheory E I)

def pushEvents (hbGraph : HBGraph) (lastId : Nat) (b : PathConstraintBuilder E) :
    PathManager E → List E → List (QueueEvent E)
  | _, [] => []
  | pm, flip :: flips =>
    (if pm.alreadySeen (b.add T flip lastId) then []
      else [.pushed ⟨(b.add T flip lastId).pc, hbGraph, lastId⟩]) ++
      pushEvents hbGraph lastId b (pm.pushFlipped T hbGraph lastId b flip) flips

def insertEvents (b : PathConstraintBuilder E) : List (QueueEvent E) :=
  [.explored b.fullCanonical, .explored b.conciseCanonical]

/-- What `addExplored` remembers. -/
def exploreEvents (prior : PathConstraintBuilder E) (cond : E) (id : Nat) : List (QueueEvent E) :=
  insertEvents (prior.add T cond id) ++
    ((T.orTerms cond).getD []).flatMap fun term => insertEvents (prior.addToCanonical T term)

def actEvents (call : SliceCall E) (id : Nat) (st : SliceState E) : SliceAction E → List (QueueEvent E)
  | .branch b =>
    pushEvents T call.hbGraph id st.pcBuilder st.pm (b.flips T) ++ exploreEvents T st.pcBuilder b.cond id
  | _ => []

def entryEvents (call : SliceCall E) (st : SliceState E) (e : SliceEntry E) : List (QueueEvent E) :=
  (ctxAlternatives call.hbGraph st.oldHbGraphLastId st.pcBuilder
      (e.otherCtxSwitches.getD [])).map .switched ++
    actEvents T call e.maxHbNodeId (st.ctxSwitch call e)
      (e.action call (st.ctxSwitch call e).constraints)

/-- The events of the loop over the slice, from a state on. -/
def eventsFrom (call : SliceCall E) : List (SliceEntry E) → SliceState E → List (QueueEvent E)
  | [], _ => []
  | e :: slice, st =>
    if anyBranchesLeft (e :: slice) then
      entryEvents T call st e ++ eventsFrom call slice (SliceState.processEntry T call st e)
    else []

def SliceCall.events (call : SliceCall E) (harness : List E) (pm : PathManager E) :
    List (QueueEvent E) :=
  eventsFrom T call call.slice (SliceState.start T harness pm)

structure History (E : Type) where
  pm : PathManager E
  events : List (QueueEvent E)

namespace History

def init : History E := ⟨⟨[], [], [], [], 0⟩, []⟩

def step (harness : List E) (s : History E) : FrontierCall E → Option (History E)
  | .processSlice call =>
    some ⟨s.pm.processSlice T harness call, s.events ++ call.events T harness s.pm⟩
  | .instantiateNextInput => s.pm.instantiateNextInput.map fun next => ⟨next.2, s.events⟩

end History

end

section
variable {E I : Type} [LinearOrder E] {T : ExprTheory E I} {pm : PathManager E}
  {evs : List (QueueEvent E)}

def PathManager.Seen (pm : PathManager E) (c : E) : Prop := c ∈ pm.frontierSet ∨ c ∈ pm.exploredSet

/-! ## The events of one call -/

/-- From `pm` to `pm'` the queued entries of the events were appended to the frontier, and their
explored forms were inserted. -/
structure Logged (pm : PathManager E) (evs : List (QueueEvent E)) (pm' : PathManager E) : Prop where
  frontier : pm'.frontier = pm.frontier ++ evs.filterMap QueueEvent.queued?
  explored : ∀ c, c ∈ pm'.exploredSet ↔ c ∈ pm.exploredSet ∨ .explored c ∈ evs

omit [LinearOrder E] in
lemma Logged.refl (pm : PathManager E) : Logged pm [] pm := ⟨(append_nil _).symm, by simp⟩

omit [LinearOrder E] in
lemma Logged.trans (h₁ : Logged pm evs pm') (h₂ : Logged pm' evs' pm'') :
    Logged pm (evs ++ evs') pm'' where
  frontier := by rw [h₂.frontier, h₁.frontier, filterMap_append, append_assoc]
  explored c := by rw [h₂.explored, h₁.explored, mem_append, or_assoc]

omit [LinearOrder E] in
lemma logged_insertExplored (b : PathConstraintBuilder E) :
    Logged pm (insertEvents b) (pm.insertExplored b) where
  frontier := (append_nil _).symm
  explored c := by
    rw [mem_insertExplored, or_comm]
    simp [insertEvents, or_comm]

omit [LinearOrder E] in
lemma logged_insertAll {α : Type} (f : α → PathConstraintBuilder E) (l : List α) :
    Logged pm (l.flatMap fun a => insertEvents (f a))
      (l.foldl (fun pm a => pm.insertExplored (f a)) pm) := by
  induction l generalizing pm with
  | nil => exact .refl pm
  | cons a l ih => exact (logged_insertExplored (f a)).trans ih

lemma logged_addExplored (cond : E) (id : Nat) :
    Logged pm (exploreEvents T b cond id) (pm.addExplored T b cond id).1 := by
  have hnew : Logged pm (insertEvents (b.add T cond id)) (pm.insertExplored (b.add T cond id)) :=
    logged_insertExplored (b.add T cond id)
  unfold PathManager.addExplored exploreEvents
  cases T.orTerms cond with
  | none => simpa using hnew
  | some terms => exact hnew.trans (logged_insertAll (fun term => b.addToCanonical T term) terms)

lemma logged_pushAll (g : HBGraph) (id : Nat) (flips : List E) :
    Logged pm (pushEvents T g id b pm flips) (flips.foldl (PathManager.pushFlipped T g id b) pm) := by
  induction flips generalizing pm with
  | nil => exact .refl pm
  | cons flip flips ih =>
    have hflip : Logged pm (if pm.alreadySeen (b.add T flip id) then []
        else [.pushed ⟨(b.add T flip id).pc, g, id⟩]) (pm.pushFlipped T g id b flip) := by
      unfold PathManager.pushFlipped
      dsimp only
      split
      · exact .refl pm
      · exact ⟨rfl, by simp⟩
    exact hflip.trans ih

omit [LinearOrder E] in
lemma logged_ctxSwitch (call : SliceCall E) (st : SliceState E) (e : SliceEntry E) :
    Logged st.pm ((ctxAlternatives call.hbGraph st.oldHbGraphLastId st.pcBuilder
      (e.otherCtxSwitches.getD [])).map .switched) (st.ctxSwitch call e).pm := by
  obtain ⟨hf, he, -⟩ := ctxSwitch_frontier call st e
  refine ⟨?_, by simp [he]⟩
  rw [hf, filterMap_map]
  exact congrArg _ filterMap_some.symm

lemma logged_processEntry (call : SliceCall E) (st : SliceState E) (e : SliceEntry E) :
    Logged st.pm (entryEvents T call st e) (SliceState.processEntry T call st e).pm := by
  refine (logged_ctxSwitch call st e).trans ?_
  unfold SliceState.processEntry
  dsimp only
  cases e.action call (st.ctxSwitch call e).constraints with
  | branch br => exact (logged_pushAll _ _ _).trans (logged_addExplored _ _)
  | _ => exact .refl _

lemma logged_processEntries (call : SliceCall E) (slice : List (SliceEntry E)) (st : SliceState E) :
    Logged st.pm (eventsFrom T call slice st) (SliceState.processEntries T call slice st).pm := by
  induction slice generalizing st with
  | nil => exact .refl _
  | cons e slice ih =>
    rw [SliceState.processEntries, eventsFrom]
    split
    · exact (logged_processEntry call st e).trans (ih _)
    · exact .refl _

/-! ## Every push is new -/

structure Recorded (pm : PathManager E) (evs : List (QueueEvent E)) : Prop where
  seen : ∀ ev ∈ evs, ∀ c, ev.canonical? = some c → pm.Seen c
  fresh : evs.Pairwise QueueEvent.Fresh

omit [LinearOrder E] in
lemma Recorded.congr (h : Recorded pm evs)
    (hf : pm'.frontierSet = pm.frontierSet) (he : pm'.exploredSet = pm.exploredSet) :
    Recorded pm' evs := by
  refine ⟨fun ev hev => ?_, h.fresh⟩
  unfold PathManager.Seen
  rw [hf, he]
  exact h.seen ev hev

omit [LinearOrder E] in
/-- Events that push nothing. -/
lemma Recorded.append (h : Recorded pm evs) (hseen : ∀ c, pm.Seen c → pm'.Seen c)
    (hnew : ∀ ev ∈ new, (∀ q, ev ≠ .pushed q) ∧ ∀ c, ev.canonical? = some c → pm'.Seen c) :
    Recorded pm' (evs ++ new) := by
  refine ⟨fun ev hev c hc => ?_, pairwise_append.2 ⟨h.fresh, ?_, ?_⟩⟩
  · rcases mem_append.1 hev with hev | hev
    · exact hseen c (h.seen ev hev c hc)
    · exact (hnew ev hev).2 c hc
  · exact pairwise_iff_forall_sublist.2 fun hab q hq =>
      absurd hq ((hnew _ (hab.subset (by simp))).1 q)
  · exact fun a _ b hb q hq => absurd hq ((hnew b hb).1 q)

omit [LinearOrder E] in
lemma Recorded.explore (h : Recorded pm evs) (b : PathConstraintBuilder E) :
    Recorded (pm.insertExplored b) (evs ++ insertEvents b) := by
  refine h.append (fun c hc => hc.imp_right fun hc => PathManager.insertExplored_subset hc) ?_
  intro ev hev
  obtain ⟨c, rfl, hc⟩ : ∃ c, ev = .explored c ∧ c ∈ [b.conciseCanonical, b.fullCanonical] := by
    rcases mem_pair.1 hev with rfl | rfl
    · exact ⟨_, rfl, by simp⟩
    · exact ⟨_, rfl, by simp⟩
  refine ⟨by simp, fun d hd => ?_⟩
  cases hd
  exact .inr (mem_insertExplored.2 (.inl hc))

omit [LinearOrder E] in
lemma Recorded.exploreAll {α : Type} (f : α → PathConstraintBuilder E) (l : List α) :
    ∀ {pm : PathManager E} {evs : List (QueueEvent E)}, Recorded pm evs →
      Recorded (l.foldl (fun pm a => pm.insertExplored (f a)) pm)
        (evs ++ l.flatMap fun a => insertEvents (f a)) := by
  induction l with
  | nil =>
    intro pm evs h
    simpa using h
  | cons a l ih =>
    intro pm evs h
    have := ih (h.explore (f a))
    rwa [append_assoc] at this

lemma Recorded.addExplored (h : Recorded pm evs) (cond : E) (id : Nat) :
    Recorded (pm.addExplored T b cond id).1 (evs ++ exploreEvents T b cond id) := by
  have hnew := h.explore (b.add T cond id)
  unfold PathManager.addExplored exploreEvents
  cases T.orTerms cond with
  | none => simpa using hnew
  | some terms =>
    have := Recorded.exploreAll (fun term => b.addToCanonical T term) terms hnew
    rwa [append_assoc] at this

lemma Recorded.pushFlipped (h : Recorded pm evs) (hcan : b.pc.canonical = b.conciseCanonical)
    (g : HBGraph) (id : Nat) (flip : E) :
    Recorded (pm.pushFlipped T g id b flip) (evs ++ if pm.alreadySeen (b.add T flip id) then []
      else [.pushed ⟨(b.add T flip id).pc, g, id⟩]) := by
  unfold PathManager.pushFlipped
  dsimp only
  split
  · rwa [append_nil]
  rename_i hseen
  have hnew : ¬ pm.Seen (b.add T flip id).pc.canonical := by
    rw [add_canonical hcan]
    simp only [PathManager.alreadySeen, Bool.or_eq_true, contains_iff_mem, not_or] at hseen
    exact not_or.2 ⟨hseen.2, hseen.1.1.2⟩
  refine ⟨fun ev hev c hc => ?_, pairwise_append.2 ⟨h.fresh, pairwise_singleton _ _, ?_⟩⟩
  · rcases mem_append.1 hev with hev | hev
    · exact (h.seen ev hev c hc).imp_left fun hc => mem_cons_of_mem _ (mem_cons_of_mem _ hc)
    · rw [mem_singleton.1 hev] at hc
      cases hc
      exact .inl (by simp [add_canonical hcan])
  · intro a ha ev hev q hq heq
    rw [mem_singleton.1 hev] at hq
    cases hq
    exact hnew (h.seen a ha _ heq)

lemma Recorded.pushAll (hcan : b.pc.canonical = b.conciseCanonical) (g : HBGraph) (id : Nat)
    (flips : List E) : ∀ {pm : PathManager E} {evs : List (QueueEvent E)}, Recorded pm evs →
      Recorded (flips.foldl (PathManager.pushFlipped T g id b) pm)
        (evs ++ pushEvents T g id b pm flips) := by
  induction flips with
  | nil =>
    intro pm evs h
    simpa [pushEvents] using h
  | cons flip flips ih =>
    intro pm evs h
    have := ih (h.pushFlipped (T := T) hcan g id flip)
    rwa [append_assoc] at this

lemma Recorded.processEntry (call : SliceCall E) (e : SliceEntry E)
    (h : Recorded st.pm evs) (hcan : st.pcBuilder.pc.canonical = st.pcBuilder.conciseCanonical) :
    Recorded (SliceState.processEntry T call st e).pm (evs ++ entryEvents T call st e) := by
  obtain ⟨-, he, hc, hcc, -⟩ := ctxSwitch_frontier call st e
  have hf : (st.ctxSwitch call e).pm.frontierSet = st.pm.frontierSet := by
    unfold SliceState.ctxSwitch
    split <;> rfl
  have hswitched : Recorded st.pm (evs ++ (ctxAlternatives call.hbGraph st.oldHbGraphLastId
      st.pcBuilder (e.otherCtxSwitches.getD [])).map .switched) :=
    h.append (fun _ hc => hc) (by simp [QueueEvent.canonical?])
  have hst := hswitched.congr hf he
  unfold SliceState.processEntry entryEvents
  dsimp only
  rw [← append_assoc]
  cases e.action call (st.ctxSwitch call e).constraints with
  | branch br =>
    have := (hst.pushAll (T := T) ((hc.trans hcan).trans hcc.symm) call.hbGraph e.maxHbNodeId
      (br.flips T)).addExplored (T := T) (b := (st.ctxSwitch call e).pcBuilder) br.cond e.maxHbNodeId
    rwa [append_assoc] at this
  | _ => simpa [actEvents, SliceState.act] using hst

lemma Recorded.processEntries (call : SliceCall E) (slice : List (SliceEntry E)) :
    ∀ {st : SliceState E} {evs : List (QueueEvent E)}, Recorded st.pm evs →
      st.pcBuilder.pc.canonical = st.pcBuilder.conciseCanonical →
      Recorded (SliceState.processEntries T call slice st).pm (evs ++ eventsFrom T call slice st) := by
  induction slice with
  | nil =>
    intro st evs h _
    simpa [eventsFrom, SliceState.processEntries] using h
  | cons e slice ih =>
    intro st evs h hcan
    rw [SliceState.processEntries, eventsFrom]
    split
    · have := ih (h.processEntry call e hcan) (processEntry_spec (T := T) call hcan e).canonical
      rwa [append_assoc] at this
    · simpa using h

/-- A call appends its queued entries to the frontier, and its last loop erases those whose form is
explored. -/
lemma logged_processSlice (harness : List E) (call : SliceCall E) :
    (pm.processSlice T harness call).frontier =
        (pm.frontier ++ (call.events T harness pm).filterMap QueueEvent.queued?).filter
          (fun q => !(pm.processSlice T harness call).exploredSet.contains q.pc.canonical) ∧
      ∀ c, c ∈ (pm.processSlice T harness call).exploredSet ↔
        c ∈ pm.exploredSet ∨ .explored c ∈ call.events T harness pm := by
  obtain ⟨hf, he⟩ := logged_processEntries (T := T) call call.slice (SliceState.start T harness pm)
  exact ⟨congrArg (List.filter _) hf, he⟩

namespace History

variable {s : History E}

lemma recorded_step (h : Recorded s.pm s.events) (hstep : s.step T harness c = some s') :
    Recorded s'.pm s'.events := by
  cases c with
  | processSlice call =>
    cases hstep
    have hstart : Recorded (SliceState.start T harness s.pm).pm s.events := h
    exact (Recorded.processEntries call call.slice hstart rfl).congr rfl rfl
  | instantiateNextInput =>
    obtain ⟨next, hnext, rfl⟩ := Option.map_eq_some_iff.1 hstep
    unfold PathManager.instantiateNextInput at hnext
    split at hnext
    · cases hnext
    · cases hnext
      exact h.congr rfl rfl

/-- Over any sequence of calls, a path that is pushed has another canonical form than all paths
pushed and all forms explored before. In the next call the frontier gets the entries of the call's
events and the explored set their forms, and nothing else. -/
theorem pushed_once (T : ExprTheory E I) (harness : List E) (calls : List (FrontierCall E))
    (s : History E) (hrun : Machine.runFrom (step T harness) init calls = some s) :
    s.events.Pairwise QueueEvent.Fresh ∧
      ∀ call s', s.step T harness (.processSlice call) = some s' →
        ∃ evs, s'.events = s.events ++ evs ∧
          s'.pm.frontier = (s.pm.frontier ++ evs.filterMap QueueEvent.queued?).filter
            (fun q => !s'.pm.exploredSet.contains q.pc.canonical) ∧
          ∀ c, c ∈ s'.pm.exploredSet ↔ c ∈ s.pm.exploredSet ∨ .explored c ∈ evs := by
  refine ⟨(Machine.inv_of_run (step T harness) (I := fun s => Recorded s.pm s.events)
    (fun _ _ _ h hstep => recorded_step h hstep) ⟨by simp [init], List.Pairwise.nil⟩ hrun).fresh, ?_⟩
  intro call s' hs'
  cases hs'
  exact ⟨_, rfl, logged_processSlice harness call⟩

/-- The second call takes the flipped branch: its own flip is explored already, so that it pushes
nothing. -/
theorem pushed_once_flipped :
    ∃ s, Machine.runFrom (step tables []) init [.processSlice (plainCall [switchEntry, branchEntry 170]),
        .instantiateNextInput, .processSlice (plainCall [branchEntry 85])] = some s ∧
      s.events.filterMap QueueEvent.canonical? = [85, 170, 170, 85, 85] ∧
      s.events.Pairwise QueueEvent.Fresh :=
  have h : Machine.runFrom (step tables []) init [.processSlice (plainCall [switchEntry, branchEntry 170]),
    .instantiateNextInput, .processSlice (plainCall [branchEntry 85])] = some _ := rfl
  ⟨_, h, rfl, (pushed_once tables [] _ _ h).1⟩

end History

end

end InputCovSched
