import InputCovSched.Explore.DepthFirst

/-!
# No state of the search is lost

Every state that was activated and not deactivated is the root of the current region, in its
queue, or on one of the frontiers (`Owned`), unless a restart drops the local frontier without
discarding the states on it.
-/

namespace InputCovSched

open Machine List

namespace DepthFirstICS

section
variable {R P : Type} {s s' : DepthFirstICS R P} {state forked : Nat}

def frontierStates (s : DepthFirstICS R P) : List Nat :=
  (s.regionsFrontier ++ s.localRegionsFrontier).map Prod.snd

def Owns (s : DepthFirstICS R P) (state : Nat) : Prop :=
  s.currRoot = some state ∨ state ∈ s.currQueue ∨ state ∈ s.frontierStates

def Owned (s : DepthFirstICS R P) : Prop := ∀ state ∈ s.live, s.Owns state

section
variable (h : s.Owned)
include h

lemma Owned.of_not_queued (hx : x ∈ s.live) (hq : x ∉ s.currQueue) :
    s.currRoot = some x ∨ x ∈ s.frontierStates :=
  (h x hx).imp_right fun hor => hor.resolve_left hq

lemma Owned.discardQueue {queue : List Nat} (hqueue : ∀ x ∈ s.currQueue, x = state ∨ x ∈ queue)
    (hx : x ∈ (s.live \ queue.toFinset).erase state) :
    s.currRoot = some x ∨ x ∈ s.frontierStates := by
  simp only [Finset.mem_erase, Finset.mem_sdiff, mem_toFinset] at hx
  obtain ⟨hne, hlive, hnot⟩ := hx
  exact h.of_not_queued hlive fun hin => (hqueue x hin).elim hne hnot

lemma Owned.forkInto (hx : x ∈ insert forked (s.live \ s.currQueue.toFinset)) :
    s.currRoot = some x ∨ x = forked ∨ x ∈ s.frontierStates := by
  rcases Finset.mem_insert.1 hx with rfl | hx
  · exact .inr (.inl rfl)
  obtain ⟨hlive, hnot⟩ := Finset.mem_sdiff.1 hx
  have := h.of_not_queued hlive fun hin => hnot (mem_toFinset.2 hin)
  tauto

/-! ## Callbacks -/

lemma Owned.onStateActivated (ha : s.onStateActivated state = some s') : s'.Owned := by
  intro x hx
  rcases onStateActivated_cases ha with ⟨hroot, hempty, -, rfl⟩ | ⟨-, rfl⟩
  · rcases Finset.mem_insert.1 hx with rfl | hlive
    · exact .inl rfl
    rcases h x hlive with hx' | hqueue | hfrontier
    · rw [hroot] at hx'
      cases hx'
    · rw [hempty] at hqueue
      cases hqueue
    · exact .inr (.inr hfrontier)
  · rcases Finset.mem_insert.1 hx with rfl | hlive
    · exact .inr (.inl mem_cons_self)
    · exact (h x hlive).imp_right (Or.imp_left (mem_cons_of_mem _))

lemma Owned.onUpdateAfterBranch (hu : s.onUpdateAfterBranch state = some s') : s'.Owned := by
  obtain ⟨hd, tl, hqueue, hmem, rfl⟩ := onUpdateAfterBranch_eq hu
  -- the head goes where the state was
  have hswap : ∀ x ∈ hd :: tl, x ∈ state :: tl.map fun y => if y = state then hd else y := by
    intro x hx
    rcases mem_cons.1 hx with rfl | hx
    · exact mem_cons_of_mem _ (mem_map.2 ⟨state, hmem, if_pos rfl⟩)
    by_cases hxs : x = state
    · exact hxs ▸ mem_cons_self
    · exact mem_cons_of_mem _ (mem_map.2 ⟨x, hx, if_neg hxs⟩)
  intro x hx
  refine (h x hx).imp_right (Or.imp_left fun hin => ?_)
  rw [hqueue] at hin
  exact hswap x hin

lemma Owned.onIcsBegin (hb : s.onIcsBegin state forked = some s') : s'.Owned := by
  obtain ⟨hroot, rfl⟩ := onIcsBegin_eq hb
  intro x hx
  rcases Finset.mem_insert.1 hx with rfl | hx
  · exact .inr (.inl (mem_singleton.2 rfl))
  obtain ⟨hlive, hnot⟩ := Finset.mem_sdiff.1 hx
  by_cases hxs : x = state
  · exact .inl (hxs ▸ hroot)
  have hq : x ∉ s.currQueue := fun hin =>
    hnot (mem_toFinset.2 ((mem_erase_of_ne hxs).2 hin))
  exact (h.of_not_queued hlive hq).imp_right .inr

end

end

section
variable {R P : Type} [DecidableEq R] {s s' : DepthFirstICS R P} {forked : Nat} {id : R}
  {exits deadlocks : Bool} {sel : JobSelection R P}

section
variable (h : s.Owned)
include h

lemma Owned.recordPath {queue : List Nat} (hqueue : ∀ x ∈ s.currQueue, x = state ∨ x ∈ queue) :
    ({ s.recordPath exits deadlocks id path with
      currQueue := []
      live := (s.live \ queue.toFinset).erase state } : DepthFirstICS R P).Owned := by
  intro x hx
  rcases h.discardQueue hqueue hx with hroot | hfrontier
  · exact .inl (by simpa using hroot)
  · exact .inr (.inr (by simpa [frontierStates] using hfrontier))

lemma Owned.onStateDeactivated
    (hd : s.onStateDeactivated state discarded deadlocks id path = some s') : s'.Owned := by
  rcases onStateDeactivated_cases hd with rfl | ⟨-, rfl⟩
  · intro x hx
    obtain ⟨hne, hlive⟩ := Finset.mem_erase.1 hx
    exact (h x hlive).imp_right (Or.imp_left (mem_erase_of_ne hne).2)
  apply h.recordPath
  intro x hx
  by_cases hxs : x = state
  · exact .inl hxs
  · exact .inr ((mem_erase_of_ne hxs).2 hx)

lemma Owned.onIcsMaybeEndRegion
    (he : s.onIcsMaybeEndRegion state id path = some s') : s'.Owned := by
  obtain ⟨rest, hqueue, ⟨-, rfl⟩ | ⟨-, rfl⟩⟩ := onIcsMaybeEndRegion_cases he
  · intro x hx
    obtain ⟨hlive, hnot⟩ := Finset.mem_sdiff.1 hx
    by_cases hxs : x = state
    · refine .inr (.inr ?_)
      simp [frontierStates, hxs]
    have hq : x ∉ s.currQueue := by
      rw [hqueue]
      intro hin
      exact hnot (mem_toFinset.2 ((mem_cons.1 hin).resolve_left hxs))
    rcases h.of_not_queued hlive hq with hroot | hfrontier
    · exact .inl (by simpa using hroot)
    refine .inr (.inr ?_)
    simp only [frontierStates, map_append, mem_append, recordPath_frame] at hfrontier ⊢
    tauto
  · apply h.recordPath
    rw [hqueue]
    exact fun x hx => mem_cons.1 hx

/-! ## Job selection -/

lemma Owned.limitDepth {depthLimit : Option (R × ProcessedPath P)}
    (hl : s.limitDepth depthLimit = some s') : s'.Owned := by
  rcases limitDepth_cases hl with ⟨-, rfl⟩ | ⟨id, path, state, rest, -, hqueue, rfl⟩
  · exact h
  apply h.recordPath
  rw [hqueue]
  exact fun x hx => mem_cons.1 hx

lemma Owned.limitPaths {maxPaths : Nat} (hl : s.limitPaths maxPaths = some s') : s'.Owned := by
  rcases limitPaths_cases hl with rfl | rfl
  · exact h
  intro x hx
  obtain ⟨hlive, hnot⟩ := Finset.mem_sdiff.1 hx
  have := h.of_not_queued hlive fun hin => hnot (mem_toFinset.2 hin)
  exact this.imp_right .inr

end

lemma limits_localRegionsFrontier
    (h₁ : s.limitDepth sel.depthLimit = some s₁) (h₂ : s₁.limitPaths sel.maxPaths = some s') :
    s'.localRegionsFrontier = s.localRegionsFrontier := by
  have hs₁ : s₁.localRegionsFrontier = s.localRegionsFrontier := by
    rcases limitDepth_cases h₁ with ⟨-, rfl⟩ | ⟨id, path, state, rest, -, -, rfl⟩
    · rfl
    · exact recordPath_frame.2.2.2.2.2.2.1
  rcases limitPaths_cases h₂ with rfl | rfl
  · exact hs₁
  · exact hs₁

section
variable (h : s.Owned)
include h

lemma Owned.restart (hlocal : s.loopsToUpgrade = true → s.localRegionsFrontier = [])
    (hr : s.restart forked = some s') : s'.Owned := by
  rcases restart_cases hr with ⟨-, rfl⟩ | ⟨hloops, rfl⟩
  · exact h
  intro x hx
  rcases h.forkInto hx with hroot | rfl | hfrontier
  · exact .inl hroot
  · exact .inr (.inl (mem_singleton.2 rfl))
  refine .inr (.inr ?_)
  rw [frontierStates, hlocal hloops] at hfrontier
  exact hfrontier

lemma Owned.finished {root : Nat} (hroot : s.currRoot = some root) : (s.finished root).Owned := by
  intro x hx
  obtain ⟨hne, hlive⟩ := Finset.mem_erase.1 hx
  rcases h x hlive with hx' | hqueue | hfrontier
  · rw [hroot] at hx'
    exact absurd (Option.some.inj hx').symm hne
  · exact .inr (.inl hqueue)
  · refine .inr (.inr ?_)
    simpa [frontierStates, DepthFirstICS.finished, flushed] using hfrontier

lemma Owned.nextRegion {maxRegions : Nat} {next : R × Nat}
    (hn : s.nextRegion maxRegions next = some (s', goesOn)) : s'.Owned := by
  rcases nextRegion_cases hn with ⟨rfl, -⟩ | ⟨hempty, root, hroot, ⟨rfl, -⟩ | ⟨hnext, -, rfl⟩⟩
  · exact h
  · exact h.finished hroot
  intro x hx
  rcases h.finished hroot x hx with hx' | hqueue | hfrontier
  · cases hx'
  · have hqueue' : x ∈ s.currQueue := hqueue
    rw [hempty] at hqueue'
    cases hqueue'
  obtain ⟨e, he, rfl⟩ := mem_map.1 hfrontier
  rcases mem_append.1 he with he | he
  · by_cases hen : e = next
    · subst hen
      exact .inl rfl
    · refine .inr (.inr (mem_map.2 ⟨e, mem_append_left _ ?_, rfl⟩))
      exact (mem_erase_of_ne hen).2 he
  · exact .inr (.inr (mem_map.2 ⟨e, mem_append_right _ he, rfl⟩))

lemma Owned.nextPath (hn : s.nextPath forked = some s') : s'.Owned := by
  rcases nextPath_cases hn with rfl | ⟨-, hempty, rfl⟩
  · exact h
  intro x hx
  have hx' : x ∈ insert forked (s.live \ s.currQueue.toFinset) := by
    simpa [hempty] using hx
  rcases h.forkInto hx' with hroot | rfl | hfrontier
  · exact .inl hroot
  · exact .inr (.inl (mem_singleton.2 rfl))
  · exact .inr (.inr hfrontier)

lemma Owned.onNextJobSelection (hlocal : s.restarts sel = true → s.localRegionsFrontier = [])
    (hn : s.onNextJobSelection sel = some s') : s'.Owned := by
  obtain ⟨s₁, s₂, s₃, s₄, goesOn, h₁, h₂, h₃, h₄, h₅, hloops⟩ := onNextJobSelection_cases hn
  have hs₃ : s₃.Owned := by
    refine ((h.limitDepth h₁).limitPaths h₂).restart ?_ h₃
    rw [hloops, limits_localRegionsFrontier h₁ h₂]
    exact hlocal
  have hs₄ := hs₃.nextRegion h₄
  rcases h₅ with rfl | h₅
  · exact hs₄
  · exact hs₄.nextPath h₅

end

def KeepsStates (s : DepthFirstICS R P) : IcsEvent R P → Prop
  | .onNextJobSelection sel => s.restarts sel = true → s.localRegionsFrontier = []
  | _ => True

lemma Owned.step (h : s.Owned) (hk : s.KeepsStates l) (hs : s.step l = some s') : s'.Owned := by
  cases l with
  | onStateActivated state => exact h.onStateActivated hs
  | onUpdateAfterBranch state => exact h.onUpdateAfterBranch hs
  | onStateDeactivated state discarded deadlocks id path => exact h.onStateDeactivated hs
  | onIcsBegin state forked => exact h.onIcsBegin hs
  | onIcsMaybeEndRegion state id path => exact h.onIcsMaybeEndRegion hs
  | onNextJobSelection sel => exact h.onNextJobSelection hk hs

/-- **Result.** No state is lost in a run that restarts regions only while the local frontier is
empty. -/
theorem owned_of_meets (init : R) (ls : List (IcsEvent R P)) (s : DepthFirstICS R P)
    (hrun : runFrom step (initial init) ls = some s) (hmeets : Meets step KeepsStates (initial init) ls) :
    s.Owned := by
  refine inv_of_meets step (I := Owned) (fun _ _ _ hI hk hs => hI.step hk hs) ?_ hmeets hrun
  intro x hx
  simp [initial, addRegion] at hx

end

/-! ## Runs of the initial region -/

def lastPath (upgrades : Bool) : ProcessedPath Unit := ⟨(), 0, upgrades, 0⟩

/-- No limits; a fork gets the number `forked`. -/
def freeSelection (next : Nat × Nat) (forked : Nat) : JobSelection Nat Unit :=
  ⟨none, 0, 0, next, forked⟩

def endsInRegion (upgrades : Bool) : List (IcsEvent Nat Unit) :=
  [.onStateActivated 0, .onIcsBegin 0 1, .onIcsMaybeEndRegion 1 5 (lastPath upgrades)]

theorem owned_of_meets_next_region :
    ∃ s, runFrom step (initial 0) (endsInRegion false ++
        [.onNextJobSelection (freeSelection (5, 1) 2)]) = some s ∧ s.live = {1} ∧ s.Owned := by
  have hrun : ∃ s, runFrom step (initial 0) (endsInRegion false ++
      [.onNextJobSelection (freeSelection (5, 1) 2)]) = some s ∧ s.live = {1} :=
    ⟨_, rfl, by decide⟩
  obtain ⟨s, hs, hlive⟩ := hrun
  refine ⟨s, hs, hlive, owned_of_meets 0 _ s hs ⟨trivial, trivial, trivial, ?_, trivial⟩⟩
  nofun

/-- The path also shows that a loop needs a marker: the region is restarted, and the state of the
new region is lost. -/
theorem restart_leaks_state :
    ∃ s, runFrom step (initial 0) (endsInRegion true ++
        [.onNextJobSelection (freeSelection (5, 1) 2)]) = some s ∧
      1 ∈ s.live ∧ s.currRoot = some 0 ∧ s.currQueue = [2] ∧ s.regionsFrontier = [] ∧
      s.localRegionsFrontier = [] :=
  ⟨_, rfl, by decide, rfl, rfl, rfl, rfl⟩

end DepthFirstICS

end InputCovSched
