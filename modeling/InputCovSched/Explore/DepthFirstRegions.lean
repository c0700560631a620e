import InputCovSched.Explore.DepthFirst
import Mathlib.Data.List.Range

/-!
# The tables of regions

Every registered region is the current one, complete, or has a state on a frontier
(noneForgotten_of_meets), and has one edge for each explored schedule (matched_of_meets).
-/

namespace InputCovSched

open DepthFirstICS

open Machine List

namespace DepthFirstICS

section
variable {R P : Type} [DecidableEq R] {s s' : DepthFirstICS R P} {state : Nat} {id : R}
  {sel : JobSelection R P} {next : R × Nat}

/-! ## Numbers -/

lemma mem_registered : x ∈ s.registered ↔ s.Registered x := by
  simp only [registered, mem_append, mem_filter, decide_eq_true_eq, Registered]
  tauto

lemma registered_addRegion (h : s.Registered id) : (s.addRegion id).registered = s.registered := by
  unfold registered addRegion
  split
  · rfl
  · rename_i hloc
    simp [h.resolve_right hloc]

lemma registered_addRegion_of_not (h : ¬ s.Registered id) :
    (s.addRegion id).registered = s.registered ++ [id] := by
  obtain ⟨hglob, hloc⟩ := not_or.1 h
  simp [registered, addRegion, hglob, hloc]

structure Numbering (table registered : List R) (number : R → Nat) (next : Nat) : Prop where
  nodup : registered.Nodup
  table : (table.map number).Perm (List.range' 1 table.length)
  all : (registered.map number).Perm (List.range' 1 registered.length)
  next : next = registered.length + 1

def NumericIds (s : DepthFirstICS R P) : Prop :=
  Numbering s.regions s.registered (fun id => (s.info id).numericId) s.nextRegionNumericId

section
variable (h : s.NumericIds)
include h

lemma NumericIds.addRegion (id : R) : (s.addRegion id).NumericIds := by
  by_cases hreg : s.Registered id
  · unfold NumericIds at h ⊢
    rw [registered_addRegion hreg]
    simpa [DepthFirstICS.addRegion, hreg] using h
  -- a new record, with the next number
  have hold : ∀ x, s.Registered x → ((s.addRegion id).info x).numericId = (s.info x).numericId := by
    intro x hx
    have hne : x ≠ id := fun heq => hreg (heq ▸ hx)
    simp [DepthFirstICS.addRegion, hreg, hne]
  have hself : ((s.addRegion id).info id).numericId = 1 + s.registered.length := by
    simp [DepthFirstICS.addRegion, hreg, h.next, Nat.add_comm]
  constructor
  · rw [registered_addRegion_of_not hreg]
    exact List.Nodup.append h.nodup (nodup_singleton id) (by simpa [mem_registered] using hreg)
  · show (s.regions.map _).Perm _
    rw [map_congr_left fun x hx => hold x (.inl hx)]
    exact h.table
  · rw [registered_addRegion_of_not hreg, map_append, length_append, length_singleton,
      List.range'_concat, map_congr_left fun x hx => hold x (mem_registered.1 hx),
      map_singleton, hself, Nat.one_mul]
    exact h.all.append_right _
  · rw [registered_addRegion_of_not hreg, length_append, length_singleton, ← h.next]
    simp [DepthFirstICS.addRegion, hreg]

lemma NumericIds.modifyInfo
    (hf : ∀ i, (f i).numericId = i.numericId) : (s.modifyInfo f).NumericIds := by
  have hnumber : (fun id => ((s.modifyInfo f).info id).numericId) =
      fun id => (s.info id).numericId := by
    funext id
    by_cases hid : id = s.currRegion
    · subst hid
      simp [DepthFirstICS.modifyInfo, hf]
    · simp [DepthFirstICS.modifyInfo, hid]
  unfold NumericIds
  rw [hnumber]
  exact h

lemma NumericIds.addRegionEdge (id : R) (edge : RegionPathEdge R) :
    (s.addRegionEdge id edge).NumericIds := by
  apply NumericIds.modifyInfo
  · split
    · exact (h.addRegion id).addRegion _
    · exact h.addRegion _
  · exact fun _ => rfl

lemma NumericIds.recordPath (exits deadlocks : Bool) (id : R) (path : ProcessedPath P) :
    (s.recordPath exits deadlocks id path).NumericIds := by
  have hs₁ : (({ s with loopsToUpgrade := s.loopsToUpgrade || path.upgrades }).modifyInfo fun i =>
      { i with explored := i.explored ++ [path.schedule], frontier := path.frontier }).NumericIds := by
    apply NumericIds.modifyInfo
    · exact h
    · exact fun _ => rfl
  exact hs₁.addRegionEdge id (path.edge exits deadlocks id)

lemma NumericIds.flushed : s.flushed.NumericIds := by
  have hreg : s.flushed.registered = s.registered := append_nil _
  unfold NumericIds
  rw [hreg]
  exact ⟨h.nodup, h.all, h.all, h.next⟩

lemma NumericIds.restart (hr : s.restart forked = some s') : s'.NumericIds := by
  rcases restart_cases hr with ⟨-, rfl⟩ | ⟨-, rfl⟩
  · exact h
  have hclear : ({ s with loopsToUpgrade := false }).clearRegionStagingArea.NumericIds := by
    have hreg : ({ s with loopsToUpgrade := false }).clearRegionStagingArea.registered =
        s.regions := append_nil _
    unfold NumericIds
    rw [hreg]
    exact ⟨h.nodup.of_append_left, h.table, h.table, rfl⟩
  have hreset : ((({ s with loopsToUpgrade := false }).clearRegionStagingArea.addRegion
      s.currRegion).modifyInfo fun i => { i with explored := [], frontier := 0 }).NumericIds := by
    apply NumericIds.modifyInfo
    · exact hclear.addRegion _
    · exact fun _ => rfl
  exact hreset

lemma NumericIds.onNextJobSelection (hn : s.onNextJobSelection sel = some s') :
    s'.NumericIds := by
  obtain ⟨s₁, s₂, s₃, s₄, goesOn, h₁, h₂, h₃, h₄, h₅, -⟩ := onNextJobSelection_cases hn
  have hs₁ : s₁.NumericIds := by
    rcases limitDepth_cases h₁ with ⟨-, rfl⟩ | ⟨id, path, state, rest, -, -, rfl⟩
    · exact h
    · exact h.recordPath false false id path
  have hs₂ : s₂.NumericIds := by
    rcases limitPaths_cases h₂ with rfl | rfl
    · exact hs₁
    have hs : (s₁.modifyInfo fun i => { i with frontier := 0 }).NumericIds :=
      hs₁.modifyInfo fun _ => rfl
    exact hs
  have hs₃ := hs₂.restart h₃
  have hs₄ : s₄.NumericIds := by
    rcases nextRegion_cases h₄ with ⟨rfl, -⟩ | ⟨-, root, -, ⟨rfl, -⟩ | ⟨-, -, rfl⟩⟩
    · exact hs₃
    · exact hs₃.flushed
    · apply NumericIds.addRegion
      exact hs₃.flushed
  rcases h₅ with rfl | h₅
  · exact hs₄
  rcases nextPath_cases h₅ with rfl | ⟨-, -, rfl⟩
  · exact hs₄
  have hs : (s₄.modifyInfo fun i => { i with frontier := i.frontier - 1 }).NumericIds :=
    hs₄.modifyInfo fun _ => rfl
  exact hs

end

lemma NumericIds.step (h : s.NumericIds) (hs : s.step l = some s') : s'.NumericIds := by
  cases l with
  | onStateActivated state =>
    rcases onStateActivated_cases hs with ⟨-, -, -, rfl⟩ | ⟨-, rfl⟩
    · exact h
    · exact h
  | onUpdateAfterBranch state =>
    obtain ⟨_, _, -, -, rfl⟩ := onUpdateAfterBranch_eq hs
    exact h
  | onStateDeactivated state discarded deadlocks id path =>
    rcases onStateDeactivated_cases hs with rfl | ⟨-, rfl⟩
    · exact h
    · exact h.recordPath true deadlocks id path
  | onIcsBegin state forked =>
    obtain ⟨-, rfl⟩ := onIcsBegin_eq hs
    exact h
  | onIcsMaybeEndRegion state id path =>
    obtain ⟨rest, -, ⟨-, rfl⟩ | ⟨-, rfl⟩⟩ := onIcsMaybeEndRegion_cases hs
    · exact h.recordPath false false id path
    · exact h.recordPath false false id path
  | onNextJobSelection sel => exact h.onNextJobSelection hs

lemma numericIds_of_run {init : R} (hrun : runFrom step (initial init) ls = some s) :
    s.registered.Nodup ∧ (s.registered.map fun id => (s.info id).numericId).Perm
      (List.range' 1 s.registered.length) := by
  have h : s.NumericIds := by
    refine inv_of_run step (I := NumericIds) (fun _ _ _ hI hs => hI.step hs) ?_ hrun
    apply NumericIds.addRegion
    exact ⟨nodup_nil, List.Perm.refl _, List.Perm.refl _, rfl⟩
  exact ⟨h.nodup, h.all⟩

/-! ## No region is forgotten -/

section
variable (s : DepthFirstICS R P)

def frontierRegions : List R :=
  (s.regionsFrontier ++ s.localRegionsFrontier).map Prod.fst

/-- The region is the current one, complete, or waits on a frontier. -/
def Remembers (id : R) : Prop :=
  id = s.currRegion ∨ id ∈ s.completedRegions ∨ id ∈ s.frontierRegions

/-- The global table, also while the staging area is in disorder: what is on the local frontier is
not in the global table. -/
def GlobalKept : Prop :=
  (∀ id ∈ s.regions, s.Remembers id) ∧ ∀ e ∈ s.localRegionsFrontier, e.1 ∉ s.regions

def NoneForgotten : Prop := ∀ id, s.Registered id → s.Remembers id

end

lemma mem_addRegion_localRegions :
    x ∈ (s.addRegion id).localRegions ↔ x ∈ s.localRegions ∨ x = id := by
  unfold addRegion
  split
  · rename_i hin
    constructor
    · exact .inl
    · rintro (h | rfl)
      · exact h
      · exact hin
  · simp

lemma recordPath_localRegions : (s.recordPath exits deadlocks id path).localRegions =
    ((if exits = false ∧ deadlocks = false then s.addRegion id else s).addRegion
      s.currRegion).localRegions := by
  unfold recordPath addRegionEdge
  by_cases hc : exits = false ∧ deadlocks = false
  · simp only [ProcessedPath.edge, if_pos hc]
    rfl
  · simp only [ProcessedPath.edge, if_neg hc]
    rfl

lemma mem_recordPath_localRegions (h : x ∈ (s.recordPath exits deadlocks id path).localRegions) :
    x ∈ s.localRegions ∨ x = s.currRegion ∨ (exits = false ∧ deadlocks = false ∧ x = id) := by
  rw [recordPath_localRegions, mem_addRegion_localRegions] at h
  rcases h with h | h
  · split at h
    · rename_i hc
      rcases mem_addRegion_localRegions.1 h with h | h
      · exact .inl h
      · exact .inr (.inr ⟨hc.1, hc.2, h⟩)
    · exact .inl h
  · exact .inr (.inl h)

lemma remembers_recordPath :
    (s.recordPath exits deadlocks id path).Remembers x ↔ s.Remembers x := by
  simp [Remembers, frontierRegions]

lemma GlobalKept.recordPath (h : s.GlobalKept) :
    (s.recordPath exits deadlocks id path).GlobalKept := by
  simpa [GlobalKept, remembers_recordPath] using h

lemma NoneForgotten.recordPath (h : s.NoneForgotten)
    (hid : exits = false → deadlocks = false → s.Registered id) :
    (s.recordPath exits deadlocks id path).NoneForgotten := by
  intro x hx
  rw [remembers_recordPath]
  rcases hx with hx | hx
  · exact h x (.inl (by simpa using hx))
  rcases mem_recordPath_localRegions hx with hx | rfl | ⟨he, hd, rfl⟩
  · exact h x (.inr hx)
  · exact .inl rfl
  · exact h x (hid he hd)

lemma GlobalKept.restart (h : s.GlobalKept) (hr : s.restart forked = some s') : s'.GlobalKept := by
  rcases restart_cases hr with ⟨-, rfl⟩ | ⟨-, rfl⟩
  · exact h
  refine ⟨fun x hx => ?_, nofun⟩
  rcases h.1 x hx with hcurr | hcompl | hfrontier
  · exact .inl hcurr
  · exact .inr (.inl hcompl)
  refine .inr (.inr ?_)
  obtain ⟨e, he, rfl⟩ := mem_map.1 hfrontier
  rcases mem_append.1 he with he | he
  · exact mem_map.2 ⟨e, mem_append_left _ he, rfl⟩
  · exact absurd hx (h.2 e he)

lemma noneForgotten_restart (h : s.GlobalKept) (hl : s.loopsToUpgrade = false → s.NoneForgotten)
    (hr : s.restart forked = some s') : s'.NoneForgotten := by
  have hglobal := h.restart hr
  rcases restart_cases hr with ⟨hloops, rfl⟩ | ⟨-, rfl⟩
  · exact hl hloops
  intro x hx
  rcases hx with hx | hx
  · exact hglobal.1 x hx
  have hx' : x ∈ (({ s with loopsToUpgrade := false }).clearRegionStagingArea.addRegion
      s.currRegion).localRegions := hx
  rcases mem_addRegion_localRegions.1 hx' with hx' | rfl
  · cases hx'
  · exact .inl rfl

lemma NoneForgotten.finished {root : Nat} (h : s.NoneForgotten) :
    (s.finished root).NoneForgotten := by
  intro x hx
  have hreg : s.Registered x := by
    rcases hx with hx | hx
    · exact mem_registered.1 hx
    · cases hx
  rcases h x hreg with hcurr | hcompl | hfrontier
  · refine .inr (.inl ?_)
    simp [DepthFirstICS.finished, hcurr]
  · refine .inr (.inl ?_)
    simp [DepthFirstICS.finished, hcompl]
  · refine .inr (.inr ?_)
    simpa [DepthFirstICS.finished, frontierRegions, DepthFirstICS.flushed] using hfrontier

lemma nextRegion_kept (h : s.GlobalKept)
    (hn : s.NoneForgotten) (hs : s.nextRegion maxRegions next = some (s', goesOn)) :
    s'.GlobalKept ∧ s'.NoneForgotten := by
  rcases nextRegion_cases hs with ⟨rfl, -⟩ | ⟨-, root, -, hcases⟩
  · exact ⟨h, hn⟩
  have hfin : (s.finished root).NoneForgotten := hn.finished
  rcases hcases with ⟨rfl, -⟩ | ⟨hnext, -, rfl⟩
  · exact ⟨⟨fun x hx => hfin x (.inl hx), by rintro _ ⟨⟩⟩, hfin⟩
  -- the region leaves the frontier and becomes the current one
  have hkeep : ∀ x, (s.finished root).Remembers x → (({ s.finished root with
      currRegion := next.1
      currRoot := some next.2
      currQueue := [next.2]
      regionsFrontier := (s.finished root).regionsFrontier.erase next }).addRegion
      next.1).Remembers x := by
    rintro x (hcurr | hcompl | hfrontier)
    · refine .inr (.inl ?_)
      rw [hcurr]
      simp [finished, flushed, addRegion]
    · exact .inr (.inl hcompl)
    · obtain ⟨e, he, rfl⟩ := mem_map.1 hfrontier
      by_cases hen : e = next
      · exact .inl (congrArg Prod.fst hen)
      refine .inr (.inr (mem_map.2 ⟨e, ?_, rfl⟩))
      rcases mem_append.1 he with he | he
      · exact mem_append_left _ ((mem_erase_of_ne hen).2 he)
      · exact mem_append_right _ he
  refine ⟨⟨fun x hx => hkeep x (hfin x (.inl hx)), by rintro _ ⟨⟩⟩, fun x hx => ?_⟩
  rcases hx with hx | hx
  · exact hkeep x (hfin x (.inl hx))
  rcases mem_addRegion_localRegions.1 hx with hx | rfl
  · cases hx
  · exact .inl rfl

/-- A depth limit ends a path in a registered region, or the region is restarted. -/
def EndsInKnownRegion (s : DepthFirstICS R P) : IcsEvent R P → Prop
  | .onNextJobSelection sel =>
    ∀ d ∈ sel.depthLimit, s.currQueue ≠ [] → s.Registered d.1 ∨ s.restarts sel = true
  | _ => True

lemma onNextJobSelection_kept (h : s.GlobalKept) (hn : s.NoneForgotten)
    (hk : s.EndsInKnownRegion (.onNextJobSelection sel))
    (hs : s.onNextJobSelection sel = some s') : s'.GlobalKept ∧ s'.NoneForgotten := by
  obtain ⟨s₁, s₂, s₃, s₄, goesOn, h₁, h₂, h₃, h₄, h₅, hloops⟩ := onNextJobSelection_cases hs
  have hs₁ : s₁.GlobalKept ∧ (s.restarts sel = false → s₁.NoneForgotten) := by
    rcases limitDepth_cases h₁ with ⟨-, rfl⟩ | ⟨id, path, state, rest, hdepth, hqueue, rfl⟩
    · exact ⟨h, fun _ => hn⟩
    have hglobal : (s.recordPath false false id path).GlobalKept := h.recordPath
    refine ⟨hglobal, fun hno => ?_⟩
    have hknown : s.Registered id := by
      have := hk (id, path) hdepth (by simp [hqueue])
      simpa [hno] using this
    have hrec : (s.recordPath false false id path).NoneForgotten := hn.recordPath fun _ _ => hknown
    exact hrec
  have hs₂ : s₂.GlobalKept ∧ (s.restarts sel = false → s₂.NoneForgotten) := by
    rcases limitPaths_cases h₂ with rfl | rfl
    · exact hs₁
    · exact ⟨hs₁.1, fun hno => hs₁.2 hno⟩
  have hs₃ : s₃.GlobalKept ∧ s₃.NoneForgotten := by
    refine ⟨hs₂.1.restart h₃, noneForgotten_restart hs₂.1 ?_ h₃⟩
    rw [hloops]
    exact hs₂.2
  have hs₄ := nextRegion_kept hs₃.1 hs₃.2 h₄
  rcases h₅ with rfl | h₅
  · exact hs₄
  rcases nextPath_cases h₅ with rfl | ⟨-, -, rfl⟩
  · exact hs₄
  · exact ⟨hs₄.1, hs₄.2⟩

lemma step_kept (h : s.GlobalKept ∧ s.NoneForgotten) (hk : s.EndsInKnownRegion l)
    (hs : s.step l = some s') : s'.GlobalKept ∧ s'.NoneForgotten := by
  obtain ⟨h, hn⟩ := h
  cases l with
  | onStateActivated state =>
    rcases onStateActivated_cases hs with ⟨-, -, -, rfl⟩ | ⟨-, rfl⟩
    · exact ⟨h, hn⟩
    · exact ⟨h, hn⟩
  | onUpdateAfterBranch state =>
    obtain ⟨_, _, -, -, rfl⟩ := onUpdateAfterBranch_eq hs
    exact ⟨h, hn⟩
  | onStateDeactivated state discarded deadlocks id path =>
    rcases onStateDeactivated_cases hs with rfl | ⟨-, rfl⟩
    · exact ⟨h, hn⟩
    have hglobal : (s.recordPath true deadlocks id path).GlobalKept := h.recordPath
    have hrec : (s.recordPath true deadlocks id path).NoneForgotten := hn.recordPath nofun
    exact ⟨hglobal, hrec⟩
  | onIcsBegin state forked =>
    obtain ⟨-, rfl⟩ := onIcsBegin_eq hs
    exact ⟨h, hn⟩
  | onIcsMaybeEndRegion state id path =>
    have hglobal : (s.recordPath false false id path).GlobalKept := h.recordPath
    obtain ⟨rest, -, ⟨hnew, rfl⟩ | ⟨hold, rfl⟩⟩ := onIcsMaybeEndRegion_cases hs
    · -- the new region gets its state
      have hmono : ∀ x, (s.Remembers x ∨ x = id) → ({ s.recordPath false false id path with
          currQueue := []
          live := s.live \ rest.toFinset
          localRegionsFrontier := s.localRegionsFrontier ++ [(id, state)] } :
            DepthFirstICS R P).Remembers x := by
        rintro x ((hcurr | hcompl | hfrontier) | rfl)
        · exact .inl (by simpa using hcurr)
        · exact .inr (.inl (by simpa using hcompl))
        · refine .inr (.inr ?_)
          simp only [frontierRegions, map_append, mem_append, recordPath_frame] at hfrontier ⊢
          tauto
        · exact .inr (.inr (by simp [frontierRegions]))
      refine ⟨⟨fun x hx => ?_, fun e he => ?_⟩, fun x hx => ?_⟩
      · exact hmono x (.inl (h.1 x (by simpa using hx)))
      · simp only [recordPath_frame]
        rcases mem_append.1 he with he | he
        · exact h.2 e he
        · rw [mem_singleton.1 he]
          exact fun hin => hnew (.inl hin)
      · rcases hx with hx | hx
        · exact hmono x (.inl (h.1 x (by simpa using hx)))
        rcases mem_recordPath_localRegions hx with hx | rfl | ⟨-, -, rfl⟩
        · exact hmono x (.inl (hn x (.inr hx)))
        · exact hmono _ (.inl (.inl rfl))
        · exact hmono x (.inr rfl)
    · have hrec : (s.recordPath false false id path).NoneForgotten := hn.recordPath fun _ _ => hold
      exact ⟨hglobal, hrec⟩
  | onNextJobSelection sel => exact onNextJobSelection_kept h hn hk hs

/-- **Result.** The numbers of the registered regions are `1..n` in every run, and in a run whose
depth limits end paths in registered regions only, or restart the region, no region is forgotten. -/
theorem noneForgotten_of_meets (init : R) (ls : List (IcsEvent R P)) (s : DepthFirstICS R P)
    (hrun : runFrom DepthFirstICS.step (initial init) ls = some s) :
    (s.registered.Nodup ∧ (s.registered.map fun id => (s.info id).numericId).Perm
        (List.range' 1 s.registered.length)) ∧
      (Meets DepthFirstICS.step EndsInKnownRegion (initial init) ls →
        ∀ id ∈ s.registered, id = s.currRegion ∨ id ∈ s.completedRegions ∨
          ∃ state, (id, state) ∈ s.regionsFrontier ∨ (id, state) ∈ s.localRegionsFrontier) := by
  refine ⟨numericIds_of_run hrun, fun hmeets id hid => ?_⟩
  have hkept : s.GlobalKept ∧ s.NoneForgotten := by
    refine inv_of_meets DepthFirstICS.step (I := fun s => s.GlobalKept ∧ s.NoneForgotten)
      (fun _ _ _ hI hk hs => step_kept hI hk hs) ?_ hmeets hrun
    refine ⟨⟨fun x hx => (not_mem_nil hx).elim, fun e he => (not_mem_nil he).elim⟩, fun x hx => ?_⟩
    rcases hx with hx | hx
    · cases hx
    rcases mem_addRegion_localRegions.1 hx with hx | rfl
    · cases hx
    · exact .inl rfl
  rcases hkept.2 id (mem_registered.1 hid) with hcurr | hcompl | hfrontier
  · exact .inl hcurr
  · exact .inr (.inl hcompl)
  · obtain ⟨e, he, rfl⟩ := mem_map.1 hfrontier
    exact .inr (.inr ⟨e.2, mem_append.1 he⟩)

/-! ## Edges and schedules -/

/-- Schedules and edges of all regions are what was processed, in order, apart from schedules whose
edge is still to come. -/
def Scheduled (s : DepthFirstICS R P) (pending : R → List P) : Prop :=
  ∀ id, (s.info id).explored = (s.processed id).map Prod.fst ++ pending id ∧
    (s.info id).regionEdges = (s.processed id).map Prod.snd

def Matched (s : DepthFirstICS R P) : Prop := s.Scheduled fun _ => []

def CurrStaged (s : DepthFirstICS R P) : Prop :=
  s.currRegion ∈ s.localRegions ∨ (s.currRoot = none ∧ s.currQueue = [] ∧ s.regions ≠ [])

lemma Scheduled.addRegion {pending : R → List P} (h : s.Scheduled pending) (id : R)
    (hid : s.Registered id ∨ pending id = []) : (s.addRegion id).Scheduled pending := by
  intro x
  by_cases hreg : s.Registered id
  · simpa [DepthFirstICS.addRegion, hreg] using h x
  by_cases hx : x = id
  · subst hx
    simp [DepthFirstICS.addRegion, hreg, hid.resolve_left hreg]
  · simpa [DepthFirstICS.addRegion, hreg, hx] using h x

lemma Matched.modifyInfo (h : s.Matched)
    (hf : ∀ i, (f i).explored = i.explored ∧ (f i).regionEdges = i.regionEdges) :
    (s.modifyInfo f).Matched := by
  intro x
  by_cases hx : x = s.currRegion
  · subst hx
    simpa [DepthFirstICS.modifyInfo, hf] using h s.currRegion
  · simpa [DepthFirstICS.modifyInfo, hx] using h x

lemma Scheduled.addEdge {schedule : P}
    (h : s.Scheduled (Function.update (fun _ => []) s.currRegion [schedule]))
    (edge : RegionPathEdge R) :
    ({ s.modifyInfo fun i => { i with regionEdges := i.regionEdges ++ [edge] } with
      processed := Function.update s.processed s.currRegion
        (s.processed s.currRegion ++ [(schedule, edge)]) } : DepthFirstICS R P).Matched := by
  intro x
  by_cases hx : x = s.currRegion
  · subst hx
    simpa [modifyInfo] using h s.currRegion
  · simpa [modifyInfo, hx] using h x

lemma Matched.recordPath (h : s.Matched) (hcurr : s.currRegion ∈ s.localRegions) :
    (s.recordPath exits deadlocks id path).Matched := by
  have hsched : (({ s with loopsToUpgrade := s.loopsToUpgrade || path.upgrades }).modifyInfo fun i =>
      { i with
        explored := i.explored ++ [path.schedule]
        frontier := path.frontier }).Scheduled
      (Function.update (fun _ => []) s.currRegion [path.schedule]) := by
    intro x
    by_cases hx : x = s.currRegion
    · subst hx
      simpa [DepthFirstICS.modifyInfo] using h s.currRegion
    · simpa [DepthFirstICS.modifyInfo, hx] using h x
  have hid : s.Registered id ∨
      Function.update (fun _ => []) s.currRegion [path.schedule] id = [] := by
    by_cases heq : id = s.currRegion
    · exact .inl (.inr (heq ▸ hcurr))
    · exact .inr (Function.update_of_ne heq _ _)
  unfold DepthFirstICS.recordPath addRegionEdge
  split
  · have hcurr' : s.currRegion ∈ (s.addRegion id).localRegions :=
      mem_addRegion_localRegions.2 (.inl hcurr)
    exact ((hsched.addRegion id hid).addRegion s.currRegion (.inl (.inr hcurr'))).addEdge _
  · exact (hsched.addRegion s.currRegion (.inl (.inr hcurr))).addEdge _

lemma currRegion_mem_recordPath :
    s.currRegion ∈ (s.recordPath exits deadlocks id path).localRegions := by
  exact mem_addRegion_localRegions.2 (.inr rfl)

omit [DecidableEq R] in
lemma CurrStaged.of_queue (h : s.CurrStaged) (hq : s.currQueue ≠ []) :
    s.currRegion ∈ s.localRegions :=
  h.resolve_right fun hend => hq hend.2.1

omit [DecidableEq R] in
lemma CurrStaged.of_root (h : s.CurrStaged) (hr : s.currRoot ≠ none) :
    s.currRegion ∈ s.localRegions :=
  h.resolve_right fun hend => hr hend.1

lemma matched_recordPath {queue : List Nat} {live : Finset Nat} {frontier : List (R × Nat)}
    (h : s.Matched) (hc : s.CurrStaged) (hq : s.currQueue ≠ []) :
    ({ s.recordPath exits deadlocks id path with
        currQueue := queue
        live := live
        localRegionsFrontier := frontier } : DepthFirstICS R P).Matched ∧
      ({ s.recordPath exits deadlocks id path with
        currQueue := queue
        live := live
        localRegionsFrontier := frontier } : DepthFirstICS R P).CurrStaged := by
  refine ⟨h.recordPath (hc.of_queue hq), .inl ?_⟩
  show (s.recordPath exits deadlocks id path).currRegion ∈ _
  rw [recordPath_frame.1]
  exact currRegion_mem_recordPath

/-- The region that is restarted is in the staging area only: its record is a new one. -/
lemma Matched.restart (h : s.Matched) (hfresh : s.loopsToUpgrade = true → s.currRegion ∉ s.regions)
    (hr : s.restart forked = some s') : s'.Matched := by
  rcases restart_cases hr with ⟨-, rfl⟩ | ⟨hloops, rfl⟩
  · exact h
  intro x
  by_cases hx : x = s.currRegion
  · subst hx
    simp [resetToEmpty, DepthFirstICS.modifyInfo, DepthFirstICS.addRegion, Registered,
      clearRegionStagingArea, hfresh hloops]
  have hadd := (show ({ s with loopsToUpgrade := false }).clearRegionStagingArea.Matched from
    h).addRegion s.currRegion (.inr rfl) x
  have hcurr : (({ s with loopsToUpgrade := false }).clearRegionStagingArea.addRegion
      s.currRegion).currRegion = s.currRegion := rfl
  simpa [resetToEmpty, DepthFirstICS.modifyInfo, hcurr, hx] using hadd

def RestartsFresh (s : DepthFirstICS R P) : IcsEvent R P → Prop
  | .onNextJobSelection sel => s.restarts sel = true → s.currRegion ∉ s.regions
  | _ => True

lemma nextRegion_matched (h : s.Matched)
    (hc : s.CurrStaged) (hs : s.nextRegion maxRegions next = some (s', goesOn)) :
    s'.Matched ∧ s'.CurrStaged := by
  rcases nextRegion_cases hs with ⟨rfl, -⟩ | ⟨hempty, root, hroot, hcases⟩
  · exact ⟨h, hc⟩
  rcases hcases with ⟨rfl, -⟩ | ⟨-, -, rfl⟩
  · refine ⟨h, .inr ⟨rfl, hempty, ?_⟩⟩
    have hcurr : s.Registered s.currRegion := .inr (hc.of_root (by simp [hroot]))
    exact ne_nil_of_mem (mem_registered.2 hcurr)
  refine ⟨?_, .inl (mem_addRegion_localRegions.2 (.inr rfl))⟩
  apply Scheduled.addRegion
  · exact h
  · exact .inr rfl

lemma onNextJobSelection_matched (h : s.Matched) (hc : s.CurrStaged)
    (hfresh : s.restarts sel = true → s.currRegion ∉ s.regions)
    (hs : s.onNextJobSelection sel = some s') : s'.Matched ∧ s'.CurrStaged := by
  obtain ⟨s₁, s₂, s₃, s₄, goesOn, h₁, h₂, h₃, h₄, h₅, hloops⟩ := onNextJobSelection_cases hs
  have hs₁ : (s₁.Matched ∧ s₁.CurrStaged) ∧ s₁.currRegion = s.currRegion ∧ s₁.regions = s.regions := by
    rcases limitDepth_cases h₁ with ⟨-, rfl⟩ | ⟨id, path, state, rest, -, hqueue, rfl⟩
    · exact ⟨⟨h, hc⟩, rfl, rfl⟩
    · exact ⟨matched_recordPath h hc (by simp [hqueue]), by simp, by simp⟩
  have hs₂ : (s₂.Matched ∧ s₂.CurrStaged) ∧ s₂.currRegion = s.currRegion ∧ s₂.regions = s.regions := by
    rcases limitPaths_cases h₂ with rfl | rfl
    · exact hs₁
    have hm : (s₁.modifyInfo fun i => { i with frontier := 0 }).Matched :=
      hs₁.1.1.modifyInfo fun _ => ⟨rfl, rfl⟩
    exact ⟨⟨hm, hs₁.1.2.imp_right fun hend => ⟨hend.1, rfl, hend.2.2⟩⟩, hs₁.2⟩
  have hs₃ : s₃.Matched ∧ s₃.CurrStaged := by
    refine ⟨hs₂.1.1.restart ?_ h₃, ?_⟩
    · rw [hloops, hs₂.2.1, hs₂.2.2]
      exact hfresh
    rcases restart_cases h₃ with ⟨-, rfl⟩ | ⟨-, rfl⟩
    · exact hs₂.1.2
    have hcurr : s₂.currRegion ∈ (({ s₂ with loopsToUpgrade := false
        }).clearRegionStagingArea.addRegion s₂.currRegion).localRegions :=
      mem_addRegion_localRegions.2 (.inr rfl)
    exact .inl hcurr
  have hs₄ := nextRegion_matched hs₃.1 hs₃.2 h₄
  rcases h₅ with rfl | h₅
  · exact hs₄
  rcases nextPath_cases h₅ with rfl | ⟨hroot, -, rfl⟩
  · exact hs₄
  have hm : (s₄.modifyInfo fun i => { i with frontier := i.frontier - 1 }).Matched :=
    hs₄.1.modifyInfo fun _ => ⟨rfl, rfl⟩
  exact ⟨hm, .inl (hs₄.2.of_root hroot)⟩

lemma step_matched (h : s.Matched ∧ s.CurrStaged) (hf : s.RestartsFresh l)
    (hs : s.step l = some s') : s'.Matched ∧ s'.CurrStaged := by
  obtain ⟨h, hc⟩ := h
  cases l with
  | onStateActivated state =>
    rcases onStateActivated_cases hs with ⟨-, -, hnil, rfl⟩ | ⟨hroot, rfl⟩
    · exact ⟨h, .inl (hc.resolve_right fun hend => hend.2.2 hnil)⟩
    · exact ⟨h, .inl (hc.of_root hroot)⟩
  | onUpdateAfterBranch state =>
    obtain ⟨hd, tl, hqueue, -, rfl⟩ := onUpdateAfterBranch_eq hs
    exact ⟨h, .inl (hc.of_queue (by simp [hqueue]))⟩
  | onStateDeactivated state discarded deadlocks id path =>
    rcases onStateDeactivated_cases hs with rfl | ⟨hmem, rfl⟩
    · refine ⟨h, hc.imp_right fun hend => ⟨hend.1, ?_, hend.2.2⟩⟩
      simp [hend.2.1]
    · exact matched_recordPath h hc (ne_nil_of_mem hmem)
  | onIcsBegin state forked =>
    obtain ⟨hroot, rfl⟩ := onIcsBegin_eq hs
    exact ⟨h, .inl (hc.of_root (by simp [hroot]))⟩
  | onIcsMaybeEndRegion state id path =>
    obtain ⟨rest, hqueue, ⟨-, rfl⟩ | ⟨-, rfl⟩⟩ := onIcsMaybeEndRegion_cases hs
    · exact matched_recordPath h hc (by simp [hqueue])
    · exact matched_recordPath h hc (by simp [hqueue])
  | onNextJobSelection sel => exact onNextJobSelection_matched h hc hf hs

/-- **Result.** In a run that restarts regions only while they are not in the global table, the
schedules and the edges of every region are those of the paths that were processed for it, in
order. -/
theorem matched_of_meets (init : R) (ls : List (IcsEvent R P)) (s : DepthFirstICS R P)
    (hrun : runFrom DepthFirstICS.step (initial init) ls = some s)
    (hmeets : Meets DepthFirstICS.step RestartsFresh (initial init) ls) (id : R) :
    (s.info id).explored.length = (s.info id).regionEdges.length ∧
      (s.info id).explored = (s.processed id).map Prod.fst ∧
      (s.info id).regionEdges = (s.processed id).map Prod.snd := by
  have hm : s.Matched ∧ s.CurrStaged := by
    refine inv_of_meets DepthFirstICS.step (I := fun s => s.Matched ∧ s.CurrStaged)
      (fun _ _ _ hI hf hs => step_matched hI hf hs) ?_ hmeets hrun
    refine ⟨.addRegion (fun x => ⟨rfl, rfl⟩) init (.inr rfl), .inl ?_⟩
    exact mem_addRegion_localRegions.2 (.inr rfl)
  obtain ⟨hex, hed⟩ := hm.1 id
  rw [append_nil] at hex
  refine ⟨?_, hex, hed⟩
  rw [hex, hed, length_map, length_map]

end

/-! ## Runs from the initial region -/

def endsEarly (id : Nat) : List (IcsEvent Nat Unit) :=
  [.onStateActivated 0, .onIcsBegin 0 1,
    .onNextJobSelection ⟨some (id, ⟨(), 0, false, 0⟩), 0, 0, (0, 0), 2⟩]

/-- Region 7 is registered, and nothing leads there any more. -/
theorem depthLimit_forgets_region :
    ∃ s, runFrom step (initial 0) (endsEarly 7) = some s ∧ 7 ∈ s.registered ∧ s.currRegion = 0 ∧
      s.completedRegions = [0] ∧ s.regionsFrontier = [] ∧ s.localRegionsFrontier = [] :=
  ⟨_, rfl, by decide, rfl, rfl, rfl, rfl⟩

def secondRegion (upgrades : Bool) : List (IcsEvent Nat Unit) :=
  [.onStateActivated 0, .onIcsBegin 0 1, .onIcsMaybeEndRegion 1 5 ⟨(), 0, false, 0⟩,
    .onNextJobSelection ⟨none, 0, 0, (5, 1), 2⟩, .onIcsBegin 1 2,
    .onStateDeactivated 2 false false 0 ⟨(), 0, upgrades, 1⟩]

/-- In the second region a depth limit ends a path in the first one. -/
def endsInFirst : List (IcsEvent Nat Unit) :=
  [.onStateActivated 0, .onIcsBegin 0 1, .onIcsMaybeEndRegion 1 5 ⟨(), 0, false, 0⟩,
    .onNextJobSelection ⟨none, 0, 0, (5, 1), 2⟩, .onIcsBegin 1 2,
    .onNextJobSelection ⟨some (0, ⟨(), 0, false, 0⟩), 0, 0, (0, 0), 3⟩]

theorem noneForgotten_of_meets_endsInFirst :
    ∃ s, runFrom step (initial 0) endsInFirst = some s ∧ s.registered = [0, 5] ∧
      (s.registered.map fun id => (s.info id).numericId).Perm [1, 2] ∧
      ∀ id ∈ s.registered, id = s.currRegion ∨ id ∈ s.completedRegions ∨
        ∃ state, (id, state) ∈ s.regionsFrontier ∨ (id, state) ∈ s.localRegionsFrontier := by
  have hrun : ∃ s, runFrom step (initial 0) endsInFirst = some s ∧ s.registered = [0, 5] :=
    ⟨_, rfl, rfl⟩
  obtain ⟨s, hs, hreg⟩ := hrun
  obtain ⟨⟨-, hnumbers⟩, hkept⟩ := noneForgotten_of_meets 0 _ s hs
  refine ⟨s, hs, hreg, ?_, hkept ⟨trivial, trivial, trivial, ?_, trivial, ?_, trivial⟩⟩
  · rw [hreg] at hnumbers ⊢
    exact hnumbers
  · nofun
  · intro d hd _
    cases hd
    exact .inl (.inl (by decide))

theorem matched_of_meets_exit :
    ∃ s, runFrom step (initial 0) (secondRegion false) = some s ∧
      (s.info 5).explored.length = (s.info 5).regionEdges.length ∧
      (s.info 5).explored = (s.processed 5).map Prod.fst ∧
      (s.info 5).regionEdges = (s.processed 5).map Prod.snd := by
  have hrun : ∃ s, runFrom step (initial 0) (secondRegion false) = some s := ⟨_, rfl⟩
  obtain ⟨s, hs⟩ := hrun
  refine ⟨s, hs, matched_of_meets 0 _ s hs ⟨trivial, trivial, trivial, ?_, trivial, trivial, trivial⟩ 5⟩
  nofun

/-- After the restart the region has an edge and no schedule. -/
theorem restart_keeps_edges :
    ∃ s, runFrom step (initial 0) (secondRegion true ++
        [.onNextJobSelection ⟨none, 0, 0, (0, 0), 3⟩]) = some s ∧
      s.currRegion = 5 ∧ (s.info 5).explored = [] ∧ (s.info 5).regionEdges.length = 1 :=
  ⟨_, rfl, rfl, rfl, rfl⟩

end DepthFirstICS

end InputCovSched
