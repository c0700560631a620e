import InputCovSched.Symbolic.RwlockExclusion

/-!
# The order that the read-write lock records

A reader takes an edge from the last writer's unlock; a writer takes edges from the
unlocks of all readers since the last writer, or from the last writer's unlock when there
was no reader. This orders all critical sections of which one writes (`sections_ordered`).

The invariant follows the two fields of the lock: every finished section lies before
`last_writer_hbnode` or is a reader of the current group, and the group lies after
`last_writer_hbnode`.
-/

namespace InputCovSched

open KState

open Function List

namespace RwSys

/-- What the recorded graph says about the sections, finished and open. -/
structure Order (s : RwSys) : Prop where
  last_le : ∀ t, s.engine.lastHbNode t ≤ s.engine.hbGraph.nodes.length
  writer_le : s.rw.lastWriterHbNode ≤ s.engine.hbGraph.nodes.length
  done_le : ∀ A, A ∈ s.done → 0 < A.rel ∧ A.rel ≤ s.engine.hbGraph.nodes.length
  held_last : ∀ t h, h ∈ s.held t → 0 < h.acq ∧ s.engine.hbGraph.Le h.acq (s.engine.lastHbNode t)
  done_write : ∀ A, A ∈ s.done → A.write = true →
    s.engine.hbGraph.Le A.rel s.rw.lastWriterHbNode
  done_read : ∀ A, A ∈ s.done → s.rw.writer = false →
    s.engine.hbGraph.Le A.rel s.rw.lastWriterHbNode ∨
      s.rw.lastReaderHbGroup ≠ 0 ∧ A.rel ∈ s.engine.hbGraph.groupMap s.rw.lastReaderHbGroup
  group_some : s.rw.lastReaderHbGroup ≠ 0 →
    s.engine.hbGraph.groupMap s.rw.lastReaderHbGroup ≠ []
  group_after : ∀ r, r ∈ s.engine.hbGraph.groupMap s.rw.lastReaderHbGroup →
    0 < r ∧ r ≤ s.engine.hbGraph.nodes.length ∧
      (s.rw.lastWriterHbNode = 0 ∨ s.engine.hbGraph.Le s.rw.lastWriterHbNode r)
  group_other : ∀ i, i = 0 ∨ i ≠ s.rw.lastReaderHbGroup → s.engine.hbGraph.groupMap i = []
  open_write : ∀ t h, h ∈ s.held t → h.write = true → s.rw.lastReaderHbGroup = 0 ∧
    ∀ A, A ∈ s.done → A.rel < h.acq ∧ s.engine.hbGraph.Path A.rel h.acq
  open_read : ∀ t h, h ∈ s.held t → h.write = false →
    (s.rw.lastWriterHbNode = 0 ∨ s.engine.hbGraph.Le s.rw.lastWriterHbNode h.acq) ∧
    ∀ A, A ∈ s.done → A.write = true → A.rel < h.acq ∧ s.engine.hbGraph.Path A.rel h.acq
  writer_flag : s.rw.writer = true ↔ ∃ t h, h ∈ s.held t ∧ h.write = true
  ordered : s.done.Pairwise fun A B =>
    A.write = true ∨ B.write = true → A.rel < B.acq ∧ s.engine.hbGraph.Path A.rel B.acq

variable {t : Nat} {s s' : RwSys}

attribute [local simp] initial

lemma order_initial (static : Bool) : (initial static).Order := by
  cases static <;>
    exact ⟨fun _ => Nat.zero_le _, Nat.zero_le _, by simp, by simp,
      by simp, by simp, fun h => absurd rfl h,
      by simp [rwlockInit, Rwlock.getWlists, Rwlock.zero, boot,
        kleeGetWlist, HBGraph.empty],
      fun _ _ => rfl, by simp, by simp,
      by simp [rwlockInit, Rwlock.getWlists, Rwlock.zero], by simp⟩

lemma Order.congr (ho : s.Order) (h1 : s'.engine.hbGraph = s.engine.hbGraph)
    (h2 : s'.engine.lastHbNode = s.engine.lastHbNode)
    (h3 : s'.rw.lastWriterHbNode = s.rw.lastWriterHbNode)
    (h4 : s'.rw.lastReaderHbGroup = s.rw.lastReaderHbGroup) (h5 : s'.rw.writer = s.rw.writer)
    (h6 : s'.held = s.held) (h7 : s'.done = s.done) : s'.Order := by
  obtain ⟨o1, o2, o3, o4, o5, o6, o7, o8, o9, o10, o11, o12, o13⟩ := ho
  constructor <;> simp only [h1, h2, h3, h4, h5, h6, h7] <;> assumption

lemma checked_order (ho : s.Order) : s.checked.Order := by
  unfold checked rwlockCheckInit
  split <;> exact { ho with }

variable {h : Hold} {A : Section} {k' : KState RwRest}

section
variable (ho : s.Order)
include ho

lemma Order.last_ne_zero (hh : h ∈ s.held t) : s.engine.lastHbNode t ≠ 0 :=
  ((ho.held_last t h hh).2).ne_zero (ho.held_last t h hh).1

lemma Order.writer_ne_zero (hA : A ∈ s.done)
    (hle : s.engine.hbGraph.Le A.rel s.rw.lastWriterHbNode) : s.rw.lastWriterHbNode ≠ 0 :=
  hle.ne_zero (ho.done_le A hA).1

section
variable (hk : KState.AddsNode s.engine k' t)
include hk

lemma Order.held_addsNode (hh : h ∈ s.held u) : k'.hbGraph.Le h.acq (k'.lastHbNode u) := by
  have hle := ((ho.held_last u h hh).2).mono hk.mono
  rw [hk.last]
  by_cases hut : u = t
  · subst hut
    rw [update_self]
    exact (hle.path (hk.own (ho.last_ne_zero hh))).le
  · rwa [update_of_ne hut]

lemma Order.last_addsNode (u : Nat) : k'.lastHbNode u ≤ k'.hbGraph.nodes.length := by
  rw [hk.last, hk.length]
  by_cases hut : u = t
  · rw [hut, update_self]
  rw [update_of_ne hut]
  have := ho.last_le u
  omega

lemma Order.ordered_addsNode :
    s.done.Pairwise fun A B =>
      A.write = true ∨ B.write = true → A.rel < B.acq ∧ k'.hbGraph.Path A.rel B.acq :=
  ho.ordered.imp fun h hw => ⟨(h hw).1, (h hw).2.mono hk.mono⟩

end

lemma Order.read_of_free (hw : s.rw.writer = false) (hh : h ∈ s.held u) : h.write = false := by
  by_contra hne
  rw [ho.writer_flag.2 ⟨u, h, hh, by simpa using hne⟩] at hw
  cases hw

lemma Order.alone (hex : s.Exclusive) (hheld : s.held t = h :: hs) (hw : s.rw.writer = true) :
    h.write = true ∧ hs = [] ∧ ∀ u, u ≠ t → s.held u = [] := by
  obtain ⟨u, x, hx, hxw⟩ := ho.writer_flag.1 hw
  obtain ⟨hone, hothers⟩ := hex u x hx hxw
  have hut : t = u := by
    by_contra hne
    have := hothers t hne
    rw [hheld] at this
    cases this
  subst hut
  rw [hheld] at hone
  obtain ⟨rfl, hnil⟩ := List.cons.inj hone
  exact ⟨hxw, hnil, hothers⟩

end

/-! ## The moves -/

lemma callCtx_ignorable (c : Nat) : (callCtx c).ignorable = false := rfl

lemma enterRead_facts (s : RwSys) (t c : Nat) :
    KState.AddsNode s.engine (s.enterRead t c).engine t ∧
    (s.rw.lastWriterHbNode ≠ 0 → s.rw.lastWriterHbNode ≤ s.engine.hbGraph.nodes.length →
      (s.enterRead t c).engine.hbGraph.Edge s.rw.lastWriterHbNode
        (s.engine.hbGraph.nodes.length + 1)) ∧
    (s.enterRead t c).engine.hbGraph.groupMap = s.engine.hbGraph.groupMap ∧
    (s.enterRead t c).held = update s.held t
      (⟨false, s.engine.hbGraph.nodes.length + 1⟩ :: s.held t) := by
  have hnode := kleeAddHbnode_addsNode s.engine t (callCtx_ignorable c)
  have hid := kleeAddHbnode_fst s.engine t (callCtx_ignorable c)
  have hadds : KState.AddsNode s.engine (s.enterRead t c).engine t :=
    hnode.then (by simp [enterRead, finish, threadMakeHbnodeFrom, kleeAddHbedge,
      kleeThreadPreempt]) (fun a b h => HBGraph.addEdge_edge.2 (.inl h)) rfl
  refine ⟨hadds, fun h0 hle => ?_, ?_, ?_⟩
  · refine HBGraph.addEdge_edge.2 (.inr ⟨rfl, hid.symm, h0, ?_, ?_, ?_⟩)
    · rw [hid]; omega
    · rw [hid]; omega
    · rw [hid, hnode.length]
  · simp [enterRead, finish, threadMakeHbnodeFrom, kleeAddHbedge, kleeThreadPreempt, kleeAddHbnode]
  · have hlast : (s.enterRead t c).engine.lastHbNode t = s.engine.hbGraph.nodes.length + 1 := by
      rw [hadds.last, update_self]
    rw [← hlast]
    rfl

lemma enterWrite_facts (s : RwSys) (t c : Nat) :
    KState.AddsNode s.engine (s.enterWrite t c).engine t ∧
    (s.rw.lastReaderHbGroup ≠ 0 →
      ∀ r, r ∈ s.engine.hbGraph.groupMap s.rw.lastReaderHbGroup → 0 < r →
        r ≤ s.engine.hbGraph.nodes.length →
        (s.enterWrite t c).engine.hbGraph.Edge r (s.engine.hbGraph.nodes.length + 1)) ∧
    (s.rw.lastReaderHbGroup = 0 → s.rw.lastWriterHbNode ≠ 0 →
      s.rw.lastWriterHbNode ≤ s.engine.hbGraph.nodes.length →
        (s.enterWrite t c).engine.hbGraph.Edge s.rw.lastWriterHbNode
          (s.engine.hbGraph.nodes.length + 1)) ∧
    (∀ i, s.engine.hbGraph.groupMap i = [] ∨ s.rw.lastReaderHbGroup ≠ 0 ∧
      i = s.rw.lastReaderHbGroup → (s.enterWrite t c).engine.hbGraph.groupMap i = []) ∧
    (s.enterWrite t c).rw.lastReaderHbGroup = 0 ∧ (s.enterWrite t c).rw.writer = true ∧
    (s.enterWrite t c).rw.lastWriterHbNode = s.rw.lastWriterHbNode ∧
    (s.enterWrite t c).done = s.done ∧
    (s.enterWrite t c).held = update s.held t
      (⟨true, s.engine.hbGraph.nodes.length + 1⟩ :: s.held t) := by
  have hnode := kleeAddHbnode_addsNode s.engine t (callCtx_ignorable c)
  have hid := kleeAddHbnode_fst s.engine t (callCtx_ignorable c)
  have hlast : (s.engine.kleeAddHbnode t (callCtx c)).2.lastHbNode t =
      s.engine.hbGraph.nodes.length + 1 := by
    rw [hnode.last, update_self]
  have hgroup : (s.engine.kleeAddHbnode t (callCtx c)).2.hbGraph.groupMap =
      s.engine.hbGraph.groupMap := by
    simp [kleeAddHbnode]
  by_cases hg : s.rw.lastReaderHbGroup = 0
  · -- the edge from the last writer
    have heq : s.enterWrite t c = s.finish t true (.ret .ok, { s.rw with writer := true },
        (s.engine.kleeAddHbnode t (callCtx c)).2.kleeAddHbedge s.rw.lastWriterHbNode
          (s.engine.kleeAddHbnode t (callCtx c)).1) := by
      simp [enterWrite, wrlockTail, hg]
    rw [heq]
    refine ⟨hnode.then (HBGraph.addEdge_length _ _)
      (fun a b h => HBGraph.addEdge_edge.2 (.inl h)) rfl, fun h => absurd hg h,
      fun _ h0 hle => ?_, fun i hi => ?_, hg, rfl, rfl, rfl, by rw [← hlast]; rfl⟩
    rotate_left
    · rw [← hi.resolve_right fun h => h.1 hg, ← hgroup]
      exact congrFun (HBGraph.addEdge_groupMap _ _) i
    refine HBGraph.addEdge_edge.2 (.inr ⟨rfl, hid.symm, h0, ?_, ?_, ?_⟩)
    · rw [hid]; omega
    · rw [hid]; omega
    · rw [hid, hnode.length]
  -- the edges from the readers' group
  have heq : s.enterWrite t c =
      s.finish t true (.ret .ok, { s.rw with writer := true, lastReaderHbGroup := 0 },
        (((s.engine.kleeAddHbnode t (callCtx c)).2.kleeAddHbedgesFromHbgroup
          s.rw.lastReaderHbGroup (s.engine.kleeAddHbnode t (callCtx c)).1).kleeRemoveHbgroup
          s.rw.lastReaderHbGroup)) := by
    simp [enterWrite, wrlockTail, hg]
  rw [heq]
  refine ⟨hnode.then (HBGraph.addEdgesFromGroup_length _ _)
    (fun a b h => HBGraph.addEdgesFromGroup_edge.2 (.inl h)) rfl,
    fun _ r hr h0 hle => ?_, fun h => absurd h hg, fun i hi => ?_, rfl, rfl, rfl, rfl,
    by rw [← hlast]; rfl⟩
  · refine HBGraph.addEdgesFromGroup_edge.2
      (.inr ⟨by rw [hgroup]; exact hr, hid.symm, by omega, ?_, ?_, ?_⟩)
    · rw [hid]; omega
    · rw [hid]; omega
    · rw [hid, hnode.length]
  · simp only [finish, kleeThreadPreempt, kleeRemoveHbgroup,
      kleeAddHbedgesFromHbgroup, HBGraph.removeGroup]
    rw [HBGraph.addEdgesFromGroup_groupMap, hgroup]
    by_cases hig : i = s.rw.lastReaderHbGroup
    · rw [hig, update_self]
    · rw [update_of_ne hig]
      exact hi.resolve_right fun h => hig h.2

lemma mem_push {held : Nat → List Hold} :
    h ∈ update held t (x :: held t) u ↔ (u = t ∧ h = x) ∨ h ∈ held u := by
  by_cases hut : u = t
  · subst hut
    simp
  · simp [hut]

lemma Order.enterRead (ho : s.Order) (c : Nat) (hex : (s.enterRead t c).Exclusive) :
    (s.enterRead t c).Order := by
  obtain ⟨hk, hedge, hgroup, hheld⟩ := enterRead_facts s t c
  have hlen := hk.length
  have hlast : (s.enterRead t c).engine.lastHbNode t = s.engine.hbGraph.nodes.length + 1 := by
    rw [hk.last, update_self]
  have hwle := ho.writer_le
  have hreads : ∀ u h, h ∈ (s.enterRead t c).held u → h.write = false := by
    -- a writer would be alone, and the reader is here
    intro u h hh
    by_contra hw
    obtain ⟨hone, hothers⟩ := hex u h hh (by simpa using hw)
    rw [hheld] at hone hothers
    by_cases hut : u = t
    · rw [hut, update_self] at hone
      rw [← (List.cons.inj hone).1] at hw
      exact hw rfl
    · have := hothers t (Ne.symm hut)
      simp at this
  constructor
  case last_le => exact ho.last_addsNode hk
  case writer_le =>
    show s.rw.lastWriterHbNode ≤ _
    omega
  case done_le =>
    intro A hA
    have := ho.done_le A hA
    omega
  case held_last =>
    intro u h hh
    rw [hheld] at hh
    rcases mem_push.1 hh with ⟨rfl, rfl⟩ | hh
    · exact ⟨Nat.succ_pos _, by rw [hlast]; exact .refl _⟩
    · exact ⟨(ho.held_last u h hh).1, ho.held_addsNode hk hh⟩
  case done_write => exact fun A hA hw => (ho.done_write A hA hw).mono hk.mono
  case done_read =>
    intro A hA hw
    rw [hgroup]
    exact (ho.done_read A hA hw).imp (fun h => h.mono hk.mono) id
  case group_some =>
    rw [hgroup]
    exact ho.group_some
  case group_after =>
    intro r hr
    rw [hgroup] at hr
    obtain ⟨h0, hle, hafter⟩ := ho.group_after r hr
    exact ⟨h0, by omega, hafter.imp id fun h => h.mono hk.mono⟩
  case group_other =>
    rw [hgroup]
    exact ho.group_other
  case open_write =>
    intro u h hh hw
    rw [hreads u h hh] at hw
    cases hw
  case open_read =>
    intro u h hh hw
    rw [hheld] at hh
    rcases mem_push.1 hh with ⟨rfl, rfl⟩ | hh
    · constructor
      · by_cases h0 : s.rw.lastWriterHbNode = 0
        · exact .inl h0
        · exact .inr ((HBGraph.Le.refl _).path (hedge h0 hwle)).le
      · intro A hA hAw
        have hle := ho.done_write A hA hAw
        have := (ho.done_le A hA).2
        exact ⟨by dsimp only; omega,
          (hle.mono hk.mono).path (hedge (ho.writer_ne_zero hA hle) hwle)⟩
    · obtain ⟨hafter, hdone⟩ := ho.open_read u h hh hw
      exact ⟨hafter.imp id fun h => h.mono hk.mono,
        fun A hA hAw => ⟨(hdone A hA hAw).1, (hdone A hA hAw).2.mono hk.mono⟩⟩
  case writer_flag =>
    refine ho.writer_flag.trans ⟨?_, ?_⟩
    · rintro ⟨u, h, hh, hw⟩
      exact ⟨u, h, mem_push.2 (.inr hh), hw⟩
    · rintro ⟨u, h, hh, hw⟩
      rcases mem_push.1 hh with ⟨rfl, rfl⟩ | hh
      · cases hw
      · exact ⟨u, h, hh, hw⟩
  case ordered => exact ho.ordered_addsNode hk

lemma Order.enterWrite_after (ho : s.Order) (c : Nat) (hw : s.rw.writer = false) (hA : A ∈ s.done) :
    (s.enterWrite t c).engine.hbGraph.Path A.rel (s.engine.hbGraph.nodes.length + 1) := by
  obtain ⟨hk, hreaders, hwriter, -⟩ := enterWrite_facts s t c
  by_cases hg : s.rw.lastReaderHbGroup = 0
  · have hle : s.engine.hbGraph.Le A.rel s.rw.lastWriterHbNode := by
      rcases ho.done_read A hA hw with h | ⟨h, -⟩
      · exact h
      · exact absurd hg h
    exact (hle.mono hk.mono).path (hwriter hg (ho.writer_ne_zero hA hle) ho.writer_le)
  rcases ho.done_read A hA hw with hle | ⟨-, hmem⟩
  · -- through any reader of the group
    obtain ⟨r, hr⟩ := exists_mem_of_ne_nil _ (ho.group_some hg)
    obtain ⟨h0, hrle, hafter⟩ := ho.group_after r hr
    have hle' : s.engine.hbGraph.Le s.rw.lastWriterHbNode r :=
      hafter.resolve_left (ho.writer_ne_zero hA hle)
    exact ((hle.trans hle').mono hk.mono).path (hreaders hg r hr h0 hrle)
  · obtain ⟨h0, hrle, -⟩ := ho.group_after A.rel hmem
    exact (HBGraph.Le.refl _).path (hreaders hg A.rel hmem h0 hrle)

lemma Order.enterWrite (ho : s.Order) (c : Nat) (hex : (s.enterWrite t c).Exclusive) :
    (s.enterWrite t c).Order := by
  obtain ⟨hk, -, -, hgroup, hg0, hflag, hlw, hdone, hheld⟩ := enterWrite_facts s t c
  have hlen := hk.length
  have hlast : (s.enterWrite t c).engine.lastHbNode t = s.engine.hbGraph.nodes.length + 1 := by
    rw [hk.last, update_self]
  have hnew : (⟨true, s.engine.hbGraph.nodes.length + 1⟩ : Hold) ∈ (s.enterWrite t c).held t := by
    rw [hheld]
    exact mem_push.2 (.inl ⟨rfl, rfl⟩)
  have honly : ∀ u h, h ∈ (s.enterWrite t c).held u →
      u = t ∧ h = ⟨true, s.engine.hbGraph.nodes.length + 1⟩ := by
    intro u h hh
    obtain ⟨hone, hothers⟩ := hex t _ hnew rfl
    by_cases hut : u = t
    · rw [hut, hone] at hh
      exact ⟨hut, mem_singleton.1 hh⟩
    · rw [hothers u hut] at hh
      cases hh
  have hempty : ∀ i, (s.enterWrite t c).engine.hbGraph.groupMap i = [] := by
    intro i
    apply hgroup
    by_cases hi : i = 0 ∨ i ≠ s.rw.lastReaderHbGroup
    · exact .inl (ho.group_other i hi)
    · exact .inr (by omega)
  have hfree : s.rw.writer = false := by
    -- a writer inside before would be inside with the new one
    by_contra hw
    obtain ⟨u, h, hh, -⟩ := ho.writer_flag.1 (by simpa using hw)
    obtain ⟨rfl, -⟩ := honly u h (by rw [hheld]; exact mem_push.2 (.inr hh))
    have hone := (hex u _ hnew rfl).1
    rw [hheld, update_self] at hone
    rw [(List.cons.inj hone).2] at hh
    cases hh
  constructor
  case last_le => exact ho.last_addsNode hk
  case writer_le =>
    have := ho.writer_le
    omega
  case done_le =>
    intro A hA
    have := ho.done_le A (hdone ▸ hA)
    omega
  case held_last =>
    intro u h hh
    obtain ⟨rfl, rfl⟩ := honly u h hh
    exact ⟨Nat.succ_pos _, by rw [hlast]; exact .refl _⟩
  case done_write =>
    intro A hA hw
    rw [hlw]
    exact (ho.done_write A (hdone ▸ hA) hw).mono hk.mono
  case done_read =>
    intro A _ hw
    rw [hflag] at hw
    cases hw
  case group_some => exact fun h => absurd hg0 h
  case group_after =>
    intro r hr
    rw [hempty] at hr
    cases hr
  case group_other => exact fun i _ => hempty i
  case open_write =>
    intro u h hh _
    obtain ⟨rfl, rfl⟩ := honly u h hh
    refine ⟨hg0, fun A hA => ?_⟩
    have := (ho.done_le A (hdone ▸ hA)).2
    exact ⟨by dsimp only; omega, ho.enterWrite_after c hfree (hdone ▸ hA)⟩
  case open_read =>
    intro u h hh hw
    obtain ⟨rfl, rfl⟩ := honly u h hh
    cases hw
  case writer_flag => exact ⟨fun _ => ⟨t, _, hnew, rfl⟩, fun _ => hflag⟩
  case ordered =>
    rw [hdone]
    exact ho.ordered_addsNode hk

lemma release_addsNode (s : RwSys) (t ctx : Nat) (h : Hold) (hs : List Hold) :
    KState.AddsNode s.engine (s.release t ctx h hs).engine t ∧
    (s.release t ctx h hs).done =
      s.done ++ [⟨t, h.write, h.acq, s.engine.hbGraph.nodes.length + 1⟩] ∧
    (s.release t ctx h hs).held = update s.held t hs ∧
    (s.release t ctx h hs).rw.writer = false := by
  have hnode := kleeAddHbnode_addsNode s.engine t (callCtx_ignorable ctx)
  have hlast : (s.engine.kleeAddHbnode t (callCtx ctx)).2.lastHbNode t =
      s.engine.hbGraph.nodes.length + 1 := by
    rw [hnode.last, update_self]
  rw [← hlast]
  cases hw : s.rw.writer with
  | true =>
    refine ⟨hnode.then ?_ ?_ ?_, ?_, ?_, ?_⟩ <;> simp [release, rwlockRelease, hw, kleeLastHbnode]
  | false =>
    refine ⟨hnode.then ?_ ?_ ?_, ?_, ?_, ?_⟩ <;>
      simp [release, rwlockRelease, hw, kleeLastHbnode, kleeAddHbnodeToHbgroup]
    exact fun _ _ h => h

lemma release_writer (ctx : Nat) (h : Hold) (hs : List Hold) (hw : s.rw.writer = true) :
    (s.release t ctx h hs).rw.lastWriterHbNode = s.engine.hbGraph.nodes.length + 1 ∧
    (s.release t ctx h hs).rw.lastReaderHbGroup = s.rw.lastReaderHbGroup ∧
    (s.release t ctx h hs).engine.hbGraph.groupMap = s.engine.hbGraph.groupMap := by
  have hid := kleeAddHbnode_fst s.engine t (callCtx_ignorable ctx)
  simp only [release, rwlockRelease, hw, if_true]
  exact ⟨hid, trivial, by simp [kleeAddHbnode]⟩

lemma release_reader (ctx : Nat) (h : Hold) (hs : List Hold) (hw : s.rw.writer = false) :
    (s.release t ctx h hs).rw.lastWriterHbNode = s.rw.lastWriterHbNode ∧
    (s.release t ctx h hs).rw.lastReaderHbGroup =
      (if s.rw.lastReaderHbGroup = 0 then s.engine.hbGraph.nodes.length + 1
       else s.rw.lastReaderHbGroup) ∧
    (∀ i, i ≠ (s.release t ctx h hs).rw.lastReaderHbGroup →
      (s.release t ctx h hs).engine.hbGraph.groupMap i = s.engine.hbGraph.groupMap i) ∧
    (∀ r, r ∈ (s.release t ctx h hs).engine.hbGraph.groupMap
        (s.release t ctx h hs).rw.lastReaderHbGroup ↔
      r = s.engine.hbGraph.nodes.length + 1 ∨
        r ∈ s.engine.hbGraph.groupMap (s.release t ctx h hs).rw.lastReaderHbGroup) := by
  have hid := kleeAddHbnode_fst s.engine t (callCtx_ignorable ctx)
  have hgroup : (s.engine.kleeAddHbnode t (callCtx ctx)).2.hbGraph.groupMap =
      s.engine.hbGraph.groupMap := by
    simp [kleeAddHbnode]
  simp only [release, rwlockRelease, hw, Bool.false_eq_true, if_false, hid]
  refine ⟨trivial, trivial, fun i hi => ?_, fun r => ?_⟩
  · simp only [kleeAddHbnodeToHbgroup, HBGraph.addNodeToGroup, hgroup]
    rw [update_of_ne hi]
  · simp only [kleeAddHbnodeToHbgroup]
    rw [HBGraph.mem_addNodeToGroup, hgroup]

lemma mem_pop (hheld : s.held t = x :: hs) (hh : h ∈ update s.held t hs u) : h ∈ s.held u := by
  by_cases hut : u = t
  · rw [hut, update_self] at hh
    rw [hut, hheld]
    exact mem_cons_of_mem _ hh
  · rwa [update_of_ne hut] at hh

lemma Order.release_after (ho : s.Order) (ctx : Nat) (hheld : s.held t = h :: hs) :
    (s.release t ctx h hs).engine.hbGraph.Le h.acq (s.engine.hbGraph.nodes.length + 1) := by
  obtain ⟨hk, -⟩ := release_addsNode s t ctx h hs
  have hmem : h ∈ s.held t := by
    rw [hheld]
    exact mem_cons_self
  exact (((ho.held_last t h hmem).2.mono hk.mono).path (hk.own (ho.last_ne_zero hmem))).le

lemma mem_done_release :
    A ∈ (s.release t ctx h hs).done ↔
      A ∈ s.done ∨ A = ⟨t, h.write, h.acq, s.engine.hbGraph.nodes.length + 1⟩ := by
  rw [(release_addsNode s t ctx h hs).2.1, mem_append, mem_singleton]

section
variable (ho : s.Order)
include ho

lemma Order.done_le_release (h : Hold) (hs : List Hold) (hA : A ∈ (s.release t ctx h hs).done) :
    0 < A.rel ∧ A.rel ≤ (s.release t ctx h hs).engine.hbGraph.nodes.length := by
  have hlen := (release_addsNode s t ctx h hs).1.length
  rcases mem_done_release.1 hA with hA | rfl
  · have := ho.done_le A hA
    omega
  · exact ⟨Nat.succ_pos _, hlen.ge⟩

lemma Order.ordered_release (hbefore : ∀ A, A ∈ s.done → A.write = true ∨ h.write = true →
      A.rel < h.acq ∧ s.engine.hbGraph.Path A.rel h.acq) :
    (s.release t ctx h hs).done.Pairwise fun A B => A.write = true ∨ B.write = true →
      A.rel < B.acq ∧ (s.release t ctx h hs).engine.hbGraph.Path A.rel B.acq := by
  obtain ⟨hk, hdone, -⟩ := release_addsNode s t ctx h hs
  refine pairwise_append.2 ⟨ho.ordered_addsNode hk, pairwise_singleton _ _, ?_⟩
  intro A hA B hB hwr
  rw [mem_singleton.1 hB] at hwr ⊢
  obtain ⟨hlt, hpath⟩ := hbefore A hA hwr
  exact ⟨hlt, hpath.mono hk.mono⟩

lemma Order.releaseWrite (hex : s.Exclusive) (ctx : Nat)
    (hheld : s.held t = h :: hs) (hw : s.rw.writer = true) : (s.release t ctx h hs).Order := by
  obtain ⟨hk, -, hheld', hflag⟩ := release_addsNode s t ctx h hs
  obtain ⟨hlw, hg, hgroup⟩ := release_writer (t := t) ctx h hs hw
  have hlen := hk.length
  obtain ⟨hwrite, rfl, hothers⟩ := ho.alone hex hheld hw
  have hnone : ∀ v x, x ∉ (s.release t ctx h []).held v := by
    intro v x
    rw [hheld']
    by_cases hvt : v = t
    · rw [hvt, update_self]
      exact not_mem_nil
    · rw [update_of_ne hvt, hothers v hvt]
      exact not_mem_nil
  have hmem : h ∈ s.held t := by
    rw [hheld]
    exact mem_cons_self
  obtain ⟨hg0, hbefore⟩ := ho.open_write t h hmem hwrite
  have hall : ∀ A, A ∈ (s.release t ctx h []).done →
      (s.release t ctx h []).engine.hbGraph.Le A.rel (s.engine.hbGraph.nodes.length + 1) := by
    intro A hA
    rcases mem_done_release.1 hA with hA | rfl
    · exact ((hbefore A hA).2.le.mono hk.mono).trans (ho.release_after ctx hheld)
    · exact .refl _
  constructor
  case last_le => exact ho.last_addsNode hk
  case writer_le => omega
  case done_le => exact fun A hA => ho.done_le_release h [] hA
  case held_last => exact fun v x hx => absurd hx (hnone v x)
  case done_write =>
    intro A hA _
    rw [hlw]
    exact hall A hA
  case done_read =>
    intro A hA _
    rw [hlw]
    exact .inl (hall A hA)
  case group_some =>
    rw [hg]
    exact fun hne => absurd hg0 hne
  case group_after =>
    intro r hr
    rw [hg, hgroup, hg0, ho.group_other 0 (.inl rfl)] at hr
    cases hr
  case group_other =>
    rw [hg, hgroup]
    exact ho.group_other
  case open_write => exact fun v x hx => absurd hx (hnone v x)
  case open_read => exact fun v x hx => absurd hx (hnone v x)
  case writer_flag =>
    rw [hflag]
    constructor
    · nofun
    · rintro ⟨v, x, hx, -⟩
      exact absurd hx (hnone v x)
  case ordered => exact ho.ordered_release fun A hA _ => hbefore A hA

lemma Order.group_release (t ctx : Nat) (h : Hold) (hs : List Hold) (hw : s.rw.writer = false) :
    (s.release t ctx h hs).rw.lastReaderHbGroup ≠ 0 ∧
    (∀ r, r ∈ (s.release t ctx h hs).engine.hbGraph.groupMap
        (s.release t ctx h hs).rw.lastReaderHbGroup ↔
      r = s.engine.hbGraph.nodes.length + 1 ∨
        s.rw.lastReaderHbGroup ≠ 0 ∧ r ∈ s.engine.hbGraph.groupMap s.rw.lastReaderHbGroup) ∧
    ∀ i, i = 0 ∨ i ≠ (s.release t ctx h hs).rw.lastReaderHbGroup →
      (s.release t ctx h hs).engine.hbGraph.groupMap i = [] := by
  obtain ⟨-, hg, hother, hgroup⟩ := release_reader ctx h hs hw
  have hgne : (s.release t ctx h hs).rw.lastReaderHbGroup ≠ 0 := by
    rw [hg]
    split <;> omega
  refine ⟨hgne, fun r => ?_, fun i hi => ?_⟩
  · rw [hgroup, hg]
    split
    · rename_i h0
      rw [ho.group_other _ (.inr (by omega))]
      simp [h0]
    · rename_i h0
      simp [h0]
  · have hne : i ≠ (s.release t ctx h hs).rw.lastReaderHbGroup := by
      rcases hi with rfl | hi
      · exact Ne.symm hgne
      · exact hi
    rw [hother i hne]
    apply ho.group_other
    rw [hg] at hne
    split at hne <;> omega

lemma Order.releaseRead (ctx : Nat) (hheld : s.held t = h :: hs)
    (hw : s.rw.writer = false) : (s.release t ctx h hs).Order := by
  obtain ⟨hk, -, hheld', hflag⟩ := release_addsNode s t ctx h hs
  obtain ⟨hlw, -⟩ := release_reader (t := t) ctx h hs hw
  obtain ⟨hgne, hgroup, hother⟩ := ho.group_release t ctx h hs hw
  have hlen := hk.length
  have hmem : h ∈ s.held t := by
    rw [hheld]
    exact mem_cons_self
  have hread := ho.read_of_free hw hmem
  have hopen := ho.open_read t h hmem hread
  have hafter : s.rw.lastWriterHbNode = 0 ∨
      (s.release t ctx h hs).engine.hbGraph.Le s.rw.lastWriterHbNode
        (s.engine.hbGraph.nodes.length + 1) :=
    hopen.1.imp id fun hle => (hle.mono hk.mono).trans (ho.release_after ctx hheld)
  have hheld_old : ∀ v x, x ∈ (s.release t ctx h hs).held v → x ∈ s.held v := by
    intro v x hx
    exact mem_pop hheld hx
  have hdone_write : ∀ A, A ∈ (s.release t ctx h hs).done → A.write = true → A ∈ s.done := by
    intro A hA hAw
    rcases mem_done_release.1 hA with hA | rfl
    · exact hA
    · rw [hread] at hAw
      cases hAw
  constructor
  case last_le => exact ho.last_addsNode hk
  case writer_le =>
    have := ho.writer_le
    omega
  case done_le => exact fun A hA => ho.done_le_release h hs hA
  case held_last =>
    intro v x hx
    have hx := hheld_old v x hx
    exact ⟨(ho.held_last v x hx).1, ho.held_addsNode hk hx⟩
  case done_write =>
    intro A hA hAw
    rw [hlw]
    exact (ho.done_write A (hdone_write A hA hAw) hAw).mono hk.mono
  case done_read =>
    intro A hA _
    rw [hlw]
    rcases mem_done_release.1 hA with hA | rfl
    · refine (ho.done_read A hA hw).imp (fun hle => hle.mono hk.mono) fun hin => ?_
      exact ⟨hgne, (hgroup _).2 (.inr hin)⟩
    · exact .inr ⟨hgne, (hgroup _).2 (.inl rfl)⟩
  case group_some => exact fun _ => ne_nil_of_mem ((hgroup _).2 (.inl rfl))
  case group_after =>
    intro r hr
    rw [hlw]
    rcases (hgroup r).1 hr with rfl | ⟨-, hr⟩
    · exact ⟨Nat.succ_pos _, hlen.ge, hafter⟩
    · obtain ⟨h0, hle, hr'⟩ := ho.group_after r hr
      exact ⟨h0, by omega, hr'.imp id fun hle => hle.mono hk.mono⟩
  case group_other => exact hother
  case open_write =>
    intro v x hx hxw
    rw [ho.read_of_free hw (hheld_old v x hx)] at hxw
    cases hxw
  case open_read =>
    intro v x hx hxw
    obtain ⟨hle, hbefore⟩ := ho.open_read v x (hheld_old v x hx) hxw
    refine ⟨by rw [hlw]; exact hle.imp id fun hle => hle.mono hk.mono, fun A hA hAw => ?_⟩
    have hA := hdone_write A hA hAw
    exact ⟨(hbefore A hA hAw).1, (hbefore A hA hAw).2.mono hk.mono⟩
  case writer_flag =>
    rw [hflag]
    constructor
    · nofun
    · rintro ⟨v, x, hx, hxw⟩
      rw [ho.read_of_free hw (hheld_old v x hx)] at hxw
      cases hxw
  case ordered =>
    refine ho.ordered_release fun A hA hwr => hopen.2 A hA ?_
    rcases hwr with hAw | hBw
    · exact hAw
    · rw [hread] at hBw
      cases hBw

/-! ## Whole runs -/

lemma notify_order (h : notify n s pick = some s') : s'.Order := by
  obtain ⟨⟨rw, k⟩, hn, rfl⟩ := Option.map_eq_some_iff.1 h
  obtain ⟨h1, h2, h3, -, h5, h6⟩ := rwlockNotify_frame hn
  exact ho.congr h2 h1 h5 h6 h3 rfl rfl

lemma order_step (hex : s.Exclusive) (hex' : s'.Exclusive)
    (h : step n s (t, op) = some s') : s'.Order := by
  have hc := checked_order ho
  obtain ⟨-, -, ⟨ctx, try_, rfl, -, rfl⟩ | ⟨ctx, try_, rfl, -, rfl⟩ |
    ⟨ctx, pick, rfl, -, hun⟩ | ⟨rest, rfl, -, rfl⟩⟩ := step_cases h
  · rcases rdlock_cases s t ctx try_ with ⟨-, heq | heq⟩ | ⟨-, -, ⟨-, heq⟩ | ⟨-, heq⟩⟩ <;>
      rw [heq] at hex' ⊢
    · exact { hc with }
    · exact { hc with }
    · exact { hc with }
    · exact hc.enterRead ctx hex'
  · rcases wrlock_cases s t ctx try_ with ⟨-, heq | ⟨-, heq⟩⟩ | ⟨-, -, heq⟩ <;> rw [heq] at hex' ⊢
    · exact { hc with }
    · exact { hc with }
    · exact hc.enterWrite ctx hex'
  · obtain ⟨hd, hs, hheld, ⟨-, -, rfl⟩ | ⟨-, hn⟩⟩ := unlock_cases hun
    · exact { ho with }
    · cases hw : s.rw.writer with
      | true => exact notify_order (ho.releaseWrite hex ctx hheld hw) hn
      | false => exact notify_order (ho.releaseRead ctx hheld hw) hn
  · have hwake : (s.checked.wake t).Order := { hc with }
    cases rest with
    | rdlock c =>
      rcases resume_rdlock s t c with ⟨-, heq⟩ | ⟨-, heq⟩ <;> rw [heq] at hex' ⊢
      · exact { hwake with }
      · exact hwake.enterRead c hex'
    | wrlock c =>
      rw [resume_wrlock] at hex' ⊢
      exact hwake.enterWrite c hex'

end

/-- In every run that keeps exclusion, of two finished sections of which one writes the
unlock node of the one that ended first lies before the acquire node of the other. -/
theorem sections_ordered (n : Nat) (static : Bool) (s : RwSys)
    (hrun : Machine.ReachesBy (step n) (fun s _ => s.Exclusive) (initial static) s)
    (hex : s.Exclusive) :
    s.done.Pairwise fun A B => A.write = true ∨ B.write = true →
      A.rel < B.acq ∧ s.engine.hbGraph.Path A.rel B.acq := by
  obtain ⟨ls, hls, hmeets⟩ := hrun
  have hinv : s.Exclusive → s.Order :=
    Machine.inv_of_meets (step n) (I := fun s => s.Exclusive → s.Order)
      (fun s l s' ho hs h hs' => order_step (ho hs) hs hs' h) (fun _ => order_initial static)
      hmeets hls
  exact (hinv hex).ordered

/-- A run without overtaking keeps exclusion in every state before a step. -/
lemma meets_exclusive (static : Bool)
    (hls : Machine.Meets (step n) (NoOvertaking n) (initial static) ls) :
    Machine.Meets (step n) (fun s _ => s.Exclusive) (initial static) ls :=
  Machine.meets_of_inv (step n) (fun _ _ _ hi hg h => inv_step hi hg h)
    (fun _ _ hi => hi.exclusive) (inv_initial static) hls

/-- A writer, two readers that overlap, and a writer. -/
theorem sections_ordered_readers :
    ∃ s, Machine.ReachesBy (step 3) (fun s _ => s.Exclusive) (initial true) s ∧
      s.done = [⟨0, true, 1, 2⟩, ⟨1, false, 3, 5⟩, ⟨2, false, 4, 6⟩, ⟨0, true, 7, 8⟩] ∧
      s.done.Pairwise fun A B => A.write = true ∨ B.write = true →
        A.rel < B.acq ∧ s.engine.hbGraph.Path A.rel B.acq := by
  have hreach : ∃ s ls, Machine.runFrom (step 3) (initial true) ls = some s ∧
      Machine.Meets (step 3) (NoOvertaking 3) (initial true) ls ∧
      s.done = [⟨0, true, 1, 2⟩, ⟨1, false, 3, 5⟩, ⟨2, false, 4, 6⟩, ⟨0, true, 7, 8⟩] :=
    ⟨_, [(0, .wrlock 1 false), (0, .unlock 2 none), (1, .rdlock 3 false), (2, .rdlock 4 false),
      (1, .unlock 5 none), (2, .unlock 6 none), (0, .wrlock 7 true), (0, .unlock 8 none)], rfl,
      by decide, rfl⟩
  obtain ⟨s, ls, hls, hmeets, hdone⟩ := hreach
  have hr : Machine.ReachesBy (step 3) (fun s _ => s.Exclusive) (initial true) s :=
    ⟨ls, hls, meets_exclusive true hmeets⟩
  have hinv : Inv 3 s :=
    Machine.inv_of_meets (step 3) (fun _ _ _ hi hg h => inv_step hi hg h) (inv_initial true) hmeets
      hls
  exact ⟨s, hr, hdone, sections_ordered 3 true s hr hinv.exclusive⟩

end RwSys

end InputCovSched
