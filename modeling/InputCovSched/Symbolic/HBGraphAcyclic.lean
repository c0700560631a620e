import InputCovSched.Symbolic.HBGraphOps
import InputCovSched.Lib.Acyclic

/-!
# Cycles in the recorded graph

A node that is created for an edge has no successor yet, but there are three ways to a cycle:

    an ignorable caller creates no node: the edges of a notify go from and to the last node
    that the sleeping thread already has  (notify_cycle)
    a sink that was recorded before the sleeping thread's last node
    an edge into a newest node that has successors

`noCycle_iff_safe` says exactly when a run avoids them.
-/

namespace InputCovSched

open HBRecorder.Keeps

open HBGraph

open Function List Option

/-! ## The system -/

namespace HBGraph

def isNewest (g : HBGraph) (id : Nat) : Bool :=
  (g.getNode? id).any fun n => n.threadOrder == g.threadOrders n.tuid

def NoCycle (g : HBGraph) : Prop := Acyclic.NoCycle g.Edge

end HBGraph

/-- `asleep` has the calling context at which a thread sleeps. -/
structure NotifySys where
  recorder : HBRecorder
  asleep : Nat → Option CallCtx

inductive NotifyOp where
  | addNodeForInput (t : Nat) (ctx : CallCtx) (inputObj : Nat)
  | addNodeForThread (t : Nat) (ctx : CallCtx)
  | addNodeForNewThread (t : Nat) (ctx : CallCtx) (creator : Option (Nat × CallCtx))
  | sleep (t : Nat) (ctx : CallCtx)
  /-- Thread `u` notifies `t`; `source` and `sink` say whether `u`'s last node is one. -/
  | notify (u t : Nat) (source sink : Bool)
  | addNodeToGroup (node group : Nat)
  | removeGroup (group : Nat)
  | addEdgesFromGroup (groupFrom nodeTo : Nat)
  | addEdgesToGroup (nodeFrom groupTo : Nat)
  | addConservativeEdge (dst : Nat)

namespace NotifySys

def init : NotifySys := ⟨.init, fun _ => none⟩

section
variable (s : NotifySys)

def awake (t : Nat) : Bool := (s.asleep t).isNone

def graph : HBGraph := s.recorder.graph

def setGraph (g : HBGraph) : NotifySys :=
  { s with recorder := s.recorder.setGraph g }

/-- The last node of the notifying thread, or 0. -/
def lastIf (u : Nat) (used : Bool) : Nat :=
  if used then s.recorder.lastHbNode u else 0

def step : NotifyOp → Option NotifySys
  | .addNodeForInput t ctx inputObj =>
    if s.awake t then some { s with recorder := (s.recorder.addNodeForInput t ctx inputObj).2 }
    else none
  | .addNodeForThread t ctx =>
    if s.awake t then some { s with recorder := (s.recorder.addNodeForThread t ctx).2 } else none
  | .addNodeForNewThread t ctx creator =>
    if s.awake t ∧ creator.all (fun c => s.awake c.1) then
      some { s with recorder := (s.recorder.addNodeForNewThread t ctx creator).2 }
    else none
  | .sleep t ctx =>
    if s.awake t then some { s with asleep := update s.asleep t (some ctx) } else none
  | .notify u t source sink =>
    if s.awake u then
      (s.asleep t).bind fun ctx =>
        (s.recorder.addSourceSinkEdges t ctx (s.lastIf u source) (s.lastIf u sink)).map fun r =>
          ⟨r, update s.asleep t none⟩
    else none
  | .addNodeToGroup node group =>
    if node ≤ s.graph.getMaxNodeId then some (s.setGraph (s.graph.addNodeToGroup node group))
    else none
  | .removeGroup group => some (s.setGraph (s.graph.removeGroup group))
  | .addEdgesFromGroup groupFrom nodeTo =>
    if s.graph.isNewest nodeTo then
      (s.graph.addEdgesFromGroup? groupFrom nodeTo).map s.setGraph
    else none
  | .addEdgesToGroup nodeFrom groupTo =>
    if nodeFrom ≤ s.graph.getMaxNodeId ∧ (s.graph.groupMap groupTo).all s.graph.isNewest then
      (s.graph.addEdgesToGroup? nodeFrom groupTo).map s.setGraph
    else none
  | .addConservativeEdge dst =>
    if s.graph.isNewest dst then (s.graph.addConservativeEdge? dst).map s.setGraph else none

end

end NotifySys

/-- When a notify closes no cycle: `node` is the last node of the notifying thread, `last`
that of the sleeping one, which records new nodes unless its caller is ignorable. -/
def NotifyOk (g : HBGraph) (node last : Nat) : (ignorable source sink : Bool) → Prop
  | _, false, false => True
  | false, true, false => True
  | false, _, true => node = 0 ∨ ¬ g.Le node last
  | true, true, false => ¬ g.Path last node
  | true, false, true => ¬ g.Path node last
  | true, true, true => node = 0 ∨ last = 0 ∨ last = node

/-- No new edge leads back along a recorded path. -/
def NotifySys.Safe (s : NotifySys) : NotifyOp → Prop
  | .notify u t source sink => ∀ ctx ∈ s.asleep t,
    NotifyOk s.graph (s.recorder.lastHbNode u) (s.recorder.lastHbNode t) ctx.ignorable source sink
  | .addEdgesFromGroup groupFrom nodeTo =>
    ∀ a ∈ s.graph.groupMap groupFrom, ¬ s.graph.Path nodeTo a
  | .addEdgesToGroup nodeFrom groupTo =>
    ∀ b ∈ s.graph.groupMap groupTo, ¬ s.graph.Path b nodeFrom
  | .addConservativeEdge dst => ∀ n ∈ s.graph.getNode? dst,
    ∀ a ∈ s.graph.conservativeSources s.graph.getMaxNodeId [n.tuid], ¬ s.graph.Path dst a
  | _ => True

/-! ## One edge, one node -/

namespace HBGraph

variable {g g' : HBGraph} {a b t d : Nat} {c : CallCtx}

/-- Edges begin at nodes. -/
def Ranged (g : HBGraph) : Prop := ∀ a b, g.Edge a b → 0 < a ∧ a ≤ g.getMaxNodeId

lemma invariant_ranged : Invariant Ranged where
  empty := fun a b h => by
    obtain ⟨n, hn, -⟩ := h
    simp [getNode?, empty] at hn
  addNode := fun {g} t c i {l} h hl a b he => by
    have hmax := (addNode_le_max (t := t) (c := c) (i := i) hl).2
    cases hc : c.ignorable with
    | true =>
      simp only [addNode, hc, if_true] at he ⊢
      exact h a b he
    | false =>
      rcases (addNode_edge hc).1 he with he | ⟨rfl, hne, -⟩
      · obtain ⟨h0, hle⟩ := h a b he
        exact ⟨h0, hle.trans hmax⟩
      · exact ⟨Nat.pos_of_ne_zero hne, hl.trans hmax⟩
  addEdge := fun {g src} dst h hs a b he => by
    rw [addEdge_max]
    rcases addEdge_edge.1 he with he | ⟨rfl, -, hne, -⟩
    · exact h a b he
    · exact ⟨Nat.pos_of_ne_zero hne, hs⟩
  regroup := fun _ h => h

lemma Path.src (h : g.Path a b) : ∃ c, g.Edge a c := by
  obtain ⟨c, hc, -⟩ := Relation.TransGen.head'_iff.1 h
  exact ⟨c, hc⟩

lemma Path.dst (h : g.Path a b) : 0 < b := by
  obtain ⟨c, -, n, hn, -⟩ := Relation.TransGen.tail'_iff.1 h
  exact (getNode?_le hn).1

lemma Ranged.path (hr : g.Ranged) (h : g.Path a b) : 0 < a ∧ a ≤ g.getMaxNodeId := by
  obtain ⟨c, hc⟩ := h.src
  exact hr a c hc

lemma le_iff_path (hne : a ≠ b) : g.Le a b ↔ g.Path a b := by
  constructor
  · intro h
    rcases Relation.reflTransGen_iff_eq_or_transGen.1 h with h | h
    · exact absurd h.symm hne
    · exact h
  · exact Path.le

lemma Ranged.noCycle_into {l : List Nat} (hr : g.Ranged) (h : ∀ x y, g'.Edge x y ↔
      g.Edge x y ∨ (x ∈ l ∧ y = d ∧ x ≠ 0 ∧ x ≠ d ∧ 0 < d ∧ d ≤ g.getMaxNodeId)) :
    g'.NoCycle ↔ g.NoCycle ∧ ∀ x ∈ l, ¬ g.Path d x := by
  have hS : ∀ x y, g'.Edge x y ↔
      g.Edge x y ∨ ((x ∈ l ∧ x ≠ 0 ∧ x ≠ d ∧ 0 < d ∧ d ≤ g.getMaxNodeId) ∧ y = d) := by
    intro x y
    rw [h x y]
    exact or_congr Iff.rfl ⟨fun ⟨hx, hy, hd⟩ => ⟨⟨hx, hd⟩, hy⟩, fun ⟨⟨hx, hd⟩, hy⟩ => ⟨hx, hy, hd⟩⟩
  unfold NoCycle
  rw [Acyclic.noCycle_into hS]
  refine and_congr_right fun hno => ⟨fun hall x hx hp => ?_, fun hall x hx hp => ?_⟩
  · have hd := hr.path hp
    have hx0 := hp.dst
    have hne : x ≠ d := by
      rintro rfl
      exact hno x hp
    exact hall x ⟨hx, by omega, hne, hd⟩ hp.le
  · exact hall x hx.1 ((le_iff_path hx.2.2.1.symm).1 hp)

lemma Ranged.noCycle_outOf {l : List Nat} (hr : g.Ranged) (h : ∀ x y, g'.Edge x y ↔
      g.Edge x y ∨ (x = d ∧ y ∈ l ∧ d ≠ 0 ∧ d ≠ y ∧ 0 < y ∧ y ≤ g.getMaxNodeId)) :
    g'.NoCycle ↔ g.NoCycle ∧ ∀ y ∈ l, ¬ g.Path y d := by
  unfold NoCycle
  rw [Acyclic.noCycle_outOf h]
  refine and_congr_right fun hno => ⟨fun hall y hy hp => ?_, fun hall y hy hp => ?_⟩
  · have hy' := hr.path hp
    have hd0 := hp.dst
    have hne : d ≠ y := by
      rintro rfl
      exact hno d hp
    exact hall y ⟨hy, by omega, hne, hy'⟩ hp.le
  · exact hall y hy.1 ((le_iff_path hy.2.2.1.symm).1 hp)

lemma addEdge?_noCycle (hr : g.Ranged) (h : g.addEdge? a b = some g') :
    g'.NoCycle ↔ g.NoCycle ∧ ¬ g.Path b a := by
  have hinto : (g.addEdge a b).NoCycle ↔ g.NoCycle ∧ ∀ x ∈ [a], ¬ g.Path b x := by
    refine hr.noCycle_into fun x y => ?_
    rw [addEdge_edge, mem_singleton]
    refine or_congr Iff.rfl ⟨?_, ?_⟩
    · rintro ⟨rfl, rfl, h⟩
      exact ⟨rfl, rfl, h⟩
    · rintro ⟨rfl, rfl, h⟩
      exact ⟨rfl, rfl, h⟩
  rw [addEdge?_eq h, hinto]
  simp

lemma foldl_addEdge_outOf {l : List Nat} {src : Nat} :
    (l.foldl (fun g n => g.addEdge src n) g).Edge a b ↔
      g.Edge a b ∨ (a = src ∧ b ∈ l ∧ src ≠ 0 ∧ src ≠ b ∧ 0 < b ∧ b ≤ g.getMaxNodeId) := by
  induction l generalizing g with
  | nil => simp
  | cons n l ih =>
    rw [foldl_cons, ih, addEdge_edge, addEdge_max, mem_cons]
    constructor
    · rintro ((h | ⟨rfl, rfl, h⟩) | ⟨h, h', h''⟩)
      · exact .inl h
      · exact .inr ⟨rfl, .inl rfl, h⟩
      · exact .inr ⟨h, .inr h', h''⟩
    · rintro (h | ⟨rfl, rfl | h, h'⟩)
      · exact .inl (.inl h)
      · exact .inl (.inr ⟨rfl, rfl, h'⟩)
      · exact .inr ⟨rfl, h, h'⟩

lemma addConservativeEdge?_edge {dst : Nat} (h : g.addConservativeEdge? dst = some g') :
    (g'.Edge a b ↔ g.Edge a b ∨ ∃ n, g.getNode? dst = some n ∧ b = dst ∧
      a ∈ g.conservativeSources g.getMaxNodeId [n.tuid]) := by
  simp only [Edge, addConservativeEdge?_getNode? h]
  constructor
  · rintro ⟨_, ⟨m, hm, rfl⟩, ha⟩
    split at ha
    · rename_i hb
      subst hb
      rcases mem_append.1 ha with ha | ha
      · exact .inl ⟨m, hm, ha⟩
      · exact .inr ⟨m, hm, rfl, ha⟩
    · exact .inl ⟨m, hm, ha⟩
  · rintro (⟨m, hm, ha⟩ | ⟨m, hm, rfl, ha⟩)
    · refine ⟨_, ⟨m, hm, rfl⟩, ?_⟩
      split
      · exact mem_append_left _ ha
      · exact ha
    · refine ⟨_, ⟨m, hm, rfl⟩, ?_⟩
      rw [if_pos rfl]
      exact mem_append_right _ ha

section
variable (hc : c.ignorable = false) (hr : g.Ranged)
include hc hr

lemma addNode_noCycle (hl : l ≤ g.getMaxNodeId) : (g.addNode t c i l).2.NoCycle ↔ g.NoCycle := by
  have hS : ∀ x y, (g.addNode t c i l).2.Edge x y ↔
      g.Edge x y ∨ ((x = l ∧ l ≠ 0) ∧ y = g.nodes.length + 1) := by
    intro x y
    rw [addNode_edge hc, and_assoc]
  unfold NoCycle
  rw [Acyclic.noCycle_into hS]
  refine and_iff_left ?_
  rintro x ⟨rfl, -⟩ hle
  have hlt : x ≤ g.nodes.length := hl
  have := (hr.path ((le_iff_path (by omega)).1 hle)).2
  unfold getMaxNodeId at this
  omega

lemma addNode_path (hb : b ≤ g.getMaxNodeId) : (g.addNode t c i l).2.Path a b ↔ g.Path a b := by
  have hold : ∀ x y, y ≤ g.getMaxNodeId → (g.addNode t c i l).2.Edge x y → g.Edge x y := by
    intro x y hy he
    rcases (addNode_edge hc).1 he with he | ⟨-, -, rfl⟩
    · exact he
    · unfold getMaxNodeId at hy
      omega
  constructor
  · intro h
    induction h with
    | single he => exact .single (hold _ _ hb he)
    | tail _ he ih =>
      have he' := hold _ _ hb he
      exact .tail (ih (hr _ _ he').2) he'
  · exact .mono fun x y he => (addNode_edge hc).2 (.inl he)

lemma addNode_path_new (hl : l ≤ g.getMaxNodeId) (ha : 0 < a) :
    (g.addNode t c i l).2.Path a (g.nodes.length + 1) ↔ g.Le a l := by
  have hle : (g.addNode t c i l).2.Le a l ↔ g.Le a l := by
    by_cases hal : a = l
    · rw [hal]
      exact iff_of_true (.refl l) (.refl l)
    · rw [le_iff_path hal, le_iff_path hal, addNode_path hc hr hl]
  constructor
  · intro h
    obtain ⟨x, hx, he⟩ := Relation.TransGen.tail'_iff.1 h
    rcases (addNode_edge hc).1 he with he | ⟨rfl, -, -⟩
    · have := he.dst_le
      omega
    · exact hle.1 hx
  · intro h
    exact (hle.2 h).path ((addNode_edge hc).2 (.inr ⟨rfl, h.ne_zero ha, rfl⟩))

lemma addNode_no_succ (hl : l ≤ g.getMaxNodeId) :
    ¬ (g.addNode t c i l).2.Edge (g.nodes.length + 1) b := by
  intro h
  rcases (addNode_edge hc).1 h with h | ⟨h, -, -⟩
  · have := (hr _ _ h).2
    unfold getMaxNodeId at this
    omega
  · unfold getMaxNodeId at hl
    omega

end

end HBGraph

/-! ## Notifies -/

namespace HBRecorder

variable {s s' : HBRecorder} {node : Nat}

lemma addNodeForThread_ignorable (hc : ctx.ignorable = true) :
    s.addNodeForThread t ctx = (s.lastHbNode t, s) := by
  simp [addNodeForThread, addNode, HBGraph.addNode, hc]

lemma addNode_noCycle {l : Nat} {i : Option Nat} (hk : s.Keeps HBGraph.Ranged)
    (hl : l ≤ s.graph.getMaxNodeId) :
    (s.addNode t ctx i l).2.graph.NoCycle ↔ s.graph.NoCycle := by
  cases hc : ctx.ignorable with
  | true =>
    simp only [addNode, HBGraph.addNode, hc, if_true]
  | false => exact HBGraph.addNode_noCycle hc hk.graph hl

lemma addEdge?_noCycle {a b : Nat} {g : HBGraph} (hk : s.Keeps HBGraph.Ranged)
    (hg : (s.addNodeForThread t ctx).2.graph.addEdge? a b = some g) :
    g.NoCycle ↔ s.graph.NoCycle ∧ ¬ (s.addNodeForThread t ctx).2.graph.Path b a := by
  have hk₁ := hk.addNodeForThread HBGraph.invariant_ranged t ctx
  exact (HBGraph.addEdge?_noCycle hk₁.graph hg).trans
    (and_congr (addNode_noCycle hk (hk.last t)) Iff.rfl)

section
variable (hk : s.Keeps HBGraph.Ranged) (hn : node ≠ 0)
include hk hn

lemma source_noCycle (h : s.addSourceSinkEdges t ctx node 0 = some s') :
    s'.graph.NoCycle ↔ s.graph.NoCycle ∧
      NotifyOk s.graph node (s.lastHbNode t) ctx.ignorable true false := by
  simp only [addSourceSinkEdges, hn, false_and, if_false, if_true] at h
  obtain ⟨g, hg, rfl⟩ := map_eq_some_iff.1 h
  refine (addEdge?_noCycle hk hg).trans (and_congr_right fun _ => ?_)
  cases hc : ctx.ignorable with
  | true =>
    rw [addNodeForThread_ignorable hc]
    exact Iff.rfl
  | false =>
    have hid : (s.addNodeForThread t ctx).1 = s.graph.nodes.length + 1 := addNode_id hc
    rw [hid]
    refine iff_of_true (fun hp => ?_) trivial
    obtain ⟨x, hx⟩ := hp.src
    exact addNode_no_succ hc hk.graph (hk.last t) hx

lemma sink_noCycle (h : s.addSourceSinkEdges t ctx 0 node = some s') :
    s'.graph.NoCycle ↔ s.graph.NoCycle ∧
      NotifyOk s.graph node (s.lastHbNode t) ctx.ignorable false true := by
  simp only [addSourceSinkEdges, hn, and_false, if_false, if_true] at h
  obtain ⟨g, hg, rfl⟩ := map_eq_some_iff.1 h
  refine (addEdge?_noCycle hk hg).trans (and_congr_right fun _ => ?_)
  cases hc : ctx.ignorable with
  | true =>
    rw [addNodeForThread_ignorable hc]
    exact Iff.rfl
  | false =>
    have hid : (s.addNodeForThread t ctx).1 = s.graph.nodes.length + 1 := addNode_id hc
    have hnew := addNode_path_new (t := t) (i := none) hc hk.graph (hk.last t)
      (Nat.pos_of_ne_zero hn)
    rw [hid]
    exact (not_congr hnew).trans (or_iff_right hn).symm

lemma around_noCycle (h : s.addSourceSinkEdges t ctx node node = some s') :
    s'.graph.NoCycle ↔ s.graph.NoCycle ∧
      NotifyOk s.graph node (s.lastHbNode t) ctx.ignorable true true := by
  simp only [addSourceSinkEdges, hn, and_false, if_false, if_true] at h
  obtain ⟨g, hg, rfl⟩ := map_eq_some_iff.1 h
  obtain ⟨g₁, hg₁, hg₂⟩ := bind_eq_some_iff.1 hg
  cases hc : ctx.ignorable with
  | true =>
    simp only [addNodeForThread_ignorable hc] at hg₁ hg₂
    have hr₁ : g₁.Ranged := by
      rw [HBGraph.addEdge?_eq hg₁]
      exact HBGraph.invariant_ranged.addEdge node hk.graph (hk.last t)
    refine (HBGraph.addEdge?_noCycle hr₁ hg₂).trans ?_
    rw [HBGraph.addEdge?_noCycle hk.graph hg₁, and_assoc]
    refine and_congr_right fun hno => ?_
    -- the two edges are a cycle unless both are skipped
    change _ ↔ node = 0 ∨ s.lastHbNode t = 0 ∨ s.lastHbNode t = node
    constructor
    · rintro ⟨-, hp⟩
      by_contra hne
      simp only [not_or] at hne
      obtain ⟨-, hl0, hln⟩ := hne
      have hle : node ≤ s.graph.nodes.length := by
        unfold HBGraph.addEdge? HBGraph.getMaxNodeId at hg₁
        by_contra hlt
        rw [if_neg (by omega)] at hg₁
        cases hg₁
      refine hp (.single ?_)
      rw [HBGraph.addEdge?_eq hg₁, HBGraph.addEdge_edge]
      exact .inr ⟨rfl, rfl, hl0, hln, Nat.pos_of_ne_zero hn, hle⟩
    · intro hskip
      have hskip' : s.lastHbNode t = 0 ∨ node = 0 ∨ s.lastHbNode t = node := by omega
      rw [HBGraph.addEdge?_eq hg₁, HBGraph.addEdge, if_pos hskip']
      rcases hskip with h0 | h0 | h0
      · exact absurd h0 hn
      · exact ⟨fun hp => by have := hp.dst; omega, fun hp => by have := hk.graph.path hp; omega⟩
      · rw [h0]
        exact ⟨hno node, hno node⟩
  | false =>
    have hk₁ := hk.addNodeForThread HBGraph.invariant_ranged t ctx
    have hk₂ := hk₁.addNodeForThread HBGraph.invariant_ranged t ctx
    have hid₁ : (s.addNodeForThread t ctx).1 = s.graph.nodes.length + 1 := HBGraph.addNode_id hc
    have hid₂ : ((s.addNodeForThread t ctx).2.addNodeForThread t ctx).1 =
        (s.addNodeForThread t ctx).2.graph.nodes.length + 1 := HBGraph.addNode_id hc
    have hlen : (s.addNodeForThread t ctx).2.graph.nodes.length = s.graph.nodes.length + 1 := by
      simp [addNodeForThread, addNode, HBGraph.addNode_nodes hc]
    rw [hid₁] at hg₁
    rw [hid₂] at hg₂
    have hr₁ : g₁.Ranged := by
      rw [HBGraph.addEdge?_eq hg₁]
      refine HBGraph.invariant_ranged.addEdge node hk₂.graph ?_
      rw [← hlen]
      exact (hk₁.addNodeForThread_le t ctx).2
    have hlast : ¬ g₁.Path ((s.addNodeForThread t ctx).2.graph.nodes.length + 1) node := by
      intro hp
      obtain ⟨x, hx⟩ := hp.src
      rw [HBGraph.addEdge?_eq hg₁, HBGraph.addEdge_edge] at hx
      rcases hx with hx | ⟨hx, -⟩
      · exact HBGraph.addNode_no_succ hc hk₁.graph (hk₁.last t) hx
      · omega
    have hfirst : ((s.addNodeForThread t ctx).2.addNodeForThread t ctx).2.graph.Path node
        (s.graph.nodes.length + 1) ↔ s.graph.Le node (s.lastHbNode t) := by
      refine (HBGraph.addNode_path hc hk₁.graph hlen.ge).trans ?_
      exact HBGraph.addNode_path_new hc hk.graph (hk.last t) (Nat.pos_of_ne_zero hn)
    have hno₂ : ((s.addNodeForThread t ctx).2.addNodeForThread t ctx).2.graph.NoCycle ↔
        s.graph.NoCycle :=
      (HBGraph.addNode_noCycle hc hk₁.graph (hk₁.last t)).trans
        (HBGraph.addNode_noCycle hc hk.graph (hk.last t))
    calc g.NoCycle ↔ g₁.NoCycle := (HBGraph.addEdge?_noCycle hr₁ hg₂).trans (and_iff_left hlast)
      _ ↔ s.graph.NoCycle ∧ ¬ s.graph.Le node (s.lastHbNode t) := by
          rw [HBGraph.addEdge?_noCycle hk₂.graph hg₁, hno₂, hfirst]
      _ ↔ _ := and_congr_right fun _ => (or_iff_right hn).symm

end

lemma addSourceSinkEdges_last {u source sink : Nat}
    (h : s.addSourceSinkEdges t ctx source sink = some s') (hu : u ≠ t) :
    s'.lastHbNode u = s.lastHbNode u := by
  unfold addSourceSinkEdges at h
  split_ifs at h
  · cases h
    rfl
  all_goals
    obtain ⟨g, -, rfl⟩ := map_eq_some_iff.1 h
    simp [setGraph, hu]

lemma addSourceSinkEdgesAll_eq (ts : List (Nat × CallCtx)) (source sink : Nat) :
    s.addSourceSinkEdgesAll ts source sink =
      ts.foldlM (fun s p => s.addSourceSinkEdges p.1 p.2 source sink) s := by
  unfold addSourceSinkEdgesAll
  split
  · rename_i h0
    induction ts with
    | nil => rfl
    | cons p ts ih =>
      rw [foldlM_cons, addSourceSinkEdges, if_pos h0]
      exact ih
  · rfl

lemma notify_noCycle {source sink : Bool} (hk : s.Keeps HBGraph.Ranged)
    (h : s.addSourceSinkEdges t ctx (if source then node else 0) (if sink then node else 0) =
      some s') :
    s'.graph.NoCycle ↔ s.graph.NoCycle ∧
      NotifyOk s.graph node (s.lastHbNode t) ctx.ignorable source sink := by
  by_cases hn : node = 0
  · subst hn
    simp only [ite_self, addSourceSinkEdges, and_self, if_true] at h
    cases h
    refine (and_iff_left ?_).symm
    have hto : ¬ s.graph.Path (s.lastHbNode t) 0 := fun hp => lt_irrefl 0 hp.dst
    have hfrom : ¬ s.graph.Path 0 (s.lastHbNode t) := fun hp =>
      lt_irrefl 0 (hk.graph.path hp).1
    cases ctx.ignorable <;> cases source <;> cases sink <;> simp [NotifyOk, hto, hfrom]
  cases source with
  | false =>
    cases sink with
    | false =>
      cases h
      cases ctx.ignorable <;> exact (and_iff_left trivial).symm
    | true => exact sink_noCycle hk hn h
  | true =>
    cases sink with
    | false => exact source_noCycle hk hn h
    | true => exact around_noCycle hk hn h

end HBRecorder

/-! ## Runs -/

namespace NotifySys

variable {s : NotifySys} {op : NotifyOp}

def Ok (s : NotifySys) : Prop := s.recorder.Keeps HBGraph.Ranged

lemma lastIf_le (h : s.Ok) (u : Nat) (used : Bool) : s.lastIf u used ≤ s.graph.getMaxNodeId := by
  unfold lastIf
  split
  · exact h.last u
  · exact Nat.zero_le _

lemma Ok.addConservativeEdge {dst : Nat} {g : HBGraph} (h : s.Ok)
    (hnew : s.graph.isNewest dst = true) (hg : s.graph.addConservativeEdge? dst = some g) :
    (s.setGraph g).Ok ∧ (g.NoCycle ↔ s.graph.NoCycle ∧ s.Safe (.addConservativeEdge dst)) := by
  constructor
  · obtain ⟨hmax, hgrp⟩ := addConservativeEdge?_max hg
    refine .setGraph h (fun a b he => ?_) hmax hgrp
    rw [hmax]
    rcases (addConservativeEdge?_edge hg).1 he with he | ⟨n, -, -, ha⟩
    · exact h.graph a b he
    · obtain ⟨h0, hle, -⟩ := mem_conservativeSources ha
      exact ⟨h0, hle⟩
  · obtain ⟨n, hn, -⟩ := (any_eq_true _ _).1 hnew
    have hle := getNode?_le hn
    have hinto : g.NoCycle ↔ s.graph.NoCycle ∧
        ∀ x ∈ s.graph.conservativeSources s.graph.getMaxNodeId [n.tuid], ¬ s.graph.Path dst x := by
      refine h.graph.noCycle_into fun x y => ?_
      rw [addConservativeEdge?_edge hg]
      refine or_congr Iff.rfl ⟨?_, ?_⟩
      · rintro ⟨m, hm, rfl, hx⟩
        rw [hn] at hm
        cases hm
        obtain ⟨hx0, -, k, hk, hkt⟩ := mem_conservativeSources hx
        refine ⟨hx, rfl, by omega, ?_, hle⟩
        rintro rfl
        rw [hn] at hk
        cases hk
        exact hkt (mem_singleton.2 rfl)
      · rintro ⟨hx, rfl, -⟩
        exact ⟨n, hn, rfl, hx⟩
    refine hinto.trans (and_congr_right fun _ => ⟨fun hall m hm => ?_, fun hall => hall n hn⟩)
    rw [mem_def, hn] at hm
    cases hm
    exact hall

lemma Ok.step (h : s.Ok) (hstep : s.step op = some s') :
    s'.Ok ∧ (s'.graph.NoCycle ↔ s.graph.NoCycle ∧ s.Safe op) := by
  have hP := invariant_ranged
  cases op <;> simp only [NotifySys.step, ite_none_right_eq_some, Option.some.injEq,
    bind_eq_some_iff, map_eq_some_iff] at hstep
  case addNodeForInput t ctx inputObj =>
    obtain ⟨-, rfl⟩ := hstep
    exact ⟨addNode hP t ctx (some inputObj) h (h.last t),
      (HBRecorder.addNode_noCycle h (h.last t)).trans (and_iff_left trivial).symm⟩
  case addNodeForThread t ctx =>
    obtain ⟨-, rfl⟩ := hstep
    exact ⟨addNodeForThread hP t ctx h,
      (HBRecorder.addNode_noCycle h (h.last t)).trans (and_iff_left trivial).symm⟩
  case addNodeForNewThread t ctx creator =>
    obtain ⟨-, rfl⟩ := hstep
    refine ⟨addNodeForNewThread hP t ctx creator h, Iff.trans ?_ (and_iff_left trivial).symm⟩
    cases creator with
    | none => exact HBRecorder.addNode_noCycle h (Nat.zero_le _)
    | some p =>
      have h₁ := addNode hP p.1 p.2 none h (h.last p.1)
      exact (HBRecorder.addNode_noCycle h₁ (h₁.last p.1)).trans
        (HBRecorder.addNode_noCycle h (h.last p.1))
  case sleep t ctx =>
    obtain ⟨-, rfl⟩ := hstep
    exact ⟨h, (and_iff_left trivial).symm⟩
  case notify u t source sink =>
    obtain ⟨-, ctx, hctx, r, hr, rfl⟩ := hstep
    refine ⟨(addSourceSinkEdges hP h (lastIf_le h u source) hr).1,
      (HBRecorder.notify_noCycle h hr).trans (and_congr_right fun _ => ?_)⟩
    constructor
    · intro hok ctx' hctx'
      rw [mem_def, hctx] at hctx'
      cases hctx'
      exact hok
    · exact fun hok => hok ctx hctx
  case addNodeToGroup node group =>
    obtain ⟨hn, rfl⟩ := hstep
    exact ⟨addNodeToGroup hP group h hn, (and_iff_left trivial).symm⟩
  case removeGroup group =>
    subst hstep
    exact ⟨removeGroup hP group h, (and_iff_left trivial).symm⟩
  case addEdgesFromGroup groupFrom nodeTo =>
    obtain ⟨-, g, hg, rfl⟩ := hstep
    have hg' := foldlM_addEdge?_eq hg
    refine ⟨foldlM hP (fun n => n) (fun _ => nodeTo) h (h.groups groupFrom) hg,
      h.graph.noCycle_into fun x y => ?_⟩
    change g.Edge x y ↔ _
    rw [hg']
    exact foldl_addEdge_edge
  case addEdgesToGroup nodeFrom groupTo =>
    obtain ⟨⟨hn, -⟩, g, hg, rfl⟩ := hstep
    have hg' := foldlM_addEdge?_eq hg
    refine ⟨foldlM hP (fun _ => nodeFrom) (fun n => n) h (fun _ _ => hn) hg,
      h.graph.noCycle_outOf fun x y => ?_⟩
    change g.Edge x y ↔ _
    rw [hg']
    exact foldl_addEdge_outOf
  case addConservativeEdge dst =>
    obtain ⟨hnew, g, hg, rfl⟩ := hstep
    exact h.addConservativeEdge hnew hg

lemma Ok.init : init.Ok := HBRecorder.Keeps.init invariant_ranged

/-- The notify of a set of threads records what the notifies of its threads record. -/
lemma runFrom_notify {source sink : Bool} (ts : List (Nat × CallCtx))
    (hu : s.awake u = true) (hts : ∀ p ∈ ts, s.asleep p.1 = some p.2)
    (hnd : (ts.map Prod.fst).Nodup) :
    (Machine.runFrom step s (ts.map fun p => .notify u p.1 source sink)).map recorder =
      s.recorder.addSourceSinkEdgesAll ts (s.lastIf u source) (s.lastIf u sink) := by
  rw [HBRecorder.addSourceSinkEdgesAll_eq]
  induction ts generalizing s with
  | nil => rfl
  | cons p ts ih =>
    have hp : s.asleep p.1 = some p.2 := hts p mem_cons_self
    have hne : u ≠ p.1 := by
      rintro rfl
      simp [awake, hp] at hu
    simp only [map_cons, nodup_cons] at hnd
    rw [map_cons, Machine.runFrom, foldlM_cons]
    simp only [step, hu, if_true, hp, bind_some]
    cases hr : s.recorder.addSourceSinkEdges p.1 p.2 (s.lastIf u source) (s.lastIf u sink) with
    | none => rfl
    | some r =>
      have hlast : r.lastHbNode u = s.recorder.lastHbNode u :=
        HBRecorder.addSourceSinkEdges_last hr hne
      have hih := ih (s := ⟨r, update s.asleep p.1 none⟩) ?_ (fun q hq => ?_) hnd.2
      · simpa [lastIf, hlast] using hih
      · simp only [awake, update_of_ne hne]
        exact hu
      · have hq1 : q.1 ≠ p.1 := fun h => hnd.1 (h ▸ mem_map_of_mem hq)
        simp only [update_of_ne hq1]
        exact hts q (mem_cons_of_mem _ hq)

/-- At the end of a run the graph has no cycle exactly when every call was safe. -/
theorem noCycle_iff_safe (ops : List NotifyOp) (s : NotifySys)
    (hrun : Machine.runFrom step init ops = some s) :
    s.graph.NoCycle ↔ Machine.Meets step Safe init ops := by
  have hempty : init.graph.NoCycle := fun a hp => by
    have := (Ok.init.graph.path hp).1
    have := (Ok.init.graph.path hp).2
    simp [init, HBRecorder.init, HBGraph.getMaxNodeId, HBGraph.empty] at this
    omega
  rw [Machine.iff_meets step (I := Ok)
    (fun _ _ _ h hs => (h.step hs).1) (fun _ _ _ h hs => (h.step hs).2) .init hrun]
  exact and_iff_right hempty

/-- A thread sleeps behind its node, and another one notifies it with its own node as source
and sink. -/
theorem noCycle_iff_safe_barrier :
    ∃ s, Machine.runFrom step init [.addNodeForThread 1 ⟨1, false⟩, .sleep 1 ⟨2, false⟩,
        .addNodeForThread 0 ⟨2, false⟩, .notify 0 1 true true] = some s ∧
      (s.graph.NoCycle ↔ Machine.Meets step Safe init [.addNodeForThread 1 ⟨1, false⟩,
        .sleep 1 ⟨2, false⟩, .addNodeForThread 0 ⟨2, false⟩, .notify 0 1 true true]) :=
  ⟨_, rfl, noCycle_iff_safe _ _ rfl⟩

/-- The same when the sleeping thread's caller is ignorable: no node is recorded for it, and
both edges are between its old node and the other thread's. -/
theorem notify_cycle :
    ∃ s, Machine.runFrom step init [.addNodeForThread 1 ⟨1, false⟩, .sleep 1 ⟨2, true⟩,
        .addNodeForThread 0 ⟨2, false⟩, .notify 0 1 true true] = some s ∧
      s.graph.Edge 1 2 ∧ s.graph.Edge 2 1 :=
  ⟨_, rfl, ⟨_, rfl, by decide⟩, ⟨_, rfl, by decide⟩⟩

end NotifySys

end InputCovSched
