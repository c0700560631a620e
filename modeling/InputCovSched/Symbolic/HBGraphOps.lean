import InputCovSched.Symbolic.HBGraph
import InputCovSched.Lib.Machine

/-!
# All the operations of the recorded graph (`lib/ICS/HBGraph.cpp`)

The graph with the threads' `lastHbNode`, under every function that adds to it. A call that
fails an assertion (an edge into a node that does not exist) is `none`. As long as the calls name
existing nodes, the graph is well formed exactly when no conservative edge repeats a recorded one
(`wellFormed_iff_noRepeat`).
-/

namespace InputCovSched

open Function List Option

namespace HBGraph

/-- `getMutableNode` asserts that the node exists. -/
def addEdge? (g : HBGraph) (src dst : Nat) : Option HBGraph :=
  if src = 0 ∨ dst = 0 ∨ src = dst ∨ dst ≤ g.getMaxNodeId then some (g.addEdge src dst) else none

def addEdgesFromGroup? (g : HBGraph) (groupFrom nodeTo : Nat) : Option HBGraph :=
  (g.groupMap groupFrom).foldlM (fun g n => g.addEdge? n nodeTo) g

def addEdgesToGroup? (g : HBGraph) (nodeFrom groupTo : Nat) : Option HBGraph :=
  (g.groupMap groupTo).foldlM (fun g n => g.addEdge? nodeFrom n) g

/-- The loop of `addConservativeEdge` from node `src` down: the first node of each thread
that was not visited. -/
def conservativeSources (g : HBGraph) : (src : Nat) → (visited : List Nat) → List Nat
  | 0, _ => []
  | src + 1, visited =>
    match g.getNode? (src + 1) with
    | none => []
    | some n =>
      if n.tuid ∈ visited then g.conservativeSources src visited
      else (src + 1) :: g.conservativeSources src (n.tuid :: visited)

/-- No test for duplicates here. -/
def addConservativeEdge? (g : HBGraph) (dst : Nat) : Option HBGraph :=
  if dst = 0 then some g
  else if dst ≤ g.getMaxNodeId then
    some { g with
      nodes := g.nodes.modify (dst - 1) fun n =>
        { n with incoming := n.incoming ++ g.conservativeSources g.getMaxNodeId [n.tuid] } }
  else none

/-- What a reader of the graph relies on. -/
structure WellFormed (g : HBGraph) : Prop where
  ids : ∀ id, (g.getNode? id).isSome = true ↔ 1 ≤ id ∧ id ≤ g.getMaxNodeId
  order : ∀ t i node, (g.allOf t)[i]? = some node → node.threadOrder = i + 1
  exist : ∀ b n, g.getNode? b = some n → ∀ a ∈ n.incoming, a ≤ g.getMaxNodeId
  ne_zero : ∀ b n, g.getNode? b = some n → 0 ∉ n.incoming
  ne_self : ∀ b n, g.getNode? b = some n → b ∉ n.incoming
  nodup : ∀ b n, g.getNode? b = some n → n.incoming.Nodup

end HBGraph

structure HBRecorder where
  graph : HBGraph
  lastHbNode : Nat → Nat

/-- A call, with the calling contexts that the threads' stacks give (`GetCallCxtForNode`). -/
inductive HBOp where
  | addNodeForInput (t : Nat) (ctx : CallCtx) (inputObj : Nat)
  | addNodeForThread (t : Nat) (ctx : CallCtx)
  | addNodeForNewThread (t : Nat) (ctx : CallCtx) (creator : Option (Nat × CallCtx))
  | addEdge (src dst : Nat)
  | addConservativeEdge (dst : Nat)
  | addSourceSinkEdges (t : Nat) (ctx : CallCtx) (source sink : Nat)
  /-- The overload for a set of threads, in the order of the set. -/
  | addSourceSinkEdgesAll (ts : List (Nat × CallCtx)) (source sink : Nat)
  | addNodeToGroup (node group : Nat)
  | removeGroup (group : Nat)
  | addEdgesFromGroup (groupFrom nodeTo : Nat)
  | addEdgesToGroup (nodeFrom groupTo : Nat)

namespace HBRecorder

def init : HBRecorder := ⟨.empty, fun _ => 0⟩

section
variable (s : HBRecorder)

def setGraph (g : HBGraph) : HBRecorder := { s with graph := g }

section
variable (t : Nat) (ctx : CallCtx)

/-- `thread->lastHbNode = addNode(…, lastNode)`. -/
def addNode (inputObj : Option Nat) (lastNode : Nat) :
    Nat × HBRecorder :=
  let r := s.graph.addNode t ctx inputObj lastNode
  (r.1, ⟨r.2, update s.lastHbNode t r.1⟩)

def addNodeForInput (inputObj : Nat) :
    Nat × HBRecorder :=
  s.addNode t ctx (some inputObj) (s.lastHbNode t)

def addNodeForThread : Nat × HBRecorder :=
  s.addNode t ctx none (s.lastHbNode t)

def addNodeForNewThread :
    Option (Nat × CallCtx) → Nat × HBRecorder
  | some (creator, cctx) =>
    let s := (s.addNode creator cctx none (s.lastHbNode creator)).2
    s.addNode t ctx none (s.lastHbNode creator)
  | none => s.addNode t ctx none 0

def addSourceSinkEdges (source sink : Nat) :
    Option HBRecorder :=
  if source = 0 ∧ sink = 0 then some s
  else if sink = 0 then
    let (node, s) := s.addNodeForThread t ctx
    (s.graph.addEdge? source node).map s.setGraph
  else if source = 0 then
    let (node, s) := s.addNodeForThread t ctx
    (s.graph.addEdge? node sink).map s.setGraph
  else if source = sink then
    let (t0, s) := s.addNodeForThread t ctx
    let (t1, s) := s.addNodeForThread t ctx
    ((s.graph.addEdge? t0 source).bind fun g => g.addEdge? source t1).map s.setGraph
  else
    let (node, s) := s.addNodeForThread t ctx
    ((s.graph.addEdge? source node).bind fun g => g.addEdge? node sink).map s.setGraph

end

def addSourceSinkEdgesAll (ts : List (Nat × CallCtx)) (source sink : Nat) :
    Option HBRecorder :=
  if source = 0 ∧ sink = 0 then some s
  else ts.foldlM (fun s t => s.addSourceSinkEdges t.1 t.2 source sink) s

def step : HBOp → Option HBRecorder
  | .addNodeForInput t ctx inputObj => some (s.addNodeForInput t ctx inputObj).2
  | .addNodeForThread t ctx => some (s.addNodeForThread t ctx).2
  | .addNodeForNewThread t ctx creator => some (s.addNodeForNewThread t ctx creator).2
  | .addEdge src dst => (s.graph.addEdge? src dst).map s.setGraph
  | .addConservativeEdge dst => (s.graph.addConservativeEdge? dst).map s.setGraph
  | .addSourceSinkEdges t ctx source sink => s.addSourceSinkEdges t ctx source sink
  | .addSourceSinkEdgesAll ts source sink => s.addSourceSinkEdgesAll ts source sink
  | .addNodeToGroup node group => some (s.setGraph (s.graph.addNodeToGroup node group))
  | .removeGroup group => some (s.setGraph (s.graph.removeGroup group))
  | .addEdgesFromGroup groupFrom nodeTo =>
    (s.graph.addEdgesFromGroup? groupFrom nodeTo).map s.setGraph
  | .addEdgesToGroup nodeFrom groupTo =>
    (s.graph.addEdgesToGroup? nodeFrom groupTo).map s.setGraph

/-- The ids that the call hands over as the source of an edge or as a member of a group are
0 or ids of nodes. -/
def NamesNodes : HBOp → Prop
  | .addEdge src _ => src ≤ s.graph.getMaxNodeId
  | .addSourceSinkEdges _ _ source _ => source ≤ s.graph.getMaxNodeId
  | .addSourceSinkEdgesAll _ source _ => source ≤ s.graph.getMaxNodeId
  | .addNodeToGroup node _ => node ≤ s.graph.getMaxNodeId
  | .addEdgesToGroup nodeFrom _ => nodeFrom ≤ s.graph.getMaxNodeId
  | _ => True

/-- No conservative edge repeats a recorded one. -/
def NoRepeat : HBOp → Prop
  | .addConservativeEdge dst => ∀ n ∈ s.graph.getNode? dst,
      ∀ a ∈ s.graph.conservativeSources s.graph.getMaxNodeId [n.tuid], a ∉ n.incoming
  | _ => True

end

instance (s : HBRecorder) : ∀ op, Decidable (s.NamesNodes op)
  | .addEdge src _ | .addSourceSinkEdges _ _ src _ | .addSourceSinkEdgesAll _ src _
  | .addNodeToGroup src _ | .addEdgesToGroup src _ => inferInstanceAs (Decidable (src ≤ _))
  | .addNodeForInput .. | .addNodeForThread .. | .addNodeForNewThread .. | .addConservativeEdge ..
  | .removeGroup .. | .addEdgesFromGroup .. => isTrue trivial

instance (s : HBRecorder) : ∀ op, Decidable (s.NoRepeat op)
  | .addConservativeEdge dst => inferInstanceAs (Decidable (∀ n ∈ s.graph.getNode? dst,
      ∀ a ∈ s.graph.conservativeSources s.graph.getMaxNodeId [n.tuid], a ∉ n.incoming))
  | .addEdge .. | .addSourceSinkEdges .. | .addSourceSinkEdgesAll .. | .addNodeToGroup ..
  | .addEdgesToGroup .. | .addNodeForInput .. | .addNodeForThread .. | .addNodeForNewThread ..
  | .removeGroup .. | .addEdgesFromGroup .. => isTrue trivial

end HBRecorder

namespace HBGraph

/-! ## The sources of a conservative edge -/

section
variable {g g' : HBGraph}

lemma getNode?_isSome {id : Nat} :
    (g.getNode? id).isSome = true ↔ 1 ≤ id ∧ id ≤ g.getMaxNodeId := by
  unfold getNode? getMaxNodeId
  split
  · simp; omega
  · rw [isSome_iff_ne_none, ne_eq, List.getElem?_eq_none_iff]
    omega

variable {dst src : Nat} {i : Option Nat}

lemma mem_conservativeSources {visited : List Nat} (h : a ∈ g.conservativeSources src visited) :
    0 < a ∧ a ≤ src ∧ ∃ n, g.getNode? a = some n ∧ n.tuid ∉ visited := by
  induction src generalizing visited with
  | zero => cases h
  | succ src ih =>
    rw [conservativeSources] at h
    cases hn : g.getNode? (src + 1) with
    | none => simp [hn] at h
    | some n =>
      simp only [hn] at h
      split at h
      · obtain ⟨h0, hle, hm⟩ := ih h
        exact ⟨h0, by omega, hm⟩
      rename_i hvisited
      rcases mem_cons.1 h with rfl | h
      · exact ⟨by omega, le_refl _, n, hn, hvisited⟩
      · obtain ⟨h0, hle, m, hm, hmv⟩ := ih h
        exact ⟨h0, by omega, m, hm, fun hv => hmv (mem_cons_of_mem _ hv)⟩

lemma nodup_conservativeSources (src : Nat) (visited : List Nat) :
    (g.conservativeSources src visited).Nodup := by
  induction src generalizing visited with
  | zero => exact nodup_nil
  | succ src ih =>
    rw [conservativeSources]
    cases g.getNode? (src + 1) with
    | none => exact nodup_nil
    | some n =>
      dsimp only
      split
      · exact ih visited
      refine nodup_cons.2 ⟨fun h => ?_, ih _⟩
      have := (mem_conservativeSources h).2.1
      omega

/-! ## Incoming lists -/

def IncomingOk (g : HBGraph) : Prop := ∀ b n, g.getNode? b = some n →
  n.incoming.Nodup ∧ ∀ a ∈ n.incoming, 0 < a ∧ a ≤ g.getMaxNodeId ∧ a ≠ b

lemma wellFormed_iff (h : g.OrdersOk) : g.WellFormed ↔ g.IncomingOk := by
  constructor
  · intro hw b n hn
    refine ⟨hw.nodup b n hn, fun a ha => ⟨?_, hw.exist b n hn a ha, ?_⟩⟩
    · rcases Nat.eq_zero_or_pos a with rfl | h0
      · exact absurd ha (hw.ne_zero b n hn)
      · exact h0
    · rintro rfl
      exact hw.ne_self a n hn ha
  · intro hi
    exact {
      ids := fun id => getNode?_isSome
      order := h.order
      exist := fun b n hn a ha => ((hi b n hn).2 a ha).2.1
      ne_zero := fun b n hn h0 => lt_irrefl 0 ((hi b n hn).2 0 h0).1
      ne_self := fun b n hn hb => ((hi b n hn).2 b hb).2.2 rfl
      nodup := fun b n hn => (hi b n hn).1 }

/-- What is kept by the two changes that every operation but the conservative edge is made of,
and does not look at the groups. -/
structure Invariant (P : HBGraph → Prop) : Prop where
  empty : P .empty
  addNode : ∀ {g : HBGraph} (t : Nat) (c : CallCtx) (i : Option Nat) {l : Nat}, P g →
    l ≤ g.getMaxNodeId → P (g.addNode t c i l).2
  addEdge : ∀ {g : HBGraph} {src : Nat} (dst : Nat), P g → src ≤ g.getMaxNodeId →
    P (g.addEdge src dst)
  regroup : ∀ {g : HBGraph} (m : Nat → List Nat), P g → P { g with groupMap := m }

lemma addNode_le_max (hl : l ≤ g.getMaxNodeId) :
    (g.addNode t c i l).1 ≤ (g.addNode t c i l).2.getMaxNodeId ∧
      g.getMaxNodeId ≤ (g.addNode t c i l).2.getMaxNodeId := by
  unfold HBGraph.addNode getMaxNodeId at *
  split
  · exact ⟨hl, le_refl _⟩
  · simp

@[simp] lemma addEdge_max (src dst : Nat) : (g.addEdge src dst).getMaxNodeId = g.getMaxNodeId :=
  addEdge_length src dst

lemma addEdge?_eq (h : g.addEdge? src dst = some g') : g' = g.addEdge src dst := by
  unfold addEdge? at h
  split at h
  · exact (Option.some.inj h).symm
  · cases h

lemma foldlM_addEdge?_eq {s d : Nat → Nat} {l : List Nat}
    (h : l.foldlM (fun g n => g.addEdge? (s n) (d n)) g = some g') :
    g' = l.foldl (fun g n => g.addEdge (s n) (d n)) g := by
  induction l generalizing g with
  | nil => exact (Option.some.inj h).symm
  | cons n l ih =>
    rw [foldlM_cons, bind_eq_bind, bind_eq_some_iff] at h
    obtain ⟨g₁, h₁, hrest⟩ := h
    rw [ih hrest, addEdge?_eq h₁]
    rfl

lemma Invariant.foldl {P : HBGraph → Prop} (hP : Invariant P) (src dst : Nat → Nat)
    {l : List Nat} (h : P g) (hs : ∀ n ∈ l, src n ≤ g.getMaxNodeId) :
    P (l.foldl (fun g n => g.addEdge (src n) (dst n)) g) ∧
      (l.foldl (fun g n => g.addEdge (src n) (dst n)) g).getMaxNodeId = g.getMaxNodeId ∧
      (l.foldl (fun g n => g.addEdge (src n) (dst n)) g).groupMap = g.groupMap := by
  induction l generalizing g with
  | nil => exact ⟨h, rfl, rfl⟩
  | cons n l ih =>
    obtain ⟨hP', hmax, hgrp⟩ := ih (hP.addEdge (dst n) h (hs n mem_cons_self)) fun m hm => by
      rw [addEdge_max]
      exact hs m (mem_cons_of_mem _ hm)
    exact ⟨hP', hmax.trans (addEdge_max _ _), hgrp.trans (addEdge_groupMap _ _)⟩

lemma IncomingOk.addNode {t l : Nat} {c : CallCtx} (h : g.IncomingOk)
    (hl : l ≤ g.getMaxNodeId) : (g.addNode t c i l).2.IncomingOk := by
  cases hc : c.ignorable with
  | true =>
    simp only [HBGraph.addNode, hc, if_true]
    exact h
  | false =>
    intro b n hn
    have hmax : (g.addNode t c i l).2.getMaxNodeId = g.getMaxNodeId + 1 := by
      simp [getMaxNodeId, addNode_nodes hc]
    have hb := getNode?_le hn
    rcases lt_or_ge g.getMaxNodeId b with hlt | hle
    · obtain rfl : b = g.nodes.length + 1 := by
        unfold getMaxNodeId at *
        omega
      rw [addNode_getNode?_new hc] at hn
      cases hn
      simp only [newNode]
      split
      · exact ⟨nodup_nil, by rintro _ ⟨⟩⟩
      refine ⟨nodup_singleton _, fun a ha => ?_⟩
      rw [mem_singleton] at ha
      omega
    · rw [addNode_getNode? hc hle] at hn
      obtain ⟨hnd, ha⟩ := h b n hn
      refine ⟨hnd, fun a h' => ?_⟩
      obtain ⟨h0, h1, h2⟩ := ha a h'
      exact ⟨h0, by omega, h2⟩

lemma IncomingOk.addEdge (h : g.IncomingOk) (hs : src ≤ g.getMaxNodeId) :
    (g.addEdge src dst).IncomingOk := by
  intro b n hn
  rw [addEdge_max]
  by_cases hb : b = dst
  · subst hb
    unfold HBGraph.addEdge at hn
    split at hn
    · exact h b n hn
    have hb0 : b ≠ 0 := by omega
    simp only [getNode?, if_neg hb0, List.getElem?_modify_eq, Option.map_eq_map,
      Option.map_eq_some_iff] at hn
    obtain ⟨m, hm, rfl⟩ := hn
    obtain ⟨hnd, ha⟩ := h b m (by rw [getNode?, if_neg hb0, hm])
    split
    · exact ⟨hnd, ha⟩
    rename_i hmem
    refine ⟨?_, fun a h' => ?_⟩
    · refine nodup_append.2 ⟨hnd, nodup_singleton _, ?_⟩
      rintro a h1 b h2 rfl
      rw [mem_singleton] at h2
      exact hmem (h2 ▸ h1)
    · rcases mem_append.1 h' with h' | h'
      · exact ha a h'
      · rw [mem_singleton] at h'
        omega
  · rw [addEdge_getNode?_ne hb] at hn
    exact h b n hn

lemma invariant_incomingOk : Invariant fun g => g.OrdersOk ∧ g.IncomingOk where
  empty := ⟨ordersOk_empty, fun b n hn => by simp [getNode?, HBGraph.empty] at hn⟩
  addNode := fun _ _ _ _ h hl => ⟨h.1.addNode, h.2.addNode hl⟩
  addEdge := fun _ h hs => ⟨h.1.addEdge, h.2.addEdge hs⟩
  regroup := fun _ h => ⟨⟨h.1.order, h.1.count⟩, h.2⟩

lemma addConservativeEdge?_max (h : g.addConservativeEdge? dst = some g') :
    g'.getMaxNodeId = g.getMaxNodeId ∧ g'.groupMap = g.groupMap := by
  unfold addConservativeEdge? at h
  split at h
  · cases h
    exact ⟨rfl, rfl⟩
  split at h
  · obtain rfl := Option.some.inj h
    exact ⟨by simp [getMaxNodeId], rfl⟩
  · cases h

lemma addConservativeEdge?_getNode? (h : g.addConservativeEdge? dst = some g') :
    g'.getNode? b = some n ↔ ∃ m, g.getNode? b = some m ∧ n = if b = dst then
      { m with incoming := m.incoming ++ g.conservativeSources g.getMaxNodeId [m.tuid] } else m := by
  unfold addConservativeEdge? at h
  by_cases hb0 : b = 0
  · simp [getNode?, hb0]
  split at h
  · rename_i h0
    cases h
    simp [h0, hb0, eq_comm]
  split at h
  · obtain rfl := Option.some.inj h
    simp only [getNode?, if_neg hb0, List.getElem?_modify]
    by_cases hbd : b = dst
    · subst hbd
      simp [eq_comm]
    · have hne : dst - 1 ≠ b - 1 := by omega
      simp [hbd, hne, eq_comm]
  · cases h

lemma addConservativeEdge?_ordersOk (h : g.OrdersOk) (hg : g.addConservativeEdge? dst = some g') :
    g'.OrdersOk := by
  unfold addConservativeEdge? at hg
  split at hg
  · cases hg
    exact h
  split at hg
  · obtain rfl := Option.some.inj hg
    exact h.modify (f := fun n : HBNode => { n with
      incoming := n.incoming ++ g.conservativeSources g.getMaxNodeId [n.tuid] })
      (fun n => ⟨rfl, rfl⟩) (dst - 1)
  · cases hg

lemma addConservativeEdge?_incomingOk (h : g.OrdersOk ∧ g.IncomingOk)
    (hg : g.addConservativeEdge? dst = some g') :
    g'.OrdersOk ∧ (g'.IncomingOk ↔ ∀ n, g.getNode? dst = some n →
      ∀ a ∈ g.conservativeSources g.getMaxNodeId [n.tuid], a ∉ n.incoming) := by
  refine ⟨addConservativeEdge?_ordersOk h.1 hg, ?_, ?_⟩
  · intro hi n hn a ha hmem
    obtain ⟨hnd, -⟩ := hi dst _ ((addConservativeEdge?_getNode? hg).2 ⟨n, hn, rfl⟩)
    rw [if_pos rfl] at hnd
    exact (nodup_append.1 hnd).2.2 a hmem a ha rfl
  intro hdis b n' hn'
  rw [(addConservativeEdge?_max hg).1]
  obtain ⟨n, hn, rfl⟩ := (addConservativeEdge?_getNode? hg).1 hn'
  obtain ⟨hnd, hin⟩ := h.2 b n hn
  split
  · rename_i hb
    subst hb
    refine ⟨nodup_append.2 ⟨hnd, nodup_conservativeSources _ _, ?_⟩, fun a ha => ?_⟩
    · rintro a ha a' ha' rfl
      exact hdis n hn a ha' ha
    rcases mem_append.1 ha with ha | ha
    · exact hin a ha
    obtain ⟨ha0, hale, m, hm, hmt⟩ := mem_conservativeSources ha
    refine ⟨ha0, hale, ?_⟩
    -- a source lies in another thread
    rintro rfl
    rw [hn] at hm
    cases hm
    exact hmt (mem_singleton.2 rfl)
  · exact ⟨hnd, hin⟩

end

end HBGraph

/-! ## The operations -/

namespace HBRecorder

variable {s : HBRecorder} {P : HBGraph → Prop}

/-- The graph is as it should be; last nodes and members of groups exist. -/
structure Keeps (P : HBGraph → Prop) (s : HBRecorder) : Prop where
  graph : P s.graph
  last : ∀ t, s.lastHbNode t ≤ s.graph.getMaxNodeId
  groups : ∀ grp, ∀ a ∈ s.graph.groupMap grp, a ≤ s.graph.getMaxNodeId

section
variable (hP : HBGraph.Invariant P)
include hP

lemma Keeps.init : init.Keeps P :=
  ⟨hP.empty, fun _ => Nat.zero_le _, nofun⟩

omit hP in
lemma Keeps.setGraph {g : HBGraph} (h : s.Keeps P) (hg : P g)
    (hmax : g.getMaxNodeId = s.graph.getMaxNodeId) (hgrp : g.groupMap = s.graph.groupMap) :
    (s.setGraph g).Keeps P where
  graph := hg
  last := fun t => (h.last t).trans_eq hmax.symm
  groups := fun grp a ha => by
    simp only [HBRecorder.setGraph, hgrp] at ha
    exact (h.groups grp a ha).trans_eq hmax.symm

section
variable (t : Nat) (c : CallCtx)
include t c

lemma Keeps.addNode (i : Option Nat) {l : Nat} (h : s.Keeps P)
    (hl : l ≤ s.graph.getMaxNodeId) : (s.addNode t c i l).2.Keeps P := by
  obtain ⟨hid, hle⟩ := HBGraph.addNode_le_max hl
  refine ⟨hP.addNode t c i h.graph hl, fun u => ?_, fun grp a ha => ?_⟩
  · simp only [HBRecorder.addNode]
    by_cases hu : u = t
    · rw [hu, update_self]
      exact hid
    · rw [update_of_ne hu]
      exact (h.last u).trans hle
  · simp only [HBRecorder.addNode, HBGraph.addNode_groupMap] at ha ⊢
    exact (h.groups grp a ha).trans hle

lemma Keeps.addNodeForThread (h : s.Keeps P) : (s.addNodeForThread t c).2.Keeps P :=
  h.addNode hP t c none (h.last t)

omit hP in
lemma Keeps.addNodeForThread_le (h : s.Keeps P) :
    (s.addNodeForThread t c).1 ≤ (s.addNodeForThread t c).2.graph.getMaxNodeId ∧
      s.graph.getMaxNodeId ≤ (s.addNodeForThread t c).2.graph.getMaxNodeId :=
  HBGraph.addNode_le_max (h.last t)

lemma Keeps.addNodeForNewThread (creator : Option (Nat × CallCtx))
    (h : s.Keeps P) : (s.addNodeForNewThread t c creator).2.Keeps P := by
  cases creator with
  | none => exact h.addNode hP t c none (Nat.zero_le _)
  | some p =>
    have h₁ := h.addNode hP p.1 p.2 none (h.last p.1)
    exact h₁.addNode hP t c none (h₁.last p.1)

end

lemma Keeps.addEdge? {src dst : Nat} {g : HBGraph} (h : s.Keeps P)
    (hs : src ≤ s.graph.getMaxNodeId) (hg : s.graph.addEdge? src dst = some g) :
    (s.setGraph g).Keeps P ∧ g.getMaxNodeId = s.graph.getMaxNodeId := by
  rw [HBGraph.addEdge?_eq hg]
  have hmax : (s.graph.addEdge src dst).getMaxNodeId = s.graph.getMaxNodeId := by simp
  exact ⟨h.setGraph (hP.addEdge dst h.graph hs) hmax (by simp), hmax⟩

lemma Keeps.foldlM (src dst : Nat → Nat) {l : List Nat} {g : HBGraph} (h : s.Keeps P)
    (hs : ∀ n ∈ l, src n ≤ s.graph.getMaxNodeId)
    (hg : l.foldlM (fun g n => g.addEdge? (src n) (dst n)) s.graph = some g) :
    (s.setGraph g).Keeps P := by
  rw [HBGraph.foldlM_addEdge?_eq hg]
  obtain ⟨hP', hmax, hgrp⟩ := hP.foldl src dst h.graph hs
  exact h.setGraph hP' hmax hgrp

lemma Keeps.addSourceSinkEdges {t : Nat} {c : CallCtx} (h : s.Keeps P)
    (hs : source ≤ s.graph.getMaxNodeId) (hstep : s.addSourceSinkEdges t c source sink = some s') :
    s'.Keeps P ∧ s.graph.getMaxNodeId ≤ s'.graph.getMaxNodeId := by
  have h₁ := h.addNodeForThread hP t c
  obtain ⟨hid₁, hle₁⟩ := h.addNodeForThread_le t c
  unfold HBRecorder.addSourceSinkEdges at hstep
  split at hstep
  · cases hstep
    exact ⟨h, le_refl _⟩
  split at hstep
  · obtain ⟨g, hg, rfl⟩ := map_eq_some_iff.1 hstep
    obtain ⟨hk, hmax⟩ := h₁.addEdge? hP (hs.trans hle₁) hg
    exact ⟨hk, hle₁.trans_eq hmax.symm⟩
  split at hstep
  · obtain ⟨g, hg, rfl⟩ := map_eq_some_iff.1 hstep
    obtain ⟨hk, hmax⟩ := h₁.addEdge? hP hid₁ hg
    exact ⟨hk, hle₁.trans_eq hmax.symm⟩
  split at hstep
  · have h₂ := h₁.addNodeForThread hP t c
    obtain ⟨-, hle₂⟩ := h₁.addNodeForThread_le t c
    obtain ⟨g, hg, rfl⟩ := map_eq_some_iff.1 hstep
    obtain ⟨g₁, hg₁, hg₂⟩ := bind_eq_some_iff.1 hg
    obtain ⟨hk₁, hmax₁⟩ := h₂.addEdge? hP (hid₁.trans hle₂) hg₁
    have hs₂ := ((hs.trans hle₁).trans hle₂).trans_eq hmax₁.symm
    obtain ⟨hk₂, hmax₂⟩ := hk₁.addEdge? hP hs₂ hg₂
    exact ⟨hk₂, (hle₁.trans hle₂).trans_eq (hmax₂.trans hmax₁).symm⟩
  · obtain ⟨g, hg, rfl⟩ := map_eq_some_iff.1 hstep
    obtain ⟨g₁, hg₁, hg₂⟩ := bind_eq_some_iff.1 hg
    obtain ⟨hk₁, hmax₁⟩ := h₁.addEdge? hP (hs.trans hle₁) hg₁
    obtain ⟨hk₂, hmax₂⟩ := hk₁.addEdge? hP (hid₁.trans_eq hmax₁.symm) hg₂
    exact ⟨hk₂, hle₁.trans_eq (hmax₂.trans hmax₁).symm⟩

lemma Keeps.addSourceSinkEdgesAll {ts : List (Nat × CallCtx)}
    (h : s.Keeps P) (hs : source ≤ s.graph.getMaxNodeId)
    (hstep : s.addSourceSinkEdgesAll ts source sink = some s') : s'.Keeps P := by
  unfold HBRecorder.addSourceSinkEdgesAll at hstep
  split at hstep
  · cases hstep
    exact h
  rw [Machine.foldlM_eq_runFrom] at hstep
  refine (Machine.inv_of_run (I := fun s => s.Keeps P ∧ source ≤ s.graph.getMaxNodeId) _
    ?_ ⟨h, hs⟩ hstep).1
  rintro s₁ t s₂ ⟨h₁, hs₁⟩ h₂
  obtain ⟨hk, hle⟩ := h₁.addSourceSinkEdges hP hs₁ h₂
  exact ⟨hk, hs₁.trans hle⟩

lemma Keeps.addNodeToGroup {node : Nat} (group : Nat) (h : s.Keeps P)
    (hn : node ≤ s.graph.getMaxNodeId) :
    (s.setGraph (s.graph.addNodeToGroup node group)).Keeps P where
  graph := hP.regroup _ h.graph
  last := h.last
  groups := fun grp a ha => by
    by_cases hgrp : grp = group
    · rw [hgrp] at ha
      rcases HBGraph.mem_addNodeToGroup.1 ha with rfl | ha
      · exact hn
      · exact h.groups group a ha
    · simp only [HBRecorder.setGraph, HBGraph.addNodeToGroup, update_of_ne hgrp] at ha
      exact h.groups grp a ha

lemma Keeps.removeGroup (group : Nat) (h : s.Keeps P) :
    (s.setGraph (s.graph.removeGroup group)).Keeps P where
  graph := hP.regroup _ h.graph
  last := h.last
  groups := fun grp a ha => by
    by_cases hgrp : grp = group
    · simp [HBRecorder.setGraph, HBGraph.removeGroup, hgrp] at ha
    · simp only [HBRecorder.setGraph, HBGraph.removeGroup, update_of_ne hgrp] at ha
      exact h.groups grp a ha

end

def Ok (s : HBRecorder) : Prop := s.Keeps fun g => g.OrdersOk ∧ g.IncomingOk

lemma Ok.step (h : s.Ok) (hn : s.NamesNodes op) (hrep : s.NoRepeat op)
    (hstep : s.step op = some s') : s'.Ok := by
  have hP := HBGraph.invariant_incomingOk
  cases op with
  | addNodeForInput t ctx inputObj =>
    cases hstep
    exact .addNode hP t ctx (some inputObj) h (h.last t)
  | addNodeForThread t ctx =>
    cases hstep
    exact .addNodeForThread hP t ctx h
  | addNodeForNewThread t ctx creator =>
    cases hstep
    exact .addNodeForNewThread hP t ctx creator h
  | addEdge src dst =>
    obtain ⟨g, hg, rfl⟩ := map_eq_some_iff.1 hstep
    exact (Keeps.addEdge? hP h hn hg).1
  | addConservativeEdge dst =>
    obtain ⟨g, hg, rfl⟩ := map_eq_some_iff.1 hstep
    obtain ⟨hmax, hgrp⟩ := HBGraph.addConservativeEdge?_max hg
    obtain ⟨hord, hin⟩ := HBGraph.addConservativeEdge?_incomingOk h.graph hg
    exact .setGraph h ⟨hord, hin.2 hrep⟩ hmax hgrp
  | addSourceSinkEdges t ctx source sink => exact (Keeps.addSourceSinkEdges hP h hn hstep).1
  | addSourceSinkEdgesAll ts source sink => exact .addSourceSinkEdgesAll hP h hn hstep
  | addNodeToGroup node group =>
    cases hstep
    exact .addNodeToGroup hP group h hn
  | removeGroup group =>
    cases hstep
    exact .removeGroup hP group h
  | addEdgesFromGroup groupFrom nodeTo =>
    obtain ⟨g, hg, rfl⟩ := map_eq_some_iff.1 hstep
    exact .foldlM hP (fun n => n) (fun _ => nodeTo) h (h.groups groupFrom) hg
  | addEdgesToGroup nodeFrom groupTo =>
    obtain ⟨g, hg, rfl⟩ := map_eq_some_iff.1 hstep
    exact .foldlM hP (fun _ => nodeFrom) (fun n => n) h (fun _ _ => hn) hg

lemma Ok.noRepeat (h : s.Ok)
    (hw : ∀ s', s.step op = some s' → s'.graph.WellFormed) : s.NoRepeat op := by
  cases op with
  | addConservativeEdge dst =>
    cases hg : s.graph.addConservativeEdge? dst with
    | none =>
      intro n hn
      have := HBGraph.getNode?_le hn
      unfold HBGraph.addConservativeEdge? HBGraph.getMaxNodeId at hg
      rw [if_neg (by omega), if_pos this.2] at hg
      cases hg
    | some g =>
      obtain ⟨hord, hin⟩ := HBGraph.addConservativeEdge?_incomingOk h.graph hg
      have hstep : s.step (.addConservativeEdge dst) = some (s.setGraph g) := by
        rw [HBRecorder.step, hg]
        rfl
      exact hin.1 ((HBGraph.wellFormed_iff hord).1 (hw _ hstep))
  | _ => trivial

/-- While the calls name existing nodes, the graph is well formed after each of them exactly
when no conservative edge repeats a recorded edge. -/
theorem wellFormed_iff_noRepeat (ops : List HBOp) (hn : Machine.Meets step NamesNodes init ops) :
    (∀ ops' s, ops' <+: ops → Machine.runFrom step init ops' = some s → s.graph.WellFormed) ↔
      Machine.Meets step NoRepeat init ops := by
  have hok : ∀ s : HBRecorder, s.Ok → s.graph.WellFormed := fun s h =>
    (HBGraph.wellFormed_iff h.graph.1).2 h.graph.2
  have hinit : init.Ok := .init HBGraph.invariant_incomingOk
  rw [Machine.along_iff step (I := fun s => s.graph.WellFormed) (hok _ hinit)]
  have hboth : ∀ C : HBRecorder → HBOp → Prop, Machine.Meets step C init ops ↔
      Machine.Meets step (fun s op => s.NamesNodes op ∧ C s op) init ops := by
    intro C
    rw [Machine.meets_and]
    exact (and_iff_right hn).symm
  rw [hboth, hboth NoRepeat]
  refine Machine.meets_iff (I := Ok) step ?_ (fun s op h => and_congr_right fun hnames => ?_) hinit
  · rintro s op s' h ⟨hnames, hw⟩ hstep
    exact h.step hnames (h.noRepeat hw) hstep
  · exact ⟨h.noRepeat, fun hrep s' hstep => hok s' (h.step hnames hrep hstep)⟩

/-- Two threads with an edge between them, and a third one behind both. -/
def thirdBehind : List HBOp :=
  [.addNodeForThread 0 ⟨0, false⟩, .addNodeForThread 1 ⟨1, false⟩, .addEdge 1 2,
    .addNodeForThread 2 ⟨2, false⟩, .addConservativeEdge 3]

theorem wellFormed_iff_noRepeat_third :
    Machine.Meets step NamesNodes init thirdBehind ∧ ∀ ops' s, ops' <+: thirdBehind →
      Machine.runFrom step init ops' = some s → s.graph.WellFormed :=
  ⟨by decide, (wellFormed_iff_noRepeat _ (by decide)).2 (by decide)⟩

/-- The conservative edge repeats the edge that is already there. -/
theorem conservative_repeats :
    ∃ s n, Machine.runFrom step init
        [.addNodeForThread 0 ⟨0, false⟩, .addNodeForThread 1 ⟨1, false⟩, .addEdge 1 2,
          .addConservativeEdge 2] = some s ∧
      s.graph.getNode? 2 = some n ∧ n.incoming = [1, 1] :=
  ⟨_, _, rfl, rfl, rfl⟩

end HBRecorder

end InputCovSched
