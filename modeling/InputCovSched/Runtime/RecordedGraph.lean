import InputCovSched.Symbolic.Threads

/-!
# Nodes of a recorded run, as the replay sees them

At run time a thread goes through the ids of its own nodes (`HBGraph.nodesOf`) and waits at each for
the nodes with an edge to it (`HBGraph.preds`). What recording one more node changes of the two.
-/

namespace InputCovSched

namespace HBGraph

def preds (g : HBGraph) (n : Nat) : List Nat :=
  match g.getNode? n with
  | none => []
  | some node => node.incoming

def nodesOf (g : HBGraph) (t : Nat) : List Nat :=
  ((g.nodes.map HBNode.tuid).zipIdx 1).filterMap fun p => if p.1 = t then some p.2 else none

variable {g : HBGraph} {a b t u l : Nat}

lemma mem_preds : a ∈ g.preds b ↔ g.Edge a b := by
  unfold preds Edge
  cases g.getNode? b with
  | none => simp
  | some n => simp

@[simp] lemma nodesOf_addEdge : (g.addEdge a b).nodesOf t = g.nodesOf t := by
  have h := congrArg (List.map Prod.fst) (addEdge_threads (g := g) a b)
  rw [List.map_map, List.map_map] at h
  have h' : (g.addEdge a b).nodes.map HBNode.tuid = g.nodes.map HBNode.tuid := h
  unfold nodesOf
  rw [h']

lemma nodesOf_addNode : (g.addNode u syncCtx none l).2.nodesOf t =
    g.nodesOf t ++ if t = u then [g.nodes.length + 1] else [] := by
  unfold nodesOf
  rw [addNode_nodes rfl, List.map_append, List.zipIdx_append, List.filterMap_append]
  by_cases h : t = u
  · simp [h, newNode, Nat.add_comm]
  · simp [h, newNode, Ne.symm h]

end HBGraph

namespace KState

variable {κ : Type} {k : KState κ} {t u src dst n m : Nat}

@[simp] lemma kleeAddHbedge_length :
    (k.kleeAddHbedge src dst).hbGraph.nodes.length = k.hbGraph.nodes.length :=
  HBGraph.addEdge_length src dst

lemma kleeAddHbnode_length :
    (k.kleeAddHbnode t syncCtx).2.hbGraph.nodes.length = k.hbGraph.nodes.length + 1 :=
  (kleeAddHbnode_addsNode k t rfl).length

lemma kleeAddHbnode_nodesOf : (k.kleeAddHbnode u syncCtx).2.hbGraph.nodesOf t =
    k.hbGraph.nodesOf t ++ if t = u then [k.hbGraph.nodes.length + 1] else [] :=
  HBGraph.nodesOf_addNode

@[simp] lemma kleeAddHbedge_nodesOf :
    (k.kleeAddHbedge src dst).hbGraph.nodesOf t = k.hbGraph.nodesOf t :=
  HBGraph.nodesOf_addEdge

lemma kleeAddHbnode_preds (h : n ∈ k.hbGraph.preds m) :
    n ∈ (k.kleeAddHbnode t syncCtx).2.hbGraph.preds m :=
  HBGraph.mem_preds.2 ((kleeAddHbnode_addsNode k t rfl).mono _ _ (HBGraph.mem_preds.1 h))

lemma kleeAddHbedge_preds (h : n ∈ k.hbGraph.preds m) :
    n ∈ (k.kleeAddHbedge src dst).hbGraph.preds m :=
  HBGraph.mem_preds.2 (HBGraph.addEdge_edge.2 (.inl (HBGraph.mem_preds.1 h)))

lemma kleeAddHbnode_lastHbNode : (k.kleeAddHbnode t syncCtx).2.lastHbNode =
    Function.update k.lastHbNode t (k.hbGraph.nodes.length + 1) :=
  (kleeAddHbnode_addsNode k t rfl).last

/-! `__thread_make_hbnode_from` -/

lemma threadMakeHbnodeFrom_length :
    (k.threadMakeHbnodeFrom t syncCtx src).2.hbGraph.nodes.length = k.hbGraph.nodes.length + 1 :=
  kleeAddHbedge_length.trans kleeAddHbnode_length

lemma threadMakeHbnodeFrom_nodesOf : (k.threadMakeHbnodeFrom t syncCtx src).2.hbGraph.nodesOf u =
    k.hbGraph.nodesOf u ++ if u = t then [k.hbGraph.nodes.length + 1] else [] :=
  kleeAddHbedge_nodesOf.trans kleeAddHbnode_nodesOf

lemma threadMakeHbnodeFrom_preds (h : n ∈ k.hbGraph.preds m) :
    n ∈ (k.threadMakeHbnodeFrom t syncCtx src).2.hbGraph.preds m :=
  kleeAddHbedge_preds (kleeAddHbnode_preds h)

lemma threadMakeHbnodeFrom_source (hpos : 0 < src) (hle : src ≤ k.hbGraph.nodes.length) :
    src ∈ (k.threadMakeHbnodeFrom t syncCtx src).2.hbGraph.preds (k.hbGraph.nodes.length + 1) := by
  have hid := kleeAddHbnode_fst k t (rfl : syncCtx.ignorable = false)
  refine HBGraph.mem_preds.2 (HBGraph.addEdge_edge.2 (.inr ?_))
  rw [hid, kleeAddHbnode_length]
  exact ⟨rfl, rfl, by omega, by omega, by omega, by omega⟩

lemma threadMakeHbnodeFrom_edge (h : (k.threadMakeHbnodeFrom t syncCtx src).2.hbGraph.Edge a b) :
    k.hbGraph.Edge a b ∨
      b = k.hbGraph.nodes.length + 1 ∧ a ≠ 0 ∧ (a = k.lastHbNode t ∨ a = src) := by
  have hid := kleeAddHbnode_fst k t (rfl : syncCtx.ignorable = false)
  rcases HBGraph.addEdge_edge.1 h with h | ⟨rfl, rfl, h0, -⟩
  · rcases (HBGraph.addNode_edge rfl).1 h with h | ⟨rfl, h0, rfl⟩
    · exact .inl h
    · exact .inr ⟨rfl, h0, .inl rfl⟩
  · exact .inr ⟨hid, h0, .inr rfl⟩

end KState

end InputCovSched
