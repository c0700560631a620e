import Mathlib.Data.List.Sort

/-!
# The recorded happens-before graph (`lib/ICS/HBGraph.cpp`)

Nodes are numbered from 1 in the order in which they are added; 0 is the invalid id. `addNode`
adds the thread-local edge, `addEdge` any other one; a group is a set of nodes that a later node
takes edges from. Every operation only adds edges (`addNode_edge`, `addEdge_edge`,
`addEdgesFromGroup_edge`), so a path once recorded stays.
-/

namespace InputCovSched

open Function List

/-- An interned `CallingContext`. `ignorable` is `IsIgnorableSyncOpCaller` of the
function of its youngest frame: one of the uClibc mutex wrappers. -/
structure CallCtx where
  id : Nat
  ignorable : Bool
  deriving DecidableEq, Repr

structure HBNode where
  threadOrder : Nat
  tuid : Nat
  callctx : Nat
  inputObj : Option Nat
  incoming : List Nat
  deriving DecidableEq, Repr

/-- `groupMap` maps an absent group to `[]`, `threadOrders` an absent thread to 0. -/
structure HBGraph where
  nodes : List HBNode
  groupMap : Nat → List Nat
  threadOrders : Nat → Nat

namespace HBGraph

/-- A new graph. -/
def empty : HBGraph := ⟨[], fun _ => [], fun _ => 0⟩

section
variable (g : HBGraph)

def getMaxNodeId : Nat := g.nodes.length

abbrev size : Nat := g.nodes.length

/-- Ids start at 1; 0 is the null node. -/
def getNode? (id : Nat) : Option HBNode :=
  if id = 0 then none else g.nodes[id - 1]?

/-- The node is behind `lastNode`, the last one of its thread. -/
def newNode (tuid : Nat) (callctx : Nat) (inputObj : Option Nat) (lastNode : Nat) :
    HBNode where
  threadOrder := g.threadOrders tuid + 1
  tuid := tuid
  callctx := callctx
  inputObj := inputObj
  incoming := if lastNode = 0 then [] else [lastNode]

/-- Returns the id of the new node, or `lastNode` when the caller is ignorable. -/
def addNode (tuid : Nat) (callctx : CallCtx) (inputObj : Option Nat)
    (lastNode : Nat) : Nat × HBGraph :=
  if callctx.ignorable then (lastNode, g)
  else
    (g.nodes.length + 1, { g with
        nodes := g.nodes ++ [g.newNode tuid callctx.id inputObj lastNode]
        threadOrders := update g.threadOrders tuid (g.threadOrders tuid + 1) })

/-- The null, self and duplicate edges are skipped. -/
def addEdge (src dst : Nat) : HBGraph :=
  if src = 0 ∨ dst = 0 ∨ src = dst then g
  else
    { g with
      nodes := g.nodes.modify (dst - 1) fun n =>
        if src ∈ n.incoming then n else { n with incoming := n.incoming ++ [src] } }

def addNodeToGroup (node group : Nat) : HBGraph :=
  { g with
    groupMap := update g.groupMap group
      (if node ∈ g.groupMap group then g.groupMap group
       else (g.groupMap group).orderedInsert (· ≤ ·) node) }

def removeGroup (group : Nat) : HBGraph :=
  { g with groupMap := update g.groupMap group [] }

def addEdgesFromGroup (groupFrom nodeTo : Nat) : HBGraph :=
  (g.groupMap groupFrom).foldl (fun g n => g.addEdge n nodeTo) g

/-! ## Edges and paths -/

/-- An edge is kept at its target, in `incoming`. -/
def Edge (a b : Nat) : Prop := ∃ n, g.getNode? b = some n ∧ a ∈ n.incoming

def Path : Nat → Nat → Prop := Relation.TransGen g.Edge

end

variable {g : HBGraph}

variable {a b t id s : Nat} {c : CallCtx} {i : Option Nat} {g' : HBGraph}

/-- The ids of nodes go from 1 to the number of nodes. -/
lemma getNode?_le (h : g.getNode? id = some n) : 0 < id ∧ id ≤ g.nodes.length := by
  unfold getNode? at h
  split at h
  · cases h
  · have := (List.getElem?_eq_some_iff.1 h).1
    omega

lemma Edge.dst_le (h : g.Edge a b) : b ≤ g.nodes.length := by
  obtain ⟨n, hn, -⟩ := h
  exact (getNode?_le hn).2

/-- New ids are consecutive. -/
lemma addNode_id (hc : c.ignorable = false) : (g.addNode t c i l).1 = g.nodes.length + 1 := by
  unfold addNode
  rw [if_neg (by simp [hc])]

lemma addNode_nodes (hc : c.ignorable = false) :
    (g.addNode t c i l).2.nodes = g.nodes ++ [g.newNode t c.id i l] := by
  unfold addNode
  rw [if_neg (by simp [hc])]

@[simp] lemma addNode_groupMap (t : Nat) (c : CallCtx) (i : Option Nat) (l : Nat) :
    (g.addNode t c i l).2.groupMap = g.groupMap := by
  unfold addNode
  split <;> rfl

/-- The nodes that were there stay as they are. -/
lemma addNode_getNode? (hc : c.ignorable = false) (hid : id ≤ g.nodes.length) :
    (g.addNode t c i l).2.getNode? id = g.getNode? id := by
  unfold getNode?
  split
  · rfl
  · rw [addNode_nodes hc, List.getElem?_append_left (by omega)]

lemma addNode_getNode?_new (hc : c.ignorable = false) :
    (g.addNode t c i l).2.getNode? (g.nodes.length + 1) = some (g.newNode t c.id i l) := by
  unfold getNode?
  rw [if_neg (by omega), addNode_nodes hc]
  simp

/-- The only new edge comes from the thread's last node. -/
lemma addNode_edge (hc : c.ignorable = false) :
    (g.addNode t c i l).2.Edge a b ↔ g.Edge a b ∨ (a = l ∧ l ≠ 0 ∧ b = g.nodes.length + 1) := by
  by_cases hb : b ≤ g.nodes.length
  · unfold Edge
    rw [addNode_getNode? hc hb]
    constructor
    · exact .inl
    · rintro (h | ⟨-, -, h⟩)
      · exact h
      · omega
  by_cases hb' : b = g.nodes.length + 1
  · subst hb'
    unfold Edge
    rw [addNode_getNode?_new hc]
    constructor
    · rintro ⟨n, hn, ha⟩
      cases hn
      simp only [newNode] at ha
      split at ha
      · cases ha
      · exact .inr ⟨by simpa using ha, by assumption, rfl⟩
    · rintro (h | ⟨rfl, hl, -⟩)
      · have := Edge.dst_le h
        omega
      · exact ⟨_, rfl, by simp [newNode, hl]⟩
  · constructor
    · rintro ⟨n, hn, -⟩
      have := (getNode?_le hn).2
      rw [addNode_nodes hc] at this
      simp at this
      omega
    · rintro (h | ⟨-, -, h⟩)
      · have := Edge.dst_le h
        omega
      · omega

@[simp] lemma addEdge_length (a b : Nat) : (g.addEdge a b).nodes.length = g.nodes.length := by
  unfold addEdge
  split
  · rfl
  · simp

@[simp] lemma addEdge_groupMap (a b : Nat) : (g.addEdge a b).groupMap = g.groupMap := by
  unfold addEdge
  split <;> rfl

/-- An edge changes neither the thread nor the context of a node. -/
lemma addEdge_threads (a b : Nat) :
    ((g.addEdge a b).nodes.map fun n => (n.tuid, n.callctx)) =
      g.nodes.map fun n => (n.tuid, n.callctx) := by
  unfold addEdge
  split
  · rfl
  apply ext_getElem?
  intro i
  rw [List.getElem?_map, List.getElem?_map, List.getElem?_modify]
  cases g.nodes[i]? with
  | none => rfl
  | some n =>
    simp only [Option.map_eq_map, Option.map_some]
    split
    · split <;> rfl
    · rfl

/-- Only the target changes. -/
lemma addEdge_getNode?_ne (h : id ≠ b) : (g.addEdge a b).getNode? id = g.getNode? id := by
  unfold addEdge getNode?
  split
  · rfl
  split
  · rfl
  · rw [List.getElem?_modify_ne _ _ (by omega)]

lemma addEdge_getNode?_self (h : ¬ (s = 0 ∨ d = 0 ∨ s = d)) :
    (g.addEdge s d).getNode? d = (g.getNode? d).map fun n =>
      if s ∈ n.incoming then n else { n with incoming := n.incoming ++ [s] } := by
  unfold addEdge getNode?
  split
  · omega
  · simp

/-- One new edge if the target is there, but none from the null node or to itself. -/
lemma addEdge_edge :
    (g.addEdge s d).Edge a b ↔
      g.Edge a b ∨ (a = s ∧ b = d ∧ s ≠ 0 ∧ s ≠ d ∧ 0 < d ∧ d ≤ g.nodes.length) := by
  by_cases hsd : s = 0 ∨ d = 0 ∨ s = d
  · unfold addEdge
    rw [if_pos hsd]
    constructor
    · exact .inl
    · rintro (h | ⟨-, -, h0, h1, h2, -⟩)
      · exact h
      · omega
  by_cases hb : b = d
  · subst hb
    unfold Edge
    rw [addEdge_getNode?_self hsd]
    constructor
    · rintro ⟨n, hn, ha⟩
      obtain ⟨m, hm, rfl⟩ := Option.map_eq_some_iff.1 hn
      have hle := getNode?_le hm
      split at ha
      · exact .inl ⟨m, hm, ha⟩
      rcases mem_append.1 ha with ha | ha
      · exact .inl ⟨m, hm, ha⟩
      · exact .inr ⟨by simpa using ha, rfl, by omega, by omega, by omega, by omega⟩
    · rintro (⟨m, hm, ha⟩ | ⟨rfl, -, -, -, h2, h3⟩)
      · refine ⟨_, by rw [hm]; rfl, ?_⟩
        dsimp only
        split
        · exact ha
        · exact mem_append_left _ ha
      · have : ∃ m, g.getNode? b = some m := by
          unfold getNode?
          rw [if_neg (by omega)]
          exact ⟨_, List.getElem?_eq_getElem (by omega)⟩
        obtain ⟨m, hm⟩ := this
        refine ⟨_, by rw [hm]; rfl, ?_⟩
        dsimp only
        split
        · assumption
        · simp
  · unfold Edge
    rw [addEdge_getNode?_ne hb]
    constructor
    · exact .inl
    · rintro (h | ⟨-, h, -⟩)
      · exact h
      · exact absurd h hb

lemma foldl_addEdge_length (l : List Nat) (d : Nat) :
    (l.foldl (fun g n => g.addEdge n d) g).nodes.length = g.nodes.length := by
  induction l generalizing g with
  | nil => rfl
  | cons n l ih => rw [foldl_cons, ih, addEdge_length]

lemma foldl_addEdge_groupMap (l : List Nat) (d : Nat) :
    (l.foldl (fun g n => g.addEdge n d) g).groupMap = g.groupMap := by
  induction l generalizing g with
  | nil => rfl
  | cons n l ih => rw [foldl_cons, ih, addEdge_groupMap]

/-- By induction on the sources: the edges to one target come together. -/
lemma foldl_addEdge_edge {l : List Nat} :
    (l.foldl (fun g n => g.addEdge n d) g).Edge a b ↔
      g.Edge a b ∨ (a ∈ l ∧ b = d ∧ a ≠ 0 ∧ a ≠ d ∧ 0 < d ∧ d ≤ g.nodes.length) := by
  induction l generalizing g with
  | nil => simp
  | cons n l ih =>
    rw [foldl_cons, ih, addEdge_edge, addEdge_length, mem_cons]
    constructor
    · rintro ((h | ⟨rfl, rfl, h⟩) | ⟨h, h'⟩)
      · exact .inl h
      · exact .inr ⟨.inl rfl, rfl, h⟩
      · exact .inr ⟨.inr h, h'⟩
    · rintro (h | ⟨rfl | h, h'⟩)
      · exact .inl (.inl h)
      · exact .inl (.inr ⟨rfl, h'⟩)
      · exact .inr ⟨h, h'⟩

@[simp] lemma addEdgesFromGroup_length (grp d : Nat) :
    (g.addEdgesFromGroup grp d).nodes.length = g.nodes.length :=
  foldl_addEdge_length _ _

@[simp] lemma addEdgesFromGroup_groupMap (grp d : Nat) :
    (g.addEdgesFromGroup grp d).groupMap = g.groupMap :=
  foldl_addEdge_groupMap _ _

/-- One edge from each member of the group but the target itself. -/
lemma addEdgesFromGroup_edge :
    (g.addEdgesFromGroup grp d).Edge a b ↔
      g.Edge a b ∨ (a ∈ g.groupMap grp ∧ b = d ∧ a ≠ 0 ∧ a ≠ d ∧ 0 < d ∧ d ≤ g.nodes.length) :=
  foldl_addEdge_edge

@[simp] lemma addNodeToGroup_nodes (n grp : Nat) : (g.addNodeToGroup n grp).nodes = g.nodes := rfl

/-- The node joins the members of the group. -/
lemma mem_addNodeToGroup :
    m ∈ (g.addNodeToGroup n grp).groupMap grp ↔ m = n ∨ m ∈ g.groupMap grp := by
  unfold addNodeToGroup
  simp only [update_self]
  split
  · constructor
    · exact .inr
    · rintro (rfl | h)
      · assumption
      · exact h
  · rw [mem_orderedInsert]

/-! ## Positions in a thread -/

/-- The nodes of a thread, in the order of their ids. -/
def allOf (g : HBGraph) (tuid : Nat) : List HBNode := g.nodes.filter fun n => n.tuid == tuid

/-- `threadOrder` numbers the nodes of each thread from 1, and `threadOrders` counts them. -/
structure OrdersOk (g : HBGraph) : Prop where
  order : ∀ t i node, (g.allOf t)[i]? = some node → node.threadOrder = i + 1
  count : ∀ t, g.threadOrders t = (g.allOf t).length

lemma ordersOk_empty : empty.OrdersOk := ⟨by simp [allOf, empty], by simp [allOf, empty]⟩

/-- The new node has the next number of its thread. -/
lemma OrdersOk.addNode (h : g.OrdersOk) : (g.addNode t c i l).2.OrdersOk := by
  unfold HBGraph.addNode
  split
  · exact h
  have hall : ∀ u, allOf { g with
      nodes := g.nodes ++ [g.newNode t c.id i l]
      threadOrders := update g.threadOrders t (g.threadOrders t + 1) } u =
      g.allOf u ++ if u = t then [g.newNode t c.id i l] else [] := by
    intro u
    unfold allOf
    by_cases hut : u = t
    · simp [hut, newNode]
    · simp [hut, newNode, Ne.symm hut]
  constructor
  · intro u j node hj
    rw [hall] at hj
    by_cases hut : u = t
    · subst hut
      rcases Nat.lt_or_ge j (g.allOf u).length with hlt | hge
      · rw [List.getElem?_append_left hlt] at hj
        exact h.order u j node hj
      rw [List.getElem?_append_right hge] at hj
      obtain ⟨hz, rfl⟩ : j - (g.allOf u).length = 0 ∧ node = g.newNode u c.id i l := by
        cases hd : j - (g.allOf u).length with
        | zero => rw [hd] at hj; exact ⟨rfl, by simpa using hj.symm⟩
        | succ m => rw [hd] at hj; simp at hj
      have := h.count u
      simp only [newNode]
      omega
    · rw [if_neg hut, append_nil] at hj
      exact h.order u j node hj
  · intro u
    rw [hall]
    by_cases hut : u = t
    · subst hut
      simp [h.count u]
    · simp [hut, h.count u]

/-- A change of one node that keeps its thread and its number. -/
lemma OrdersOk.modify (h : g.OrdersOk)
    (hf : ∀ n, (f n).tuid = n.tuid ∧ (f n).threadOrder = n.threadOrder) (i : Nat) :
    OrdersOk { g with nodes := g.nodes.modify i f } := by
  have key : ∀ (l : List HBNode) (i t : Nat),
      ((l.modify i f).filter fun n => n.tuid == t).map HBNode.threadOrder =
        (l.filter fun n => n.tuid == t).map HBNode.threadOrder := by
    intro l
    induction l with
    | nil => intro i t; cases i <;> simp
    | cons n l ih =>
      intro i t
      cases i with
      | zero =>
        simp only [modify_zero_cons, filter_cons, (hf n).1]
        split <;> simp [(hf n).2]
      | succ i =>
        simp only [modify_succ_cons, filter_cons]
        split <;> simp [ih i t]
  constructor
  · intro t j node hj
    have hj' := congrArg (fun l : List Nat => l[j]?) (key g.nodes i t)
    simp only [List.getElem?_map] at hj'
    unfold allOf at hj
    rw [hj] at hj'
    obtain ⟨m, hm, ho⟩ := Option.map_eq_some_iff.1 hj'.symm
    rw [← ho]
    exact h.order t j m hm
  · intro t
    have hm := congrArg List.length (key g.nodes i t)
    simp only [length_map] at hm
    rw [h.count t]
    exact hm.symm

lemma OrdersOk.addEdge (h : g.OrdersOk) : (g.addEdge a b).OrdersOk := by
  unfold HBGraph.addEdge
  split
  · exact h
  · refine h.modify (fun n => ?_) (b - 1)
    split <;> exact ⟨rfl, rfl⟩

/-! ## Order along the edges -/

/-- The happens-before order of the nodes. -/
def Le (g : HBGraph) : Nat → Nat → Prop := Relation.ReflTransGen g.Edge

lemma Le.refl (a : Nat) : g.Le a a := Relation.ReflTransGen.refl

lemma Le.trans {c : Nat} (h : g.Le a b) (h' : g.Le b c) : g.Le a c :=
  Relation.ReflTransGen.trans h h'

lemma Le.mono (hmono : ∀ a b, g.Edge a b → g'.Edge a b) (h : g.Le a b) : g'.Le a b :=
  Relation.ReflTransGen.mono hmono _ _ h

/-- With an edge behind it there is at least one step. -/
lemma Le.path {c : Nat} (h : g.Le a b) (h' : g.Edge b c) : g.Path a c :=
  Relation.TransGen.tail' h h'

lemma Path.le (h : g.Path a b) : g.Le a b := Relation.TransGen.to_reflTransGen h

lemma Path.mono (hmono : ∀ a b, g.Edge a b → g'.Edge a b) (h : g.Path a b) : g'.Path a b :=
  Relation.TransGen.mono hmono _ _ h

lemma Le.ne_zero (h : g.Le a b) (ha : 0 < a) : b ≠ 0 := by
  rcases Relation.ReflTransGen.cases_tail h with rfl | ⟨c, -, n, hn, -⟩
  · omega
  · have := (getNode?_le hn).1
    omega

end HBGraph

end InputCovSched
