import InputCovSched.Lib.Machine
import Mathlib.Data.List.Basic
import Mathlib.Data.List.Induction

/-!
# The execution tree (`include/cloud9/ExecutionTree.h`)

Nodes are known by their addresses, and have a flag for each layer on which they exist; the parent
has a copy of that flag. `At t n is`: the child indices `is` lead from the root to `n`.

    the trees that `getNode` grows from a new tree are well formed  (wellFormed_of_grow)
    along indices that lead to a node, `getNode` finds that node  (walk_eq)
-/

namespace InputCovSched

open Function List

structure TreeNode where
  childrenNodes : Nat → Option Nat
  parent : Option Nat
  level : Nat
  index : Nat
  /-- The number of children on each layer, and on all of them. -/
  count : Nat → Nat
  totalCount : Nat
  /-- `children[index][layer]` -/
  children : Nat → Nat → Bool
  /-- `exists[layer]` -/
  onLayer : Nat → Bool

def TreeNode.shape (x : TreeNode) : (Nat → Option Nat) × Option Nat × Nat × Nat :=
  (x.childrenNodes, x.parent, x.level, x.index)

/-- `fresh` is the address of the next new node. -/
structure ExecutionTree where
  node : Nat → TreeNode
  root : Nat
  fresh : Nat

namespace ExecutionTree

variable (t : ExecutionTree)

def modify (n : Nat) (f : TreeNode → TreeNode) : ExecutionTree :=
  { t with node := update t.node n (f (t.node n)) }

/-- `new TreeNode(p, index)`; the children of the binary tree are 0 and 1. -/
def newNode (p index : Nat) : ExecutionTree × Nat :=
  let c : TreeNode := ⟨fun _ => none, some p, (t.node p).level + 1, index, fun _ => 0, 0,
    fun _ _ => false, fun _ => false⟩
  let t' : ExecutionTree :=
    { t with
      node := update t.node t.fresh c
      fresh := t.fresh + 1 }
  (t'.modify p fun x => { x with childrenNodes := update x.childrenNodes index (some t.fresh) },
    t.fresh)

/-- The constructor makes the root on every layer. -/
def new : ExecutionTree where
  node := fun _ => ⟨fun _ => none, none, 0, 0, fun _ => 0, 0, fun _ _ => false, fun _ => true⟩
  root := 0
  fresh := 1

/-- `parent->children[index][layer] = true; parent->incCount(layer)` -/
def addChild (layer p index : Nat) : ExecutionTree :=
  t.modify p fun x =>
    { x with
      children := update x.children index (update (x.children index) layer true)
      count := update x.count layer (x.count layer + 1)
      totalCount := x.totalCount + 1 }

/-- `none` is a failed assertion. -/
def makeNode (layer n : Nat) : Option ExecutionTree :=
  if (t.node n).onLayer layer then none
  else
    let setLayer (t : ExecutionTree) : ExecutionTree :=
      t.modify n fun x => { x with onLayer := update x.onLayer layer true }
    match (t.node n).parent with
    | none => some (setLayer t)
    | some p =>
      if (t.node p).children (t.node n).index layer then none
      else some (setLayer (t.addChild layer p (t.node n).index))

def getNode (layer n index : Nat) : Option (ExecutionTree × Nat) :=
  if (t.node n).onLayer layer then
    let (t', result) :=
      match (t.node n).childrenNodes index with
      | some c => (t, c)
      | none => t.newNode n index
    if (t'.node n).children index layer then some (t', result)
    else do
      let t'' ← t'.makeNode layer result
      some (t'', result)
  else none

def walk (layer : Nat) : ExecutionTree → Nat → List Nat → Nat → Option (ExecutionTree × Nat)
  | t, crtNode, [], _ => some (t, crtNode)
  | t, crtNode, i :: is, pos =>
    if pos = 0 then some (t, crtNode)
    else do
      let (t', newNode) ← t.getNode layer crtNode i
      walk layer t' newNode is (pos - 1)

/-! ## Addresses of nodes -/

inductive At : Nat → List Nat → Prop
  | root : At t.root []
  | child {p i c : Nat} {is : List Nat} (hp : At p is) (hc : (t.node p).childrenNodes i = some c) :
      At c (is ++ [i])

/-- The flags of a child are those that its parent has. -/
structure Child (p i c : Nat) : Prop where
  parent : (t.node c).parent = some p
  index : (t.node c).index = i
  level : (t.node c).level = (t.node p).level + 1
  binary : i < 2
  onLayer : ∀ layer, (t.node p).children i layer = (t.node c).onLayer layer

structure WellFormed : Prop where
  root_level : (t.node t.root).level = 0
  root_parent : (t.node t.root).parent = none
  root_onLayer : ∀ layer, (t.node t.root).onLayer layer = true
  child : ∀ p is i c, t.At p is → (t.node p).childrenNodes i = some c → t.Child p i c
  noChild : ∀ p is i layer, t.At p is → (t.node p).childrenNodes i = none →
    (t.node p).children i layer = false
  lt_fresh : ∀ n is, t.At n is → n < t.fresh

section
variable {t} {t' : ExecutionTree} {n p c i layer : Nat} {is js : List Nat}

namespace At

lemma level (hwf : t.WellFormed) (h : t.At n is) : (t.node n).level = is.length := by
  induction h with
  | root => exact hwf.root_level
  | child hp hc ih =>
    rw [(hwf.child _ _ _ _ hp hc).level, ih, length_append]
    rfl

lemma binary (hwf : t.WellFormed) (h : t.At n is) : ∀ i ∈ is, i < 2 := by
  induction h with
  | root => exact fun i hi => (not_mem_nil hi).elim
  | child hp hc ih =>
    exact forall_mem_append.2 ⟨ih, forall_mem_singleton.2 ((hwf.child _ _ _ _ hp hc).binary)⟩

lemma eq_root (h : t.At n []) : n = t.root := by
  generalize hj : ([] : List Nat) = js at h
  cases h with
  | root => rfl
  | child hp hc => simp at hj

section
variable (hwf : t.WellFormed)
include hwf

lemma snoc_cases (h : t.At c (is ++ [i])) :
    ∃ p, t.At p is ∧ (t.node p).childrenNodes i = some c ∧ t.Child p i c := by
  generalize hj : is ++ [i] = js at h
  cases h with
  | root => simp at hj
  | child hp hc =>
    obtain ⟨rfl, hi⟩ := append_inj' hj rfl
    cases hi
    exact ⟨_, hp, hc, hwf.child _ _ _ _ hp hc⟩

lemma ne_root (h : t.At c (is ++ [i])) : c ≠ t.root := by
  rintro rfl
  obtain ⟨p, -, -, hchild⟩ := h.snoc_cases hwf
  cases hwf.root_parent.symm.trans hchild.parent

lemma unique (h : t.At n is) (h' : t.At n js) : is = js := by
  induction h generalizing js with
  | root =>
    rcases eq_nil_or_concat' js with rfl | ⟨js, j, rfl⟩
    · rfl
    · exact absurd rfl (h'.ne_root hwf)
  | @child p i c is hp hc ih =>
    rcases eq_nil_or_concat' js with rfl | ⟨js, j, rfl⟩
    · exact absurd h'.eq_root ((At.child hp hc).ne_root hwf)
    obtain ⟨p', hp', -, hchild'⟩ := h'.snoc_cases hwf
    have hchild := hwf.child _ _ _ _ hp hc
    obtain rfl : p = p' := Option.some.inj (hchild.parent.symm.trans hchild'.parent)
    rw [ih hp', hchild.index.symm.trans hchild'.index]

lemma node_unique (h : t.At n is) (h' : t.At m is) : n = m := by
  induction h generalizing m with
  | root => exact h'.eq_root.symm
  | child hp hc ih =>
    obtain ⟨p', hp', hc', -⟩ := h'.snoc_cases hwf
    rw [ih hp'] at hc
    exact Option.some.inj (hc.symm.trans hc')

lemma split (h : t.At n (is ++ js)) : ∃ m, t.At m is := by
  induction js using List.reverseRecOn generalizing n with
  | nil =>
    rw [append_nil] at h
    exact ⟨n, h⟩
  | append_singleton js j ih =>
    rw [← append_assoc] at h
    obtain ⟨p, hp, -, -⟩ := h.snoc_cases hwf
    exact ih hp

end

end At

lemma At.congr (hroot : t'.root = t.root)
    (hchildren : ∀ n, (t'.node n).childrenNodes = (t.node n).childrenNodes) (h : t.At n is) :
    t'.At n is := by
  induction h with
  | root => exact hroot ▸ .root
  | child _ hc ih => exact .child ih ((congrFun (hchildren _) _).trans hc)

/-! ## Layers -/

lemma modify_self (n : Nat) (f : TreeNode → TreeNode) : (t.modify n f).node n = f (t.node n) :=
  update_self ..

lemma modify_of_ne (h : m ≠ n) : (t.modify n f).node m = t.node m :=
  update_of_ne h ..

lemma modify_field {α : Type} (g : TreeNode → α) (n : Nat) (f : TreeNode → TreeNode)
    (hf : ∀ x, g (f x) = g x) (m : Nat) : g ((t.modify n f).node m) = g (t.node m) := by
  by_cases hm : m = n
  · subst hm
    rw [modify_self, hf]
  · rw [modify_of_ne hm]

/-- What `makeNode` does to a child: its flag, and the copy that the parent has. -/
def mark (t : ExecutionTree) (layer p i c : Nat) : ExecutionTree :=
  (t.addChild layer p i).modify c fun x =>
    { x with onLayer := update x.onLayer layer true }

lemma mark_shape (m : Nat) : ((t.mark layer p i c).node m).shape = (t.node m).shape := by
  rw [mark, modify_field TreeNode.shape, addChild, modify_field TreeNode.shape]
  · intro x
    rfl
  · intro x
    rfl

lemma mark_children (m j l : Nat) :
    ((t.mark layer p i c).node m).children j l =
      if m = p ∧ j = i ∧ l = layer then true else (t.node m).children j l := by
  have hmodify : ((t.mark layer p i c).node m).children = ((t.addChild layer p i).node m).children := by
    apply modify_field TreeNode.children
    intro x
    rfl
  rw [hmodify, addChild]
  by_cases hm : m = p
  · subst hm
    rw [modify_self]
    dsimp only
    by_cases hj : j = i
    · subst hj
      rw [update_self]
      by_cases hl : l = layer
      · subst hl
        rw [update_self, if_pos ⟨rfl, rfl, rfl⟩]
      · rw [update_of_ne hl, if_neg fun h => hl h.2.2]
    · rw [update_of_ne hj, if_neg fun h => hj h.2.1]
  · rw [modify_of_ne hm, if_neg fun h => hm h.1]

lemma mark_onLayer (m l : Nat) :
    ((t.mark layer p i c).node m).onLayer l =
      if m = c ∧ l = layer then true else (t.node m).onLayer l := by
  have hadd : ((t.addChild layer p i).node m).onLayer = (t.node m).onLayer := by
    apply modify_field TreeNode.onLayer
    intro x
    rfl
  rw [mark]
  by_cases hm : m = c
  · subst hm
    rw [modify_self]
    dsimp only
    by_cases hl : l = layer
    · subst hl
      rw [update_self, if_pos ⟨rfl, rfl⟩]
    · rw [update_of_ne hl, if_neg fun h => hl h.2, hadd]
  · rw [modify_of_ne hm, if_neg fun h => hm h.1, hadd]

lemma mark_at : (t.mark layer p i c).At n is ↔ t.At n is := by
  have hchildren : ∀ n, ((t.mark layer p i c).node n).childrenNodes = (t.node n).childrenNodes :=
    fun n => congrArg (·.1) (mark_shape n)
  constructor
  · exact At.congr rfl fun n => (hchildren n).symm
  · exact At.congr rfl hchildren

lemma WellFormed.mark (hwf : t.WellFormed) (hp : t.At p is)
    (hc : (t.node p).childrenNodes i = some c) : (t.mark layer p i c).WellFormed := by
  have hlevel : ∀ n, ((t.mark layer p i c).node n).level = (t.node n).level :=
    fun n => congrArg (·.2.2.1) (mark_shape n)
  have hparent : ∀ n, ((t.mark layer p i c).node n).parent = (t.node n).parent :=
    fun n => congrArg (·.2.1) (mark_shape n)
  have hindex : ∀ n, ((t.mark layer p i c).node n).index = (t.node n).index :=
    fun n => congrArg (·.2.2.2) (mark_shape n)
  have hnodes : ∀ n, ((t.mark layer p i c).node n).childrenNodes = (t.node n).childrenNodes :=
    fun n => congrArg (·.1) (mark_shape n)
  have hchild := hwf.child p is i c hp hc
  constructor
  · exact (hlevel _).trans hwf.root_level
  · exact (hparent _).trans hwf.root_parent
  · intro l
    rw [mark_onLayer]
    split
    · rfl
    · exact hwf.root_onLayer l
  · intro p' is' i' c' hp' hc'
    rw [mark_at] at hp'
    rw [hnodes] at hc'
    have hchild' := hwf.child p' is' i' c' hp' hc'
    refine ⟨?_, ?_, ?_, hchild'.binary, fun l => ?_⟩
    · rw [hparent, hchild'.parent]
    · rw [hindex, hchild'.index]
    · rw [hlevel, hlevel, hchild'.level]
    -- the marked child is the child `i` of `p` and no other
    have hsame : (p' = p ∧ i' = i ∧ l = layer) ↔ (c' = c ∧ l = layer) := by
      constructor
      · rintro ⟨rfl, rfl, rfl⟩
        exact ⟨Option.some.inj (hc'.symm.trans hc), rfl⟩
      · rintro ⟨rfl, rfl⟩
        refine ⟨?_, hchild'.index.symm.trans hchild.index, rfl⟩
        exact Option.some.inj (hchild'.parent.symm.trans hchild.parent)
    rw [mark_children, mark_onLayer, hchild'.onLayer]
    simp only [hsame]
  · intro p' is' i' l hp' hnone
    rw [mark_at] at hp'
    rw [hnodes] at hnone
    have hne : ¬ (p' = p ∧ i' = i ∧ l = layer) := by
      rintro ⟨rfl, rfl, rfl⟩
      cases hc.symm.trans hnone
    rw [mark_children, if_neg hne]
    exact hwf.noChild p' is' i' l hp' hnone
  · intro n js hn
    rw [mark_at] at hn
    exact hwf.lt_fresh n js hn

lemma makeNode_eq (hchild : t.Child p i c) (hflag : (t.node p).children i layer = false) :
    t.makeNode layer c = some (t.mark layer p i c) := by
  rw [makeNode, if_neg (by rw [← hchild.onLayer, hflag]; exact Bool.false_ne_true)]
  simp only [hchild.parent, hchild.index]
  rw [if_neg (by rw [hflag]; exact Bool.false_ne_true)]
  rfl

/-! ## Growth -/

lemma newNode_fresh (hp : p ≠ t.fresh) :
    (t.newNode p i).1.node t.fresh = ⟨fun _ => none, some p, (t.node p).level + 1, i, fun _ => 0, 0,
      fun _ _ => false, fun _ => false⟩ := by
  rw [newNode, modify_of_ne (Ne.symm hp)]
  exact update_self ..

lemma newNode_old (hm : m ≠ t.fresh) :
    (t.newNode p i).1.node m = { t.node m with
        childrenNodes := fun j => if m = p ∧ j = i then some t.fresh else (t.node m).childrenNodes j } := by
  rw [newNode]
  by_cases hmp : m = p
  · subst hmp
    rw [modify_self]
    dsimp only
    rw [update_of_ne hm]
    congr 1
    funext j
    by_cases hj : j = i
    · subst hj
      rw [update_self, if_pos ⟨rfl, rfl⟩]
    · rw [update_of_ne hj, if_neg fun h => hj h.2]
  · rw [modify_of_ne hmp]
    dsimp only
    rw [update_of_ne hm]
    simp only [hmp, false_and, if_false]

lemma newNode_at_cases (hwf : t.WellFormed) (hp : t.At p is) (h : (t.newNode p i).1.At n js) :
    t.At n js ∨ n = t.fresh ∧ js = is ++ [i] := by
  have hpf : p ≠ t.fresh := Nat.ne_of_lt (hwf.lt_fresh p is hp)
  induction h with
  | root => exact .inl .root
  | @child p' j c js' _ hc ih =>
    rcases ih with hp' | ⟨rfl, -⟩
    · rw [newNode_old (Nat.ne_of_lt (hwf.lt_fresh p' _ hp'))] at hc
      dsimp only at hc
      split at hc
      · rename_i h
        obtain ⟨rfl, rfl⟩ := h
        cases hc
        exact .inr ⟨rfl, by rw [hp'.unique hwf hp]⟩
      · exact .inl (.child hp' hc)
    · rw [newNode_fresh hpf] at hc
      cases hc

lemma newNode_at (hwf : t.WellFormed) (hnone : (t.node p).childrenNodes i = none) (h : t.At n js) :
    (t.newNode p i).1.At n js := by
  induction h with
  | root => exact .root
  | @child p' j c js' hp' hc ih =>
    refine .child ih ?_
    rw [newNode_old (Nat.ne_of_lt (hwf.lt_fresh p' _ hp'))]
    dsimp only
    rw [if_neg, hc]
    rintro ⟨rfl, rfl⟩
    cases hnone.symm.trans hc

lemma WellFormed.newNode (hwf : t.WellFormed) (hp : t.At p is) (hi : i < 2)
    (hnone : (t.node p).childrenNodes i = none) : (t.newNode p i).1.WellFormed := by
  have hlt : ∀ {n js}, t.At n js → n ≠ t.fresh := fun h => Nat.ne_of_lt (hwf.lt_fresh _ _ h)
  have hroot : (t.newNode p i).1.node t.root = _ := newNode_old (hlt .root)
  constructor
  · show ((t.newNode p i).1.node t.root).level = 0
    rw [hroot]
    exact hwf.root_level
  · show ((t.newNode p i).1.node t.root).parent = none
    rw [hroot]
    exact hwf.root_parent
  · intro layer
    show ((t.newNode p i).1.node t.root).onLayer layer = true
    rw [hroot]
    exact hwf.root_onLayer layer
  · intro p' is' j c hp' hc
    rcases newNode_at_cases hwf hp hp' with hp' | ⟨rfl, -⟩
    · rw [newNode_old (hlt hp')] at hc
      dsimp only at hc
      split at hc
      · rename_i h
        obtain ⟨rfl, rfl⟩ := h
        cases hc
        have hfresh := newNode_fresh (i := j) (hlt hp)
        have hold : (t.newNode p' j).1.node p' = _ := newNode_old (hlt hp)
        refine ⟨by rw [hfresh], by rw [hfresh], by rw [hfresh, hold], hi, fun layer => ?_⟩
        rw [hfresh, hold]
        exact hwf.noChild p' is j layer hp hnone
      have hchild := hwf.child p' is' j c hp' hc
      have hc' : (t.newNode p i).1.node c = _ := newNode_old (hlt (.child hp' hc))
      have hold : (t.newNode p i).1.node p' = _ := newNode_old (hlt hp')
      refine ⟨?_, ?_, ?_, hchild.binary, fun layer => ?_⟩
      · rw [hc']
        exact hchild.parent
      · rw [hc']
        exact hchild.index
      · rw [hc', hold]
        exact hchild.level
      · rw [hc', hold]
        exact hchild.onLayer layer
    · rw [newNode_fresh (hlt hp)] at hc
      cases hc
  · intro p' is' j layer hp' hnone'
    rcases newNode_at_cases hwf hp hp' with hp' | ⟨rfl, -⟩
    · rw [newNode_old (hlt hp')] at hnone' ⊢
      dsimp only at hnone'
      split at hnone'
      · cases hnone'
      · exact hwf.noChild p' is' j layer hp' hnone'
    · rw [newNode_fresh (hlt hp)]
  · intro n js hn
    show n < t.fresh + 1
    rcases newNode_at_cases hwf hp hn with hn | ⟨rfl, -⟩
    · exact Nat.lt_succ_of_lt (hwf.lt_fresh n js hn)
    · exact Nat.lt_succ_self _

/-- What every step of `getNode` keeps of the tree. -/
structure Kept (t t' : ExecutionTree) : Prop where
  wellFormed : t'.WellFormed
  at_iff : ∀ n is, t'.At n is ↔ t.At n is

lemma Kept.refl (hwf : t.WellFormed) : Kept t t := ⟨hwf, fun _ _ => Iff.rfl⟩

lemma Kept.trans (h : Kept t t') (h' : Kept t' t'') : Kept t t'' :=
  ⟨h'.wellFormed, fun n is => (h'.at_iff n is).trans (h.at_iff n is)⟩

lemma getNode_eq (hwf : t.WellFormed) (hp : t.At p is) (hc : (t.node p).childrenNodes i = some c)
    (hlayer : (t.node p).onLayer layer = true) :
    ∃ t', t.getNode layer p i = some (t', c) ∧ Kept t t' ∧ (t'.node c).onLayer layer = true := by
  have hchild := hwf.child p is i c hp hc
  simp only [getNode, hlayer, if_true, hc]
  cases hflag : (t.node p).children i layer with
  | true => exact ⟨t, rfl, .refl hwf, (hchild.onLayer layer).symm.trans hflag⟩
  | false =>
    refine ⟨t.mark layer p i c, ?_, ⟨hwf.mark hp hc, fun _ _ => mark_at⟩, ?_⟩
    · rw [makeNode_eq hchild hflag]
      rfl
    · rw [mark_onLayer, if_pos ⟨rfl, rfl⟩]

lemma WellFormed.getNode (hwf : t.WellFormed) (hp : t.At p is) (hi : i < 2)
    (hget : t.getNode layer p i = some (t', c)) : t'.WellFormed := by
  unfold ExecutionTree.getNode at hget
  split at hget
  · rename_i hlayer
    cases hc : (t.node p).childrenNodes i with
    | some c' =>
      obtain ⟨t₁, hget₁, hkept, -⟩ := getNode_eq hwf hp hc hlayer
      simp only [ExecutionTree.getNode, hlayer, if_true, hc] at hget₁ hget
      cases hget₁.symm.trans hget
      exact hkept.wellFormed
    | none =>
      have hpf : p ≠ t.fresh := Nat.ne_of_lt (hwf.lt_fresh p is hp)
      have hwf₁ := hwf.newNode hp hi hc
      have hp₁ := newNode_at hwf hc hp
      have hc₁ : ((t.newNode p i).1.node p).childrenNodes i = some t.fresh := by
        rw [newNode_old hpf]
        exact if_pos ⟨rfl, rfl⟩
      have hflag : ((t.newNode p i).1.node p).children i layer = false := by
        rw [newNode_old hpf]
        exact hwf.noChild p is i layer hp hc
      simp only [hc] at hget
      rw [if_neg (by rw [hflag]; exact Bool.false_ne_true)] at hget
      have hmake := makeNode_eq (hwf₁.child p is i t.fresh hp₁ hc₁) hflag
      have hsnd : (t.newNode p i).2 = t.fresh := rfl
      rw [hsnd, hmake] at hget
      cases hget
      exact hwf₁.mark hp₁ hc₁
  · cases hget

lemma wellFormed_new : new.WellFormed := by
  have hat : ∀ {n is}, new.At n is → n = 0 := by
    intro n is h
    cases h with
    | root => rfl
    | child hp hc => cases hc
  refine ⟨rfl, rfl, fun _ => rfl, fun p is i c hp hc => ?_, fun p is i layer hp _ => rfl, fun n is hn => ?_⟩
  · cases hc
  · rw [hat hn]
    exact Nat.one_pos

/-- A call of `getNode(layer, root, index)`. -/
structure GetNode where
  layer : Nat
  node : Nat
  index : Nat

def grow (t : ExecutionTree) (l : GetNode) : Option ExecutionTree :=
  (t.getNode l.layer l.node l.index).map Prod.fst

def GetNode.Valid (t : ExecutionTree) (l : GetNode) : Prop := (∃ is, t.At l.node is) ∧ l.index < 2

lemma wellFormed_of_grow (hrun : Machine.runFrom grow new ls = some t)
    (hvalid : Machine.Meets grow GetNode.Valid new ls) : t.WellFormed := by
  refine Machine.inv_of_meets grow (fun t l t' hwf hl hstep => ?_) wellFormed_new hvalid hrun
  obtain ⟨⟨is, hat⟩, hi⟩ := hl
  obtain ⟨⟨t₁, c⟩, hget, rfl⟩ := Option.map_eq_some_iff.1 hstep
  exact hwf.getNode hat hi hget

lemma walk_eq {b pos : Nat} (hwf : t.WellFormed) (hn : t.At n is)
    (hlayer : (t.node n).onLayer layer = true) (hb : t.At b (is ++ js.take pos)) :
    ∃ t', walk layer t n js pos = some (t', b) ∧ Kept t t' ∧ (t'.node b).onLayer layer = true := by
  induction js generalizing t n is pos with
  | nil =>
    rw [take_nil, append_nil] at hb
    obtain rfl := hn.node_unique hwf hb
    exact ⟨t, rfl, .refl hwf, hlayer⟩
  | cons j js ih =>
    rw [walk]
    cases pos with
    | zero =>
      rw [take_zero, append_nil] at hb
      obtain rfl := hn.node_unique hwf hb
      exact ⟨t, rfl, .refl hwf, hlayer⟩
    | succ pos =>
      have hb' : t.At b ((is ++ [j]) ++ js.take pos) := by
        rw [append_assoc]
        exact hb
      obtain ⟨c, hc⟩ := hb'.split hwf
      obtain ⟨p, hp, hchild, -⟩ := hc.snoc_cases hwf
      obtain rfl := hp.node_unique hwf hn
      obtain ⟨t₁, hget, hkept, hlayer₁⟩ := getNode_eq hwf hp hchild hlayer
      obtain ⟨t₂, hwalk, hkept₂, hlayer₂⟩ := ih hkept.wellFormed ((hkept.at_iff _ _).2 hc) hlayer₁
        ((hkept.at_iff _ _).2 hb')
      refine ⟨t₂, ?_, hkept.trans hkept₂, hlayer₂⟩
      rw [if_neg (Nat.succ_ne_zero pos), hget]
      exact hwalk

/-- In a tree that was grown from a new one, the indices of a node lead to it on every layer, and
no node gets another address on the way. -/
theorem walk_of_grow (layer : Nat) (hrun : Machine.runFrom grow new ls = some t)
    (hvalid : Machine.Meets grow GetNode.Valid new ls) (h : t.At n is) :
    ∃ t', walk layer t t.root is is.length = some (t', n) ∧ ∀ m js, t'.At m js ↔ t.At m js := by
  have hwf := wellFormed_of_grow hrun hvalid
  have hat : t.At n ([] ++ is.take is.length) := by simpa using h
  obtain ⟨t', hwalk, hkept, -⟩ := walk_eq hwf .root (hwf.root_onLayer layer) hat
  exact ⟨t', hwalk, hkept.at_iff⟩

/-- Three nodes, the last on another layer. -/
theorem walk_of_grow_branches : ∃ t t',
    Machine.runFrom grow new [⟨0, 0, 1⟩, ⟨0, 1, 0⟩, ⟨3, 0, 0⟩] = some t ∧
      walk 3 t t.root [1, 0] 2 = some (t', 2) ∧ ∀ m js, t'.At m js ↔ t.At m js := by
  have hvalid : Machine.Meets grow GetNode.Valid new [⟨0, 0, 1⟩, ⟨0, 1, 0⟩, ⟨3, 0, 0⟩] := by
    refine ⟨⟨⟨[], .root⟩, by decide⟩, ⟨⟨[1], ?_⟩, by decide⟩, ⟨⟨[], .root⟩, by decide⟩, trivial⟩
    exact .child (i := 1) (c := 1) .root rfl
  have hrun : ∃ t, Machine.runFrom grow new [⟨0, 0, 1⟩, ⟨0, 1, 0⟩, ⟨3, 0, 0⟩] = some t ∧
      t.At 2 [1, 0] := ⟨_, rfl, .child (i := 0) (c := 2) (.child (i := 1) (c := 1) .root rfl) rfl⟩
  obtain ⟨t, hrun, hnode⟩ := hrun
  obtain ⟨t', hwalk, hat⟩ := walk_of_grow 3 hrun hvalid hnode
  exact ⟨t, t', hrun, hwalk, hat⟩

end

end ExecutionTree

end InputCovSched
