import InputCovSched.Cloud9.ExecutionTree
import InputCovSched.Lib.Fuel
import InputCovSched.Lib.Lists

/-!
# Path sets (`include/cloud9/ExecutionTree.h`, `include/cloud9/ExecutionPath.h`)

`buildPathSet` climbs from each node to the root and labels the nodes on the way with the number of
the path. At a node that already has a label it stops: the path then starts at a position in an
earlier path. `getNodes` follows the paths down again, and `cleanupLabels` climbs once more and
stops where the label is gone.

    every labelled node is on the path that its label names  (Building.Inv.addPath)
    a path stands for the indices from the root to its node  (Resolves)
    the labels are cleared, the paths lead to the nodes  (buildPathSet_settles)
-/

namespace InputCovSched

open Function List Option

/-- The parent is an earlier path of the set, known by its number. -/
structure ExecutionPath where
  path : List Nat
  parent : Option Nat
  parentIndex : Nat
  deriving DecidableEq

namespace ExecutionTree

/-- The loop of `buildPathSet` over the ancestors of a node, with the `_label` of all nodes: the new
labels, the indices that were collected, and the labelled node where the loop stopped. -/
def climb (t : ExecutionTree) (i : Nat) :
    Nat → Nat → (Nat → Nat) → List Nat → Option ((Nat → Nat) × List Nat × Option Nat)
  | 0, _, _, _ => none
  | fuel + 1, crtNode, label, path =>
    if crtNode = t.root then some (label, path, none)
    else if 0 < label crtNode then some (label, path, some crtNode)
    else do
      let parent ← (t.node crtNode).parent
      t.climb i fuel parent (update label crtNode (i + 1)) (path ++ [(t.node crtNode).index])

/-- `set->paths` and `processed` have the same length, which is the counter of the loop. -/
structure Building where
  label : Nat → Nat
  paths : List ExecutionPath
  processed : List Nat

def addPath (t : ExecutionTree) (fuel : Nat) (s : Building) (node : Nat) : Option Building := do
  let (label, path, hit) ← t.climb s.paths.length fuel node s.label []
  let (parent, parentIndex) ←
    match hit with
    | none => some (none, 0)
    | some crtNode => do
      let p ← s.paths[label crtNode - 1]?
      let last ← s.processed[label crtNode - 1]?
      some (some (label crtNode - 1), p.path.length - ((t.node last).level - (t.node crtNode).level))
  some ⟨label, s.paths ++ [⟨path.reverse, parent, parentIndex⟩], s.processed ++ [node]⟩

def clearFrom (t : ExecutionTree) : Nat → (Nat → Nat) → Nat → Option (Nat → Nat)
  | 0, _, _ => none
  | fuel + 1, label, crtNode =>
    if crtNode = t.root then some label
    else if label crtNode = 0 then some label
    else do
      let parent ← (t.node crtNode).parent
      t.clearFrom fuel (update label crtNode 0) parent

def cleanupLabels (t : ExecutionTree) (fuel : Nat) (nodes : List Nat) (label : Nat → Nat) :
    Option (Nat → Nat) :=
  nodes.foldlM (t.clearFrom fuel) label

def buildPathSet (t : ExecutionTree) (fuel : Nat) (label : Nat → Nat) (nodes : List Nat) :
    Option ((Nat → Nat) × List ExecutionPath) := do
  let s ← nodes.foldlM (t.addPath fuel) ⟨label, [], []⟩
  let label ← t.cleanupLabels fuel nodes s.label
  some (label, s.paths)

def getNodeAt (paths : List ExecutionPath) (layer : Nat) :
    Nat → ExecutionTree → ExecutionPath → Nat → Option (ExecutionTree × Nat)
  | 0, _, _, _ => none
  | fuel + 1, t, p, pos =>
    if (t.node t.root).onLayer layer then do
      let (t', crtNode) ←
        match p.parent with
        | none => some (t, t.root)
        | some q => do
          let parent ← paths[q]?
          getNodeAt paths layer fuel t parent p.parentIndex
      walk layer t' crtNode p.path pos
    else none

def getNodes (t : ExecutionTree) (fuel layer : Nat) (paths : List ExecutionPath) :
    Option (ExecutionTree × List Nat) :=
  paths.foldlM (fun s p => do
    let (t', crtNode) ← getNodeAt paths layer fuel s.1 p p.path.length
    some (t', s.2 ++ [crtNode])) (t, [])

/-! ## The ancestors of a node -/

variable {t : ExecutionTree} {n m v : Nat} {is base : List Nat} {label : Nat → Nat}

def Between (t : ExecutionTree) (base is : List Nat) (m : Nat) : Prop :=
  ∃ js, t.At m js ∧ js <+: is ∧ base.length < js.length

lemma not_between_self : ¬ t.Between is is m := by
  rintro ⟨js, -, hpre, hlt⟩
  exact absurd hpre.length_le (by omega)

lemma between_child_iff (hwf : t.WellFormed) (hc : t.At c (is ++ [j]))
    (hbase : base.length ≤ is.length) :
    t.Between base (is ++ [j]) m ↔ m = c ∨ t.Between base is m := by
  constructor
  · rintro ⟨js, hm, hpre, hlt⟩
    rcases prefix_concat_iff.1 hpre with rfl | hpre
    · exact .inl (hm.node_unique hwf hc)
    · exact .inr ⟨js, hm, hpre, hlt⟩
  · rintro (rfl | ⟨js, hm, hpre, hlt⟩)
    · refine ⟨_, hc, prefix_refl _, ?_⟩
      rw [length_append]
      exact Nat.lt_succ_of_le hbase
    · exact ⟨js, hm, hpre.trans (prefix_append _ _), hlt⟩

lemma not_at_of_length_lt (hwf : t.WellFormed) (hn : t.At n is)
    (hlt : js.length < is.length) : ¬ t.At n js := by
  intro h
  rw [h.unique hwf hn] at hlt
  exact lt_irrefl _ hlt

lemma climb_settles (hwf : t.WellFormed) (hn : t.At n is) (i : Nat) (label : Nat → Nat)
    (path : List Nat) :
    ∃ label' base js hit, is = base ++ js ∧
      Settles (fun fuel => t.climb i fuel n label path) (some (label', path ++ js.reverse, hit)) ∧
      (∀ m, t.Between base is m → label' m = i + 1) ∧
      (∀ m, ¬ t.Between base is m → label' m = label m) ∧
      (hit = none ∧ base = [] ∨ ∃ h, hit = some h ∧ t.At h base ∧ 0 < label h) := by
  induction hn generalizing label path with
  | root =>
    refine ⟨label, [], [], none, rfl, ?_, fun m hm => absurd hm not_between_self, fun _ _ => rfl,
      .inl ⟨rfl, rfl⟩⟩
    rw [reverse_nil, append_nil]
    refine (Settles.const (some (label, path, none))).step fun fuel => ?_
    rw [climb, if_pos rfl]
  | @child p j c is hp hc ih =>
    have hat : t.At c (is ++ [j]) := .child hp hc
    have hchild := hwf.child _ _ _ _ hp hc
    by_cases hlabel : 0 < label c
    · refine ⟨label, is ++ [j], [], some c, (append_nil _).symm, ?_,
        fun m hm => absurd hm not_between_self, fun _ _ => rfl, .inr ⟨c, rfl, hat, hlabel⟩⟩
      rw [reverse_nil, append_nil]
      refine (Settles.const (some (label, path, some c))).step fun fuel => ?_
      rw [climb, if_neg (hat.ne_root hwf), if_pos hlabel]
    obtain ⟨label', base, js, hit, his, hset, hin, hout, hhit⟩ :=
      ih (update label c (i + 1)) (path ++ [j])
    have hbase : base.length ≤ is.length := by
      rw [his, length_append]
      exact Nat.le_add_right _ _
    have hlen : is.length < (is ++ [j]).length := by
      rw [length_append]
      exact Nat.lt_succ_self _
    have hnot : ¬ t.Between base is c := by
      rintro ⟨ks, hks, hpre, -⟩
      exact not_at_of_length_lt hwf hat (lt_of_le_of_lt hpre.length_le hlen) hks
    refine ⟨label', base, js ++ [j], hit, by rw [his, append_assoc], ?_, ?_, ?_, ?_⟩
    · rw [reverse_append, reverse_singleton, ← append_assoc]
      refine hset.step fun fuel => ?_
      rw [climb, if_neg (hat.ne_root hwf), if_neg hlabel, hchild.parent, hchild.index]
      rfl
    · intro m hm
      rcases (between_child_iff hwf hat hbase).1 hm with rfl | hm
      · rw [hout m hnot, update_self]
      · exact hin m hm
    · intro m hm
      rw [between_child_iff hwf hat hbase, not_or] at hm
      rw [hout m hm.2, update_of_ne hm.1]
    · rcases hhit with hnone | ⟨h, rfl, hh, hpos⟩
      · exact .inl hnone
      have hne : h ≠ c := by
        rintro rfl
        exact not_at_of_length_lt hwf hat (lt_of_le_of_lt hbase hlen) hh
      rw [update_of_ne hne] at hpos
      exact .inr ⟨h, rfl, hh, hpos⟩

/-! ## The positions of the paths -/

/-- The indices that `getNodeAt` follows: those up to the position in the parent, then the first
`pos` ones of the path. -/
inductive Resolves (paths : List ExecutionPath) : ExecutionPath → Nat → List Nat → Prop
  | root {p : ExecutionPath} (pos : Nat) (hp : p.parent = none) : Resolves paths p pos (p.path.take pos)
  | sub {p q : ExecutionPath} {k : Nat} {base : List Nat} (pos : Nat) (hp : p.parent = some k)
      (hk : paths[k]? = some q) (hq : Resolves paths q p.parentIndex base) :
      Resolves paths p pos (base ++ p.path.take pos)

variable {nodes : List Nat} {paths : List ExecutionPath} {pos : Nat} {label' : Nat → Nat}

lemma Resolves.append (h : Resolves paths p pos is)
    (more : List ExecutionPath) : Resolves (paths ++ more) p pos is := by
  induction h with
  | root pos hp => exact .root pos hp
  | sub pos hp hk _ ih =>
    refine .sub pos hp ?_ ih
    rw [List.getElem?_append_left (List.getElem?_eq_some_iff.1 hk).1]
    exact hk

def Leads (t : ExecutionTree) (paths : List ExecutionPath) (p : ExecutionPath) (v : Nat) : Prop :=
  ∃ base, t.At v (base ++ p.path) ∧ ∀ pos, Resolves paths p pos (base ++ p.path.take pos)

/-- The parent of path number `k`, if it has one, comes before it. -/
def ParentFirst (k : Nat) (p : ExecutionPath) : Prop :=
  match p.parent with
  | none => p.parentIndex = 0
  | some q => q < k

def ParentsFirst (paths : List ExecutionPath) : Prop :=
  ∀ (k : Nat) p, paths[k]? = some p → ParentFirst k p

namespace Building

structure Inv (t : ExecutionTree) (s : Building) : Prop where
  length : s.paths.length = s.processed.length
  parentsFirst : ParentsFirst s.paths
  leads : ∀ (k : Nat) p v, s.paths[k]? = some p → s.processed[k]? = some v → Leads t s.paths p v
  labelled : ∀ m k, s.label m = k + 1 → ∃ p v is js, s.paths[k]? = some p ∧ s.processed[k]? = some v ∧
    t.At m is ∧ t.At v (is ++ js) ∧ js.length < p.path.length
  complete : ∀ v ∈ s.processed, ∀ m is js, t.At m is → t.At v (is ++ js) → m ≠ t.root → s.label m ≠ 0

variable {s : Building}

section
variable (hwf : t.WellFormed) (hs : s.Inv t)
include hwf hs

lemma Inv.resolves (hh : t.At h base) (hlabel : s.label h = k + 1) :
    ∃ p v, s.paths[k]? = some p ∧ s.processed[k]? = some v ∧
      Resolves s.paths p (p.path.length - ((t.node v).level - (t.node h).level)) base := by
  obtain ⟨p, v, is, js, hp, hv, hat, hatv, hlt⟩ := hs.labelled h k hlabel
  obtain rfl := hh.unique hwf hat
  obtain ⟨base', hatv', hres⟩ := hs.leads k p v hp hv
  refine ⟨p, v, hp, hv, ?_⟩
  have hlevel : (t.node v).level - (t.node h).level = js.length := by
    rw [hatv.level hwf, hh.level hwf, length_append]
    omega
  -- both address lists of `v`, cut at the level of `h`
  have hsplit : base' ++ p.path = base ++ js := hatv'.unique hwf hatv
  have hlen := congrArg List.length hsplit
  rw [length_append, length_append] at hlen
  have hcut : base' ++ p.path.take (p.path.length - js.length) = base := by
    have htake := congrArg (List.take base.length) hsplit
    rw [take_append, take_of_length_le (by omega), take_left'] at htake
    · have hpos : base.length - base'.length = p.path.length - js.length := by omega
      rw [hpos] at htake
      exact htake
    · rfl
  rw [hlevel]
  have hr := hres (p.path.length - js.length)
  rw [hcut] at hr
  exact hr

lemma Inv.root : s.label t.root = 0 := by
  cases hlabel : s.label t.root with
  | zero => rfl
  | succ k =>
    obtain ⟨p, v, is, js, hp, hv, hat, hatv, hlt⟩ := hs.labelled _ k hlabel
    obtain ⟨base, hatv', -⟩ := hs.leads k p v hp hv
    have hlen := congrArg List.length (hatv'.unique hwf hatv)
    rw [hat.unique hwf .root, nil_append, length_append] at hlen
    omega

lemma Inv.concat (hn : t.At n (base ++ p.path))
    (hin : ∀ m, t.Between base (base ++ p.path) m → label' m = s.paths.length + 1)
    (hout : ∀ m, ¬ t.Between base (base ++ p.path) m → label' m = s.label m)
    (hparent : ParentFirst s.paths.length p)
    (hres : ∀ pos, Resolves s.paths p pos (base ++ p.path.take pos))
    (habove : ∀ m is, t.At m is → is <+: base → m ≠ t.root → s.label m ≠ 0) :
    Inv t ⟨label', s.paths ++ [p], s.processed ++ [n]⟩ := by
  constructor
  · show (s.paths ++ [p]).length = (s.processed ++ [n]).length
    rw [length_append, length_append, hs.length]
    rfl
  · intro k q hq
    rcases getElem?_concat_cases hq with ⟨hq, -⟩ | ⟨rfl, rfl⟩
    · exact hs.parentsFirst k q hq
    · exact hparent
  · intro k q v hq hv
    rcases getElem?_concat_cases hq with ⟨hq, hk⟩ | ⟨rfl, rfl⟩
    · rcases getElem?_concat_cases hv with ⟨hv, -⟩ | ⟨rfl, -⟩
      · obtain ⟨base', hat, hres'⟩ := hs.leads k q v hq hv
        exact ⟨base', hat, fun pos => (hres' pos).append [p]⟩
      · exact absurd hk (by rw [hs.length]; exact lt_irrefl _)
    · rcases getElem?_concat_cases hv with ⟨-, hk⟩ | ⟨-, rfl⟩
      · exact absurd hk (by rw [hs.length]; exact lt_irrefl _)
      · exact ⟨base, hn, fun pos => (hres pos).append [q]⟩
  · intro m k hlabel
    by_cases hm : t.Between base (base ++ p.path) m
    · obtain rfl : s.paths.length = k := Nat.succ.inj ((hin m hm).symm.trans hlabel)
      obtain ⟨is, hat, ⟨js, hjs⟩, hlt⟩ := hm
      have hlen := congrArg List.length hjs
      rw [length_append, length_append] at hlen
      refine ⟨p, n, is, js, List.getElem?_concat_length, ?_, hat, hjs ▸ hn, by omega⟩
      rw [hs.length]
      exact List.getElem?_concat_length
    · obtain ⟨q, v, is, js, hq, hv, hrest⟩ := hs.labelled m k ((hout m hm).symm.trans hlabel)
      refine ⟨q, v, is, js, ?_, ?_, hrest⟩
      · exact (List.getElem?_append_left (List.getElem?_eq_some_iff.1 hq).1).trans hq
      · exact (List.getElem?_append_left (List.getElem?_eq_some_iff.1 hv).1).trans hv
  · intro v hv m is js hm hmv hroot
    by_cases hbetween : t.Between base (base ++ p.path) m
    · show label' m ≠ 0
      rw [hin m hbetween]
      exact Nat.succ_ne_zero _
    show label' m ≠ 0
    rw [hout m hbetween]
    rcases mem_append.1 hv with hv | hv
    · exact hs.complete v hv m is js hm hmv hroot
    rw [mem_singleton.1 hv] at hmv
    -- `m` is not after `base` on the way to `n`, so it is on the way to `base`
    have hsplit : base ++ p.path = is ++ js := hn.unique hwf hmv
    refine habove m is hm ?_ hroot
    refine prefix_of_prefix_length_le ⟨js, hsplit.symm⟩ (prefix_append _ _) ?_
    by_contra hlt
    exact hbetween ⟨is, hm, ⟨js, hsplit.symm⟩, by omega⟩

lemma Inv.addPath (hn : t.At n is) :
    ∃ s', Settles (fun fuel => t.addPath fuel s n) (some s') ∧ s'.Inv t ∧
      s'.processed = s.processed ++ [n] := by
  obtain ⟨label', base, js, hit, rfl, ⟨enough, hset⟩, hin, hout, hhit⟩ :=
    climb_settles hwf hn s.paths.length s.label []
  have hpath : ([] ++ js.reverse).reverse = js := by simp
  rcases hhit with ⟨rfl, rfl⟩ | ⟨h, rfl, hh, hpos⟩
  · refine ⟨⟨label', s.paths ++ [⟨js, none, 0⟩], s.processed ++ [n]⟩, ⟨enough, fun fuel hfuel => ?_⟩,
      ?_, rfl⟩
    · simp only [ExecutionTree.addPath, hset fuel hfuel, bind_eq_bind, bind_some, hpath]
    · have hres : ∀ pos, Resolves s.paths ⟨js, none, 0⟩ pos ([] ++ js.take pos) :=
        fun pos => .root pos rfl
      refine hs.concat hwf hn hin hout rfl hres fun m is hm hpre hroot => ?_
      rw [prefix_nil.1 hpre] at hm
      exact absurd hm.eq_root hroot
  obtain ⟨k, hk⟩ : ∃ k, s.label h = k + 1 := ⟨s.label h - 1, by omega⟩
  obtain ⟨p, v, hp, hv, hres⟩ := hs.resolves hwf hh hk
  have hlabel : label' h - 1 = k := by
    rw [hout h, hk, Nat.add_sub_cancel]
    rintro ⟨is, his, -, hlt⟩
    exact not_at_of_length_lt hwf his hlt hh
  let pos := p.path.length - ((t.node v).level - (t.node h).level)
  refine ⟨⟨label', s.paths ++ [⟨js, some k, pos⟩], s.processed ++ [n]⟩,
    ⟨enough, fun fuel hfuel => ?_⟩, ?_, rfl⟩
  · simp only [ExecutionTree.addPath, hset fuel hfuel, bind_eq_bind, bind_some, hlabel,
      hp, hv, hpath]
    rfl
  · have hsub : ∀ j, Resolves s.paths ⟨js, some k, pos⟩ j (base ++ js.take j) :=
      fun j => .sub j rfl hp hres
    have hlt : k < s.paths.length := (List.getElem?_eq_some_iff.1 hp).1
    refine hs.concat hwf hn hin hout hlt hsub fun m is hm hpre hroot => ?_
    -- above a labelled node everything is labelled
    obtain ⟨-, v, is', js', -, hv, hh', hatv, -⟩ := hs.labelled h k hk
    obtain rfl := hh.unique hwf hh'
    obtain ⟨ks, rfl⟩ := hpre
    rw [append_assoc] at hatv
    exact hs.complete v (mem_of_getElem? hv) m is (ks ++ js') hm hatv hroot

end

end Building

/-! ## Clearing the labels -/

def Above (t : ExecutionTree) (is : List Nat) (m : Nat) : Prop := ∃ js, t.At m js ∧ js <+: is

lemma above_child_iff (hwf : t.WellFormed) (hc : t.At c (is ++ [j])) :
    t.Above (is ++ [j]) m ↔ m = c ∨ t.Above is m := by
  constructor
  · rintro ⟨js, hm, hpre⟩
    rcases prefix_concat_iff.1 hpre with rfl | hpre
    · exact .inl (hm.node_unique hwf hc)
    · exact .inr ⟨js, hm, hpre⟩
  · rintro (rfl | ⟨js, hm, hpre⟩)
    · exact ⟨_, hc, prefix_refl _⟩
    · exact ⟨js, hm, hpre.trans (prefix_append _ _)⟩

def Closed (t : ExecutionTree) (label : Nat → Nat) (is : List Nat) : Prop :=
  ∀ m js, t.At m js → js <+: is → label m = 0 → ∀ m', t.Above js m' → label m' = 0

lemma clearFrom_settles (hwf : t.WellFormed) (hn : t.At n is) (hclosed : t.Closed label is)
    (hroot : label t.root = 0) :
    ∃ label', Settles (fun fuel => t.clearFrom fuel label n) (some label') ∧
      (∀ m, t.Above is m → label' m = 0) ∧ ∀ m, ¬ t.Above is m → label' m = label m := by
  induction hn generalizing label with
  | root =>
    refine ⟨label, (Settles.const (some label)).step fun fuel => ?_, ?_, fun _ _ => rfl⟩
    · rw [clearFrom, if_pos rfl]
    · rintro m ⟨js, hm, hpre⟩
      rw [prefix_nil.1 hpre] at hm
      rw [hm.eq_root, hroot]
  | @child p j c is hp hc ih =>
    have hat : t.At c (is ++ [j]) := .child hp hc
    have hchild := hwf.child _ _ _ _ hp hc
    by_cases hlabel : label c = 0
    · refine ⟨label, (Settles.const (some label)).step fun fuel => ?_, ?_, fun _ _ => rfl⟩
      · rw [clearFrom, if_neg (hat.ne_root hwf), if_pos hlabel]
      · exact hclosed c _ hat (prefix_refl _) hlabel
    have hnot : ¬ t.Above is c := by
      rintro ⟨js, hjs, hpre⟩
      refine not_at_of_length_lt hwf hat (lt_of_le_of_lt hpre.length_le ?_) hjs
      rw [length_append]
      exact Nat.lt_succ_self _
    have hne : ∀ {m}, t.Above is m → m ≠ c := fun hm h => hnot (h ▸ hm)
    have hclosed' : t.Closed (update label c 0) is := by
      intro m js hm hpre hzero m' hm'
      have hm'is : t.Above is m' := by
        obtain ⟨js', hjs', hpre'⟩ := hm'
        exact ⟨js', hjs', hpre'.trans hpre⟩
      rw [update_of_ne (hne ⟨js, hm, hpre⟩)] at hzero
      rw [update_of_ne (hne hm'is)]
      exact hclosed m js hm (hpre.trans (prefix_append _ _)) hzero m' hm'
    have hroot' : update label c 0 t.root = 0 := by
      rw [update_of_ne (hat.ne_root hwf).symm, hroot]
    obtain ⟨label', hset, hzero, hrest⟩ := ih hclosed' hroot'
    refine ⟨label', hset.step fun fuel => ?_, fun m hm => ?_, fun m hm => ?_⟩
    · rw [clearFrom, if_neg (hat.ne_root hwf), if_neg hlabel, hchild.parent]
      rfl
    · rcases (above_child_iff hwf hat).1 hm with rfl | hm
      · rw [hrest m hnot, update_self]
      · exact hzero m hm
    · rw [above_child_iff hwf hat, not_or] at hm
      rw [hrest m hm.2, update_of_ne hm.1]

/-- What holds in `cleanupLabels` after the nodes `done`. -/
structure Clearing (t : ExecutionTree) (label : Nat → Nat) (nodes done : List Nat)
    (label' : Nat → Nat) : Prop where
  closed : ∀ v ∈ nodes, ∀ is, t.At v is → t.Closed label' is
  cleared : ∀ v ∈ done, ∀ is, t.At v is → ∀ m, t.Above is m → label' m = 0
  rest : ∀ m, label' m = label m ∨ label' m = 0

lemma Clearing.step (hwf : t.WellFormed) {done : List Nat}
    (h : t.Clearing label nodes done label') (hroot : label t.root = 0) (hn : t.At n is)
    (hmem : n ∈ nodes) :
    ∃ label'', Settles (fun fuel => t.clearFrom fuel label' n) (some label'') ∧
      t.Clearing label nodes (done ++ [n]) label'' := by
  have hroot' : label' t.root = 0 := by
    rcases h.rest t.root with hr | hr
    · rw [hr, hroot]
    · exact hr
  obtain ⟨label'', hset, hzero, hsame⟩ := clearFrom_settles hwf hn (h.closed n hmem is hn) hroot'
  have hkeep : ∀ m, label' m = 0 → label'' m = 0 := by
    intro m hm
    by_cases habove : t.Above is m
    · exact hzero m habove
    · rw [hsame m habove, hm]
  refine ⟨label'', hset, ?_, ?_, ?_⟩
  · intro v hv js hvat m ks hm hpre hm0 m' hm'
    by_cases habove : t.Above is m
    · obtain ⟨ks', hks', hpre'⟩ := habove
      obtain rfl := hm.unique hwf hks'
      obtain ⟨js', hjs', hpre''⟩ := hm'
      exact hzero m' ⟨js', hjs', hpre''.trans hpre'⟩
    · rw [hsame m habove] at hm0
      exact hkeep m' (h.closed v hv js hvat m ks hm hpre hm0 m' hm')
  · intro v hv js hvat m hm
    rcases mem_append.1 hv with hv | hv
    · exact hkeep m (h.cleared v hv js hvat m hm)
    rw [mem_singleton.1 hv] at hvat
    rw [hvat.unique hwf hn] at hm
    exact hzero m hm
  · intro m
    by_cases habove : t.Above is m
    · exact .inr (hzero m habove)
    · rw [hsame m habove]
      exact h.rest m

lemma cleanupLabels_settles (hwf : t.WellFormed) (hnodes : ∀ v ∈ nodes, ∃ is, t.At v is)
    (hroot : label t.root = 0)
    (hlabelled : ∀ m, label m ≠ 0 → ∃ v ∈ nodes, ∃ is, t.At v is ∧ t.Above is m)
    (hcomplete : ∀ v ∈ nodes, ∀ is, t.At v is → ∀ m, t.Above is m → m ≠ t.root → label m ≠ 0) :
    ∃ label', Settles (fun fuel => t.cleanupLabels fuel nodes label) (some label') ∧
      ∀ m, label' m = 0 := by
  have hstart : t.Clearing label nodes [] label := by
    refine ⟨?_, fun v hv => (not_mem_nil hv).elim, fun m => .inl rfl⟩
    intro v hv is hat m js hm hpre hzero m' hm'
    -- only the root has no label
    have hmroot : m = t.root := by
      by_contra hne
      exact hcomplete v hv is hat m ⟨js, hm, hpre⟩ hne hzero
    rw [hmroot] at hm
    obtain ⟨js', hjs', hpre'⟩ := hm'
    rw [hm.unique hwf .root] at hpre'
    rw [prefix_nil.1 hpre'] at hjs'
    rw [hjs'.eq_root, hroot]
  obtain ⟨label', hset, hend⟩ := Settles.foldlM (I := t.Clearing label nodes) nodes
    (fun done l v hv h => by
      obtain ⟨is, hat⟩ := hnodes v hv
      exact h.step hwf hroot hat hv) [] label hstart
  refine ⟨label', hset, fun m => ?_⟩
  rcases hend.rest m with hm | hm
  · by_contra hne
    rw [hm] at hne
    obtain ⟨v, hv, is, hat, habove⟩ := hlabelled m hne
    exact hne (hm ▸ hend.cleared v (by simpa using hv) is hat m habove)
  · exact hm

/-! ## Both directions -/

lemma Building.inv_start (hzero : ∀ m, label m = 0) : Building.Inv t ⟨label, [], []⟩ := by
  refine ⟨rfl, fun k p hp => ?_, fun k p v hp => ?_, fun m k hm => ?_,
    fun v hv => (not_mem_nil hv).elim⟩
  · cases hp
  · cases hp
  · cases (hzero m).symm.trans hm

lemma buildPathSet_settles (hwf : t.WellFormed) (hzero : ∀ m, label m = 0)
    (hnodes : ∀ v ∈ nodes, ∃ is, t.At v is) :
    ∃ label' paths, Settles (fun fuel => t.buildPathSet fuel label nodes) (some (label', paths)) ∧
      (∀ m, label' m = 0) ∧ ParentsFirst paths ∧ List.Forall₂ (Leads t paths) paths nodes := by
  obtain ⟨s, hset, hs, hprocessed⟩ := Settles.foldlM (F := t.addPath)
    (I := fun done s => s.Inv t ∧ s.processed = done) nodes
    (fun done s v hv h => by
      obtain ⟨is, hat⟩ := hnodes v hv
      obtain ⟨s', hset, hs', hproc⟩ := h.1.addPath hwf hat
      exact ⟨s', hset, hs', by rw [hproc, h.2]⟩) [] ⟨label, [], []⟩ ⟨Building.inv_start hzero, rfl⟩
  obtain rfl : s.processed = nodes := hprocessed
  have hlabelled : ∀ m, s.label m ≠ 0 → ∃ v ∈ s.processed, ∃ is, t.At v is ∧ t.Above is m := by
    intro m hm
    obtain ⟨k, hk⟩ : ∃ k, s.label m = k + 1 := ⟨s.label m - 1, by omega⟩
    obtain ⟨-, v, is, js, -, hv, hat, hatv, -⟩ := hs.labelled m k hk
    exact ⟨v, mem_of_getElem? hv, _, hatv, is, hat, prefix_append _ _⟩
  have hcomplete : ∀ v ∈ s.processed, ∀ is, t.At v is → ∀ m, t.Above is m → m ≠ t.root →
      s.label m ≠ 0 := by
    rintro v hv is hat m ⟨js, hm, ks, rfl⟩ hroot
    exact hs.complete v hv m js ks hm hat hroot
  obtain ⟨label', hclean, hcleared⟩ :=
    cleanupLabels_settles hwf hnodes (hs.root hwf) hlabelled hcomplete
  refine ⟨label', s.paths, ?_, hcleared, hs.parentsFirst, ?_⟩
  · exact hset.optionBind (hclean.optionBind (.const _))
  · refine forall₂_of_length_eq_of_get hs.length fun k hk hk' => ?_
    exact hs.leads k _ _ (List.getElem?_eq_getElem hk) (List.getElem?_eq_getElem hk')

lemma getNodeAt_settles (hwf : t.WellFormed)
    (hres : Resolves paths p pos is) (hb : t.At b is) (layer : Nat) :
    ∃ t', Settles (fun fuel => getNodeAt paths layer fuel t p pos) (some (t', b)) ∧ Kept t t' ∧
      (t'.node b).onLayer layer = true := by
  induction hres generalizing b with
  | @root p pos hp =>
    obtain ⟨t', hwalk, hrest⟩ := walk_eq hwf .root (hwf.root_onLayer layer) hb
    refine ⟨t', (Settles.const (some (t', b))).step fun fuel => ?_, hrest⟩
    rw [getNodeAt, if_pos (hwf.root_onLayer layer), hp]
    exact hwalk
  | @sub p q k base pos hp hk _ ih =>
    obtain ⟨a, ha⟩ := hb.split hwf
    obtain ⟨t₁, hset, hkept, hlayer⟩ := ih ha
    obtain ⟨t₂, hwalk, hkept₂, hlayer₂⟩ := walk_eq hkept.wellFormed ((hkept.at_iff _ _).2 ha) hlayer
      ((hkept.at_iff _ _).2 hb)
    refine ⟨t₂, ?_, hkept.trans hkept₂, hlayer₂⟩
    refine (hset.optionBind (F := fun _ r => walk layer r.1 r.2 p.path pos) ?_).step
      fun fuel => ?_
    · rw [hwalk]
      exact .const _
    · simp only [getNodeAt, hwf.root_onLayer layer, if_true, hp, hk, bind_eq_bind, bind_some]

lemma getNodes_settles (hwf : t.WellFormed) (hleads : List.Forall₂ (Leads t paths) paths nodes)
    (layer : Nat) :
    ∃ t', Settles (fun fuel => t.getNodes fuel layer paths) (some (t', nodes)) ∧ Kept t t' := by
  suffices h : ∀ (rest : List ExecutionPath) (vs acc : List Nat) (t₁ : ExecutionTree),
      List.Forall₂ (Leads t paths) rest vs → Kept t t₁ →
      ∃ t', Settles (fun fuel => rest.foldlM (fun s p => do
        let (t', crtNode) ← getNodeAt paths layer fuel s.1 p p.path.length
        some (t', s.2 ++ [crtNode])) (t₁, acc)) (some (t', acc ++ vs)) ∧ Kept t t' by
    exact h paths nodes [] t hleads (.refl hwf)
  intro rest vs acc t₁ hrest hkept
  induction hrest generalizing acc t₁ with
  | nil => exact ⟨t₁, by simpa using .const (some (t₁, acc)), hkept⟩
  | @cons p v rest vs hlead _ ih =>
    obtain ⟨base, hat, hres⟩ := hlead
    have hfull := hres p.path.length
    rw [take_length] at hfull
    obtain ⟨t₂, hset, hkept₂, -⟩ := getNodeAt_settles hkept.wellFormed hfull
      ((hkept.at_iff _ _).2 hat) layer
    obtain ⟨t₃, hset₃, hkept₃⟩ := ih (acc ++ [v]) t₂ (hkept.trans hkept₂)
    refine ⟨t₃, ?_, hkept₃⟩
    rw [append_assoc] at hset₃
    refine .optionBind ?_ hset₃
    exact hset.optionBind (.const _)

end ExecutionTree

end InputCovSched
