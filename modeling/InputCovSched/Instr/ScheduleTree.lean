import InputCovSched.Explore.PathConstraint
import InputCovSched.Runtime.Schedule

/-!
# Schedule trees (`BuildScheduleTree` in `lib/ICS/Instrumentor.cpp`)

Each explored schedule is cut into fragments at nodes that read used inputs, and becomes a
path in the tree of its region: every edge carries the constraints that select a fragment,
and paths share edges as long as their terms agree.

The loop takes the inputs up to a constraint's `currHbNodeId` from a queue, but it stops
at the first input of another thread. What is left in the queue then is read after the
constraint is tested.

`addEdge` takes the part that two lists of terms have in common. The source compares them by
index, which `ScheduleTrie` models; there the two are shown to build the same tree wherever no
index is out of bounds.
-/

namespace InputCovSched

open List Option

/-- What the tree needs of expressions: the constant true, and the terms of the conjunction
that a `ConstraintManager` holds after the given constraints were added (youngest first,
and true alone when there is none). -/
structure TermTheory (E : Type) where
  trueExpr : E
  summaryTerms : List E → List E
  summaryTerms_ne_nil : ∀ es, summaryTerms es ≠ []

/-! ## Cutting a schedule into fragments -/

/-- `EnumerateUsedInputsInHbGraph`. -/
def HBGraph.usedInputs (g : HBGraph) (usedArrays : Nat → Bool) : List Nat :=
  (List.range' 1 g.getMaxNodeId).filter fun i =>
    match (g.getNode? i).bind HBNode.inputObj with
    | none => false
    | some obj => usedArrays obj

def HBGraph.tuidOf (g : HBGraph) (i : Nat) : Nat := ((g.getNode? i).map HBNode.tuid).getD 0

/-- The inner loop: inputs of one thread up to `currHbNodeId`. Returns the last one taken (0
if none) and the rest of the queue. -/
def takeInputs (g : HBGraph) (currHbNodeId : Nat) :
    (lastInputNodeId lastInputTuid : Nat) → List Nat → Nat × List Nat
  | lastInputNodeId, _, [] => (lastInputNodeId, [])
  | lastInputNodeId, lastInputTuid, i :: queue =>
    if i ≤ currHbNodeId then
      if lastInputNodeId ≠ 0 ∧ g.tuidOf i ≠ lastInputTuid then (lastInputNodeId, i :: queue)
      else takeInputs g currHbNodeId i (g.tuidOf i) queue
    else (lastInputNodeId, i :: queue)

structure Segment (E : Type) where
  constraints : List (Entry E)
  firstNodeId : Nat
  lastNodeId : Nat
  exitsProgram : Bool

/-- The loop over the constraints; `cm` holds those that are not on an edge yet. -/
def partition {E : Type} (g : HBGraph) (exitsProgram : Bool) :
    List (Entry E) → List Nat → Nat → List (Entry E) → List (Segment E)
  | [], _, lastNodeId, cm => [⟨cm, lastNodeId + 1, g.getMaxNodeId, exitsProgram⟩]
  | e :: es, queue, lastNodeId, cm =>
    if e.fc ≠ .invariantInput then partition g exitsProgram es queue lastNodeId cm
    else
      let (lastInputNodeId, queue) := takeInputs g e.currHbNodeId 0 0 queue
      if lastInputNodeId ≠ 0 then
        ⟨cm, lastNodeId + 1, lastInputNodeId, false⟩ ::
          partition g exitsProgram es queue lastInputNodeId [e]
      else partition g exitsProgram es queue lastNodeId (cm ++ [e])

section
variable {E : Type}

def CoveredSchedule.segments (sched : CoveredSchedule E) (usedArrays : Nat → Bool) :
    List (Segment E) :=
  partition sched.hbGraph sched.exitsProgram sched.inputConstraint.list
    (sched.hbGraph.usedInputs usedArrays) 0 []

def Segment.schedfrag (seg : Segment E) (g : HBGraph) : ScheduleFragment where
  hbGraph := g
  firstNodeId := seg.firstNodeId
  lastNodeId := seg.lastNodeId
  inputIds := fun _ => none
  nextThreadLeader := if g.getMaxNodeId ≠ 0 then g.tuidOf seg.lastNodeId else 0
  nextSelectorId := 0
  exitsProgram := seg.exitsProgram

def edgesOf (T : TermTheory E) (g : HBGraph) : List (Segment E) → List (List E × ScheduleFragment)
  | [] => []
  | [seg] => [((T.summaryTerms (seg.constraints.map Entry.expr)).reverse, seg.schedfrag g)]
  | seg :: segs =>
    (T.summaryTerms (seg.constraints.map Entry.expr), seg.schedfrag g) :: edgesOf T g segs

end

/-! ## The tree -/

/-- A node of the tree as the list of its edges: an edge with its terms, its fragment if it
has one and its next node, and the other edges of the node. -/
inductive ScheduleTreeNode (E : Type) where
  | leaf
  | edge (terms : List E) (schedfrag : Option ScheduleFragment) (next others : ScheduleTreeNode E)

def HBGraph.equalRange (a : HBGraph) (aFirst : Nat) (b : HBGraph) (bFirst nnodes : Nat) : Bool :=
  if aFirst + nnodes - 1 > a.getMaxNodeId ∨ bFirst + nnodes - 1 > b.getMaxNodeId then false
  else (List.range nnodes).all fun k => a.getNode? (aFirst + k) == b.getNode? (bFirst + k)

/-- `operator==` on fragments: the same leader, and the same nodes at any place. -/
def ScheduleFragment.same (left right : ScheduleFragment) : Bool :=
  if left.exitsProgram ≠ right.exitsProgram then false
  else if left.nextThreadLeader ≠ right.nextThreadLeader then false
  else
    let ldiff : Int := left.lastNodeId - left.firstNodeId
    let rdiff : Int := right.lastNodeId - right.firstNodeId
    if ldiff ≠ rdiff then false
    else if left.lastNodeId < left.firstNodeId then true
    else left.hbGraph.equalRange left.firstNodeId right.hbGraph right.firstNodeId (ldiff + 1).toNat

/-- The common prefix of two lists of terms and what is left of each. -/
def splitShared {E : Type} [DecidableEq E] : List E → List E → List E × List E × List E
  | a :: as, b :: bs =>
    if a = b then
      let (shared, found, terms) := splitShared as bs
      (a :: shared, found, terms)
    else ([], a :: as, b :: bs)
  | as, bs => ([], as, bs)

section
variable {E : Type} [DecidableEq E] (T : TermTheory E)

/-- Leftovers of terms: empty means true. -/
def orTrue (terms : List E) : List E := if terms = [] then [T.trueExpr] else terms

namespace ScheduleTreeNode

/-- `addEdge`; `rest` goes on with the next node of the new edge. `none` is the failed
assertion that equal terms select equal fragments. -/
def addEdge (rest : ScheduleTreeNode E → Option (ScheduleTreeNode E)) :
    ScheduleTreeNode E → List E → ScheduleFragment → Option (ScheduleTreeNode E)
  | .leaf, terms, schedfrag =>
    (rest .leaf).map fun n => .edge terms (some schedfrag) n .leaf
  | .edge found frag next others, terms, schedfrag =>
    match splitShared found terms with
    | ([], _, _) => (addEdge rest others terms schedfrag).map fun n => .edge found frag next n
    | (shared, foundExtra, terms) =>
      match foundExtra, terms, frag with
      | [], [], some f =>
        if schedfrag.same f then (rest next).map fun n => .edge found frag n others else none
      | [], terms, none =>
        (addEdge rest next (orTrue T terms) schedfrag).map fun n => .edge found none n others
      | foundExtra, terms, frag =>
        (rest .leaf).map fun n =>
          .edge shared none (.edge (orTrue T terms) (some schedfrag) n
              (.edge (orTrue T foundExtra) frag next .leaf))
            others

def addPath : List (List E × ScheduleFragment) → ScheduleTreeNode E → Option (ScheduleTreeNode E)
  | [], node => some node
  | (terms, schedfrag) :: edges, node => addEdge T (addPath edges) node terms schedfrag

def buildScheduleTree (usedArrays : Nat → Bool) (schedules : List (CoveredSchedule E)) :
    Option (ScheduleTreeNode E) :=
  schedules.foldlM (fun root sched =>
    addPath T (edgesOf T sched.hbGraph (sched.segments usedArrays)) root) .leaf

end ScheduleTreeNode

end

/-! ## Ranges of nodes -/

def ScheduleFragment.range (frag : ScheduleFragment) : Nat × Nat :=
  (frag.firstNodeId, frag.lastNodeId)

def Segment.range {E : Type} (seg : Segment E) : Nat × Nat := (seg.firstNodeId, seg.lastNodeId)

/-- Ranges one behind the other, the first behind `last`. -/
def Chain : Nat → List (Nat × Nat) → Prop
  | _, [] => True
  | last, r :: rs => r.1 = last + 1 ∧ Chain r.2 rs

variable {last k : Nat} {rs : List (Nat × Nat)} {r : Nat × Nat}

lemma Chain.covers (h : Chain last rs) (hk : rs[k]? = some r) (hlast : last < i) (hi : i < r.1) :
    ∃ s ∈ rs.take k, s.1 ≤ i ∧ i ≤ s.2 := by
  induction rs generalizing last k with
  | nil => simp at hk
  | cons s rs ih =>
    obtain ⟨hs, hrs⟩ := h
    cases k with
    | zero =>
      cases hk
      omega
    | succ k =>
      by_cases hin : i ≤ s.2
      · exact ⟨s, mem_cons_self, by omega, hin⟩
      · obtain ⟨s', hs', hb⟩ := ih hrs hk (by omega)
        exact ⟨s', mem_cons_of_mem _ hs', hb⟩

lemma lt_of_mem_take
    (h : rs.Pairwise fun a b => a.2 < b.1) (hk : rs[k]? = some r) (hs : s ∈ rs.take k) :
    s.2 < r.1 := by
  obtain ⟨hlt, rfl⟩ := List.getElem?_eq_some_iff.1 hk
  obtain ⟨j, hj, rfl⟩ := getElem_of_mem hs
  rw [length_take] at hj
  rw [getElem_take]
  exact pairwise_iff_getElem.1 h j k (by omega) hlt (by omega)

/-! ## Paths in the tree -/

section
variable {E : Type} (T : TermTheory E)

namespace ScheduleTreeNode

/-- The edges of a schedule lie on a path from the node, with their terms possibly spread over
several tree edges; `frags` are the fragments met on the path, in order. -/
inductive Follows : ScheduleTreeNode E → List (List E × ScheduleFragment) →
    List ScheduleFragment → Prop
  | done {node} : Follows node [] []
  | whole {terms f next others frag edges frags} (hfirst : f.firstNodeId = frag.firstNodeId)
      (hlast : f.lastNodeId = frag.lastNodeId) (h : Follows next edges frags) :
      Follows (.edge terms (some f) next others) ((terms, frag) :: edges) (f :: frags)
  | part {shared left next others frag edges frags}
      (h : Follows next ((orTrue T left, frag) :: edges) frags) :
      Follows (.edge shared none next others) ((shared ++ left, frag) :: edges) frags
  | other {terms f next others edges frags} (h : Follows others edges frags) :
      Follows (.edge terms f next others) edges frags

/-- Every fragment begins behind the one before it on the path; `last` is the end of the
fragment before the node. -/
def WF : Nat → ScheduleTreeNode E → Prop
  | _, .leaf => True
  | last, .edge _ none next others => WF last next ∧ WF last others
  | last, .edge _ (some f) next others =>
    f.firstNodeId = last + 1 ∧ WF f.lastNodeId next ∧ WF last others

variable {terms : List E} {rest : ScheduleTreeNode E → Option (ScheduleTreeNode E)}
  {frag : ScheduleFragment}

lemma splitShared_eq [DecidableEq E] {found shared foundExtra left : List E}
    (h : splitShared found terms = (shared, foundExtra, left)) :
    found = shared ++ foundExtra ∧ terms = shared ++ left := by
  induction found, terms using splitShared.induct generalizing shared with
  | case1 a as bs x y z hxyz ih =>
    rw [splitShared, if_pos rfl, hxyz] at h
    obtain ⟨rfl, rfl, rfl⟩ := h
    obtain ⟨h1, h2⟩ := ih hxyz
    rw [h1, h2]
    exact ⟨rfl, rfl⟩
  | case2 a as b bs hne =>
    rw [splitShared, if_neg hne] at h
    obtain ⟨rfl, rfl, rfl⟩ := h
    exact ⟨rfl, rfl⟩
  | case3 as bs hnot =>
    rw [splitShared] at h
    · obtain ⟨rfl, rfl, rfl⟩ := h
      exact ⟨rfl, rfl⟩
    · exact hnot

/-- What `addEdge` can do to a node. -/
inductive AddsEdge (rest : ScheduleTreeNode E → Option (ScheduleTreeNode E)) :
    ScheduleTreeNode E → List E → ScheduleFragment → ScheduleTreeNode E → Prop
  | fresh {terms frag n} (h : rest .leaf = some n) :
      AddsEdge rest .leaf terms frag (.edge terms (some frag) n .leaf)
  | skip {found f next others terms frag n} (h : AddsEdge rest others terms frag n) :
      AddsEdge rest (.edge found f next others) terms frag (.edge found f next n)
  | same {f next others terms frag n} (hs : frag.same f = true) (h : rest next = some n) :
      AddsEdge rest (.edge terms (some f) next others) terms frag (.edge terms (some f) n others)
  | into {found next others left frag n} (h : AddsEdge rest next (orTrue T left) frag n) :
      AddsEdge rest (.edge found none next others) (found ++ left) frag (.edge found none n others)
  | split {shared foundExtra f next others left frag n} (hs : shared ≠ [])
      (hx : foundExtra = [] → f ≠ none) (h : rest .leaf = some n) :
      AddsEdge rest (.edge (shared ++ foundExtra) f next others) (shared ++ left) frag
        (.edge shared none
          (.edge (orTrue T left) (some frag) n (.edge (orTrue T foundExtra) f next .leaf)) others)

variable {T}

lemma AddsEdge.ne_leaf (h : AddsEdge T rest node terms frag node') : node' ≠ .leaf := by
  cases h <;> simp

lemma addEdge_addsEdge [DecidableEq E] (h : addEdge T rest node terms frag = some node') :
    AddsEdge T rest node terms frag node' := by
  induction node generalizing terms node' with
  | leaf =>
    obtain ⟨n, hn, rfl⟩ := map_eq_some_iff.1 h
    exact .fresh hn
  | edge found f next others ihn iho =>
    rw [addEdge] at h
    split at h
    case h_1 =>
      obtain ⟨n, hn, rfl⟩ := map_eq_some_iff.1 h
      exact .skip (iho hn)
    case h_2 shared foundExtra left hs hsplit =>
      obtain ⟨hfound, hterms⟩ := splitShared_eq hsplit
      split at h
      · obtain ⟨hs, h⟩ := ite_none_right_eq_some.1 h
        obtain ⟨n, hn, rfl⟩ := map_eq_some_iff.1 h
        obtain rfl : found = terms := by rw [hfound, hterms]
        exact .same hs hn
      · obtain ⟨n, hn, rfl⟩ := map_eq_some_iff.1 h
        obtain rfl : terms = found ++ left := by rw [hfound, hterms, append_nil]
        exact .into (ihn hn)
      · rename_i hinto _
        obtain ⟨n, hn, rfl⟩ := map_eq_some_iff.1 h
        subst hfound hterms
        exact .split hs hinto hn

lemma lastNodeId_of_same {a b : ScheduleFragment} (h : a.same b = true)
    (hfirst : b.firstNodeId = a.firstNodeId) : b.lastNodeId = a.lastNodeId := by
  unfold ScheduleFragment.same at h
  by_contra hne
  have hdiff : (a.lastNodeId : Int) - a.firstNodeId ≠ b.lastNodeId - b.firstNodeId := by omega
  simp only [hdiff, ne_eq, not_false_eq_true, if_true, ite_self] at h
  exact absurd h (by simp)

lemma AddsEdge.keeps (h : AddsEdge T rest node terms frag node')
    (hrest : ∀ n n', rest n = some n' →
      ∀ edges frags, Follows T n edges frags → Follows T n' edges frags)
    (hf : Follows T node edges frags) : Follows T node' edges frags := by
  induction h generalizing edges frags with
  | fresh h =>
    cases hf
    exact .done
  | skip h ih =>
    cases hf with
    | done => exact .done
    | whole h1 h2 h => exact .whole h1 h2 h
    | part h => exact .part h
    | other h => exact .other (ih h)
  | same hs h =>
    cases hf with
    | done => exact .done
    | whole h1 h2 hf => exact .whole h1 h2 (hrest _ _ h _ _ hf)
    | other h => exact .other h
  | into h ih =>
    cases hf with
    | done => exact .done
    | part h => exact .part (ih h)
    | other h => exact .other h
  | @split _ foundExtra _ _ _ _ _ _ hs hx h =>
    cases hf with
    | done => exact .done
    | whole h1 h2 hf =>
      -- what the old edge had beyond the shared terms is the second edge of the new node
      refine .part (.other ?_)
      exact .whole h1 h2 hf
    | @part _ left _ _ _ _ _ hf =>
      have hne : foundExtra ≠ [] := fun he => hx he rfl
      rw [append_assoc]
      refine .part (.other ?_)
      have h1 : orTrue T foundExtra = foundExtra := if_neg hne
      have h2 : orTrue T (foundExtra ++ left) = foundExtra ++ left := if_neg (by simp [hne])
      rw [h1, h2]
      exact .part hf
    | other h => exact .other h

lemma AddsEdge.follows (h : AddsEdge T rest node terms frag node')
    (hwf : WF last node) (hfirst : frag.firstNodeId = last + 1)
    (hrest : ∀ n n', rest n = some n' → WF frag.lastNodeId n →
      WF frag.lastNodeId n' ∧ ∃ frags, Follows T n' edges frags) :
    WF last node' ∧ ∃ frags, Follows T node' ((terms, frag) :: edges) frags := by
  induction h with
  | fresh h =>
    obtain ⟨hn, frags, hf⟩ := hrest _ _ h trivial
    exact ⟨⟨hfirst, hn, trivial⟩, _, .whole rfl rfl hf⟩
  | @skip found f next others terms frag n h ih =>
    cases f with
    | none =>
      obtain ⟨hn, frags, hf⟩ := ih hwf.2 hfirst hrest
      exact ⟨⟨hwf.1, hn⟩, frags, .other hf⟩
    | some f =>
      obtain ⟨hn, frags, hf⟩ := ih hwf.2.2 hfirst hrest
      exact ⟨⟨hwf.1, hwf.2.1, hn⟩, frags, .other hf⟩
  | same hs h =>
    obtain ⟨h1, h2, h3⟩ := hwf
    have hlast := lastNodeId_of_same hs (h1.trans hfirst.symm)
    rw [hlast] at h2
    obtain ⟨hn, frags, hf⟩ := hrest _ _ h h2
    refine ⟨⟨h1, ?_, h3⟩, _, .whole (h1.trans hfirst.symm) hlast hf⟩
    rw [hlast]
    exact hn
  | into h ih =>
    obtain ⟨hn, frags, hf⟩ := ih hwf.1 hfirst hrest
    exact ⟨⟨hn, hwf.2⟩, frags, .part hf⟩
  | @split shared foundExtra f next others left frag n hs hx h =>
    obtain ⟨hn, frags, hf⟩ := hrest _ _ h trivial
    refine ⟨?_, _, .part (.whole rfl rfl hf)⟩
    cases f with
    | none => exact ⟨⟨hfirst, hn, hwf.1, trivial⟩, hwf.2⟩
    | some f => exact ⟨⟨hfirst, hn, hwf.1, hwf.2.1, trivial⟩, hwf.2.2⟩

lemma addPath_keeps [DecidableEq E]
    (h : addPath T path node = some node') (hf : Follows T node edges frags) :
    Follows T node' edges frags := by
  induction path generalizing node node' edges frags with
  | nil =>
    obtain rfl := Option.some.inj h
    exact hf
  | cons e path ih =>
    exact (addEdge_addsEdge h).keeps (fun n n' hn edges frags => ih hn) hf

lemma addPath_follows [DecidableEq E] (h : addPath T path node = some node') (hwf : WF last node)
    (hc : Chain last (path.map fun e => e.2.range)) :
    WF last node' ∧ ∃ frags, Follows T node' path frags := by
  induction path generalizing node node' last with
  | nil =>
    obtain rfl := Option.some.inj h
    exact ⟨hwf, [], .done⟩
  | cons e path ih =>
    exact (addEdge_addsEdge h).follows hwf hc.1 fun n n' hn hwf => ih hn hwf hc.2

lemma Follows.ranges (h : Follows T node edges frags) :
    frags.map ScheduleFragment.range = edges.map fun e => e.2.range := by
  induction h with
  | done => rfl
  | whole hfirst hlast _ ih =>
    rw [map_cons, map_cons, ih, ScheduleFragment.range, ScheduleFragment.range, hfirst, hlast]
  | part _ ih => exact ih
  | other _ ih => exact ih

end ScheduleTreeNode

lemma edgesOf_ranges (T : TermTheory E) (g : HBGraph) (segs : List (Segment E)) :
    ((edgesOf T g segs).map fun e => e.2.range) = segs.map Segment.range := by
  induction segs using edgesOf.induct with
  | case1 => rfl
  | case2 seg => rfl
  | case3 seg segs hne ih =>
    rw [edgesOf, map_cons, map_cons, ih]
    · rfl
    · exact hne

end

end InputCovSched
