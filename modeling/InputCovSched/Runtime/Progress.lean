import InputCovSched.Runtime.Clock
import Mathlib.Order.WellFoundedSet

/-!
# No replay gets stuck (`WaitForHbNode`, `AdvanceToNextFragment`)

A thread waits in two places: for the clock of a predecessor, and at the end of a fragment
for the leader to publish the next one. When the recorded order has no cycle, the
predecessors of a node lie in its own fragment or an earlier one and the leader of a
fragment is the thread of its last node, some thread can always go on: take the first fragment
with a node that is not advanced, and in it a node that is minimal in the recorded order.

The invariant of the clocks is used without the condition under which skip words are
stepped over: a clock that ran ahead lets a thread through too early, never too late.
-/

namespace InputCovSched

open List

namespace HBGraph

/-- `a` comes before `b` in its thread, or is recorded as a predecessor of `b`. -/
def Before (g : HBGraph) (a b : Nat) : Prop :=
  g.Edge a b ∨ ∃ n m, g.getNode? a = some n ∧ g.getNode? b = some m ∧ n.tuid = m.tuid ∧
    n.threadOrder < m.threadOrder

def Acyclic (g : HBGraph) : Prop := ∀ a, ¬ Relation.TransGen g.Before a a

variable {g : HBGraph} {i : Nat} {n m : HBNode}

lemma getNode?_split (hn : g.getNode? i = some n) :
    ∃ pre post, g.nodes = pre ++ n :: post ∧ i = pre.length + 1 := by
  have hpos := (getNode?_le hn).1
  unfold getNode? at hn
  rw [if_neg (by omega)] at hn
  obtain ⟨hlt, rfl⟩ := List.getElem?_eq_some_iff.1 hn
  refine ⟨g.nodes.take (i - 1), g.nodes.drop (i - 1 + 1), ?_, ?_⟩
  · rw [← drop_eq_getElem_cons hlt, take_append_drop]
  · rw [length_take]
    omega

/-- The nodes of a thread among the first `i` nodes. -/
def countUpTo (g : HBGraph) (t i : Nat) : Nat :=
  ((g.nodes.take i).filter fun n => n.tuid == t).length

lemma countUpTo_mono (t : Nat) (h : i ≤ j) : g.countUpTo t i ≤ g.countUpTo t j :=
  ((take_sublist_take_left h).filter _).length_le

lemma allOf_countUpTo (hn : g.getNode? i = some n) :
    (g.allOf n.tuid)[g.countUpTo n.tuid (i - 1)]? = some n := by
  obtain ⟨pre, post, hg, rfl⟩ := getNode?_split hn
  simp [allOf, countUpTo, hg]

section
variable (h : g.OrdersOk) (hn : g.getNode? i = some n)
include h hn

lemma OrdersOk.threadOrder_eq : n.threadOrder = g.countUpTo n.tuid (i - 1) + 1 :=
  h.order n.tuid _ _ (allOf_countUpTo hn)

lemma OrdersOk.allOf_threadOrder : (g.allOf n.tuid)[n.threadOrder - 1]? = some n := by
  rw [h.threadOrder_eq hn]
  exact allOf_countUpTo hn

lemma OrdersOk.countUpTo_eq : g.countUpTo n.tuid i = n.threadOrder := by
  rw [h.threadOrder_eq hn]
  obtain ⟨pre, post, hg, rfl⟩ := getNode?_split hn
  unfold countUpTo
  rw [hg, take_length_add_append]
  simp

lemma OrdersOk.lt_of_threadOrder (hm : g.getNode? j = some m) (ht : n.tuid = m.tuid)
    (hlt : n.threadOrder < m.threadOrder) : i < j := by
  rw [← h.countUpTo_eq hn, ← h.countUpTo_eq hm, ht] at hlt
  by_contra hge
  have := countUpTo_mono (g := g) m.tuid (Nat.le_of_not_lt hge)
  omega

lemma OrdersOk.le_iff_threadOrder (last : Nat) :
    i ≤ last ↔ n.threadOrder ≤ g.countUpTo n.tuid last := by
  constructor
  · intro hle
    rw [← h.countUpTo_eq hn]
    exact countUpTo_mono _ hle
  · intro hle
    by_contra hgt
    have := countUpTo_mono (g := g) n.tuid (show last ≤ i - 1 by omega)
    rw [h.threadOrder_eq hn] at hle
    omega

end

lemma OrdersOk.exists_id (h : g.OrdersOk) (hn : (g.allOf t)[k]? = some n) :
    ∃ i, g.getNode? i = some n ∧ n.tuid = t ∧ n.threadOrder = k + 1 := by
  have hmem := mem_of_getElem? hn
  unfold allOf at hmem
  rw [mem_filter] at hmem
  obtain ⟨i, hi⟩ := mem_iff_getElem?.1 hmem.1
  exact ⟨i + 1, by simpa [getNode?] using hi, by simpa using hmem.2, h.order t k n hn⟩

lemma OrdersOk.exists_of_threadOrder (h : g.OrdersOk) (hn : g.getNode? i = some n)
    (hpos : 0 < k) (hk : k ≤ n.threadOrder) :
    ∃ j m, g.getNode? j = some m ∧ m.tuid = n.tuid ∧ m.threadOrder = k := by
  have hlen : n.threadOrder ≤ (g.allOf n.tuid).length := by
    rw [← h.countUpTo_eq hn]
    exact ((take_sublist i g.nodes).filter _).length_le
  obtain ⟨m, hm⟩ : ∃ m, (g.allOf n.tuid)[k - 1]? = some m :=
    ⟨_, List.getElem?_eq_getElem (by omega)⟩
  obtain ⟨j, hj, ht, ho⟩ := h.exists_id hm
  exact ⟨j, m, hj, ht, by omega⟩

lemma OrdersOk.acyclic_of_lt (h : g.OrdersOk) (hlt : ∀ a b, g.Edge a b → a < b) : g.Acyclic := by
  have hbefore : ∀ a b, g.Before a b → a < b := by
    rintro a b (hab | ⟨n, m, hn, hm, ht, ho⟩)
    · exact hlt a b hab
    · exact h.lt_of_threadOrder hn hm ht ho
  have hpath : ∀ a b, Relation.TransGen g.Before a b → a < b := by
    intro a b hab
    induction hab with
    | single hab => exact hbefore _ _ hab
    | tail _ hbc ih => exact lt_trans ih (hbefore _ _ hbc)
  exact fun a ha => lt_irrefl _ (hpath a a ha)

lemma Acyclic.exists_minimal (h : g.Acyclic) {S : Set Nat} (hfin : S.Finite) (hne : S.Nonempty) :
    ∃ a, a ∈ S ∧ ∀ b, b ∈ S → ¬ Relation.TransGen g.Before b a := by
  have : IsStrictOrder Nat (Relation.TransGen g.Before) :=
    { irrefl := h, trans := fun _ _ _ => Relation.TransGen.trans }
  obtain ⟨a, ha, hmin⟩ := (hfin.wellFoundedOn (r := Relation.TransGen g.Before)).has_min
    Set.univ ⟨⟨hne.some, hne.some_mem⟩, trivial⟩
  exact ⟨a, a.2, fun b hb hba => hmin ⟨b, hb⟩ trivial hba⟩

end HBGraph

namespace DumpedRegion

/-- A cross-thread edge into a node of a fragment starts in that fragment or an earlier one. -/
def EdgesForward (R : DumpedRegion) : Prop :=
  ∀ frag, frag ∈ R.frags → ∀ i n, R.graph.getNode? i = some n → i ≤ frag.lastNodeId →
    frag.firstNodeId ≤ i → ∀ p q, p ∈ n.incoming → R.graph.getNode? p = some q → q.tuid ≠ n.tuid →
      p ≤ frag.lastNodeId

def LeadersOk (R : DumpedRegion) : Prop :=
  ∀ frag, frag ∈ R.frags → frag.lastNodeId ≠ R.graph.getMaxNodeId →
    ∃ n, R.graph.getNode? frag.lastNodeId = some n ∧ frag.nextThreadLeader = n.tuid

lemma edgesForward_of_lt (R : DumpedRegion) (h : ∀ a b, R.graph.Edge a b → a < b) :
    R.EdgesForward := by
  intro frag _ i n hn hle _ p q hp _ _
  have := h p i ⟨n, hn, hp⟩
  omega

end DumpedRegion

namespace RtLabel

def thread : RtLabel → Nat
  | initSkip t | initDone t | nextFragment t | enter t _ _ | edge t | skip t | ret t | advance t => t

end RtLabel

namespace RtState

/-- A thread enters `WaitForHbNode` for the operation that its schedule has next. -/
def Performs (R : DumpedRegion) (s : RtState) : RtLabel → Prop
  | .enter t ctx expectingInput =>
    ((s.threads t).ptr.head?.any fun raw => raw != endFragmentSentinal && raw != 0 &&
      wordMatches R.callctxTable raw ctx expectingInput) = true
  | _ => True

instance (R : DumpedRegion) (s : RtState) : ∀ l, Decidable (Performs R s l)
  | .enter _ _ _ => inferInstanceAs (Decidable (_ = true))
  | .initSkip _ | .initDone _ | .nextFragment _ | .edge _ | .skip _ | .ret _ | .advance _ =>
    isTrue trivial

def Remaining (R : DumpedRegion) (s : RtState) (t k : Nat) : Prop :=
  0 < k ∧ k ≤ (R.graph.allOf t).length ∧ s.advanced t k = false

instance (R : DumpedRegion) (s : RtState) (t k : Nat) : Decidable (Remaining R s t k) :=
  inferInstanceAs (Decidable (_ ∧ _ ∧ _))

/-! ## Consecutive fragments -/

section
variable {g : HBGraph} {first i : Nat} {fs : List ScheduleFragment} {frag : ScheduleFragment}

section
variable (h : Consecutive g first fs)
include h

lemma consecutive_last :
    ∃ i : Nat, ∃ frag : ScheduleFragment, fs[i]? = some frag ∧ frag.lastNodeId = g.getMaxNodeId := by
  induction fs generalizing first with
  | nil => cases h
  | cons f fs ih =>
    cases fs with
    | nil => exact ⟨0, f, rfl, h.2.2.2⟩
    | cons f' fs =>
      obtain ⟨i, frag, hi, hlast⟩ := ih h.2.2.2.2
      exact ⟨i + 1, frag, hi, hlast⟩

lemma consecutive_succ_lt (hi : fs[i]? = some frag)
    (hne : frag.lastNodeId ≠ g.getMaxNodeId) : i + 1 < fs.length := by
  induction fs generalizing first i with
  | nil => cases h
  | cons f fs ih =>
    cases fs with
    | nil =>
      cases i with
      | zero =>
        cases hi
        exact absurd h.2.2.2 hne
      | succ i => simp at hi
    | cons f' fs =>
      cases i with
      | zero => simp
      | succ i => simpa using ih h.2.2.2.2 hi

lemma consecutive_mono (hi : fs[i]? = some frag)
    (hj : fs[j]? = some frag') (hij : i ≤ j) : frag.lastNodeId ≤ frag'.lastNodeId := by
  induction j, hij using Nat.le_induction generalizing frag' with
  | base =>
    rw [hi] at hj
    cases hj
    exact le_rfl
  | succ j hij ih =>
    obtain ⟨f, hf⟩ : ∃ f, fs[j]? = some f := by
      have := (List.getElem?_eq_some_iff.1 hj).1
      exact ⟨_, List.getElem?_eq_getElem (by omega)⟩
    have hfirst := (consecutive_get h hf).2.2.2.2 frag' hj
    have hle := (consecutive_get h hj).2.1
    have := ih hf
    omega

end

end

variable {R : DumpedRegion} {s s' : RtState} {t : Nat}

/-! ## Where a thread can be stuck -/

def CanStep (R : DumpedRegion) (s : RtState) (t : Nat) : Prop :=
  ∃ l s', l.thread = t ∧ Performs R s l ∧ step R s l = some s'

variable {last next a : Nat}

lemma countUpTo_eq_of_allOf {before : List HBNode}
    (h : R.graph.allOf t = before ++ (R.graph.nodes.drop last).filter (fun n => n.tuid == t)) :
    R.graph.countUpTo t last = before.length := by
  unfold HBGraph.allOf at h
  conv at h => lhs; rw [← take_append_drop last R.graph.nodes, filter_append]
  unfold HBGraph.countUpTo
  rw [append_cancel_right h]

lemma At.le_countUpTo (h : At R t fragment next ptr) :
    ∃ frag, R.frags[fragment]? = some frag ∧ next ≤ R.graph.countUpTo t frag.lastNodeId + 1 := by
  obtain ⟨frag, before, todo, ws, hf, hall, hnext, -, -⟩ := h
  refine ⟨frag, hf, ?_⟩
  rw [countUpTo_eq_of_allOf hall, length_append]
  omega

lemma At.atEnd (h : At R t fragment next (w :: rest)) (hw : w = 0 ∨ w = endFragmentSentinal) :
    ∃ frag, R.frags[fragment]? = some frag ∧
      (frag.lastNodeId ≠ R.graph.getMaxNodeId → w = endFragmentSentinal) ∧
      next = R.graph.countUpTo t frag.lastNodeId + 1 := by
  obtain ⟨frag, before, hf, rfl, hall, rfl⟩ := h.passed hw
  refine ⟨frag, hf, fun hne => ?_, by rw [countUpTo_eq_of_allOf hall]⟩
  simp [ScheduleFragment.terminator, ScheduleFragment.isLast, (consecutive_get R.split hf).1, hne]

variable {frag : ScheduleFragment}

lemma canStep_nextFragment (hpc : (s.threads t).pc = .run)
    (hend : (s.threads t).ptr.head? = some endFragmentSentinal)
    (hfrag : R.frags[(s.threads t).fragment]? = some frag)
    (hlt : (s.threads t).fragment + 1 < R.frags.length)
    (h : (frag.nextThreadLeader = t ∧ s.currFragmentId = (s.threads t).fragment) ∨
      (frag.nextThreadLeader ≠ t ∧ (s.threads t).fragment + 1 ≤ s.currFragmentId)) :
    CanStep R s t := by
  have hstep : step R s (.nextFragment t) = s.advanceToNextFragment R t := if_pos ⟨hpc, hend⟩
  have hsome : ∃ s', s.advanceToNextFragment R t = some s' := by
    unfold advanceToNextFragment
    dsimp only
    rw [hfrag]
    dsimp only
    rw [if_pos hlt]
    rcases h with ⟨hl, hc⟩ | ⟨hl, hc⟩
    · rw [if_pos hl, if_pos hc]
      exact ⟨_, rfl⟩
    · rw [if_neg hl, if_pos hc]
      exact ⟨_, rfl⟩
  obtain ⟨s', hs'⟩ := hsome
  exact ⟨.nextFragment t, s', rfl, trivial, hstep.trans hs'⟩

lemma canStep_enter (hpc : (s.threads t).pc = .run) (hptr : (s.threads t).ptr = raw :: rest)
    (hat : At R t (s.threads t).fragment (s.threads t).next (raw :: rest)) (h0 : raw ≠ 0)
    (hend : raw ≠ endFragmentSentinal) (hskip : raw ≠ skipHbNodeFlag) : CanStep R s t := by
  have hm : wordMatches R.callctxTable raw (R.callctxTable (wordCtx raw)) (wordHasInput raw) = true := by
    simp [wordMatches]
  obtain ⟨node, preds, rest', -, -, heq, -⟩ := hat.take h0 hend hskip
  have hsome : ∃ s', s.waitForHbNode R t (R.callctxTable (wordCtx raw)) (wordHasInput raw) =
      some s' := by
    unfold waitForHbNode
    simp only [hptr, if_neg hend, if_neg h0, if_pos hm, heq, cons_append]
    exact ⟨_, rfl⟩
  obtain ⟨s', hs'⟩ := hsome
  refine ⟨.enter t _ _, s', rfl, ?_, (if_pos hpc).trans hs'⟩
  simp [Performs, hptr, hend, h0, hm]

lemma canStep_skips (hptr : (s.threads t).ptr = w :: rest)
    (hpc : (s.threads t).pc = .initSkips ∨ (s.threads t).pc = .edges 0) : CanStep R s t := by
  by_cases hw : w = skipHbNodeFlag
  · obtain ⟨s', hs'⟩ : ∃ s', s.skipNop t = some s' := by
      unfold skipNop
      simp only [hptr, if_pos hw]
      exact ⟨_, rfl⟩
    rcases hpc with hpc | hpc
    · exact ⟨.initSkip t, s', rfl, trivial, (if_pos hpc).trans hs'⟩
    · exact ⟨.skip t, s', rfl, trivial, (if_pos hpc).trans hs'⟩
  · have hns : atNonSkip (s.threads t) = true := by simp [atNonSkip, hptr, hw]
    rcases hpc with hpc | hpc
    · exact ⟨.initDone t, _, rfl, trivial, if_pos ⟨hpc, hns⟩⟩
    · exact ⟨.ret t, _, rfl, trivial, if_pos ⟨hpc, hns⟩⟩

lemma At.exists_cons (h : At R t fragment next ptr) : ∃ w rest, ptr = w :: rest := by
  obtain ⟨frag, before, todo, ws, -, -, -, -, rfl⟩ := h
  exact exists_cons_of_ne_nil (by simp)

lemma waits_of_stuck (hi : ReplayInv R s) (h : ¬ CanStep R s t) :
    (taken (s.threads t) = true ∧ ∃ node preds q,
      (R.graph.allOf t)[(s.threads t).cur - 1]? = some node ∧
      crossPreds R.graph node = some preds ∧ q ∈ preds ∧ s.clock q.tuid < q.threadOrder) ∨
    ((s.threads t).pc = .run ∧ ∃ w rest, (s.threads t).ptr = w :: rest ∧
      At R t (s.threads t).fragment (s.threads t).next (w :: rest) ∧
      (w = 0 ∨ w = endFragmentSentinal)) := by
  obtain ⟨left, rest, hptr, hat, hpos⟩ := hi.placed t
  obtain ⟨w, rest', rfl⟩ := hat.exists_cons
  cases hpc : (s.threads t).pc with
  | initSkips =>
    rw [hpc] at hpos
    subst hpos
    exact absurd (canStep_skips hptr (.inl hpc)) h
  | run =>
    rw [hpc] at hpos
    obtain ⟨rfl, hns⟩ := hpos
    have hskip : w ≠ skipHbNodeFlag := by simpa [atNonSkip, hptr] using hns
    refine .inr ⟨rfl, w, rest', hptr, hat, ?_⟩
    by_contra hw
    rw [not_or] at hw
    exact h (canStep_enter hpc hptr hat hw.1 hw.2 hskip)
  | edges k =>
    rw [hpc] at hpos
    obtain ⟨hlen, node, waited, hnode, hpreds⟩ := hpos
    cases left with
    | nil =>
      subst hlen
      exact absurd (canStep_skips hptr (.inr hpc)) h
    | cons q left =>
      subst hlen
      refine .inl ⟨by simp [taken, hpc], node, _, q, hnode, hpreds, by simp, ?_⟩
      -- otherwise the turn of the loop goes through
      by_contra hge
      rw [flatMap_cons] at hptr
      have hle : q.threadOrder ≤ s.clock q.tuid := by omega
      refine h ⟨.edge t, s.setThread t { s.threads t with
        ptr := (left.flatMap fun p : HBNode => [p.tuid, p.threadOrder]) ++ w :: rest'
        pc := .edges left.length }, rfl, trivial, ?_⟩
      simp only [step, hpc, length_cons, waitForEdge, hptr, cons_append, nil_append, if_pos hle]
  | held => exact absurd ⟨.advance t, _, rfl, trivial, if_pos hpc⟩ h

/-! ## Somebody can step -/

lemma Counted.clock_ge {clock k : Nat} {advanced : Nat → Bool}
    (h : Counted th clock advanced) (hk : ∀ j, 0 < j → j ≤ k → advanced j = true) : k ≤ clock := by
  have hclock := h.clock
  by_contra hlt
  have hlast := (h.adv k).1 (hk k (by omega) le_rfl)
  by_cases htk : taken th = true
  · rw [htk, if_pos rfl] at hclock
    have hcur := h.cur htk
    have := (h.adv th.cur).1 (hk _ hcur.1 (by omega))
    exact this.2.2 htk rfl
  · rw [if_neg htk] at hclock
    omega

/-- The node `a` is not advanced, and everything before it with an id up to `last` is. -/
structure Front (R : DumpedRegion) (s : RtState) (last a : Nat) (n : HBNode) : Prop where
  node : R.graph.getNode? a = some n
  le : a ≤ last
  left : s.advanced n.tuid n.threadOrder = false
  before : ∀ b m, R.graph.getNode? b = some m → b ≤ last →
    Relation.TransGen R.graph.Before b a → s.advanced m.tuid m.threadOrder = true

lemma Front.clock_ge (hf : Front R s last a n)
    (hc : Counted (s.threads q.tuid) (s.clock q.tuid) (s.advanced q.tuid)) (hp : p ∈ n.incoming)
    (hq : R.graph.getNode? p = some q) (hle : p ≤ last) : q.threadOrder ≤ s.clock q.tuid := by
  have hpa : R.graph.Before p a := .inl ⟨n, hf.node, hp⟩
  refine hc.clock_ge fun j hj hjq => ?_
  rcases Nat.lt_or_eq_of_le hjq with hlt | rfl
  · obtain ⟨b, m, hm, htm, rfl⟩ := R.orders.exists_of_threadOrder hq hj hjq
    have hbp : R.graph.Before b p := .inr ⟨m, q, hm, hq, htm, hlt⟩
    have hid := R.orders.lt_of_threadOrder hm hq htm hlt
    rw [← htm]
    exact hf.before b m hm (by omega) (.tail (.single hbp) hpa)
  · exact hf.before p q hq hle (.single hpa)

lemma Front.cur_eq (hf : Front R s last a n)
    (hc : Counted (s.threads n.tuid) (s.clock n.tuid) (s.advanced n.tuid))
    (htk : taken (s.threads n.tuid) = true) : (s.threads n.tuid).cur = n.threadOrder := by
  have hcur := hc.cur htk
  have hpos := threadOrder_pos R hf.node
  by_contra hne
  have hnot : ¬ (0 < n.threadOrder ∧ n.threadOrder < (s.threads n.tuid).next ∧
      (taken (s.threads n.tuid) = true → n.threadOrder ≠ (s.threads n.tuid).cur)) := by
    rw [← hc.adv, hf.left]
    simp
  obtain ⟨b, m, hm, htm, hmo⟩ := R.orders.exists_of_threadOrder hf.node hcur.1 (by omega)
  have hlt : m.threadOrder < n.threadOrder := by omega
  have hid := R.orders.lt_of_threadOrder hm hf.node htm hlt
  have hle := hf.le
  have hadv := hf.before b m hm (by omega) (.single (.inr ⟨m, n, hm, hf.node, htm, hlt⟩))
  rw [htm, hmo, hc.adv] at hadv
  exact hadv.2.2 htk rfl

lemma Front.waits_for_none
    (hf : Front R s frag.lastNodeId a n) (hi : ReplayInv R s) (hfwd : R.EdgesForward)
    (hfrag : frag ∈ R.frags) (hfirst : frag.firstNodeId ≤ a) (h : ¬ CanStep R s n.tuid) :
    taken (s.threads n.tuid) = false ∧
      ∃ w rest, (s.threads n.tuid).pc = .run ∧ (s.threads n.tuid).ptr = w :: rest ∧
        At R n.tuid (s.threads n.tuid).fragment (s.threads n.tuid).next (w :: rest) ∧
        (w = 0 ∨ w = endFragmentSentinal) := by
  rcases waits_of_stuck hi h with ⟨htk, node, preds, q, hnode, hpreds, hq, hlt⟩ |
    ⟨hpc, w, rest, hptr, hat, hw⟩
  · exfalso
    rw [hf.cur_eq (hi.counted _) htk, R.orders.allOf_threadOrder hf.node] at hnode
    cases hnode
    obtain ⟨hne, p, hp, hqn⟩ := (mem_crossPreds hpreds q).1 hq
    have hle := hfwd frag hfrag a n hf.node hf.le hfirst p q hp hqn hne
    have := hf.clock_ge (hi.counted _) hp hqn hle
    omega
  · exact ⟨by simp [taken, hpc], w, rest, hpc, hptr, hat, hw⟩

lemma fragment_handover (hi : ReplayInv R s) (hpc : (s.threads t).pc = .run)
    (hend : (s.threads t).ptr.head? = some endFragmentSentinal)
    (hfrag : R.frags[(s.threads t).fragment]? = some frag)
    (hne : frag.lastNodeId ≠ R.graph.getMaxNodeId)
    (hdone : ∀ b m, R.graph.getNode? b = some m → b ≤ frag.lastNodeId →
      s.advanced m.tuid m.threadOrder = true) :
    CanStep R s t ∨ CanStep R s frag.nextThreadLeader := by
  have hlt := consecutive_succ_lt R.split hfrag hne
  have hle := hi.led.le t
  by_cases hl : frag.nextThreadLeader = t
  · -- the leader has not published yet, or it would not be here
    refine .inl (canStep_nextFragment hpc hend hfrag hlt (.inl ⟨hl, ?_⟩))
    by_contra hc
    have := hi.led.leader _ frag (by omega) hfrag
    rw [hl] at this
    omega
  by_cases hc : (s.threads t).fragment + 1 ≤ s.currFragmentId
  · exact .inl (canStep_nextFragment hpc hend hfrag hlt (.inr ⟨hl, hc⟩))
  right
  by_contra hstuck
  have hlle := hi.led.le frag.nextThreadLeader
  rcases waits_of_stuck hi hstuck with ⟨htk, node, preds, q, hnode, -⟩ |
    ⟨hpcL, w, rest, hptr, hat, hw⟩
  · -- the node it has taken is one of those that are advanced
    have hcur := (hi.counted _).cur htk
    obtain ⟨left, rest, -, hat, -⟩ := hi.placed frag.nextThreadLeader
    obtain ⟨frag', hfrag', hnext⟩ := hat.le_countUpTo
    have hmono := consecutive_mono R.split hfrag' hfrag (by omega)
    obtain ⟨i, hnode, hnt, hno⟩ := R.orders.exists_id hnode
    have hile : i ≤ frag'.lastNodeId := by
      rw [R.orders.le_iff_threadOrder hnode, hnt]
      omega
    have hadv := hdone i node hnode (by omega)
    have hnc : node.threadOrder = (s.threads frag.nextThreadLeader).cur := by omega
    rw [hnt, hnc, (hi.counted _).adv] at hadv
    exact hadv.2.2 htk rfl
  · obtain ⟨frag', hfrag', hterm, -⟩ := hat.atEnd hw
    have hmono := consecutive_mono R.split hfrag' hfrag (by omega)
    have hmax := (consecutive_get R.split hfrag).2.2.1
    have hne' : frag'.lastNodeId ≠ R.graph.getMaxNodeId := by omega
    have hend' : (s.threads frag.nextThreadLeader).ptr.head? = some endFragmentSentinal := by
      rw [hptr, hterm hne', List.head?_cons]
    refine hstuck (canStep_nextFragment hpcL hend' hfrag' (consecutive_succ_lt R.split hfrag' hne') ?_)
    by_cases hl' : frag'.nextThreadLeader = frag.nextThreadLeader
    · refine .inl ⟨hl', ?_⟩
      by_contra hcl
      have := hi.led.leader _ frag' (by omega) hfrag'
      rw [hl'] at this
      omega
    refine .inr ⟨hl', ?_⟩
    by_contra hcl
    have heq : (s.threads frag.nextThreadLeader).fragment = (s.threads t).fragment := by omega
    rw [heq, hfrag, Option.some.injEq] at hfrag'
    exact hl' (by rw [hfrag'])

def leftover (R : DumpedRegion) (s : RtState) : Set Nat :=
  { i | ∃ n, R.graph.getNode? i = some n ∧ s.advanced n.tuid n.threadOrder = false }

lemma leftover_finite (R : DumpedRegion) (s : RtState) : (leftover R s).Finite := by
  refine (Set.finite_le_nat R.graph.nodes.length).subset ?_
  rintro i ⟨n, hn, -⟩
  exact (HBGraph.getNode?_le hn).2

lemma exists_front (hacyc : R.graph.Acyclic) (h : (leftover R s).Nonempty) :
    ∃ (f : Nat) (frag : ScheduleFragment) (a : Nat) (n : HBNode), R.frags[f]? = some frag ∧
      Front R s frag.lastNodeId a n ∧ frag.firstNodeId ≤ a ∧
      ∀ (g : Nat) (frag' : ScheduleFragment), g < f → R.frags[g]? = some frag' → ∀ b m,
        R.graph.getNode? b = some m → b ≤ frag'.lastNodeId →
        s.advanced m.tuid m.threadOrder = true := by
  classical
  have hex : ∃ f : Nat, ∃ frag : ScheduleFragment, R.frags[f]? = some frag ∧
      (leftover R s ∩ { i | i ≤ frag.lastNodeId }).Nonempty := by
    obtain ⟨f, frag, hf, hlast⟩ := consecutive_last R.split
    obtain ⟨i, n, hn, hadv⟩ := h
    exact ⟨f, frag, hf, i, ⟨n, hn, hadv⟩, hlast ▸ (HBGraph.getNode?_le hn).2⟩
  obtain ⟨frag, hf, hne⟩ := Nat.find_spec hex
  have hmin : ∀ (g : Nat) (frag' : ScheduleFragment), g < Nat.find hex →
      R.frags[g]? = some frag' → ∀ b m, R.graph.getNode? b = some m → b ≤ frag'.lastNodeId →
      s.advanced m.tuid m.threadOrder = true := by
    intro g frag' hg hfrag' b m hm hb
    by_contra hadv
    exact Nat.find_min hex hg ⟨frag', hfrag', b, ⟨m, hm, by simpa using hadv⟩, hb⟩
  obtain ⟨a, ⟨⟨n, hn, hleft⟩, hle⟩, hamin⟩ :=
    hacyc.exists_minimal ((leftover_finite R s).subset Set.inter_subset_left) hne
  refine ⟨_, frag, a, n, hf, ⟨hn, hle, hleft, fun b m hm hb hba => ?_⟩, ?_, hmin⟩
  · by_contra hadv
    exact hamin b ⟨⟨m, hm, by simpa using hadv⟩, hb⟩ hba
  -- an id before the fragment is in an earlier one, which has nothing left
  cases hfind : Nat.find hex with
  | zero =>
    rw [hfind] at hf
    rw [(consecutive_get R.split hf).2.2.2.1 rfl]
    exact (HBGraph.getNode?_le hn).1
  | succ g =>
    rw [hfind] at hf hmin
    obtain ⟨frag', hfrag'⟩ : ∃ frag', R.frags[g]? = some frag' := by
      have := (List.getElem?_eq_some_iff.1 hf).1
      exact ⟨_, List.getElem?_eq_getElem (by omega)⟩
    rw [(consecutive_get R.split hfrag').2.2.2.2 frag hf]
    by_contra hlt
    have := hmin g frag' (Nat.lt_succ_self g) hfrag' a n hn (by omega)
    rw [hleft] at this
    cases this

lemma canStep_of_leftover (hi : ReplayInv R s) (hacyc : R.graph.Acyclic) (hfwd : R.EdgesForward)
    (hlead : R.LeadersOk) (h : (leftover R s).Nonempty) :
    ∃ t, R.graph.allOf t ≠ [] ∧ CanStep R s t := by
  have hnonempty : ∀ i n, R.graph.getNode? i = some n → R.graph.allOf n.tuid ≠ [] := by
    intro i n hn hnil
    have := R.orders.allOf_threadOrder hn
    rw [hnil] at this
    cases this
  obtain ⟨f, frag, a, n, hf, hfront, hfirst, hmin⟩ := exists_front hacyc h
  by_contra hall
  have hstuck : ∀ i m, R.graph.getNode? i = some m → ¬ CanStep R s m.tuid :=
    fun i m hm hc => hall ⟨m.tuid, hnonempty i m hm, hc⟩
  obtain ⟨htk, w, rest, hpc, hptr, hat, hw⟩ := hfront.waits_for_none hi hfwd
    (mem_of_getElem? hf) hfirst (hstuck a n hfront.node)
  obtain ⟨frag', hfrag', hterm, hnext⟩ := hat.atEnd hw
  -- the thread is through with its nodes up to the end of `frag'`
  have hgt : frag'.lastNodeId < a := by
    rw [← not_le, R.orders.le_iff_threadOrder hfront.node]
    intro hle
    have hadv := ((hi.counted n.tuid).adv n.threadOrder).2
      ⟨threadOrder_pos R hfront.node, by omega, by simp [htk]⟩
    rw [hfront.left] at hadv
    cases hadv
  have hmax := (HBGraph.getNode?_le hfront.node).2
  have hne : frag'.lastNodeId ≠ R.graph.getMaxNodeId := by
    unfold HBGraph.getMaxNodeId
    omega
  have hlt : (s.threads n.tuid).fragment < f := by
    by_contra hge
    have := consecutive_mono R.split hf hfrag' (by omega)
    have := hfront.le
    omega
  have hend : (s.threads n.tuid).ptr.head? = some endFragmentSentinal := by
    rw [hptr, hterm hne, List.head?_cons]
  obtain ⟨m, hm, hml⟩ := hlead frag' (mem_of_getElem? hfrag') hne
  rcases fragment_handover hi hpc hend hfrag' hne (hmin _ frag' hlt hfrag') with hc | hc
  · exact hstuck a n hfront.node hc
  · exact hstuck _ m hm (hml ▸ hc)

/-- In every reachable state in which a scheduled node is left, a thread of the graph can
step. -/
theorem replay_not_stuck (R : DumpedRegion) (hacyc : R.graph.Acyclic) (hfwd : R.EdgesForward)
    (hlead : R.LeadersOk) (s : RtState)
    (hr : Machine.ReachesBy (step R) (Performs R) (initial R) s)
    (hleft : ∃ t k, Remaining R s t k) :
    ∃ l s', R.graph.allOf l.thread ≠ [] ∧ Performs R s l ∧ step R s l = some s' := by
  obtain ⟨ls, hrun, -⟩ := hr
  have hi := Machine.inv_of_run (step R) (fun _ _ _ hi h => replayInv_step hi h)
    (replayInv_initial R) hrun
  obtain ⟨t, k, hpos, hk, hadv⟩ := hleft
  obtain ⟨n, hn⟩ : ∃ n, (R.graph.allOf t)[k - 1]? = some n :=
    ⟨_, List.getElem?_eq_getElem (by omega)⟩
  obtain ⟨i, hi', hnt, hno⟩ := R.orders.exists_id hn
  have hkn : n.threadOrder = k := by omega
  obtain ⟨u, hu, l, s', rfl, hp, hs⟩ := canStep_of_leftover hi hacyc hfwd hlead
    ⟨i, n, hi', by rw [hnt, hkn]; exact hadv⟩
  exact ⟨l, s', hu, hp, hs⟩

def turnsGraph : HBGraph :=
  let g := HBGraph.empty
  let g := (g.addNode 1 ⟨1, false⟩ none 0).2
  let g := (g.addNode 2 ⟨2, false⟩ none 0).2
  let g := g.addEdge 1 2
  let g := (g.addNode 1 ⟨3, false⟩ (some 7) 1).2
  let g := (g.addNode 1 ⟨3, false⟩ none 3).2
  g.addEdge 2 4

def turnsFragment (first last leader : Nat) : ScheduleFragment :=
  { wholeFragment turnsGraph with
    firstNodeId := first
    lastNodeId := last
    nextThreadLeader := leader }

def turnsRegion : DumpedRegion where
  graph := turnsGraph
  tab := plainTables
  frags := [turnsFragment 1 2 2, turnsFragment 3 4 1]
  callctxTable := id
  orders := HBGraph.ordersOk_empty.addNode.addNode.addEdge.addNode.addNode.addEdge
  split := ⟨rfl, rfl, by decide, by decide, rfl, rfl, by decide, rfl⟩
  dumps := by
    intro frag hf t
    simp only [mem_cons, not_mem_nil, or_false] at hf
    rcases hf with rfl | rfl
    · exact dumpThreadSchedule_isSome t (by decide)
    · exact dumpThreadSchedule_isSome t (by decide)

lemma turnsGraph_lt (a b : Nat) (h : turnsGraph.Edge a b) : a < b := by
  obtain ⟨n, hn, ha⟩ := h
  obtain ⟨hpos, hle⟩ := HBGraph.getNode?_le hn
  have hb : b = 1 ∨ b = 2 ∨ b = 3 ∨ b = 4 := by
    have : turnsGraph.nodes.length = 4 := rfl
    omega
  rcases hb with rfl | rfl | rfl | rfl
  · cases hn
    cases ha
  · cases hn
    exact (show ∀ a ∈ [1], a < 2 by decide) a ha
  · cases hn
    exact (show ∀ a ∈ [1], a < 3 by decide) a ha
  · cases hn
    exact (show ∀ a ∈ [3, 2], a < 4 by decide) a ha

lemma turnsRegion_leadersOk : turnsRegion.LeadersOk := by
  intro frag hf hne
  simp only [turnsRegion, mem_cons, not_mem_nil, or_false] at hf
  rcases hf with rfl | rfl
  · exact ⟨_, rfl, rfl⟩
  · exact absurd rfl hne

/-- Thread 1 is through with the first fragment and waits for thread 2, which leads. -/
theorem replay_not_stuck_turns :
    ∃ s, Machine.ReachesBy (step turnsRegion) (Performs turnsRegion) (initial turnsRegion) s ∧
      Remaining turnsRegion s 1 3 ∧
      ∃ l s', turnsRegion.graph.allOf l.thread ≠ [] ∧ Performs turnsRegion s l ∧
        step turnsRegion s l = some s' := by
  have hreach : ∃ s, Machine.ReachesBy (step turnsRegion) (Performs turnsRegion)
      (initial turnsRegion) s ∧ Remaining turnsRegion s 1 3 :=
    ⟨_, ⟨[.initDone 1, .initDone 2, .enter 1 2 false, .ret 1, .advance 1, .enter 2 3 false], rfl,
      by decide⟩, by decide⟩
  obtain ⟨s, hr, hleft⟩ := hreach
  exact ⟨s, hr, hleft, replay_not_stuck turnsRegion (turnsRegion.orders.acyclic_of_lt turnsGraph_lt)
    (turnsRegion.edgesForward_of_lt turnsGraph_lt) turnsRegion_leadersOk s hr ⟨1, 3, hleft⟩⟩

end RtState

end InputCovSched
