import InputCovSched.Runtime.Schedule
import InputCovSched.Lib.Machine

/-!
# The runtime's clocks (`WaitForHbNode`, `AdvanceHbNode`, `SkipNopScheduleNodes`)

`WaitForHbNode` takes the node at the pointer, waits until the clock of each cross-thread
predecessor has reached that predecessor's position, and steps over the skip words that
follow, advancing the clock once for each; the caller advances once more for the node
itself when the operation is done. The clock bump of a skip word that follows a node comes
before the node's own:

    a successor of the node runs before the node's own advance  (not_enforced)
    no eager skip after a node with cross-thread successors → Enforced  (enforced_of_meets)

`advanced t k` is the specification's own state: the `AdvanceHbNode` of the `k`-th node of thread
`t` has been performed.
-/

namespace InputCovSched

open Function List Option

/-- The fragments cut the node ids from `first` on into consecutive ranges. -/
def Consecutive (g : HBGraph) : Nat → List ScheduleFragment → Prop
  | _, [] => False
  | first, [f] => f.hbGraph = g ∧ f.firstNodeId = first ∧ first ≤ f.lastNodeId + 1 ∧
    f.lastNodeId = g.getMaxNodeId
  | first, f :: fs => f.hbGraph = g ∧ f.firstNodeId = first ∧ first ≤ f.lastNodeId + 1 ∧
    f.lastNodeId < g.getMaxNodeId ∧ Consecutive g (f.lastNodeId + 1) fs

/-- A happens-before graph cut into fragments whose dump succeeds. -/
structure DumpedRegion where
  graph : HBGraph
  tab : Tables
  frags : List ScheduleFragment
  callctxTable : Nat → Nat
  orders : graph.OrdersOk
  split : Consecutive graph 1 frags
  dumps : ∀ frag, frag ∈ frags → ∀ t, (dumpThreadSchedule tab frag t).isSome = true

def wholeFragment (g : HBGraph) : ScheduleFragment where
  hbGraph := g
  firstNodeId := 1
  lastNodeId := g.getMaxNodeId
  inputIds := fun _ => none
  nextThreadLeader := 0
  nextSelectorId := 0
  exitsProgram := false

variable {frag : ScheduleFragment}

lemma dumpThreadSchedule_isSome {tab : Tables} (t : Nat)
    (h : ∀ n, n ∈ frag.hbGraph.nodes → (dumpNode tab frag n).isSome = true) :
    (dumpThreadSchedule tab frag t).isSome = true := by
  unfold dumpThreadSchedule
  rw [isSome_map]
  apply dumpNodes_isSome
  intro n hn
  exact h n (mem_of_mem_take (mem_of_mem_drop (mem_of_mem_filter hn)))

/-- A graph that is dumped without cuts. -/
def DumpedRegion.whole (g : HBGraph) (tab : Tables) (callctxTable : Nat → Nat) (orders : g.OrdersOk)
    (dumps : ∀ n, n ∈ g.nodes → (dumpNode tab (wholeFragment g) n).isSome = true) :
    DumpedRegion where
  graph := g
  tab := tab
  frags := [wholeFragment g]
  callctxTable := callctxTable
  orders := orders
  split := ⟨rfl, rfl, by simp, rfl⟩
  dumps := by
    intro frag hf t
    rw [mem_singleton.1 hf]
    exact dumpThreadSchedule_isSome t dumps

def DumpedRegion.words (R : DumpedRegion) (i t : Nat) : List Nat :=
  match R.frags[i]? with
  | none => []
  | some frag => (dumpThreadSchedule R.tab frag t).getD []

/-- Where a thread stands in `WaitForHbNode`. -/
inductive Pc where
  /-- In `SkipNopScheduleNodes` of `InitializeMyThreadSchedulePtr`. -/
  | initSkips
  /-- Outside, with no node taken. -/
  | run
  /-- A node is taken and `left` incoming edges are still to wait for; at 0 the thread is in
  the `SkipNopScheduleNodes` at the end. -/
  | edges (left : Nat)
  /-- `WaitForHbNode` returned true, `AdvanceHbNode` is still to come. -/
  | held
  deriving DecidableEq, Repr

/-- `cur` and `next` are the positions of the node last taken and of the node at the
pointer; the code does not keep them. -/
structure RtThread where
  ptr : List Nat
  fragment : Nat
  pc : Pc
  cur : Nat
  next : Nat
  deriving DecidableEq, Repr

structure RtState where
  threads : Nat → RtThread
  clock : Nat → Nat
  currFragmentId : Nat
  advanced : Nat → Nat → Bool

inductive RtLabel where
  | initSkip (t : Nat)
  | initDone (t : Nat)
  | nextFragment (t : Nat)
  | enter (t ctx : Nat) (expectingInput : Bool)
  | edge (t : Nat)
  | skip (t : Nat)
  | ret (t : Nat)
  | advance (t : Nat)
  deriving DecidableEq, Repr

namespace RtState

def initial (R : DumpedRegion) : RtState where
  threads := fun t => ⟨R.words 0 t, 0, .initSkips, 0, 1⟩
  clock := fun _ => 0
  currFragmentId := 0
  advanced := fun _ _ => false

def setThread (s : RtState) (t : Nat) (th : RtThread) : RtState :=
  { s with threads := update s.threads t th }

/-- `AdvanceHbNode` for the node at position `k` of thread `t`. -/
def advanceHbNode (s : RtState) (t k : Nat) : RtState :=
  { s with
    clock := update s.clock t (s.clock t + 1)
    advanced := update s.advanced t (update (s.advanced t) k true) }

/-- The body of the loop of `SkipNopScheduleNodes`. -/
def skipNop (s : RtState) (t : Nat) : Option RtState :=
  let th := s.threads t
  match th.ptr with
  | w :: rest =>
    if w = skipHbNodeFlag then
      some ((s.advanceHbNode t th.next).setThread t { th with ptr := rest, next := th.next + 1 })
    else none
  | [] => none

/-- The loop condition of `SkipNopScheduleNodes` fails. -/
def atNonSkip (th : RtThread) : Bool :=
  match th.ptr with
  | w :: _ => w != skipHbNodeFlag
  | [] => false

/-- `AdvanceToNextFragment`: the leader selects and publishes, the others wait. -/
def advanceToNextFragment (R : DumpedRegion) (s : RtState) (t : Nat) : Option RtState :=
  let th := s.threads t
  let fragment := th.fragment + 1
  let th' := { th with fragment := fragment, ptr := R.words fragment t, pc := .initSkips }
  match R.frags[th.fragment]? with
  | none => none
  | some old =>
    if fragment < R.frags.length then
      if old.nextThreadLeader = t then
        if s.currFragmentId = th.fragment then
          some ({ s with currFragmentId := fragment }.setThread t th')
        else none
      else if fragment ≤ s.currFragmentId then some (s.setThread t th')
      else none
    else none

/-- `WaitForHbNode` from the test of the schedule word to the wait for the edges; the
state stays as it is when the function returns false. -/
def waitForHbNode (R : DumpedRegion) (s : RtState) (t ctx : Nat) (expectingInput : Bool) :
    Option RtState :=
  let th := s.threads t
  match th.ptr with
  | [] => none
  | raw :: rest =>
    if raw = endFragmentSentinal then none
    else if raw = 0 then some s
    else if wordMatches R.callctxTable raw ctx expectingInput then
      match if expectingInput then rest.tail else rest with
      | numincoming :: rest =>
        some (s.setThread t
          { th with ptr := rest, pc := .edges numincoming, cur := th.next, next := th.next + 1 })
      | [] => none
    else some s

/-- One turn of the loop over the incoming edges, with the identity thread map. -/
def waitForEdge (s : RtState) (t left : Nat) : Option RtState :=
  let th := s.threads t
  match th.ptr with
  | tid :: timestamp :: rest =>
    if timestamp ≤ s.clock tid then some (s.setThread t { th with ptr := rest, pc := .edges left })
    else none
  | _ => none

def step (R : DumpedRegion) (s : RtState) : RtLabel → Option RtState
  | .initSkip t => if (s.threads t).pc = .initSkips then s.skipNop t else none
  | .initDone t =>
    if (s.threads t).pc = .initSkips ∧ atNonSkip (s.threads t) then
      some (s.setThread t { s.threads t with pc := .run })
    else none
  | .nextFragment t =>
    if (s.threads t).pc = .run ∧ (s.threads t).ptr.head? = some endFragmentSentinal then
      s.advanceToNextFragment R t
    else none
  | .enter t ctx expectingInput =>
    if (s.threads t).pc = .run then s.waitForHbNode R t ctx expectingInput else none
  | .edge t =>
    match (s.threads t).pc with
    | .edges (left + 1) => s.waitForEdge t left
    | _ => none
  | .skip t => if (s.threads t).pc = .edges 0 then s.skipNop t else none
  | .ret t =>
    if (s.threads t).pc = .edges 0 ∧ atNonSkip (s.threads t) then
      some (s.setThread t { s.threads t with pc := .held })
    else none
  | .advance t =>
    if (s.threads t).pc = .held then
      some ((s.advanceHbNode t (s.threads t).cur).setThread t { s.threads t with pc := .run })
    else none

/-- The `k`-th node of thread `t` is no predecessor of a node of another thread. -/
def NoCrossSuccessor (g : HBGraph) (t k : Nat) : Prop :=
  ∀ m, m ∈ g.nodes → m.tuid ≠ t → ∀ p, p ∈ m.incoming → ∀ q, g.getNode? p = some q →
    ¬ (q.tuid = t ∧ q.threadOrder = k)

instance (g : HBGraph) (t k : Nat) : Decidable (NoCrossSuccessor g t k) :=
  decidable_of_iff (∀ m, m ∈ g.nodes → m.tuid ≠ t → ∀ p, p ∈ m.incoming →
    ((g.getNode? p).all fun q => decide (¬ (q.tuid = t ∧ q.threadOrder = k))) = true) (by
      simp only [Option.all_eq_true, decide_eq_true_eq, NoCrossSuccessor])

/-- A skip word is stepped over at the end of `WaitForHbNode` only when the node just taken
has no cross-thread successor. -/
def EagerSkipOk (R : DumpedRegion) (s : RtState) : RtLabel → Prop
  | .skip t => NoCrossSuccessor R.graph t (s.threads t).cur
  | _ => True

instance (R : DumpedRegion) (s : RtState) : ∀ l, Decidable (EagerSkipOk R s l)
  | .skip t => inferInstanceAs (Decidable (NoCrossSuccessor R.graph t (s.threads t).cur))
  | .initSkip _ | .initDone _ | .nextFragment _ | .enter _ _ _ | .edge _ | .ret _ | .advance _ =>
    isTrue trivial

/-- Where `WaitForHbNode` returned for a node, every cross-thread predecessor of the node
has been advanced by its owner. -/
def Enforced (R : DumpedRegion) (s : RtState) : Prop :=
  ∀ t, (s.threads t).pc = .held → ∀ node, (R.graph.allOf t)[(s.threads t).cur - 1]? = some node →
    ∀ p, p ∈ node.incoming → ∀ q, R.graph.getNode? p = some q → q.tuid ≠ t →
      s.advanced q.tuid q.threadOrder = true

/-! ## The invariant -/

/-- The pointer is at the `next`-th node of the thread, in the given fragment. -/
def At (R : DumpedRegion) (t fragment next : Nat) (ptr : List Nat) : Prop :=
  ∃ frag before todo ws, R.frags[fragment]? = some frag ∧
    R.graph.allOf t = before ++ todo ++
      (R.graph.nodes.drop frag.lastNodeId).filter (fun n => n.tuid == t) ∧
    before.length + 1 = next ∧ dumpNodes R.tab frag todo = some ws ∧ ptr = ws ++ [frag.terminator]

/-- Between `WaitForHbNode` and `AdvanceHbNode`. -/
def taken (th : RtThread) : Bool :=
  match th.pc with
  | .initSkips | .run => false
  | .edges _ | .held => true

/-- The clock counts the advances; a node that is taken is not advanced yet. -/
structure Counted (th : RtThread) (clock : Nat) (advanced : Nat → Bool) : Prop where
  adv : ∀ k, advanced k = true ↔ 0 < k ∧ k < th.next ∧ (taken th = true → k ≠ th.cur)
  clock : clock + 1 + (if taken th then 1 else 0) = th.next
  cur : taken th = true → 0 < th.cur ∧ th.cur < th.next

/-- The pointer is at a node or an end, behind the edges that are still to wait for. -/
def Placed (R : DumpedRegion) (t : Nat) (th : RtThread) : Prop :=
  ∃ left rest, th.ptr = (left.flatMap fun p : HBNode => [p.tuid, p.threadOrder]) ++ rest ∧
    At R t th.fragment th.next rest ∧
    match th.pc with
    | .initSkips => left = []
    | .run | .held => left = [] ∧ atNonSkip th = true
    | .edges k => left.length = k ∧ ∃ node waited, (R.graph.allOf t)[th.cur - 1]? = some node ∧
      crossPreds R.graph node = some (waited ++ left)

/-- Nobody is in a fragment that is not published, and the leader of a fragment goes on
when it publishes the next one. -/
structure Led (R : DumpedRegion) (s : RtState) : Prop where
  le : ∀ t, (s.threads t).fragment ≤ s.currFragmentId
  leader : ∀ i frag, i < s.currFragmentId → R.frags[i]? = some frag →
    i < (s.threads frag.nextThreadLeader).fragment

structure ReplayInv (R : DumpedRegion) (s : RtState) : Prop where
  counted : ∀ t, Counted (s.threads t) (s.clock t) (s.advanced t)
  placed : ∀ t, Placed R t (s.threads t)
  led : Led R s

variable {R : DumpedRegion} {s s' : RtState} {t : Nat}

lemma advanceHbNode_advanced (s : RtState) (t k j : Nat) :
    (s.advanceHbNode t k).advanced t j = true ↔ j = k ∨ s.advanced t j = true := by
  simp only [advanceHbNode, update_self]
  by_cases hjk : j = k
  · simp [hjk]
  · simp [hjk]

/-! ## The pointer and the dumped words -/

variable {rest : List Nat} {ctx left next k i : Nat} {inp : Bool} {g : HBGraph}

lemma consecutive_get (h : Consecutive g first fs) (hi : fs[i]? = some frag) :
    frag.hbGraph = g ∧ frag.firstNodeId ≤ frag.lastNodeId + 1 ∧
    frag.lastNodeId ≤ g.getMaxNodeId ∧ (i = 0 → frag.firstNodeId = first) ∧
    ∀ frag', fs[i + 1]? = some frag' → frag'.firstNodeId = frag.lastNodeId + 1 := by
  induction fs generalizing first i frag with
  | nil => cases h
  | cons f fs ih =>
    cases fs with
    | nil =>
      obtain ⟨h1, h2, h3, h4⟩ := h
      cases i with
      | zero =>
        cases hi
        exact ⟨h1, by omega, by omega, fun _ => h2, by simp⟩
      | succ i => simp at hi
    | cons f' fs =>
      obtain ⟨h1, h2, h3, h4, h5⟩ := h
      cases i with
      | zero =>
        cases hi
        refine ⟨h1, by omega, by omega, fun _ => h2, fun frag' hf => ?_⟩
        exact (ih h5 hf).2.2.2.1 rfl
      | succ i =>
        obtain ⟨g1, g2, g3, -, g5⟩ := ih h5 hi
        exact ⟨g1, g2, g3, by omega, g5⟩

lemma filter_drop_eq {t last : Nat} (h1 : first ≤ last + 1) (h2 : last ≤ g.getMaxNodeId) :
    (g.nodes.drop (first - 1)).filter (fun n => n.tuid == t) =
      g.threadNodes t first last ++ (g.nodes.drop last).filter fun n => n.tuid == t := by
  unfold HBGraph.threadNodes
  rw [← filter_append]
  congr 1
  have hlen : first - 1 ≤ (g.nodes.take last).length := by
    rw [length_take]
    unfold HBGraph.getMaxNodeId at h2
    omega
  calc g.nodes.drop (first - 1)
      = (g.nodes.take last ++ g.nodes.drop last).drop (first - 1) := by rw [take_append_drop]
    _ = (g.nodes.take last).drop (first - 1) ++ g.nodes.drop last := drop_append_of_le_length hlen

lemma at_words (before : List HBNode)
    (hf : R.frags[fragment]? = some frag) (hb : R.graph.allOf t =
      before ++ (R.graph.nodes.drop (frag.firstNodeId - 1)).filter fun n => n.tuid == t) :
    At R t fragment (before.length + 1) (R.words fragment t) := by
  obtain ⟨h1, h2, h3, -, -⟩ := consecutive_get R.split hf
  have hdump := R.dumps frag (mem_of_getElem? hf) t
  obtain ⟨ws, hws⟩ := isSome_iff_exists.1 hdump
  have hw : R.words fragment t = ws := by
    simp [DumpedRegion.words, hf, hws]
  obtain ⟨ws', hws', rfl⟩ := map_eq_some_iff.1 hws
  rw [hw]
  refine ⟨frag, before, _, ws', hf, ?_, rfl, hws', rfl⟩
  rw [hb, filter_drop_eq h2 h3, h1, append_assoc]

lemma at_initial (R : DumpedRegion) (t : Nat) : At R t 0 1 (R.words 0 t) := by
  have hne : ∃ frag, R.frags[0]? = some frag := by
    cases hfr : R.frags with
    | nil =>
      have := R.split
      rw [hfr] at this
      cases this
    | cons f fs => exact ⟨f, rfl⟩
  obtain ⟨frag, hf⟩ := hne
  have hfirst := (consecutive_get R.split hf).2.2.2.1 rfl
  refine at_words [] hf ?_
  rw [hfirst]
  rfl

lemma At.node (h : At R t fragment next (raw :: rest)) (h0 : raw ≠ 0)
    (hend : raw ≠ endFragmentSentinal) :
    ∃ node w rest', (R.graph.allOf t)[next - 1]? = some node ∧
      (∃ frag, R.frags[fragment]? = some frag ∧ dumpNode R.tab frag node = some w) ∧
      raw :: rest = w ++ rest' ∧ At R t fragment (next + 1) rest' := by
  obtain ⟨frag, before, todo, ws, hf, hall, hnext, hws, hptr⟩ := h
  cases todo with
  | nil =>
    -- only the terminator is left
    cases hws
    simp only [nil_append, List.cons.injEq] at hptr
    rw [hptr.1] at h0 hend
    unfold ScheduleFragment.terminator at h0 hend
    split at h0
    · exact absurd rfl h0
    rename_i hl
    rw [if_neg hl] at hend
    exact absurd rfl hend
  | cons node todo =>
    obtain ⟨w, ws', hw, hws', rfl⟩ := dumpNodes_cons hws
    refine ⟨node, w, ws' ++ [frag.terminator], ?_, ⟨frag, hf, hw⟩, by rw [hptr, append_assoc],
      ⟨frag, before ++ [node], todo, ws', hf, ?_, ?_, hws', rfl⟩⟩
    · rw [hall, ← hnext]
      simp
    · rw [hall]
      simp
    · simp [hnext]

lemma At.skip (h : At R t fragment next (skipHbNodeFlag :: rest)) :
    At R t fragment (next + 1) rest := by
  obtain ⟨node, w, rest', -, ⟨frag, hf, hw⟩, heq, hat⟩ := h.node (by decide) (by decide)
  rcases dumpNode_cases hw with ⟨rfl, -⟩ | ⟨inputId, preds, hctx, -, rfl⟩
  · simp only [cons_append, nil_append, List.cons.injEq, true_and] at heq
    rwa [heq]
  obtain ⟨raw, more, hsw, -, -, hns, -⟩ := syncWords_head inputId preds hctx
  rw [hsw, cons_append] at heq
  exact absurd (List.cons.inj heq).1.symm hns

lemma At.take (h : At R t fragment next (raw :: rest)) (h0 : raw ≠ 0)
    (hend : raw ≠ endFragmentSentinal) (hskip : raw ≠ skipHbNodeFlag) :
    ∃ node preds rest', (R.graph.allOf t)[next - 1]? = some node ∧
      crossPreds R.graph node = some preds ∧
      (if wordHasInput raw then rest.tail else rest) =
        preds.length :: (preds.flatMap fun p => [p.tuid, p.threadOrder]) ++ rest' ∧
      At R t fragment (next + 1) rest' := by
  obtain ⟨node, w, rest', hnode, ⟨frag, hf, hw⟩, heq, hat⟩ := h.node h0 hend
  rcases dumpNode_cases hw with ⟨rfl, -⟩ | ⟨inputId, preds, hctx, hpreds, rfl⟩
  · exact absurd (List.cons.inj heq).1 hskip
  obtain ⟨raw', more, hsw, -, -, -, hin, hmore⟩ := syncWords_head inputId preds hctx
  rw [hsw, cons_append, List.cons.injEq] at heq
  obtain ⟨rfl, rfl⟩ := heq
  rw [(consecutive_get R.split hf).1] at hpreds
  refine ⟨node, preds, rest', hnode, hpreds, ?_, hat⟩
  rw [hin, hmore]
  by_cases hi : inputId = 0
  · simp [hi]
  · simp [hi]

lemma At.passed (h : At R t fragment next (w :: rest)) (hw : w = 0 ∨ w = endFragmentSentinal) :
    ∃ frag before, R.frags[fragment]? = some frag ∧ w = frag.terminator ∧
      R.graph.allOf t =
        before ++ (R.graph.nodes.drop frag.lastNodeId).filter (fun n => n.tuid == t) ∧
      before.length + 1 = next := by
  obtain ⟨frag, before, todo, ws, hf, hall, hnext, hws, hptr⟩ := h
  cases todo with
  | nil =>
    cases hws
    exact ⟨frag, before, hf, (List.cons.inj hptr).1, by rw [hall, append_nil], hnext⟩
  | cons node todo =>
    -- the first word of a node is no end
    obtain ⟨w', ws', hw', hws', rfl⟩ := dumpNodes_cons hws
    rcases dumpNode_cases hw' with ⟨rfl, -⟩ | ⟨inputId, preds, hctx, -, rfl⟩
    · simp only [cons_append, List.cons.injEq] at hptr
      rw [hptr.1] at hw
      exact absurd hw (by decide)
    obtain ⟨raw, more, hsw, h0, hns, -⟩ := syncWords_head inputId preds hctx
    rw [hsw] at hptr
    simp only [cons_append, List.cons.injEq] at hptr
    rw [hptr.1] at hw
    exact absurd hw (by simp [h0, hns])

lemma At.nextFragment (h : At R t fragment next (endFragmentSentinal :: rest))
    (hlt : fragment + 1 < R.frags.length) :
    At R t (fragment + 1) next (R.words (fragment + 1) t) := by
  obtain ⟨frag, before, hf, -, hall, rfl⟩ := h.passed (.inr rfl)
  obtain ⟨frag', hf'⟩ : ∃ frag', R.frags[fragment + 1]? = some frag' :=
    ⟨_, List.getElem?_eq_getElem hlt⟩
  have hfirst := (consecutive_get R.split hf).2.2.2.2 frag' hf'
  refine at_words before hf' ?_
  rw [hall, hfirst]
  simp

/-! ## The steps -/

lemma replayInv_initial (R : DumpedRegion) : ReplayInv R (initial R) where
  counted t := ⟨fun k => by simp [initial]; omega, rfl, by simp [taken, initial]⟩
  placed t := ⟨[], _, rfl, at_initial R t, rfl⟩
  led := ⟨fun t => le_rfl, fun i frag h => by simp [initial] at h⟩

lemma setThread_self (s : RtState) (t : Nat) (th : RtThread) :
    (s.setThread t th).threads t = th := update_self _ _ _

variable {th : RtThread}

lemma setThread_of_ne (h : u ≠ t) :
    (s.setThread t th).threads u = s.threads u := update_of_ne h _ _

lemma Counted.move {clock : Nat} {advanced : Nat → Bool}
    (h : Counted th clock advanced) (hn : th'.next = th.next) (hcur : th'.cur = th.cur)
    (htk : taken th' = taken th) : Counted th' clock advanced := by
  constructor <;> rw [hn, htk]
  · rw [hcur]
    exact h.adv
  · exact h.clock
  · rw [hcur]
    exact h.cur

lemma ReplayInv.of_step (hi : ReplayInv R s) (hth : ∀ u, u ≠ t → s'.threads u = s.threads u)
    (hclock : ∀ u, u ≠ t → s'.clock u = s.clock u)
    (hadv : ∀ u, u ≠ t → s'.advanced u = s.advanced u) (hl : Led R s')
    (hc : Counted (s'.threads t) (s'.clock t) (s'.advanced t))
    (hp : Placed R t (s'.threads t)) : ReplayInv R s' := by
  refine ⟨fun u => ?_, fun u => ?_, hl⟩
  · by_cases hut : u = t
    · exact hut ▸ hc
    · rw [hth u hut, hclock u hut, hadv u hut]
      exact hi.counted u
  · by_cases hut : u = t
    · exact hut ▸ hp
    · rw [hth u hut]
      exact hi.placed u

lemma Led.setThread (h : Led R s) (s' : RtState) (hcfi : s'.currFragmentId = s.currFragmentId)
    (hth : s'.threads = s.threads) (hf : th.fragment = (s.threads t).fragment) :
    Led R (s'.setThread t th) := by
  have hfrag : ∀ u, ((s'.setThread t th).threads u).fragment = (s.threads u).fragment := by
    intro u
    by_cases hut : u = t
    · rw [hut, setThread_self, hf]
    · rw [setThread_of_ne hut, hth]
  constructor
  · intro u
    rw [hfrag]
    exact hcfi ▸ h.le u
  · intro i frag hlt hfr
    rw [hfrag]
    exact h.leader i frag (hcfi ▸ hlt) hfr

section
variable (hi : ReplayInv R s) (hf : th.fragment = (s.threads t).fragment)
include hi hf

lemma ReplayInv.setThread (hc : Counted th (s.clock t) (s.advanced t))
    (hp : Placed R t th) : ReplayInv R (s.setThread t th) :=
  hi.of_step (fun _ hut => setThread_of_ne hut) (fun _ _ => rfl) (fun _ _ => rfl)
    (hi.led.setThread s rfl rfl hf) (by rwa [setThread_self]) (by rwa [setThread_self])

lemma ReplayInv.advanceHbNode
    (hc : Counted th (s.clock t + 1) ((s.advanceHbNode t k).advanced t)) (hp : Placed R t th) :
    ReplayInv R ((s.advanceHbNode t k).setThread t th) :=
  hi.of_step (fun _ hut => setThread_of_ne hut) (fun _ hut => update_of_ne hut _ _)
    (fun _ hut => update_of_ne hut _ _) (hi.led.setThread (s.advanceHbNode t k) rfl rfl hf)
    (by rw [setThread_self]; simpa [RtState.setThread, RtState.advanceHbNode] using hc)
    (by rwa [setThread_self])

end

section
variable {th th' : RtThread} {clock : Nat}

lemma Counted.enter {advanced : Nat → Bool} (h : Counted th clock advanced)
    (hn : th'.next = th.next + 1) (hcur : th'.cur = th.next) (h0 : taken th = false)
    (h1 : taken th' = true) : Counted th' clock advanced := by
  have hclock := h.clock
  rw [h0] at hclock
  simp only [Bool.false_eq_true, if_false] at hclock
  constructor
  · intro k
    rw [h.adv, hn, hcur, h0, h1]
    simp only [Bool.false_eq_true, false_implies, true_implies, and_true]
    omega
  · rw [hn, h1, if_pos rfl]
    omega
  · intro _
    omega

lemma Counted.skip (h : Counted th clock (s.advanced t)) (hn : th'.next = th.next + 1)
    (hcur : th'.cur = th.cur) (htk : taken th' = taken th) :
    Counted th' (clock + 1) ((s.advanceHbNode t th.next).advanced t) := by
  have hclock := h.clock
  have hc := h.cur
  constructor
  · intro k
    rw [advanceHbNode_advanced, h.adv, hn, hcur, htk]
    constructor
    · rintro (rfl | ⟨h1, h2, h3⟩)
      · exact ⟨by omega, by omega, fun ht => by have := hc ht; omega⟩
      · exact ⟨h1, by omega, h3⟩
    · rintro ⟨h1, h2, h3⟩
      by_cases hk : k = th.next
      · exact .inl hk
      · exact .inr ⟨h1, by omega, h3⟩
  · rw [hn, htk]
    omega
  · intro ht
    rw [htk] at ht
    have := hc ht
    omega

lemma Counted.advance (h : Counted th clock (s.advanced t)) (hn : th'.next = th.next)
    (h1 : taken th = true) (h0 : taken th' = false) :
    Counted th' (clock + 1) ((s.advanceHbNode t th.cur).advanced t) := by
  have hclock := h.clock
  rw [h1, if_pos rfl] at hclock
  have hcur := h.cur h1
  constructor
  · intro k
    rw [advanceHbNode_advanced, h.adv, hn, h0, h1]
    simp only [Bool.false_eq_true, false_implies, true_implies, and_true]
    omega
  · rw [hn, h0]
    simp only [Bool.false_eq_true, if_false]
    omega
  · intro ht
    rw [h0] at ht
    cases ht

end

lemma skipNop_eq (h : s.skipNop t = some s') :
    ∃ rest, (s.threads t).ptr = skipHbNodeFlag :: rest ∧
      s' = (s.advanceHbNode t (s.threads t).next).setThread t
        { s.threads t with ptr := rest, next := (s.threads t).next + 1 } := by
  unfold skipNop at h
  dsimp only at h
  split at h
  · rename_i w rest hptr
    split at h
    · rename_i hw
      exact ⟨rest, hw ▸ hptr, (Option.some.inj h).symm⟩
    · cases h
  · cases h

lemma replayInv_skipNop (hi : ReplayInv R s)
    (hpc : (s.threads t).pc = .initSkips ∨ (s.threads t).pc = .edges 0)
    (h : s.skipNop t = some s') : ReplayInv R s' := by
  obtain ⟨rest, hptr, rfl⟩ := skipNop_eq h
  refine hi.advanceHbNode rfl ((hi.counted t).skip rfl rfl rfl) ?_
  obtain ⟨left, rest', heq, hat, hpos⟩ := hi.placed t
  have hnil : left = [] := by
    rcases hpc with hpc | hpc
    · rw [hpc] at hpos
      exact hpos
    · rw [hpc] at hpos
      exact eq_nil_of_length_eq_zero hpos.1
  subst hnil
  rw [hptr, flatMap_nil, nil_append] at heq
  subst heq
  refine ⟨[], rest, rfl, hat.skip, ?_⟩
  rcases hpc with hpc | hpc
  · simp [hpc]
  · rw [hpc] at hpos ⊢
    exact hpos

lemma waitForHbNode_cases (h : s.waitForHbNode R t ctx inp = some s') :
    s' = s ∨ ∃ raw rest numincoming rest', (s.threads t).ptr = raw :: rest ∧
      raw ≠ endFragmentSentinal ∧ raw ≠ 0 ∧ wordMatches R.callctxTable raw ctx inp = true ∧
      (if inp then rest.tail else rest) = numincoming :: rest' ∧
      s' = s.setThread t { s.threads t with
        ptr := rest', pc := .edges numincoming, cur := (s.threads t).next,
        next := (s.threads t).next + 1 } := by
  unfold waitForHbNode at h
  dsimp only at h
  split at h
  · cases h
  rename_i raw rest hptr
  split at h
  · cases h
  rename_i hend
  split at h
  · exact .inl (Option.some.inj h).symm
  rename_i h0
  split at h
  · rename_i hm
    split at h
    · rename_i num rest' hrest
      exact .inr ⟨raw, rest, num, rest', hptr, hend, h0, hm, hrest, (Option.some.inj h).symm⟩
    · cases h
  · exact .inl (Option.some.inj h).symm

lemma Placed.enter (h : Placed R t (s.threads t))
    (hpc : (s.threads t).pc = .run) (hptr : (s.threads t).ptr = raw :: rest)
    (hend : raw ≠ endFragmentSentinal) (h0 : raw ≠ 0)
    (hm : wordMatches R.callctxTable raw ctx inp = true)
    (hrest : (if inp then rest.tail else rest) = num :: rest') :
    ∃ node preds rest'', (R.graph.allOf t)[(s.threads t).next - 1]? = some node ∧
      crossPreds R.graph node = some preds ∧ num = preds.length ∧
      rest' = (preds.flatMap fun p : HBNode => [p.tuid, p.threadOrder]) ++ rest'' ∧
      At R t (s.threads t).fragment ((s.threads t).next + 1) rest'' := by
  obtain ⟨left, rest₁, heq, hat, hpos⟩ := h
  rw [hpc] at hpos
  obtain ⟨rfl, hns⟩ := hpos
  rw [hptr, flatMap_nil, nil_append] at heq
  subst heq
  have hskip : raw ≠ skipHbNodeFlag := by simpa [atNonSkip, hptr] using hns
  have hin : inp = wordHasInput raw := by
    simp only [wordMatches, Bool.and_eq_true, beq_iff_eq] at hm
    exact hm.2
  obtain ⟨node, preds, rest'', hnode, hpreds, heq, hat'⟩ := hat.take h0 hend hskip
  rw [← hin, hrest, cons_append, List.cons.injEq] at heq
  exact ⟨node, preds, rest'', hnode, hpreds, heq.1, heq.2, hat'⟩

lemma replayInv_enter (hi : ReplayInv R s) (hpc : (s.threads t).pc = .run)
    (h : s.waitForHbNode R t ctx inp = some s') : ReplayInv R s' := by
  rcases waitForHbNode_cases h with rfl | ⟨raw, rest, num, rest', hptr, hend, h0, hm, hrest, rfl⟩
  · exact hi
  refine hi.setThread rfl ((hi.counted t).enter rfl rfl (by simp [taken, hpc]) rfl) ?_
  obtain ⟨node, preds, rest'', hnode, hpreds, rfl, rfl, hat⟩ :=
    (hi.placed t).enter hpc hptr hend h0 hm hrest
  exact ⟨preds, rest'', rfl, hat, rfl, node, [], hnode, hpreds⟩

lemma waitForEdge_eq (h : s.waitForEdge t left = some s') :
    ∃ tid timestamp rest, (s.threads t).ptr = tid :: timestamp :: rest ∧
      timestamp ≤ s.clock tid ∧
      s' = s.setThread t { s.threads t with ptr := rest, pc := .edges left } := by
  unfold waitForEdge at h
  dsimp only at h
  split at h
  · rename_i tid timestamp rest hptr
    split at h
    · rename_i hle
      exact ⟨tid, timestamp, rest, hptr, hle, (Option.some.inj h).symm⟩
    · cases h
  · cases h

lemma Placed.edge {tid timestamp : Nat} (h : Placed R t (s.threads t))
    (hpc : (s.threads t).pc = .edges (left + 1))
    (hptr : (s.threads t).ptr = tid :: timestamp :: rest) :
    ∃ q todo rest' node waited, tid = q.tuid ∧ timestamp = q.threadOrder ∧
      rest = (todo.flatMap fun p : HBNode => [p.tuid, p.threadOrder]) ++ rest' ∧
      At R t (s.threads t).fragment (s.threads t).next rest' ∧ todo.length = left ∧
      (R.graph.allOf t)[(s.threads t).cur - 1]? = some node ∧
      crossPreds R.graph node = some (waited ++ q :: todo) := by
  obtain ⟨todo, rest', heq, hat, hpos⟩ := h
  rw [hpc] at hpos
  obtain ⟨hlen, node, waited, hnode, hpreds⟩ := hpos
  cases todo with
  | nil => cases hlen
  | cons q todo =>
    rw [hptr, flatMap_cons] at heq
    simp only [cons_append, nil_append, List.cons.injEq] at heq
    exact ⟨q, todo, rest', node, waited, heq.1, heq.2.1, heq.2.2, hat, by simpa using hlen, hnode,
      hpreds⟩

section
variable (hi : ReplayInv R s)
include hi

lemma replayInv_edge (hpc : (s.threads t).pc = .edges (left + 1))
    (h : s.waitForEdge t left = some s') : ReplayInv R s' := by
  obtain ⟨tid, timestamp, rest, hptr, -, rfl⟩ := waitForEdge_eq h
  refine hi.setThread rfl ((hi.counted t).move rfl rfl (by simp [taken, hpc])) ?_
  obtain ⟨q, todo, rest', node, waited, -, -, rfl, hat, hlen, hnode, hpreds⟩ :=
    (hi.placed t).edge hpc hptr
  exact ⟨todo, rest', rfl, hat, hlen, node, waited ++ [q], hnode, by simpa using hpreds⟩

lemma replayInv_initDone (hpc : (s.threads t).pc = .initSkips)
    (hns : atNonSkip (s.threads t) = true) :
    ReplayInv R (s.setThread t { s.threads t with pc := .run }) := by
  refine hi.setThread rfl ((hi.counted t).move rfl rfl (by simp [taken, hpc])) ?_
  obtain ⟨left, rest, heq, hat, hpos⟩ := hi.placed t
  rw [hpc] at hpos
  exact ⟨left, rest, heq, hat, hpos, hns⟩

lemma replayInv_ret (hpc : (s.threads t).pc = .edges 0) (hns : atNonSkip (s.threads t) = true) :
    ReplayInv R (s.setThread t { s.threads t with pc := .held }) := by
  refine hi.setThread rfl ((hi.counted t).move rfl rfl (by simp [taken, hpc])) ?_
  obtain ⟨left, rest, heq, hat, hpos⟩ := hi.placed t
  rw [hpc] at hpos
  exact ⟨left, rest, heq, hat, eq_nil_of_length_eq_zero hpos.1, hns⟩

lemma replayInv_advance (hpc : (s.threads t).pc = .held) :
    ReplayInv R
      ((s.advanceHbNode t (s.threads t).cur).setThread t { s.threads t with pc := .run }) := by
  refine hi.advanceHbNode rfl ((hi.counted t).advance rfl (by simp [taken, hpc]) rfl) ?_
  obtain ⟨left, rest, heq, hat, hpos⟩ := hi.placed t
  rw [hpc] at hpos
  exact ⟨left, rest, heq, hat, hpos⟩

end

lemma advanceToNextFragment_eq (h : s.advanceToNextFragment R t = some s') :
    ∃ frag cfi, R.frags[(s.threads t).fragment]? = some frag ∧
      (s.threads t).fragment + 1 < R.frags.length ∧
      s' = { s with currFragmentId := cfi }.setThread t { s.threads t with
        fragment := (s.threads t).fragment + 1
        ptr := R.words ((s.threads t).fragment + 1) t
        pc := .initSkips } ∧
      ((frag.nextThreadLeader = t ∧ s.currFragmentId = (s.threads t).fragment ∧
          cfi = (s.threads t).fragment + 1) ∨
        (frag.nextThreadLeader ≠ t ∧ (s.threads t).fragment + 1 ≤ s.currFragmentId ∧
          cfi = s.currFragmentId)) := by
  unfold advanceToNextFragment at h
  dsimp only at h
  split at h
  · cases h
  rename_i frag hfrag
  split at h
  · rename_i hlt
    split at h
    · rename_i hl
      split at h
      · rename_i hc
        exact ⟨frag, _, hfrag, hlt, (Option.some.inj h).symm, .inl ⟨hl, hc, rfl⟩⟩
      · cases h
    rename_i hl
    split at h
    · rename_i hc
      exact ⟨frag, _, hfrag, hlt, (Option.some.inj h).symm, .inr ⟨hl, hc, rfl⟩⟩
    · cases h
  · cases h

lemma Led.nextFragment (hl : Led R s) (h : s.advanceToNextFragment R t = some s') : Led R s' := by
  obtain ⟨frag, cfi, hfrag, -, rfl, hcase⟩ := advanceToNextFragment_eq h
  constructor
  · intro u
    have hu := hl.le u
    by_cases hut : u = t
    · rw [hut, setThread_self]
      show (s.threads t).fragment + 1 ≤ cfi
      omega
    rw [setThread_of_ne hut]
    show (s.threads u).fragment ≤ cfi
    omega
  · intro i frag' hlt hfrag'
    have hlt' : i < cfi := hlt
    by_cases hut : frag'.nextThreadLeader = t
    · rw [hut, setThread_self]
      show i < (s.threads t).fragment + 1
      by_cases hi : i < s.currFragmentId
      · have := hl.leader i frag' hi hfrag'
        rw [hut] at this
        omega
      · omega
    rw [setThread_of_ne hut]
    refine hl.leader i frag' ?_ hfrag'
    rcases hcase with ⟨hlead, hc, hc'⟩ | ⟨-, -, hc'⟩
    · -- the fragment just published is led by `t`
      by_contra hge
      have hi : i = (s.threads t).fragment := by omega
      rw [hi, hfrag, Option.some.injEq] at hfrag'
      exact hut (hfrag' ▸ hlead)
    · exact hc' ▸ hlt'

lemma replayInv_nextFragment (hi : ReplayInv R s) (hpc : (s.threads t).pc = .run)
    (hend : (s.threads t).ptr.head? = some endFragmentSentinal)
    (h : s.advanceToNextFragment R t = some s') : ReplayInv R s' := by
  have hled := hi.led.nextFragment h
  obtain ⟨frag, cfi, -, hlt, rfl, -⟩ := advanceToNextFragment_eq h
  refine hi.of_step (fun u hut => setThread_of_ne hut) (fun _ _ => rfl) (fun _ _ => rfl) hled ?_ ?_
  · rw [setThread_self]
    exact (hi.counted t).move rfl rfl (by simp [taken, hpc])
  rw [setThread_self]
  obtain ⟨rest, hptr⟩ := List.head?_eq_some_iff.1 hend
  obtain ⟨left, rest', heq, hat, hpos⟩ := hi.placed t
  rw [hpc] at hpos
  obtain ⟨rfl, -⟩ := hpos
  rw [hptr, flatMap_nil, nil_append] at heq
  subst heq
  exact ⟨[], _, rfl, hat.nextFragment hlt, rfl⟩

lemma replayInv_step (hi : ReplayInv R s) (h : step R s l = some s') : ReplayInv R s' := by
  cases l with
  | initSkip t =>
    obtain ⟨hpc, h⟩ := ite_none_right_eq_some.1 h
    exact replayInv_skipNop hi (.inl hpc) h
  | initDone t =>
    obtain ⟨⟨hpc, hns⟩, h⟩ := ite_none_right_eq_some.1 h
    cases h
    exact replayInv_initDone hi hpc hns
  | nextFragment t =>
    obtain ⟨⟨hpc, hend⟩, h⟩ := ite_none_right_eq_some.1 h
    exact replayInv_nextFragment hi hpc hend h
  | enter t ctx inp =>
    obtain ⟨hpc, h⟩ := ite_none_right_eq_some.1 h
    exact replayInv_enter hi hpc h
  | edge t =>
    unfold step at h
    dsimp only at h
    split at h
    · rename_i left hpc
      exact replayInv_edge hi hpc h
    · cases h
  | skip t =>
    obtain ⟨hpc, h⟩ := ite_none_right_eq_some.1 h
    exact replayInv_skipNop hi (.inr hpc) h
  | ret t =>
    obtain ⟨⟨hpc, hns⟩, h⟩ := ite_none_right_eq_some.1 h
    cases h
    exact replayInv_ret hi hpc hns
  | advance t =>
    obtain ⟨hpc, h⟩ := ite_none_right_eq_some.1 h
    cases h
    exact replayInv_advance hi hpc

/-! ## Nobody runs ahead of a node that is waited for -/

def edgesLeft (th : RtThread) : Nat :=
  match th.pc with
  | .edges k => k
  | .initSkips | .run | .held => 0

/-- A node is taken: the predecessors that were waited for are advanced, and the clock may
have passed the node's own position only when nobody waits for that. -/
structure Guarded (R : DumpedRegion) (t : Nat) (th : RtThread) (advanced : Nat → Nat → Bool) :
    Prop where
  skipped : taken th = true → th.cur + 1 < th.next → NoCrossSuccessor R.graph t th.cur
  waited : taken th = true → ∃ node waited left, (R.graph.allOf t)[th.cur - 1]? = some node ∧
    crossPreds R.graph node = some (waited ++ left) ∧ left.length = edgesLeft th ∧
    ∀ q, q ∈ waited → advanced q.tuid q.threadOrder = true

structure Inv (R : DumpedRegion) (s : RtState) : Prop extends ReplayInv R s where
  guarded : ∀ t, Guarded R t (s.threads t) s.advanced

section
variable {th' : RtThread} {advanced : Nat → Nat → Bool}

lemma Guarded.idle (h : taken th = false) : Guarded R t th advanced :=
  ⟨by simp [h], by simp [h]⟩

lemma Guarded.move (h : Guarded R t th advanced) (hcur : th'.cur = th.cur)
    (htk : taken th' = taken th) (hleft : edgesLeft th' = edgesLeft th)
    (hskip : th'.next = th.next ∨ NoCrossSuccessor R.graph t th.cur)
    (hmono : ∀ u k, advanced u k = true → advanced' u k = true) : Guarded R t th' advanced' := by
  constructor
  · rw [hcur, htk]
    intro ht hlt
    rcases hskip with hn | hno
    · exact h.skipped ht (hn ▸ hlt)
    · exact hno
  · rw [hcur, htk, hleft]
    intro ht
    obtain ⟨node, waited, left, hnode, hpreds, hlen, hw⟩ := h.waited ht
    exact ⟨node, waited, left, hnode, hpreds, hlen, fun q hq => hmono _ _ (hw q hq)⟩

end

lemma Inv.of_step (hi : Inv R s) (hr : ReplayInv R s')
    (hth : ∀ u, u ≠ t → s'.threads u = s.threads u)
    (hmono : ∀ u k, s.advanced u k = true → s'.advanced u k = true)
    (h : Guarded R t (s'.threads t) s'.advanced) : Inv R s' := by
  refine ⟨hr, fun u => ?_⟩
  by_cases hut : u = t
  · exact hut ▸ h
  · rw [hth u hut]
    exact (hi.guarded u).move rfl rfl rfl (.inl rfl) hmono

lemma Inv.setThread (hi : Inv R s) (hr : ReplayInv R (s.setThread t th))
    (h : Guarded R t th s.advanced) : Inv R (s.setThread t th) :=
  hi.of_step hr (fun _ hut => setThread_of_ne hut) (fun _ _ h => h) (by rwa [setThread_self])

lemma advanceHbNode_mono (s : RtState) (t k : Nat) (h : s.advanced u j = true) :
    (s.advanceHbNode t k).advanced u j = true := by
  simp only [advanceHbNode]
  by_cases hut : u = t
  · subst hut
    rw [update_self]
    by_cases hjk : j = k
    · rw [hjk, update_self]
    · rwa [update_of_ne hjk]
  · rwa [update_of_ne hut]

lemma Inv.advance (hi : Inv R s) (hr : ReplayInv R ((s.advanceHbNode t k).setThread t th))
    (h : Guarded R t th (s.advanceHbNode t k).advanced) :
    Inv R ((s.advanceHbNode t k).setThread t th) :=
  hi.of_step hr (fun _ hut => setThread_of_ne hut) (fun _ _ h => advanceHbNode_mono s t k h)
    (by rwa [setThread_self])

lemma inv_initial (R : DumpedRegion) : Inv R (initial R) :=
  ⟨replayInv_initial R, fun _ => .idle rfl⟩

lemma mem_allOf {node : HBNode} (h : (g.allOf t)[i]? = some node) :
    node ∈ g.nodes ∧ node.tuid = t := by
  have hmem := mem_of_getElem? h
  unfold HBGraph.allOf at hmem
  rw [mem_filter] at hmem
  exact ⟨hmem.1, by simpa using hmem.2⟩

lemma threadOrder_pos (R : DumpedRegion) (h : R.graph.getNode? p = some q) :
    0 < q.threadOrder := by
  have hmem : q ∈ R.graph.allOf q.tuid := by
    unfold HBGraph.getNode? at h
    split at h
    · cases h
    · exact mem_filter.2 ⟨mem_of_getElem? h, by simp⟩
  obtain ⟨i, hi⟩ := mem_iff_getElem?.1 hmem
  rw [R.orders.order q.tuid i q hi]
  omega

lemma advanced_of_clock (hi : Inv R s) (hk : 0 < k) (hclk : k ≤ s.clock u)
    (hsucc : ¬ NoCrossSuccessor R.graph u k) : s.advanced u k = true := by
  have hclock := (hi.counted u).clock
  refine ((hi.counted u).adv k).2 ⟨hk, by omega, fun htk hcur => ?_⟩
  rw [htk, if_pos rfl] at hclock
  rw [hcur] at hsucc hclk
  exact hsucc ((hi.guarded u).skipped htk (by omega))

lemma Inv.enter (hi : Inv R s) (hr : ReplayInv R s') (hpc : (s.threads t).pc = .run)
    (h : s.waitForHbNode R t ctx inp = some s') : Inv R s' := by
  rcases waitForHbNode_cases h with rfl | ⟨raw, rest, num, rest', hptr, hend, h0, hm, hrest, rfl⟩
  · exact hi
  obtain ⟨node, preds, rest'', hnode, hpreds, rfl, -, -⟩ :=
    (hi.placed t).enter hpc hptr hend h0 hm hrest
  refine hi.setThread hr ⟨fun _ hlt => absurd hlt (lt_irrefl _), fun _ => ?_⟩
  exact ⟨node, [], preds, hnode, hpreds, rfl, by simp⟩

lemma Inv.edge (hi : Inv R s) (hr : ReplayInv R s') (hpc : (s.threads t).pc = .edges (left + 1))
    (h : s.waitForEdge t left = some s') : Inv R s' := by
  obtain ⟨tid, timestamp, rest, hptr, hclk, rfl⟩ := waitForEdge_eq h
  have htk : taken (s.threads t) = true := by simp [taken, hpc]
  obtain ⟨q, todo, rest', node, waited, rfl, rfl, -, -, hlen, hnode, hpreds⟩ :=
    (hi.placed t).edge hpc hptr
  obtain ⟨node', waited', left', hnode', hpreds', hlen', hw⟩ := (hi.guarded t).waited htk
  rw [hnode, Option.some.injEq] at hnode'
  subst hnode'
  rw [hpreds, Option.some.injEq] at hpreds'
  have hsame : waited = waited' := by
    refine (append_inj' hpreds' ?_).1
    rw [hlen', length_cons, hlen]
    simp [edgesLeft, hpc]
  -- the edge that was waited for is recorded in the graph
  obtain ⟨hne, p, hp, hq⟩ := (mem_crossPreds hpreds q).1 (by simp)
  obtain ⟨hnm, hnt⟩ := mem_allOf hnode
  have hadv : s.advanced q.tuid q.threadOrder = true := by
    refine advanced_of_clock hi (threadOrder_pos R hq) hclk fun hno => ?_
    exact hno node hnm (Ne.symm hne) p hp q hq ⟨rfl, rfl⟩
  refine hi.setThread hr ⟨fun _ => (hi.guarded t).skipped htk, fun _ => ?_⟩
  refine ⟨node, waited ++ [q], todo, hnode, by simpa using hpreds, hlen, fun q' hq' => ?_⟩
  rcases mem_append.1 hq' with hq' | hq'
  · exact hw q' (hsame ▸ hq')
  · rw [mem_singleton.1 hq']
    exact hadv

lemma inv_step (hi : Inv R s) (hg : EagerSkipOk R s l) (h : step R s l = some s') : Inv R s' := by
  have hr := replayInv_step hi.toReplayInv h
  cases l with
  | initSkip t =>
    obtain ⟨hpc, h⟩ := ite_none_right_eq_some.1 h
    obtain ⟨rest, -, rfl⟩ := skipNop_eq h
    exact hi.advance hr (.idle (by simp [taken, hpc]))
  | initDone t =>
    obtain ⟨-, h⟩ := ite_none_right_eq_some.1 h
    cases h
    exact hi.setThread hr (.idle rfl)
  | nextFragment t =>
    obtain ⟨-, h⟩ := ite_none_right_eq_some.1 h
    obtain ⟨frag, cfi, -, -, rfl, -⟩ := advanceToNextFragment_eq h
    exact hi.of_step hr (fun _ hut => setThread_of_ne hut) (fun _ _ h => h)
      (.idle (by rw [setThread_self]; rfl))
  | enter t ctx inp =>
    obtain ⟨hpc, h⟩ := ite_none_right_eq_some.1 h
    exact hi.enter hr hpc h
  | edge t =>
    unfold step at h
    dsimp only at h
    split at h
    · rename_i left hpc
      exact hi.edge hr hpc h
    · cases h
  | skip t =>
    obtain ⟨hpc, h⟩ := ite_none_right_eq_some.1 h
    obtain ⟨rest, -, rfl⟩ := skipNop_eq h
    exact hi.advance hr ((hi.guarded t).move rfl rfl rfl (.inr hg)
      fun _ _ h => advanceHbNode_mono s t _ h)
  | ret t =>
    obtain ⟨⟨hpc, -⟩, h⟩ := ite_none_right_eq_some.1 h
    cases h
    exact hi.setThread hr ((hi.guarded t).move rfl (by simp [taken, hpc])
      (by simp [edgesLeft, hpc]) (.inl rfl) fun _ _ h => h)
  | advance t =>
    obtain ⟨-, h⟩ := ite_none_right_eq_some.1 h
    cases h
    exact hi.advance hr (.idle rfl)

lemma Inv.enforced (hi : Inv R s) : Enforced R s := by
  intro t hpc node hnode p hp q hq hne
  obtain ⟨node', waited, left, hnode', hpreds, hlen, hw⟩ :=
    (hi.guarded t).waited (by simp [taken, hpc])
  rw [hnode] at hnode'
  cases hnode'
  have hnil : left = [] := eq_nil_of_length_eq_zero (by simpa [edgesLeft, hpc] using hlen)
  subst hnil
  rw [append_nil] at hpreds
  refine hw q ((mem_crossPreds hpreds q).2 ⟨?_, p, hp, hq⟩)
  rw [(mem_allOf hnode).2]
  exact hne

/-- In every interleaving in which no skip word is stepped over right after a node with
cross-thread successors, `WaitForHbNode` returns for a node only when the owner of each
cross-thread predecessor has advanced for it. -/
theorem enforced_of_meets (R : DumpedRegion) (s : RtState)
    (h : Machine.ReachesBy (step R) (EagerSkipOk R) (initial R) s) : Enforced R s := by
  obtain ⟨ls, hrun, hmeets⟩ := h
  exact (Machine.inv_of_meets (step R) (fun _ _ _ hi hg h => inv_step hi hg h) (inv_initial R)
    hmeets hrun).enforced

/-! ## A relay between two threads -/

def plainTables : Tables := ⟨fun c => c + 1, fun _ => Nat.succ_pos _, fun _ => false⟩

def relayGraph : HBGraph :=
  let g := HBGraph.empty
  let g := (g.addNode 1 ⟨1, false⟩ none 0).2
  let g := (g.addNode 1 ⟨2, false⟩ (some 7) 1).2
  let g := (g.addNode 2 ⟨3, false⟩ none 0).2
  g.addEdge 1 3

def relayRegion : DumpedRegion :=
  .whole relayGraph plainTables id
    (HBGraph.ordersOk_empty.addNode.addNode.addNode.addEdge) (by decide)

def lateInputGraph : HBGraph :=
  let g := HBGraph.empty
  let g := (g.addNode 1 ⟨1, false⟩ none 0).2
  let g := (g.addNode 2 ⟨3, false⟩ none 0).2
  let g := g.addEdge 1 2
  (g.addNode 2 ⟨2, false⟩ (some 7) 2).2

def lateInputRegion : DumpedRegion :=
  .whole lateInputGraph plainTables id
    (HBGraph.ordersOk_empty.addNode.addNode.addEdge.addNode) (by decide)

/-- Thread 2 waits for the advance of thread 1, and steps over its own skip word. -/
theorem enforced_of_meets_relay :
    ∃ s, Machine.ReachesBy (step lateInputRegion) (EagerSkipOk lateInputRegion)
        (initial lateInputRegion) s ∧
      (s.threads 2).pc = .held ∧ s.advanced 1 1 = true ∧ s.advanced 2 2 = true ∧
      Enforced lateInputRegion s := by
  have hreach : ∃ s, Machine.ReachesBy (step lateInputRegion) (EagerSkipOk lateInputRegion)
        (initial lateInputRegion) s ∧
      (s.threads 2).pc = .held ∧ s.advanced 1 1 = true ∧ s.advanced 2 2 = true :=
    ⟨_, ⟨[.initDone 1, .initDone 2, .enter 1 2 false, .ret 1, .advance 1, .enter 2 4 false,
      .edge 2, .skip 2, .ret 2], rfl, by decide⟩, rfl, rfl, rfl⟩
  obtain ⟨s, hr, hpc, h1, h2⟩ := hreach
  exact ⟨s, hr, hpc, h1, h2, enforced_of_meets lateInputRegion s hr⟩

/-- Thread 1 has taken its node and stepped over the skip word behind it: thread 2 gets
through before thread 1 advances for its node. -/
theorem not_enforced :
    ∃ s, Machine.Reaches (step relayRegion) (initial relayRegion) s ∧
      (s.threads 1).pc = .held ∧ (s.threads 2).pc = .held ∧ s.advanced 1 1 = false ∧
      ¬ Enforced relayRegion s := by
  refine ⟨_, ⟨[.initDone 1, .initDone 2, .enter 1 2 false, .skip 1, .ret 1, .enter 2 4 false,
    .edge 2, .ret 2], rfl⟩, rfl, rfl, rfl, fun hen => ?_⟩
  have h := hen 2 rfl _ rfl 1 mem_cons_self _ rfl (by decide)
  exact absurd h (by decide)

end RtState

end InputCovSched
