import InputCovSched.Runtime.Clock

/-!
# Reading a dumped schedule back

`SkipNopScheduleNodes` steps over skip words, `IsFragmentComplete` and `IsScheduleComplete` test for
the two end markers, and `WaitForHbNode` reads everything else as a node. `readSchedule` follows
these rules to the end of the words, and finds the nodes that were dumped
(`readSchedule_dumpThreadSchedule`).

The dump asserts that a context id is at most `maxCtxId`, so that neither the id nor the id
with its flag bit is one of the markers.
-/

namespace InputCovSched

open List

/-- What the reader learns of a node. -/
structure NodeWords where
  ctxId : Nat
  inputId : Option Nat
  preds : List (Nat × Nat)
  deriving DecidableEq, Repr

/-- An input that is not kept is only counted. -/
inductive ScheduleEntry where
  | skip
  | node (words : NodeWords)
  deriving DecidableEq, Repr

inductive ScheduleEnd where
  | fragment
  | schedule
  deriving DecidableEq, Repr

/-! ## The reader -/

def readEdges : Nat → List Nat → Option (List (Nat × Nat) × List Nat)
  | 0, ws => some ([], ws)
  | k + 1, tid :: timestamp :: ws =>
    match readEdges k ws with
    | none => none
    | some (edges, ws) => some ((tid, timestamp) :: edges, ws)
  | _ + 1, _ => none

/-- `WaitForHbNode` behind the first word of a node; the caller expects an input exactly when
the flag bit is set. -/
def readNode (raw : Nat) (ws : List Nat) : Option (NodeWords × List Nat) :=
  let (inputId, ws) := if wordHasInput raw then (ws.head?, ws.tail) else (none, ws)
  match ws with
  | [] => none
  | numincoming :: ws =>
    match readEdges numincoming ws with
    | none => none
    | some (preds, ws) => some (⟨wordCtx raw, inputId, preds⟩, ws)

variable {ws ws' : List Nat} {raw : Nat} {n : NodeWords} {nodes : List HBNode}
  {edges : List (Nat × Nat)}

lemma readEdges_length (h : readEdges k ws = some (edges, ws')) : ws'.length ≤ ws.length := by
  fun_induction readEdges k ws generalizing edges with
  | case1 ws =>
    cases h
    exact le_refl _
  | case2 k tid timestamp ws hrec ih => cases h
  | case3 k tid timestamp ws edges' ws'' hrec ih =>
    cases h
    have := ih hrec
    simp only [length_cons]
    omega
  | case4 => cases h

lemma readNode_length (h : readNode raw ws = some (n, ws')) : ws'.length < ws.length + 1 := by
  unfold readNode at h
  dsimp only at h
  split at h
  · cases h
  rename_i numincoming rest hws
  split at h
  · cases h
  rename_i preds ws'' hedges
  cases h
  have hle := readEdges_length hedges
  have hlen : rest.length + 1 ≤ ws.length := by
    rw [← length_cons, ← hws]
    split
    · rw [length_tail]
      omega
    · exact le_refl _
  omega

/-- A thread's way over its words; `none` when it would read behind them. -/
def readSchedule : List Nat → Option (List ScheduleEntry × ScheduleEnd)
  | [] => none
  | raw :: ws =>
    if raw = skipHbNodeFlag then
      match readSchedule ws with
      | none => none
      | some (entries, e) => some (.skip :: entries, e)
    else if raw = endFragmentSentinal then some ([], .fragment)
    else if raw = 0 then some ([], .schedule)
    else
      match h : readNode raw ws with
      | none => none
      | some (n, ws') =>
        have : ws'.length < ws.length + 1 := readNode_length h
        match readSchedule ws' with
        | none => none
        | some (entries, e) => some (.node n :: entries, e)
termination_by ws => ws.length

/-! ## What should be read -/

def HBGraph.crossEdges (g : HBGraph) (node : HBNode) : List (Nat × Nat) :=
  ((node.incoming.filterMap g.getNode?).filter fun p => p.tuid != node.tuid).map
    fun p => (p.tuid, p.threadOrder)

def scheduleEntry (tab : Tables) (frag : ScheduleFragment) (node : HBNode) : ScheduleEntry :=
  let words inputId := NodeWords.mk (tab.ctxShortId node.callctx) inputId
    (frag.hbGraph.crossEdges node)
  match node.inputObj with
  | none => .node (words none)
  | some obj =>
    if tab.usedArrays obj && !frag.isLast then .node (words (frag.inputIds obj)) else .skip

def ScheduleFragment.scheduleEnd (frag : ScheduleFragment) : ScheduleEnd :=
  if frag.isLast then .schedule else .fragment

/-! ## The round trip -/

variable {node : HBNode} {g : HBGraph} {c : Nat}

lemma mapM_getNode_eq {ids : List Nat}
    (h : ids.mapM g.getNode? = some preds) : ids.filterMap g.getNode? = preds := by
  induction ids generalizing preds with
  | nil =>
    cases h
    rfl
  | cons p ids ih =>
    simp only [mapM_cons, Option.bind_eq_bind, Option.bind_eq_some_iff] at h
    obtain ⟨n, hn, ns, hns, heq⟩ := h
    cases heq
    rw [filterMap_cons_some hn, ih hns]

lemma crossPreds_edges (h : crossPreds g node = some preds) :
    (preds.map fun p => (p.tuid, p.threadOrder)) = g.crossEdges node := by
  unfold crossPreds at h
  split at h
  · cases h
  rename_i all hall
  split at h
  · cases h
    rw [HBGraph.crossEdges, mapM_getNode_eq hall]
  · cases h

lemma wordCtx_ctx (hc : c ≤ maxCtxId) : wordCtx c = c := by
  have hlt : c < 2 ^ 15 := lt_of_le_of_lt hc (by decide)
  exact (Nat.and_two_pow_sub_one_eq_mod c 15).trans (Nat.mod_eq_of_lt hlt)

lemma wordCtx_flag (hc : c ≤ maxCtxId) : wordCtx (c ||| inputBufferFlagBit) = c := by
  unfold wordCtx inputBufferFlagBit
  rw [Nat.and_or_distrib_right, show 2 ^ 15 &&& 0x7fff = 0 from by decide, Nat.or_zero]
  exact wordCtx_ctx hc

lemma readEdges_flatMap (preds : List HBNode) (rest : List Nat) :
    readEdges preds.length ((preds.flatMap fun p => [p.tuid, p.threadOrder]) ++ rest) =
      some (preds.map fun p => (p.tuid, p.threadOrder), rest) := by
  induction preds with
  | nil => rfl
  | cons p preds ih =>
    simp only [flatMap_cons, cons_append, nil_append, length_cons, readEdges, ih, map_cons]

lemma readNode_syncWords (inputId : Nat) (preds : List HBNode) (rest : List Nat)
    (hc : tab.ctxShortId node.callctx ≤ maxCtxId) :
    ∃ raw ws, syncWords tab node inputId preds ++ rest = raw :: ws ∧
      raw ≠ 0 ∧ raw ≠ endFragmentSentinal ∧ raw ≠ skipHbNodeFlag ∧
      readNode raw ws = some (⟨tab.ctxShortId node.callctx,
        if inputId = 0 then none else some inputId,
        preds.map fun p => (p.tuid, p.threadOrder)⟩, rest) := by
  obtain ⟨raw, more, hsw, h0, hend, hskip, hin, hmore⟩ := syncWords_head inputId preds hc
  refine ⟨raw, more ++ rest, by rw [hsw]; rfl, h0, hend, hskip, ?_⟩
  unfold syncWords at hsw
  by_cases hi : inputId = 0
  · have hraw : raw = tab.ctxShortId node.callctx := by
      simp only [hi, ne_eq, not_true_eq_false, if_false, cons_append, nil_append,
        List.cons.injEq] at hsw
      exact hsw.1.symm
    simp only [readNode, hin, hmore, hi, ne_eq, not_true_eq_false, decide_false,
      Bool.false_eq_true, if_false, if_true, nil_append, cons_append, readEdges_flatMap]
    rw [hraw, wordCtx_ctx hc]
  have hraw : raw = tab.ctxShortId node.callctx ||| inputBufferFlagBit := by
    simp only [hi, ne_eq, not_false_eq_true, if_true, cons_append, nil_append,
      List.cons.injEq] at hsw
    exact hsw.1.symm
  simp only [readNode, hin, hmore, hi, ne_eq, not_false_eq_true, decide_true, if_true, if_false,
    cons_append, nil_append, List.head?_cons, tail_cons, readEdges_flatMap]
  rw [hraw, wordCtx_flag hc]

lemma dumpNode_entry (hids : ∀ obj id, frag.inputIds obj = some id → 0 < id)
    (h : dumpNode tab frag node = some w) :
    (w = [skipHbNodeFlag] ∧ scheduleEntry tab frag node = .skip) ∨
    ∃ inputId preds, tab.ctxShortId node.callctx ≤ maxCtxId ∧
      w = syncWords tab node inputId preds ∧
      scheduleEntry tab frag node = .node ⟨tab.ctxShortId node.callctx,
        if inputId = 0 then none else some inputId,
        preds.map fun p => (p.tuid, p.threadOrder)⟩ := by
  unfold scheduleEntry
  revert h
  unfold dumpNode
  cases node.inputObj with
  | none =>
    intro h
    obtain ⟨hc, preds, hp, hw⟩ := dumpSync_eq h
    refine .inr ⟨0, preds, hc, hw, ?_⟩
    simp only [if_true, crossPreds_edges hp]
  | some obj =>
    intro h
    dsimp only at h ⊢
    split at h
    · rename_i hkept
      split at h
      · cases h
      rename_i inputId hid
      obtain ⟨hc, preds, hp, hw⟩ := dumpSync_eq h
      have hne : inputId ≠ 0 := by
        have := hids obj inputId hid
        omega
      refine .inr ⟨inputId, preds, hc, hw, ?_⟩
      rw [if_pos hkept, hid, if_neg hne, crossPreds_edges hp]
    · rename_i hkept
      refine .inl ⟨?_, if_neg hkept⟩
      unfold dumpSkip at h
      split at h
      · exact (Option.some.inj h).symm
      · cases h

lemma readSchedule_skip (h : readSchedule ws = some (entries, e)) :
    readSchedule (skipHbNodeFlag :: ws) = some (.skip :: entries, e) := by
  rw [readSchedule]
  simp only [if_true, h]

lemma readSchedule_node (h0 : raw ≠ 0)
    (hend : raw ≠ endFragmentSentinal) (hskip : raw ≠ skipHbNodeFlag)
    (hn : readNode raw ws = some (n, ws')) (h : readSchedule ws' = some (entries, e)) :
    readSchedule (raw :: ws) = some (.node n :: entries, e) := by
  rw [readSchedule, if_neg hskip, if_neg hend, if_neg h0]
  split
  · rename_i heq
    rw [hn] at heq
    cases heq
  rename_i m ws'' heq
  rw [hn] at heq
  cases heq
  simp only [h]

lemma readSchedule_terminator (frag : ScheduleFragment) :
    readSchedule [frag.terminator] = some ([], frag.scheduleEnd) := by
  unfold ScheduleFragment.terminator ScheduleFragment.scheduleEnd
  rw [readSchedule]
  split
  · rfl
  · rfl

lemma readSchedule_dumpNodes (hids : ∀ obj id, frag.inputIds obj = some id → 0 < id)
    (h : dumpNodes tab frag nodes = some ws) :
    readSchedule (ws ++ [frag.terminator]) =
      some (nodes.map (scheduleEntry tab frag), frag.scheduleEnd) := by
  induction nodes generalizing ws with
  | nil =>
    cases h
    exact readSchedule_terminator frag
  | cons node nodes ih =>
    obtain ⟨w, ws', hw, hws', rfl⟩ := dumpNodes_cons h
    rw [append_assoc, map_cons]
    rcases dumpNode_entry hids hw with ⟨rfl, hentry⟩ | ⟨inputId, preds, hc, rfl, hentry⟩
    · rw [hentry]
      exact readSchedule_skip (ih hws')
    obtain ⟨raw, rest, heq, h0, hend, hskip, hread⟩ :=
      readNode_syncWords inputId preds (ws' ++ [frag.terminator]) hc
    rw [heq, hentry]
    exact readSchedule_node h0 hend hskip hread (ih hws')

lemma dumpNode_lt (h : dumpNode tab frag node = some w) : ∀ x ∈ w, x < 2 ^ 16 := by
  have hsync : ∀ inputId, dumpSync tab frag.hbGraph node inputId = some w → ∀ x ∈ w, x < 2 ^ 16 := by
    intro inputId h x hx
    unfold dumpSync at h
    split at h
    · cases h
    split at h
    · cases h
    unfold getConstantInt16s at h
    split at h
    · rename_i hall
      cases h
      have := of_decide_eq_true (all_eq_true.1 hall x hx)
      omega
    · cases h
  unfold dumpNode at h
  split at h
  · exact hsync 0 h
  split at h
  · split at h
    · cases h
    · exact hsync _ h
  unfold dumpSkip at h
  split at h
  · cases h
    intro x hx
    rw [mem_singleton.1 hx]
    decide
  · cases h

lemma dumpNodes_lt (h : dumpNodes tab frag nodes = some ws) : ∀ x ∈ ws, x < 2 ^ 16 := by
  induction nodes generalizing ws with
  | nil =>
    cases h
    simp
  | cons node nodes ih =>
    obtain ⟨w, ws', hw, hws', rfl⟩ := dumpNodes_cons h
    intro x hx
    rcases mem_append.1 hx with hx | hx
    · exact dumpNode_lt hw x hx
    · exact ih hws' x hx

lemma dumpNodes_mem (h : dumpNodes tab frag nodes = some ws) (hnode : node ∈ nodes) :
    ∃ w, dumpNode tab frag node = some w := by
  induction nodes generalizing ws with
  | nil => cases hnode
  | cons m nodes ih =>
    obtain ⟨w, ws', hw, hws', rfl⟩ := dumpNodes_cons h
    rcases mem_cons.1 hnode with rfl | hnode
    · exact ⟨w, hw⟩
    · exact ih hws' hnode

/-- **The round trip.**  The words of a thread are 16-bit words that read back as the
thread's nodes in order, with the end that belongs to the fragment; and the first word of a
node that is not skipped is none of the three markers.  Ids of inputs start at 1. -/
theorem readSchedule_dumpThreadSchedule (tab : Tables) (frag : ScheduleFragment) (tuid : Nat)
    (ws : List Nat) (hids : ∀ obj id, frag.inputIds obj = some id → 0 < id)
    (h : dumpThreadSchedule tab frag tuid = some ws) :
    (∀ x ∈ ws, x < 2 ^ 16) ∧
    readSchedule ws =
      some ((frag.hbGraph.threadNodes tuid frag.firstNodeId frag.lastNodeId).map
        (scheduleEntry tab frag), frag.scheduleEnd) ∧
    ∀ node ∈ frag.hbGraph.threadNodes tuid frag.firstNodeId frag.lastNodeId,
      scheduleEntry tab frag node ≠ .skip →
        ∃ raw rest, dumpNode tab frag node = some (raw :: rest) ∧
          raw ≠ skipHbNodeFlag ∧ raw ≠ endFragmentSentinal ∧ raw ≠ 0 := by
  obtain ⟨ws', hws', rfl⟩ := Option.map_eq_some_iff.1 h
  refine ⟨?_, readSchedule_dumpNodes hids hws', ?_⟩
  · intro x hx
    rcases mem_append.1 hx with hx | hx
    · exact dumpNodes_lt hws' x hx
    rw [mem_singleton.1 hx, ScheduleFragment.terminator]
    split
    · decide
    · decide
  · intro node hnode hkept
    obtain ⟨w, hw⟩ := dumpNodes_mem hws' hnode
    rcases dumpNode_entry hids hw with ⟨-, hskip⟩ | ⟨inputId, preds, hc, rfl, -⟩
    · exact absurd hskip hkept
    obtain ⟨raw, rest, heq, h0, hend, hskip, -⟩ := readNode_syncWords inputId preds [] hc
    rw [append_nil] at heq
    exact ⟨raw, rest, by rw [hw, heq], hskip, hend, h0⟩

def inputAfterNode : ScheduleFragment where
  hbGraph :=
    { HBGraph.empty with
      nodes := [⟨1, 1, 6, none, []⟩, ⟨1, 2, 7, some 5, [1]⟩, ⟨2, 2, 8, none, [2]⟩] }
  firstNodeId := 1
  lastNodeId := 2
  inputIds := fun _ => some 4
  nextThreadLeader := 2
  nextSelectorId := 1
  exitsProgram := false

def allUsed : Tables where
  ctxShortId := fun c => c + 1
  ctxShortId_pos := fun _ => Nat.succ_pos _
  usedArrays := fun _ => true

theorem readSchedule_dumpThreadSchedule_input :
    dumpThreadSchedule allUsed inputAfterNode 2 = some [0x8008, 4, 1, 1, 1, 0xffff] ∧
    readSchedule [0x8008, 4, 1, 1, 1, 0xffff] =
      some ([.node ⟨8, some 4, [(1, 1)]⟩], .fragment) := by
  have hdump : dumpThreadSchedule allUsed inputAfterNode 2 = some [0x8008, 4, 1, 1, 1, 0xffff] :=
    rfl
  refine ⟨hdump, ?_⟩
  exact (readSchedule_dumpThreadSchedule allUsed inputAfterNode 2 _
    (fun _ _ h => Option.some.inj h ▸ Nat.succ_pos 3) hdump).2.1

end InputCovSched
