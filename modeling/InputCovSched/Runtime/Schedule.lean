import InputCovSched.Symbolic.HBGraph
import Mathlib.Data.Nat.Bitwise

/-!
# Dumped schedules (`lib/ICS/Instrumentor.cpp`, `runtime/ConstrainedExec/lib.cpp`)

`dumpThreadSchedule` writes the nodes of one thread in a fragment of the happens-before
graph as a list of 16-bit words; `none` stands for a failed assertion. A node is a word
for its calling context (with a flag and the input's id when it reads an input that is
kept), the number of its cross-thread predecessors, and for each of them its thread and
its position in that thread. An input that is not kept is one skip word.
-/

namespace InputCovSched

open List

def inputBufferFlagBit : Nat := 2 ^ 15

def endFragmentSentinal : Nat := 0xffff

def skipHbNodeFlag : Nat := 0xfffe

/-- `(SkipHbNodeFlag & ~InputBufferFlagBit) - 1`. -/
def maxCtxId : Nat := 0x7ffd

/-- The tables of the instrumentor that a dump reads; unique ids start at 1. -/
structure Tables where
  ctxShortId : Nat → Nat
  ctxShortId_pos : ∀ c, 0 < ctxShortId c
  usedArrays : Nat → Bool

structure ScheduleFragment where
  hbGraph : HBGraph
  firstNodeId : Nat
  lastNodeId : Nat
  inputIds : Nat → Option Nat
  nextThreadLeader : Nat
  nextSelectorId : Nat
  exitsProgram : Bool

/-- The nodes of a thread in a range of ids (`threadOrderBegin` to `threadOrderEnd`). -/
def HBGraph.threadNodes (g : HBGraph) (tuid first last : Nat) : List HBNode :=
  ((g.nodes.take last).drop (first - 1)).filter fun n => n.tuid == tuid

namespace ScheduleFragment

def isLast (frag : ScheduleFragment) : Bool := frag.lastNodeId == frag.hbGraph.getMaxNodeId

def terminator (frag : ScheduleFragment) : Nat :=
  if frag.isLast then 0 else endFragmentSentinal

end ScheduleFragment

def getConstantInt16s (ws : List Nat) : Option (List Nat) :=
  if ws.all fun w => decide (w ≤ 0xffff) then some ws else none

/-- The predecessors in other threads; those in the same thread must come earlier. -/
def crossPreds (g : HBGraph) (node : HBNode) : Option (List HBNode) :=
  match node.incoming.mapM g.getNode? with
  | none => none
  | some preds =>
    if preds.all fun p => p.tuid != node.tuid || decide (p.threadOrder < node.threadOrder) then
      some (preds.filter fun p => p.tuid != node.tuid)
    else none

/-- The words of a node that is not skipped. -/
def syncWords (tab : Tables) (node : HBNode) (inputId : Nat) (preds : List HBNode) : List Nat :=
  (if inputId ≠ 0 then [tab.ctxShortId node.callctx ||| inputBufferFlagBit, inputId]
    else [tab.ctxShortId node.callctx]) ++
  preds.length :: preds.flatMap fun p => [p.tuid, p.threadOrder]

def dumpSync (tab : Tables) (g : HBGraph) (node : HBNode) (inputId : Nat) : Option (List Nat) :=
  if maxCtxId < tab.ctxShortId node.callctx then none
  else
    match crossPreds g node with
    | none => none
    | some preds => getConstantInt16s (syncWords tab node inputId preds)

/-- A skipped input may have predecessors in its own thread only. -/
def dumpSkip (g : HBGraph) (node : HBNode) : Option (List Nat) :=
  match crossPreds g node with
  | some [] => some [skipHbNodeFlag]
  | _ => none

/-- The body of the loop of `DumpThreadSchedule`. -/
def dumpNode (tab : Tables) (frag : ScheduleFragment) (node : HBNode) : Option (List Nat) :=
  match node.inputObj with
  | none => dumpSync tab frag.hbGraph node 0
  | some obj =>
    if tab.usedArrays obj && !frag.isLast then
      match frag.inputIds obj with
      | none => none
      | some inputId => dumpSync tab frag.hbGraph node inputId
    else dumpSkip frag.hbGraph node

def dumpNodes (tab : Tables) (frag : ScheduleFragment) : List HBNode → Option (List Nat)
  | [] => some []
  | node :: nodes =>
    match dumpNode tab frag node, dumpNodes tab frag nodes with
    | some w, some ws => some (w ++ ws)
    | _, _ => none

def dumpThreadSchedule (tab : Tables) (frag : ScheduleFragment) (tuid : Nat) : Option (List Nat) :=
  (dumpNodes tab frag (frag.hbGraph.threadNodes tuid frag.firstNodeId frag.lastNodeId)).map
    fun ws => ws ++ [frag.terminator]

/-! ## Reading the words -/

/-- `raw & ~InputBufferFlagBit` on 16-bit words. -/
def wordCtx (raw : Nat) : Nat := raw &&& 0x7fff

def wordHasInput (raw : Nat) : Bool := raw &&& inputBufferFlagBit != 0

/-- The tests of `WaitForHbNode` at a word that ends nothing: the context of the node is
the thread's current one, and the node has an input exactly when the caller reads one. -/
def wordMatches (callctxTable : Nat → Nat) (raw ctx : Nat) (expectingInput : Bool) : Bool :=
  callctxTable (wordCtx raw) == ctx && expectingInput == wordHasInput raw

variable {g : HBGraph}

lemma mem_mapM_getNode {ids : List Nat} (h : ids.mapM g.getNode? = some preds) (q : HBNode) :
    q ∈ preds ↔ ∃ p, p ∈ ids ∧ g.getNode? p = some q := by
  induction ids generalizing preds with
  | nil =>
    cases h
    simp
  | cons p ids ih =>
    simp only [mapM_cons, Option.bind_eq_bind, Option.bind_eq_some_iff] at h
    obtain ⟨n, hn, ns, hns, heq⟩ := h
    cases heq
    rw [mem_cons, ih hns]
    constructor
    · rintro (rfl | ⟨p', hp', hq⟩)
      · exact ⟨p, mem_cons_self, hn⟩
      · exact ⟨p', mem_cons_of_mem _ hp', hq⟩
    · rintro ⟨p', hp', hq⟩
      rcases mem_cons.1 hp' with rfl | hp'
      · rw [hn] at hq
        exact .inl (Option.some.inj hq).symm
      · exact .inr ⟨p', hp', hq⟩

lemma mem_crossPreds (h : crossPreds g node = some preds) (q : HBNode) :
    q ∈ preds ↔ q.tuid ≠ node.tuid ∧ ∃ p, p ∈ node.incoming ∧ g.getNode? p = some q := by
  unfold crossPreds at h
  split at h
  · cases h
  rename_i all hall
  split at h
  · cases h
    rw [mem_filter, mem_mapM_getNode hall, and_comm]
    simp
  · cases h

lemma dumpSync_eq {inputId : Nat} (h : dumpSync tab g node inputId = some w) :
    tab.ctxShortId node.callctx ≤ maxCtxId ∧
    ∃ preds, crossPreds g node = some preds ∧ w = syncWords tab node inputId preds := by
  unfold dumpSync at h
  split at h
  · cases h
  refine ⟨by omega, ?_⟩
  split at h
  · cases h
  rename_i preds hp
  unfold getConstantInt16s at h
  split at h
  · exact ⟨preds, hp, (Option.some.inj h).symm⟩
  · cases h

lemma dumpNode_cases (h : dumpNode tab frag node = some w) :
    (w = [skipHbNodeFlag] ∧ crossPreds frag.hbGraph node = some []) ∨
    ∃ inputId preds, tab.ctxShortId node.callctx ≤ maxCtxId ∧
      crossPreds frag.hbGraph node = some preds ∧ w = syncWords tab node inputId preds := by
  have hskip : dumpSkip frag.hbGraph node = some w →
      w = [skipHbNodeFlag] ∧ crossPreds frag.hbGraph node = some [] := by
    intro h
    unfold dumpSkip at h
    split at h
    · rename_i hp
      exact ⟨(Option.some.inj h).symm, hp⟩
    · cases h
  have hsync : ∀ inputId, dumpSync tab frag.hbGraph node inputId = some w →
      ∃ inputId preds, tab.ctxShortId node.callctx ≤ maxCtxId ∧
        crossPreds frag.hbGraph node = some preds ∧ w = syncWords tab node inputId preds := by
    intro inputId h
    obtain ⟨hctx, preds, hp, hw⟩ := dumpSync_eq h
    exact ⟨inputId, preds, hctx, hp, hw⟩
  unfold dumpNode at h
  split at h
  · exact .inr (hsync 0 h)
  split at h
  · split at h
    · cases h
    · exact .inr (hsync _ h)
  · exact .inl (hskip h)

lemma dumpNodes_cons (h : dumpNodes tab frag (node :: nodes) = some ws) :
    ∃ w ws', dumpNode tab frag node = some w ∧ dumpNodes tab frag nodes = some ws' ∧
      ws = w ++ ws' := by
  unfold dumpNodes at h
  split at h
  · rename_i w ws' hw hws
    exact ⟨w, ws', hw, hws, (Option.some.inj h).symm⟩
  · cases h

lemma dumpNodes_isSome (h : ∀ n, n ∈ nodes → (dumpNode tab frag n).isSome = true) :
    (dumpNodes tab frag nodes).isSome = true := by
  induction nodes with
  | nil => rfl
  | cons n nodes ih =>
    obtain ⟨w, hw⟩ := Option.isSome_iff_exists.1 (h n mem_cons_self)
    obtain ⟨ws, hws⟩ := Option.isSome_iff_exists.1 (ih fun m hm => h m (mem_cons_of_mem _ hm))
    simp [dumpNodes, hw, hws]

lemma wordHasInput_ctx (hc : c ≤ maxCtxId) : wordHasInput c = false := by
  have hlt : c < 2 ^ 15 := lt_of_le_of_lt hc (by decide)
  unfold wordHasInput inputBufferFlagBit
  rw [Nat.and_two_pow, Nat.testBit_lt_two_pow hlt]
  rfl

lemma wordHasInput_flag (c : Nat) : wordHasInput (c ||| inputBufferFlagBit) = true := by
  unfold wordHasInput inputBufferFlagBit
  rw [Nat.and_two_pow, Nat.testBit_or, Nat.testBit_two_pow_self]
  simp

lemma syncWords_head (inputId : Nat) (preds : List HBNode)
    (hc : tab.ctxShortId node.callctx ≤ maxCtxId) :
    ∃ raw rest, syncWords tab node inputId preds = raw :: rest ∧
      raw ≠ 0 ∧ raw ≠ endFragmentSentinal ∧ raw ≠ skipHbNodeFlag ∧
      wordHasInput raw = decide (inputId ≠ 0) ∧
      rest = (if inputId ≠ 0 then [inputId] else []) ++
        preds.length :: preds.flatMap fun p => [p.tuid, p.threadOrder] := by
  have hpos := tab.ctxShortId_pos node.callctx
  unfold maxCtxId at hc
  by_cases hi : inputId = 0
  · refine ⟨tab.ctxShortId node.callctx, _, by simp [syncWords, hi]; rfl, by omega, ?_, ?_, ?_,
      by simp [hi]⟩
    · unfold endFragmentSentinal; omega
    · unfold skipHbNodeFlag; omega
    · rw [wordHasInput_ctx hc]
      simp [hi]
  have hor : tab.ctxShortId node.callctx ||| inputBufferFlagBit =
      tab.ctxShortId node.callctx + 2 ^ 15 := by
    have hlt : tab.ctxShortId node.callctx < 2 ^ 15 := by omega
    have hsum := Nat.two_pow_add_eq_or_of_lt hlt 1
    rw [mul_one] at hsum
    unfold inputBufferFlagBit
    rw [Nat.or_comm, ← hsum, add_comm]
  refine ⟨tab.ctxShortId node.callctx ||| inputBufferFlagBit, _, by simp [syncWords, hi]; rfl,
    by omega, ?_, ?_, ?_, by simp [hi]⟩
  · unfold endFragmentSentinal; omega
  · unfold skipHbNodeFlag; omega
  · rw [wordHasInput_flag]
    simp [hi]

end InputCovSched
