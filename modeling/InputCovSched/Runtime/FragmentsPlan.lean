import InputCovSched.Runtime.Fragments

/-!
# Fragment transparency

A plan is what a thread's schedule is for: the contexts of its nodes that read no input, in
order, region by region. A cursor over dumped words is a walk over a plan as long as no
test mistakes the end of a fragment for something else (`same_outcome_of_ok`), and a cursor over
a schedule in one piece always is.
-/

namespace InputCovSched

open ScheduleFragment Cursor

open List

/-! ## What the schedule of a thread is for -/

structure PlanRegion where
  ctxs : List Nat
  hasThread : Bool
  exitsProgram : Bool

/-- The contexts that are left in the region, and the regions to come. -/
structure Plan where
  ctxs : List Nat
  exitsProgram : Bool
  regions : List PlanRegion

namespace Plan

def start (r : PlanRegion) (regions : List PlanRegion) : Plan := ⟨r.ctxs, r.exitsProgram, regions⟩

def regionBarrier : Bool → List PlanRegion → Outcome Plan
  | true, _ => .fails
  | false, [] => .waits
  | false, r :: rs => if r.hasThread then .ok (start r rs) else .fails

def barrierLoop (stopAtExit : Bool) : Nat → Plan → Outcome Plan
  | 0, _ => .waits
  | n + 1, p =>
    if p.ctxs.isEmpty then
      if stopAtExit && p.exitsProgram then .ok p
      else (regionBarrier p.exitsProgram p.regions).bind (barrierLoop stopAtExit n)
    else .ok p

def mustExist (table : Nat → Nat) (p : Plan) (ctx : Nat) : Outcome Plan :=
  match p.ctxs with
  | [] => .fails
  | w :: ws => if wordMatches table w ctx false then .ok { p with ctxs := ws } else .fails

def step (table : Nat → Nat) (p : Plan) : ThreadOp → Outcome Plan
  | .sync ctx => p.mustExist table ctx
  | .sleepSync ctx =>
    (p.barrierLoop false (p.regions.length + 1)).bind fun p => p.mustExist table ctx
  | .input _ => .ok p
  | .regionMarker ctx =>
    (p.mustExist table ctx).bind fun p =>
      if p.ctxs.isEmpty && !p.exitsProgram then regionBarrier p.exitsProgram p.regions else .ok p
  | .skipRegionBarriers => p.barrierLoop true (p.regions.length + 1)
  | .exit ctx => (p.mustExist table ctx).bind fun p => if p.ctxs.isEmpty then .ok p else .fails

def run (table : Nat → Nat) : Plan → List ThreadOp → Outcome Plan
  | p, [] => .ok p
  | p, op :: ops => (p.step table op).bind fun p => run table p ops

end Plan

/-! ## Positions -/

section
variable {tab : Tables} {frag : ScheduleFragment} {todo : List HBNode} {ptr : List Nat}
  {node : HBNode}

/-- The pointer is before the nodes `todo` of a fragment. -/
def Pos (tab : Tables) (frag : ScheduleFragment) (todo : List HBNode) (ptr : List Nat) : Prop :=
  ∃ ws, dumpNodes tab frag todo = some ws ∧ ptr = ws ++ [frag.terminator]

def syncNodes (nodes : List HBNode) : List HBNode := nodes.filter fun n => n.inputObj.isNone

lemma syncNodes_append (a b : List HBNode) : syncNodes (a ++ b) = syncNodes a ++ syncNodes b :=
  filter_append _ _

lemma dumpNode_kind (h : dumpNode tab frag node = some w)
    (hids : ∀ obj id, frag.inputIds obj = some id → 0 < id) :
    (node.inputObj = none ∧ dumpSync tab frag.hbGraph node 0 = some w) ∨
    (node.inputObj.isNone = false ∧ w = [skipHbNodeFlag]) ∨
    (node.inputObj.isNone = false ∧ frag.isLast = false ∧
      ∃ inputId, 0 < inputId ∧ dumpSync tab frag.hbGraph node inputId = some w) := by
  unfold dumpNode at h
  split at h
  · rename_i hin
    exact .inl ⟨hin, h⟩
  rename_i obj hin
  split at h
  · rename_i hused
    split at h
    · cases h
    rename_i inputId hid
    simp only [Bool.and_eq_true, Bool.not_eq_true'] at hused
    exact .inr (.inr ⟨by simp [hin], hused.2, inputId, hids obj inputId hid, h⟩)
  · unfold dumpSkip at h
    split at h
    · exact .inr (.inl ⟨by simp [hin], (Option.some.inj h).symm⟩)
    · cases h

lemma Pos.cons (h : Pos tab frag (node :: todo) ptr) :
    ∃ w ptr', dumpNode tab frag node = some w ∧ ptr = w ++ ptr' ∧ Pos tab frag todo ptr' := by
  obtain ⟨ws, hws, rfl⟩ := h
  obtain ⟨w, ws', hw, hws', rfl⟩ := dumpNodes_cons hws
  exact ⟨w, ws' ++ [frag.terminator], hw, by rw [append_assoc], ws', hws', rfl⟩

lemma Pos.nil (h : Pos tab frag [] ptr) : ptr = [frag.terminator] := by
  obtain ⟨ws, hws, rfl⟩ := h
  cases hws
  rfl

lemma terminator_ne_skip (frag : ScheduleFragment) : frag.terminator ≠ skipHbNodeFlag := by
  unfold terminator
  split <;> decide

def NoSkip (ptr : List Nat) : Prop := ptr.head? ≠ some skipHbNodeFlag

lemma Pos.skipNops (hids : ∀ obj id, frag.inputIds obj = some id → 0 < id)
    (h : Pos tab frag todo ptr) :
    ∃ todo', Pos tab frag todo' (skipNopScheduleNodes ptr) ∧ NoSkip (skipNopScheduleNodes ptr) ∧
      syncNodes todo' = syncNodes todo := by
  induction todo generalizing ptr with
  | nil =>
    have hptr := h.nil
    have hs : skipNopScheduleNodes ptr = ptr := by
      rw [hptr]
      simp [skipNopScheduleNodes, terminator_ne_skip]
    rw [hs]
    exact ⟨[], h, by simp [NoSkip, hptr, terminator_ne_skip], rfl⟩
  | cons node todo ih =>
    obtain ⟨w, ptr', hw, rfl, hpos⟩ := h.cons
    have hkeep : ∀ inputId, dumpSync tab frag.hbGraph node inputId = some w →
        skipNopScheduleNodes (w ++ ptr') = w ++ ptr' ∧ NoSkip (w ++ ptr') := by
      intro inputId hsync
      obtain ⟨hctx, preds, -, rfl⟩ := dumpSync_eq hsync
      obtain ⟨raw, rest, heq, -, -, hns, -⟩ := syncWords_head inputId preds hctx
      rw [heq]
      simp [skipNopScheduleNodes, NoSkip, hns]
    rcases dumpNode_kind hw hids with ⟨-, hsync⟩ | ⟨hin, rfl⟩ | ⟨-, -, inputId, -, hsync⟩
    · obtain ⟨h1, h2⟩ := hkeep 0 hsync
      exact ⟨node :: todo, by rw [h1]; exact h, by rw [h1]; exact h2, rfl⟩
    · obtain ⟨todo', hp, hn, hs⟩ := ih hpos
      have hskip : skipNopScheduleNodes ([skipHbNodeFlag] ++ ptr') = skipNopScheduleNodes ptr' := by
        simp [skipNopScheduleNodes]
      refine ⟨todo', by rw [hskip]; exact hp, by rw [hskip]; exact hn, ?_⟩
      rw [hs]
      unfold syncNodes
      rw [filter_cons_of_neg (by simp [hin])]
    · obtain ⟨h1, h2⟩ := hkeep inputId hsync
      exact ⟨node :: todo, by rw [h1]; exact h, by rw [h1]; exact h2, rfl⟩

lemma Pos.head (hids : ∀ obj id, frag.inputIds obj = some id → 0 < id)
    (h : Pos tab frag todo ptr) (hns : NoSkip ptr) :
    (todo = [] ∧ ptr = [frag.terminator]) ∨
    ∃ node todo' w ptr', todo = node :: todo' ∧ ptr = w ++ ptr' ∧ Pos tab frag todo' ptr' ∧
      ((node.inputObj = none ∧ dumpSync tab frag.hbGraph node 0 = some w) ∨
       (node.inputObj.isNone = false ∧ frag.isLast = false ∧
        ∃ inputId, 0 < inputId ∧ dumpSync tab frag.hbGraph node inputId = some w)) := by
  cases todo with
  | nil => exact .inl ⟨rfl, h.nil⟩
  | cons node todo =>
    obtain ⟨w, ptr', hw, rfl, hpos⟩ := h.cons
    refine .inr ⟨node, todo, w, ptr', rfl, rfl, hpos, ?_⟩
    rcases dumpNode_kind hw hids with hsync | ⟨-, rfl⟩ | hkept
    · exact .inl hsync
    · exact absurd rfl hns
    · exact .inr hkept

lemma dumpSync_head {inputId : Nat} (h : dumpSync tab g node inputId = some w) :
    ∃ raw rest, w = raw :: rest ∧ raw ≠ 0 ∧ raw ≠ endFragmentSentinal ∧
      wordHasInput raw = decide (inputId ≠ 0) := by
  obtain ⟨hctx, preds, -, rfl⟩ := dumpSync_eq h
  obtain ⟨raw, rest, heq, h0, he, -, hin, -⟩ := syncWords_head inputId preds hctx
  exact ⟨raw, rest, heq, h0, he, hin⟩

lemma Pos.ends (hids : ∀ obj id, frag.inputIds obj = some id → 0 < id)
    (h : Pos tab frag todo ptr) (hns : NoSkip ptr) :
    (isFragmentComplete ptr = true → todo = [] ∧ frag.isLast = false) ∧
    (isScheduleComplete ptr = true → todo = [] ∧ frag.isLast = true) := by
  rcases h.head hids hns with ⟨rfl, rfl⟩ | ⟨node, _, w, ptr', -, rfl, -, hk⟩
  · cases hl : frag.isLast <;>
      simp [isFragmentComplete, isScheduleComplete, terminator, hl, endFragmentSentinal]
  have hw : ∃ inputId, dumpSync tab frag.hbGraph node inputId = some w := by
    rcases hk with ⟨-, hk⟩ | ⟨-, -, inputId, -, hk⟩
    · exact ⟨0, hk⟩
    · exact ⟨inputId, hk⟩
  obtain ⟨inputId, hw⟩ := hw
  obtain ⟨raw, rest, rfl, h0, he, -⟩ := dumpSync_head hw
  simp [isFragmentComplete, isScheduleComplete, h0, he]

end

/-! ## Where a cursor stands -/

lemma consecutive_isLast {first : Nat} {before later : List ScheduleFragment}
    (h : Consecutive g first (before ++ frag :: later)) :
    frag.hbGraph = g ∧ (frag.isLast = true ↔ later = []) := by
  induction before generalizing first with
  | nil =>
    cases later with
    | nil =>
      obtain ⟨rfl, -, -, hlast⟩ := h
      exact ⟨rfl, by simp [isLast, hlast]⟩
    | cons f fs =>
      obtain ⟨rfl, -, -, hlt, -⟩ := h
      refine ⟨rfl, ?_⟩
      simp only [isLast, beq_iff_eq, reduceCtorEq, iff_false]
      omega
  | cons f before ih =>
    rw [cons_append] at h
    cases hb : before ++ frag :: later with
    | nil => simp at hb
    | cons f' fs =>
      rw [hb] at h
      obtain ⟨-, -, -, -, h⟩ := h
      rw [← hb] at h
      exact ih h

def ScheduleFragment.threadNodes (t : Nat) (frag : ScheduleFragment) : List HBNode :=
  frag.hbGraph.threadNodes t frag.firstNodeId frag.lastNodeId

lemma consecutive_nodes {first : Nat} {frags : List ScheduleFragment} (t : Nat)
    (h : Consecutive g first frags) :
    frags.flatMap (threadNodes t) = (g.nodes.drop (first - 1)).filter fun n => n.tuid == t := by
  induction frags generalizing first with
  | nil => cases h
  | cons f fs ih =>
    cases fs with
    | nil =>
      obtain ⟨rfl, rfl, hle, hlast⟩ := h
      rw [RtState.filter_drop_eq hle hlast.le, hlast]
      simp [threadNodes, HBGraph.getMaxNodeId, hlast]
    | cons f' fs =>
      obtain ⟨rfl, rfl, hle, hlt, h⟩ := h
      rw [flatMap_cons, ih h, RtState.filter_drop_eq hle hlt.le, Nat.add_sub_cancel]
      rfl

namespace CutRegion

def ctxWords (R : CutRegion) (nodes : List HBNode) : List Nat :=
  (syncNodes nodes).map fun n => R.cut.tab.ctxShortId n.callctx

def plan (t : Nat) (R : CutRegion) : PlanRegion where
  ctxs := R.ctxWords (R.cut.graph.allOf t)
  hasThread := decide (t < R.cut.graph.numThreads)
  exitsProgram := R.exitsProgram

def StandsAt (R : CutRegion) (t : Nat) (c : Cursor) (ctxs : List Nat) : Prop :=
  ∃ before frag later todo, R.cut.frags = before ++ frag :: later ∧
    Pos R.cut.tab frag todo c.ptr ∧ NoSkip c.ptr ∧ c.later = later.map (R.words t) ∧
    ctxs = R.ctxWords (todo ++ later.flatMap (ScheduleFragment.threadNodes t))

variable {R : CutRegion} {t : Nat} {c : Cursor}

lemma pos_words (R : CutRegion) (t : Nat) (h : frag ∈ R.cut.frags) :
    Pos R.cut.tab frag (frag.threadNodes t) (R.words t frag) := by
  obtain ⟨ws, hws⟩ := Option.isSome_iff_exists.1 (R.cut.dumps frag h t)
  have hw : R.words t frag = ws := by simp [words, hws]
  obtain ⟨ws', hws', rfl⟩ := Option.map_eq_some_iff.1 hws
  exact ⟨ws', hws', hw⟩

lemma ctxWords_append (R : CutRegion) (a b : List HBNode) :
    R.ctxWords (a ++ b) = R.ctxWords a ++ R.ctxWords b := by
  simp [ctxWords, syncNodes_append]

lemma ctxWords_congr (h : syncNodes a = syncNodes b) : R.ctxWords a = R.ctxWords b := by
  simp [ctxWords, h]

lemma ctxWords_cons_none {node : HBNode} (a : List HBNode) (h : node.inputObj = none) :
    R.ctxWords (node :: a) = R.cut.tab.ctxShortId node.callctx :: R.ctxWords a := by
  simp [ctxWords, syncNodes, h]

lemma ctxWords_cons_input {node : HBNode} (a : List HBNode)
    (h : node.inputObj.isNone = false) : R.ctxWords (node :: a) = R.ctxWords a := by
  apply ctxWords_congr
  unfold syncNodes
  rw [filter_cons_of_neg (by simp [h])]

lemma standsAt_start (R : CutRegion) (t : Nat) (regions : List ThreadRegion) :
    R.StandsAt t (start (R.split t) regions) (R.plan t).ctxs := by
  have hnodes := consecutive_nodes t R.cut.split
  cases hf : R.cut.frags with
  | nil =>
    have := R.cut.split
    rw [hf] at this
    cases this
  | cons frag later =>
    have hmem : frag ∈ R.cut.frags := by rw [hf]; exact mem_cons_self
    obtain ⟨todo, hpos, hns, hsync⟩ := (R.pos_words t hmem).skipNops (R.inputIds_pos frag hmem)
    have hptr : (start (R.split t) regions).ptr = skipNopScheduleNodes (R.words t frag) := by
      simp [start, split, hf]
    refine ⟨[], frag, later, todo, hf, by rw [hptr]; exact hpos, by rw [hptr]; exact hns,
      by simp [start, split, hf], ?_⟩
    rw [hf, flatMap_cons] at hnodes
    rw [ctxWords_append, ctxWords_congr hsync, ← ctxWords_append, hnodes]
    rfl

lemma StandsAt.advance (h : R.StandsAt t c ctxs) :
    R.StandsAt t c.advanceToNextFragmentIfComplete ctxs ∧
      isFragmentComplete c.advanceToNextFragmentIfComplete.ptr = false := by
  obtain ⟨before, frag, later, todo, hfrags, hpos, hns, hlater, rfl⟩ := h
  obtain ⟨ptr, rest, exits, regions⟩ := c
  dsimp only at hpos hns hlater
  subst hlater
  -- one more fragment is passed at each turn of the loop
  induction later generalizing before frag todo ptr with
  | nil =>
    refine ⟨⟨before, frag, [], todo, hfrags, hpos, hns, rfl, rfl⟩, ?_⟩
    have hmem : frag ∈ R.cut.frags := by rw [hfrags]; simp
    have hlast := (consecutive_isLast (hfrags ▸ R.cut.split)).2.2 rfl
    show isFragmentComplete ptr = false
    by_contra hc
    have := ((hpos.ends (R.inputIds_pos frag hmem) hns).1 (by simpa using hc)).2
    simp [hlast] at this
  | cons f fs ih =>
    have hmem : frag ∈ R.cut.frags := by rw [hfrags]; simp
    have hmem' : f ∈ R.cut.frags := by rw [hfrags]; simp
    cases hc : isFragmentComplete ptr with
    | true =>
      obtain ⟨rfl, -⟩ := (hpos.ends (R.inputIds_pos frag hmem) hns).1 hc
      obtain ⟨todo', hpos', hns', hsync⟩ := (R.pos_words t hmem').skipNops (R.inputIds_pos f hmem')
      have hadv := ih (before ++ [frag]) f todo' (by rw [hfrags]; simp) _ hpos' hns'
      have hctx : R.ctxWords (todo' ++ fs.flatMap (ScheduleFragment.threadNodes t)) =
          R.ctxWords ([] ++ (f :: fs).flatMap (ScheduleFragment.threadNodes t)) := by
        rw [nil_append, flatMap_cons, ctxWords_append, ctxWords_append, ctxWords_congr hsync]
      rw [hctx] at hadv
      simpa [Cursor.advanceToNextFragmentIfComplete, Cursor.advanceLoop, hc] using hadv
    | false =>
      have hadv : (Cursor.mk ptr ((f :: fs).map (R.words t)) exits
          regions).advanceToNextFragmentIfComplete =
          .mk ptr ((f :: fs).map (R.words t)) exits regions := by
        simp [Cursor.advanceToNextFragmentIfComplete, Cursor.advanceLoop, hc]
      rw [hadv]
      exact ⟨⟨before, frag, f :: fs, todo, hfrags, hpos, hns, rfl, rfl⟩, hc⟩

lemma StandsAt.head (h : R.StandsAt t c ctxs) (hc : isFragmentComplete c.ptr = false) :
    (ctxs = [] ∧ c.ptr = [0]) ∨
    ∃ node inputId w ptr', dumpSync R.cut.tab R.cut.graph node inputId = some w ∧
      c.ptr = w ++ ptr' ∧
      ((inputId = 0 ∧ ∃ rest, ctxs = R.cut.tab.ctxShortId node.callctx :: rest ∧
        R.StandsAt t { c with ptr := skipNopScheduleNodes ptr' } rest) ∨
       (0 < inputId ∧ 1 < R.cut.frags.length ∧
        R.StandsAt t { c with ptr := skipNopScheduleNodes ptr' } ctxs)) := by
  obtain ⟨before, frag, later, todo, hfrags, hpos, hns, hlater, rfl⟩ := h
  have hmem : frag ∈ R.cut.frags := by rw [hfrags]; simp
  have hids := R.inputIds_pos frag hmem
  obtain ⟨hg, hlast⟩ := consecutive_isLast (hfrags ▸ R.cut.split)
  have hstands : ∀ todo' ptr', Pos R.cut.tab frag todo' ptr' →
      R.StandsAt t { c with ptr := skipNopScheduleNodes ptr' }
        (R.ctxWords (todo' ++ later.flatMap (threadNodes t))) := by
    intro todo' ptr' hp
    obtain ⟨todo'', hpos', hns', hsync⟩ := hp.skipNops hids
    refine ⟨before, frag, later, todo'', hfrags, hpos', hns', hlater, ?_⟩
    rw [ctxWords_append, ctxWords_append, ctxWords_congr hsync]
  rcases hpos.head hids hns with ⟨rfl, hptr⟩ | ⟨node, todo', w, ptr', rfl, hptr, hpos', hk⟩
  · left
    cases hl : frag.isLast with
    | true =>
      rw [hlast.1 hl]
      exact ⟨rfl, by rw [hptr]; simp [terminator, hl]⟩
    | false => simp [hptr, isFragmentComplete, terminator, hl] at hc
  right
  rw [hg] at hk
  rcases hk with ⟨hin, hw⟩ | ⟨hin, hl, inputId, hid, hw⟩
  · refine ⟨node, 0, w, ptr', hw, hptr, .inl ⟨rfl, _, ?_, hstands todo' ptr' hpos'⟩⟩
    rw [cons_append, ctxWords_cons_none _ hin]
  refine ⟨node, inputId, w, ptr', hw, hptr, .inr ⟨hid, ?_, ?_⟩⟩
  · have hne : later ≠ [] := fun hnil => by simp [hlast.2 hnil] at hl
    have := length_pos_of_ne_nil hne
    rw [hfrags, length_append, length_cons]
    omega
  · rw [cons_append, ctxWords_cons_input _ hin]
    exact hstands todo' ptr' hpos'

end CutRegion

namespace Cursor

variable {table : Nat → Nat} {t ctx : Nat} {c : Cursor} {p : Plan}

variable {g : HBGraph}

lemma waitForHbNode_at {tab : Tables} {node : HBNode} {inputId : Nat}
    (expectingInput : Bool) (hw : dumpSync tab g node inputId = some w)
    (hptr : c.advanceToNextFragmentIfComplete.ptr = w ++ ptr') :
    c.waitForHbNode table ctx expectingInput =
      if wordMatches table (w.headD 0) ctx expectingInput then
        (some inputId, { c.advanceToNextFragmentIfComplete with ptr := skipNopScheduleNodes ptr' })
      else (none, c.advanceToNextFragmentIfComplete) := by
  obtain ⟨hctx, preds, -, rfl⟩ := dumpSync_eq hw
  obtain ⟨raw, rest, heq, h0, -, -, hin, hrest⟩ := syncWords_head inputId preds hctx
  rw [heq] at hptr ⊢
  rw [headD_cons]
  have hlen : (preds.flatMap fun q => [q.tuid, q.threadOrder]).length = 2 * preds.length := by
    simp [length_flatMap, Nat.mul_comm]
  simp only [waitForHbNode, hptr, cons_append, h0, if_false]
  by_cases hm : wordMatches table raw ctx expectingInput = true
  · -- the word has the input flag exactly when the caller expects an input
    have he : expectingInput = decide (inputId ≠ 0) := by
      simp only [wordMatches, Bool.and_eq_true, beq_iff_eq] at hm
      rw [hm.2, hin]
    subst he
    by_cases hi : inputId = 0
    · simp [hi, hrest, ← hlen]
    · simp [hi, hrest, ← hlen]
  · rw [if_neg hm, if_neg hm]

lemma waitForHbNode_end (expectingInput : Bool)
    (hptr : c.advanceToNextFragmentIfComplete.ptr = [0]) :
    c.waitForHbNode table ctx expectingInput = (none, c.advanceToNextFragmentIfComplete) := by
  simp [waitForHbNode, hptr]

lemma dumpSync_ctx {tab : Tables} {node : HBNode} (h : dumpSync tab g node 0 = some w) :
    w.headD 0 = tab.ctxShortId node.callctx := by
  obtain ⟨-, preds, -, rfl⟩ := dumpSync_eq h
  rfl

lemma atInput_dumpSync {tab : Tables} {node : HBNode} {inputId : Nat} (ptr' : List Nat)
    (hw : dumpSync tab g node inputId = some w) : atInput (w ++ ptr') = decide (inputId ≠ 0) := by
  obtain ⟨raw, rest, rfl, h0, he, hin⟩ := dumpSync_head hw
  simp [atInput, h0, he, hin]

/-- The cursor is a walk over the plan, in regions with the property `P`. -/
def Refines (P : CutRegion → Prop) (t : Nat) (c : Cursor) (p : Plan) : Prop :=
  ∃ (R : CutRegion) (rest : List CutRegion), P R ∧ (∀ r, r ∈ rest → P r) ∧ R.StandsAt t c p.ctxs ∧
    c.exitsProgram = p.exitsProgram ∧ c.regions = rest.map (CutRegion.split t) ∧
    p.regions = rest.map (CutRegion.plan t)

variable {P : CutRegion → Prop}

@[simp] lemma advance_exitsProgram (c : Cursor) :
    c.advanceToNextFragmentIfComplete.exitsProgram = c.exitsProgram := rfl

@[simp] lemma advance_regions (c : Cursor) :
    c.advanceToNextFragmentIfComplete.regions = c.regions := rfl

lemma Refines.advance (h : Refines P t c p) :
    Refines P t c.advanceToNextFragmentIfComplete p := by
  obtain ⟨R, rest, hR, hrest, hs, hx, hr, hp⟩ := h
  exact ⟨R, rest, hR, hrest, hs.advance.1, hx, hr, hp⟩

lemma Refines.mustExist (h : Refines P t c p) (hn : NoInputNext c) :
    Outcome.Rel (Refines P t) (c.mustExist table ctx) (p.mustExist table ctx) := by
  obtain ⟨R, rest, hR, hrest, hs, hx, hr, hp⟩ := h
  obtain ⟨hs', hc⟩ := hs.advance
  rcases hs'.head hc with ⟨hnil, hptr⟩ | ⟨node, inputId, w, ptr', hw, hptr, hk⟩
  · simp [Cursor.mustExist, Plan.mustExist, waitForHbNode_end false hptr, hnil, Outcome.Rel]
  have hzero : inputId = 0 := by
    have := atInput_dumpSync ptr' hw
    rw [← hptr, hn] at this
    simpa using this.symm
  subst hzero
  rcases hk with ⟨-, ctxs, hctxs, hstands⟩ | ⟨hpos, -⟩
  · simp only [Cursor.mustExist, Plan.mustExist, waitForHbNode_at false hw hptr, hctxs,
      dumpSync_ctx hw]
    by_cases hm : wordMatches table (R.cut.tab.ctxShortId node.callctx) ctx false = true
    · rw [if_pos hm, if_pos hm]
      exact ⟨R, rest, hR, hrest, hstands, hx, hr, hp⟩
    · rw [if_neg hm, if_neg hm]
      trivial
  · omega

lemma Refines.complete_iff (h : Refines P t c p) (hn : NoInputNext c) (hst : NotStale c) :
    isScheduleComplete c.ptr = p.ctxs.isEmpty := by
  obtain ⟨R, rest, hR, hrest, hs, hx, hr, hp⟩ := h
  obtain ⟨hs', hc⟩ := hs.advance
  rw [Bool.eq_iff_iff, List.isEmpty_iff]
  constructor
  · intro hcomplete
    obtain ⟨before, frag, later, todo, hfrags, hpos, hns, -, hctxs⟩ := hs
    have hmem : frag ∈ R.cut.frags := by rw [hfrags]; simp
    obtain ⟨rfl, hl⟩ := (hpos.ends (R.inputIds_pos frag hmem) hns).2 hcomplete
    have hcut := R.cut.split
    rw [hfrags] at hcut
    rw [hctxs, (consecutive_isLast hcut).2.1 hl]
    rfl
  · intro hnil
    rcases hs'.head hc with ⟨-, hptr⟩ | ⟨node, inputId, w, ptr', hw, hptr, hk⟩
    · exact hst (by rw [hptr]; rfl)
    rcases hk with ⟨-, ctxs, hctxs, -⟩ | ⟨hpos, -⟩
    · rw [hnil] at hctxs
      cases hctxs
    have := atInput_dumpSync ptr' hw
    rw [← hptr, hn] at this
    simp at this
    omega

lemma refines_start (t : Nat) {rest : List CutRegion} (hR : P R) (hrest : ∀ r, r ∈ rest → P r) :
    Refines P t (start (R.split t) (rest.map (CutRegion.split t)))
      (Plan.start (R.plan t) (rest.map (CutRegion.plan t))) :=
  ⟨R, rest, hR, hrest, R.standsAt_start t _, rfl, rfl, rfl⟩

lemma Refines.regionBarrier (h : Refines P t c p) (hcut : InCutRegions c) :
    Outcome.Rel (Refines P t) (regionBarrier c.exitsProgram c.regions)
      (Plan.regionBarrier p.exitsProgram p.regions) := by
  obtain ⟨R, rest, -, hrest, -, hx, hr, hp⟩ := h
  rw [hx, hr, hp]
  cases p.exitsProgram with
  | true => simp [Cursor.regionBarrier, Plan.regionBarrier, Outcome.Rel]
  | false =>
    cases rest with
    | nil => trivial
    | cons r rest =>
      have hin := hcut (r.split t) (by rw [hr]; exact mem_cons_self)
      simp only [map_cons, Cursor.regionBarrier, Plan.regionBarrier]
      have hth : (r.split t).hasThread = (r.plan t).hasThread := rfl
      rw [← hth]
      by_cases ht : (r.split t).hasThread = true
      · rw [if_pos ht, if_pos ht]
        exact refines_start t (hrest r mem_cons_self) fun r' hr' => hrest r' (mem_cons_of_mem _ hr')
      · rw [if_neg ht, if_neg ht, if_pos (hin.resolve_left ht)]
        trivial

lemma regionBarrier_mem {exits : Bool} {regions : List ThreadRegion}
    (h : regionBarrier exits regions = .ok c) (hr : r ∈ c.regions) :
    r ∈ regions := by
  induction regions generalizing exits with
  | nil => cases exits <;> simp [regionBarrier] at h
  | cons r' rs ih =>
    cases exits with
    | true => simp [regionBarrier] at h
    | false =>
      unfold regionBarrier at h
      split at h
      · cases h
        exact mem_cons_of_mem _ hr
      split at h
      · cases h
      · exact mem_cons_of_mem _ (ih h)

lemma Refines.barrierLoop (h : Refines P t c p) (hcut : InCutRegions c)
    (hok : LoopOk n c) (hn : c.regions.length < n) :
    Outcome.Rel (fun c p => Refines P t c p ∧ NoInputNext c) (c.barrierLoop stop n)
      (p.barrierLoop stop n) := by
  induction n generalizing c p with
  | zero => omega
  | succ n ih =>
    obtain ⟨hni, hst, hnext⟩ := hok
    have hcomplete := h.complete_iff hni hst
    have hx : c.exitsProgram = p.exitsProgram := h.choose_spec.choose_spec.2.2.2.1
    unfold barrierLoop Plan.barrierLoop
    rw [hcomplete, ← hx]
    by_cases hdone : p.ctxs.isEmpty = true
    · rw [if_pos hdone, if_pos hdone]
      by_cases hexit : (stop && c.exitsProgram) = true
      · rw [if_pos hexit, if_pos hexit]
        exact ⟨h, hni⟩
      rw [if_neg hexit, if_neg hexit]
      have hbar := h.regionBarrier hcut
      rw [← hx] at hbar
      refine hbar.bind fun c' p' hc' hr => ?_
      have hloop := (hnext.ok hc').resolve_left (by rw [hcomplete, hdone]; simp)
      have hlen := regionBarrier_regions hc'
      exact ih hr (fun r hr => hcut r (regionBarrier_mem hc' hr)) hloop (by omega)
    · rw [if_neg hdone, if_neg hdone]
      exact ⟨h, hni⟩

lemma mustExist_regions (h : c.mustExist table ctx = .ok c') : c'.regions = c.regions := by
  have hwait : (c.waitForHbNode table ctx false).2.regions = c.regions := by
    simp only [waitForHbNode, Bool.false_eq_true, if_false]
    repeat' split
    all_goals rfl
  unfold mustExist at h
  split at h
  · rename_i heq
    cases h
    rw [heq] at hwait
    exact hwait
  · cases h

lemma advance_of_not_complete (h : isFragmentComplete c.ptr = false) :
    c.advanceToNextFragmentIfComplete = c := by
  obtain ⟨ptr, later, exits, regions⟩ := c
  cases later with
  | nil => rfl
  | cons w ws =>
    have hloop : advanceLoop ptr (w :: ws) = (ptr, w :: ws) := by
      simp only [advanceLoop, show isFragmentComplete ptr = false from h]
      rfl
    simp only [advanceToNextFragmentIfComplete, hloop]

section
variable (h : Refines P t c p)
include h

lemma Refines.not_fragmentComplete :
    isFragmentComplete c.advanceToNextFragmentIfComplete.ptr = false := by
  obtain ⟨R, rest, -, -, hs, -⟩ := h
  exact hs.advance.2

lemma Refines.input : Outcome.Rel (Refines P t) (c.step table (.input ctx)) (.ok p) := by
  obtain ⟨R, rest, hR, hrest, hs, hx, hr, hp⟩ := h
  obtain ⟨hs', hc⟩ := hs.advance
  have hskip : Refines P t c.advanceToNextFragmentIfComplete p :=
    ⟨R, rest, hR, hrest, hs', hx, hr, hp⟩
  rcases hs'.head hc with ⟨-, hptr⟩ | ⟨node, inputId, w, ptr', hw, hptr, hk⟩
  · simp only [step, waitForHbNode_end true hptr]
    exact hskip
  simp only [step, waitForHbNode_at true hw hptr]
  by_cases hm : wordMatches table (w.headD 0) ctx true = true
  · rw [if_pos hm]
    obtain ⟨raw, w', rfl, -, -, hin⟩ := dumpSync_head hw
    have hne : inputId ≠ 0 := by
      simp only [wordMatches, headD_cons, hin, Bool.and_eq_true, beq_iff_eq] at hm
      simpa using hm.2.symm
    rcases hk with ⟨h0, -⟩ | ⟨-, -, hstands⟩
    · exact absurd h0 hne
    · simp only [hne, if_false]
      exact .advance ⟨R, rest, hR, hrest, hstands, hx, hr, hp⟩
  · rw [if_neg hm]
    exact hskip

lemma Refines.step (hok : OpOk table c op) :
    Outcome.Rel (Refines P t) (c.step table op) (p.step table op) := by
  have hregions : ∀ {c : Cursor} {p : Plan}, Refines P t c p →
      c.regions.length = p.regions.length := by
    rintro c p ⟨R, rest, -, -, -, -, hr, hp⟩
    rw [hr, hp, length_map, length_map]
  cases op with
  | sync ctx => exact h.mustExist hok
  | sleepSync ctx =>
    simp only [Plan.step, ← hregions h]
    exact (h.barrierLoop hok.1 hok.2 (by omega)).bind fun c p _ hr => hr.1.mustExist hr.2
  | input ctx => exact h.input
  | regionMarker ctx =>
    obtain ⟨hn, hcut, hnext⟩ := hok
    refine (h.mustExist hn).bind fun c' p' hc' hr => ?_
    have hnext := hnext.ok hc'
    have hadv := hr.advance
    have hfix := advance_of_not_complete hr.not_fragmentComplete
    have hcomplete := hadv.complete_iff (by rw [NoInputNext, hfix]; exact hnext)
      (by rw [NotStale, hfix]; exact id)
    have hx : c'.exitsProgram = p'.exitsProgram := hr.choose_spec.choose_spec.2.2.2.1
    dsimp only
    rw [hcomplete, advance_exitsProgram, hx]
    split
    · have hbar := hadv.regionBarrier
        (by rw [InCutRegions, advance_regions, mustExist_regions hc']; exact hcut)
      rw [advance_exitsProgram, hx] at hbar
      exact hbar
    · exact hadv
  | skipRegionBarriers =>
    simp only [Plan.step, ← hregions h]
    exact (h.barrierLoop hok.1 hok.2 (by omega)).imp fun _ _ hr => hr.1
  | exit ctx =>
    obtain ⟨hn, hnext⟩ := hok
    refine (h.mustExist hn).bind fun c' p' hc' hr => ?_
    have hnext := hnext.ok hc'
    rw [hr.complete_iff hnext.1 hnext.2]
    split
    · exact hr
    · trivial

lemma Refines.run (hok : OpsOk table c ops) :
    Outcome.Rel (Refines P t) (c.run table ops) (p.run table ops) := by
  induction ops generalizing c p with
  | nil => exact h
  | cons op ops ih =>
    refine (h.step hok.1).bind fun c' p' hc' hr => ?_
    exact ih hr (hok.2.ok hc')

end

/-! ## The schedule in one piece -/

def Uncut (R : CutRegion) : Prop := R.cut.frags.length = 1

section
variable (h : Refines Uncut t c p)
include h

lemma Refines.uncut : NoInputNext c ∧ NotStale c ∧ InCutRegions c := by
  obtain ⟨R, rest, hR, hrest, hs, -, hr, -⟩ := h
  obtain ⟨hs', hc⟩ := hs.advance
  refine ⟨?_, ?_, ?_⟩
  · rcases hs'.head hc with ⟨-, hptr⟩ | ⟨node, inputId, w, ptr', hw, hptr, hk⟩
    · rw [NoInputNext, hptr]
      rfl
    rcases hk with ⟨rfl, -⟩ | ⟨-, hlen, -⟩
    · rw [NoInputNext, hptr, atInput_dumpSync ptr' hw]
      rfl
    · rw [Uncut] at hR
      omega
  · obtain ⟨before, frag, later, todo, hfrags, -, -, hlater, -⟩ := hs
    have hnil : later = [] := by
      rw [Uncut, hfrags, length_append, length_cons] at hR
      exact eq_nil_of_length_eq_zero (by omega)
    have hadv : c.advanceToNextFragmentIfComplete = c := by
      obtain ⟨ptr, later', exits, regions⟩ := c
      rw [hnil] at hlater
      cases hlater
      rfl
    rw [NotStale, hadv]
    exact id
  · intro r hmem
    rw [hr] at hmem
    obtain ⟨R', hR', rfl⟩ := mem_map.1 hmem
    have := hrest R' hR'
    rw [Uncut] at this
    exact .inr (by simp [CutRegion.split, this])

lemma Refines.loopOk (n : Nat) : LoopOk n c := by
  induction n generalizing c p with
  | zero => trivial
  | succ n ih =>
    obtain ⟨hn, hst, hcut⟩ := h.uncut
    refine ⟨hn, hst, .of_ok fun c' hc' => ?_⟩
    have hbar := h.regionBarrier hcut
    rw [hc'] at hbar
    obtain ⟨p', -, hr⟩ := hbar.ok_left
    exact .inr (ih hr)

lemma Refines.opOk (op : ThreadOp) : OpOk table c op := by
  obtain ⟨hn, hst, hcut⟩ := h.uncut
  have hnext : ∀ ctx c', c.mustExist table ctx = .ok c' → NoInputNext c' ∧ NotStale c' := by
    intro ctx c' hc'
    have hrel : Outcome.Rel (Refines Uncut t) _ (p.mustExist table ctx) := h.mustExist hn
    rw [hc'] at hrel
    obtain ⟨p', -, hr⟩ := hrel.ok_left
    exact ⟨hr.uncut.1, hr.uncut.2.1⟩
  cases op with
  | sync ctx => exact hn
  | sleepSync ctx | skipRegionBarriers => exact ⟨hcut, h.loopOk _⟩
  | input ctx => trivial
  | regionMarker ctx =>
    exact ⟨hn, hcut, .of_ok fun c' hc' => (hnext ctx c' hc').1⟩
  | exit ctx =>
    exact ⟨hn, .of_ok fun c' hc' => hnext ctx c' hc'⟩

lemma Refines.opsOk (ops : List ThreadOp) : OpsOk table c ops := by
  induction ops generalizing c p with
  | nil => trivial
  | cons op ops ih =>
    refine ⟨h.opOk op, .of_ok fun c' hc' => ?_⟩
    have hrel : Outcome.Rel (Refines Uncut t) (c.step table op) _ := h.step (h.opOk op)
    rw [hc'] at hrel
    obtain ⟨p', -, hr⟩ := hrel.ok_left
    exact ih hr

end

lemma uncut_whole (R : CutRegion) : Uncut R.whole := rfl

/-- When every operation of a run on the split schedule meets the condition, the same run on
the schedule in one piece ends in the same way. -/
theorem same_outcome_of_ok (table : Nat → Nat) (t : Nat) (R : CutRegion) (rest : List CutRegion)
    (ops : List ThreadOp)
    (h : OpsOk table (start (R.split t) (rest.map (CutRegion.split t))) ops) :
    let split := run table (start (R.split t) (rest.map (CutRegion.split t))) ops
    let unsplit := run table (start (R.unsplit t) (rest.map (CutRegion.unsplit t))) ops
    (split = .fails ↔ unsplit = .fails) ∧ (split = .waits ↔ unsplit = .waits) := by
  have hsplit := (refines_start t trivial fun _ _ => trivial).run h
  have hstart : Refines Uncut t (start (R.unsplit t) (rest.map (CutRegion.unsplit t)))
      (.start (R.plan t) (rest.map (CutRegion.plan t))) := by
    have hrest : ∀ r, r ∈ rest.map .whole → Uncut r := by
      intro r hr
      obtain ⟨r', -, rfl⟩ := mem_map.1 hr
      exact uncut_whole r'
    have hwhole := refines_start t (uncut_whole R) hrest
    rw [map_map, map_map] at hwhole
    exact hwhole
  have hunsplit := hstart.run (hstart.opsOk ops : OpsOk table _ ops)
  obtain ⟨h1, h2⟩ := hsplit.fails_iff
  obtain ⟨h3, h4⟩ := hunsplit.fails_iff
  exact ⟨h1.trans h3.symm, h2.trans h4.symm⟩

/-! ## A region that is cut after an input -/

def exitGraph : HBGraph :=
  let g := HBGraph.empty
  let g := (g.addNode 1 ⟨1, false⟩ none 0).2
  let g := (g.addNode 2 ⟨2, false⟩ (some 7) 0).2
  (g.addNode 2 ⟨3, false⟩ none 2).2

def inputTables : Tables := { RtState.plainTables with usedArrays := fun obj => obj == 7 }

/-- The cut is after the input, which gets the id 1. -/
def exitRegion : CutRegion where
  cut :=
    { graph := exitGraph
      tab := inputTables
      frags := [{ wholeFragment exitGraph with lastNodeId := 2, inputIds := fun _ => some 1 },
        { wholeFragment exitGraph with firstNodeId := 3 }]
      callctxTable := id
      orders := HBGraph.ordersOk_empty.addNode.addNode.addNode
      split := ⟨rfl, rfl, by decide, by decide, rfl, rfl, by decide, rfl⟩
      dumps := by
        intro frag hf t
        apply dumpThreadSchedule_isSome
        revert frag
        decide }
  exitsProgram := false
  inputIds_pos := by
    intro frag hf obj id hid
    rcases mem_pair.1 hf with rfl | rfl
    · cases hid
      decide
    · cases hid
  wholeDumps := by decide

/-- Thread 2 reads the kept input, takes its node across the cut and waits at the barrier. -/
theorem same_outcome_of_ok_reader :
    run id (start (exitRegion.split 2) []) [.input 3, .sync 4, .skipRegionBarriers] = .waits ∧
    run id (start (exitRegion.unsplit 2) []) [.input 3, .sync 4, .skipRegionBarriers] = .waits := by
  have hsplit : run id (start (exitRegion.split 2) [])
      [.input 3, .sync 4, .skipRegionBarriers] = .waits := by decide
  exact ⟨hsplit, (same_outcome_of_ok id 2 exitRegion [] _ (by decide)).2.1 hsplit⟩

/-- Thread 1 is at the end of the first fragment when it exits: the assertion that its
schedule is complete fails on the split schedule only. -/
theorem exit_fails_when_split :
    run id (start (exitRegion.split 1) []) [.exit 2] = .fails ∧
    run id (start (exitRegion.unsplit 1) []) [.exit 2] ≠ .fails := by
  decide

end Cursor

end InputCovSched
