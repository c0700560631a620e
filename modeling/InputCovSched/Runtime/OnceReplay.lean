import InputCovSched.Lib.Machine
import Mathlib.Data.List.Basic

/-!
# `pthread_once`, recorded and replayed (`runtime/POSIX/threads.c`, `ConstrainedExec/lib.cpp`)

The symbolic model runs the init routine and then makes the node of the call; the runtime takes
the node of the call first and then runs the routine. A node carries the stack of call
instructions in which it was made, without the frames of model functions, and the runtime takes
the next node of the thread only in the same stack. So no lookup ever fails if and only if no
thread makes a node inside an init routine (`once_replay_iff`).

An operation that records more than one node counts as several.
-/

namespace InputCovSched

open Machine Function List

abbrev CallStack := List Nat

/-- What a thread does, in order. An operation is called by the instruction `site`, in functions
that were entered through `via`. -/
inductive OnceOp where
  | sync (site : Nat) (via : List Nat)
  | once (site : Nat) (via : List Nat) (control : Nat) (init : List OnceOp)

def OnceOp.callctx (ctx : CallStack) : OnceOp → CallStack
  | sync site via => site :: (via ++ ctx)
  | once site via _ _ => site :: (via ++ ctx)

lemma OnceOp.lt_length_callctx (ctx : CallStack) (o : OnceOp) :
    ctx.length < (o.callctx ctx).length := by
  cases o <;> simp only [callctx, length_cons, length_append] <;> omega

/-- An edge comes from a thread and a timestamp: its first node has timestamp 1. -/
structure OnceNode where
  callctx : CallStack
  incoming : List (Nat × Nat)
  deriving DecidableEq

/-! ## The symbolic model -/

/-- `*once_control`: 0, -1 or the id of the completion node. -/
inductive OnceControl where
  | fresh
  | running
  | done (node : Nat × Nat)

/-- `complete` is the end of a call that runs the init routine. -/
inductive OnceTask where
  | op (ctx : CallStack) (o : OnceOp)
  | complete (here : CallStack) (control : Nat)

def OnceTask.callctx : OnceTask → CallStack
  | op ctx o => o.callctx ctx
  | complete here _ => here

def OnceTask.isComplete : OnceTask → Bool
  | complete _ _ => true
  | op _ _ => false

structure OnceModel where
  control : Nat → OnceControl
  nodes : Nat → List OnceNode
  todo : Nat → List OnceTask

namespace OnceModel

def initial (progs : Nat → List OnceOp) : OnceModel where
  control _ := .fresh
  nodes _ := []
  todo t := (progs t).map (.op [])

section
variable (s : OnceModel)

def makeHbnode (t : Nat) (ctx : CallStack) (incoming : List (Nat × Nat))
    (rest : List OnceTask) : OnceModel :=
  { s with
    nodes := update s.nodes t (s.nodes t ++ [⟨ctx, incoming⟩])
    todo := update s.todo t rest }

def hasNode (e : Nat × Nat) : Bool := decide (e.2 ≤ (s.nodes e.1).length)

/-- One step of a thread; `none` while it waits for a routine that another call runs. A label
gives the edges that the thread's operation records, if it is not a `pthread_once`. -/
def step (l : Nat × List (Nat × Nat)) : Option OnceModel :=
  match s.todo l.1 with
  | [] => none
  | .op ctx (.sync site via) :: rest =>
    some (s.makeHbnode l.1 (site :: (via ++ ctx)) (l.2.filter s.hasNode) rest)
  | .op ctx (.once site via c init) :: rest =>
    match s.control c with
    | .fresh =>
      some { s with
        control := update s.control c .running
        todo := update s.todo l.1
          (init.map (.op (site :: (via ++ ctx))) ++ .complete (site :: (via ++ ctx)) c :: rest) }
    | .running => none
    | .done n => some (s.makeHbnode l.1 (site :: (via ++ ctx)) [n] rest)
  | .complete here c :: rest =>
    some { s.makeHbnode l.1 here [] rest with
      control := update s.control c (.done (l.1, (s.nodes l.1).length + 1)) }

def starts : OnceTask → Bool
  | .op _ (.once _ _ c _) =>
    match s.control c with
    | .fresh => true
    | _ => false
  | _ => false

def recordsInside (t : Nat) : Bool :=
  match s.todo t with
  | [] => false
  | task :: rest => rest.any OnceTask.isComplete && !s.starts task

end

end OnceModel

/-! ## The runtime -/

/-- `check` looks at `*onceControl`, `setDone` sets it to 1. -/
inductive OnceRunTask where
  | op (ctx : CallStack) (o : OnceOp)
  | check (here : CallStack) (control : Nat) (init : List OnceOp)
  | setDone (control : Nat)
  | advanceHbNode

/-- `left` are the nodes that a thread has not taken yet, `clock` counts those it has advanced.
`failed`: a lookup has failed and the process was aborted. -/
structure OnceRun where
  control : Nat → Bool
  clock : Nat → Nat
  left : Nat → List OnceNode
  todo : Nat → List OnceRunTask
  failed : Bool

/-- What follows the lookup of a call. -/
def OnceOp.body (here : CallStack) : OnceOp → List OnceRunTask
  | sync _ _ => [.advanceHbNode]
  | once _ _ c init => [.check here c init, .advanceHbNode]

namespace OnceRun

def setTodo (r : OnceRun) (t : Nat) (rest : List OnceRunTask) : OnceRun :=
  { r with todo := update r.todo t rest }

/-- `none` while an edge is not satisfied, and at the end of what was recorded. -/
def waitForHbNodeMustExist (r : OnceRun) (t : Nat) (here : CallStack) (rest : List OnceRunTask) :
    Option OnceRun :=
  match r.left t with
  | [] => none
  | n :: left =>
    if n.callctx = here then
      if n.incoming.all fun e => decide (e.2 ≤ r.clock e.1) then
        some { r.setTodo t rest with left := update r.left t left }
      else none
    else some { r with failed := true }

def step (r : OnceRun) (t : Nat) : Option OnceRun :=
  if r.failed then none
  else
    match r.todo t with
    | [] => none
    | .op ctx o :: rest =>
      r.waitForHbNodeMustExist t (o.callctx ctx) (o.body (o.callctx ctx) ++ rest)
    | .check here c init :: rest =>
      if r.control c then some (r.setTodo t rest)
      else some (r.setTodo t (init.map (.op here) ++ .setDone c :: rest))
    | .setDone c :: rest =>
      some { r.setTodo t rest with control := update r.control c true }
    | .advanceHbNode :: rest =>
      some { r.setTodo t rest with clock := update r.clock t (r.clock t + 1) }

def initial (progs : Nat → List OnceOp) (nodes : Nat → List OnceNode) : OnceRun where
  control _ := false
  clock _ := 0
  left := nodes
  todo t := (progs t).map (.op [])
  failed := false

end OnceRun

open OnceModel

/-! ## What is recorded -/

attribute [local simp] OnceModel.makeHbnode

section
variable {progs : Nat → List OnceOp} {prog init : List OnceOp} {k site c : Nat} {s s' : OnceModel}
  {l : Nat × List (Nat × Nat)} {ctx : CallStack} {via : List Nat}

/-- A step, by the task that it does. -/
inductive OnceModel.Does (s : OnceModel) (l : Nat × List (Nat × Nat)) : OnceModel → Prop
  | start {ctx site via c init rest} (htodo : s.todo l.1 = .op ctx (.once site via c init) :: rest)
      (hc : s.control c = .fresh) : s.Does l { s with
        control := update s.control c .running
        todo := update s.todo l.1
          (init.map (.op (site :: (via ++ ctx))) ++ .complete (site :: (via ++ ctx)) c :: rest) }
  | sync {ctx site via rest} (htodo : s.todo l.1 = .op ctx (.sync site via) :: rest) :
      s.Does l (s.makeHbnode l.1 (site :: (via ++ ctx)) (l.2.filter s.hasNode) rest)
  | again {ctx site via c init n rest} (htodo : s.todo l.1 = .op ctx (.once site via c init) :: rest)
      (hc : s.control c = .done n) : s.Does l (s.makeHbnode l.1 (site :: (via ++ ctx)) [n] rest)
  | complete {here c rest} (htodo : s.todo l.1 = .complete here c :: rest) :
      s.Does l { s.makeHbnode l.1 here [] rest with
        control := update s.control c (.done (l.1, (s.nodes l.1).length + 1)) }

lemma OnceModel.does_of_step (h : s.step l = some s') : s.Does l s' := by
  unfold step at h
  split at h
  · cases h
  · cases h
    exact .sync ‹_›
  · split at h
    · cases h
      exact .start ‹_› ‹_›
    · cases h
    · cases h
      exact .again ‹_› ‹_›
  · cases h
    exact .complete ‹_›

lemma OnceModel.starts_of_fresh (h : s.control c = .fresh) :
    s.starts (.op ctx (.once site via c init)) = true := by
  simp only [starts, h]

/-- What a thread has left when it has made `k` nodes, none of them inside a routine: the rest of
its program, or first a call that has begun. Whatever is still to do inside has a longer stack
than the call. -/
inductive OnceModel.Shape (prog : List OnceOp) (k : Nat) : List OnceTask → Prop
  | idle : Shape prog k ((prog.drop k).map (.op []))
  | inside {site c : Nat} {via : List Nat} {init : List OnceOp} {tasks : List OnceTask}
      (hop : prog[k]? = some (.once site via c init)) (hinit : tasks = [] → init = [])
      (hlong : ∀ task ∈ tasks, (site :: (via ++ [])).length < task.callctx.length) :
      Shape prog k (tasks ++ .complete (site :: (via ++ [])) c :: (prog.drop (k + 1)).map (.op []))

lemma OnceModel.Shape.cons_cases (h : Shape prog k (task :: rest)) :
    (∃ op, prog[k]? = some op ∧ task = .op [] op ∧ rest = (prog.drop (k + 1)).map (.op [])) ∨
    (∃ site via c, prog[k]? = some (.once site via c []) ∧
      task = .complete (site :: (via ++ [])) c ∧ rest = (prog.drop (k + 1)).map (.op [])) ∨
    (∃ site via c init tasks, prog[k]? = some (.once site via c init) ∧
      (∀ τ ∈ task :: tasks, (site :: (via ++ [])).length < τ.callctx.length) ∧
      rest = tasks ++ .complete (site :: (via ++ [])) c :: (prog.drop (k + 1)).map (.op [])) := by
  generalize htodo : task :: rest = todo at h
  cases h with
  | idle =>
    refine .inl ?_
    cases hk : prog[k]? with
    | none =>
      rw [drop_eq_nil_of_le (List.getElem?_eq_none_iff.1 hk)] at htodo
      cases htodo
    | some op =>
      obtain ⟨hlt, hget⟩ := List.getElem?_eq_some_iff.1 hk
      rw [drop_eq_getElem_cons hlt, hget, map_cons] at htodo
      cases htodo
      exact ⟨op, rfl, rfl, rfl⟩
  | @inside site c via init tasks hop hinit hlong =>
    cases tasks with
    | nil =>
      rw [hinit rfl] at hop
      cases htodo
      exact .inr (.inl ⟨site, via, c, hop, rfl, rfl⟩)
    | cons τ tasks =>
      cases htodo
      exact .inr (.inr ⟨site, via, c, init, tasks, hop, hlong, rfl⟩)

def Completes (progs : Nat → List OnceOp) (e : Nat × Nat) (c : Nat) : Prop :=
  0 < e.2 ∧ ∃ site via init, (progs e.1)[e.2 - 1]? = some (.once site via c init)

structure OnceNode.Fits (progs : Nat → List OnceOp) (op : OnceOp) (n : OnceNode) : Prop where
  callctx : n.callctx = op.callctx []
  once : ∀ site via c init, op = .once site via c init →
    init = [] ∨ ∃ e ∈ n.incoming, Completes progs e c

def AllFit (progs : Nat → List OnceOp) (nodes : Nat → List OnceNode) : Prop :=
  ∀ (t i : Nat) (n : OnceNode), (nodes t)[i]? = some n →
    ∃ op, (progs t)[i]? = some op ∧ n.Fits progs op

structure OnceModel.Inv (progs : Nat → List OnceOp) (s : OnceModel) : Prop where
  shape : ∀ t, Shape (progs t) (s.nodes t).length (s.todo t)
  allFit : AllFit progs s.nodes
  done : ∀ c n, s.control c = .done n → Completes progs n c ∧ n.2 ≤ (s.nodes n.1).length

lemma OnceModel.inv_initial (progs : Nat → List OnceOp) : (initial progs).Inv progs where
  shape t := .idle
  allFit t i n h := by simp [initial] at h
  done c n h := by simp [initial] at h

lemma OnceModel.length_makeHbnode (s : OnceModel) (t u : Nat) (ctx : CallStack)
    (incoming : List (Nat × Nat)) (rest : List OnceTask) :
    (s.nodes u).length ≤ ((s.makeHbnode t ctx incoming rest).nodes u).length := by
  unfold makeHbnode
  by_cases h : u = t
  · subst h
    simp
  · simp [h]

lemma OnceModel.Inv.makeHbnode {incoming : List (Nat × Nat)}
    (hs : s.Inv progs) (hop : (progs t)[(s.nodes t).length]? = some op)
    (hfits : OnceNode.Fits progs op ⟨op.callctx [], incoming⟩) :
    (s.makeHbnode t (op.callctx []) incoming
      (((progs t).drop ((s.nodes t).length + 1)).map (.op []))).Inv progs where
  shape u := by
    by_cases hu : u = t
    · subst hu
      have hidle : Shape (progs u) ((s.nodes u).length + 1) _ := .idle
      simpa [OnceModel.makeHbnode] using hidle
    · simpa [OnceModel.makeHbnode, hu] using hs.shape u
  allFit u i n hn := by
    by_cases hu : u = t
    · subst hu
      simp only [OnceModel.makeHbnode, update_self] at hn
      rcases Nat.lt_trichotomy i (s.nodes u).length with hi | hi | hi
      · rw [List.getElem?_append_left hi] at hn
        exact hs.allFit u i n hn
      · subst hi
        rw [List.getElem?_concat_length] at hn
        cases hn
        exact ⟨op, hop, hfits⟩
      · rw [List.getElem?_eq_none (by rw [length_append, length_singleton]; omega)] at hn
        cases hn
    · simp only [OnceModel.makeHbnode, update_of_ne hu] at hn
      exact hs.allFit u i n hn
  done c n hc := by
    obtain ⟨hcomp, hle⟩ := hs.done c n hc
    exact ⟨hcomp, Nat.le_trans hle (length_makeHbnode s t n.1 _ _ _)⟩

lemma OnceModel.Shape.start (h : Shape prog k (.op ctx (.once site via c init) :: rest)) :
    Shape prog k (init.map (.op (site :: (via ++ ctx))) ++
      .complete (site :: (via ++ ctx)) c :: rest) := by
  have hinner : ∀ task ∈ init.map (OnceTask.op (site :: (via ++ ctx))),
      (site :: (via ++ ctx)).length < task.callctx.length := by
    intro task htask
    obtain ⟨o, -, rfl⟩ := mem_map.1 htask
    exact o.lt_length_callctx _
  rcases h.cons_cases with ⟨op, hop, htask, rfl⟩ | ⟨_, _, _, _, htask, _⟩ |
    ⟨site', via', c', init', tasks, hop, hlong, rfl⟩
  · cases htask
    exact .inside hop (fun hnil => map_eq_nil_iff.1 hnil) hinner
  · cases htask
  · have hhead := hlong _ mem_cons_self
    have hall : ∀ task ∈ init.map (.op (site :: (via ++ ctx))) ++
        .complete (site :: (via ++ ctx)) c :: tasks,
        (site' :: (via' ++ [])).length < task.callctx.length := by
      intro task htask
      simp only [mem_append, mem_cons] at htask
      rcases htask with htask | rfl | htask
      · exact Nat.lt_trans hhead (hinner task htask)
      · exact hhead
      · exact hlong task (mem_cons_of_mem _ htask)
    simpa using Shape.inside hop (fun hnil => by simp at hnil) hall

lemma OnceModel.Inv.next_of_not_inside (hs : s.Inv progs)
    (htodo : s.todo t = task :: rest) (hstarts : s.starts task = false)
    (hout : s.recordsInside t = false) :
    ∃ op, (progs t)[(s.nodes t).length]? = some op ∧
      rest = ((progs t).drop ((s.nodes t).length + 1)).map (.op []) ∧
      (task = .op [] op ∨ ∃ site via c, op = .once site via c [] ∧ task = .complete (op.callctx []) c) := by
  have hshape := hs.shape t
  rw [htodo] at hshape
  rcases hshape.cons_cases with ⟨op, hop, htask, hrest⟩ | ⟨site, via, c, hop, htask, hrest⟩ |
    ⟨site, via, c, init, tasks, hop, hlong, hrest⟩
  · exact ⟨op, hop, hrest, .inl htask⟩
  · exact ⟨_, hop, hrest, .inr ⟨site, via, c, rfl, htask⟩⟩
  · -- the end of the call around it is still to come
    simp [recordsInside, htodo, hstarts, hrest, OnceTask.isComplete] at hout

lemma OnceModel.Inv.step (hs : s.Inv progs) (hout : s.recordsInside l.1 = false)
    (h : s.step l = some s') : s'.Inv progs := by
  cases does_of_step h with
  | @start _ _ _ c _ _ htodo hc =>
    refine ⟨?_, hs.allFit, ?_⟩
    · intro t
      by_cases ht : t = l.1
      · subst ht
        have := hs.shape l.1
        rw [htodo] at this
        simpa using this.start
      · simpa [ht] using hs.shape t
    · intro c' n' hc'
      by_cases hcc : c' = c
      · subst hcc
        simp at hc'
      · simp only [update_of_ne hcc] at hc'
        exact hs.done c' n' hc'
  | sync htodo =>
    obtain ⟨op, hop, rfl, htask | ⟨_, _, _, _, htask⟩⟩ := hs.next_of_not_inside htodo rfl hout
    · cases htask
      exact hs.makeHbnode hop ⟨rfl, nofun⟩
    · cases htask
  | @again ctx site via c init n _ htodo hc =>
    have hstarts : s.starts (.op ctx (.once site via c init)) = false := by
      simp only [starts, hc]
    obtain ⟨op, hop, rfl, htask | ⟨_, _, _, _, htask⟩⟩ := hs.next_of_not_inside htodo hstarts hout
    · cases htask
      refine hs.makeHbnode hop ⟨rfl, ?_⟩
      rintro _ _ _ _ ⟨⟩
      exact .inr ⟨n, mem_singleton.2 rfl, (hs.done c n hc).1⟩
    · cases htask
  | @complete here c rest htodo =>
    obtain ⟨op, hop, rfl, htask | ⟨site, via, c', rfl, htask⟩⟩ := hs.next_of_not_inside htodo rfl hout
    · cases htask
    cases htask
    have hinv : (s.makeHbnode l.1 _ [] _).Inv progs := hs.makeHbnode hop ⟨rfl, by
      rintro _ _ _ _ ⟨⟩
      exact .inl rfl⟩
    refine ⟨hinv.shape, hinv.allFit, ?_⟩
    intro c' n' hc'
    by_cases hcc : c' = c
    · subst hcc
      simp only [update_self, OnceControl.done.injEq] at hc'
      subst hc'
      refine ⟨⟨Nat.succ_pos _, site, via, [], ?_⟩, ?_⟩
      · simpa using hop
      · simp
    · simp only [update_of_ne hcc] at hc'
      exact hinv.done c' n' hc'

lemma OnceModel.nodes_prefix_of_step (h : s.step l = some s') (t : Nat) :
    s.nodes t <+: s'.nodes t := by
  have hmake : ∀ ctx incoming rest, s.nodes t <+: (s.makeHbnode l.1 ctx incoming rest).nodes t := by
    intro ctx incoming rest
    unfold makeHbnode
    by_cases ht : t = l.1
    · subst ht
      simp
    · simp [ht]
  cases does_of_step h with
  | start htodo hc => exact prefix_rfl
  | sync htodo => exact hmake _ _ _
  | again htodo hc => exact hmake _ _ _
  | @complete here c rest htodo => exact hmake here [] rest

lemma OnceModel.nodes_prefix_of_run
    (h : runFrom step s ls = some s') (t : Nat) : s.nodes t <+: s'.nodes t :=
  inv_of_run step (I := fun s' => s.nodes t <+: s'.nodes t)
    (fun _ _ _ hI hstep => hI.trans (nodes_prefix_of_step hstep t)) prefix_rfl h

lemma OnceModel.Inv.longer_of_inside (hs : s.Inv progs) (hin : s.recordsInside l.1 = true)
    (h : s.step l = some s') :
    ∃ op n, (progs l.1)[(s.nodes l.1).length]? = some op ∧
      (s'.nodes l.1)[(s.nodes l.1).length]? = some n ∧ n.callctx ≠ op.callctx [] := by
  have hlonger : ∀ task rest, s.todo l.1 = task :: rest → ∃ op,
      (progs l.1)[(s.nodes l.1).length]? = some op ∧ (op.callctx []).length < task.callctx.length := by
    intro task rest htodo
    have hshape := hs.shape l.1
    have hany : rest.any OnceTask.isComplete = true := by
      simp only [recordsInside, htodo, Bool.and_eq_true] at hin
      exact hin.1
    rw [htodo] at hshape
    have hmap : ∀ ops : List OnceOp,
        (ops.map (.op [])).any OnceTask.isComplete = false := by
      intro ops
      simp [OnceTask.isComplete]
    rcases hshape.cons_cases with ⟨op, hop, htask, hrest⟩ | ⟨site, via, c, hop, htask, hrest⟩ |
      ⟨site, via, c, init, tasks, hop, hlong, hrest⟩
    · rw [hrest, hmap] at hany
      cases hany
    · rw [hrest, hmap] at hany
      cases hany
    · exact ⟨_, hop, hlong task mem_cons_self⟩
  have hmade : ∀ task rest incoming rest', s.todo l.1 = task :: rest →
      (s'.nodes l.1) = (s.makeHbnode l.1 task.callctx incoming rest').nodes l.1 →
      ∃ op n, (progs l.1)[(s.nodes l.1).length]? = some op ∧
        (s'.nodes l.1)[(s.nodes l.1).length]? = some n ∧ n.callctx ≠ op.callctx [] := by
    intro task rest incoming rest' htodo hnodes
    obtain ⟨op, hop, hlt⟩ := hlonger task rest htodo
    refine ⟨op, ⟨task.callctx, incoming⟩, hop, ?_, ?_⟩
    · rw [hnodes]
      simp
    · intro heq
      dsimp only at heq
      rw [heq] at hlt
      exact Nat.lt_irrefl _ hlt
  cases does_of_step h with
  | start htodo hc => simp [recordsInside, htodo, starts_of_fresh hc] at hin
  | sync htodo | again htodo hc => exact hmade _ _ _ _ htodo rfl
  | @complete _ _ rest htodo => exact hmade _ _ _ rest htodo rfl

end

/-! ## Every replay of nodes that fit -/

attribute [local simp] OnceRun.setTodo

section
variable {progs : Nat → List OnceOp} {nodes : Nat → List OnceNode} {prog : List OnceOp}
  {recorded left : List OnceNode} {control : Nat → Bool} {k t : Nat} {todo : List OnceRunTask}
  {r : OnceRun}

/-- A thread that has advanced `k` nodes is at the operation number `k`. -/
inductive OnceRun.Shape (prog : List OnceOp) (recorded : List OnceNode) (control : Nat → Bool)
    (k : Nat) : List OnceNode → List OnceRunTask → Prop
  | idle : Shape prog recorded control k (recorded.drop k) ((prog.drop k).map (.op []))
  | check {site c : Nat} {via : List Nat} {init : List OnceOp} {here : CallStack}
      (hop : prog[k]? = some (.once site via c init)) (hinit : init = [] ∨ control c = true) :
      Shape prog recorded control k (recorded.drop (k + 1))
        (.check here c init :: .advanceHbNode :: (prog.drop (k + 1)).map (.op []))
  | setDone {site c : Nat} {via : List Nat} {init : List OnceOp}
      (hop : prog[k]? = some (.once site via c init)) :
      Shape prog recorded control k (recorded.drop (k + 1))
        (.setDone c :: .advanceHbNode :: (prog.drop (k + 1)).map (.op []))
  | advance (hdone : ∀ site via c init, prog[k]? = some (.once site via c init) → control c = true) :
      Shape prog recorded control k (recorded.drop (k + 1))
        (.advanceHbNode :: (prog.drop (k + 1)).map (.op []))

lemma OnceRun.Shape.mono (hmono : ∀ c, control c = true → control' c = true)
    (h : Shape prog recorded control k left todo) : Shape prog recorded control' k left todo := by
  cases h with
  | idle => exact .idle
  | check hop hinit => exact .check hop (hinit.imp_right (hmono _))
  | setDone hop => exact .setDone hop
  | advance hdone => exact .advance fun site via c init hop => hmono c (hdone site via c init hop)

structure OnceRun.Inv (progs : Nat → List OnceOp) (nodes : Nat → List OnceNode) (r : OnceRun) :
    Prop where
  shape : ∀ t, Shape (progs t) (nodes t) r.control (r.clock t) (r.left t) (r.todo t)
  done : ∀ e c, Completes progs e c → e.2 ≤ r.clock e.1 → r.control c = true
  failed : r.failed = false

lemma OnceRun.inv_initial (progs : Nat → List OnceOp) (nodes : Nat → List OnceNode) :
    (initial progs nodes).Inv progs nodes where
  shape t := .idle
  done e c h hle := by
    have := h.1
    simp only [initial] at hle
    omega
  failed := rfl

lemma OnceRun.Inv.lookup (hr : r.Inv progs nodes) (hfit : AllFit progs nodes)
    (hop : (progs t)[r.clock t]? = some op) (hleft : r.left t = (nodes t).drop (r.clock t))
    (h : r.waitForHbNodeMustExist t (op.callctx []) (op.body (op.callctx []) ++
      ((progs t).drop (r.clock t + 1)).map (.op [])) = some r') : r'.Inv progs nodes := by
  unfold waitForHbNodeMustExist at h
  cases hn : (nodes t)[r.clock t]? with
  | none =>
    rw [hleft, drop_eq_nil_of_le (List.getElem?_eq_none_iff.1 hn)] at h
    cases h
  | some n =>
    obtain ⟨hlt, hget⟩ := List.getElem?_eq_some_iff.1 hn
    obtain ⟨op', hop', hfits⟩ := hfit t _ n hn
    obtain rfl : op = op' := Option.some.inj (hop.symm.trans hop')
    rw [hleft, drop_eq_getElem_cons hlt, hget] at h
    simp only [hfits.callctx, if_true] at h
    split at h
    · rename_i hedges
      cases h
      refine ⟨fun u => ?_, hr.done, hr.failed⟩
      by_cases hu : u = t
      · subst hu
        simp only [setTodo, update_self]
        cases op with
        | sync site via =>
          exact .advance fun _ _ _ _ hop' => by simp [hop] at hop'
        | once site via c init =>
          refine .check hop ?_
          rcases hfits.once site via c init rfl with hnil | ⟨e, he, hcomp⟩
          · exact .inl hnil
          · refine .inr (hr.done e c hcomp ?_)
            simpa using all_eq_true.1 hedges e he
      · simpa [setTodo, hu] using hr.shape u
    · cases h

lemma OnceRun.Inv.setTodo (hr : r.Inv progs nodes) (hmono : ∀ c, r.control c = true → control c = true)
    {rest : List OnceRunTask}
    (hshape : Shape (progs t) (nodes t) control (r.clock t) (r.left t) rest) :
    ({ r.setTodo t rest with control := control } : OnceRun).Inv progs nodes where
  shape u := by
    by_cases hu : u = t
    · subst hu
      simpa [OnceRun.setTodo] using hshape
    · simpa [OnceRun.setTodo, hu] using (hr.shape u).mono hmono
  done e c hcomp hle := hmono c (hr.done e c hcomp hle)
  failed := hr.failed

lemma OnceRun.Inv.step (hr : r.Inv progs nodes) (hfit : AllFit progs nodes)
    (h : r.step t = some r') : r'.Inv progs nodes := by
  unfold OnceRun.step at h
  rw [hr.failed] at h
  have hshape := hr.shape t
  generalize htodo : r.todo t = todo at h hshape
  generalize hleft : r.left t = left at hshape
  cases hshape with
  | idle =>
    cases hop : (progs t)[r.clock t]? with
    | none =>
      rw [drop_eq_nil_of_le (List.getElem?_eq_none_iff.1 hop)] at h
      cases h
    | some op =>
      obtain ⟨hlt, hget⟩ := List.getElem?_eq_some_iff.1 hop
      rw [drop_eq_getElem_cons hlt, hget] at h
      exact hr.lookup hfit hop hleft h
  | @check site c via init here hop hinit =>
    simp only [Bool.false_eq_true, if_false] at h
    split at h
    · rename_i hc
      cases h
      refine hr.setTodo (fun _ hc => hc) ?_
      rw [hleft]
      refine .advance fun _ _ _ _ hop' => ?_
      rw [hop] at hop'
      cases hop'
      exact hc
    · rename_i hc
      cases h
      rcases hinit with rfl | htrue
      · refine hr.setTodo (fun _ hc => hc) ?_
        rw [hleft]
        exact .setDone hop
      · exact absurd htrue hc
  | @setDone site c via init hop =>
    cases h
    refine hr.setTodo (fun c' hc' => ?_) ?_
    · by_cases hcc : c' = c
      · rw [hcc, update_self]
      · rw [update_of_ne hcc]
        exact hc'
    · rw [hleft]
      refine .advance fun _ _ _ _ hop' => ?_
      rw [hop] at hop'
      cases hop'
      exact update_self ..
  | advance hdone =>
    cases h
    refine ⟨fun u => ?_, fun e c hcomp hle => ?_, hr.failed⟩
    · by_cases hu : u = t
      · subst hu
        simp only [OnceRun.setTodo, update_self, hleft]
        exact .idle
      · simpa [OnceRun.setTodo, hu] using hr.shape u
    by_cases he : e.1 = t
    · simp only [OnceRun.setTodo, he, update_self] at hle ⊢
      rcases Nat.lt_or_eq_of_le hle with hlt | heq
      · exact hr.done e c hcomp (by rw [he]; omega)
      -- the node that the thread advances now
      obtain ⟨-, site, via, init, hop⟩ := hcomp
      rw [he, heq] at hop
      exact hdone site via c init hop
    · simp only [update_of_ne he] at hle
      exact hr.done e c hcomp hle

lemma OnceRun.not_failed (hfit : AllFit progs nodes)
    (h : runFrom OnceRun.step (initial progs nodes) us = some r) : r.failed = false :=
  (inv_of_run OnceRun.step (I := fun r => r.Inv progs nodes)
    (fun _ _ _ hI hstep => hI.step hfit hstep) (inv_initial progs nodes) h).failed

/-! ## The replay in the recorded order -/

/-- All threads stand between two operations and have taken what was recorded up to state `s`. -/
structure OnceRun.Quiet (progs : Nat → List OnceOp) (nodes : Nat → List OnceNode) (s : OnceModel)
    (r : OnceRun) : Prop where
  clock : ∀ t, r.clock t = (s.nodes t).length
  left : ∀ t, r.left t = (nodes t).drop (s.nodes t).length
  todo : ∀ t, r.todo t = ((progs t).drop (s.nodes t).length).map (.op [])
  control : ∀ c n, s.control c = .done n → r.control c = true
  failed : r.failed = false

lemma OnceRun.replay_op {rest : List OnceRunTask} (hfailed : r.failed = false)
    (htodo : r.todo t = .op [] op :: rest) (hleft : r.left t = n :: left)
    (hctx : n.callctx = op.callctx []) (hedges : ∀ e ∈ n.incoming, e.2 ≤ r.clock e.1)
    (hinit : ∀ site via c init, op = .once site via c init → init = [] ∨ r.control c = true) :
    ∃ control, Reaches OnceRun.step r { r.setTodo t rest with
          control := control
          clock := update r.clock t (r.clock t + 1)
          left := update r.left t left } ∧
      (∀ c, r.control c = true → control c = true) ∧
      ∀ site via c init, op = .once site via c init → control c = true := by
  have hedges' : (n.incoming.all fun e => decide (e.2 ≤ r.clock e.1)) = true := by
    simpa using hedges
  have htake : r.step t = some { r.setTodo t (op.body (op.callctx []) ++ rest) with
      left := update r.left t left } := by
    simp [OnceRun.step, hfailed, htodo, waitForHbNodeMustExist, hleft, hctx, hedges']
  cases op with
  | sync site via =>
    refine ⟨r.control, ⟨[t, t], ?_⟩, fun _ h => h, ?_⟩
    · rw [runFrom, htake]
      simp [runFrom, OnceRun.step, OnceOp.body, hfailed]
    · rintro _ _ _ _ ⟨⟩
  | once site via c init =>
    by_cases hc : r.control c = true
    · refine ⟨r.control, ⟨[t, t, t], ?_⟩, fun _ h => h, ?_⟩
      · rw [runFrom, htake]
        simp [runFrom, OnceRun.step, OnceOp.body, hfailed, hc]
      · rintro _ _ _ _ ⟨⟩
        exact hc
    obtain rfl : init = [] := (hinit site via c init rfl).resolve_right hc
    refine ⟨update r.control c true, ⟨[t, t, t, t], ?_⟩, ?_, ?_⟩
    · rw [runFrom, htake]
      simp [runFrom, OnceRun.step, OnceOp.body, hfailed, hc]
    · intro c' hc'
      by_cases hcc : c' = c
      · rw [hcc, update_self]
      · rw [update_of_ne hcc]
        exact hc'
    · rintro _ _ _ _ ⟨⟩
      exact update_self ..

variable {s : OnceModel} {l : Nat × List (Nat × Nat)}

lemma OnceRun.Quiet.makeHbnode {incoming : List (Nat × Nat)} (hq : r.Quiet progs nodes s)
    (hop : (progs t)[(s.nodes t).length]? = some op)
    (hedges : ∀ e ∈ incoming, e.2 ≤ (s.nodes e.1).length)
    (hinit : ∀ site via c init, op = .once site via c init → init = [] ∨ r.control c = true)
    (hpre : (s.makeHbnode t (op.callctx []) incoming
      (((progs t).drop ((s.nodes t).length + 1)).map (.op []))).nodes t <+: nodes t) :
    ∃ r', Reaches OnceRun.step r r' ∧
      r'.Quiet progs nodes (s.makeHbnode t (op.callctx []) incoming
        (((progs t).drop ((s.nodes t).length + 1)).map (.op []))) ∧
      ∀ site via c init, op = .once site via c init → r'.control c = true := by
  obtain ⟨hlt, hget⟩ := List.getElem?_eq_some_iff.1 hop
  simp only [OnceModel.makeHbnode, update_self] at hpre
  obtain ⟨later, hlater⟩ := hpre
  have hdrop : (nodes t).drop (s.nodes t).length = ⟨op.callctx [], incoming⟩ :: later := by
    rw [← hlater, append_assoc, drop_left]
    rfl
  have hdrop' : (nodes t).drop ((s.nodes t).length + 1) = later := by
    rw [← drop_drop, hdrop]
    rfl
  have htodo : r.todo t = .op [] op :: ((progs t).drop ((s.nodes t).length + 1)).map (.op []) := by
    rw [hq.todo, drop_eq_getElem_cons hlt, hget, map_cons]
  obtain ⟨control, hreach, hmono, honce⟩ := replay_op hq.failed htodo ((hq.left t).trans hdrop) rfl
    (fun e he => by rw [hq.clock]; exact hedges e he) hinit
  refine ⟨_, hreach, ⟨?_, ?_, ?_, ?_, hq.failed⟩, honce⟩
  · intro u
    by_cases hu : u = t
    · subst hu
      simp [makeHbnode, hq.clock]
    · simp [hu, hq.clock]
  · intro u
    by_cases hu : u = t
    · subst hu
      simp [makeHbnode, hdrop']
    · simp [hu, hq.left]
  · intro u
    by_cases hu : u = t
    · subst hu
      simp [makeHbnode]
    · simp [hu, hq.todo]
  · exact fun c n hc => hmono c (hq.control c n hc)

/-- The replay follows a run that makes no node inside a routine. -/
lemma OnceRun.Quiet.step (hq : r.Quiet progs nodes s) (hs : s.Inv progs)
    (hout : s.recordsInside l.1 = false) (h : s.step l = some s')
    (hpre : ∀ t, s'.nodes t <+: nodes t) :
    ∃ r', Reaches OnceRun.step r r' ∧ r'.Quiet progs nodes s' := by
  cases does_of_step h with
  | @start _ _ _ c _ _ htodo hc =>
    refine ⟨r, .refl _ r, hq.clock, hq.left, hq.todo, fun c' n' hc' => ?_, hq.failed⟩
    by_cases hcc : c' = c
    · subst hcc
      simp at hc'
    · simp only [update_of_ne hcc] at hc'
      exact hq.control c' n' hc'
  | sync htodo =>
    obtain ⟨op, hop, rfl, htask | ⟨_, _, _, _, htask⟩⟩ := hs.next_of_not_inside htodo rfl hout
    · cases htask
      obtain ⟨r', hreach, hq', -⟩ := hq.makeHbnode hop (fun e he => by
        simpa [hasNode] using (mem_filter.1 he).2)
        nofun (hpre l.1)
      exact ⟨r', hreach, hq'⟩
    · cases htask
  | @again ctx site via c init n _ htodo hc =>
    have hstarts : s.starts (.op ctx (.once site via c init)) = false := by
      simp only [starts, hc]
    obtain ⟨op, hop, rfl, htask | ⟨_, _, _, _, htask⟩⟩ := hs.next_of_not_inside htodo hstarts hout
    · cases htask
      obtain ⟨r', hreach, hq', -⟩ := hq.makeHbnode hop (fun e he => by
        rw [mem_singleton.1 he]
        exact (hs.done c n hc).2)
        (by
          rintro _ _ _ _ ⟨⟩
          exact .inr (hq.control c n hc)) (hpre l.1)
      exact ⟨r', hreach, hq'⟩
    · cases htask
  | @complete here c rest htodo =>
    obtain ⟨op, hop, rfl, htask | ⟨site, via, c', rfl, htask⟩⟩ := hs.next_of_not_inside htodo rfl hout
    · cases htask
    cases htask
    obtain ⟨r', hreach, hq', honce⟩ := hq.makeHbnode hop (fun e he => by cases he) (by
        rintro _ _ _ _ ⟨⟩
        exact .inl rfl) (hpre l.1)
    refine ⟨r', hreach, hq'.clock, hq'.left, hq'.todo, fun c' n' hc' => ?_, hq'.failed⟩
    by_cases hcc : c' = c
    · subst hcc
      exact honce site via c' [] rfl
    · simp only [update_of_ne hcc] at hc'
      exact hq'.control c' n' hc'

/-- Behind such a run, a replay of at least its nodes has come to the same place. -/
lemma OnceRun.exists_quiet (hrun : runFrom OnceModel.step (.initial progs) ls = some s)
    (hmeets : Meets OnceModel.step (fun s l => s.recordsInside l.1 = false) (.initial progs) ls)
    (hpre : ∀ t, s.nodes t <+: nodes t) :
    ∃ r, Reaches OnceRun.step (initial progs nodes) r ∧ r.Quiet progs nodes s := by
  have hinv : s.Inv progs ∧ ((∀ t, s.nodes t <+: nodes t) →
      ∃ r, Reaches OnceRun.step (initial progs nodes) r ∧ r.Quiet progs nodes s) := by
    refine inv_of_meets OnceModel.step (I := fun s => s.Inv progs ∧ ((∀ t, s.nodes t <+: nodes t) →
      ∃ r, Reaches OnceRun.step (initial progs nodes) r ∧ r.Quiet progs nodes s)) ?_ ?_ hmeets hrun
    · rintro s l s' ⟨hs, hI⟩ hout hstep
      refine ⟨hs.step hout hstep, fun hpre => ?_⟩
      obtain ⟨r, hreach, hq⟩ := hI fun t => (OnceModel.nodes_prefix_of_step hstep t).trans (hpre t)
      obtain ⟨r', hreach', hq'⟩ := hq.step hs hout hstep hpre
      exact ⟨r', hreach.trans _ hreach', hq'⟩
    · refine ⟨OnceModel.inv_initial progs, fun _ => ⟨_, .refl _ _, ?_, ?_, ?_, ?_, rfl⟩⟩
      · exact fun t => rfl
      · exact fun t => rfl
      · exact fun t => rfl
      · intro c n hc
        simp [OnceModel.initial] at hc
  exact hinv.2 hpre

/-- **Result.** In every run of the model, with any number of threads: no replay of the recorded
nodes ever fails in a lookup if and only if no thread makes a node inside an init routine. -/
theorem once_replay_iff (progs : Nat → List OnceOp) (ls : List (Nat × List (Nat × Nat)))
    (s : OnceModel) (hrun : runFrom OnceModel.step (.initial progs) ls = some s) :
    (∀ us r, runFrom OnceRun.step (.initial progs s.nodes) us = some r → r.failed = false) ↔
      Meets OnceModel.step (fun s l => s.recordsInside l.1 = false) (.initial progs) ls := by
  constructor
  · intro hall
    by_contra hviol
    obtain ⟨ls₁, l, ls₂, s₁, s₂, rfl, hrun₁, hmeets, hin, hstep, hrun₂⟩ :=
      exists_first_violation OnceModel.step hrun hviol
    have hs₁ : s₁.Inv progs := inv_of_meets OnceModel.step (I := fun s => s.Inv progs)
      (fun _ _ _ hI hout hstep => hI.step hout hstep) (OnceModel.inv_initial progs) hmeets hrun₁
    have hpre₂ := OnceModel.nodes_prefix_of_run hrun₂
    obtain ⟨r, ⟨us, hus⟩, hq⟩ := OnceRun.exists_quiet hrun₁ hmeets
      fun t => (OnceModel.nodes_prefix_of_step hstep t).trans (hpre₂ t)
    obtain ⟨op, n, hop, hn, hne⟩ := hs₁.longer_of_inside (by simpa using hin) hstep
    -- the thread looks up the node of the call and finds the one of the routine
    have hn' : (s.nodes l.1)[(s₁.nodes l.1).length]? = some n := by
      obtain ⟨later, hlater⟩ := hpre₂ l.1
      rw [← hlater, List.getElem?_append_left (List.getElem?_eq_some_iff.1 hn).1, hn]
    obtain ⟨hlt, hget⟩ := List.getElem?_eq_some_iff.1 hop
    obtain ⟨hlt', hget'⟩ := List.getElem?_eq_some_iff.1 hn'
    have hfail : r.step l.1 = some { r with failed := true } := by
      unfold OnceRun.step
      rw [hq.failed, hq.todo, drop_eq_getElem_cons hlt, hget, map_cons]
      simp [OnceRun.waitForHbNodeMustExist, hq.left, drop_eq_getElem_cons hlt', hget', hne]
    obtain ⟨us', hus'⟩ : Reaches OnceRun.step (.initial progs s.nodes) { r with failed := true } :=
      .trans _ ⟨us, hus⟩ (.head _ hfail (.refl _ _))
    cases hall us' _ hus'
  · intro hmeets us r hr
    have hs : s.Inv progs := inv_of_meets OnceModel.step (I := fun s => s.Inv progs)
      (fun _ _ _ hI hout hstep => hI.step hout hstep) (OnceModel.inv_initial progs) hmeets hrun
    exact OnceRun.not_failed hs.allFit hr

def twoCallers (init : List OnceOp) (t : Nat) : List OnceOp :=
  if t < 2 then [.once t [] 0 init] else []

theorem once_replay_iff_two_callers :
    ∃ s, runFrom OnceModel.step (.initial (twoCallers [])) [(0, []), (0, []), (1, [])] = some s ∧
      ((∀ us r, runFrom OnceRun.step (.initial (twoCallers []) s.nodes) us = some r →
          r.failed = false) ↔
        Meets OnceModel.step (fun s l => s.recordsInside l.1 = false) (.initial (twoCallers []))
          [(0, []), (0, []), (1, [])]) :=
  ⟨_, rfl, once_replay_iff _ _ _ rfl⟩

/-- The routine locks a mutex, one node: the first lookup of the first caller fails. -/
theorem once_replay_sync_inside :
    ∃ s, runFrom OnceModel.step (.initial (twoCallers [.sync 7 []]))
        [(0, []), (0, []), (0, []), (1, [])] = some s ∧
      ∃ r, runFrom OnceRun.step (.initial (twoCallers [.sync 7 []]) s.nodes) [0] = some r ∧
        r.failed = true :=
  ⟨_, rfl, _, rfl, rfl⟩

end

end InputCovSched
