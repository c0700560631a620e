import InputCovSched.Symbolic.HBGraph
import InputCovSched.Lib.Count

/-!
# The klee primitives under the pthread models

The models of `runtime/POSIX/threadsync.c` run inside the symbolic engine, one thread at
a time. Control may move to another thread only in `klee_thread_sleep` and
`klee_thread_preempt`: `turn` is `none` at such a point, and `some t` while thread `t`
must go on. A thread that was notified runs the rest of its model function (`κ`) without
testing anything again. Which waiter a notify picks is not fixed by the engine (`pick`).
-/

namespace InputCovSched

open Function

/-- The same in the symbolic runtime and in the one of constrained execution (`config.h`). -/
def kleeMaxThreads : Nat := 16

/-- Return codes of the model functions. -/
inductive Ret where
  | ok
  | ebusy
  | eperm
  | eagain
  deriving DecidableEq, Repr

/-- How a call leaves the processor: it returns, or it sleeps inside the model function. -/
inductive Flow where
  | ret (r : Ret)
  | sleeps
  deriving DecidableEq, Repr

/-- `κ` is what a sleeping thread still has to run. -/
inductive Status (κ : Type) where
  | enabled
  | asleep (wlist : Nat) (k : κ)
  | notified (k : κ)
  deriving DecidableEq, Repr

def Status.isNotified {κ : Type} : Status κ → Bool
  | .notified _ => true
  | _ => false

def Status.waitsOn {κ : Type} (wlist : Nat) : Status κ → Bool
  | .asleep w _ => w == wlist
  | _ => false

def Status.wake {κ : Type} : Status κ → Status κ
  | .asleep _ k => .notified k
  | st => st

structure KState (κ : Type) where
  hbGraph : HBGraph
  lastHbNode : Nat → Nat
  status : Nat → Status κ
  turn : Option Nat
  nextWlist : Nat

namespace KState

variable {κ : Type}

def boot : KState κ where
  hbGraph := .empty
  lastHbNode := fun _ => 0
  status := fun _ => .enabled
  turn := none
  nextWlist := 1

section
variable (k : KState κ)

/-- The scheduler may run thread `t` now. -/
def canRun (t : Nat) : Bool := k.turn == none || k.turn == some t

def kleeGetWlist : Nat × KState κ :=
  (k.nextWlist, { k with nextWlist := k.nextWlist + 1 })

def kleeAddHbnode (t : Nat) (ctx : CallCtx) : Nat × KState κ :=
  let r := k.hbGraph.addNode t ctx none (k.lastHbNode t)
  (r.1, { k with hbGraph := r.2, lastHbNode := update k.lastHbNode t r.1 })

def kleeLastHbnode (t : Nat) : Nat := k.lastHbNode t

def kleeAddHbedge (src dst : Nat) : KState κ :=
  { k with hbGraph := k.hbGraph.addEdge src dst }

def kleeAddHbnodeToHbgroup (node group : Nat) : KState κ :=
  { k with hbGraph := k.hbGraph.addNodeToGroup node group }

def kleeRemoveHbgroup (group : Nat) : KState κ :=
  { k with hbGraph := k.hbGraph.removeGroup group }

def kleeAddHbedgesFromHbgroup (group node : Nat) : KState κ :=
  { k with hbGraph := k.hbGraph.addEdgesFromGroup group node }

/-- `__thread_make_hbnode_from`: a node with its thread-local edge and one more edge. -/
def threadMakeHbnodeFrom (t : Nat) (ctx : CallCtx) (src : Nat) : Nat × KState κ :=
  let r := k.kleeAddHbnode t ctx
  (r.1, r.2.kleeAddHbedge src r.1)

def kleeThreadPreempt : KState κ := { k with turn := none }

/-- A model function returns to its caller without a preemption point. -/
def keepTurn (t : Nat) : KState κ := { k with turn := some t }

def kleeThreadSleep (t wlist : Nat) (rest : κ) : KState κ :=
  { k with status := update k.status t (.asleep wlist rest), turn := none }

/-- Thread `t` leaves `klee_thread_sleep`. -/
def wakeUp (t : Nat) : KState κ :=
  { k with status := update k.status t .enabled }

end

/-- Notify without source and sink nodes: no nodes and no edges are added. `pick` is the
waiter that becomes runnable, `none` when nobody waits on the list. -/
def kleeThreadNotifyOne (n : Nat) (k : KState κ) (wlist : Nat) : Option Nat → Option (KState κ)
  | none => if (List.range n).any fun t => (k.status t).waitsOn wlist then none else some k
  | some t =>
    if t < n ∧ (k.status t).waitsOn wlist then
      some { k with status := update k.status t (k.status t).wake }
    else none

def kleeThreadNotifyAll (k : KState κ) (wlist : Nat) : KState κ :=
  { k with status := fun t =>
      if (k.status t).waitsOn wlist then (k.status t).wake else k.status t }

/-! ## What the primitives leave alone -/

section
variable (k : KState κ) (t src dst wlist : Nat) (ctx : CallCtx) (rest : κ)

@[simp] lemma kleeGetWlist_status : k.kleeGetWlist.2.status = k.status := rfl
@[simp] lemma kleeAddHbnode_status : (k.kleeAddHbnode t ctx).2.status = k.status := rfl
@[simp] lemma threadMakeHbnodeFrom_status :
    (k.threadMakeHbnodeFrom t ctx src).2.status = k.status := rfl
@[simp] lemma kleeThreadPreempt_status : k.kleeThreadPreempt.status = k.status := rfl
@[simp] lemma kleeThreadPreempt_turn : k.kleeThreadPreempt.turn = none := rfl
@[simp] lemma keepTurn_status : (k.keepTurn t).status = k.status := rfl
@[simp] lemma kleeThreadSleep_status :
    (k.kleeThreadSleep t wlist rest).status = update k.status t (.asleep wlist rest) := rfl
@[simp] lemma wakeUp_status :
    (k.wakeUp t).status = update k.status t .enabled := rfl

end

lemma canRun_of_turn_none {k : KState κ} (h : k.turn = none) (t : Nat) : k.canRun t = true := by
  simp [canRun, h]

lemma kleeThreadNotifyOne_cases {n wlist : Nat}
    (h : kleeThreadNotifyOne n k wlist pick = some k') :
    (pick = none ∧ k' = k ∧ ∀ t, t < n → (k.status t).waitsOn wlist = false) ∨
    ∃ t rest, pick = some t ∧ t < n ∧ k.status t = .asleep wlist rest ∧
      k' = { k with status := update k.status t (.notified rest) } := by
  cases pick with
  | none =>
    simp only [kleeThreadNotifyOne] at h
    split at h
    · cases h
    rename_i hno
    refine .inl ⟨rfl, (Option.some.inj h).symm, fun t ht => ?_⟩
    simp only [List.any_eq_true, List.mem_range, not_exists, not_and, Bool.not_eq_true] at hno
    exact hno t ht
  | some t =>
    simp only [kleeThreadNotifyOne] at h
    split at h
    · rename_i hw
      obtain ⟨ht, hw⟩ := hw
      cases hst : k.status t with
      | enabled => simp [hst, Status.waitsOn] at hw
      | notified r => simp [hst, Status.waitsOn] at hw
      | asleep w r =>
        have hwl : w = wlist := by simpa [hst, Status.waitsOn] using hw
        subst hwl
        refine .inr ⟨t, r, rfl, ht, hst, ?_⟩
        rw [← Option.some.inj h, hst]
        rfl
    · cases h

/-! ## A step that records one node -/

/-- From `k` to `k'` the thread records one node, after its previous one; other edges may
come in, none is lost. -/
structure AddsNode (k k' : KState κ) (t : Nat) : Prop where
  length : k'.hbGraph.nodes.length = k.hbGraph.nodes.length + 1
  mono : ∀ a b, k.hbGraph.Edge a b → k'.hbGraph.Edge a b
  last : k'.lastHbNode = update k.lastHbNode t (k.hbGraph.nodes.length + 1)
  own : k.lastHbNode t ≠ 0 →
    k'.hbGraph.Edge (k.lastHbNode t) (k.hbGraph.nodes.length + 1)

variable {k k' : KState κ} {t : Nat}

lemma kleeAddHbnode_fst (k : KState κ) (t : Nat) {ctx : CallCtx} (hc : ctx.ignorable = false) :
    (k.kleeAddHbnode t ctx).1 = k.hbGraph.nodes.length + 1 :=
  HBGraph.addNode_id hc

lemma kleeAddHbnode_addsNode (k : KState κ) (t : Nat) {ctx : CallCtx}
    (hc : ctx.ignorable = false) :
    AddsNode k (k.kleeAddHbnode t ctx).2 t where
  length := by
    simp only [kleeAddHbnode]
    rw [HBGraph.addNode_nodes hc]
    simp
  mono := fun a b h => (HBGraph.addNode_edge hc).2 (.inl h)
  last := by
    simp only [kleeAddHbnode]
    rw [HBGraph.addNode_id hc]
  own := fun h => (HBGraph.addNode_edge hc).2 (.inr ⟨rfl, h, rfl⟩)

lemma AddsNode.then (h : AddsNode k k' t)
    (hlen : k''.hbGraph.nodes.length = k'.hbGraph.nodes.length)
    (hmono : ∀ a b, k'.hbGraph.Edge a b → k''.hbGraph.Edge a b)
    (hlast : k''.lastHbNode = k'.lastHbNode) : AddsNode k k'' t where
  length := hlen.trans h.length
  mono := fun a b he => hmono a b (h.mono a b he)
  last := hlast.trans h.last
  own := fun he => hmono _ _ (h.own he)

end KState

end InputCovSched
