import InputCovSched.Runtime.MutexReplay
import Mathlib.Data.List.Induction

/-!
# What an uncontended run records

When every call that finds the mutex busy is its owner's, the calls that record a node form
one chain: a lock, then calls of the same thread up to its unlock, then a lock again. Node
`j` belongs to the `j`-th call of the chain, and where the thread changes there is an edge
(`Chained`, `chained_of_meets`).
-/

namespace InputCovSched

open List

def opsOf (t : Nat) (calls : List (Nat × CallRecord)) : List CallRecord :=
  (calls.filter fun c => c.1 == t).map Prod.snd

def chain (calls : List (Nat × CallRecord)) : List (Nat × CallRecord) :=
  calls.filter fun c => c.2.branch != .eperm

/-- The mutex between two calls of the chain; it stays `stuck` when its owner locks again. -/
inductive Holder where
  | free
  | held (a : Nat)
  | stuck (a : Nat)
  deriving DecidableEq, Repr

def Holder.next : Holder → Nat × CallRecord → Option Holder
  | .free, (t, r) => if r.branch = .acquire then some (.held t) else none
  | .held a, (t, r) =>
    if t = a then
      match r.branch with
      | .ebusy => some (.held a)
      | .release => some .free
      | .queuedWait => some (.stuck a)
      | _ => none
    else none
  | .stuck _, _ => none

/-- The call fits its branch, and it has one node unless it was refused. -/
def CallRecord.Ok (r : CallRecord) : Prop :=
  match r.branch with
  | .acquire => r.call ≠ .unlock ∧ r.nodes = 1
  | .queuedWait => r.call = .lock ∧ r.nodes = 1
  | .ebusy => r.call = .trylock ∧ r.nodes = 1
  | .release => r.call = .unlock ∧ r.nodes = 1
  | .eperm => r.call = .unlock ∧ r.nodes = 0

structure Chained (g : HBGraph) (calls : List (Nat × CallRecord)) : Prop where
  orders : g.OrdersOk
  nodes : (g.nodes.map fun n => (n.tuid, n.callctx)) =
    (chain calls).map fun c => (c.1, c.2.ctx)
  records : ∀ c, c ∈ calls → c.2.Ok
  holder : ∃ H, (chain calls).foldlM Holder.next .free = some H
  edges : ∀ j c d, (chain calls)[j]? = some c → (chain calls)[j + 1]? = some d → c.1 ≠ d.1 →
    g.Edge (j + 1) (j + 2)
  refused : ∀ t, ∃ es, opsOf t calls = es ++ opsOf t (chain calls) ∧
    (∀ r, r ∈ es → r.branch = .eperm) ∧ (es ≠ [] → t ≠ 0)

section
variable {a : Nat} {c : Nat × CallRecord}

lemma opsOf_append (t : Nat) (l m : List (Nat × CallRecord)) :
    opsOf t (l ++ m) = opsOf t l ++ opsOf t m := by
  simp [opsOf]

lemma opsOf_cons (t u : Nat) (r : CallRecord) (l : List (Nat × CallRecord)) :
    opsOf t ((u, r) :: l) = if u = t then r :: opsOf t l else opsOf t l := by
  unfold opsOf
  by_cases h : u = t <;> simp [h]

lemma opsOf_eq_nil (h : ∀ c, c ∈ calls → c.1 ≠ t) : opsOf t calls = [] := by
  unfold opsOf
  rw [filter_eq_nil_iff.2 (by simpa using h)]
  rfl

lemma chain_append (l m : List (Nat × CallRecord)) : chain (l ++ m) = chain l ++ chain m := by
  simp [chain]

lemma chain_node (h : r.branch ≠ .eperm) : chain [(t, r)] = [(t, r)] := by
  simp [chain, h]

lemma chain_eperm (h : r.branch = .eperm) : chain [(t, r)] = [] := by
  simp [chain, h]

lemma Holder.next_holder {H H' : Holder} (h : H.next c = some H') :
    H' ≠ .free → H' = .held c.1 ∨ H' = .stuck c.1 := by
  cases H with
  | free =>
    simp only [Holder.next] at h
    split at h
    · cases h
      exact fun _ => .inl rfl
    · cases h
  | held b =>
    simp only [Holder.next] at h
    split at h
    · rename_i htb
      subst htb
      split at h <;> cases h <;> simp
    · cases h
  | stuck b => cases h

variable {l : List (Nat × CallRecord)}

lemma foldlM_next_concat :
    (l ++ [c]).foldlM Holder.next .free = some H ↔
      ∃ H₀, l.foldlM Holder.next .free = some H₀ ∧ H₀.next c = some H := by
  simp [Option.bind_eq_some_iff]

lemma last_of_held {H : Holder}
    (h : l.foldlM Holder.next .free = some H) (hH : H = .held a ∨ H = .stuck a) :
    ∃ c, l.getLast? = some c ∧ c.1 = a := by
  rcases eq_nil_or_concat l with rfl | ⟨l, c, rfl⟩
  · cases h
    rcases hH with hH | hH <;> cases hH
  rw [concat_eq_append] at h
  obtain ⟨H₀, -, hnext⟩ := foldlM_next_concat.1 h
  refine ⟨c, by simp, ?_⟩
  rcases hH with rfl | rfl
  · rcases Holder.next_holder hnext (by simp) with heq | heq <;> cases heq
    rfl
  · rcases Holder.next_holder hnext (by simp) with heq | heq <;> cases heq
    rfl

lemma chain_acquired (h : l.foldlM Holder.next .free = some H) (hc : c ∈ l) :
    ∃ d, d ∈ l ∧ d.1 = c.1 ∧ d.2.branch = .acquire := by
  induction l using List.reverseRecOn generalizing H c with
  | nil => cases hc
  | append_singleton l e ih =>
    obtain ⟨H₀, h₀, hnext⟩ := foldlM_next_concat.1 h
    rcases mem_append.1 hc with hc | hc
    · obtain ⟨d, hd, h1, h2⟩ := ih h₀ hc
      exact ⟨d, mem_append_left _ hd, h1, h2⟩
    rw [mem_singleton.1 hc]
    obtain ⟨t, r⟩ := e
    cases H₀ with
    | free =>
      simp only [Holder.next] at hnext
      split at hnext
      · exact ⟨(t, r), by simp, rfl, by assumption⟩
      · cases hnext
    | held b =>
      simp only [Holder.next] at hnext
      split at hnext
      · rename_i htb
        obtain ⟨f, hf, hfb⟩ := last_of_held h₀ (.inl rfl)
        obtain ⟨d, hd, h1, h2⟩ := ih h₀ (mem_of_getLast? hf)
        exact ⟨d, mem_append_left _ hd, by rw [h1, hfb, htb], h2⟩
      · cases hnext
    | stuck b => cases hnext

end

/-! ## One more call -/

namespace Chained

variable {t : Nat} {r : CallRecord}

lemma length_eq (h : Chained g calls) : g.nodes.length = (chain calls).length := by
  simpa using congrArg List.length h.nodes

lemma node (h : Chained g calls)
    (hH : (chain calls).foldlM Holder.next .free = some H) (hr : r.branch ≠ .eperm) (hok : r.Ok)
    (hnext : H.next (t, r) = some H') (horders : g'.OrdersOk)
    (hnodes : (g'.nodes.map fun n => (n.tuid, n.callctx)) =
      (g.nodes.map fun n => (n.tuid, n.callctx)) ++ [(t, r.ctx)])
    (hmono : ∀ a b, g.Edge a b → g'.Edge a b)
    (hedge : ∀ c, (chain calls).getLast? = some c → c.1 ≠ t →
      g'.Edge (chain calls).length ((chain calls).length + 1)) :
    Chained g' (calls ++ [(t, r)]) := by
  have hchain : chain (calls ++ [(t, r)]) = chain calls ++ [(t, r)] := by
    rw [chain_append, chain_node hr]
  refine ⟨horders, ?_, ?_, ?_, ?_, ?_⟩
  · rw [hnodes, hchain, h.nodes, map_append]
    rfl
  · exact forall_mem_append.2 ⟨h.records, forall_mem_singleton.2 hok⟩
  · refine ⟨H', ?_⟩
    rw [hchain]
    exact foldlM_next_concat.2 ⟨H, hH, hnext⟩
  · intro j c d hc hd hne
    rw [hchain] at hc hd
    have hj : j + 1 < (chain calls ++ [(t, r)]).length := (List.getElem?_eq_some_iff.1 hd).1
    rw [length_append, length_singleton] at hj
    rw [List.getElem?_append_left (by omega)] at hc
    rcases lt_or_ge (j + 1) (chain calls).length with hlt | hge
    · rw [List.getElem?_append_left hlt] at hd
      exact hmono _ _ (h.edges j c d hc hd hne)
    have hlen : (chain calls).length = j + 1 := by omega
    rw [List.getElem?_append_right hge, hlen, Nat.sub_self] at hd
    cases hd
    have hlast : (chain calls).getLast? = some c := by
      rw [List.getLast?_eq_getElem?, hlen]
      exact hc
    have := hedge c hlast hne
    rwa [hlen] at this
  · intro u
    obtain ⟨es, heq, hes, hne⟩ := h.refused u
    exact ⟨es, by rw [hchain, opsOf_append, opsOf_append, heq, append_assoc], hes, hne⟩

lemma eperm (h : Chained g calls) (hr : r.branch = .eperm) (hok : r.Ok) (ht : t ≠ 0)
    (hno : opsOf t (chain calls) = []) : Chained g (calls ++ [(t, r)]) := by
  have hchain : chain (calls ++ [(t, r)]) = chain calls := by
    rw [chain_append, chain_eperm hr, append_nil]
  refine ⟨h.orders, by rw [hchain]; exact h.nodes, ?_, by rw [hchain]; exact h.holder,
    by rw [hchain]; exact h.edges, ?_⟩
  · exact forall_mem_append.2 ⟨h.records, forall_mem_singleton.2 hok⟩
  · intro u
    obtain ⟨es, heq, hes, hne⟩ := h.refused u
    rw [hchain, opsOf_append, heq, opsOf_cons]
    by_cases hut : t = u
    · subst hut
      rw [if_pos rfl, hno]
      refine ⟨es ++ [r], by simp [opsOf], ?_, fun _ => ht⟩
      exact forall_mem_append.2 ⟨hes, forall_mem_singleton.2 hr⟩
    · rw [if_neg hut]
      exact ⟨es, by simp [opsOf], hes, hne⟩

end Chained

/-! ## What the model's functions record -/

namespace MutexSys

variable {t : Nat} {s : MutexSys} {ctx : CallCtx}

lemma lock_graph (t : Nat) (ctx : CallCtx) (try_ : Bool) :
    (s.lock t ctx try_).engine.hbGraph =
      (s.engine.threadMakeHbnodeFrom t ctx s.mutex.lastHbNode).2.hbGraph := by
  cases hw : s.mutex.mustWait <;> cases try_ <;>
    simp [lock, atomicMutexLock, hw, KState.threadMakeHbnodeFrom, KState.kleeAddHbnode,
      KState.kleeAddHbedge, KState.kleeThreadPreempt, KState.keepTurn, KState.kleeThreadSleep]

lemma lock_free_mutex (t : Nat) (ctx : CallCtx) (try_ : Bool) (h : s.mutex.mustWait = false) :
    (s.lock t ctx try_).mutex.queued = s.mutex.queued := by
  simp [lock, atomicMutexLock, h, Mutex.take]

lemma trylock_busy (t : Nat) (ctx : CallCtx) (h : s.mutex.mustWait = true) :
    (s.lock t ctx true).mutex.queued = s.mutex.queued ∧
    (s.lock t ctx true).engine.status = s.engine.status := by
  simp [lock, atomicMutexLock, h]

lemma lock_sleeps (t : Nat) (ctx : CallCtx) (h : s.mutex.mustWait = true) :
    (s.lock t ctx false).engine.status =
      Function.update s.engine.status t (.asleep (mutexCheckInit s.mutex s.engine).1.wlist ()) := by
  simp [lock, atomicMutexLock, h]

lemma unlock_release (h : unlock n s t ctx pick = some s')
    (htaken : s.mutex.taken = true) (hown : s.mutex.owner = t) (hq : s.mutex.queued = 0) :
    s'.engine.hbGraph = (s.engine.kleeAddHbnode t ctx).2.hbGraph ∧
    s'.mutex.taken = false ∧ s'.mutex.queued = 0 ∧
    s'.mutex.lastHbNode = (s.engine.kleeAddHbnode t ctx).1 ∧
    s'.engine.status = s.engine.status := by
  simp only [unlock, atomicMutexUnlock, mutexCheckInit_taken, mutexCheckInit_owner, htaken, hown,
    mutexCheckInit_queued, hq, Bool.true_eq_false, ne_eq, not_true_eq_false, or_self, if_false,
    lt_irrefl, Option.map_some, Option.some.injEq] at h
  subst h
  simp [KState.kleeAddHbnode, KState.kleeThreadPreempt]

lemma step_op (h : step n s (t, op) = some s') :
    match op with
    | .lock ctx => s.engine.status t = .enabled ∧ s' = s.lock t ctx false
    | .trylock ctx => s.engine.status t = .enabled ∧ s' = s.lock t ctx true
    | .unlock ctx pick => s.engine.status t = .enabled ∧ unlock n s t ctx pick = some s'
    | .resume => s.engine.status t = .notified () := by
  obtain ⟨-, h⟩ := Option.ite_none_right_eq_some.1 h
  cases op with
  | lock ctx | trylock ctx =>
    cases hst : s.engine.status t <;> simp only [hst, reduceCtorEq] at h
    exact ⟨rfl, (Option.some.inj h).symm⟩
  | unlock ctx pick =>
    cases hst : s.engine.status t <;> simp only [hst, reduceCtorEq] at h
    exact ⟨rfl, h⟩
  | resume =>
    cases hst : s.engine.status t <;> simp only [hst, reduceCtorEq] at h
    rfl

lemma unlock_eperm (h : unlock n s t ctx pick = some s')
    (hno : s.mutex.taken = false ∨ s.mutex.owner ≠ t) :
    s'.engine.hbGraph = s.engine.hbGraph ∧ s'.mutex.taken = s.mutex.taken ∧
    s'.mutex.owner = s.mutex.owner ∧ s'.mutex.queued = s.mutex.queued ∧
    s'.mutex.lastHbNode = s.mutex.lastHbNode ∧ s'.engine.status = s.engine.status := by
  simp only [unlock, atomicMutexUnlock, mutexCheckInit_taken, mutexCheckInit_owner, hno,
    if_true] at h
  cases h
  simp [KState.kleeThreadPreempt]

end MutexSys

/-! ## The recorded run -/

namespace Recording

variable {t : Nat} {r r' : Recording}

/-- The mutex of the model agrees with the chain. -/
def Agrees (r : Recording) : Holder → Prop
  | .free => r.sys.mutex.taken = false ∧ r.sys.mutex.queued = 0 ∧
    r.sys.mutex.lastHbNode = (chain r.calls).length
  | .held a => r.sys.mutex.taken = true ∧ r.sys.mutex.owner = a ∧ r.sys.mutex.queued = 0
  | .stuck a => r.sys.mutex.taken = true ∧ r.sys.mutex.owner = a ∧ r.sys.engine.status a ≠ .enabled

structure Inv (r : Recording) : Prop where
  chained : Chained r.graph r.calls
  quiet : ∀ t, (r.sys.engine.status t).isNotified = false
  state : ∃ H, (chain r.calls).foldlM Holder.next .free = some H ∧ r.Agrees H

lemma inv_initial (static : Bool) : Inv (initial static) := by
  have hgraph : (initial static).graph = .empty := by cases static <;> rfl
  refine ⟨?_, ?_, .free, rfl, ?_⟩
  · rw [hgraph]
    exact ⟨HBGraph.ordersOk_empty, rfl, by simp [initial], ⟨.free, rfl⟩, by simp [initial, chain],
      fun t => ⟨[], rfl, by simp, by simp⟩⟩
  · intro t
    cases static <;> rfl
  · cases static <;> exact ⟨rfl, rfl, rfl⟩

lemma NeverHeld.opsOf_chain (hi : Inv r) (h : r.NeverHeld t) : opsOf t (chain r.calls) = [] := by
  obtain ⟨H, hH, -⟩ := hi.state
  apply opsOf_eq_nil
  rintro c hc rfl
  obtain ⟨d, hd, h1, h2⟩ := chain_acquired hH hc
  exact h d (mem_of_mem_filter hd) h1 h2

variable {ctx : CallCtx} {src : Nat}

lemma Inv.node (H' : Holder) (hi : Inv r) (hcalls : r'.calls = r.calls ++ [(t, c)])
    (hH : (chain r.calls).foldlM Holder.next .free = some H) (hctx : ctx.ignorable = false)
    (hc : c.ctx = ctx.id) (hb : c.branch ≠ .eperm) (hok : c.Ok) (hnext : H.next (t, c) = some H')
    (hg : r'.graph = (r.sys.engine.threadMakeHbnodeFrom t ctx src).2.hbGraph)
    (hsrc : H = .free → src = (chain r.calls).length)
    (hquiet : ∀ t, (r'.sys.engine.status t).isNotified = false) (hag : r'.Agrees H') : Inv r' := by
  have hlen := hi.chained.length_eq
  have hstate : (chain r'.calls).foldlM Holder.next .free = some H' := by
    rw [hcalls, chain_append, chain_node hb]
    exact foldlM_next_concat.2 ⟨H, hH, hnext⟩
  refine ⟨?_, hquiet, H', hstate, hag⟩
  rw [hcalls]
  refine hi.chained.node hH hb hok hnext ?_ ?_ ?_ ?_
  all_goals rw [hg]
  · exact hi.chained.orders.addNode.addEdge
  · simp only [KState.threadMakeHbnodeFrom, KState.kleeAddHbnode, KState.kleeAddHbedge]
    rw [HBGraph.addEdge_threads, HBGraph.addNode_nodes hctx, map_append, hc]
    rfl
  · intro a b hab
    exact HBGraph.addEdge_edge.2 (.inl ((HBGraph.addNode_edge hctx).2 (.inl hab)))
  · intro d hd hne
    have hpos : 0 < (chain r.calls).length := by
      rw [List.getLast?_eq_getElem?] at hd
      have := (List.getElem?_eq_some_iff.1 hd).1
      omega
    cases H with
    | free =>
      refine HBGraph.addEdge_edge.2 (.inr ?_)
      simp only [KState.kleeAddHbnode]
      rw [HBGraph.addNode_id hctx, HBGraph.addNode_nodes hctx, length_append,
        length_singleton, hsrc rfl, ← hlen]
      exact ⟨rfl, rfl, by omega, by simp [graph], by omega, le_refl _⟩
    | held a =>
      -- the holder's own call
      obtain ⟨e, he, hea⟩ := last_of_held hH (.inl rfl)
      have heq : e = d := Option.some.inj (he.symm.trans hd)
      have hta : t = a := by
        simp only [Holder.next] at hnext
        by_contra hta
        simp [hta] at hnext
      exact absurd (by rw [← heq, hea, hta]) hne
    | stuck a => cases hnext

lemma step_eq (h : step n r (t, op) = some r') :
    MutexSys.step n r.sys (t, op) = some r'.sys ∧
    ((op = .resume ∧ r'.calls = r.calls) ∨
      ∃ call ctx b, r.sys.callOf t op = some (call, ctx, b) ∧ ctx.ignorable = false ∧
        r'.calls = r.calls ++ [(t, ⟨call, ctx.id, b,
          r'.graph.nodes.length - r.graph.nodes.length⟩)]) := by
  unfold step at h
  split at h
  · cases h
  rename_i s hs
  split at h
  · rename_i hcall
    cases h
    refine ⟨hs, .inl ⟨?_, rfl⟩⟩
    cases op <;> simp [MutexSys.callOf] at hcall
    rfl
  rename_i call ctx b hcall
  split at h
  · cases h
  rename_i hctx
  cases h
  exact ⟨hs, .inr ⟨call, ctx, b, hcall, by simpa using hctx, rfl⟩⟩

lemma nodes_added (hctx : ctx.ignorable = false)
    (hg : r'.graph = (r.sys.engine.threadMakeHbnodeFrom t ctx src).2.hbGraph) :
    r'.graph.nodes.length - r.graph.nodes.length = 1 := by
  rw [hg]
  simp only [KState.threadMakeHbnodeFrom, KState.kleeAddHbnode, KState.kleeAddHbedge,
    HBGraph.addEdge_length]
  rw [HBGraph.addNode_nodes hctx, length_append, length_singleton]
  simp [graph]

lemma inv_lock {call : MutexCall} (try_ : Bool) (hi : Inv r)
    (hcall : call = if try_ then .trylock else .lock) (hctx : ctx.ignorable = false)
    (hst : r.sys.engine.status t = .enabled)
    (hg : r.sys.mutex.mustWait = true → r.sys.mutex.owner = t)
    (hsys : r'.sys = r.sys.lock t ctx try_)
    (hcalls : r'.calls = r.calls ++ [(t, ⟨call, ctx.id,
      if r.sys.mutex.mustWait then (if try_ then .ebusy else .queuedWait) else .acquire,
      r'.graph.nodes.length - r.graph.nodes.length⟩)]) : Inv r' := by
  obtain ⟨H, hH, hag⟩ := hi.state
  have hgraph : r'.graph =
      (r.sys.engine.threadMakeHbnodeFrom t ctx r.sys.mutex.lastHbNode).2.hbGraph := by
    rw [graph, hsys, MutexSys.lock_graph]
  rw [nodes_added hctx hgraph] at hcalls
  cases hw : r.sys.mutex.mustWait with
  | false =>
    -- the mutex is free and the caller takes it
    simp only [hw, Bool.false_eq_true, if_false] at hcalls
    obtain ⟨h1, h2, h3, -, -⟩ := MutexSys.lock_free t ctx try_ hw
    have hfree := hw
    simp only [Mutex.mustWait, Bool.or_eq_false_iff] at hw
    cases H with
    | free =>
      obtain ⟨-, hq, hlast⟩ := hag
      refine hi.node (.held t) hcalls hH hctx rfl (by simp) ⟨?_, rfl⟩ rfl hgraph (fun _ => hlast)
        ?_ ?_
      · rw [hcall]
        cases try_ <;> simp
      · rw [hsys, h3]
        exact hi.quiet
      · rw [Agrees, hsys]
        exact ⟨h1, h2, (MutexSys.lock_free_mutex t ctx try_ hfree).trans hq⟩
    | held a | stuck a => simp [Agrees, hw.1] at hag
  | true =>
    -- the caller is the owner
    simp only [hw, if_true] at hcalls
    have hown := hg hw
    obtain ⟨h1, h2, -, -⟩ := MutexSys.lock_busy t ctx try_ hw
    cases H with
    | free => simp [Mutex.mustWait, hag.1, hag.2.1] at hw
    | held a =>
      obtain ⟨htk, hoa, hq⟩ := hag
      have hta : t = a := hown.symm.trans hoa
      subst hta
      cases try_ with
      | true =>
        obtain ⟨h3, h4⟩ := MutexSys.trylock_busy t ctx hw
        refine hi.node (.held t) hcalls hH hctx rfl (by simp) ⟨hcall, rfl⟩
          (by simp [Holder.next]) hgraph (by simp) ?_ ?_
        · rw [hsys, h4]
          exact hi.quiet
        · rw [Agrees, hsys, h1, h2, h3]
          exact ⟨htk, hown, hq⟩
      | false =>
        have h4 := MutexSys.lock_sleeps t ctx hw
        refine hi.node (.stuck t) hcalls hH hctx rfl (by simp) ⟨hcall, rfl⟩
          (by simp [Holder.next]) hgraph (by simp) ?_ ?_
        · intro u
          rw [hsys, h4]
          by_cases hut : u = t
          · subst hut
            simp [Status.isNotified]
          · rw [Function.update_of_ne hut]
            exact hi.quiet u
        · rw [Agrees, hsys, h1, h2, h4]
          exact ⟨htk, hown, by simp⟩
    | stuck a =>
      obtain ⟨-, hoa, hasleep⟩ := hag
      exact absurd (by rw [← hoa, hown]; exact hst) hasleep

lemma inv_unlock (hi : Inv r) (hctx : ctx.ignorable = false)
    (hst : r.sys.engine.status t = .enabled) (hg : OwnerOnly r (t, .unlock ctx pick))
    (hsys : MutexSys.unlock n r.sys t ctx pick = some r'.sys)
    (hcalls : r'.calls = r.calls ++ [(t, ⟨.unlock, ctx.id,
      if r.sys.mutex.taken = false ∨ r.sys.mutex.owner ≠ t then .eperm else .release,
      r'.graph.nodes.length - r.graph.nodes.length⟩)]) : Inv r' := by
  obtain ⟨H, hH, hag⟩ := hi.state
  by_cases hno : r.sys.mutex.taken = false ∨ r.sys.mutex.owner ≠ t
  · -- refused
    rw [if_pos hno] at hcalls
    obtain ⟨hgraph, h1, h2, h3, h4, h5⟩ := MutexSys.unlock_eperm hsys hno
    have hnever : t ≠ 0 ∧ r.NeverHeld t := by
      rcases hg with ⟨htk, hown⟩ | hg
      · rcases hno with hno | hno
        · simp [htk] at hno
        · exact absurd hown hno
      · exact hg
    have hsame : r'.graph = r.graph := hgraph
    have hchain : chain r'.calls = chain r.calls := by
      rw [hcalls, chain_append, chain_eperm rfl, append_nil]
    refine ⟨?_, by rw [h5]; exact hi.quiet, H, by rw [hchain]; exact hH, ?_⟩
    · rw [hcalls, hsame]
      exact hi.chained.eperm rfl ⟨rfl, Nat.sub_self _⟩ hnever.1 (NeverHeld.opsOf_chain hi hnever.2)
    · cases H with
      | free => rw [Agrees, h1, h3, h4, hchain]; exact hag
      | held a => rw [Agrees, h1, h2, h3]; exact hag
      | stuck a => rw [Agrees, h1, h2, h5]; exact hag
  rw [if_neg hno] at hcalls
  obtain ⟨htk, hown⟩ : r.sys.mutex.taken = true ∧ r.sys.mutex.owner = t := by simpa using hno
  cases H with
  | free => simp [hag.1] at htk
  | held a =>
    obtain ⟨-, hoa, hq⟩ := hag
    have hta : t = a := hown.symm.trans hoa
    subst hta
    obtain ⟨hgraph, h1, h2, h3, h4⟩ := MutexSys.unlock_release hsys htk hown hq
    have hgraph' : r'.graph = (r.sys.engine.threadMakeHbnodeFrom t ctx 0).2.hbGraph := by
      rw [graph, hgraph]
      simp [KState.threadMakeHbnodeFrom, KState.kleeAddHbedge, HBGraph.addEdge]
    rw [nodes_added hctx hgraph'] at hcalls
    refine hi.node .free hcalls hH hctx rfl (by simp) ⟨rfl, rfl⟩ (by simp [Holder.next]) hgraph'
      (by simp) ?_ ?_
    · rw [h4]
      exact hi.quiet
    · refine ⟨h1, h2, ?_⟩
      rw [h3, KState.kleeAddHbnode_fst _ _ hctx, hcalls, chain_append, chain_node (by simp),
        length_append, length_singleton, ← hi.chained.length_eq]
      rfl
  | stuck a =>
    obtain ⟨-, hoa, hasleep⟩ := hag
    exact absurd (by rw [← hoa, hown]; exact hst) hasleep

lemma inv_step (hi : Inv r) (hg : OwnerOnly r (t, op)) (h : step n r (t, op) = some r') :
    Inv r' := by
  obtain ⟨hsys, hrec⟩ := step_eq h
  have hop := MutexSys.step_op hsys
  rcases hrec with ⟨rfl, -⟩ | ⟨call, ctx', b, hcall, hctx, hcalls⟩
  · -- nobody was notified
    have := hi.quiet t
    rw [hop] at this
    cases this
  cases op with
  | lock ctx =>
    cases hcall
    exact inv_lock false hi rfl hctx hop.1 hg hop.2 hcalls
  | trylock ctx =>
    cases hcall
    exact inv_lock true hi rfl hctx hop.1 hg hop.2 hcalls
  | unlock ctx pick =>
    cases hcall
    exact inv_unlock hi hctx hop.1 hg hop.2 hcalls
  | resume => cases hcall

lemma chained_of_meets
    (h : Machine.ReachesBy (step n) OwnerOnly (initial static) r) : Chained r.graph r.calls := by
  obtain ⟨ls, hrun, hmeets⟩ := h
  have hinv : Inv r :=
    Machine.inv_of_meets (step n) (fun _ _ _ hi hg h => inv_step hi hg h) (inv_initial static)
      hmeets hrun
  exact hinv.chained

end Recording

end InputCovSched
