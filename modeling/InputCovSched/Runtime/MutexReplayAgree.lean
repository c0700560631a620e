import InputCovSched.Runtime.MutexChain

/-!
# Replay of a chain of mutex calls

At run time the nodes of a chain are taken in the order of the chain: where the thread
changes, the edge makes the next thread wait for the clock of the unlock before it, and the
unlock has cleared `taken` by then. So every call finds the mutex as it was recorded.

    two threads, one attempt while the other one holds the mutex  (diverges_after_advance)
    only the owner makes contended calls → every replay agrees  (agrees_of_meets)
-/

namespace InputCovSched

open Holder

open Function List

/-! ## The chain and the nodes -/

section
variable {g : HBGraph} {calls : List (Nat × CallRecord)}

section
variable (calls : List (Nat × CallRecord))

/-- The nodes of `t` among the first `K` of the chain. -/
def cnt (t K : Nat) : Nat :=
  (opsOf t ((chain calls).take K)).length

def left (t K : Nat) : List CallRecord :=
  opsOf t ((chain calls).drop K)

def hold (K : Nat) : Option Holder :=
  ((chain calls).take K).foldlM Holder.next .free

end

variable {c : Nat × CallRecord} {j u K : Nat} {H : Holder}

lemma take_succ_of {l : List (Nat × CallRecord)} (h : l[K]? = some c) :
    l.take (K + 1) = l.take K ++ [c] := by
  rw [take_add_one, h]
  rfl

lemma cnt_succ (h : (chain calls)[K]? = some c) :
    cnt calls u (K + 1) = cnt calls u K + if c.1 = u then 1 else 0 := by
  unfold cnt
  rw [take_succ_of h, opsOf_append, length_append, opsOf_cons]
  split <;> rfl

lemma left_eq (h : (chain calls)[K]? = some c) :
    left calls u K = if c.1 = u then c.2 :: left calls u (K + 1) else left calls u (K + 1) := by
  unfold left
  obtain ⟨hlt, rfl⟩ := List.getElem?_eq_some_iff.1 h
  rw [drop_eq_getElem_cons hlt, opsOf_cons]

lemma cnt_mono (h : K ≤ j) : cnt calls u K ≤ cnt calls u j := by
  unfold cnt opsOf
  rw [length_map, length_map]
  exact ((take_sublist_take_left h).filter _).length_le

lemma hold_succ (h : (chain calls)[K]? = some c) (hH : hold calls K = some H) :
    hold calls (K + 1) = H.next c := by
  unfold hold at hH ⊢
  rw [take_succ_of h, foldlM_append, hH]
  simp

lemma Chained.hold_some (hc : Chained g calls) (K : Nat) : ∃ H, hold calls K = some H := by
  obtain ⟨H, hH⟩ := hc.holder
  rw [← take_append_drop K (chain calls), foldlM_append] at hH
  cases hk : ((chain calls).take K).foldlM next .free with
  | none =>
    rw [hk] at hH
    cases hH
  | some H₀ => exact ⟨H₀, hk⟩

variable {r : CallRecord}

lemma left_cons (h : left calls t K = r :: rs) :
    ∃ j, K ≤ j ∧ (chain calls)[j]? = some (t, r) ∧ cnt calls t j = cnt calls t K ∧
      ∀ i c, K ≤ i → i < j → (chain calls)[i]? = some c → c.1 ≠ t := by
  -- walk over the calls of other threads
  induction hn : (chain calls).length - K generalizing K with
  | zero =>
    unfold left at h
    rw [drop_eq_nil_of_le (by omega)] at h
    cases h
  | succ n ih =>
    have hlt : K < (chain calls).length := by omega
    have hK : (chain calls)[K]? = some (chain calls)[K] := List.getElem?_eq_getElem hlt
    rw [left_eq hK] at h
    split at h
    · rename_i ht
      refine ⟨K, le_refl K, ?_, rfl, fun i c hi hij => by omega⟩
      rw [hK, ← ht, ← (List.cons.inj h).1]
    rename_i hne
    obtain ⟨j, hj, hcj, hcnt, hother⟩ := ih h (by omega)
    refine ⟨j, by omega, hcj, ?_, ?_⟩
    · rw [hcnt, cnt_succ hK, if_neg hne, add_zero]
    intro i c hi hij hci
    rcases lt_or_ge K i with hKi | hKi
    · exact hother i c hKi hij hci
    obtain rfl : i = K := by omega
    rw [hK] at hci
    exact Option.some.inj hci ▸ hne

lemma Chained.nodes_take (hc : Chained g calls) (t j : Nat) :
    ((g.nodes.take j).filter fun n => n.tuid == t).length = cnt calls t j := by
  have hmap := congrArg (fun l : List (Nat × Nat) => ((l.take j).filter fun k => k.1 == t).length)
    hc.nodes
  simp only [← map_take, filter_map, length_map] at hmap
  unfold cnt opsOf
  rw [length_map]
  exact hmap

lemma Chained.node_of (hc : Chained g calls) (h : (chain calls)[j]? = some (t, r)) :
    ∃ node, g.getNode? (j + 1) = some node ∧ node.tuid = t ∧ node.callctx = r.ctx ∧
      node.threadOrder = cnt calls t j + 1 ∧ (g.allOf t)[cnt calls t j]? = some node := by
  have hmap := congrArg (fun l : List (Nat × Nat) => l[j]?) hc.nodes
  simp only [List.getElem?_map, h, Option.map_some, Option.map_eq_some_iff] at hmap
  obtain ⟨node, hnode, hkey⟩ := hmap
  obtain ⟨htuid, hctx⟩ := Prod.mk.inj hkey
  have hall : (g.allOf t)[cnt calls t j]? = some node := by
    obtain ⟨hlt, hget⟩ := List.getElem?_eq_some_iff.1 hnode
    have hsplit : g.allOf t = ((g.nodes.take j).filter fun n => n.tuid == t) ++
        node :: ((g.nodes.drop (j + 1)).filter fun n => n.tuid == t) := by
      unfold HBGraph.allOf
      conv_lhs => rw [← take_append_drop j g.nodes]
      rw [filter_append, drop_eq_getElem_cons hlt, hget, filter_cons_of_pos (by simp [htuid])]
    rw [hsplit, List.getElem?_append_right (by rw [hc.nodes_take]), hc.nodes_take, Nat.sub_self]
    rfl
  exact ⟨node, by simpa [HBGraph.getNode?] using hnode, htuid, hctx,
    hc.orders.order t _ node hall, hall⟩

lemma Chained.allOf_length (hc : Chained g calls) (t : Nat) :
    (g.allOf t).length = cnt calls t (chain calls).length := by
  rw [← hc.nodes_take t, ← hc.length_eq, take_length]
  rfl

lemma Holder.next_eq (h : H.next (t, r) = some H') :
    (r.branch = .acquire → H = .free ∧ H' = .held t) ∧
    (r.branch = .ebusy → H = .held t ∧ H' = .held t) ∧
    (r.branch = .queuedWait → H = .held t ∧ H' = .stuck t) ∧
    (r.branch = .release → H = .held t ∧ H' = .free) ∧ r.branch ≠ .eperm := by
  cases H with
  | free =>
    simp only [next] at h
    split at h
    · rename_i hb
      cases h
      simp [hb]
    · cases h
  | held a =>
    simp only [next] at h
    split at h
    · split at h <;> cases h <;> simp_all
    · cases h
  | stuck a => cases h

lemma Chained.next_some (hc : Chained g calls) (h : (chain calls)[K]? = some c)
    (hH : hold calls K = some H) : ∃ H', H.next c = some H' ∧ hold calls (K + 1) = some H' := by
  obtain ⟨H', hH'⟩ := hc.hold_some (K + 1)
  rw [hold_succ h hH] at hH'
  exact ⟨H', hH', by rw [hold_succ h hH, hH']⟩

lemma Chained.ok_of (hc : Chained g calls) (h : (chain calls)[j]? = some c) :
    c.2.Ok ∧ c.2.branch ≠ .eperm := by
  have hmem := mem_filter.1 (mem_of_getElem? h)
  exact ⟨hc.records c hmem.1, by simpa using hmem.2⟩

lemma Chained.hold_of_unlock (hc : Chained g calls)
    (hcj : (chain calls)[j]? = some (t, r)) (hunlock : r.call = .unlock) (hKj : K ≤ j)
    (hother : ∀ i c, K ≤ i → i < j → (chain calls)[i]? = some c → c.1 ≠ t) :
    hold calls K = some (.held t) := by
  obtain ⟨hok, hne⟩ := hc.ok_of hcj
  obtain ⟨H, hH⟩ := hc.hold_some j
  obtain ⟨H', hnext, -⟩ := hc.next_some hcj hH
  have hheld : H = .held t := by
    obtain ⟨h1, h2, h3, h4, -⟩ := next_eq hnext
    cases hb : r.branch <;> simp_all [CallRecord.Ok]
  subst hheld
  obtain ⟨c, hlast, hct⟩ := last_of_held hH (.inl rfl)
  have hlt := (List.getElem?_eq_some_iff.1 hcj).1
  rw [List.getLast?_take] at hlast
  split at hlast
  · cases hlast
  have hprev : (chain calls)[j - 1]? = some (chain calls)[j - 1] :=
    List.getElem?_eq_getElem (by omega)
  rw [hprev, Option.some_or] at hlast
  have hjK : j = K := by
    by_contra hne'
    exact hother (j - 1) _ (by omega) (by omega) (hprev.trans hlast) hct
  rw [← hjK]
  exact hH

end

namespace Replay

variable {g : HBGraph} {calls : List (Nat × CallRecord)} {K t a : Nat} {s s' : Replay}
  {r : CallRecord}

/-! ## Waiting for a node -/

variable {rs : List CallRecord} {pc : ReplayPc}

lemma wait_next (hc : Chained g calls)
    (hnext : (s.threads t).next = cnt calls t K) (hleft : left calls t K = r :: rs)
    (hclock : ∀ u, s.clock u ≤ cnt calls u K) (h : s.waitForHbNodeMustExist g t r.ctx pc = some s') :
    (chain calls)[K]? = some (t, r) ∧
    s' = s.setThread t
      ⟨pc, (s.threads t).todo, cnt calls t (K + 1), (s.threads t).took + 1⟩ ∧
    ∀ c i, K = i + 1 → (chain calls)[i]? = some c → c.1 ≠ t → cnt calls c.1 K ≤ s.clock c.1 := by
  obtain ⟨j, hKj, hcj, hcnt, hother⟩ := left_cons hleft
  obtain ⟨node, hnode, htuid, hctx, -, hall⟩ := hc.node_of hcj
  unfold waitForHbNodeMustExist at h
  simp only [hnext, ← hcnt, hall, hctx, ne_eq, not_true_eq_false, if_false] at h
  obtain ⟨hpreds, h⟩ := Option.ite_none_right_eq_some.1 h
  -- the edge from a call of another thread right before
  have hedge : ∀ c i, j = i + 1 → (chain calls)[i]? = some c → c.1 ≠ t →
      cnt calls c.1 j ≤ s.clock c.1 := by
    rintro ⟨u, q⟩ i rfl hi hne
    obtain ⟨m, hm, hin⟩ := hc.edges i (u, q) (t, r) hi hcj hne
    rw [hnode] at hm
    cases hm
    obtain ⟨pred, hpred, hpt, -, horder, -⟩ := hc.node_of hi
    have hdone := all_eq_true.1 hpreds (i + 1) hin
    simp only [hpred, hpt, Bool.or_eq_true, beq_iff_eq, hne, false_or, decide_eq_true_eq,
      horder] at hdone
    rw [cnt_succ hi, if_pos rfl]
    exact hdone
  have hjK : j = K := by
    by_contra hne
    obtain ⟨i, rfl⟩ : ∃ i, j = i + 1 := ⟨j - 1, by omega⟩
    have hlt : i < (chain calls).length := by
      have := (List.getElem?_eq_some_iff.1 hcj).1
      omega
    have hi : (chain calls)[i]? = some (chain calls)[i] := List.getElem?_eq_getElem hlt
    have hle := hedge _ i rfl hi (hother i _ (by omega) (by omega) hi)
    have hclk := hclock (chain calls)[i].1
    have hmono : cnt calls (chain calls)[i].1 K ≤ cnt calls (chain calls)[i].1 i :=
      cnt_mono (by omega)
    rw [cnt_succ hi, if_pos rfl] at hle
    omega
  subst hjK
  exact ⟨hcj, by rw [← Option.some.inj h, cnt_succ hcj, if_pos rfl], hedge⟩

/-! ## The phases of a replay -/

/-- The thread is between two calls of the chain, or in a call that will be refused. -/
structure AtRest (calls : List (Nat × CallRecord)) (K t : Nat) (th : ReplayThread) (clock : Nat) :
    Prop where
  took : th.took = 0
  next : th.next = cnt calls t K
  clock : clock = cnt calls t K
  todo : ∃ es, th.todo = es ++ left calls t K ∧
    (∀ r, r ∈ es → r.branch = .eperm ∧ r.Ok) ∧ (es ≠ [] → t ≠ 0 ∧ cnt calls t K = 0) ∧
    (th.pc = .ready ∨ th.pc = .readOwner ∧ es ≠ [])

section
variable (calls : List (Nat × CallRecord)) (K : Nat) (s : Replay)

def OthersAtRest (a : Nat) : Prop :=
  ∀ t, t ≠ a → AtRest calls K t (s.threads t) (s.clock t)

/-- `owner` names a thread of the first `K` calls, if any. -/
def OwnerOk : Prop :=
  s.owner = 0 ∨ 0 < cnt calls s.owner K

end

structure Free (calls : List (Nat × CallRecord)) (K : Nat) (s : Replay) : Prop where
  hold : hold calls K = some .free
  rest : ∀ t, AtRest calls K t (s.threads t) (s.clock t)
  taken : s.taken = false
  queued : s.queued = 0

/-- Where the holder stands: before a call, or in an unlock up to its node. -/
def HeldPc (calls : List (Nat × CallRecord)) (K : Nat) (s : Replay) (a : Nat) : ReplayPc → Prop
  | .ready => s.taken = true ∧ s.owner = a
  | .readOwner | .clearTaken => s.taken = true ∧ s.owner = a ∧
    ∃ r rs, left calls a K = r :: rs ∧ r.branch = .release
  | .testQueued | .unlockWait => s.taken = false ∧
    ∃ r rs, left calls a K = r :: rs ∧ r.branch = .release
  | _ => False

structure Held (calls : List (Nat × CallRecord)) (K : Nat) (s : Replay) (a : Nat)
    (th : ReplayThread) : Prop where
  hold : hold calls K = some (.held a)
  queued : s.queued = 0
  took : th.took = 0
  next : th.next = cnt calls a K
  clock : s.clock a = cnt calls a K
  todo : th.todo = left calls a K
  pc : HeldPc calls K s a th.pc

/-- The `AdvanceHbNode` of the current node that is still to come. -/
def due : ReplayPc → Nat
  | .readTaken | .readQueued | .advance | .busyAdvance | .readInc | .writeInc _ | .queuedAdvance
  | .unlockAdvance => 1
  | _ => 0

/-- The progress of a call behind its node, and the mutex. -/
def Doing (s : Replay) (a : Nat) : Branch → ReplayPc → Prop
  | .acquire, .readTaken | .acquire, .readQueued | .acquire, .advance | .acquire, .setTaken =>
    s.taken = false ∧ s.queued = 0
  | .acquire, .setOwner => s.taken = true ∧ s.queued = 0
  | .ebusy, .readTaken | .ebusy, .busyAdvance => s.taken = true ∧ s.owner = a ∧ s.queued = 0
  | .queuedWait, .readTaken => s.taken = true
  | .queuedWait, .readInc | .queuedWait, .writeInc _ | .queuedWait, .queuedAdvance
  | .queuedWait, .sleepWait => True
  | .release, .unlockAdvance => s.taken = false ∧ s.queued = 0
  | _, _ => False

structure Active (calls : List (Nat × CallRecord)) (K : Nat) (s : Replay) (a : Nat)
    (r : CallRecord) (th : ReplayThread) : Prop where
  call : (chain calls)[K]? = some (a, r)
  took : th.took = 1
  next : th.next = cnt calls a (K + 1)
  todo : th.todo = r :: left calls a (K + 1)
  clock : s.clock a + due th.pc = cnt calls a (K + 1)
  doing : Doing s a r.branch th.pc

/-- The nodes are taken in the order of the chain, and at most one call of it is under way. -/
def Inv (calls : List (Nat × CallRecord)) (s : Replay) : Prop :=
  s.diverged = false ∧ ∃ K, OwnerOk calls K s ∧
    (Free calls K s ∨ ∃ a, OthersAtRest calls K s a ∧ (Held calls K s a (s.threads a) ∨
        ∃ L r, K = L + 1 ∧ Active calls L s a r (s.threads a)))

lemma OwnerOk.succ (h : OwnerOk calls K s) : OwnerOk calls (K + 1) s :=
  h.imp_right fun hpos => lt_of_lt_of_le hpos (cnt_mono (by omega))

/-! ## Threads that are at rest -/

variable {th : ReplayThread} {L : Nat}

lemma AtRest.succ {clock : Nat}
    (h : AtRest calls K t th clock) (hc : (chain calls)[K]? = some c) (hne : c.1 ≠ t) :
    AtRest calls (K + 1) t th clock := by
  have hcnt : cnt calls t (K + 1) = cnt calls t K := by
    rw [cnt_succ hc, if_neg hne, add_zero]
  have hleft : left calls t (K + 1) = left calls t K := by rw [left_eq hc, if_neg hne]
  exact ⟨h.took, by rw [hcnt]; exact h.next, by rw [hcnt]; exact h.clock,
    by rw [hcnt, hleft]; exact h.todo⟩

@[simp] lemma setThread_self (s : Replay) (t : Nat) (th : ReplayThread) :
    (s.setThread t th).threads t = th := by
  simp [setThread]

lemma setThread_ne (s : Replay) (th : ReplayThread) (h : u ≠ t) :
    (s.setThread t th).threads u = s.threads u := by
  simp [setThread, h]

section
variable (h : OthersAtRest calls K s a)
include h

lemma OthersAtRest.clock_le (ha : s.clock a ≤ cnt calls a K)
    (u : Nat) : s.clock u ≤ cnt calls u K := by
  by_cases hua : u = a
  · rw [hua]
    exact ha
  · exact (h u hua).clock.le

lemma OthersAtRest.move (hth : s'.threads = update s.threads a th)
    (hcl : ∀ u, u ≠ a → s'.clock u = s.clock u) :
    OthersAtRest calls K s' a := by
  intro u hua
  rw [hth, update_of_ne hua, hcl u hua]
  exact h u hua

lemma OthersAtRest.other (hth : AtRest calls K t th (s.clock t)) :
    OthersAtRest calls K (s.setThread t th) a := by
  intro u hua
  by_cases hut : u = t
  · rw [hut, setThread_self]
    exact hth
  · rw [setThread_ne s th hut]
    exact h u hua

end

lemma initial_inv {rec : Recording} (hc : Chained rec.graph rec.calls) :
    Inv rec.calls (initial rec) := by
  refine ⟨rfl, 0, .inl rfl, .inl ⟨rfl, fun t => ⟨rfl, rfl, rfl, ?_⟩, rfl, rfl⟩⟩
  obtain ⟨es, heq, hes, hne⟩ := hc.refused t
  refine ⟨es, heq, fun r hr => ⟨hes r hr, ?_⟩, fun h => ⟨hne h, rfl⟩, .inl rfl⟩
  have hmem : r ∈ opsOf t rec.calls := by
    rw [heq]
    exact mem_append_left _ hr
  obtain ⟨c, hcm, rfl⟩ := mem_map.1 hmem
  exact hc.records c (mem_of_mem_filter hcm)

lemma complete_eq (h : (s.threads t).took = r.nodes) :
    s.complete t r = s.setThread t ⟨.ready, (s.threads t).todo.tail, (s.threads t).next, 0⟩ := by
  exact if_pos h

lemma AtRest.refuse (h : AtRest calls K t (s.threads t) (s.clock t))
    (htodo : (s.threads t).todo = e :: es ++ left calls t K)
    (hes : ∀ r, r ∈ e :: es → r.branch = .eperm ∧ r.Ok) (hfirst : t ≠ 0 ∧ cnt calls t K = 0)
    (hpc : (s.threads t).pc = .ready ∨ (s.threads t).pc = .readOwner) (hown : OwnerOk calls K s)
    (hstep : step g s t = some s') :
    ∃ th, s' = s.setThread t th ∧ AtRest calls K t th (s.clock t) := by
  obtain ⟨hb, hok⟩ := hes e mem_cons_self
  simp only [CallRecord.Ok, hb] at hok
  have hdone : s.eperm t e =
      s.setThread t ⟨.ready, es ++ left calls t K, (s.threads t).next, 0⟩ := by
    unfold eperm
    rw [if_pos hb, complete_eq (by rw [h.took, hok.2]), htodo]
    rfl
  have hrest : AtRest calls K t ⟨.ready, es ++ left calls t K, (s.threads t).next, 0⟩
      (s.clock t) := by
    refine ⟨rfl, h.next, h.clock, es, rfl, fun r hr => ?_, fun _ => hfirst, .inl rfl⟩
    exact hes r (mem_cons_of_mem _ hr)
  have hne : s.owner ≠ t := by
    rintro rfl
    rcases hown with h0 | hpos
    · exact hfirst.1 h0
    · omega
  simp only [step, htodo, cons_append] at hstep
  rcases hpc with hpc | hpc
  · simp only [stepCall, hpc, hok.1, if_true, Option.some.injEq] at hstep
    split at hstep
    · subst hstep
      refine ⟨_, rfl, h.took, h.next, h.clock, e :: es, htodo, hes, fun _ => hfirst, ?_⟩
      exact .inr ⟨rfl, by simp⟩
    · rw [← hstep, hdone]
      exact ⟨_, rfl, hrest⟩
  · simp only [stepCall, hpc, ne_eq, hne, not_false_eq_true, if_true, Option.some.injEq] at hstep
    rw [← hstep, hdone]
    exact ⟨_, rfl, hrest⟩

lemma AtRest.step (hc : Chained g calls) (h : AtRest calls K t (s.threads t) (s.clock t))
    (hown : OwnerOk calls K s) (hclock : ∀ u, s.clock u ≤ cnt calls u K)
    (hstep : step g s t = some s') :
    (∃ th, s' = s.setThread t th ∧ AtRest calls K t th (s.clock t)) ∨
    (∃ r, (chain calls)[K]? = some (t, r) ∧ r.branch ≠ .release ∧
      s' = s.setThread t ⟨.readTaken, r :: left calls t (K + 1), cnt calls t (K + 1), 1⟩ ∧
      ∀ c i, K = i + 1 → (chain calls)[i]? = some c → c.1 ≠ t →
        cnt calls c.1 K ≤ s.clock c.1) ∨
    hold calls K = some (.held t) := by
  obtain ⟨es, htodo, hes, hfirst, hpc⟩ := h.todo
  cases es with
  | cons e es =>
    have hpc' : (s.threads t).pc = .ready ∨ (s.threads t).pc = .readOwner := hpc.imp_right And.left
    exact .inl (h.refuse htodo hes (hfirst (by simp)) hpc' hown hstep)
  | nil =>
    have hready : (s.threads t).pc = .ready := by
      rcases hpc with hpc | ⟨-, hne⟩
      · exact hpc
      · exact absurd rfl hne
    rw [nil_append] at htodo
    cases hleft : left calls t K with
    | nil => simp [Replay.step, htodo, hleft] at hstep
    | cons r rs =>
      obtain ⟨j, hKj, hcj, hcnt, hother⟩ := left_cons hleft
      have hok : r.Ok := hc.records (t, r) (mem_of_mem_filter (mem_of_getElem? hcj))
      simp only [Replay.step, htodo, hleft, stepCall, hready] at hstep
      by_cases hunlock : r.call = .unlock
      · exact .inr (.inr (hc.hold_of_unlock hcj hunlock hKj hother))
      rw [if_neg hunlock] at hstep
      obtain ⟨hK, hs', hpred⟩ := wait_next hc h.next hleft hclock hstep
      refine .inr (.inl ⟨r, hK, ?_, ?_, hpred⟩)
      · intro hb
        simp only [CallRecord.Ok, hb] at hok
        exact hunlock hok.1
      · rw [hs', htodo, h.took, left_eq hK, if_pos rfl]

/-! ## One step of a replay -/

section
variable {th : ReplayThread} (hrest : OthersAtRest calls K s a)
  (hth : s'.threads = update s.threads a th) (hcl : ∀ u, u ≠ a → s'.clock u = s.clock u)
  (hd : s'.diverged = false) (hown : OwnerOk calls K s')
include hrest hth hcl hd hown

lemma Held.inv (h : Held calls K s' a th) : Inv calls s' := by
  refine ⟨hd, K, hown, .inr ⟨a, hrest.move hth hcl, .inl ?_⟩⟩
  rw [hth, update_self]
  exact h

lemma Active.inv (hK : K = L + 1) (h : Active calls L s' a r th) : Inv calls s' := by
  refine ⟨hd, K, hown, .inr ⟨a, hrest.move hth hcl, .inr ⟨L, r, hK, ?_⟩⟩⟩
  rw [hth, update_self]
  exact h

end

open Active (inv)

lemma free_step (hc : Chained g calls) (hd : s.diverged = false) (hown : OwnerOk calls K s)
    (h : Free calls K s) (hstep : step g s t = some s') : Inv calls s' := by
  rcases (h.rest t).step hc hown (fun u => (h.rest u).clock.le) hstep with
    ⟨th, rfl, hrest⟩ | ⟨r, hK, -, rfl, -⟩ | hheld
  · refine ⟨hd, K, hown, .inl ⟨h.hold, fun u => ?_, h.taken, h.queued⟩⟩
    by_cases hut : u = t
    · rw [hut, setThread_self]
      exact hrest
    · rw [setThread_ne s th hut]
      exact h.rest u
  · -- only a lock comes after an unlock
    obtain ⟨H', hnext, -⟩ := hc.next_some hK h.hold
    have hb : r.branch = .acquire := by
      by_contra hb
      simp [Holder.next, hb] at hnext
    have hcnt : cnt calls t (K + 1) = cnt calls t K + 1 := by rw [cnt_succ hK, if_pos rfl]
    refine inv (fun u hut => (h.rest u).succ hK (Ne.symm hut)) rfl (fun _ _ => rfl) hd
      hown.succ rfl ⟨hK, rfl, rfl, rfl, ?_, ?_⟩
    · rw [hcnt, ← (h.rest t).clock]
      rfl
    · rw [hb]
      exact ⟨h.taken, h.queued⟩
  · rw [h.hold] at hheld
    cases hheld

lemma Holder.held_next (h : (held a).next (t, r) = some H') : t = a := by
  simp only [Holder.next] at h
  by_contra hta
  simp [hta] at h

lemma Held.next_call (hc : Chained g calls) (h : Held calls K s a th)
    (hleft : left calls a K = r :: rs) : (chain calls)[K]? = some (a, r) := by
  obtain ⟨j, hKj, hcj, -, hother⟩ := left_cons hleft
  have hlt := (List.getElem?_eq_some_iff.1 hcj).1
  have hK : (chain calls)[K]? = some (chain calls)[K] := List.getElem?_eq_getElem (by omega)
  obtain ⟨H', hnext, -⟩ := hc.next_some hK h.hold
  have hmine : (chain calls)[K].1 = a := Holder.held_next hnext
  have hjK : j = K := by
    by_contra hne
    exact hother K _ (le_refl K) (by omega) hK hmine
  rw [← hjK]
  exact hcj

section
variable (hc : Chained g calls) (hd : s.diverged = false) (hown : OwnerOk calls K s)
  (hrest : OthersAtRest calls K s a)
include hc hd hown hrest

section
variable (h : Held calls K s a (s.threads a))
include h

lemma held_other (hta : t ≠ a) (hstep : step g s t = some s') : Inv calls s' := by
  rcases (hrest t hta).step hc hown (hrest.clock_le h.clock.le) hstep with
    ⟨th, rfl, hnew⟩ | ⟨r, hK, -, -, -⟩ | hheld
  · refine ⟨hd, K, hown, .inr ⟨a, hrest.other hnew, .inl ?_⟩⟩
    rw [setThread_ne s th (Ne.symm hta)]
    exact { h with }
  · obtain ⟨H', hnext, -⟩ := hc.next_some hK h.hold
    exact absurd (Holder.held_next hnext) hta
  · rw [h.hold] at hheld
    cases hheld
    exact absurd rfl hta

/-- The holder takes the node of its next call. -/
lemma held_wait (hleft : left calls a K = r :: rs) (hdue : due pc = 1)
    (hdoing : Doing s a r.branch pc)
    (hstep : waitForHbNodeMustExist g s a r.ctx pc = some s') : Inv calls s' := by
  have hK := h.next_call hc hleft
  obtain ⟨-, rfl, -⟩ := wait_next hc h.next hleft (hrest.clock_le h.clock.le) hstep
  refine inv (fun u hua => (hrest u hua).succ hK (Ne.symm hua)) rfl (fun _ _ => rfl) hd
    hown.succ rfl ⟨hK, ?_, rfl, ?_, ?_, hdoing⟩
  · rw [h.took]
  · rw [h.todo, left_eq hK, if_pos rfl]
  · rw [hdue, cnt_succ hK, if_pos rfl, ← h.clock]
    rfl

lemma held_lock (hleft : left calls a K = r :: rs) (hp : s.taken = true ∧ s.owner = a)
    (hlock : r.call ≠ .unlock) (hstep : waitForHbNodeMustExist g s a r.ctx .readTaken = some s') :
    Inv calls s' := by
  have hK := h.next_call hc hleft
  obtain ⟨hok, hne⟩ := hc.ok_of hK
  obtain ⟨H', hnext, -⟩ := hc.next_some hK h.hold
  obtain ⟨hacq, -, -, -, -⟩ := next_eq hnext
  refine held_wait hc hd hown hrest h hleft rfl ?_ hstep
  cases hb : r.branch with
  | acquire => exact absurd (hacq hb).1 (by simp)
  | ebusy => exact ⟨hp.1, hp.2, h.queued⟩
  | queuedWait => exact hp.1
  | release =>
    simp only [CallRecord.Ok, hb] at hok
    exact absurd hok.1 hlock
  | eperm => exact absurd hb hne

lemma held_own (hstep : step g s a = some s') : Inv calls s' := by
  cases hleft : left calls a K with
  | nil => simp [Replay.step, h.todo, hleft] at hstep
  | cons r rs =>
    obtain ⟨hok, hne⟩ := hc.ok_of (h.next_call hc hleft)
    have hp := h.pc
    simp only [Replay.step, h.todo, hleft] at hstep
    cases hpc : (s.threads a).pc <;> simp only [hpc, HeldPc] at hp
    case ready =>
      simp only [stepCall, hpc] at hstep
      by_cases hunlock : r.call = .unlock
      · rw [if_pos hunlock, hp.1, if_pos rfl] at hstep
        cases hstep
        have hb : r.branch = .release := by
          cases hb : r.branch <;> simp_all [CallRecord.Ok]
        exact Held.inv hrest rfl (fun _ _ => rfl) hd hown
          { h with pc := ⟨hp.1, hp.2, r, rs, hleft, hb⟩ }
      · rw [if_neg hunlock] at hstep
        exact held_lock hc hd hown hrest h hleft hp hunlock hstep
    case readOwner =>
      obtain ⟨htk, ho, q, qs, hl, hb⟩ := hp
      cases hl.symm.trans hleft
      simp only [stepCall, hpc, ho, ne_eq, not_true_eq_false, if_false, takes, hb, if_true] at hstep
      cases hstep
      exact Held.inv hrest rfl (fun _ _ => rfl) hd hown { h with pc := ⟨htk, ho, _, _, hleft, hb⟩ }
    case clearTaken =>
      obtain ⟨htk, ho, hl⟩ := hp
      simp only [stepCall, hpc] at hstep
      cases hstep
      exact Held.inv hrest rfl (fun _ _ => rfl) hd hown { h with pc := ⟨rfl, hl⟩ }
    case testQueued =>
      simp only [stepCall, hpc, h.queued, lt_irrefl, if_false] at hstep
      cases hstep
      exact Held.inv hrest rfl (fun _ _ => rfl) hd hown { h with pc := hp }
    case unlockWait =>
      obtain ⟨htk, q, qs, hl, hb⟩ := hp
      cases hl.symm.trans hleft
      simp only [stepCall, hpc] at hstep
      refine held_wait hc hd hown hrest h hleft rfl ?_ hstep
      rw [hb]
      exact ⟨htk, h.queued⟩

end

lemma active_other (hL : K = L + 1) (h : Active calls L s a r (s.threads a))
    (hta : t ≠ a) (hstep : step g s t = some s') : Inv calls s' := by
  subst hL
  obtain ⟨H, hH⟩ := hc.hold_some L
  obtain ⟨H', hnext, hH'⟩ := hc.next_some h.call hH
  obtain ⟨hacq, hbusy, hqueue, hrel, hne⟩ := next_eq hnext
  have hclock := h.clock
  rcases (hrest t hta).step hc hown (hrest.clock_le (by omega)) hstep with
    ⟨th, rfl, hnew⟩ | ⟨q, hK, -, -, hpred⟩ | hheld
  · refine ⟨hd, L + 1, hown, .inr ⟨a, hrest.other hnew, .inr ⟨L, r, rfl, ?_⟩⟩⟩
    rw [setThread_ne s th (Ne.symm hta)]
    exact { h with }
  · obtain ⟨H'', hnext', -⟩ := hc.next_some hK hH'
    cases hb : r.branch with
    | acquire =>
      rw [(hacq hb).2] at hnext'
      exact absurd (Holder.held_next hnext') hta
    | ebusy =>
      rw [(hbusy hb).2] at hnext'
      exact absurd (Holder.held_next hnext') hta
    | queuedWait =>
      rw [(hqueue hb).2] at hnext'
      cases hnext'
    | release =>
      -- the clock of the unlock is still to come
      have hle : cnt calls a (L + 1) ≤ s.clock a := hpred (a, r) L rfl h.call (Ne.symm hta)
      have hpc : (s.threads a).pc = .unlockAdvance := by
        have hdoing := h.doing
        rw [hb] at hdoing
        cases hpc : (s.threads a).pc <;> simp [hpc, Doing] at hdoing
        rfl
      rw [hpc] at hclock
      simp only [due] at hclock
      omega
    | eperm => exact absurd hb hne
  · rw [hH'] at hheld
    cases hheld
    cases hb : r.branch with
    | acquire => exact absurd (held.inj (hacq hb).2) hta
    | ebusy => exact absurd (held.inj (hbusy hb).2) hta
    | queuedWait => cases (hqueue hb).2
    | release => cases (hrel hb).2
    | eperm => exact absurd hb hne

end

lemma ownerOk_self (h : (chain calls)[K]? = some (a, r)) (hown : s.owner = a) :
    OwnerOk calls (K + 1) s := by
  refine .inr ?_
  rw [hown, cnt_succ h, if_pos rfl]
  omega

lemma advanceHbNode_clock (s : Replay) (a : Nat) :
    (s.advanceHbNode a).clock a = s.clock a + 1 ∧
    ∀ u, u ≠ a → (s.advanceHbNode a).clock u = s.clock u := by
  constructor
  · simp [advanceHbNode]
  · intro u hu
    simp [advanceHbNode, hu]

section
variable (h : Active calls K s a r (s.threads a))
include h

lemma complete_active (s' : Replay) (hn : r.nodes = 1) (hth : s'.threads = s.threads) :
    s'.complete a r = s'.setThread a ⟨.ready, left calls a (K + 1), cnt calls a (K + 1), 0⟩ := by
  rw [complete_eq (by rw [hth, h.took, hn]), hth, h.todo, h.next]
  rfl

variable (hd : s.diverged = false) (hown : OwnerOk calls (K + 1) s)
  (hrest : OthersAtRest calls (K + 1) s a)
include hd hown hrest

section
variable (hstep : stepCall g s a r = some s')
include hstep

lemma active_acquire (hb : r.branch = .acquire) (hn : r.nodes = 1)
    (hH : hold calls (K + 1) = some (.held a)) :
    Inv calls s' := by
  have hclock := h.clock
  have hdoing := h.doing
  unfold stepCall at hstep
  cases hpc : (s.threads a).pc <;> simp only [hb, hpc, Doing] at hdoing hstep hclock
  case readTaken =>
    rw [hdoing.1, if_neg (by simp)] at hstep
    cases hstep
    exact inv hrest rfl (fun _ _ => rfl) hd hown rfl
      { h with clock := hclock, doing := by rw [hb]; exact hdoing }
  case readQueued =>
    rw [hdoing.2, if_neg (by simp), takes, if_pos hb] at hstep
    cases hstep
    exact inv hrest rfl (fun _ _ => rfl) hd hown rfl
      { h with clock := hclock, doing := by rw [hb]; exact hdoing }
  case advance =>
    cases hstep
    obtain ⟨h1, h2⟩ := advanceHbNode_clock s a
    exact inv hrest rfl h2 hd hown rfl
      { h with clock := h1.trans hclock, doing := by rw [hb]; exact hdoing }
  case setTaken =>
    cases hstep
    exact inv hrest rfl (fun _ _ => rfl) hd hown rfl
      { h with clock := hclock, doing := by rw [hb]; exact ⟨rfl, hdoing.2⟩ }
  case setOwner =>
    rw [complete_active h { s with owner := a } hn rfl] at hstep
    cases hstep
    exact Held.inv hrest rfl (fun _ _ => rfl) hd (ownerOk_self h.call rfl)
      ⟨hH, hdoing.2, rfl, rfl, hclock, rfl, hdoing.1, rfl⟩

lemma active_ebusy (hb : r.branch = .ebusy) (hcall : r.call = .trylock) (hn : r.nodes = 1)
    (hH : hold calls (K + 1) = some (.held a)) :
    Inv calls s' := by
  have hclock := h.clock
  have hdoing := h.doing
  unfold stepCall at hstep
  cases hpc : (s.threads a).pc <;> simp only [hb, hpc, Doing] at hdoing hstep hclock
  case readTaken =>
    rw [hdoing.1, if_pos rfl, busy, if_pos hcall, takes, if_pos hb] at hstep
    cases hstep
    exact inv hrest rfl (fun _ _ => rfl) hd hown rfl
      { h with clock := hclock, doing := by rw [hb]; exact hdoing }
  case busyAdvance =>
    rw [complete_active h (s.advanceHbNode a) hn rfl] at hstep
    cases hstep
    obtain ⟨h1, h2⟩ := advanceHbNode_clock s a
    exact Held.inv hrest rfl h2 hd hown
      ⟨hH, hdoing.2.2, rfl, rfl, h1.trans hclock, rfl, hdoing.1, hdoing.2.1⟩

/-- The owner locks again and never gets past its sleep. -/
lemma active_queuedWait (hc : Chained g calls) (hb : r.branch = .queuedWait)
    (hcall : r.call = .lock) (hH : hold calls (K + 1) = some (.stuck a)) :
    Inv calls s' := by
  have hclock := h.clock
  have hdoing := h.doing
  unfold stepCall at hstep
  cases hpc : (s.threads a).pc <;> simp only [hb, hpc, Doing] at hdoing hstep hclock
  case readTaken =>
    rw [hdoing, if_pos rfl, busy, if_neg (by simp [hcall]), takes, if_pos hb] at hstep
    cases hstep
    exact inv hrest rfl (fun _ _ => rfl) hd hown rfl
      { h with clock := hclock, doing := by rw [hb]; trivial }
  case readInc | writeInc =>
    cases hstep
    exact inv hrest rfl (fun _ _ => rfl) hd hown rfl
      { h with clock := hclock, doing := by rw [hb]; trivial }
  case queuedAdvance =>
    cases hstep
    obtain ⟨h1, h2⟩ := advanceHbNode_clock s a
    exact inv hrest rfl h2 hd hown rfl
      { h with clock := h1.trans hclock, doing := by rw [hb]; trivial }
  case sleepWait =>
    -- nothing comes after a call that is stuck
    have hend : (chain calls).length = K + 1 := by
      have hlt := (List.getElem?_eq_some_iff.1 h.call).1
      by_contra hne
      have hK : (chain calls)[K + 1]? = some (chain calls)[K + 1] :=
        List.getElem?_eq_getElem (by omega)
      obtain ⟨H', hnext, -⟩ := hc.next_some hK hH
      cases hnext
    rw [if_pos (by rw [h.next, hc.allOf_length, hend])] at hstep
    cases hstep

lemma active_release (hb : r.branch = .release) (hn : r.nodes = 1)
    (hH : hold calls (K + 1) = some .free) : Inv calls s' := by
  have hclock := h.clock
  have hdoing := h.doing
  unfold stepCall at hstep
  cases hpc : (s.threads a).pc <;> simp only [hb, hpc, Doing] at hdoing hstep hclock
  case unlockAdvance =>
    rw [complete_active h (s.advanceHbNode a) hn rfl] at hstep
    cases hstep
    obtain ⟨h1, h2⟩ := advanceHbNode_clock s a
    refine ⟨hd, K + 1, hown, .inl ⟨hH, fun u => ?_, hdoing.1, hdoing.2⟩⟩
    by_cases hua : u = a
    · subst hua
      exact ⟨by simp, by simp, h1.trans hclock, [], by simp, by simp, by simp, .inl (by simp)⟩
    rw [setThread_ne _ _ hua]
    show AtRest _ _ u (s.threads u) ((s.advanceHbNode a).clock u)
    rw [h2 u hua]
    exact hrest u hua

end

lemma active_own (hc : Chained g calls) (hstep : step g s a = some s') : Inv calls s' := by
  obtain ⟨H, hH⟩ := hc.hold_some K
  obtain ⟨H', hnext, hH'⟩ := hc.next_some h.call hH
  obtain ⟨hacq, hbusy, hqueue, hrel, hne⟩ := next_eq hnext
  have hok := (hc.ok_of h.call).1
  simp only [Replay.step, h.todo] at hstep
  unfold CallRecord.Ok at hok
  cases hb : r.branch with
  | acquire =>
    simp only [hb] at hok
    exact active_acquire h hd hown hrest hstep hb hok.2 (by rw [hH', (hacq hb).2])
  | ebusy =>
    simp only [hb] at hok
    exact active_ebusy h hd hown hrest hstep hb hok.1 hok.2 (by rw [hH', (hbusy hb).2])
  | queuedWait =>
    simp only [hb] at hok
    exact active_queuedWait h hd hown hrest hstep hc hb hok.1 (by rw [hH', (hqueue hb).2])
  | release =>
    simp only [hb] at hok
    exact active_release h hd hown hrest hstep hb hok.2 (by rw [hH', (hrel hb).2])
  | eperm => exact absurd hb hne

end

lemma inv_step (hc : Chained g calls) (hi : Inv calls s) (hstep : step g s t = some s') :
    Inv calls s' := by
  obtain ⟨hd, K, hown, hfree | ⟨a, hrest, hheld | ⟨L, r, rfl, hactive⟩⟩⟩ := hi
  · exact free_step hc hd hown hfree hstep
  · by_cases hta : t = a
    · subst hta
      exact held_own hc hd hown hrest hheld hstep
    · exact held_other hc hd hown hrest hheld hta hstep
  · by_cases hta : t = a
    · subst hta
      exact active_own hactive hd hown hrest hc hstep
    · exact active_other hc hd hown hrest rfl hactive hta hstep

/-! ## Agreement -/

/-- Every replay of a recorded run in which only the owner made contended calls takes the
recorded branches and the recorded nodes. -/
theorem agrees_of_meets (n : Nat) (static : Bool) (rec : Recording)
    (h : Machine.ReachesBy (Recording.step n) Recording.OwnerOnly (.initial static) rec) :
    ∀ s, Machine.Reaches (step rec.graph) (initial rec) s → s.diverged = false := by
  rintro s ⟨ls, hrun⟩
  have hc := Recording.chained_of_meets h
  have hinv : Inv rec.calls s :=
    Machine.inv_of_run (step rec.graph) (fun _ _ _ hi hs => inv_step hc hi hs) (initial_inv hc) hrun
  exact hinv.1

/-- Thread 0 locks, is refused its own trylock and unlocks; thread 1 locks behind it. -/
theorem agrees_of_meets_handover :
    ∃ rec, Machine.ReachesBy (Recording.step 2) Recording.OwnerOnly (.initial true) rec ∧
      (rec.callsOf 0).map CallRecord.branch = [.acquire, .ebusy, .release] ∧
      (rec.callsOf 1).map CallRecord.branch = [.acquire] ∧
      ∀ s, Machine.Reaches (step rec.graph) (initial rec) s → s.diverged = false := by
  have hreach : ∃ rec, Machine.ReachesBy (Recording.step 2) Recording.OwnerOnly (.initial true) rec ∧
      (rec.callsOf 0).map CallRecord.branch = [.acquire, .ebusy, .release] ∧
      (rec.callsOf 1).map CallRecord.branch = [.acquire] :=
    ⟨_, ⟨[(0, .lock ⟨1, false⟩), (0, .trylock ⟨2, false⟩), (0, .unlock ⟨3, false⟩ none),
      (1, .lock ⟨4, false⟩)], rfl, by decide⟩, rfl, rfl⟩
  obtain ⟨rec, hr, h0, h1⟩ := hreach
  exact ⟨rec, hr, h0, h1, agrees_of_meets 2 true rec hr⟩

/-- One thread at a time is past the wait of a lock or the owner's test of an unlock. -/
theorem one_inside {rec : Recording}
    (h : Machine.ReachesBy (Recording.step n) Recording.OwnerOnly (.initial static) rec)
    (hs : Machine.Reaches (step rec.graph) (initial rec) s) :
    ∃ a, ∀ t, t ≠ a → (s.threads t).pc ∈ [.ready, .readOwner] := by
  obtain ⟨ls, hrun⟩ := hs
  have hc := Recording.chained_of_meets h
  obtain ⟨-, K, -, hinv⟩ : Inv rec.calls s :=
    Machine.inv_of_run (step rec.graph) (fun _ _ _ hi hs => inv_step hc hi hs) (initial_inv hc) hrun
  have hrest : ∃ a, OthersAtRest rec.calls K s a := by
    rcases hinv with hfree | ⟨a, hothers, -⟩
    · exact ⟨0, fun t _ => hfree.rest t⟩
    · exact ⟨a, hothers⟩
  obtain ⟨a, ha⟩ := hrest
  refine ⟨a, fun t ht => ?_⟩
  obtain ⟨es, -, -, -, hpc⟩ := (ha t ht).todo
  simpa using hpc.imp_right And.left

/-- Thread 0 has locked and unlocked the mutex, and thread 1 is about to take it. -/
theorem one_inside_handover :
    ∃ s : Replay, (s.threads 0).pc = .ready ∧ (s.threads 1).pc = .setTaken ∧
      ∃ a, ∀ t, t ≠ a → (s.threads t).pc ∈ [.ready, .readOwner] := by
  have hreach : ∃ rec, Machine.ReachesBy (Recording.step 2) Recording.OwnerOnly (.initial true) rec ∧
      ∃ s, Machine.Reaches (step rec.graph) (initial rec) s ∧ (s.threads 0).pc = .ready ∧
        (s.threads 1).pc = .setTaken :=
    ⟨_, ⟨[(0, .lock ⟨1, false⟩), (0, .unlock ⟨2, false⟩ none), (1, .lock ⟨4, false⟩)], rfl,
      by decide⟩, _, ⟨List.replicate 12 0 ++ List.replicate 4 1, rfl⟩, rfl, rfl⟩
  obtain ⟨rec, h, s, hs, hready, htaken⟩ := hreach
  exact ⟨s, hready, htaken, one_inside h hs⟩

/-- Thread 0 has advanced its clock and not yet stored `taken`: the trylock of thread 1, which
was refused in the recorded run, takes the mutex. -/
theorem diverges_after_advance :
    ∃ rec, Machine.Reaches (Recording.step 2) (.initial true) rec ∧
      (rec.callsOf 1).map CallRecord.branch = [.ebusy] ∧
      ∃ s, Machine.Reaches (step rec.graph) (initial rec) s ∧ s.diverged = true :=
  ⟨_, ⟨[(0, .lock ⟨1, false⟩), (1, .trylock ⟨2, false⟩)], rfl⟩, rfl,
    _, ⟨[0, 0, 0, 0, 1, 1, 1], rfl⟩, rfl⟩

end Replay

end InputCovSched
