import InputCovSched.Runtime.SemReplay

/-!
# Replays of a semaphore agree with the recorded run

The reference trace of a symbolic run, built call by call (`SemRecording.Traced`). A call that
changes the count is ordered with all that came before through `sem->last_hbnode`. A call that found
the count at 0 is behind the last change, and nothing is behind it: a later post of another thread
is not ordered with its read. While no such post happens, the trace is race free
(`sem_replay_agrees`).
-/

namespace InputCovSched

open SharedMemory Function List Option

abbrev SAct := Act Unit Nat

namespace SemProg

variable {rounds cur m c : Nat}

@[simp] lemma bind_eq {α β : Type} (p : SemProg α) (f : α → SemProg β) : (p >>= f) = p.bind f := rfl

@[simp] lemma pure_eq {α : Type} (a : α) : (pure a : SemProg α) = .ret a := rfl

/-- What a call does with its node `m`. -/
def callActs (m : Nat) (pre : List SAct) : List SAct := .wait m :: (pre ++ [.advance m])

lemma callActs_advances (h : ∀ a ∈ pre, a.loc? = some ()) :
    (callActs m pre).filterMap Act.advances? = [m] := by
  have hpre : pre.filterMap Act.advances? = [] := by
    rw [filterMap_eq_nil_iff]
    intro a ha
    have hloc := h a ha
    cases a <;> first | rfl | cases hloc
  show (pre ++ [Act.advance m]).filterMap Act.advances? = [m]
  rw [filterMap_append, hpre]
  rfl

def waitRest (rounds : Nat) : SemProg Unit := do
  waitForHbNodeMustExistCanSleep
  let r ← downLoop false rounds
  check (r = .ok)

/-- With only its own node the call does the actions, takes the node, and returns what it returned
in the symbolic run, or sleeps. -/
def Does (rounds : Nat) (call : SemCall) (m : Nat) (acts : List SAct) : Prop :=
  ∀ cur, ∃ p, Thread.after ⟨runCall rounds call, cur, [m]⟩ acts = some ⟨p, m, []⟩ ∧
    (p = .ret () ∨ p = waitRest rounds)

/-- The calls of a thread, each with its own node, and what they do. -/
inductive CallByCall (rounds : Nat) : List SemCall → List Nat → List SAct → Prop
  | nil : CallByCall rounds [] [] []
  | snoc {calls : List SemCall} {nodes : List Nat} {acts acts' : List SAct} {call : SemCall} {m : Nat}
      (h : CallByCall rounds calls nodes acts) (hcall : Does rounds call m acts') :
      CallByCall rounds (calls ++ [call]) (nodes ++ [m]) (acts ++ acts')

lemma runCalls_append (calls : List SemCall) (call : SemCall) :
    runCalls rounds (calls ++ [call]) = (runCalls rounds calls).bind fun _ => runCall rounds call := by
  induction calls with
  | nil => exact Prog.bind_ret _
  | cons c cs ih => simp only [cons_append, runCalls, bind_eq, ih, Prog.bind_assoc]

/-! What the calls do when they find `c`. -/

def takeActs (c : Nat) : List SAct :=
  [.read () c, .read () c, .write () ((c + (2 ^ 32 - 1)) % 2 ^ 32)]

def postActs (c : Nat) : List SAct := [.read () c, .write () ((c + 1) % 2 ^ 32)]

lemma runActs_write (pre : List SAct) (c' : Nat) :
    runActs (fun _ => c) (pre ++ [.write () c']) = fun _ => c' := by
  funext l
  simp [runActs, Act.apply]

lemma runActs_takeActs :
    runActs (fun _ => c) (takeActs c) = fun _ => (c + (2 ^ 32 - 1)) % 2 ^ 32 :=
  runActs_write [.read () c, .read () c] _

lemma runActs_postActs : runActs (fun _ => c) (postActs c) = fun _ => (c + 1) % 2 ^ 32 :=
  runActs_write [.read () c] _

attribute [local simp] Prog.bind runCall dodown downLoop doup waitForHbNodeMustExist
  waitForHbNodeMustExistCanSleep advanceHbNode load store check callActs takeActs postActs waitRest

lemma after_wait_ok (hc : c ≠ 0) : Thread.after ⟨runCall rounds .wait, cur, [m]⟩
    (callActs m (takeActs c)) = some ⟨.ret (), m, []⟩ := by
  simp [hc]

lemma after_wait_sleeps : Thread.after ⟨runCall rounds .wait, cur, [m]⟩
    (callActs m [.read () 0]) = some ⟨waitRest rounds, m, []⟩ := by
  simp

lemma after_trywait_ok (hc : c ≠ 0) : Thread.after ⟨runCall rounds (.trywait .ok), cur, [m]⟩
    (callActs m (takeActs c)) = some ⟨.ret (), m, []⟩ := by
  simp [hc]

lemma after_trywait_eagain : Thread.after ⟨runCall rounds (.trywait .eagain), cur, [m]⟩
    (callActs m [.read () 0]) = some ⟨.ret (), m, []⟩ := by
  simp

lemma after_post : Thread.after ⟨runCall rounds .post, cur, [m]⟩
    (callActs m (postActs c)) = some ⟨.ret (), m, []⟩ := by
  simp

end SemProg

namespace SemRecording

open SemProg

def rest (rounds : Nat) : Status Unit → SemProg Unit
  | .enabled => .ret ()
  | _ => waitRest rounds

lemma rest_of_enabled {st : Status Unit}
    {th : Option (SharedMemory.Thread Unit Nat)} (h : st = .enabled)
    (hth : th = some ⟨.ret (), m, []⟩) : th = some ⟨rest rounds st, m, []⟩ := by
  rw [hth, h]
  rfl

/-- A trace of the whole recorded run. -/
structure Traced (value rounds : Nat) (r : SemRecording) (T : List (Event Unit Nat)) : Prop where
  seqOk : SeqOk (fun _ => value) T
  advanced : advanced T = List.range' 1 r.graph.nodes.length
  inOrder : InOrder T
  raceFree : RaceFree r.graph.preds T
  edges : ∀ a b, r.graph.Edge a b → 0 < a ∧ a < b
  lastNode : ∀ t, r.sys.engine.lastHbNode t ≤ r.graph.nodes.length
  chain : r.sys.sem.lastHbNode ≤ r.graph.nodes.length
  ordered : ∀ i w a, T[i]? = some ⟨w, a⟩ → a.loc? = some () →
    SharedMemory.Reaches r.graph.preds T i r.sys.sem.lastHbNode ∨ a.isWrite = false ∧ w ∈ r.missed
  count : runMem (fun _ => value) T = fun _ => r.sys.sem.count
  zero : r.missed ≠ [] → r.sys.sem.count = 0
  status : ∀ t, r.sys.engine.status t = .enabled ∨
    (∃ w, r.sys.engine.status t = .asleep w ()) ∧ t ∈ r.missed
  calls : ∀ t, CallByCall rounds (r.callsOf t) (r.graph.nodesOf t) (log t T)
  follows : ∀ t, ∃ cur, Thread.after ⟨runCalls rounds (r.callsOf t), 0, r.graph.nodesOf t⟩ (log t T) =
    some ⟨rest rounds (r.sys.engine.status t), cur, []⟩

variable {value rounds v : Nat} {r : SemRecording} {T : List (Event Unit Nat)}

/-! ## One call -/

/-- Thread `v` makes a call that leads to `s'`; at run time it does `callActs _ pre`. The call
changes the count, behind everything before it; or it finds 0 and only reads. -/
structure Calls (rounds : Nat) (r : SemRecording) (v : Nat) (s' : SemSys) (call : SemCall)
    (missed' : List Nat) (pre : List SAct) : Prop where
  graph : s'.engine.hbGraph =
    (r.sys.engine.threadMakeHbnodeFrom v syncCtx r.sys.sem.lastHbNode).2.hbGraph
  lastNode : s'.engine.lastHbNode =
    update r.sys.engine.lastHbNode v (r.graph.nodes.length + 1)
  others : ∀ t, t ≠ v → s'.engine.status t = r.sys.engine.status t
  self : s'.engine.status v = .enabled ∨ (∃ w, s'.engine.status v = .asleep w ()) ∧ v ∈ missed'
  accesses : ∀ a ∈ pre, a.loc? = some ()
  actsOk : ActsOk (fun _ => r.sys.sem.count) pre
  count : runActs (fun _ => r.sys.sem.count) pre = fun _ => s'.sem.count
  run : ∀ cur m, Thread.after ⟨runCall rounds call, cur, [m]⟩ (callActs m pre) =
    some ⟨rest rounds (s'.engine.status v), m, []⟩
  chain : (s'.sem.lastHbNode = r.graph.nodes.length + 1 ∧ missed' = [] ∧ ∀ w ∈ r.missed, w = v) ∨
    (s'.sem.lastHbNode = r.sys.sem.lastHbNode ∧ missed' = r.missed ++ [v] ∧ s'.sem.count = 0 ∧
      ∀ a ∈ pre, a.isWrite = false)

section
variable {s' : SemSys} {call : SemCall} {missed' : List Nat} {pre : List SAct}

lemma callsOf_append (t : Nat) : callsOf ⟨s', r.calls ++ [(v, call)], missed'⟩ t =
    r.callsOf t ++ if t = v then [call] else [] := by
  unfold callsOf
  by_cases h : t = v
  · simp [h]
  · simp [h, Ne.symm h]

section
variable (hc : Calls rounds r v s' call missed' pre)
include hc

lemma Calls.preds_mono (a b : Nat) (h : a ∈ r.graph.preds b) : a ∈ s'.engine.hbGraph.preds b := by
  rw [hc.graph]
  exact KState.threadMakeHbnodeFrom_preds h

lemma Calls.length_eq : s'.engine.hbGraph.size = r.graph.size + 1 := by
  rw [hc.graph]
  exact KState.threadMakeHbnodeFrom_length

lemma Calls.nodesOf_eq (t : Nat) :
    s'.engine.hbGraph.nodesOf t =
      r.graph.nodesOf t ++ if t = v then [r.graph.size + 1] else [] := by
  rw [hc.graph]
  exact KState.threadMakeHbnodeFrom_nodesOf

end

section
variable (h : Traced value rounds r T) (hc : Calls rounds r v s' call missed' pre) {a : SAct}
include h hc

lemma Traced.hb_wait (hi : SharedMemory.Reaches r.graph.preds T i r.sys.sem.lastHbNode) :
    HB s'.engine.hbGraph.preds (T ++ block v (callActs (r.graph.size + 1) pre)) i T.length := by
  have hmem := hi.mem_advanced
  rw [h.advanced, mem_range'_1] at hmem
  have hsrc : r.sys.sem.lastHbNode ∈ s'.engine.hbGraph.preds (r.graph.size + 1) := by
    rw [hc.graph]
    exact KState.threadMakeHbnodeFrom_source (by omega) h.chain
  refine (hi.append hc.preds_mono).hb_wait (t := v) ?_ hsrc
  exact getElem?_append_add (i := 0) (getElem?_block rfl)

lemma Traced.hb_call (hi : T[i]? = some ⟨w, a⟩) (hw : w ≠ v)
    (hb : b ∈ callActs (r.graph.size + 1) pre) (hab : Conflict a b) :
    HB s'.engine.hbGraph.preds (T ++ block v (callActs (r.graph.size + 1) pre)) i T.length := by
  obtain ⟨⟨l, ha, hbl⟩, hwrite⟩ := hab
  rcases h.ordered i w a hi ha with hreach | ⟨hread, hmissed⟩
  · exact h.hb_wait hc hreach
  -- a late read: only a call that changes the count conflicts with it
  rcases hc.chain with ⟨-, -, hall⟩ | ⟨-, -, -, hreads⟩
  · exact absurd (hall w hmissed) hw
  have hbpre : b ∈ pre := by
    rcases mem_cons.1 hb with rfl | hb
    · cases hbl
    rcases mem_append.1 hb with hb | hb
    · exact hb
    · rw [mem_singleton.1 hb] at hbl
      cases hbl
  rw [hread, hreads b hbpre] at hwrite
  simp at hwrite

lemma Traced.ordered_call
    (hi : (T ++ block v (callActs (r.graph.size + 1) pre))[i]? = some ⟨w, a⟩)
    (ha : a.loc? = some ()) :
    SharedMemory.Reaches s'.engine.hbGraph.preds
        (T ++ block v (callActs (r.graph.size + 1) pre)) i s'.sem.lastHbNode ∨
      a.isWrite = false ∧ w ∈ missed' := by
  have hlast : (T ++ block v (callActs (r.graph.size + 1) pre))[T.length + (pre.length + 1)]? =
      some ⟨v, .advance (r.graph.size + 1)⟩ :=
    getElem?_append_add (getElem?_block (by simp [callActs]))
  have hfirst : (T ++ block v (callActs (r.graph.size + 1) pre))[T.length]? =
      some ⟨v, .wait (r.graph.size + 1)⟩ :=
    getElem?_append_add (i := 0) (getElem?_block rfl)
  rcases hc.chain with ⟨hnode, -, hall⟩ | ⟨hnode, hmissed, -, hreads⟩
  · -- everything reaches the node of the call
    left
    rw [hnode]
    rcases getElem?_append_cases hi with hi' | ⟨p, rfl, hp⟩
    · rcases h.ordered i w a hi' ha with hreach | ⟨-, hw⟩
      · exact (h.hb_wait hc hreach).reaches hfirst hlast (by omega)
      obtain rfl := hall w hw
      have := (List.getElem?_eq_some_iff.1 hi').1
      exact ⟨_, w, hlast, .po hi hlast (by omega)⟩
    obtain ⟨rfl, -⟩ := mem_block.1 (mem_of_getElem? hp)
    refine ⟨_, w, hlast, .po hi hlast ?_⟩
    have hlt := (List.getElem?_eq_some_iff.1 hp).1
    have hne : p ≠ pre.length + 1 := by
      rintro rfl
      rw [hi] at hlast
      cases hlast
      cases ha
    simp only [block, callActs, length_map, length_cons, length_append, length_nil] at hlt
    omega
  · rw [hnode, hmissed]
    rcases getElem?_append_cases hi with hi' | ⟨p, rfl, hp⟩
    · rcases h.ordered i w a hi' ha with hreach | ⟨hread, hw⟩
      · exact .inl (hreach.append hc.preds_mono)
      · exact .inr ⟨hread, mem_append_left _ hw⟩
    obtain ⟨rfl, hmem⟩ := mem_block.1 (mem_of_getElem? hp)
    refine .inr ⟨?_, mem_append_right _ mem_cons_self⟩
    simp only [callActs, mem_cons, mem_append, not_mem_nil, or_false] at hmem
    rcases hmem with rfl | hmem | rfl
    · rfl
    · exact hreads a hmem
    · rfl

lemma Traced.extend (hst : r.sys.engine.status v = .enabled) :
    Traced value rounds ⟨s', r.calls ++ [(v, call)], missed'⟩
      (T ++ block v (callActs (r.graph.size + 1) pre)) where
  seqOk := by
    rw [seqOk_append, seqOk_block, h.count]
    refine ⟨h.seqOk, trivial, ?_⟩
    rw [actsOk_append]
    exact ⟨hc.actsOk, trivial, trivial⟩
  advanced := by
    show _ = List.range' 1 s'.engine.hbGraph.size
    rw [advanced_append, h.advanced, advanced_block, callActs_advances hc.accesses, hc.length_eq,
      List.range'_concat, one_mul, add_comm 1]
  inOrder := by
    apply h.inOrder.block h.advanced
    intro m hm
    simp only [callActs, mem_cons, mem_append, not_mem_nil, or_false, reduceCtorEq,
      Act.wait.injEq] at hm
    rcases hm with rfl | hm
    · rfl
    · cases hc.accesses _ hm
  raceFree := by
    apply h.raceFree.block hc.preds_mono
    intro i w a b hi hw hb hab
    exact h.hb_call hc hi hw hb hab
  edges := by
    intro a b hab
    have hab : s'.engine.hbGraph.Edge a b := hab
    rw [hc.graph] at hab
    rcases KState.threadMakeHbnodeFrom_edge hab with hab | ⟨rfl, h0, hab⟩
    · exact h.edges a b hab
    refine ⟨by omega, Nat.lt_succ_of_le ?_⟩
    rcases hab with rfl | rfl
    · exact h.lastNode v
    · exact h.chain
  lastNode := by
    intro t
    show s'.engine.lastHbNode t ≤ s'.engine.hbGraph.size
    rw [hc.lastNode, hc.length_eq]
    by_cases ht : t = v
    · rw [ht, update_self]
    · rw [update_of_ne ht]
      exact Nat.le_succ_of_le (h.lastNode t)
  chain := by
    show s'.sem.lastHbNode ≤ s'.engine.hbGraph.size
    have hle := h.chain
    rw [hc.length_eq]
    rcases hc.chain with ⟨hnode, -⟩ | ⟨hnode, -⟩ <;> rw [hnode]
    exact Nat.le_succ_of_le hle
  ordered := by
    intro i w a hi ha
    exact h.ordered_call hc hi ha
  count := by
    have hwait : runActs (fun _ => r.sys.sem.count) (callActs (r.graph.size + 1) pre) =
        runActs (runActs (fun _ => r.sys.sem.count) pre) [.advance (r.graph.size + 1)] :=
      runActs_append
    rw [runMem_append, h.count, runMem_block, hwait, hc.count]
    rfl
  zero := by
    intro hne
    rcases hc.chain with ⟨-, hnil, -⟩ | ⟨-, -, hzero, -⟩
    · exact absurd hnil hne
    · exact hzero
  status := by
    intro t
    show s'.engine.status t = .enabled ∨ (∃ w, s'.engine.status t = .asleep w ()) ∧ t ∈ missed'
    by_cases ht : t = v
    · rw [ht]
      exact hc.self
    rw [hc.others t ht]
    refine (h.status t).imp_right ?_
    rintro ⟨hasleep, hmem⟩
    refine ⟨hasleep, ?_⟩
    rcases hc.chain with ⟨-, -, hall⟩ | ⟨-, hmissed, -⟩
    · exact absurd (hall t hmem) ht
    · rw [hmissed]
      exact mem_append_left _ hmem
  calls := by
    intro t
    rw [callsOf_append, log_append]
    show CallByCall rounds _ (s'.engine.hbGraph.nodesOf t) _
    rw [hc.nodesOf_eq]
    by_cases ht : t = v
    · subst ht
      rw [if_pos rfl, if_pos rfl, log_block_self]
      refine .snoc (h.calls t) ?_
      intro cur
      refine ⟨_, hc.run cur _, ?_⟩
      rcases hc.self with hself | ⟨⟨w, hself⟩, -⟩ <;> rw [hself]
      · exact .inl rfl
      · exact .inr rfl
    · rw [if_neg ht, if_neg ht, log_block_of_ne ht]
      simpa using h.calls t
  follows := by
    intro t
    obtain ⟨cur, hcur⟩ := h.follows t
    rw [callsOf_append, log_append]
    show ∃ cur, Thread.after ⟨_, 0, s'.engine.hbGraph.nodesOf t⟩ _ =
      some ⟨rest rounds (s'.engine.status t), cur, []⟩
    rw [hc.nodesOf_eq]
    by_cases ht : t = v
    · subst ht
      rw [hst] at hcur
      have hmore := Thread.after_bind (fun _ => runCall rounds call) [r.graph.size + 1] hcur
      rw [if_pos rfl, if_pos rfl, log_block_self, runCalls_append, Thread.after_append, hmore]
      exact ⟨_, hc.run cur _⟩
    · rw [if_neg ht, if_neg ht, log_block_of_ne ht, hc.others t ht]
      exact ⟨cur, by simpa using hcur⟩

end

end

/-! ## The steps -/

abbrev withNode (r : SemRecording) (v : Nat) : Nat × KState Unit :=
  r.sys.engine.threadMakeHbnodeFrom v syncCtx r.sys.sem.lastHbNode

lemma down_trywait_zero (hzero : r.sys.sem.count = 0) :
    r.down v (r.sys.down v syncCtx true) true =
      ⟨{ r.sys with engine := (r.withNode v).2.keepTurn v },
        r.calls ++ [(v, .trywait .eagain)], r.missed ++ [v]⟩ := by
  simp [SemRecording.down, SemSys.down, atomicSemDown, hzero]

lemma down_wait_zero (hzero : r.sys.sem.count = 0) :
    r.down v (r.sys.down v syncCtx false) false =
      ⟨{ r.sys with engine := (r.withNode v).2.kleeThreadSleep v r.sys.sem.wlist () },
        r.calls ++ [(v, .wait)], r.missed ++ [v]⟩ := by
  simp [SemRecording.down, SemSys.down, atomicSemDown, hzero]

lemma down_pos (hpos : r.sys.sem.count ≠ 0) :
    r.down v (r.sys.down v syncCtx try_) try_ =
      ⟨r.sys.complete (r.sys.sem.take (r.withNode v).1) (r.withNode v).2,
        r.calls ++ [(v, if try_ then .trywait .ok else .wait)], []⟩ := by
  simp [SemRecording.down, SemSys.down, atomicSemDown, hpos]

lemma threadMakeHbnodeFrom_lastHbNode :
    (r.withNode v).2.lastHbNode = update r.sys.engine.lastHbNode v (r.graph.size + 1) :=
  KState.kleeAddHbnode_lastHbNode

lemma calls_zero (hzero : r.sys.sem.count = 0) {k : KState Unit} {call : SemCall}
    (hgraph : k.hbGraph = (r.withNode v).2.hbGraph)
    (hlast : k.lastHbNode = update r.sys.engine.lastHbNode v (r.graph.size + 1))
    (hothers : ∀ t, t ≠ v → k.status t = r.sys.engine.status t)
    (hself : k.status v = .enabled ∨ ∃ w, k.status v = .asleep w ())
    (hrun : ∀ cur m, Thread.after ⟨runCall rounds call, cur, [m]⟩ (callActs m [.read () 0]) =
      some ⟨rest rounds (k.status v), m, []⟩) :
    Calls rounds r v { r.sys with engine := k } call (r.missed ++ [v]) [.read () 0] where
  graph := hgraph
  lastNode := hlast
  others := hothers
  self := hself.imp_right fun h => ⟨h, mem_append_right _ mem_cons_self⟩
  accesses := by simp [Act.loc?]
  actsOk := ⟨hzero, trivial⟩
  count := rfl
  run := hrun
  chain := .inr ⟨rfl, rfl, hzero, by simp [Act.isWrite]⟩

lemma Traced.down (h : Traced value rounds r T) (hst : r.sys.engine.status v = .enabled)
    (try_ : Bool) : ∃ T', Traced value rounds (r.down v (r.sys.down v syncCtx try_) try_) T' := by
  by_cases hzero : r.sys.sem.count = 0
  · cases try_ with
    | true =>
      rw [down_trywait_zero hzero]
      refine ⟨_, h.extend (calls_zero hzero rfl threadMakeHbnodeFrom_lastHbNode (fun _ _ => rfl)
        (.inl hst) ?_) hst⟩
      intro cur m
      exact rest_of_enabled hst after_trywait_eagain
    | false =>
      rw [down_wait_zero hzero]
      have hself : ((r.withNode v).2.kleeThreadSleep v r.sys.sem.wlist ()).status v =
            .asleep r.sys.sem.wlist () := update_self ..
      refine ⟨_, h.extend (calls_zero hzero rfl threadMakeHbnodeFrom_lastHbNode
        (fun t ht => update_of_ne ht _ _) (.inr ⟨_, hself⟩) ?_) hst⟩
      intro cur m
      rw [hself]
      exact after_wait_sleeps
  rw [down_pos hzero]
  have hmissed : r.missed = [] := by
    by_contra hne
    exact hzero (h.zero hne)
  suffices hc : Calls rounds r v _ _ [] (takeActs r.sys.sem.count) from ⟨_, h.extend hc hst⟩
  exact {
    graph := rfl
    lastNode := threadMakeHbnodeFrom_lastHbNode
    others := fun _ _ => rfl
    self := .inl hst
    accesses := by simp [takeActs, Act.loc?]
    actsOk := ⟨rfl, rfl, trivial, trivial⟩
    count := runActs_takeActs
    run := by
      intro cur m
      cases try_ with
      | true => exact rest_of_enabled hst (after_trywait_ok hzero)
      | false => exact rest_of_enabled hst (after_wait_ok hzero)
    chain := by
      left
      rw [hmissed]
      exact ⟨KState.kleeAddHbnode_fst r.sys.engine v rfl, rfl, fun w hw => (not_mem_nil hw).elim⟩ }

lemma Traced.post (h : Traced value rounds r T) (hst : r.sys.engine.status v = .enabled)
    {s' : SemSys} (hset : r.Settled (v, .post pick))
    (hpost : SemSys.post n r.sys v syncCtx pick = some s') :
    ∃ T', Traced value rounds ⟨s', r.calls ++ [(v, .post)], []⟩ T' := by
  simp only [SemSys.post, atomicSemUp, Option.map_map, Option.map_eq_some_iff] at hpost
  obtain ⟨k, hk, rfl⟩ := hpost
  -- nobody sleeps, so nobody is notified
  have hawake : ∀ t, r.sys.engine.status t = .enabled := by
    intro t
    rcases h.status t with ht | ⟨-, hmem⟩
    · exact ht
    · rw [hset t hmem]
      exact hst
  have hkeep : k = (r.withNode v).2 := by
    rcases KState.kleeThreadNotifyOne_cases hk with ⟨-, rfl, -⟩ | ⟨w, rest, -, -, hasleep, -⟩
    · rfl
    · rw [KState.threadMakeHbnodeFrom_status, hawake w] at hasleep
      cases hasleep
  subst hkeep
  suffices hc : Calls rounds r v _ _ [] (postActs r.sys.sem.count) from ⟨_, h.extend hc hst⟩
  exact {
    graph := rfl
    lastNode := threadMakeHbnodeFrom_lastHbNode
    others := fun _ _ => rfl
    self := .inl hst
    accesses := by simp [postActs, Act.loc?]
    actsOk := ⟨rfl, trivial, trivial⟩
    count := runActs_postActs
    run := by
      intro cur m
      exact rest_of_enabled hst after_post
    chain := .inl ⟨KState.kleeAddHbnode_fst r.sys.engine v rfl, rfl, hset⟩ }

lemma Traced.preempt (h : Traced value rounds r T) :
    Traced value rounds { r with sys := { r.sys with engine := r.sys.engine.kleeThreadPreempt } } T :=
  ⟨h.seqOk, h.advanced, h.inOrder, h.raceFree, h.edges, h.lastNode, h.chain, h.ordered, h.count, h.zero,
    h.status, h.calls, h.follows⟩

lemma traced_initial (h : initial value = some r) : Traced value rounds r [] := by
  obtain ⟨s, hs, rfl⟩ := map_eq_some_iff.1 h
  obtain ⟨⟨m, k⟩, hinit, rfl⟩ := map_eq_some_iff.1 hs
  unfold semInit at hinit
  split at hinit
  · cases hinit
  cases hinit
  exact {
    seqOk := trivial
    advanced := rfl
    inOrder := by
      intro j t m n hj
      simp at hj
    raceFree := by
      intro i j t u a b hi
      simp at hi
    edges := by
      intro a b hab
      have := hab.dst_le
      obtain ⟨node, hnode, -⟩ := hab
      have hpos := (HBGraph.getNode?_le hnode).1
      have hempty : b ≤ 0 := this
      omega
    lastNode := fun t => Nat.le_refl 0
    chain := Nat.le_refl 0
    ordered := by
      intro i w a hi
      simp at hi
    count := rfl
    zero := fun hne => absurd rfl hne
    status := fun t => .inl rfl
    calls := fun t => .nil
    follows := fun t => ⟨0, rfl⟩ }

lemma Traced.enabled (h : Traced value rounds r T) {op : SemOp} {s' : SemSys}
    (hstep : r.sys.step n (v, op) = some s') :
    r.sys.engine.status v = .enabled ∧
      match op with
      | .wait ctx => s' = r.sys.down v ctx false
      | .trywait ctx => s' = r.sys.down v ctx true
      | .post ctx pick => SemSys.post n r.sys v ctx pick = some s'
      | .resume => False := by
  obtain ⟨-, hstep⟩ := ite_none_right_eq_some.1 hstep
  rcases h.status v with hst | ⟨⟨w, hst⟩, -⟩
  · rw [hst] at hstep
    refine ⟨hst, ?_⟩
    cases op with
    | wait ctx | trywait ctx => exact (Option.some.inj hstep).symm
    | post ctx pick => exact hstep
    | resume => cases hstep
  · rw [hst] at hstep
    cases op <;> cases hstep

lemma traced_step (h : Traced value rounds r T) (hset : r.Settled l)
    (hstep : r.step n l = some r') : ∃ T', Traced value rounds r' T' := by
  obtain ⟨v, op⟩ := l
  cases op with
  | wait =>
    obtain ⟨s, hs, rfl⟩ := map_eq_some_iff.1 hstep
    obtain ⟨hst, hdown⟩ := h.enabled hs
    rw [hdown]
    exact h.down hst false
  | trywait =>
    obtain ⟨s, hs, rfl⟩ := map_eq_some_iff.1 hstep
    obtain ⟨hst, hdown⟩ := h.enabled hs
    rw [hdown]
    exact h.down hst true
  | post pick =>
    obtain ⟨s, hs, rfl⟩ := map_eq_some_iff.1 hstep
    obtain ⟨hst, hpost⟩ := h.enabled hs
    exact h.post hst hset hpost
  | resume =>
    obtain ⟨s, hs, rfl⟩ := map_eq_some_iff.1 hstep
    exact (h.enabled hs).2.elim
  | preempt =>
    obtain ⟨-, hstep⟩ := ite_none_right_eq_some.1 hstep
    cases hstep
    exact ⟨T, h.preempt⟩

lemma Traced.recorded (h : Traced value rounds r T) :
    SharedMemory.Recorded (fun _ => value) (r.rtThread rounds) T where
  seqOk := h.seqOk
  once := by
    apply advancesOnce_of_nodup
    rw [h.advanced]
    exact nodup_range'
  follows := by
    intro t
    obtain ⟨cur, hcur⟩ := h.follows t
    have hmore := Thread.after_bind (fun _ => check (r.sys.engine.status t = .enabled)) [] hcur
    rw [append_nil] at hmore
    refine ⟨_, hmore, ?_⟩
    rcases h.status t with hst | ⟨⟨w, hst⟩, -⟩ <;> rw [hst]
    · exact .inl ⟨(), rfl⟩
    · exact .inr ⟨⟨_, rfl⟩, rfl⟩

lemma traced_of_run
    (h₀ : initial value = some r₀) (hrun : Machine.runFrom (step n) r₀ ops = some r)
    (hset : Machine.Meets (step n) Settled r₀ ops) : ∃ T, Traced value rounds r T :=
  Machine.inv_of_meets (I := fun r => ∃ T, Traced value rounds r T) (step n)
    (fun _ _ _ ⟨_, hT⟩ hset hstep => traced_step hT hset hstep) ⟨[], traced_initial h₀⟩ hset hrun

/-- **Semaphore replays agree.**  For every symbolic run whose posts are settled and every
interleaving of its replay: what a thread has done at run time is the start of `acts`, in which each
call takes its own node and no other and returns what it returned in the symbolic run; and it is
all of `acts` when no thread can move. -/
theorem sem_replay_agrees {n value rounds : Nat} {r₀ r : SemRecording}
    {ops : List (Nat × SemAction)} (h₀ : initial value = some r₀)
    (hrun : Machine.runFrom (step n) r₀ ops = some r)
    (hset : Machine.Meets (step n) Settled r₀ ops) {ts : List Nat}
    {s : SharedMemory.Replay Unit Nat}
    (hreplay : Machine.runFrom r.rtStep (r.rtInitial value rounds) ts = some s) (t : Nat) :
    (s.threads t).prog ≠ .fail ∧
    ∃ acts, CallByCall rounds (r.callsOf t) (r.graph.nodesOf t) acts ∧
      (∃ k, (r.rtThread rounds t).after (acts.take k) = some (s.threads t)) ∧
      ((∀ u, r.rtStep s u = none) → (r.rtThread rounds t).after acts = some (s.threads t)) := by
  obtain ⟨T, hT⟩ : ∃ T, Traced value rounds r T := traced_of_run h₀ hrun hset
  obtain ⟨hpre, hfail⟩ := agrees_of_raceFree hT.recorded hT.raceFree hreplay t
  refine ⟨hfail, log t T, hT.calls t, hpre, ?_⟩
  intro hstuck
  have hback : Backward r.graph.preds T := by
    apply hT.inOrder.backward
    intro a b hab
    exact hT.edges a b (HBGraph.mem_preds.1 hab)
  exact ends_of_raceFree hT.recorded hT.raceFree hback hreplay hstuck t

def handOver : List (Nat × SemAction) := [(0, .wait), (1, .trywait), (1, .post none), (0, .trywait)]

theorem sem_replay_agrees_handOver : ∃ r₀ r s, initial 1 = some r₀ ∧
    Machine.runFrom (step 2) r₀ handOver = some r ∧
    r.callsOf 0 = [.wait, .trywait .ok] ∧ r.callsOf 1 = [.trywait .eagain, .post] ∧
    Machine.runFrom r.rtStep (r.rtInitial 1 0)
      (List.replicate 5 0 ++ List.replicate 7 1 ++ List.replicate 5 0) = some s ∧
    ∀ t, (s.threads t).prog ≠ .fail := by
  obtain ⟨r, hr, hcalls⟩ : ∃ r, Machine.runFrom (step 2) ((initial 1).get rfl) handOver = some r ∧
      r.callsOf 0 = [.wait, .trywait .ok] ∧ r.callsOf 1 = [.trywait .eagain, .post] ∧
      (Machine.runFrom r.rtStep (r.rtInitial 1 0)
        (List.replicate 5 0 ++ List.replicate 7 1 ++ List.replicate 5 0)).isSome = true :=
    ⟨_, rfl, by decide +kernel, by decide +kernel, by decide +kernel⟩
  obtain ⟨h0, h1, hsome⟩ := hcalls
  obtain ⟨s, hs⟩ := isSome_iff_exists.1 hsome
  exact ⟨_, r, s, rfl, hr, h0, h1, hs, fun t =>
    (sem_replay_agrees rfl hr (by decide +kernel) hs t).1⟩

/-- Thread 1 sleeps, thread 0 posts, and thread 1 takes the count.  It recorded one node for its
`sem_wait`.  At run time it finds 0 with this node, sleeps, and has none left to wake up with. -/
theorem sem_replay_wakeup : ∃ r₀ r s k, initial 0 = some r₀ ∧
    Machine.runFrom (step 2) r₀ [(1, .wait), (0, .post (some 1)), (1, .resume)] = some r ∧
    r.sys.engine.status 1 = .enabled ∧ r.callsOf 1 = [.wait] ∧ r.graph.nodesOf 1 = [1] ∧
    Machine.runFrom r.rtStep (r.rtInitial 0 1) (List.replicate 3 1 ++ List.replicate 4 0) = some s ∧
    s.threads 1 = ⟨.wait true k, 1, []⟩ ∧ r.rtStep s 0 = none ∧ r.rtStep s 1 = none ∧
    s.mem () = 1 :=
  ⟨_, _, _, _, rfl, rfl, rfl, rfl, rfl, rfl, rfl, rfl, rfl, rfl⟩

/-- The `sem_trywait` of thread 1 failed and the post of thread 0 came later, behind no edge. At run
time the post comes first, and `sem_trywait` succeeds. -/
lemma sem_replay_overtaken : ∃ r₀ r s, initial 0 = some r₀ ∧
    Machine.runFrom (step 2) r₀ [(1, .trywait), (1, .preempt), (0, .post none)] = some r ∧
    r.callsOf 1 = [.trywait .eagain] ∧
    Machine.runFrom r.rtStep (r.rtInitial 0 0) (List.replicate 4 0 ++ List.replicate 5 1) = some s ∧
    (s.threads 1).prog = .fail :=
  ⟨_, _, _, rfl, rfl, rfl, rfl, rfl⟩

end SemRecording

end InputCovSched
