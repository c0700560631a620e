import InputCovSched.Explore.ForkableTrace
import InputCovSched.Lib.Lists
import InputCovSched.Lib.Machine

/-!
# Traces that share nodes (`include/ics/ForkableTrace.h`)

A copy of a trace shares all its nodes but the last one. Entries are appended to last nodes only;
`back()` walks backwards over empty nodes, so that after a copy it is an entry of a shared node.
What an operation does with a trace depends on the last entry (`TraceApi`): it appends an entry, or
it changes the last entry in place.

    a last node belongs to one trace  (Separate.step)
    every trace has the entries of an unshared list with the same operations if and only if no
    step changes a last entry that another trace has too  (isolated_iff)
-/

namespace InputCovSched

open Machine Function List Option

namespace ForkableTrace

variable {T Op : Type}

/-- `_nodes` is never empty; `tail` is its last node. -/
structure Trace where
  init : List Nat
  tail : Nat
  size : Nat
  deriving DecidableEq

def Trace.nodes (t : Trace) : List Nat := t.init ++ [t.tail]

/-- All traces and their nodes; `fresh` is the next node that `new` returns. -/
structure Heap (T : Type) where
  data : Nat → List T
  fresh : Nat
  traces : List Trace

/-- What an operation does to its trace. -/
inductive Change (T : Type) where
  | push (x : T)
  | setBack (x : T)

/-- The operations of a class that has a trace: each looks at the last entry only, and `none` is a
failed assertion. -/
structure TraceApi (Op T : Type) where
  effect : Op → Option T → Option (Change T)
  effect_none : ∀ op x, effect op none ≠ some (.setBack x)

/-- The steps of a program that has any number of traces. -/
inductive Call (Op : Type) where
  | create
  | copy (i : Nat)
  | apply (i : Nat) (op : Op)

def back (blocks : List (List T)) : Option T := (prev blocks (makeFromEnd blocks)).bind (deref blocks)

namespace Heap

variable (h : Heap T)

def empty : Heap T := ⟨fun _ => [], 0, []⟩

def blocks (t : Trace) : List (List T) := t.nodes.map h.data

/-- A new trace whose last node is new. -/
def add (init : List Nat) (size : Nat) : Heap T where
  data := update h.data h.fresh []
  fresh := h.fresh + 1
  traces := h.traces ++ [⟨init, h.fresh, size⟩]

def pushNode (i : Nat) (rhs : Trace) : Heap T where
  data := update h.data h.fresh []
  fresh := h.fresh + 1
  traces := h.traces.set i ⟨rhs.nodes, h.fresh, rhs.size⟩

def copy (i : Nat) : Option (Heap T) := do
  let rhs ← h.traces[i]?
  let h := if (h.data rhs.tail).isEmpty then h else h.pushNode i rhs
  let rhs ← h.traces[i]?
  some (h.add rhs.init rhs.size)

/-- `push_back` -/
def push (i : Nat) (t : Trace) (x : T) : Heap T where
  data := update h.data t.tail (h.data t.tail ++ [x])
  fresh := h.fresh
  traces := h.traces.set i { t with size := t.size + 1 }

/-- The node of `back()`, and the index in it. -/
def backAt (t : Trace) : Option (Nat × Nat) := do
  let it ← prev (h.blocks t) (makeFromEnd (h.blocks t))
  let n ← t.nodes[it.node]?
  some (n, it.elem)

def setBack (t : Trace) (x : T) : Option (Heap T) := do
  let (n, e) ← h.backAt t
  some { h with data := update h.data n ((h.data n).set e x) }

def last (t : Trace) : Option T := if t.size = 0 then none else back (h.blocks t)

def step (api : TraceApi Op T) : Call Op → Option (Heap T)
  | .create => some (h.add [] 0)
  | .copy i => h.copy i
  | .apply i op => do
    let t ← h.traces[i]?
    match ← api.effect op (h.last t) with
    | .push x => some (h.push i t x)
    | .setBack x => h.setBack t x

end Heap

/-- The same operations on lists of their own. -/
def stepLists (api : TraceApi Op T) (lists : List (List T)) : Call Op → Option (List (List T))
  | .create => some (lists ++ [[]])
  | .copy i => do
    let l ← lists[i]?
    some (lists ++ [l])
  | .apply i op => do
    let l ← lists[i]?
    match ← api.effect op l.getLast? with
    | .push x => some (lists.set i (l ++ [x]))
    | .setBack x => some (lists.set i (l.set (l.length - 1) x))

/-- The trace has the entries `l`, whichever way they are read. -/
def Heap.Shows (h : Heap T) (t : Trace) (l : List T) : Prop :=
  t.size = l.length ∧
    Settles (fun fuel => forward (h.blocks t) fuel (makeFromBegin (h.blocks t))) (some l) ∧
    Settles (fun fuel => backward (h.blocks t) fuel (makeFromEnd (h.blocks t))) (some l.reverse) ∧
    ∀ idx < t.size, getElementAt (h.blocks t) idx = l[idx]?

/-- Each trace has the entries of its list. -/
def Isolated (h : Heap T) (lists : List (List T)) : Prop := List.Forall₂ h.Shows h.traces lists

/-- No other trace has the node of the last entry of trace `i`. -/
def Heap.OwnsBack (h : Heap T) (i : Nat) : Prop :=
  ∀ t n e, h.traces[i]? = some t → h.backAt t = some (n, e) →
    ∀ j u, h.traces[j]? = some u → n ∈ u.nodes → j = i

/-- An operation that changes the last entry does it in a node that no other trace has. -/
def Unshared (api : TraceApi Op T) (h : Heap T) : Call Op → Prop
  | .apply i op => ∀ t x, h.traces[i]? = some t → api.effect op (h.last t) = some (.setBack x) →
      h.last t = some x ∨ h.OwnsBack i
  | _ => True

/-! ## Lists of nodes -/

section
variable {data : Nat → List T} {nodes : List Nat} {n k e : Nat} {b : List T} {x : T}

lemma map_update_of_notMem (hn : n ∉ nodes) : nodes.map (update data n b) = nodes.map data := by
  apply map_congr_left
  intro m hm
  have hmn : m ≠ n := fun h => hn (h ▸ hm)
  exact update_of_ne hmn b data

lemma flatten_update_eq_iff (hlen : b.length = (data n).length) :
    (nodes.map (update data n b)).flatten = (nodes.map data).flatten ↔ n ∉ nodes ∨ b = data n := by
  induction nodes with
  | nil => simp
  | cons m nodes ih =>
    rw [map_cons, map_cons, flatten_cons, flatten_cons]
    by_cases hm : m = n
    · subst hm
      rw [update_self]
      constructor
      · intro h
        exact .inr (append_inj h hlen).1
      · rintro (h | rfl)
        · exact absurd mem_cons_self h
        · rw [update_eq_self]
    · rw [update_of_ne hm, append_cancel_left_eq, ih, mem_cons, not_or, and_iff_right (Ne.symm hm)]

lemma flatten_update_set (hnodup : nodes.Nodup) (hk : nodes[k]? = some n)
    (he : e < (data n).length) :
    (nodes.map (update data n ((data n).set e x))).flatten =
      (nodes.map data).flatten.set (offset (nodes.map data) k + e) x := by
  induction nodes generalizing k with
  | nil => cases hk
  | cons m nodes ih =>
    obtain ⟨hm, hnodup⟩ := nodup_cons.1 hnodup
    rw [map_cons, map_cons, flatten_cons, flatten_cons]
    cases k with
    | zero =>
      obtain rfl : m = n := by simpa using hk
      have hoff : offset (data m :: nodes.map data) 0 + e = e := by
        exact zero_add e
      rw [map_update_of_notMem hm, update_self, hoff, set_append_left _ _ he]
    | succ k =>
      have hk' : nodes[k]? = some n := by simpa using hk
      have hmn : m ≠ n := fun h => hm (h ▸ mem_of_getElem? hk')
      have hoff : offset (data m :: nodes.map data) (k + 1) =
          (data m).length + offset (nodes.map data) k := by
        rw [offset, take_succ_cons, flatten_cons, length_append]
        rfl
      rw [update_of_ne hmn, ih hnodup hk', hoff, set_append_right _ _ (by omega)]
      congr 2
      omega

end

/-! ## The last entry -/

namespace Heap

variable {h h' : Heap T} {i j n size : Nat} {t u : Trace} {x : T} {lists : List (List T)}
  {init : List Nat}

def contents (h : Heap T) (t : Trace) : List T := (h.blocks t).flatten

lemma backAt_spec (hpos : h.contents t ≠ []) :
    ∃ k n e, h.backAt t = some (n, e) ∧ back (h.blocks t) = (h.data n)[e]? ∧
      t.nodes[k]? = some n ∧ e < (h.data n).length ∧
      offset (h.blocks t) k + e = (h.contents t).length - 1 := by
  have hlen : 0 < (h.contents t).length := length_pos_iff.2 hpos
  obtain ⟨it, hprev, hat⟩ := (At.last : At (h.blocks t) _ _).prev hlen
  generalize hp : (h.blocks t).flatten.length - 1 = p at hat
  cases hat with
  | @entry k e he =>
    have hk : k < t.nodes.length := by
      have := lt_length_of_lt he
      rwa [blocks, length_map] at this
    have hget : t.nodes[k]? = some t.nodes[k] := List.getElem?_eq_getElem hk
    have hblock : block (h.blocks t) k = h.data t.nodes[k] := by
      rw [block, blocks, List.getElem?_map, hget]
      rfl
    refine ⟨k, t.nodes[k], e, ?_, ?_, hget, hblock ▸ he, hp.symm⟩
    · rw [backAt, hprev, bind_eq_bind, bind_some, hget]
      rfl
    · rw [back, hprev, bind_some, deref, hblock]
  | last =>
    unfold contents at hlen
    omega

lemma last_eq (hsize : t.size = (h.contents t).length) : h.last t = (h.contents t).getLast? := by
  unfold last
  by_cases hpos : h.contents t = []
  · rw [hpos] at hsize ⊢
    exact if_pos hsize
  have hlen : 0 < (h.contents t).length := length_pos_iff.2 hpos
  obtain ⟨it, hprev, hat⟩ := (At.last : At (h.blocks t) _ _).prev hlen
  rw [if_neg (by omega), back, hprev, bind_some, List.getLast?_eq_getElem?]
  exact hat.deref (by unfold contents at hlen; omega)

/-! ## Own last nodes -/

/-- The last node of a trace belongs to no other trace. -/
structure Separate (h : Heap T) : Prop where
  lt_fresh : ∀ t ∈ h.traces, ∀ n ∈ t.nodes, n < h.fresh
  nodup : ∀ t ∈ h.traces, t.nodes.Nodup
  tail_own : ∀ (i j : Nat) (t u : Trace), h.traces[i]? = some t → h.traces[j]? = some u →
    t.tail ∈ u.nodes → j = i

lemma separate_empty : (empty : Heap T).Separate :=
  ⟨fun _ ht => (not_mem_nil ht).elim, fun _ ht => (not_mem_nil ht).elim, fun _ _ _ _ ht =>
    by cases ht⟩

namespace Separate

section
variable (hs : h.Separate) (ht : t ∈ h.traces)
include hs ht

lemma fresh_notMem : h.fresh ∉ t.nodes :=
  fun hn => lt_irrefl _ (hs.lt_fresh t ht _ hn)

lemma tail_ne_fresh : t.tail ≠ h.fresh :=
  ne_of_lt (hs.lt_fresh t ht _ (mem_append_right _ (mem_singleton_self _)))

lemma tail_notMem_init (hu : u ∈ h.traces) : u.tail ∉ t.init := by
  intro hmem
  obtain ⟨i, hi⟩ := List.getElem?_of_mem ht
  obtain ⟨j, hj⟩ := List.getElem?_of_mem hu
  obtain rfl : i = j := hs.tail_own j i u t hj hi (mem_append_left _ hmem)
  obtain rfl : t = u := Option.some.inj (hi.symm.trans hj)
  have hnodup := hs.nodup t ht
  rw [Trace.nodes, nodup_append] at hnodup
  exact hnodup.2.2 _ hmem _ (mem_singleton_self _) rfl

end

lemma concat_fresh (hlt : ∀ n ∈ init, n < h.fresh) (hnodup : init.Nodup) :
    (init ++ [h.fresh]).Nodup ∧ ∀ n ∈ init ++ [h.fresh], n < h.fresh + 1 := by
  constructor
  · refine nodup_append.2 ⟨hnodup, nodup_singleton _, fun n hn m hm => ?_⟩
    rw [mem_singleton.1 hm]
    exact ne_of_lt (hlt n hn)
  · intro n hn
    rcases mem_append.1 hn with hn | hn
    · exact Nat.lt_succ_of_lt (hlt n hn)
    · rw [mem_singleton.1 hn]
      exact Nat.lt_succ_self _

lemma add (hs : h.Separate) (hlt : ∀ n ∈ init, n < h.fresh)
    (hnodup : init.Nodup) (hown : ∀ u ∈ h.traces, u.tail ∉ init) :
    (h.add init size).Separate := by
  have hnew := concat_fresh hlt hnodup
  constructor
  · intro t ht n hn
    rcases mem_append.1 ht with ht | ht
    · exact Nat.lt_succ_of_lt (hs.lt_fresh t ht n hn)
    · obtain rfl := mem_singleton.1 ht
      exact hnew.2 n hn
  · exact forall_mem_append.2 ⟨hs.nodup, forall_mem_singleton.2 hnew.1⟩
  · intro i j t u ht hu htu
    rcases getElem?_concat_cases ht with ⟨ht, -⟩ | ⟨rfl, rfl⟩
    · rcases getElem?_concat_cases hu with ⟨hu, -⟩ | ⟨rfl, rfl⟩
      · exact hs.tail_own i j t u ht hu htu
      have htm := mem_of_getElem? ht
      rcases mem_append.1 htu with htu | htu
      · exact absurd htu (hown t htm)
      · exact absurd (mem_singleton.1 htu) (hs.tail_ne_fresh htm)
    · rcases getElem?_concat_cases hu with ⟨hu, -⟩ | ⟨rfl, rfl⟩
      · exact absurd htu (hs.fresh_notMem (mem_of_getElem? hu))
      · rfl

/-- One trace keeps its nodes, or gets the fresh one as its last. -/
lemma set (hs : h.Separate) (ht : h.traces[i]? = some t)
    (htraces : h'.traces = h.traces.set i t') (hle : h.fresh ≤ h'.fresh)
    (hlt : ∀ n ∈ t'.nodes, n < h'.fresh) (hnodup : t'.nodes.Nodup)
    (hnodes : ∀ n ∈ t'.nodes, n ∈ t.nodes ∨ n = h.fresh)
    (htail : t'.tail = t.tail ∨ t'.tail = h.fresh) : h'.Separate := by
  constructor
  · intro u hu n hn
    rcases mem_or_eq_of_mem_set (htraces ▸ hu) with hu | rfl
    · exact lt_of_lt_of_le (hs.lt_fresh u hu n hn) hle
    · exact hlt n hn
  · intro u hu
    rcases mem_or_eq_of_mem_set (htraces ▸ hu) with hu | rfl
    · exact hs.nodup u hu
    · exact hnodup
  · intro j k u v hu hv huv
    rcases getElem?_set_cases (htraces ▸ hv) with ⟨hv, -⟩ | ⟨rfl, rfl⟩
    · rcases getElem?_set_cases (htraces ▸ hu) with ⟨hu, -⟩ | ⟨rfl, rfl⟩
      · exact hs.tail_own j k u v hu hv huv
      rcases htail with htail | htail
      · exact hs.tail_own _ k t v ht hv (htail ▸ huv)
      · exact absurd (htail ▸ huv) (hs.fresh_notMem (mem_of_getElem? hv))
    rcases getElem?_set_cases (htraces ▸ hu) with ⟨hu, -⟩ | ⟨rfl, -⟩
    · rcases hnodes _ huv with huv | huv
      · exact hs.tail_own j _ u t hu ht huv
      · exact absurd huv (hs.tail_ne_fresh (mem_of_getElem? hu))
    · rfl

lemma pushNode (hs : h.Separate) (ht : h.traces[i]? = some t) : (h.pushNode i t).Separate := by
  have htm := mem_of_getElem? ht
  have hnew := concat_fresh (hs.lt_fresh t htm) (hs.nodup t htm)
  refine hs.set ht rfl (Nat.le_succ _) hnew.2 hnew.1 (fun n hn => ?_) (.inr rfl)
  exact (mem_append.1 hn).imp_right mem_singleton.1

lemma push (hs : h.Separate) (ht : h.traces[i]? = some t) : (h.push i t x).Separate :=
  have htm := mem_of_getElem? ht
  hs.set ht rfl le_rfl (hs.lt_fresh t htm) (hs.nodup t htm) (fun _ => .inl) (.inl rfl)

end Separate

/-! ## The entries of all traces -/

lemma contents_of_notMem {data : Nat → List T} {fresh : Nat} {traces : List Trace}
    (hdata : data = update h.data n b) (hn : n ∉ t.nodes) :
    (⟨data, fresh, traces⟩ : Heap T).contents t = h.contents t := by
  rw [contents, blocks, hdata, map_update_of_notMem hn]
  rfl

lemma contents_fresh (size : Nat) (hfresh : h.fresh ∉ init) :
    (h.add init size).contents ⟨init, h.fresh, size⟩ = (init.map h.data).flatten := by
  have hnew : (h.add init size).data h.fresh = [] := update_self ..
  rw [contents, blocks, Trace.nodes, map_append, flatten_append, map_singleton, hnew,
    Heap.add, map_update_of_notMem hfresh]
  exact append_nil _

/-- The entries of the traces are those of the lists. -/
def Agree (h : Heap T) (lists : List (List T)) : Prop :=
  h.traces.map h.contents = lists ∧ ∀ t ∈ h.traces, t.size = (h.contents t).length

lemma agree_add (hs : h.Separate) (hfresh : h.fresh ∉ init)
    (hsize : size = (init.map h.data).flatten.length) (ha : h.Agree lists) :
    (h.add init size).Agree (lists ++ [(init.map h.data).flatten]) := by
  have hold : ∀ t ∈ h.traces, (h.add init size).contents t = h.contents t :=
    fun t ht => contents_of_notMem rfl (hs.fresh_notMem ht)
  constructor
  · have hmap : h.traces.map (h.add init size).contents = lists := by
      rw [map_congr_left hold]
      exact ha.1
    show (h.traces ++ [_]).map _ = _
    rw [map_append, hmap, map_singleton, contents_fresh size hfresh]
  · intro t ht
    rcases mem_append.1 ht with ht | ht
    · rw [hold t ht]
      exact ha.2 t ht
    · rw [mem_singleton.1 ht, contents_fresh size hfresh]
      exact hsize

lemma agree_set_iff (ht : h.traces[i]? = some t)
    (htraces : h'.traces = h.traces.set i t') (hnew : h'.contents t' = l) (hsize : t'.size = l.length)
    (ha : h.Agree lists) :
    h'.Agree (lists.set i l) ↔
      ∀ j u, h.traces[j]? = some u → j ≠ i → h'.contents u = h.contents u := by
  have hlt : i < h.traces.length := (List.getElem?_eq_some_iff.1 ht).1
  rw [Agree, htraces, map_set, hnew, ← ha.1]
  constructor
  · rintro ⟨hmap, -⟩ j u hu hj
    have hget := congrArg (fun l => l[j]?) hmap
    simp only [List.getElem?_set_ne (Ne.symm hj), List.getElem?_map, hu, map_some] at hget
    exact Option.some.inj hget
  · intro hother
    constructor
    · apply ext_getElem?
      intro j
      by_cases hj : j = i
      · subst hj
        rw [List.getElem?_set_self (by simpa using hlt), List.getElem?_set_self (by simpa using hlt)]
      rw [List.getElem?_set_ne (Ne.symm hj), List.getElem?_set_ne (Ne.symm hj), List.getElem?_map,
        List.getElem?_map]
      cases hu : h.traces[j]? with
      | none => rfl
      | some u => rw [map_some, map_some, hother j u hu hj]
    · intro u hu
      obtain ⟨j, hj⟩ := List.getElem?_of_mem hu
      rcases getElem?_set_cases hj with ⟨hu, hij⟩ | ⟨-, rfl⟩
      · rw [hother j u hu (Ne.symm hij)]
        exact ha.2 u (mem_of_getElem? hu)
      · rw [hnew, hsize]

section
variable (hs : h.Separate) (ht : h.traces[i]? = some t) (ha : h.Agree lists)
include hs ht ha

lemma agree_pushNode : (h.pushNode i t).Agree lists := by
  have htm := mem_of_getElem? ht
  have hnew : (h.pushNode i t).contents ⟨t.nodes, h.fresh, t.size⟩ = h.contents t :=
    contents_fresh t.size (hs.fresh_notMem htm)
  have hset : lists.set i (h.contents t) = lists := by
    have hi : lists[i]? = some (h.contents t) := by
      rw [← ha.1, List.getElem?_map, ht]
      rfl
    exact (set_eq_self_iff (List.getElem?_eq_some_iff.1 hi).1).2 hi
  rw [← hset]
  refine (agree_set_iff ht rfl hnew (ha.2 t htm) ha).2 fun j u hu _ => ?_
  exact contents_of_notMem rfl (hs.fresh_notMem (mem_of_getElem? hu))

lemma agree_push : (h.push i t x).Agree (lists.set i (h.contents t ++ [x])) := by
  have htm := mem_of_getElem? ht
  have hnew : (h.push i t x).contents { t with size := t.size + 1 } = h.contents t ++ [x] := by
    have htail : (h.push i t x).data t.tail = h.data t.tail ++ [x] := update_self ..
    have hinit : t.init.map (h.push i t x).data = t.init.map h.data :=
      map_update_of_notMem (hs.tail_notMem_init htm htm)
    simp only [contents, blocks, Trace.nodes, map_append, map_singleton, hinit, htail,
      flatten_append, flatten_singleton, append_assoc]
  refine (agree_set_iff ht rfl hnew ?_ ha).2 fun j u hu hj => ?_
  · rw [length_append, ← ha.2 t htm]
    rfl
  · exact contents_of_notMem rfl fun hmem => hj (hs.tail_own i j t u ht hu hmem)

end

section
variable (ht : h.traces[i]? = some t)
include ht

lemma ownsBack_iff (hback : h.backAt t = some (n, e)) :
    h.OwnsBack i ↔ ∀ j u, h.traces[j]? = some u → j ≠ i → n ∉ u.nodes := by
  constructor
  · intro hown j u hu hj hmem
    exact hj (hown t n e ht hback j u hu hmem)
  · intro hown t' n' e' ht' hback' j u hu hmem
    obtain rfl : t = t' := Option.some.inj (ht.symm.trans ht')
    obtain rfl : n = n' := congrArg Prod.fst (Option.some.inj (hback.symm.trans hback'))
    by_contra hj
    exact hown j u hu hj hmem

lemma agree_setBack_iff (hs : h.Separate) (ha : h.Agree lists) (hpos : h.contents t ≠ []) :
    ∃ h', h.setBack t x = some h' ∧
      (h'.Agree (lists.set i ((h.contents t).set ((h.contents t).length - 1) x)) ↔
        h.last t = some x ∨ h.OwnsBack i) := by
  have htm := mem_of_getElem? ht
  obtain ⟨k, n, e, hback, hval, hk, he, hpos'⟩ := backAt_spec hpos
  let h' : Heap T := { h with data := update h.data n ((h.data n).set e x) }
  refine ⟨h', by rw [setBack, hback]; rfl, ?_⟩
  have hnew : h'.contents t = (h.contents t).set ((h.contents t).length - 1) x := by
    rw [← hpos']
    exact flatten_update_set (hs.nodup t htm) hk he
  have htraces : h'.traces = h.traces.set i t :=
    ((set_eq_self_iff (List.getElem?_eq_some_iff.1 ht).1).2 ht).symm
  have hsize : t.size = ((h.contents t).set ((h.contents t).length - 1) x).length := by
    rw [length_set]
    exact ha.2 t htm
  have hlast : h.last t = (h.data n)[e]? := by
    have hlen : 0 < (h.contents t).length := length_pos_iff.2 hpos
    rw [last, if_neg (by rw [ha.2 t htm]; omega), hval]
  have hother : ∀ u, h'.contents u = h.contents u ↔ n ∉ u.nodes ∨ h.last t = some x := by
    intro u
    rw [hlast, ← set_eq_self_iff he]
    exact flatten_update_eq_iff (length_set ..)
  rw [agree_set_iff ht htraces hnew hsize ha, ownsBack_iff ht hback]
  simp only [hother]
  constructor
  · intro hall
    by_cases hx : h.last t = some x
    · exact .inl hx
    · exact .inr fun j u hu hj => (hall j u hu hj).resolve_right hx
  · rintro (hx | hown) j u hu hj
    · exact .inr hx
    · exact .inl (hown j u hu hj)

/-! ## One step -/

lemma copy_eq :
    h.copy i = some (if (h.data t.tail).isEmpty then h.add t.init t.size
      else (h.pushNode i t).add t.nodes t.size) := by
  have hlt : i < h.traces.length := (List.getElem?_eq_some_iff.1 ht).1
  have hnew : (h.pushNode i t).traces[i]? = some ⟨t.nodes, h.fresh, t.size⟩ :=
    List.getElem?_set_self hlt
  rw [copy, ht, bind_eq_bind, bind_some]
  split
  · dsimp only
    rw [ht]
    rfl
  dsimp only
  rw [hnew]
  rfl

end

lemma Separate.dup (hs : h.Separate) (ht : t ∈ h.traces) : (h.add t.init t.size).Separate := by
  have hnodup := hs.nodup t ht
  rw [Trace.nodes, nodup_append] at hnodup
  exact hs.add (fun n hn => hs.lt_fresh t ht n (mem_append_left _ hn)) hnodup.1
    fun u hu => hs.tail_notMem_init ht hu

lemma agree_dup (hs : h.Separate) (ht : t ∈ h.traces) (htail : h.data t.tail = [])
    (ha : h.Agree lists) : (h.add t.init t.size).Agree (lists ++ [h.contents t]) := by
  have hcont : h.contents t = (t.init.map h.data).flatten := by
    rw [contents, blocks, Trace.nodes, map_append, flatten_append, map_singleton, htail]
    exact append_nil _
  rw [hcont]
  refine agree_add hs (fun hmem => hs.fresh_notMem ht (mem_append_left _ hmem)) ?_ ha
  rw [← hcont]
  exact ha.2 t ht

lemma pushNode_mem (ht : h.traces[i]? = some t) :
    ⟨t.nodes, h.fresh, t.size⟩ ∈ (h.pushNode i t).traces :=
  mem_set (List.getElem?_eq_some_iff.1 ht).1 _

lemma agree_copy (hs : h.Separate) (ht : h.traces[i]? = some t) (ha : h.Agree lists) :
    Option.Rel Agree (h.copy i) (some (lists ++ [h.contents t])) := by
  have htm := mem_of_getElem? ht
  rw [copy_eq ht]
  split
  · rename_i hempty
    exact .some (agree_dup hs htm (isEmpty_iff.1 hempty) ha)
  have hcont : (h.pushNode i t).contents ⟨t.nodes, h.fresh, t.size⟩ = h.contents t :=
    contents_fresh t.size (hs.fresh_notMem htm)
  rw [← hcont]
  exact .some (agree_dup (hs.pushNode ht) (pushNode_mem ht) (update_self ..)
    (agree_pushNode hs ht ha))

lemma setBack_eq (hset : h.setBack t x = some h') : ∃ data, h' = { h with data := data } := by
  obtain ⟨⟨n, e⟩, -, hset⟩ := bind_eq_some_iff.1 hset
  exact ⟨_, (Option.some.inj hset).symm⟩

lemma Separate.step {l : Call Op} (hs : h.Separate)
    (hstep : h.step api l = some h') : h'.Separate := by
  cases l with
  | create =>
    cases hstep
    exact hs.add (fun n hn => (not_mem_nil hn).elim) nodup_nil fun u _ => not_mem_nil
  | copy i =>
    cases ht : h.traces[i]? with
    | none =>
      have hnone : h.copy i = none := by
        rw [copy, ht]
        rfl
      cases hnone.symm.trans hstep
    | some t =>
      have hcopy := (copy_eq ht).symm.trans hstep
      cases hcopy
      split
      · exact hs.dup (mem_of_getElem? ht)
      · exact (hs.pushNode ht).dup (pushNode_mem ht)
  | apply i op =>
    obtain ⟨t, ht, hstep⟩ := bind_eq_some_iff.1 hstep
    obtain ⟨c, -, hstep⟩ := bind_eq_some_iff.1 hstep
    cases c with
    | push x =>
      cases hstep
      exact hs.push ht
    | setBack x =>
      obtain ⟨data, rfl⟩ := setBack_eq hstep
      exact ⟨hs.lt_fresh, hs.nodup, hs.tail_own⟩

lemma agree_step_iff (hs : h.Separate) (ha : h.Agree lists) (l : Call Op) :
    Option.Rel Agree (h.step api l) (stepLists api lists l) ↔ Unshared api h l := by
  have hlists : ∀ i : Nat, lists[i]? = (h.traces[i]?).map h.contents := by
    intro i
    rw [← ha.1, List.getElem?_map]
  cases l with
  | create =>
    refine ⟨fun _ => trivial, fun _ => .some ?_⟩
    exact agree_add hs not_mem_nil rfl ha
  | copy i =>
    refine ⟨fun _ => trivial, fun _ => ?_⟩
    cases ht : h.traces[i]? with
    | none =>
      rw [step, copy, stepLists, hlists, ht]
      exact .none
    | some t =>
      rw [step, stepLists, hlists, ht]
      exact agree_copy hs ht ha
  | apply i op =>
    rw [step, stepLists, hlists]
    cases ht : h.traces[i]? with
    | none =>
      refine ⟨fun _ t x ht' => ?_, fun _ => .none⟩
      cases ht.symm.trans ht'
    | some t =>
      have htm := mem_of_getElem? ht
      simp only [map_some, bind_eq_bind, bind_some, ← last_eq (ha.2 t htm)]
      cases heff : api.effect op (h.last t) with
      | none =>
        refine ⟨fun _ t' x ht' heff' => ?_, fun _ => .none⟩
        obtain rfl : t = t' := Option.some.inj (ht.symm.trans ht')
        cases heff.symm.trans heff'
      | some c =>
        cases c with
        | push x =>
          refine ⟨fun _ t' x ht' heff' => ?_, fun _ => .some (agree_push hs ht ha)⟩
          obtain rfl : t = t' := Option.some.inj (ht.symm.trans ht')
          cases heff.symm.trans heff'
        | setBack x =>
          have hpos : h.contents t ≠ [] := by
            intro hnil
            rw [last_eq (ha.2 t htm), hnil] at heff
            exact api.effect_none op x heff
          obtain ⟨h', hset, hiff⟩ := agree_setBack_iff ht hs ha hpos
          show Option.Rel Agree (h.setBack t x) _ ↔ _
          rw [hset]
          constructor
          · intro hrel t' x' ht' heff'
            obtain rfl : t = t' := Option.some.inj (ht.symm.trans ht')
            cases heff.symm.trans heff'
            cases hrel with
            | some hagree => exact hiff.1 hagree
          · intro hun
            exact .some (hiff.2 (hun t x ht heff))

lemma shows_iff : h.Shows t l ↔ t.size = (h.contents t).length ∧ h.contents t = l := by
  constructor
  · rintro ⟨hsize, hforward, -, -⟩
    have hl : h.contents t = l := Option.some.inj ((forward_settles _).unique hforward)
    exact ⟨hl ▸ hsize, hl⟩
  · rintro ⟨hsize, rfl⟩
    exact ⟨hsize, forward_settles _, backward_settles _, fun idx _ => getElementAt_eq _ idx⟩

lemma isolated_iff_agree (h : Heap T) (lists : List (List T)) : Isolated h lists ↔ h.Agree lists := by
  have hshows : h.Shows = fun t l => t.size = (h.contents t).length ∧ h.contents t = l := by
    funext t l
    exact propext shows_iff
  rw [Isolated, hshows, forall₂_and_left, Agree, and_comm, ← forall₂_map_left_iff, forall₂_eq_eq_eq]

end Heap

/-- Isolation of all traces at all times of a run. -/
lemma isolated_iff (api : TraceApi Op T) (ls : List (Call Op)) :
    (∀ ls', ls' <+: ls → Option.Rel Isolated (runFrom (Heap.step · api) Heap.empty ls')
      (runFrom (stepLists api) [] ls')) ↔
      Meets (Heap.step · api) (Unshared api) Heap.empty ls := by
  have hR : (Isolated : Heap T → List (List T) → Prop) = Heap.Agree := by
    funext h lists
    exact propext (h.isolated_iff_agree lists)
  rw [hR]
  refine related_iff_meets _ (fun h l h' hs hstep => hs.step hstep)
    (fun h lists l hs ha => Heap.agree_step_iff hs ha l) Heap.separate_empty ?_
  exact ⟨rfl, fun t ht => (not_mem_nil ht).elim⟩

end ForkableTrace

end InputCovSched
