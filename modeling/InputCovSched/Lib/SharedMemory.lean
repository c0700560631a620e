import InputCovSched.Lib.Machine
import Mathlib.Logic.Function.Basic
import Mathlib.Logic.Relation

/-!
# Replaying programs over shared memory along a recorded order

A thread runs a program over shared memory and has a list of nodes. `wait` takes the next node of
the thread and passes once all predecessors of the node are done, `advance` makes the current node
done.

A reference trace `T` is one sequential execution. Two of its events are ordered (`HB`) by the
order of a thread, by an edge from a node that one event advances to the node that the other
waits for, and by transitivity. When every two conflicting events of different threads are
ordered (`RaceFree`):

    every thread of a replay has done a prefix of what it does in T  (agrees_of_raceFree)
    and all of it, when no thread can move  (ends_of_raceFree)
-/

namespace SharedMemory

open Function List

variable {Loc Val : Type}

/-! ## Programs -/

inductive Prog (Loc Val α : Type) where
  | ret (a : α)
  | read (l : Loc) (k : Val → Prog Loc Val α)
  | write (l : Loc) (v : Val) (k : Prog Loc Val α)
  /-- Waits for the next node of the thread. A thread that has none left sleeps, or fails. -/
  | wait (canSleep : Bool) (k : Prog Loc Val α)
  | advance (k : Prog Loc Val α)
  | fail

namespace Prog

variable {α β γ : Type}

def bind : Prog Loc Val α → (α → Prog Loc Val β) → Prog Loc Val β
  | ret a, f => f a
  | read l k, f => read l fun v => (k v).bind f
  | write l v k, f => write l v (k.bind f)
  | wait c k, f => wait c (k.bind f)
  | advance k, f => advance (k.bind f)
  | fail, _ => fail

instance : Monad (Prog Loc Val) where
  pure := ret
  bind := bind

lemma bind_ret (p : Prog Loc Val α) : p.bind ret = p := by
  induction p with
  | ret a => rfl
  | read l k ih => exact congrArg _ (funext ih)
  | write _ _ k ih | wait _ k ih | advance k ih => exact congrArg _ ih
  | fail => rfl

lemma bind_assoc (p : Prog Loc Val α) (f : α → Prog Loc Val β) (g : β → Prog Loc Val γ) :
    (p.bind f).bind g = p.bind fun a => (f a).bind g := by
  induction p with
  | ret a => rfl
  | read l k ih => exact congrArg _ (funext ih)
  | write _ _ k ih | wait _ k ih | advance k ih => exact congrArg _ ih
  | fail => rfl

end Prog

/-! ## Replays -/

/-- `cur` is the node the thread waited for last, `nodes` those that are left. -/
structure Thread (Loc Val : Type) where
  prog : Prog Loc Val Unit
  cur : Nat
  nodes : List Nat

structure Replay (Loc Val : Type) where
  mem : Loc → Val
  done : Nat → Bool
  threads : Nat → Thread Loc Val

namespace Replay

def setThread (s : Replay Loc Val) (t : Nat) (th : Thread Loc Val) : Replay Loc Val :=
  { s with threads := update s.threads t th }

def step [DecidableEq Loc] (preds : Nat → List Nat) (s : Replay Loc Val) (t : Nat) :
    Option (Replay Loc Val) :=
  let th := s.threads t
  match th.prog with
  | .ret _ => none
  | .fail => none
  | .read l k => some (s.setThread t { th with prog := k (s.mem l) })
  | .write l v k =>
    some ({ s with mem := update s.mem l v }.setThread t { th with prog := k })
  | .wait canSleep k =>
    match th.nodes with
    | [] => if canSleep then none else some (s.setThread t { th with prog := .fail })
    | n :: rest =>
      if (preds n).all s.done then some (s.setThread t ⟨k, n, rest⟩) else none
  | .advance k =>
    some ({ s with done := update s.done th.cur true }.setThread t { th with prog := k })

def initial (mem : Loc → Val) (threads : Nat → Thread Loc Val) : Replay Loc Val :=
  ⟨mem, fun _ => false, threads⟩

end Replay

/-! ## Events -/

inductive Act (Loc Val : Type) where
  | read (l : Loc) (v : Val)
  | write (l : Loc) (v : Val)
  | wait (n : Nat)
  | advance (n : Nat)

structure Event (Loc Val : Type) where
  thread : Nat
  act : Act Loc Val

section
variable [DecidableEq Loc] [DecidableEq Val] (th : Thread Loc Val)

def Thread.exec (a : Act Loc Val) :
    Option (Thread Loc Val) :=
  match th.prog, a with
  | .read l k, .read l' v => if l = l' then some { th with prog := k v } else none
  | .write l v k, .write l' v' => if l = l' ∧ v = v' then some { th with prog := k } else none
  | .wait _ k, .wait n =>
    match th.nodes with
    | [] => none
    | n' :: rest => if n = n' then some ⟨k, n, rest⟩ else none
  | .advance k, .advance n => if n = th.cur then some { th with prog := k } else none
  | _, _ => none

def Thread.after (acts : List (Act Loc Val)) : Option (Thread Loc Val) :=
  acts.foldlM Thread.exec th

end

/-- The thread has ended, or it sleeps for good. -/
def Thread.Rests (th : Thread Loc Val) : Prop :=
  (∃ a, th.prog = .ret a) ∨ (∃ k, th.prog = .wait true k) ∧ th.nodes = []

/-- What thread `t` does in a trace. -/
def log (t : Nat) (T : List (Event Loc Val)) : List (Act Loc Val) :=
  T.filterMap fun e => if e.thread = t then some e.act else none

def Act.apply [DecidableEq Loc] (mem : Loc → Val) : Act Loc Val → Loc → Val
  | .write l v => update mem l v
  | _ => mem

def runMem [DecidableEq Loc] (mem : Loc → Val) (T : List (Event Loc Val)) : Loc → Val :=
  T.foldl (fun mem e => e.act.apply mem) mem

/-- The action reads what is in the memory. -/
def Act.ReadsOk (mem : Loc → Val) : Act Loc Val → Prop
  | .read l v => mem l = v
  | _ => True

/-- In the trace every read reads what was written last. -/
def SeqOk [DecidableEq Loc] : (Loc → Val) → List (Event Loc Val) → Prop
  | _, [] => True
  | mem, e :: T => e.act.ReadsOk mem ∧ SeqOk (e.act.apply mem) T

/-! ## Order and conflicts -/

/-- Event `i` comes directly before event `j`. -/
inductive Before (preds : Nat → List Nat) (T : List (Event Loc Val)) : Nat → Nat → Prop
  | po {i j : Nat} {t : Nat} {a b : Act Loc Val} (hi : T[i]? = some ⟨t, a⟩)
      (hj : T[j]? = some ⟨t, b⟩) (h : i < j) : Before preds T i j
  | sync {i j n m t u : Nat} (hi : T[i]? = some ⟨t, .advance n⟩) (hj : T[j]? = some ⟨u, .wait m⟩)
      (h : n ∈ preds m) : Before preds T i j

def HB (preds : Nat → List Nat) (T : List (Event Loc Val)) : Nat → Nat → Prop :=
  Relation.TransGen (Before preds T)

def Act.loc? : Act Loc Val → Option Loc
  | .read l _ => some l
  | .write l _ => some l
  | _ => none

def Act.isWrite : Act Loc Val → Bool
  | .write _ _ => true
  | _ => false

/-- Two accesses to one location, one of them a write. -/
def Conflict (a b : Act Loc Val) : Prop :=
  (∃ l, a.loc? = some l ∧ b.loc? = some l) ∧ (a.isWrite = true ∨ b.isWrite = true)

def RaceFree (preds : Nat → List Nat) (T : List (Event Loc Val)) : Prop :=
  ∀ (i j t u : Nat) (a b : Act Loc Val), T[i]? = some ⟨t, a⟩ → T[j]? = some ⟨u, b⟩ → i < j →
    t ≠ u → Conflict a b → HB preds T i j

def AdvancesOnce (T : List (Event Loc Val)) : Prop :=
  ∀ (i j t u n : Nat), T[i]? = some ⟨t, .advance n⟩ → T[j]? = some ⟨u, .advance n⟩ → i = j

/-! ## Positions in a trace -/

section
variable {T : List (Event Loc Val)} {t u i j : Nat} {a : Act Loc Val}

lemma log_append : log t (T ++ U) = log t T ++ log t U := filterMap_append

def cnt (T : List (Event Loc Val)) (t i : Nat) : Nat := (log t (T.take i)).length

lemma cnt_succ (h : T[i]? = some e) :
    cnt T t (i + 1) = cnt T t i + if e.thread = t then 1 else 0 := by
  unfold cnt
  rw [take_add_one, h, log_append, length_append]
  by_cases ht : e.thread = t <;> simp [log, ht]

lemma cnt_mono (h : i ≤ j) : cnt T t i ≤ cnt T t j := by
  exact ((take_sublist_take_left h).filterMap _).length_le

lemma cnt_lt (hi : T[i]? = some ⟨t, a⟩) (h : i < j) : cnt T t i < cnt T t j := by
  have hstep : cnt T t (i + 1) = cnt T t i + 1 := by rw [cnt_succ hi, if_pos rfl]
  have hmono : cnt T t (i + 1) ≤ cnt T t j := cnt_mono h
  omega

lemma log_getElem? (hi : T[i]? = some ⟨t, a⟩) : (log t T)[cnt T t i]? = some a := by
  have hsplit : T = T.take i ++ ⟨t, a⟩ :: T.drop (i + 1) := by
    obtain ⟨hlt, hget⟩ := List.getElem?_eq_some_iff.1 hi
    rw [← hget, getElem_cons_drop, take_append_drop]
  have hlog : log t T = log t (T.take i) ++ a :: log t (T.drop (i + 1)) := by
    rw [hsplit, log_append, ← hsplit]
    simp [log]
  rw [hlog, cnt, List.getElem?_append_right (Nat.le_refl _)]
  simp

lemma exists_index (h : (log t T)[p]? = some a) : ∃ i, T[i]? = some ⟨t, a⟩ ∧ cnt T t i = p := by
  induction T generalizing p with
  | nil => simp [log] at h
  | cons e T ih =>
    have hcnt : ∀ i, cnt (e :: T) t (i + 1) = (if e.thread = t then 1 else 0) + cnt T t i := by
      intro i
      by_cases ht : e.thread = t <;> simp [cnt, log, ht, Nat.add_comm]
    by_cases ht : e.thread = t
    · have hlog : log t (e :: T) = e.act :: log t T := by simp [log, ht]
      rw [hlog] at h
      cases p with
      | zero =>
        refine ⟨0, ?_, rfl⟩
        obtain ⟨t', b⟩ := e
        simp only [List.getElem?_cons_zero, Option.some.injEq] at h ht ⊢
        rw [ht, h]
      | succ p =>
        obtain ⟨i, hi, hp⟩ := ih (List.getElem?_cons_succ ▸ h)
        exact ⟨i + 1, by simpa using hi, by rw [hcnt, hp, if_pos ht, Nat.add_comm]⟩
    · have hlog : log t (e :: T) = log t T := by simp [log, ht]
      rw [hlog] at h
      obtain ⟨i, hi, hp⟩ := ih h
      exact ⟨i + 1, by simpa using hi, by rw [hcnt, hp, if_neg ht, Nat.zero_add]⟩

def Done (T : List (Event Loc Val)) (pos : Nat → Nat) (i : Nat) : Prop :=
  ∃ t a, T[i]? = some ⟨t, a⟩ ∧ cnt T t i < pos t

lemma done_update {pos : Nat → Nat} (hi : T[i]? = some ⟨t, a⟩) (hp : cnt T t i = pos t) :
    Done T (update pos t (pos t + 1)) j ↔ Done T pos j ∨ j = i := by
  constructor
  · rintro ⟨u, b, hj, hlt⟩
    by_cases hu : u = t
    · subst hu
      rw [update_self] at hlt
      rcases Nat.lt_trichotomy j i with hji | rfl | hij
      · exact .inl ⟨u, b, hj, by have := cnt_lt hj hji; omega⟩
      · exact .inr rfl
      · have := cnt_lt hi hij
        omega
    · rw [update_of_ne hu] at hlt
      exact .inl ⟨u, b, hj, hlt⟩
  · rintro (⟨u, b, hj, hlt⟩ | rfl)
    · refine ⟨u, b, hj, ?_⟩
      by_cases hu : u = t
      · subst hu
        rw [update_self]
        omega
      · rw [update_of_ne hu]
        exact hlt
    · exact ⟨t, a, hi, by rw [update_self]; omega⟩

end

/-! ## The last write -/

section
variable {T : List (Event Loc Val)} {mem₀ : Loc → Val} {D : Nat → Prop} {l : Loc} {v : Val}

/-- `v` is what the last write to `l` among the events in `D` wrote, or the first value. -/
def IsLast (mem₀ : Loc → Val) (T : List (Event Loc Val)) (D : Nat → Prop) (l : Loc) (v : Val) : Prop :=
  (∃ i t, D i ∧ T[i]? = some ⟨t, .write l v⟩ ∧
    ∀ j u w, D j → T[j]? = some ⟨u, .write l w⟩ → j ≤ i) ∨
  ((∀ j u w, D j → T[j]? ≠ some ⟨u, .write l w⟩) ∧ v = mem₀ l)

lemma IsLast.congr (h : IsLast mem₀ T D l v)
    (hD : ∀ j u w, T[j]? = some ⟨u, .write l w⟩ → (D' j ↔ D j)) : IsLast mem₀ T D' l v := by
  rcases h with ⟨i, t, hi, hT, hmax⟩ | ⟨hno, hv⟩
  · refine .inl ⟨i, t, (hD i t v hT).2 hi, hT, ?_⟩
    intro j u w hj hw
    exact hmax j u w ((hD j u w hw).1 hj) hw
  refine .inr ⟨?_, hv⟩
  intro j u w hj hw
  exact hno j u w ((hD j u w hw).1 hj) hw

lemma IsLast.unique (h : IsLast mem₀ T D l v) (h' : IsLast mem₀ T D l v') : v = v' := by
  rcases h with ⟨i, t, hi, hT, hmax⟩ | ⟨hno, hv⟩ <;>
    rcases h' with ⟨i', t', hi', hT', hmax'⟩ | ⟨hno', hv'⟩
  · have hle := hmax i' t' v' hi' hT'
    have hge := hmax' i t v hi hT
    obtain rfl : i = i' := by omega
    rw [hT] at hT'
    cases hT'
    rfl
  · exact absurd hT (hno' i t v hi)
  · exact absurd hT' (hno i' t' v' hi')
  · rw [hv, hv']

variable [DecidableEq Loc] {mem : Loc → Val}

lemma runMem_append (mem : Loc → Val) (T U : List (Event Loc Val)) :
    runMem mem (T ++ U) = runMem (runMem mem T) U :=
  foldl_append

lemma seqOk_append : SeqOk mem (T ++ U) ↔ SeqOk mem T ∧ SeqOk (runMem mem T) U := by
  induction T generalizing mem with
  | nil => simp [SeqOk, runMem]
  | cons e T ih =>
    show e.act.ReadsOk mem ∧ SeqOk _ (T ++ U) ↔ (e.act.ReadsOk mem ∧ SeqOk _ T) ∧ _
    rw [ih, and_assoc]
    rfl

lemma isLast_runMem (mem₀ : Loc → Val) (T : List (Event Loc Val)) (l : Loc) (i : Nat) :
    IsLast mem₀ T (fun j => j < i) l (runMem mem₀ (T.take i) l) := by
  induction i with
  | zero => exact .inr ⟨fun j u w hj => by omega, rfl⟩
  | succ i ih =>
    cases he : T[i]? with
    | none =>
      have htake : T.take (i + 1) = T.take i := by rw [take_add_one, he]; simp
      rw [htake]
      apply ih.congr
      intro j u w hw
      have hlt := (List.getElem?_eq_some_iff.1 hw).1
      have hge := List.getElem?_eq_none_iff.1 he
      omega
    | some e =>
      have htake : T.take (i + 1) = T.take i ++ [e] := by rw [take_add_one, he]; rfl
      have hmem : runMem mem₀ (T.take (i + 1)) = e.act.apply (runMem mem₀ (T.take i)) := by
        rw [htake, runMem_append]
        rfl
      rw [hmem]
      by_cases hw : ∃ w, e.act = .write l w
      · obtain ⟨w, hw⟩ := hw
        obtain ⟨t, b⟩ := e
        subst hw
        refine .inl ⟨i, t, by omega, ?_, ?_⟩
        · simpa [Act.apply] using he
        · intro j u w' hj _
          omega
      have hsame : e.act.apply (runMem mem₀ (T.take i)) l = runMem mem₀ (T.take i) l := by
        cases hact : e.act with
        | write l' w =>
          have hne : l ≠ l' := by
            intro heq
            exact hw ⟨w, by rw [hact, heq]⟩
          exact update_of_ne hne _ _
        | _ => rfl
      rw [hsame]
      apply ih.congr
      intro j u w' hj
      have hne : j ≠ i := by
        intro heq
        rw [heq, he] at hj
        cases hj
        exact hw ⟨w', rfl⟩
      omega

lemma SeqOk.read {i t : Nat} (h : SeqOk mem T)
    (hi : T[i]? = some ⟨t, .read l v⟩) : runMem mem (T.take i) l = v := by
  obtain ⟨hlt, hget⟩ := List.getElem?_eq_some_iff.1 hi
  have hsplit : T = T.take i ++ T.drop i := (take_append_drop i T).symm
  rw [hsplit, seqOk_append] at h
  rw [drop_eq_getElem_cons hlt, hget] at h
  exact h.2.1

end

/-! ## The main theorem -/

section
variable [DecidableEq Loc] [DecidableEq Val] {preds : Nat → List Nat} {T : List (Event Loc Val)}
  {mem₀ : Loc → Val} {threads₀ : Nat → Thread Loc Val}

lemma Thread.after_append {th : Thread Loc Val} :
    th.after (acts ++ acts') = (th.after acts).bind fun th' => th'.after acts' :=
  foldlM_append

/-- The trace is an execution of the threads from the first memory, up to where they rest. -/
structure Recorded (mem₀ : Loc → Val) (threads₀ : Nat → Thread Loc Val)
    (T : List (Event Loc Val)) : Prop where
  seqOk : SeqOk mem₀ T
  once : AdvancesOnce T
  follows : ∀ t, ∃ th, (threads₀ t).after (log t T) = some th ∧ th.Rests

/-- A replay in which each thread has done its first `pos t` events. -/
structure Along (preds : Nat → List Nat) (T : List (Event Loc Val)) (mem₀ : Loc → Val)
    (threads₀ : Nat → Thread Loc Val) (s : Replay Loc Val) (pos : Nat → Nat) : Prop where
  threads : ∀ t, (threads₀ t).after ((log t T).take (pos t)) = some (s.threads t)
  mem : ∀ l, IsLast mem₀ T (Done T pos) l (s.mem l)
  done : ∀ n, s.done n = true → ∀ k u, T[k]? = some ⟨u, .advance n⟩ → Done T pos k
  closed : ∀ i j, Before preds T i j → Done T pos j → Done T pos i

lemma along_initial :
    Along preds T mem₀ threads₀ (.initial mem₀ threads₀) fun _ => 0 where
  threads := by
    intro t
    rfl
  mem := by
    intro l
    refine .inr ⟨?_, rfl⟩
    rintro j u w ⟨t, a, -, hlt⟩
    exact absurd hlt (Nat.not_lt_zero _)
  done := by
    nofun
  closed := by
    rintro i j - ⟨t, a, -, hlt⟩
    exact absurd hlt (Nat.not_lt_zero _)

variable {s : Replay Loc Val}

lemma Along.hb {pos : Nat → Nat} (h : Along preds T mem₀ threads₀ s pos)
    {i j : Nat} (hij : HB preds T i j) (hj : Done T pos j) : Done T pos i := by
  induction hij using Relation.TransGen.head_induction_on with
  | single hb => exact h.closed _ _ hb hj
  | head hb _ ih => exact h.closed _ _ hb ih

structure Next (preds : Nat → List Nat) (T : List (Event Loc Val)) (pos : Nat → Nat) (t i : Nat)
    (a : Act Loc Val) : Prop where
  at_index : T[i]? = some ⟨t, a⟩
  cnt_eq : cnt T t i = pos t
  before : ∀ k, Before preds T k i → Done T pos k

namespace Next

variable {s : Replay Loc Val} {pos : Nat → Nat} {t i : Nat} {a : Act Loc Val}

section
variable (h : Next preds T pos t i a) {k : Nat}
include h

omit [DecidableEq Loc] [DecidableEq Val] in
lemma not_done : ¬ Done T pos i := by
  rintro ⟨u, b, hi, hlt⟩
  rw [h.at_index] at hi
  cases hi
  have := h.cnt_eq
  omega

lemma hb (hs : Along preds T mem₀ threads₀ s pos) (hk : HB preds T k i) : Done T pos k := by
  rcases Relation.TransGen.tail'_iff.1 hk with ⟨m, hkm, hmi⟩
  have hm := h.before m hmi
  rcases Relation.reflTransGen_iff_eq_or_transGen.1 hkm with rfl | hkm
  · exact hm
  · exact hs.hb hkm hm

lemma done_iff (hrf : RaceFree preds T) (hs : Along preds T mem₀ threads₀ s pos) {u : Nat}
    {b : Act Loc Val} (hk : T[k]? = some ⟨u, b⟩) (hc : Conflict a b) : Done T pos k ↔ k < i := by
  have hcomm : Conflict b a := by
    obtain ⟨⟨l, ha, hb⟩, hw⟩ := hc
    exact ⟨⟨l, hb, ha⟩, hw.symm⟩
  rcases Nat.lt_trichotomy k i with hki | rfl | hik
  · refine ⟨fun _ => hki, fun _ => ?_⟩
    by_cases hut : u = t
    · subst hut
      exact h.before k (.po hk h.at_index hki)
    · exact h.hb hs (hrf k i u t b a hk h.at_index hki hut hcomm)
  · exact ⟨fun hd => absurd hd h.not_done, fun hlt => by omega⟩
  · refine ⟨fun hd => ?_, fun hlt => by omega⟩
    by_cases hut : u = t
    · subst hut
      exact absurd (hs.closed i k (.po h.at_index hk hik) hd) h.not_done
    · exact absurd (hs.hb (hrf i k t u a b h.at_index hk hik (Ne.symm hut) hc) hd) h.not_done

omit [DecidableEq Loc] [DecidableEq Val] in
lemma done_update_iff {j : Nat} : Done T (update pos t (pos t + 1)) j ↔ Done T pos j ∨ j = i :=
  done_update h.at_index h.cnt_eq

lemma along (hs : Along preds T mem₀ threads₀ s pos) {s' : Replay Loc Val} {th : Thread Loc Val}
    (hth : (s.threads t).exec a = some th) (hthreads : s'.threads = update s.threads t th)
    (hmem : ∀ l, IsLast mem₀ T (fun j => Done T pos j ∨ j = i) l (s'.mem l))
    (hdone : ∀ n, s'.done n = true → s.done n = true ∨ a = .advance n) (honce : AdvancesOnce T) :
    Along preds T mem₀ threads₀ s' (update pos t (pos t + 1)) where
  threads := by
    intro u
    rw [hthreads]
    by_cases hu : u = t
    · subst hu
      have hact : (log u T)[pos u]? = some a := h.cnt_eq ▸ log_getElem? h.at_index
      rw [update_self, update_self, take_add_one, hact, Thread.after_append, hs.threads u]
      show (s.threads u).after [a] = some th
      rw [Thread.after, foldlM_cons, hth]
      rfl
    · rw [update_of_ne hu, update_of_ne hu]
      exact hs.threads u
  mem := by
    intro l
    apply (hmem l).congr
    intro j u w _
    exact h.done_update_iff
  done := by
    intro n hn k u hk
    rw [h.done_update_iff]
    rcases hdone n hn with hn | rfl
    · exact .inl (hs.done n hn k u hk)
    · exact .inr (honce k i u t n hk h.at_index)
  closed := by
    intro j k hjk hk
    rw [h.done_update_iff] at hk ⊢
    rcases hk with hk | rfl
    · exact .inl (hs.closed j k hjk hk)
    · exact .inl (h.before j hjk)

end

end Next

variable {a : Act Loc Val}

lemma Thread.exec_cases {th th' : Thread Loc Val} (h : th.exec a = some th') :
    (∃ l v k, a = .read l v ∧ th.prog = .read l k ∧ th' = { th with prog := k v }) ∨
    (∃ l v k, a = .write l v ∧ th.prog = .write l v k ∧ th' = { th with prog := k }) ∨
    (∃ n c k rest, a = .wait n ∧ th.prog = .wait c k ∧ th.nodes = n :: rest ∧ th' = ⟨k, n, rest⟩) ∨
    ∃ k, a = .advance th.cur ∧ th.prog = .advance k ∧ th' = { th with prog := k } := by
  unfold Thread.exec at h
  split at h
  · rename_i l k l' v hp
    split at h
    · rename_i hl
      subst hl
      exact .inl ⟨l, v, k, rfl, hp, (Option.some.inj h).symm⟩
    · cases h
  · rename_i l v k l' v' hp
    split at h
    · rename_i hl
      obtain ⟨rfl, rfl⟩ := hl
      exact .inr (.inl ⟨l, v, k, rfl, hp, (Option.some.inj h).symm⟩)
    · cases h
  · rename_i c k n hp
    split at h
    · cases h
    rename_i n' rest hn
    split at h
    · rename_i heq
      subst heq
      exact .inr (.inr (.inl ⟨n, c, k, rest, rfl, hp, hn, (Option.some.inj h).symm⟩))
    · cases h
  · rename_i k n hp
    split at h
    · rename_i heq
      subst heq
      exact .inr (.inr (.inr ⟨k, rfl, hp, (Option.some.inj h).symm⟩))
    · cases h
  · cases h

omit [DecidableEq Val] in
lemma Thread.Rests.step_eq_none {t : Nat} (h : (s.threads t).Rests) :
    Replay.step preds s t = none := by
  unfold Replay.step
  rcases h with ⟨a, ha⟩ | ⟨⟨k, hk⟩, hn⟩
  · simp [ha]
  · simp [hk, hn]

variable {s : Replay Loc Val} {pos : Nat → Nat} {t : Nat}

section
variable (hs : Along preds T mem₀ threads₀ s pos) (hrec : Recorded mem₀ threads₀ T)
include hs hrec

lemma Along.exec_next (hp : (log t T)[pos t]? = some a) :
    ∃ th, (s.threads t).exec a = some th := by
  obtain ⟨last, hend, -⟩ := hrec.follows t
  obtain ⟨hlt, hget⟩ := List.getElem?_eq_some_iff.1 hp
  rw [← take_append_drop (pos t) (log t T), Thread.after_append, hs.threads t, Option.bind_some,
    drop_eq_getElem_cons hlt, hget, Thread.after, foldlM_cons] at hend
  obtain ⟨th, hth, -⟩ := Option.bind_eq_some_iff.1 hend
  exact ⟨th, hth⟩

lemma Along.rests_or_next (t : Nat) :
    (s.threads t).Rests ∨
      ∃ i a th, T[i]? = some ⟨t, a⟩ ∧ cnt T t i = pos t ∧ (s.threads t).exec a = some th := by
  obtain ⟨last, hend, hrest⟩ := hrec.follows t
  have hthis := hs.threads t
  cases hp : (log t T)[pos t]? with
  | none =>
    left
    rw [take_of_length_le (List.getElem?_eq_none_iff.1 hp), hend] at hthis
    rw [← Option.some.inj hthis]
    exact hrest
  | some a =>
    right
    obtain ⟨i, hi, hcnt⟩ := exists_index hp
    obtain ⟨th, hth⟩ := hs.exec_next hrec hp
    exact ⟨i, a, th, hi, hcnt, hth⟩

lemma Along.step (hrf : RaceFree preds T) (h : Replay.step preds s t = some s') :
    ∃ i a, Next preds T pos t i a ∧
      Along preds T mem₀ threads₀ s' (update pos t (pos t + 1)) ∧
      ∀ n, s'.done n = true ↔ s.done n = true ∨ a = .advance n := by
  rcases hs.rests_or_next hrec t with hrest | ⟨i, a, th, hi, hcnt, hth⟩
  · rw [hrest.step_eq_none] at h
    cases h
  have hpo : ∀ k u b, T[k]? = some ⟨u, b⟩ → u = t → k < i → Done T pos k := by
    intro k u b hk hut hki
    subst hut
    exact ⟨u, b, hk, by have := cnt_lt hk hki; omega⟩
  -- only a wait has more before it than the thread's own events
  have hnext : (∀ n, a = .wait n → (preds n).all s.done = true) → Next preds T pos t i a := by
    intro hwait
    refine ⟨hi, hcnt, ?_⟩
    intro k hk
    cases hk with
    | po hk hi' hki =>
      rw [hi] at hi'
      cases hi'
      exact hpo k _ _ hk rfl hki
    | @sync n m u _ hk hi' hmem =>
      rw [hi] at hi'
      cases hi'
      exact hs.done n (all_eq_true.1 (hwait m rfl) n hmem) k u hk
  have hkeep : Next preds T pos t i a → a.isWrite = false →
      ∀ l, IsLast mem₀ T (fun j => Done T pos j ∨ j = i) l (s.mem l) := by
    intro hn hw l
    apply (hs.mem l).congr
    intro j u w hj
    refine or_iff_left ?_
    rintro rfl
    rw [hi] at hj
    cases hj
    cases hw
  rcases Thread.exec_cases hth with ⟨l, v, k, rfl, hp, rfl⟩ | ⟨l, v, k, rfl, hp, rfl⟩ |
    ⟨n, c, k, rest, rfl, hp, hn, rfl⟩ | ⟨k, rfl, hp, rfl⟩ <;> simp only [Replay.step, hp] at h
  · have hN := hnext (by simp)
    -- the read finds what the trace says
    have hval : s.mem l = v := by
      apply (hs.mem l).unique
      have hlast := isLast_runMem mem₀ T l i
      rw [hrec.seqOk.read hi] at hlast
      apply hlast.congr
      intro j u w hj
      exact hN.done_iff hrf hs hj ⟨⟨l, rfl, rfl⟩, .inr rfl⟩
    cases h
    rw [hval]
    exact ⟨i, _, hN, hN.along hs hth rfl (hkeep hN rfl) (fun n h => .inl h) hrec.once,
      fun n => (or_iff_left (by simp)).symm⟩
  · have hN := hnext (by simp)
    cases h
    refine ⟨i, _, hN, hN.along hs hth rfl ?_ (fun n h => .inl h) hrec.once,
      fun n => (or_iff_left (by simp)).symm⟩
    intro l'
    by_cases hl : l' = l
    · subst hl
      refine .inl ⟨i, t, .inr rfl, ?_, ?_⟩
      · simpa [Replay.setThread] using hi
      · intro j u w hj hw
        rcases hj with hj | rfl
        · have := (hN.done_iff hrf hs hw ⟨⟨l', rfl, rfl⟩, .inl rfl⟩).1 hj
          omega
        · exact Nat.le_refl j
    show IsLast _ _ _ _ (update s.mem l v l')
    rw [update_of_ne hl]
    apply (hs.mem l').congr
    intro j u w hj
    refine or_iff_left ?_
    rintro rfl
    rw [hi] at hj
    cases hj
    exact hl rfl
  · simp only [hn] at h
    split at h
    · rename_i hall
      have hN := hnext (fun m hm => by cases hm; exact hall)
      cases h
      exact ⟨i, _, hN, hN.along hs hth rfl (hkeep hN rfl) (fun n h => .inl h) hrec.once,
        fun n => (or_iff_left (by simp)).symm⟩
    · cases h
  · have hN := hnext (by simp)
    cases h
    have hdone : ∀ n, update s.done (s.threads t).cur true n = true ↔
        s.done n = true ∨ (.advance (s.threads t).cur : Act Loc Val) = .advance n := by
      intro n
      by_cases hcur : n = (s.threads t).cur
      · subst hcur
        simp
      · rw [update_of_ne hcur]
        simp [Ne.symm hcur]
    exact ⟨i, _, hN, hN.along hs hth rfl (hkeep hN rfl) (fun n => (hdone n).1) hrec.once, hdone⟩

end

/-- The node of every done `advance` is done. -/
def Marked (T : List (Event Loc Val)) (s : Replay Loc Val) (pos : Nat → Nat) : Prop :=
  ∀ k u n, T[k]? = some ⟨u, .advance n⟩ → Done T pos k → s.done n = true

section
variable (hrec : Recorded mem₀ threads₀ T) (hrf : RaceFree preds T) {ts : List Nat}
  (h : Machine.runFrom (Replay.step preds) (.initial mem₀ threads₀) ts = some s)
include hrec hrf h

lemma along_of_run : ∃ pos, Along preds T mem₀ threads₀ s pos ∧ Marked T s pos := by
  refine Machine.inv_of_run (I := fun s => ∃ pos, Along preds T mem₀ threads₀ s pos ∧ Marked T s pos)
    _ ?_ ⟨_, along_initial, ?_⟩ h
  · rintro s t s' ⟨pos, hs, hmark⟩ hstep
    obtain ⟨i, a, hN, hs', hdone⟩ := hs.step hrec hrf hstep
    refine ⟨_, hs', ?_⟩
    intro k u n hk hd
    rw [hdone]
    rcases hN.done_update_iff.1 hd with hd | rfl
    · exact .inl (hmark k u n hk hd)
    rw [hN.at_index] at hk
    cases hk
    exact .inr rfl
  · rintro k u n - ⟨t, a, -, hlt⟩
    exact absurd hlt (Nat.not_lt_zero _)

/-- **Replays of a race-free trace agree with it**: no thread of a replay fails. -/
theorem agrees_of_raceFree (t : Nat) :
    (∃ n, (threads₀ t).after ((log t T).take n) = some (s.threads t)) ∧
      (s.threads t).prog ≠ .fail := by
  obtain ⟨pos, hs, -⟩ := along_of_run hrec hrf h
  refine ⟨⟨pos t, hs.threads t⟩, ?_⟩
  intro hfail
  rcases hs.rests_or_next hrec t with hrest | ⟨i, a, th, -, -, hth⟩
  · rcases hrest with ⟨b, hb⟩ | ⟨⟨k, hk⟩, -⟩
    · rw [hb] at hfail
      cases hfail
    · rw [hk] at hfail
      cases hfail
  · rcases Thread.exec_cases hth with ⟨l, v, k, -, hp, -⟩ | ⟨l, v, k, -, hp, -⟩ |
      ⟨n, c, k, rest, -, hp, -, -⟩ | ⟨k, -, hp, -⟩ <;> rw [hp] at hfail <;> cases hfail

end

/-! ## Progress -/

def Backward (preds : Nat → List Nat) (T : List (Event Loc Val)) : Prop :=
  ∀ (j t m n : Nat), T[j]? = some ⟨t, .wait m⟩ → n ∈ preds m →
    ∃ i u, i < j ∧ T[i]? = some ⟨u, .advance n⟩

omit [DecidableEq Loc] [DecidableEq Val] in
lemma cnt_eq_of_first (hi : T[i]? = some ⟨t, a⟩)
    (hfirst : ∀ j, j < i → Done T pos j) (hnot : ¬ Done T pos i) : cnt T t i = pos t := by
  have hge : ¬ cnt T t i < pos t := fun hlt => hnot ⟨t, a, hi, hlt⟩
  have hle : ¬ pos t < cnt T t i := by
    intro hlt
    have hlen := (List.getElem?_eq_some_iff.1 (log_getElem? hi)).1
    obtain ⟨j, hj, hcnt⟩ := exists_index (List.getElem?_eq_getElem (Nat.lt_trans hlt hlen))
    have hji : j < i := by
      by_contra hij
      have := cnt_mono (T := T) (t := t) (Nat.not_lt.1 hij)
      omega
    obtain ⟨u, b, hj', hdone⟩ := hfirst j hji
    rw [hj] at hj'
    cases hj'
    omega
  omega

lemma Along.step_first (hs : Along preds T mem₀ threads₀ s pos) (hmark : Marked T s pos)
    (hrec : Recorded mem₀ threads₀ T) (hback : Backward preds T) {i : Nat}
    (hi : T[i]? = some ⟨t, a⟩) (hfirst : ∀ j, j < i → Done T pos j) (hnot : ¬ Done T pos i) :
    Replay.step preds s t ≠ none := by
  have hp : (log t T)[pos t]? = some a := cnt_eq_of_first hi hfirst hnot ▸ log_getElem? hi
  obtain ⟨th, hth⟩ := hs.exec_next hrec hp
  rcases Thread.exec_cases hth with ⟨l, v, k, rfl, hp, rfl⟩ | ⟨l, v, k, rfl, hp, rfl⟩ |
    ⟨n, c, k, rest, rfl, hp, hn, rfl⟩ | ⟨k, rfl, hp, rfl⟩
  · simp [Replay.step, hp]
  · simp [Replay.step, hp]
  · have hall : (preds n).all s.done = true := by
      rw [all_eq_true]
      intro m hm
      obtain ⟨j, u, hji, hj⟩ := hback i t n m hi hm
      exact hmark j u m hj (hfirst j hji)
    simp only [Replay.step, hp, hn, hall, if_true, ne_eq, reduceCtorEq, not_false_eq_true]
  · simp [Replay.step, hp]

/-- **A replay in which no thread moves is at the end of the trace.** -/
theorem ends_of_raceFree (hrec : Recorded mem₀ threads₀ T) (hrf : RaceFree preds T)
    (hback : Backward preds T)
    (h : Machine.runFrom (Replay.step preds) (.initial mem₀ threads₀) ts = some s)
    (hstuck : ∀ t, Replay.step preds s t = none) (t : Nat) :
    (threads₀ t).after (log t T) = some (s.threads t) := by
  obtain ⟨pos, hs, hmark⟩ := along_of_run hrec hrf h
  have hall : ∀ i, i < T.length → Done T pos i := by
    intro i
    induction i using Nat.strongRecOn with
    | ind i ih =>
      intro hlt
      by_contra hnot
      refine hs.step_first hmark hrec hback (List.getElem?_eq_getElem hlt) ?_ hnot (hstuck _)
      intro j hj
      exact ih j hj (Nat.lt_trans hj hlt)
  have hlen : (log t T).length ≤ pos t := by
    by_contra hlt
    obtain ⟨i, hi, hcnt⟩ := exists_index (List.getElem?_eq_getElem (Nat.not_le.1 hlt))
    obtain ⟨u, b, hi', hdone⟩ := hall i (List.getElem?_eq_some_iff.1 hi).1
    rw [hi] at hi'
    cases hi'
    omega
  have := hs.threads t
  rwa [take_of_length_le hlen] at this

end

end SharedMemory
