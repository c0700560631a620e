import InputCovSched.Lib.SharedMemory
import Mathlib.Data.List.Nodup

/-!
# Building race-free traces

A trace of `SharedMemory` that is built from blocks: one thread waits for a node and then does
some actions. An event `Reaches` a node when it comes before the event that advances it. The
trace stays race free when everything that conflicts with the block, in other threads, comes
before its wait (`RaceFree.block`), for instance since it reaches a predecessor of the node
(`Reaches.hb_block`).
-/

namespace SharedMemory

open Thread

open List

variable {Loc Val : Type}

def block (t : Nat) (acts : List (Act Loc Val)) : List (Event Loc Val) := acts.map (Event.mk t)

section
variable {T U : List (Event Loc Val)} {t u i : Nat} {a : Act Loc Val} {acts : List (Act Loc Val)}

@[simp] lemma log_block_self : log t (block t acts) = acts := by
  unfold log block
  induction acts with
  | nil => rfl
  | cons a acts ih => simp

@[simp] lemma log_block_of_ne (h : u ≠ t) : log u (block t acts) = [] := by
  unfold log block
  rw [filterMap_map, filterMap_eq_nil_iff]
  intro a _
  exact if_neg (Ne.symm h)

variable {e : Event Loc Val}

lemma mem_block : e ∈ block t acts ↔ e.thread = t ∧ e.act ∈ acts := by
  obtain ⟨u, a⟩ := e
  unfold block
  rw [mem_map]
  constructor
  · rintro ⟨b, hb, h⟩
    cases h
    exact ⟨rfl, hb⟩
  · rintro ⟨rfl, ha⟩
    exact ⟨a, ha, rfl⟩

lemma getElem?_block (h : acts[i]? = some a) : (block t acts)[i]? = some ⟨t, a⟩ := by
  rw [block, List.getElem?_map, h]
  rfl

lemma getElem?_append_of_some (h : T[i]? = some e) : (T ++ U)[i]? = some e := by
  rw [List.getElem?_append_left (List.getElem?_eq_some_iff.1 h).1, h]

lemma getElem?_append_add (h : U[i]? = some e) : (T ++ U)[T.length + i]? = some e := by
  rw [List.getElem?_append_right (Nat.le_add_right _ _), Nat.add_sub_cancel_left, h]

lemma getElem?_append_cases (h : (T ++ U)[i]? = some e) :
    T[i]? = some e ∨ ∃ p, i = T.length + p ∧ U[p]? = some e := by
  rcases Nat.lt_or_ge i T.length with hlt | hge
  · rw [List.getElem?_append_left hlt] at h
    exact .inl h
  · rw [List.getElem?_append_right hge] at h
    exact .inr ⟨i - T.length, by omega, h⟩

end

/-! ## Order in longer traces -/

section
variable {preds : Nat → List Nat} {T : List (Event Loc Val)} {i j n m t u : Nat} {a : Act Loc Val}
  {acts : List (Act Loc Val)}

lemma Before.append (hmono : ∀ n m, n ∈ preds m → n ∈ preds' m) (h : Before preds T i j) :
    Before preds' (T ++ U) i j := by
  cases h with
  | po hi hj hlt => exact .po (getElem?_append_of_some hi) (getElem?_append_of_some hj) hlt
  | sync hi hj hn =>
    exact .sync (getElem?_append_of_some hi) (getElem?_append_of_some hj) (hmono _ _ hn)

lemma HB.append (hmono : ∀ n m, n ∈ preds m → n ∈ preds' m) (h : HB preds T i j) :
    HB preds' (T ++ U) i j :=
  Relation.TransGen.mono (fun _ _ => Before.append hmono) _ _ h

/-- The event comes before the one that advances `n`. -/
def Reaches (preds : Nat → List Nat) (T : List (Event Loc Val)) (i n : Nat) : Prop :=
  ∃ k u, T[k]? = some ⟨u, .advance n⟩ ∧ HB preds T i k

lemma Reaches.append (hmono : ∀ n m, n ∈ preds m → n ∈ preds' m) (h : Reaches preds T i n) :
    Reaches preds' (T ++ U) i n := by
  obtain ⟨k, u, hk, hik⟩ := h
  exact ⟨k, u, getElem?_append_of_some hk, hik.append hmono⟩

lemma Reaches.hb_wait (h : Reaches preds T i n) (hj : T[j]? = some ⟨t, .wait m⟩)
    (hn : n ∈ preds m) : HB preds T i j := by
  obtain ⟨k, u, hk, hik⟩ := h
  exact hik.tail (.sync hk hj hn)

lemma HB.po (hi : T[i]? = some ⟨t, a⟩) (hj : T[j]? = some ⟨t, b⟩) (h : i < j) : HB preds T i j :=
  .single (.po hi hj h)

lemma HB.reaches (h : HB preds T i j) (hj : T[j]? = some ⟨t, a⟩) (hn : T[m]? = some ⟨t, .advance n⟩)
    (hjm : j < m) : Reaches preds T i n :=
  ⟨m, t, hn, h.tail (.po hj hn hjm)⟩

lemma RaceFree.block (hrf : RaceFree preds T) (hmono : ∀ n m, n ∈ preds m → n ∈ preds' m)
    (hnew : ∀ i u a b, T[i]? = some ⟨u, a⟩ → u ≠ t → b ∈ acts → Conflict a b →
      HB preds' (T ++ block t acts) i T.length) :
    RaceFree preds' (T ++ block t acts) := by
  intro i j u w a b hi hj hij huw hc
  rcases getElem?_append_cases hj with hj' | ⟨q, rfl, hq⟩
  · rcases getElem?_append_cases hi with hi' | ⟨p, rfl, -⟩
    · exact (hrf i j u w a b hi' hj' hij huw hc).append hmono
    · have := (List.getElem?_eq_some_iff.1 hj').1
      omega
  obtain ⟨rfl, hb⟩ := mem_block.1 (mem_of_getElem? hq)
  rcases getElem?_append_cases hi with hi' | ⟨p, rfl, hp⟩
  · have hfirst := hnew i u a b hi' huw hb hc
    -- the block's own events come after its first one
    cases q with
    | zero => exact hfirst
    | succ q =>
      cases acts with
      | nil => cases hb
      | cons a₀ acts =>
        have h₀ : (T ++ SharedMemory.block w (a₀ :: acts))[T.length]? = some ⟨w, a₀⟩ :=
          getElem?_append_add (i := 0) (getElem?_block rfl)
        exact hfirst.tail (.po h₀ hj (by omega))
  · obtain ⟨rfl, -⟩ := mem_block.1 (mem_of_getElem? hp)
    exact absurd rfl huw

end

/-! ## Advanced nodes -/

def Act.advances? : Act Loc Val → Option Nat
  | .advance n => some n
  | _ => none

def advanced (T : List (Event Loc Val)) : List Nat := T.filterMap fun e => e.act.advances?

section
variable {T : List (Event Loc Val)} {t u i k n m : Nat} {acts : List (Act Loc Val)}

@[simp] lemma advanced_append : advanced (T ++ U) = advanced T ++ advanced U :=
  filterMap_append

lemma advanced_block : advanced (block t acts) = acts.filterMap Act.advances? := by
  unfold advanced block
  rw [filterMap_map]
  rfl

lemma mem_advanced (h : T[i]? = some ⟨t, .advance n⟩) : n ∈ advanced T :=
  mem_filterMap.2 ⟨_, mem_of_getElem? h, rfl⟩

lemma Reaches.mem_advanced {preds : Nat → List Nat} (h : Reaches preds T i n) : n ∈ advanced T := by
  obtain ⟨k, u, hk, -⟩ := h
  exact SharedMemory.mem_advanced hk

lemma advancesOnce_of_nodup (h : (advanced T).Nodup) : AdvancesOnce T := by
  induction T with
  | nil =>
    intro i j t u n hi
    simp at hi
  | cons e T ih =>
    have htail : (advanced T).Nodup := by
      refine h.sublist ?_
      exact (sublist_cons_self e T).filterMap _
    -- a node that the first event advances is not advanced later
    have hfirst : ∀ j t u n : Nat, e = ⟨t, .advance n⟩ → T[j]? ≠ some ⟨u, .advance n⟩ := by
      rintro j t u n rfl hj
      have hcons : advanced (⟨t, .advance n⟩ :: T) = n :: advanced T := rfl
      rw [hcons, nodup_cons] at h
      exact h.1 (SharedMemory.mem_advanced hj)
    intro i j t u n hi hj
    cases i with
    | zero =>
      cases j with
      | zero => rfl
      | succ j => exact absurd (by simpa using hj) (hfirst j t u n (by simpa using hi))
    | succ i =>
      cases j with
      | zero => exact absurd (by simpa using hi) (hfirst i u t n (by simpa using hj))
      | succ j => rw [ih htail i j t u n (by simpa using hi) (by simpa using hj)]

end

def InOrder (T : List (Event Loc Val)) : Prop :=
  ∀ (j t m n : Nat), T[j]? = some ⟨t, .wait m⟩ → 0 < n → n < m →
    ∃ i u, i < j ∧ T[i]? = some ⟨u, .advance n⟩

section
variable {k : Nat} {acts : List (Act Loc Val)}

lemma InOrder.backward (h : InOrder T) (hlt : ∀ n m, n ∈ preds m → 0 < n ∧ n < m) :
    Backward preds T := by
  intro j t m n hj hn
  obtain ⟨hpos, hnm⟩ := hlt n m hn
  exact h j t m n hj hpos hnm

lemma exists_index_advanced (h : n ∈ advanced T) :
    ∃ i u, i < T.length ∧ T[i]? = some ⟨u, .advance n⟩ := by
  obtain ⟨⟨u, a⟩, he, ha⟩ := mem_filterMap.1 h
  obtain ⟨i, hi⟩ := mem_iff_getElem?.1 he
  have hact : a = .advance n := by
    cases a with
    | advance m => rw [Option.some.inj ha]
    | _ => cases ha
  exact ⟨i, u, (List.getElem?_eq_some_iff.1 hi).1, hact ▸ hi⟩

lemma InOrder.block (h : InOrder T) (hadv : advanced T = List.range' 1 k)
    (hwait : ∀ m, .wait m ∈ acts → m = k + 1) : InOrder (T ++ block t acts) := by
  intro j u m n hj hpos hnm
  rcases getElem?_append_cases hj with hj | ⟨p, rfl, hp⟩
  · obtain ⟨i, w, hij, hi⟩ := h j u m n hj hpos hnm
    exact ⟨i, w, hij, getElem?_append_of_some hi⟩
  have hm := hwait m (mem_block.1 (mem_of_getElem? hp)).2
  have hn : n ∈ advanced T := by
    rw [hadv, mem_range'_1]
    omega
  obtain ⟨i, w, hlt, hi⟩ := exists_index_advanced hn
  exact ⟨i, w, by omega, getElem?_append_of_some hi⟩

end

/-! ## What one thread does -/

section
variable [DecidableEq Loc] {a : Act Loc Val} {acts : List (Act Loc Val)} {mem : Loc → Val}

def runActs (mem : Loc → Val) (acts : List (Act Loc Val)) : Loc → Val := acts.foldl Act.apply mem

/-- Every read of the actions finds what it says. -/
def ActsOk : (Loc → Val) → List (Act Loc Val) → Prop
  | _, [] => True
  | mem, a :: acts => a.ReadsOk mem ∧ ActsOk (a.apply mem) acts

lemma runMem_block : runMem mem (block t acts) = runActs mem acts := by
  unfold runMem runActs block
  rw [foldl_map]

lemma seqOk_block : SeqOk mem (block t acts) ↔ ActsOk mem acts := by
  induction acts generalizing mem with
  | nil => exact Iff.rfl
  | cons a acts ih => exact and_congr_right fun _ => ih

lemma runActs_append : runActs mem (acts ++ acts') = runActs (runActs mem acts) acts' :=
  foldl_append

lemma actsOk_append :
    ActsOk mem (acts ++ acts') ↔ ActsOk mem acts ∧ ActsOk (runActs mem acts) acts' := by
  induction acts generalizing mem with
  | nil => exact (Iff.of_eq (true_and _)).symm
  | cons a acts ih => exact (and_congr_right fun _ => ih).trans and_assoc.symm

end

/-! ## Threads that get more to do -/

section
variable [DecidableEq Loc] [DecidableEq Val] {cur n : Nat} {l : Loc} {v : Val}

variable {th : Thread Loc Val}

@[simp] lemma Thread.after_nil : th.after [] = some th := rfl

@[simp] lemma Thread.after_read :
    after ⟨.read l k, cur, ns⟩ (.read l v :: acts) = after ⟨k v, cur, ns⟩ acts := by
  simp [after, exec]

variable {k : Prog Loc Val Unit}

@[simp] lemma Thread.after_write :
    after ⟨.write l v k, cur, ns⟩ (.write l v :: acts) = after ⟨k, cur, ns⟩ acts := by
  simp [after, exec]

@[simp] lemma Thread.after_wait :
    after ⟨.wait b k, cur, n :: ns⟩ (.wait n :: acts) = after ⟨k, n, ns⟩ acts := by
  simp [after, exec]

@[simp] lemma Thread.after_advance :
    after ⟨.advance k, cur, ns⟩ (.advance cur :: acts) = after ⟨k, cur, ns⟩ acts := by
  simp [after, exec]

lemma Thread.after_bind
    (f : Unit → Prog Loc Val Unit) (more : List Nat) (h : th.after acts = some th') :
    after ⟨th.prog.bind f, th.cur, th.nodes ++ more⟩ acts =
      some ⟨th'.prog.bind f, th'.cur, th'.nodes ++ more⟩ := by
  induction acts generalizing th with
  | nil =>
    cases h
    rfl
  | cons a acts ih =>
    rw [after, foldlM_cons] at h ⊢
    obtain ⟨th₁, h₁, hrest⟩ := Option.bind_eq_some_iff.1 h
    have hstep : exec ⟨th.prog.bind f, th.cur, th.nodes ++ more⟩ a =
        some ⟨th₁.prog.bind f, th₁.cur, th₁.nodes ++ more⟩ := by
      rcases exec_cases h₁ with ⟨l, v, k, rfl, hp, rfl⟩ | ⟨l, v, k, rfl, hp, rfl⟩ |
        ⟨n, c, k, rest, rfl, hp, hn, rfl⟩ | ⟨k, rfl, hp, rfl⟩
      · simp [exec, hp, Prog.bind]
      · simp [exec, hp, Prog.bind]
      · simp [exec, hp, hn, Prog.bind]
      · simp [exec, hp, Prog.bind]
    rw [hstep]
    exact ih hrest

end

end SharedMemory
