import InputCovSched.Lib.Flood
import InputCovSched.Static.CallGraph

/-!
# Instruction ranges before and after calls (`SearchStrategy.cpp`)

`PrecomputeCacheForMayLeadToCall` and `PrecomputeCacheForMayHappenAfterCall` store for each block
of each function that calls a seed a range of instructions: those from which a call to such a
function can be reached, and those that can come after one. Both flood the blocks of the
function (`Lib.Flood`).

    forward, from the entry:  exact  (mayHappenAfterCall_exact)
    backward, from the exits only: exact if and only if a call that can be reached lies on a way
      to an exit  (mayLeadToCall_exact_iff)
-/

namespace InputCovSched

open Relation List

/-- Both ends are part of the range. -/
structure InstructionRange where
  first : Nat
  last : Nat
  deriving DecidableEq

abbrev InstructionRangeCache (B : Type) := B → Option InstructionRange

section
variable {F B : Type} [DecidableEq F] [DecidableEq B]

/-- The walk from the start of the range; `none` is the assertion that it stays in the block,
which has `left` more instructions. -/
def walkRange (inst last : Nat) : Nat → Nat → Option Bool
  | 0, _ => none
  | left + 1, i =>
    if i = inst then some true
    else if i = last then some false
    else walkRange inst last left (i + 1)

/-- `CheckInstructionRangeCache` for the instruction at position `inst` of block `b`. -/
def checkInstructionRangeCache (m : IrModule F B) (cache : InstructionRangeCache B) (b : B)
    (inst : Nat) : Option Bool :=
  match cache b with
  | none => some false
  | some r => walkRange inst r.last ((m.block b).insts.length - r.first) r.first

def IrInst.mayCall (fs : List F) : IrInst F → Bool
  | .call targets => targets.any fun t => fs.contains t
  | .other => false

def firstCall (fs : List F) (bb : BasicBlock F B) : Option Nat :=
  bb.insts.findIdx? (IrInst.mayCall fs)

/-- The last one: the block is searched backwards. -/
def lastCall (fs : List F) (bb : BasicBlock F B) : Option Nat :=
  (bb.insts.reverse.findIdx? (IrInst.mayCall fs)).map (bb.last - ·)

section
variable (m : IrModule F B)

def IrModule.wholeRange (b : B) : InstructionRange := ⟨0, (m.block b).last⟩

/-- A block with two edges to `b` is one predecessor here. -/
def IrModule.preds (f : F) (b : B) : List B :=
  (m.blocks f).filter fun p => b ∈ (m.block p).terminator.succs

def IrModule.exits (f : F) : List B :=
  (m.blocks f).filter fun b => (m.block b).terminator.isExit

/-- Backwards: a range is complete if it goes up to the terminator. -/
def mayLeadFlood (seedCallers : List F) (f : F) : Flood B InstructionRange where
  next := m.preds f
  own b := (lastCall seedCallers (m.block b)).map fun i => some ⟨0, i⟩
  full := m.wholeRange
  isFull b r := r.last == (m.block b).last
  isFull_full b := by simp [IrModule.wholeRange]
  eq_full := by
    intro b r hown hfull
    cases hl : lastCall seedCallers (m.block b) with
    | none => simp [hl] at hown
    | some i =>
      rw [hl] at hown
      cases hown
      simp only [beq_iff_eq] at hfull
      rw [hfull, IrModule.wholeRange]

/-- Forwards: a range is complete if it begins with the block. The instructions behind the call
are stored; there are none if the call is the terminator. -/
def mayHappenFlood (seedCallers : List F) : Flood B InstructionRange where
  next b := (m.block b).terminator.succs
  own b := (firstCall seedCallers (m.block b)).map fun i =>
    if i + 1 < (m.block b).insts.length then some ⟨i + 1, (m.block b).last⟩ else none
  full := m.wholeRange
  isFull _ r := r.first == 0
  isFull_full b := by simp [IrModule.wholeRange]
  eq_full := by
    intro b r hown hfull
    cases hl : firstCall seedCallers (m.block b) with
    | none => simp [hl] at hown
    | some i =>
      simp only [hl, Option.map_some, Option.some.injEq] at hown
      split at hown
      · cases hown
        simp at hfull
      · cases hown

def coverSeed (f : F) (cache : InstructionRangeCache B) :
    InstructionRangeCache B :=
  (m.blocks f).foldl (fun cache b => Function.update cache b (some (m.wholeRange b))) cache

section
variable (seeds : List (Option F))

/-- The loop over the functions that call a seed. -/
def precomputeCache (flood : List F → F → InstructionRangeCache B → Option (InstructionRangeCache B))
    (fuel : Nat) : Option (InstructionRangeCache B) := do
  let seedCallers ← bottomUpCallGraphClosure fuel m.callers seeds []
  seedCallers.foldlM
    (fun cache f => if some f ∈ seeds then some (coverSeed m f cache) else flood seedCallers f cache)
    (fun _ => none)

def precomputeCacheForMayLeadToCall (fuel : Nat) :
    Option (InstructionRangeCache B) :=
  precomputeCache m seeds (fun seedCallers f cache =>
    ((mayLeadFlood m seedCallers f).run fuel (m.exits f).reverse cache).map (·.cache)) fuel

/-- `none` also if the function has no entry block. -/
def precomputeCacheForMayHappenAfterCall (fuel : Nat) :
    Option (InstructionRangeCache B) :=
  precomputeCache m seeds (fun seedCallers f cache =>
    match m.blocks f with
    | [] => none
    | entry :: _ => ((mayHappenFlood m seedCallers).run fuel [entry] cache).map (·.cache)) fuel

end

end

/-! ## Paths of instructions -/

abbrev Point (B : Type) := B × Nat

namespace IrModule

variable (m : IrModule F B) (seeds : List (Option F))

/-- Control goes from one instruction to the next. -/
inductive Step : Point B → Point B → Prop
  | next {b : B} {i : Nat} (h : i + 1 < (m.block b).insts.length) : Step (b, i) (b, i + 1)
  | jump {b c : B} (h : c ∈ (m.block b).terminator.succs) : Step (b, (m.block b).last) (c, 0)

/-- The instruction may call a function that calls a seed. -/
def CallsSeedCaller (p : Point B) : Prop :=
  ∃ targets, (m.block p.1).insts[p.2]? = some (.call targets) ∧
    ∃ f ∈ targets, m.TransitivelyCalls seeds f

/-- Some path from the instruction, which may be the call itself, comes to such a call. -/
def LeadsToCall (p : Point B) : Prop :=
  ∃ q, ReflTransGen m.Step p q ∧ m.CallsSeedCaller seeds q

/-- The same for a call from whose block the function can be left. -/
def LeadsToCallBeforeExit (p : Point B) : Prop :=
  ∃ q, ReflTransGen m.Step p q ∧ m.CallsSeedCaller seeds q ∧
    ∃ e, (m.block e).terminator.isExit = true ∧
      ReflTransGen (fun b c => c ∈ (m.block b).terminator.succs) q.1 e

section
variable (f : F) (p : Point B)

def IsEntry : Prop := (m.blocks f).head? = some p.1 ∧ p.2 = 0

/-- Some path from the entry makes such a call, and then comes to the instruction. -/
def HappensAfterCall : Prop :=
  ∃ e q, m.IsEntry f e ∧ ReflTransGen m.Step e q ∧ m.CallsSeedCaller seeds q ∧
    TransGen m.Step q p

def ReachableFromEntry : Prop :=
  ∃ e, m.IsEntry f e ∧ ReflTransGen m.Step e p

def HasPoint : Prop := p.1 ∈ m.blocks f ∧ p.2 < (m.block p.1).insts.length

end

end IrModule

end

/-! ## The walk over a range -/

section
variable {F B : Type} {m : IrModule F B} {f : F} {b c : B} {i j : Nat}

lemma walkRange_eq {inst last left i : Nat} (hi : i ≤ last) (hleft : last < i + left) :
    walkRange inst last left i = some (decide (i ≤ inst ∧ inst ≤ last)) := by
  induction left generalizing i with
  | zero => omega
  | succ left ih =>
    unfold walkRange
    by_cases hinst : i = inst
    · have : i ≤ inst ∧ inst ≤ last := by omega
      rw [if_pos hinst, decide_eq_true this]
    rw [if_neg hinst]
    by_cases hlast : i = last
    · have : ¬ (i ≤ inst ∧ inst ≤ last) := by omega
      rw [if_pos hlast, decide_eq_false this]
    rw [if_neg hlast, ih (by omega) (by omega)]
    have : i + 1 ≤ inst ∧ inst ≤ last ↔ i ≤ inst ∧ inst ≤ last := by omega
    simp only [this]

def IrModule.Answers (m : IrModule F B) (b : B) (o : Option InstructionRange) (i : Nat)
    (v : Bool) : Prop :=
  checkInstructionRangeCache m (fun _ => o) b i = some v

lemma answers_none : m.Answers b none i false := rfl

lemma answers_range (h : r.first ≤ r.last) (hlast : r.last ≤ (m.block b).last) :
    m.Answers b (some r) i (decide (r.first ≤ i ∧ i ≤ r.last)) := by
  show walkRange i r.last _ r.first = _
  rw [BasicBlock.length_insts]
  exact walkRange_eq h (by omega)

lemma answers_whole (hi : i ≤ (m.block b).last) (hP : P) :
    ∃ v, m.Answers b (some (m.wholeRange b)) i v ∧ (v = true ↔ P) := by
  refine ⟨_, answers_range (Nat.zero_le _) (le_refl _), ?_⟩
  simp only [decide_eq_true_eq]
  exact ⟨fun _ => hP, fun _ => ⟨Nat.zero_le _, hi⟩⟩

lemma answers_nothing (hP : ¬ P) : ∃ v, m.Answers b none i v ∧ (v = true ↔ P) :=
  ⟨false, answers_none, iff_of_false Bool.false_ne_true hP⟩

/-! ## Paths through blocks -/

def IrModule.Succ (m : IrModule F B) (b c : B) : Prop := c ∈ (m.block b).terminator.succs

lemma steps_within (h : i ≤ j) (hj : j ≤ (m.block b).last) :
    ReflTransGen m.Step (b, i) (b, j) := by
  induction j with
  | zero =>
    obtain rfl : i = 0 := by omega
    exact .refl
  | succ j ih =>
    rcases Nat.lt_or_eq_of_le h with h | rfl
    · refine (ih (by omega) (by omega)).tail (.next ?_)
      rw [BasicBlock.length_insts]
      omega
    · exact .refl

lemma steps_of_succ (h : TransGen m.Succ b c) (hi : i ≤ (m.block b).last) :
    TransGen m.Step (b, i) (c, 0) := by
  induction h with
  | single hs => exact .tail' (steps_within hi (le_refl _)) (.jump hs)
  | tail _ hs ih => exact ih.trans (.tail' (steps_within (Nat.zero_le _) (le_refl _)) (.jump hs))

lemma steps_cases (h : TransGen m.Step p q) :
    (p.1 = q.1 ∧ p.2 < q.2 ∧ q.2 ≤ (m.block q.1).last) ∨
      (TransGen m.Succ p.1 q.1 ∧ q.2 ≤ (m.block q.1).last) := by
  have hstep : ∀ a c : Point B, m.Step a c →
      (a.1 = c.1 ∧ c.2 = a.2 + 1 ∧ c.2 ≤ (m.block c.1).last) ∨ (m.Succ a.1 c.1 ∧ c.2 = 0) := by
    intro a c hac
    cases hac with
    | next h =>
      rw [BasicBlock.length_insts] at h
      exact .inl ⟨rfl, rfl, Nat.le_of_lt_succ h⟩
    | jump h => exact .inr ⟨h, rfl⟩
  induction h with
  | single hs =>
    rcases hstep _ _ hs with ⟨h1, h2, h3⟩ | ⟨h1, h2⟩
    · exact .inl ⟨h1, by omega, h3⟩
    · exact .inr ⟨.single h1, by omega⟩
  | tail _ hs ih =>
    rcases hstep _ _ hs with ⟨h1, h2, h3⟩ | ⟨h1, h2⟩
    · rcases ih with ⟨i1, i2, i3⟩ | ⟨i1, i2⟩
      · exact .inl ⟨i1.trans h1, by omega, h3⟩
      · exact .inr ⟨h1 ▸ i1, h3⟩
    refine .inr ⟨?_, by omega⟩
    rcases ih with ⟨i1, i2, i3⟩ | ⟨i1, i2⟩
    · exact i1 ▸ .single h1
    · exact i1.tail h1

lemma blocks_of_steps (h : ReflTransGen m.Step p q) : ReflTransGen m.Succ p.1 q.1 := by
  rcases reflTransGen_iff_eq_or_transGen.1 h with rfl | h
  · exact .refl
  rcases steps_cases h with ⟨hpq, -⟩ | ⟨hpq, -⟩
  · rw [hpq]
  · exact hpq.to_reflTransGen

lemma stays_in_function (h : ReflTransGen m.Succ b c) (hb : b ∈ m.blocks f) : c ∈ m.blocks f := by
  induction h with
  | refl => exact hb
  | tail _ hs ih => exact m.succs_mem f _ ih _ hs

end

/-! ## Calls in a block -/

section
variable {F B : Type} [DecidableEq F] {m : IrModule F B} {seeds : List (Option F)} {b : B} {i : Nat}

def BasicBlock.CallsAt (bb : BasicBlock F B) (fs : List F) (i : Nat) : Prop :=
  ∃ h : i < bb.insts.length, bb.insts[i].mayCall fs = true

variable {fs : List F}

lemma firstCall_eq_none (h : firstCall fs bb = none) : ¬ bb.CallsAt fs i := by
  rintro ⟨hi, hcall⟩
  rw [firstCall, List.findIdx?_eq_none_iff] at h
  have := h _ (getElem_mem hi)
  rw [hcall] at this
  cases this

lemma firstCall_eq_some (h : firstCall fs bb = some i) :
    bb.CallsAt fs i ∧ ∀ j, bb.CallsAt fs j → i ≤ j := by
  rw [firstCall, List.findIdx?_eq_some_iff_getElem] at h
  obtain ⟨hi, hcall, hfirst⟩ := h
  refine ⟨⟨hi, hcall⟩, fun j ⟨hj, hjcall⟩ => ?_⟩
  by_contra hlt
  exact hfirst j (by omega) hjcall

lemma lastCall_eq_none (h : lastCall fs bb = none) : ¬ bb.CallsAt fs i := by
  rintro ⟨hi, hcall⟩
  rw [lastCall, Option.map_eq_none_iff, List.findIdx?_eq_none_iff] at h
  have := h _ (mem_reverse.2 (getElem_mem hi))
  rw [hcall] at this
  cases this

lemma lastCall_eq_some (h : lastCall fs bb = some i) :
    bb.CallsAt fs i ∧ ∀ j, bb.CallsAt fs j → j ≤ i := by
  rw [lastCall, Option.map_eq_some_iff] at h
  obtain ⟨k, hk, rfl⟩ := h
  rw [List.findIdx?_eq_some_iff_getElem] at hk
  obtain ⟨hk, hcall, hfirst⟩ := hk
  have hlen := bb.length_insts
  refine ⟨⟨by omega, ?_⟩, fun j ⟨hj, hjcall⟩ => ?_⟩
  · rw [getElem_reverse] at hcall
    simpa only [hlen, Nat.add_sub_cancel] using hcall
  -- a later call would be found earlier in the reversed list
  by_contra hlt
  apply hfirst (bb.last - j) (by omega)
  rw [getElem_reverse]
  have hpos : bb.insts.length - 1 - (bb.last - j) = j := by omega
  simpa only [hpos] using hjcall

section
variable {fs : List F} (hfs : ∀ g, g ∈ fs ↔ m.TransitivelyCalls seeds g)
include hfs

lemma callsAt_iff : (m.block b).CallsAt fs i ↔ m.CallsSeedCaller seeds (b, i) := by
  constructor
  · rintro ⟨hi, hcall⟩
    cases hinst : (m.block b).insts[i] with
    | other =>
      rw [hinst] at hcall
      cases hcall
    | call targets =>
      rw [hinst] at hcall
      simp only [IrInst.mayCall, any_eq_true, contains_iff_mem] at hcall
      obtain ⟨g, hg, hmem⟩ := hcall
      exact ⟨targets, List.getElem?_eq_some_iff.2 ⟨hi, hinst⟩, g, hg, (hfs g).1 hmem⟩
  · rintro ⟨targets, hinst, g, hg, hcalls⟩
    obtain ⟨hi, hinst⟩ := List.getElem?_eq_some_iff.1 hinst
    refine ⟨hi, ?_⟩
    rw [show (m.block b).insts[i] = .call targets from hinst]
    simp only [IrInst.mayCall, any_eq_true, contains_iff_mem]
    exact ⟨g, hg, (hfs g).2 hcalls⟩

lemma callsSeedCaller_le (h : m.CallsSeedCaller seeds (b, i)) : i ≤ (m.block b).last := by
  obtain ⟨hi, -⟩ := (callsAt_iff hfs).2 h
  rw [BasicBlock.length_insts] at hi
  omega

lemma calls_ne_none (hnone : o = none → ∀ i, ¬ (m.block b).CallsAt fs i)
    (hsome : ∀ i, o = some i → (m.block b).CallsAt fs i) :
    o ≠ none ↔ ∃ i, m.CallsSeedCaller seeds (b, i) := by
  constructor
  · intro hne
    obtain ⟨i, hi⟩ := Option.ne_none_iff_exists'.1 hne
    exact ⟨i, (callsAt_iff hfs).1 (hsome i hi)⟩
  · rintro ⟨i, hi⟩ ho
    exact hnone ho i ((callsAt_iff hfs).2 hi)

end

end

/-! ## One function after the other -/

section
variable {F B : Type} {m : IrModule F B}

lemma coverSeed_spec [DecidableEq B] (m : IrModule F B) (f : F) (cache : InstructionRangeCache B)
    (b : B) :
    coverSeed m f cache b = if b ∈ m.blocks f then some (m.wholeRange b) else cache b := by
  unfold coverSeed
  induction m.blocks f generalizing cache with
  | nil => simp
  | cons a bs ih =>
    rw [foldl_cons, ih]
    by_cases hb : b = a
    · subst hb
      simp
    · simp [hb]

lemma foldlM_functions (step : Nat → InstructionRangeCache B → F → Option (InstructionRangeCache B))
    (P : F → B → Option InstructionRange → Prop) (fs : List F)
    (hstep : ∀ f ∈ fs, ∀ cache, (∀ b ∈ m.blocks f, cache b = none) →
      ∃ cache', Settles (fun fuel => step fuel cache f) (some cache') ∧
        (∀ b ∈ m.blocks f, P f b (cache' b)) ∧ ∀ b, b ∉ m.blocks f → cache' b = cache b)
    (hnodup : fs.Nodup) (cache : InstructionRangeCache B)
    (hcache : ∀ f ∈ fs, ∀ b ∈ m.blocks f, cache b = none) :
    ∃ cache', Settles (fun fuel => fs.foldlM (step fuel) cache) (some cache') ∧
      (∀ f ∈ fs, ∀ b ∈ m.blocks f, P f b (cache' b)) ∧
      ∀ b, (∀ f ∈ fs, b ∉ m.blocks f) → cache' b = cache b := by
  induction fs generalizing cache with
  | nil => exact ⟨cache, .const _, by simp, fun _ _ => rfl⟩
  | cons f fs ih =>
    rw [nodup_cons] at hnodup
    obtain ⟨cache₁, hset₁, hP₁, hframe₁⟩ := hstep f mem_cons_self cache (hcache f mem_cons_self)
    have hother : ∀ g ∈ fs, ∀ b ∈ m.blocks g, b ∉ m.blocks f := by
      intro g hg b hb hbf
      have := m.parent_unique f g b hbf hb
      subst this
      exact hnodup.1 hg
    obtain ⟨cache₂, hset₂, hP₂, hframe₂⟩ := ih (fun g hg => hstep g (mem_cons_of_mem f hg))
      hnodup.2 cache₁ fun g hg b hb => by
        rw [hframe₁ b (hother g hg b hb)]
        exact hcache g (mem_cons_of_mem f hg) b hb
    refine ⟨cache₂, ?_, fun g hg b hb => ?_, fun b hb => ?_⟩
    · exact hset₁.optionBind hset₂
    · rcases mem_cons.1 hg with rfl | hg
      · rw [hframe₂ b fun k hk hbk => hother k hk b hbk hb]
        exact hP₁ b hb
      · exact hP₂ g hg b hb
    · rw [hframe₂ b fun k hk => hb k (mem_cons_of_mem f hk), hframe₁ b (hb f mem_cons_self)]

end

section
variable {F B : Type} [DecidableEq F] [DecidableEq B] {m : IrModule F B} {seeds : List (Option F)}
  {fs : List F} {f : F} {a b c : B} {i : Nat}

lemma precomputeCache_spec (m : IrModule F B) (seeds : List (Option F))
    (flood : Nat → List F → F → InstructionRangeCache B → Option (InstructionRangeCache B))
    (D : F → B → Prop) (Q : F → Point B → Prop)
    (hflood : ∀ fs : List F, (∀ g, g ∈ fs ↔ m.TransitivelyCalls seeds g) →
      ∀ f ∈ fs, some f ∉ seeds → ∀ cache, (∀ b ∈ m.blocks f, cache b = none) →
        ∃ cache', Settles (fun fuel => flood fuel fs f cache) (some cache') ∧
          (∀ b ∈ m.blocks f, D f b → ∀ i ≤ (m.block b).last,
            ∃ v, m.Answers b (cache' b) i v ∧ (v = true ↔ Q f (b, i))) ∧
          ∀ b, b ∉ m.blocks f → cache' b = cache b) :
    ∃ cache, Settles (fun fuel => precomputeCache m seeds (flood fuel) fuel) (some cache) ∧
      ∀ f, m.TransitivelyCalls seeds f → ∀ p, m.HasPoint f p → D f p.1 →
        ∃ v, checkInstructionRangeCache m cache p.1 p.2 = some v ∧
          (v = true ↔ some f ∈ seeds ∨ Q f p) := by
  obtain ⟨fs, hset, hnodup, hmem⟩ := bottomUpCallGraphClosure_spec m.functions m.callers_mem seeds []
  have hfs : ∀ g, g ∈ fs ↔ m.TransitivelyCalls seeds g :=
    fun g => (hmem g).trans (m.transitivelyCalls_iff seeds g)
  obtain ⟨cache, hset', hP, -⟩ := foldlM_functions (fun fuel cache f =>
      if some f ∈ seeds then some (coverSeed m f cache) else flood fuel fs f cache)
    (fun f b o => D f b → ∀ i ≤ (m.block b).last,
      ∃ v, m.Answers b o i v ∧ (v = true ↔ some f ∈ seeds ∨ Q f (b, i))) fs
    (by
      intro f hf cache hcache
      by_cases hseed : some f ∈ seeds
      · simp only [if_pos hseed]
        refine ⟨_, .const _, fun b hb _ i hi => ?_, fun b hb => ?_⟩
        · rw [coverSeed_spec, if_pos hb]
          exact answers_whole hi (.inl hseed)
        · rw [coverSeed_spec, if_neg hb]
      simp only [if_neg hseed]
      obtain ⟨cache', h1, h2, h3⟩ := hflood fs hfs f hf hseed cache hcache
      refine ⟨cache', h1, fun b hb hD i hi => ?_, h3⟩
      obtain ⟨v, hv, hiff⟩ := h2 b hb hD i hi
      exact ⟨v, hv, hiff.trans ⟨.inr, fun h => h.resolve_left hseed⟩⟩)
    hnodup (fun _ => none) (fun _ _ _ _ => rfl)
  refine ⟨cache, hset.optionBind hset', fun f hf p hp hD => ?_⟩
  have hlt := hp.2
  rw [BasicBlock.length_insts] at hlt
  exact hP f ((hfs f).2 hf) p.1 hp.1 hD p.2 (by omega)

/-! ## Backwards -/

/-- The flood comes to the blocks of the function from which it can be left. -/
def IrModule.CanExit (m : IrModule F B) (b : B) : Prop :=
  ∃ e, (m.block e).terminator.isExit = true ∧ ReflTransGen m.Succ b e

lemma mayLead_next : (mayLeadFlood m fs f).Next a b ↔ b ∈ m.blocks f ∧ m.Succ b a := by
  show b ∈ m.preds f a ↔ _
  simp [IrModule.preds, IrModule.Succ]

lemma mayLead_path (h : TransGen (mayLeadFlood m fs f).Next a b) : TransGen m.Succ b a := by
  rw [← transGen_swap]
  exact .mono (fun x y hxy => (mayLead_next.1 hxy).2) _ _ h

lemma mayLead_path_of (h : TransGen m.Succ b a) (hb : b ∈ m.blocks f) :
    TransGen (mayLeadFlood m fs f).Next a b := by
  induction h using TransGen.head_induction_on with
  | single hs => exact .single (mayLead_next.2 ⟨hb, hs⟩)
  | head hs _ ih => exact (ih (m.succs_mem f _ hb _ hs)).tail (mayLead_next.2 ⟨hb, hs⟩)

lemma mayLead_reached :
    (mayLeadFlood m fs f).Reached (m.exits f).reverse b ↔ b ∈ m.blocks f ∧ m.CanExit b := by
  simp only [Flood.Reached, mem_reverse, IrModule.exits, mem_filter]
  constructor
  · rintro ⟨e, ⟨he, hexit⟩, hpath⟩
    rcases reflTransGen_iff_eq_or_transGen.1 hpath with rfl | hpath
    · exact ⟨he, b, hexit, .refl⟩
    have hb : b ∈ m.blocks f := by
      cases hpath with
      | single hs | tail _ hs => exact (mayLead_next.1 hs).1
    exact ⟨hb, e, hexit, (mayLead_path hpath).to_reflTransGen⟩
  · rintro ⟨hb, e, hexit, hpath⟩
    refine ⟨e, ⟨stays_in_function hpath hb, hexit⟩, ?_⟩
    rcases reflTransGen_iff_eq_or_transGen.1 hpath with rfl | hpath
    · exact .refl
    · exact (mayLead_path_of hpath hb).to_reflTransGen

lemma mayLead_own_ne_none (hfs : ∀ g, g ∈ fs ↔ m.TransitivelyCalls seeds g) :
    (mayLeadFlood m fs f).own b ≠ none ↔ ∃ i, m.CallsSeedCaller seeds (b, i) := by
  rw [show (mayLeadFlood m fs f).own b = (lastCall fs (m.block b)).map _ from rfl, ne_eq,
    Option.map_eq_none_iff]
  exact calls_ne_none hfs (fun h _ => lastCall_eq_none h) fun _ h => (lastCall_eq_some h).1

/-- The instruction is in the range exactly when a call before an exit can be reached. -/
lemma mayLead_answers (hfs : ∀ g, g ∈ fs ↔ m.TransitivelyCalls seeds g) (hb : b ∈ m.blocks f)
    (hi : i ≤ (m.block b).last)
    (hflooded : (mayLeadFlood m fs f).Flooded (m.exits f).reverse b → o = some (m.wholeRange b))
    (hreached : (mayLeadFlood m fs f).Reached (m.exits f).reverse b →
      ¬ (mayLeadFlood m fs f).Flooded (m.exits f).reverse b → o = ((mayLeadFlood m fs f).own b).join)
    (hnot : ¬ (mayLeadFlood m fs f).Reached (m.exits f).reverse b → o = none) :
    ∃ v, m.Answers b o i v ∧ (v = true ↔ m.LeadsToCallBeforeExit seeds (b, i)) := by
  -- a call further on: in the block, or in a block behind it
  have hcases : m.LeadsToCallBeforeExit seeds (b, i) ↔
      (mayLeadFlood m fs f).Flooded (m.exits f).reverse b ∨
      (m.CanExit b ∧ ∃ j, i ≤ j ∧ m.CallsSeedCaller seeds (b, j)) := by
    constructor
    · rintro ⟨⟨c, j⟩, hpath, hcall, e, hexit, hce⟩
      rcases reflTransGen_iff_eq_or_transGen.1 hpath with heq | hpath
      · cases heq
        exact .inr ⟨⟨e, hexit, hce⟩, i, le_refl _, hcall⟩
      rcases steps_cases hpath with ⟨hbc, hlt, -⟩ | ⟨hbc, -⟩
      · obtain rfl : b = c := hbc
        exact .inr ⟨⟨e, hexit, hce⟩, j, le_of_lt hlt, hcall⟩
      · refine .inl ⟨c, mayLead_reached.2 ⟨stays_in_function hbc.to_reflTransGen hb, e, hexit, hce⟩,
          (mayLead_own_ne_none hfs).2 ⟨j, hcall⟩, mayLead_path_of hbc hb⟩
    · rintro (⟨c, hc, hown, hpath⟩ | ⟨⟨e, hexit, hbe⟩, j, hij, hcall⟩)
      · obtain ⟨j, hcall⟩ := (mayLead_own_ne_none hfs).1 hown
        obtain ⟨-, e, hexit, hce⟩ := mayLead_reached.1 hc
        have hto : TransGen m.Step (b, i) (c, 0) := steps_of_succ (mayLead_path hpath) hi
        exact ⟨(c, j), hto.to_reflTransGen.trans
          (steps_within (Nat.zero_le j) (callsSeedCaller_le hfs hcall)), hcall, e, hexit, hce⟩
      · exact ⟨(b, j), steps_within hij (callsSeedCaller_le hfs hcall), hcall, e, hexit, hbe⟩
  rw [hcases]
  by_cases hfl : (mayLeadFlood m fs f).Flooded (m.exits f).reverse b
  · rw [hflooded hfl]
    exact answers_whole hi (.inl hfl)
  by_cases hre : (mayLeadFlood m fs f).Reached (m.exits f).reverse b
  · rw [hreached hre hfl]
    have hexit := (mayLead_reached.1 hre).2
    show ∃ v, m.Answers b ((lastCall fs (m.block b)).map fun k => some ⟨0, k⟩).join i v ∧ _
    cases hl : lastCall fs (m.block b) with
    | none =>
      refine answers_nothing ?_
      rintro (h | ⟨-, j, -, hcall⟩)
      · exact hfl h
      · exact lastCall_eq_none hl ((callsAt_iff hfs).2 hcall)
    | some k =>
      obtain ⟨hcall, hmax⟩ := lastCall_eq_some hl
      have hk := callsSeedCaller_le hfs ((callsAt_iff hfs).1 hcall)
      refine ⟨_, answers_range (Nat.zero_le _) hk, ?_⟩
      simp only [decide_eq_true_eq]
      constructor
      · rintro ⟨-, hik⟩
        exact .inr ⟨hexit, k, hik, (callsAt_iff hfs).1 hcall⟩
      · rintro (h | ⟨-, j, hij, hj⟩)
        · exact absurd h hfl
        · exact ⟨Nat.zero_le _, hij.trans (hmax j ((callsAt_iff hfs).2 hj))⟩
  · rw [hnot hre]
    refine answers_nothing ?_
    rintro (h | ⟨hexit, -⟩)
    · exact hfl h
    · exact hre (mayLead_reached.2 ⟨hb, hexit⟩)

/-- **Result.** The cache of `PrecomputeCacheForMayLeadToCall` is computed, and for an instruction
of a function that calls a seed it is right exactly in these cases: the function is a seed, or if
a call can be reached, then one from whose block the function can be left. -/
theorem mayLeadToCall_exact_iff (m : IrModule F B) (seeds : List (Option F)) :
    ∃ cache, Settles (precomputeCacheForMayLeadToCall m seeds) (some cache) ∧
      ∀ f, m.TransitivelyCalls seeds f → ∀ p, m.HasPoint f p →
        ∃ v, checkInstructionRangeCache m cache p.1 p.2 = some v ∧
          ((v = true ↔ m.LeadsToCall seeds p ∨ some f ∈ seeds) ↔
            (some f ∈ seeds ∨ (m.LeadsToCall seeds p → m.LeadsToCallBeforeExit seeds p))) := by
  obtain ⟨cache, hset, hcache⟩ := precomputeCache_spec m seeds (fun fuel fs f cache =>
      ((mayLeadFlood m fs f).run fuel (m.exits f).reverse cache).map (·.cache))
    (fun _ _ => True) (fun _ p => m.LeadsToCallBeforeExit seeds p)
    (by
      intro fs hfs f _ _ cache hnone
      obtain ⟨s, hset, hflooded, hreached, hframe⟩ := (mayLeadFlood m fs f).run_spec
        (m.blocks f).toFinset (m.exits f).reverse cache
        (fun b hb => mem_toFinset.2 (mayLead_reached.1 hb).1)
        (fun b hb => hnone b (mayLead_reached.1 hb).1)
      refine ⟨s.cache, hset.bind (.const _), ?_, ?_⟩
      · intro b hb _ i hi
        exact mayLead_answers hfs hb hi (hflooded b) (hreached b)
          fun hn => (hframe b hn).trans (hnone b hb)
      · exact fun b hb => hframe b fun hre => hb (mayLead_reached.1 hre).1)
  refine ⟨cache, hset, fun f hf p hp => ?_⟩
  obtain ⟨v, hv, hiff⟩ := hcache f hf p hp trivial
  refine ⟨v, hv, ?_⟩
  have hweak : m.LeadsToCallBeforeExit seeds p → m.LeadsToCall seeds p := by
    rintro ⟨q, hpath, hcall, -⟩
    exact ⟨q, hpath, hcall⟩
  rw [hiff]
  constructor
  · intro h
    by_cases hseed : some f ∈ seeds
    · exact .inl hseed
    · exact .inr fun hleads => (h.2 (.inl hleads)).resolve_left hseed
  · rintro (hseed | h)
    · exact ⟨fun _ => .inr hseed, fun _ => .inl hseed⟩
    · exact ⟨fun hor => hor.elim .inr fun hb => .inl (hweak hb),
        fun hor => hor.elim (fun hl => .inr (h hl)) .inl⟩

/-- The entry block goes to the return, or first to a block with a call, which may be a loop without
an end. -/
def oneCallModule (endless : Bool) : IrModule Nat Nat where
  functions := [1]
  blocks f := if f = 1 then [0, 1, 2] else []
  block b :=
    if b = 0 then ⟨[.other], .branch [1, 2]⟩
    else if b = 1 then ⟨[.call [0]], .branch [if endless then 1 else 2]⟩
    else ⟨[.other], .ret⟩
  callers f := if f = 0 then [1] else []
  succs_mem f b hb c hc := by
    cases endless <;> grind [Terminator.succs]
  parent_unique := by grind
  callers_mem := by grind
  callers_body := by grind

lemma oneCallModule_calls (endless : Bool) :
    (oneCallModule endless).TransitivelyCalls [some 0] 1 :=
  ⟨0, by decide, .single mem_cons_self⟩

theorem mayLeadToCall_exact_iff_return :
    ∃ cache, Settles (precomputeCacheForMayLeadToCall (oneCallModule false) [some 0]) (some cache) ∧
      ∃ v, checkInstructionRangeCache (oneCallModule false) cache 0 0 = some v ∧
        ((v = true ↔ (oneCallModule false).LeadsToCall [some 0] (0, 0) ∨ some 1 ∈ [some 0]) ↔
          (some 1 ∈ [some 0] ∨ ((oneCallModule false).LeadsToCall [some 0] (0, 0) →
            (oneCallModule false).LeadsToCallBeforeExit [some 0] (0, 0)))) := by
  obtain ⟨cache, hset, hcache⟩ := mayLeadToCall_exact_iff (oneCallModule false) [some 0]
  exact ⟨cache, hset, hcache 1 (oneCallModule_calls false) (0, 0) ⟨by decide, by decide⟩⟩

/-- The loop without an end calls the seed with its first instruction, which is not in the cache. -/
theorem mayLeadToCall_endless :
    (oneCallModule true).TransitivelyCalls [some 0] 1 ∧ (oneCallModule true).HasPoint 1 (1, 0) ∧
      (oneCallModule true).LeadsToCall [some 0] (1, 0) ∧
      ∃ cache, Settles (precomputeCacheForMayLeadToCall (oneCallModule true) [some 0]) (some cache) ∧
        checkInstructionRangeCache (oneCallModule true) cache 1 0 = some false := by
  refine ⟨oneCallModule_calls true, ⟨by decide, by decide⟩, ?_, fun _ => none, ?_, rfl⟩
  · exact ⟨(1, 0), .refl, [0], rfl, 0, by decide, 0, by decide, .refl⟩
  · refine ⟨20, fun fuel hfuel => ?_⟩
    obtain ⟨k, rfl⟩ := Nat.exists_eq_add_of_le' hfuel
    rfl

end

/-! ## Forwards -/

section
variable {F B : Type} {m : IrModule F B} {seeds : List (Option F)} {f : F} {b : B} {i : Nat}

lemma steps_from_start (h : ReflTransGen m.Succ b c) (hi : i ≤ (m.block c).last) :
    ReflTransGen m.Step (b, 0) (c, i) := by
  have hin : ReflTransGen m.Step (c, 0) (c, i) := steps_within (Nat.zero_le i) hi
  rcases reflTransGen_iff_eq_or_transGen.1 h with rfl | h
  · exact hin
  · exact (steps_of_succ h (Nat.zero_le _)).to_reflTransGen.trans hin

lemma exists_entry (hf : m.TransitivelyCalls seeds f) (hseed : some f ∉ seeds) :
    ∃ entry rest, m.blocks f = entry :: rest := by
  obtain ⟨s, hs, hpath⟩ := hf
  cases hpath with
  | refl => exact absurd hs hseed
  | tail _ hcalls => exact exists_cons_of_ne_nil (m.callers_body _ f hcalls)

variable [DecidableEq F] {fs : List F}

variable {entry : B}

lemma mayHappen_reached :
    (mayHappenFlood m fs).Reached [entry] b ↔ ReflTransGen m.Succ entry b := by
  constructor
  · rintro ⟨a, ha, hpath⟩
    obtain rfl := mem_singleton.1 ha
    exact hpath
  · intro h
    exact ⟨entry, mem_cons_self, h⟩

section
variable (hfs : ∀ g, g ∈ fs ↔ m.TransitivelyCalls seeds g)
include hfs

lemma mayHappen_own_ne_none :
    (mayHappenFlood m fs).own b ≠ none ↔ ∃ i, m.CallsSeedCaller seeds (b, i) := by
  rw [show (mayHappenFlood m fs).own b = (firstCall fs (m.block b)).map _ from rfl, ne_eq,
    Option.map_eq_none_iff]
  exact calls_ne_none hfs (fun h _ => firstCall_eq_none h) fun _ h => (firstCall_eq_some h).1

section
variable (hentry : (m.blocks f).head? = some entry) (hi : i ≤ (m.block b).last)
include hentry hi

lemma happensAfterCall_iff :
    m.HappensAfterCall seeds f (b, i) ↔
      (mayHappenFlood m fs).Flooded [entry] b ∨
      (ReflTransGen m.Succ entry b ∧ ∃ j, j < i ∧ m.CallsSeedCaller seeds (b, j)) := by
  constructor
  · rintro ⟨⟨e, k⟩, ⟨c, j⟩, ⟨he, hk⟩, hto, hcall, hafter⟩
    obtain rfl : entry = e := Option.some.inj (hentry.symm.trans he)
    have hc : ReflTransGen m.Succ entry c := blocks_of_steps hto
    rcases steps_cases hafter with ⟨hcb, hlt, -⟩ | ⟨hcb, -⟩
    · obtain rfl : c = b := hcb
      exact .inr ⟨hc, j, hlt, hcall⟩
    · exact .inl ⟨c, mayHappen_reached.2 hc, (mayHappen_own_ne_none hfs).2 ⟨j, hcall⟩, hcb⟩
  · rintro (⟨c, hc, hown, hcb⟩ | ⟨hb, j, hj, hcall⟩)
    · obtain ⟨j, hcall⟩ := (mayHappen_own_ne_none hfs).1 hown
      have hj := callsSeedCaller_le hfs hcall
      refine ⟨(entry, 0), (c, j), ⟨hentry, rfl⟩, steps_from_start (mayHappen_reached.1 hc) hj, hcall,
        ?_⟩
      exact (steps_of_succ hcb hj).trans_left (steps_within (Nat.zero_le i) hi)
    · refine ⟨(entry, 0), (b, j), ⟨hentry, rfl⟩, steps_from_start hb (by omega), hcall, ?_⟩
      have hstep : m.Step (b, j) (b, j + 1) := by
        apply IrModule.Step.next
        rw [BasicBlock.length_insts]
        omega
      exact .head' hstep (steps_within hj hi)

lemma mayHappen_answers (hb : ReflTransGen m.Succ entry b)
    (hflooded : (mayHappenFlood m fs).Flooded [entry] b → o = some (m.wholeRange b))
    (hreached : ¬ (mayHappenFlood m fs).Flooded [entry] b → o = ((mayHappenFlood m fs).own b).join) :
    ∃ v, m.Answers b o i v ∧ (v = true ↔ m.HappensAfterCall seeds f (b, i)) := by
  rw [happensAfterCall_iff hfs hentry hi]
  by_cases hfl : (mayHappenFlood m fs).Flooded [entry] b
  · rw [hflooded hfl]
    exact answers_whole hi (.inl hfl)
  rw [hreached hfl]
  show ∃ v, m.Answers b ((firstCall fs (m.block b)).map fun k =>
    if k + 1 < (m.block b).insts.length then some ⟨k + 1, (m.block b).last⟩ else none).join i v ∧ _
  cases hl : firstCall fs (m.block b) with
  | none =>
    refine answers_nothing ?_
    rintro (h | ⟨-, j, -, hcall⟩)
    · exact hfl h
    · exact firstCall_eq_none hl ((callsAt_iff hfs).2 hcall)
  | some k =>
    obtain ⟨hcall, hmin⟩ := firstCall_eq_some hl
    have hbefore : (∃ j, j < i ∧ m.CallsSeedCaller seeds (b, j)) ↔ k < i := by
      constructor
      · rintro ⟨j, hj, hjcall⟩
        exact lt_of_le_of_lt (hmin j ((callsAt_iff hfs).2 hjcall)) hj
      · intro hk
        exact ⟨k, hk, (callsAt_iff hfs).1 hcall⟩
    rw [hbefore, Option.map_some]
    by_cases hlast : k + 1 < (m.block b).insts.length
    · rw [if_pos hlast]
      rw [BasicBlock.length_insts] at hlast
      refine ⟨_, answers_range (show k + 1 ≤ (m.block b).last by omega) (le_refl _), ?_⟩
      simp only [decide_eq_true_eq]
      constructor
      · rintro ⟨hk, -⟩
        exact .inr ⟨hb, hk⟩
      · rintro (h | ⟨-, hk⟩)
        · exact absurd h hfl
        · exact ⟨hk, hi⟩
    · -- the call is the terminator
      rw [if_neg hlast]
      rw [BasicBlock.length_insts] at hlast
      refine answers_nothing ?_
      rintro (h | ⟨-, hk⟩)
      · exact hfl h
      · omega

end

end

/-- **Result.** The cache of `PrecomputeCacheForMayHappenAfterCall` is computed and right for
every instruction that can be reached in a function that calls a seed. -/
theorem mayHappenAfterCall_exact [DecidableEq B] (m : IrModule F B) (seeds : List (Option F)) :
    ∃ cache, Settles (precomputeCacheForMayHappenAfterCall m seeds) (some cache) ∧
      ∀ f, m.TransitivelyCalls seeds f → ∀ p, m.HasPoint f p → m.ReachableFromEntry f p →
        ∃ v, checkInstructionRangeCache m cache p.1 p.2 = some v ∧
          (v = true ↔ m.HappensAfterCall seeds f p ∨ some f ∈ seeds) := by
  obtain ⟨cache, hset, hcache⟩ := precomputeCache_spec m seeds (fun fuel fs f cache =>
      match m.blocks f with
      | [] => none
      | entry :: _ => ((mayHappenFlood m fs).run fuel [entry] cache).map (·.cache))
    (fun f b => ∃ entry, (m.blocks f).head? = some entry ∧ ReflTransGen m.Succ entry b)
    (fun f p => m.HappensAfterCall seeds f p)
    (by
      intro fs hfs f hf hseed cache hnone
      obtain ⟨entry, rest, hblocks⟩ := exists_entry ((hfs f).1 hf) hseed
      have hentry : entry ∈ m.blocks f := by simp [hblocks]
      have hin : ∀ b, (mayHappenFlood m fs).Reached [entry] b → b ∈ m.blocks f :=
        fun b hb => stays_in_function (mayHappen_reached.1 hb) hentry
      obtain ⟨s, hset, hflooded, hreached, hframe⟩ := (mayHappenFlood m fs).run_spec
        (m.blocks f).toFinset [entry] cache (fun b hb => mem_toFinset.2 (hin b hb))
        (fun b hb => hnone b (hin b hb))
      refine ⟨s.cache, ?_, ?_, fun b hb => hframe b fun hre => hb (hin b hre)⟩
      · simp only [hblocks]
        exact hset.bind (.const _)
      · rintro b hb ⟨e, he, hpath⟩ i hi
        obtain rfl : entry = e := by simpa [hblocks] using he
        exact mayHappen_answers hfs he hi hpath (hflooded b) (hreached b (mayHappen_reached.2 hpath)))
  refine ⟨cache, hset, fun f hf p hp hreach => ?_⟩
  have hD : ∃ entry, (m.blocks f).head? = some entry ∧ ReflTransGen m.Succ entry p.1 := by
    obtain ⟨e, ⟨he, -⟩, hpath⟩ := hreach
    exact ⟨e.1, he, blocks_of_steps hpath⟩
  obtain ⟨v, hv, hiff⟩ := hcache f hf p hp hD
  exact ⟨v, hv, hiff.trans or_comm⟩

/-- The return, behind the call or not. -/
theorem mayHappenAfterCall_exact_return :
    ∃ cache,
      Settles (precomputeCacheForMayHappenAfterCall (oneCallModule false) [some 0]) (some cache) ∧
      ∃ v, checkInstructionRangeCache (oneCallModule false) cache 2 0 = some v ∧
        (v = true ↔ (oneCallModule false).HappensAfterCall [some 0] 1 (2, 0) ∨
          some 1 ∈ [some 0]) := by
  obtain ⟨cache, hset, hcache⟩ := mayHappenAfterCall_exact (oneCallModule false) [some 0]
  refine ⟨cache, hset, hcache 1 (oneCallModule_calls false) (2, 0) ⟨by decide, by decide⟩ ?_⟩
  have hbranch : (oneCallModule false).Step (0, 0) (0, 1) := .next (by decide)
  have hreturn : (oneCallModule false).Step (0, 1) (2, 0) := .jump (by decide)
  exact ⟨(0, 0), ⟨rfl, rfl⟩, .tail (.single hbranch) hreturn⟩

end

end InputCovSched
