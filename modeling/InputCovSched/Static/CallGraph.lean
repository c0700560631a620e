import InputCovSched.Lib.Fuel

/-!
# Functions, blocks and callers (`SearchStrategy.cpp`, static analyses)

A program as the static analyses see it; a call instruction has the targets that the call graph of
Data Structure Analysis gives it. `BottomUpCallGraphClosure` puts callers on a stack as long as
they are not in the closure, and does not look at the closure again when it takes them off: a
function can be expanded more than once. It ends nevertheless, since every second expansion
pushes new functions only (`bottomUpCallGraphClosure_spec`).
-/

namespace InputCovSched

open Relation List

/-- An instruction, as far as calls go. -/
inductive IrInst (F : Type) where
  | call (targets : List F)
  | other
  deriving DecidableEq

inductive Terminator (F B : Type) where
  | ret
  | unwind
  | unreachable
  /-- `br`, `switch` and `indirectbr` -/
  | branch (targets : List B)
  | invoke (targets : List F) (normal unwindTo : B)
  deriving DecidableEq

namespace Terminator

variable {F B : Type}

def succs : Terminator F B → List B
  | branch targets => targets
  | invoke _ normal unwindTo => [normal, unwindTo]
  | _ => []

def inst : Terminator F B → IrInst F
  | invoke targets _ _ => .call targets
  | _ => .other

/-- `UnwindInst`, `ReturnInst` or `UnreachableInst`. -/
def isExit : Terminator F B → Bool
  | ret | unwind | unreachable => true
  | _ => false

end Terminator

structure BasicBlock (F B : Type) where
  body : List (IrInst F)
  terminator : Terminator F B
  deriving DecidableEq

namespace BasicBlock

variable {F B : Type}

def insts (bb : BasicBlock F B) : List (IrInst F) := bb.body ++ [bb.terminator.inst]

def last (bb : BasicBlock F B) : Nat := bb.body.length

@[simp] lemma length_insts (bb : BasicBlock F B) : bb.insts.length = bb.last + 1 := by
  simp [insts, last]

end BasicBlock

/-- The bottom-up call graph is built from the call instructions, so that a caller is one of the
module's functions and has a body. -/
structure IrModule (F B : Type) where
  functions : List F
  blocks : F → List B
  block : B → BasicBlock F B
  callers : F → List F
  succs_mem : ∀ f, ∀ b ∈ blocks f, ∀ c ∈ (block b).terminator.succs, c ∈ blocks f
  parent_unique : ∀ f g b, b ∈ blocks f → b ∈ blocks g → f = g
  callers_mem : ∀ f, ∀ g ∈ callers f, g ∈ functions
  callers_body : ∀ f, ∀ g ∈ callers f, blocks g ≠ []

/-! ## The closure -/

section
variable {F : Type} [DecidableEq F]

structure ClosureState (F : Type) where
  stack : List F
  closure : List F

def pushCallers (closure : List F) (callers stack : List F) : List F :=
  callers.foldl (fun stack caller => if caller ∈ closure then stack else caller :: stack) stack

def closureRound (callers : F → List F) (ignore : List F) (s : ClosureState F) :
    Option (ClosureState F) :=
  match s.stack with
  | [] => none
  | f :: stack =>
    if f ∈ ignore then some { s with stack := stack }
    else
      let closure := s.closure.insert f
      some ⟨pushCallers closure (callers f) stack, closure⟩

/-- A seed is `NULL` if the program does not have the function. -/
def bottomUpCallGraphClosure (fuel : Nat) (callers : F → List F) (seeds : List (Option F))
    (ignore : List F) : Option (List F) :=
  (loop (closureRound callers ignore) fuel ⟨(seeds.filterMap id).reverse, []⟩).map (·.closure)

def CallsSeed (callers : F → List F) (seeds : List (Option F)) (ignore : List F) (f : F) : Prop :=
  ∃ s, some s ∈ seeds ∧ s ∉ ignore ∧ ReflTransGen (fun g h => h ∈ callers g ∧ h ∉ ignore) s f

variable {callers : F → List F} {seeds : List (Option F)} {ignore : List F} {s : ClosureState F}
  {f : F} {univ : Finset F}

lemma mem_pushCallers {closure cs stack : List F} :
    f ∈ pushCallers closure cs stack ↔ f ∈ stack ∨ f ∈ cs ∧ f ∉ closure := by
  unfold pushCallers
  induction cs generalizing stack with
  | nil => simp
  | cons c cs ih =>
    rw [foldl_cons, ih]
    by_cases hc : c ∈ closure
    · rw [if_pos hc]
      constructor
      · rintro (h | ⟨h, hn⟩)
        · exact .inl h
        · exact .inr ⟨mem_cons_of_mem c h, hn⟩
      · rintro (h | ⟨h, hn⟩)
        · exact .inl h
        · rcases mem_cons.1 h with rfl | h
          · exact absurd hc hn
          · exact .inr ⟨h, hn⟩
    · rw [if_neg hc, mem_cons, mem_cons, or_and_right, or_comm (a := f = c), or_assoc]
      refine or_congr_right (or_congr_left ⟨fun h => ⟨h, h ▸ hc⟩, And.left⟩)

structure ClosureInv (callers : F → List F) (seeds : List (Option F)) (ignore : List F)
    (univ : Finset F) (s : ClosureState F) : Prop where
  nodup : s.closure.Nodup
  bounded : ∀ f ∈ s.stack, f ∈ univ
  stack : ∀ f ∈ s.stack, f ∉ ignore → CallsSeed callers seeds ignore f
  closure : ∀ f ∈ s.closure, CallsSeed callers seeds ignore f
  seeds : ∀ f, some f ∈ seeds → f ∉ ignore → f ∈ s.closure ∨ f ∈ s.stack
  callers : ∀ f ∈ s.closure, ∀ g ∈ callers f, g ∉ ignore → g ∈ s.closure ∨ g ∈ s.stack

lemma closureRound_inv (huniv : ∀ f, ∀ g ∈ callers f, g ∈ univ)
    (hi : ClosureInv callers seeds ignore univ s) (h : closureRound callers ignore s = some s') :
    ClosureInv callers seeds ignore univ s' := by
  unfold closureRound at h
  split at h
  · cases h
  next f stack hst =>
  have hmem : ∀ g, g ∈ s.stack ↔ g = f ∨ g ∈ stack := by simp [hst]
  split at h
  · next hig =>
    obtain rfl := Option.some.inj h
    have hdrop : ∀ g, g ∉ ignore → g ∈ s.stack → g ∈ stack := by
      intro g hg hs
      rcases (hmem g).1 hs with rfl | hs
      · exact absurd hig hg
      · exact hs
    exact ⟨hi.nodup, fun g hg => hi.bounded g ((hmem g).2 (.inr hg)),
      fun g hg => hi.stack g ((hmem g).2 (.inr hg)), hi.closure,
      fun g hg hn => (hi.seeds g hg hn).imp_right (hdrop g hn),
      fun g hg k hk hn => (hi.callers g hg k hk hn).imp_right (hdrop k hn)⟩
  rename_i hig
  obtain rfl := Option.some.inj h
  have hf : CallsSeed callers seeds ignore f := hi.stack f ((hmem f).2 (.inl rfl)) hig
  -- what was waiting is waiting still, or is `f` itself
  have hwait : ∀ g, g ∈ s.closure ∨ g ∈ s.stack →
      g ∈ s.closure.insert f ∨ g ∈ pushCallers (s.closure.insert f) (callers f) stack := by
    rintro g (hg | hg)
    · exact .inl (mem_insert_of_mem hg)
    · rcases (hmem g).1 hg with rfl | hg
      · exact .inl mem_insert_self
      · exact .inr (mem_pushCallers.2 (.inl hg))
  refine ⟨hi.nodup.insert, fun g hg => ?_, fun g hg hn => ?_, fun g hg => ?_,
    fun g hg hn => hwait g (hi.seeds g hg hn), fun g hg k hk hn => ?_⟩
  · rcases mem_pushCallers.1 hg with hg | ⟨hg, -⟩
    · exact hi.bounded g ((hmem g).2 (.inr hg))
    · exact huniv f g hg
  · rcases mem_pushCallers.1 hg with hg | ⟨hg, -⟩
    · exact hi.stack g ((hmem g).2 (.inr hg)) hn
    · obtain ⟨a, ha, hai, hpath⟩ := hf
      exact ⟨a, ha, hai, hpath.tail ⟨hg, hn⟩⟩
  · rcases mem_insert_iff.1 hg with rfl | hg
    · exact hf
    · exact hi.closure g hg
  · rcases mem_insert_iff.1 hg with rfl | hg
    · by_cases hin : k ∈ s.closure.insert g
      · exact .inl hin
      · exact .inr (mem_pushCallers.2 (.inr ⟨hk, hin⟩))
    · exact hwait k (hi.callers g hg k hk hn)

/-! ## The end of the closure -/

def stackWeight (callers : F → List F) (ignore closure : List F) (f : F) : Nat :=
  if f ∈ ignore ∨ f ∉ closure then 1 else 1 + (callers f).length

def closureMeasure (callers : F → List F) (ignore : List F) (univ : Finset F)
    (s : ClosureState F) : Nat × Nat :=
  ((univ.filter fun f => f ∉ s.closure).card,
    (s.stack.map (stackWeight callers ignore s.closure)).sum)

lemma sum_pushCallers_le (callers : F → List F) (ignore closure cs stack : List F) :
    ((pushCallers closure cs stack).map (stackWeight callers ignore closure)).sum ≤
      cs.length + (stack.map (stackWeight callers ignore closure)).sum := by
  unfold pushCallers
  induction cs generalizing stack with
  | nil => simp
  | cons c cs ih =>
    rw [foldl_cons]
    refine (ih _).trans ?_
    by_cases hc : c ∈ closure
    · rw [if_pos hc, length_cons]
      omega
    have hw : stackWeight callers ignore closure c = 1 := if_pos (.inr hc)
    rw [if_neg hc, map_cons, sum_cons, hw, length_cons]
    omega

lemma closureRound_decreases (hi : ClosureInv callers seeds ignore univ s)
    (h : closureRound callers ignore s = some s') :
    Prod.Lex (· < ·) (· < ·) (closureMeasure callers ignore univ s')
      (closureMeasure callers ignore univ s) := by
  unfold closureRound at h
  split at h
  · cases h
  next f stack hst =>
  have hf : f ∈ univ := hi.bounded f (by simp [hst])
  split at h
  · next hig =>
    obtain rfl := Option.some.inj h
    apply Prod.Lex.right
    have hw : stackWeight callers ignore s.closure f = 1 := if_pos (.inl hig)
    simp only [hst, map_cons, sum_cons, hw]
    omega
  rename_i hig
  obtain rfl := Option.some.inj h
  by_cases hin : f ∈ s.closure
  · -- expanded again: the callers that it pushes are lighter
    have hsame : s.closure.insert f = s.closure := insert_of_mem hin
    have hw : stackWeight callers ignore s.closure f = 1 + (callers f).length := by
      apply if_neg
      rintro (h | h)
      · exact hig h
      · exact h hin
    simp only [closureMeasure, hsame]
    apply Prod.Lex.right
    have hsum := sum_pushCallers_le callers ignore s.closure (callers f) stack
    simp only [hst, map_cons, sum_cons, hw]
    omega
  · apply Prod.Lex.left
    apply Finset.card_lt_card
    refine ⟨Finset.monotone_filter_right univ fun g _ hg hmem => ?_, fun hsub => ?_⟩
    · exact hg (mem_insert_of_mem hmem)
    · have := (Finset.mem_filter.1 (hsub (Finset.mem_filter.2 ⟨hf, hin⟩))).2
      exact this mem_insert_self

/-- The closure is computed, and has the functions that call a seed, once each. -/
lemma bottomUpCallGraphClosure_spec (functions : List F)
    (hfun : ∀ f, ∀ g ∈ callers f, g ∈ functions) (seeds : List (Option F)) (ignore : List F) :
    ∃ closure, Settles (fun fuel => bottomUpCallGraphClosure fuel callers seeds ignore)
        (some closure) ∧
      closure.Nodup ∧ ∀ f, f ∈ closure ↔ CallsSeed callers seeds ignore f := by
  let univ : Finset F := (seeds.filterMap id ++ functions).toFinset
  have huniv : ∀ f, ∀ g ∈ callers f, g ∈ univ := by
    intro f g hg
    simp only [univ, mem_toFinset, mem_append]
    exact .inr (hfun f g hg)
  have hstart : ClosureInv callers seeds ignore univ ⟨(seeds.filterMap id).reverse, []⟩ := by
    refine ⟨nodup_nil, fun f hf => ?_, fun f hf hn => ?_, fun f hf => ?_, fun f hf _ => ?_,
      fun f hf => ?_⟩
    · simp only [univ, mem_toFinset, mem_append]
      exact .inl (mem_reverse.1 hf)
    · exact ⟨f, by simpa using hf, hn, .refl⟩
    · cases hf
    · exact .inr (by simpa using hf)
    · cases hf
  have hwf : WellFounded (Prod.Lex (· < · : Nat → Nat → Prop) (· < · : Nat → Nat → Prop)) :=
    Nat.lt_wfRel.wf.prod_lex Nat.lt_wfRel.wf
  obtain ⟨s, hi, hdone, hset⟩ := loop_settles (InvImage.wf (closureMeasure callers ignore univ) hwf)
    (fun s s' hi h => ⟨closureRound_inv huniv hi h, closureRound_decreases hi h⟩) hstart
  have hempty : s.stack = [] := by
    unfold closureRound at hdone
    split at hdone
    · assumption
    · split at hdone <;> cases hdone
  refine ⟨s.closure, hset.bind (.const _), hi.nodup,
    fun f => ⟨hi.closure f, ?_⟩⟩
  rintro ⟨a, ha, hai, hpath⟩
  have hin : ∀ g, g ∈ s.closure ∨ g ∈ s.stack → g ∈ s.closure := by
    intro g hg
    rw [hempty] at hg
    exact hg.resolve_right not_mem_nil
  induction hpath with
  | refl => exact hin a (hi.seeds a ha hai)
  | tail _ hstep ih => exact hin _ (hi.callers _ ih _ hstep.1 hstep.2)

end

/-- The function calls a seed, directly or not, or is one. -/
def IrModule.TransitivelyCalls {F B : Type} (m : IrModule F B) (seeds : List (Option F)) (f : F) :
    Prop :=
  ∃ s, some s ∈ seeds ∧ ReflTransGen (fun g h => h ∈ m.callers g) s f

lemma IrModule.transitivelyCalls_iff {F B : Type} [DecidableEq F] (m : IrModule F B)
    (seeds : List (Option F)) (f : F) :
    CallsSeed m.callers seeds [] f ↔ m.TransitivelyCalls seeds f := by
  simp [CallsSeed, TransitivelyCalls]

end InputCovSched
