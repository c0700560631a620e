import InputCovSched.Klee.Replace

/-!
# Evaluation under an assignment (`Assignment.h`, `ExprEvaluator.cpp`)

An assignment binds some bytes of some arrays. `satisfies` evaluates constraints one after the other
with one evaluator, whose cache is kept between them, and asks whether each becomes `true`.

A byte that is not bound is 0, but 1 while a divisor is evaluated: it can have two values, and then
there need not be a valuation under which all constraints hold. Where the evaluation of no divisor
gets to such a byte, `zeroFilled` is one (`satisfies_sound`). To say so, the evaluator has a
`strict` variant, which stops there.
-/

namespace InputCovSched.Klee

open Klee.Expr List
open Operation (create_keeps operands)

/-- The bytes that are bound; a newer binding of a byte hides an older one. -/
structure Assignment where
  bindings : List ((KleeArray × BitVec 32) × BitVec 8) := []

namespace Assignment

variable (asg : Assignment)

section
variable (array : KleeArray) (index : BitVec 32)

def addBinding (value : BitVec 8) : Assignment :=
  ⟨((array, index), value) :: asg.bindings⟩

def lookup : Option (BitVec 8) :=
  asg.bindings.lookup (array, index)

def hasBinding : Bool := (asg.lookup array index).isSome

def evaluate (defaultToZero : Bool) : Expr :=
  constant 8 ((asg.lookup array index).getD (if defaultToZero then 0 else 1))

end

end Assignment

/-- `ExprVisitor::visited`. -/
abbrev VisitCache := List (Expr × Expr)

/-- The visitor changes its cache; no result if the fuel does not suffice. -/
abbrev VisitM := StateT VisitCache Option

/-- `UpdateNode::getGuardForIndex`, for a single byte. -/
def byteGuard (guard index : Expr) (j : BitVec 32) : Expr :=
  andCreate guard (eqCreate index (constant 32 j))

def Expr.isZeroConstant : Expr → Bool
  | constant _ v => v == 0
  | _ => false

def KleeArray.isSymbolic : KleeArray → Bool
  | .symbolic _ => true
  | _ => false

section Visit

variable (strict : Bool) (asg : Assignment) (rec : Bool → Expr → VisitM Expr) (inDenominator : Bool)

/-- `HaveRoot` in `evalRead`. -/
def initialValue (array : KleeArray) (j : BitVec 32) : VisitM Expr :=
  if array.isSymbolic || asg.hasBinding array j then
    if strict && inDenominator && !asg.hasBinding array j then failure
    else return asg.evaluate array j !inDenominator
  else rec inDenominator (array.getValueAtIndex (constant 32 j))

/-- From one update on. Behind a guard that is not known, a read of this version is left. -/
def evalRead (j : BitVec 32) : UpdateList → VisitM Expr
  | .root array => initialValue strict asg rec inDenominator array j
  | .byteUpdate index value guard next => do
    let cond ← rec inDenominator (byteGuard guard index j)
    match cond.asConstant with
    | some ⟨_, v⟩ => if isTrueBits v then rec inDenominator value else evalRead j next
    | none => return readCreate (.byteUpdate index value guard next) (constant 32 j)
  | .multiUpdate src guard next => do
    let cond ← rec inDenominator guard
    match cond.asConstant with
    | some ⟨_, v⟩ =>
      if isTrueBits v then initialValue strict asg rec inDenominator src j else evalRead j next
    | none => return readCreate (.multiUpdate src guard next) (constant 32 j)

/-- A divisor that becomes 0 is left as it is. -/
def protectedDivOperation (op : BinaryOp) (l r : Expr) : VisitM Expr := do
  let l' ← rec inDenominator l
  let r' ← rec true r
  return (Operation.binary op l' (if r'.isZeroConstant then r else r')).rebuild (binary op l r)

def visitOperation (o : Operation) : VisitM Expr :=
  if o.operands.all (·.isConstant) then return o.create
  else
    match o with
    | .binary op l r =>
      if op.isDivision then protectedDivOperation rec inDenominator op l r
      else return (← (Operation.binary op l r).mapM (rec inDenominator)).rebuild (binary op l r)
    | o => return (← o.mapM (rec inDenominator)).rebuild o.plain

def visitActual : Expr → VisitM Expr
  | .read u i => do
    let i' ← rec inDenominator i
    match i'.asConstant with
    | some ⟨_, j⟩ => evalRead strict asg rec inDenominator (j.setWidth 32) u
    | none => return if i' = i then read u i else readCreate u i'
  -- quantified formulas are taken to be valid
  | .all _ _ _ => return trueExpr
  | e =>
    match e.asOperation with
    | some o => visitOperation rec inDenominator o
    | none => return e

end Visit

section
variable (strict : Bool) (asg : Assignment)

def visit : Nat → Bool → Expr → VisitM Expr
  | 0, _, _ => failure
  | fuel + 1, inDenominator, e =>
    if e.isConstant then return e
    else do
      match (← get).lookup e with
      | some e' => return e'
      | none =>
        let e' ← visitActual strict asg (visit fuel) inDenominator e
        modify ((e, e') :: ·)
        return e'

def satisfiesFrom (fuel : Nat) : List Expr → VisitM Bool
  | [] => return true
  | c :: cs => do
    let c' ← visit strict asg fuel false c
    if c' = trueExpr then satisfiesFrom fuel cs else return false

end

def satisfies (asg : Assignment) (fuel : Nat) (constraints : List Expr) : Option Bool :=
  (satisfiesFrom false asg fuel constraints).run' []

/-! ## What is meant -/

/-- Bound bytes have their value, all others are 0. -/
def Assignment.zeroFilled (asg : Assignment) : Env where
  bytes n j := (asg.lookup (.symbolic n) j).getD 0
  outside values j := (asg.lookup (.constantValues values) j).getD 0
  qvars _ := 0

def Assignment.Extends (asg : Assignment) (ρ : Env) : Prop :=
  ∀ array index value, asg.lookup array index = some value → array.byteAt ρ index = value

/-- The updates that a read at `j` goes past. -/
inductive UpdateList.Arrives (ρ : Env) (j : BitVec 32) : UpdateList → UpdateList → Prop
  | refl (u) : Arrives ρ j u u
  | byte {u index value guard next} : Arrives ρ j u (.byteUpdate index value guard next) →
    ¬ (guard.eval ρ 1 = 1 ∧ index.eval ρ 32 = j) → Arrives ρ j u next
  | multi {u src guard next} : Arrives ρ j u (.multiUpdate src guard next) →
    guard.eval ρ 1 ≠ 1 → Arrives ρ j u next

/-- The array in which a read at `j` finds its byte. -/
def UpdateList.Finds (ρ : Env) (j : BitVec 32) (u : UpdateList) (a : KleeArray) : Prop :=
  u.Arrives ρ j (.root a) ∨
    ∃ guard next, u.Arrives ρ j (.multiUpdate a guard next) ∧ guard.eval ρ 1 = 1

/-- The evaluation of the constraints ends without the default of a byte in a divisor. -/
def Assignment.AvoidsDivisorDefault (asg : Assignment) (fuel : Nat) (cs : List Expr) : Prop :=
  (satisfiesFrom true asg fuel cs).run' [] ≠ none

structure Assignment.Determines (asg : Assignment) (fuel : Nat) (cs : List Expr) : Prop where
  /-- what is bound in a constant or constrained array is what it holds -/
  bindings : asg.Extends asg.zeroFilled
  clean : ∀ c ∈ cs, c.Clean none
  divisors : asg.AvoidsDivisorDefault fuel cs

/-! ## Updates that are passed -/

section Arrives

variable {ρ : Env} {j : BitVec 32} {u v : UpdateList} {a : KleeArray}

lemma UpdateList.Arrives.byteAt (h : u.Arrives ρ j v) : u.byteAt ρ j = v.byteAt ρ j := by
  induction h with
  | refl => rfl
  | byte _ hnot ih | multi _ hnot ih => rw [ih, UpdateList.byteAt, if_neg hnot]

lemma UpdateList.Arrives.wellTyped (h : u.Arrives ρ j v) (hu : u.WellTyped) : v.WellTyped := by
  induction h with
  | refl => exact hu
  | byte _ _ ih => exact ih.2.2.2
  | multi _ _ ih => exact ih.2.2

lemma UpdateList.Arrives.clean (h : u.Arrives ρ j v) (hu : u.Clean) : v.Clean := by
  induction h with
  | refl => exact hu
  | byte _ _ ih => exact ih.2.2.2
  | multi _ _ ih => exact ih.2.2

lemma UpdateList.Finds.byteAt (h : u.Finds ρ j a) : u.byteAt ρ j = a.byteAt ρ j := by
  rcases h with h | ⟨guard, next, h, hguard⟩
  · exact h.byteAt
  · rw [h.byteAt, UpdateList.byteAt, if_pos hguard]

lemma UpdateList.Finds.good (h : u.Finds ρ j a) (hu : u.WellTyped) (huc : u.Clean) :
    a.WellTyped ∧ a.Clean := by
  rcases h with h | ⟨guard, next, h, -⟩
  · exact ⟨h.wellTyped hu, h.clean huc⟩
  · exact ⟨(h.wellTyped hu).1, (h.clean huc).1⟩

end Arrives

lemma byteGuard_denotes {S : Env → Prop} {guard index : Expr} (j : BitVec 32)
    (hg : guard.WellTyped) (hgw : guard.width = 1) (hgc : guard.Clean none) (hi : index.WellTyped)
    (hiw : index.width = 32) (hic : index.Clean none) :
    (byteGuard guard index j).Clean none ∧ Denotes S (byteGuard guard index j) 1
      fun ρ => guard.eval ρ 1 &&& BitVec.ofBool (index.eval ρ 32 == j) := by
  have hjc : (constant 32 j).Clean none := trivial
  have heq := eqCreate_denotes (S := S) ⟨hi, hiw, fun _ _ => rfl⟩ (.constant (by decide) j)
    hic.zeroSumFree hjc.zeroSumFree (hic.addsZero _) (hjc.addsZero _)
  have heqc : (eqCreate index (constant 32 j)).Clean none :=
    create_keeps (o := .cmp .eq index (constant 32 j)) (clean_hereditary none)
      (by simpa [operands] using ⟨hic, hjc⟩)
  refine ⟨?_, andCreate_denotes ⟨hg, hgw, fun _ _ => rfl⟩ heq⟩
  exact create_keeps (o := .binary .and guard _) (clean_hereditary none)
    (by simpa [operands] using ⟨hgc, heqc⟩)

/-! ## The cache -/

def VisitM.Returns {α : Type} (m : VisitM α) (s : VisitCache) (Q : α → VisitCache → Prop) : Prop :=
  ∀ x s', m s = some (x, s') → Q x s'

namespace VisitM.Returns

variable {α β : Type} {m : VisitM α} {s : VisitCache} {Q P : α → VisitCache → Prop}

lemma pure {x : α} (h : Q x s) : (Pure.pure x : VisitM α).Returns s Q := by
  rintro _ _ ⟨⟩
  exact h

lemma bind {f : α → VisitM β} {Q : β → VisitCache → Prop}
    (h : m.Returns s P) (hf : ∀ x s', P x s' → (f x).Returns s' Q) : (m >>= f).Returns s Q := by
  intro y s'' hrun
  change (m s >>= fun p => f p.1 p.2) = some (y, s'') at hrun
  cases hm : m s with
  | none => simp [hm] at hrun
  | some p =>
    rw [hm] at hrun
    exact hf p.1 p.2 (h p.1 p.2 hm) y s'' hrun

lemma ofGet : (MonadState.get : VisitM VisitCache).Returns s fun x s' => x = s ∧ s' = s := by
  rintro _ _ ⟨⟩
  exact ⟨rfl, rfl⟩

lemma ofModify (f : VisitCache → VisitCache) :
    (modify f : VisitM PUnit).Returns s fun _ s' => s' = f s := by
  rintro _ _ ⟨⟩
  rfl

lemma mono (h : m.Returns s P) (hPQ : ∀ x s', P x s' → Q x s') :
    m.Returns s Q := fun x s' hrun => hPQ x s' (h x s' hrun)

lemma ofFailure : (failure : VisitM α).Returns s Q := nofun

end VisitM.Returns

/-! ## The strict evaluation -/

/-- Where the one returns, the other returns the same. -/
def VisitM.Refines {α : Type} (m m' : VisitM α) : Prop := ∀ s r, m s = some r → m' s = some r

namespace VisitM.Refines

variable {α β : Type} {m m' : VisitM α}

lemma refl (m : VisitM α) : m.Refines m := fun _ _ => id

lemma ofFailure : (failure : VisitM α).Refines m := nofun

lemma bind {f f' : α → VisitM β} (h : m.Refines m') (hf : ∀ x, (f x).Refines (f' x)) :
    (m >>= f).Refines (m' >>= f') := by
  intro s r hrun
  change (m s >>= fun p => f p.1 p.2) = some r at hrun
  show (m' s >>= fun p => f' p.1 p.2) = some r
  cases hm : m s with
  | none => simp [hm] at hrun
  | some p =>
    rw [hm] at hrun
    rw [h s p hm]
    exact hf p.1 p.2 r hrun

variable {asg : Assignment} {rec rec' : Bool → Expr → VisitM Expr}
  (hrec : ∀ d e, (rec d e).Refines (rec' d e)) (d : Bool)
include hrec

lemma initialValue (a : KleeArray) (j : BitVec 32) :
    (Klee.initialValue true asg rec d a j).Refines (Klee.initialValue false asg rec' d a j) := by
  unfold Klee.initialValue
  split
  · split
    · exact ofFailure
    · exact refl _
  · exact hrec _ _

lemma evalRead (j : BitVec 32) (u : UpdateList) :
    (Klee.evalRead true asg rec d j u).Refines (Klee.evalRead false asg rec' d j u) := by
  induction u using Klee.evalRead.induct with
  | case1 a => exact initialValue hrec d a j
  | case2 index value guard next ih =>
    refine (hrec _ _).bind fun cond => ?_
    split
    · split
      · exact hrec _ _
      · exact ih
    · exact refl _
  | case3 src guard next ih =>
    refine (hrec _ _).bind fun cond => ?_
    split
    · split
      · exact initialValue hrec d src j
      · exact ih
    · exact refl _

lemma mapM (o : Operation) : (o.mapM (rec d)).Refines (o.mapM (rec' d)) := by
  have one : ∀ e (k : Expr → Operation),
      (rec d e >>= fun x => pure (k x)).Refines (rec' d e >>= fun x => pure (k x)) :=
    fun e k => (hrec d e).bind fun _ => refl _
  have two : ∀ l r (k : Expr → Expr → Operation), (rec d l >>= fun x => rec d r >>= fun y =>
      pure (k x y)).Refines (rec' d l >>= fun x => rec' d r >>= fun y => pure (k x y)) :=
    fun l r k => (hrec d l).bind fun x => one r (k x)
  cases o with
  | select c t f => exact (hrec d c).bind fun x => two t f (.select x)
  | notOptimized e => exact one e .notOptimized
  | extract e offset w => exact one e (.extract · offset w)
  | zext e w => exact one e (.zext · w)
  | sext e w => exact one e (.sext · w)
  | not e => exact one e .not
  | concat l r => exact two l r .concat
  | binary op l r => exact two l r (.binary op)
  | cmp op l r => exact two l r (.cmp op)
  | implies l r => exact two l r .implies

lemma visitOperation (o : Operation) :
    (Klee.visitOperation rec d o).Refines (Klee.visitOperation rec' d o) := by
  unfold Klee.visitOperation
  split
  · exact refl _
  split
  · split
    · exact (hrec _ _).bind fun _ => (hrec _ _).bind fun _ => refl _
    · exact (mapM hrec d _).bind fun _ => refl _
  · exact (mapM hrec d _).bind fun _ => refl _

lemma visitActual (e : Expr) :
    (Klee.visitActual true asg rec d e).Refines (Klee.visitActual false asg rec' d e) := by
  cases e using Expr.operationRec with
  | constant | qvar | all => exact refl _
  | operation o =>
    have hplain : ∀ strict rec, Klee.visitActual strict asg rec d o.plain =
      Klee.visitOperation rec d o := by cases o <;> exact fun _ _ => rfl
    rw [hplain, hplain]
    exact visitOperation hrec d o
  | read u i =>
    refine (hrec _ _).bind fun i' => ?_
    split
    · exact evalRead hrec d _ u
    · exact refl _

end VisitM.Refines

lemma visit_refines (asg : Assignment) (fuel : Nat) :
    ∀ d e, (visit true asg fuel d e).Refines (visit false asg fuel d e) := by
  induction fuel with
  | zero => exact fun _ _ => .ofFailure
  | succ fuel ih =>
    intro d e
    unfold visit
    split
    · exact .refl _
    refine VisitM.Refines.bind (.refl _) fun cache => ?_
    split
    · exact .refl _
    · exact (VisitM.Refines.visitActual ih d e).bind fun _ => .refl _

lemma satisfiesFrom_refines (asg : Assignment) (fuel : Nat) (cs : List Expr) :
    (satisfiesFrom true asg fuel cs).Refines (satisfiesFrom false asg fuel cs) := by
  induction cs with
  | nil => exact .refl _
  | cons c cs ih =>
    refine (visit_refines asg fuel false c).bind fun c' => ?_
    split
    · exact ih
    · exact .refl _

namespace VisitCache

variable {ρ : Env} {s s' : VisitCache} {e e' : Expr}

/-- What an expression was changed to has its value under `ρ`. -/
abbrev Same (ρ : Env) (e e' : Expr) : Prop := Replaced (· = ρ) none id e e'

def Sound (ρ : Env) (s : VisitCache) : Prop := ∀ e e', s.lookup e = some e' → Same ρ e e'

def Grows (s s' : VisitCache) : Prop := ∀ e e', s.lookup e = some e' → s'.lookup e = some e'

/-- What a visit of the expression gives from now on. -/
def value (s : VisitCache) (e : Expr) : Expr := if e.isConstant then e else (s.lookup e).getD e

/-- After a visit of `e` with the result `e'`. -/
structure After (ρ : Env) (s : VisitCache) (e e' : Expr) (s' : VisitCache) : Prop where
  sound : Sound ρ s'
  grows : Grows s s'
  same : Same ρ e e'
  found : if e.isConstant then e' = e else s'.lookup e = some e'

lemma After.value (h : After ρ s e e' s') (hgrows : Grows s' s'') : s''.value e = e' := by
  have hfound := h.found
  unfold VisitCache.value
  split
  · next hconst =>
    rw [if_pos hconst] at hfound
    exact hfound.symm
  rename_i hconst
  rw [if_neg hconst] at hfound
  rw [hgrows _ _ hfound]
  rfl

/-- The operands of a node, one after the other. -/
structure AfterAll (ρ : Env) (s : VisitCache) (o o' : Operation) (s' : VisitCache) : Prop where
  sound : Sound ρ s'
  grows : Grows s s'
  operation : o' = o.map s'.value
  same : ∀ e ∈ o.operands, Same ρ e (s'.value e)

lemma Grows.trans (h : Grows s s') (h' : Grows s' s'') : Grows s s'' :=
  fun e e' he => h' e e' (h e e' he)

lemma mapM_returns {f : Expr → VisitM Expr} {o : Operation} (hs : Sound ρ s)
    (hf : ∀ e ∈ o.operands, ∀ s, Sound ρ s → (f e).Returns s (After ρ s e)) :
    (o.mapM f).Returns s (AfterAll ρ s o) := by
  have hrefl : ∀ s : VisitCache, Grows s s := fun _ _ _ => id
  -- one, two or three visits, and the operator of their results
  have one : ∀ {e} (k : Expr → Operation), o.operands = [e] → (∀ g, o.map g = k (g e)) →
      (f e >>= fun x => pure (k x)).Returns s (AfterAll ρ s o) := by
    intro e k hops hk
    refine (hf e (by simp [hops]) s hs).bind fun x s₁ h₁ => .pure ?_
    have hx := h₁.value (hrefl s₁)
    refine ⟨h₁.sound, h₁.grows, by rw [hk, hx], ?_⟩
    simpa [hops, hx] using h₁.same
  have two : ∀ {l r} (k : Expr → Expr → Operation), o.operands = [l, r] →
      (∀ g, o.map g = k (g l) (g r)) →
      (f l >>= fun x => f r >>= fun y => pure (k x y)).Returns s (AfterAll ρ s o) := by
    intro l r k hops hk
    refine (hf l (by simp [hops]) s hs).bind fun x s₁ h₁ => ?_
    refine (hf r (by simp [hops]) s₁ h₁.sound).bind fun y s₂ h₂ => .pure ?_
    have hx := h₁.value h₂.grows
    have hy := h₂.value (hrefl s₂)
    refine ⟨h₂.sound, h₁.grows.trans h₂.grows, by rw [hk, hx, hy], ?_⟩
    simpa [hops, hx, hy] using ⟨h₁.same, h₂.same⟩
  cases o with
  | notOptimized e => exact one .notOptimized rfl fun _ => rfl
  | extract e offset w => exact one (.extract · offset w) rfl fun _ => rfl
  | zext e w => exact one (.zext · w) rfl fun _ => rfl
  | sext e w => exact one (.sext · w) rfl fun _ => rfl
  | not e => exact one .not rfl fun _ => rfl
  | concat l r => exact two .concat rfl fun _ => rfl
  | binary op l r => exact two (.binary op) rfl fun _ => rfl
  | cmp op l r => exact two (.cmp op) rfl fun _ => rfl
  | implies l r => exact two .implies rfl fun _ => rfl
  | select c t f' =>
    refine (hf c (by simp [operands]) s hs).bind fun x s₁ h₁ => ?_
    refine (hf t (by simp [operands]) s₁ h₁.sound).bind fun y s₂ h₂ => ?_
    refine (hf f' (by simp [operands]) s₂ h₂.sound).bind fun z s₃ h₃ => .pure ?_
    have hx := h₁.value (h₂.grows.trans h₃.grows)
    have hy := h₂.value h₃.grows
    have hz := h₃.value (hrefl s₃)
    refine ⟨h₃.sound, (h₁.grows.trans h₂.grows).trans h₃.grows, ?_, ?_⟩
    · simp only [Operation.map, hx, hy, hz]
    · simpa [operands, hx, hy, hz] using ⟨h₁.same, h₂.same, h₃.same⟩

end VisitCache

/-! ## One visit -/

section Sound

open VisitCache

variable {asg : Assignment} {cs : List Expr} {s s' : VisitCache} {d : Bool} {e e' : Expr}
  {rec : Bool → Expr → VisitM Expr}

variable {o : Operation}

lemma VisitCache.Same.create (typed : o.plain.WellTyped)
    (clean : o.plain.Clean none) : Same ρ o.plain o.create := by
  obtain ⟨htyped, widths, -⟩ := Operation.plain_wellTyped typed
  have hkids := (clean_hereditary none).plain_operands clean
  refine ⟨create_keeps (clean_hereditary none) hkids, ?_⟩
  have hrew : o.Rewritten (· = ρ) id id := fun e he n hw => ⟨htyped e he, hw, fun _ _ => rfl⟩
  have hcreate := Operation.map_create_denotes hrew (fun e he => (hkids e he).zeroSumFree) widths
    (by rw [o.map_id]; exact Operation.not_comparesZeroSum hkids) ?_
  · rwa [o.map_id] at hcreate
  intro hone ρ _
  cases o with
  | binary op l r => exact fun hdiv => absurd (.inr ⟨hdiv, hone⟩) clean.1
  | _ => trivial

lemma VisitCache.Same.division (typed : (binary op l r).WellTyped)
    (clean : (binary op l r).Clean none) (hl : Same ρ l l') (hr : Same ρ r r') :
    Same ρ (binary op l r) ((Operation.binary op l' r').rebuild (binary op l r)) := by
  unfold Operation.rebuild
  split
  · exact ⟨clean, typed, rfl, fun _ _ => rfl⟩
  have hclean : ∀ e ∈ (Operation.binary op l' r').operands, e.Clean none := by
    simpa [operands] using ⟨hl.clean, hr.clean⟩
  refine ⟨create_keeps (clean_hereditary none) hclean, ?_⟩
  have hrd := hr.denotes
  rw [← typed.2.2] at hrd
  refine binaryCreate_denotes hl.denotes hrd hl.clean.zeroSumFree hr.clean.zeroSumFree op ?_
  intro hdiv hone
  exact absurd (.inr ⟨hdiv, hone⟩) clean.1

/-- The value of the expression was found. -/
structure VisitCache.Result (ρ : Env) (s : VisitCache) (e e' : Expr) (s' : VisitCache) : Prop where
  sound : Sound ρ s'
  grows : Grows s s'
  same : Same ρ e e'

lemma VisitCache.After.result (h : After ρ s k e' s') (hk : Same ρ e k) :
    Result ρ s e e' s' := ⟨h.sound, h.grows, hk.trans h.same⟩

section Read

variable {u : UpdateList} {i : Expr}

lemma VisitCache.Same.read (clean : e.Clean none)
    (he : Denotes (· = ρ) e 8 f) (hvalue : f ρ = u.byteAt ρ (i.eval ρ 32)) :
    Same ρ (read u i) e := by
  refine ⟨clean, he.congr ?_⟩
  rintro _ rfl
  show f _ = (Expr.read u i).eval _ 8
  rw [eval, BitVec.setWidth_eq, hvalue, id]

lemma VisitCache.Same.isTrue (h : Same ρ e e')
    (hw : e.width = 1) (hconst : e'.asConstant = some ⟨n, v⟩) :
    isTrueBits v = true ↔ e.eval ρ 1 = 1 := by
  have hdenotes := h.denotes
  rw [hw] at hdenotes
  obtain ⟨rfl, hvalue⟩ := hdenotes.asConstant_some hconst
  have hv : e.eval ρ 1 = v := (hvalue ρ rfl).trans (BitVec.setWidth_eq v)
  have hbits : ∀ v : BitVec 1, isTrueBits v = true ↔ v = 1 := by decide
  rw [hv, hbits]

variable {ρ : Env} (hρ : asg.zeroFilled = ρ) (h : asg.Extends asg.zeroFilled)
  (hrec : ∀ d e s, e.WellTyped → e.Clean none → Sound ρ s → (rec d e).Returns s (After ρ s e))
  (typed : (Expr.read u i).WellTyped) (clean : (Expr.read u i).Clean none)

include hρ h hrec typed clean

lemma initialValue_returns (hs : Sound ρ s) (hfinds : u.Finds ρ (i.eval ρ 32) a) :
    (initialValue true asg rec d a (i.eval ρ 32)).Returns s (Result ρ s (Expr.read u i)) := by
  subst hρ
  unfold initialValue
  split
  · next hknown =>
    split
    · exact .ofFailure
    rename_i hdefault
    refine .pure ⟨hs, fun _ _ => id, .read trivial (.constant (by decide) _) ?_⟩
    rw [hfinds.byteAt]
    cases hbound : asg.lookup a (i.eval asg.zeroFilled 32) with
    | some v => exact (h a _ v hbound).symm
    | none =>
      -- not bound: a symbolic array, and not for a divisor
      have hsym : a.isSymbolic = true := by simpa [Assignment.hasBinding, hbound] using hknown
      cases a with
      | symbolic n =>
        have hd : d = false := by simpa [Assignment.hasBinding, hbound] using hdefault
        have hbyte : (KleeArray.symbolic n).byteAt asg.zeroFilled (i.eval asg.zeroFilled 32) = 0 := by
          show (asg.lookup _ _).getD 0 = 0
          rw [hbound]
          rfl
        simp [hd, hbyte]
      | _ => cases hsym
  · obtain ⟨ha, hac⟩ := hfinds.good typed.1 clean.1
    have hvalue := KleeArray.getValueAtIndex_denotes (S := (· = asg.zeroFilled)) ha hac
      (.constant (by decide) (i.eval asg.zeroFilled 32)) trivial
    refine (hrec d _ s hvalue.2.typed hvalue.1 hs).mono fun e' s' hafter => hafter.result ?_
    exact .read hvalue.1 hvalue.2 hfinds.byteAt.symm

lemma evalRead_returns (v : UpdateList) (harr : u.Arrives ρ (i.eval ρ 32) v) {s : VisitCache}
    (hs : Sound ρ s) :
    (evalRead true asg rec d (i.eval ρ 32) v).Returns s (Result ρ s (Expr.read u i)) := by
  have hvt := harr.wellTyped typed.1
  have hvc := harr.clean clean.1
  have hleft : Same ρ (.read u i) (readCreate v (constant 32 (i.eval ρ 32))) :=
    .read (readCreate_clean hvc trivial)
      (readCreate_denotes (q := none) hvt hvc (.constant (by decide) _) trivial)
      harr.byteAt.symm
  match v, harr, hvt, hvc, hleft with
  | .root a, harr, _, _, _ => exact initialValue_returns hρ h hrec typed clean hs (.inl harr)
  | .byteUpdate index value guard next, harr, hvt, hvc, hleft =>
    obtain ⟨⟨hit, hiw⟩, ⟨hvalt, hvalw⟩, ⟨hgt, hgw⟩, -⟩ := hvt
    obtain ⟨hic, hvalc, hgc, -⟩ := hvc
    obtain ⟨hguardc, hguard⟩ := byteGuard_denotes (S := (· = ρ)) (i.eval ρ 32) hgt hgw hgc hit hiw hic
    have happlies : (byteGuard guard index (i.eval ρ 32)).eval ρ 1 = 1 ↔ guard.eval ρ 1 = 1 ∧
          index.eval ρ 32 = i.eval ρ 32 := by
      have hbits : ∀ (g : BitVec 1) (b : Bool), g &&& BitVec.ofBool b = 1 ↔ g = 1 ∧ b = true := by
        decide
      rw [hguard.value _ rfl, hbits, beq_iff_eq]
    refine (hrec d _ s hguard.typed hguardc hs).bind fun cond s₁ h₁ => ?_
    split
    · next n w hconst =>
      have htrue := (h₁.same.isTrue hguard.width hconst).trans happlies
      split
      · next hyes =>
        have hboth := htrue.1 hyes
        refine (hrec d value s₁ hvalt hvalc h₁.sound).mono fun e' s₂ h₂ => ?_
        have hvalue : Same ρ (.read u i) value := by
          refine .read hvalc ⟨hvalt, hvalw, fun _ _ => rfl⟩ ?_
          rw [harr.byteAt, UpdateList.byteAt, if_pos hboth]
        exact ⟨h₂.sound, h₁.grows.trans h₂.grows, hvalue.trans h₂.same⟩
      · next hno =>
        have hnext := evalRead_returns next (harr.byte (mt htrue.2 hno)) h₁.sound
        exact hnext.mono fun e' s₂ h₂ => ⟨h₂.sound, h₁.grows.trans h₂.grows, h₂.same⟩
    · exact .pure ⟨h₁.sound, h₁.grows, hleft⟩
  | .multiUpdate src guard next, harr, hvt, hvc, hleft =>
    refine (hrec d guard s hvt.2.1.1 hvc.2.1 hs).bind fun cond s₁ h₁ => ?_
    split
    · next n w hconst =>
      have htrue := h₁.same.isTrue hvt.2.1.2 hconst
      split
      · next hyes =>
        have hsrc := initialValue_returns (d := d) hρ h hrec typed clean h₁.sound
          (.inr ⟨guard, next, harr, htrue.1 hyes⟩)
        exact hsrc.mono fun e' s₂ h₂ => ⟨h₂.sound, h₁.grows.trans h₂.grows, h₂.same⟩
      · next hno =>
        have hnext := evalRead_returns next (harr.multi (mt htrue.2 hno)) h₁.sound
        exact hnext.mono fun e' s₂ h₂ => ⟨h₂.sound, h₁.grows.trans h₂.grows, h₂.same⟩
    · exact .pure ⟨h₁.sound, h₁.grows, hleft⟩

end Read

section Visit

variable {ρ : Env}
  (hrec : ∀ d e s, e.WellTyped → e.Clean none → Sound ρ s → (rec d e).Returns s (After ρ s e))

include hrec

section
variable (hs : Sound ρ s)
include hs

lemma mapM_rebuild_returns (htyped : o.plain.WellTyped) (hclean : o.plain.Clean none) :
    (o.mapM (rec d) >>= fun o' => pure (o'.rebuild o.plain)).Returns s (Result ρ s o.plain) := by
  have hkids := (Operation.plain_wellTyped htyped).1
  have hkidsc := (clean_hereditary none).plain_operands hclean
  refine (mapM_returns hs fun e he s hs => hrec d e s (hkids e he) (hkidsc e he) hs).bind
    fun o' s' hall => .pure ⟨hall.sound, hall.grows, ?_⟩
  rw [hall.operation]
  exact .rebuild htyped hclean hall.same

lemma division_returns (htyped : (binary op l r).WellTyped) (hclean : (binary op l r).Clean none) :
    (protectedDivOperation rec d op l r).Returns s (Result ρ s (binary op l r)) := by
  refine (hrec d l s htyped.1 hclean.2.1 hs).bind fun l' s₁ h₁ => ?_
  refine (hrec true r s₁ htyped.2.1 hclean.2.2 h₁.sound).bind fun r' s₂ h₂ => .pure ?_
  refine ⟨h₂.sound, h₁.grows.trans h₂.grows, .division htyped hclean h₁.same ?_⟩
  split
  · exact ⟨hclean.2.2, htyped.2.1, rfl, fun _ _ => rfl⟩
  · exact h₂.same

lemma visitOperation_returns (htyped : o.plain.WellTyped) (hclean : o.plain.Clean none) :
    (visitOperation rec d o).Returns s (Result ρ s o.plain) := by
  unfold visitOperation
  split
  · exact .pure ⟨hs, fun _ _ => id, .create htyped hclean⟩
  split
  · split
    · exact division_returns hrec hs htyped hclean
    · exact mapM_rebuild_returns hrec hs htyped hclean
  · exact mapM_rebuild_returns hrec hs htyped hclean

lemma visitActual_returns (hρ : asg.zeroFilled = ρ) (h : asg.Extends asg.zeroFilled)
    (htyped : e.WellTyped) (hclean : e.Clean none) :
    (visitActual true asg rec d e).Returns s (Result ρ s e) := by
  have hself : Same ρ e e := ⟨hclean, htyped, rfl, fun _ _ => rfl⟩
  cases e using Expr.operationRec with
  | constant | qvar => exact .pure ⟨hs, fun _ _ => id, hself⟩
  | all => exact hclean.elim
  | operation o =>
    have hplain : visitActual true asg rec d o.plain = visitOperation rec d o := by cases o <;> rfl
    rw [hplain]
    exact visitOperation_returns hrec hs htyped hclean
  | read u i =>
    refine (hrec d i s htyped.2.1 hclean.2 hs).bind fun i' s₁ h₁ => ?_
    have hi := h₁.same.denotes
    rw [htyped.2.2] at hi
    split
    · next n j hconst =>
      -- the index is a constant now
      obtain ⟨rfl, hvalue⟩ := hi.asConstant_some hconst
      rw [← hvalue ρ rfl]
      exact (evalRead_returns hρ h hrec htyped hclean u (.refl u) h₁.sound).mono fun e' s₂ h₂ =>
        ⟨h₂.sound, h₁.grows.trans h₂.grows, h₂.same⟩
    · refine .pure ⟨h₁.sound, h₁.grows, ?_⟩
      split
      · exact hself
      · exact .read (readCreate_clean hclean.1 h₁.same.clean)
          (readCreate_denotes htyped.1 hclean.1 hi h₁.same.clean) rfl

end

end Visit

section
variable (h : asg.Extends asg.zeroFilled) (fuel : Nat)
include h

lemma visit_returns :
    ∀ d e s, e.WellTyped → e.Clean none → Sound asg.zeroFilled s →
      (visit true asg fuel d e).Returns s (After asg.zeroFilled s e) := by
  induction fuel with
  | zero => nofun
  | succ fuel ih =>
    intro d e s htyped hclean hs
    rw [visit]
    split
    · next hconst =>
      exact .pure ⟨hs, fun _ _ => id, ⟨hclean, htyped, rfl, fun _ _ => rfl⟩, by rw [if_pos hconst]⟩
    rename_i hconst
    refine .bind .ofGet ?_
    rintro _ _ ⟨rfl, rfl⟩
    split
    · next e' hfound => exact .pure ⟨hs, fun _ _ => id, hs e e' hfound, by rwa [if_neg hconst]⟩
    rename_i hmiss
    refine (visitActual_returns ih hs rfl h htyped hclean).bind fun e' s₁ h₁ => ?_
    refine (VisitM.Returns.ofModify _).bind fun _ s₂ hs₂ => .pure ?_
    subst hs₂
    have hhere : ((e, e') :: s₁).lookup e = some e' := by simp
    have hother : ∀ k, k ≠ e → ((e, e') :: s₁).lookup k = s₁.lookup k := fun k hk => by
      rw [lookup_cons, beq_false_of_ne hk]
    refine ⟨fun k k' hk => ?_, fun k k' hk => ?_, h₁.same, by rwa [if_neg hconst]⟩
    · by_cases hke : k = e
      · subst hke
        rw [hhere, Option.some.injEq] at hk
        exact hk ▸ h₁.same
      · exact h₁.sound k k' (hother k hke ▸ hk)
    · have hke : k ≠ e := by
        rintro rfl
        rw [hmiss] at hk
        cases hk
      rw [hother k hke]
      exact h₁.grows k k' hk

lemma satisfiesFrom_returns :
    ∀ cs : List Expr, (∀ c ∈ cs, c.WellTyped ∧ c.width = 1) → (∀ c ∈ cs, c.Clean none) →
      ∀ s, Sound asg.zeroFilled s → (satisfiesFrom true asg fuel cs).Returns s
        fun b _ => b = true → ∀ c ∈ cs, c.Holds asg.zeroFilled := by
  intro cs
  induction cs with
  | nil => exact fun _ _ s _ => .pure (by simp)
  | cons c rest ih =>
    intro typed clean s hs
    obtain ⟨⟨hct, hcw⟩, typed⟩ := forall_mem_cons.1 typed
    obtain ⟨hcc, clean⟩ := forall_mem_cons.1 clean
    refine (visit_returns h fuel false c s hct hcc hs).bind fun c' s₁ h₁ => ?_
    split
    · next htrue =>
      refine (ih typed clean s₁ h₁.sound).mono fun b _ hall hb k hk => ?_
      rcases mem_cons.1 hk with rfl | hk
      · have hvalue := h₁.same.denotes
        rw [hcw, htrue] at hvalue
        exact (hvalue.value _ rfl).symm
      · exact hall hb k hk
    · exact .pure (by simp)

end

end Sound

lemma Assignment.extends_zeroFilled {asg : Assignment}
    (h : ∀ p ∈ asg.bindings, p.1.1.isSymbolic = true) : asg.Extends asg.zeroFilled := by
  intro array index value hbound
  obtain ⟨l₁, l₂, heq, -⟩ := lookup_eq_some_iff.1 hbound
  have hsym := h ((array, index), value) (by simp [heq])
  cases array with
  | symbolic n =>
    show (asg.lookup _ _).getD 0 = value
    rw [hbound]
    rfl
  | _ => cases hsym

/-! ## A divisor -/

/-- `a[0] < 5` and `10 == 10 / (1 + a[0])`, for `a` the symbolic array 0. -/
def foundBefore : List Expr :=
  [.cmp .ult (read (.root (.symbolic 0)) (constant 32 0)) (constant 8 5),
    .cmp .eq (constant 8 10) (binary .udiv (constant 8 10) (binary .add (constant 8 1)
      (read (.root (.symbolic 0)) (constant 32 0))))]

def unboundDivisor : List Expr :=
  [.cmp .eq (constant 8 0) (read (.root (.symbolic 0)) (constant 32 0)),
    .cmp .eq (constant 8 5) (binary .udiv (constant 8 10) (binary .add (constant 8 1)
      (read (.byteUpdate (zext (read (.root (.symbolic 1)) (constant 32 0)) 32) (constant 8 7) trueExpr
        (.root (.symbolic 0))) (constant 32 0))))]

end InputCovSched.Klee
