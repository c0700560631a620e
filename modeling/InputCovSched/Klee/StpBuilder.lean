import InputCovSched.Klee.FindReads

/-!
# Queries for the solver (`STPBuilder.cpp`)

`construct` translates an expression and, for every read of a constrained array that it comes
across, instantiates the formula of the array at the index of the read. Translated expressions and
instantiated arrays are kept for one query, translated update nodes (`un->stpArray`) for as long as
the node lives: the contents of a node that an earlier query has translated are not visited again,
and nothing is instantiated for them.

A translated expression stands for its translation. Arrays that compare equal are one array.
-/

namespace InputCovSched.Klee

open UpdateList

open Klee.Expr List

def Update.contents : Update → List Expr
  | .byte index value guard => [index, value, guard]
  | .multi _ guard => [guard]

/-- `Array::getConstraint()`, instantiated: `array[index] == valueExpr`, or the next array's value
where the guard does not hold. -/
def KleeArray.instantiate (array : KleeArray) (index : Expr) : Expr :=
  match array with
  | .function q valueExpr =>
    replaceVisit (qvar q 32) index false (eqCreate (read (.root array) (qvar q 32)) valueExpr)
  | .guarded q valueExpr guard nextSrc =>
    replaceVisit (qvar q 32) index false
      (selectCreate guard (eqCreate (read (.root array) (qvar q 32)) valueExpr)
        (eqCreate (read (.root array) (qvar q 32)) (read nextSrc (qvar q 32))))
  | .symbolic _ | .constantValues _ => trueExpr

/-- How a translation ends that does not return. -/
inductive Halt where
  | fuel
  | assertion
  deriving DecidableEq

structure Builder (A : Type) where
  constructed : List Expr := []
  done : List (KleeArray × Expr) := []
  cached : List A := []
  /-- `_assumptions`, the last one first -/
  assumptions : List Expr := []
  /-- what was given to `vc_assertFormula` for this query -/
  asserted : List Expr := []

/-- A query, with the addresses of the update nodes under its reads. -/
structure StpQuery (A : Type) where
  constraints : ConstraintManager
  expr : Expr
  chain : UpdateList → Expr → List (A × Update)
  chain_nodes : ∀ u i, (chain u i).map Prod.snd = u.nodes
  /-- a node has one next node -/
  chain_next : ∀ {u i u' i' p x t p' x' t'}, chain u i = p ++ x :: t → chain u' i' = p' ++ x' :: t' →
    x.1 = x'.1 → x :: t = x' :: t'

def Operation.constructOrder : Operation → List Expr
  | .concat l r => [r, l]
  | .binary .mul l r => [r, l]
  | o => o.operands

/-- The kinds that `constructActual` knows, as `create` leaves them. -/
def Operation.isCanonical : Operation → Bool
  | .binary op l _ => op == .and || op == .or || op == .xor || l.width != 1
  | .cmp .eq _ _ => true
  | .cmp .ult l _ | .cmp .ule l _ | .cmp .slt l _ | .cmp .sle l _ => l.width != 1
  | .cmp _ _ _ => false
  | _ => true

namespace Builder

variable {A : Type} [DecidableEq A]

section Construct

variable (rec : Expr → Builder A → Except Halt (Builder A))

/-- One array under a read; an array that is not constrained has no trigger. -/
def processArrayReadTriggers (index : Expr) (s : Builder A) (array : KleeArray) :
    Except Halt (Builder A) :=
  if array.isConstrained && decide ((array, index) ∉ s.done) then do
    let s ← rec (array.instantiate index) { s with done := (array, index) :: s.done }
    return { s with assumptions := array.instantiate index :: s.assumptions }
  else return s

/-- The array after one update. -/
def buildNode (node : A × Update) (s : Builder A) : Except Halt (Builder A) := do
  let s ← node.2.contents.foldlM (fun s e => rec e s) s
  return { s with cached := node.1 :: s.cached }

/-- The updates younger than the youngest that is cached, the oldest of them first; then the index,
and all arrays under the read. -/
def constructReadExpr (chain : List (A × Update)) (u : UpdateList) (index : Expr) (s : Builder A) :
    Except Halt (Builder A) := do
  let s ← (chain.takeWhile (·.1 ∉ s.cached)).foldrM (buildNode rec) s
  let s ← rec index s
  u.arrays.foldlM (processArrayReadTriggers rec index) s

def constructActual (q : StpQuery A) (s : Builder A) : Expr → Except Halt (Builder A)
  | .read u index => constructReadExpr rec (q.chain u index) u index s
  | .qvar _ _ | .all _ _ _ => throw .assertion
  | e =>
    match e.asOperation with
    | some o =>
      if o.isCanonical then o.constructOrder.foldlM (fun s e => rec e s) s else throw .assertion
    | none => return s

end Construct

def construct (q : StpQuery A) : Nat → Expr → Builder A → Except Halt (Builder A)
  | 0, _, _ => throw .fuel
  | fuel + 1, e, s =>
    if e.isConstant || decide (e ∈ s.constructed) then return s
    else do
      let s ← constructActual (construct q fuel) q s e
      return { s with constructed := e :: s.constructed }

def drain (s : Builder A) : Builder A :=
  { s with asserted := s.assumptions ++ s.asserted, assumptions := [] }

def isForall : Expr → Bool
  | .all _ _ _ => true
  | _ => false

def assertTerm (q : StpQuery A) (fuel : Nat) (s : Builder A) (e : Expr) : Except Halt (Builder A) :=
  if isForall e then return s
  else do
    let s ← construct q fuel e s
    return { s with asserted := e :: s.asserted }

def assertAssumptions (q : StpQuery A) (fuel : Nat) (s : Builder A) : Except Halt (Builder A) := do
  let s ← q.constraints.terms.foldlM (assertTerm q fuel) s
  return s.drain

/-- The terms of the query that are translated. -/
def queryTerms (e : Expr) : List Expr :=
  if e.width ≠ 1 then [e]
  else
    match e with
    | .cmp .eq l r => if l = falseExpr then r.naryTerms .and else (cmp .eq l r).naryTerms .and
    | e => e.naryTerms .and

section
variable (q : StpQuery A) (fuel : Nat)

def constructTerm (s : Builder A) (e : Expr) : Except Halt (Builder A) :=
  if isForall e then return s else construct q fuel e s

def constructQuery (s : Builder A) : Except Halt (Builder A) := do
  let s ← (queryTerms q.expr).foldlM (constructTerm q fuel) s
  return s.drain

/-- `pushQuery`, after the caches were cleared; of the last query only the nodes' arrays are left. -/
def pushQuery (cached : List A) : Except Halt (Builder A) := do
  let s ← assertAssumptions q fuel { cached := cached }
  constructQuery q fuel s

end

/-- One query after the other: the nodes that were cached before each, and what was asserted. -/
def answers (fuel : Nat) : List (StpQuery A) → List A → Except Halt (List (List A × List Expr))
  | [], _ => return []
  | q :: qs, cached => do
    let s ← pushQuery q fuel cached
    let rest ← answers fuel qs s.cached
    return (cached, s.asserted) :: rest

end Builder

/-! ## What occurs in a query -/

namespace StpQuery

variable {A : Type} [DecidableEq A] (q : StpQuery A)

def roots : List Expr :=
  (q.constraints.terms ++ Builder.queryTerms q.expr).filter (!Builder.isForall ·)

/-- What occurs in the query, with the instances of the arrays that it reads, but for the contents of
the nodes in `hidden` and of those behind them. -/
inductive Occurs (hidden : List A) : Expr → Prop
  | root {e} : e ∈ q.roots → Occurs hidden e
  | kid {e k} : Occurs hidden e → k ∈ e.kids → Occurs hidden k
  | content {u i x c} : Occurs hidden (read u i) →
    x ∈ (q.chain u i).takeWhile (·.1 ∉ hidden) → c ∈ x.2.contents → Occurs hidden c
  | inst {u i a} : Occurs hidden (read u i) → a ∈ u.arrays → a.isConstrained = true →
    Occurs hidden (a.instantiate i)

def Reads (hidden : List A) (a : KleeArray) (i : Expr) : Prop :=
  a.isConstrained = true ∧ ∃ u, q.Occurs hidden (read u i) ∧ a ∈ u.arrays

/-- There is an instance for every read of a constrained array anywhere in the query. -/
def Instantiated (asserted : List Expr) : Prop :=
  ∀ a i, q.Reads [] a i → a.instantiate i ∈ asserted

def Covered (cached : List A) : Prop := ∀ a i, q.Reads [] a i → q.Reads cached a i

end StpQuery

/-! ## Ranks -/

mutual

/-- How deep constrained arrays are nested. -/
def Expr.rank : Expr → Nat
  | .constant _ _ => 0
  | .notOptimized e => e.rank
  | .read u i => max u.rank i.rank
  | .select c t f => max c.rank (max t.rank f.rank)
  | .concat l r => max l.rank r.rank
  | .extract e _ _ => e.rank
  | .zext e _ => e.rank
  | .sext e _ => e.rank
  | .not e => e.rank
  | .binary _ l r => max l.rank r.rank
  | .cmp _ l r => max l.rank r.rank
  | .implies l r => max l.rank r.rank
  | .qvar _ _ => 0
  | .all _ _ e => e.rank

def UpdateList.rank : UpdateList → Nat
  | .root a => a.rank
  | .byteUpdate index value guard next =>
    max (max index.rank value.rank) (max guard.rank next.rank)
  | .multiUpdate src guard next => max src.rank (max guard.rank next.rank)

def KleeArray.rank : KleeArray → Nat
  | .symbolic _ => 0
  | .constantValues _ => 0
  | .function _ valueExpr => valueExpr.rank + 1
  | .guarded _ valueExpr guard nextSrc => max valueExpr.rank (max guard.rank nextSrc.rank) + 1

end

variable {o : Operation}

lemma Operation.rank_operand (he : e ∈ o.operands) : e.rank ≤ o.plain.rank := by
  cases o with
  | select c t f =>
    simp only [operands, mem_cons, not_mem_nil, or_false] at he
    rcases he with rfl | rfl | rfl <;> simp [plain, Expr.rank]
  | notOptimized k | extract k | zext k | sext k | not k =>
    simp only [operands, mem_cons, not_mem_nil, or_false] at he
    subst he
    exact le_rfl
  | concat l r | binary _ l r | cmp _ l r | implies l r =>
    simp only [operands, mem_cons, not_mem_nil, or_false] at he
    rcases he with rfl | rfl <;> simp [plain, Expr.rank]

lemma UpdateList.rank_contents (u : UpdateList) : ∀ node ∈ u.nodes,
    c ∈ node.contents → c.rank ≤ u.rank := by
  intro node hnode hc
  cases u with
  | root _ => cases hnode
  | byteUpdate index value guard next =>
    rcases mem_cons.1 hnode with rfl | hnode
    · simp only [Update.contents, mem_cons, not_mem_nil, or_false] at hc
      rcases hc with rfl | rfl | rfl <;> simp [rank]
    have hnext := next.rank_contents node hnode hc
    simp only [rank]
    omega
  | multiUpdate src guard next =>
    rcases mem_cons.1 hnode with rfl | hnode
    · simp only [Update.contents, mem_cons, not_mem_nil, or_false] at hc
      subst hc
      simp [rank]
    have hnext := next.rank_contents node hnode hc
    simp only [rank]
    omega

variable {guard : Expr} {next : UpdateList}

lemma UpdateList.mem_arrays_byteUpdate {index value : Expr} :
    a ∈ (byteUpdate index value guard next).arrays ↔ a ∈ next.arrays := by
  simp [arrays, nodes, rootArray]

lemma UpdateList.mem_arrays_multiUpdate {src : KleeArray} :
    a ∈ (multiUpdate src guard next).arrays ↔ a = src ∨ a ∈ next.arrays := by
  simp [arrays, nodes, rootArray, or_left_comm]

lemma UpdateList.rank_arrays : (u : UpdateList) → a ∈ u.arrays →
    a.rank ≤ u.rank
  | .root a', h => by
    obtain rfl : a = a' := by simpa [arrays, nodes, rootArray] using h
    exact le_rfl
  | .byteUpdate _ _ _ next, h => by
    have hnext := next.rank_arrays (mem_arrays_byteUpdate.1 h)
    simp only [rank]
    omega
  | .multiUpdate src guard next, h => by
    rcases mem_arrays_multiUpdate.1 h with rfl | h
    · simp [rank]
    have hnext := next.rank_arrays h
    simp only [rank]
    omega

lemma UpdateList.contents_mass (x : Nat) (u : UpdateList) : ∀ node ∈ u.nodes,
    c ∈ node.contents → c.mass < u.weight x fun _ => 0 := by
  intro node hnode hc
  cases u with
  | root _ => cases hnode
  | byteUpdate index value guard next =>
    have hpos := next.lt_weight x fun _ => 0
    rcases mem_cons.1 hnode with rfl | hnode
    · simp only [Update.contents, mem_cons, not_mem_nil, or_false] at hc
      rcases hc with rfl | rfl | rfl <;> simp only [weight, mass] <;> omega
    · exact (next.contents_mass x node hnode hc).trans_le (Nat.le_add_left _ _)
  | multiUpdate src guard next =>
    have hpos := next.lt_weight x fun _ => 0
    have hsrc := src.lt_weight x fun _ => 0
    rcases mem_cons.1 hnode with rfl | hnode
    · simp only [Update.contents, mem_cons, not_mem_nil, or_false] at hc
      subst hc
      simp only [weight, mass]
      omega
    · exact (next.contents_mass x node hnode hc).trans_le (Nat.le_add_left _ _)

/-! ## What can be translated with arrays of a lower rank -/

section Fine

variable {C C' : Expr → Prop} {D : KleeArray → Expr → Prop} {r : Nat} {e i : Expr} {u : UpdateList}
  {a : KleeArray}

/-- All reads satisfy `R`, which is told whether those in the index do. -/
def Expr.Reading (R : UpdateList → Expr → Prop → Prop) : Expr → Prop
  | .constant _ _ | .qvar _ _ => True
  | .read u i => R u i (i.Reading R)
  | .select c t f => c.Reading R ∧ t.Reading R ∧ f.Reading R
  | .concat l r | .binary _ l r | .cmp _ l r | .implies l r => l.Reading R ∧ r.Reading R
  | .notOptimized e | .extract e _ _ | .zext e _ | .sext e _ | .not e | .all _ _ e => e.Reading R

lemma reading_hereditary (R : UpdateList → Expr → Prop → Prop) : Hereditary (Expr.Reading R) where
  constant _ _ := trivial
  notOptimized := Iff.rfl
  select := Iff.rfl
  concat := Iff.rfl
  extract := Iff.rfl
  zext := Iff.rfl
  sext := Iff.rfl
  not := Iff.rfl
  cmp := Iff.rfl
  implies := Iff.rfl
  operands := id
  binary _ hl hr := ⟨hl, hr⟩

lemma Expr.Reading.plain {R : UpdateList → Expr → Prop → Prop}
    (h : ∀ e ∈ o.operands, e.Reading R) : o.plain.Reading R := by
  cases o <;> simpa [Operation.operands, Operation.plain, Reading] using h

/-- Every read was translated, or is of arrays of a rank below `r`, or of an array that is done at
this index. -/
abbrev Expr.Fine (C : Expr → Prop) (D : KleeArray → Expr → Prop) (r : Nat) : Expr → Prop :=
  Expr.Reading fun u i ih => C (read u i) ∨ ih ∧ (u.rank < r ∨ ∃ a, u = .root a ∧ D a i)

lemma Expr.Fine.mono (hC : ∀ e, C e → C' e) (hD : ∀ a i, D a i → D' a i) (e : Expr)
    (h : e.Fine C D r) : e.Fine C' D' r := by
  induction e using Expr.operationRec with
  | constant | qvar => trivial
  | read u i ih =>
    rcases h with h | ⟨hi, h⟩
    · exact .inl (hC _ h)
    · exact .inr ⟨ih hi, h.imp_right fun ⟨a, hu, ha⟩ => ⟨a, hu, hD a i ha⟩⟩
  | operation o ih =>
    exact .plain fun e he => ih e he ((reading_hereditary _).plain_operands h e he)
  | all name w e ih => exact ih h

lemma Expr.fine_of_rank (e : Expr) (h : e.rank < r) : e.Fine C D r := by
  induction e using Expr.operationRec with
  | constant | qvar => trivial
  | read u i ih =>
    simp only [rank] at h
    exact .inr ⟨ih (by omega), .inl (by omega)⟩
  | operation o ih =>
    refine .plain fun e he => ih e he ?_
    have := Operation.rank_operand he
    omega
  | all name w e ih => exact ih h

lemma readFrom_fine {whole : UpdateList} (hwhole : whole.rank < r) (hi : i.Fine C D r) :
    (u : UpdateList) → u.rank < r → (readFrom whole i u).Fine C D r
  | .root a, h => .inr ⟨hi, .inl h⟩
  | .byteUpdate j value guard next, h => by
    simp only [UpdateList.rank] at h
    rw [readFrom]
    split
    · split
      · exact value.fine_of_rank (by omega)
      · exact readFrom_fine hwhole hi next (by omega)
    · exact .inr ⟨hi, .inl hwhole⟩
  | .multiUpdate _ _ _, _ => .inr ⟨hi, .inl hwhole⟩

/-- The formula of an array, before it is instantiated: the array itself is read at its variable
only, the other arrays in it have a lower rank. -/
abbrev Expr.Formula (a : KleeArray) (q : Nat) : Expr → Prop :=
  Expr.Reading fun u i _ => (u = .root a ∧ i = qvar q 32) ∨ (u.rank < a.rank ∧ i.rank < a.rank)

lemma Expr.formula_of_rank (e : Expr) (h : e.rank < a.rank) : e.Formula a q := by
  induction e using Expr.operationRec with
  | constant | qvar => trivial
  | read u i ih =>
    simp only [rank] at h
    exact .inr ⟨by omega, by omega⟩
  | operation o ih =>
    exact .plain fun e he => ih e he ((Operation.rank_operand he).trans_lt h)
  | all name w e ih => exact ih h

lemma Expr.Formula.replaceVisit (hi : i.Fine C D a.rank) (ha : D a i) (e : Expr)
    (h : e.Formula a q) : (replaceVisit (qvar q 32) i false e).Fine C D a.rank := by
  have hnode : ∀ {e rebuilt}, Expr.Fine C D a.rank rebuilt →
      (replaceNode (qvar q 32) i false e rebuilt).Fine C D a.rank := by
    intro e rebuilt hre
    unfold replaceNode
    split
    · exact hi
    split
    · exact hi
    · exact hre
  induction e using Expr.operationRec with
  | constant => trivial
  | qvar name w =>
    rw [Klee.replaceVisit]
    split
    · exact hi
    · trivial
  | read u j ih =>
    refine hnode ?_
    rcases h with ⟨rfl, rfl⟩ | ⟨hu, hj⟩
    · -- the array itself
      have hvar : Klee.replaceVisit (qvar q 32) i false (qvar q 32) = i := if_pos rfl
      rw [hvar]
      split
      · next hsame => exact hsame ▸ .inr ⟨hi, .inr ⟨a, rfl, ha⟩⟩
      · exact .inr ⟨hi, .inr ⟨a, rfl, ha⟩⟩
    · have hj' := ih (j.formula_of_rank hj)
      split
      · next hsame => exact .inr ⟨hsame ▸ hj', .inl hu⟩
      · exact readFrom_fine hu hj' u hu
  | operation o ih =>
    rw [replaceVisit_plain]
    have hkids := (reading_hereditary _).plain_operands h
    have hmap : ∀ e ∈ (o.map (Klee.replaceVisit (qvar q 32) i false)).operands,
        e.Fine C D a.rank := by
      rw [o.operands_map]
      intro e he
      obtain ⟨k, hk, rfl⟩ := mem_map.1 he
      exact ih k hk (hkids k hk)
    refine hnode ?_
    unfold Operation.rebuild
    split
    · next hsame => exact hsame ▸ .plain hmap
    · exact Operation.create_keeps (reading_hereditary _) hmap
  | all name w e ih =>
    refine hnode ?_
    split
    · next hsame => exact hsame ▸ ih h
    unfold forallCreate
    split
    · exact ih h
    · exact ih h

lemma KleeArray.instantiate_fine (hi : i.Fine C D a.rank) (ha : D a i) :
    (a.instantiate i).Fine C D a.rank := by
  have hself : ∀ q, (Expr.read (.root a) (qvar q 32)).Formula a q := fun q => .inl ⟨rfl, rfl⟩
  have heq : ∀ {q l r}, Expr.Formula a q l → Expr.Formula a q r → Expr.Formula a q (eqCreate l r) := by
    intro q l r hl hr
    exact Operation.create_keeps (o := .cmp .eq l r) (reading_hereditary _)
      (by simpa [Operation.operands] using ⟨hl, hr⟩)
  cases a with
  | symbolic | constantValues => trivial
  | function q valueExpr =>
    refine Expr.Formula.replaceVisit hi ha _ (heq (hself q) (valueExpr.formula_of_rank ?_))
    exact Nat.lt_succ_self _
  | guarded q valueExpr guard nextSrc =>
    refine Expr.Formula.replaceVisit hi ha _ ?_
    have hv : valueExpr.rank < (KleeArray.guarded q valueExpr guard nextSrc).rank := by
      simp only [rank]
      omega
    have hg : guard.rank < (KleeArray.guarded q valueExpr guard nextSrc).rank := by
      simp only [rank]
      omega
    have hn : (Expr.read nextSrc (qvar q 32)).rank <
        (KleeArray.guarded q valueExpr guard nextSrc).rank := by
      simp only [rank, Expr.rank]
      omega
    refine Operation.create_keeps (o := .select guard _ _) (reading_hereditary _) ?_
    simpa [Operation.operands] using ⟨guard.formula_of_rank hg,
      heq (hself q) (valueExpr.formula_of_rank hv), heq (hself q) (Expr.formula_of_rank _ hn)⟩

end Fine

/-! ## Invariants of a query -/

namespace Builder

section Later

variable {A : Type} {s s' : Builder A} {e : Expr} {r : Nat}

/-- Constants are not put into the cache. -/
def Known (s : Builder A) (e : Expr) : Prop := e.isConstant = true ∨ e ∈ s.constructed

def Produced (s : Builder A) (e : Expr) : Prop := e ∈ s.assumptions ∨ e ∈ s.asserted

/-- The instance is there, and was translated. -/
def Finished (s : Builder A) (x : KleeArray × Expr) : Prop :=
  s.Produced (x.1.instantiate x.2) ∧ s.Known (x.1.instantiate x.2)

/-- What an expression needs to be translated now. -/
abbrev Ready (s : Builder A) (r : Nat) (e : Expr) : Prop :=
  e.Fine (· ∈ s.constructed) (fun a i => (a, i) ∈ s.done) r

/-- `s'` comes later in the query. -/
structure Later (s s' : Builder A) : Prop where
  constructed : s.constructed ⊆ s'.constructed
  done : s.done ⊆ s'.done
  produced : ∀ e, s.Produced e → s'.Produced e
  finished : ∀ x ∈ s'.done, x ∈ s.done ∨ s'.Finished x

lemma Later.known (h : Later s s') (he : s.Known e) : s'.Known e := he.imp_right (h.constructed ·)

lemma Later.ready (h : Later s s') (he : s.Ready r e) : s'.Ready r e :=
  he.mono (fun _ hx => h.constructed hx) fun _ _ hx => h.done hx

lemma Later.refl (s : Builder A) : Later s s :=
  ⟨fun _ => id, fun _ => id, fun _ => id, fun _ => .inl⟩

lemma Later.trans (h : Later s s') (h' : Later s' s'') : Later s s'' where
  constructed _ hx := h'.constructed (h.constructed hx)
  done _ hx := h'.done (h.done hx)
  produced e he := h'.produced e (h.produced e he)
  finished x hx := by
    rcases h'.finished x hx with hx | hx
    · exact (h.finished x hx).imp_right fun ⟨hinst, hknown⟩ =>
        ⟨h'.produced _ hinst, h'.known hknown⟩
    · exact .inr hx

lemma Later.drain (s : Builder A) : Later s s.drain where
  constructed _ := id
  done _ := id
  produced _ he := .inr (mem_append.2 he)
  finished _ := .inl

end Later

variable {A : Type} [DecidableEq A] {q : StpQuery A} {hidden : List A} {s s' : Builder A}
  {e i : Expr} {u : UpdateList} {a : KleeArray} {r : Nat}

def KnowsNodes (hidden : List A) (s : Builder A) (chain : List (A × Update)) : Prop :=
  ∀ x ∈ chain.takeWhile (·.1 ∉ hidden), ∀ c ∈ x.2.contents, s.Known c

/-- What is known about the parts of a translated expression. -/
def Complete (q : StpQuery A) (hidden : List A) (s : Builder A) : Expr → Prop
  | .read u i =>
    s.Known i ∧ (∀ a ∈ u.arrays, a.isConstrained = true → (a, i) ∈ s.done) ∧
      KnowsNodes hidden s (q.chain u i)
  | .qvar _ _ | .all _ _ _ => False
  | e => ∀ k ∈ e.kids, s.Known k

/-- `hidden` are the nodes that were cached before the query. -/
structure Inv (q : StpQuery A) (hidden : List A) (s : Builder A) : Prop where
  cached : hidden ⊆ s.cached
  complete : ∀ e ∈ s.constructed, Complete q hidden s e
  /-- a node that this query has cached -/
  nodes : ∀ {u i p x t}, q.chain u i = p ++ x :: t → x.1 ∈ s.cached → x.1 ∉ hidden →
    KnowsNodes hidden s (x :: t)

lemma KnowsNodes.mono {chain : List (A × Update)} (hknown : ∀ e, s.Known e → s'.Known e)
    (h : KnowsNodes hidden s chain) : KnowsNodes hidden s' chain :=
  fun x hx c hc => hknown c (h x hx c hc)

lemma Complete.mono (hknown : ∀ e, s.Known e → s'.Known e) (hdone : s.done ⊆ s'.done)
    (h : Complete q hidden s e) : Complete q hidden s' e := by
  cases e with
  | read u i =>
    obtain ⟨hi, harrays, hnodes⟩ := h
    exact ⟨hknown i hi, fun a ha hcon => hdone (harrays a ha hcon), hnodes.mono hknown⟩
  | qvar | all => exact h
  | _ => exact fun k hk => hknown k (h k hk)

lemma Inv.of_eq (h : Inv q hidden s) (hcons : s'.constructed = s.constructed)
    (hcached : s'.cached = s.cached) (hdone : s.done ⊆ s'.done) : Inv q hidden s' := by
  have hknown : ∀ e, s.Known e → s'.Known e := fun e he => he.imp_right (hcons ▸ ·)
  refine ⟨hcached ▸ h.cached, ?_, ?_⟩
  · intro e he
    exact (h.complete e (hcons ▸ he)).mono hknown hdone
  · intro u i p x t hchain hx hhid
    exact (h.nodes hchain (hcached ▸ hx) hhid).mono hknown

lemma Inv.ready (h : Inv q hidden s) (r : Nat) (e : Expr) (he : s.Known e) : s.Ready r e := by
  induction e using Expr.operationRec with
  | constant | qvar => trivial
  | read u i ih => exact .inl (he.resolve_left (by simp [isConstant]))
  | operation o ih =>
    have hmem : o.plain ∈ s.constructed :=
      he.resolve_left (by cases o <;> simp [Operation.plain, isConstant])
    have hkids : ∀ k ∈ o.plain.kids, s.Known k := by
      have hcomplete := h.complete _ hmem
      cases o <;> exact hcomplete
    exact .plain fun k hk => ih k hk (hkids k (by rwa [kids_plain]))
  | all name w e ih => exact (h.complete _ (he.resolve_left (by simp [isConstant]))).elim

/-! ## One translation -/

structure Builds (q : StpQuery A) (hidden : List A) (s : Builder A) (e : Expr) (s' : Builder A) :
    Prop where
  inv : Inv q hidden s'
  later : Later s s'
  known : s'.Known e

def Translates (q : StpQuery A) (hidden : List A) (r : Nat) (e : Expr) : Prop :=
  ∀ s, Inv q hidden s → s.Ready r e → Ends .fuel (construct q · e s) (Builds q hidden s e)

section
variable (hinv : Inv q hidden s)
include hinv

lemma foldlM_ends (es : List Expr) (hready : ∀ e ∈ es, s.Ready r e)
    (hes : ∀ e ∈ es, Translates q hidden r e) :
    Ends .fuel (fun fuel => es.foldlM (fun s e => construct q fuel e s) s)
      fun s' => Inv q hidden s' ∧ Later s s' ∧ ∀ e ∈ es, s'.Known e := by
  refine .foldlM (I := fun done s' => Inv q hidden s' ∧ Later s s' ∧ ∀ e ∈ done, s'.Known e) es
    ?_ [] s ⟨hinv, .refl s, by simp⟩
  rintro done s₁ e he ⟨hinv₁, hlater₁, hdone⟩
  refine (hes e he s₁ hinv₁ (hlater₁.ready (hready e he))).mono fun s₂ h => ⟨h.inv, ?_, ?_⟩
  · exact hlater₁.trans h.later
  · intro k hk
    rcases mem_append.1 hk with hk | hk
    · exact h.later.known (hdone k hk)
    · rw [mem_singleton.1 hk]
      exact h.known

lemma nodes_ends (hchain : q.chain u i = p ++ l)
    (hready : ∀ x ∈ l, ∀ c ∈ x.2.contents, s.Ready r c)
    (hes : ∀ x ∈ l, ∀ c ∈ x.2.contents, Translates q hidden r c) :
    Ends .fuel (fun fuel => (l.takeWhile (·.1 ∉ s.cached)).foldrM (buildNode (construct q fuel)) s)
      fun s' => Inv q hidden s' ∧ Later s s' ∧ KnowsNodes hidden s' l := by
  induction l generalizing p with
  | nil => exact .ok ⟨hinv, .refl s, by simp [KnowsNodes]⟩
  | cons x t ih =>
    by_cases hx : x.1 ∈ s.cached
    · simp only [takeWhile_cons, hx, not_true_eq_false, decide_false, Bool.false_eq_true,
        if_false, foldrM_nil]
      refine .ok ⟨hinv, .refl s, ?_⟩
      by_cases hhid : x.1 ∈ hidden
      · simp [KnowsNodes, hhid]
      · exact hinv.nodes hchain hx hhid
    have hhid : x.1 ∉ hidden := fun h => hx (hinv.cached h)
    simp only [takeWhile_cons, hx, not_false_eq_true, decide_true, if_true, foldrM_cons]
    have hchain' : q.chain u i = (p ++ [x]) ++ t := by simp [hchain]
    refine (ih hchain' (fun y hy => hready y (mem_cons_of_mem x hy))
      fun y hy => hes y (mem_cons_of_mem x hy)).bind fun s₁ ⟨hinv₁, hlater₁, ht⟩ => ?_
    refine (foldlM_ends hinv₁ x.2.contents (fun c hc => hlater₁.ready (hready x mem_cons_self c hc))
      (hes x mem_cons_self)).bind fun s₂ ⟨hinv₂, hlater₂, hcontents⟩ => .ok ?_
    have hknows : KnowsNodes hidden s₂ (x :: t) := by
      intro y hy
      simp only [takeWhile_cons, hhid, not_false_eq_true, decide_true, if_true, mem_cons] at hy
      rcases hy with rfl | hy
      · exact hcontents
      · exact fun c hc => hlater₂.known (ht y hy c hc)
    refine ⟨⟨?_, ?_, ?_⟩, hlater₁.trans ⟨?_, ?_, ?_, ?_⟩, hknows⟩
    · exact fun y hy => mem_cons_of_mem _ (hinv₂.cached hy)
    · exact hinv₂.complete
    · intro u' i' p' y t' hchain₂ hy hyhid
      rcases mem_cons.1 hy with hy | hy
      · -- the node that was built now, under any read
        rw [q.chain_next hchain₂ hchain hy]
        exact hknows
      · exact hinv₂.nodes hchain₂ hy hyhid
    · exact hlater₂.constructed
    · exact hlater₂.done
    · exact hlater₂.produced
    · exact hlater₂.finished

lemma trigger_ends (hi : s.Known i)
    (hinst : (a, i) ∈ s.done ∨ Translates q hidden a.rank (a.instantiate i)) :
    Ends .fuel (fun fuel => processArrayReadTriggers (construct q fuel) i s a)
      fun s' => Inv q hidden s' ∧ Later s s' ∧ (a.isConstrained = true → (a, i) ∈ s'.done) := by
  unfold processArrayReadTriggers
  by_cases hdone : a.isConstrained = true ∧ (a, i) ∉ s.done
  · simp only [hdone.1, hdone.2, not_false_eq_true, decide_true, Bool.and_self, if_true]
    have hinv₁ : Inv q hidden { s with done := (a, i) :: s.done } :=
      hinv.of_eq rfl rfl (subset_cons_self _ _)
    have hready : Ready { s with done := (a, i) :: s.done } a.rank (a.instantiate i) :=
      KleeArray.instantiate_fine (hinv₁.ready a.rank i hi) mem_cons_self
    refine (hinst.resolve_left hdone.2 _ hinv₁ hready).bind fun s₂ h => .ok ?_
    have hproduced : ∀ e, s₂.Produced e →
        Produced { s₂ with assumptions := a.instantiate i :: s₂.assumptions } e :=
      fun e he => he.imp_left (mem_cons_of_mem _ ·)
    refine ⟨h.inv.of_eq rfl rfl fun _ => id, ⟨h.later.constructed, ?_, ?_, ?_⟩, ?_⟩
    · exact fun x hx => h.later.done (mem_cons_of_mem _ hx)
    · exact fun e he => hproduced e (h.later.produced e he)
    · intro x hx
      rcases h.later.finished x hx with hx | ⟨hx, hknown⟩
      · rcases mem_cons.1 hx with rfl | hx
        · exact .inr ⟨.inl mem_cons_self, h.known⟩
        · exact .inl hx
      · exact .inr ⟨hproduced _ hx, hknown⟩
    · exact fun _ => h.later.done mem_cons_self
  · have hnot : (a.isConstrained && decide ((a, i) ∉ s.done)) = false := by simpa using hdone
    simp only [hnot, Bool.false_eq_true, if_false]
    refine .ok ⟨hinv, .refl s, fun hcon => ?_⟩
    by_contra hmem
    exact hdone ⟨hcon, hmem⟩

lemma triggers_ends (as : List KleeArray) (hi : s.Known i)
    (hinst : ∀ a ∈ as, (a, i) ∈ s.done ∨ Translates q hidden a.rank (a.instantiate i)) :
    Ends .fuel (fun fuel => as.foldlM (processArrayReadTriggers (construct q fuel) i) s)
      fun s' => Inv q hidden s' ∧ Later s s' ∧
        ∀ a ∈ as, a.isConstrained = true → (a, i) ∈ s'.done := by
  refine .foldlM (I := fun done s' => Inv q hidden s' ∧ Later s s' ∧
    ∀ a ∈ done, a.isConstrained = true → (a, i) ∈ s'.done) as ?_ [] s ⟨hinv, .refl s, by simp⟩
  rintro done s₁ a ha ⟨hinv₁, hlater₁, hdone⟩
  refine (trigger_ends hinv₁ (hlater₁.known hi)
    ((hinst a ha).imp_left (hlater₁.done ·))).mono fun s₂ ⟨hinv₂, hlater₂, ha₂⟩ =>
      ⟨hinv₂, hlater₁.trans hlater₂, ?_⟩
  intro b hb hcon
  rcases mem_append.1 hb with hb | hb
  · exact hlater₂.done (hdone b hb hcon)
  rw [mem_singleton] at hb
  subst hb
  exact ha₂ hcon

end

lemma Builds.insert (hinv : Inv q hidden s') (hlater : Later s s') (he : Complete q hidden s' e) :
    Builds q hidden s e { s' with constructed := e :: s'.constructed } := by
  have hknown : ∀ k, s'.Known k → Known { s' with constructed := e :: s'.constructed } k :=
    fun k hk => hk.imp_right (mem_cons_of_mem _ ·)
  refine ⟨⟨hinv.cached, ?_, ?_⟩, ⟨?_, hlater.done, hlater.produced, ?_⟩, ?_⟩
  · intro k hk
    rcases mem_cons.1 hk with rfl | hk
    · exact he.mono hknown fun _ => id
    · exact (hinv.complete k hk).mono hknown fun _ => id
  · exact fun hchain hx hhid => (hinv.nodes hchain hx hhid).mono hknown
  · exact fun k hk => mem_cons_of_mem _ (hlater.constructed hk)
  · exact fun x hx => (hlater.finished x hx).imp_right fun ⟨hinst, hk⟩ => ⟨hinst, hknown _ hk⟩
  · exact .inr mem_cons_self

lemma actual_ends (hnew : ¬ s.Known e)
    (h : Ends .fuel (fun fuel => constructActual (construct q fuel) q s e)
      fun s' => Inv q hidden s' ∧ Later s s' ∧ Complete q hidden s' e) :
    Ends .fuel (construct q · e s) (Builds q hidden s e) := by
  have hnot : (e.isConstant || decide (e ∈ s.constructed)) = false := by simpa [Known] using hnew
  refine (h.bind
    fun s' ⟨hinv, hlater, hcomplete⟩ => .ok (.insert hinv hlater hcomplete)).step fun fuel => ?_
  simp only [construct, hnot, Bool.false_eq_true, if_false]
  rfl

lemma mem_constructOrder : e ∈ o.constructOrder ↔ e ∈ o.operands := by
  unfold Operation.constructOrder
  split <;> simp [Operation.operands, or_comm]

lemma constructActual_plain (rec : Expr → Builder A → Except Halt (Builder A)) (o : Operation) :
    constructActual rec q s o.plain =
      if o.isCanonical then o.constructOrder.foldlM (fun s e => rec e s) s
      else throw .assertion := by
  cases o <;> rfl

/-- The reads of arrays with a lower rank end by induction on the rank, their updates and their index
by induction on the weight. -/
lemma translates (r : Nat) : ∀ m, ∀ e : Expr, e.mass ≤ m → Translates q hidden r e := by
  induction r using Nat.strong_induction_on with
  | h r ihr =>
  intro m
  induction m with
  | zero =>
    intro e hm
    have hpos : 1 ≤ e.mass := e.one_le_weight _
    omega
  | succ m ih =>
    intro e hm s hinv hready
    by_cases hknown : s.Known e
    · have hyes : (e.isConstant || decide (e ∈ s.constructed)) = true := by
        simpa [Known] using hknown
      refine (Ends.ok ⟨hinv, .refl s, hknown⟩).step fun fuel => ?_
      simp only [construct, hyes, if_true]
      rfl
    refine actual_ends hknown ?_
    cases e using Expr.operationRec with
    | constant => exact absurd (.inl rfl) hknown
    | qvar | all => exact .error (by simp)
    | operation o =>
      simp only [constructActual_plain]
      split
      · have hlt : ∀ k ∈ o.constructOrder, k.mass < o.plain.mass := fun k hk =>
          Operation.operand_lt (mem_constructOrder.1 hk) _
        have hkids : ∀ k ∈ o.constructOrder, s.Ready r k := fun k hk =>
          (reading_hereditary _).plain_operands hready k (mem_constructOrder.1 hk)
        refine (foldlM_ends hinv o.constructOrder hkids fun k hk => ih k ?_).mono ?_
        · have := hlt k hk
          omega
        · rintro s' ⟨hinv', hlater', hall⟩
          refine ⟨hinv', hlater', ?_⟩
          have hall' : ∀ k ∈ o.plain.kids, s'.Known k := fun k hk =>
            hall k (mem_constructOrder.2 (by rwa [kids_plain] at hk))
          cases o <;> exact hall'
      · exact .error (by simp)
    | read u i =>
      obtain ⟨hi, hcase⟩ := hready.resolve_left fun h => hknown (.inr h)
      have hnode : ∀ x ∈ q.chain u i, x.2 ∈ u.nodes := fun x hx =>
        q.chain_nodes u i ▸ mem_map_of_mem hx
      have hmass : ∀ x ∈ q.chain u i, ∀ c ∈ x.2.contents, c.mass < (Expr.read u i).mass :=
        fun x hx c hc => u.contents_mass _ x.2 (hnode x hx) hc
      have hcontents : ∀ x ∈ q.chain u i, ∀ c ∈ x.2.contents, s.Ready r c := by
        intro x hx c hc
        rcases hcase with hu | ⟨a, rfl, -⟩
        · exact c.fine_of_rank ((u.rank_contents x.2 (hnode x hx) hc).trans_lt hu)
        · simp [nodes] at hnode
          exact absurd hx (hnode _ _)
      have harrays : ∀ a ∈ u.arrays, (a, i) ∈ s.done ∨ a.rank < r := by
        intro a ha
        rcases hcase with hu | ⟨b, rfl, hb⟩
        · exact .inr ((u.rank_arrays ha).trans_lt hu)
        obtain rfl : a = b := by
          simpa [arrays, nodes, rootArray] using ha
        exact .inl hb
      have hindex : i.mass < (Expr.read u i).mass := u.lt_weight _ _
      refine (nodes_ends (p := []) hinv rfl hcontents fun x hx c hc => ih c ?_).bind ?_
      · have := hmass x hx c hc
        omega
      rintro s₁ ⟨hinv₁, hlater₁, hnodes⟩
      refine (ih i (by omega) s₁ hinv₁ (hlater₁.ready hi)).bind fun s₂ h₂ => ?_
      have hlater₂ := hlater₁.trans h₂.later
      refine (triggers_ends h₂.inv u.arrays h₂.known fun a ha => ?_).mono ?_
      · exact (harrays a ha).imp (hlater₂.done ·) fun hlt => ihr a.rank hlt _ _ le_rfl
      · rintro s₃ ⟨hinv₃, hlater₃, hdone⟩
        exact ⟨hinv₃, hlater₂.trans hlater₃, hlater₃.known h₂.known, hdone,
          hnodes.mono fun k hk => hlater₃.known (h₂.later.known hk)⟩

/-! ## A query -/

lemma construct_ends (hinv : Inv q hidden s) (e : Expr) :
    Ends .fuel (construct q · e s) (Builds q hidden s e) :=
  translates (e.rank + 1) e.mass e le_rfl s hinv (e.fine_of_rank (Nat.lt_succ_self _))

def Through (q : StpQuery A) (hidden : List A) (s : Builder A) (terms : List Expr) (s' : Builder A) :
    Prop :=
  Inv q hidden s' ∧ Later s s' ∧ ∀ e ∈ terms, isForall e = false → s'.Known e

lemma Through.append {terms : List Expr} (h : Through q hidden s terms s')
    (hinv : Inv q hidden s'') (hlater : Later s' s'') (he : isForall e = false → s''.Known e) :
    Through q hidden s (terms ++ [e]) s'' := by
  refine ⟨hinv, h.2.1.trans hlater, fun k hk hall => ?_⟩
  rcases mem_append.1 hk with hk | hk
  · exact hlater.known (h.2.2 k hk hall)
  rw [mem_singleton] at hk
  subst hk
  exact he hall

lemma assertAssumptions_ends (hinv : Inv q hidden s) :
    Ends .fuel (assertAssumptions q · s) (Through q hidden s q.constraints.terms) := by
  have hloop : Ends .fuel (fun fuel => q.constraints.terms.foldlM (assertTerm q fuel) s)
      (Through q hidden s q.constraints.terms) := by
    refine .foldlM (I := Through q hidden s) _ ?_ [] s ⟨hinv, .refl s, by simp⟩
    intro terms s₁ e _ h
    unfold assertTerm
    split
    · next hall => exact .ok (h.append h.1 (.refl s₁) (by simp [hall]))
    refine (construct_ends h.1 e).bind fun s₂ h₂ => .ok ?_
    have hlater : Later s₂ { s₂ with asserted := e :: s₂.asserted } :=
      ⟨fun _ => id, fun _ => id, fun _ hk => hk.imp_right (mem_cons_of_mem _ ·), fun _ => .inl⟩
    exact h.append (h₂.inv.of_eq rfl rfl fun _ => id) (h₂.later.trans hlater) fun _ => h₂.known
  refine hloop.bind fun s' ⟨hinv', hlater', hterms⟩ => .ok ⟨?_, hlater'.trans (.drain s'), hterms⟩
  exact hinv'.of_eq rfl rfl fun _ => id

lemma constructQuery_ends (hinv : Inv q hidden s) :
    Ends .fuel (constructQuery q · s)
      fun s' => Through q hidden s (queryTerms q.expr) s' ∧ s'.assumptions = [] := by
  have hloop : Ends .fuel (fun fuel => (queryTerms q.expr).foldlM (constructTerm q fuel) s)
      (Through q hidden s (queryTerms q.expr)) := by
    refine .foldlM (I := Through q hidden s) _ ?_ [] s ⟨hinv, .refl s, by simp⟩
    intro terms s₁ e _ h
    unfold constructTerm
    split
    · next hall => exact .ok (h.append h.1 (.refl s₁) (by simp [hall]))
    · exact (construct_ends h.1 e).mono fun s₂ h₂ => h.append h₂.inv h₂.later fun _ => h₂.known
  refine hloop.bind fun s' ⟨hinv', hlater', hterms⟩ =>
    .ok ⟨⟨?_, hlater'.trans (.drain s'), hterms⟩, rfl⟩
  exact hinv'.of_eq rfl rfl fun _ => id

structure Answered (q : StpQuery A) (hidden : List A) (s : Builder A) : Prop where
  inv : Inv q hidden s
  finished : ∀ x ∈ s.done, s.Finished x
  drained : s.assumptions = []
  roots : ∀ e ∈ q.roots, s.Known e

lemma pushQuery_ends (q : StpQuery A) (cached : List A) :
    Ends .fuel (pushQuery q · cached) (Answered q cached) := by
  have hinv : Inv q cached { cached := cached } :=
    ⟨fun _ => id, by simp, fun _ hx hhid => absurd hx hhid⟩
  refine (assertAssumptions_ends hinv).bind fun s₁ ⟨hinv₁, hlater₁, hterms⟩ => ?_
  refine (constructQuery_ends hinv₁).mono fun s₂ ⟨⟨hinv₂, hlater₂, hquery⟩, hdrained⟩ => ?_
  refine ⟨hinv₂, fun x hx => ?_, hdrained, fun e he => ?_⟩
  · exact ((hlater₁.trans hlater₂).finished x hx).resolve_left (by simp)
  · simp only [StpQuery.roots, mem_filter, mem_append, Bool.not_eq_true'] at he
    rcases he.1 with hmem | hmem
    · exact hlater₂.known (hterms e hmem he.2)
    · exact hquery e hmem he.2

lemma Answered.known (h : Answered q hidden s) (he : q.Occurs hidden e) : s.Known e := by
  have hread : ∀ {u i}, s.Known (read u i) → Complete q hidden s (read u i) := fun hknown =>
    h.inv.complete _ (hknown.resolve_left (by simp [isConstant]))
  induction he with
  | root he => exact h.roots _ he
  | @kid e k _ hk ih =>
    rcases ih with hconst | hmem
    · cases e with
      | constant => simp [kids] at hk
      | _ => cases hconst
    have hcomplete := h.inv.complete e hmem
    cases e with
    | read u i =>
      obtain rfl : k = i := by simpa [kids] using hk
      exact hcomplete.1
    | qvar | all => exact hcomplete.elim
    | _ => exact hcomplete k hk
  | content _ hx hc ih => exact (hread ih).2.2 _ hx _ hc
  | inst _ ha hcon ih => exact (h.finished _ ((hread ih).2.1 _ ha hcon)).2

lemma Answered.instantiated (h : Answered q hidden s) (hcovered : q.Covered hidden) :
    q.Instantiated s.asserted := by
  intro a i hreads
  obtain ⟨hcon, u, hoccurs, ha⟩ := hcovered a i hreads
  have hmem := (h.known hoccurs).resolve_left (by simp [isConstant])
  have hdone := (h.inv.complete _ hmem).2.1 a ha hcon
  exact (h.finished _ hdone).1.resolve_left (by simp [h.drained])

/-- **Result.**  For all queries one after the other: a query is answered, or an assertion fails, and
if every read of a constrained array occurs outside the nodes that earlier queries have cached, there
is an instance for each. -/
theorem answers_instantiated (qs : List (StpQuery A)) (cached : List A) :
    Ends .fuel (answers · qs cached)
      (List.Forall₂ (fun q x => q.Covered x.1 → q.Instantiated x.2) qs) := by
  induction qs generalizing cached with
  | nil => exact .ok .nil
  | cons q qs ih =>
    refine (pushQuery_ends q cached).bind fun s h => ?_
    refine (ih s.cached).bind fun rest hrest => .ok ?_
    exact .cons h.instantiated hrest

end Builder

/-! ## The same query twice -/

def UpdateList.sharedChain : UpdateList → List (UpdateList × Update)
  | .root _ => []
  | .byteUpdate index value guard next =>
    (.byteUpdate index value guard next, .byte index value guard) :: next.sharedChain
  | .multiUpdate src guard next => (.multiUpdate src guard next, .multi src guard) :: next.sharedChain

lemma UpdateList.sharedChain_nodes (u : UpdateList) : u.sharedChain.map Prod.snd = u.nodes := by
  cases u with
  | root _ => rfl
  | byteUpdate _ _ _ next | multiUpdate _ _ next => exact congrArg _ next.sharedChain_nodes

lemma UpdateList.sharedChain_suffix :
    (u : UpdateList) → (p : List (UpdateList × Update)) → u.sharedChain = p ++ x :: t →
    x.1.sharedChain = x :: t
  | .root _, p, h => by cases p <;> cases h
  | .byteUpdate _ _ _ next, p, h | .multiUpdate _ _ next, p, h => by
    cases p with
    | nil =>
      obtain ⟨rfl, rfl⟩ := List.cons.inj h
      rfl
    | cons y p => exact next.sharedChain_suffix p (List.cons.inj h).2

def sharedQuery (e : Expr) : StpQuery UpdateList where
  constraints := {}
  expr := e
  chain u _ := u.sharedChain
  chain_nodes u _ := u.sharedChain_nodes
  chain_next {u i u' i' p x t p' x' t'} h h' heq := by
    rw [← u.sharedChain_suffix p h, ← u'.sharedChain_suffix p' h', heq]

def sevens : KleeArray := .function 0 (constant 8 7)

def someIndex : Expr := zext (read (.root (.symbolic 1)) (constant 32 0)) 32

def setIfSeven : UpdateList :=
  .byteUpdate (constant 32 0) (constant 8 5)
    (.cmp .eq (constant 8 7) (read (.root sevens) someIndex)) (.root (.symbolic 0))

def setQuery : StpQuery UpdateList :=
  sharedQuery (.cmp .eq (constant 8 5) (read setIfSeven (constant 32 0)))

lemma setQuery_reads : setQuery.Reads [] sevens someIndex := by
  have hroot : setQuery.Occurs [] (.cmp .eq (constant 8 5) (read setIfSeven (constant 32 0))) :=
    .root (by decide +kernel)
  have hread : setQuery.Occurs [] (read setIfSeven (constant 32 0)) := hroot.kid (by simp [kids])
  have hguard : setQuery.Occurs [] (.cmp .eq (constant 8 7) (read (.root sevens) someIndex)) :=
    .content (x := (setIfSeven, .byte (constant 32 0) (constant 8 5)
      (.cmp .eq (constant 8 7) (read (.root sevens) someIndex)))) hread (by decide +kernel)
      (by simp [Update.contents])
  exact ⟨rfl, .root sevens, hguard.kid (by simp [kids]), mem_cons_self⟩

/-- The array is read outside the updates as well. -/
def directQuery : StpQuery UpdateList :=
  sharedQuery (.cmp .eq (constant 8 7) (read (.root sevens) someIndex))

def directParts : List Expr :=
  [.cmp .eq (constant 8 7) (read (.root sevens) someIndex), constant 8 7,
    read (.root sevens) someIndex, someIndex, read (.root (.symbolic 1)) (constant 32 0),
    constant 32 0, sevens.instantiate someIndex]

/-- A read of a list without shared updates, whose instances are parts of the query again. -/
def Expr.readsDirectly : Expr → Bool
  | .read u i => u.sharedChain.isEmpty && u.arrays.all fun a =>
      !a.isConstrained || directParts.contains (a.instantiate i)
  | _ => true

/-- No read of the query has an update. -/
lemma directQuery_occurs (h : directQuery.Occurs [] e) :
    directQuery.Occurs [setIfSeven] e ∧ e ∈ directParts := by
  have hreads : ∀ e ∈ directParts, e.readsDirectly = true := by decide +kernel
  have hkids : ∀ e ∈ directParts, ∀ k ∈ e.kids, k ∈ directParts := by decide +kernel
  have hroots : ∀ e ∈ directQuery.roots, e ∈ directParts := by decide +kernel
  induction h with
  | root he => exact ⟨.root he, hroots _ he⟩
  | kid _ hk ih => exact ⟨.kid ih.1 hk, hkids _ ih.2 _ hk⟩
  | content _ hx _ ih =>
    have hempty := isEmpty_iff.1 (Bool.and_eq_true_iff.1 (hreads _ ih.2)).1
    have hx : _ ∈ UpdateList.sharedChain _ := (takeWhile_sublist _).subset hx
    rw [hempty] at hx
    cases hx
  | inst _ ha hcon ih =>
    have harrays := (Bool.and_eq_true_iff.1 (hreads _ ih.2)).2
    refine ⟨.inst ih.1 ha hcon, ?_⟩
    simpa [hcon] using all_eq_true.1 harrays _ ha

/-- The first query asserts an instance, and so does one that reads the array outside the update that
is cached then. -/
theorem answers_instantiated_directQuery :
    Settles (Builder.answers · [setQuery, directQuery] [])
        (.ok [([], [sevens.instantiate someIndex]), ([setIfSeven], [sevens.instantiate someIndex])]) ∧
      directQuery.Covered [setIfSeven] ∧ setQuery.Instantiated [sevens.instantiate someIndex] ∧
      directQuery.Instantiated [sevens.instantiate someIndex] := by
  have hset : Settles (Builder.answers · [setQuery, directQuery] [])
      (.ok [([], [sevens.instantiate someIndex]),
        ([setIfSeven], [sevens.instantiate someIndex])]) := by
    refine ⟨20, fun fuel hfuel => ?_⟩
    obtain ⟨k, rfl⟩ := Nat.exists_eq_add_of_le' hfuel
    rfl
  have hcovered : directQuery.Covered [setIfSeven] := by
    rintro a i ⟨hcon, u, hoccurs, ha⟩
    exact ⟨hcon, u, (directQuery_occurs hoccurs).1, ha⟩
  obtain ⟨r, hset', -, hr⟩ := Builder.answers_instantiated [setQuery, directQuery] []
  obtain ⟨hfirst, hrest⟩ := forall₂_cons.1 (hr _ (hset'.unique hset))
  obtain ⟨hsecond, -⟩ := forall₂_cons.1 hrest
  exact ⟨hset, hcovered, hfirst fun _ _ => id, hsecond hcovered⟩

/-- The second time it is not. -/
theorem answers_second_missed :
    Settles (Builder.answers · [setQuery, setQuery] [])
        (.ok [([], [sevens.instantiate someIndex]), ([setIfSeven], [])]) ∧
      ¬ setQuery.Instantiated [] := by
  constructor
  · refine ⟨20, fun fuel hfuel => ?_⟩
    obtain ⟨k, rfl⟩ := Nat.exists_eq_add_of_le' hfuel
    rfl
  · intro h
    exact absurd (h sevens someIndex setQuery_reads) not_mem_nil

end InputCovSched.Klee
