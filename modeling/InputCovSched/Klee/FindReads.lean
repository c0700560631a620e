import InputCovSched.Klee.Assignment
import InputCovSched.Klee.Constraints

/-!
# The reads of an expression (`ExprUtil.cpp`)

`findReads` collects the reads that the value of an expression depends on: those in it, those in the
updates under a read, and those in the value of a constrained array where it is read. A head of an
update list that was seen before is not gone through again.

So a copy under a head is unfolded at the first index only, and a copy from a symbolic array is not
followed at all. Where neither can matter the reads are complete (`findReads_complete`).
-/

namespace InputCovSched.Klee

open Klee.Expr List

def Expr.kids : Expr → List Expr
  | constant _ _ => []
  | notOptimized e => [e]
  | read _ i => [i]
  | select c t f => [c, t, f]
  | concat l r => [l, r]
  | extract e _ _ => [e]
  | zext e _ => [e]
  | sext e _ => [e]
  | not e => [e]
  | binary _ l r => [l, r]
  | cmp _ l r => [l, r]
  | implies l r => [l, r]
  | qvar _ _ => []
  | all name w e => [qvar name w, e]

/-- `UpdateNode`, without the next one. -/
inductive Update where
  | byte (index value guard : Expr)
  | multi (src : KleeArray) (guard : Expr)
  deriving DecidableEq

/-- From the head on. -/
def UpdateList.nodes : UpdateList → List Update
  | .root _ => []
  | .byteUpdate index value guard next => .byte index value guard :: next.nodes
  | .multiUpdate src guard next => .multi src guard :: next.nodes

def UpdateList.rootArray : UpdateList → KleeArray
  | .root array => array
  | .byteUpdate _ _ _ next => next.rootArray
  | .multiUpdate _ _ next => next.rootArray

/-- The address of the head of the updates under a read. Updates are not shared by all reads that
have equal ones, but updates at one address are the same. -/
structure Heads (A : Type) where
  head : UpdateList → Expr → A
  nodes_eq : ∀ {u i u' i'}, head u i = head u' i' → u.nodes = u'.nodes

structure FindState (A : Type) where
  stack : List Expr
  visited : List Expr
  updates : List A := []
  collector : List Expr := []

namespace FindState

variable {A : Type}

def addToStack (s : FindState A) (e : Expr) : FindState A :=
  if e.isConstant || decide (e ∈ s.visited) then s
  else { s with stack := e :: s.stack, visited := e :: s.visited }

def addArrayToStack (s : FindState A) (array : KleeArray) (index : Expr) : FindState A :=
  if array.isConstrained then s.addToStack (array.getValueAtIndex index) else s

def addUpdate (index : Expr) (s : FindState A) : Update → FindState A
  | .byte i value guard => ((s.addToStack guard).addToStack i).addToStack value
  | .multi src guard => (s.addToStack guard).addArrayToStack src index

variable [DecidableEq A] (heads : Heads A) (visitUpdates : Bool)

/-- The updates, if their head was not seen. -/
def visitHead (s : FindState A) (u : UpdateList) (index : Expr) : FindState A :=
  if heads.head u index ∈ s.updates then s
  else u.nodes.foldl (addUpdate index) { s with updates := heads.head u index :: s.updates }

def visitRead (s : FindState A) (u : UpdateList) (index : Expr) : FindState A :=
  if visitUpdates then
    visitHead heads (((collect s u index).addToStack index).addArrayToStack u.rootArray index) u index
  else (collect s u index).addToStack index
where
  collect (s : FindState A) (u : UpdateList) (index : Expr) : FindState A :=
    { s with collector := s.collector ++ [read u index] }

def visit (s : FindState A) : Expr → FindState A
  | .read u index => visitRead heads visitUpdates s u index
  | e => e.kids.foldl addToStack s

def loop : Nat → FindState A → Option (FindState A)
  | 0, _ => none
  | fuel + 1, s =>
    match s.stack with
    | [] => some s
    | top :: rest => loop fuel (visit heads visitUpdates { s with stack := rest } top)

end FindState

/-- What is cached for an expression is what the traversal found. -/
def findReads {A : Type} [DecidableEq A] (heads : Heads A) (visitUpdates : Bool) (fuel : Nat)
    (e : Expr) : Option (List Expr) :=
  if e.isConstant then some []
  else (FindState.loop heads visitUpdates fuel { stack := [e], visited := [e] }).map (·.collector)

/-! ## What a value is computed from -/

def KleeArray.values (array : KleeArray) (index : Expr) : List Expr :=
  if array.isConstrained then [array.getValueAtIndex index] else []

def Update.parts (index : Expr) : Update → List Expr
  | .byte i value guard => [guard, i, value]
  | .multi src guard => guard :: src.values index

def Expr.parts : Expr → List Expr
  | read u i => i :: (u.rootArray.values i ++ u.nodes.flatMap (·.parts i))
  | e => e.kids

def Reaches : Expr → Expr → Prop := Relation.ReflTransGen fun e k => k ∈ e.parts

/-- The arrays that a read can find a byte in. -/
def UpdateList.arrays (u : UpdateList) : List KleeArray :=
  u.rootArray :: u.nodes.filterMap fun
    | .byte _ _ _ => none
    | .multi src _ => some src

/-- What the traversal of `e` depends on. -/
structure Followed {A : Type} (heads : Heads A) (e : Expr) : Prop where
  /-- what is put into the value of a constrained array keeps its value -/
  clean : ∀ {u i}, Reaches e (read u i) → ∀ a ∈ u.arrays, a.isConstrained = true →
    a.Clean ∧ i.Clean none
  /-- no copy from a symbolic array -/
  source : ∀ {u i}, Reaches e (read u i) → ∀ name guard, .multi (.symbolic name) guard ∉ u.nodes
  /-- a head with a copy is read at one index -/
  index : ∀ {u i u' i'}, Reaches e (read u i) → Reaches e (read u' i') →
    heads.head u i = heads.head u' i' → ∀ src guard, .multi src guard ∈ u.nodes →
    src.isConstrained = true → i = i'

/-- Environments that differ in one array. -/
structure Env.AgreeOff (name : Nat) (ρ ρ' : Env) : Prop where
  bytes : ∀ n, n ≠ name → ρ.bytes n = ρ'.bytes n
  outside : ρ.outside = ρ'.outside
  qvars : ρ.qvars = ρ'.qvars

def Expr.DependsOn (e : Expr) (name : Nat) : Prop :=
  ∃ ρ ρ', Env.AgreeOff name ρ ρ' ∧ e.eval ρ e.width ≠ e.eval ρ' e.width

/-! ## Parts -/

section Parts

variable {e k i : Expr} {u : UpdateList} {n : Nat}

lemma Expr.kids_plain (o : Operation) : o.plain.kids = o.operands := by cases o <;> rfl

lemma Expr.parts_plain (o : Operation) : o.plain.parts = o.operands := by cases o <;> rfl

lemma Expr.mem_parts_read : k ∈ (read u i).parts ↔
    k ∈ i :: u.rootArray.values i ∨ k ∈ u.nodes.flatMap (·.parts i) := by
  simp [Expr.parts, or_assoc]

lemma KleeArray.mem_values {a : KleeArray} :
    k ∈ a.values i ↔ a.isConstrained = true ∧ k = a.getValueAtIndex i := by
  unfold KleeArray.values
  split <;> simp_all

lemma UpdateList.rootArray_mem (u : UpdateList) : u.rootArray ∈ u.arrays := mem_cons_self

lemma UpdateList.source_mem {src : KleeArray} {guard : Expr} (h : .multi src guard ∈ u.nodes) :
    src ∈ u.arrays := by
  refine mem_cons_of_mem _ (mem_filterMap.2 ⟨_, h, rfl⟩)

lemma UpdateList.rootArray_wellTyped : (u : UpdateList) → u.WellTyped → u.rootArray.WellTyped
  | .root _, h => h
  | .byteUpdate _ _ _ next, h => next.rootArray_wellTyped h.2.2.2
  | .multiUpdate _ _ next, h => next.rootArray_wellTyped h.2.2

lemma UpdateList.rootArray_weight (x : Nat) (ξ : Nat → Nat) (u : UpdateList) :
    u.rootArray.weight x ξ ≤ u.weight x ξ := by
  cases u with
  | root _ => exact le_rfl
  | byteUpdate _ _ _ next | multiUpdate _ _ next =>
    exact (next.rootArray_weight x ξ).trans (Nat.le_add_left _ _)

def Update.Below (x n : Nat) : Update → Prop
  | .byte index value guard =>
    (index.WellTyped ∧ index.mass < n) ∧ (value.WellTyped ∧ value.mass < n) ∧
      guard.WellTyped ∧ guard.mass < n
  | .multi src guard =>
    (src.WellTyped ∧ src.weight x (fun _ => 0) < n) ∧ guard.WellTyped ∧ guard.mass < n

lemma Update.Below.mono {x m : Nat} (hnm : n ≤ m) {node : Update} (h : node.Below x n) :
    node.Below x m := by
  cases node with
  | byte =>
    obtain ⟨⟨hi, him⟩, ⟨hv, hvm⟩, hg, hgm⟩ := h
    exact ⟨⟨hi, him.trans_le hnm⟩, ⟨hv, hvm.trans_le hnm⟩, hg, hgm.trans_le hnm⟩
  | multi =>
    obtain ⟨⟨hs, hsm⟩, hg, hgm⟩ := h
    exact ⟨⟨hs, hsm.trans_le hnm⟩, hg, hgm.trans_le hnm⟩

lemma UpdateList.nodes_below (x : Nat) : (u : UpdateList) → u.WellTyped →
    ∀ node ∈ u.nodes, node.Below x (u.weight x fun _ => 0)
  | .root _, _ => by simp [nodes]
  | .byteUpdate index value guard next, h => by
    obtain ⟨⟨hi, -⟩, ⟨hv, -⟩, ⟨hg, -⟩, hnext⟩ := h
    have hpos := next.lt_weight x fun _ => 0
    intro node hnode
    rcases mem_cons.1 hnode with rfl | hnode
    · refine ⟨⟨hi, ?_⟩, ⟨hv, ?_⟩, hg, ?_⟩ <;> simp only [UpdateList.weight, mass] <;> omega
    · exact (next.nodes_below x hnext node hnode).mono (Nat.le_add_left _ _)
  | .multiUpdate src guard next, h => by
    obtain ⟨hs, ⟨hg, -⟩, hnext⟩ := h
    have hpos := next.lt_weight x fun _ => 0
    have hsrc := src.lt_weight x fun _ => 0
    intro node hnode
    rcases mem_cons.1 hnode with rfl | hnode
    · refine ⟨⟨hs, ?_⟩, hg, ?_⟩ <;> simp only [UpdateList.weight, mass] <;> omega
    · exact (next.nodes_below x hnext node hnode).mono (Nat.le_add_left _ _)

lemma KleeArray.values_good {a : KleeArray} (ha : a.WellTyped) (hi : i.WellTyped)
    (hiw : i.width = 32) (hclean : a.isConstrained = true → a.Clean ∧ i.Clean none) :
    ∀ k ∈ a.values i, k.WellTyped ∧ k.mass < a.weight i.mass fun _ => 0 := by
  intro k hk
  obtain ⟨hcon, rfl⟩ := KleeArray.mem_values.1 hk
  obtain ⟨hac, hic⟩ := hclean hcon
  have hindex : Denotes (fun _ => True) i 32 (i.eval · 32) := ⟨hi, hiw, fun _ _ => rfl⟩
  exact ⟨(a.getValueAtIndex_denotes ha hac hindex hic).2.typed,
    a.getValueAtIndex_mass hcon ha hac hi hiw hic⟩

lemma Update.Below.parts {node : Update} (h : node.Below i.mass n)
    (hi : i.WellTyped) (hiw : i.width = 32)
    (hclean : ∀ src guard, node = .multi src guard → src.isConstrained = true →
      src.Clean ∧ i.Clean none) :
    ∀ k ∈ node.parts i, k.WellTyped ∧ k.mass < n := by
  intro k hk
  cases node with
  | byte index value guard =>
    obtain ⟨hindex, hvalue, hguard⟩ := h
    simp only [Update.parts, mem_cons, not_mem_nil, or_false] at hk
    rcases hk with rfl | rfl | rfl
    exacts [hguard, hindex, hvalue]
  | multi src guard =>
    obtain ⟨⟨hsrc, hlt⟩, hguard⟩ := h
    rcases mem_cons.1 hk with rfl | hk
    · exact hguard
    obtain ⟨hk, hkm⟩ := src.values_good hsrc hi hiw (hclean src guard rfl) k hk
    exact ⟨hk, hkm.trans hlt⟩

/-- Reached expressions are typed, but for the variable of a quantifier. -/
def Expr.Scoped (e : Expr) : Prop := e.WellTyped ∨ ∃ name w, e = qvar name w

variable {A : Type} {heads : Heads A}

lemma Followed.parts (h : Followed heads e) (hreach : Reaches e k) (hk : k.Scoped) :
    ∀ p ∈ k.parts, p.Scoped ∧ p.mass < k.mass := by
  rcases hk with typed | ⟨name, w, rfl⟩
  · cases k using Expr.operationRec with
    | constant | qvar => simp [Expr.parts, Expr.kids]
    | operation o =>
      rw [parts_plain]
      intro p hp
      exact ⟨.inl ((Operation.plain_wellTyped typed).1 p hp), Operation.operand_lt hp _⟩
    | all name w body =>
      have hbody : 1 ≤ body.mass := body.one_le_weight _
      intro p hp
      simp only [Expr.parts, Expr.kids, mem_cons, not_mem_nil, or_false] at hp
      rcases hp with rfl | rfl
      · exact ⟨.inr ⟨_, _, rfl⟩, Nat.lt_succ_of_le hbody⟩
      · exact ⟨.inl typed.1, Nat.lt_succ_self _⟩
    | read u i =>
      obtain ⟨hu, hi, hiw⟩ := typed
      intro p hp
      rw [mem_parts_read, mem_cons, mem_flatMap] at hp
      rcases hp with (rfl | hp) | ⟨node, hnode, hp⟩
      · exact ⟨.inl hi, u.lt_weight _ _⟩
      · obtain ⟨htyped, hlt⟩ := u.rootArray.values_good (u.rootArray_wellTyped hu) hi hiw
          (h.clean hreach _ u.rootArray_mem) p hp
        exact ⟨.inl htyped, hlt.trans_le (u.rootArray_weight _ _)⟩
      · obtain ⟨htyped, hlt⟩ := (u.nodes_below _ hu node hnode).parts hi hiw
          (fun src guard heq => h.clean hreach src (u.source_mem (heq ▸ hnode))) p hp
        exact ⟨.inl htyped, hlt⟩
  · simp [Expr.parts, Expr.kids]

section
variable (h : Followed heads e) (typed : e.WellTyped) (hreach : Reaches e k)
include h typed hreach

lemma Followed.scoped : k.Scoped := by
  induction hreach with
  | refl => exact .inl typed
  | tail hreach hpart ih => exact (h.parts hreach ih _ hpart).1

lemma Followed.part_lt {p : Expr} (hp : p ∈ k.parts) : Reaches e p ∧ p.mass < k.mass :=
  ⟨hreach.tail hp, (h.parts hreach (h.scoped typed hreach) p hp).2⟩

end

end Parts

/-! ## The traversal -/

namespace FindState

variable {A : Type} {s s' : FindState A} {P : Expr → Prop} {e k i : Expr} {u : UpdateList}

/-- Constants are not pushed. -/
def Seen (s : FindState A) (e : Expr) : Prop := e.isConstant = true ∨ e ∈ s.visited

def Pushed (P : Expr → Prop) (s s' : FindState A) : Prop :=
  ∃ new, s'.stack = new ++ s.stack ∧ s'.visited = new ++ s.visited ∧ ∀ e ∈ new, P e

lemma Pushed.trans (h : Pushed P s s') (h' : Pushed P s' s'') : Pushed P s s'' := by
  obtain ⟨new, hstack, hvisited, hnew⟩ := h
  obtain ⟨new', hstack', hvisited', hnew'⟩ := h'
  refine ⟨new' ++ new, ?_, ?_, ?_⟩
  · rw [hstack', hstack, append_assoc]
  · rw [hvisited', hvisited, append_assoc]
  · intro e he
    exact (mem_append.1 he).elim (hnew' e) (hnew e)

lemma Pushed.mono {Q : Expr → Prop} (h : Pushed P s s') (hPQ : ∀ e, P e → Q e) :
    Pushed Q s s' := by
  obtain ⟨new, hstack, hvisited, hnew⟩ := h
  exact ⟨new, hstack, hvisited, fun e he => hPQ e (hnew e he)⟩

lemma Pushed.seen (h : Pushed P s s') (he : s.Seen e) : s'.Seen e := by
  obtain ⟨new, -, hvisited, -⟩ := h
  refine he.imp_right fun he => ?_
  rw [hvisited]
  exact mem_append_right _ he

/-- All of a list is pushed, as far as it was not seen. -/
structure Adds (s : FindState A) (es : List Expr) (s' : FindState A) : Prop where
  pushed : Pushed (· ∈ es) s s'
  seen : ∀ e ∈ es, s'.Seen e
  updates : s'.updates = s.updates
  collector : s'.collector = s.collector

lemma Adds.nil (s : FindState A) : Adds s [] s := ⟨⟨[], rfl, rfl, by simp⟩, by simp, rfl, rfl⟩

lemma Adds.append {es es' : List Expr} (h : Adds s es s') (h' : Adds s' es' s'') :
    Adds s (es ++ es') s'' where
  pushed := (h.pushed.mono fun _ => mem_append_left _).trans
    (h'.pushed.mono fun _ => mem_append_right _)
  seen e he := (mem_append.1 he).elim (fun he => h'.pushed.seen (h.seen e he)) (h'.seen e)
  updates := h'.updates.trans h.updates
  collector := h'.collector.trans h.collector

lemma addToStack_adds (s : FindState A) (e : Expr) : Adds s [e] (s.addToStack e) := by
  unfold addToStack
  split
  · next hseen =>
    have hseen : s.Seen e := by simpa [Seen] using hseen
    exact ⟨⟨[], rfl, rfl, by simp⟩, by simpa using hseen, rfl, rfl⟩
  · exact ⟨⟨[e], rfl, rfl, fun _ => id⟩, by simp [Seen], rfl, rfl⟩

lemma foldl_adds {α : Type} {f : FindState A → α → FindState A} {parts : α → List Expr}
    (h : ∀ s x, Adds s (parts x) (f s x)) (xs : List α) :
    ∀ s, Adds s (xs.flatMap parts) (xs.foldl f s) := by
  induction xs with
  | nil => exact .nil
  | cons x xs ih =>
    intro s
    exact (h s x).append (ih (f s x))

lemma addArrayToStack_adds (s : FindState A) (a : KleeArray) (i : Expr) :
    Adds s (a.values i) (s.addArrayToStack a i) := by
  unfold addArrayToStack KleeArray.values
  split
  · exact s.addToStack_adds _
  · exact .nil s

lemma addUpdate_adds (i : Expr) (s : FindState A) (node : Update) :
    Adds s (node.parts i) (s.addUpdate i node) := by
  cases node with
  | byte index value guard =>
    exact ((s.addToStack_adds guard).append (addToStack_adds _ index)).append
      (addToStack_adds _ value)
  | multi src guard => exact (s.addToStack_adds guard).append (addArrayToStack_adds _ src i)

/-! ## One round -/

def Expanded (heads : Heads A) (s : FindState A) : Expr → Prop
  | .read u i =>
    read u i ∈ s.collector ∧ (∀ p ∈ i :: u.rootArray.values i, s.Seen p) ∧
      heads.head u i ∈ s.updates
  | e => ∀ p ∈ e.kids, s.Seen p

def Through (heads : Heads A) (e : Expr) (s : FindState A) (a : A) : Prop :=
  ∃ u i, heads.head u i = a ∧ Reaches e (read u i) ∧
    ∀ p ∈ u.nodes.flatMap (·.parts i), s.Seen p

structure Visits (heads : Heads A) (s : FindState A) (top : Expr) (s' : FindState A) : Prop where
  pushed : Pushed (· ∈ top.parts) s s'
  expanded : Expanded heads s' top
  updates : s.updates ⊆ s'.updates
  collector : s.collector ⊆ s'.collector
  through : ∀ e, Reaches e top → ∀ a ∈ s'.updates, a ∈ s.updates ∨ Through heads e s' a

variable (heads : Heads A)

lemma kids_visits (s : FindState A) {e : Expr} (hparts : e.parts = e.kids)
    (hexpanded : ∀ s', (∀ p ∈ e.kids, Seen s' p) → Expanded heads s' e) :
    Visits heads s e (e.kids.foldl addToStack s) := by
  have hadds := foldl_adds addToStack_adds e.kids s
  rw [flatMap_singleton'] at hadds
  exact ⟨hparts ▸ hadds.pushed, hexpanded _ hadds.seen, by simp [hadds.updates],
    by simp [hadds.collector], fun e he a ha => .inl (hadds.updates ▸ ha)⟩

variable [DecidableEq A]

lemma visitRead_visits (s : FindState A) (u : UpdateList) (i : Expr) :
    Visits heads s (read u i) (visitRead heads true s u i) := by
  have hadds := (addToStack_adds (visitRead.collect s u i) i).append
    (addArrayToStack_adds _ u.rootArray i)
  rw [visitRead, if_pos rfl, visitHead]
  generalize ((visitRead.collect s u i).addToStack i).addArrayToStack u.rootArray i = s₁ at hadds
  have hpushed : Pushed (· ∈ (read u i).parts) s s₁ :=
    hadds.pushed.mono fun p hp => mem_parts_read.2 (.inl hp)
  have hcollected : s₁.collector = s.collector ++ [read u i] := hadds.collector
  have hupdates : s₁.updates = s.updates := hadds.updates
  split
  · next hhead =>
    exact ⟨hpushed, ⟨by simp [hcollected], hadds.seen, hhead⟩, by simp [hupdates],
      by simp [hcollected], fun e he a ha => .inl (hupdates ▸ ha)⟩
  have hnodes := foldl_adds (addUpdate_adds i) u.nodes
    { s₁ with updates := heads.head u i :: s₁.updates }
  generalize u.nodes.foldl (addUpdate i) _ = s₂ at hnodes
  have hpushed' : Pushed (· ∈ (read u i).parts) s₁ s₂ :=
    hnodes.pushed.mono fun p hp => mem_parts_read.2 (.inr hp)
  have hcollected' : s₂.collector = s.collector ++ [read u i] := hnodes.collector.trans hcollected
  have hupdates' : s₂.updates = heads.head u i :: s.updates := hupdates ▸ hnodes.updates
  refine ⟨hpushed.trans hpushed', ⟨?_, ?_, ?_⟩, ?_, ?_, ?_⟩
  · simp [hcollected']
  · exact fun p hp => hpushed'.seen (hadds.seen p hp)
  · simp [hupdates']
  · simp [hupdates']
  · simp [hcollected']
  · intro e he a ha
    rw [hupdates', mem_cons] at ha
    rcases ha with rfl | ha
    · exact .inr ⟨u, i, rfl, he, hnodes.seen⟩
    · exact .inl ha

lemma visit_visits (s : FindState A) (e : Expr) : Visits heads s e (visit heads true s e) := by
  cases e with
  | read u i => exact visitRead_visits heads s u i
  | _ => exact kids_visits heads s rfl fun _ h => h

/-! ## The loop -/

structure Inv (heads : Heads A) (e : Expr) (s : FindState A) : Prop where
  start : e ∈ s.visited
  reached : ∀ k ∈ s.visited, Reaches e k
  stacked : ∀ k ∈ s.stack, k ∈ s.visited
  expanded : ∀ k ∈ s.visited, k ∉ s.stack → Expanded heads s k
  through : ∀ a ∈ s.updates, Through heads e s a

variable {heads}

omit [DecidableEq A] in
lemma Expanded.mono (hseen : ∀ p, s.Seen p → s'.Seen p) (hcoll : s.collector ⊆ s'.collector)
    (hupd : s.updates ⊆ s'.updates) (h : Expanded heads s k) : Expanded heads s' k := by
  cases k with
  | read u i =>
    obtain ⟨hc, hp, hu⟩ := h
    exact ⟨hcoll hc, fun p hp' => hseen p (hp p hp'), hupd hu⟩
  | _ => exact fun p hp => hseen p (h p hp)

lemma Inv.round {rest : List Expr} (h : Inv heads e s) (hstack : s.stack = top :: rest) :
    Inv heads e (visit heads true { s with stack := rest } top) := by
  have hvisits := visit_visits heads { s with stack := rest } top
  generalize visit heads true { s with stack := rest } top = s' at hvisits
  obtain ⟨new, hstack', hvisited', hnew⟩ := hvisits.pushed
  have htop : top ∈ s.visited := h.stacked top (hstack ▸ mem_cons_self)
  have hseen : ∀ p, s.Seen p → s'.Seen p := fun p hp => hvisits.pushed.seen hp
  refine ⟨?_, ?_, ?_, ?_, ?_⟩
  · rw [hvisited']
    exact mem_append_right _ h.start
  · intro k hk
    rw [hvisited', mem_append] at hk
    rcases hk with hk | hk
    · exact (h.reached top htop).tail (hnew k hk)
    · exact h.reached k hk
  · intro k hk
    rw [hstack', mem_append] at hk
    rw [hvisited', mem_append]
    exact hk.imp_right fun hk => h.stacked k (hstack ▸ mem_cons_of_mem _ hk)
  · intro k hk hoff
    rw [hvisited', mem_append] at hk
    rw [hstack', mem_append, not_or] at hoff
    by_cases hkt : k = top
    · exact hkt ▸ hvisits.expanded
    -- off the stack before this round as well
    have hbefore : k ∉ s.stack := by
      rw [hstack, mem_cons, not_or]
      exact ⟨hkt, hoff.2⟩
    exact (h.expanded k (hk.resolve_left hoff.1) hbefore).mono hseen hvisits.collector
      hvisits.updates
  · intro a ha
    rcases hvisits.through e (h.reached top htop) a ha with ha | ha
    · obtain ⟨u, i, hhead, hreach, hparts⟩ := h.through a ha
      exact ⟨u, i, hhead, hreach, fun p hp => hseen p (hparts p hp)⟩
    · exact ha

lemma loop_settles (hfollow : Followed heads e) (typed : e.WellTyped) (s : FindState A) :
    Inv heads e s → ∃ s', Settles (loop heads true · s) (some s') ∧ Inv heads e s' ∧
      s'.stack = [] := by
  induction s using worklist_induction Expr.mass FindState.stack with
  | h s ih =>
    intro h
    cases hstack : s.stack with
    | nil =>
      refine ⟨s, (Settles.const _).step fun fuel => ?_, h, hstack⟩
      simp only [loop, hstack]
    | cons top rest =>
      have hreach := h.reached top (h.stacked top (hstack ▸ mem_cons_self))
      obtain ⟨new, hstack', -, hnew⟩ := (visit_visits heads { s with stack := rest } top).pushed
      have hexp : Expands Expr.mass s.stack (visit heads true { s with stack := rest } top).stack :=
        ⟨top, rest, new, hstack, hstack', fun p hp => (hfollow.part_lt typed hreach (hnew p hp)).2⟩
      obtain ⟨s', hset, hinv, hdone⟩ := ih _ hexp (h.round hstack)
      refine ⟨s', hset.step fun fuel => ?_, hinv, hdone⟩
      simp only [loop, hstack]

end FindState

/-! ## Completeness -/

variable {ρ ρ' : Env}

lemma Env.AgreeOff.bind {name : Nat} (h : Env.AgreeOff name ρ ρ') (q x : Nat) :
    Env.AgreeOff name (ρ.bind q x) (ρ'.bind q x) where
  bytes := h.bytes
  outside := h.outside
  qvars := by simp only [Env.bind, h.qvars]

/-- The bytes of one array make no difference. -/
def Expr.Ignores (e : Expr) (name : Nat) : Prop :=
  ∀ ρ ρ', Env.AgreeOff name ρ ρ' → ∀ w, e.eval ρ w = e.eval ρ' w

lemma Operation.plain_ignores {o : Operation} {name : Nat} (h : ∀ e ∈ o.operands, e.Ignores name) :
    o.plain.Ignores name := by
  intro ρ ρ' hρ w
  have heval : ∀ e ∈ o.operands, ∀ w, e.eval ρ w = e.eval ρ' w := fun e he => h e he ρ ρ' hρ
  cases o <;> simp_all [operands, plain, eval]

section Complete

variable {A : Type} {name : Nat}

lemma KleeArray.byteAt_ignores {a : KleeArray} {i : Expr} (ha : a.WellTyped) (hi : i.WellTyped)
    (hiw : i.width = 32) (hname : a ≠ .symbolic name)
    (hclean : a.isConstrained = true → a.Clean ∧ i.Clean none)
    (hvalue : ∀ p ∈ a.values i, p.Ignores name) (hindex : i.Ignores name)
    (hρ : Env.AgreeOff name ρ ρ') : a.byteAt ρ (i.eval ρ 32) = a.byteAt ρ' (i.eval ρ 32) := by
  cases a with
  | symbolic n =>
    have hn : n ≠ name := fun heq => hname (heq ▸ rfl)
    simp only [KleeArray.byteAt, hρ.bytes n hn]
  | constantValues values => simp only [KleeArray.byteAt, Env.constantByte, hρ.outside]
  | function | guarded =>
    obtain ⟨hac, hic⟩ := hclean rfl
    have hdenotes := (KleeArray.getValueAtIndex_denotes (S := fun _ => True) ha hac
      ⟨hi, hiw, fun _ _ => rfl⟩ hic).2
    have hsame := hvalue _ (KleeArray.mem_values.2 ⟨rfl, rfl⟩) ρ ρ' hρ 8
    rw [hdenotes.value ρ trivial, hdenotes.value ρ' trivial, ← hindex ρ ρ' hρ 32] at hsame
    exact hsame

/-- The node gives the same at `j`. -/
def Update.Same (ρ ρ' : Env) (j : BitVec 32) : Update → Prop
  | .byte index value guard =>
    index.eval ρ 32 = index.eval ρ' 32 ∧ value.eval ρ 8 = value.eval ρ' 8 ∧
      guard.eval ρ 1 = guard.eval ρ' 1
  | .multi src guard => src.byteAt ρ j = src.byteAt ρ' j ∧ guard.eval ρ 1 = guard.eval ρ' 1

lemma UpdateList.byteAt_same {j : BitVec 32} : (u : UpdateList) →
    u.rootArray.byteAt ρ j = u.rootArray.byteAt ρ' j → (∀ node ∈ u.nodes, node.Same ρ ρ' j) →
    u.byteAt ρ j = u.byteAt ρ' j
  | .root _, hroot, _ => hroot
  | .byteUpdate index value guard next, hroot, hnodes => by
    obtain ⟨hi, hv, hg⟩ := hnodes _ mem_cons_self
    have hnext := next.byteAt_same hroot fun node h => hnodes node (mem_cons_of_mem _ h)
    rw [UpdateList.byteAt, UpdateList.byteAt, hi, hv, hg, hnext]
  | .multiUpdate src guard next, hroot, hnodes => by
    obtain ⟨hs, hg⟩ := hnodes _ mem_cons_self
    have hnext := next.byteAt_same hroot fun node h => hnodes node (mem_cons_of_mem _ h)
    rw [UpdateList.byteAt, UpdateList.byteAt, hs, hg, hnext]

/-- The updates under a read that is off the stack: they were gone through from a read with the same
head, and where there is a copy, at the same index. -/
lemma FindState.Inv.nodes_seen {s : FindState A} (h : s.Inv heads e)
    (hfollow : Followed heads e) {u : UpdateList} {i : Expr} (hreach : Reaches e (read u i))
    (hhead : heads.head u i ∈ s.updates) {node : Update} (hnode : node ∈ u.nodes) :
    ∀ p ∈ node.parts i, s.Seen p := by
  obtain ⟨u', i', hsame, hreach', hseen⟩ := h.through _ hhead
  have hnode' : node ∈ u'.nodes := heads.nodes_eq hsame ▸ hnode
  intro p hp
  refine hseen p (mem_flatMap.2 ⟨node, hnode', ?_⟩)
  cases node with
  | byte => exact hp
  | multi src guard =>
    rcases mem_cons.1 hp with rfl | hp
    · exact mem_cons_self
    have hcon := (KleeArray.mem_values.1 hp).1
    rw [hfollow.index hreach' hreach hsame src guard hnode' hcon]
    exact mem_cons_of_mem _ hp

lemma FindState.Inv.ignores {s : FindState A} (h : s.Inv heads e) (hdone : s.stack = [])
    (hfollow : Followed heads e) (typed : e.WellTyped)
    (hname : ∀ u i, read u i ∈ s.collector → u.rootArray ≠ .symbolic name) (m : Nat) :
    ∀ k : Expr, k.mass ≤ m → s.Seen k → k.Ignores name := by
  induction m with
  | zero =>
    intro k hm
    have hpos : 1 ≤ k.mass := k.one_le_weight _
    omega
  | succ m ih =>
    intro k hm hseen
    rcases hseen with hconst | hvisited
    · cases k with
      | constant => exact fun _ _ _ _ => rfl
      | _ => cases hconst
    have hreach := h.reached k hvisited
    have hexp := h.expanded k hvisited (by simp [hdone])
    have hpart : ∀ p ∈ k.parts, s.Seen p → p.Ignores name := by
      intro p hp hp'
      have hlt := (hfollow.part_lt typed hreach hp).2
      exact ih p (by omega) hp'
    cases k using Expr.operationRec with
    | constant => exact fun _ _ _ _ => rfl
    | qvar q w => exact fun ρ ρ' hρ w => by rw [eval, eval, hρ.qvars]
    | operation o =>
      refine Operation.plain_ignores fun p hp => hpart p (by rwa [parts_plain]) ?_
      have hkids : ∀ p ∈ o.plain.kids, s.Seen p := by cases o <;> exact hexp
      exact hkids p (by rwa [kids_plain])
    | all q w body =>
      have hbody := hpart body (by simp [Expr.parts, Expr.kids]) (hexp body (by simp [Expr.kids]))
      intro ρ ρ' hρ w'
      simp only [eval, hbody _ _ (hρ.bind q _)]
    | read u i =>
      obtain ⟨hcoll, hseen, hhead⟩ := hexp
      obtain ⟨hu, hi, hiw⟩ : (read u i).WellTyped := by
        rcases hfollow.scoped typed hreach with htyped | ⟨_, _, heq⟩
        · exact htyped
        · cases heq
      have hindex : i.Ignores name :=
        hpart i (mem_parts_read.2 (.inl mem_cons_self)) (hseen i mem_cons_self)
      have hnode : ∀ node ∈ u.nodes, ∀ p ∈ node.parts i, p.Ignores name := by
        intro node hnode p hp
        exact hpart p (mem_parts_read.2 (.inr (mem_flatMap.2 ⟨node, hnode, hp⟩)))
          (h.nodes_seen hfollow hreach hhead hnode p hp)
      intro ρ ρ' hρ w
      rw [eval, eval, ← hindex ρ ρ' hρ 32]
      congr 1
      refine u.byteAt_same ?_ fun node hmem => ?_
      · refine KleeArray.byteAt_ignores (u.rootArray_wellTyped hu) hi hiw (hname u i hcoll)
          (hfollow.clean hreach _ u.rootArray_mem) ?_ hindex hρ
        intro p hp
        have hp := mem_cons_of_mem i hp
        exact hpart p (mem_parts_read.2 (.inl hp)) (hseen p hp)
      have hparts := hnode node hmem
      cases node with
      | byte index value guard =>
        exact ⟨hparts index (by simp [Update.parts]) ρ ρ' hρ 32,
          hparts value (by simp [Update.parts]) ρ ρ' hρ 8,
          hparts guard (by simp [Update.parts]) ρ ρ' hρ 1⟩
      | multi src guard =>
        have hbelow := u.nodes_below i.mass hu _ hmem
        refine ⟨KleeArray.byteAt_ignores hbelow.1.1 hi hiw ?_
          (hfollow.clean hreach _ (u.source_mem hmem)) ?_ hindex hρ,
          hparts guard (by simp [Update.parts]) ρ ρ' hρ 1⟩
        · rintro rfl
          exact hfollow.source hreach name guard hmem
        · exact fun p hp => hparts p (mem_cons_of_mem _ hp)

variable [DecidableEq A]

/-- **Result.**  The traversal ends, and every symbolic array that the value depends on is the root
of a read that it has found. -/
theorem findReads_complete (heads : Heads A) (e : Expr) (typed : e.WellTyped)
    (h : Followed heads e) :
    ∃ reads, Settles (findReads heads true · e) (some reads) ∧
      ∀ name, e.DependsOn name → ∃ u i, read u i ∈ reads ∧ u.rootArray = .symbolic name := by
  by_cases hconst : e.isConstant = true
  · refine ⟨[], ⟨0, fun fuel _ => if_pos hconst⟩, ?_⟩
    rintro name ⟨ρ, ρ', -, hne⟩
    cases e with
    | constant => exact absurd rfl hne
    | _ => cases hconst
  have hstart : FindState.Inv heads e { stack := [e], visited := [e] } := by
    refine ⟨mem_singleton_self e, ?_, fun _ => id, ?_, by simp⟩
    · intro k hk
      rw [mem_singleton] at hk
      exact hk ▸ .refl
    · exact fun k hk hoff => absurd hk hoff
  obtain ⟨s, hset, hinv, hdone⟩ := FindState.loop_settles h typed _ hstart
  refine ⟨s.collector, ?_, ?_⟩
  · obtain ⟨enough, hset⟩ := hset
    refine ⟨enough, fun fuel hfuel => ?_⟩
    simp only [findReads, if_neg hconst, hset fuel hfuel, Option.map_some]
  · rintro name ⟨ρ, ρ', hρ, hne⟩
    by_contra hnone
    push Not at hnone
    have hignores := hinv.ignores hdone h typed hnone e.mass e le_rfl (.inr hinv.start)
    exact hne (hignores ρ ρ' hρ e.width)

end Complete

/-! ## A copy under a guard -/

lemma Reaches.mem_of_closed (hreach : Reaches e k) (es : List Expr) (he : e ∈ es)
    (hclosed : ∀ k ∈ es, ∀ p ∈ k.parts, p ∈ es) : k ∈ es := by
  induction hreach with
  | refl => exact he
  | tail _ hp ih => exact hclosed _ ih _ hp

/-- All reads of equal updates share them. -/
def sharedHeads : Heads UpdateList where
  head u _ := u
  nodes_eq h := by rw [h]

def copyArray : KleeArray :=
  .function 0 (read (.byteUpdate (constant 32 0) (read (.root (.symbolic 3)) (constant 32 0)) trueExpr
    (.root (.symbolic 2))) (qvar 0 32))

def copiedOver (src : KleeArray) : UpdateList :=
  .multiUpdate src (.cmp .eq (constant 8 0) (read (.root (.symbolic 1)) (constant 32 0)))
    (.root (.symbolic 0))

theorem findReads_complete_copyArray :
    (read (copiedOver copyArray) (constant 32 1)).WellTyped ∧
      Followed sharedHeads (read (copiedOver copyArray) (constant 32 1)) ∧
      ∃ reads, Settles (findReads sharedHeads true · (read (copiedOver copyArray) (constant 32 1)))
          (some reads) ∧
        ∀ name, (read (copiedOver copyArray) (constant 32 1)).DependsOn name →
          ∃ u i, read u i ∈ reads ∧ u.rootArray = .symbolic name := by
  have typed : (read (copiedOver copyArray) (constant 32 1)).WellTyped := by
    simp [copiedOver, copyArray, WellTyped, UpdateList.WellTyped, KleeArray.WellTyped, width,
      trueExpr]
  have hreads : ∀ {u i}, Reaches (read (copiedOver copyArray) (constant 32 1)) (read u i) →
      (u = copiedOver copyArray ∧ i = constant 32 1) ∨
        (u.nodes = [] ∧ ∃ name, u.rootArray = .symbolic name) := by
    intro u i hreach
    have hmem := hreach.mem_of_closed
      [read (copiedOver copyArray) (constant 32 1), constant 32 1, constant 8 0,
        .cmp .eq (constant 8 0) (read (.root (.symbolic 1)) (constant 32 0)),
        read (.root (.symbolic 1)) (constant 32 0), constant 32 0,
        read (.root (.symbolic 2)) (constant 32 1)]
      (by simp) (by decide +kernel)
    simp only [mem_cons, read.injEq, not_mem_nil, or_false, reduceCtorEq, false_or] at hmem
    rcases hmem with ⟨rfl, rfl⟩ | ⟨rfl, rfl⟩ | ⟨rfl, rfl⟩
    · exact .inl ⟨rfl, rfl⟩
    · exact .inr ⟨rfl, 1, rfl⟩
    · exact .inr ⟨rfl, 2, rfl⟩
  have hsource : ∀ {src guard}, .multi src guard ∈ (copiedOver copyArray).nodes →
      src = copyArray := by
    intro src guard hmem
    simp only [copiedOver, UpdateList.nodes, mem_cons, not_mem_nil, or_false] at hmem
    exact (Update.multi.inj hmem).1
  have hfollow : Followed sharedHeads (read (copiedOver copyArray) (constant 32 1)) := by
    refine ⟨?_, ?_, ?_⟩
    · intro u i hreach a ha hcon
      rcases hreads hreach with ⟨rfl, rfl⟩ | ⟨hnodes, name, hroot⟩
      · have ha : a = .symbolic 0 ∨ a = copyArray := by
          simpa [copiedOver, UpdateList.arrays, UpdateList.nodes, UpdateList.rootArray] using ha
        rcases ha with rfl | rfl
        · cases hcon
        · simp [copyArray, KleeArray.Clean, Clean, UpdateList.Clean, trueExpr]
      · have ha : a = .symbolic name := by simpa [UpdateList.arrays, hnodes, hroot] using ha
        subst ha
        cases hcon
    · intro u i hreach name guard hmem
      rcases hreads hreach with ⟨rfl, rfl⟩ | ⟨hnodes, -⟩
      · cases hsource hmem
      · simp [hnodes] at hmem
    · intro u i u' i' hreach hreach' hsame src guard hmem _
      obtain rfl : u = u' := hsame
      rcases hreads hreach with ⟨rfl, rfl⟩ | ⟨hnodes, -⟩
      · rcases hreads hreach' with ⟨-, rfl⟩ | ⟨hnodes, -⟩
        · rfl
        · simp [hnodes] at hmem
      · simp [hnodes] at hmem
  exact ⟨typed, hfollow, findReads_complete _ _ typed hfollow⟩

def onlyBuffer3 (v : BitVec 8) : Env where
  bytes n _ := if n = 3 then v else 0
  outside _ _ := 0
  qvars _ := 0

lemma onlyBuffer3_agreeOff (v v' : BitVec 8) :
    Env.AgreeOff 3 (onlyBuffer3 v) (onlyBuffer3 v') := by
  refine ⟨fun n hn => ?_, rfl, rfl⟩
  simp only [onlyBuffer3, if_neg hn]

/-- Read at two indices, the copy is unfolded at one of them only, and buffer 3 is not found; a copy
from a symbolic buffer is not found either. -/
theorem findReads_copy_missed :
    (∃ reads, Settles (findReads sharedHeads true ·
        (concat (read (copiedOver copyArray) (constant 32 0))
          (read (copiedOver copyArray) (constant 32 1)))) (some reads) ∧
      (∀ u i, read u i ∈ reads → u.rootArray ≠ .symbolic 3) ∧
      (concat (read (copiedOver copyArray) (constant 32 0))
        (read (copiedOver copyArray) (constant 32 1))).DependsOn 3) ∧
    ∃ reads, Settles (findReads sharedHeads true ·
        (read (copiedOver (.symbolic 3)) (constant 32 0))) (some reads) ∧
      (∀ u i, read u i ∈ reads → u.rootArray ≠ .symbolic 3) ∧
      (read (copiedOver (.symbolic 3)) (constant 32 0)).DependsOn 3 := by
  constructor
  · refine ⟨[read (copiedOver copyArray) (constant 32 1), read (.root (.symbolic 2)) (constant 32 1),
      read (.root (.symbolic 1)) (constant 32 0), read (copiedOver copyArray) (constant 32 0)],
      ⟨20, fun fuel hfuel => ?_⟩, ?_, _, _, onlyBuffer3_agreeOff 0 1, by decide +kernel⟩
    · obtain ⟨k, rfl⟩ := Nat.exists_eq_add_of_le' hfuel
      rfl
    · intro u i hmem
      simp only [mem_cons, read.injEq, not_mem_nil, or_false] at hmem
      rcases hmem with ⟨rfl, -⟩ | ⟨rfl, -⟩ | ⟨rfl, -⟩ | ⟨rfl, -⟩ <;> decide
  · refine ⟨[read (copiedOver (.symbolic 3)) (constant 32 0), read (.root (.symbolic 1)) (constant 32 0)],
      ⟨20, fun fuel hfuel => ?_⟩, ?_, _, _, onlyBuffer3_agreeOff 0 1, by decide +kernel⟩
    · obtain ⟨k, rfl⟩ := Nat.exists_eq_add_of_le' hfuel
      rfl
    · intro u i hmem
      simp only [mem_cons, read.injEq, not_mem_nil, or_false] at hmem
      rcases hmem with ⟨rfl, -⟩ | ⟨rfl, -⟩ <;> decide

end InputCovSched.Klee
