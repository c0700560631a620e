import InputCovSched.Lib.Gluing

/-!
# The constraints that a query depends on (`lib/Solver/IndependentSolver.cpp`)

Of an expression the solver looks at `findReads` only: the arrays that are read, each at a
constant index or at some other one. `IndependentElementSet` holds the bytes and the wholly read
arrays of such reads; a map from arrays to sets of indices is the list of its pairs here.

`getDependentConstraints` goes over the constraints again and again, until a pass adds no byte to
what the query reaches.
-/

namespace InputCovSched.Klee

open List

variable {A E : Type} [DecidableEq A]

abbrev ReadAt (A : Type) := A × Option Nat

structure IndependentElementSet (A : Type) where
  elements : List (A × Nat) := []
  wholeObjects : List A := []

open IndependentElementSet

namespace IndependentElementSet

/-- The loop body of the constructor. -/
def addRead (s : IndependentElementSet A) (read : ReadAt A) : IndependentElementSet A :=
  if read.1 ∈ s.wholeObjects then s
  else
    match read.2 with
    | some index => { s with elements := (read.1, index) :: s.elements }
    | none =>
      { elements := s.elements.filter (·.1 ≠ read.1), wholeObjects := read.1 :: s.wholeObjects }

def ofReads (reads : List (ReadAt A)) : IndependentElementSet A := reads.foldl addRead {}

/-- `elements.find(array) != elements.end()`. -/
def hasElements (s : IndependentElementSet A) (array : A) : Bool :=
  s.elements.any (·.1 = array)

def intersects (s b : IndependentElementSet A) : Bool :=
  (s.wholeObjects.any fun array => array ∈ b.wholeObjects || b.hasElements array) ||
    s.elements.any fun p => p.1 ∈ b.wholeObjects || p ∈ b.elements

/-- The loop bodies of `add`: the set, and whether it was modified. -/
def addWhole (s : IndependentElementSet A × Bool) (array : A) : IndependentElementSet A × Bool :=
  if s.1.hasElements array then
    ({ elements := s.1.elements.filter (·.1 ≠ array),
       wholeObjects := array :: s.1.wholeObjects }, true)
  else if array ∈ s.1.wholeObjects then s
  else ({ s.1 with wholeObjects := array :: s.1.wholeObjects }, true)

def addElement (s : IndependentElementSet A × Bool) (p : A × Nat) :
    IndependentElementSet A × Bool :=
  if p.1 ∈ s.1.wholeObjects then s
  else if p ∈ s.1.elements then s
  else ({ s.1 with elements := p :: s.1.elements }, true)

def add (s b : IndependentElementSet A) : IndependentElementSet A × Bool :=
  b.elements.foldl addElement (b.wholeObjects.foldl addWhole (s, false))

/-! ## The bytes of a set -/

def bytes (s : IndependentElementSet A) : Set (A × Nat) :=
  {p | p ∈ s.elements ∨ p.1 ∈ s.wholeObjects}

omit [DecidableEq A] in
lemma mem_bytes {s : IndependentElementSet A} {p : A × Nat} :
    p ∈ s.bytes ↔ p ∈ s.elements ∨ p.1 ∈ s.wholeObjects := Iff.rfl

/-- The bytes that a read can find. -/
def readBytes (read : ReadAt A) : Set (A × Nat) := {p | p.1 = read.1 ∧ ∀ i ∈ read.2, p.2 = i}

omit [DecidableEq A] in
lemma mem_readBytes {read : ReadAt A} {p : A × Nat} :
    p ∈ readBytes read ↔ p.1 = read.1 ∧ ∀ i ∈ read.2, p.2 = i := Iff.rfl

lemma mem_bytes_addRead (s : IndependentElementSet A) (read : ReadAt A) (p : A × Nat) :
    p ∈ (s.addRead read).bytes ↔ p ∈ s.bytes ∨ p ∈ readBytes read := by
  obtain ⟨a, i⟩ := p
  obtain ⟨a', i'⟩ := read
  unfold addRead
  split
  · next h =>
    constructor
    · exact .inl
    · rintro (h' | ⟨rfl, -⟩)
      · exact h'
      · exact .inr h
  cases i' with
  | some i' =>
    simp only [mem_bytes, mem_readBytes, mem_cons, Prod.mk.injEq, Option.mem_some, forall_eq']
    grind
  | none =>
    simp only [mem_bytes, mem_readBytes, mem_cons, mem_filter, decide_eq_true_eq]
    grind

lemma mem_bytes_ofReads (reads : List (ReadAt A)) (p : A × Nat) :
    p ∈ (ofReads reads).bytes ↔ ∃ read ∈ reads, p ∈ readBytes read := by
  have hfold : ∀ s : IndependentElementSet A, p ∈ (reads.foldl addRead s).bytes ↔
      p ∈ s.bytes ∨ ∃ read ∈ reads, p ∈ readBytes read := by
    induction reads with
    | nil => intro s; simp
    | cons read reads ih =>
      intro s
      rw [foldl_cons, ih, mem_bytes_addRead, or_assoc]
      simp only [mem_cons, exists_eq_or_imp]
  rw [ofReads, hfold]
  simp [mem_bytes]

lemma hasElements_iff (s : IndependentElementSet A) (array : A) :
    s.hasElements array = true ↔ ∃ i, (array, i) ∈ s.elements := by
  simp [hasElements]

lemma intersects_iff (s b : IndependentElementSet A) :
    s.intersects b = true ↔ ∃ p, p ∈ s.bytes ∧ p ∈ b.bytes := by
  simp only [intersects, Bool.or_eq_true, any_eq_true, decide_eq_true_eq, hasElements_iff,
    mem_bytes]
  constructor
  · rintro (⟨a, ha, hb | ⟨i, hi⟩⟩ | ⟨p, hp, hb⟩)
    · exact ⟨(a, 0), .inr ha, .inr hb⟩
    · exact ⟨(a, i), .inr ha, .inl hi⟩
    · exact ⟨p, .inl hp, hb.symm⟩
  · rintro ⟨⟨a, i⟩, hp | hp, hb⟩
    · exact .inr ⟨(a, i), hp, hb.symm⟩
    · refine .inl ⟨a, hp, ?_⟩
      rcases hb with hb | hb
      · exact .inr ⟨i, hb⟩
      · exact .inl hb

lemma mem_bytes_addWhole (s : IndependentElementSet A × Bool) (array : A) (p : A × Nat) :
    p ∈ (addWhole s array).1.bytes ↔ p ∈ s.1.bytes ∨ p.1 = array := by
  unfold addWhole
  split
  · simp only [mem_bytes, mem_filter, mem_cons, decide_eq_true_eq]
    grind
  split
  · next h =>
    constructor
    · exact .inl
    · rintro (h' | rfl)
      · exact h'
      · exact .inr h
  · simp only [mem_bytes, mem_cons]
    grind

lemma mem_bytes_addElement (s : IndependentElementSet A × Bool) (q p : A × Nat) :
    p ∈ (addElement s q).1.bytes ↔ p ∈ s.1.bytes ∨ p = q := by
  unfold addElement
  split
  · next h =>
    constructor
    · exact .inl
    · rintro (h' | rfl)
      · exact h'
      · exact .inr h
  split
  · next h =>
    constructor
    · exact .inl
    · rintro (h' | rfl)
      · exact h'
      · exact .inl h
  · simp only [mem_bytes, mem_cons]
    grind

lemma mem_bytes_add (s b : IndependentElementSet A) (p : A × Nat) :
    p ∈ (s.add b).1.bytes ↔ p ∈ s.bytes ∨ p ∈ b.bytes := by
  have hwhole : ∀ (arrays : List A) (s : IndependentElementSet A × Bool),
      p ∈ (arrays.foldl addWhole s).1.bytes ↔ p ∈ s.1.bytes ∨ p.1 ∈ arrays := by
    intro arrays
    induction arrays with
    | nil => intro s; simp
    | cons array arrays ih =>
      intro s
      rw [foldl_cons, ih, mem_bytes_addWhole, or_assoc, mem_cons]
  have helement : ∀ (elements : List (A × Nat)) (s : IndependentElementSet A × Bool),
      p ∈ (elements.foldl addElement s).1.bytes ↔ p ∈ s.1.bytes ∨ p ∈ elements := by
    intro elements
    induction elements with
    | nil => intro s; simp
    | cons q elements ih =>
      intro s
      rw [foldl_cons, ih, mem_bytes_addElement, or_assoc, mem_cons]
  rw [add, helement, hwhole, or_assoc, or_comm (a := p.1 ∈ b.wholeObjects)]
  rfl

section
variable (s : IndependentElementSet A × Bool)
include s

lemma addWhole_unmodified (array : A)
    (h : (addWhole s array).2 = false) : addWhole s array = s := by
  unfold addWhole at h ⊢
  split at h
  · cases h
  split at h
  · simp_all
  · cases h

lemma addElement_unmodified (p : A × Nat)
    (h : (addElement s p).2 = false) : addElement s p = s := by
  unfold addElement at h ⊢
  split at h
  · simp_all
  split at h
  · simp_all
  · cases h

omit [DecidableEq A] in
lemma foldl_unmodified {T : Type} {f : IndependentElementSet A × Bool → T → IndependentElementSet A × Bool}
    (hf : ∀ s x, (f s x).2 = false → f s x = s) (xs : List T)
    (h : (xs.foldl f s).2 = false) : xs.foldl f s = s := by
  induction xs generalizing s with
  | nil => rfl
  | cons x xs ih =>
    rw [foldl_cons] at h ⊢
    have hrest := ih _ h
    rw [hrest] at h
    rw [hrest, hf s x h]

end

lemma add_unmodified (s b : IndependentElementSet A) (h : (s.add b).2 = false) :
    (s.add b).1 = s := by
  have helement := foldl_unmodified _ addElement_unmodified _ h
  rw [add, helement] at h
  rw [add, helement, foldl_unmodified _ addWhole_unmodified _ h]

end IndependentElementSet

/-! ## The worklist -/

section Solver

variable (findReads : E → List (ReadAt A))

def elementSet (e : E) : IndependentElementSet A := .ofReads (findReads e)

/-- What a pass over the worklist has computed so far. -/
structure Pass (E A : Type) where
  eltsClosure : IndependentElementSet A
  result : List E := []
  newWorklist : List E := []
  done : Bool := true

/-- The body of the inner loop. -/
def Pass.visit (p : Pass E A) (c : E) : Pass E A :=
  if (elementSet findReads c).intersects p.eltsClosure then
    let added := p.eltsClosure.add (elementSet findReads c)
    { p with eltsClosure := added.1, result := p.result ++ [c], done := p.done && !added.2 }
  else { p with newWorklist := p.newWorklist ++ [c] }

/-- One round of the outer loop. -/
def pass (eltsClosure : IndependentElementSet A) (result worklist : List E) : Pass E A :=
  worklist.foldl (Pass.visit findReads) { eltsClosure, result }

lemma visit_length (p : Pass E A) (c : E) :
    (p.visit findReads c).newWorklist.length ≤ p.newWorklist.length + 1 ∧
      ((p.visit findReads c).done = p.done ∨
        (p.visit findReads c).newWorklist.length = p.newWorklist.length) := by
  unfold Pass.visit
  split
  · exact ⟨Nat.le_succ _, .inr rfl⟩
  · exact ⟨by simp, .inl rfl⟩

lemma pass_length (worklist : List E) (p : Pass E A) :
    (worklist.foldl (Pass.visit findReads) p).newWorklist.length ≤
        p.newWorklist.length + worklist.length ∧
      ((worklist.foldl (Pass.visit findReads) p).done = p.done ∨
        (worklist.foldl (Pass.visit findReads) p).newWorklist.length <
          p.newWorklist.length + worklist.length) := by
  induction worklist generalizing p with
  | nil => exact ⟨le_rfl, .inl rfl⟩
  | cons c worklist ih =>
    obtain ⟨hle, hdone⟩ := ih (p.visit findReads c)
    obtain ⟨hle', hdone'⟩ := visit_length findReads p c
    rw [foldl_cons, length_cons]
    refine ⟨by omega, ?_⟩
    rcases hdone with hdone | hlt
    · rcases hdone' with hdone' | hlt
      · exact .inl (hdone.trans hdone')
      · exact .inr (by omega)
    · exact .inr (by omega)

def dependentLoop (eltsClosure : IndependentElementSet A) (result worklist : List E) : List E :=
  let p := pass findReads eltsClosure result worklist
  if p.done = true then p.result else dependentLoop p.eltsClosure p.result p.newWorklist
termination_by worklist.length
decreasing_by
  have hlen := (pass_length findReads worklist { eltsClosure, result }).2
  simp_all [p, pass]

def getDependentConstraints (constraints : List E) (q : E) : List E :=
  dependentLoop findReads (elementSet findReads q) [] constraints

/-! ## What is returned -/

/-- A byte that both read, or an array that one reads wholly and the other at all. -/
def Shares (e e' : E) : Prop :=
  (∃ a i, (a, some i) ∈ findReads e ∧ (a, some i) ∈ findReads e') ∨
    (∃ a i, (a, none) ∈ findReads e ∧ (a, i) ∈ findReads e') ∨
      ∃ a i, (a, i) ∈ findReads e ∧ (a, none) ∈ findReads e'

def readsOf (e : E) : Set (A × Nat) := (elementSet findReads e).bytes

lemma shares_iff (e e' : E) :
    Shares findReads e e' ↔ ∃ p, p ∈ readsOf findReads e ∧ p ∈ readsOf findReads e' := by
  simp only [readsOf, elementSet, mem_bytes_ofReads, mem_readBytes]
  constructor
  · rintro (⟨a, i, h, h'⟩ | ⟨a, i, h, h'⟩ | ⟨a, i, h, h'⟩)
    · exact ⟨(a, i), ⟨_, h, by simp⟩, ⟨_, h', by simp⟩⟩
    · exact ⟨(a, i.getD 0), ⟨_, h, by simp⟩, ⟨_, h', by cases i <;> simp⟩⟩
    · exact ⟨(a, i.getD 0), ⟨_, h, by cases i <;> simp⟩, ⟨_, h', by simp⟩⟩
  · rintro ⟨⟨a, i⟩, ⟨⟨b, j⟩, h, hb, hj⟩, ⟨⟨b', j'⟩, h', hb', hj'⟩⟩
    obtain rfl : a = b := hb
    obtain rfl : a = b' := hb'
    cases j with
    | none => exact .inr (.inl ⟨a, j', h, h'⟩)
    | some j =>
      cases j' with
      | none => exact .inr (.inr ⟨a, some j, h, h'⟩)
      | some j' =>
        obtain rfl : i = j := hj j rfl
        obtain rfl : i = j' := hj' j' rfl
        exact .inl ⟨a, i, h, h'⟩

variable (constraints : List E) (q : E)

/-- A constraint that shares something with the one before it. -/
def Link (e e' : E) : Prop := e' ∈ constraints ∧ Shares findReads e e'

/-- What the rounds keep: the closure is what the query and the result read, and the result is
linked to the query. -/
structure LoopInv (eltsClosure : IndependentElementSet A) (result worklist : List E) : Prop where
  closure : ∀ p, p ∈ eltsClosure.bytes ↔ ∃ e ∈ q :: result, p ∈ readsOf findReads e
  all : ∀ c, c ∈ constraints ↔ c ∈ result ∨ c ∈ worklist
  linked : ∀ c ∈ result, Relation.TransGen (Link findReads constraints) q c

/-- Within a pass, with the constraints `rest` to come. -/
structure PassInv (start : IndependentElementSet A) (p : Pass E A) (rest : List E) : Prop where
  loop : LoopInv findReads constraints q p.eltsClosure p.result (p.newWorklist ++ rest)
  done : p.done = true → p.eltsClosure = start ∧
    ∀ c ∈ p.newWorklist, (elementSet findReads c).intersects start = false

variable {findReads constraints q}

lemma PassInv.visit {rest : List E} (h : PassInv findReads constraints q start p (c :: rest)) :
    PassInv findReads constraints q start (p.visit findReads c) rest := by
  have hc : c ∈ constraints := (h.loop.all c).2 (.inr (by simp))
  unfold Pass.visit
  split
  · next hint =>
    obtain ⟨x, hxc, hx⟩ := (intersects_iff _ _).1 hint
    obtain ⟨e, he, hxe⟩ := (h.loop.closure x).1 hx
    have hlink : Link findReads constraints e c := ⟨hc, (shares_iff findReads e c).2 ⟨x, hxe, hxc⟩⟩
    refine ⟨⟨fun x => ?_, fun d => ?_, fun d hd => ?_⟩, fun hdone => ?_⟩
    · rw [mem_bytes_add, h.loop.closure]
      simp only [mem_cons, mem_append, not_mem_nil, or_false]
      grind [readsOf]
    · rw [h.loop.all]
      grind
    · rcases mem_append.1 hd with hd | hd
      · exact h.loop.linked d hd
      obtain rfl := mem_singleton.1 hd
      rcases mem_cons.1 he with rfl | he
      · exact .single hlink
      · exact (h.loop.linked e he).tail hlink
    · simp only [Bool.and_eq_true, Bool.not_eq_true'] at hdone
      obtain ⟨hstart, hnew⟩ := h.done hdone.1
      exact ⟨(add_unmodified _ _ hdone.2).trans hstart, hnew⟩
  · next hint =>
    rw [Bool.not_eq_true] at hint
    refine ⟨⟨h.loop.closure, fun d => ?_, h.loop.linked⟩, fun hdone => ?_⟩
    · rw [h.loop.all]
      simp
    obtain ⟨hstart, hnew⟩ := h.done hdone
    refine ⟨hstart, fun d hd => ?_⟩
    rcases mem_append.1 hd with hd | hd
    · exact hnew d hd
    obtain rfl := mem_singleton.1 hd
    rw [← hstart]
    exact hint

lemma PassInv.foldl {rest : List E} (h : PassInv findReads constraints q start p rest) :
    PassInv findReads constraints q start (rest.foldl (Pass.visit findReads) p) [] := by
  induction rest generalizing p with
  | nil => exact h
  | cons c rest ih => exact ih h.visit

lemma dependentLoop_spec (eltsClosure : IndependentElementSet A) (result worklist : List E)
    (h : LoopInv findReads constraints q eltsClosure result worklist) :
    ∃ last rest, LoopInv findReads constraints q last
        (dependentLoop findReads eltsClosure result worklist) rest ∧
      ∀ c ∈ rest, (elementSet findReads c).intersects last = false := by
  fun_induction dependentLoop findReads eltsClosure result worklist with
  | case1 eltsClosure result worklist p hdone =>
    have hpass : PassInv findReads constraints q eltsClosure p [] :=
      PassInv.foldl ⟨by simpa using h, by simp⟩
    obtain ⟨hstart, hrest⟩ := hpass.done hdone
    refine ⟨p.eltsClosure, p.newWorklist, by simpa using hpass.loop, ?_⟩
    rw [hstart]
    exact hrest
  | case2 eltsClosure result worklist p hdone ih =>
    have hpass : PassInv findReads constraints q eltsClosure p [] :=
      PassInv.foldl ⟨by simpa using h, by simp⟩
    exact ih (by simpa using hpass.loop)

lemma getDependentConstraints_spec (findReads : E → List (ReadAt A)) (constraints : List E)
    (q : E) :
    ∃ last rest, LoopInv findReads constraints q last
        (getDependentConstraints findReads constraints q) rest ∧
      ∀ c ∈ rest, (elementSet findReads c).intersects last = false :=
  dependentLoop_spec _ _ _ ⟨by simp [readsOf], by simp, by simp⟩

section
variable {last : IndependentElementSet A} {result rest : List E}
  (h : LoopInv findReads constraints q last result rest)
  (hrest : ∀ c ∈ rest, (elementSet findReads c).intersects last = false)
include h hrest

lemma LoopInv.separated (hc : c ∈ rest) (he : e ∈ q :: result) : ¬ Shares findReads e c := by
  intro hshare
  obtain ⟨x, hxe, hxc⟩ := (shares_iff findReads e c).1 hshare
  have hlast : x ∈ last.bytes := (h.closure x).2 ⟨e, he, hxe⟩
  have hint := (intersects_iff (elementSet findReads c) last).2 ⟨x, hxc, hlast⟩
  rw [hrest c hc] at hint
  cases hint

lemma LoopInv.mem_result_iff (c : E) :
    c ∈ result ↔ Relation.TransGen (Link findReads constraints) q c := by
  refine ⟨h.linked c, fun hlinks => ?_⟩
  have htaken : ∀ e ∈ q :: result, ∀ d, Link findReads constraints e d → d ∈ result := by
    rintro e he d ⟨hd, hshare⟩
    exact ((h.all d).1 hd).resolve_right fun hdr => h.separated hrest hdr he hshare
  induction hlinks with
  | single hlink => exact htaken q (by simp) _ hlink
  | tail _ hlink ih => exact htaken _ (by simp [ih]) _ hlink

end

section Meaning

open Gluing

variable {V : Type} {holds : (A × Nat → V) → E → Prop}

/-- **Result.**  Where the reads of the query and of the constraints are all that they depend on,
the constraints that are returned imply the query exactly if all of them do; they are those that
a chain of shared bytes and wholly read arrays links to the query. -/
theorem getDependentConstraints_closure (constraints : List E) (q : E)
    (hsat : ∃ m, Models holds m constraints)
    (hcomplete : ∀ e ∈ q :: constraints, DependsOnly holds e (readsOf findReads e)) :
    (Implies holds constraints q ↔
        Implies holds (getDependentConstraints findReads constraints q) q) ∧
      ∀ c, c ∈ getDependentConstraints findReads constraints q ↔
        Relation.TransGen (Link findReads constraints) q c := by
  obtain ⟨last, rest, hinv, hrest⟩ := getDependentConstraints_spec findReads constraints q
  refine ⟨implies_iff_of_separated (s := last.bytes) hsat hcomplete ?_ ?_ ?_ ?_,
    hinv.mem_result_iff hrest⟩
  · exact fun c hc => (hinv.all c).2 (.inl hc)
  · exact fun x hx => (hinv.closure x).2 ⟨q, by simp, hx⟩
  · exact fun c hc x hx => (hinv.closure x).2 ⟨c, by simp [hc], hx⟩
  · intro c hc hnot x hxc hx
    have hcr : c ∈ rest := ((hinv.all c).1 hc).resolve_left hnot
    obtain ⟨e, he, hxe⟩ := (hinv.closure x).1 hx
    exact hinv.separated hrest hcr he ((shares_iff findReads e c).2 ⟨x, hxe, hxc⟩)

/-- Two equalities `A[i] = v`, of which the second has nothing to do with the query. -/
theorem getDependentConstraints_closure_pair :
    Implies (fun (m : Nat × Nat → Nat) (e : Nat × Nat) => m (0, e.1) = e.2) [(0, 1), (1, 2)] (0, 1) ↔
      Implies (fun (m : Nat × Nat → Nat) (e : Nat × Nat) => m (0, e.1) = e.2)
        (getDependentConstraints (fun e => [((0 : Nat), some e.1)]) [(0, 1), (1, 2)] (0, 1))
        (0, 1) := by
  refine (getDependentConstraints_closure [(0, 1), (1, 2)] (0, 1) ⟨fun p => p.2 + 1, ?_⟩ ?_).1
  · simp [Models]
  · intro e _ m m' h
    have hread : (0, e.1) ∈ readsOf (fun e : Nat × Nat => [((0 : Nat), some e.1)]) e := by
      simp [readsOf, elementSet, IndependentElementSet.mem_bytes_ofReads,
        IndependentElementSet.mem_readBytes]
    simp only [h (0, e.1) hread]

end Meaning

end Solver

end InputCovSched.Klee
