import InputCovSched.Klee.MapOfSets

/-!
# The counterexample cache (`lib/Solver/CexCachingSolver.cpp`)

The cache maps sets of constraints to an assignment that satisfies them, or to null if nothing
does; a query is answered from its own key, from a superset with an assignment, from a subset that
has none, or from some assignment that satisfies it. It sees expressions and assignments through
what is in `Parts`.

Every entry is right (`CacheOk`), whatever queries have put it there, and so every answer is
(`CexCache.handle_correct`).
-/

namespace InputCovSched.Klee

open List

structure Parts (E Asg : Type) where
  falseExpr : E
  /-- `Expr::createIsZero` -/
  isZero : E → E
  /-- the value of a boolean `ConstantExpr` -/
  asConstant : E → Option Bool
  /-- `Assignment::evaluate` of a boolean expression, if that gives a constant -/
  evaluate : Asg → E → Option Bool
  /-- `Assignment::satisfies`: all of them evaluate to true -/
  satisfies : Asg → List E → Bool
  /-- `computeInitialValues` of the inner solver: nothing if it fails, null if there is no
  solution -/
  inner : List E → E → Option (Option Asg)
  /-- `CexCacheTryAll` -/
  tryAll : Bool
  /-- `CexCacheExperimental` -/
  experimental : Bool

structure Query (E : Type) where
  constraints : List E
  expr : E

structure CexCache (E Asg : Type) where
  cache : MapOfSets.Node E (Option Asg) := .empty
  assignmentsTable : List Asg := []

variable {E Asg : Type} [LinearOrder E]

def insertKey (e : E) : List E → List E
  | [] => [e]
  | x :: xs => if e < x then e :: x :: xs else if e = x then x :: xs else x :: insertKey e xs

def keyOf (constraints : List E) : List E := constraints.foldl (fun key c => insertKey c key) []

namespace CexCache

variable (o : Parts E Asg) (s : CexCache E Asg)

/-- `NullOrSatisfyingAssignment`. -/
def nullOrSatisfies (key : List E) : Option Asg → Bool
  | none => true
  | some a => o.satisfies a key

/-- Nothing if the key is not found, else an assignment or null. -/
def searchForAssignment (key : List E) : Option (Option Asg) :=
  match s.cache.lookup key with
  | some result => some result
  | none =>
    match s.cache.findSuperset Option.isSome key with
    | some result => some result
    | none =>
      if o.tryAll then
        match s.cache.findSubset Option.isNone key with
        | some result => some result
        | none => (s.assignmentsTable.find? (o.satisfies · key)).map some
      else s.cache.findSubset (nullOrSatisfies o key) key

/-- The key of the query, and what is found for it. -/
def lookupAssignment (q : Query E) : List E × Option (Option Asg) :=
  match o.asConstant (o.isZero q.expr) with
  | some false => (keyOf q.constraints, some none)
  | some true => (keyOf q.constraints, searchForAssignment o s (keyOf q.constraints))
  | none =>
    (insertKey (o.isZero q.expr) (keyOf q.constraints),
      searchForAssignment o s (insertKey (o.isZero q.expr) (keyOf q.constraints)))

def getAssignment [DecidableEq Asg] (q : Query E) : CexCache E Asg × Option (Option Asg) :=
  match lookupAssignment o s q with
  | (_, some result) => (s, some result)
  | (key, none) =>
    match o.inner q.constraints q.expr with
    | none => (s, none)
    | some none => ({ s with cache := s.cache.insert none key }, some none)
    | some (some binding) =>
      ({ cache := s.cache.insert (some binding) key,
         assignmentsTable := s.assignmentsTable.insert binding }, some (some binding))

end CexCache

inductive Validity where
  | isTrue
  | isFalse
  | unknown

inductive Reply (Asg : Type) where
  /-- the solver returns false -/
  | failed
  /-- an assertion: the constraints must have an assignment -/
  | noAssignment
  /-- an assertion: the expression must evaluate to a constant -/
  | notConstant
  | truth (isValid : Bool)
  | validity (result : Validity)
  /-- null if there is no solution -/
  | initialValues (result : Option Asg)
  | value (result : Bool)

inductive Request (E : Type) where
  | truth (q : Query E)
  | validity (q : Query E)
  | initialValues (q : Query E)
  | value (q : Query E)

namespace CexCache

variable [DecidableEq Asg] (o : Parts E Asg) (s : CexCache E Asg)

section
variable (q : Query E)

def withFalse : Query E := { q with expr := o.falseExpr }

def negateExpr : Query E := { q with expr := o.isZero q.expr }

def computeTruth : CexCache E Asg × Reply Asg :=
  if o.experimental ∧ (lookupAssignment o s (negateExpr o q)).2 = some none then (s, .failed)
  else
    match getAssignment o s q with
    | (s, none) => (s, .failed)
    | (s, some a) => (s, .truth a.isNone)

def computeValidity : CexCache E Asg × Reply Asg :=
  match getAssignment o s (withFalse o q) with
  | (s, none) => (s, .failed)
  | (s, some none) => (s, .noAssignment)
  | (s, some (some a)) =>
    match o.evaluate a q.expr with
    | none => (s, .notConstant)
    | some true =>
      match getAssignment o s q with
      | (s, none) => (s, .failed)
      | (s, some none) => (s, .validity .isTrue)
      | (s, some (some _)) => (s, .validity .unknown)
    | some false =>
      match getAssignment o s (negateExpr o q) with
      | (s, none) => (s, .failed)
      | (s, some none) => (s, .validity .isFalse)
      | (s, some (some _)) => (s, .validity .unknown)

def computeInitialValues : CexCache E Asg × Reply Asg :=
  match getAssignment o s q with
  | (s, none) => (s, .failed)
  | (s, some a) => (s, .initialValues a)

def computeValue : CexCache E Asg × Reply Asg :=
  match getAssignment o s (withFalse o q) with
  | (s, none) => (s, .failed)
  | (s, some none) => (s, .noAssignment)
  | (s, some (some a)) =>
    match o.evaluate a q.expr with
    | none => (s, .notConstant)
    | some b => (s, .value b)

end

def handle : Request E → CexCache E Asg × Reply Asg
  | .truth q => computeTruth o s q
  | .validity q => computeValidity o s q
  | .initialValues q => computeInitialValues o s q
  | .value q => computeValue o s q

def after (requests : List (Request E)) : CexCache E Asg :=
  requests.foldl (fun s r => (handle o s r).1) {}

end CexCache

/-! ## Correct answers -/

variable {M : Type} (holds : M → E → Prop) (valuation : Asg → M)

/-- What the parts promise: negation and constants mean what they say; an assignment stands for
one valuation, and what it evaluates to is the truth there; the inner solver is right. -/
structure Parts.Sound (o : Parts E Asg) : Prop where
  falseExpr : ∀ m, ¬ holds m o.falseExpr
  isZero : ∀ m e, holds m (o.isZero e) ↔ ¬ holds m e
  asConstant : ∀ m e b, o.asConstant e = some b → (holds m e ↔ b = true)
  evaluate : ∀ a e b, o.evaluate a e = some b → (holds (valuation a) e ↔ b = true)
  satisfies : ∀ a key, o.satisfies a key = true → ∀ e ∈ key, holds (valuation a) e
  inner_solution : ∀ C e a, o.inner C e = some (some a) →
    (∀ c ∈ C, holds (valuation a) c) ∧ ¬ holds (valuation a) e
  inner_none : ∀ C e, o.inner C e = some none → ∀ m, (∀ c ∈ C, holds m c) → holds m e

def Query.Counterexample (q : Query E) (m : M) : Prop :=
  (∀ c ∈ q.constraints, holds m c) ∧ ¬ holds m q.expr

def Query.Valid (q : Query E) : Prop := ∀ m, (∀ c ∈ q.constraints, holds m c) → holds m q.expr

def Query.Refuted (q : Query E) : Prop := ∀ m, (∀ c ∈ q.constraints, holds m c) → ¬ holds m q.expr

def Query.Satisfiable (q : Query E) : Prop := ∃ m, ∀ c ∈ q.constraints, holds m c

def Request.query : Request E → Query E
  | .truth q | .validity q | .initialValues q | .value q => q

/-- The answers that are right for a query. There is none only if the inner solver fails, with
the experimental shortcut, or if an evaluation does not give a constant. -/
def Reply.Correct (o : Parts E Asg) (q : Query E) : Reply Asg → Prop
  | .failed => o.experimental = true ∨ ∃ C e, o.inner C e = none
  | .noAssignment => False
  | .notConstant => ∃ a, o.evaluate a q.expr = none
  | .truth isValid => isValid = true ↔ q.Valid holds
  | .validity .isTrue => q.Valid holds
  | .validity .isFalse => q.Refuted holds
  | .validity .unknown => ¬ q.Valid holds ∧ ¬ q.Refuted holds
  | .initialValues none => q.Valid holds
  | .initialValues (some a) => q.Counterexample holds (valuation a)
  | .value b => ∃ m, (∀ c ∈ q.constraints, holds m c) ∧ (holds m q.expr ↔ b = true)

def Solves (set : List E) : Option Asg → Prop
  | none => ∀ m, ¬ ∀ e ∈ set, holds m e
  | some a => ∀ e ∈ set, holds (valuation a) e

def CacheOk (s : CexCache E Asg) : Prop :=
  ∀ set result, s.cache.Entry set result → Solves holds valuation set result

variable {holds valuation} {o : Parts E Asg} {s : CexCache E Asg} {set set' key : List E}

omit [LinearOrder E] in
lemma Solves.of_superset (h : Solves holds valuation set' (some a))
    (hsub : ∀ e ∈ set, e ∈ set') : Solves holds valuation set (some a) :=
  fun e he => h e (hsub e he)

omit [LinearOrder E] in
lemma Solves.of_subset
    (h : Solves holds valuation set' (none : Option Asg)) (hsub : ∀ e ∈ set', e ∈ set) :
    Solves holds valuation set (none : Option Asg) :=
  fun m hm => h m fun e he => hm e (hsub e he)

lemma mem_insertKey : x ∈ insertKey e key ↔ x = e ∨ x ∈ key := by
  fun_induction insertKey e key with
  | case1 => simp
  | case2 => simp
  | case3 => simp
  | case4 y ys _ _ ih =>
    rw [mem_cons, ih, mem_cons]
    exact or_left_comm

lemma mem_keyOf {constraints : List E} : x ∈ keyOf constraints ↔ x ∈ constraints := by
  have hfold : ∀ (constraints key : List E),
      x ∈ constraints.foldl (fun key c => insertKey c key) key ↔ x ∈ constraints ∨ x ∈ key := by
    intro constraints
    induction constraints with
    | nil => simp
    | cons c constraints ih =>
      intro key
      rw [foldl_cons, ih, mem_insertKey, mem_cons]
      exact or_left_comm.trans or_assoc.symm
  rw [keyOf, hfold]
  simp

namespace CexCache

variable {q : Query E} {result : Option Asg}

lemma searchForAssignment_solves (ho : o.Sound holds valuation) (hs : CacheOk holds valuation s)
    (h : searchForAssignment o s key = some result) :
    Solves holds valuation key result := by
  unfold searchForAssignment at h
  split at h
  · next r hr =>
    cases h
    exact hs key _ (MapOfSets.lookup_entry hr)
  split at h
  · next r hr =>
    cases h
    obtain ⟨set, hentry, hsub, hp⟩ := MapOfSets.Node.findSuperset_entry _ _ _ hr
    obtain ⟨a, rfl⟩ := Option.isSome_iff_exists.1 hp
    exact (hs set _ hentry).of_superset hsub
  split at h
  · split at h
    · next r hr =>
      cases h
      obtain ⟨set, hentry, hsub, hp⟩ := MapOfSets.Node.findSubset_entry _ _ _ hr
      obtain rfl := Option.isNone_iff_eq_none.1 hp
      exact (hs set _ hentry).of_subset hsub
    · obtain ⟨a, ha, rfl⟩ := Option.map_eq_some_iff.1 h
      exact ho.satisfies a key (by simpa using List.find?_some ha)
  · obtain ⟨set, hentry, hsub, hp⟩ := MapOfSets.Node.findSubset_entry _ _ _ h
    cases result with
    | none => exact (hs set _ hentry).of_subset hsub
    | some a => exact ho.satisfies a key hp

variable (holds valuation) in
/-- Null if the query is valid, else an assignment that is a counterexample. -/
def Decides (q : Query E) : Option Asg → Prop
  | none => q.Valid holds
  | some a => q.Counterexample holds (valuation a)

omit [LinearOrder E] in
lemma Decides.of_solves (hset : ∀ m, (∀ e ∈ set, holds m e) ↔ q.Counterexample holds m)
    (h : Solves holds valuation set result) : Decides holds valuation q result := by
  cases result with
  | none =>
    intro m hm
    by_contra hne
    exact h m ((hset m).2 ⟨hm, hne⟩)
  | some a => exact (hset _).1 h

lemma lookupAssignment_key (ho : o.Sound holds valuation) (s : CexCache E Asg) (q : Query E)
    (hneg : o.asConstant (o.isZero q.expr) ≠ some false) (m : M) :
    (∀ e ∈ (lookupAssignment o s q).1, holds m e) ↔ q.Counterexample holds m := by
  unfold lookupAssignment Query.Counterexample
  split
  · next hc => exact absurd hc hneg
  · next hc =>
    have hfalse : ¬ holds m q.expr := (ho.isZero m _).1 ((ho.asConstant m _ _ hc).2 rfl)
    simp only [mem_keyOf]
    exact ⟨fun h => ⟨h, hfalse⟩, fun h => h.1⟩
  · simp only [mem_insertKey, mem_keyOf, forall_eq_or_imp, ho.isZero]
    exact and_comm

lemma lookupAssignment_decides (ho : o.Sound holds valuation) (hs : CacheOk holds valuation s)
    (h : (lookupAssignment o s q).2 = some result) : Decides holds valuation q result := by
  by_cases hneg : o.asConstant (o.isZero q.expr) = some false
  · -- the expression is constantly true
    simp only [lookupAssignment, hneg] at h
    cases h
    intro m _
    by_contra hne
    exact absurd ((ho.asConstant m _ _ hneg).1 ((ho.isZero m _).2 hne)) Bool.false_ne_true
  refine .of_solves (lookupAssignment_key ho s q hneg) (searchForAssignment_solves ho hs ?_)
  unfold lookupAssignment at h ⊢
  split at h
  · next hc => exact absurd hc hneg
  · next hc => simpa [hc] using h
  · next hc => simpa [hc] using h

lemma lookupAssignment_none (h : (lookupAssignment o s q).2 = none) :
    o.asConstant (o.isZero q.expr) ≠ some false := by
  intro hneg
  simp [lookupAssignment, hneg] at h

lemma CacheOk.insert (hs : CacheOk holds valuation s) {table : List Asg}
    (h : Solves holds valuation key result) :
    CacheOk holds valuation { cache := s.cache.insert result key, assignmentsTable := table } := by
  intro set r hentry
  rcases MapOfSets.entry_insert hentry with ⟨rfl, rfl⟩ | hold
  · exact h
  · exact hs set r hold

variable [DecidableEq Asg]

section
variable (ho : o.Sound holds valuation) (hs : CacheOk holds valuation s)
include ho hs

/-- One spec for all callers: the cache stays right, and the result decides the query. -/
lemma getAssignment_spec (q : Query E) : CacheOk holds valuation (getAssignment o s q).1 ∧
      match (getAssignment o s q).2 with
      | none => ∃ C e, o.inner C e = none
      | some result => Decides holds valuation q result := by
  unfold getAssignment
  split
  · next key result hlook =>
    exact ⟨hs, lookupAssignment_decides ho hs (by rw [hlook])⟩
  rename_i key hlook
  have hkey := lookupAssignment_key ho s q (lookupAssignment_none (by rw [hlook]))
  rw [hlook] at hkey
  split
  · next hinner => exact ⟨hs, _, _, hinner⟩
  · next hinner =>
    have hvalid : q.Valid holds := ho.inner_none _ _ hinner
    refine ⟨CacheOk.insert hs fun m hm => ?_, hvalid⟩
    obtain ⟨hc, hne⟩ := (hkey m).1 hm
    exact hne (hvalid m hc)
  · next binding hinner =>
    have hcex : q.Counterexample holds (valuation binding) := ho.inner_solution _ _ _ hinner
    exact ⟨CacheOk.insert hs ((hkey _).2 hcex), hcex⟩

lemma getAssignment_ok (h : getAssignment o s q = (s', r)) : CacheOk holds valuation s' := by
  have hspec := (getAssignment_spec ho hs q).1
  rwa [h] at hspec

lemma getAssignment_decides (h : getAssignment o s q = (s', some result)) :
    Decides holds valuation q result := by
  have hspec := (getAssignment_spec ho hs q).2
  rwa [h] at hspec

lemma getAssignment_failed (h : getAssignment o s q = (s', none)) :
    ∃ C e, o.inner C e = none := by
  have hspec := (getAssignment_spec ho hs q).2
  rwa [h] at hspec

end

/-! ## One request -/

section
variable (ho : o.Sound holds valuation)
include ho

lemma computeTruth_spec (hs : CacheOk holds valuation s) (q : Query E) :
    CacheOk holds valuation (computeTruth o s q).1 ∧
      (computeTruth o s q).2.Correct holds valuation o q := by
  unfold computeTruth
  split
  · next h => exact ⟨hs, .inl h.1⟩
  split
  · next s' h => exact ⟨getAssignment_ok ho hs h, .inr (getAssignment_failed ho hs h)⟩
  rename_i s' result h
  refine ⟨getAssignment_ok ho hs h, ?_⟩
  have hdec := getAssignment_decides ho hs h
  cases result with
  | none => exact ⟨fun _ => hdec, fun _ => rfl⟩
  | some a => exact ⟨(by cases ·), fun hvalid => absurd (hvalid _ hdec.1) hdec.2⟩

lemma computeInitialValues_spec (hs : CacheOk holds valuation s) (q : Query E) :
    CacheOk holds valuation (computeInitialValues o s q).1 ∧
      (computeInitialValues o s q).2.Correct holds valuation o q := by
  unfold computeInitialValues
  split
  · next s' h => exact ⟨getAssignment_ok ho hs h, .inr (getAssignment_failed ho hs h)⟩
  rename_i s' result h
  refine ⟨getAssignment_ok ho hs h, ?_⟩
  have hdec := getAssignment_decides ho hs h
  cases result <;> exact hdec

omit [LinearOrder E] [DecidableEq Asg] in
lemma decides_withFalse_none (hsat : q.Satisfiable holds)
    (h : Decides holds valuation (withFalse o q) (none : Option Asg)) : False := by
  obtain ⟨m, hm⟩ := hsat
  exact ho.falseExpr m (h m hm)

section
variable (hs : CacheOk holds valuation s)
include hs

lemma computeValidity_spec (q : Query E) :
    CacheOk holds valuation (computeValidity o s q).1 ∧
      (q.Satisfiable holds → (computeValidity o s q).2.Correct holds valuation o q) := by
  unfold computeValidity
  split
  · next s' h => exact ⟨getAssignment_ok ho hs h, fun _ => .inr (getAssignment_failed ho hs h)⟩
  · next s' h =>
    exact ⟨getAssignment_ok ho hs h,
      fun hsat => decides_withFalse_none ho hsat (getAssignment_decides ho hs h)⟩
  next s1 a h =>
  have hs1 := getAssignment_ok ho hs h
  have hmodel : ∀ c ∈ q.constraints, holds (valuation a) c := (getAssignment_decides ho hs h).1
  split
  · next hev => exact ⟨hs1, fun _ => ⟨a, hev⟩⟩
  · -- true in a model of the constraints: valid, or with a counterexample
    next hev =>
    have htrue : holds (valuation a) q.expr := (ho.evaluate _ _ _ hev).2 rfl
    split
    · next s2 h2 => exact ⟨getAssignment_ok ho hs1 h2, fun _ => .inr (getAssignment_failed ho hs1 h2)⟩
    · next s2 h2 => exact ⟨getAssignment_ok ho hs1 h2, fun _ => getAssignment_decides ho hs1 h2⟩
    rename_i s2 b h2
    have hcex := getAssignment_decides ho hs1 h2
    exact ⟨getAssignment_ok ho hs1 h2, fun _ =>
      ⟨fun hvalid => hcex.2 (hvalid _ hcex.1), fun href => href _ hmodel htrue⟩⟩
  rename_i hev
  have hfalse : ¬ holds (valuation a) q.expr :=
    fun h => absurd ((ho.evaluate _ _ _ hev).1 h) Bool.false_ne_true
  split
  · next s2 h2 => exact ⟨getAssignment_ok ho hs1 h2, fun _ => .inr (getAssignment_failed ho hs1 h2)⟩
  · next s2 h2 =>
    refine ⟨getAssignment_ok ho hs1 h2, fun _ m hm => ?_⟩
    exact (ho.isZero m _).1 (getAssignment_decides ho hs1 h2 m hm)
  rename_i s2 b h2
  have hcex := getAssignment_decides ho hs1 h2
  refine ⟨getAssignment_ok ho hs1 h2, fun _ => ⟨fun hvalid => hfalse (hvalid _ hmodel), fun href => ?_⟩⟩
  exact hcex.2 ((ho.isZero _ _).2 (href _ hcex.1))

lemma computeValue_spec (q : Query E) :
    CacheOk holds valuation (computeValue o s q).1 ∧
      (q.Satisfiable holds → (computeValue o s q).2.Correct holds valuation o q) := by
  unfold computeValue
  split
  · next s' h => exact ⟨getAssignment_ok ho hs h, fun _ => .inr (getAssignment_failed ho hs h)⟩
  · next s' h =>
    exact ⟨getAssignment_ok ho hs h,
      fun hsat => decides_withFalse_none ho hsat (getAssignment_decides ho hs h)⟩
  next s' a h =>
  refine ⟨?_, fun _ => ?_⟩
  · split <;> exact getAssignment_ok ho hs h
  · split
    · next hev => exact ⟨a, hev⟩
    · next b hev => exact ⟨valuation a, (getAssignment_decides ho hs h).1, ho.evaluate _ _ _ hev⟩

lemma handle_spec (r : Request E) :
    CacheOk holds valuation (handle o s r).1 ∧
      (r.query.Satisfiable holds → (handle o s r).2.Correct holds valuation o r.query) := by
  cases r with
  | truth q => exact ⟨(computeTruth_spec ho hs q).1, fun _ => (computeTruth_spec ho hs q).2⟩
  | validity q => exact computeValidity_spec ho hs q
  | initialValues q =>
    exact ⟨(computeInitialValues_spec ho hs q).1, fun _ => (computeInitialValues_spec ho hs q).2⟩
  | value q => exact computeValue_spec ho hs q

end

end

/-! ## Any history -/

lemma cacheOk_after (ho : o.Sound holds valuation) (requests : List (Request E)) :
    CacheOk holds valuation (after o requests) := by
  have hfold : ∀ s : CexCache E Asg, CacheOk holds valuation s →
      CacheOk holds valuation (requests.foldl (fun s r => (handle o s r).1) s) := by
    induction requests with
    | nil => exact fun s hs => hs
    | cons r requests ih => exact fun s hs => ih _ (handle_spec ho hs r).1
  exact hfold {} fun set result hentry => (MapOfSets.not_entry_empty _ _ hentry).elim

def literalValue (m : Bool) : Nat → Bool
  | 0 => false
  | 1 => true
  | 2 => m
  | _ => !m

def literalParts : Parts Nat Bool where
  falseExpr := 0
  isZero
    | 0 => 1
    | 1 => 0
    | 2 => 3
    | _ => 2
  asConstant
    | 0 => some false
    | 1 => some true
    | _ => none
  evaluate a e := some (literalValue a e)
  satisfies a key := key.all (literalValue a)
  inner C e := some ([false, true].find? fun m => C.all (literalValue m) && !literalValue m e)
  tryAll := false
  experimental := false

lemma literalParts_sound : literalParts.Sound (fun m e => literalValue m e = true) id where
  falseExpr m h := by cases h
  isZero m e := by
    match e with
    | 0 | 1 | 2 | n + 3 => cases m <;> simp [literalParts, literalValue]
  asConstant m e b h := by
    match e with
    | 0 | 1 => cases h; decide +revert
    | n + 2 => cases h
  evaluate a e b h := by
    cases h
    exact Iff.rfl
  satisfies a key h := all_eq_true.1 h
  inner_solution C e a h := by
    have hfound := List.find?_some (Option.some.inj h)
    simpa [Bool.and_eq_true] using hfound
  inner_none C e h m hm := by
    have hnot := List.find?_eq_none.1 (Option.some.inj h) m (by cases m <;> simp)
    by_contra hne
    refine hnot (Bool.and_eq_true _ _ ▸ ⟨all_eq_true.2 hm, ?_⟩)
    simpa using hne

end CexCache

end InputCovSched.Klee
