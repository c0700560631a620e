import InputCovSched.Klee.FindReads

/-!
# Reads without updates (`TransformSymbolicReadRemovingUpdates` in `lib/ICS/Instrumentor.cpp`)

A read is turned into a chain of selects, one for each update of its list, the youngest first.
Updates of one value under one guard whose indices go up or down by one become a single range
test, and updates that the environment refutes are left out. The chain has the value of the
read (`removingUpdates_eval`), where no such range wraps around.
-/

namespace InputCovSched.Klee

open Klee.Expr
open BitVec (ofInt)

/-- The inner loop: how far the indices go below and above the first one, and the updates
that are left. -/
def coalesce (value guard : Expr) :
    UpdateList → (priorIndex : Expr) → (currOffset minOffset maxOffset : Int) →
      Int × Int × UpdateList
  | .byteUpdate index v g next, priorIndex, currOffset, minOffset, maxOffset =>
    if v ≠ value ∨ g ≠ guard then (minOffset, maxOffset, .byteUpdate index v g next)
    else if index = addCreate priorIndex (constant 32 1) then
      coalesce value guard next index (currOffset + 1) (min (currOffset + 1) minOffset)
        (max (currOffset + 1) maxOffset)
    else if index = subCreate priorIndex (constant 32 1) then
      coalesce value guard next index (currOffset - 1) (min (currOffset - 1) minOffset)
        (max (currOffset - 1) maxOffset)
    else (minOffset, maxOffset, .byteUpdate index v g next)
  | u, _, _, minOffset, maxOffset => (minOffset, maxOffset, u)

def UpdateList.length : UpdateList → Nat
  | .root _ => 0
  | .byteUpdate _ _ _ next => next.length + 1
  | .multiUpdate _ _ next => next.length + 1

lemma coalesce_length (value guard : Expr) (u : UpdateList) (prior : Expr) (c m k : Int) :
    (coalesce value guard u prior c m k).2.2.length ≤ u.length := by
  fun_induction coalesce value guard u prior c m k with
  | case1 | case4 | case5 => exact le_rfl
  | case2 _ _ _ _ _ _ _ _ ih | case3 _ _ _ _ _ _ _ _ _ ih => exact ih.trans (Nat.le_succ _)

/-- An iteration of the outer loop: the test and the value for the updates it takes, with the
offsets from the first index, and whether the two are pushed. -/
structure Iteration where
  cond : Expr
  value : Expr
  base : Option Expr
  minOffset : Int
  maxOffset : Int
  pushed : Bool

def rangeCond (guard base index : Expr) (minOffset maxOffset : Int) : Expr :=
  if minOffset = maxOffset then andCreate guard (eqCreate base index)
  else
    andCreate guard
      (andCreate (uleCreate (addCreate base (constant 32 (ofInt 32 minOffset))) index)
        (uleCreate index (addCreate base (constant 32 (ofInt 32 maxOffset)))))

abbrev CheckValidity := Expr → InputCovSched.Validity

/-- What follows the test of one iteration, and whether the loop goes on. -/
def Iteration.verdict (checkValidity : CheckValidity) (it : Iteration) : Iteration × Bool :=
  match checkValidity it.cond with
  | .mustBeFalse => ({ it with pushed := false }, true)
  | .mustBeTrue => ({ it with pushed := true }, false)
  | .unknown => ({ it with pushed := true }, it.cond ≠ Expr.trueExpr)

/-- The iterations for a read at `index`. Without `OptMinimizeUpdatesOnRead`, `checkValidity`
knows nothing. -/
def iterations (checkValidity : CheckValidity) (index : Expr) : UpdateList → List Iteration
  | .root _ => []
  | .multiUpdate src guard next =>
    let it := Iteration.verdict checkValidity ⟨guard, src.getValueAtIndex index, none, 0, 0, true⟩
    it.1 :: if it.2 then iterations checkValidity index next else []
  | .byteUpdate base value guard next =>
    let r := coalesce value guard next base 0 0 0
    let it := Iteration.verdict checkValidity
      ⟨rangeCond guard base index r.1 r.2.1, value, some base, r.1, r.2.1, true⟩
    have := coalesce_length value guard next base 0 0 0
    it.1 :: if it.2 then iterations checkValidity index r.2.2 else []
termination_by u => u.length
decreasing_by all_goals simp only [UpdateList.length]; omega

/-- The stack as a chain of selects, the first pair that was pushed on top. -/
def selectChain (its : List Iteration) (final : Expr) : Expr :=
  its.foldr (fun it e => if it.pushed then selectCreate it.cond it.value e else e) final

/-- `none` is a failed cast or assertion: not a read, or a read without updates. -/
def transformSymbolicReadRemovingUpdates (checkValidity : CheckValidity) : Expr → Option Expr
  | .concat l r => do
    return concatCreate (← transformSymbolicReadRemovingUpdates checkValidity l)
      (← transformSymbolicReadRemovingUpdates checkValidity r)
  | .read (.root _) _ => none
  | .read u i => some (selectChain (iterations checkValidity i u) (u.rootArray.getValueAtIndex i))
  | _ => none

/-! ## The form of the result -/

/-- What the updates of the list may give a read at `index`. -/
def UpdateList.valuesAt (index : Expr) : UpdateList → List Expr
  | .root _ => []
  | .byteUpdate _ value _ next => value :: next.valuesAt index
  | .multiUpdate src _ next => src.getValueAtIndex index :: next.valuesAt index

/-- A read as a chain of selects between values of its updates, with the root array at its end. -/
inductive WithoutUpdates : Expr → Expr → Prop
  | root {u index} : WithoutUpdates (read u index) (u.rootArray.getValueAtIndex index)
  | select {u index cond value e} : value ∈ u.valuesAt index → WithoutUpdates (read u index) e →
    WithoutUpdates (read u index) (selectCreate cond value e)
  | concat {l r l' r'} : WithoutUpdates l l' → WithoutUpdates r r' →
    WithoutUpdates (.concat l r) (concatCreate l' r')

lemma coalesce_valuesAt (index value guard : Expr) (u : UpdateList) (prior : Expr) (c m k : Int) :
    (coalesce value guard u prior c m k).2.2.valuesAt index ⊆ u.valuesAt index := by
  fun_induction coalesce value guard u prior c m k with
  | case1 | case4 | case5 => exact List.Subset.refl _
  | case2 _ _ _ _ _ _ _ _ ih | case3 _ _ _ _ _ _ _ _ _ ih => exact List.subset_cons_of_subset _ ih

lemma iterations_value {check : CheckValidity} {index : Expr} {u : UpdateList} :
    ∀ it ∈ iterations check index u, it.value ∈ u.valuesAt index := by
  have hkeeps : ∀ it : Iteration, (it.verdict check).1.value = it.value := by
    intro it
    unfold Iteration.verdict
    split <;> rfl
  induction hn : u.length using Nat.strong_induction_on generalizing u with
  | _ n ih =>
    cases u with
    | root a => simp [iterations]
    | multiUpdate src guard next =>
      rw [iterations]
      refine List.forall_mem_cons.2 ⟨?_, fun it hit => ?_⟩
      · rw [hkeeps]
        exact List.mem_cons_self
      · obtain ⟨-, hit⟩ := List.mem_ite_nil_right.1 hit
        exact List.mem_cons_of_mem _
          (ih next.length (by simp only [← hn, UpdateList.length]; omega) rfl it hit)
    | byteUpdate base value guard next =>
      rw [iterations]
      have hlen := coalesce_length value guard next base 0 0 0
      refine List.forall_mem_cons.2 ⟨?_, fun it hit => ?_⟩
      · rw [hkeeps]
        exact List.mem_cons_self
      · obtain ⟨-, hit⟩ := List.mem_ite_nil_right.1 hit
        exact List.mem_cons_of_mem _ (coalesce_valuesAt index value guard next base 0 0 0
          (ih _ (by simp only [← hn, UpdateList.length]; omega) rfl it hit))

lemma selectChain_withoutUpdates {index : Expr} {u : UpdateList} {its : List Iteration}
    (h : ∀ it ∈ its, it.value ∈ u.valuesAt index) :
    WithoutUpdates (read u index) (selectChain its (u.rootArray.getValueAtIndex index)) := by
  induction its with
  | nil => exact .root
  | cons it its ih =>
    obtain ⟨hit, hits⟩ := List.forall_mem_cons.1 h
    unfold selectChain
    rw [List.foldr_cons]
    split
    · exact .select hit (ih hits)
    · exact ih hits

/-! ## Ranges of indices -/

/-- The index is one of those between the two offsets. -/
def Covered (b i : BitVec 32) (minOffset maxOffset : Int) : Prop :=
  ∃ k : Int, minOffset ≤ k ∧ k ≤ maxOffset ∧ b + ofInt 32 k = i

section
variable {b i : BitVec 32} {c c' m k : Int}

lemma covered_zero : Covered b i 0 0 ↔ b = i := by
  constructor
  · rintro ⟨k, h0, h1, rfl⟩
    obtain rfl : k = 0 := by omega
    simp
  · rintro rfl
    exact ⟨0, le_rfl, le_rfl, by simp⟩

lemma covered_extend (hm : m ≤ c) (hk : c ≤ k) (hc : c' = c + 1 ∨ c' = c - 1) :
    Covered b i (min c' m) (max c' k) ↔ Covered b i m k ∨ b + ofInt 32 c' = i := by
  constructor
  · rintro ⟨j, h0, h1, hj⟩
    by_cases hin : m ≤ j ∧ j ≤ k
    · exact .inl ⟨j, hin.1, hin.2, hj⟩
    · obtain rfl : j = c' := by omega
      exact .inr hj
  · rintro (⟨j, h0, h1, hj⟩ | hj)
    · exact ⟨j, by omega, by omega, hj⟩
    · exact ⟨c', by omega, by omega, hj⟩

lemma toNat_add_ofInt (h0 : 0 ≤ b.toNat + c) (h1 : b.toNat + c < 2 ^ 32) :
    ((b + ofInt 32 c).toNat : Int) = b.toNat + c := by
  rw [BitVec.toNat_add, BitVec.toNat_ofInt]
  omega

lemma range_iff_covered (h0 : 0 ≤ b.toNat + m) (h1 : b.toNat + k < 2 ^ 32) (hm : m ≤ 0)
    (hk : 0 ≤ k) :
    (b + ofInt 32 m).ule i = true ∧ i.ule (b + ofInt 32 k) = true ↔
      Covered b i m k := by
  have hlow := toNat_add_ofInt h0 (by omega)
  have hhigh := toNat_add_ofInt (by omega) h1
  simp only [BitVec.ule, decide_eq_true_eq]
  constructor
  · rintro ⟨hl, hr⟩
    refine ⟨i.toNat - b.toNat, by omega, by omega, BitVec.eq_of_toNat_eq ?_⟩
    have := toNat_add_ofInt (b := b) (c := i.toNat - b.toNat) (by omega) (by omega)
    omega
  · rintro ⟨j, hj0, hj1, rfl⟩
    have := toNat_add_ofInt (b := b) (c := j) (by omega) (by omega)
    omega

end

/-! ## One iteration -/

section
open Classical

variable {ρ : Env} {b i : BitVec 32} {value guard index base : Expr} {u : UpdateList} {m k : Int}
  {r : Int × Int × UpdateList}

/-- What is left of the updates when a range is taken for those with one value and guard. -/
structure Takes (ρ : Env) (b i : BitVec 32) (value guard : Expr) (u : UpdateList) (m k : Int)
    (r : Int × Int × UpdateList) : Prop where
  typed : r.2.2.WellTyped
  clean : r.2.2.Clean
  root : r.2.2.rootArray = u.rootArray
  min_le : r.1 ≤ m
  le_max : k ≤ r.2.1
  value : (if guard.eval ρ 1 = 1 ∧ Covered b i m k then value.eval ρ 8 else u.byteAt ρ i) =
    if guard.eval ρ 1 = 1 ∧ Covered b i r.1 r.2.1 then value.eval ρ 8 else r.2.2.byteAt ρ i

lemma Takes.byteUpdate (hm : m ≤ c) (hk : c ≤ k)
    (hc : c' = c + 1 ∨ c' = c - 1) (hindex : index.eval ρ 32 = b + ofInt 32 c')
    (h : Takes ρ b i value guard u (min c' m) (max c' k) r) :
    Takes ρ b i value guard (.byteUpdate index value guard u) m k r where
  typed := h.typed
  clean := h.clean
  root := h.root
  min_le := h.min_le.trans (min_le_right _ _)
  le_max := (le_max_right _ _).trans h.le_max
  value := by
    rw [← h.value, UpdateList.byteAt, hindex]
    simp only [covered_extend hm hk hc]
    by_cases hg : guard.eval ρ 1 = 1
    · simp only [hg, true_and]
      by_cases hcov : Covered b i m k <;> simp only [hcov, true_or, false_or, if_true, if_false]
    · simp only [hg, false_and, if_false]

lemma coalesce_takes (hu : u.WellTyped) (huc : u.Clean)
    (hp : Denotes (· = ρ) prior 32 fun _ => b + ofInt 32 c) (hpc : prior.Clean none)
    (hm : m ≤ c) (hk : c ≤ k) :
    Takes ρ b i value guard u m k (coalesce value guard u prior c m k) := by
  have hone : Denotes (· = ρ) (constant 32 1) 32 fun _ => 1 := .constant (by decide) 1
  have stop : ∀ {v : UpdateList} {m k : Int}, v.WellTyped → v.Clean →
      Takes ρ b i value guard v m k (m, k, v) :=
    fun hv hvc => ⟨hv, hvc, rfl, le_rfl, le_rfl, rfl⟩
  fun_induction coalesce value guard u prior c m k with
  | case1 | case4 | case5 => exact stop hu huc
  | case2 v g next prior c m k hsame ih =>
    obtain ⟨rfl, rfl⟩ : v = value ∧ g = guard := by simpa using hsame
    have hnew := (addCreate_denotes hp hone hpc.zeroSumFree (zeroSumFree_constant 32 1)).congr
      (g := fun _ => b + ofInt 32 (c + 1)) fun _ _ => by
        rw [BitVec.ofInt_add, ← BitVec.add_assoc]
        rfl
    refine (ih hu.2.2.2 huc.2.2.2 hnew huc.1 (by omega) (by omega)).byteUpdate hm hk (.inl rfl) ?_
    exact hnew.value ρ rfl
  | case3 v g next prior c m k hsame hup ih =>
    obtain ⟨rfl, rfl⟩ : v = value ∧ g = guard := by simpa using hsame
    have hnew := (subCreate_denotes hp hone hpc.zeroSumFree (zeroSumFree_constant 32 1)).congr
      (g := fun _ => b + ofInt 32 (c - 1)) fun _ _ => by
        rw [Int.sub_eq_add_neg, BitVec.ofInt_add, ← BitVec.add_assoc, BitVec.sub_eq_add_neg]
        rfl
    refine (ih hu.2.2.2 huc.2.2.2 hnew huc.1 (by omega) (by omega)).byteUpdate hm hk (.inr rfl) ?_
    exact hnew.value ρ rfl

lemma Denotes.here {e : Expr} {w : Nat} (typed : e.WellTyped) (hw : e.width = w) :
    Denotes (· = ρ) e w fun _ => e.eval ρ w := ⟨typed, hw, fun _ h => by rw [h]⟩

lemma Takes.byteAt_eq {v : BitVec 1} (h : Takes ρ (base.eval ρ 32) i value guard u 0 0 r)
    (hv : v = 1 ↔ guard.eval ρ 1 = 1 ∧ Covered (base.eval ρ 32) i r.1 r.2.1) :
    (UpdateList.byteUpdate base value guard u).byteAt ρ i =
      if v = 1 then value.eval ρ 8 else r.2.2.byteAt ρ i := by
  rw [UpdateList.byteAt]
  simp only [hv, ← covered_zero]
  convert h.value

lemma and_ofBool_eq_one : ∀ (x : BitVec 1) (p : Bool),
    x &&& BitVec.ofBool p = 1 ↔ x = 1 ∧ p = true := by
  decide

lemma rangeCond_denotes (hg : Denotes (· = ρ) guard 1 fun _ => guard.eval ρ 1)
    (hb : Denotes (· = ρ) base 32 fun _ => b) (hbc : base.Clean none)
    (hi : Denotes (· = ρ) index 32 fun _ => i) (hic : index.Clean none) (hm : m ≤ 0) (hk : 0 ≤ k)
    (h0 : 0 ≤ b.toNat + m) (h1 : b.toNat + k < 2 ^ 32) :
    ∃ v, Denotes (· = ρ) (rangeCond guard base index m k) 1 (fun _ => v) ∧
      (v = 1 ↔ guard.eval ρ 1 = 1 ∧ Covered b i m k) := by
  unfold rangeCond
  split
  · obtain ⟨rfl, rfl⟩ : m = 0 ∧ k = 0 := by omega
    have heq := eqCreate_denotes hb hi hbc.zeroSumFree hic.zeroSumFree (hbc.addsZero _)
      (hic.addsZero _)
    refine ⟨_, andCreate_denotes hg heq, ?_⟩
    rw [and_ofBool_eq_one, covered_zero, beq_iff_eq]
  have hmove : ∀ j : Int, Denotes (· = ρ) (addCreate base (constant 32 (ofInt 32 j))) 32
      fun _ => b + ofInt 32 j := fun j =>
    addCreate_denotes hb (.constant (by decide) _) hbc.zeroSumFree (zeroSumFree_constant 32 _)
  have hfree : ZeroSumFree (addCreate base (constant 32 (ofInt 32 m))) :=
    (addSub_made zeroSumFree_hereditary (ξ := fun _ => 0) ⟨hbc.zeroSumFree, le_rfl⟩
      ⟨zeroSumFree_constant 32 _, le_rfl⟩ _ le_rfl).1.keeps
  have htest := (andCreate_denotes (uleCreate_denotes (hmove m) hi hfree)
    (uleCreate_denotes hi (hmove k) hic.zeroSumFree)).congr
    fun _ _ => by rw [BitVec.ofBool_and_ofBool]
  refine ⟨_, andCreate_denotes hg htest, ?_⟩
  rw [and_ofBool_eq_one, Bool.and_eq_true, range_iff_covered h0 h1 hm hk]

end

/-! ## The chain -/

def Iteration.NoWrap (ρ : Env) (it : Iteration) : Prop :=
  ∀ base ∈ it.base, 0 ≤ (base.eval ρ 32).toNat + it.minOffset ∧
    (base.eval ρ 32).toNat + it.maxOffset < 2 ^ 32

lemma Iteration.noWrap_verdict {ρ : Env} {check : CheckValidity}
    {it : Iteration} (h : (it.verdict check).1.NoWrap ρ) : it.NoWrap ρ := by
  unfold Iteration.verdict at h
  split at h <;> exact h

/-- The validity of an expression that `checkValidity` reports is right under `ρ`. -/
def ValidUnder (ρ : Env) (checkValidity : CheckValidity) : Prop :=
  ∀ e, (checkValidity e = .mustBeTrue → e.Holds ρ) ∧ (checkValidity e = .mustBeFalse → ¬ e.Holds ρ)

section
variable {ρ : Env} {check : CheckValidity} {index : Expr}

lemma selectChain_verdict (hcheck : ValidUnder ρ check) {it : Iteration}
    {cv : BitVec 1} {v x y : BitVec 8} (hc : Denotes (· = ρ) it.cond 1 fun _ => cv)
    (hv : Denotes (· = ρ) it.value 8 fun _ => v) (hfinal : Denotes (· = ρ) final 8 fun _ => y)
    (hrest : (it.verdict check).2 = true → Denotes (· = ρ) (selectChain its final) 8 fun _ => x) :
    Denotes (· = ρ) (selectChain
      ((it.verdict check).1 :: if (it.verdict check).2 then its else []) final) 8
      fun _ => if cv = 1 then v else x := by
  have hstop : cv = 1 → Denotes (· = ρ) (selectCreate it.cond it.value final) 8
      fun _ => if cv = 1 then v else x := fun hone =>
    (selectCreate_denotes hc hv hfinal nofun).congr fun _ _ => by rw [if_pos hone, if_pos hone]
  obtain ⟨htrue, hfalse⟩ := hcheck it.cond
  have hval : it.cond.eval ρ 1 = cv := hc.value ρ rfl
  unfold Iteration.verdict at hrest ⊢
  unfold Expr.Holds at htrue hfalse
  rw [hval] at htrue hfalse
  split at hrest
  · rename_i hv'
    rw [if_neg (hfalse hv')]
    exact hrest rfl
  · rename_i hv'
    exact hstop (htrue hv')
  by_cases hone : it.cond = Expr.trueExpr
  · have hcv : cv = 1 := by
      rw [← hval, hone]
      rfl
    simp only [hone, ne_eq, not_true_eq_false, decide_false, Bool.false_eq_true, if_false]
    rw [← hone]
    exact hstop hcv
  · simp only [hone, ne_eq, not_false_eq_true, decide_true, if_true] at hrest ⊢
    exact selectCreate_denotes hc hv (hrest trivial) nofun

lemma iterations_denotes (hcheck : ValidUnder ρ check)
    (hi : Denotes (· = ρ) index 32 fun _ => i) (hic : index.Clean none) {u : UpdateList}
    (hu : u.WellTyped) (huc : u.Clean)
    (hfinal : Denotes (· = ρ) final 8 fun _ => u.rootArray.byteAt ρ i)
    (hwrap : ∀ it ∈ iterations check index u, it.NoWrap ρ) :
    Denotes (· = ρ) (selectChain (iterations check index u) final) 8 fun _ => u.byteAt ρ i := by
  induction hn : u.length using Nat.strong_induction_on generalizing u with
  | _ n ih =>
    cases u with
    | root a =>
      rw [iterations]
      exact hfinal
    | multiUpdate src guard next =>
      rw [iterations] at hwrap ⊢
      have hg := Denotes.here (ρ := ρ) hu.2.1.1 hu.2.1.2
      have hvalue := (KleeArray.getValueAtIndex_denotes hu.1 huc.1 hi hic).2
      have hsrc := hvalue.congr (g := fun _ => src.byteAt ρ i) fun _ h => by rw [h]
      refine selectChain_verdict hcheck hg hsrc hfinal fun hgo => ?_
      refine ih next.length (by simp only [← hn, UpdateList.length]; omega) hu.2.2 huc.2.2 hfinal
        (fun it hit => hwrap it ?_) rfl
      simp only [hgo, if_true]
      exact List.mem_cons_of_mem _ hit
    | byteUpdate base value guard next =>
      rw [iterations] at hwrap ⊢
      have hg := Denotes.here (ρ := ρ) hu.2.2.1.1 hu.2.2.1.2
      have hbase := Denotes.here (ρ := ρ) hu.1.1 hu.1.2
      have hvalue := Denotes.here (ρ := ρ) hu.2.1.1 hu.2.1.2
      have ht : Takes ρ (base.eval ρ 32) i value guard next 0 0 _ :=
        coalesce_takes hu.2.2.2 huc.2.2.2 (hbase.congr fun _ _ => by simp) huc.1 le_rfl le_rfl
      have hlen := coalesce_length value guard next base 0 0 0
      obtain ⟨h0, h1⟩ := Iteration.noWrap_verdict (hwrap _ List.mem_cons_self) base rfl
      obtain ⟨v, hcond, hv⟩ := rangeCond_denotes hg hbase huc.1 hi hic ht.min_le ht.le_max h0 h1
      rw [ht.byteAt_eq hv]
      refine selectChain_verdict hcheck hcond hvalue hfinal fun hgo => ?_
      refine ih _ (by simp only [← hn, UpdateList.length]; omega) ht.typed ht.clean ?_
        (fun it hit => hwrap it ?_) rfl
      · rw [ht.root]
        exact hfinal
      · simp only [hgo, if_true]
        exact List.mem_cons_of_mem _ hit

/-- A read with updates, or a concatenation of such reads. -/
def ReadsUpdates : Expr → Prop
  | .concat l r => ReadsUpdates l ∧ ReadsUpdates r
  | .read (.root _) _ => False
  | .read _ _ => True
  | _ => False

/-- No range that the transformation makes wraps around. -/
def NoWrap (check : CheckValidity) (ρ : Env) : Expr → Prop
  | .concat l r => NoWrap check ρ l ∧ NoWrap check ρ r
  | .read u index => ∀ it ∈ iterations check index u, it.NoWrap ρ
  | _ => True

lemma UpdateList.rootArray_clean (u : UpdateList) (h : u.Clean) : u.rootArray.Clean := by
  cases u with
  | root _ => exact h
  | byteUpdate _ _ _ next => exact next.rootArray_clean h.2.2.2
  | multiUpdate _ _ next => exact next.rootArray_clean h.2.2

lemma read_denotes (hcheck : ValidUnder ρ check)
    (typed : (read u index).WellTyped) (hc : (read u index).Clean none)
    (hwrap : NoWrap check ρ (read u index)) :
    Denotes (· = ρ) (selectChain (iterations check index u) (u.rootArray.getValueAtIndex index)) 8
      fun _ => (read u index).eval ρ 8 := by
  have hi := Denotes.here (ρ := ρ) typed.2.1 typed.2.2
  have hfinal := (KleeArray.getValueAtIndex_denotes (u.rootArray_wellTyped typed.1)
    (u.rootArray_clean hc.1) hi hc.2).2.congr
      (g := fun _ => u.rootArray.byteAt ρ (index.eval ρ 32)) fun _ h => by rw [h]
  refine (iterations_denotes hcheck hi hc.2 typed.1 hc.1 hfinal hwrap).congr fun _ _ => ?_
  rw [eval, BitVec.setWidth_eq]

lemma transform_denotes (hcheck : ValidUnder ρ check) (typed : e.WellTyped)
    (hc : e.Clean none) (hreads : ReadsUpdates e) (hwrap : NoWrap check ρ e) :
    ∃ e', transformSymbolicReadRemovingUpdates check e = some e' ∧ WithoutUpdates e e' ∧
      Denotes (· = ρ) e' e.width fun _ => e.eval ρ e.width := by
  induction e using transformSymbolicReadRemovingUpdates.induct with
  | case1 l r ihl ihr =>
    obtain ⟨l', hl', hlw, hl⟩ := ihl typed.1 hc.1 hreads.1 hwrap.1
    obtain ⟨r', hr', hrw, hr⟩ := ihr typed.2 hc.2 hreads.2 hwrap.2
    refine ⟨concatCreate l' r', ?_, .concat hlw hrw, (concatCreate_denotes hl hr).congr fun _ _ => ?_⟩
    · rw [transformSymbolicReadRemovingUpdates, hl', hr']
      rfl
    · simp only [Expr.width, eval, BitVec.setWidth_eq]
  | case2 a index => exact hreads.elim
  | case3 u index hne =>
    exact ⟨_, by rw [transformSymbolicReadRemovingUpdates]; exact hne,
      selectChain_withoutUpdates iterations_value, read_denotes hcheck typed hc hwrap⟩
  | case4 e h1 h2 h3 =>
    unfold ReadsUpdates at hreads
    split at hreads
    · exact absurd rfl (h1 _ _)
    · exact hreads.elim
    · exact absurd rfl (h3 _ _)
    · exact hreads.elim

end

/-- **Result.**  A chain of selects without the updates is built. It has the value of the read, or of
the reads that are put together, under every environment where what `checkValidity` reports is
right and no range of indices wraps around. -/
theorem removingUpdates_eval (check : CheckValidity) (e : Expr) (ρ : Env)
    (typed : e.WellTyped) (hbuilt : Expr.Built none e) (hreads : ReadsUpdates e)
    (hcheck : ValidUnder ρ check) (hwrap : NoWrap check ρ e) :
    ∃ e', transformSymbolicReadRemovingUpdates check e = some e' ∧ WithoutUpdates e e' ∧
      e'.width = e.width ∧ e'.eval ρ e.width = e.eval ρ e.width := by
  obtain ⟨e', htransform, hwithout, hdenotes⟩ :=
    transform_denotes hcheck typed hbuilt.clean hreads hwrap
  exact ⟨e', htransform, hwithout, hdenotes.width, hdenotes.value ρ rfl⟩

/-- Bytes 5 and 6 were set to 9; the read is at a symbolic index. -/
def twoWrites : Expr :=
  read (.byteUpdate (constant 32 6) (constant 8 9) Expr.trueExpr
    (.byteUpdate (constant 32 5) (constant 8 9) Expr.trueExpr (.root (.symbolic 0))))
    (.zext (read (.root (.symbolic 1)) (constant 32 0)) 32)

def fives : Env := ⟨fun _ _ => 5, fun _ _ => 0, fun _ => 0⟩

lemma twoWrites_coalesced : coalesce (constant 8 9) Expr.trueExpr
    (.byteUpdate (constant 32 5) (constant 8 9) Expr.trueExpr (.root (.symbolic 0)))
    (constant 32 6) 0 0 0 = (-1, 0, .root (.symbolic 0)) := by
  rw [coalesce, addCreate_constant, subCreate_constant]
  rfl

theorem removingUpdates_eval_fives :
    ∃ e', transformSymbolicReadRemovingUpdates (fun _ => .unknown) twoWrites = some e' ∧
      WithoutUpdates twoWrites e' ∧ e'.width = 8 ∧ e'.eval fives 8 = 9 := by
  refine removingUpdates_eval (fun _ => .unknown) twoWrites fives ?_ ?_ trivial
    (fun _ => ⟨nofun, nofun⟩) ?_
  · simp [twoWrites, Expr.WellTyped, UpdateList.WellTyped, KleeArray.WellTyped, Expr.width,
      Expr.trueExpr]
  · have hwrite : ∀ i {next : UpdateList}, next.Built →
        (UpdateList.byteUpdate (constant 32 i) (constant 8 9) Expr.trueExpr next).Built :=
      fun i _ => .byteUpdate (.constant ..) (.constant ..) (.constant ..)
    have hindex : Expr.Built none (zextCreate (readCreate (.root (.symbolic 1)) (constant 32 0)) 32) := by
      refine .operation (.zext _ 32) (List.forall_mem_singleton.2 ?_)
      exact .read (.root (.symbolic 1)) (.constant ..)
    exact .read (hwrite 6 (hwrite 5 (.root (.symbolic 0)))) hindex
  · intro it hit
    simp only [iterations, twoWrites_coalesced, Iteration.verdict, ite_self,
      List.mem_singleton] at hit
    subst hit
    rintro base ⟨⟩
    decide

end InputCovSched.Klee
