import InputCovSched.Lib.Machine
import InputCovSched.Static.RangeCache

/-!
# Numbers for calling contexts (`Instrumentor.cpp`, call-stack logging)

`AddUsedCallCtx` gives every call site of a used context a random number and the context their
fold `3 * final + v`; the runtime keeps the same fold of the open call sites.

The set of functions whose calls are logged comes out empty, since the closure clears the set
that holds its seeds; on other sets it is exact.
-/

namespace InputCovSched

open Relation List Machine

/-- The results of the two calls of `rand`, 31 bits each. -/
abbrev RandPair := BitVec 31 × BitVec 31

def rand64 (r : RandPair) : BitVec 64 := r.1.setWidth 64 ||| r.2.setWidth 64 <<< 32

/-- `_usedCalls` and its inverse, which are always extended together. -/
abbrev CallIds (I : Type) := List (I × BitVec 64)

section
variable {I F : Type} [DecidableEq I]

/-- The long id of a context, from the ids of its call sites; the oldest comes first. -/
def callCtxHash (id : I → BitVec 64) (ctx : List I) : BitVec 64 :=
  ctx.foldl (fun final i => 3 * final + id i) 0

structure CallCtxTables (I F : Type) where
  usedCallCtxList : List (List I) := []
  instsUsed : List I := []
  fnsUsed : List F := []
  usedCalls : CallIds I := []
  usedCallCtxs : List (List I × BitVec 64) := []

/-- An iteration over a context: `_usedCalls` with the numbers that the iteration has made, the fold
so far, and the position in the random stream. -/
structure Numbering (I : Type) where
  ids : CallIds I
  final : BitVec 64
  pos : Nat

variable (rand : Nat → RandPair)

/-- The first value of the stream that is not taken, and the position behind it. -/
def freshRand (taken : List (BitVec 64)) : Nat → Nat → Option (BitVec 64 × Nat)
  | 0, _ => none
  | fuel + 1, pos =>
    if rand64 (rand pos) ∈ taken then freshRand taken fuel (pos + 1)
    else some (rand64 (rand pos), pos + 1)

def uniqueRandInstId (fuel : Nat) (p : Numbering I) (i : I) : Option (BitVec 64 × Numbering I) :=
  match p.ids.lookup i with
  | some v => some (v, p)
  | none =>
    (freshRand rand (p.ids.map Prod.snd) fuel p.pos).map fun r =>
      (r.1, { p with ids := p.ids ++ [(i, r.1)], pos := r.2 })

def numberSite (fuel : Nat) (p : Numbering I) (i : I) : Option (Numbering I) :=
  (uniqueRandInstId rand fuel p i).map fun r => { r.2 with final := 3 * r.2.final + r.1 }

def numberCtx (fuel : Nat) (used : CallIds I) (ctx : List I) (pos : Nat) : Option (Numbering I) :=
  ctx.foldlM (numberSite rand fuel) ⟨used, 0, pos⟩

/-- "Not unique => try again" -/
def numberLoop (used : CallIds I) (finals : List (BitVec 64)) (ctx : List I) :
    Nat → Nat → Option (Numbering I)
  | 0, _ => none
  | fuel + 1, pos =>
    match numberCtx rand (fuel + 1) used ctx pos with
    | none => none
    | some p => if p.final ∈ finals then numberLoop used finals ctx fuel p.pos else some p

/-- `ctx` is stripped; `parent` is the function of a call site. -/
def addUsedCallCtx (parent : I → F) (fuel : Nat) (s : CallCtxTables I F × Nat) (ctx : List I) :
    Option (CallCtxTables I F × Nat) :=
  if ctx ∈ s.1.usedCallCtxList then some s
  else
    (numberLoop rand s.1.usedCalls (s.1.usedCallCtxs.map Prod.snd) ctx fuel s.2).map fun p =>
      (⟨s.1.usedCallCtxList ++ [ctx], s.1.instsUsed ++ ctx, s.1.fnsUsed ++ ctx.map parent,
        p.ids, s.1.usedCallCtxs ++ [(ctx, p.final)]⟩, p.pos)

def addUsedCallCtxs (parent : I → F) (fuel : Nat) (ctxs : List (List I)) :
    Option (CallCtxTables I F × Nat) :=
  ctxs.foldlM (addUsedCallCtx rand parent fuel) ({}, 0)

/-- `LookupCallSiteId`, which asserts that there is one. -/
def lookupCallSiteId (ids : CallIds I) (i : I) : BitVec 64 := (ids.lookup i).getD 0

/-! ## One iteration -/

/-- Numbers for the call sites of a context: those they have, or new ones of `Rand64`. -/
structure Choice (ids : CallIds I) (ctx : List I) (id : I → BitVec 64) : Prop where
  old : ∀ i ∈ ctx, ∀ v, ids.lookup i = some v → id i = v
  new : ∀ i ∈ ctx, ids.lookup i = none → (∃ r, id i = rand64 r) ∧ id i ∉ ids.map Prod.snd ∧
    ∀ j ∈ ctx, id j = id i → j = i

variable {rand} {ids used new : CallIds I} {all ctx : List I} {id : I → BitVec 64} {p : Numbering I}
  {i : I} {v : BitVec 64} {fuel pos : Nat}

lemma mem_of_lookup (h : ids.lookup i = some v) : v ∈ ids.map Prod.snd := by
  obtain ⟨l₁, l₂, rfl, -⟩ := lookup_eq_some_iff.1 h
  simp

lemma lookup_append_of_some (h : ids.lookup i = some v) : (ids ++ new).lookup i = some v := by
  rw [lookup_append, h]
  rfl

lemma lookup_append_self (h : ids.lookup i = none) : (ids ++ [(i, v)]).lookup i = some v := by
  simp [lookup_append, h]

lemma lookup_append_ne (h : j ≠ i) : (ids ++ [(i, v)]).lookup j = ids.lookup j := by
  have : (j == i) = false := by simpa using h
  simp [lookup_append, lookup_cons, this]

/-- One of the numbers is fixed. -/
lemma Choice.append (h : Choice ids all id) (hi : i ∈ all) (hnone : ids.lookup i = none) :
    Choice (ids ++ [(i, id i)]) all id := by
  refine ⟨fun j hj v hv => ?_, fun j hj hj' => ?_⟩
  · by_cases hji : j = i
    · rw [hji, lookup_append_self hnone] at hv
      rw [hji, Option.some.inj hv]
    · rw [lookup_append_ne hji] at hv
      exact h.old j hj v hv
  have hji : j ≠ i := by
    rintro rfl
    rw [lookup_append_self hnone] at hj'
    cases hj'
  rw [lookup_append_ne hji] at hj'
  obtain ⟨hrand, hfree, hinj⟩ := h.new j hj hj'
  refine ⟨hrand, ?_, hinj⟩
  rw [map_append, mem_append, not_or]
  refine ⟨hfree, fun hin => ?_⟩
  exact hji (hinj i hi (mem_singleton.1 hin).symm).symm

/-- The number that was fixed was a possible one. -/
lemma Choice.of_append (h : Choice (ids ++ [(i, v)]) all id) (hi : i ∈ all)
    (hnone : ids.lookup i = none) (hrand : ∃ r, v = rand64 r) (hfree : v ∉ ids.map Prod.snd) :
    Choice ids all id := by
  have hself : id i = v := h.old i hi v (lookup_append_self hnone)
  refine ⟨fun j hj w hw => h.old j hj w (lookup_append_of_some hw), fun j hj hj' => ?_⟩
  by_cases hji : j = i
  · rw [hji, hself]
    refine ⟨hrand, hfree, fun k hk hkv => ?_⟩
    by_contra hki
    cases hk' : ids.lookup k with
    | some w =>
      rw [h.old k hk w (lookup_append_of_some hk')] at hkv
      exact hfree (hkv ▸ mem_of_lookup hk')
    | none =>
      have hnew := (h.new k hk (by rw [lookup_append_ne hki, hk'])).2.1
      exact hnew (by simp [hkv])
  · obtain ⟨hr, hf, hinj⟩ := h.new j hj (by rw [lookup_append_ne hji, hj'])
    refine ⟨hr, fun hin => hf ?_, hinj⟩
    rw [map_append]
    exact mem_append_left _ hin

omit [DecidableEq I] in
lemma freshRand_spec {taken : List (BitVec 64)}
    (h : freshRand rand taken fuel pos = some (v, n)) : (∃ r, v = rand64 r) ∧ v ∉ taken := by
  induction fuel generalizing pos with
  | zero => cases h
  | succ fuel ih =>
    rw [freshRand] at h
    split at h
    · exact ih h
    rename_i hfree
    cases h
    exact ⟨⟨_, rfl⟩, hfree⟩

lemma numberSite_spec (h : numberSite rand fuel p i = some p') : ∃ v new,
    p'.ids = p.ids ++ new ∧ p'.ids.lookup i = some v ∧ p'.final = 3 * p.final + v ∧
      ∀ all id, i ∈ all → Choice p'.ids all id → Choice p.ids all id := by
  obtain ⟨⟨v, q⟩, hu, rfl⟩ := Option.map_eq_some_iff.1 h
  unfold uniqueRandInstId at hu
  split at hu
  · rename_i hv
    cases hu
    exact ⟨v, [], (append_nil _).symm, hv, rfl, fun _ _ _ h => h⟩
  rename_i hnone
  obtain ⟨⟨w, n⟩, hw, hq⟩ := Option.map_eq_some_iff.1 hu
  cases hq
  obtain ⟨hrand, hfree⟩ := freshRand_spec hw
  exact ⟨w, _, rfl, lookup_append_self hnone, rfl, fun _ _ hi h => h.of_append hi hnone hrand hfree⟩

lemma numberSites_spec (h : ctx.foldlM (numberSite rand fuel) p = some p') :
    (∃ new, p'.ids = p.ids ++ new) ∧ (∀ i ∈ ctx, (p'.ids.lookup i).isSome) ∧
      p'.final = ctx.foldl (fun final i => 3 * final + lookupCallSiteId p'.ids i) p.final ∧
      ∀ all id, ctx ⊆ all → Choice p'.ids all id → Choice p.ids all id := by
  induction ctx generalizing p with
  | nil =>
    cases h
    exact ⟨⟨[], (append_nil _).symm⟩, nofun, rfl, fun _ _ _ h => h⟩
  | cons i ctx ih =>
    obtain ⟨q, hq, h⟩ := Option.bind_eq_some_iff.1 h
    obtain ⟨v, new, hids, hv, hfinal, hback⟩ := numberSite_spec hq
    obtain ⟨⟨new', hids'⟩, hsome, hfold, hback'⟩ := ih h
    have hv' : p'.ids.lookup i = some v := by
      rw [hids']
      exact lookup_append_of_some hv
    refine ⟨⟨new ++ new', by rw [hids', hids, append_assoc]⟩, ?_, ?_, fun all id hsub hc => ?_⟩
    · rintro j (_ | ⟨_, hj⟩)
      · rw [hv']
        rfl
      · exact hsome j hj
    · rw [hfold, hfinal, foldl_cons, lookupCallSiteId, hv']
      rfl
    · exact hback all id (hsub mem_cons_self)
        (hback' all id (fun j hj => hsub (mem_cons_of_mem i hj)) hc)

lemma numberLoop_spec (h : numberLoop rand used finals ctx fuel pos = some p) :
    (∃ n pos, numberCtx rand n used ctx pos = some p) ∧ p.final ∉ finals := by
  induction fuel generalizing pos with
  | zero => cases h
  | succ fuel ih =>
    rw [numberLoop] at h
    split at h
    · cases h
    rename_i q hq
    split at h
    · exact ih h
    rename_i hfree
    cases h
    exact ⟨⟨_, _, hq⟩, hfree⟩

/-! ## The end of the retries -/

/-- The call sites of the context that still need a number. -/
def newSites (ids : CallIds I) (ctx : List I) : Finset I :=
  ctx.toFinset.filter fun i => ids.lookup i = none

lemma newSites_tail : newSites ids ctx ⊆ newSites ids (i :: ctx) := by
  apply Finset.filter_subset_filter
  rw [toFinset_cons]
  exact Finset.subset_insert i _

lemma newSites_append (hnone : ids.lookup i = none) :
    (newSites (ids ++ [(i, v)]) ctx).card < (newSites ids (i :: ctx)).card := by
  refine Finset.card_lt_card (Finset.ssubset_iff.2 ⟨i, ?_, fun j hj => ?_⟩)
  · simp [newSites, lookup_append_self hnone]
  · rcases Finset.mem_insert.1 hj with rfl | hj
    · simp [newSites, hnone]
    · rw [newSites, Finset.mem_filter, lookup_append, Option.or_eq_none_iff] at hj
      exact newSites_tail (Finset.mem_filter.2 ⟨hj.1, hj.2.1⟩)

/-- The stream goes on with `word` at `pos`. -/
def Occurs (rand : Nat → RandPair) : List RandPair → Nat → Prop
  | [], _ => True
  | r :: word, pos => rand pos = r ∧ Occurs rand word (pos + 1)

/-- A stream that goes on with the chosen numbers makes them. -/
lemma Choice.numberSites (rand : Nat → RandPair) (h : Choice ids all id) (hsub : ctx ⊆ all) :
    ∃ word, word.length ≤ (newSites ids ctx).card ∧ ∀ pos final, Occurs rand word pos → ∃ p, ∀ fuel,
      ctx.foldlM (numberSite rand (fuel + 1)) ⟨ids, final, pos⟩ = some p ∧
        p.final = ctx.foldl (fun final i => 3 * final + id i) final := by
  induction ctx generalizing ids with
  | nil => exact ⟨[], Nat.zero_le _, fun pos final _ => ⟨_, fun _ => ⟨rfl, rfl⟩⟩⟩
  | cons i ctx ih =>
    have hi := hsub mem_cons_self
    have hrest : ctx ⊆ all := fun j hj => hsub (mem_cons_of_mem i hj)
    cases hl : ids.lookup i with
    | some v =>
      obtain ⟨word, hlen, hword⟩ := ih h hrest
      refine ⟨word, hlen.trans (Finset.card_le_card newSites_tail), fun pos final hocc => ?_⟩
      have hsite : ∀ fuel, numberSite rand (fuel + 1) ⟨ids, final, pos⟩ i =
          some ⟨ids, 3 * final + id i, pos⟩ := by
        simp [numberSite, uniqueRandInstId, hl, h.old i hi v hl]
      simpa [hsite] using hword pos (3 * final + id i) hocc
    | none =>
      obtain ⟨⟨r, hr⟩, hfree, -⟩ := h.new i hi hl
      obtain ⟨word, hlen, hword⟩ := ih (h.append hi hl) hrest
      refine ⟨r :: word, hlen.trans_lt (newSites_append hl), fun pos final hocc => ?_⟩
      have hsite : ∀ fuel, numberSite rand (fuel + 1) ⟨ids, final, pos⟩ i =
          some ⟨ids ++ [(i, id i)], 3 * final + id i, pos + 1⟩ := by
        rw [hr] at hfree ⊢
        simp only [numberSite, uniqueRandInstId, hl, freshRand, hocc.1, if_neg hfree]
        exact fun _ => rfl
      simpa [hsite] using hword (pos + 1) (3 * final + id i) hocc.2

/-- An iteration that starts at the one position ends at the other. -/
def Retries (rand : Nat → RandPair) (used : CallIds I) (ctx : List I) (pos pos' : Nat) : Prop :=
  ∃ p, Settles (numberCtx rand · used ctx pos) (some p) ∧ p.pos = pos'

lemma numberLoop_settles (h : Settles (numberCtx rand · used ctx pos) (some p))
    (hend : p.final ∈ finals → ∃ q, Settles (numberLoop rand used finals ctx · p.pos) (some q)) :
    ∃ q, Settles (numberLoop rand used finals ctx · pos) (some q) := by
  obtain ⟨n, hn⟩ := h
  have hround : ∀ fuel, n ≤ fuel + 1 → numberLoop rand used finals ctx (fuel + 1) pos =
      if p.final ∈ finals then numberLoop rand used finals ctx fuel p.pos else some p := by
    intro fuel hfuel
    simp only [numberLoop, hn _ hfuel]
  by_cases hin : p.final ∈ finals
  · obtain ⟨q, m, hm⟩ := hend hin
    refine ⟨q, max n m + 1, fun fuel hfuel => ?_⟩
    obtain ⟨k, rfl⟩ : ∃ k, fuel = k + 1 := ⟨fuel - 1, by omega⟩
    exact (hround k (by omega)).trans ((if_pos hin).trans (hm k (by omega)))
  · refine ⟨p, n + 1, fun fuel hfuel => ?_⟩
    obtain ⟨k, rfl⟩ : ∃ k, fuel = k + 1 := ⟨fuel - 1, by omega⟩
    exact (hround k (by omega)).trans (if_neg hin)

/-- **Result.** For a random stream that goes on with every choice of values for the new call sites at
the start of some retry, `AddUsedCallCtx` returns if and only if the context is known, or some choice of unused
numbers for its new call sites gives it a long id that no context has. -/
theorem addUsedCallCtx_returns_iff (rand : Nat → RandPair) (parent : I → F)
    (s : CallCtxTables I F) (pos : Nat) (ctx : List I)
    (hfair : ∀ word, word.length ≤ (newSites s.usedCalls ctx).card → ∃ start,
      ReflTransGen (Retries rand s.usedCalls ctx) pos start ∧ Occurs rand word start) :
    (∃ r, Settles (addUsedCallCtx rand parent · (s, pos) ctx) (some r)) ↔
      ctx ∈ s.usedCallCtxList ∨ ∃ id, Choice s.usedCalls ctx id ∧
        callCtxHash id ctx ∉ s.usedCallCtxs.map Prod.snd := by
  unfold addUsedCallCtx
  by_cases hknown : ctx ∈ s.usedCallCtxList
  · simp only [hknown, if_true, true_or, iff_true]
    exact ⟨_, .const _⟩
  simp only [hknown, if_false, false_or]
  constructor
  · rintro ⟨r, n, hr⟩
    obtain ⟨p, hp, -⟩ := Option.map_eq_some_iff.1 (hr n le_rfl)
    obtain ⟨⟨m, start, hctx⟩, hfree⟩ := numberLoop_spec hp
    obtain ⟨-, hsome, hfinal, hback⟩ := numberSites_spec hctx
    refine ⟨lookupCallSiteId p.ids, hback ctx _ (.refl ctx) ⟨?_, ?_⟩, ?_⟩
    · intro i _ v hv
      rw [lookupCallSiteId, hv]
      rfl
    · intro i hi hnone
      have := hsome i hi
      rw [hnone] at this
      cases this
    · rw [callCtxHash, ← hfinal]
      exact hfree
  · rintro ⟨id, hid, hfree⟩
    obtain ⟨word, hlen, hword⟩ := hid.numberSites rand (.refl ctx)
    obtain ⟨start, hretries, hocc⟩ := hfair word hlen
    obtain ⟨p, hp⟩ := hword start 0 hocc
    have hends : ∃ q, Settles
        (numberLoop rand s.usedCalls (s.usedCallCtxs.map Prod.snd) ctx · pos) (some q) := by
      clear hfair
      induction hretries using ReflTransGen.head_induction_on with
      | refl =>
        have hset : Settles (numberCtx rand · s.usedCalls ctx start) (some p) :=
          (Settles.const (some p)).step fun fuel => (hp fuel).1
        refine numberLoop_settles hset fun hin => absurd hin ?_
        rw [(hp 0).2]
        exact hfree
      | head hab _ ih =>
        obtain ⟨q, hq, rfl⟩ := hab
        exact numberLoop_settles hq fun _ => ih
    obtain ⟨q, n, hq⟩ := hends
    exact ⟨_, n, fun fuel hfuel => Option.map_eq_some_iff.2 ⟨q, hq fuel hfuel, rfl⟩⟩

end

/-- All pairs one after the other. -/
def allPairs (n : Nat) : RandPair := (BitVec.ofNat 31 n, BitVec.ofNat 31 (n / 2 ^ 31))

lemma allPairs_surjective (r : RandPair) : ∃ n, allPairs n = r := by
  refine ⟨r.1.toNat + 2 ^ 31 * r.2.toNat, Prod.ext ?_ ?_⟩
  · apply BitVec.eq_of_toNat_eq
    rw [allPairs, BitVec.toNat_ofNat, Nat.add_mul_mod_self_left, Nat.mod_eq_of_lt r.1.isLt]
  · apply BitVec.eq_of_toNat_eq
    rw [allPairs, BitVec.toNat_ofNat, Nat.add_mul_div_left _ _ (by decide),
      Nat.div_eq_of_lt r.1.isLt, Nat.zero_add, Nat.mod_eq_of_lt r.2.isLt]

/-- A first context, and one whose call sites all have numbers. -/
theorem addUsedCallCtx_returns_first :
    (∃ r, Settles (addUsedCallCtx allPairs id · ({}, 0) [7]) (some r)) ∧
      ∃ r, Settles (addUsedCallCtx (fun _ => (0, 0)) id ·
        ({ usedCalls := [(0, 1), (1, 2)], usedCallCtxs := [([0], 1), ([1], 2)] }, 0) [0, 1])
        (some r) := by
  constructor
  · refine (addUsedCallCtx_returns_iff allPairs id {} 0 [7] fun word hlen => ?_).2
      (.inr ⟨fun _ => 0, ⟨nofun, fun i hi _ => ⟨⟨(0, 0), by decide⟩, nofun, fun j hj _ => ?_⟩⟩,
        nofun⟩)
    · -- every value of the stream is an iteration
      have hall : ∀ n, ReflTransGen (Retries allPairs [] [7]) 0 n := by
        intro n
        induction n with
        | zero => exact .refl
        | succ n ih => exact ih.tail ⟨_, (Settles.const _).step fun _ => rfl, rfl⟩
      match word, hlen with
      | [], _ => exact ⟨0, hall 0, trivial⟩
      | [r], _ =>
        obtain ⟨n, hn⟩ := allPairs_surjective r
        exact ⟨n, hall n, hn, trivial⟩
    · rw [mem_singleton.1 hj, mem_singleton.1 hi]
  · refine (addUsedCallCtx_returns_iff _ id _ 0 [0, 1] fun word hlen => ?_).2
      (.inr ⟨lookupCallSiteId [(0, 1), (1, 2)], ⟨?_, by simp [lookup_cons]⟩, by decide⟩)
    · rw [length_eq_zero_iff.1 (Nat.le_zero.1 hlen)]
      exact ⟨0, .refl, trivial⟩
    · intro i hi v hv
      rw [lookupCallSiteId, hv]
      rfl

def oneTwoFive (n : Nat) : RandPair := [(1, 0), (2, 0), (5, 0)].getD n (allPairs n)

/-- Call sites 0, 1 and 2 with the contexts `[0]`, `[1]`, `[2]` get 1, 2 and 5; the context `[0, 1]`
has the fold 5, and its call sites keep their numbers: no number of retries is enough. -/
theorem addUsedCallCtx_loops :
    ∃ s, addUsedCallCtxs oneTwoFive (id : Nat → Nat) 1 [[0], [1], [2]] = some (s, 3) ∧
      ∀ fuel, addUsedCallCtx oneTwoFive id fuel (s, 3) [0, 1] = none := by
  refine ⟨⟨[[0], [1], [2]], [0, 1, 2], [0, 1, 2], [(0, 1), (1, 2), (2, 5)],
    [([0], 1), ([1], 2), ([2], 5)]⟩, rfl, fun fuel => Option.map_eq_none_iff.2 ?_⟩
  induction fuel with
  | zero => rfl
  | succ fuel ih => exact ih

/-! ## The runtime's test -/

section
variable {I F : Type} [DecidableEq I]

/-- The open call sites, and `MyThreadContext` up to `MyThreadContextPtr`; the last one is first. -/
structure ContextStack (I : Type) where
  opened : List I
  context : List (BitVec 64)

inductive StackOp (I : Type) where
  | push (site : I)
  | pop

def maxContext : Nat := 64

/-- `klee_ics_callstack_push` and `klee_ics_callstack_pop` at an instrumented call site; the array
has `MAX_CONTEXT` entries, and only an open call site returns. -/
def ContextStack.step (ids : CallIds I) (t : ContextStack I) : StackOp I → Option (ContextStack I)
  | .push site =>
    if (ids.lookup site).isSome ∧ t.opened.length + 1 < maxContext then
      some ⟨site :: t.opened, (3 * t.context.headD 0 + lookupCallSiteId ids site) :: t.context⟩
    else none
  | .pop => if t.opened = [] then none else some ⟨t.opened.tail, t.context.tail⟩

def ContextStack.initial : ContextStack I := ⟨[], [0]⟩

/-- `IsMyCurrentContextLongId` -/
def ContextStack.isMyCurrentContextLongId (t : ContextStack I) (ctxid : BitVec 64) : Bool :=
  ctxid == t.context.headD 0

/-- The context of every open call site is the fold up to it. -/
def ContextStack.folds (ids : CallIds I) : List I → List (BitVec 64)
  | [] => [0]
  | i :: w => callCtxHash (lookupCallSiteId ids) (i :: w).reverse :: folds ids w

structure ContextStack.Inv (ids : CallIds I) (t : ContextStack I) : Prop where
  bound : t.opened.length < maxContext
  numbered : ∀ i ∈ t.opened, (ids.lookup i).isSome
  context : t.context = folds ids t.opened

variable {t : ContextStack I} {rand : Nat → RandPair} {parent : I → F} {fuel : Nat}
  {s : CallCtxTables I F × Nat}

lemma ContextStack.head_folds (w : List I) :
    (folds ids w).headD 0 = callCtxHash (lookupCallSiteId ids) w.reverse := by
  cases w <;> rfl

lemma ContextStack.Inv.step (h : t.Inv ids) (hs : t.step ids op = some t') : t'.Inv ids := by
  cases op with
  | push site =>
    obtain ⟨⟨hid, hbound⟩, hs⟩ := Option.ite_none_right_eq_some.1 hs
    cases hs
    refine ⟨hbound, ?_, ?_⟩
    · rintro i (_ | ⟨_, hi⟩)
      · exact hid
      · exact h.numbered i hi
    · show _ :: t.context = folds ids (site :: t.opened)
      rw [h.context, head_folds, folds, callCtxHash, callCtxHash, reverse_cons, foldl_append]
      rfl
  | pop =>
    obtain ⟨hne, hs⟩ := Option.ite_none_left_eq_some.1 hs
    cases hs
    obtain ⟨⟨i, w⟩ | _, context⟩ := t
    · cases hne rfl
    · exact ⟨Nat.lt_of_succ_lt h.bound, fun j hj => h.numbered j (mem_cons_of_mem _ hj),
        congrArg tail h.context⟩

lemma ContextStack.push_run (hw : ∀ i ∈ w, (ids.lookup i).isSome)
    (hlen : t.opened.length + w.length < maxContext) :
    ∃ t', runFrom (ContextStack.step ids) t (w.map .push) = some t' ∧
      t'.opened.reverse = t.opened.reverse ++ w := by
  induction w generalizing t with
  | nil => exact ⟨t, rfl, (append_nil _).symm⟩
  | cons i w ih =>
    rw [length_cons] at hlen
    obtain ⟨t', hrun, hopen⟩ := ih (t := ⟨i :: t.opened, _⟩)
      (fun j hj => hw j (mem_cons_of_mem i hj)) (by rw [length_cons]; omega)
    refine ⟨t', (runFrom_cons_eq_some _).2 ⟨_, if_pos ⟨hw i mem_cons_self, by omega⟩, hrun⟩, ?_⟩
    simpa using hopen

/-- The long id of a used context is the fold of the numbers of its call sites. -/
def CallCtxTables.Hashed (s : CallCtxTables I F) : Prop :=
  ∀ e ∈ s.usedCallCtxs, (∀ i ∈ e.1, (s.usedCalls.lookup i).isSome) ∧
    e.2 = callCtxHash (lookupCallSiteId s.usedCalls) e.1

lemma CallCtxTables.Hashed.addUsedCallCtx {ctx : List I}
    (h : s.1.Hashed) (hs : addUsedCallCtx rand parent fuel s ctx = some s') : s'.1.Hashed := by
  unfold InputCovSched.addUsedCallCtx at hs
  split at hs
  · cases hs
    exact h
  obtain ⟨p, hp, rfl⟩ := Option.map_eq_some_iff.1 hs
  obtain ⟨n, pos, hctx⟩ := (numberLoop_spec hp).1
  obtain ⟨⟨new, hids⟩, hsome, hfinal, -⟩ := numberSites_spec hctx
  intro e he
  rcases mem_append.1 he with he | he
  · obtain ⟨hold, hhash⟩ := h e he
    have hlook : ∀ i ∈ e.1, p.ids.lookup i = s.1.usedCalls.lookup i := by
      intro i hi
      obtain ⟨v, hv⟩ := Option.isSome_iff_exists.1 (hold i hi)
      rw [hids, hv]
      exact lookup_append_of_some hv
    refine ⟨fun i hi => hlook i hi ▸ hold i hi, hhash.trans ?_⟩
    apply foldl_ext
    intro final i hi
    simp only [lookupCallSiteId, hlook i hi]
  · rw [mem_singleton.1 he]
    exact ⟨hsome, hfinal⟩

lemma hashed_addUsedCallCtxs {ctxs : List (List I)}
    (hs : s.1.Hashed) (h : ctxs.foldlM (addUsedCallCtx rand parent fuel) s = some s') :
    s'.1.Hashed := by
  induction ctxs generalizing s with
  | nil =>
    cases h
    exact hs
  | cons ctx ctxs ih =>
    obtain ⟨s', hs', h⟩ := Option.bind_eq_some_iff.1 h
    exact ih (hs.addUsedCallCtx hs') h

/-- **Result.** The runtime takes the open call sites for a used context only if they are that
context, in all balanced sequences of calls, if and only if no other stack of numbered call sites
has the fold of a used context. -/
theorem context_test_exact_iff (rand : Nat → RandPair) (parent : I → F) (fuel : Nat)
    (ctxs : List (List I)) (s : CallCtxTables I F) (pos : Nat)
    (h : addUsedCallCtxs rand parent fuel ctxs = some (s, pos)) :
    (∀ ops t, runFrom (ContextStack.step s.usedCalls) .initial ops = some t →
        ∀ e ∈ s.usedCallCtxs, t.isMyCurrentContextLongId e.2 = true → t.opened.reverse = e.1) ↔
      ∀ w, w.length < maxContext → (∀ i ∈ w, (s.usedCalls.lookup i).isSome) →
        ∀ e ∈ s.usedCallCtxs, callCtxHash (lookupCallSiteId s.usedCalls) w =
          callCtxHash (lookupCallSiteId s.usedCalls) e.1 → w = e.1 := by
  have hhash : s.Hashed := hashed_addUsedCallCtxs (fun e he => absurd he not_mem_nil) h
  have hinv : ∀ ops t, runFrom (ContextStack.step s.usedCalls) .initial ops = some t →
      t.Inv s.usedCalls := by
    intro ops t hrun
    have hstart : ContextStack.initial.Inv s.usedCalls := ⟨Nat.zero_lt_succ 63, nofun, rfl⟩
    exact inv_of_run _ (fun _ _ _ hI hs => hI.step hs) hstart hrun
  have htop : ∀ t : ContextStack I, t.Inv s.usedCalls →
      t.context.headD 0 = callCtxHash (lookupCallSiteId s.usedCalls) t.opened.reverse := by
    intro t ht
    rw [ht.context, ContextStack.head_folds]
  constructor
  · intro htest w hlen hw e he heq
    obtain ⟨t, hrun, rfl⟩ := ContextStack.push_run (t := .initial) hw
      (by simpa [ContextStack.initial])
    refine htest _ t hrun e he (beq_iff_eq.2 ?_)
    rw [htop t (hinv _ t hrun), (hhash e he).2, heq]
  · intro hfold ops t hrun e he htest
    have ht := hinv ops t hrun
    refine hfold t.opened.reverse (by simpa using ht.bound)
      (fun i hi => ht.numbered i (mem_reverse.1 hi)) e he ?_
    rw [← htop t ht, ← beq_iff_eq.1 htest, (hhash e he).2]

end

/-- One call site with the number 1: its nested calls have the folds 1, 4, 13 and so on. -/
theorem context_test_exact_single :
    ∃ s pos, addUsedCallCtxs (fun _ => (1, 0)) (id : Nat → Nat) 1 [[0]] = some (s, pos) ∧
      (∃ t, runFrom (ContextStack.step s.usedCalls) .initial [.push 0, .push 0] = some t) ∧
      ∀ ops t, runFrom (ContextStack.step s.usedCalls) .initial ops = some t →
        ∀ e ∈ s.usedCallCtxs, t.isMyCurrentContextLongId e.2 = true → t.opened.reverse = e.1 := by
  refine ⟨⟨[[0]], [0], [0], [(0, 1)], [([0], 1)]⟩, 1, rfl, ⟨_, rfl⟩,
    (context_test_exact_iff (fun _ => (1, 0)) id 1 [[0]] _ _ rfl).2 ?_⟩
  intro w hlen hw e he heq
  have hfolds : ∀ n < maxContext, callCtxHash (lookupCallSiteId [(0, 1)]) (replicate n 0) = 1 →
      n = 1 := by decide +kernel
  have hzero : w = replicate w.length 0 := by
    refine eq_replicate_iff.2 ⟨rfl, ?_⟩
    rintro (_ | i) hi
    · rfl
    · cases (hw (i + 1) hi : false = true)
  cases mem_singleton.1 he
  rw [hzero] at heq ⊢
  rw [hfolds _ hlen heq]
  rfl

/-- The numbers 1, 2 and 5 again: inside call site 1, called inside call site 0, the runtime takes
the context for `[2]`. -/
theorem context_test_confused :
    ∃ s pos t, addUsedCallCtxs oneTwoFive (id : Nat → Nat) 1 [[0], [1], [2]] = some (s, pos) ∧
      runFrom (ContextStack.step s.usedCalls) .initial [.push 0, .push 1] = some t ∧
      ([2], 5) ∈ s.usedCallCtxs ∧ t.isMyCurrentContextLongId 5 = true ∧
      t.opened.reverse = [0, 1] :=
  ⟨_, _, _, rfl, rfl, by decide, by decide, rfl⟩

/-! ## Functions whose calls are logged -/

section
variable {I F B R : Type} [DecidableEq F] [DecidableEq R]

/-- `BottomUpCallGraphClosure` on sets that are given by reference. -/
def closureRoundAt (callers : F → List F) (ignore closure : R) (s : List F × (R → List F)) :
    Option (List F × (R → List F)) :=
  match s.1 with
  | [] => none
  | f :: stack =>
    if f ∈ s.2 ignore then some (stack, s.2)
    else
      let sets := Function.update s.2 closure ((s.2 closure).insert f)
      some (pushCallers (sets closure) (callers f) stack, sets)

/-- The result is cleared before the seeds are read. -/
def bottomUpCallGraphClosureAt (fuel : Nat) (callers : F → List F) (sets : R → List F)
    (seeds ignore closure : R) : Option (R → List F) :=
  let sets := Function.update sets closure []
  (loop (closureRoundAt callers ignore closure) fuel ((sets seeds).reverse, sets)).map Prod.snd

/-- The sets of `EnumerateUsedCallCtxs`. -/
inductive FuncSet where
  | fnsUsed
  | empty
  deriving DecidableEq

/-- `EnumerateUsedCallCtxs`, from the contexts that it goes through. -/
def enumerateUsedCallCtxs [DecidableEq I] (rand : Nat → RandPair) (parent : I → F)
    (callers : F → List F) (fuel : Nat) (ctxs : List (List I)) : Option (CallCtxTables I F) := do
  let (s, _) ← addUsedCallCtxs rand parent fuel ctxs
  let sets ← bottomUpCallGraphClosureAt fuel callers
    (fun | .fnsUsed => s.fnsUsed | .empty => []) FuncSet.fnsUsed .empty .fnsUsed
  some { s with fnsUsed := sets .fnsUsed }

/-- `MustLogContextStackAtInstruction` with `OptMinimizeCallLogging`; a call has targets. -/
def CallCtxTables.mustLog [DecidableEq I] (s : CallCtxTables I F) (targets : I → Option (List F))
    (i : I) : Bool :=
  i ∈ s.instsUsed || ((targets i).any fun fs => fs.any fun f => f ∈ s.fnsUsed)

/-- With different sets it is the closure of `SearchStrategy.cpp`. -/
lemma bottomUpCallGraphClosureAt_of_ne {callers : F → List F}
    {seeds ignore closure : R} (hs : seeds ≠ closure) (hi : ignore ≠ closure) (fuel : Nat) :
    (bottomUpCallGraphClosureAt fuel callers sets seeds ignore closure).map (· closure) =
      bottomUpCallGraphClosure fuel callers ((sets seeds).map some) (sets ignore) := by
  suffices h : ∀ (fuel : Nat) (stack : List F) (sets : R → List F),
      (loop (closureRoundAt callers ignore closure) fuel (stack, sets)).map (·.2 closure) =
        (loop (closureRound callers (sets ignore)) fuel ⟨stack, sets closure⟩).map (·.closure) by
    have := h fuel (sets seeds).reverse (Function.update sets closure [])
    simpa [bottomUpCallGraphClosureAt, bottomUpCallGraphClosure, hs, hi, Option.map_map,
      Function.comp_def] using this
  intro fuel
  induction fuel with
  | zero => exact fun _ _ => rfl
  | succ fuel ih =>
    intro stack sets
    rw [loop, loop]
    cases stack with
    | nil => rfl
    | cons f stack =>
      by_cases hf : f ∈ sets ignore
      · simpa [closureRoundAt, closureRound, hf] using ih stack sets
      have := ih (pushCallers ((sets closure).insert f) (callers f) stack)
        (Function.update sets closure ((sets closure).insert f))
      simpa [closureRoundAt, closureRound, hf, hi] using this

/-- When the result is another set than the seeds and the ignored functions, the closure ends, and
has the functions that call a seed. -/
theorem bottomUpCallGraphClosureAt_exact {callers : F → List F} {seeds ignore closure : R}
    (functions : List F) (hfun : ∀ f, ∀ g ∈ callers f, g ∈ functions) (hs : seeds ≠ closure)
    (hi : ignore ≠ closure) :
    ∃ fs, Settles (fun fuel => (bottomUpCallGraphClosureAt fuel callers sets seeds ignore closure).map
        (· closure)) (some fs) ∧
      fs.Nodup ∧ ∀ f, f ∈ fs ↔ CallsSeed callers ((sets seeds).map some) (sets ignore) f := by
  simp only [bottomUpCallGraphClosureAt_of_ne hs hi]
  exact bottomUpCallGraphClosure_spec functions hfun _ _

/-- Function 0 is called on two ways that come together again in a cycle; 5 calls it through 4 only. -/
def cyclicCallers : Nat → List Nat
  | 0 => [1, 2]
  | 1 => [3]
  | 2 => [3, 4]
  | 3 => [1]
  | 4 => [5]
  | _ => []

theorem bottomUpCallGraphClosureAt_exact_cyclic :
    ∃ fs, Settles (fun fuel => (bottomUpCallGraphClosureAt fuel cyclicCallers (fun r => [r]) 0 4 9).map
        (· 9)) (some fs) ∧ fs.Nodup ∧ (∀ f, f ∈ fs ↔ CallsSeed cyclicCallers [some 0] [4] f) ∧
      3 ∈ fs ∧ 5 ∉ fs := by
  have hfun : ∀ f, ∀ g ∈ cyclicCallers f, g ∈ [1, 2, 3, 4, 5] := by
    intro f
    fun_cases cyclicCallers f <;> simp
  have hs : 0 ≠ 9 ∧ 4 ≠ 9 := by decide
  obtain ⟨fs, hset, hnd, hmem⟩ :
      ∃ fs, Settles (fun fuel => (bottomUpCallGraphClosureAt fuel cyclicCallers (fun r => [r]) 0 4 9).map
        (· 9)) (some fs) ∧ fs.Nodup ∧ ∀ f, f ∈ fs ↔ CallsSeed cyclicCallers [some 0] [4] f :=
    bottomUpCallGraphClosureAt_exact [1, 2, 3, 4, 5] hfun hs.1 hs.2
  refine ⟨fs, hset, hnd, hmem, (hmem 3).2 ?_, fun h => ?_⟩
  · have hfirst : 1 ∈ cyclicCallers 0 ∧ 1 ∉ [4] := by decide
    have hsecond : 3 ∈ cyclicCallers 1 ∧ 3 ∉ [4] := by decide
    exact ⟨0, by simp, by simp, .tail (.single hfirst) hsecond⟩
  · obtain ⟨s, hs, -, hpath⟩ := (hmem 5).1 h
    obtain rfl : s = 0 := by simpa using hs
    -- 4 is ignored
    have hreach : ∀ g, ReflTransGen (fun g h => h ∈ cyclicCallers g ∧ h ∉ [4]) 0 g →
        g ∈ [0, 1, 2, 3] := by
      intro g hg
      induction hg with
      | refl => simp
      | tail _ hstep ih =>
        simp only [mem_cons, not_mem_nil, or_false] at ih
        rcases ih with rfl | rfl | rfl | rfl <;> simp [cyclicCallers] at hstep ⊢ <;> omega
    exact absurd (hreach 5 hpath) (by decide)

/-- The function is one of a used context, or calls one. -/
def LeadsToUsed (m : IrModule F B) (parent : I → F) (ctxs : List (List I)) (f : F) : Prop :=
  ∃ ctx ∈ ctxs, ∃ i ∈ ctx, ReflTransGen (fun g h => h ∈ m.callers g) (parent i) f

/-- **Result.** The closure gives the set of functions that the call logging needs, and all calls
that lead to a used context are logged, exactly when no context has a call site: the set that
comes out is empty. -/
theorem fnsUsed_closure_iff [DecidableEq I] (m : IrModule F B) (rand : Nat → RandPair)
    (parent : I → F) (targets : I → Option (List F)) (fuel : Nat) (ctxs : List (List I))
    (s : CallCtxTables I F) (h : enumerateUsedCallCtxs rand parent m.callers fuel ctxs = some s) :
    ((∀ f, f ∈ s.fnsUsed ↔ LeadsToUsed m parent ctxs f) ∧
      ∀ i fs f, targets i = some fs → f ∈ fs → LeadsToUsed m parent ctxs f →
        s.mustLog targets i = true) ↔ ∀ ctx ∈ ctxs, ctx = [] := by
  have hempty : s.fnsUsed = [] := by
    obtain ⟨⟨s', pos⟩, -, h⟩ := Option.bind_eq_some_iff.1 h
    obtain ⟨sets, hsets, h⟩ := Option.bind_eq_some_iff.1 h
    cases h
    obtain ⟨r, hr, rfl⟩ := Option.map_eq_some_iff.1 hsets
    -- the stack has nothing on it
    cases fuel with
    | zero => cases hr
    | succ fuel =>
      cases hr
      rfl
  constructor
  · rintro ⟨hset, -⟩ ctx hctx
    refine eq_nil_iff_forall_not_mem.2 fun i hi => ?_
    have := (hset (parent i)).2 ⟨ctx, hctx, i, hi, .refl⟩
    rw [hempty] at this
    cases this
  · intro hnil
    have hnone : ∀ f, ¬ LeadsToUsed m parent ctxs f := by
      rintro f ⟨ctx, hctx, i, hi, -⟩
      rw [hnil ctx hctx] at hi
      cases hi
    refine ⟨fun f => ?_, fun i fs f _ _ hf => absurd hf (hnone f)⟩
    simp [hempty, hnone f]

end

/-- Function 1 calls function 0. -/
def twoFunctions : IrModule Nat Nat where
  functions := [0, 1]
  blocks f := [f]
  block _ := ⟨[], .ret⟩
  callers f := if f = 0 then [1] else []
  succs_mem := by simp [Terminator.succs]
  parent_unique := by simp
  callers_mem := by
    intro f g hg
    split at hg <;> simp_all
  callers_body := by simp

theorem fnsUsed_closure_unused :
    ∃ s, enumerateUsedCallCtxs (fun _ => (0, 0)) id twoFunctions.callers 1 [[]] = some s ∧
      ∀ f, f ∈ s.fnsUsed ↔ LeadsToUsed twoFunctions id [[]] f :=
  ⟨_, rfl, ((fnsUsed_closure_iff twoFunctions (fun _ => (0, 0)) id (fun _ => none) 1 [[]] _ rfl).2
    (by simp)).1⟩

/-- Call site 0 of function 0 is a used context.  Call site 2 calls function 1, which calls
function 0, and is not logged. -/
theorem fnsUsed_lost :
    ∃ s, enumerateUsedCallCtxs (fun _ => (1, 0)) id twoFunctions.callers 1 [[0]] = some s ∧
      LeadsToUsed twoFunctions id [[0]] 1 ∧ s.fnsUsed = [] ∧
      s.mustLog (fun i => if i = 2 then some [1] else none) 2 = false :=
  ⟨_, rfl, ⟨[0], by simp, 0, by simp, .single (by simp [twoFunctions])⟩, rfl, rfl⟩

end InputCovSched
