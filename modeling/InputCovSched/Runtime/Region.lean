import InputCovSched.Symbolic.Engine
import Mathlib.Data.Prod.Lex

/-!
# Choosing the next region (`GetNextRegionId`)

At a region barrier the runtime sorts the live threads by calling context and compares
them with the context list of each region, which is sorted the same way. For a region
that matches, the `k`-th logical thread of the list is mapped to the `k`-th live thread.
The map is a context-preserving bijection (`matchesThreads_of_pairs`), but a thread looks up its
schedule, and tests whether it leads the next fragment, by its own id
(`getNextRegionId_follows_iff`).

With its rows of words, as they are dumped, the table gives the region whose contexts are those of
the live threads (`getNextRegionIdIn_exact`).
-/

namespace InputCovSched

open Function List Option

/-- A live thread and its current calling context. -/
structure PerThreadContext where
  ctxid : Nat
  tid : Nat
  deriving DecidableEq, Repr

/-- One list of `__ics_regionctx_table`: (context, logical thread) pairs. A context id is
never 0, the terminator, and a logical thread appears once. -/
structure RegionContext where
  entries : List (Nat × Nat)
  ctx_pos : ∀ e, e ∈ entries → e.1 ≠ 0
  nodup : (entries.map Prod.snd).Nodup

namespace RegionContext

def logicalThreads (r : RegionContext) : List Nat := r.entries.map Prod.snd

end RegionContext

/-- `qsort` with `PerThreadContextCmp`: which order equal contexts get is not fixed. -/
structure Qsort where
  sort : List PerThreadContext → List PerThreadContext
  perm : ∀ l, (sort l).Perm l
  sorted : ∀ l, (sort l).Pairwise fun a b => a.ctxid ≤ b.ctxid

/-- The contexts of the live threads, by thread id (`ThreadContexts`, null is `none`). -/
def currentContexts (threadContexts : Nat → Option Nat) : List PerThreadContext :=
  (List.range kleeMaxThreads).filterMap fun k =>
    (threadContexts k).map fun ctx => ⟨ctx, k⟩

/-- The inner loop over one region: entries are written into the map until a context
differs. `true` when both lists end together. -/
def matchRegion : List (Nat × Nat) → List PerThreadContext → (Nat → Nat) → Bool × (Nat → Nat)
  | [], [], map => (true, map)
  | [], _ :: _, map => (false, map)
  | _ :: _, [], map => (false, map)
  | (ctxid, tid) :: entries, th :: threads, map =>
    if ctxid ≠ th.ctxid then (false, map)
    else matchRegion entries threads (update map tid th.tid)

/-- The loop over the regions from number `rid` on; `none` is the assertion at the end. -/
def findRegion (threads : List PerThreadContext) :
    List RegionContext → Nat → (Nat → Nat) → Option (Nat × (Nat → Nat))
  | [], _, _ => none
  | r :: rs, rid, map =>
    match matchRegion r.entries threads map with
    | (true, map) => some (rid, map)
    | (false, map) => findRegion threads rs (rid + 1) map

/-- Returns the region's id and the updated `LogicalThreadMap`. -/
def getNextRegionId (qs : Qsort) (table : List RegionContext) (threadContexts : Nat → Option Nat)
    (logicalThreadMap : Nat → Nat) : Option (Nat × (Nat → Nat)) :=
  findRegion (qs.sort (currentContexts threadContexts)) table 1 logicalThreadMap

/-! ## The users of the map -/

structure HBSchedule where
  numThreads : Nat
  nextThreadLeader : Nat
  nextScheduleSelectorId : Nat
  exitsProgram : Bool
  threadSchedules : Nat → List Nat

/-- `InitializeMyThreadSchedulePtr` once the thread appears in the schedule. -/
def initializeMyThreadSchedulePtr (sched : HBSchedule) (myThreadId : Nat) : Option (List Nat) :=
  if myThreadId < sched.numThreads then some (sched.threadSchedules myThreadId) else none

/-- The test of `AdvanceToNextFragment`. -/
def amNextLeader (sched : HBSchedule) (myThreadId : Nat) : Bool :=
  sched.nextThreadLeader == myThreadId

/-- The map is a bijection from the region's logical threads onto the live threads and
keeps the contexts. -/
def MatchesThreads (r : RegionContext) (threadContexts : Nat → Option Nat) (map : Nat → Nat) : Prop :=
  Set.BijOn map { l | l ∈ r.logicalThreads }
    { t | t < kleeMaxThreads ∧ (threadContexts t).isSome = true } ∧
  ∀ e, e ∈ r.entries → threadContexts (map e.2) = some e.1

/-- Every matched thread gets the schedule, and passes the leader test, of its logical id. -/
def FollowsLogicalIds (r : RegionContext) (map : Nat → Nat) : Prop :=
  ∀ sched l, l ∈ r.logicalThreads →
    initializeMyThreadSchedulePtr sched (map l) =
      (if l < sched.numThreads then some (sched.threadSchedules l) else none) ∧
    amNextLeader sched (map l) = (sched.nextThreadLeader == l)

/-! ## The matched region -/

lemma mem_currentContexts :
    th ∈ currentContexts tc ↔ th.tid < kleeMaxThreads ∧ tc th.tid = some th.ctxid := by
  unfold currentContexts
  simp only [mem_filterMap, mem_range, map_eq_some_iff]
  constructor
  · rintro ⟨k, hk, ctx, hctx, rfl⟩
    exact ⟨hk, hctx⟩
  · rintro ⟨hk, hctx⟩
    exact ⟨th.tid, hk, th.ctxid, hctx, rfl⟩

lemma currentContexts_tids (tc : Nat → Option Nat) :
    ((currentContexts tc).map PerThreadContext.tid).Nodup := by
  have hsub : ((currentContexts tc).map PerThreadContext.tid).Sublist
      (List.range kleeMaxThreads) := by
    unfold currentContexts
    induction List.range kleeMaxThreads with
    | nil => simp
    | cons k ks ih =>
      cases htc : tc k with
      | none =>
        simp only [filterMap_cons, htc, map_none]
        exact ih.cons k
      | some ctx =>
        simp only [filterMap_cons, htc, map_some, map_cons]
        exact ih.cons_cons k
  exact hsub.nodup nodup_range

variable {threads : List PerThreadContext}

lemma matchRegion_other (threads : List PerThreadContext) (map : Nat → Nat)
    (hl : l ∉ entries.map Prod.snd) : (matchRegion entries threads map).2 l = map l := by
  induction entries generalizing threads map with
  | nil => cases threads <;> rfl
  | cons e entries ih =>
    obtain ⟨ctxid, tid⟩ := e
    cases threads with
    | nil => rfl
    | cons th threads =>
      simp only [map_cons, mem_cons, not_or] at hl
      unfold matchRegion
      split
      · rfl
      · rw [ih _ _ hl.2, update_of_ne hl.1]

lemma matchRegion_true {map map' : Nat → Nat}
    (hnd : (entries.map Prod.snd).Nodup) (h : matchRegion entries threads map = (true, map')) :
    entries.map Prod.fst = threads.map PerThreadContext.ctxid ∧
    (entries.map Prod.snd).map map' = threads.map PerThreadContext.tid := by
  induction entries generalizing threads map with
  | nil =>
    cases threads with
    | nil => exact ⟨rfl, rfl⟩
    | cons th threads => cases h
  | cons e entries ih =>
    obtain ⟨ctxid, tid⟩ := e
    cases threads with
    | nil => cases h
    | cons th threads =>
      simp only [map_cons, nodup_cons] at hnd
      unfold matchRegion at h
      split at h
      · cases h
      rename_i hctx
      obtain ⟨h1, h2⟩ := ih hnd.2 h
      have hmap : map' tid = th.tid := by
        have := matchRegion_other threads (update map tid th.tid) hnd.1
        rw [h, update_self] at this
        exact this
      have hctx' : ctxid = th.ctxid := by simpa using hctx
      exact ⟨by simp [hctx', h1], by simp only [map_cons, hmap, h2]⟩

lemma findRegion_some {table : List RegionContext}
    {map map' : Nat → Nat} (h : findRegion threads table rid map = some (rid', map')) :
    ∃ r map₁, table[rid' - rid]? = some r ∧ rid ≤ rid' ∧
      matchRegion r.entries threads map₁ = (true, map') := by
  induction table generalizing rid map with
  | nil => cases h
  | cons r rs ih =>
    unfold findRegion at h
    split at h
    · rename_i map₁ hm
      cases h
      exact ⟨r, map, by simp, le_refl _, hm⟩
    obtain ⟨r', map₂, hr, hle, hm'⟩ := ih h
    refine ⟨r', map₂, ?_, by omega, hm'⟩
    have : rid' - rid = (rid' - (rid + 1)) + 1 := by omega
    rw [this, List.getElem?_cons_succ]
    exact hr

section
variable {qs : Qsort} {table : List RegionContext} {tc : Nat → Option Nat} {map map' : Nat → Nat}
  {rid : Nat}

lemma getNextRegionId_pairs (h : getNextRegionId qs table tc map = some (rid, map')) :
    ∃ r, table[rid - 1]? = some r ∧
      r.entries.map Prod.fst = (qs.sort (currentContexts tc)).map PerThreadContext.ctxid ∧
      r.logicalThreads.map map' = (qs.sort (currentContexts tc)).map PerThreadContext.tid := by
  obtain ⟨r, map₁, hr, -, hm⟩ := findRegion_some h
  exact ⟨r, hr, matchRegion_true r.nodup hm⟩

lemma matchesThreads_of_pairs
    (h1 : r.entries.map Prod.fst = (qs.sort (currentContexts tc)).map PerThreadContext.ctxid)
    (h2 : r.logicalThreads.map map' = (qs.sort (currentContexts tc)).map PerThreadContext.tid) :
    MatchesThreads r tc map' := by
  have hperm := qs.perm (currentContexts tc)
  have hnd : (r.logicalThreads.map map').Nodup := by
    rw [h2]
    exact (hperm.map _).nodup_iff.2 (currentContexts_tids tc)
  refine ⟨⟨?_, ?_, ?_⟩, ?_⟩
  · -- a logical thread goes to a live thread
    intro l hl
    have hmem : map' l ∈ (qs.sort (currentContexts tc)).map PerThreadContext.tid := by
      rw [← h2]
      exact mem_map_of_mem hl
    obtain ⟨th, hth, heq⟩ := mem_map.1 hmem
    have hlive := mem_currentContexts.1 (hperm.mem_iff.1 hth)
    rw [heq] at hlive
    exact ⟨hlive.1, by simp [hlive.2]⟩
  · intro l hl l' hl' heq
    exact inj_on_of_nodup_map hnd hl hl' heq
  · -- every live thread is met
    rintro t ⟨ht, hlive⟩
    obtain ⟨ctx, hctx⟩ := isSome_iff_exists.1 hlive
    have hth : (⟨ctx, t⟩ : PerThreadContext) ∈ qs.sort (currentContexts tc) :=
      hperm.mem_iff.2 (mem_currentContexts.2 ⟨ht, hctx⟩)
    have hmem : t ∈ r.logicalThreads.map map' := by
      rw [h2]
      exact mem_map.2 ⟨_, hth, rfl⟩
    obtain ⟨l, hl, hlt⟩ := mem_map.1 hmem
    exact ⟨l, hl, hlt⟩
  · -- the k-th entry meets the k-th thread
    intro e he
    obtain ⟨k, hk⟩ := mem_iff_getElem?.1 he
    have hc := congrArg (fun l : List Nat => l[k]?) h1
    have ht := congrArg (fun l : List Nat => l[k]?) h2
    simp only [RegionContext.logicalThreads, List.getElem?_map, hk, map_some] at hc ht
    obtain ⟨th, hth, hct⟩ := map_eq_some_iff.1 hc.symm
    rw [hth, map_some, Option.some.injEq] at ht
    have hlive := mem_currentContexts.1 (hperm.mem_iff.1 (mem_of_getElem? hth))
    rw [ht, hlive.2, hct]

lemma followsLogicalIds_iff (r : RegionContext) (map : Nat → Nat) :
    FollowsLogicalIds r map ↔ ∀ l, l ∈ r.logicalThreads → map l = l := by
  constructor
  · intro h l hl
    -- a schedule that names the logical thread its leader
    have hlead : (l == map l) = (l == l) := (h ⟨0, l, 0, false, fun _ => []⟩ l hl).2
    rw [beq_self_eq_true] at hlead
    exact (beq_iff_eq.1 hlead).symm
  · intro h sched l hl
    rw [h l hl]
    exact ⟨rfl, rfl⟩

/-- The returned map is always a bijection that keeps the contexts; threads follow their
logical ids exactly when the region lists, context by context, the ids of the live threads
themselves. -/
theorem getNextRegionId_follows_iff (h : getNextRegionId qs table tc map = some (rid, map')) :
    ∃ r, table[rid - 1]? = some r ∧ MatchesThreads r tc map' ∧
      (MatchesThreads r tc map' ∧ FollowsLogicalIds r map' ↔
        r.logicalThreads = (qs.sort (currentContexts tc)).map PerThreadContext.tid) := by
  obtain ⟨r, hr, h1, h2⟩ := getNextRegionId_pairs h
  have hmatch := matchesThreads_of_pairs h1 h2
  refine ⟨r, hr, hmatch, ?_⟩
  have hids : r.logicalThreads = r.logicalThreads.map map' ↔
      ∀ l, l ∈ r.logicalThreads → map' l = l := by
    conv_lhs => lhs; rw [← map_id r.logicalThreads]
    rw [map_inj_left]
    exact forall_congr' fun l => forall_congr' fun _ => eq_comm
  rw [followsLogicalIds_iff, ← h2, hids]
  exact ⟨fun h => h.2, fun h => ⟨hmatch, h⟩⟩

end

def stableQsort : Qsort where
  sort := List.insertionSort fun a b => a.ctxid ≤ b.ctxid
  perm := fun l => perm_insertionSort _ l
  sorted := fun l => by
    have : IsTrans PerThreadContext fun a b => a.ctxid ≤ b.ctxid := ⟨fun _ _ _ => le_trans⟩
    have : Std.Total fun a b : PerThreadContext => a.ctxid ≤ b.ctxid := ⟨fun _ _ => le_total _ _⟩
    exact pairwise_insertionSort _ l

def twoThreads : Nat → Option Nat
  | 0 => some 20
  | 3 => some 10
  | _ => none

def sameIdsTable : List RegionContext :=
  [⟨[(10, 0), (21, 3)], by decide, by decide⟩, ⟨[(10, 3), (20, 0)], by decide, by decide⟩]

def exchangedTable : List RegionContext := [⟨[(10, 0), (20, 3)], by decide, by decide⟩]

/-- The first region is tried and leaves its mark in the map; the second one matches. -/
theorem getNextRegionId_follows_sameIds :
    ∃ r map', getNextRegionId stableQsort sameIdsTable twoThreads id = some (2, map') ∧
      sameIdsTable[1]? = some r ∧ MatchesThreads r twoThreads map' ∧ FollowsLogicalIds r map' := by
  have hrun : ∃ map', getNextRegionId stableQsort sameIdsTable twoThreads id = some (2, map') :=
    ⟨_, rfl⟩
  obtain ⟨map', hrun⟩ := hrun
  obtain ⟨r, hr, -, hiff⟩ := getNextRegionId_follows_iff hrun
  have hids : r.logicalThreads =
      (stableQsort.sort (currentContexts twoThreads)).map PerThreadContext.tid := by
    cases hr
    decide
  exact ⟨r, map', hrun, hr, (hiff.2 hids).1, (hiff.2 hids).2⟩

/-- Logical thread 0 is matched to thread 3, which takes the schedule of logical thread 3. -/
theorem not_followsLogicalIds :
    ∃ r map', getNextRegionId stableQsort exchangedTable twoThreads id = some (1, map') ∧
      exchangedTable[0]? = some r ∧ map' 0 = 3 ∧ map' 3 = 0 ∧ ¬ FollowsLogicalIds r map' := by
  refine ⟨_, _, rfl, rfl, rfl, rfl, fun h => ?_⟩
  have := (followsLogicalIds_iff _ _).1 h 0 (by decide)
  exact absurd this (by decide)

/-! ## The table -/

/-- A region: its `numericId`, and the id of the stripped context and the canonical thread of each
of its contexts. -/
structure DumpedContexts where
  numericId : Nat
  contexts : List (Nat × Nat)

namespace DumpedContexts

def ctxids (r : DumpedContexts) : List Nat := r.contexts.map Prod.fst

/-- `std::stable_sort` of the pairs. -/
def sorted (r : DumpedContexts) : List (Nat × Nat) :=
  r.contexts.insertionSort fun a b => toLex a ≤ toLex b

/-- The map `entries`. -/
def byNumericId (regions : List DumpedContexts) : List DumpedContexts :=
  regions.insertionSort fun a b => a.numericId ≤ b.numericId

/-- The array of a region, up to its terminator. -/
def words (r : DumpedContexts) : List Nat := (r.sorted.flatMap fun e => [e.1, e.2]) ++ [0]

end DumpedContexts

/-- `__ics_regionctx_table`; `none` is the null pointer. -/
def dumpRegionContexts (regions : List DumpedContexts) : List (Option (List Nat)) :=
  none :: ((DumpedContexts.byNumericId regions).map (some ·.words) ++ [none])

/-- The inner loop with its reads of the array; `none` is a read behind the end. -/
def matchWords : List Nat → List PerThreadContext → (Nat → Nat) → Option (Bool × (Nat → Nat))
  | [], _, _ => none
  | w :: _, [], map => some (w == 0, map)
  | 0 :: _, _ :: _, map => some (false, map)
  | [_ + 1], _ :: _, _ => none
  | ctxid :: tid :: ctxlist, th :: threads, map =>
    if ctxid ≠ th.ctxid then some (false, map)
    else matchWords ctxlist threads (update map tid th.tid)

/-- The loop over the table from entry `rid` on; `some none` is the assertion at the end. -/
def findWords (threads : List PerThreadContext) :
    List (Option (List Nat)) → Nat → (Nat → Nat) → Option (Option (Nat × (Nat → Nat)))
  | [], _, _ => none
  | none :: _, _, _ => some none
  | some ctxlist :: table, rid, map =>
    match matchWords ctxlist threads map with
    | none => none
    | some (true, map) => some (some (rid, map))
    | some (false, map) => findWords threads table (rid + 1) map

def getNextRegionIdIn (qs : Qsort) (table : List (Option (List Nat)))
    (threadContexts : Nat → Option Nat) (logicalThreadMap : Nat → Nat) :
    Option (Option (Nat × (Nat → Nat))) :=
  findWords (qs.sort (currentContexts threadContexts)) (table.drop 1) 1 logicalThreadMap

lemma matchWords_eq (hpos : ∀ e ∈ entries, e.1 ≠ 0) (threads : List PerThreadContext)
    (map : Nat → Nat) :
    matchWords ((entries.flatMap fun e => [e.1, e.2]) ++ [0]) threads map =
      some (matchRegion entries threads map) := by
  induction entries generalizing threads map with
  | nil => cases threads <;> rfl
  | cons e entries ih =>
    obtain ⟨ctxid, tid⟩ := e
    obtain ⟨c, rfl⟩ : ∃ c, ctxid = c + 1 := Nat.exists_eq_succ_of_ne_zero (hpos _ mem_cons_self)
    cases threads with
    | nil => rfl
    | cons th threads =>
      rw [matchRegion]
      simp only [flatMap_cons, cons_append, nil_append, matchWords]
      split
      · rfl
      · exact ih (fun e he => hpos e (mem_cons_of_mem _ he)) threads _

lemma matchRegion_iff (entries : List (Nat × Nat)) (threads : List PerThreadContext)
    (map : Nat → Nat) : (matchRegion entries threads map).1 = true ↔
      entries.map Prod.fst = threads.map PerThreadContext.ctxid := by
  induction entries generalizing threads map with
  | nil => cases threads <;> simp [matchRegion]
  | cons e entries ih =>
    cases threads with
    | nil => simp [matchRegion]
    | cons th threads =>
      rw [matchRegion]
      split
      · simp_all
      · simp_all

lemma pairwise_insertionSort_key {α β : Type*} [LinearOrder β] (f : α → β) (l : List α) :
    (l.insertionSort fun a b => f a ≤ f b).Pairwise fun a b => f a ≤ f b := by
  exact pairwise_insertionSort _ l

section
variable (qs : Qsort) (tc : Nat → Option Nat)

/-- Sorted on both sides, the contexts are the same ones if and only if they match one by one. -/
lemma DumpedContexts.matches_iff (r : DumpedContexts) (map : Nat → Nat) :
    (matchRegion r.sorted (qs.sort (currentContexts tc)) map).1 = true ↔
      r.ctxids.Perm ((currentContexts tc).map PerThreadContext.ctxid) := by
  have hrow : (r.sorted.map Prod.fst).Perm r.ctxids := (perm_insertionSort _ _).map _
  have hlive := (qs.perm (currentContexts tc)).map PerThreadContext.ctxid
  rw [matchRegion_iff]
  constructor
  · intro heq
    exact hrow.symm.trans (heq ▸ hlive)
  · intro hperm
    refine (hrow.trans (hperm.trans hlive.symm)).eq_of_pairwise (fun a b _ _ => le_antisymm) ?_ ?_
    · refine pairwise_map.2 ((pairwise_insertionSort_key toLex r.contexts).imp ?_)
      intro a b hab
      rcases Prod.Lex.toLex_le_toLex.1 hab with hlt | ⟨heq, -⟩
      · exact hlt.le
      · exact heq.le
    · exact pairwise_map.2 (qs.sorted _)

lemma findWords_spec {rs : List DumpedContexts}
    (hids : rs.map DumpedContexts.numericId = range' rid rs.length)
    (hpos : ∀ r ∈ rs, ∀ e ∈ r.contexts, e.1 ≠ 0) (map : Nat → Nat) :
    (findWords (qs.sort (currentContexts tc)) (rs.map (some ·.words) ++ [none]) rid map =
        some none ∧
      ∀ r ∈ rs, ¬ r.ctxids.Perm ((currentContexts tc).map PerThreadContext.ctxid)) ∨
    ∃ r ∈ rs, r.ctxids.Perm ((currentContexts tc).map PerThreadContext.ctxid) ∧ ∃ map',
      findWords (qs.sort (currentContexts tc)) (rs.map (some ·.words) ++ [none]) rid map =
        some (some (r.numericId, map')) := by
  induction rs generalizing rid map with
  | nil => exact .inl ⟨rfl, nofun⟩
  | cons r rs ih =>
    rw [map_cons, length_cons, range'_succ, cons.injEq] at hids
    have hrow : ∀ e ∈ r.sorted, e.1 ≠ 0 :=
      fun e he => hpos r mem_cons_self e ((mem_insertionSort _).1 he)
    have hwords := matchWords_eq hrow (qs.sort (currentContexts tc)) map
    have hiff := r.matches_iff qs tc map
    rw [map_cons, cons_append, findWords, DumpedContexts.words, hwords]
    cases hm : matchRegion r.sorted (qs.sort (currentContexts tc)) map with
    | mk found map' =>
      rw [hm] at hiff
      cases found with
      | true =>
        refine .inr ⟨r, mem_cons_self, hiff.1 rfl, map', ?_⟩
        rw [hids.1]
      | false =>
        have hpos' := fun r hr => hpos r (mem_cons_of_mem _ hr)
        rcases ih hids.2 hpos' map' with ⟨heq, hno⟩ | ⟨r', hr', h⟩
        · refine .inl ⟨heq, ?_⟩
          rintro q (_ | ⟨_, hq⟩)
          · exact fun hp => absurd (hiff.2 hp) (by simp)
          · exact hno q hq
        · exact .inr ⟨r', mem_cons_of_mem _ hr', h⟩

/-- For regions with the numbers 1 to n, context ids that are not 0 and different contexts, the
runtime finds in the dumped table the region with the contexts of the live threads, and fails its
assertion if there is none. -/
theorem getNextRegionIdIn_exact (regions : List DumpedContexts)
    (hids : (regions.map DumpedContexts.numericId).Perm (range' 1 regions.length))
    (hpos : ∀ r ∈ regions, ∀ e ∈ r.contexts, e.1 ≠ 0)
    (hdiff : ∀ r ∈ regions, ∀ r' ∈ regions, r.ctxids.Perm r'.ctxids → r = r')
    (map : Nat → Nat) :
    (∀ r ∈ regions, (∃ map', getNextRegionIdIn qs (dumpRegionContexts regions) tc map =
        some (some (r.numericId, map'))) ↔
      r.ctxids.Perm ((currentContexts tc).map PerThreadContext.ctxid)) ∧
    (getNextRegionIdIn qs (dumpRegionContexts regions) tc map = some none ↔
      ∀ r ∈ regions, ¬ r.ctxids.Perm ((currentContexts tc).map PerThreadContext.ctxid)) := by
  have hsort : (DumpedContexts.byNumericId regions).Perm regions := perm_insertionSort _ regions
  have hnum : (DumpedContexts.byNumericId regions).map DumpedContexts.numericId =
      range' 1 (DumpedContexts.byNumericId regions).length := by
    rw [hsort.length_eq]
    refine ((hsort.map _).trans hids).eq_of_pairwise (fun a b _ _ => le_antisymm) ?_ ?_
    · exact pairwise_map.2 (pairwise_insertionSort_key DumpedContexts.numericId regions)
    · exact pairwise_le_range' ..
  have hspec := findWords_spec qs tc hnum (fun r hr => hpos r (hsort.mem_iff.1 hr)) map
  change (findWords _ ((dumpRegionContexts regions).drop 1) 1 map = _ ∧ _) ∨ ∃ r ∈ _, _ ∧ ∃ map',
    findWords _ ((dumpRegionContexts regions).drop 1) 1 map = _ at hspec
  unfold getNextRegionIdIn
  rcases hspec with ⟨heq, hno⟩ | ⟨r, hr, hp, map', heq⟩
  · simp only [heq, true_iff]
    refine ⟨fun r hr => ⟨nofun, fun hp => absurd hp (hno r (hsort.mem_iff.2 hr))⟩, ?_⟩
    exact fun r hr => hno r (hsort.mem_iff.2 hr)
  have hr' := hsort.mem_iff.1 hr
  simp only [heq]
  refine ⟨fun q hq => ⟨?_, fun hp' => ?_⟩, nofun, fun hno => absurd hp (hno r hr')⟩
  · rintro ⟨map'', hsome⟩
    have hrq : r.numericId = q.numericId :=
      congrArg Prod.fst (Option.some.inj (Option.some.inj hsome))
    rw [← inj_on_of_nodup_map (hids.nodup_iff.2 nodup_range') hr' hq hrq]
    exact hp
  · rw [← hdiff r hr' q hq (hp.trans hp'.symm)]
    exact ⟨map', rfl⟩

end

/-- Regions 1 and 2 in the order of their contexts; threads 0 and 3 are in region 2. -/
theorem getNextRegionIdIn_exact_two :
    ∃ map', getNextRegionIdIn stableQsort
      (dumpRegionContexts [⟨2, [(20, 1), (10, 0)]⟩, ⟨1, [(10, 0)]⟩]) twoThreads id =
        some (some (2, map')) :=
  ((getNextRegionIdIn_exact stableQsort twoThreads [⟨2, [(20, 1), (10, 0)]⟩, ⟨1, [(10, 0)]⟩]
    (by decide) (by decide) (by simp [DumpedContexts.ctxids]) id).1 ⟨2, [(20, 1), (10, 0)]⟩
    (by simp)).2 (by decide)

end InputCovSched
