import InputCovSched.Klee.Create

/-!
# Live memory of the precondition slice (`PrecondSliceComputor`, `SearchStrategy.cpp`)

The slicer walks a recorded trace from its last entry to its first. A load whose register is
live is put in the live set of its memory object; a store removes the loads that it overwrites
entirely, and makes itself live if it touches any of them. Whether a load is taken, and whether
a store is looked at, is decided elsewhere in the slicer and may be anything here.

    nothing between them redefines the byte → the load is still live  (mem_liveMem_append)
    the last writer of a byte that a live load reads is reported live  (reports_lastWriter)
-/

namespace InputCovSched

open Klee Function List

structure Instruction where
  id : Nat
  function : Nat
  deriving DecidableEq

/-- A `klee::MemoryObject`: its size is a 64-bit number. -/
structure MemoryObject where
  id : Nat
  size : Nat
  size_lt : size < 2 ^ 64
  deriving DecidableEq

/-- `getZExtValue` of a constant. -/
def zextValue? : Klee.Expr → Option Nat
  | .constant _ v => some v.toNat
  | _ => none

/-- A `Load` or a `Store` entry. An access that leaves its object ends the path with an error
and is not recorded. -/
structure MemoryAccess where
  kinst : Instruction
  mo : MemoryObject
  offset : Klee.Expr
  nbytes : Klee.Expr
  inBounds : ∀ off n, zextValue? offset = some off → zextValue? nbytes = some n →
    off + n ≤ mo.size
  deriving DecidableEq

/-- The byte range of an access with a constant offset and size. -/
def MemoryAccess.range? (a : MemoryAccess) : Option (Nat × Nat) :=
  match zextValue? a.offset, zextValue? a.nbytes with
  | some off, some n => some (off, n)
  | _, _ => none

/-- What the slicer asks about accesses that are not constant: the solver's answers, with the
conservative ones for its failures, and whether an instruction looks like a part of a `memset`
loop. -/
structure SliceOracle where
  solverMustBeTrue : Klee.Expr → Bool
  solverMayBeTrue : Klee.Expr → Bool
  looksLikeMemsetLoop : Instruction → Bool

/-- `_liveMem`. An object without loads is not in the map of the source. -/
abbrev LiveMem := MemoryObject → List MemoryAccess

section
variable (oracle : SliceOracle)

/-- One round of the loop over the live loads: is the store live now, and is the load
overwritten by it? -/
def checkLoad (store e : MemoryAccess) (isLive : Bool) : Bool × Bool :=
  match store.range?, e.range? with
  | some (soff, sb), some (eoff, eb) =>
    -- sums of `uint64_t`
    if soff ≤ eoff ∧ (eoff + eb) % 2 ^ 64 ≤ (soff + sb) % 2 ^ 64 then (true, true)
    else (isLive || decide (soff < (eoff + eb) % 2 ^ 64 ∧ eoff < (soff + sb) % 2 ^ 64), false)
  | _, _ =>
    if oracle.looksLikeMemsetLoop store.kinst then (true, false)
    else
      let store_upper := addCreate store.offset store.nbytes
      let e_upper := addCreate e.offset e.nbytes
      if oracle.solverMustBeTrue
          (andCreate (uleCreate store.offset e.offset) (uleCreate e_upper store_upper)) then
        (true, true)
      else
        (isLive || oracle.solverMayBeTrue
          (andCreate (ultCreate store.offset e_upper) (ultCreate e.offset store_upper)), false)

/-- The loop over the live loads of the object: the loads that are left. -/
def scanLoads (store : MemoryAccess) : Bool → List MemoryAccess → Bool × List MemoryAccess
  | isLive, [] => (isLive, [])
  | isLive, e :: entries =>
    let (isLive, overwritten) := checkLoad oracle store e isLive
    let (result, kept) := scanLoads store isLive entries
    (result, if overwritten then kept else e :: kept)

def updateLiveMemForStore (live : LiveMem) (store : MemoryAccess) : Bool × LiveMem :=
  let (isLive, kept) := scanLoads oracle store false (live store.mo)
  (isLive, update live store.mo kept)

end

def updateLiveMemForLoad (live : LiveMem) (load : MemoryAccess) : LiveMem :=
  update live load.mo (live load.mo ++ [load])

def updateLiveMemForAlloc (live : LiveMem) (mo : MemoryObject) : LiveMem :=
  update live mo []

/-- `DoFunctionCall`, for a function whose loads are forgotten at its call. -/
def forgetLoadsOf (live : LiveMem) (callee : Nat) : LiveMem :=
  fun mo => (live mo).filter fun e => e.kinst.function ≠ callee

/-! ## The walk -/

/-- An entry of the trace and what the slicer decides there. A call of a function that
Steensgaard's analysis ignores, or of a pthread model, forgets the loads of that function. -/
inductive MemoryEntry where
  | load (a : MemoryAccess) (taken : Bool)
  | store (a : MemoryAccess) (processed : Bool)
  | allocation (mo : MemoryObject)
  | call (callee : Nat) (forgets : Bool)
  | other

open MemoryEntry

def MemoryEntry.access? : MemoryEntry → Option MemoryAccess
  | .load a _ | .store a _ => some a
  | _ => none

section
variable (oracle : SliceOracle)

/-- `ProcessCurrEntry`, its part on live memory. -/
def MemoryEntry.process (live : LiveMem) : MemoryEntry → LiveMem
  | .load a true => updateLiveMemForLoad live a
  | .store a true => (updateLiveMemForStore oracle live a).2
  | .allocation mo => updateLiveMemForAlloc live mo
  | .call callee true => forgetLoadsOf live callee
  | _ => live

def liveMem : List MemoryEntry → LiveMem
  | [] => fun _ => []
  | e :: path => e.process oracle (liveMem path)

/-- What `UpdateLiveMemForStore` returned at each entry of the trace. -/
def reports : List MemoryEntry → List (Option Bool)
  | [] => []
  | e :: path =>
    (match e with
      | .store a true => some (updateLiveMemForStore oracle (liveMem oracle path) a).1
      | _ => none) :: reports path

end

/-! ## Bytes -/

def MemoryAccess.Touches (a : MemoryAccess) (b : Nat) : Prop :=
  ∃ off n, a.range? = some (off, n) ∧ off ≤ b ∧ b < off + n

/-- After the entry byte `b` of the object does not have the value from before. -/
def MemoryEntry.Redefines (mo : MemoryObject) (b : Nat) : MemoryEntry → Prop
  | .store a _ => a.mo = mo ∧ a.Touches b
  | .allocation mo' => mo' = mo
  | _ => False

def MemoryEntry.Forgets (function : Nat) : MemoryEntry → Prop
  | .call callee true => callee = function
  | _ => False

def ConstantAccesses (path : List MemoryEntry) : Prop :=
  ∀ e ∈ path, ∀ a, e.access? = some a → a.range?.isSome

/-- The store at `i` is the last writer of byte `b`, which the live load at `j` reads. The
load's function is not one whose loads are forgotten in between. -/
structure LastWriter (path : List MemoryEntry) (i j : Nat) (s l : MemoryAccess) (b : Nat) :
    Prop where
  store : path[i]? = some (.store s true)
  load : path[j]? = some (.load l true)
  lt : i < j
  object : s.mo = l.mo
  writes : s.Touches b
  reads : l.Touches b
  last : ∀ k e, i < k → k < j → path[k]? = some e → ¬ e.Redefines l.mo b
  kept : ∀ k e, i < k → k < j → path[k]? = some e → ¬ e.Forgets l.kinst.function

section
variable {oracle : SliceOracle} {s e : MemoryAccess} {b : Nat}

lemma MemoryAccess.end_lt (h : e.range? = some (off, n)) : off + n < 2 ^ 64 := by
  unfold MemoryAccess.range? at h
  split at h
  · next hoff hn =>
    cases h
    have hle := e.inBounds _ _ hoff hn
    have hlt := e.mo.size_lt
    omega
  · cases h

lemma checkLoad_overwritten (hs : s.range?.isSome) (he : e.range?.isSome)
    (h : (checkLoad oracle s e isLive).2 = true) (hb : e.Touches b) : s.Touches b := by
  obtain ⟨⟨soff, sb⟩, hsr⟩ := Option.isSome_iff_exists.1 hs
  obtain ⟨⟨eoff, eb⟩, her⟩ := Option.isSome_iff_exists.1 he
  have hse := MemoryAccess.end_lt hsr
  have hee := MemoryAccess.end_lt her
  obtain ⟨off, n, hr, hlo, hhi⟩ := hb
  rw [her] at hr
  cases hr
  simp only [checkLoad, hsr, her] at h
  split at h
  · next hcov =>
    exact ⟨soff, sb, hsr, by omega, by omega⟩
  · cases h

lemma checkLoad_common (hs : s.Touches b) (he : e.Touches b) :
    (checkLoad oracle s e isLive).1 = true := by
  obtain ⟨soff, sb, hsr, hs1, hs2⟩ := hs
  obtain ⟨eoff, eb, her, he1, he2⟩ := he
  have hse := MemoryAccess.end_lt hsr
  have hee := MemoryAccess.end_lt her
  simp only [checkLoad, hsr, her]
  rw [Nat.mod_eq_of_lt hse, Nat.mod_eq_of_lt hee]
  split
  · rfl
  · have hoverlap : soff < eoff + eb ∧ eoff < soff + sb := ⟨by omega, by omega⟩
    simp [hoverlap]

lemma checkLoad_live (oracle : SliceOracle) (s e : MemoryAccess) :
    (checkLoad oracle s e true).1 = true := by
  unfold checkLoad
  split
  · split <;> rfl
  split
  · rfl
  · dsimp only
    split <;> rfl

lemma scanLoads_live (oracle : SliceOracle) (s : MemoryAccess) (entries : List MemoryAccess) :
    (scanLoads oracle s true entries).1 = true := by
  induction entries with
  | nil => rfl
  | cons e entries ih =>
    simp only [scanLoads]
    rw [checkLoad_live]
    exact ih

/-- **A live load with a byte of the store makes the store live.** -/
theorem scanLoads_common (hs : s.Touches b) (he : e.Touches b)
    (hmem : e ∈ entries) : (scanLoads oracle s isLive entries).1 = true := by
  induction entries generalizing isLive with
  | nil => cases hmem
  | cons d entries ih =>
    simp only [scanLoads]
    rcases mem_cons.1 hmem with rfl | hmem
    · rw [checkLoad_common hs he]
      exact scanLoads_live oracle s entries
    · exact ih hmem

lemma mem_scanLoads (hs : s.range?.isSome) (he : e.Touches b)
    (hsb : ¬ s.Touches b) (hmem : e ∈ entries) : e ∈ (scanLoads oracle s isLive entries).2 := by
  induction entries generalizing isLive with
  | nil => cases hmem
  | cons d entries ih =>
    simp only [scanLoads]
    rcases mem_cons.1 hmem with rfl | hmem
    · have hsome : e.range?.isSome := by
        obtain ⟨off, n, hr, -, -⟩ := he
        rw [hr]
        rfl
      have hkept : (checkLoad oracle s e isLive).2 = false := by
        rw [Bool.eq_false_iff]
        intro hover
        exact hsb (checkLoad_overwritten hs hsome hover he)
      rw [hkept]
      exact mem_cons_self
    · split
      · exact ih hmem
      · exact mem_cons_of_mem _ (ih hmem)

/-! ## The walk keeps a live load -/

lemma MemoryEntry.mem_process {live : LiveMem} {entry : MemoryEntry}
    (hconst : ∀ a, entry.access? = some a → a.range?.isSome) (hl : l.Touches b)
    (hdef : ¬ entry.Redefines l.mo b) (hforget : ¬ entry.Forgets l.kinst.function)
    (hmem : l ∈ live l.mo) : l ∈ entry.process oracle live l.mo := by
  cases entry with
  | other => exact hmem
  | load a taken =>
    cases taken with
    | false => exact hmem
    | true =>
      by_cases hmo : l.mo = a.mo
      · rw [hmo] at hmem ⊢
        simp only [process, updateLiveMemForLoad, update_self]
        exact mem_append_left _ hmem
      · simpa only [process, updateLiveMemForLoad, update_of_ne hmo] using hmem
  | store a processed =>
    cases processed with
    | false => exact hmem
    | true =>
      by_cases hmo : l.mo = a.mo
      · have hnot : ¬ a.Touches b := fun ht => hdef ⟨hmo.symm, ht⟩
        rw [hmo] at hmem ⊢
        simp only [process, updateLiveMemForStore, update_self]
        exact mem_scanLoads (hconst a rfl) hl hnot hmem
      · simpa only [process, updateLiveMemForStore, update_of_ne hmo] using hmem
  | allocation mo =>
    have hmo : l.mo ≠ mo := fun h => hdef h.symm
    simpa only [process, updateLiveMemForAlloc, update_of_ne hmo] using hmem
  | call callee forgets =>
    cases forgets with
    | false => exact hmem
    | true =>
      have hne : l.kinst.function ≠ callee := fun h => hforget h.symm
      simp only [process, forgetLoadsOf, mem_filter]
      exact ⟨hmem, by simpa using hne⟩

/-- From the entry `j` back to any earlier one: a load that was put in the live set is still
there if no entry in between redefines one of its bytes or forgets it. -/
lemma mem_liveMem_append {mid post : List MemoryEntry} (hconst : ConstantAccesses mid)
    (hl : l.Touches b) (hdef : ∀ e ∈ mid, ¬ e.Redefines l.mo b)
    (hforget : ∀ e ∈ mid, ¬ e.Forgets l.kinst.function) :
    l ∈ liveMem oracle (mid ++ .load l true :: post) l.mo := by
  induction mid with
  | nil =>
    show l ∈ updateLiveMemForLoad (liveMem oracle post) l l.mo
    rw [updateLiveMemForLoad, update_self]
    exact mem_append_right _ mem_cons_self
  | cons e mid ih =>
    have htail := ih (fun d hd => hconst d (mem_cons_of_mem _ hd))
      (fun d hd => hdef d (mem_cons_of_mem _ hd))
      (fun d hd => hforget d (mem_cons_of_mem _ hd))
    exact mem_process (hconst e mem_cons_self) hl (hdef e mem_cons_self)
      (hforget e mem_cons_self) htail

lemma reports_append (oracle : SliceOracle) (pre post : List MemoryEntry) :
    (reports oracle (pre ++ post))[pre.length]? = (reports oracle post)[0]? := by
  induction pre with
  | nil => rfl
  | cons e pre ih => exact ih

end

lemma LastWriter.split {path : List MemoryEntry} (h : LastWriter path i j s l b) :
    ∃ pre mid post, path = pre ++ .store s true :: (mid ++ .load l true :: post) ∧
      pre.length = i ∧ (∀ e ∈ mid, ¬ e.Redefines l.mo b ∧ ¬ e.Forgets l.kinst.function) := by
  obtain ⟨hi, hie⟩ := List.getElem?_eq_some_iff.1 h.store
  obtain ⟨hj, hje⟩ := List.getElem?_eq_some_iff.1 h.load
  have hlt := h.lt
  refine ⟨path.take i, (path.drop (i + 1)).take (j - (i + 1)), path.drop (j + 1), ?_, ?_, ?_⟩
  · have hsplit : (path.drop (i + 1)).drop (j - (i + 1)) = .load l true :: path.drop (j + 1) := by
      rw [drop_drop, show i + 1 + (j - (i + 1)) = j by omega, drop_eq_getElem_cons hj, hje]
    rw [← hsplit, take_append_drop, ← hie, ← drop_eq_getElem_cons hi, take_append_drop]
  · rw [length_take]
    omega
  · intro e he
    obtain ⟨k, hk⟩ := List.getElem?_of_mem he
    rw [List.getElem?_take] at hk
    split at hk
    · rw [List.getElem?_drop] at hk
      exact ⟨h.last _ e (by omega) (by omega) hk, h.kept _ e (by omega) (by omega) hk⟩
    · cases hk

/-- **Result.** In every trace with constant accesses, whatever loads the slicer takes, the last
writer of a byte that a live load reads is reported live. -/
theorem reports_lastWriter (oracle : SliceOracle) (path : List MemoryEntry) (i j b : Nat)
    (s l : MemoryAccess) (hconst : ConstantAccesses path) (h : LastWriter path i j s l b) :
    (reports oracle path)[i]? = some (some true) := by
  obtain ⟨pre, mid, post, rfl, rfl, hmid⟩ := h.split
  have hmem : l ∈ liveMem oracle (mid ++ .load l true :: post) l.mo := by
    apply mem_liveMem_append _ h.reads
    · exact fun e he => (hmid e he).1
    · exact fun e he => (hmid e he).2
    · intro e he
      apply hconst e
      simp [he]
  rw [reports_append]
  show some (some (updateLiveMemForStore oracle _ s).1) = some (some true)
  rw [updateLiveMemForStore, h.object]
  rw [scanLoads_common h.writes h.reads hmem]

def pointerConstant (n : Nat) : Klee.Expr := .constant 64 (BitVec.ofNat 64 n)

def accessOf16 (inst : Nat) (off n : Fin 9) : MemoryAccess where
  kinst := ⟨inst, 0⟩
  mo := ⟨0, 16, by decide⟩
  offset := pointerConstant off
  nbytes := pointerConstant n
  inBounds := by
    intro o m ho hm
    simp only [pointerConstant, zextValue?, Option.some.injEq, BitVec.toNat_ofNat] at ho hm
    show o + m ≤ 16
    omega

/-- Bytes 0 to 3 are written, then bytes 2 and 3, then bytes 0 to 3 are read: both stores are
reported, the first one for byte 0. -/
theorem reports_lastWriter_partlyOverwritten :
    (accessOf16 0 0 4).mo = (accessOf16 2 0 4).mo ∧ ∀ oracle : SliceOracle,
      (reports oracle [.store (accessOf16 0 0 4) true, .store (accessOf16 1 2 2) true,
        .load (accessOf16 2 0 4) true])[0]? = some (some true) := by
  refine ⟨rfl, fun oracle => ?_⟩
  apply reports_lastWriter oracle _ 0 2 0 (accessOf16 0 0 4) (accessOf16 2 0 4)
  · intro e he a ha
    simp only [mem_cons, not_mem_nil, or_false] at he
    rcases he with rfl | rfl | rfl <;> cases ha <;> rfl
  · refine ⟨rfl, rfl, by decide, rfl, ⟨0, 4, rfl, by decide, by decide⟩,
      ⟨0, 4, rfl, by decide, by decide⟩, ?_, ?_⟩
    · intro k e h0 h2 he
      obtain rfl : k = 1 := by omega
      cases he
      rintro ⟨-, off, n, hr, hlo, -⟩
      cases hr
      exact absurd hlo (by decide)
    · intro k e h0 h2 he
      obtain rfl : k = 1 := by omega
      cases he
      exact id

end InputCovSched
