import Mathlib.Algebra.Order.Ring.Nat
import Mathlib.Data.Stream.Init

/-!
# Range inputs (`AddIntRangeInput` in `runtime/ConstrainedExec/lib.cpp`)

`AddIntInput` gives its argument to `InitRandomBuffer`, which overwrites all of it. The value
that was computed from the bounds is lost: two words of the random stream are returned and logged.
-/

namespace InputCovSched.RangeInput

abbrev Rand := Stream' (BitVec 32)

def biased : List Int := [-1, 0, 0, 0, 0, 0, 1, 2, 3, 4, 5, 10, 12, 20, 22, 30, 40, 50, 100, 101]

/-- `none` is a read before the table: `r % 30` has the sign of `r`. -/
def biasedRandInt32 (r : BitVec 32) : Option (BitVec 32) :=
  let k := r.toInt.tmod 30
  if 20 ≤ k then some r else if k < 0 then none else biased[k.toNat]?.map (.ofInt 32)

/-- `buf` is memory as a number, the lowest byte first. -/
def initRandomBuffer (buf : Nat) (rand : Rand) : Nat → Option Nat
  | n + 4 => do
    let x ← biasedRandInt32 rand.head
    let rest ← initRandomBuffer (buf / 2 ^ 32) rand.tail n
    some (x.toNat + 2 ^ 32 * rest)
  | n + 1 => do
    let rest ← initRandomBuffer (buf / 2 ^ 8) rand.tail n
    some (rand.head.toNat % 2 ^ 8 + 2 ^ 8 * rest)
  | 0 => some buf

/-- What is logged at the node that `WaitForHbNode` finds, with its input id. -/
def doNewInput (buf : BitVec 64) : Option Nat → Option (Option (Nat × BitVec 64))
  | none => some none
  | some 0 => none -- `assert(0)`
  | some inputId => some (some (inputId, buf))

def addIntInput (node : Option Nat) (x : BitVec 64) (rand : Rand) :
    Option (BitVec 64 × Option (Nat × BitVec 64)) := do
  let buf ← initRandomBuffer x.toNat rand 8
  let logged ← doNewInput (.ofNat 64 buf) node
  some (.ofNat 64 buf, logged)

def addIntRangeInput (node : Option Nat) (rnd start stop : BitVec 64) (rand : Rand) :
    Option (BitVec 64 × Option (Nat × BitVec 64)) :=
  if start + 1 = stop then addIntInput node start rand
  else if start < stop then addIntInput node (rnd % (stop - 1 - start) + start) rand
  else none

/-- The argument is not used. -/
lemma addIntInput_eq {node : Option Nat} (hnode : node ≠ some 0) (x : BitVec 64) (rand : Rand) :
    addIntInput node x rand = (biasedRandInt32 rand.head).bind fun lo =>
      (biasedRandInt32 rand.tail.head).map fun hi => (hi ++ lo, node.map (·, hi ++ lo)) := by
  have hlog (v : BitVec 64) : doNewInput v node = some (node.map (·, v)) := by
    rcases node with _ | _ | inputId
    · rfl
    · exact absurd rfl hnode
    · rfl
  have hword (lo hi : BitVec 32) : BitVec.ofNat 64 (lo.toNat + 2 ^ 32 *
      (hi.toNat + 2 ^ 32 * (x.toNat / 2 ^ 32 / 2 ^ 32))) = hi ++ lo := by
    apply BitVec.eq_of_toNat_eq
    rw [BitVec.toNat_append, ← Nat.shiftLeft_add_eq_or_of_lt lo.isLt, Nat.shiftLeft_eq,
      BitVec.toNat_ofNat]
    omega
  simp only [addIntInput, initRandomBuffer, Option.bind_eq_bind]
  cases biasedRandInt32 rand.head with
  | none => rfl
  | some lo =>
    cases biasedRandInt32 rand.tail.head with
    | none => rfl
    | some hi => simp only [Option.bind_some, Option.map_some, hword, hlog]

lemma addIntRangeInput_eq {node : Option Nat} (hnode : node ≠ some 0) {start stop : BitVec 64}
    (h : start < stop) (rnd : BitVec 64) (rand : Rand) :
    addIntRangeInput node rnd start stop rand = (biasedRandInt32 rand.head).bind fun lo =>
      (biasedRandInt32 rand.tail.head).map fun hi => (hi ++ lo, node.map (·, hi ++ lo)) := by
  rw [addIntRangeInput, if_pos h, addIntInput_eq hnode, addIntInput_eq hnode, ite_self]

/-- **Range inputs.**  For no bounds are all values within them: words that are multiples of 30 are
drawn as -1, and what is returned and logged is then the greatest value, whatever the bounds are. -/
theorem addIntRangeInput_never_within {node : Option Nat} (hnode : node ≠ some 0)
    {start stop : BitVec 64} (h : start < stop) (rnd : BitVec 64) :
    ¬ ∀ rand, ∃ v, addIntRangeInput node rnd start stop rand = some (v, node.map (·, v)) ∧
      start ≤ v ∧ v < stop := by
  intro hall
  obtain ⟨v, hv, -, hlt⟩ := hall (.const 30)
  have hmax : addIntRangeInput node rnd start stop (.const 30) =
      some (.allOnes 64, node.map (·, .allOnes 64)) := addIntRangeInput_eq hnode h rnd _
  rw [hmax] at hv
  cases hv
  exact BitVec.not_allOnes_lt hlt

theorem addIntRangeInput_never_within_ten : ¬ ∀ rand, ∃ v,
    addIntRangeInput (some 1) 7 0 10 rand = some (v, some (1, v)) ∧ 0 ≤ v ∧ v < 10 :=
  @addIntRangeInput_never_within (some 1) (by decide) 0 10 (by decide) 7

theorem addIntRangeInput_unbounded :
    addIntRangeInput (some 1) 7 0 10 (.const 29) = some (0x1D0000001D, some (1, 0x1D0000001D)) ∧
      ¬ (0x1D0000001D : BitVec 64) < 10 := by
  constructor
  · rfl
  · decide

end InputCovSched.RangeInput
