import InputCovSched.Klee.Replace

/-!
# Arrays defined by constraints (`GetArrayConstraint`)

The bytes that satisfy the constraint of an array are those that a read of it is given.
-/

namespace InputCovSched.Klee

open Klee.Expr

/-- What is asked of the bytes of `array`, which is made like `a`. -/
def KleeArray.getArrayConstraint (array : KleeArray) : KleeArray → Option Expr
  | .function q valueExpr =>
    some (all q 32 (eqCreate (read (.root array) (qvar q 32)) valueExpr))
  | .guarded q valueExpr guard nextSrc =>
    let thisRead := read (.root array) (qvar q 32)
    some (all q 32 (selectCreate guard (eqCreate thisRead valueExpr)
      (eqCreate thisRead (read nextSrc (qvar q 32)))))
  | .symbolic _ | .constantValues _ => none

section
variable {array : KleeArray} (ht : array.WellTyped) (hc : array.Clean)
include ht hc

lemma eqRead_denotes (het : e.WellTyped) (hew : e.width = 8) (hec : e.Clean (some q)) :
    Denotes (fun _ => True) (eqCreate (read (.root array) (qvar q 32)) e) 1 fun ρ =>
      BitVec.ofBool (array.byteAt ρ (BitVec.ofNat 32 (ρ.qvars q)) == e.eval ρ 8) := by
  have hq : Denotes (fun _ => True) (qvar q 32) 32 fun ρ => BitVec.ofNat 32 (ρ.qvars q) :=
    ⟨Nat.succ_pos 31, rfl, fun _ _ => rfl⟩
  have hrc : (read (.root array) (qvar q 32)).Clean (some q) := ⟨hc, rfl, rfl⟩
  exact eqCreate_denotes (Denotes.read ht hq) ⟨het, hew, fun _ _ => rfl⟩
    hrc.zeroSumFree hec.zeroSumFree (hrc.addsZero _) (hec.addsZero _)

lemma KleeArray.getArrayConstraint_holds
    (hat : a.WellTyped) (hac : a.Clean) (h : array.getArrayConstraint a = some c) :
    c.Holds ρ ↔ ∀ i, array.byteAt ρ i = a.byteAt ρ i := by
  have hone : ∀ b, BitVec.ofBool b = 1#1 ↔ b = true := by decide
  have hall : ∀ {q : Nat} {e : Expr}, (all q 32 e).Holds ρ ↔
      ∀ i : BitVec 32, e.eval (ρ.bind q i.toNat) 1 = 1 := by
    simp [Holds, eval, hone]
  have hvar : ∀ q (i : BitVec 32), BitVec.ofNat 32 ((ρ.bind q i.toNat).qvars q) = i := by
    simp [Env.bind]
  cases a with
  | symbolic | constantValues => cases h
  | function q valueExpr =>
    cases h
    rw [hall]
    refine forall_congr' fun i => ?_
    rw [(eqRead_denotes ht hc hat.1 hat.2 hac).value _ trivial, hvar, array.byteAt_bind q _ hc]
    simp [byteAt, hone]
  | guarded q valueExpr guard nextSrc =>
    cases h
    obtain ⟨⟨hvt, hvw⟩, ⟨hgt, hgw⟩, hnt⟩ := hat
    obtain ⟨hvc, hgc, hnc⟩ := hac
    rw [hall]
    refine forall_congr' fun i => ?_
    rw [(selectCreate_denotes ⟨hgt, hgw, fun _ _ => rfl⟩ (eqRead_denotes ht hc hvt hvw hvc)
      (eqRead_denotes (e := read nextSrc (qvar q 32)) ht hc ⟨hnt, Nat.succ_pos 31, rfl⟩ rfl
        ⟨hnc, rfl, rfl⟩) fun _ => hgc.zeroSumFree).value _ trivial]
    rw [hvar, array.byteAt_bind q _ hc, byteAt, eval, eval, hvar, nextSrc.byteAt_bind q _ hnc]
    split <;> simp [hone]

end

/-- **Result.**  The value of what `ReadExpr::create` and `Array::getValueAtIndex` return is the
byte at the index, of any bytes that satisfy the constraint of the array. -/
theorem read_getValueAtIndex_eval {u : UpdateList} {array a : KleeArray} {index : Expr}
    {ρ : Env} (hu : u.WellTyped) (huc : u.Clean) (ht : array.WellTyped) (hc : array.Clean)
    (hat : a.WellTyped) (hac : a.Clean) (hi : index.WellTyped) (hiw : index.width = 32)
    (hic : index.Clean none) (hdef : ∀ c ∈ array.getArrayConstraint a, c.Holds ρ)
    (hown : array.getArrayConstraint a = none → array = a) :
    (readCreate u index).eval ρ 8 = u.byteAt ρ (index.eval ρ 32) ∧
      (a.getValueAtIndex index).eval ρ 8 = array.byteAt ρ (index.eval ρ 32) := by
  have hidx : Denotes (fun _ => True) index 32 (index.eval · 32) := ⟨hi, hiw, fun _ _ => rfl⟩
  refine ⟨(readCreate_denotes hu huc hidx hic).value ρ trivial, ?_⟩
  rw [(a.getValueAtIndex_denotes hat hac hidx hic).2.value ρ trivial]
  cases hcon : array.getArrayConstraint a with
  | none => rw [hown hcon]
  | some c => exact ((KleeArray.getArrayConstraint_holds ht hc hat hac hcon).1 (hdef c hcon) _).symm

def copyOf3 : KleeArray := .function 0 (read (.root (.symbolic 3)) (qvar 0 32))

def ownIndex : Env := ⟨fun _ i => i.setWidth 8, fun _ _ => 0, fun _ => 0⟩

/-- Buffer 7 holds the copy; its byte 5 is found. -/
theorem read_getValueAtIndex_eval_copy :
    (readCreate (.byteUpdate (constant 32 4) (constant 8 1) trueExpr (.root (.symbolic 7)))
        (constant 32 5)).eval ownIndex 8 = 5 ∧
      (copyOf3.getValueAtIndex (constant 32 5)).eval ownIndex 8 = 5 := by
  have h7 : (KleeArray.symbolic 7).WellTyped ∧ (KleeArray.symbolic 7).Clean := ⟨trivial, trivial⟩
  have ht : copyOf3.WellTyped := by
    simp [copyOf3, KleeArray.WellTyped, WellTyped, UpdateList.WellTyped, width]
  have hc : copyOf3.Clean := ⟨trivial, rfl, rfl⟩
  refine read_getValueAtIndex_eval ?_ ?_ h7.1 h7.2 ht hc (Nat.succ_pos 31) rfl trivial ?_ ?_
  · simp [UpdateList.WellTyped, KleeArray.WellTyped, WellTyped, width, trueExpr]
  · exact ⟨trivial, trivial, trivial, trivial⟩
  · intro c h
    rw [KleeArray.getArrayConstraint_holds h7.1 h7.2 ht hc h]
    simp [copyOf3, ownIndex, KleeArray.byteAt, UpdateList.byteAt, eval, Env.bind]
  · rintro ⟨⟩

end InputCovSched.Klee
