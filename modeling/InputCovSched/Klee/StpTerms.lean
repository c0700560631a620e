import InputCovSched.Klee.Expr
import Mathlib.Tactic.NormNum

/-!
# Constants and shifts of the solver (`STPBuilder.cpp`)

A term stands for its value. Constants of more than 64 bits are put together from whole chunks of
64 bits, so that what is left at the top is lost. The amount of a shift by a constant is cut to the
bits that an index into 32 or 64 bits needs.
-/

namespace InputCovSched.Klee

open BitVec

variable {w : Nat}

/-! ## Constants -/

/-- `Tmp` moves down by 64 bits, and its chunk goes in front of `Res`. -/
def constantChunks (tmp : BitVec w) : Nat → (Σ n, BitVec n) → Σ n, BitVec n
  | 0, res => res
  | i + 1, ⟨n, res⟩ =>
    let tmp := tmp >>> 64
    constantChunks tmp i ⟨min 64 w + n, (tmp.setWidth 64).setWidth (min 64 w) ++ res⟩

/-- A bool is a term of one bit. -/
def constructConstant (v : BitVec w) : Σ n, BitVec n :=
  if w = 1 then ⟨w, v⟩
  else if w ≤ 32 then ⟨w, .ofNat w (v.setWidth 32).toNat⟩
  else if w ≤ 64 then ⟨w, .ofNat w (v.setWidth 64).toNat⟩
  else constantChunks v (w / 64 - 1) ⟨64, v.setWidth 64⟩

lemma append_chunk (v : BitVec w) (n : Nat) :
    (v >>> n).setWidth 64 ++ v.setWidth n = v.setWidth (64 + n) := by
  ext i hi
  simp only [getElem_append, getElem_setWidth, getLsbD_ushiftRight]
  split
  · rfl
  · rw [Nat.add_sub_cancel' (by omega)]

lemma constantChunks_eq (hw : 64 ≤ w) (v : BitVec w) (i n : Nat) :
    constantChunks (v >>> n) i ⟨n + 64, v.setWidth (n + 64)⟩ =
      ⟨n + 64 + 64 * i, v.setWidth (n + 64 + 64 * i)⟩ := by
  induction i generalizing n with
  | zero => rfl
  | succ i ih =>
    have hlen : n + 64 + 64 + 64 * i = n + 64 + 64 * (i + 1) := by omega
    rw [constantChunks, min_eq_left hw, setWidth_eq, ← shiftRight_add,
      append_chunk, add_comm 64, ih (n + 64), hlen]

/-- **Result.**  The term has the width and the value of the constant just if its width is at most
64 or a multiple of 64. -/
theorem constructConstant_eq_iff (v : BitVec w) :
    constructConstant v = ⟨w, v⟩ ↔ w ≤ 64 ∨ 64 ∣ w := by
  unfold constructConstant
  split
  · exact iff_of_true rfl (by omega)
  split
  · refine iff_of_true ?_ (by omega)
    rw [ofNat_toNat, setWidth_setWidth_of_le v (by omega), setWidth_eq]
  split
  · refine iff_of_true ?_ (by omega)
    rw [ofNat_toNat, setWidth_setWidth_of_le v (by omega), setWidth_eq]
  · have hchunks := constantChunks_eq (by omega) v (w / 64 - 1) 0
    rw [ushiftRight_zero] at hchunks
    rw [hchunks]
    constructor
    · intro h
      have hlen : 64 + 64 * (w / 64 - 1) = w := congrArg Sigma.fst h
      omega
    · intro h
      have hlen : 64 + 64 * (w / 64 - 1) = w := by omega
      rw [hlen, setWidth_eq]

/-- 80 bits become 64. -/
theorem constructConstant_wide : (constructConstant (1 : BitVec 80)).1 = 64 := by
  decide

/-! ## Shifts -/

def getShiftBits (amount : Nat) : Nat := if 32 < amount then 6 else 5

section
variable (x : BitVec w) (amount shiftBits : Nat)

def bvLeftShiftByConstant : BitVec w :=
  let shift := amount &&& (1 <<< shiftBits - 1)
  if shift = 0 then x
  else if w ≤ shift then 0
  else (x.extractLsb (w - shift - 1) 0 ++ (0 : BitVec shift)).setWidth w

def bvRightShiftByConstant : BitVec w :=
  let shift := amount &&& (1 <<< shiftBits - 1)
  if shift = 0 then x
  else if w ≤ shift then 0
  else ((0 : BitVec shift) ++ x.extractLsb (w - 1) shift).setWidth w

def bvArithRightShiftByConstant (isSigned : Bool) : BitVec w :=
  let shift := amount &&& (1 <<< shiftBits - 1)
  if shift = 0 then x
  else if w - 1 ≤ shift then if isSigned then .allOnes w else 0
  else if isSigned then (allOnes shift ++ x.extractLsb (w - 1) shift).setWidth w
  else bvRightShiftByConstant x shift shiftBits

lemma getElem_last (hm : w - 1 ≤ m) (h : m + i < w) : x[m + i] = x.msb := by
  have hpos : m + i = w - 1 := by omega
  rw [msb_eq_getLsbD_last, ← hpos, getLsbD_eq_getElem h]

lemma and_mask : amount &&& (1 <<< shiftBits - 1) = amount % 2 ^ shiftBits := by
  rw [Nat.one_shiftLeft, Nat.and_two_pow_sub_one_eq_mod]

lemma bvLeftShiftByConstant_eq :
    bvLeftShiftByConstant x amount shiftBits = x <<< (amount % 2 ^ shiftBits) := by
  simp only [bvLeftShiftByConstant]
  rw [and_mask]
  generalize amount % 2 ^ shiftBits = shift
  split
  · next h => rw [h, shiftLeft_zero]
  split
  · next h => exact (shiftLeft_eq_zero h).symm
  · ext i hi
    simp only [getElem_setWidth, getLsbD_append, getElem_shiftLeft]
    by_cases his : i < shift
    · simp [his]
    · have hle : i - shift ≤ w - shift - 1 := by omega
      simp [his, hle, getLsbD_eq_getElem (by omega : i - shift < w)]

lemma bvRightShiftByConstant_eq :
    bvRightShiftByConstant x amount shiftBits = x >>> (amount % 2 ^ shiftBits) := by
  simp only [bvRightShiftByConstant]
  rw [and_mask]
  generalize amount % 2 ^ shiftBits = shift
  split
  · next h => rw [h, ushiftRight_zero]
  split
  · next h => exact (ushiftRight_eq_zero h).symm
  · ext i hi
    by_cases his : shift + i < w
    · have hle : i ≤ w - 1 - shift := by omega
      simp [getLsbD_append, Nat.lt_succ_of_le hle]
    · simp [getLsbD_append, getLsbD_of_ge x _ (Nat.le_of_not_lt his)]

lemma bvArithRightShiftByConstant_eq :
    bvArithRightShiftByConstant x amount shiftBits x.msb =
      x.sshiftRight (amount % 2 ^ shiftBits) := by
  simp only [bvArithRightShiftByConstant, bvRightShiftByConstant_eq]
  rw [and_mask, Nat.mod_mod]
  generalize amount % 2 ^ shiftBits = shift
  split
  · next h => rw [h, sshiftRight_zero]
  split
  · next h =>
    ext i hi
    cases hm : x.msb <;> simp [getElem_sshiftRight, getElem_last x h, hm]
  · cases hm : x.msb
    · simp [sshiftRight_eq_of_msb_false hm]
    · ext i hi
      by_cases his : shift + i < w
      · have hle : i ≤ w - 1 - shift := by omega
        simp [getElem_sshiftRight, getLsbD_append, his, Nat.lt_succ_of_le hle]
      · have hge : ¬ i < w - 1 - shift + 1 := by omega
        simp [getElem_sshiftRight, getLsbD_append, hm, his, hge]
        omega

end

inductive ShiftOp where
  | shl
  | lshr
  | ashr

namespace ShiftOp

def toBinary : ShiftOp → BinaryOp
  | shl => .shl
  | lshr => .lshr
  | ashr => .ashr

variable (op : ShiftOp) (x y : BitVec w)

def byConstant : BitVec w :=
  let amount := min y.toNat (2 ^ 64 - 1) % 2 ^ 32
  match op with
  | shl => bvLeftShiftByConstant x amount (getShiftBits w)
  | lshr => bvRightShiftByConstant x amount (getShiftBits w)
  | ashr => bvArithRightShiftByConstant x amount (getShiftBits w) x.msb

/-- STP's own shifts, which saturate at the width. -/
def byVariable : BitVec w :=
  match op with
  | shl => x <<< min y.toNat w
  | lshr => x >>> min y.toNat w
  | ashr => x.sshiftRight (min y.toNat w)

lemma byVariable_eq : op.byVariable x y = op.toBinary.apply x y := by
  rcases le_total y.toNat w with h | h
  · cases op <;> simp [byVariable, toBinary, BinaryOp.apply, h]
  · cases op with
    | shl => simp [byVariable, toBinary, BinaryOp.apply, h, shiftLeft_eq_zero]
    | lshr => simp [byVariable, toBinary, BinaryOp.apply, h, ushiftRight_eq_zero]
    | ashr =>
      ext i hi
      simp [byVariable, toBinary, BinaryOp.apply, h, getElem_sshiftRight]
      omega

/-- The shift by a number. -/
def shiftBy (n : Nat) : BitVec w :=
  match op with
  | shl => x <<< n
  | lshr => x >>> n
  | ashr => x.sshiftRight n

lemma apply_eq_shiftBy : op.toBinary.apply x y = op.shiftBy x y.toNat := by
  cases op <;> rfl

lemma byConstant_eq_shiftBy (hw : w ≤ 64) :
    op.byConstant x y = op.shiftBy x (y.toNat % 2 ^ getShiftBits w) := by
  have hlimit : y.toNat < 2 ^ 64 := y.isLt.trans_le (Nat.pow_le_pow_right Nat.two_pos hw)
  have hamount : min y.toNat (2 ^ 64 - 1) % 2 ^ 32 % 2 ^ getShiftBits w =
      y.toNat % 2 ^ getShiftBits w := by
    unfold getShiftBits
    by_cases h32 : 32 < w <;> simp only [h32, if_true, if_false] <;> omega
  cases op with
  | shl => exact (bvLeftShiftByConstant_eq ..).trans (congrArg (x <<< ·) hamount)
  | lshr => exact (bvRightShiftByConstant_eq ..).trans (congrArg (x >>> ·) hamount)
  | ashr => exact (bvArithRightShiftByConstant_eq ..).trans (congrArg x.sshiftRight hamount)

/-- From this amount on, a greater one makes no difference. -/
def saturation (w : Nat) : ShiftOp → Nat
  | shl => w
  | lshr => w
  | ashr => w - 1

lemma shiftBy_of_saturation (hm : saturation w op ≤ m) (hn : m ≤ n) :
    op.shiftBy x m = op.shiftBy x n := by
  cases op with
  | shl => exact (shiftLeft_eq_zero hm).trans (shiftLeft_eq_zero (hm.trans hn)).symm
  | lshr => exact (ushiftRight_eq_zero hm).trans (ushiftRight_eq_zero (hm.trans hn)).symm
  | ashr =>
    have hm : w - 1 ≤ m := hm
    have hmsb : ∀ k, w - 1 ≤ k → ∀ i (hi : i < w), (x.sshiftRight k)[i] = x.msb := by
      intro k hk i hi
      rw [getElem_sshiftRight]
      split
      · next h => exact getElem_last x hk h
      · rfl
    ext i hi
    exact (hmsb m hm i hi).trans (hmsb n (hm.trans hn) i hi).symm

/-- Below it some value tells the amount from those that shift everything out. -/
lemma exists_shiftBy_ne (hm : m < saturation w op) (hn : w ≤ n) :
    ∃ x : BitVec w, op.shiftBy x m ≠ op.shiftBy x n := by
  have hmw : m < w := hm.trans_le (by cases op <;> simp [saturation])
  have hpos : 0 < w := by omega
  cases op with
  | shl =>
    refine ⟨twoPow w 0, fun h => ?_⟩
    have hbit := congrArg (getLsbD · m) (h.trans (shiftLeft_eq_zero hn))
    simp [shiftBy, hmw] at hbit
  | lshr =>
    refine ⟨twoPow w m, fun h => ?_⟩
    have hbit := congrArg (getLsbD · 0) (h.trans (ushiftRight_eq_zero hn))
    simp [shiftBy, hmw] at hbit
  | ashr =>
    have hlast : m ≠ w - 1 := Nat.ne_of_lt hm
    refine ⟨twoPow w m, fun h => ?_⟩
    have hbit := congrArg (getLsbD · 0) h
    simp [shiftBy, getElem_sshiftRight, msb_eq_getLsbD_last, hmw, hpos, hlast.symm,
      Nat.not_lt.2 hn] at hbit

/-- **Result.**  A shift by a constant amount has the value of the folded shift and of a shift by a
variable, for all operands, just if the amount is not cut or what is left of it shifts everything
out. -/
theorem byConstant_eq_iff (hw : w ≤ 64) :
    (∀ x, op.byConstant x y = op.toBinary.apply x y ∧ op.byConstant x y = op.byVariable x y) ↔
      y.toNat < 2 ^ getShiftBits w ∨ saturation w op ≤ y.toNat % 2 ^ getShiftBits w := by
  have hbits : w ≤ 2 ^ getShiftBits w := by
    unfold getShiftBits
    by_cases h32 : 32 < w <;> simp only [h32, if_true, if_false] <;> omega
  simp only [byVariable_eq, and_self_iff, byConstant_eq_shiftBy op _ y hw, apply_eq_shiftBy]
  constructor
  · intro h
    by_contra hnot
    obtain ⟨hge, hlt⟩ := not_or.1 hnot
    obtain ⟨x, hx⟩ := op.exists_shiftBy_ne (not_le.1 hlt) (hbits.trans (not_lt.1 hge))
    exact hx (h x)
  · rintro (hlt | hge) x
    · rw [Nat.mod_eq_of_lt hlt]
    · exact op.shiftBy_of_saturation x hge (Nat.mod_le ..)

/-- 40 is cut to 8, which shifts everything out of 8 bits. -/
theorem byConstant_eq_forty : shl.byConstant (5 : BitVec 8) 3 = 40 ∧ shl.byConstant (5 : BitVec 8) 40 = 0 :=
  ⟨((byConstant_eq_iff shl 3 (by decide)).2 (by decide) 5).1,
    ((byConstant_eq_iff shl 40 (by decide)).2 (by decide) 5).1⟩

/-- By 32 nothing is shifted. -/
theorem byConstant_cut :
    shl.byConstant (1 : BitVec 8) 32 = 1 ∧ BinaryOp.shl.apply (1 : BitVec 8) 32 = 0 := by
  decide

end ShiftOp

end InputCovSched.Klee
