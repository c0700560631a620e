import Mathlib.Algebra.Order.Ring.Nat

/-!
# Number printing (`writenumber` in `runtime/ConstrainedExec/printf.c`)

A buffer is the room that is left in it. The multiplier of the first digit is found by
multiplications modulo `2 ^ 64`; for the three bases that are used, the one that overflows is seen.
-/

namespace InputCovSched.Printf

open List

/-- `fuel` bounds the iterations. -/
def multiplier (base num : Nat) : Nat → Nat → Option Nat
  | 0, _ => none
  | fuel + 1, m =>
    if 1 ≤ num / m then
      if m * base % 2 ^ 64 < m then some m else multiplier base num fuel (m * base % 2 ^ 64)
    else some (m / base)

def digit (d : Nat) : Char := .ofNat (if 10 ≤ d then d - 10 + 'a'.toNat else d + '0'.toNat)

def printDigits (base : Nat) : Nat → Nat → Nat → List Char
  | 0, _, _ => []
  | room + 1, m, num =>
    if m = 0 then [] else digit (num / m) :: printDigits base room (m / base) (num % m)

/-- The test comes after the write. -/
def writeChecked (c : Char) (next : Nat → List Char) (room : Nat) : List Char :=
  c :: if room = 1 then [] else next (room - 1)

def writenumber (fuel room base num : Nat) : Option (List Char) := do
  let m ← multiplier base num fuel base
  let print room := printDigits base room m num
  some (if base = 8 then writeChecked '0' print room
    else if base = 16 then writeChecked '0' (writeChecked 'x' print) room
    else print room)

def basePrefix (base : Nat) : List Char :=
  if base = 8 then ['0'] else if base = 16 then ['0', 'x'] else []

/-- `k` digits, with zeros in front. -/
def padded (b : Nat) : Nat → Nat → List Char
  | 0, _ => []
  | k + 1, n => padded b k (n / b) ++ [digit (n % b)]

variable {b n : Nat}

lemma padded_eq_cons (k : Nat) (hn : n < b ^ (k + 1)) :
    padded b (k + 1) n = digit (n / b ^ k) :: padded b k (n % b ^ k) := by
  induction k generalizing n with
  | zero =>
    rw [zero_add, pow_one] at hn
    simp [padded, Nat.mod_eq_of_lt hn]
  | succ k ih =>
    rw [padded, ih (Nat.div_lt_of_lt_mul (by rwa [← pow_succ'])), padded, Nat.div_div_eq_div_mul,
      ← pow_succ', pow_succ' b k, Nat.mod_mul_right_div_self, Nat.mod_mod_of_dvd _ ⟨_, rfl⟩]
    rfl

lemma printDigits_eq (hone : 1 < b) (k room : Nat) (hn : n < b ^ (k + 1)) :
    printDigits b room (b ^ k) n = (padded b (k + 1) n).take room := by
  induction room generalizing k n with
  | zero => rfl
  | succ room ih =>
    have hpos : 0 < b ^ k := Nat.pow_pos (by omega)
    rw [printDigits, if_neg hpos.ne', padded_eq_cons k hn, take_succ_cons]
    cases k with
    | zero =>
      have hdiv : 1 / b = 0 := Nat.div_eq_of_lt hone
      cases room <;> simp [printDigits, padded, hdiv]
    | succ k =>
      rw [← ih k (Nat.mod_lt n hpos), pow_succ, Nat.mul_div_cancel _ (by omega)]

section
variable (hb : b ∈ [8, 10, 16])
include hb

lemma base_lt : 1 < b ∧ b < 2 ^ 64 := by
  have hall : ∀ b ∈ [8, 10, 16], 1 < b ∧ b < 2 ^ 64 := by decide
  exact hall b hb

lemma toDigits_eq (k : Nat) (hn : n < b ^ (k + 1)) (hk : k = 0 ∨ b ^ k ≤ n) :
    Nat.toDigits b n = padded b (k + 1) n := by
  have hdigit : ∀ b ∈ [8, 10, 16], ∀ d < b, digit d = d.digitChar := by decide
  have hone := (base_lt hb).1
  induction k generalizing n with
  | zero =>
    rw [zero_add, pow_one] at hn
    rw [padded, Nat.mod_eq_of_lt hn, hdigit b hb n hn, Nat.toDigits_of_lt_base hn]
    rfl
  | succ k ih =>
    have hpow : b ^ k * b ≤ n := by simpa [pow_succ] using hk
    have hle : b ≤ n := (Nat.le_mul_of_pos_left b (Nat.pow_pos (by omega))).trans hpow
    rw [padded, Nat.toDigits_of_base_le hone hle, hdigit b hb _ (Nat.mod_lt n (by omega)),
      ih (Nat.div_lt_of_lt_mul (by rwa [← pow_succ']))
        (.inr ((Nat.le_div_iff_mul_le (by omega)).2 hpow))]

lemma multiplier_eq {num : Nat} (hnum : num < 2 ^ 64) (fuel j : Nat) (hfuel : 22 ≤ fuel + j)
    (hj : j < 21) (hfit : b ^ (j + 1) < 2 ^ 64) (hlow : j = 0 ∨ b ^ j ≤ num) :
    ∃ k, multiplier b num fuel (b ^ (j + 1)) = some (b ^ k) ∧ num < b ^ (k + 1) ∧
      (k = 0 ∨ b ^ k ≤ num) := by
  -- a product that does not fit is less than its first factor
  have hmul : ∀ b ∈ [8, 10, 16], ∀ j < 21, b ^ (j + 1) < 2 ^ 64 →
      (j + 1 < 21 ∧ b ^ (j + 1) * b < 2 ^ 64) ∨
        2 ^ 64 ≤ b ^ (j + 1) * b ∧ b ^ (j + 1) * b % 2 ^ 64 < b ^ (j + 1) := by decide
  have hone := (base_lt hb).1
  induction fuel generalizing j with
  | zero => omega
  | succ fuel ih =>
    rw [multiplier]
    by_cases hlt : num < b ^ (j + 1)
    · rw [if_neg (by rw [Nat.div_eq_of_lt hlt]; omega), pow_succ, Nat.mul_div_cancel _ (by omega)]
      exact ⟨j, rfl, hlt, hlow⟩
    rw [not_lt] at hlt
    rw [if_pos ((Nat.one_le_div_iff (Nat.pow_pos (by omega))).2 hlt)]
    rcases hmul b hb j hj hfit with ⟨hj', hfit'⟩ | ⟨hge, hsmall⟩
    · rw [Nat.mod_eq_of_lt hfit', if_neg (Nat.not_lt.2 (Nat.le_mul_of_pos_right _ (by omega))),
        ← pow_succ]
      exact ih (j + 1) (by omega) hj' hfit' (.inr hlt)
    · rw [if_pos hsmall]
      exact ⟨j + 1, rfl, hnum.trans_le hge, .inr hlt⟩

end

lemma writeChecked_eq {c : Char} {l : List Char} {next : Nat → List Char} {room : Nat}
    (h : ∀ room, 0 < room → next room = l.take room) (hroom : 0 < room) :
    writeChecked c next room = (c :: l).take room := by
  rw [writeChecked, take_cons hroom]
  split
  · next hone => rw [hone]; rfl
  · rw [h _ (by omega)]

/-- **Number printing.**  The text, or what of it fits in. -/
theorem writenumber_eq {base num room fuel : Nat} (hb : base ∈ [8, 10, 16]) (hnum : num < 2 ^ 64)
    (hroom : 0 < room) (hfuel : 22 ≤ fuel) :
    writenumber fuel room base num = some ((basePrefix base ++ Nat.toDigits base num).take room) := by
  obtain ⟨hone, hlt⟩ := base_lt hb
  obtain ⟨k, hm, hn, hk⟩ := multiplier_eq hb hnum fuel 0 hfuel (by omega)
    (by rwa [zero_add, pow_one]) (.inl rfl)
  have hprint (room : Nat) (_ : 0 < room) :
      printDigits base room (base ^ k) num = (Nat.toDigits base num).take room := by
    rw [toDigits_eq hb k hn hk]
    exact printDigits_eq hone k room hn
  rw [zero_add, pow_one] at hm
  simp only [writenumber, hm]
  simp only [mem_cons, not_mem_nil, or_false] at hb
  rcases hb with rfl | rfl | rfl
  · exact congrArg some (writeChecked_eq hprint hroom)
  · exact congrArg some (hprint room hroom)
  · exact congrArg some (writeChecked_eq (fun _ => writeChecked_eq hprint) hroom)

theorem writenumber_eq_max :
    writenumber 22 21 8 (2 ^ 64 - 1) = some (['0', '1'] ++ replicate 19 '7') :=
  writenumber_eq (by decide) (by decide) (by decide) (by decide)

end InputCovSched.Printf
