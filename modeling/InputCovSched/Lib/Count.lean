import Mathlib.Algebra.Order.Ring.Nat

/-!
# Sums and counts over the indices below `n`

A machine whose threads are the numbers below `n` keeps one value per thread.
`total n w f` adds up the weights `w (f i)` of the values, `countIf n p f` counts the
values with a property. A step changes the value of one thread: `total_update` and
`countIf_update` say by how much the sum and the count move then.
-/

namespace Tally

open Function

/-- The sum of the weights `w (f i)` over `i < n`. -/
def total {α : Type} (n : Nat) (w : α → Nat) (f : Nat → α) : Nat :=
  ((List.range n).map fun i => w (f i)).sum

/-- The number of `i < n` whose value `f i` has the property `p`. -/
def countIf {α : Type} (n : Nat) (p : α → Bool) (f : Nat → α) : Nat :=
  total n (fun a => (p a).toNat) f

section
variable {α : Type} {n : Nat} {w : α → Nat} {p : α → Bool} {f : Nat → α}

lemma total_succ : total (n + 1) w f = total n w f + w (f n) := by
  simp [total, List.range_succ]

lemma total_congr {β : Type} {v : β → Nat} {g : Nat → β} (h : ∀ i, i < n → w (f i) = v (g i)) :
    total n w f = total n v g := by
  induction n with
  | zero => rfl
  | succ n ih =>
    rw [total_succ, total_succ, ih fun i hi => h i (by omega), h n (by omega)]

lemma total_update {t : Nat} (ht : t < n) (v : α) :
    total n w (update f t v) + w (f t) = total n w f + w v := by
  induction n with
  | zero => omega
  | succ n ih =>
    rw [total_succ, total_succ]
    rcases Nat.lt_succ_iff_lt_or_eq.1 ht with h | rfl
    · rw [update_of_ne (by omega : n ≠ t)]
      omega
    have hsame : total t w (update f t v) = total t w f :=
      total_congr fun i hi => by rw [update_of_ne (by omega)]
    rw [hsame, update_self]
    omega

lemma le_total (ht : t < n) : w (f t) ≤ total n w f := by
  induction n with
  | zero => omega
  | succ n ih =>
    rw [total_succ]
    rcases Nat.lt_succ_iff_lt_or_eq.1 ht with h | rfl
    · omega
    · omega

lemma total_eq_zero : total n w f = 0 ↔ ∀ i, i < n → w (f i) = 0 := by
  constructor
  · intro h i hi
    have := le_total (w := w) (f := f) hi
    omega
  · intro h
    induction n with
    | zero => rfl
    | succ n ih =>
      rw [total_succ, ih fun i hi => h i (by omega), h n (by omega)]

lemma countIf_congr {β : Type} {q : β → Bool} {g : Nat → β} (h : ∀ i, i < n → p (f i) = q (g i)) :
    countIf n p f = countIf n q g :=
  total_congr fun i hi => by rw [h i hi]

lemma countIf_mono (h : ∀ i, i < n → p (f i) = true → q (f i) = true) :
    countIf n p f ≤ countIf n q f := by
  unfold countIf
  induction n with
  | zero => exact le_rfl
  | succ n ih =>
    rw [total_succ, total_succ]
    exact Nat.add_le_add (ih fun i hi => h i (by omega)) (Bool.toNat_le_toNat (h n (by omega)))

lemma countIf_update (ht : t < n) (v : α) :
    countIf n p (update f t v) + (p (f t)).toNat = countIf n p f + (p v).toNat :=
  total_update ht v

lemma countIf_update_same {t : Nat} {v : α} (h : p (f t) = p v) :
    countIf n p (update f t v) = countIf n p f := by
  apply countIf_congr
  intro i _
  by_cases hit : i = t
  · rw [hit, update_self, h]
  · rw [update_of_ne hit]

lemma countIf_eq_zero : countIf n p f = 0 ↔ ∀ i, i < n → p (f i) = false := by
  unfold countIf
  rw [total_eq_zero]
  simp

lemma countIf_pos : 0 < countIf n p f ↔ ∃ i, i < n ∧ p (f i) = true := by
  constructor
  · intro h
    by_contra hno
    simp only [not_exists, not_and, Bool.not_eq_true] at hno
    have := countIf_eq_zero.2 hno
    omega
  · rintro ⟨i, hi, h⟩
    by_contra hz
    have := countIf_eq_zero.1 (by omega : countIf n p f = 0) i hi
    simp [h] at this

end

end Tally
