import InputCovSched.Lib.Count

/-!
# Waiting lists and the counters kept beside them

Objects with a waiting list each (its number, 0 before it has one) and a value that says
how many threads sleep on the list, as far as `agrees` can tell. Threads are the numbers
below `n`. `Table.Ok` is the invariant, with one lemma for each thing that may happen to a table:
an object gets a new list (`Ok.fresh`), a thread goes to sleep (`Ok.sleep`), one thread or all of
them are woken (`Ok.wakeOne`, `Ok.wakeAll`).
-/

namespace WaitQueues

open Tally
open Function (update update_of_ne update_self)

structure Queue (V : Type) where
  wlist : Nat
  value : V

structure Table (X V : Type) where
  queue : X → Queue V
  /-- The number of the next list. -/
  next : Nat
  /-- The list that a thread sleeps on. -/
  on : Nat → Option Nat

variable {X V : Type}

def asleep (n : Nat) (on : Nat → Option Nat) (wlist : Nat) : Nat :=
  countIf n (fun o => o == some wlist) on

structure Table.Ok (agrees : V → Nat → Prop) (n : Nat) (T : Table X V) : Prop where
  lt : ∀ x, (T.queue x).wlist < T.next
  inj : ∀ x y, (T.queue x).wlist = (T.queue y).wlist → (T.queue x).wlist ≠ 0 → x = y
  sleeps : ∀ t w, t < n → T.on t = some w → w ≠ 0 ∧ w < T.next
  agree : ∀ x, agrees (T.queue x).value (asleep n T.on (T.queue x).wlist)

lemma asleep_eq_zero {n wlist : Nat} {on : Nat → Option Nat} :
    asleep n on wlist = 0 ↔ ∀ t, t < n → on t ≠ some wlist := by
  unfold asleep
  rw [countIf_eq_zero]
  simp

lemma asleep_le (n : Nat) (on : Nat → Option Nat) (wlist : Nat) : asleep n on wlist ≤ n := by
  unfold asleep countIf
  induction n with
  | zero => exact Nat.le_refl 0
  | succ n ih =>
    rw [total_succ]
    exact add_le_add ih (Bool.toNat_le _)

section
variable {n t : Nat}

lemma asleep_update_of_ne (ht : t < n) (hon : on t ≠ some w) (ho : o ≠ some w) :
    asleep n (update on t o) w = asleep n on w := by
  have := countIf_update (p := fun o => o == some w) (f := on) ht o
  rw [beq_eq_false_iff_ne.2 hon, beq_eq_false_iff_ne.2 ho] at this
  exact this

lemma asleep_update_enter (ht : t < n) (hon : on t ≠ some w) :
    asleep n (update on t (some w)) w = asleep n on w + 1 := by
  have := countIf_update (p := fun o => o == some w) (f := on) ht (some w)
  rw [beq_eq_false_iff_ne.2 hon, beq_self_eq_true] at this
  exact this

lemma asleep_update_leave (ht : t < n) (hon : on t = some w) (ho : o ≠ some w) :
    asleep n (update on t o) w + 1 = asleep n on w := by
  have := countIf_update (p := fun o => o == some w) (f := on) ht o
  rw [hon, beq_self_eq_true, beq_eq_false_iff_ne.2 ho] at this
  exact this

end

lemma wlist_update [DecidableEq X] (q : X → Queue V) (x : X) (v : V) (y : X) :
    (update q x ⟨(q x).wlist, v⟩ y).wlist = (q y).wlist := by
  by_cases hy : y = x
  · rw [hy, update_self]
  · rw [update_of_ne hy]

namespace Table.Ok

variable {agrees : V → Nat → Prop} {n : Nat} {T : Table X V} {x : X}

lemma asleep_zero (h : T.Ok agrees n) : asleep n T.on 0 = 0 := by
  rw [asleep_eq_zero]
  intro t ht hon
  exact (h.sleeps t 0 ht hon).1 rfl

lemma asleep_next (h : T.Ok agrees n) : asleep n T.on T.next = 0 := by
  rw [asleep_eq_zero]
  intro t ht hon
  exact absurd (h.sleeps t T.next ht hon).2 (lt_irrefl _)

variable {c : Queue V} {v : V}

lemma agree_zero (h : T.Ok agrees n) (hx : T.queue x = c) (hc : c.wlist = 0) :
    agrees c.value 0 := by
  have := h.agree x
  rwa [hx, hc, h.asleep_zero] at this

variable [DecidableEq X]

section
variable (h : T.Ok agrees n)
include h

lemma fresh (hv : agrees v 0) :
    (Table.mk (update T.queue x ⟨T.next, v⟩) (T.next + 1) T.on).Ok agrees n := by
  refine ⟨fun y => ?_, fun y z hyz h0 => ?_, fun t w ht hon => ?_, fun y => ?_⟩
  · dsimp only
    by_cases hy : y = x
    · rw [hy, update_self]
      exact Nat.lt_succ_self _
    rw [update_of_ne hy]
    have := h.lt y
    omega
  · dsimp only at hyz h0
    by_cases hy : y = x
    · by_cases hz : z = x
      · rw [hy, hz]
      rw [hy, update_self, update_of_ne hz] at hyz
      have := h.lt z
      dsimp only at hyz
      omega
    rw [update_of_ne hy] at hyz h0
    by_cases hz : z = x
    · rw [hz, update_self] at hyz
      have := h.lt y
      dsimp only at hyz
      omega
    · rw [update_of_ne hz] at hyz
      exact h.inj y z hyz h0
  · have := h.sleeps t w ht hon
    exact ⟨this.1, Nat.lt_succ_of_lt this.2⟩
  · dsimp only
    by_cases hy : y = x
    · rw [hy, update_self]
      rw [h.asleep_next]
      exact hv
    · rw [update_of_ne hy]
      exact h.agree y

section
variable (hx : T.queue x = c)
include hx

lemma move {on : Nat → Option Nat} (hon : ∀ t w, t < n → on t = some w → w ≠ 0 ∧ w < T.next)
    (hothers : ∀ w, w ≠ c.wlist → asleep n on w = asleep n T.on w)
    (hc : c.wlist ≠ 0) (hv : agrees v (asleep n on c.wlist)) :
    (Table.mk (update T.queue x ⟨c.wlist, v⟩) T.next on).Ok agrees n := by
  have hw := wlist_update T.queue x v
  rw [hx] at hw
  refine ⟨fun y => ?_, fun y z hyz h0 => ?_, hon, fun y => ?_⟩
  · rw [hw]
    exact h.lt y
  · rw [hw] at h0
    rw [hw, hw] at hyz
    exact h.inj y z hyz h0
  dsimp only
  rw [hw]
  by_cases hy : y = x
  · rw [hy, update_self, hx]
    exact hv
  have hne : (T.queue y).wlist ≠ c.wlist := by
    intro heq
    apply hy
    apply h.inj y x
    · rw [heq, hx]
    · rw [heq]
      exact hc
  rw [update_of_ne hy, hothers _ hne]
  exact h.agree y

lemma sleep {t : Nat} (ht : t < n)
    (hon : T.on t = none) (hc : c.wlist ≠ 0) (hv : ∀ a, agrees c.value a → agrees v (a + 1)) :
    (Table.mk (update T.queue x ⟨c.wlist, v⟩) T.next
      (update T.on t (some c.wlist))).Ok agrees n := by
  apply h.move hx
  · intro u w hu hw
    by_cases hut : u = t
    · rw [hut, update_self] at hw
      cases hw
      exact ⟨hc, hx ▸ h.lt x⟩
    · rw [update_of_ne hut] at hw
      exact h.sleeps u w hu hw
  · intro w hw
    exact asleep_update_of_ne ht (by simp [hon]) (by simpa using Ne.symm hw)
  · exact hc
  · rw [asleep_update_enter ht (by simp [hon])]
    exact hv _ (hx ▸ h.agree x)

lemma wakeOne {t : Nat} (ht : t < n)
    (hon : T.on t = some c.wlist) (hv : ∀ a, agrees c.value (a + 1) → agrees v a) :
    (Table.mk (update T.queue x ⟨c.wlist, v⟩) T.next (update T.on t none)).Ok agrees n := by
  apply h.move hx
  · intro u w hu hw
    by_cases hut : u = t
    · rw [hut, update_self] at hw
      cases hw
    · rw [update_of_ne hut] at hw
      exact h.sleeps u w hu hw
  · intro w hw
    exact asleep_update_of_ne ht (by rw [hon]; simpa using Ne.symm hw) (by simp)
  · exact (h.sleeps t _ ht hon).1
  · apply hv
    rw [asleep_update_leave ht hon (by simp)]
    exact hx ▸ h.agree x

lemma wakeAll (hc : c.wlist ≠ 0) (hv : agrees v 0) :
    (Table.mk (update T.queue x ⟨c.wlist, v⟩) T.next
      (fun t => if T.on t = some c.wlist then none else T.on t)).Ok agrees n := by
  apply h.move hx
  · intro u w hu hw
    split at hw
    · cases hw
    · exact h.sleeps u w hu hw
  · intro w hw
    apply countIf_congr
    intro t _
    split
    · rename_i hon
      simp [hon, Ne.symm hw]
    · rfl
  · exact hc
  · have hzero : asleep n (fun t => if T.on t = some c.wlist then none else T.on t) c.wlist = 0 := by
      rw [asleep_eq_zero]
      intro t _ hon
      split at hon
      · cases hon
      · rename_i hno
        exact hno hon
    rw [hzero]
    exact hv

end

end

end Table.Ok

end WaitQueues
