import Mathlib.Data.List.Basic

/-!
# Entries of a list or a table after a change

Which entry stands at an index after an append or an assignment, as case distinctions.
-/

namespace InputCovSched

variable {α : Type*} {l : List α} {a b : α} {j : Nat}

lemma getElem?_concat_cases (h : (l ++ [a])[i]? = some b) :
    l[i]? = some b ∧ i < l.length ∨ i = l.length ∧ b = a := by
  rcases Nat.lt_trichotomy i l.length with hi | rfl | hi
  · rw [List.getElem?_append_left hi] at h
    exact .inl ⟨h, hi⟩
  · rw [List.getElem?_concat_length] at h
    exact .inr ⟨rfl, (Option.some.inj h).symm⟩
  · rw [List.getElem?_eq_none (by rw [List.length_append]; exact hi)] at h
    cases h

lemma getElem?_set_cases (h : (l.set i a)[j]? = some b) :
    l[j]? = some b ∧ i ≠ j ∨ i = j ∧ b = a := by
  rw [List.getElem?_set] at h
  split at h
  · rename_i hij
    split at h
    · exact .inr ⟨hij, (Option.some.inj h).symm⟩
    · cases h
  · rename_i hij
    exact .inl ⟨h, hij⟩

lemma update_cases {f : Nat → α} (h : Function.update f i v j = w) :
    j = i ∧ v = w ∨ j ≠ i ∧ f j = w := by
  rw [Function.update_apply] at h
  split at h
  · rename_i hji
    exact .inl ⟨hji, h⟩
  · rename_i hji
    exact .inr ⟨hji, h⟩

lemma set_eq_self_iff (hi : i < l.length) : l.set i a = l ↔ l[i]? = some a := by
  constructor
  · intro h
    rw [← h, List.getElem?_set_self hi]
  · intro h
    obtain ⟨hi', rfl⟩ := List.getElem?_eq_some_iff.1 h
    exact List.set_getElem_self hi'

end InputCovSched
