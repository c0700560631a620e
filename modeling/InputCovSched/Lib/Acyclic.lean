import Mathlib.Logic.Relation

/-!
# Adding edges to a relation without cycles

All new edges end in one element (`noCycle_into`) or begin in one (`noCycle_outOf`): the
relation stays without cycles exactly when no path leads back along a new edge.
-/

namespace Acyclic

open Relation

variable {α : Type} {r r' : α → α → Prop} {S : α → Prop} {d : α}

def NoCycle (r : α → α → Prop) : Prop := ∀ a, ¬ TransGen r a a

lemma NoCycle.mono (hmono : ∀ a b, r a b → r' a b) (h : NoCycle r') : NoCycle r :=
  fun a ha => h a (TransGen.mono hmono _ _ ha)

lemma noCycle_swap : NoCycle (Function.swap r) ↔ NoCycle r :=
  forall_congr' fun _ => not_congr transGen_swap

lemma transGen_into (h : ∀ a b, r' a b ↔ r a b ∨ (S a ∧ b = d)) (hxy : TransGen r' x y) :
    TransGen r x y ∨ ((∃ a, S a ∧ ReflTransGen r x a) ∧ ReflTransGen r d y) := by
  induction hxy with
  | single hb =>
    rcases (h _ _).1 hb with hb | ⟨hS, rfl⟩
    · exact .inl (.single hb)
    · exact .inr ⟨⟨x, hS, .refl⟩, .refl⟩
  | tail _ hbc ih =>
    rcases (h _ _).1 hbc with hbc | ⟨hS, rfl⟩
    · rcases ih with ih | ⟨hx, hd⟩
      · exact .inl (ih.tail hbc)
      · exact .inr ⟨hx, hd.tail hbc⟩
    rcases ih with ih | ⟨hx, -⟩
    · exact .inr ⟨⟨_, hS, ih.to_reflTransGen⟩, .refl⟩
    · exact .inr ⟨hx, .refl⟩

lemma noCycle_into (h : ∀ a b, r' a b ↔ r a b ∨ (S a ∧ b = d)) :
    NoCycle r' ↔ NoCycle r ∧ ∀ a, S a → ¬ ReflTransGen r d a := by
  have hmono : ∀ a b, r a b → r' a b := fun a b hab => (h a b).2 (.inl hab)
  constructor
  · intro hr'
    refine ⟨hr'.mono hmono, fun a ha hda => hr' d ?_⟩
    exact TransGen.tail' (ReflTransGen.mono hmono _ _ hda) ((h a d).2 (.inr ⟨ha, rfl⟩))
  · rintro ⟨hr, hS⟩ x hx
    rcases transGen_into h hx with hx | ⟨⟨a, ha, hxa⟩, hdx⟩
    · exact hr x hx
    · exact hS a ha (hdx.trans hxa)

lemma noCycle_outOf (h : ∀ a b, r' a b ↔ r a b ∨ (a = d ∧ S b)) :
    NoCycle r' ↔ NoCycle r ∧ ∀ b, S b → ¬ ReflTransGen r b d := by
  have hswap : ∀ a b, Function.swap r' a b ↔ Function.swap r a b ∨ (S a ∧ b = d) := by
    intro a b
    exact (h b a).trans (or_congr Iff.rfl And.comm)
  rw [← noCycle_swap, noCycle_into hswap, noCycle_swap]
  simp only [reflTransGen_swap]

end Acyclic
