import Mathlib.Data.Set.Basic

/-!
# Constraints over disjoint variables

A constraint is a predicate on valuations that looks at some of the variables only. Two
valuations are glued along a set of variables; a constraint that looks at one side of the set
does not notice. So constraints that are satisfiable on their own say nothing about a query on
the other side (`implies_iff_of_separated`).
-/

namespace InputCovSched.Gluing

variable {E X V : Type*} (holds : (X → V) → E → Prop)

/-- Whether `e` holds depends on the variables of `s` only. -/
def DependsOnly (e : E) (s : Set X) : Prop :=
  ∀ m m' : X → V, (∀ x ∈ s, m x = m' x) → (holds m e ↔ holds m' e)

def Models (m : X → V) (C : List E) : Prop := ∀ c ∈ C, holds m c

def Implies (C : List E) (q : E) : Prop := ∀ m, Models holds m C → holds m q

open Classical in
/-- `m` on `s`, `m'` elsewhere. -/
noncomputable def glue (s : Set X) (m m' : X → V) (x : X) : V := if x ∈ s then m x else m' x

variable {holds}

lemma DependsOnly.glue_left (h : DependsOnly holds e t) (hts : t ⊆ s) (m m' : X → V) :
    holds (glue s m m') e ↔ holds m e :=
  h _ _ fun _ hx => if_pos (hts hx)

lemma DependsOnly.glue_right (h : DependsOnly holds e t) (hts : ∀ x ∈ t, x ∉ s) (m m' : X → V) :
    holds (glue s m m') e ↔ holds m' e :=
  h _ _ fun x hx => if_neg (hts x hx)

lemma implies_iff_of_separated {reads : E → Set X}
    (hsat : ∃ m, Models holds m C) (hdep : ∀ e ∈ q :: C, DependsOnly holds e (reads e))
    (hDC : ∀ c ∈ D, c ∈ C) (hq : reads q ⊆ s) (hD : ∀ c ∈ D, reads c ⊆ s)
    (hrest : ∀ c ∈ C, c ∉ D → ∀ x ∈ reads c, x ∉ s) :
    Implies holds C q ↔ Implies holds D q := by
  constructor
  · intro himp m hm
    obtain ⟨n, hn⟩ := hsat
    have hglue : Models holds (glue s m n) C := by
      intro c hc
      by_cases hcD : c ∈ D
      · exact ((hdep c (.tail _ hc)).glue_left (hD c hcD) m n).2 (hm c hcD)
      · exact ((hdep c (.tail _ hc)).glue_right (hrest c hc hcD) m n).2 (hn c hc)
    exact ((hdep q (.head _)).glue_left hq m n).1 (himp _ hglue)
  · intro himp m hm
    exact himp m fun c hc => hm c (hDC c hc)

end InputCovSched.Gluing
