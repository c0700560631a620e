import Mathlib.Logic.Basic

/-!
# Runs of a partial step function

A machine is a function `step : σ → L → Option σ`: `none` says that the label cannot
fire in this state. `runFrom` fires a list of labels, `Meets` says that every step of
that run meets a condition on the state before it. The two rules used everywhere
are `inv_of_run` and `inv_of_meets`.
-/

namespace Machine

open List

variable {σ L : Type} (step : σ → L → Option σ)

/-- Fires the labels in order; `none` as soon as one cannot fire. -/
def runFrom : σ → List L → Option σ
  | s, [] => some s
  | s, l :: ls =>
    match step s l with
    | none => none
    | some s' => runFrom s' ls

/-- Every step of the run meets `C` in the state before the step. -/
def Meets (C : σ → L → Prop) : σ → List L → Prop
  | _, [] => True
  | s, l :: ls =>
    C s l ∧
      match step s l with
      | none => True
      | some s' => Meets C s' ls

def Reaches (s s' : σ) : Prop := ∃ ls, runFrom step s ls = some s'

/-- `s'` is the end of a run from `s` whose steps all meet `C`. -/
def ReachesBy (C : σ → L → Prop) (s s' : σ) : Prop :=
  ∃ ls, runFrom step s ls = some s' ∧ Meets step C s ls

instance decidableMeets (C : σ → L → Prop) [∀ s l, Decidable (C s l)] :
    ∀ s ls, Decidable (Meets step C s ls)
  | _, [] => isTrue trivial
  | s, l :: ls =>
    have : Decidable (match step s l with
        | none => True
        | some s' => Meets step C s' ls) :=
      match step s l with
      | none => isTrue trivial
      | some s' => decidableMeets C s' ls
    inferInstanceAs (Decidable (C s l ∧ _))

variable {s s' : σ} {ls : List L} {I : σ → Prop} {C D : σ → L → Prop}

lemma runFrom_cons_eq_some :
    runFrom step s (l :: ls) = some s' ↔ ∃ s₁, step s l = some s₁ ∧ runFrom step s₁ ls = some s' := by
  rw [runFrom]
  cases step s l with
  | none => simp
  | some s₁ => simp

section
variable (hstep : ∀ s l s', I s → C s l → step s l = some s' → I s')
include hstep

/-- The invariant rule for runs whose steps meet `C`. -/
lemma inv_of_meets (hs : I s) (hC : Meets step C s ls) (hrun : runFrom step s ls = some s') :
    I s' := by
  induction ls generalizing s with
  | nil =>
    cases hrun
    exact hs
  | cons l ls ih =>
    obtain ⟨s₁, h₁, hrest⟩ := (runFrom_cons_eq_some step).1 hrun
    obtain ⟨hc, hC'⟩ := hC
    rw [h₁] at hC'
    exact ih (hstep s l s₁ hs hc h₁) hC' hrest

/-- What the invariant gives at every state of a run that meets `C`. -/
lemma meets_of_inv (hD : ∀ s l, I s → D s l) (hs : I s) (hC : Meets step C s ls) :
    Meets step D s ls := by
  induction ls generalizing s with
  | nil => trivial
  | cons l ls ih =>
    obtain ⟨hc, hC'⟩ := hC
    refine ⟨hD s l hs, ?_⟩
    cases h₁ : step s l with
    | none => trivial
    | some s₁ =>
      rw [h₁] at hC'
      exact ih (hstep s l s₁ hs hc h₁) hC'

/-- Two conditions that agree where the invariant holds are met by the same runs. -/
lemma meets_iff (hiff : ∀ s l, I s → (C s l ↔ D s l)) (hs : I s) :
    Meets step C s ls ↔ Meets step D s ls := by
  induction ls generalizing s with
  | nil => exact Iff.rfl
  | cons l ls ih =>
    rw [Meets, Meets, ← hiff s l hs]
    refine and_congr_right fun hc => ?_
    cases h₁ : step s l with
    | none => exact Iff.rfl
    | some s₁ => exact ih (hstep s l s₁ hs hc h₁)

end

lemma meets_and :
    Meets step (fun s l => C s l ∧ D s l) s ls ↔ Meets step C s ls ∧ Meets step D s ls := by
  induction ls generalizing s with
  | nil => exact ⟨fun _ => ⟨trivial, trivial⟩, fun _ => trivial⟩
  | cons l ls ih =>
    rw [Meets, Meets, Meets]
    cases step s l with
    | none => simp only [and_true]
    | some s₁ =>
      dsimp only
      rw [ih, and_and_and_comm]

/-- The invariant rule for all runs. -/
lemma inv_of_run (hstep : ∀ s l s', I s → step s l = some s' → I s') (hs : I s)
    (hrun : runFrom step s ls = some s') : I s' := by
  induction ls generalizing s with
  | nil =>
    cases hrun
    exact hs
  | cons l ls ih =>
    obtain ⟨s₁, h₁, hrest⟩ := (runFrom_cons_eq_some step).1 hrun
    exact ih (hstep s l s₁ hs h₁) hrest

/-- A property that a step can only lose, and keeps exactly under `D`. -/
lemma iff_meets {P : σ → Prop} (hI : ∀ s l s', I s → step s l = some s' → I s')
    (hP : ∀ s l s', I s → step s l = some s' → (P s' ↔ P s ∧ D s l)) (hs : I s)
    (hrun : runFrom step s ls = some s') : P s' ↔ P s ∧ Meets step D s ls := by
  induction ls generalizing s with
  | nil =>
    cases hrun
    exact (and_iff_left trivial).symm
  | cons l ls ih =>
    obtain ⟨s₁, h₁, hrest⟩ := (runFrom_cons_eq_some step).1 hrun
    rw [ih (hI s l s₁ hs h₁) hrest, hP s l s₁ hs h₁, Meets, h₁, and_assoc]

lemma foldlM_eq_runFrom (s : σ) (ls : List L) : ls.foldlM step s = runFrom step s ls := by
  induction ls generalizing s with
  | nil => rfl
  | cons l ls ih =>
    rw [foldlM_cons, runFrom]
    cases step s l with
    | none => rfl
    | some s₁ => exact ih s₁

/-- `I` holds at the end of every beginning of a run as soon as every step leads to it. -/
lemma along_iff (hs : I s) :
    (∀ ls' s', ls' <+: ls → runFrom step s ls' = some s' → I s') ↔
      Meets step (fun s l => ∀ s', step s l = some s' → I s') s ls := by
  induction ls generalizing s with
  | nil =>
    refine ⟨fun _ => trivial, fun _ ls' s' hpre hrun => ?_⟩
    rw [prefix_nil.1 hpre] at hrun
    cases hrun
    exact hs
  | cons l ls ih =>
    rw [Meets]
    cases h₁ : step s l with
    | none =>
      refine ⟨fun _ => ⟨fun s' h => (Option.some_ne_none s' h.symm).elim, trivial⟩,
        fun _ ls' s' hpre hrun => ?_⟩
      rcases prefix_cons_iff.1 hpre with rfl | ⟨ls'', rfl, -⟩
      · cases hrun
        exact hs
      obtain ⟨s₁, hl, -⟩ := (runFrom_cons_eq_some step).1 hrun
      rw [h₁] at hl
      cases hl
    | some s₁ =>
      constructor
      · intro hall
        have hI : I s₁ := hall [l] s₁ (prefix_append [l] ls) (by rw [runFrom, h₁]; rfl)
        refine ⟨fun s' h => Option.some.inj h ▸ hI, (ih hI).1 fun ls' s' hpre hrun => ?_⟩
        refine hall (l :: ls') s' (cons_prefix_cons.2 ⟨rfl, hpre⟩) ?_
        exact (runFrom_cons_eq_some step).2 ⟨s₁, h₁, hrun⟩
      · rintro ⟨hl, hrest⟩ ls' s' hpre hrun
        rcases prefix_cons_iff.1 hpre with rfl | ⟨ls'', rfl, hpre'⟩
        · cases hrun
          exact hs
        obtain ⟨s₂, h₂, hrun'⟩ := (runFrom_cons_eq_some step).1 hrun
        rw [h₁] at h₂
        cases h₂
        exact (ih (hl s₁ rfl)).2 hrest ls'' s' hpre' hrun'

/-- The first step of a run that does not meet `C`. -/
lemma exists_first_violation (hrun : runFrom step s ls = some s') (h : ¬ Meets step C s ls) :
    ∃ ls₁ l ls₂ s₁ s₂, ls = ls₁ ++ l :: ls₂ ∧ runFrom step s ls₁ = some s₁ ∧ Meets step C s ls₁ ∧
      ¬ C s₁ l ∧ step s₁ l = some s₂ ∧ runFrom step s₂ ls₂ = some s' := by
  induction ls generalizing s with
  | nil => exact absurd trivial h
  | cons l ls ih =>
    obtain ⟨s₁, h₁, hrest⟩ := (runFrom_cons_eq_some step).1 hrun
    by_cases hc : C s l
    · have hrest' : ¬ Meets step C s₁ ls := by
        intro hm
        apply h
        rw [Meets, h₁]
        exact ⟨hc, hm⟩
      obtain ⟨ls₁, l', ls₂, a, b, rfl, hrun₁, hmeets, hviol, hstep, hrun₂⟩ := ih hrest hrest'
      refine ⟨l :: ls₁, l', ls₂, a, b, rfl, (runFrom_cons_eq_some step).2 ⟨s₁, h₁, hrun₁⟩, ?_, hviol,
        hstep, hrun₂⟩
      rw [Meets, h₁]
      exact ⟨hc, hmeets⟩
    · exact ⟨[], l, ls, s, s₁, rfl, rfl, trivial, hc, h₁, hrest⟩

/-- Two machines with the same labels stay related as long as every step of the first one meets
`D`, if `D` says exactly when a single step keeps them related. -/
lemma related_iff_meets {τ : Type} {stepB : τ → L → Option τ} {R : σ → τ → Prop}
    (hI : ∀ s l s', I s → step s l = some s' → I s')
    (hD : ∀ s t l, I s → R s t → (Option.Rel R (step s l) (stepB t l) ↔ D s l)) {t : τ} (hs : I s)
    (hst : R s t) :
    (∀ ls', ls' <+: ls → Option.Rel R (runFrom step s ls') (runFrom stepB t ls')) ↔
      Meets step D s ls := by
  induction ls generalizing s t with
  | nil =>
    refine ⟨fun _ => trivial, fun _ ls' hpre => ?_⟩
    rw [prefix_nil.1 hpre]
    exact .some hst
  | cons l ls ih =>
    rw [Meets, ← hD s t l hs hst]
    generalize h₁ : step s l = o₁
    generalize h₂ : stepB t l = o₂
    constructor
    · intro hall
      have hrel : Option.Rel R o₁ o₂ := by
        have h := hall [l] (prefix_append [l] ls)
        rw [runFrom, runFrom, h₁, h₂] at h
        cases o₁ <;> cases o₂ <;> exact h
      refine ⟨hrel, ?_⟩
      cases hrel with
      | none => trivial
      | some hst₁ =>
        refine (ih (hI s l _ hs h₁) hst₁).1 fun ls' hpre => ?_
        have h := hall (l :: ls') (cons_prefix_cons.2 ⟨rfl, hpre⟩)
        rw [runFrom, runFrom, h₁, h₂] at h
        exact h
    · rintro ⟨hrel, hrest⟩ ls' hpre
      rcases prefix_cons_iff.1 hpre with rfl | ⟨ls'', rfl, hpre'⟩
      · exact .some hst
      rw [runFrom, runFrom, h₁, h₂]
      cases hrel with
      | none => exact .none
      | some hst₁ => exact (ih (hI s l _ hs h₁) hst₁).2 hrest ls'' hpre'

lemma Reaches.refl (s : σ) : Reaches step s s := ⟨[], rfl⟩

lemma Reaches.head (h : step s l = some s₁) (hr : Reaches step s₁ s') : Reaches step s s' := by
  obtain ⟨ls, hls⟩ := hr
  exact ⟨l :: ls, (runFrom_cons_eq_some step).2 ⟨s₁, h, hls⟩⟩

lemma Reaches.trans (h : Reaches step s s₁) (h' : Reaches step s₁ s') : Reaches step s s' := by
  obtain ⟨ls, hls⟩ := h
  induction ls generalizing s with
  | nil =>
    cases hls
    exact h'
  | cons l ls ih =>
    obtain ⟨s₂, h₂, hrest⟩ := (runFrom_cons_eq_some step).1 hls
    exact .head step h₂ (ih hrest)

end Machine
