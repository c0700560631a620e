import Mathlib.Logic.Hydra

/-!
# Recursion over fuel

`Settles f a`: all bounds that are large enough give `a`. A settled result does not depend on the
bound, so that functions compose. `Ends` is the total correctness of a function that can also
fail. A `loop` whose rounds go down in a well-founded order settles in a state where the invariant
holds (`loop_settles`).

`worklist_induction` is for a loop that takes an item off a stack and pushes lighter ones: the stack
gets smaller in the order of Dershowitz and Manna, however many it pushes.
-/

namespace InputCovSched

open List

variable {α β : Type*} {f g : Nat → α} {a : α}

/-- With enough fuel the result is `a`. -/
def Settles (f : Nat → α) (a : α) : Prop := ∃ enough, ∀ fuel, enough ≤ fuel → f fuel = a

namespace Settles

lemma const (a : α) : Settles (fun _ => a) a := ⟨0, fun _ _ => rfl⟩

lemma unique (ha : Settles f a) (hb : Settles f b) : a = b := by
  obtain ⟨m, hm⟩ := ha
  obtain ⟨n, hn⟩ := hb
  rw [← hm (max m n) (le_max_left m n), hn (max m n) (le_max_right m n)]

lemma step (hf : Settles f a) (hg : ∀ fuel, g (fuel + 1) = f fuel) : Settles g a := by
  obtain ⟨n, hn⟩ := hf
  refine ⟨n + 1, fun fuel hfuel => ?_⟩
  obtain ⟨k, rfl⟩ : ∃ k, fuel = k + 1 := ⟨fuel - 1, by omega⟩
  rw [hg, hn k (by omega)]

lemma bind {F : Nat → α → β} {c : β} (hf : Settles f a) (hF : Settles (F · a) c) :
    Settles (fun fuel => F fuel (f fuel)) c := by
  obtain ⟨m, hm⟩ := hf
  obtain ⟨n, hn⟩ := hF
  refine ⟨max m n, fun fuel hfuel => ?_⟩
  show F fuel (f fuel) = c
  rw [hm fuel (by omega)]
  exact hn fuel (by omega)

lemma optionBind {α β : Type*} {f : Nat → Option α} {F : Nat → α → Option β} {a : α} {c : Option β}
    (hf : Settles f (some a)) (hF : Settles (F · a) c) :
    Settles (fun fuel => (f fuel).bind (F fuel)) c :=
  hf.bind (F := fun fuel o => o.bind (F fuel)) hF

lemma exceptBind {ε α β : Type} {f : Nat → Except ε α} {F : Nat → α → Except ε β} {a : α}
    {c : Except ε β} (hf : Settles f (.ok a)) (hF : Settles (F · a) c) :
    Settles (fun fuel => f fuel >>= F fuel) c :=
  hf.bind (F := fun fuel x => x >>= F fuel) hF

/-- A loop over a list that does not fail: `I done s` holds when `done` has been gone through. -/
lemma foldlM {α σ : Type*} {F : Nat → σ → α → Option σ} {I : List α → σ → Prop} (xs : List α)
    (hstep : ∀ done s, ∀ x ∈ xs, I done s → ∃ s', Settles (F · s x) (some s') ∧ I (done ++ [x]) s')
    (done : List α) (s : σ) (h : I done s) :
    ∃ s', Settles (fun fuel => xs.foldlM (F fuel) s) (some s') ∧ I (done ++ xs) s' := by
  induction xs generalizing done s with
  | nil => exact ⟨s, .const _, by simpa using h⟩
  | cons x xs ih =>
    obtain ⟨s₁, hset, h₁⟩ := hstep done s x mem_cons_self h
    obtain ⟨s₂, hset₂, h₂⟩ := ih (fun done s y hy => hstep done s y (mem_cons_of_mem x hy)) _ s₁ h₁
    refine ⟨s₂, ?_, by simpa using h₂⟩
    exact hset.optionBind hset₂

end Settles

/-! ## Postconditions -/

section Ends

variable {ε : Type*} {σ τ : Type} {out : ε} {f g : Nat → Except ε σ} {Q : σ → Prop}

/-- With enough fuel, anything but `out` comes out, and a result that is returned satisfies `Q`. -/
def Ends (out : ε) (f : Nat → Except ε σ) (Q : σ → Prop) : Prop :=
  ∃ r, Settles f r ∧ r ≠ .error out ∧ ∀ s, r = .ok s → Q s

namespace Ends

lemma ok {s : σ} (h : Q s) : Ends out (fun _ => .ok s) Q := by
  refine ⟨.ok s, .const _, by simp, ?_⟩
  rintro _ ⟨⟩
  exact h

lemma error {x : ε} (h : x ≠ out) : Ends out (fun _ => .error x) Q :=
  ⟨.error x, .const _, by simpa using h, by simp⟩

lemma mono (h : Ends out f P) (hPQ : ∀ s, P s → Q s) : Ends out f Q := by
  obtain ⟨r, hset, hout, hP⟩ := h
  exact ⟨r, hset, hout, fun s hs => hPQ s (hP s hs)⟩

lemma step (h : Ends out f Q) (hg : ∀ fuel, g (fuel + 1) = f fuel) : Ends out g Q := by
  obtain ⟨r, hset, hrest⟩ := h
  exact ⟨r, hset.step hg, hrest⟩

lemma bind {F : Nat → σ → Except ε τ} {R : τ → Prop} (h : Ends out f P)
    (hF : ∀ s, P s → Ends out (F · s) R) : Ends out (fun fuel => f fuel >>= F fuel) R := by
  obtain ⟨r, hset, hout, hP⟩ := h
  cases r with
  | error x =>
    exact ⟨.error x, hset.bind (F := fun fuel r => r >>= F fuel) (.const _), by simpa using hout,
      by simp⟩
  | ok s =>
    obtain ⟨r', hset', hrest⟩ := hF s (hP s rfl)
    exact ⟨r', hset.bind (F := fun fuel r => r >>= F fuel) hset', hrest⟩

/-- A loop over a list: `I done s` holds when `done` has been gone through. -/
lemma foldlM {α : Type*} {F : Nat → σ → α → Except ε σ} {I : List α → σ → Prop} (xs : List α)
    (hstep : ∀ done s, ∀ x ∈ xs, I done s → Ends out (F · s x) (I (done ++ [x]))) (done : List α)
    (s : σ) (h : I done s) : Ends out (fun fuel => xs.foldlM (F fuel) s) (I (done ++ xs)) := by
  induction xs generalizing done s with
  | nil => exact .ok (by simpa using h)
  | cons x xs ih =>
    refine (hstep done s x mem_cons_self h).bind fun s' h' => ?_
    have hrest := ih (fun done s y hy => hstep done s y (mem_cons_of_mem x hy)) _ s' h'
    exact hrest.mono fun s'' h'' => by simpa using h''

end Ends

end Ends

/-! ## Loops -/

section Loop

variable {σ : Type*} {round : σ → Option σ}

def loop (round : σ → Option σ) : Nat → σ → Option σ
  | 0, _ => none
  | fuel + 1, s =>
    match round s with
    | none => some s
    | some s' => loop round fuel s'

/-- Total correctness of a loop: the invariant holds at the end, and there is an end. -/
lemma loop_settles {r : σ → σ → Prop} (hwf : WellFounded r) {I : σ → Prop}
    (hround : ∀ s s', I s → round s = some s' → I s' ∧ r s' s) (hs : I s) :
    ∃ s', I s' ∧ round s' = none ∧ Settles (fun fuel => loop round fuel s) (some s') := by
  induction s using hwf.induction with
  | h s ih =>
    cases hnext : round s with
    | none =>
      refine ⟨s, hs, hnext, (Settles.const (some s)).step fun fuel => ?_⟩
      rw [loop, hnext]
    | some t =>
      obtain ⟨ht, hlt⟩ := hround s t hs hnext
      obtain ⟨s', hs', hdone, hset⟩ := ih t hlt ht
      refine ⟨s', hs', hdone, hset.step fun fuel => ?_⟩
      rw [loop, hnext]

end Loop

/-! ## Worklists -/

/-- One round: the top is replaced by items that are lighter. -/
def Expands (mass : α → Nat) (stack stack' : List α) : Prop :=
  ∃ top rest new, stack = top :: rest ∧ stack' = new ++ rest ∧ ∀ x ∈ new, mass x < mass top

lemma Expands.cutExpand {mass : α → Nat} {stack stack' : List α} (h : Expands mass stack stack') :
    Relation.CutExpand (InvImage (· < ·) mass) (stack' : Multiset α) stack := by
  obtain ⟨top, rest, new, rfl, rfl, hnew⟩ := h
  refine ⟨new, top, by simpa [InvImage] using hnew, ?_⟩
  rw [← Multiset.cons_coe, ← Multiset.coe_add, ← Multiset.singleton_add]
  ac_rfl

lemma worklist_induction {σ : Type*} (mass : α → Nat) (stack : σ → List α) {P : σ → Prop}
    (h : ∀ s, (∀ s', Expands mass (stack s) (stack s') → P s') → P s) (s : σ) : P s := by
  have hwf := InvImage.wf (fun s => (stack s : Multiset α)) (InvImage.wf mass Nat.lt_wfRel.wf).cutExpand
  induction s using hwf.induction with
  | h s ih => exact h s fun s' hs' => ih s' hs'.cutExpand

end InputCovSched
