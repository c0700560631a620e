import InputCovSched.Lib.Fuel

/-!
# Flooding a graph from a worklist

Nodes of a finite graph are taken off a stack. A node may find a fact in itself; from then on,
or from when an earlier node's fact has come to it, it floods its neighbours: they get the full
fact and go back on the stack. A node that has only found its own fact keeps what it found
(`run_spec`).

The loop ends since a push is paid for: the node was never pushed before, or it did not have the
full fact before (`load`).
-/

namespace InputCovSched

open Relation Function List

/-- What a node finds in itself: `none` nothing, `some none` something that is not stored at the
node, `some (some r)` the fact `r`. -/
structure Flood (B R : Type) where
  next : B → List B
  own : B → Option (Option R)
  full : B → R
  isFull : B → R → Bool
  isFull_full : ∀ b, isFull b (full b) = true
  eq_full : ∀ b r, own b = some (some r) → isFull b r = true → r = full b

namespace Flood

structure State (B R : Type) where
  stack : List B
  pushed : List B
  cache : B → Option R

variable {B R : Type} [DecidableEq B] (F : Flood B R)

def hasFull (s : State B R) (n : B) : Bool := (s.cache n).any (F.isFull n)

/-- One neighbour of the node that was taken off the stack. -/
def visitNext (found : Bool) (s : State B R) (n : B) : State B R :=
  let done := !found || F.hasFull s n
  let cache := if done then s.cache else update s.cache n (some (F.full n))
  if !done || !s.pushed.contains n then ⟨n :: s.stack, s.pushed.insert n, cache⟩
  else { s with cache := cache }

/-- Has anything been found at the node, or flooded into it? -/
def look (cache : B → Option R) (b : B) : Bool × (B → Option R) :=
  match cache b with
  | some _ => (true, cache)
  | none =>
    match F.own b with
    | none => (false, cache)
    | some none => (true, cache)
    | some (some r) => (true, update cache b (some r))

def round (s : State B R) : Option (State B R) :=
  match s.stack with
  | [] => none
  | b :: stack =>
    let (found, cache) := F.look s.cache b
    some ((F.next b).foldl (F.visitNext found) ⟨stack, s.pushed, cache⟩)

/-- The starts are pushed once each. -/
def start (starts : List B) (cache : B → Option R) : State B R := ⟨starts, starts, cache⟩

def run (fuel : Nat) (starts : List B) (cache : B → Option R) : Option (State B R) :=
  loop F.round fuel (start starts cache)

/-! ## What the flood is for -/

def Next (a b : B) : Prop := b ∈ F.next a

def Reached (starts : List B) (b : B) : Prop := ∃ a ∈ starts, ReflTransGen F.Next a b

/-- A node strictly before it, on a path from a start, finds something. -/
def Flooded (starts : List B) (b : B) : Prop :=
  ∃ a, F.Reached starts a ∧ F.own a ≠ none ∧ TransGen F.Next a b

section
omit [DecidableEq B]
variable {F} {starts : List B} {b n : B}

lemma Reached.next (h : F.Reached starts a) (hb : b ∈ F.next a) : F.Reached starts b := by
  obtain ⟨c, hc, hpath⟩ := h
  exact ⟨c, hc, hpath.tail hb⟩

lemma Flooded.next (h : F.Flooded starts a) (hb : b ∈ F.next a) : F.Flooded starts b := by
  obtain ⟨c, hc, hown, hpath⟩ := h
  exact ⟨c, hc, hown, hpath.tail hb⟩

lemma Reached.trans (h : F.Reached starts a) (hb : TransGen F.Next a b) : F.Reached starts b := by
  obtain ⟨c, hc, hpath⟩ := h
  exact ⟨c, hc, hpath.trans hb.to_reflTransGen⟩

section
variable {univ : Finset B} {p q : B → Prop} [DecidablePred p] [DecidablePred q]

lemma filter_card_lt (hn : n ∈ univ) (hpq : ∀ x, q x → p x) (hp : p n) (hq : ¬ q n) :
    (univ.filter q).card < (univ.filter p).card := by
  apply Finset.card_lt_card
  refine ⟨Finset.monotone_filter_right univ fun x _ => hpq x, fun hsub => hq ?_⟩
  exact (Finset.mem_filter.1 (hsub (Finset.mem_filter.2 ⟨hn, hp⟩))).2

lemma filter_card_le (hpq : ∀ x, q x → p x) : (univ.filter q).card ≤ (univ.filter p).card :=
  Finset.card_le_card (Finset.monotone_filter_right univ fun x _ => hpq x)

end

end

variable {F} {starts ns : List B} {s s' : State B R} {b n : B} {found : Bool} {univ : Finset B}

/-! ## The neighbours of one node -/

/-- What is left to pay pushes with, and the stack. -/
def load (F : Flood B R) (univ : Finset B) (s : State B R) : Nat :=
  s.stack.length + (univ.filter fun n => n ∉ s.pushed).card +
    (univ.filter fun n => F.hasFull s n = false).card

structure Visited (F : Flood B R) (univ : Finset B) (found : Bool) (ns : List B)
    (s s' : State B R) : Prop where
  cache : ∀ n, s'.cache n =
    if found = true ∧ n ∈ ns ∧ F.hasFull s n = false then some (F.full n) else s.cache n
  pushed : ∀ n, n ∈ s'.pushed ↔ n ∈ s.pushed ∨ n ∈ ns
  stack : ∀ n ∈ s'.stack, n ∈ s.stack ∨ n ∈ ns
  mono : ∀ n ∈ s.stack, n ∈ s'.stack
  new : ∀ n ∈ ns, n ∉ s.pushed ∨ s'.cache n ≠ s.cache n → n ∈ s'.stack
  load : F.load univ s' ≤ F.load univ s

lemma hasFull_update (F : Flood B R) (s : State B R) (n x : B) (st ps : List B) :
    F.hasFull ⟨st, ps, update s.cache n (some (F.full n))⟩ x = false ↔
      x ≠ n ∧ F.hasFull s x = false := by
  unfold hasFull
  by_cases hx : x = n
  · subst hx
    simp [F.isFull_full]
  · simp [hx]

lemma visitNext_visited (hn : n ∈ univ) (found : Bool) (s : State B R) :
    Visited F univ found [n] s (F.visitNext found s n) := by
  unfold visitNext
  by_cases hflood : found = true ∧ F.hasFull s n = false
  · -- the neighbour gets the full fact and goes on the stack
    obtain ⟨rfl, hfull⟩ := hflood
    simp only [hfull, Bool.not_true, Bool.or_false, Bool.not_false, Bool.true_or, if_true,
      Bool.false_eq_true, if_false]
    refine ⟨fun x => ?_, fun x => ?_, fun x hx => ?_, fun x hx => ?_, fun x hx _ => ?_, ?_⟩
    · by_cases hx : x = n
      · subst hx
        simp [hfull]
      · simp [hx]
    · simp [or_comm]
    · rcases mem_cons.1 hx with rfl | hx
      · exact .inr mem_cons_self
      · exact .inl hx
    · exact mem_cons_of_mem _ hx
    · obtain rfl := mem_singleton.1 hx
      exact mem_cons_self
    · have hlt : (univ.filter fun x => F.hasFull ⟨n :: s.stack, s.pushed.insert n,
          update s.cache n (some (F.full n))⟩ x = false).card <
          (univ.filter fun x => F.hasFull s x = false).card := by
        apply filter_card_lt hn _ hfull
        · rw [hasFull_update]
          exact fun h => h.1 rfl
        · intro x hx
          exact ((hasFull_update F s n x _ _).1 hx).2
      have hle : (univ.filter fun x => x ∉ s.pushed.insert n).card ≤
          (univ.filter fun x => x ∉ s.pushed).card := by
        apply filter_card_le
        intro x hx hmem
        exact hx (mem_insert_of_mem hmem)
      unfold load
      simp only [length_cons]
      omega
  have hdone : (!found || F.hasFull s n) = true := by
    by_contra h
    apply hflood
    simpa using h
  have hcache : ∀ x, (if found = true ∧ x ∈ [n] ∧ F.hasFull s x = false then some (F.full x)
      else s.cache x) = s.cache x := by
    intro x
    rw [if_neg]
    rintro ⟨h1, hx, h2⟩
    obtain rfl := mem_singleton.1 hx
    exact hflood ⟨h1, h2⟩
  simp only [hdone, Bool.not_true, Bool.false_or, if_true]
  by_cases hp : n ∈ s.pushed
  · have hc : s.pushed.contains n = true := by simpa using hp
    simp only [hc, Bool.not_true, Bool.false_eq_true, if_false]
    refine ⟨fun x => (hcache x).symm, fun x => ?_, fun x hx => .inl hx, fun x hx => hx,
      fun x hx h => ?_, le_refl _⟩
    · constructor
      · exact .inl
      · rintro (hx | hx)
        · exact hx
        · obtain rfl := mem_singleton.1 hx
          exact hp
    · obtain rfl := mem_singleton.1 hx
      rcases h with h | h
      · exact absurd hp h
      · exact absurd rfl h
  have hc : s.pushed.contains n = false := by simpa using hp
  simp only [hc, Bool.not_false, if_true]
  refine ⟨fun x => (hcache x).symm, fun x => ?_, fun x hx => ?_, fun x hx => ?_,
    fun x hx _ => ?_, ?_⟩
  · simp [or_comm]
  · rcases mem_cons.1 hx with rfl | hx
    · exact .inr mem_cons_self
    · exact .inl hx
  · exact mem_cons_of_mem _ hx
  · obtain rfl := mem_singleton.1 hx
    exact mem_cons_self
  · have hlt : (univ.filter fun x => x ∉ s.pushed.insert n).card <
        (univ.filter fun x => x ∉ s.pushed).card := by
      apply filter_card_lt hn _ hp
      · simp
      · intro x hx hmem
        exact hx (mem_insert_of_mem hmem)
    show _ + 1 + _ + _ ≤ _
    exact (by omega : ∀ a b c d : Nat, c < d → a + 1 + c + b ≤ a + d + b) _ _ _ _ hlt

lemma Visited.cons (h : Visited F univ found [n] s s₁)
    (h' : Visited F univ found ns s₁ s') : Visited F univ found (n :: ns) s s' := by
  have hfull : ∀ x, F.hasFull s₁ x = false ↔ F.hasFull s x = false ∧ ¬ (found = true ∧ x = n) := by
    intro x
    unfold hasFull
    rw [h.cache x]
    by_cases hx : found = true ∧ x ∈ [n] ∧ F.hasFull s x = false
    · have hxn : x = n := mem_singleton.1 hx.2.1
      rw [if_pos hx]
      simp [hx.1, hxn, F.isFull_full]
    rw [if_neg hx]
    constructor
    · intro hf
      refine ⟨hf, fun hxn => hx ⟨hxn.1, mem_singleton.2 hxn.2, hf⟩⟩
    · exact And.left
  refine ⟨fun x => ?_, fun x => ?_, fun x hx => ?_, fun x hx => h'.mono x (h.mono x hx),
    fun x hx hnew => ?_, h'.load.trans h.load⟩
  · rw [h'.cache x, h.cache x]
    simp only [hfull, mem_cons]
    by_cases hfound : found = true <;> by_cases hxn : x = n <;> simp [hfound, hxn]
  · rw [h'.pushed, h.pushed, mem_singleton, mem_cons, or_assoc]
  · rcases h'.stack x hx with hx | hx
    · rcases h.stack x hx with hx | hx
      · exact .inl hx
      · exact .inr (mem_cons.2 (.inl (mem_singleton.1 hx)))
    · exact .inr (mem_cons_of_mem _ hx)
  · -- pushed at the first visit, or at a later one
    by_cases hfirst : x ∈ [n] ∧ (x ∉ s.pushed ∨ s₁.cache x ≠ s.cache x)
    · exact h'.mono x (h.new x hfirst.1 hfirst.2)
    have hcache : s₁.cache x = s.cache x := by
      by_cases hxn : x ∈ [n]
      · by_contra hne
        exact hfirst ⟨hxn, .inr hne⟩
      · rw [h.cache x, if_neg]
        exact fun hc => hxn hc.2.1
    have hpush : x ∉ s.pushed → x ∉ s₁.pushed := by
      intro hns hmem
      rcases (h.pushed x).1 hmem with hmem | hmem
      · exact hns hmem
      · exact hfirst ⟨hmem, .inl hns⟩
    rw [← hcache] at hnew
    by_cases hxns : x ∈ ns
    · exact h'.new x hxns (hnew.imp_left hpush)
    have hxn : x ∈ [n] := by
      rcases mem_cons.1 hx with hx | hx
      · exact mem_singleton.2 hx
      · exact absurd hx hxns
    have hsame : s'.cache x = s₁.cache x := by
      rw [h'.cache x, if_neg]
      exact fun hc => hxns hc.2.1
    rcases hnew with hnew | hnew
    · exact absurd ⟨hxn, .inl hnew⟩ hfirst
    · exact absurd hsame hnew

lemma foldl_visited (found : Bool) (ns : List B) (s : State B R) (hns : ∀ n ∈ ns, n ∈ univ) :
    Visited F univ found ns s (ns.foldl (F.visitNext found) s) := by
  induction ns generalizing s with
  | nil =>
    refine ⟨fun x => ?_, fun x => ?_, fun x hx => .inl hx, fun x hx => hx, fun x hx => ?_,
      le_refl _⟩
    · simp
    · simp
    · cases hx
  | cons n ns ih =>
    exact (visitNext_visited (hns n mem_cons_self) found s).cons
      (ih (F.visitNext found s n) fun x hx => hns x (mem_cons_of_mem n hx))

/-! ## One round -/

structure Expanded (F : Flood B R) (s : State B R) (b : B) : Prop where
  pushed : ∀ n ∈ F.next b, n ∈ s.pushed
  stored : ∀ r, F.own b = some (some r) → s.cache b ≠ none
  flooded : F.own b ≠ none ∨ s.cache b ≠ none → ∀ n ∈ F.next b, F.hasFull s n = true

structure Inv (F : Flood B R) (starts : List B) (cache₀ : B → Option R) (s : State B R) :
    Prop where
  begun : ∀ b ∈ starts, b ∈ s.pushed
  stack : ∀ b ∈ s.stack, b ∈ s.pushed
  reached : ∀ b ∈ s.pushed, F.Reached starts b
  frame : ∀ b, ¬ F.Reached starts b → s.cache b = cache₀ b
  sound : ∀ b r, F.Reached starts b → s.cache b = some r →
    (r = F.full b ∧ F.Flooded starts b) ∨ F.own b = some (some r)
  expanded : ∀ b ∈ s.pushed, b ∉ s.stack → F.Expanded s b

lemma look_found : (F.look cache b).1 = true ↔ F.own b ≠ none ∨ cache b ≠ none := by
  unfold look
  cases hc : cache b with
  | some r => simp
  | none =>
    cases ho : F.own b with
    | none => simp
    | some o => cases o <;> simp

lemma look_mono (h : cache n = some r) : (F.look cache b).2 n = some r := by
  unfold look
  split
  · exact h
  rename_i hb
  split
  · exact h
  · exact h
  have hne : n ≠ b := by
    rintro rfl
    rw [hb] at h
    cases h
  show update cache b _ n = some r
  rw [update_of_ne hne]
  exact h

lemma look_sound (h : (F.look cache b).2 n = some r) :
    cache n = some r ∨ n = b ∧ F.own b = some (some r) := by
  unfold look at h
  split at h
  · exact .inl h
  split at h
  · exact .inl h
  · exact .inl h
  rename_i ho
  replace h : update cache b _ n = some r := h
  by_cases hn : n = b
  · subst hn
    rw [update_self] at h
    cases h
    exact .inr ⟨rfl, ho⟩
  · rw [update_of_ne hn] at h
    exact .inl h

lemma look_stored (h : F.own b = some (some r)) : (F.look cache b).2 b ≠ none := by
  cases hc : cache b with
  | some r' => simp [look_mono hc]
  | none => simp [look, hc, h]

lemma look_of_ne (h : n ≠ b) : (F.look cache b).2 n = cache n := by
  cases hl : (F.look cache b).2 n with
  | some r =>
    rcases look_sound hl with hc | ⟨rfl, -⟩
    · exact hc.symm
    · exact absurd rfl h
  | none =>
    cases hc : cache n with
    | none => rfl
    | some r => simp [look_mono hc] at hl

def takeOff (F : Flood B R) (s : State B R) (b : B) (stack : List B) : State B R :=
  ⟨stack, s.pushed, (F.look s.cache b).2⟩

lemma hasFull_takeOff {stack : List B} (h : F.hasFull s n = true) :
    F.hasFull (F.takeOff s b stack) n = true := by
  unfold hasFull at h ⊢
  obtain ⟨r, hr, hf⟩ := (Option.any_eq_true _ _).1 h
  rw [show (F.takeOff s b stack).cache n = some r from look_mono hr]
  exact hf

lemma Visited.hasFull (h : Visited F univ found ns s s')
    (hf : F.hasFull s n = true) : F.hasFull s' n = true := by
  unfold Flood.hasFull
  rw [h.cache n, if_neg]
  · exact hf
  · rintro ⟨-, -, hnot⟩
    rw [hf] at hnot
    cases hnot

lemma Visited.hasFull_of_mem (h : Visited F univ true ns s s') (hn : n ∈ ns) :
    F.hasFull s' n = true := by
  cases hf : F.hasFull s n with
  | true => exact h.hasFull hf
  | false =>
    unfold Flood.hasFull
    rw [h.cache n, if_pos ⟨rfl, hn, hf⟩]
    simp [F.isFull_full]

variable {cache₀ : B → Option R}

omit [DecidableEq B] in
lemma inv_start (hfresh : ∀ b, F.Reached starts b → cache₀ b = none) :
    F.Inv starts cache₀ (start starts cache₀) where
  begun := fun _ hb => hb
  stack := fun _ hb => hb
  reached := fun b hb => ⟨b, hb, .refl⟩
  frame := fun _ _ => rfl
  sound := by
    intro b r hb hr
    rw [show (start starts cache₀).cache b = cache₀ b from rfl, hfresh b hb] at hr
    cases hr
  expanded := fun _ hb hn => absurd hb hn

section
variable {stack : List B}

lemma Inv.floods (hi : F.Inv starts cache₀ s) (hb : F.Reached starts b)
    (hfound : (F.look s.cache b).1 = true) (hn : n ∈ F.next b) : F.Flooded starts n := by
  rcases look_found.1 hfound with hown | hcache
  · exact ⟨b, hb, hown, .single hn⟩
  obtain ⟨r, hr⟩ := Option.ne_none_iff_exists'.1 hcache
  rcases hi.sound b r hb hr with ⟨-, hfl⟩ | hown
  · exact hfl.next hn
  · exact ⟨b, hb, by simp [hown], .single hn⟩

lemma Inv.expanded_self (hv : Visited F univ (F.look s.cache b).1 (F.next b)
      (F.takeOff s b stack) s') (hsame : s'.cache b = (F.look s.cache b).2 b) :
    F.Expanded s' b where
  pushed := fun n hn => (hv.pushed n).2 (.inr hn)
  stored := by
    intro r hr
    rw [hsame]
    exact look_stored hr
  flooded := by
    intro hor n hn
    have hfound : (F.look s.cache b).1 = true := by
      rw [look_found]
      rcases hor with hown | hcache
      · exact .inl hown
      rw [hsame] at hcache
      obtain ⟨r, hr⟩ := Option.ne_none_iff_exists'.1 hcache
      rcases look_sound hr with hc | ⟨-, hown⟩
      · exact .inr (by simp [hc])
      · exact .inl (by simp [hown])
    rw [hfound] at hv
    exact hv.hasFull_of_mem hn

lemma Expanded.kept (he : F.Expanded s n) (hne : n ≠ b)
    (hv : Visited F univ (F.look s.cache b).1 (F.next b) (F.takeOff s b stack) s')
    (hsame : s'.cache n = (F.look s.cache b).2 n) : F.Expanded s' n := by
  rw [look_of_ne hne] at hsame
  refine ⟨fun m hm => (hv.pushed m).2 (.inl (he.pushed m hm)), ?_, ?_⟩
  · intro r hr
    rw [hsame]
    exact he.stored r hr
  · intro hor m hm
    rw [hsame] at hor
    exact hv.hasFull (hasFull_takeOff (he.flooded hor m hm))

/-- **One round keeps the invariant.** -/
theorem Inv.visited (hi : F.Inv starts cache₀ s) (hst : s.stack = b :: stack)
    (hv : Visited F univ (F.look s.cache b).1 (F.next b) (F.takeOff s b stack) s') :
    F.Inv starts cache₀ s' := by
  have hb : F.Reached starts b := hi.reached b (hi.stack b (by simp [hst]))
  refine ⟨fun n hn => (hv.pushed n).2 (.inl (hi.begun n hn)), fun n hn => ?_, fun n hn => ?_,
    fun n hn => ?_, fun n r hn hr => ?_, fun n hn hoff => ?_⟩
  · rw [hv.pushed n]
    rcases hv.stack n hn with hn | hn
    · exact .inl (hi.stack n (by rw [hst]; exact mem_cons_of_mem b hn))
    · exact .inr hn
  · rcases (hv.pushed n).1 hn with hn | hn
    · exact hi.reached n hn
    · exact hb.next hn
  · have hne : n ≠ b := by
      rintro rfl
      exact hn hb
    rw [hv.cache n, if_neg fun hc => hn (hb.next hc.2.1)]
    show (F.look s.cache b).2 n = _
    rw [look_of_ne hne]
    exact hi.frame n hn
  · rw [hv.cache n] at hr
    split at hr
    · next hc =>
      exact .inl ⟨(Option.some.inj hr).symm, hi.floods hb hc.1 hc.2.1⟩
    rcases look_sound hr with hc | ⟨rfl, hown⟩
    · exact hi.sound n r hn hc
    · exact .inr hown
  · have hnew : n ∈ F.next b → n ∈ s.pushed ∧ s'.cache n = (F.look s.cache b).2 n := by
      intro hmem
      by_contra hcon
      rw [not_and_or] at hcon
      exact hoff (hv.new n hmem hcon)
    have hsame : s'.cache n = (F.look s.cache b).2 n := by
      by_cases hmem : n ∈ F.next b
      · exact (hnew hmem).2
      · rw [hv.cache n, if_neg fun hc => hmem hc.2.1]
        rfl
    by_cases hnb : n = b
    · subst hnb
      exact Inv.expanded_self hv hsame
    have hpush : n ∈ s.pushed := by
      rcases (hv.pushed n).1 hn with hp | hmem
      · exact hp
      · exact (hnew hmem).1
    have hns : n ∉ s.stack := by
      intro hmem
      rw [hst] at hmem
      rcases mem_cons.1 hmem with hmem | hmem
      · exact hnb hmem
      · exact hoff (hv.mono n hmem)
    exact (hi.expanded n hpush hns).kept hnb hv hsame

lemma load_takeOff (hst : s.stack = b :: stack) :
    F.load univ (F.takeOff s b stack) < F.load univ s := by
  have hle : (univ.filter fun n => F.hasFull (F.takeOff s b stack) n = false).card ≤
      (univ.filter fun n => F.hasFull s n = false).card := by
    apply filter_card_le
    intro n hn
    cases hf : F.hasFull s n with
    | false => rfl
    | true =>
      rw [hasFull_takeOff hf] at hn
      cases hn
  have hpushed : (univ.filter fun n => n ∉ (F.takeOff s b stack).pushed).card =
      (univ.filter fun n => n ∉ s.pushed).card := rfl
  have hlen : (F.takeOff s b stack).stack.length + 1 = s.stack.length := by
    rw [hst]
    rfl
  unfold load
  omega

end

lemma inv_round (huniv : ∀ b, F.Reached starts b → b ∈ univ) (hi : F.Inv starts cache₀ s)
    (h : F.round s = some s') : F.Inv starts cache₀ s' ∧ F.load univ s' < F.load univ s := by
  unfold round at h
  cases hst : s.stack with
  | nil =>
    rw [hst] at h
    cases h
  | cons b stack =>
    rw [hst] at h
    have hb : F.Reached starts b := hi.reached b (hi.stack b (by simp [hst]))
    have hv : Visited F univ (F.look s.cache b).1 (F.next b) (F.takeOff s b stack) s' := by
      obtain rfl := Option.some.inj h
      exact foldl_visited _ _ _ fun n hn => huniv n (hb.next hn)
    exact ⟨hi.visited hst hv, lt_of_le_of_lt hv.load (load_takeOff hst)⟩

/-! ## The end of the loop -/

section
variable (hi : F.Inv starts cache₀ s) (hdone : F.round s = none)
include hi hdone

lemma Inv.expanded_of_done (hb : F.Reached starts b) : b ∈ s.pushed ∧ F.Expanded s b := by
  have hst : s.stack = [] := by
    unfold round at hdone
    split at hdone
    · assumption
    · cases hdone
  obtain ⟨a, ha, hpath⟩ := hb
  induction hpath with
  | refl =>
    have hp := hi.begun a ha
    exact ⟨hp, hi.expanded a hp (by simp [hst])⟩
  | tail _ hnext ih =>
    have hp := ih.2.pushed _ hnext
    exact ⟨hp, hi.expanded _ hp (by simp [hst])⟩

lemma Inv.cache_of_flooded (hb : F.Flooded starts b) : s.cache b = some (F.full b) := by
  obtain ⟨a, ha, hown, hpath⟩ := hb
  have hb : F.Reached starts b := ha.trans hpath
  have hfull : F.hasFull s b = true := by
    clear hb
    induction hpath with
    | single hnext => exact (hi.expanded_of_done hdone ha).2.flooded (.inl hown) _ hnext
    | tail hpath hnext ih =>
      refine (hi.expanded_of_done hdone (ha.trans hpath)).2.flooded (.inr ?_) _ hnext
      intro hnone
      simp [hasFull, hnone] at ih
  obtain ⟨r, hr, hf⟩ := (Option.any_eq_true _ _).1 hfull
  rw [hr]
  rcases hi.sound b r hb hr with ⟨rfl, -⟩ | hown'
  · rfl
  · rw [F.eq_full b r hown' hf]

lemma Inv.cache_of_not_flooded (hb : F.Reached starts b) (hnot : ¬ F.Flooded starts b) :
    s.cache b = (F.own b).join := by
  cases hc : s.cache b with
  | some r =>
    rcases hi.sound b r hb hc with ⟨-, hfl⟩ | hown
    · exact absurd hfl hnot
    · rw [hown]
      rfl
  | none =>
    cases hown : F.own b with
    | none => rfl
    | some o =>
      cases o with
      | none => rfl
      | some r => exact absurd hc ((hi.expanded_of_done hdone hb).2.stored r hown)

end

/-- **The flood ends**, and what it leaves: the full fact where a fact comes in, what a node finds
in itself elsewhere, and nothing new outside. -/
theorem run_spec (F : Flood B R) (univ : Finset B) (starts : List B) (cache₀ : B → Option R)
    (huniv : ∀ b, F.Reached starts b → b ∈ univ) (hfresh : ∀ b, F.Reached starts b → cache₀ b = none) :
    ∃ s, Settles (fun fuel => F.run fuel starts cache₀) (some s) ∧
      (∀ b, F.Flooded starts b → s.cache b = some (F.full b)) ∧
      (∀ b, F.Reached starts b → ¬ F.Flooded starts b → s.cache b = (F.own b).join) ∧
      (∀ b, ¬ F.Reached starts b → s.cache b = cache₀ b) := by
  obtain ⟨s, hi, hdone, hset⟩ := loop_settles (InvImage.wf (F.load univ) Nat.lt_wfRel.wf)
    (fun s s' hi h => inv_round huniv hi h) (inv_start hfresh)
  exact ⟨s, hset, fun b => hi.cache_of_flooded hdone, fun b => hi.cache_of_not_flooded hdone,
    hi.frame⟩

end Flood

end InputCovSched
