import InputCovSched.Instr.ScheduleTree

/-!
# The trie of a schedule tree node (`ScheduleTreeNode::addEdge`)

`addEdge` compares the new terms with those of the first edge that begins with the same
term, position by position and without looking at the length of the new list.
`addEdgeAt` is the function with its index reads.

    it reads behind the end of the new list exactly when the list ends strictly inside an
    edge  (addEdgeAt_outOfBounds)
    otherwise it does what `addEdge` of `ScheduleTree` does, which takes the common part of the
    two lists  (addEdgeAt_related), and `BuildScheduleTree` builds the same tree with both
    (buildScheduleTreeAt_agrees)
    a list that is no proper prefix of an earlier one never ends inside an edge
      (Built.exists_of_endsInside)
    the pairs in the tree are the pairs that were added  (addEdges_exact)
-/

namespace InputCovSched

open List

inductive AddError where
  | outOfBounds
  | assertFailed
  deriving DecidableEq, Repr

section
variable {E : Type}

def readTerm (terms : List E) (k : Nat) : Except AddError E :=
  match terms[k]? with
  | some e => .ok e
  | none => .error .outOfBounds

/-- `for (; shared < found.size(); ++shared) if (found[shared] != terms[shared]) break;` with
`left` turns to go. -/
def sharedLoop [DecidableEq E] (found terms : List E) : (left shared : Nat) → Except AddError Nat
  | 0, shared => .ok shared
  | left + 1, shared =>
    match readTerm found shared, readTerm terms shared with
    | .ok a, .ok b => if a ≠ b then .ok shared else sharedLoop found terms left (shared + 1)
    | .error e, _ => .error e
    | _, .error e => .error e

/-- The terms of a path without the constant true. -/
def dropTrue [DecidableEq E] (T : TermTheory E) (terms : List E) : List E :=
  terms.filter fun e => decide (e ≠ T.trueExpr)

end

namespace ScheduleTreeNode

section
variable {E : Type} [DecidableEq E] (T : TermTheory E)

/-- `addEdge` with its reads of the term vectors. -/
def addEdgeAt (rest : ScheduleTreeNode E → Except AddError (ScheduleTreeNode E)) :
    ScheduleTreeNode E → List E → ScheduleFragment → Except AddError (ScheduleTreeNode E)
  | .leaf, terms, schedfrag =>
    (rest .leaf).map fun n => .edge terms (some schedfrag) n .leaf
  | .edge found frag next others, terms, schedfrag =>
    match readTerm found 0, readTerm terms 0 with
    | .error e, _ => .error e
    | _, .error e => .error e
    | .ok a, .ok b =>
      if a ≠ b then (addEdgeAt rest others terms schedfrag).map fun n => .edge found frag next n
      else
        match sharedLoop found terms (found.length - 1) 1 with
        | .error e => .error e
        | .ok shared =>
          match decide (shared = terms.length ∧ shared = found.length), frag with
          | true, some f =>
            if schedfrag.same f then (rest next).map fun n => .edge found frag n others
            else .error .assertFailed
          | _, _ =>
            let terms := orTrue T (terms.drop shared)
            if shared = found.length ∧ frag.isNone then
              (addEdgeAt rest next terms schedfrag).map fun n => .edge found none n others
            else
              (rest .leaf).map fun n =>
                .edge (found.take shared) none
                  (.edge terms (some schedfrag) n
                    (.edge (orTrue T (found.drop shared)) frag next .leaf))
                  others

def addEdges (calls : List (List E × ScheduleFragment)) (node : ScheduleTreeNode E) :
    Except AddError (ScheduleTreeNode E) :=
  calls.foldlM (fun node call => addEdgeAt T .ok node call.1 call.2) node

/-- The terms along each path down to the first edge with a fragment, and that fragment. -/
def paths : ScheduleTreeNode E → List (List E × ScheduleFragment)
  | .leaf => []
  | .edge terms (some f) _ others => (terms, f) :: paths others
  | .edge terms none next others =>
    (paths next).map (fun p => (terms ++ p.1, p.2)) ++ paths others

def pairs (node : ScheduleTreeNode E) : List (List E × ScheduleFragment) :=
  node.paths.map fun p => (dropTrue T p.1, p.2)

/-- The new terms end strictly inside the terms of the edge they are compared with, or there is
no first term to compare. -/
def EndsInside : ScheduleTreeNode E → List E → Prop
  | .leaf, _ => False
  | .edge found frag next others, terms =>
    found = [] ∨ (terms <+: found ∧ terms ≠ found) ∨
    (found.head? ≠ terms.head? ∧ EndsInside others terms) ∨
    (found <+: terms ∧ frag = none ∧ EndsInside next (orTrue T (terms.drop found.length)))

end

/-! ## Where the edges come from -/

section
variable {E : Type} {T : TermTheory E} {node next others : ScheduleTreeNode E}
  {frag : Option ScheduleFragment} {schedfrag : ScheduleFragment} {found terms : List E}

lemma endsInside_ne (h : a ≠ b) :
    EndsInside T (.edge (a :: found) frag next others) (b :: terms) ↔
      EndsInside T others (b :: terms) := by
  have hp : ¬ (b :: terms) <+: (a :: found) := fun hp => h (cons_prefix_cons.1 hp).1.symm
  have hp' : ¬ (a :: found) <+: (b :: terms) := fun hp => h (cons_prefix_cons.1 hp).1
  simp [EndsInside, h, hp, hp']

lemma eq_nil_of_isPrefix (h : xs <+: ys)
    (hdiff : xs = [] ∨ ys = [] ∨ xs.head? ≠ ys.head?) : xs = [] := by
  obtain ⟨zs, rfl⟩ := h
  cases xs with
  | nil => rfl
  | cons x xs => simp at hdiff

lemma endsInside_nil : EndsInside T (.edge found frag next others) [] := by
  cases found with
  | nil => exact .inl rfl
  | cons a found => exact .inr (.inl ⟨ nil_prefix, by simp⟩)

def after (T : TermTheory E) (S : List E → Prop) (terms : List E) : List E → Prop :=
  fun l => S (terms ++ l) ∨ (l = [] ∧ terms = [T.trueExpr] ∧ S [])

/-- Every edge lies on the way of a list in `S`: its terms are the next terms of the list, or
true when the list has ended. -/
def Built (T : TermTheory E) : (List E → Prop) → ScheduleTreeNode E → Prop
  | _, .leaf => True
  | S, .edge terms (some _) _ others =>
    terms ≠ [] ∧ (S terms ∨ (terms = [T.trueExpr] ∧ S [])) ∧ Built T S others
  | S, .edge terms none next others =>
    terms ≠ [] ∧ next ≠ .leaf ∧ Built T (after T S terms) next ∧ Built T S others

variable {S : List E → Prop}

lemma Built.mono {S' : List E → Prop} (h : Built T S node) (hS : ∀ l, S l → S' l) :
    Built T S' node := by
  induction node generalizing S S' with
  | leaf => trivial
  | edge terms frag next others ihn iho =>
    cases frag with
    | some f =>
      obtain ⟨hne, hl, ho⟩ := h
      exact ⟨hne, hl.imp (hS _) (fun h => ⟨h.1, hS _ h.2⟩), iho ho hS⟩
    | none =>
      obtain ⟨hne, hleaf, hn, ho⟩ := h
      refine ⟨hne, hleaf, ihn hn fun l hl => ?_, iho ho hS⟩
      exact hl.imp (hS _) fun h => ⟨h.1, h.2.1, hS _ h.2.2⟩

lemma Built.exists_list (h : Built T S node) (hne : node ≠ .leaf) : ∃ l, S l := by
  induction node generalizing S with
  | leaf => exact absurd rfl hne
  | edge terms frag next others ihn _ =>
    cases frag with
    | some f =>
      rcases h.2.1 with hl | hl
      · exact ⟨_, hl⟩
      · exact ⟨_, hl.2⟩
    | none =>
      obtain ⟨l, hl⟩ := ihn h.2.2.1 h.2.1
      rcases hl with hl | hl
      · exact ⟨_, hl⟩
      · exact ⟨_, hl.2.2⟩

lemma Built.exists_isPrefix (h : Built T S (.edge found frag next others))
    (hlen : 1 < found.length) : ∃ l, S l ∧ found <+: l := by
  have hne : found ≠ [T.trueExpr] := by
    rintro rfl
    simp at hlen
  cases frag with
  | some f =>
    rcases h.2.1 with hl | hl
    · exact ⟨found, hl, prefix_refl _⟩
    · exact absurd hl.1 hne
  | none =>
    obtain ⟨l, hl⟩ := h.2.2.1.exists_list h.2.1
    rcases hl with hl | hl
    · exact ⟨found ++ l, hl, prefix_append _ _⟩
    · exact absurd hl.2.1 hne

lemma isPrefix_orTrue (u : List E) : u <+: orTrue T u := by
  unfold orTrue
  split
  · rename_i h
    rw [h]
    exact nil_prefix
  · exact prefix_refl _

lemma orTrue_ne_nil (u : List E) : orTrue T u ≠ [] := by
  unfold orTrue
  split
  · simp
  · assumption

lemma orTrue_after (h : S u) : S (orTrue T u) ∨ (orTrue T u = [T.trueExpr] ∧ S []) := by
  by_cases hu : u = []
  · exact .inr ⟨if_pos hu, hu ▸ h⟩
  · exact .inl (by rwa [orTrue, if_neg hu])

lemma Built.tail (h : Built T S (.edge found frag next others)) : Built T S others := by
  cases frag with
  | some f => exact h.2.2
  | none => exact h.2.2.2

lemma Built.terms_ne_nil (h : Built T S (.edge found frag next others)) : found ≠ [] := by
  cases frag with
  | some f => exact h.1
  | none => exact h.1

lemma Built.exists_of_endsInside (h : Built T S node)
    (he : EndsInside T node (orTrue T u)) : ∃ l, S l ∧ u <+: l ∧ u ≠ l := by
  induction node generalizing S u with
  | leaf => cases he
  | edge found frag next others ihn iho =>
    have hu := isPrefix_orTrue (T := T) u
    rcases he with he | ⟨hp, hne⟩ | ⟨-, he⟩ | ⟨⟨left, hleft⟩, rfl, he⟩
    · exact absurd he h.terms_ne_nil
    · have hlt : (orTrue T u).length < found.length := by
        rcases Nat.lt_or_eq_of_le hp.length_le with hlt | heq
        · exact hlt
        · exact absurd (hp.eq_of_length heq) hne
      have hpos := length_pos_of_ne_nil (orTrue_ne_nil (T := T) u)
      obtain ⟨l, hl, hfl⟩ := h.exists_isPrefix (by omega)
      refine ⟨l, hl, hu.trans (hp.trans hfl), fun heq => ?_⟩
      have h1 := hu.length_le
      have h2 := hfl.length_le
      rw [heq] at h1 hlt
      omega
    · exact iho h.tail he
    rw [← hleft, drop_left] at he
    obtain ⟨l, hl, hpl, hne⟩ := ihn h.2.2.1 he
    rcases hl with hl | hl
    · have hlt : left.length < l.length := by
        rcases Nat.lt_or_eq_of_le hpl.length_le with hlt | heq
        · exact hlt
        · exact absurd (hpl.eq_of_length heq) hne
      refine ⟨found ++ l, hl, ?_, fun heq => ?_⟩
      · rw [← hleft] at hu
        exact hu.trans ((prefix_append_right_inj found).2 hpl)
      · have h1 := hu.length_le
        rw [← hleft, heq, length_append, length_append] at h1
        omega
    · rw [hl.1] at hpl hne
      exact absurd (prefix_nil.1 hpl) hne

lemma Built.split {shared foundExtra left : List E}
    (hb : Built T S (.edge (shared ++ foundExtra) frag next others)) (hs : shared ≠ [])
    (hx : foundExtra = [] → frag ≠ none) (hnew : after T S shared left) :
    Built T S (.edge shared none (.edge (orTrue T left) (some schedfrag) .leaf
        (.edge (orTrue T foundExtra) frag next .leaf)) others) := by
  refine ⟨hs, by simp, ⟨orTrue_ne_nil _, orTrue_after hnew, ?_⟩, hb.tail⟩
  -- a list that is longer than `shared` does not end here
  have hlong : foundExtra ≠ [] → shared ++ foundExtra ≠ [T.trueExpr] := by
    intro hf heq
    have h1 := length_pos_of_ne_nil hs
    have h2 := length_pos_of_ne_nil hf
    have := congrArg List.length heq
    simp only [length_append, length_singleton] at this
    omega
  by_cases hf : foundExtra = []
  · subst hf
    rw [append_nil] at hb
    cases frag with
    | none => exact absurd rfl (hx rfl)
    | some f =>
      refine ⟨orTrue_ne_nil _, .inr ⟨rfl, ?_⟩, trivial⟩
      rcases hb.2.1 with hl | hl
      · exact .inl (by rwa [append_nil])
      · exact .inr ⟨rfl, hl⟩
  have hfx : orTrue T foundExtra = foundExtra := if_neg hf
  rw [hfx]
  cases frag with
  | some f =>
    refine ⟨hf, .inl ?_, trivial⟩
    rcases hb.2.1 with hl | hl
    · exact .inl hl
    · exact absurd hl.1 (hlong hf)
  | none =>
    refine ⟨hf, hb.2.1, hb.2.2.1.mono fun l hl => ?_, trivial⟩
    rcases hl with hl | hl
    · exact .inl (.inl (by rwa [← append_assoc]))
    · exact absurd hl.2.1 (hlong hf)

lemma after_of_orTrue {left : List E} (hne : found ≠ [])
    (hu : found ++ left = orTrue T u) : after T (fun l => S l ∨ l = u) found left := by
  by_cases hnil : u = []
  · -- the list ended before this edge, which says true
    rw [orTrue, if_pos hnil] at hu
    obtain ⟨rfl, -⟩ | ⟨rfl, rfl⟩ := append_eq_singleton_iff.1 hu
    · exact absurd rfl hne
    · exact .inr ⟨rfl, rfl, .inr hnil.symm⟩
  · rw [orTrue, if_neg hnil] at hu
    exact .inl (.inr hu)

lemma Built.addsEdge (hb : Built T S node)
    (h : AddsEdge T some node terms schedfrag node') (hu : terms = orTrue T u) :
    Built T (fun l => S l ∨ l = u) node' := by
  have hmono : ∀ {n : ScheduleTreeNode E}, Built T S n → Built T (fun l => S l ∨ l = u) n :=
    fun hn => hn.mono fun _ => .inl
  induction h generalizing S u with
  | fresh h =>
    cases h
    subst hu
    exact ⟨orTrue_ne_nil u, orTrue_after (S := fun l => S l ∨ l = u) (.inr rfl), trivial⟩
  | @skip found f next others terms schedfrag n h ih =>
    have ho := ih hb.tail hu fun hn => hn.mono fun _ => .inl
    cases f with
    | some f => exact ⟨(hmono hb).1, (hmono hb).2.1, ho⟩
    | none => exact ⟨(hmono hb).1, (hmono hb).2.1, (hmono hb).2.2.1, ho⟩
  | same hs h =>
    cases h
    exact hmono hb
  | @into found next others left schedfrag n h ih =>
    have hn := ih hb.2.2.1 rfl fun hn => hn.mono fun _ => .inl
    refine ⟨hb.1, h.ne_leaf, hn.mono fun l hl => ?_, (hmono hb).tail⟩
    rcases hl with hl | rfl
    · exact hl.imp .inl fun h => ⟨h.1, h.2.1, .inl h.2.2⟩
    · exact after_of_orTrue hb.1 hu
  | split hs hx h =>
    cases h
    exact (hmono hb).split hs hx (after_of_orTrue hs hu)

end

/-! ## The index reads -/

section
variable {E : Type}

lemma readTerm_append (pre : List E) (e : E) (post : List E) :
    readTerm (pre ++ e :: post) pre.length = .ok e := by
  simp [readTerm]

lemma readTerm_length (terms : List E) : readTerm terms terms.length = .error .outOfBounds := by
  simp [readTerm]

variable [DecidableEq E] {T : TermTheory E}

lemma splitShared_differ {found terms shared foundExtra left : List E}
    (h : splitShared found terms = (shared, foundExtra, left)) :
    foundExtra = [] ∨ left = [] ∨ foundExtra.head? ≠ left.head? := by
  induction found, terms using splitShared.induct generalizing shared with
  | case1 a as bs x y z hxyz ih =>
    rw [splitShared, if_pos rfl, hxyz] at h
    obtain ⟨-, rfl, rfl⟩ := h
    exact ih hxyz
  | case2 a as b bs hne =>
    rw [splitShared, if_neg hne] at h
    obtain ⟨-, rfl, rfl⟩ := h
    exact .inr (.inr (by simpa using hne))
  | case3 as bs hnot =>
    rw [splitShared] at h
    · simp only [Prod.mk.injEq] at h
      obtain ⟨-, rfl, rfl⟩ := h
      cases as with
      | nil => exact .inl rfl
      | cons a as =>
        cases bs with
        | nil => exact .inr (.inl rfl)
        | cons b bs => exact absurd rfl (hnot a as b bs rfl)
    · exact hnot

lemma sharedLoop_eq (pre found terms : List E) :
    sharedLoop (pre ++ found) (pre ++ terms) found.length pre.length =
      match splitShared found terms with
      | (shared, foundExtra, left) =>
        if foundExtra ≠ [] ∧ left = [] then .error .outOfBounds
        else .ok (pre.length + shared.length) := by
  induction found generalizing pre terms with
  | nil => simp [sharedLoop, splitShared]
  | cons a found ih =>
    rw [length_cons, sharedLoop, readTerm_append]
    cases terms with
    | nil =>
      rw [append_nil, readTerm_length]
      simp [splitShared]
    | cons b terms =>
      rw [readTerm_append, splitShared]
      dsimp only
      by_cases hab : a = b
      · subst hab
        have hpre := ih (pre ++ [a]) terms
        rw [append_assoc, append_assoc, length_append] at hpre
        simp only [singleton_append, length_singleton] at hpre
        rw [if_neg (by simp), if_pos rfl, hpre]
        obtain ⟨shared, foundExtra, left⟩ := splitShared found terms
        dsimp only [length_cons]
        rw [add_assoc, add_comm 1]
      · rw [if_pos hab, if_neg hab]
        simp

variable {node next others : ScheduleTreeNode E} {schedfrag : ScheduleFragment} {terms : List E}

lemma addEdgeAt_empty (h : found = [] ∨ terms = []) :
    addEdgeAt T rest (.edge found frag next others) terms schedfrag = .error .outOfBounds := by
  cases found with
  | nil => rfl
  | cons a found =>
    rw [h.resolve_left (by simp)]
    rfl

lemma addEdgeAt_ne (h : a ≠ b) :
    addEdgeAt T rest (.edge (a :: found) frag next others) (b :: terms) schedfrag =
      (addEdgeAt T rest others (b :: terms) schedfrag).map fun n =>
        .edge (a :: found) frag next n := by
  exact if_pos h

variable {shared left : List E}

lemma sharedLoop_head (h : splitShared found terms = (shared, foundExtra, left)) :
    sharedLoop (a :: found) (a :: terms) ((a :: found).length - 1) 1 =
      if foundExtra ≠ [] ∧ left = [] then .error .outOfBounds else .ok (shared.length + 1) := by
  have hloop := sharedLoop_eq [a] found terms
  rw [h] at hloop
  rw [add_comm shared.length 1]
  exact hloop

/-! The comparison with an edge that begins with the same term, by what is left of the two
lists. -/

section
variable {x : E}

lemma addEdgeAt_short (h : splitShared found terms = (shared, x :: foundExtra, [])) :
    addEdgeAt T rest (.edge (a :: found) frag next others) (a :: terms) schedfrag =
      .error .outOfBounds := by
  rw [addEdgeAt, sharedLoop_head h]
  simp [readTerm]

lemma addEdgeAt_same (h : splitShared found terms = (shared, [], [])) :
    addEdgeAt T rest (.edge (a :: found) (some f) next others) (a :: terms) schedfrag =
      if schedfrag.same f then (rest next).map fun n => .edge (a :: found) (some f) n others
      else .error .assertFailed := by
  obtain ⟨rfl, rfl⟩ := splitShared_eq h
  rw [addEdgeAt, sharedLoop_head h]
  simp [readTerm]

lemma addEdgeAt_into (h : splitShared found terms = (shared, [], left)) :
    addEdgeAt T rest (.edge (a :: found) none next others) (a :: terms) schedfrag =
      (addEdgeAt T rest next (orTrue T left) schedfrag).map fun n =>
        .edge (a :: found) none n others := by
  obtain ⟨rfl, rfl⟩ := splitShared_eq h
  rw [addEdgeAt, sharedLoop_head h]
  simp [readTerm]

lemma addEdgeAt_split (h : splitShared found terms = (shared, foundExtra, left))
    (hleft : left ≠ []) (hx : foundExtra = [] → frag ≠ none) :
    addEdgeAt T rest (.edge (a :: found) frag next others) (a :: terms) schedfrag =
      (rest .leaf).map fun n =>
        .edge (a :: shared) none (.edge (orTrue T left) (some schedfrag) n
            (.edge (orTrue T foundExtra) frag next .leaf))
          others := by
  obtain ⟨rfl, rfl⟩ := splitShared_eq h
  have hlt : 0 < left.length := length_pos_of_ne_nil hleft
  rw [addEdgeAt, sharedLoop_head h]
  simp only [readTerm, List.getElem?_cons_zero, ne_eq, not_true_eq_false, if_false, hleft,
    and_false, length_cons, length_append, Nat.add_right_cancel_iff,
    drop_succ_cons, drop_left, take_succ_cons, take_left]
  rw [decide_eq_false (by omega), if_neg]
  rintro ⟨hlen, hnone⟩
  have : foundExtra = [] := eq_nil_of_length_eq_zero (by omega)
  exact hx this (by simpa using hnone)

end

lemma endsInside_eq_head (h : splitShared found terms = (shared, foundExtra, left)) :
    EndsInside T (.edge (a :: found) frag next others) (a :: terms) ↔
      (foundExtra ≠ [] ∧ left = []) ∨
        (foundExtra = [] ∧ frag = none ∧ EndsInside T next (orTrue T left)) := by
  have hdiff := splitShared_differ h
  obtain ⟨rfl, rfl⟩ := splitShared_eq h
  have h1 : left <+: foundExtra ↔ left = [] :=
    ⟨fun hp => eq_nil_of_isPrefix hp (by tauto), by rintro rfl; exact nil_prefix⟩
  have h2 : foundExtra <+: left ↔ foundExtra = [] :=
    ⟨fun hp => eq_nil_of_isPrefix hp hdiff, by rintro rfl; exact nil_prefix⟩
  simp only [EndsInside, cons_prefix_cons, prefix_append_right_inj, h1, h2]
  by_cases hl : left = [] <;> by_cases hf : foundExtra = [] <;> simp [hl, hf]

lemma addEdgeAt_outOfBounds (h : EndsInside T node terms) :
    addEdgeAt T rest node terms schedfrag = .error .outOfBounds := by
  induction node generalizing terms with
  | leaf => cases h
  | edge found frag next others ihn iho =>
    cases found with
    | nil => exact addEdgeAt_empty (.inl rfl)
    | cons a found =>
      cases terms with
      | nil => exact addEdgeAt_empty (.inr rfl)
      | cons b terms =>
        by_cases hab : a = b
        · subst hab
          obtain ⟨⟨shared, foundExtra, left⟩, hsplit⟩ : ∃ r, splitShared found terms = r := ⟨_, rfl⟩
          rcases (endsInside_eq_head hsplit).1 h with ⟨hx, rfl⟩ | ⟨rfl, rfl, hnext⟩
          · obtain ⟨x, xs, rfl⟩ := exists_cons_of_ne_nil hx
            exact addEdgeAt_short hsplit
          · rw [addEdgeAt_into hsplit, ihn hnext]
            rfl
        · rw [addEdgeAt_ne hab, iho ((endsInside_ne hab).1 h)]
          rfl

/-- The checked result and the result on lists say the same, and no read was out of bounds. -/
structure Agrees {α : Type} (r : Except AddError α) (o : Option α) : Prop where
  toOption : r.toOption = o
  inBounds : r ≠ .error .outOfBounds

variable {α β : Type}

lemma Agrees.map (h : Agrees r o) (f : α → β) : Agrees (r.map f) (o.map f) := by
  obtain ⟨rfl, hb⟩ := h
  cases r with
  | ok a => exact ⟨rfl, nofun⟩
  | error e => exact ⟨rfl, fun he => hb (by cases he; rfl)⟩

/-- A list that does not end inside an edge goes the same way in `addEdge`: what relates the two
ways to go on, and failures, relates the results. -/
lemma addEdgeAt_related
    {R : Except AddError (ScheduleTreeNode E) → Option (ScheduleTreeNode E) → Prop}
    (hmap : ∀ {r o} f, R r o → R (r.map f) (o.map f)) (hfail : R (.error .assertFailed) none)
    (hrest : ∀ n, R (rest n) (restL n)) (h : ¬ EndsInside T node terms) :
    R (addEdgeAt T rest node terms schedfrag) (addEdge T restL node terms schedfrag) := by
  induction node generalizing terms with
  | leaf => exact hmap _ (hrest _)
  | edge found frag next others ihn iho =>
    cases found with
    | nil => exact absurd (.inl rfl) h
    | cons a found =>
      obtain ⟨b, terms, rfl⟩ : ∃ b bs, terms = b :: bs := by
        refine exists_cons_of_ne_nil fun hnil => h ?_
        rw [hnil]
        exact endsInside_nil
      by_cases hab : a = b
      · subst hab
        obtain ⟨⟨shared, foundExtra, left⟩, hsplit⟩ : ∃ r, splitShared found terms = r := ⟨_, rfl⟩
        rw [endsInside_eq_head hsplit, not_or] at h
        rw [addEdge, splitShared, if_pos rfl, hsplit]
        cases foundExtra with
        | cons x foundExtra =>
          have hleft : left ≠ [] := fun hl => h.1 ⟨by simp, hl⟩
          rw [addEdgeAt_split hsplit hleft (by simp)]
          exact hmap _ (hrest _)
        | nil =>
          cases frag with
          | none =>
            have hnext : ¬ EndsInside T next (orTrue T left) := fun hn => h.2 ⟨rfl, rfl, hn⟩
            rw [addEdgeAt_into hsplit]
            cases left <;> exact hmap _ (ihn hnext)
          | some f =>
            cases left with
            | nil =>
              rw [addEdgeAt_same hsplit]
              dsimp only
              split
              · exact hmap _ (hrest _)
              · exact hfail
            | cons y left =>
              rw [addEdgeAt_split hsplit (by simp) (by simp)]
              exact hmap _ (hrest _)
      · rw [endsInside_ne hab] at h
        rw [addEdgeAt_ne hab, addEdge, splitShared, if_neg hab]
        exact hmap _ (iho h)

lemma addEdgeAt_ok_agrees (schedfrag : ScheduleFragment) (h : ¬ EndsInside T node terms) :
    Agrees (addEdgeAt T .ok node terms schedfrag) (addEdge T some node terms schedfrag) :=
  addEdgeAt_related (fun f h => h.map f) ⟨rfl, by rintro ⟨⟩⟩ (fun _ => ⟨rfl, nofun⟩) h

lemma addsEdge_of_addEdgeAt (h : addEdgeAt T .ok node terms schedfrag = .ok node') :
    AddsEdge T some node terms schedfrag node' := by
  have hin : ¬ EndsInside T node terms := by
    intro he
    rw [addEdgeAt_outOfBounds he] at h
    cases h
  have hag := addEdgeAt_ok_agrees schedfrag hin
  rw [h] at hag
  exact addEdge_addsEdge hag.toOption.symm

/-! ## The tree of a region -/

section
variable (T)

def addPathAt : List (List E × ScheduleFragment) → ScheduleTreeNode E →
    Except AddError (ScheduleTreeNode E)
  | [], node => .ok node
  | (terms, schedfrag) :: edges, node => addEdgeAt T (addPathAt edges) node terms schedfrag

/-- `BuildScheduleTree` with the reads of `addEdge`. -/
def buildScheduleTreeAt (usedArrays : Nat → Bool) (schedules : List (CoveredSchedule E)) :
    Except AddError (ScheduleTreeNode E) :=
  schedules.foldlM (fun root sched =>
    addPathAt T (edgesOf T sched.hbGraph (sched.segments usedArrays)) root) .leaf

end

/-- The same, if no read was out of bounds. -/
def AgreesInBounds {α : Type} (r : Except AddError α) (o : Option α) : Prop :=
  r ≠ .error .outOfBounds → r.toOption = o

lemma AgreesInBounds.map {r : Except AddError α} {o : Option α} (h : AgreesInBounds r o)
    (f : α → β) : AgreesInBounds (r.map f) (o.map f) := by
  cases r with
  | ok a => exact fun _ => congrArg (Option.map f) (h (by rintro ⟨⟩))
  | error e => exact fun hne => congrArg (Option.map f) (h fun he => hne (by cases he; rfl))

lemma AgreesInBounds.foldlM {f : α → β → Except AddError α} {g : α → β → Option α}
    (hstep : ∀ a b, AgreesInBounds (f a b) (g a b)) (l : List β) (a : α) :
    AgreesInBounds (l.foldlM f a) (l.foldlM g a) := by
  induction l generalizing a with
  | nil => exact fun _ => rfl
  | cons b l ih =>
    have hb := hstep a b
    rw [foldlM_cons, foldlM_cons]
    cases hf : f a b with
    | ok a' =>
      rw [hf] at hb
      rw [← hb (by rintro ⟨⟩)]
      exact ih a'
    | error e =>
      intro hne
      rw [hf] at hb
      rw [← hb fun he => hne (by cases he; rfl)]
      rfl

lemma addPathAt_agrees (edges : List (List E × ScheduleFragment)) (node : ScheduleTreeNode E) :
    AgreesInBounds (addPathAt T edges node) (addPath T edges node) := by
  induction edges generalizing node with
  | nil => exact fun _ => rfl
  | cons edge edges ih =>
    by_cases hin : EndsInside T node edge.1
    · exact fun hne => absurd (addEdgeAt_outOfBounds hin) hne
    · exact addEdgeAt_related (fun f h => h.map f) (fun _ => rfl) ih hin

/-- Where the code builds a tree without a read out of bounds, it is the tree of
`buildScheduleTree`, and a failed assertion fails there too. -/
lemma buildScheduleTreeAt_agrees (usedArrays : Nat → Bool) (schedules : List (CoveredSchedule E)) :
    AgreesInBounds (buildScheduleTreeAt T usedArrays schedules)
      (buildScheduleTree T usedArrays schedules) :=
  .foldlM (fun root _ => addPathAt_agrees _ root) schedules .leaf

/-! ## The pairs in the tree -/

lemma dropTrue_append (xs ys : List E) :
    dropTrue T (xs ++ ys) = dropTrue T xs ++ dropTrue T ys := filter_append _ _

lemma dropTrue_orTrue (xs : List E) : dropTrue T (orTrue T xs) = dropTrue T xs := by
  unfold orTrue
  split
  · rename_i h
    simp [h, dropTrue]
  · rfl

lemma pairs_leaf : pairs T (.leaf : ScheduleTreeNode E) = [] := rfl

variable {x : List E × ScheduleFragment} {f : ScheduleFragment}

lemma mem_pairs_some :
    x ∈ pairs T (.edge terms (some f) next others) ↔
      x = (dropTrue T terms, f) ∨ x ∈ pairs T others := mem_cons

lemma mem_pairs_none :
    x ∈ pairs T (.edge terms none next others) ↔
      (∃ y, y ∈ pairs T next ∧ x = (dropTrue T terms ++ y.1, y.2)) ∨ x ∈ pairs T others := by
  have hmap : pairs T (.edge terms none next others) =
      (pairs T next).map (fun y => (dropTrue T terms ++ y.1, y.2)) ++ pairs T others := by
    simp [pairs, paths, dropTrue_append]
  rw [hmap, mem_append, mem_map]
  simp only [eq_comm]

lemma mem_pairs_edge (others : ScheduleTreeNode E) :
    x ∈ pairs T (.edge terms frag next others) ↔
      x ∈ pairs T (.edge terms frag next .leaf) ∨ x ∈ pairs T others := by
  cases frag with
  | some f =>
    rw [mem_pairs_some, mem_pairs_some, pairs_leaf]
    simp
  | none =>
    rw [mem_pairs_none, mem_pairs_none, pairs_leaf]
    simp

lemma AddsEdge.pairs {rest : ScheduleTreeNode E → Option (ScheduleTreeNode E)}
    (h : AddsEdge T rest node terms schedfrag node') :
    (∀ x, x ∈ pairs T node' ↔ x ∈ pairs T node ∨ x = (dropTrue T terms, schedfrag)) ∨
    ((∀ x, x ∈ pairs T node' ↔ x ∈ pairs T node) ∧
      ∃ f, (dropTrue T terms, f) ∈ pairs T node ∧ schedfrag.same f = true) := by
  induction h with
  | fresh h =>
    left
    intro x
    rw [mem_pairs_some, or_comm]
  | @skip found f next others terms schedfrag n h ih =>
    rcases ih with ih | ⟨ih, f', hf, hs⟩
    · left
      intro x
      rw [mem_pairs_edge n, ih, mem_pairs_edge others, or_assoc]
    right
    refine ⟨fun x => ?_, f', (mem_pairs_edge others).2 (.inr hf), hs⟩
    rw [mem_pairs_edge n, ih, ← mem_pairs_edge]
  | same hs h => exact .inr ⟨fun x => Iff.rfl, _, mem_cons_self, hs⟩
  | into h ih =>
    rw [dropTrue_orTrue] at ih
    rw [dropTrue_append]
    rcases ih with ih | ⟨ih, f, hf, hs⟩
    · left
      intro x
      rw [mem_pairs_none, mem_pairs_none]
      simp only [ih, or_and_right, exists_or, exists_eq_left]
      exact or_right_comm
    · right
      refine ⟨fun x => ?_, f, mem_pairs_none.2 (.inl ⟨_, hf, rfl⟩), hs⟩
      rw [mem_pairs_none, mem_pairs_none]
      simp only [ih]
  | @split shared foundExtra f next others left schedfrag n hs hx h =>
    left
    intro x
    rw [mem_pairs_none, dropTrue_append]
    cases f with
    | some f =>
      simp only [mem_pairs_some, pairs_leaf, not_mem_nil, or_false, dropTrue_orTrue,
        or_and_right, exists_or, exists_eq_left, dropTrue_append]
      rw [or_assoc, or_comm]
    | none =>
      have hold : (∃ y, (∃ z, z ∈ ScheduleTreeNode.pairs T next ∧
            y = (dropTrue T foundExtra ++ z.1, z.2)) ∧ x = (dropTrue T shared ++ y.1, y.2)) ↔
          ∃ z, z ∈ ScheduleTreeNode.pairs T next ∧
            x = (dropTrue T shared ++ dropTrue T foundExtra ++ z.1, z.2) := by
        constructor
        · rintro ⟨y, ⟨z, hz, rfl⟩, rfl⟩
          exact ⟨z, hz, by rw [append_assoc]⟩
        · rintro ⟨z, hz, rfl⟩
          exact ⟨_, ⟨z, hz, rfl⟩, by rw [append_assoc]⟩
      simp only [mem_pairs_some, mem_pairs_none, pairs_leaf, not_mem_nil, or_false,
        dropTrue_orTrue, or_and_right, exists_or, exists_eq_left, dropTrue_append, hold]
      rw [or_assoc, or_comm]

lemma addEdge_none (h : addEdge T some node terms schedfrag = none) :
    ∃ f, (dropTrue T terms, f) ∈ pairs T node ∧ schedfrag.same f = false := by
  induction node generalizing terms with
  | leaf => cases h
  | edge found frag next others ihn iho =>
    rw [addEdge] at h
    split at h
    case h_1 =>
      obtain ⟨f, hf, hs⟩ := iho (Option.map_eq_none_iff.1 h)
      exact ⟨f, (mem_pairs_edge others).2 (.inr hf), hs⟩
    case h_2 shared foundExtra left _ hsplit =>
      obtain ⟨rfl, rfl⟩ := splitShared_eq hsplit
      split at h
      · rename_i f
        split at h
        · cases h
        · rename_i hs
          exact ⟨f, mem_cons_self, by simpa using hs⟩
      · obtain ⟨f, hf, hs⟩ := ihn (Option.map_eq_none_iff.1 h)
        rw [dropTrue_orTrue] at hf
        refine ⟨f, mem_pairs_none.2 (.inl ⟨_, hf, ?_⟩), hs⟩
        rw [← dropTrue_append, append_nil]
      · cases h

lemma addEdgeAt_assertFailed (h : addEdgeAt T .ok node terms schedfrag = .error .assertFailed) :
    ∃ f, (dropTrue T terms, f) ∈ pairs T node ∧ schedfrag.same f = false := by
  have hin : ¬ EndsInside T node terms := by
    intro he
    rw [addEdgeAt_outOfBounds he] at h
    cases h
  have hag := addEdgeAt_ok_agrees schedfrag hin
  rw [h] at hag
  exact addEdge_none hag.toOption.symm

/-! ## Sequences of calls -/

variable {calls : List (List E × ScheduleFragment)} {tree : ScheduleTreeNode E}

lemma addEdges_cons :
    addEdges T (call :: calls) node =
      match addEdgeAt T .ok node call.1 call.2 with
      | .ok n => addEdges T calls n
      | .error e => .error e := by
  unfold addEdges
  rw [foldlM_cons]
  cases addEdgeAt T .ok node call.1 call.2 <;> rfl

lemma addEdges_cons_ok (h : addEdges T (call :: calls) node = .ok tree) :
    ∃ n, addEdgeAt T .ok node call.1 call.2 = .ok n ∧ addEdges T calls n = .ok tree := by
  rw [addEdges_cons] at h
  split at h
  · exact ⟨_, by assumption, h⟩
  · cases h

def EqualFrag (f g : ScheduleFragment) : Prop := f = g ∨ f.same g = true

lemma addEdges_pairs (h : addEdges T calls node = .ok tree) :
    (∀ x, x ∈ pairs T tree → x ∈ pairs T node ∨ ∃ c, c ∈ calls ∧ x = (dropTrue T c.1, c.2)) ∧
    (∀ x, x ∈ pairs T node → x ∈ pairs T tree) ∧
    ∀ c, c ∈ calls → ∃ f, (dropTrue T c.1, f) ∈ pairs T tree ∧ EqualFrag c.2 f := by
  induction calls generalizing node with
  | nil =>
    cases h
    exact ⟨fun x hx => .inl hx, fun x hx => hx, by simp⟩
  | cons call calls ih =>
    obtain ⟨n, hn, hrest⟩ := addEdges_cons_ok h
    obtain ⟨h1, h2, h3⟩ := ih hrest
    have hstep := (addsEdge_of_addEdgeAt hn).pairs
    refine ⟨fun x hx => ?_, fun x hx => ?_, fun c hc => ?_⟩
    · rcases h1 x hx with hx | ⟨c, hc, rfl⟩
      · rcases hstep with hstep | ⟨hstep, -⟩
        · rcases (hstep x).1 hx with hx | rfl
          · exact .inl hx
          · exact .inr ⟨call, mem_cons_self, rfl⟩
        · exact .inl ((hstep x).1 hx)
      · exact .inr ⟨c, mem_cons_of_mem _ hc, rfl⟩
    · rcases hstep with hstep | ⟨hstep, -⟩
      · exact h2 x ((hstep x).2 (.inl hx))
      · exact h2 x ((hstep x).2 hx)
    · rcases mem_cons.1 hc with rfl | hc
      · rcases hstep with hstep | ⟨hstep, f, hf, hs⟩
        · exact ⟨c.2, h2 _ ((hstep _).2 (.inr rfl)), .inl rfl⟩
        · exact ⟨f, h2 _ ((hstep _).2 hf), .inr hs⟩
      · exact h3 c hc

lemma addEdges_inBounds {S : List E → Prop} (hb : Built T S node)
    (hne : ∀ c, c ∈ calls → c.1 ≠ []) (hS : ∀ c, c ∈ calls → ∀ l, S l → ¬ (c.1 <+: l ∧ c.1 ≠ l))
    (hpre : calls.Pairwise fun d c => ¬ (c.1 <+: d.1 ∧ c.1 ≠ d.1)) :
    addEdges T calls node ≠ .error .outOfBounds := by
  induction calls generalizing node S with
  | nil => exact nofun
  | cons call calls ih =>
    have hterms : orTrue T call.1 = call.1 := if_neg (hne call mem_cons_self)
    have hin : ¬ EndsInside T node call.1 := by
      rw [← hterms]
      intro he
      obtain ⟨l, hl, hp, hnl⟩ := hb.exists_of_endsInside he
      exact hS call mem_cons_self l hl ⟨hp, hnl⟩
    have hag := addEdgeAt_ok_agrees call.2 hin
    rw [pairwise_cons] at hpre
    rw [addEdges_cons]
    cases hadd : addEdgeAt T .ok node call.1 call.2 with
    | error e => exact fun he => hag.inBounds (hadd.trans (congrArg _ (Except.error.inj he)))
    | ok n =>
      refine ih (hb.addsEdge (addsEdge_of_addEdgeAt hadd) hterms.symm)
        (fun c hc => hne c (mem_cons_of_mem _ hc)) ?_ hpre.2
      rintro c hc l (hl | rfl)
      · exact hS c (mem_cons_of_mem _ hc) l hl
      · exact hpre.1 c hc

lemma addEdges_returns (hin : addEdges T calls node ≠ .error .outOfBounds)
    (hnode : ∀ x, x ∈ pairs T node → ∀ c, c ∈ calls → x.1 = dropTrue T c.1 → c.2.same x.2 = true)
    (hsame : calls.Pairwise fun d c => dropTrue T d.1 = dropTrue T c.1 → c.2.same d.2 = true) :
    ∃ tree, addEdges T calls node = .ok tree := by
  induction calls generalizing node with
  | nil => exact ⟨node, rfl⟩
  | cons call calls ih =>
    rw [pairwise_cons] at hsame
    rw [addEdges_cons] at hin ⊢
    cases hadd : addEdgeAt T .ok node call.1 call.2 with
    | error e =>
      cases e with
      | outOfBounds =>
        rw [hadd] at hin
        exact absurd rfl hin
      | assertFailed =>
        obtain ⟨f, hf, hs⟩ := addEdgeAt_assertFailed hadd
        have := hnode _ hf call mem_cons_self rfl
        rw [hs] at this
        cases this
    | ok n =>
      rw [hadd] at hin
      refine ih hin (fun x hx c hc heq => ?_) hsame.2
      have hx' : x ∈ pairs T node ∨ x = (dropTrue T call.1, call.2) := by
        rcases (addsEdge_of_addEdgeAt hadd).pairs with hstep | ⟨hstep, -⟩
        · exact (hstep x).1 hx
        · exact .inl ((hstep x).1 hx)
      rcases hx' with hx' | rfl
      · exact hnode x hx' c (mem_cons_of_mem _ hc) heq
      · exact hsame.1 c hc heq

lemma same_self (h : f.lastNodeId ≤ f.hbGraph.getMaxNodeId) : f.same f = true := by
  unfold ScheduleFragment.same HBGraph.equalRange
  simp only [ne_eq, not_true_eq_false, if_false]
  split
  · rfl
  have hlen : ((f.lastNodeId : Int) - f.firstNodeId + 1).toNat =
      f.lastNodeId + 1 - f.firstNodeId := by omega
  rw [hlen, if_neg (by omega)]
  simp

/-- Calls on one node with lists of at least one term, none a proper prefix of an earlier one:
no read is out of bounds; when the calls return, the pairs of the tree are the pairs that were
added, up to the code's equality of fragments; and when lists with the same terms carry the
same fragment, they return and the two sets are equal. -/
theorem addEdges_exact (T : TermTheory E) (calls : List (List E × ScheduleFragment))
    (hne : ∀ c, c ∈ calls → c.1 ≠ [])
    (hpre : calls.Pairwise fun d c => ¬ (c.1 <+: d.1 ∧ c.1 ≠ d.1)) :
    addEdges T calls .leaf ≠ .error .outOfBounds ∧
    (∀ tree, addEdges T calls .leaf = .ok tree →
      (∀ x, x ∈ pairs T tree → ∃ c, c ∈ calls ∧ x = (dropTrue T c.1, c.2)) ∧
      ∀ c, c ∈ calls → ∃ f, (dropTrue T c.1, f) ∈ pairs T tree ∧ EqualFrag c.2 f) ∧
    ((∀ c, c ∈ calls → c.2.lastNodeId ≤ c.2.hbGraph.getMaxNodeId) →
      (∀ c, c ∈ calls → ∀ d, d ∈ calls → dropTrue T c.1 = dropTrue T d.1 → c.2 = d.2) →
      ∃ tree, addEdges T calls .leaf = .ok tree ∧
        ∀ x, x ∈ pairs T tree ↔ ∃ c, c ∈ calls ∧ x = (dropTrue T c.1, c.2)) := by
  have hin : addEdges T calls .leaf ≠ .error .outOfBounds :=
    addEdges_inBounds (S := fun _ => False) trivial hne (fun _ _ _ h => h.elim) hpre
  have hpairs : ∀ tree, addEdges T calls .leaf = .ok tree →
      (∀ x, x ∈ pairs T tree → ∃ c, c ∈ calls ∧ x = (dropTrue T c.1, c.2)) ∧
      ∀ c, c ∈ calls → ∃ f, (dropTrue T c.1, f) ∈ pairs T tree ∧ EqualFrag c.2 f := by
    intro tree h
    obtain ⟨h1, -, h3⟩ := addEdges_pairs h
    exact ⟨fun x hx => (h1 x hx).resolve_left (by simp [pairs_leaf]), h3⟩
  refine ⟨hin, hpairs, fun hrange heq => ?_⟩
  obtain ⟨tree, htree⟩ : ∃ tree, addEdges T calls .leaf = .ok tree := by
    refine addEdges_returns hin (by simp [pairs_leaf]) ?_
    refine List.Pairwise.imp_of_mem (fun {d c} hd hc _ hdc => ?_) hpre
    rw [heq d hd c hc hdc]
    exact same_self (hrange c hc)
  obtain ⟨h1, h2⟩ := hpairs tree htree
  refine ⟨tree, htree, fun x => ⟨h1 x, ?_⟩⟩
  rintro ⟨c, hc, rfl⟩
  obtain ⟨f, hf, -⟩ := h2 c hc
  obtain ⟨d, hd, hfd⟩ := h1 _ hf
  rw [Prod.mk.injEq] at hfd
  rw [heq c hc d hd hfd.1, ← hfd.2]
  exact hf

/-- `addEdge` reads behind the end of a list of terms exactly when the new list ends strictly
inside an edge. -/
theorem addEdgeAt_outOfBounds_iff (T : TermTheory E) (tree : ScheduleTreeNode E) (terms : List E)
    (schedfrag : ScheduleFragment) :
    addEdgeAt T .ok tree terms schedfrag = .error .outOfBounds ↔ EndsInside T tree terms := by
  constructor
  · intro h
    by_contra hin
    exact (addEdgeAt_ok_agrees schedfrag hin).inBounds h
  · exact addEdgeAt_outOfBounds

end

/-! ## Terms that are numbers -/

def numberTerms : TermTheory Nat := ⟨0, fun es => 0 :: es, by simp⟩

def graphFragment (exitsProgram : Bool) : ScheduleFragment :=
  ⟨HBGraph.empty, 1, 0, fun _ => none, 0, 0, exitsProgram⟩

/-- The second list splits the first, the third goes on behind the second. -/
theorem addEdges_exact_numbers :
    ∃ tree, addEdges numberTerms
        [([1], graphFragment false), ([1, 2], graphFragment true), ([1, 2, 3], graphFragment false)]
        .leaf = .ok tree ∧
      ∀ x, x ∈ pairs numberTerms tree ↔ ∃ c, c ∈ [([1], graphFragment false),
        ([1, 2], graphFragment true), ([1, 2, 3], graphFragment false)] ∧
        x = (dropTrue numberTerms c.1, c.2) :=
  (addEdges_exact numberTerms _ (by simp) (by simp)).2.2 (by simp [graphFragment])
    (by simp [dropTrue, numberTerms])

/-- Three different lists, none a prefix of an earlier one. The second splits the edge of the first,
whose rest becomes `[true]`, and the third is taken for it. -/
theorem addEdges_rest_true :
    [([1], graphFragment false), ([1, 2], graphFragment false), ([1, 0], graphFragment true)].Pairwise
      (fun d c => d.1 ≠ c.1 ∧ ¬ (c.1 <+: d.1 ∧ c.1 ≠ d.1)) ∧
    addEdges numberTerms
        [([1], graphFragment false), ([1, 2], graphFragment false), ([1, 0], graphFragment true)]
        .leaf = .error .assertFailed :=
  ⟨by simp, rfl⟩

/-- A list is added, and then its first term alone. -/
theorem addEdgeAt_outOfBounds_prefix :
    ∃ tree, addEdges numberTerms [([1, 2], graphFragment false)] .leaf = .ok tree ∧
      addEdgeAt numberTerms .ok tree [1] (graphFragment false) = .error .outOfBounds :=
  ⟨_, rfl, rfl⟩

end ScheduleTreeNode

end InputCovSched
