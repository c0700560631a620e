import Mathlib.Data.Finset.Sort
import Mathlib.Data.List.TakeWhile

/-!
# A map whose keys are sets (`klee/Internal/ADT/MapOfSets.h`)

A trie over the elements of the sets in their order; a node that ends a set holds the value.
`findSubset` and `findSuperset` return a value that passes a predicate, at some set that is
contained in the given one or contains it.

`Node.Entry n set v`: the trie maps `set` to `v`. `insert` adds one entry (`entry_insert`), and
what the searches find is an entry. After any inserts they find what there is (`insertAll_spec`).
-/

namespace InputCovSched.Klee.MapOfSets

open Option

mutual

/-- `value` is there if the node is the end of a set. -/
inductive Node (K V : Type) where
  | mk (value : Option V) (children : Children K V)

/-- A `std::map` from elements to nodes, by increasing element. -/
inductive Children (K V : Type) where
  | nil
  | cons (key : K) (node : Node K V) (rest : Children K V)

end

variable {K V : Type} [LinearOrder K]

def Node.empty : Node K V := .mk none .nil

def Children.modify (key : K) (f : Node K V → Node K V) : Children K V → Children K V
  | .nil => .cons key (f .empty) .nil
  | .cons k n rest =>
    if key < k then .cons key (f .empty) (.cons k n rest)
    else if key = k then .cons k (f n) rest
    else .cons k n (rest.modify key f)

def Children.find? (key : K) : Children K V → Option (Node K V)
  | .nil => none
  | .cons k n rest => if key = k then some n else rest.find? key

def Node.insert (value : V) : List K → Node K V → Node K V
  | [], .mk _ children => .mk (some value) children
  | k :: set, .mk v children => .mk v (children.modify k (Node.insert value set))

def Node.lookup : List K → Node K V → Option V
  | [], .mk value _ => value
  | k :: set, .mk _ children => (children.find? k).bind (Node.lookup set)

mutual

def Node.findSubset (p : V → Bool) : Node K V → List K → Option V
  | .mk value children, set =>
    match value.filter p with
    | some v => some v
    | none => children.findSubset p set

/-- The loop over the children and the set side by side; both iterators go up only. -/
def Children.findSubset (p : V → Bool) : Children K V → List K → Option V
  | .nil, _ => none
  | .cons k n rest, set =>
    match set.dropWhile (· < k) with
    | [] => none
    | x :: xs =>
      if x = k then
        match n.findSubset p xs with
        | some v => some v
        | none => if xs.isEmpty then none else rest.findSubset p xs
      else rest.findSubset p (x :: xs)

end

mutual

def Node.findSuperset (p : V → Bool) : Node K V → List K → Option V
  | .mk value children, [] => (value.filter p).or (children.anySuperset p [])
  | .mk _ children, x :: xs => (children.anySuperset p (x :: xs)).or (children.atSuperset p x xs)

def Children.anySuperset (p : V → Bool) : Children K V → List K → Option V
  | .nil, _ => none
  | .cons _ n rest, set => (n.findSuperset p set).or (rest.anySuperset p set)

/-- Under the child of the first element, `kmid` in the source. -/
def Children.atSuperset (p : V → Bool) : Children K V → K → List K → Option V
  | .nil, _, _ => none
  | .cons k n rest, x, xs => if x = k then n.findSuperset p xs else rest.atSuperset p x xs

end

/-! ## Entries -/

def Children.Has (key : K) (node : Node K V) : Children K V → Prop
  | .nil => False
  | .cons k n rest => (key = k ∧ node = n) ∨ rest.Has key node

def Node.Entry : Node K V → List K → V → Prop
  | .mk value _, [], v => value = some v
  | .mk _ children, k :: set, v => ∃ n, children.Has k n ∧ n.Entry set v

variable {children : Children K V} {v : V} {set set' : List K} {n : Node K V} {k : K} {p : V → Bool}

lemma Children.has_modify (h : (children.modify key f).Has k node) :
    (k = key ∧ ∃ n, node = f n ∧ (n = .empty ∨ children.Has k n)) ∨ children.Has k node := by
  fun_induction Children.modify key f children with
  | case1 =>
    rcases h with ⟨rfl, rfl⟩ | h
    · exact .inl ⟨rfl, .empty, rfl, .inl rfl⟩
    · exact h.elim
  | case2 k' n rest _ =>
    rcases h with ⟨rfl, rfl⟩ | h
    · exact .inl ⟨rfl, .empty, rfl, .inl rfl⟩
    · exact .inr h
  | case3 n rest _ =>
    rcases h with ⟨rfl, rfl⟩ | h
    · exact .inl ⟨rfl, n, rfl, .inr (.inl ⟨rfl, rfl⟩)⟩
    · exact .inr (.inr h)
  | case4 k' n rest _ _ ih =>
    rcases h with h | h
    · exact .inr (.inl h)
    rcases ih h with ⟨rfl, m, rfl, hm⟩ | h
    · exact .inl ⟨rfl, m, rfl, hm.imp_right .inr⟩
    · exact .inr (.inr h)

omit [LinearOrder K] in
lemma not_entry_empty (set : List K) (v : V) : ¬ (Node.empty : Node K V).Entry set v := by
  cases set with
  | nil => exact nofun
  | cons k set => exact fun ⟨_, h, _⟩ => h

lemma entry_insert {value : V} (h : (n.insert value set).Entry set' v) :
    (set' = set ∧ v = value) ∨ n.Entry set' v := by
  induction set generalizing n set' with
  | nil =>
    obtain ⟨x, children⟩ := n
    cases set' with
    | nil => exact .inl ⟨rfl, (Option.some.inj h).symm⟩
    | cons k set' => exact .inr h
  | cons k set ih =>
    obtain ⟨x, children⟩ := n
    cases set' with
    | nil => exact .inr h
    | cons k' set' =>
      obtain ⟨m, hm, hentry⟩ := h
      rcases Children.has_modify hm with ⟨rfl, m', rfl, hm'⟩ | hold
      · rcases ih hentry with ⟨rfl, rfl⟩ | hentry'
        · exact .inl ⟨rfl, rfl⟩
        rcases hm' with rfl | hm'
        · exact (not_entry_empty _ _ hentry').elim
        · exact .inr ⟨m', hm', hentry'⟩
      · exact .inr ⟨m, hold, hentry⟩

lemma Children.has_of_find? (h : children.find? key = some node) : children.Has key node := by
  fun_induction Children.find? key children with
  | case1 => cases h
  | case2 n rest => exact .inl ⟨rfl, (Option.some.inj h).symm⟩
  | case3 k n rest _ ih => exact .inr (ih h)

lemma lookup_entry (h : n.lookup set = some v) : n.Entry set v := by
  induction set generalizing n with
  | nil =>
    obtain ⟨x, children⟩ := n
    exact h
  | cons k set ih =>
    obtain ⟨x, children⟩ := n
    obtain ⟨m, hm, hv⟩ := bind_eq_some_iff.1 h
    exact ⟨m, Children.has_of_find? hm, ih hv⟩

/-! Below a child, an element more is in the set. -/

def Children.SubsetEntry (p : V → Bool) (children : Children K V) (set : List K) (v : V) : Prop :=
  ∃ k n set', children.Has k n ∧ n.Entry set' v ∧ (∀ x ∈ k :: set', x ∈ set) ∧ p v = true

omit [LinearOrder K] in
lemma Children.SubsetEntry.cons (h : children.SubsetEntry p set v)
    (hset : ∀ x ∈ set, x ∈ set') : (Children.cons k n children).SubsetEntry p set' v := by
  obtain ⟨k', n', s, hhas, hentry, hsub, hp⟩ := h
  exact ⟨k', n', s, .inr hhas, hentry, fun x hx => hset x (hsub x hx), hp⟩

mutual

theorem Node.findSubset_entry (p : V → Bool) : (n : Node K V) → (set : List K) → {v : V} →
    n.findSubset p set = some v → ∃ set', n.Entry set' v ∧ (∀ x ∈ set', x ∈ set) ∧ p v = true
  | .mk value children, set, v, h => by
    rw [Node.findSubset] at h
    split at h
    · next u hu =>
      cases h
      obtain ⟨hval, hp⟩ := filter_eq_some_iff.1 hu
      exact ⟨[], hval, by simp, hp⟩
    · obtain ⟨k, m, set', hhas, hentry, hsub, hp⟩ := Children.findSubset_entry p children set h
      exact ⟨k :: set', ⟨m, hhas, hentry⟩, hsub, hp⟩

theorem Children.findSubset_entry (p : V → Bool) : (children : Children K V) → (set : List K) →
    {v : V} → children.findSubset p set = some v → children.SubsetEntry p set v
  | .nil, _, _, h => by cases h
  | .cons k n rest, set, v, h => by
    rw [Children.findSubset] at h
    split at h
    · cases h
    rename_i x xs hdrop
    have hset : ∀ y ∈ x :: xs, y ∈ set :=
      fun y hy => (List.dropWhile_suffix _).subset (hdrop ▸ hy)
    split at h
    · next hx =>
      subst hx
      split at h
      · next u hu =>
        cases h
        obtain ⟨set', hentry, hsub, hp⟩ := Node.findSubset_entry p n xs hu
        refine ⟨x, n, set', .inl ⟨rfl, rfl⟩, hentry, fun y hy => hset y ?_, hp⟩
        rcases List.mem_cons.1 hy with rfl | hy
        · exact .head _
        · exact .tail _ (hsub y hy)
      · split at h
        · cases h
        · exact (Children.findSubset_entry p rest xs h).cons fun y hy => hset y (.tail _ hy)
    · exact (Children.findSubset_entry p rest (x :: xs) h).cons hset

end

def Children.SupersetEntry (p : V → Bool) (children : Children K V) (set : List K) (v : V) : Prop :=
  ∃ k n set', children.Has k n ∧ n.Entry set' v ∧ (∀ x ∈ set, x ∈ k :: set') ∧ p v = true

omit [LinearOrder K] in
lemma Children.SupersetEntry.cons (h : children.SupersetEntry p set v) :
    (Children.cons k n children).SupersetEntry p set v := by
  obtain ⟨k', n', s, hhas, rest⟩ := h
  exact ⟨k', n', s, .inr hhas, rest⟩

mutual

theorem Node.findSuperset_entry (p : V → Bool) : (n : Node K V) → (set : List K) → {v : V} →
    n.findSuperset p set = some v → ∃ set', n.Entry set' v ∧ (∀ x ∈ set, x ∈ set') ∧ p v = true
  | .mk value children, [], v, h => by
    rw [Node.findSuperset] at h
    rcases or_eq_some_iff.1 h with h | ⟨-, h⟩
    · obtain ⟨hval, hp⟩ := filter_eq_some_iff.1 h
      exact ⟨[], hval, by simp, hp⟩
    · obtain ⟨k, m, set', hhas, hentry, hsub, hp⟩ := Children.anySuperset_entry p children [] h
      exact ⟨k :: set', ⟨m, hhas, hentry⟩, hsub, hp⟩
  | .mk value children, x :: xs, v, h => by
    rw [Node.findSuperset] at h
    have hentry : children.SupersetEntry p (x :: xs) v := by
      rcases or_eq_some_iff.1 h with h | ⟨-, h⟩
      · exact Children.anySuperset_entry p children (x :: xs) h
      · exact Children.atSuperset_entry p children x xs h
    obtain ⟨k, m, set', hhas, hentry, hsub, hp⟩ := hentry
    exact ⟨k :: set', ⟨m, hhas, hentry⟩, hsub, hp⟩

theorem Children.anySuperset_entry (p : V → Bool) : (children : Children K V) → (set : List K) →
    {v : V} → children.anySuperset p set = some v → children.SupersetEntry p set v
  | .nil, _, _, h => by cases h
  | .cons k n rest, set, v, h => by
    rw [Children.anySuperset] at h
    rcases or_eq_some_iff.1 h with h | ⟨-, h⟩
    · obtain ⟨set', hentry, hsub, hp⟩ := Node.findSuperset_entry p n set h
      exact ⟨k, n, set', .inl ⟨rfl, rfl⟩, hentry, fun x hx => .tail _ (hsub x hx), hp⟩
    · exact (Children.anySuperset_entry p rest set h).cons

theorem Children.atSuperset_entry (p : V → Bool) : (children : Children K V) → (x : K) →
    (xs : List K) → {v : V} → children.atSuperset p x xs = some v →
      children.SupersetEntry p (x :: xs) v
  | .nil, _, _, _, h => by cases h
  | .cons k n rest, x, xs, v, h => by
    rw [Children.atSuperset] at h
    split at h
    · next hx =>
      subst hx
      obtain ⟨set', hentry, hsub, hp⟩ := Node.findSuperset_entry p n xs h
      refine ⟨x, n, set', .inl ⟨rfl, rfl⟩, hentry, fun y hy => ?_, hp⟩
      rcases List.mem_cons.1 hy with rfl | hy
      · exact .head _
      · exact .tail _ (hsub y hy)
    · exact (Children.atSuperset_entry p rest x xs h).cons

end

/-! ## What a sequence of inserts leaves -/

mutual

def Node.Sorted : Node K V → Prop
  | .mk _ children => children.Sorted

def Children.Sorted : Children K V → Prop
  | .nil => True
  | .cons k n rest => (∀ k' m, rest.Has k' m → k < k') ∧ n.Sorted ∧ rest.Sorted

end

section
variable (h : children.Sorted)
include h

lemma sorted_modify (hf : ∀ n, n.Sorted → (f n).Sorted) : (children.modify key f).Sorted := by
  fun_induction Children.modify key f children with
  | case1 => exact ⟨nofun, hf _ trivial, trivial⟩
  | case2 k n rest hlt =>
    refine ⟨?_, hf _ trivial, h⟩
    rintro k' m (⟨rfl, -⟩ | hm)
    · exact hlt
    · exact hlt.trans (h.1 k' m hm)
  | case3 n rest _ => exact ⟨h.1, hf n h.2.1, h.2.2⟩
  | case4 k n rest hlt hne ih =>
    refine ⟨fun k' m hm => ?_, h.2.1, ih h.2.2⟩
    rcases Children.has_modify hm with ⟨rfl, -⟩ | hm
    · exact lt_of_le_of_ne (not_lt.1 hlt) (Ne.symm hne)
    · exact h.1 k' m hm

lemma find?_of_has (hn : children.Has k n) : children.find? k = some n ∧ n.Sorted := by
  fun_induction Children.find? k children with
  | case1 => exact hn.elim
  | case2 m rest =>
    rcases hn with ⟨-, rfl⟩ | hn
    · exact ⟨rfl, h.2.1⟩
    · exact (lt_irrefl _ (h.1 _ _ hn)).elim
  | case3 k' m rest hne ih => exact ih h.2.2 (hn.resolve_left fun heq => hne heq.1)

lemma find?_modify : (children.modify key f).find? k =
    if k = key then some (f ((children.find? key).getD .empty)) else children.find? k := by
  fun_induction Children.modify key f children with
  | case1 => simp [Children.find?]
  | case2 k' n rest hlt =>
    have hnone : (Children.cons k' n rest).find? key = none := by
      refine eq_none_iff_forall_ne_some.2 fun m hm => ?_
      rcases Children.has_of_find? hm with ⟨rfl, -⟩ | hm
      · exact lt_irrefl _ hlt
      · exact lt_asymm hlt (h.1 _ _ hm)
    rw [hnone, Children.find?]
    rfl
  | case3 n rest _ => by_cases hk : k = key <;> simp [Children.find?, hk]
  | case4 k' n rest _ hne ih =>
    by_cases hk : k = k'
    · simp [Children.find?, hk, Ne.symm hne]
    · simp [Children.find?, hk, hne, ih h.2.2]

end

lemma sorted_insert (h : n.Sorted) : (n.insert value set).Sorted := by
  induction set generalizing n with
  | nil =>
    cases n
    exact h
  | cons k set ih =>
    cases n
    exact sorted_modify h fun _ hn => ih hn

lemma lookup_empty : (Node.empty : Node K V).lookup set = none :=
  eq_none_iff_forall_ne_some.2 fun v hv => not_entry_empty set v (lookup_entry hv)

lemma lookup_insert (h : n.Sorted) :
    (n.insert value set).lookup set' = if set' = set then some value else n.lookup set' := by
  induction set generalizing n set' with
  | nil =>
    cases n
    cases set' <;> rfl
  | cons k set ih =>
    obtain ⟨x, children⟩ := n
    cases set' with
    | nil => rfl
    | cons k' set' =>
      rw [Node.insert, Node.lookup, find?_modify h, Node.lookup]
      by_cases hk : k' = k
      · subst hk
        cases hn : children.find? k' with
        | none => simp [ih (n := .empty) trivial, lookup_empty]
        | some n => simp [ih (find?_of_has h (Children.has_of_find? hn)).2]
      · simp [hk]

/-- An entry on an increasing path. -/
def Node.Stored (n : Node K V) (set : List K) (v : V) : Prop :=
  n.Sorted ∧ n.Entry set v ∧ set.Pairwise (· < ·)

namespace Node.Stored

lemma child (h : (Node.mk x children).Stored (k :: set) v) : ∃ m, children.Has k m ∧
    children.find? k = some m ∧ m.Stored set v ∧ ∀ y ∈ set, k < y := by
  obtain ⟨hsorted, ⟨m, hm, hentry⟩, hpath⟩ := h
  obtain ⟨hlt, hpath⟩ := List.pairwise_cons.1 hpath
  obtain ⟨hfind, hchild⟩ := find?_of_has hsorted hm
  exact ⟨m, hm, hfind, ⟨hchild, hentry, hpath⟩, hlt⟩

lemma lookup (h : n.Stored set v) : n.lookup set = some v := by
  induction set generalizing n with
  | nil =>
    cases n
    exact h.2.1
  | cons k set ih =>
    obtain ⟨x, children⟩ := n
    obtain ⟨m, -, hfind, hstored, -⟩ := h.child
    rw [Node.lookup, hfind]
    exact ih hstored

end Node.Stored

/-- The loop comes to the child `m` with all that is to be found below it. -/
lemma Children.findSubset_ne_none (hlt : ∀ y ∈ set', k < y)
    (hm : ∀ {set}, set.Pairwise (· < ·) → set' ⊆ set → m.findSubset p set ≠ none) :
    (children : Children K V) → (set : List K) → children.Sorted → set.Pairwise (· < ·) →
      children.Has k m → k ∈ set → set' ⊆ set → children.findSubset p set ≠ none
  | .nil, _, _, _, hhas, _, _ => hhas.elim
  | .cons k' n rest, set, h, hset, hhas, hk, hsub => by
    have hdrop := hset.sublist (List.dropWhile_sublist (· < k'))
    have hhead := List.head?_dropWhile_not (· < k') set
    have hmem : ∀ y ∈ set, k' ≤ y → y ∈ set.dropWhile (· < k') := by
      intro y hy hle
      rw [← List.takeWhile_append_dropWhile (l := set)] at hy
      refine (List.mem_append.1 hy).resolve_left fun htake => not_lt.2 hle ?_
      simpa using List.mem_takeWhile_imp htake
    rw [Children.findSubset]
    generalize set.dropWhile (· < k') = d at hdrop hhead hmem
    rcases hhas with ⟨rfl, rfl⟩ | hhas
    · obtain _ | ⟨x, xs⟩ := d
      · exact absurd (hmem k hk le_rfl) List.not_mem_nil
      -- the first element that is not below `k` is `k`
      have hx : k = x := by
        refine (List.mem_cons.1 (hmem k hk le_rfl)).resolve_right fun hin => ?_
        exact absurd (List.rel_of_pairwise_cons hdrop hin) (by simpa using hhead)
      subst hx
      obtain ⟨u, hu⟩ := ne_none_iff_exists'.1 (hm hdrop.of_cons fun y hy =>
        (List.mem_cons.1 (hmem y (hsub hy) (hlt y hy).le)).resolve_left (hlt y hy).ne')
      simp [hu]
    · have hk' := h.1 _ _ hhas
      have hnext := findSubset_ne_none hlt hm rest
      obtain _ | ⟨x, xs⟩ := d
      · exact absurd (hmem k hk hk'.le) List.not_mem_nil
      dsimp only
      split
      · next hx =>
        subst hx
        have htail : ∀ y ∈ set, x < y → y ∈ xs :=
          fun y hy hxy => (List.mem_cons.1 (hmem y hy hxy.le)).resolve_left hxy.ne'
        have hrest := hnext xs h.2.2 hdrop.of_cons hhas (htail k hk hk') fun y hy =>
          htail y (hsub hy) (hk'.trans (hlt y hy))
        split
        · exact some_ne_none _
        · rwa [if_neg (by simpa using List.ne_nil_of_mem (htail k hk hk'))]
      · exact hnext (x :: xs) h.2.2 hdrop hhas (hmem k hk hk'.le) fun y hy =>
          hmem y (hsub hy) (hk'.trans (hlt y hy)).le

lemma Children.anySuperset_ne_none (hm : m.findSuperset p set ≠ none) :
    (children : Children K V) → children.Has k m → children.anySuperset p set ≠ none
  | .nil, hhas => hhas.elim
  | .cons k n rest, hhas => by
    rw [Children.anySuperset, Ne, or_eq_none_iff]
    rcases hhas with ⟨rfl, rfl⟩ | hhas
    · exact fun h => hm h.1
    · exact fun h => anySuperset_ne_none hm rest hhas h.2

lemma Children.atSuperset_eq : (children : Children K V) → children.find? k = some m →
    children.atSuperset p k set = m.findSuperset p set
  | .nil, h => by cases h
  | .cons k' n rest, h => by
    rw [Children.find?] at h
    rw [Children.atSuperset]
    split at h
    · next hk => rw [if_pos hk, some.inj h]
    · next hk => rw [if_neg hk, atSuperset_eq rest h]

namespace Node.Stored

variable (h : n.Stored set' v) (hset : set.Pairwise (· < ·)) (hp : p v = true)
include h hset hp

lemma findSubset (hsub : set' ⊆ set) : n.findSubset p set ≠ none := by
  induction set' generalizing n set with
  | nil =>
    obtain ⟨x, children⟩ := n
    obtain ⟨-, rfl, -⟩ := h
    rw [Node.findSubset, filter_some_pos hp]
    exact some_ne_none v
  | cons k set' ih =>
    obtain ⟨x, children⟩ := n
    obtain ⟨m, hm, -, hstored, hlt⟩ := h.child
    obtain ⟨hk, hsub⟩ := List.cons_subset.1 hsub
    rw [Node.findSubset]
    split
    · exact some_ne_none _
    · exact Children.findSubset_ne_none hlt (ih hstored) children set h.1 hset hm hk hsub

lemma findSuperset (hsub : set ⊆ set') : n.findSuperset p set ≠ none := by
  induction set' generalizing n set with
  | nil =>
    obtain ⟨x, children⟩ := n
    obtain ⟨-, rfl, -⟩ := h
    rw [List.subset_nil.1 hsub, Node.findSuperset, filter_some_pos hp]
    exact some_ne_none v
  | cons k set' ih =>
    obtain ⟨x, children⟩ := n
    obtain ⟨m, hm, hfind, hstored, hlt⟩ := h.child
    cases set with
    | nil =>
      rw [Node.findSuperset, Ne, or_eq_none_iff]
      exact fun hnone =>
        Children.anySuperset_ne_none (ih hstored .nil (List.nil_subset _)) children hm hnone.2
    | cons y ys =>
      rw [Node.findSuperset, Ne, or_eq_none_iff]
      rintro ⟨hany, hat⟩
      obtain ⟨hy, hys⟩ := List.cons_subset.1 hsub
      obtain ⟨hlty, hset'⟩ := List.pairwise_cons.1 hset
      rcases List.mem_cons.1 hy with rfl | hy
      · rw [Children.atSuperset_eq children hfind] at hat
        exact ih hstored hset' (fun z hz =>
          (List.mem_cons.1 (hys hz)).resolve_left (hlty z hz).ne') hat
      · refine Children.anySuperset_ne_none (ih hstored hset (List.cons_subset.2 ⟨hy, ?_⟩)) children
          hm hany
        exact fun z hz =>
          (List.mem_cons.1 (hys hz)).resolve_left ((hlt y hy).trans (hlty z hz)).ne'

end Node.Stored

def path (set : Finset K) : List K := set.sort (· ≤ ·)

/-- The map after the inserts, of which the last one comes first. -/
def insertAll : List (Finset K × V) → Node K V
  | [] => .empty
  | (set, value) :: inserts => (insertAll inserts).insert value (path set)

variable (inserts : List (Finset K × V))

/-- What a search among the sets in `R` is to return. -/
def Finds (R : Finset K → Prop) (p : V → Bool) (res : Option V) : Prop :=
  (∀ v, res = some v → ∃ s, R s ∧ inserts.lookup s = some v ∧ p v = true) ∧
    ∀ s v, R s → inserts.lookup s = some v → p v = true → res ≠ none

lemma insertAll_sorted : (insertAll inserts).Sorted := by
  induction inserts with
  | nil => trivial
  | cons e inserts ih => exact sorted_insert ih

lemma lookup_insertAll (set : Finset K) :
    (insertAll inserts).lookup (path set) = inserts.lookup set := by
  induction inserts with
  | nil => exact lookup_empty
  | cons e inserts ih =>
    rw [insertAll, lookup_insert (insertAll_sorted inserts), ih, List.lookup_cons]
    by_cases hset : set = e.1
    · simp [hset]
    · have hpath : path set ≠ path e.1 := fun heq => hset (by
        rw [← set.sort_toFinset (· ≤ ·), ← path, heq, path, e.1.sort_toFinset])
      rw [if_neg hpath, beq_false_of_ne hset]

lemma stored_iff (s : Finset K) :
    (insertAll inserts).Stored (path s) v ↔ inserts.lookup s = some v := by
  rw [← lookup_insertAll]
  exact ⟨Node.Stored.lookup,
    fun h => ⟨insertAll_sorted inserts, lookup_entry h, s.sortedLT_sort.pairwise⟩⟩

lemma entry_insertAll (h : (insertAll inserts).Entry set' v) :
    ∃ s, set' = path s ∧ inserts.lookup s = some v := by
  have hpath : ∃ s, set' = path s := by
    induction inserts with
    | nil => exact (not_entry_empty _ _ h).elim
    | cons e inserts ih =>
      rcases entry_insert h with ⟨heq, -⟩ | h
      · exact ⟨e.1, heq⟩
      · exact ih h
  obtain ⟨s, rfl⟩ := hpath
  exact ⟨s, rfl, (stored_iff inserts s).1 ⟨insertAll_sorted inserts, h, s.sortedLT_sort.pairwise⟩⟩

lemma path_subset {s t : Finset K} : path s ⊆ path t ↔ s ⊆ t := by
  simp [path, List.subset_def, Finset.subset_iff]

/-- **Result.**  After any inserts, `lookup` returns the last value of the set, and each search
returns a value of a subset or superset that passes the predicate, if there is one. -/
theorem insertAll_spec (set : Finset K) (p : V → Bool) :
    (insertAll inserts).lookup (path set) = inserts.lookup set ∧
      Finds inserts (· ⊆ set) p ((insertAll inserts).findSubset p (path set)) ∧
      Finds inserts (set ⊆ ·) p ((insertAll inserts).findSuperset p (path set)) := by
  refine ⟨lookup_insertAll inserts set, ⟨fun v h => ?_, fun s v hs h hp => ?_⟩, fun v h => ?_,
    fun s v hs h hp => ?_⟩
  · obtain ⟨set', he, hsub, hp⟩ := Node.findSubset_entry p _ _ h
    obtain ⟨s, rfl, hv⟩ := entry_insertAll inserts he
    exact ⟨s, path_subset.1 fun x hx => hsub x hx, hv, hp⟩
  · exact ((stored_iff inserts s).2 h).findSubset set.sortedLT_sort.pairwise hp (path_subset.2 hs)
  · obtain ⟨set', he, hsub, hp⟩ := Node.findSuperset_entry p _ _ h
    obtain ⟨s, rfl, hv⟩ := entry_insertAll inserts he
    exact ⟨s, path_subset.1 fun x hx => hsub x hx, hv, hp⟩
  · exact ((stored_iff inserts s).2 h).findSuperset set.sortedLT_sort.pairwise hp (path_subset.2 hs)

end InputCovSched.Klee.MapOfSets
