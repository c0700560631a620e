import InputCovSched.Lib.Fuel

/-!
# Iteration over a trace (`include/ics/ForkableTrace.h`)

A trace is a vector of nodes, each with a vector of entries; nodes may be empty. An iterator is a
node and an entry in it, and skips empty nodes in both directions.

    forwards, backwards and by index the entries of all nodes come out in order
      (forward_settles, backward_settles, getElementAt_eq)

`At blocks it p` says which entry an iterator stands at. Every position has one iterator, so the
comparisons with `begin()` and `end()` that stop the loops are exact.
-/

namespace InputCovSched

open List

namespace ForkableTrace

variable {T : Type}

/-! ## Iterators -/

/-- `elem` is 0 at the end of the trace. -/
structure Iterator where
  node : Nat
  elem : Nat
  deriving DecidableEq

section
variable (blocks : List (List T))

def block (n : Nat) : List T := blocks[n]?.getD []

/-- The loop of `skipForwardOverEmptyNodes`: the nodes from number `n` on are left. -/
def skipForward (n : Nat) : List (List T) → Nat
  | [] => n
  | b :: bs => if b.isEmpty then skipForward (n + 1) bs else n

def skipForwardOverEmptyNodes (n : Nat) : Iterator := ⟨skipForward n (blocks.drop n), 0⟩

/-- The loop of `skipBackwardOverEmptyNodes`. -/
def skipBackward : Nat → Nat
  | 0 => 0
  | n + 1 => if (block blocks (n + 1)).isEmpty then skipBackward n else n + 1

def skipBackwardOverEmptyNodes (n : Nat) : Iterator :=
  let m := skipBackward blocks n
  if (block blocks m).isEmpty then skipForwardOverEmptyNodes blocks m
  else ⟨m, (block blocks m).length - 1⟩

def makeFromBegin : Iterator := skipForwardOverEmptyNodes blocks 0

def makeFromEnd : Iterator := ⟨blocks.length, 0⟩

def deref (it : Iterator) : Option T := (block blocks it.node)[it.elem]?

def next (it : Iterator) : Iterator :=
  if it.elem + 1 < (block blocks it.node).length then ⟨it.node, it.elem + 1⟩
  else skipForwardOverEmptyNodes blocks (it.node + 1)

def prev (it : Iterator) : Option Iterator :=
  if it.node = blocks.length ∨ it.elem = 0 then
    if it.node = 0 then none else some (skipBackwardOverEmptyNodes blocks (it.node - 1))
  else some ⟨it.node, it.elem - 1⟩

/-- The loop from `begin()` to `end()`. -/
def forward : Nat → Iterator → Option (List T)
  | 0, _ => none
  | fuel + 1, it =>
    if it = makeFromEnd blocks then some []
    else do
      let x ← deref blocks it
      let xs ← forward fuel (next blocks it)
      some (x :: xs)

def backward : Nat → Iterator → Option (List T)
  | 0, _ => none
  | fuel + 1, it =>
    if it = makeFromBegin blocks then some []
    else do
      let it ← prev blocks it
      let x ← deref blocks it
      let xs ← backward fuel it
      some (x :: xs)

end

/-- `getElementAt`; `none` is past the last node. -/
def getElementAt : List (List T) → Nat → Option T
  | [], _ => none
  | b :: bs, idx => if idx < b.length then b[idx]? else getElementAt bs (idx - b.length)

lemma getElementAt_eq (blocks : List (List T)) (idx : Nat) :
    getElementAt blocks idx = blocks.flatten[idx]? := by
  induction blocks generalizing idx with
  | nil => rfl
  | cons b bs ih =>
    rw [getElementAt, flatten_cons]
    split
    · rename_i h
      rw [List.getElem?_append_left h]
    · rw [List.getElem?_append_right (by omega), ih]

/-! ## Positions -/

section
variable {blocks : List (List T)} {it : Iterator} {n p e : Nat}

def offset (blocks : List (List T)) (n : Nat) : Nat := (blocks.take n).flatten.length

lemma offset_succ (blocks : List (List T)) (n : Nat) :
    offset blocks (n + 1) = offset blocks n + (block blocks n).length := by
  unfold offset block
  rw [take_add_one, flatten_append, length_append]
  cases blocks[n]? <;> simp

lemma offset_of_empty (hnm : n ≤ m) (h : ∀ k, n ≤ k → k < m → block blocks k = []) :
    offset blocks m = offset blocks n := by
  induction m with
  | zero =>
    obtain rfl : n = 0 := by omega
    rfl
  | succ m ih =>
    rcases Nat.lt_or_eq_of_le hnm with hlt | rfl
    · rw [offset_succ, h m (by omega) (by omega), ih (by omega) fun k hk hkm => h k hk (by omega)]
      rfl
    · rfl

lemma offset_mono (hnm : n ≤ m) : offset blocks n ≤ offset blocks m := by
  induction m with
  | zero =>
    obtain rfl : n = 0 := by omega
    exact le_rfl
  | succ m ih =>
    rw [offset_succ]
    rcases Nat.lt_or_eq_of_le hnm with hlt | rfl
    · exact Nat.le_add_right_of_le (ih (by omega))
    · rw [offset_succ]

lemma offset_length : offset blocks blocks.length = blocks.flatten.length := by
  rw [offset, take_length]

lemma block_of_length_le (h : blocks.length ≤ n) : block blocks n = [] := by
  rw [block, List.getElem?_eq_none h]
  rfl

lemma lt_length_of_lt (he : e < (block blocks n).length) : n < blocks.length := by
  rcases lt_or_ge n blocks.length with h | h
  · exact h
  · rw [block_of_length_le h] at he
    cases he

lemma flatten_split (hn : n < blocks.length) :
    blocks.flatten = (blocks.take n).flatten ++ block blocks n ++ (blocks.drop (n + 1)).flatten := by
  have hblock : block blocks n = blocks[n] := by
    rw [block, List.getElem?_eq_getElem hn]
    rfl
  have hsplit : blocks = blocks.take n ++ blocks[n] :: blocks.drop (n + 1) := by
    rw [getElem_cons_drop, take_append_drop]
  rw [hblock]
  nth_rewrite 1 [hsplit]
  rw [flatten_append, flatten_cons, append_assoc]

lemma getElem?_flatten (he : e < (block blocks n).length) :
    blocks.flatten[offset blocks n + e]? = (block blocks n)[e]? := by
  rw [flatten_split (lt_length_of_lt he), append_assoc, List.getElem?_append_right (by unfold offset; omega),
    List.getElem?_append_left (by unfold offset; omega)]
  congr 1
  unfold offset
  omega

/-- The iterator stands at entry number `p`, or at the end. -/
inductive At (blocks : List (List T)) : Iterator → Nat → Prop
  | entry {n e : Nat} (he : e < (block blocks n).length) : At blocks ⟨n, e⟩ (offset blocks n + e)
  | last : At blocks (makeFromEnd blocks) blocks.flatten.length

lemma At.entry_lt (he : e < (block blocks n).length) :
    offset blocks n + e < blocks.flatten.length := by
  have hget := getElem?_flatten he
  rw [List.getElem?_eq_getElem he] at hget
  exact (List.getElem?_eq_some_iff.1 hget).1

lemma At.deref (h : At blocks it p) (hp : p < blocks.flatten.length) :
    ForkableTrace.deref blocks it = blocks.flatten[p]? := by
  cases h with
  | entry he => exact (getElem?_flatten he).symm
  | last => omega

lemma at_skipForward (hn : n ≤ blocks.length) :
    At blocks (skipForwardOverEmptyNodes blocks n) (offset blocks n) := by
  -- induction on the number of nodes that are left
  generalize hk : blocks.length - n = k
  induction k generalizing n with
  | zero =>
    obtain rfl : n = blocks.length := by omega
    have hit : skipForwardOverEmptyNodes blocks blocks.length = makeFromEnd blocks := by
      rw [skipForwardOverEmptyNodes, drop_length]
      rfl
    rw [hit, offset_length]
    exact .last
  | succ k ih =>
    have hlt : n < blocks.length := by omega
    have hblock : block blocks n = blocks[n] := by
      rw [block, List.getElem?_eq_getElem hlt]
      rfl
    rw [skipForwardOverEmptyNodes, drop_eq_getElem_cons hlt, skipForward, ← hblock]
    split
    · rename_i hempty
      have hrest := ih (n := n + 1) (by omega) (by omega)
      rw [offset_succ, isEmpty_iff.1 hempty] at hrest
      exact hrest
    rename_i hempty
    have hpos : 0 < (block blocks n).length := by
      rw [length_pos_iff]
      exact fun h => hempty (isEmpty_iff.2 h)
    exact .entry hpos

lemma at_begin : At blocks (makeFromBegin blocks) 0 := at_skipForward (Nat.zero_le _)

lemma At.next (h : At blocks it p) (hp : p < blocks.flatten.length) :
    At blocks (ForkableTrace.next blocks it) (p + 1) := by
  cases h with
  | @entry n e he =>
    unfold ForkableTrace.next
    split
    · rename_i hmore
      exact .entry hmore
    rename_i hmore
    have hat := at_skipForward (Nat.succ_le_of_lt (lt_length_of_lt he))
    rw [offset_succ] at hat
    have heq : (block blocks n).length = e + 1 := by
      dsimp only at hmore
      omega
    rw [heq] at hat
    exact hat
  | last => omega

lemma skipBackward_spec (blocks : List (List T)) (n : Nat) :
    skipBackward blocks n ≤ n ∧ (∀ k, skipBackward blocks n < k → k ≤ n → block blocks k = []) ∧
      (block blocks (skipBackward blocks n) ≠ [] ∨ skipBackward blocks n = 0) := by
  induction n with
  | zero => exact ⟨le_rfl, fun k hk hk' => absurd hk (by omega), .inr rfl⟩
  | succ n ih =>
    rw [skipBackward]
    split
    · rename_i hempty
      obtain ⟨hle, hskipped, hend⟩ := ih
      refine ⟨by omega, fun k hk hkn => ?_, hend⟩
      rcases Nat.lt_or_eq_of_le hkn with hlt | rfl
      · exact hskipped k hk (by omega)
      · exact isEmpty_iff.1 hempty
    · rename_i hempty
      refine ⟨le_rfl, fun k hk hk' => absurd hk (by omega), .inl ?_⟩
      exact fun h => hempty (isEmpty_iff.2 h)

lemma at_skipBackward (hpos : 0 < offset blocks (n + 1)) :
    At blocks (skipBackwardOverEmptyNodes blocks n) (offset blocks (n + 1) - 1) ∧
      block blocks (skipBackward blocks n) ≠ [] := by
  obtain ⟨hle, hskipped, hend⟩ := skipBackward_spec blocks n
  have hoff : offset blocks (n + 1) = offset blocks (skipBackward blocks n + 1) :=
    offset_of_empty (by omega) fun k hk hkn => hskipped k (by omega) (by omega)
  have hne : block blocks (skipBackward blocks n) ≠ [] := by
    rcases hend with h | h
    · exact h
    intro hnil
    rw [hoff, offset_succ, hnil, h] at hpos
    exact absurd hpos (lt_irrefl 0)
  have hlen : 0 < (block blocks (skipBackward blocks n)).length := length_pos_iff.2 hne
  refine ⟨?_, hne⟩
  unfold skipBackwardOverEmptyNodes
  rw [if_neg fun h => hne (isEmpty_iff.1 h), hoff, offset_succ]
  have hat : At blocks ⟨skipBackward blocks n, (block blocks (skipBackward blocks n)).length - 1⟩ _ :=
    .entry (by omega)
  have heq : offset blocks (skipBackward blocks n) + (block blocks (skipBackward blocks n)).length - 1 =
      offset blocks (skipBackward blocks n) + ((block blocks (skipBackward blocks n)).length - 1) := by
    omega
  rw [heq]
  exact hat

lemma At.prev (h : At blocks it p) (hp : 0 < p) :
    ∃ it', ForkableTrace.prev blocks it = some it' ∧ At blocks it' (p - 1) := by
  unfold ForkableTrace.prev
  cases h with
  | @entry n e he =>
    split
    · rename_i hfirst
      have hn : n ≠ blocks.length := ne_of_lt (lt_length_of_lt he)
      obtain rfl : e = 0 := hfirst.resolve_left hn
      obtain ⟨n, rfl⟩ : ∃ k, n = k + 1 := by
        cases n with
        | zero => exact absurd hp (by simp [offset])
        | succ k => exact ⟨k, rfl⟩
      exact ⟨_, rfl, (at_skipBackward hp).1⟩
    · rename_i hinner
      have he0 : e ≠ 0 := fun h => hinner (.inr h)
      refine ⟨_, rfl, ?_⟩
      have hat : At blocks ⟨n, e - 1⟩ _ := .entry (by omega)
      have heq : offset blocks n + e - 1 = offset blocks n + (e - 1) := by omega
      rw [heq]
      exact hat
  | last =>
    have hend : (makeFromEnd blocks).node = blocks.length := rfl
    rw [if_pos (.inl hend)]
    obtain ⟨k, hk⟩ : ∃ k, blocks.length = k + 1 := by
      cases blocks with
      | nil => exact absurd hp (by simp)
      | cons b bs => exact ⟨bs.length, rfl⟩
    rw [← offset_length, hk] at hp ⊢
    rw [hend.trans hk, if_neg (Nat.succ_ne_zero k), Nat.add_sub_cancel]
    exact ⟨_, rfl, (at_skipBackward hp).1⟩

lemma entry_lt_entry (he : e < (block blocks n).length) (hnm : n < m) (e' : Nat) :
    offset blocks n + e < offset blocks m + e' := by
  have hle : offset blocks (n + 1) ≤ offset blocks m := offset_mono hnm
  rw [offset_succ] at hle
  omega

section
variable (h : At blocks it p)
include h

lemma At.unique (h' : At blocks it' p) : it = it' := by
  generalize hq : p = q at h'
  cases h with
  | @entry n e he =>
    cases h' with
    | @entry n' e' he' =>
      rcases Nat.lt_trichotomy n n' with hlt | rfl | hgt
      · have := entry_lt_entry he hlt e'
        omega
      · obtain rfl : e = e' := by omega
        rfl
      · have := entry_lt_entry he' hgt e
        omega
    | last =>
      have := At.entry_lt he
      omega
  | last =>
    cases h' with
    | @entry n' e' he' =>
      have := At.entry_lt he'
      omega
    | last => rfl

lemma At.functional (h' : At blocks it p') : p = p' := by
  generalize hit : it = it' at h'
  cases h with
  | @entry n e he =>
    cases h' with
    | entry he' =>
      cases hit
      rfl
    | last =>
      cases hit
      exact absurd (lt_length_of_lt he) (lt_irrefl _)
  | last =>
    cases h' with
    | @entry n' e' he' =>
      cases hit
      exact absurd (lt_length_of_lt he') (lt_irrefl _)
    | last => rfl

lemma At.eq_end_iff : it = makeFromEnd blocks ↔ p = blocks.flatten.length := by
  constructor
  · rintro rfl
    exact h.functional .last
  · rintro rfl
    exact h.unique .last

lemma At.eq_begin_iff : it = makeFromBegin blocks ↔ p = 0 := by
  constructor
  · rintro rfl
    exact h.functional at_begin
  · rintro rfl
    exact h.unique at_begin

lemma At.le : p ≤ blocks.flatten.length := by
  cases h with
  | entry he => exact le_of_lt (At.entry_lt he)
  | last => exact le_rfl

lemma At.forward :
    Settles (fun fuel => ForkableTrace.forward blocks fuel it) (some (blocks.flatten.drop p)) := by
  generalize hk : blocks.flatten.length - p = k
  induction k generalizing it p with
  | zero =>
    have hp : p = blocks.flatten.length := by
      have := h.le
      omega
    rw [hp, drop_length]
    refine (Settles.const (some [])).step fun fuel => ?_
    rw [ForkableTrace.forward, if_pos (h.eq_end_iff.2 hp)]
  | succ k ih =>
    have hp : p < blocks.flatten.length := by omega
    have hrest := ih (h.next hp) (by omega)
    rw [drop_eq_getElem_cons hp]
    refine (hrest.optionBind (F := fun _ xs => some (blocks.flatten[p] :: xs)) (.const _)).step
      fun fuel => ?_
    rw [ForkableTrace.forward, if_neg fun hend => ne_of_lt hp (h.eq_end_iff.1 hend), h.deref hp,
      List.getElem?_eq_getElem hp]
    rfl

lemma At.backward :
    Settles (fun fuel => ForkableTrace.backward blocks fuel it)
      (some (blocks.flatten.take p).reverse) := by
  induction p generalizing it with
  | zero =>
    refine (Settles.const (some [])).step fun fuel => ?_
    rw [ForkableTrace.backward, if_pos (h.eq_begin_iff.2 rfl)]
  | succ p ih =>
    obtain ⟨it', hprev, hat⟩ := h.prev (Nat.succ_pos p)
    have hp : p < blocks.flatten.length := h.le
    rw [← take_append_getElem hp, reverse_append]
    refine ((ih hat).optionBind (F := fun _ xs => some (blocks.flatten[p] :: xs)) (.const _)).step
      fun fuel => ?_
    rw [ForkableTrace.backward, if_neg fun hbegin => Nat.succ_ne_zero p (h.eq_begin_iff.1 hbegin),
      hprev, Option.bind_eq_bind, Option.bind_some, hat.deref hp, Nat.add_sub_cancel,
      List.getElem?_eq_getElem hp]
    rfl

end

lemma forward_settles (blocks : List (List T)) :
    Settles (fun fuel => forward blocks fuel (makeFromBegin blocks)) (some blocks.flatten) :=
  at_begin.forward

lemma backward_settles (blocks : List (List T)) :
    Settles (fun fuel => backward blocks fuel (makeFromEnd blocks)) (some blocks.flatten.reverse) := by
  have h := At.backward (.last : At blocks _ _)
  rw [take_length] at h
  exact h

end

end ForkableTrace

end InputCovSched
