import InputCovSched.Cloud9.PathSet

/-!
# Jobs as messages (`lib/Cloud9/Protocols.cpp`)

A path set is sent as a list of messages; the indices of a path are bits, eight to a byte, lowest
bit first. There is always one byte more than the full ones.

    a path set of a binary tree survives the message  (parse_serialize)
    another worker resolves the nodes that were sent  (transfer_settles)
-/

namespace InputCovSched

open List Option

structure PathData where
  length : Nat
  path : List (BitVec 8)

/-- `ExecutionPathSet_ExecutionPath`; `none` is an optional field that is not set. -/
structure PathMessage where
  parent : Option Nat
  parentPos : Option Nat
  data : PathData

/-! ## Bits -/

/-- `b |= (1 << r)` or `b &= ~(1 << r)` -/
def writeBit (x r : Nat) (b : BitVec 8) : BitVec 8 :=
  if x ≠ 0 then b ||| BitVec.twoPow 8 r else b &&& ~~~ BitVec.twoPow 8 r

def setBit (data : List (BitVec 8)) (j x : Nat) : List (BitVec 8) :=
  data.modify (j / 8) (writeBit x (j % 8))

/-- The loop over a path, from index `j` on. -/
def packFrom : List (BitVec 8) → Nat → List Nat → List (BitVec 8)
  | data, _, [] => data
  | data, j, x :: xs => packFrom (setBit data j x) (j + 1) xs

def pack (path : List Nat) : PathData :=
  ⟨path.length, packFrom (List.replicate (path.length / 8 + 1) 0) 0 path⟩

/-- The loop over `length` bits, from index `j` on; `none` is a read past the end. -/
def unpackFrom (pathBytes : List (BitVec 8)) : Nat → Nat → Option (List Nat)
  | _, 0 => some []
  | j, length + 1 => do
    let b ← pathBytes[j / 8]?
    let xs ← unpackFrom pathBytes (j + 1) length
    some ((if b &&& BitVec.twoPow 8 (j % 8) ≠ 0 then 1 else 0) :: xs)

def unpack (data : PathData) : Option (List Nat) := unpackFrom data.path 0 data.length

def bitAt (data : List (BitVec 8)) (k : Nat) : Bool := (data[k / 8]?.getD 0).getLsbD (k % 8)

lemma and_twoPow_ne_zero (b : BitVec 8) (hr : r < 8) :
    b &&& BitVec.twoPow 8 r ≠ 0 ↔ b.getLsbD r = true := by
  rw [BitVec.and_twoPow]
  cases b.getLsbD r with
  | false => simp
  | true =>
    simp only [if_true, iff_true]
    intro h
    have hbit := congrArg (fun x => BitVec.getLsbD x r) h
    simp [hr] at hbit

lemma getLsbD_writeBit (x : Nat) (b : BitVec 8) (hr' : r' < 8) :
    (writeBit x r b).getLsbD r' = if r' = r then decide (x ≠ 0) else b.getLsbD r' := by
  unfold writeBit
  by_cases hrr : r' = r
  · subst hrr
    by_cases hx : x = 0
    · simp [hx, hr']
    · simp [hx, hr']
  · by_cases hx : x = 0
    · simp [hx, hr', hrr]
    · simp [hx, hr', hrr]

lemma bitAt_setBit (hj : j / 8 < data.length) (x k : Nat) :
    bitAt (setBit data j x) k = if k = j then decide (x ≠ 0) else bitAt data k := by
  have hkj : k = j ↔ j / 8 = k / 8 ∧ k % 8 = j % 8 := by omega
  unfold bitAt setBit
  by_cases hbyte : j / 8 = k / 8
  · rw [hbyte] at hj ⊢
    rw [List.getElem?_modify_eq, List.getElem?_eq_getElem hj, Option.map_eq_map, Option.map_some,
      getD_some, getD_some, getLsbD_writeBit x _ (Nat.mod_lt k (by decide))]
    simp only [hkj, hbyte, true_and]
  · rw [if_neg (fun h => hbyte (hkj.1 h).1), List.getElem?_modify_ne _ _ hbyte]

lemma setBit_length (data : List (BitVec 8)) (j x : Nat) : (setBit data j x).length = data.length :=
  length_modify ..

lemma packFrom_length (data : List (BitVec 8)) (j : Nat) (xs : List Nat) :
    (packFrom data j xs).length = data.length := by
  induction xs generalizing data j with
  | nil => rfl
  | cons x xs ih => rw [packFrom, ih, setBit_length]

lemma bitAt_packFrom (hlen : j + xs.length ≤ 8 * data.length) (k : Nat) :
    bitAt (packFrom data j xs) k =
      if j ≤ k ∧ k < j + xs.length then decide (xs[k - j]? ≠ some 0) else bitAt data k := by
  induction xs generalizing data j with
  | nil =>
    rw [if_neg]
    · rfl
    · rw [length_nil]
      omega
  | cons x xs ih =>
    rw [length_cons] at hlen ⊢
    rw [packFrom, ih (by rw [setBit_length]; omega), bitAt_setBit (by omega)]
    rcases Nat.lt_trichotomy k j with hk | rfl | hk
    · rw [if_neg (by omega), if_neg (by omega), if_neg (by omega)]
    · simp
    obtain ⟨d, rfl⟩ : ∃ d, k = j + 1 + d := ⟨k - (j + 1), by omega⟩
    have hd : j + 1 + d - j = d + 1 := by omega
    by_cases hin : d < xs.length
    · rw [if_pos (by omega), if_pos (by omega), hd, List.getElem?_cons_succ, Nat.add_sub_cancel_left]
    · rw [if_neg (by omega), if_neg (by omega), if_neg (by omega)]

lemma unpackFrom_eq {bytes : List (BitVec 8)}
    (hlen : j + xs.length ≤ 8 * bytes.length) (hbinary : ∀ x ∈ xs, x < 2)
    (hbits : ∀ k x, xs[k]? = some x → bitAt bytes (j + k) = decide (x ≠ 0)) :
    unpackFrom bytes j xs.length = some xs := by
  induction xs generalizing j with
  | nil => rfl
  | cons x xs ih =>
    rw [length_cons] at hlen
    have hrest : unpackFrom bytes (j + 1) xs.length = some xs := by
      refine ih (by omega) (fun y hy => hbinary y (mem_cons_of_mem x hy)) fun k y hk => ?_
      have hbit := hbits (k + 1) y hk
      rw [← add_assoc, Nat.add_right_comm] at hbit
      exact hbit
    have hj : j / 8 < bytes.length := by omega
    have hfirst := hbits 0 x rfl
    rw [add_zero, bitAt, List.getElem?_eq_getElem hj, getD_some] at hfirst
    have hx := hbinary x mem_cons_self
    rw [length_cons, unpackFrom, List.getElem?_eq_getElem hj, hrest]
    simp only [bind_eq_bind, bind_some, and_twoPow_ne_zero _ (Nat.mod_lt j (by decide)),
      hfirst, decide_eq_true_eq, Option.some.injEq, List.cons.injEq, and_true]
    split <;> omega

/-- The indices of a binary tree are read as they were written. -/
lemma unpack_pack {path : List Nat} (hbinary : ∀ i ∈ path, i < 2) : unpack (pack path) = some path := by
  have hlen : 0 + path.length ≤ 8 * (List.replicate (path.length / 8 + 1) (0 : BitVec 8)).length := by
    rw [length_replicate]
    omega
  refine unpackFrom_eq ?_ hbinary fun k x hk => ?_
  · rw [pack, packFrom_length]
    exact hlen
  · have hlt : k < path.length := (List.getElem?_eq_some_iff.1 hk).1
    rw [pack, bitAt_packFrom hlen, if_pos (by omega), zero_add, Nat.sub_zero, hk]
    simp

/-! ## Path sets -/

/-- One round of the loop; the assertion says that the parent is in the map of the paths so far. -/
def serializePath (i : Nat) (p : ExecutionPath) : Option PathMessage :=
  match p.parent with
  | none => some ⟨none, none, pack p.path⟩
  | some q => if q < i then some ⟨some q, some p.parentIndex, pack p.path⟩ else none

def serializeFrom : Nat → List ExecutionPath → Option (List PathMessage)
  | _, [] => some []
  | i, p :: ps => do
    let m ← serializePath i p
    let ms ← serializeFrom (i + 1) ps
    some (m :: ms)

def serializeExecutionPathSet (paths : List ExecutionPath) : Option (List PathMessage) :=
  serializeFrom 0 paths

/-- One round of the loop, with `i` paths so far; `none` is `set->paths[parent]` past the end. -/
def parsePath (i : Nat) (m : PathMessage) : Option ExecutionPath := do
  let path ← unpack m.data
  match m.parent with
  | none => some ⟨path, none, 0⟩
  | some q => if q < i then some ⟨path, some q, m.parentPos.getD 0⟩ else none

def parseFrom : Nat → List PathMessage → Option (List ExecutionPath)
  | _, [] => some []
  | i, m :: ms => do
    let p ← parsePath i m
    let ps ← parseFrom (i + 1) ms
    some (p :: ps)

def parseExecutionPathSet (messages : List PathMessage) : Option (List ExecutionPath) :=
  parseFrom 0 messages

open ExecutionTree

lemma parsePath_serializePath (hparent : ParentFirst i p)
    (hbinary : ∀ x ∈ p.path, x < 2) : ∃ m, serializePath i p = some m ∧ parsePath i m = some p := by
  obtain ⟨path, parent, parentIndex⟩ := p
  cases parent with
  | none =>
    obtain rfl : parentIndex = 0 := hparent
    refine ⟨_, rfl, ?_⟩
    rw [parsePath, unpack_pack hbinary]
    rfl
  | some q =>
    have hq : q < i := hparent
    refine ⟨⟨some q, some parentIndex, pack path⟩, if_pos hq, ?_⟩
    rw [parsePath, unpack_pack hbinary]
    exact if_pos hq

lemma parseFrom_serializeFrom (hparent : ∀ (k : Nat) p, ps[k]? = some p → ParentFirst (i + k) p)
    (hbinary : ∀ p ∈ ps, ∀ x ∈ p.path, x < 2) :
    ∃ ms, serializeFrom i ps = some ms ∧ parseFrom i ms = some ps := by
  induction ps generalizing i with
  | nil => exact ⟨[], rfl, rfl⟩
  | cons p ps ih =>
    obtain ⟨m, hm, hp⟩ := parsePath_serializePath (hparent 0 p rfl) (hbinary p mem_cons_self)
    rw [add_zero] at hm hp
    have hrest : ∀ (k : Nat) q, ps[k]? = some q → ParentFirst (i + 1 + k) q := by
      intro k q hk
      have hq := hparent (k + 1) q hk
      rw [← add_assoc, Nat.add_right_comm] at hq
      exact hq
    obtain ⟨ms, hms, hps⟩ := ih hrest fun q hq => hbinary q (mem_cons_of_mem p hq)
    refine ⟨m :: ms, ?_, ?_⟩
    · rw [serializeFrom, hm, hms]
      rfl
    · rw [parseFrom, hp, hps]
      rfl

lemma parse_serialize {paths : List ExecutionPath} (hparents : ParentsFirst paths)
    (hbinary : ∀ p ∈ paths, ∀ x ∈ p.path, x < 2) :
    ∃ messages, serializeExecutionPathSet paths = some messages ∧
      parseExecutionPathSet messages = some paths := by
  refine parseFrom_serializeFrom (fun k p hk => ?_) hbinary
  rw [zero_add]
  exact hparents k p hk

/-! ## The transfer of jobs -/

def transfer (t : ExecutionTree) (fuel layer : Nat) (label : Nat → Nat) (nodes : List Nat) :
    Option ((Nat → Nat) × ExecutionTree × List Nat) := do
  let (label, paths) ← t.buildPathSet fuel label nodes
  let messages ← serializeExecutionPathSet paths
  let paths ← parseExecutionPathSet messages
  let (t, nodes) ← t.getNodes fuel layer paths
  some (label, t, nodes)

/-- The same nodes in the same order, and no label is left. -/
theorem transfer_settles (t : ExecutionTree) (label : Nat → Nat) (nodes : List Nat) (layer : Nat)
    (hwf : t.WellFormed) (hlabel : ∀ m, label m = 0) (hnodes : ∀ v ∈ nodes, ∃ is, t.At v is) :
    ∃ label' t', Settles (fun fuel => transfer t fuel layer label nodes) (some (label', t', nodes)) ∧
      (∀ m, label' m = 0) ∧ t'.WellFormed ∧ ∀ n is, t'.At n is ↔ t.At n is := by
  obtain ⟨label', paths, hbuild, hcleared, hparents, hleads⟩ := buildPathSet_settles hwf hlabel hnodes
  have hbinary : ∀ p ∈ paths, ∀ x ∈ p.path, x < 2 := by
    intro p hp x hx
    obtain ⟨k, hk, rfl⟩ := mem_iff_getElem.1 hp
    obtain ⟨base, hat, -⟩ := hleads.get hk (hleads.length_eq ▸ hk)
    exact hat.binary hwf x (mem_append_right _ hx)
  obtain ⟨messages, hser, hparse⟩ := parse_serialize hparents hbinary
  obtain ⟨t', hget, hkept⟩ := getNodes_settles hwf hleads layer
  refine ⟨label', t', ?_, hcleared, hkept.wellFormed, hkept.at_iff⟩
  refine hbuild.bind (F := fun fuel r => r.bind fun r => (serializeExecutionPathSet r.2).bind fun m =>
    (parseExecutionPathSet m).bind fun ps => (t.getNodes fuel layer ps).bind fun s =>
      some (r.1, s.1, s.2)) ?_
  simp only [bind_some, hser, hparse]
  exact hget.optionBind (.const _)

def smallTree : List GetNode := [⟨0, 0, 0⟩, ⟨0, 0, 1⟩, ⟨0, 1, 1⟩]

/-- A leaf, its parent, the root, the other child, and the leaf again. -/
theorem transfer_settles_small :
    ∃ t, Machine.runFrom grow ExecutionTree.new smallTree = some t ∧ ∃ label' t',
      Settles (fun fuel => transfer t fuel 0 (fun _ => 0) [3, 1, 0, 2, 3])
        (some (label', t', [3, 1, 0, 2, 3])) ∧
      (∀ m, label' m = 0) ∧ t'.WellFormed ∧ ∀ n is, t'.At n is ↔ t.At n is := by
  have hrun : ∃ t, Machine.runFrom grow ExecutionTree.new smallTree = some t ∧ t.At 0 [] ∧
      t.At 1 ([] ++ [0]) ∧ t.At 2 ([] ++ [1]) ∧ t.At 3 ([] ++ [0] ++ [1]) :=
    ⟨_, rfl, .root, .child .root rfl, .child .root rfl, .child (.child .root rfl) rfl⟩
  obtain ⟨t, ht, h0, h1, h2, h3⟩ := hrun
  have hwf : t.WellFormed := by
    refine wellFormed_of_grow ht ⟨⟨⟨[], .root⟩, by decide⟩, ⟨⟨[], .root⟩, by decide⟩, ?_, trivial⟩
    exact ⟨⟨[] ++ [0], .child .root rfl⟩, by decide⟩
  refine ⟨t, ht, transfer_settles t _ _ 0 hwf (fun _ => rfl) fun v hv => ?_⟩
  simp only [mem_cons, not_mem_nil, or_false] at hv
  rcases hv with rfl | rfl | rfl | rfl | rfl
  · exact ⟨_, h3⟩
  · exact ⟨_, h1⟩
  · exact ⟨_, h0⟩
  · exact ⟨_, h2⟩
  · exact ⟨_, h3⟩

end InputCovSched
