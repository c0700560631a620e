import InputCovSched.Instr.ScheduleTree

/-!
# Where the constraints of a schedule stand in its tree

A constraint stands behind all used inputs up to its `currHbNodeId` exactly when those that no
constraint before it has asked for are of one thread (`partition_placed_iff`). The path that
the schedule has in the tree keeps that order (`follows_before_iff`), so the same holds for
the tree of the region (`placedInTree_iff`).
-/

namespace InputCovSched

open List

/-! ## Cutting -/

section
variable {g : HBGraph} {curr l t l' : Nat} {queue queue' : List Nat}

lemma not_le_of_head (hi : ∀ j ∈ queue, i < j) (hgt : ¬ i ≤ curr) :
    ∀ j ∈ i :: queue, ¬ j ≤ curr := by
  intro j hj
  rcases mem_cons.1 hj with rfl | hj
  · exact hgt
  · have := hi j hj
    omega

section
variable (h : takeInputs g curr l t queue = (l', queue')) (hs : queue.Pairwise (· < ·))
  (hl : ∀ i ∈ queue, l < i)
include h hs hl

lemma takeInputs_eq : queue' = queue.filter (l' < ·) ∧ (l' = l ∨ l' ∈ queue ∧ l' ≤ curr) := by
  induction queue generalizing l t with
  | nil =>
    obtain ⟨rfl, rfl⟩ := h
    exact ⟨rfl, .inl rfl⟩
  | cons i queue ih =>
    obtain ⟨hi, hs⟩ := pairwise_cons.1 hs
    have stop : (l, i :: queue) = (l', queue') →
        queue' = (i :: queue).filter (l' < ·) ∧ (l' = l ∨ l' ∈ i :: queue ∧ l' ≤ curr) := by
      intro h
      obtain ⟨rfl, rfl⟩ := Prod.mk.inj h
      exact ⟨(filter_eq_self.2 fun j hj => by simpa using hl j hj).symm, .inl rfl⟩
    rw [takeInputs] at h
    split at h
    case isFalse => exact stop h
    case isTrue hle =>
      split at h
      case isTrue => exact stop h
      case isFalse =>
        obtain ⟨hq, hl'⟩ := ih h hs hi
        have hil : i ≤ l' := by
          rcases hl' with rfl | ⟨hmem, _⟩
          · exact le_rfl
          · exact le_of_lt (hi _ hmem)
        refine ⟨?_, .inr ?_⟩
        · rw [filter_cons_of_neg (by simpa using hil)]
          exact hq
        · rcases hl' with rfl | ⟨hmem, hle'⟩
          · exact ⟨mem_cons_self, hle⟩
          · exact ⟨mem_cons_of_mem _ hmem, hle'⟩

lemma le_takeInputs : l ≤ l' := by
  rcases (takeInputs_eq h hs hl).2 with rfl | ⟨hmem, _⟩
  · exact le_rfl
  · exact le_of_lt (hl _ hmem)

lemma takeInputs_all_iff_of_tuid (h0 : l ≠ 0) :
    (∀ i ∈ queue, i ≤ curr → i ≤ l') ↔ ∀ i ∈ queue, i ≤ curr → g.tuidOf i = t := by
  induction queue generalizing l with
  | nil => simp
  | cons i queue ih =>
    obtain ⟨hi, hs'⟩ := pairwise_cons.1 hs
    have hli := hl i mem_cons_self
    rw [takeInputs] at h
    split at h
    case isFalse hgt =>
      -- the first input is behind `curr`, and so are the others
      have hnone := not_le_of_head hi hgt
      exact ⟨fun _ j hj hle => absurd hle (hnone j hj), fun _ j hj hle => absurd hle (hnone j hj)⟩
    case isTrue hle =>
      split at h
      case isTrue hne =>
        obtain ⟨rfl, -⟩ := Prod.mk.inj h
        refine ⟨fun hall => ?_, fun hall => ?_⟩
        · have := hall i mem_cons_self hle
          omega
        · exact absurd (hall i mem_cons_self hle) hne.2
      case isFalse hne =>
        have ht : g.tuidOf i = t := by
          by_contra hc
          exact hne ⟨h0, hc⟩
        rw [ht] at h
        have hil : i ≤ l' := le_takeInputs h hs' hi
        have ih := ih h hs' hi (by omega)
        simp only [forall_mem_cons, ih, hil, ht, implies_true, true_and]

end

lemma takeInputs_all_iff (h : takeInputs g curr 0 0 queue = (l', queue'))
    (hs : queue.Pairwise (· < ·)) (hl : ∀ i ∈ queue, 0 < i) :
    (∀ i ∈ queue, i ≤ curr → i ≤ l') ↔
      ∀ i ∈ queue, i ≤ curr → ∀ j ∈ queue, j ≤ curr → g.tuidOf i = g.tuidOf j := by
  cases queue with
  | nil => simp
  | cons i queue =>
    obtain ⟨hi, hs'⟩ := pairwise_cons.1 hs
    by_cases hle : i ≤ curr
    · rw [takeInputs, if_pos hle, if_neg (by simp)] at h
      have hpos : i ≠ 0 := Nat.pos_iff_ne_zero.1 (hl i mem_cons_self)
      have hil : i ≤ l' := le_takeInputs h hs' hi
      rw [forall_mem_cons, takeInputs_all_iff_of_tuid h hs' hi hpos]
      constructor
      · rintro ⟨-, hall⟩
        have hsame : ∀ j ∈ i :: queue, j ≤ curr → g.tuidOf j = g.tuidOf i :=
          forall_mem_cons.2 ⟨fun _ => rfl, hall⟩
        intro j hj hjc k hk hkc
        rw [hsame j hj hjc, hsame k hk hkc]
      · intro hall
        refine ⟨fun _ => hil, fun j hj hjc => ?_⟩
        exact hall j (mem_cons_of_mem _ hj) hjc i mem_cons_self hle
    · have hnone := not_le_of_head hi hle
      exact ⟨fun _ j hj hjc => absurd hjc (hnone j hj), fun _ j hj hjc => absurd hjc (hnone j hj)⟩

def OneThread (g : HBGraph) (used : List Nat) (m curr : Nat) : Prop :=
  ∀ i ∈ used, ∀ j ∈ used, m < i → i ≤ curr → m < j → j ≤ curr → g.tuidOf i = g.tuidOf j

instance (g : HBGraph) (used : List Nat) (m curr : Nat) : Decidable (OneThread g used m curr) :=
  inferInstanceAs (Decidable (∀ i ∈ used, ∀ j ∈ used, _))

variable {E : Type}

/-- Each input constraint finds inputs of one thread only: of the inputs up to its
`currHbNodeId`, those that are not up to `m` or to that of an input constraint before it. -/
def InputsOfOneThread (g : HBGraph) (used : List Nat) : Nat → List (Entry E) → Prop
  | _, [] => True
  | m, e :: es =>
    if e.fc ≠ .invariantInput then InputsOfOneThread g used m es
    else OneThread g used m e.currHbNodeId ∧ InputsOfOneThread g used (max m e.currHbNodeId) es

instance decidableInputsOfOneThread (g : HBGraph) (used : List Nat) :
    (m : Nat) → (es : List (Entry E)) → Decidable (InputsOfOneThread g used m es)
  | _, [] => .isTrue trivial
  | m, e :: es => by
    have := decidableInputsOfOneThread g used m es
    have := decidableInputsOfOneThread g used (max m e.currHbNodeId) es
    unfold InputsOfOneThread
    infer_instance

def Placed (used : List Nat) (segs : List (Segment E)) : Prop :=
  ∀ seg ∈ segs, ∀ c ∈ seg.constraints, ∀ i ∈ used, i ≤ c.currHbNodeId → i < seg.firstNodeId

variable {x : Bool} {es cm : List (Entry E)} {used : List Nat} {last : Nat}

lemma partition_head (g : HBGraph) (x : Bool) (es : List (Entry E)) (queue : List Nat)
    (last : Nat) (cm : List (Entry E)) : ∃ seg ∈ partition g x es queue last cm,
    seg.firstNodeId = last + 1 ∧ ∀ c ∈ cm, c ∈ seg.constraints := by
  induction es generalizing queue cm with
  | nil => exact ⟨_, mem_singleton.2 rfl, rfl, fun c hc => hc⟩
  | cons e es ih =>
    rw [partition]
    split
    · exact ih _ _
    dsimp only
    split
    · exact ⟨_, mem_cons_self, rfl, fun c hc => hc⟩
    · obtain ⟨seg, hseg, hfirst, hcm⟩ := ih _ (cm ++ [e])
      exact ⟨seg, hseg, hfirst, fun c hc => hcm c (mem_append_left _ hc)⟩

def cutAt (last l' : Nat) : Nat := if l' ≠ 0 then l' else last

lemma partition_cons_input (he : e.fc = .invariantInput)
    (h : takeInputs g e.currHbNodeId 0 0 queue = (l', queue')) :
    partition g x (e :: es) queue last cm =
      if l' ≠ 0 then
        ⟨cm, last + 1, l', false⟩ :: partition g x es queue' (cutAt last l') [e]
      else partition g x es queue' (cutAt last l') (cm ++ [e]) := by
  rw [partition, if_neg (not_not.2 he), h]
  dsimp only
  unfold cutAt
  split <;> rfl

section
variable (hs : used.Pairwise (· < ·)) (hpos : ∀ i ∈ used, 0 < i)
  (h : takeInputs g curr 0 0 (used.filter (last < ·)) = (l', queue'))
include hs hpos h

lemma lt_of_takeInputs : l' = 0 ∨ last < l' ∧ l' ≤ curr := by
  rcases (takeInputs_eq h (hs.filter _) fun i hi => hpos i (mem_filter.1 hi).1).2 with
    h0 | ⟨hmem, hle⟩
  · exact .inl h0
  · exact .inr ⟨by simpa using (mem_filter.1 hmem).2, hle⟩

lemma queue_cutAt : queue' = used.filter (cutAt last l' < ·) := by
  have hq := (takeInputs_eq h (hs.filter _) fun i hi => hpos i (mem_filter.1 hi).1).1
  rw [hq, filter_filter]
  refine filter_congr fun i hi => ?_
  have hi := hpos i hi
  have := lt_of_takeInputs hs hpos h
  unfold cutAt
  rw [← Bool.decide_and, decide_eq_decide]
  split <;> omega

lemma cutAt_all_iff (hm : last ≤ m) (hdone : ∀ i ∈ used, i ≤ m → i ≤ last) :
    (∀ i ∈ used, i ≤ max m curr → i ≤ cutAt last l') ↔ OneThread g used m curr := by
  have hl := lt_of_takeInputs hs hpos h
  have hlt : ∀ i ∈ used, (last < i ↔ m < i) := by
    intro i hi
    have := hdone i hi
    omega
  have hall := takeInputs_all_iff h (hs.filter _) fun i hi => hpos i (mem_filter.1 hi).1
  simp only [mem_filter, decide_eq_true_eq, and_imp] at hall
  have hcut : (∀ i ∈ used, i ≤ max m curr → i ≤ cutAt last l') ↔
      ∀ i ∈ used, last < i → i ≤ curr → i ≤ l' := by
    unfold cutAt
    refine forall₂_congr fun i hi => ?_
    have := hlt i hi
    split <;> omega
  rw [hcut, hall]
  constructor
  · intro hone i hi j hj hmi hic hmj hjc
    exact hone i hi ((hlt i hi).2 hmi) hic j hj ((hlt j hj).2 hmj) hjc
  · intro hone i hi hli hic j hj hlj hjc
    exact hone i hi j hj ((hlt i hi).1 hli) hic ((hlt j hj).1 hlj) hjc

end

lemma partition_constraints :
    (partition g x es queue last cm).flatMap Segment.constraints =
      cm ++ es.filter (·.fc = .invariantInput) := by
  induction es generalizing queue last cm with
  | nil => simp [partition]
  | cons e es ih =>
    by_cases he : e.fc = .invariantInput
    · rw [partition_cons_input he rfl]
      split <;> simp [ih, he]
    · rw [partition, if_pos he, ih]
      simp [he]

lemma partition_last : ((partition g x es queue last cm).map Segment.range).getLast?.map Prod.snd =
    some g.getMaxNodeId := by
  fun_induction partition g x es queue last cm with
  | case1 => rfl
  | case2 _ _ _ _ _ _ ih => exact ih
  | case3 => grind
  | case4 => assumption

section
variable (hs : used.Pairwise (· < ·)) (hpos : ∀ i ∈ used, 0 < i)
include hs hpos

lemma partition_ranges :
    Chain last ((partition g x es (used.filter (last < ·)) last cm).map Segment.range) ∧
    (∀ r ∈ (partition g x es (used.filter (last < ·)) last cm).map Segment.range, last < r.1) ∧
      ((partition g x es (used.filter (last < ·)) last cm).map Segment.range).Pairwise
        fun a b => a.2 < b.1 := by
  induction es generalizing last cm with
  | nil =>
    refine ⟨⟨rfl, trivial⟩, ?_, pairwise_singleton _ _⟩
    intro r hr
    obtain rfl := mem_singleton.1 hr
    exact Nat.lt_succ_self _
  | cons e es ih =>
    by_cases he : e.fc = .invariantInput
    · rcases ht : takeInputs g e.currHbNodeId 0 0 (used.filter (last < ·)) with ⟨l', queue'⟩
      rw [partition_cons_input he ht, queue_cutAt hs hpos ht]
      split
      · rename_i hl
        have hcut : cutAt last l' = l' := if_pos hl
        have hlt : last < l' := ((lt_of_takeInputs hs hpos ht).resolve_left hl).1
        rw [map_cons, hcut]
        obtain ⟨hchain, hbehind, hpair⟩ := @ih [e] l'
        refine ⟨⟨rfl, hchain⟩, forall_mem_cons.2 ⟨Nat.lt_succ_self _, fun r hr => ?_⟩,
          pairwise_cons.2 ⟨hbehind, hpair⟩⟩
        exact hlt.trans (hbehind r hr)
      · rename_i hl
        have hcut : cutAt last l' = last := if_neg hl
        rw [hcut]
        exact ih
    · rw [partition, if_pos he]
      exact ih

lemma partition_placed_iff (hm : last ≤ m) (hdone : ∀ i ∈ used, i ≤ m → i ≤ last)
    (hcm : ∀ c ∈ cm, c.currHbNodeId ≤ m) :
    Placed used (partition g x es (used.filter (last < ·)) last cm) ↔
      InputsOfOneThread g used m es := by
  have hwait : ∀ {last m : Nat} {cm : List (Entry E)}, (∀ i ∈ used, i ≤ m → i ≤ last) →
      (∀ c ∈ cm, c.currHbNodeId ≤ m) →
      ∀ c ∈ cm, ∀ i ∈ used, i ≤ c.currHbNodeId → i < last + 1 := by
    intro last m cm hdone hcm c hc i hi hic
    exact Nat.lt_succ_of_le (hdone i hi (hic.trans (hcm c hc)))
  induction es generalizing last cm m with
  | nil =>
    refine ⟨fun _ => trivial, fun _ seg hseg => ?_⟩
    obtain rfl := mem_singleton.1 hseg
    exact hwait hdone hcm
  | cons e es ih =>
    by_cases he : e.fc = .invariantInput
    · rcases ht : takeInputs g e.currHbNodeId 0 0 (used.filter (last < ·)) with ⟨l', queue'⟩
      have hall := cutAt_all_iff hs hpos ht hm hdone
      have hl := lt_of_takeInputs hs hpos ht
      have hcut : last ≤ cutAt last l' ∧ cutAt last l' ≤ max m e.currHbNodeId := by
        unfold cutAt
        split <;> omega
      have hrest : ∀ cm', e ∈ cm' → (∀ c ∈ cm', c.currHbNodeId ≤ max m e.currHbNodeId) →
          (Placed used (partition g x es (used.filter (cutAt last l' < ·)) (cutAt last l') cm') ↔
            OneThread g used m e.currHbNodeId ∧
              InputsOfOneThread g used (max m e.currHbNodeId) es) := by
        intro cm' hmem hcm'
        by_cases hone : OneThread g used m e.currHbNodeId
        · exact (ih hcut.2 (hall.2 hone) hcm').trans (and_iff_right hone).symm
        refine iff_of_false (fun hplaced => hone (hall.1 fun i hi him => ?_)) fun h => hone h.1
        -- `e` is on the next edge, whose fragment begins right behind the cut
        obtain ⟨seg, hseg, hfirst, hin⟩ := partition_head g x es _ _ cm'
        have hbefore := hplaced seg hseg e (hin e hmem) i hi
        have := hdone i hi
        omega
      rw [partition_cons_input he ht, queue_cutAt hs hpos ht, InputsOfOneThread,
        if_neg (not_not.2 he)]
      split
      · rw [← hrest [e] (mem_singleton.2 rfl) (by simp)]
        exact forall_mem_cons.trans (and_iff_right (hwait hdone hcm))
      refine hrest _ (by simp) ?_
      intro c hc
      rcases mem_append.1 hc with hc | hc
      · exact (hcm c hc).trans (le_max_left _ _)
      · obtain rfl := mem_singleton.1 hc
        exact le_max_right _ _
    · rw [partition, if_pos he, InputsOfOneThread, if_pos he]
      exact ih hm hdone hcm

end

end

/-! ## Both together -/

lemma usedInputs_pairwise (g : HBGraph) (usedArrays : Nat → Bool) :
    (g.usedInputs usedArrays).Pairwise (· < ·) :=
  List.Pairwise.filter _ pairwise_lt_range'

lemma usedInputs_pos {g : HBGraph} {usedArrays : Nat → Bool} {i : Nat}
    (hi : i ∈ g.usedInputs usedArrays) : 0 < i := by
  have := (mem_range'_1.1 (mem_filter.1 hi).1).1
  omega

section
variable {E : Type} {T : TermTheory E} {usedArrays : Nat → Bool}

section
variable (sched : CoveredSchedule E)
include sched

lemma segments_eq (usedArrays : Nat → Bool) :
    sched.segments usedArrays = partition sched.hbGraph sched.exitsProgram sched.inputConstraint.list
      ((sched.hbGraph.usedInputs usedArrays).filter (0 < ·)) 0 [] := by
  have hall : (sched.hbGraph.usedInputs usedArrays).filter (0 < ·) =
      sched.hbGraph.usedInputs usedArrays :=
    filter_eq_self.2 fun i hi => by simpa using usedInputs_pos hi
  rw [hall]
  rfl

lemma segments_chain :
    Chain 0 ((edgesOf T sched.hbGraph (sched.segments usedArrays)).map fun e => e.2.range) := by
  rw [edgesOf_ranges, segments_eq]
  exact (partition_ranges (usedInputs_pairwise _ _) fun i => usedInputs_pos).1

lemma segments_ascending (usedArrays : Nat → Bool) :
    ((sched.segments usedArrays).map Segment.range).Pairwise fun a b => a.2 < b.1 := by
  rw [segments_eq]
  exact (partition_ranges (usedInputs_pairwise _ _) fun i => usedInputs_pos).2.2

lemma segments_placed_iff :
    Placed (sched.hbGraph.usedInputs usedArrays) (sched.segments usedArrays) ↔
      InputsOfOneThread sched.hbGraph (sched.hbGraph.usedInputs usedArrays) 0
        sched.inputConstraint.list := by
  rw [segments_eq]
  exact partition_placed_iff (usedInputs_pairwise _ _) (fun i => usedInputs_pos) (Nat.le_refl 0)
    (fun i _ => id) (by simp)

end

/-- Every input constraint of the schedule is on an edge of the tree, and all used inputs up
to its `currHbNodeId` are in fragments before that edge. -/
def PlacedInTree (T : TermTheory E) (usedArrays : Nat → Bool) (tree : ScheduleTreeNode E)
    (sched : CoveredSchedule E) : Prop :=
  (sched.segments usedArrays).flatMap Segment.constraints =
      sched.inputConstraint.list.filter (·.fc = .invariantInput) ∧
    ∃ frags, tree.Follows T (edgesOf T sched.hbGraph (sched.segments usedArrays)) frags ∧
      ∀ k seg, (sched.segments usedArrays)[k]? = some seg → ∀ c ∈ seg.constraints,
        ∀ i ∈ sched.hbGraph.usedInputs usedArrays, i ≤ c.currHbNodeId →
          ∃ frag ∈ frags.take k, frag.firstNodeId ≤ i ∧ i ≤ frag.lastNodeId

variable {tree : ScheduleTreeNode E}

section
variable {sched : CoveredSchedule E} {frags : List ScheduleFragment}

section
variable (hf : tree.Follows T (edgesOf T sched.hbGraph (sched.segments usedArrays)) frags)
include hf

lemma follows_before_iff {k i : Nat}
    (hk : (sched.segments usedArrays)[k]? = some seg) (hi : 0 < i) :
    (∃ frag ∈ frags.take k, frag.firstNodeId ≤ i ∧ i ≤ frag.lastNodeId) ↔ i < seg.firstNodeId := by
  have hr := hf.ranges
  rw [edgesOf_ranges] at hr
  have hk' : (frags.map ScheduleFragment.range)[k]? = some seg.range := by
    rw [hr, List.getElem?_map, hk]
    rfl
  constructor
  · rintro ⟨frag, hmem, -, hle⟩
    have hasc := segments_ascending sched usedArrays
    rw [← hr] at hasc
    have hmem' : frag.range ∈ (frags.map ScheduleFragment.range).take k := by
      rw [← map_take]
      exact mem_map_of_mem hmem
    exact lt_of_le_of_lt hle (lt_of_mem_take hasc hk' hmem')
  · intro hlt
    have hc : Chain 0 (frags.map ScheduleFragment.range) := by
      rw [hr, ← edgesOf_ranges T sched.hbGraph]
      exact segments_chain sched
    obtain ⟨r, hmem, hb⟩ := hc.covers hk' hi hlt
    rw [← map_take] at hmem
    obtain ⟨frag, hfrag, rfl⟩ := mem_map.1 hmem
    exact ⟨frag, hfrag, hb⟩

lemma placedInTree_iff_of_follows :
    PlacedInTree T usedArrays tree sched ↔
      InputsOfOneThread sched.hbGraph (sched.hbGraph.usedInputs usedArrays) 0
        sched.inputConstraint.list := by
  rw [← segments_placed_iff]
  constructor
  · rintro ⟨-, frags, hf, hall⟩ seg hseg c hc i hi hic
    obtain ⟨k, hk⟩ := List.getElem?_of_mem hseg
    exact (follows_before_iff hf hk (usedInputs_pos hi)).1 (hall k seg hk c hc i hi hic)
  · intro hall
    refine ⟨?_, frags, hf, fun k seg hk c hc i hi hic => ?_⟩
    · rw [CoveredSchedule.segments, partition_constraints, nil_append]
    · exact (follows_before_iff hf hk (usedInputs_pos hi)).2
        (hall seg (mem_of_getElem? hk) c hc i hi hic)

end

end

lemma foldlM_addPath_follows [DecidableEq E] {schedules : List (CoveredSchedule E)}
    {root tree : ScheduleTreeNode E} (hroot : root.WF 0)
    (h : schedules.foldlM (fun root sched => ScheduleTreeNode.addPath T
      (edgesOf T sched.hbGraph (sched.segments usedArrays)) root) root = some tree) :
    (∀ edges frags, root.Follows T edges frags → tree.Follows T edges frags) ∧
      ∀ sched ∈ schedules, ∃ frags,
        tree.Follows T (edgesOf T sched.hbGraph (sched.segments usedArrays)) frags := by
  induction schedules generalizing root with
  | nil =>
    obtain rfl := Option.some.inj h
    exact ⟨fun _ _ => id, by simp⟩
  | cons sched schedules ih =>
    obtain ⟨node, hnode, h⟩ := Option.bind_eq_some_iff.1 h
    obtain ⟨hwf, frags, hf⟩ := ScheduleTreeNode.addPath_follows hnode hroot (segments_chain sched)
    obtain ⟨hkeep, hall⟩ := ih hwf h
    refine ⟨fun edges frags hf => ?_, forall_mem_cons.2 ⟨⟨frags, hkeep _ _ hf⟩, hall⟩⟩
    exact hkeep _ _ (ScheduleTreeNode.addPath_keeps hnode hf)

/-- In the tree of a region, the constraints of an explored schedule come behind the inputs
they know of exactly when each of them finds new inputs of one thread only. -/
theorem placedInTree_iff [DecidableEq E] {schedules : List (CoveredSchedule E)}
    {tree : ScheduleTreeNode E}
    (h : ScheduleTreeNode.buildScheduleTree T usedArrays schedules = some tree) :
    ∀ sched ∈ schedules, PlacedInTree T usedArrays tree sched ↔
      InputsOfOneThread sched.hbGraph (sched.hbGraph.usedInputs usedArrays) 0
        sched.inputConstraint.list := by
  intro sched hsched
  have hleaf : ScheduleTreeNode.WF 0 (.leaf : ScheduleTreeNode E) := trivial
  obtain ⟨frags, hf⟩ := (foldlM_addPath_follows hleaf h).2 sched hsched
  exact placedInTree_iff_of_follows hf

/-- The fragments on the path of an explored schedule follow each other without a gap and without
overlap, from its first node to its last. -/
theorem fragments_consecutive [DecidableEq E] {schedules : List (CoveredSchedule E)}
    (h : ScheduleTreeNode.buildScheduleTree T usedArrays schedules = some tree)
    (hsched : sched ∈ schedules) :
    ∃ frags, tree.Follows T (edgesOf T sched.hbGraph (sched.segments usedArrays)) frags ∧
      Chain 0 (frags.map (·.range)) ∧ (frags.map (·.range)).Pairwise (fun a b => a.2 < b.1) ∧
      (frags.map (·.range)).getLast?.map Prod.snd = some sched.hbGraph.getMaxNodeId := by
  have hleaf : ScheduleTreeNode.WF 0 (.leaf : ScheduleTreeNode E) := trivial
  obtain ⟨frags, hf⟩ := (foldlM_addPath_follows hleaf h).2 sched hsched
  refine ⟨frags, hf, ?_⟩
  rw [hf.ranges]
  refine ⟨segments_chain sched, ?_⟩
  rw [edgesOf_ranges]
  exact ⟨segments_ascending sched usedArrays, partition_last⟩

end

/-! ## Two threads that read an input each -/

/-- Terms that are their own summary; 0 is true. -/
def plainTerms : TermTheory Nat where
  trueExpr := 0
  summaryTerms := fun es => if es = [] then [0] else es
  summaryTerms_ne_nil := by
    intro es
    split
    · exact cons_ne_nil _ _
    · assumption

/-- Node 1 reads an input on thread `t`, node 2 on thread 2. -/
def twoReads (t : Nat) : HBGraph where
  nodes :=
    [⟨1, t, 0, some 7, []⟩, ⟨if t = 2 then 2 else 1, 2, 0, some 8, if t = 2 then [1] else []⟩]
  groupMap := fun _ => []
  threadOrders := fun _ => 0

def branchOnBoth (t : Nat) : CoveredSchedule Nat where
  inputConstraint := ⟨5, 5, [⟨.invariantInput, 5, 2⟩], []⟩
  hbGraph := twoReads t
  exitsProgram := false
  id := 1

theorem placedInTree_iff_branchOnBoth :
    ∃ tree, ScheduleTreeNode.buildScheduleTree plainTerms (fun _ => true) [branchOnBoth 2] =
        some tree ∧
      (PlacedInTree plainTerms (fun _ => true) tree (branchOnBoth 2) ↔
        InputsOfOneThread (twoReads 2) ((twoReads 2).usedInputs fun _ => true) 0
          (branchOnBoth 2).inputConstraint.list) ∧
      InputsOfOneThread (twoReads 2) ((twoReads 2).usedInputs fun _ => true) 0
        (branchOnBoth 2).inputConstraint.list := by
  refine ⟨_, rfl, ?_, by decide⟩
  have hbuild : ScheduleTreeNode.buildScheduleTree plainTerms (fun _ => true) [branchOnBoth 2] =
    some _ := rfl
  exact placedInTree_iff hbuild _ mem_cons_self

/-- After both reads, two branches of which the first is `cond`; the terms of an edge are in reverse
order. -/
def branchBefore (cond : Nat) : CoveredSchedule Nat :=
  { branchOnBoth 2 with
    inputConstraint := ⟨5, 5, [⟨.invariantInput, cond, 2⟩, ⟨.invariantInput, 5, 2⟩], []⟩ }

/-- The second schedule shares the first edge, and the next one is split for it. -/
theorem fragments_consecutive_branchBefore : ∃ tree,
    ScheduleTreeNode.buildScheduleTree plainTerms (fun _ => true) [branchBefore 6, branchBefore 7] =
      some tree ∧
    ∀ sched ∈ [branchBefore 6, branchBefore 7], ∃ frags,
      tree.Follows plainTerms (edgesOf plainTerms (twoReads 2) (sched.segments fun _ => true)) frags ∧
      (frags.map (·.range)).getLast?.map Prod.snd = some 2 := by
  have h : ScheduleTreeNode.buildScheduleTree plainTerms (fun _ => true)
    [branchBefore 6, branchBefore 7] = some _ := rfl
  refine ⟨_, h, forall_mem_cons.2 ⟨?_, forall_mem_singleton.2 ?_⟩⟩
  · obtain ⟨frags, hf, -, -, hlast⟩ := fragments_consecutive h mem_cons_self
    exact ⟨frags, hf, hlast⟩
  · obtain ⟨frags, hf, -, -, hlast⟩ := fragments_consecutive h (mem_cons_of_mem _ mem_cons_self)
    exact ⟨frags, hf, hlast⟩

/-- The branch on both inputs is tested before the fragment with the second one. -/
theorem branch_before_second_read :
    ∃ tree, ScheduleTreeNode.buildScheduleTree plainTerms (fun _ => true) [branchOnBoth 1] =
        some tree ∧ ¬ PlacedInTree plainTerms (fun _ => true) tree (branchOnBoth 1) := by
  refine ⟨_, rfl, ?_⟩
  rintro ⟨-, frags, hf, hall⟩
  have hseg : ((branchOnBoth 1).segments fun _ => true)[1]? =
    some ⟨[⟨.invariantInput, 5, 2⟩], 2, 2, false⟩ := rfl
  have hread := hall 1 _ hseg _ mem_cons_self 2 (by decide) (by decide)
  have hlt := (follows_before_iff hf hseg (by decide)).1 hread
  exact lt_irrefl 2 hlt

end InputCovSched
