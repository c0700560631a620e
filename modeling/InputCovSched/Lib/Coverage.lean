import Mathlib.Data.Set.Basic

/-!
# Covering a space with a worklist of sets

A search takes a set `F` off its worklist and visits one point of it. The visit ends with a set `L`
that is done, and it knows a descending path of sets from the whole space to `L`; for each set on
the path, the points that leave the path below it are in one of the flips.

`Covers` is what makes leaving out a set safe: each of its points is done, or in a set on the
worklist that lies *within* the one that is left out. It is stable if the flips of every visit lie
within `F` or apart from it (`Visit.covers`).
-/

namespace Coverage

variable {I : Type}

/-- Every point of `A` in `S` is done or in a set on the worklist within `S`; `B` is the part of
the space that counts for "within". -/
def Covers (A B done : Set I) (work : Set (Set I)) (S : Set I) : Prop :=
  ∀ y ∈ A, y ∈ S → y ∈ done ∨ ∃ Z ∈ work, y ∈ Z ∧ Z ∩ B ⊆ S

lemma Covers.mono {A A' B done : Set I} {work : Set (Set I)}
    (h : Covers A B done work S) (hA : A' ⊆ A) : Covers A' B done work S :=
  fun y hy => h y (hA hy)

/-- A visit of `x` from the set `F`, with the sets on its path and its flips. -/
structure Visit (A B done done' : Set I) (work work' : Set (Set I)) (F L : Set I) (x : I)
    (path flips : Set (Set I)) : Prop where
  mem_base : x ∈ B
  mem_root : x ∈ F
  mem_path : ∀ p ∈ path, x ∈ p
  not_mem_flip : ∀ G ∈ flips, x ∉ G
  univ_mem : Set.univ ∈ path
  exhaustive : ∀ p ∈ path, ∀ y ∈ A, y ∈ p → y ∈ L ∨ ∃ G ∈ flips, y ∈ G ∧ G ⊆ p
  compatible : ∀ G ∈ flips, G ∩ B ⊆ F ∨ ∀ y ∈ A, y ∈ G → y ∉ F
  done_subset : done ⊆ done'
  subset_done : L ⊆ done'
  kept : ∀ Z ∈ work, Z ∈ work' ∨ Z ⊆ done' ∨ Z = F ∨ Z ∈ path
  pushed : ∀ G ∈ flips, G ∈ work' ∨ G ⊆ done' ∨ Covers A B done work G

namespace Visit

variable {A B done done' F L : Set I} {work work' path flips : Set (Set I)} {x : I}

section
variable (h : Visit A B done done' work work' F L x path flips)
include h

lemma covers_flip (hG : G ∈ flips) : Covers A B done' work' G := by
  intro y hy hyG
  rcases h.pushed G hG with hw | hd | hc
  · exact .inr ⟨G, hw, hyG, Set.inter_subset_left⟩
  · exact .inl (hd hyG)
  rcases hc y hy hyG with hyd | ⟨Z, hZ, hyZ, hsub⟩
  · exact .inl (h.done_subset hyd)
  -- a set that the visit took off the worklist has `x` in it, and the flip has not
  have hx : x ∉ Z := fun hxZ => h.not_mem_flip G hG (hsub ⟨hxZ, h.mem_base⟩)
  rcases h.kept Z hZ with hw | hd | rfl | hp
  · exact .inr ⟨Z, hw, hyZ, hsub⟩
  · exact .inl (hd hyZ)
  · exact absurd h.mem_root hx
  · exact absurd (h.mem_path Z hp) hx

lemma covers_path (hp : p ∈ path) : Covers A B done' work' p := by
  intro y hy hyp
  rcases h.exhaustive p hp y hy hyp with hL | ⟨G, hG, hyG, hsub⟩
  · exact .inl (h.subset_done hL)
  rcases h.covers_flip hG y hy hyG with hd | ⟨Z, hZ, hyZ, hZG⟩
  · exact .inl hd
  · exact .inr ⟨Z, hZ, hyZ, hZG.trans hsub⟩

lemma covers (hS : Covers A B done work S) : Covers A B done' work' S := by
  intro y hy hyS
  rcases hS y hy hyS with hd | ⟨Z, hZ, hyZ, hsub⟩
  · exact .inl (h.done_subset hd)
  rcases h.kept Z hZ with hw | hd | rfl | hp
  · exact .inr ⟨Z, hw, hyZ, hsub⟩
  · exact .inl (hd hyZ)
  · rcases h.exhaustive _ h.univ_mem y hy trivial with hL | ⟨G, hG, hyG, -⟩
    · exact .inl (h.subset_done hL)
    have hGF : G ∩ B ⊆ Z := by
      rcases h.compatible G hG with hin | hout
      · exact hin
      · exact absurd hyZ (hout y hy hyG)
    rcases h.covers_flip hG y hy hyG with hd | ⟨Z', hZ', hyZ', hZG⟩
    · exact .inl hd
    · refine .inr ⟨Z', hZ', hyZ', fun z hz => hsub ⟨hGF ⟨hZG hz, hz.2⟩, hz.2⟩⟩
  · rcases h.covers_path hp y hy hyZ with hd | ⟨Z', hZ', hyZ', hZp⟩
    · exact .inl hd
    · exact .inr ⟨Z', hZ', hyZ', fun z hz => hsub ⟨hZp hz, hz.2⟩⟩

end

end Visit

end Coverage
