import InputCovSched.Klee.CreateSound

/-!
# Select, Concat, Extract and the casts keep the value

`Concat` merges extracts that touch by `Extract`, and `Extract` of a `Concat` calls `Concat`.
`ExtractOk` is what the one needs of the other.
-/

namespace InputCovSched.Klee

open BitVec

open Klee.Expr

variable {S : Env → Prop} {e l r : Expr} {w : Nat} {f : Env → BitVec w}

/-! ## Select and casts that widen -/

lemma selectCreate_denotes (hc : Denotes S c 1 b) (hl : Denotes S l w f)
    (hr : Denotes S r w g) (hz : w = 1 → c.EveryNode NoZeroSum) :
    Denotes S (selectCreate c l r) w fun ρ => if b ρ = 1 then f ρ else g ρ := by
  have htrue : ∀ v : BitVec 1, isTrueBits v = true ↔ v = 1 := by decide
  unfold selectCreate
  split
  · next v hv =>
    obtain ⟨rfl, hb⟩ := hc.asConstant_some hv
    split
    · next hone =>
      refine hl.congr fun ρ hρ => ?_
      rw [hb ρ hρ, setWidth_eq, if_pos ((htrue v).1 hone)]
    · next hone =>
      refine hr.congr fun ρ hρ => ?_
      rw [hb ρ hρ, setWidth_eq, if_neg (mt (htrue v).2 hone)]
  split
  · next heq =>
    subst heq
    refine hl.congr fun ρ hρ => ?_
    rw [← hl.value ρ hρ, ← hr.value ρ hρ, ite_self]
  split
  · next hw =>
    obtain rfl : w = 1 := hl.width.symm.trans hw
    have hnot := createIsZero_bool hc (hz rfl)
    split
    · next v hv =>
      obtain ⟨rfl, hf⟩ := hl.asConstant_some hv
      have hor : ∀ v b x : BitVec 1, isTrueBits v = true → b ||| x = if b = 1 then v else x := by
        decide
      have hand : ∀ v b x : BitVec 1, ¬ isTrueBits v = true →
          ~~~ b &&& x = if b = 1 then v else x := by decide
      split
      · next hone =>
        refine (orCreate_denotes hc hr).congr fun ρ hρ => ?_
        rw [hf ρ hρ, setWidth_eq, hor v _ _ hone]
      · next hone =>
        refine (andCreate_denotes hnot hr).congr fun ρ hρ => ?_
        rw [hf ρ hρ, setWidth_eq, hand v _ _ hone]
    · next v _ hv =>
      obtain ⟨rfl, hg⟩ := hr.asConstant_some hv
      have hor : ∀ v b x : BitVec 1, isTrueBits v = true →
          ~~~ b ||| x = if b = 1 then x else v := by decide
      have hand : ∀ v b x : BitVec 1, ¬ isTrueBits v = true →
          b &&& x = if b = 1 then x else v := by decide
      split
      · next hone =>
        refine (orCreate_denotes hnot hl).congr fun ρ hρ => ?_
        rw [hg ρ hρ, setWidth_eq, hor v _ _ hone]
      · next hone =>
        refine (andCreate_denotes hc hl).congr fun ρ hρ => ?_
        rw [hg ρ hρ, setWidth_eq, hand v _ _ hone]
    · exact hc.select hl hr
  · exact hc.select hl hr

variable {n : Nat}

lemma zextWiden_denotes (he : Denotes S e w f) (hle : w ≤ n) :
    Denotes S (zextWiden e n) n fun ρ => (f ρ).setWidth n := by
  unfold zextWiden
  split
  · next hw =>
    obtain rfl : n = w := hw.trans he.width
    exact he.congr fun ρ _ => (setWidth_eq _).symm
  split
  · next m v _ =>
    obtain ⟨rfl, hf⟩ := he.constant_inv
    refine (Denotes.constant (he.width_pos.trans_le hle) _).congr fun ρ hρ => ?_
    rw [hf ρ hρ, setWidth_eq]
  · next src m _ =>
    -- zext of zext
    obtain ⟨hsrc, hsw, hf⟩ := he.zext_inv
    refine (hsrc.denotes.zext (hsw.trans hle)).congr fun ρ hρ => ?_
    rw [hf ρ hρ, setWidth_setWidth (by omega)]
  · exact he.zext hle

namespace Denotes

lemma cast (h : Denotes S e w f) (hw : w = n) : Denotes S e n fun ρ => (f ρ).cast hw := by
  subst hw
  exact h

lemma concat_inv (h : Denotes S (.concat l r) w f) :
    l.WellTyped ∧ r.WellTyped ∧ ∃ hw : l.width + r.width = w,
      ∀ ρ, S ρ → f ρ = (l.eval ρ l.width ++ r.eval ρ r.width).cast hw := by
  obtain rfl := h.width
  refine ⟨h.typed.1, h.typed.2, rfl, fun ρ hρ => ?_⟩
  rw [← h.value ρ hρ, eval]
  exact setWidth_eq _

lemma extract_inv {offset n : Nat} (h : Denotes S (.extract e offset n) w f) :
    n = w ∧ e.WellTyped ∧ 0 < n ∧ offset + n ≤ e.width ∧
      ∀ ρ, S ρ → f ρ = (e.eval ρ e.width).extractLsb' offset w := by
  obtain rfl : n = w := h.width
  refine ⟨rfl, h.typed.1, h.typed.2.1, h.typed.2.2, fun ρ hρ => ?_⟩
  rw [← h.value ρ hρ, eval, setWidth_eq]

end Denotes

def ExtractOk (S : Env → Prop) (create : Expr → Nat → Nat → Expr) : Prop :=
  ∀ {e : Expr} {w : Nat} {f : Env → BitVec w}, Denotes S e w f → ∀ offset n : Nat, 0 < n →
    offset + n ≤ w → Denotes S (create e offset n) n fun ρ => (f ρ).extractLsb' offset n

section Bits

variable {m n : Nat}

lemma zero_append (x : BitVec n) : 0#m ++ x = x.setWidth (m + n) := by
  ext i hi
  rw [getElem_append, getElem_setWidth]
  split
  · next h => exact (getLsbD_eq_getElem h).symm
  · next h => rw [getElem_zero, getLsbD_of_ge x i (by omega)]

lemma extract_append_extract (x : BitVec n) (offset a b : Nat) :
    x.extractLsb' (offset + b) a ++ x.extractLsb' offset b = x.extractLsb' offset (a + b) := by
  ext i hi
  rw [getElem_append, getElem_extractLsb']
  split
  · rw [getElem_extractLsb']
  rw [getElem_extractLsb']
  congr 1
  omega

lemma sshiftRight_setWidth (x : BitVec m) (hle : offset + n ≤ m) :
    (x.sshiftRight offset).setWidth n = x.extractLsb' offset n := by
  ext i hi
  rw [getElem_setWidth, getElem_extractLsb', getLsbD_sshiftRight]
  simp [show i < m by omega, show offset + i < m by omega]

section
variable (x : BitVec m) (y : BitVec n)
include x y

lemma extract_append_left (h : n ≤ offset) :
    (x ++ y).extractLsb' offset len = x.extractLsb' (offset - n) len := by
  ext i hi
  rw [getElem_extractLsb', getElem_extractLsb', getLsbD_append,
    if_neg (by omega), Nat.sub_add_comm h]

lemma extract_append_right (h : offset + len ≤ n) :
    (x ++ y).extractLsb' offset len = y.extractLsb' offset len := by
  ext i hi
  rw [getElem_extractLsb', getElem_extractLsb', getLsbD_append, if_pos (by omega)]

lemma extract_append_both (h : offset < n) (hlen : len + offset - n + (n - offset) = len) :
    (x ++ y).extractLsb' offset len =
      (x.extractLsb' 0 (len + offset - n) ++ y.extractLsb' offset (n - offset)).cast hlen := by
  ext i hi
  rw [getElem_extractLsb', getElem_cast, getElem_append, getLsbD_append]
  by_cases hlow : i < n - offset
  · rw [if_pos (by omega), dif_pos hlow, getElem_extractLsb']
  rw [if_neg (by omega), dif_neg hlow, getElem_extractLsb']
  congr 1
  omega

end

end Bits

lemma concatWith_denotes {create : Expr → Nat → Nat → Expr} (hcreate : ExtractOk S create)
    {g : Env → BitVec w'} (hl : Denotes S l w f) (hr : Denotes S r w' g) :
    Denotes S (concatWith create l r) (w + w') fun ρ => f ρ ++ g ρ := by
  fun_induction concatWith create l r generalizing w w' with
  | case1 r a b ihb iha =>
    obtain ⟨ha, hb, rfl, hf⟩ := hl.concat_inv
    refine ((iha ha.denotes (ihb hb.denotes hr)).cast (Nat.add_assoc _ _ _).symm).congr
      fun ρ hρ => ?_
    rw [hf ρ hρ]
    exact append_assoc.symm
  | case2 r m a n v =>
    rename_i hc
    obtain ⟨rfl, hf⟩ := hl.constant_inv
    obtain ⟨rfl, hg⟩ := hr.asConstant_some hc
    refine (Denotes.constant (by have := hl.width_pos; omega) _).congr fun ρ hρ => ?_
    rw [hf ρ hρ, hg ρ hρ, setWidth_eq, setWidth_eq]
  | case3 r m _ =>
    obtain ⟨rfl, hf⟩ := hl.constant_inv
    obtain rfl := hr.width
    refine (zextWiden_denotes hr (Nat.le_add_left _ _)).congr fun ρ hρ => ?_
    rw [hf ρ hρ, setWidth_eq]
    exact (zero_append _).symm
  | case5 e offset m e' offset' n h =>
    obtain ⟨rfl, rfl⟩ := h
    obtain ⟨rfl, he, hpos, hle, hf⟩ := hl.extract_inv
    obtain ⟨rfl, -, -, -, hg⟩ := hr.extract_inv
    refine (hcreate he.denotes _ _ (by omega) (by omega)).congr fun ρ hρ => ?_
    rw [hf ρ hρ, hg ρ hρ, extract_append_extract]
  | case8 t f c t' f' iht ihf =>
    obtain ⟨hc, ht, hf, hfv⟩ := hl.select_inv
    obtain ⟨-, ht', hf', hgv⟩ := hr.select_inv
    have hne : w + w' = 1 → c.EveryNode NoZeroSum := by
      have := hl.width_pos
      have := hr.width_pos
      omega
    refine (selectCreate_denotes hc (iht ht ht') (ihf hf hf') hne).congr fun ρ hρ => ?_
    rw [hfv ρ hρ, hgv ρ hρ]
    split <;> rfl
  | case4 | case6 | case7 | case9 | case10 | case11 => exact hl.concat hr

lemma extractBounded_denotes (bound : Nat) : ExtractOk S (extractBounded bound) := by
  induction bound using Nat.strong_induction_on with
  | _ bound ih =>
  intro e w f he offset n hn hle
  rw [extractBounded.eq_def]
  split
  · next hw =>
    obtain rfl := he.width
    obtain rfl := hw
    obtain rfl : offset = 0 := by omega
    exact he.congr fun ρ _ => extractLsb'_eq_self.symm
  split
  · obtain ⟨rfl, hf⟩ := he.constant_inv
    refine (Denotes.constant hn _).congr fun ρ hρ => ?_
    rw [hf ρ hρ, setWidth_eq, sshiftRight_setWidth _ hle]
  · next x y m _ =>
    obtain ⟨hx, hy, rfl, hf⟩ := he.concat_inv
    have hrec : ExtractOk S (extractBounded m) := ih m (Nat.lt_succ_self m)
    split
    · next hright =>
      refine (hrec hx.denotes _ n hn (by omega)).congr fun ρ hρ => ?_
      rw [hf ρ hρ]
      exact (extract_append_left _ _ hright).symm
    split
    · next hleft =>
      refine (hrec hy.denotes _ n hn hleft).congr fun ρ hρ => ?_
      rw [hf ρ hρ]
      exact (extract_append_right _ _ hleft).symm
    have hlen : n + offset - y.width + (y.width - offset) = n := by omega
    have hexl := hrec hx.denotes 0 (n + offset - y.width) (by omega) (by omega)
    have hexr := hrec hy.denotes offset (y.width - offset) (by omega) (by omega)
    refine ((concatWith_denotes hrec hexl hexr).cast hlen).congr fun ρ hρ => ?_
    rw [hf ρ hρ]
    exact (extract_append_both _ _ (by omega) hlen).symm
  · next src m =>
    obtain ⟨hsrc, hsw, hf⟩ := he.zext_inv
    split
    · next h =>
      obtain ⟨rfl, rfl⟩ := h
      refine hsrc.denotes.congr fun ρ hρ => ?_
      rw [hf ρ hρ, ← setWidth_eq_extractLsb' hsw, setWidth_setWidth_self hsw]
    split
    · next h =>
      refine (Denotes.constant hn 0).congr fun ρ hρ => ?_
      rw [hf ρ hρ]
      ext i hi
      rw [getElem_extractLsb', getLsbD_setWidth, getLsbD_of_ge _ _ (by omega)]
      simp
    · exact he.extract hn hle
  · exact he.extract hn hle

lemma extractCreate_denotes : ExtractOk S extractCreate :=
  fun {e _ _} he => extractBounded_denotes e.size he

lemma concatCreate_denotes {g : Env → BitVec w'} (hl : Denotes S l w f)
    (hr : Denotes S r w' g) : Denotes S (concatCreate l r) (w + w') fun ρ => f ρ ++ g ρ :=
  concatWith_denotes extractCreate_denotes hl hr

lemma zextCreate_denotes (he : Denotes S e w f) (hn : 0 < n) :
    Denotes S (zextCreate e n) n fun ρ => (f ρ).setWidth n := by
  obtain rfl := he.width
  unfold zextCreate
  split
  · next hw =>
    subst hw
    exact he.congr fun ρ _ => (setWidth_eq _).symm
  split
  · next hw =>
    refine (extractCreate_denotes he 0 n hn (by omega)).congr fun ρ _ => ?_
    exact (setWidth_eq_extractLsb' hw.le).symm
  · next hne hlt => exact zextWiden_denotes he (by omega)

lemma sextCreate_denotes (he : Denotes S e w f) (hn : 0 < n) :
    Denotes S (sextCreate e n) n fun ρ => (f ρ).signExtend n := by
  obtain rfl := he.width
  unfold sextCreate
  split
  · next hw =>
    subst hw
    exact he.congr fun ρ _ => (signExtend_eq _).symm
  split
  · next hw =>
    refine (extractCreate_denotes he 0 n hn (by omega)).congr fun ρ _ => ?_
    rw [signExtend_eq_setWidth_of_le _ hw.le]
    exact (setWidth_eq_extractLsb' hw.le).symm
  split
  · obtain ⟨-, hf⟩ := he.constant_inv
    refine (Denotes.constant hn _).congr fun ρ hρ => ?_
    rw [hf ρ hρ]
    exact congrArg _ (setWidth_eq _).symm
  · next hne hlt _ => exact he.sext (by omega)

lemma notCreate_denotes (he : Denotes S e w f) : Denotes S (notCreate e) w fun ρ => ~~~ f ρ := by
  unfold notCreate
  split
  · obtain ⟨rfl, hf⟩ := he.constant_inv
    refine (Denotes.constant he.width_pos _).congr fun ρ hρ => ?_
    rw [hf ρ hρ, setWidth_eq]
  · exact he.not

lemma impliesCreate_denotes {f g : Env → BitVec 1} (hl : Denotes S l 1 f) (hr : Denotes S r 1 g)
    (hz : l.EveryNode NoZeroSum) :
    Denotes S (impliesCreate l r) 1 fun ρ => if f ρ = 1 then g ρ else 1 := by
  have htrue : ∀ v : BitVec 1, isTrueBits v = true ↔ v = 1 := by decide
  unfold impliesCreate
  split
  · next v hv =>
    obtain ⟨rfl, hf⟩ := hl.asConstant_some hv
    split
    · next hone =>
      refine hr.congr fun ρ hρ => ?_
      rw [hf ρ hρ, setWidth_eq, if_pos ((htrue v).1 hone)]
    · next hone =>
      refine Denotes.trueExpr.congr fun ρ hρ => ?_
      rw [hf ρ hρ, setWidth_eq, if_neg (mt (htrue v).2 hone)]
  · next v _ hv =>
    obtain ⟨rfl, hg⟩ := hr.asConstant_some hv
    split
    · next hone =>
      refine Denotes.trueExpr.congr fun ρ hρ => ?_
      rw [hg ρ hρ, setWidth_eq, (htrue v).1 hone, ite_self]
    rename_i hone
    have hbits : ∀ v x : BitVec 1, ¬ isTrueBits v = true → ~~~ x = if x = 1 then v else 1 := by
      decide
    refine (createIsZero_bool hl hz).congr fun ρ hρ => ?_
    rw [hg ρ hρ, setWidth_eq, hbits v _ hone]
  · exact hl.implies hr

end InputCovSched.Klee
