import InputCovSched.Instr.Selector

/-!
# Soundness of the schedule selector

The code for an expression, entered where the constraints of its environment hold and the
registers of its cached reads have their values, computes the value of the expression
(`Emit.Spec`); the code for a test leaves for the success block exactly when the expression
holds (`EmitTest.Spec`), by one induction on the fuel (`build_spec`). A selector built from such tests walks the tree (`walk`), and what it returns
stands at the end of a path whose terms all hold.
-/

namespace InputCovSched

open InputCovSched.Expr

open Option

/-! ## Registers -/

def Val.Below (n : Nat) : Val → Prop
  | const _ _ => True
  | reg r => r < n

def Regs.Agree (n : Nat) (R R' : Regs) : Prop := ∀ r, r < n → R' r = R r

section
variable {R R' R₁ R₂ : Regs} {n n' a : Nat} {v : Val}

@[simp] lemma Regs.set_self : R.set k a k = some a := by simp [Regs.set]

@[simp] lemma Regs.set_ne (h : r ≠ k) : R.set k a r = R r := by simp [Regs.set, h]

lemma Regs.Agree.refl : Regs.Agree n R R := fun _ _ => rfl

lemma Regs.Agree.trans (h : Regs.Agree n R R₁) (h' : Regs.Agree n' R₁ R₂) (hn : n ≤ n') :
    Regs.Agree n R R₂ := by
  intro r hr
  rw [h' r (by omega), h r hr]

lemma Regs.agree_set (h : n ≤ k) : Regs.Agree n R (R.set k a) := by
  intro r hr
  exact Regs.set_ne (by omega)

lemma Val.Below.mono (h : v.Below n) (hn : n ≤ n') : v.Below n' := by
  cases v with
  | const value width => trivial
  | reg r => exact lt_of_lt_of_le h hn

lemma Val.Below.eval_eq (h : v.Below n) (hR : Regs.Agree n R R') : v.eval R' = v.eval R := by
  cases v with
  | const value width => rfl
  | reg r => exact hR r h

end

/-! ## Environments that are right -/

/-- The constraints hold, and the cached reads are in registers below `n` that have their
value. -/
structure EvalEnv.Ok (input : Valuation) (R : Regs) (n : Nat) (env : EvalEnv) : Prop where
  holds : AllHold input env.constraints
  cached : ∀ e v, (e, v) ∈ env.cachedReads → v.Below n ∧ v.eval R = some (e.eval input)

namespace EvalEnv

variable {input : Valuation} {R R' : Regs} {n : Nat} {env : EvalEnv} {c e : Expr} {v : Val}
  {ops : ExprOps} {S : TimingSolver}

lemma Ok.mono (h : env.Ok input R n) (hR : Regs.Agree n R R') (hn : n ≤ n') :
    env.Ok input R' n' := by
  refine ⟨h.holds, ?_⟩
  intro e v hv
  obtain ⟨hb, he⟩ := h.cached e v hv
  exact ⟨hb.mono hn, by rw [hb.eval_eq hR, he]⟩

lemma Ok.addConstraint (h : env.Ok input R n) (hb : c.IsBool) (hc : c.Holds input) :
    (env.addConstraint c).Ok input R n := by
  refine ⟨?_, h.cached⟩
  intro c' hc'
  rcases List.mem_cons.1 hc' with rfl | hc'
  · exact ⟨hb, hc⟩
  · exact h.holds c' hc'

lemma Ok.cloneFalse (ops : ExprOps) (h : env.Ok input R n) (hb : c.IsBool) (hc : ¬ c.Holds input) :
    (env.cloneFalse ops c).Ok input R n :=
  h.addConstraint (ops.createIsZero_isBool c hb) ((ops.createIsZero_holds input c hb).2 hc)

section
variable (h : env.Ok input R n)
include h

lemma Ok.cloneFalseCanFail (hb : c.IsBool) (hc : ¬ c.Holds input)
    (h' : env.cloneFalseCanFail ops S c = some env') : env'.Ok input R n := by
  unfold EvalEnv.cloneFalseCanFail at h'
  split at h'
  · cases h'
    exact h.cloneFalse ops hb hc
  · cases h'

lemma Ok.holds_of_cloneFalseCanFail (hS : S.Sound) (hA : S.Answers) (hb : c.IsBool)
    (h' : env.cloneFalseCanFail ops S c = none) : c.Holds input := by
  by_contra hc
  have hz := (ops.createIsZero_holds input c hb).2 hc
  unfold EvalEnv.cloneFalseCanFail at h'
  split at h'
  · cases h'
  rename_i hne
  obtain ⟨b, hb'⟩ := isSome_iff_exists.1 (hA env.constraints (ops.createIsZero c))
  cases b with
  | true => exact hne hb'
  | false => exact hS.mayBeTrue _ _ input hb' h.holds (ops.createIsZero_isBool c hb) hz

lemma Ok.mustBeTrue (hS : S.Sound) (hb : c.IsBool) (hv : env.checkValidity S c = .mustBeTrue) :
    c.Holds input := by
  unfold checkValidity at hv
  split at hv
  · subst hv
    rename_i heq
    exact hS.mustBeTrue _ _ input heq h.holds hb
  · cases hv

lemma Ok.mustBeFalse (hS : S.Sound) (hb : c.IsBool) (hv : env.checkValidity S c = .mustBeFalse) :
    ¬ c.Holds input := by
  unfold checkValidity at hv
  split at hv
  · subst hv
    rename_i heq
    exact hS.mustBeFalse _ _ input heq h.holds hb
  · cases hv

lemma Ok.addCachedRead (hb : v.Below n) (hv : v.eval R = some (e.eval input)) :
    (env.addCachedRead e v).Ok input R n := by
  refine ⟨h.holds, ?_⟩
  intro e' v' hmem
  rcases List.mem_cons.1 hmem with heq | hmem
  · cases heq
    exact ⟨hb, hv⟩
  · exact h.cached e' v' hmem

lemma Ok.lookupCachedRead (hv : env.lookupCachedRead e = some v) :
    v.Below n ∧ v.eval R = some (e.eval input) := by
  obtain ⟨pre, post, heq, -⟩ := List.lookup_eq_some_iff.1 hv
  apply h.cached
  rw [heq]
  simp

end

end EvalEnv

/-! ## Emitted values -/

structure Emit.Gives (input : Valuation) (R : Regs) (n : Nat) (m : Emit) (R' : Regs)
    (value : Nat) : Prop where
  exec_code : ∀ rest, (m.code rest).exec input R = rest.exec input R'
  agree : Regs.Agree n R R'
  next_le : n ≤ m.next
  below : m.val.Below m.next
  eval_val : m.val.eval R' = some value
  env_ok : m.env.Ok input R' m.next

/-- The code emitted for `e` in `env`. -/
structure Emit.Spec (input : Valuation) (env : EvalEnv) (n : Nat) (e : Expr) (m : Emit) :
    Prop where
  next_le : n ≤ m.next
  gives : e.WellTyped → ∀ R, env.Ok input R n → ∃ R', m.Gives input R n R' (e.eval input)

structure EmitTest.Decides (input : Valuation) (R : Regs) (n : Nat) (t : EmitTest) (R' : Regs)
    (success : Bool) : Prop where
  exec_code : t.code.exec input R = some (success, R')
  agree : Regs.Agree n R R'
  env_ok : t.env.Ok input R' t.next

structure EmitTest.Spec (input : Valuation) (env : EvalEnv) (n : Nat) (e : Expr) (t : EmitTest) :
    Prop where
  next_le : n ≤ t.next
  decides : e.IsBool → ∀ R, env.Ok input R n →
    ∃ R', t.Decides input R n R' (decide (e.Holds input))

section
variable {input : Valuation} {R R₂ : Regs} {n a b : Nat} {env : EvalEnv} {m left : Emit} {e : Expr}

lemma Emit.gives_id (h : env.Ok input R n) (hb : v.Below n)
    (hv : v.eval R = some value) : Emit.Gives input R n ⟨id, v, env, n⟩ R value :=
  ⟨fun _ => rfl, .refl, Nat.le_refl n, hb, hv, h⟩

lemma Emit.Gives.emit (h : m.Gives input R n R₁ value) (rhs : Rhs)
    (hr : rhs.eval input R₁ = some b) :
    (m.emit rhs).Gives input R n (R₁.set m.next b) b where
  exec_code := by
    intro rest
    show (m.code (.assign m.next rhs rest)).exec input R = _
    rw [h.exec_code, Code.exec, hr]
  agree := h.agree.trans (Regs.agree_set le_rfl) h.next_le
  next_le := Nat.le_succ_of_le h.next_le
  below := Nat.lt_succ_self m.next
  eval_val := Regs.set_self
  env_ok := h.env_ok.mono (Regs.agree_set le_rfl) (Nat.le_succ _)

lemma Emit.Gives.exists_emit (h : m.Gives input R n R₁ value)
    (hm : m' = m.emit rhs) (hr : rhs.eval input R₁ = some b) :
    ∃ R₂, m'.Gives input R n R₂ b ∧ Regs.Agree m.next R₁ R₂ := by
  subst hm
  exact ⟨_, h.emit rhs hr, Regs.agree_set le_rfl⟩

lemma Emit.Gives.seq (hl : left.Gives input R n R₁ a) (hr : right.Gives input R₁ left.next R₂ b) :
    (left.seq right).Gives input R n R₂ b where
  exec_code := by
    intro rest
    show (left.code (right.code rest)).exec input R = _
    rw [hl.exec_code, hr.exec_code]
  agree := hl.agree.trans hr.agree hl.next_le
  next_le := le_trans hl.next_le hr.next_le
  below := hr.below
  eval_val := hr.eval_val
  env_ok := hr.env_ok

lemma Emit.Gives.keep (h : m.Gives input R n R₁ value) (hR : Regs.Agree m.next R₁ R₂) :
    m.val.eval R₂ = some value := by
  rw [h.below.eval_eq hR, h.eval_val]

variable {t s : EmitTest} {ifFalse : Emit}

lemma Emit.Spec.congr (h : m.Spec input env n e)
    (hb : e'.WellTyped → ∀ R, env.Ok input R n → e.WellTyped ∧ e.eval input = e'.eval input) :
    m.Spec input env n e' := by
  refine ⟨h.next_le, ?_⟩
  intro he' R hR
  obtain ⟨he, heq⟩ := hb he' R hR
  rw [← heq]
  exact h.gives he R hR

lemma Emit.Spec.emit (h : m.Spec input env n e) (hw : e'.WellTyped → e.WellTyped)
    (hr : ∀ R, m.val.eval R = some (e.eval input) → rhs.eval input R = some (e'.eval input)) :
    (m.emit rhs).Spec input env n e' := by
  refine ⟨Nat.le_succ_of_le h.next_le, ?_⟩
  intro hw' R hR
  obtain ⟨R', hm⟩ := h.gives (hw hw') R hR
  exact ⟨_, hm.emit rhs (hr R' hm.eval_val)⟩

lemma Emit.Spec.emit_binary (hl : left.Spec input env n l)
    (hr : right.Spec input left.env left.next r) (hw : e.WellTyped → l.WellTyped ∧ r.WellTyped)
    (hrhs : ∀ R, left.val.eval R = some (l.eval input) → right.val.eval R = some (r.eval input) →
      rhs.eval input R = some (e.eval input)) :
    ((left.seq right).emit rhs).Spec input env n e := by
  refine ⟨Nat.le_succ_of_le (le_trans hl.next_le hr.next_le), ?_⟩
  intro he R hR
  obtain ⟨R₁, h₁⟩ := hl.gives (hw he).1 R hR
  obtain ⟨R₂, h₂⟩ := hr.gives (hw he).2 R₁ h₁.env_ok
  exact ⟨_, (h₁.seq h₂).emit rhs (hrhs R₂ (h₁.keep h₂.agree) h₂.eval_val)⟩

lemma buildSymbolicRead_spec (expr : Expr) (env : EvalEnv) (n : Nat) :
    (buildSymbolicRead expr env n).Spec input env n expr := by
  unfold buildSymbolicRead
  split
  · rename_i v hv
    refine ⟨Nat.le_refl n, ?_⟩
    intro _ R hR
    obtain ⟨hb, he⟩ := hR.lookupCachedRead hv
    exact ⟨R, Emit.gives_id hR hb he⟩
  refine ⟨Nat.le_succ n, ?_⟩
  intro _ R hR
  have h₀ : Emit.Gives input R n ⟨id, .const 0 0, env, n⟩ R 0 := Emit.gives_id hR trivial rfl
  have h := h₀.emit (.read expr) rfl
  exact ⟨_, ⟨h.exec_code, h.agree, h.next_le, h.below, h.eval_val,
    h.env_ok.addCachedRead h.below h.eval_val⟩⟩

lemma EmitTest.Spec.phi {c t f : Expr}
    (hc : test.Spec input env n c) (ht : ifTrue.Spec input (test.env.cloneTrue c) test.next t)
    (hf : ifFalse.Spec input (test.env.cloneFalse ops c) ifTrue.next f) :
    (Emit.phi test ifTrue ifFalse).Spec input env n (.select c t f) := by
  have hn := hc.next_le
  have hn₁ := ht.next_le
  have hn₂ := hf.next_le
  refine ⟨show n ≤ ifFalse.next + 1 by omega, ?_⟩
  rintro ⟨hwc, hwt, hwf, hwidth, -⟩ R hR
  have hbool : c.IsBool := ⟨hwc, hwidth⟩
  obtain ⟨R₁, h₁⟩ := hc.decides hbool R hR
  have hcode := h₁.exec_code
  -- what the result needs of the branch that ran
  have final : ∀ R₂ value, Regs.Agree test.next R₁ R₂ →
      (∀ rest, ((Emit.phi test ifTrue ifFalse).code rest).exec input R =
        rest.exec input (R₂.set ifFalse.next value)) →
      (Emit.phi test ifTrue ifFalse).Gives input R n (R₂.set ifFalse.next value) value := by
    intro R₂ value hagree hexec
    have hset : Regs.Agree test.next R₂ (R₂.set ifFalse.next value) := Regs.agree_set (by omega)
    have hall := hagree.trans hset le_rfl
    exact ⟨hexec, h₁.agree.trans hall hn, show n ≤ ifFalse.next + 1 by omega,
      Nat.lt_succ_self ifFalse.next, Regs.set_self,
      h₁.env_ok.mono hall (show test.next ≤ ifFalse.next + 1 by omega)⟩
  by_cases hholds : c.Holds input
  · obtain ⟨R₂, h₂⟩ := ht.gives hwt R₁ (h₁.env_ok.addConstraint hbool hholds)
    have heval : (select c t f).eval input = t.eval input := if_pos hholds
    rw [heval]
    refine ⟨_, final R₂ _ h₂.agree ?_⟩
    intro rest
    simp only [Emit.phi, Code.exec, hcode, hholds, decide_true, h₂.exec_code, h₂.eval_val]
  have hok := h₁.env_ok.cloneFalse ops hbool hholds
  obtain ⟨R₂, h₂⟩ := hf.gives hwf R₁ (hok.mono .refl hn₁)
  have heval : (select c t f).eval input = f.eval input := if_neg hholds
  rw [heval]
  refine ⟨_, final R₂ _ (Regs.Agree.refl.trans h₂.agree hn₁) ?_⟩
  intro rest
  simp only [Emit.phi, Code.exec, hcode, hholds, decide_false, h₂.exec_code, h₂.eval_val]

lemma Emit.Spec.emit_select {c t f : Expr} {cond : Emit}
    (hc : cond.Spec input env n c) (ht : ifTrue.Spec input cond.env cond.next t)
    (hf : ifFalse.Spec input ifTrue.env ifTrue.next f) :
    (((cond.seq ifTrue).seq ifFalse).emit (.select cond.val ifTrue.val ifFalse.val)).Spec input env n
      (.select c t f) := by
  have hn := hc.next_le
  have hn₁ := ht.next_le
  have hn₂ := hf.next_le
  refine ⟨show n ≤ ifFalse.next + 1 by omega, ?_⟩
  rintro ⟨hwc, hwt, hwf, -⟩ R hR
  obtain ⟨R₁, h₁⟩ := hc.gives hwc R hR
  obtain ⟨R₂, h₂⟩ := ht.gives hwt R₁ h₁.env_ok
  obtain ⟨R₃, h₃⟩ := hf.gives hwf R₂ h₂.env_ok
  have hall := (h₁.seq h₂).seq h₃
  refine ⟨_, hall.emit _ ?_⟩
  simp only [Rhs.eval, h₁.keep (h₂.agree.trans h₃.agree hn₁), h₂.keep h₃.agree, h₃.eval_val,
    bind_some, map_some]
  rfl

lemma Emit.Spec.extract {offset width : Nat} (h : m.Spec input env n e) :
    ((if offset > 0 then m.emit (.binary .lshr e.width m.val (.const offset e.width)) else m).emit
      (.trunc e.width width
        (if offset > 0 then m.emit (.binary .lshr e.width m.val (.const offset e.width)) else
          m).val)).Spec input env n (.extract e offset width) := by
  by_cases hoff : offset > 0
  · rw [if_pos hoff]
    refine ⟨Nat.le_succ_of_le (Nat.le_succ_of_le h.next_le), ?_⟩
    intro hw R hR
    obtain ⟨R₁, h₁⟩ := h.gives hw R hR
    have hshift : (Rhs.binary .lshr e.width m.val (.const offset e.width)).eval input R₁ =
        some (BinaryOp.lshr.eval e.width (e.eval input) (offset % 2 ^ e.width)) := by
      rw [Rhs.eval, h₁.eval_val]
      rfl
    have h₂ := h₁.emit _ hshift
    refine ⟨_, h₂.emit _ ?_⟩
    rw [Rhs.eval, h₂.eval_val, map_some, eval, extract_eval]
  · rw [if_neg hoff]
    refine h.emit (fun hw => hw) ?_
    intro R hv
    rw [Rhs.eval, hv, map_some, eval, show offset = 0 by omega]
    simp

lemma Emit.Spec.concat (hl : left.Spec input env n l)
    (hr : right.Spec input left.env left.next r) (ty : Nat) (hty : ty = l.width + r.width)
    (left' right' shifted : Emit)
    (hleft' : left' = (left.seq right).emit (.cast .zext l.width ty left.val))
    (hright' : right' = left'.emit (.cast .zext r.width ty right.val))
    (hshifted : shifted = right'.emit (.binary .shl ty left'.val (.const r.width ty))) :
    (shifted.emit (.binary .or ty shifted.val right'.val)).Spec input env n (.concat l r) := by
  have hn := hl.next_le
  have hn₁ := hr.next_le
  subst hty
  refine ⟨?_, ?_⟩
  · subst hleft' hright' hshifted
    show n ≤ right.next + 1 + 1 + 1 + 1
    omega
  rintro ⟨hwl, hwr⟩ R hR
  obtain ⟨R₁, h₁⟩ := hl.gives hwl R hR
  obtain ⟨R₂, h₂⟩ := hr.gives hwr R₁ h₁.env_ok
  obtain ⟨R₃, h₃, a₃⟩ := (h₁.seq h₂).exists_emit hleft'
    (by rw [Rhs.eval, h₁.keep h₂.agree, map_some])
  obtain ⟨R₄, h₄, a₄⟩ := h₃.exists_emit hright' (by rw [Rhs.eval, h₂.keep a₃, map_some])
  obtain ⟨R₅, h₅, a₅⟩ := h₄.exists_emit hshifted
    (by rw [Rhs.eval, h₃.keep a₄, bind_some, Val.eval, map_some])
  refine ⟨_, h₅.emit _ ?_⟩
  rw [Rhs.eval, h₅.eval_val, h₄.keep a₅, bind_some, map_some, eval, concat_eval]

/-! ## Emitted tests -/

lemma Emit.Spec.branch (h : m.Spec input env n e) : m.branch.Spec input env n e := by
  refine ⟨h.next_le, ?_⟩
  intro hb R hR
  obtain ⟨R', h'⟩ := h.gives hb.wellTyped R hR
  refine ⟨R', ?_, h'.agree, h'.env_ok⟩
  show (m.code (.branch m.val)).exec input R = _
  rw [h'.exec_code, Code.exec, h'.eval_val, map_some]
  rfl

lemma EmitTest.Spec.congr (h : t.Spec input env n e)
    (hb : e'.IsBool → ∀ R, env.Ok input R n → e.IsBool ∧ (e.Holds input ↔ e'.Holds input)) :
    t.Spec input env n e' := by
  refine ⟨h.next_le, ?_⟩
  intro he' R hR
  obtain ⟨he, hiff⟩ := hb he' R hR
  obtain ⟨R', h'⟩ := h.decides he R hR
  rw [decide_eq_decide.2 hiff] at h'
  exact ⟨R', h'⟩

lemma EmitTest.Spec.and (hl : s.Spec input env n l)
    (hr : t.Spec input (s.env.cloneTrue l) s.next r) :
    EmitTest.Spec input env n (.binary .and l r)
      ⟨.cond s.code t.code (.goto false), s.env, t.next⟩ := by
  refine ⟨le_trans hl.next_le hr.next_le, ?_⟩
  rintro ⟨⟨hwl, hwr, hw⟩, h1⟩ R hR
  have hbl : l.IsBool := ⟨hwl, h1⟩
  have hbr : r.IsBool := ⟨hwr, hw ▸ h1⟩
  have hiff : (binary .and l r).Holds input ↔ l.Holds input ∧ r.Holds input :=
    and_eval_odd (by rw [hbl.width_eq]; omega)
  obtain ⟨R₁, h₁⟩ := hl.decides hbl R hR
  by_cases hholds : l.Holds input
  · obtain ⟨R₂, h₂⟩ := hr.decides hbr R₁ (h₁.env_ok.addConstraint hbl hholds)
    refine ⟨R₂, ?_, h₁.agree.trans h₂.agree hl.next_le, h₁.env_ok.mono h₂.agree hr.next_le⟩
    simp [Code.exec, h₁.exec_code, h₂.exec_code, hholds, hiff]
  · refine ⟨R₁, ?_, h₁.agree, h₁.env_ok.mono .refl hr.next_le⟩
    simp [Code.exec, h₁.exec_code, hholds, hiff]

lemma EmitTest.Spec.or (hl : s.Spec input env n l)
    (hr : t.Spec input (env.cloneFalse ops l) s.next r) :
    EmitTest.Spec input env n (.binary .or l r)
      ⟨.cond s.code (.goto true) t.code, s.env, t.next⟩ := by
  refine ⟨le_trans hl.next_le hr.next_le, ?_⟩
  rintro ⟨⟨hwl, hwr, hw⟩, h1⟩ R hR
  have hbl : l.IsBool := ⟨hwl, h1⟩
  have hbr : r.IsBool := ⟨hwr, hw ▸ h1⟩
  have hiff : (binary .or l r).Holds input ↔ l.Holds input ∨ r.Holds input :=
    or_eval_odd (by rw [hbl.width_eq]; omega)
  obtain ⟨R₁, h₁⟩ := hl.decides hbl R hR
  by_cases hholds : l.Holds input
  · refine ⟨R₁, ?_, h₁.agree, h₁.env_ok.mono .refl hr.next_le⟩
    simp [Code.exec, h₁.exec_code, hholds, hiff]
  -- the reads of the left side are not in this environment, its registers are kept
  have hok := (hR.mono h₁.agree hl.next_le).cloneFalse ops hbl hholds
  obtain ⟨R₂, h₂⟩ := hr.decides hbr R₁ hok
  refine ⟨R₂, ?_, h₁.agree.trans h₂.agree hl.next_le, h₁.env_ok.mono h₂.agree hr.next_le⟩
  simp [Code.exec, h₁.exec_code, h₂.exec_code, hholds, hiff]

end

/-! ## The generator -/

section
variable {input : Valuation} {ops : ExprOps} {S : TimingSolver} {fuel : Nat}
  (hS : S.Sound)
  (ihE : ∀ e env n m, buildExprEvaluator ops S fuel e env n = some m → m.Spec input env n e)
  (ihB : ∀ e env n t, buildBooleanEvaluator ops S fuel e env n = some t → t.Spec input env n e)

include hS ihE ihB

lemma buildSelect_spec {n : Nat} {m : Emit}
    (h : buildExprEvaluator ops S (fuel + 1) (.select c t f) env n = some m) :
    m.Spec input env n (.select c t f) := by
  simp only [buildExprEvaluator] at h
  split at h
  · simp only [bind_eq_bind, bind_eq_some_iff, Option.some.injEq] at h
    obtain ⟨cond, hc, ifTrue, ht, ifFalse, hf, rfl⟩ := h
    exact (ihE _ _ _ _ hc).emit_select (ihE _ _ _ _ ht) (ihE _ _ _ _ hf)
  split at h
  · rename_i hv
    apply (ihE _ _ _ _ h).congr
    rintro ⟨hwc, hwt, -, hwidth, -⟩ R hR
    have hc := hR.mustBeTrue hS ⟨hwc, hwidth⟩ hv
    exact ⟨hwt, (if_pos hc).symm⟩
  · rename_i hv
    apply (ihE _ _ _ _ h).congr
    rintro ⟨hwc, -, hwf, hwidth, -⟩ R hR
    have hc := hR.mustBeFalse hS ⟨hwc, hwidth⟩ hv
    exact ⟨hwf, (if_neg hc).symm⟩
  · simp only [bind_eq_bind, bind_eq_some_iff, Option.some.injEq] at h
    obtain ⟨test, hc, ifTrue, ht, ifFalse, hf, rfl⟩ := h
    exact (ihB _ _ _ _ hc).phi (ihE _ _ _ _ ht) (ihE _ _ _ _ hf)

lemma buildExprEvaluator_spec (e : Expr) (env : EvalEnv) (n : Nat) (m : Emit)
    (h : buildExprEvaluator ops S (fuel + 1) e env n = some m) : m.Spec input env n e := by
  cases e with
  | constant v w =>
    cases h
    refine ⟨Nat.le_refl n, ?_⟩
    intro _ R hR
    exact ⟨R, Emit.gives_id hR trivial rfl⟩
  | not e | cast op e width =>
    simp only [buildExprEvaluator, bind_eq_bind, bind_eq_some_iff, Option.some.injEq] at h
    obtain ⟨right, hr, rfl⟩ := h
    refine (ihE _ _ _ _ hr).emit (fun hw => hw) ?_
    intro R hv
    rw [Rhs.eval, hv, map_some, eval]
  | implies l r =>
    apply (ihE _ _ _ _ h).congr
    rintro ⟨hwl, hwr, hl, hr⟩ R _
    have hbl : l.IsBool := ⟨hwl, hl⟩
    have hbr : r.IsBool := ⟨hwr, hr⟩
    refine ⟨(ops.selectCreate_isBool l r _ hbl hbr isBool_true).wellTyped, ?_⟩
    rw [ops.selectCreate_eval input l r _ hbl hbr isBool_true, eval]
    rfl
  | cmp op l r | binary op l r =>
    simp only [buildExprEvaluator, bind_eq_bind, bind_eq_some_iff, Option.some.injEq] at h
    obtain ⟨left, hl, right, hr, rfl⟩ := h
    refine (ihE _ _ _ _ hl).emit_binary (ihE _ _ _ _ hr) (fun hw => ⟨hw.1, hw.2.1⟩) ?_
    intro R hvl hvr
    rw [Rhs.eval, hvl, hvr, bind_some, map_some, eval]
  | select c t f => exact buildSelect_spec hS ihE ihB h
  | extract e offset width =>
    simp only [buildExprEvaluator, bind_eq_bind, bind_eq_some_iff, Option.some.injEq] at h
    obtain ⟨right, hr, rfl⟩ := h
    exact (ihE _ _ _ _ hr).extract
  | read array index =>
    cases h
    exact buildSymbolicRead_spec _ env n
  | concat l r =>
    simp only [buildExprEvaluator] at h
    split at h
    · cases h
      exact buildSymbolicRead_spec _ env n
    simp only [bind_eq_bind, bind_eq_some_iff, Option.some.injEq] at h
    obtain ⟨left, hl, right, hr, rfl⟩ := h
    exact (ihE _ _ _ _ hl).concat (ihE _ _ _ _ hr) _ rfl _ _ _ rfl rfl rfl

variable {t : EmitTest}

omit ihE in
lemma buildAnd_spec (h : buildBooleanEvaluator ops S (fuel + 1) (.binary .and l r) env n = some t)
    (hw : l.width = 1) : t.Spec input env n (.binary .and l r) := by
  have hholds : (binary .and l r).Holds input ↔ l.Holds input ∧ r.Holds input :=
    and_eval_odd (by omega)
  simp only [buildBooleanEvaluator, width, hw, if_true] at h
  split at h
  · rename_i hv
    apply (ihB _ _ _ _ h).congr
    rintro ⟨⟨hwl, hwr, hwid⟩, h1⟩ R hR
    have hl := hR.mustBeTrue hS ⟨hwl, h1⟩ hv
    exact ⟨⟨hwr, hwid ▸ h1⟩, by rw [hholds]; exact ⟨fun hr => ⟨hl, hr⟩, fun hr => hr.2⟩⟩
  · rename_i hv
    apply (ihB _ _ _ _ h).congr
    rintro ⟨⟨hwl, -, -⟩, h1⟩ R hR
    have hl := hR.mustBeFalse hS ⟨hwl, h1⟩ hv
    exact ⟨isBool_false, by
      rw [hholds]; exact ⟨fun hf => absurd hf (falseExpr_holds input), fun hr => absurd hr.1 hl⟩⟩
  · simp only [bind_eq_bind, bind_eq_some_iff, Option.some.injEq] at h
    obtain ⟨left, hl, right, hr, rfl⟩ := h
    exact (ihB _ _ _ _ hl).and (ihB _ _ _ _ hr)

omit ihE in
lemma buildOr_spec
    (h : buildBooleanEvaluator ops S (fuel + 1) (.binary .or l r) env n = some t) (hw : l.width = 1) :
    t.Spec input env n (.binary .or l r) := by
  have hholds : (binary .or l r).Holds input ↔ l.Holds input ∨ r.Holds input :=
    or_eval_odd (by omega)
  simp only [buildBooleanEvaluator, width, hw, if_true] at h
  split at h
  · rename_i hv
    apply (ihB _ _ _ _ h).congr
    rintro ⟨⟨hwl, -, -⟩, h1⟩ R hR
    have hl := hR.mustBeTrue hS ⟨hwl, h1⟩ hv
    exact ⟨isBool_true, by
      rw [hholds]; exact ⟨fun _ => .inl hl, fun _ => trueExpr_holds input⟩⟩
  · rename_i hv
    apply (ihB _ _ _ _ h).congr
    rintro ⟨⟨hwl, hwr, hwid⟩, h1⟩ R hR
    have hl := hR.mustBeFalse hS ⟨hwl, h1⟩ hv
    exact ⟨⟨hwr, hwid ▸ h1⟩, by rw [hholds]; exact ⟨.inr, fun hr => hr.resolve_left hl⟩⟩
  · simp only [bind_eq_bind, bind_eq_some_iff, Option.some.injEq] at h
    obtain ⟨left, hl, right, hr, rfl⟩ := h
    exact (ihB _ _ _ _ hl).or (ihB _ _ _ _ hr)

omit ihB in
lemma buildSimplified_spec (h : (buildExprEvaluator ops S fuel
      (match env.checkValidity S (ops.simplifyExpr env.constraints e) with
        | .mustBeTrue => trueExpr
        | .mustBeFalse => falseExpr
        | .unknown => ops.simplifyExpr env.constraints e) env n).map Emit.branch = some t) :
    t.Spec input env n e := by
  obtain ⟨m, hm, rfl⟩ := map_eq_some_iff.1 h
  apply (ihE _ _ _ _ hm).branch.congr
  intro hb R hR
  have hsb := ops.simplifyExpr_isBool _ e (fun c hc => (hR.holds c hc).1) hb
  have hiff : (ops.simplifyExpr env.constraints e).Holds input ↔ e.Holds input := by
    unfold Expr.Holds
    rw [ops.simplifyExpr_eval input _ e hR.holds hb]
  split
  · rename_i hv
    have htrue := hR.mustBeTrue hS hsb hv
    exact ⟨isBool_true, ⟨fun _ => hiff.1 htrue, fun _ => trueExpr_holds input⟩⟩
  · rename_i hv
    have hfalse := hR.mustBeFalse hS hsb hv
    exact ⟨isBool_false,
      ⟨fun hf => absurd hf (falseExpr_holds input), fun he => absurd (hiff.2 he) hfalse⟩⟩
  · exact ⟨hsb, hiff⟩

lemma buildBooleanEvaluator_spec (e : Expr) (env : EvalEnv) (n : Nat) (t : EmitTest)
    (h : buildBooleanEvaluator ops S (fuel + 1) e env n = some t) : t.Spec input env n e := by
  by_cases hw : e.width = 1
  · by_cases hand : ∃ l r, e = .binary .and l r
    · obtain ⟨l, r, rfl⟩ := hand
      exact buildAnd_spec hS ihB h hw
    by_cases hor : ∃ l r, e = .binary .or l r
    · obtain ⟨l, r, rfl⟩ := hor
      exact buildOr_spec hS ihB h hw
    unfold buildBooleanEvaluator at h
    rw [if_pos hw] at h
    split at h
    · exact absurd ⟨_, _, rfl⟩ hand
    · exact absurd ⟨_, _, rfl⟩ hor
    · exact buildSimplified_spec hS ihE h
  · unfold buildBooleanEvaluator at h
    rw [if_neg hw] at h
    obtain ⟨m, hm, rfl⟩ := map_eq_some_iff.1 h
    exact (ihE _ _ _ _ hm).branch

end

lemma build_spec (hS : S.Sound) (ops : ExprOps) (input : Valuation) (fuel : Nat) :
    (∀ e env n m, buildExprEvaluator ops S fuel e env n = some m → m.Spec input env n e) ∧
    (∀ e env n t, buildBooleanEvaluator ops S fuel e env n = some t → t.Spec input env n e) := by
  induction fuel with
  | zero =>
    constructor
    · intro e env n m h
      simp [buildExprEvaluator] at h
    · intro e env n t h
      simp [buildBooleanEvaluator] at h
  | succ fuel ih =>
    exact ⟨buildExprEvaluator_spec hS ih.1 ih.2, buildBooleanEvaluator_spec hS ih.1 ih.2⟩

/-! ## The tree -/

def TermsHold (input : Valuation) (terms : List BoolExpr) : Prop :=
  ∀ e, e ∈ terms → e.val.Holds input

instance (input : Valuation) (terms : List BoolExpr) : Decidable (TermsHold input terms) :=
  inferInstanceAs (Decidable (∀ e, e ∈ terms → _))

/-- Where a selector that tests the edges in order ends: it follows the first edge whose terms
hold, and does not come back from it. -/
def walk (input : Valuation) : ScheduleTreeNode BoolExpr → Option (FragId × ScheduleFragment)
  | .leaf => none
  | .edge terms schedfrag next others =>
    if TermsHold input terms then
      match schedfrag with
      | some f => some ([], f)
      | none => (walk input next).map fun p => (true :: p.1, p.2)
    else (walk input others).map fun p => (false :: p.1, p.2)

/-- The outcome of a walk that began at `id`. -/
def Selected.ofWalk (id : FragId) : Option (FragId × ScheduleFragment) → Selected
  | some (way, f) => .returned (id ++ way) f
  | none => .panicNoSched

section
variable {input : Valuation} {S : TimingSolver}

lemma getSummary_isBool (ops : ExprOps) (terms : List BoolExpr) : (getSummary ops terms).IsBool := by
  induction terms with
  | nil => exact isBool_true
  | cons e terms ih => exact ops.andCreate_isBool e.val _ e.property ih

lemma getSummary_holds (terms : List BoolExpr) :
    (getSummary ops terms).Holds input ↔ TermsHold input terms := by
  induction terms with
  | nil => simp [getSummary, TermsHold, trueExpr_holds]
  | cons e terms ih =>
    have hand := ops.andCreate_holds input e.val (getSummary ops terms) e.property
      (getSummary_isBool ops terms)
    show (ops.andCreate e.val (getSummary ops terms)).Holds input ↔ _
    rw [hand, ih]
    simp only [TermsHold, List.forall_mem_cons]

lemma ofWalk_map (id : FragId) (b : Bool) (w : Option (FragId × ScheduleFragment)) :
    Selected.ofWalk id (w.map fun p => (b :: p.1, p.2)) = Selected.ofWalk (id ++ [b]) w := by
  cases w with
  | none => rfl
  | some p => simp [Selected.ofWalk]

variable {id : FragId} {sel : Sel}

lemma buildScheduleSelector_edge {terms : List BoolExpr} {schedfrag : Option ScheduleFragment}
    {next others : ScheduleTreeNode BoolExpr} {env : EvalEnv}
    (h : buildScheduleSelector ops S fuel (.edge terms schedfrag next others) id env n =
      some (sel, n')) :
    ∃ test onSuccess onFail n₁, sel = .check test.code onSuccess onFail ∧
      buildBooleanEvaluator ops S fuel (getSummary ops terms) env n = some test ∧
      ((∃ f, schedfrag = some f ∧ onSuccess = .ret id f ∧ n₁ = test.next) ∨
        (schedfrag = none ∧ buildScheduleSelector ops S fuel next (id ++ [true]) test.env test.next =
          some (onSuccess, n₁))) ∧
      ((others = .leaf ∧ onFail = .fail ∧ n' = n₁) ∨
        (test.env.cloneFalseCanFail ops S (getSummary ops terms) = none ∧
          onFail = .unreachable ∧ n' = n₁) ∨
        ∃ nextEnv, test.env.cloneFalseCanFail ops S (getSummary ops terms) = some nextEnv ∧
          buildScheduleSelector ops S fuel others (id ++ [false]) nextEnv n₁ =
            some (onFail, n')) := by
  rw [buildScheduleSelector] at h
  simp only [bind_eq_bind, bind_eq_some_iff] at h
  obtain ⟨test, htest, ⟨onSuccess, n₁⟩, hsucc, h⟩ := h
  have hsucc' : (∃ f, schedfrag = some f ∧ onSuccess = .ret id f ∧ n₁ = test.next) ∨
      (schedfrag = none ∧ buildScheduleSelector ops S fuel next (id ++ [true]) test.env test.next =
        some (onSuccess, n₁)) := by
    cases schedfrag with
    | none => exact .inr ⟨rfl, hsucc⟩
    | some f =>
      cases hsucc
      exact .inl ⟨f, rfl, rfl, rfl⟩
  cases others with
  | leaf =>
    cases h
    exact ⟨test, onSuccess, .fail, _, rfl, htest, hsucc', .inl ⟨rfl, rfl, rfl⟩⟩
  | edge terms' schedfrag' next' others' =>
    simp only at h
    split at h
    · rename_i hnone
      cases h
      exact ⟨test, onSuccess, .unreachable, _, rfl, htest, hsucc', .inr (.inl ⟨hnone, rfl, rfl⟩)⟩
    rename_i nextEnv hsome
    obtain ⟨⟨onFail, n₂⟩, hfail, h⟩ := bind_eq_some_iff.1 h
    cases h
    exact ⟨test, onSuccess, onFail, _, rfl, htest, hsucc', .inr (.inr ⟨nextEnv, hsome, hfail⟩)⟩

lemma buildScheduleSelector_exec (hS : S.Sound) {env : EvalEnv}
    (h : buildScheduleSelector ops S fuel node id env n = some (sel, n')) :
    n ≤ n' ∧ ∀ R, env.Ok input R n →
      sel.exec input R = some (.ofWalk id (walk input node)) ∨
      (sel.exec input R = some .undefined ∧ ¬ S.Answers) := by
  induction node generalizing id env n n' sel with
  | leaf => simp [buildScheduleSelector] at h
  | edge terms schedfrag next others ihnext ihothers =>
    obtain ⟨test, onSuccess, onFail, n₁, rfl, htest, hsucc, hfail⟩ := buildScheduleSelector_edge h
    have hspec := (build_spec hS ops input fuel).2 _ _ _ _ htest
    have hbool := getSummary_isBool ops terms
    -- the two sides as the induction has them
    have hs : test.next ≤ n₁ ∧ ∀ R, test.env.Ok input R test.next → TermsHold input terms →
        onSuccess.exec input R = some (.ofWalk id (walk input (.edge terms schedfrag next others))) ∨
        (onSuccess.exec input R = some .undefined ∧ ¬ S.Answers) := by
      rcases hsucc with ⟨f, rfl, rfl, rfl⟩ | ⟨rfl, hbuild⟩
      · refine ⟨le_rfl, ?_⟩
        intro R _ hterms
        left
        simp [Sel.exec, walk, hterms, Selected.ofWalk]
      obtain ⟨hle, hrun⟩ := ihnext hbuild
      refine ⟨hle, ?_⟩
      intro R hR hterms
      have hw : walk input (.edge terms none next others) =
          (walk input next).map fun p => (true :: p.1, p.2) := by simp [walk, hterms]
      rw [hw, ofWalk_map]
      exact hrun R hR
    have hf : n₁ ≤ n' ∧ ∀ R, test.env.Ok input R test.next → ¬ TermsHold input terms →
        onFail.exec input R = some (.ofWalk id (walk input (.edge terms schedfrag next others))) ∨
        (onFail.exec input R = some .undefined ∧ ¬ S.Answers) := by
      have hw : ¬ TermsHold input terms → walk input (.edge terms schedfrag next others) =
          (walk input others).map fun p => (false :: p.1, p.2) := by
        intro hterms
        simp [walk, hterms]
      rcases hfail with ⟨rfl, rfl, rfl⟩ | ⟨hnone, rfl, rfl⟩ | ⟨nextEnv, hsome, hbuild⟩
      · refine ⟨le_rfl, ?_⟩
        intro R _ hterms
        left
        rw [hw hterms]
        rfl
      · refine ⟨le_rfl, ?_⟩
        intro R hR hterms
        refine .inr ⟨rfl, ?_⟩
        intro hA
        exact hterms ((getSummary_holds terms).1 (hR.holds_of_cloneFalseCanFail hS hA hbool hnone))
      · obtain ⟨hle, hrun⟩ := ihothers hbuild
        refine ⟨hle, ?_⟩
        intro R hR hterms
        rw [hw hterms, ofWalk_map]
        have hok := hR.cloneFalseCanFail hbool (fun hh => hterms ((getSummary_holds terms).1 hh)) hsome
        exact hrun R (hok.mono .refl hs.1)
    refine ⟨le_trans hspec.next_le (le_trans hs.1 hf.1), ?_⟩
    intro R hR
    obtain ⟨R₁, h₁⟩ := hspec.decides hbool R hR
    by_cases hterms : TermsHold input terms
    · have hd : decide ((getSummary ops terms).Holds input) = true := by
        simp [getSummary_holds, hterms]
      rw [Sel.exec, h₁.exec_code, hd]
      exact hs.2 R₁ h₁.env_ok hterms
    have hd : decide ((getSummary ops terms).Holds input) = false := by
      simp [getSummary_holds, hterms]
    rw [Sel.exec, h₁.exec_code, hd]
    exact hf.2 R₁ h₁.env_ok hterms

lemma walk_edgeAt (h : walk input node = some (id, f)) :
    ∃ terms, node.edgeAt id = some (terms, f) ∧ TermsHold input terms := by
  induction node generalizing id with
  | leaf => cases h
  | edge terms schedfrag next others ihnext ihothers =>
    unfold walk at h
    split at h
    · rename_i hterms
      cases schedfrag with
      | some g =>
        cases h
        exact ⟨terms, rfl, hterms⟩
      | none =>
        obtain ⟨⟨way, g⟩, hw, heq⟩ := map_eq_some_iff.1 h
        cases heq
        obtain ⟨terms', hat, hterms'⟩ := ihnext hw
        refine ⟨terms ++ terms', by simp [ScheduleTreeNode.edgeAt, hat], ?_⟩
        intro e he
        rcases List.mem_append.1 he with he | he
        · exact hterms e he
        · exact hterms' e he
    · obtain ⟨⟨way, g⟩, hw, heq⟩ := map_eq_some_iff.1 h
      cases heq
      obtain ⟨terms', hat, hterms'⟩ := ihothers hw
      exact ⟨terms', by cases schedfrag <;> exact hat, hterms'⟩

lemma selectorOf_run (hS : S.Sound) (input : Valuation)
    (h : selectorOf ops S fuel node = some sel) :
    sel.run input = some (.ofWalk [] (walk input node)) ∨
      (sel.run input = some .undefined ∧ ¬ S.Answers) := by
  obtain ⟨⟨sel', n'⟩, hbuild, rfl⟩ := map_eq_some_iff.1 h
  apply (buildScheduleSelector_exec hS hbuild).2
  exact ⟨by simp [AllHold], by simp⟩

end

/-! ## Plain constructors and a solver that knows its constraints -/

/-- Constructors that fold nothing. -/
def plainOps : ExprOps where
  andCreate := .binary .and
  selectCreate := .select
  createIsZero := fun e => .cmp .eq e (.constant 0 e.width)
  simplifyExpr := fun _ e => e
  hasOrderedReads := fun _ => false
  andCreate_isBool := fun a b ha hb =>
    ⟨⟨ha.wellTyped, hb.wellTyped, ha.width_eq.trans hb.width_eq.symm⟩, ha.width_eq⟩
  andCreate_holds := by
    intro input a b ha _
    exact and_eval_odd (by rw [ha.width_eq]; omega)
  selectCreate_isBool := fun c t f hc ht hf =>
    ⟨⟨hc.wellTyped, ht.wellTyped, hf.wellTyped, hc.width_eq, ht.width_eq.trans hf.width_eq.symm⟩,
      ht.width_eq⟩
  selectCreate_eval := fun _ _ _ _ _ _ _ => rfl
  createIsZero_isBool := fun e he => ⟨⟨he.wellTyped, trivial, rfl⟩, rfl⟩
  createIsZero_holds := by
    intro input e he
    show CmpOp.eq.eval e.width (e.eval input) (0 % 2 ^ e.width) % 2 = 1 ↔ _
    rw [he.width_eq]
    exact isZero_eval_odd _
  simplifyExpr_isBool := fun _ _ _ he => he
  simplifyExpr_eval := fun _ _ _ _ _ => rfl

def memberSolver : TimingSolver where
  evaluate := fun cs e => some (if e ∈ cs then .mustBeTrue else .unknown)
  mayBeTrue := fun _ _ => some true

lemma memberSolver_sound : memberSolver.Sound where
  mustBeTrue := by
    intro cs e input h hcs _
    by_cases he : e ∈ cs
    · exact (hcs e he).2
    · simp [memberSolver, he] at h
  mustBeFalse := by
    intro cs e input h
    simp only [memberSolver] at h
    split at h <;> cases h
  mayBeTrue := by
    nofun

def firstPositive : BoolExpr :=
  ⟨.cmp .ult (.constant 0 8) (.read 0 (.constant 0 32)), ⟨⟨trivial, trivial, rfl⟩, rfl⟩⟩

def secondIs (v : Nat) : BoolExpr :=
  ⟨.cmp .eq (.read 0 (.constant 1 32)) (.constant v 8), ⟨⟨trivial, trivial, rfl⟩, rfl⟩⟩

/-- An input whose first two bytes are `x` and `y`. -/
def bytes (x y : Nat) : Valuation := fun _ index => if index = 0 then x else y

/-- One edge, on which the first byte is tested twice. -/
def repeatedTest : ScheduleTreeNode BoolExpr :=
  .edge [firstPositive, firstPositive, secondIs 1] (some (ScheduleTreeNode.graphFragment false))
    .leaf .leaf

end InputCovSched
