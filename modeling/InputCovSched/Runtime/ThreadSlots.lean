import InputCovSched.Lib.Count
import InputCovSched.Lib.Machine
import InputCovSched.Symbolic.Threads

/-!
# Joiners and slots of the symbolic threads (`runtime/POSIX/threads.c`)

A slot is allocated for a thread that runs, or that has exited and is still to be joined or
detached. `pthread_detach` does not look at `hasjoiner`:

    a joiner of a thread that is detached and exits sleeps for ever  (sleeps_on_detached)
    a joiner clears a slot that was detached and used again meanwhile  (slot_shared)
    no such detach → all joiners are woken, slots and counter are right
      (joiners_woken, slots_accounted)
-/

namespace InputCovSched

open ThreadsSys

open Tally Function List

namespace ThreadsSys

variable {s : ThreadsSys} {t c x : Nat}

/-- A new thread in slot `x`. -/
def withThread (s : ThreadsSys) (x : Nat) : ThreadsSys where
  threads := update s.threads x ⟨true, true, false, false, s.engine.nextWlist⟩
  lastHbnode := s.lastHbnode
  engine := { s.engine with nextWlist := s.engine.nextWlist + 1 }
  created := s.created + 1
  context := update s.context s.created x
  threadIn := update s.threadIn x s.created
  exited := s.exited

def createTo (s : ThreadsSys) (t c : Nat) : ThreadsSys :=
  { (s.serialize t).setData c ⟨true, true, false, false, s.engine.nextWlist⟩ with
    engine := (s.serialize t).engine.kleeGetWlist.2.addNodeForNewThread s.created (some t)
    created := s.created + 1
    context := update s.context s.created c
    threadIn := update s.threadIn c s.created }

lemma staticListAlloc_eq_some : s.staticListAlloc = some c ↔
    c < kleeMaxThreads ∧ (s.threads c).allocated = false ∧ ∀ i, i < c → (s.threads i).allocated = true := by
  unfold staticListAlloc
  rw [List.find?_range_eq_some]
  simp only [List.mem_range, Bool.not_eq_true', Bool.not_not]
  tauto

lemma create_some (h : s.staticListAlloc = some c) :
    s.pthreadCreate t = (s.createTo t c, some c) := by
  have h' : (s.serialize t).staticListAlloc = some c := h
  unfold pthreadCreate
  simp only [h']
  rfl

lemma create_none (h : s.staticListAlloc = none) : s.pthreadCreate t = (s.serialize t, none) := by
  have h' : (s.serialize t).staticListAlloc = none := h
  unfold pthreadCreate
  simp only [h']

lemma serialize_threads : (s.serialize t).threads x = s.threads x := (rfl)

lemma serialize_context : (s.serialize t).context t = s.context t := (rfl)

lemma join_ok (h : (s.pthreadJoin t x).2 = .ok) :
    x < kleeMaxThreads ∧ x ≠ s.context t ∧ (s.threads x).allocated = true ∧
    (s.threads x).joinable = true ∧ (s.threads x).hasjoiner = false := by
  unfold pthreadJoin at h
  simp only [serialize_threads, serialize_context] at h
  by_cases hx : x ≥ kleeMaxThreads
  · simp [hx] at h
  by_cases hme : x = s.context t
  · rw [if_neg hx, if_pos hme] at h
    cases h
  by_cases ha : (s.threads x).allocated = false
  · simp [hx, hme, ha] at h
  by_cases hj : (s.threads x).joinable = false ∨ (s.threads x).hasjoiner = true
  · rw [if_neg hx, if_neg hme, if_neg ha, if_pos hj] at h
    cases h
  · simp only [not_or, Bool.not_eq_false, Bool.not_eq_true] at hj ha
    exact ⟨by omega, hme, ha, hj.1, hj.2⟩

def joinedEngine (s : ThreadsSys) (t x : Nat) : KState Nat :=
  let r := (s.serialize t).engine.kleeAddHbnode t syncCtx
  r.2.kleeAddHbedge (r.2.lastHbNode (s.threadIn x)) r.1

lemma join_sleeps (h : (s.pthreadJoin t x).2 = .ok) (hterm : (s.threads x).terminated = false) :
    (s.pthreadJoin t x).1 = { (s.serialize t).setData x { s.threads x with hasjoiner := true } with
        engine := (s.serialize t).engine.kleeThreadSleep t (s.threads x).wlist x } := by
  obtain ⟨hx, hme, ha, hj, hh⟩ := join_ok h
  unfold pthreadJoin
  simp only [serialize_threads, serialize_context]
  rw [if_neg (by omega), if_neg hme, if_neg (by simp [ha]), if_neg (by simp [hj, hh]), if_pos hterm]
  rfl

lemma join_ends (h : (s.pthreadJoin t x).2 = .ok) (hterm : (s.threads x).terminated = true) :
    (s.pthreadJoin t x).1 = { (s.serialize t).clear x with engine := s.joinedEngine t x } := by
  obtain ⟨hx, hme, ha, hj, hh⟩ := join_ok h
  unfold pthreadJoin
  simp only [serialize_threads, serialize_context]
  rw [if_neg (by omega), if_neg hme, if_neg (by simp [ha]), if_neg (by simp [hj, hh]),
    if_neg (by simp [hterm])]
  simp only [clear, setData, update_idem]
  rfl

lemma detach_ok (h : (s.pthreadDetach t x).2 = .ok) :
    x < kleeMaxThreads ∧ (s.threads x).allocated = true ∧ (s.threads x).joinable = true ∧
    (s.pthreadDetach t x).1 = (s.serialize t).setData x
      (if (s.threads x).terminated then .zero else { s.threads x with joinable := false }) := by
  unfold pthreadDetach at h ⊢
  simp only [serialize_threads] at h ⊢
  by_cases hx : x ≥ kleeMaxThreads
  · simp [hx] at h
  by_cases ha : (s.threads x).allocated = false
  · simp [hx, ha] at h
  by_cases hj : (s.threads x).joinable = false
  · simp [hx, ha, hj] at h
  rw [if_neg hx, if_neg ha, if_neg hj]
  rw [Bool.not_eq_false] at ha hj
  refine ⟨by omega, ha, hj, ?_⟩
  by_cases hterm : (s.threads x).terminated = true
  · rw [if_pos hterm, if_pos hterm]
    rfl
  · rw [if_neg hterm, if_neg hterm]

/-- What `pthread_exit` leaves in the slot of its thread. -/
def exitData (d : TData) : TData := if d.joinable then { d with terminated := true } else .zero

end ThreadsSys

/-- Beside the run: whom a thread joins, who was joined or detached, and `__tsync.live_threads`. -/
structure SlotRun where
  run : ThreadRecording
  joining : Nat → Nat
  gone : Nat → Bool
  liveThreads : Nat

namespace SlotRun

def initial : SlotRun := ⟨.initial, fun _ => 0, fun _ => false, 1⟩

/-- What thread `t` does beside the table. -/
def note (s : SlotRun) (t : Nat) (r : ThreadRecording) : PthreadOp → SlotRun
  | .create =>
    match (s.run.sys.pthreadCreate t).2 with
    | none => { s with run := r }
    | some _ => { s with run := r, liveThreads := s.liveThreads + 1 }
  | .exit => { s with run := r, liveThreads := s.liveThreads - 1 }
  | .join thread =>
    let joined := s.run.sys.threadIn thread
    if (s.run.sys.pthreadJoin t thread).2 = .ok then
      if (s.run.sys.threads thread).terminated then
        { s with run := r, gone := update s.gone joined true }
      else { s with run := r, joining := update s.joining t joined }
    else { s with run := r }
  | .detach thread =>
    if (s.run.sys.pthreadDetach t thread).2 = .ok then
      { s with run := r, gone := update s.gone (s.run.sys.threadIn thread) true }
    else { s with run := r }
  | .resume => { s with run := r, gone := update s.gone (s.joining t) true }

def step (s : SlotRun) (l : Nat × PthreadOp) : Option SlotRun :=
  (s.run.step l).map fun r => s.note l.1 r l.2

/-- Nobody detaches a thread that somebody joins. -/
def DetachOk (s : SlotRun) : Nat × PthreadOp → Prop
  | (_, .detach thread) => (s.run.sys.threads thread).hasjoiner = false
  | _ => True

instance (s : SlotRun) : ∀ l, Decidable (DetachOk s l)
  | (_, .detach thread) => inferInstanceAs (Decidable ((s.run.sys.threads thread).hasjoiner = false))
  | (_, .create) | (_, .exit) | (_, .join _) | (_, .resume) => isTrue trivial

/-- A thread sleeps in `pthread_join` on a thread that has exited. -/
def SleepsOnExited (s : SlotRun) : Prop :=
  ∃ u w x, s.run.sys.engine.status u = .asleep w x ∧ s.run.sys.exited (s.joining u) = true

def Live (s : SlotRun) (k : Nat) : Prop := k < s.run.sys.created ∧ s.run.sys.exited k = false

structure Accounted (s : SlotRun) : Prop where
  allocated : ∀ y, y < kleeMaxThreads → ((s.run.sys.threads y).allocated = true ↔
    ∃ k, k < s.run.sys.created ∧ s.run.sys.context k = y ∧
      (s.run.sys.exited k = false ∨ s.gone k = false))
  liveThreads : s.liveThreads = countIf s.run.sys.created (fun e => !e) s.run.sys.exited
  slots : ∀ k k', s.Live k → s.Live k' → s.run.sys.context k = s.run.sys.context k' → k = k'

/-! ## The invariant -/

/-- A joiner that has not gone on. -/
def Joins (st : Status Nat) (x : Nat) : Prop := (∃ w, st = .asleep w x) ∨ st = .notified x

structure Inv (s : ThreadsSys) (joining : Nat → Nat) (gone : Nat → Bool) (live : Nat) : Prop where
  count : live = countIf s.created (fun e => !e) s.exited
  owner : ∀ y, (s.threads y).allocated = true → s.threadIn y < s.created ∧
    s.context (s.threadIn y) = y ∧ (s.threads y).terminated = s.exited (s.threadIn y) ∧
    (s.threads y).joinable = !gone (s.threadIn y) ∧
    ((s.threads y).terminated = true → (s.threads y).joinable = true)
  slot : ∀ k, k < s.created → s.exited k = false ∨ gone k = false →
    (s.threads (s.context k)).allocated = true ∧ s.threadIn (s.context k) = k
  wlist_lt : ∀ y, (s.threads y).allocated = true → (s.threads y).wlist < s.engine.nextWlist
  wlist_inj : ∀ y y', (s.threads y).allocated = true → (s.threads y').allocated = true →
    (s.threads y).wlist = (s.threads y').wlist → y = y'
  joiner : ∀ u x, Joins (s.engine.status u) x → u < s.created ∧ (s.threads x).allocated = true ∧
    (s.threads x).hasjoiner = true ∧ (s.threads x).joinable = true ∧ s.threadIn x = joining u
  asleep : ∀ u w x, s.engine.status u = .asleep w x →
    (s.threads x).wlist = w ∧ (s.threads x).terminated = false
  notified : ∀ u x, s.engine.status u = .notified x → (s.threads x).terminated = true
  alone : ∀ u u' x, Joins (s.engine.status u) x → Joins (s.engine.status u') x → u = u'
  fresh : ∀ k, s.created ≤ k → s.exited k = false ∧ gone k = false

variable {s s' : ThreadsSys} {joining : Nat → Nat} {gone : Nat → Bool} {n t x : Nat}

section
variable (h : Inv s joining gone n)
include h

lemma Inv.serialize : Inv (s.serialize t) joining gone n := { h with }

lemma Inv.nobody (hx : (s.threads x).hasjoiner = false) (u : Nat) :
    ¬ Joins (s.engine.status u) x := fun hu => by
  have := (h.joiner u x hu).2.2.1
  rw [hx] at this
  cases this

lemma Inv.clear (hx : (s.threads x).allocated = true) (hterm : s.exited (s.threadIn x) = true)
    (hno : ∀ u, ¬ Joins (s.engine.status u) x) :
    Inv (s.clear x) joining (update gone (s.threadIn x) true) n := by
  cases h
  constructor <;> simp only [ThreadsSys.clear, ThreadsSys.setData, update_apply] <;>
    grind [TData.zero, Joins]

lemma Inv.unjoinable (hx : (s.threads x).allocated = true)
    (hterm : (s.threads x).terminated = false) (hno : ∀ u, ¬ Joins (s.engine.status u) x) :
    Inv (s.setData x { s.threads x with joinable := false }) joining
      (update gone (s.threadIn x) true) n := by
  cases h
  constructor <;> simp only [setData, update_apply] <;> grind

lemma Inv.sleep (ht : t < s.created) (hx : (s.threads x).allocated = true)
    (hj : (s.threads x).joinable = true) (hterm : (s.threads x).terminated = false)
    (hno : ∀ u, ¬ Joins (s.engine.status u) x) :
    Inv { s.setData x { s.threads x with hasjoiner := true } with
      engine := s.engine.kleeThreadSleep t (s.threads x).wlist x }
      (update joining t (s.threadIn x)) gone n := by
  cases h
  constructor <;> simp only [setData, KState.kleeThreadSleep, update_apply] <;> grind [Joins]

lemma Inv.resume (hst : s.engine.status t = .notified x) :
    Inv (s.joinResume t x) joining (update gone (joining t) true) n := by
  have hself := h.joiner t x (.inr hst)
  cases h
  constructor <;> simp only [ThreadsSys.joinResume, ThreadsSys.clear, ThreadsSys.setData,
    KState.wakeUp, update_apply] <;> grind [TData.zero, Joins]

lemma Inv.create (hx : (s.threads x).allocated = false) :
    Inv (s.withThread x) joining gone (n + 1) := by
  have hfresh := h.fresh s.created le_rfl
  have hsucc : countIf (s.created + 1) (fun e => !e) s.exited =
      countIf s.created (fun e => !e) s.exited + 1 := by
    simp [countIf, total_succ, hfresh.1]
  cases h
  constructor <;> simp only [withThread, update_apply] <;> grind [Joins]

end

lemma notifyAllFrom_status {κ : Type} (k : KState κ) (n w source u : Nat) :
    (k.kleeThreadNotifyAllFrom n w source).status u =
      (if u < n ∧ (k.status u).waitsOn w then (k.status u).wake else k.status u) ∧
    (k.kleeThreadNotifyAllFrom n w source).nextWlist = k.nextWlist := by
  induction n generalizing u with
  | zero => simp [KState.kleeThreadNotifyAllFrom]
  | succ n ih =>
    unfold KState.kleeThreadNotifyAllFrom at ih ⊢
    rw [range_succ, foldl_append, foldl_cons, foldl_nil]
    generalize (List.range n).foldl _ k = k' at ih ⊢
    have hstatus : (k'.notifyWithHbedge n source).status = update k'.status n (k'.status n).wake :=
      rfl
    have hwlist : (k'.notifyWithHbedge n source).nextWlist = k'.nextWlist := rfl
    have hn := ih n
    have hu := ih u
    split
    · rw [hstatus, hwlist, update_apply]
      grind
    · grind

section
variable (h : Inv s joining gone n) (ht : t < s.created) (he : s.exited t = false)
  {k : KState Nat} {source : Nat}
  (hk : k = if (s.threads (s.context t)).joinable then
    s.engine.kleeThreadNotifyAllFrom s.created (s.threads (s.context t)).wlist source
    else s.engine)
include h ht he hk

/-- The waiting list belongs to the slot of `t`: its sleepers are woken, nobody else is. -/
lemma Inv.exit_status :
    k.nextWlist = s.engine.nextWlist ∧
    (∀ u w x, k.status u = .asleep w x → s.engine.status u = .asleep w x ∧ x ≠ s.context t) ∧
    ∀ u x, k.status u = .notified x → s.engine.status u = .notified x ∨
      ∃ w, s.engine.status u = .asleep w x ∧ x = s.context t := by
  have hall := (h.slot t ht (.inl he)).1
  have hstatus (u : Nat) : k.status u = if (s.threads (s.context t)).joinable ∧ u < s.created ∧
        (s.engine.status u).waitsOn (s.threads (s.context t)).wlist then (s.engine.status u).wake
      else s.engine.status u := by
    rw [hk]
    split
    · next hj => simp [hj, notifyAllFrom_status]
    · next hj => simp [hj]
  refine ⟨?_, fun u w x hu => ?_, fun u x hu => ?_⟩
  · rw [hk]
    split
    · exact (notifyAllFrom_status _ _ _ _ 0).2
    · rfl
  · rw [hstatus] at hu
    split at hu
    · cases hst : s.engine.status u <;> simp_all [Status.waitsOn, Status.wake]
    rename_i hno
    refine ⟨hu, ?_⟩
    rintro rfl
    have hw := (h.asleep u w _ hu).1
    obtain ⟨hlt, -, -, hj, -⟩ := h.joiner u _ (.inl ⟨w, hu⟩)
    exact hno ⟨hj, hlt, by simp [hu, Status.waitsOn, hw]⟩
  · rw [hstatus] at hu
    split at hu
    · rename_i hwaits
      cases hst : s.engine.status u with
      | asleep w y =>
        simp only [hst, Status.wake, Status.waitsOn, Status.notified.injEq, beq_iff_eq] at hu hwaits
        subst hu
        have hy := h.joiner u y (.inl ⟨w, hst⟩)
        exact .inr ⟨w, rfl, h.wlist_inj y _ hy.2.1 hall ((h.asleep u w y hst).1.trans hwaits.2.2)⟩
      | _ => simp [hst, Status.waitsOn] at hwaits
    · exact .inl hu

lemma Inv.exit :
    Inv { s.setData (s.context t) (exitData (s.threads (s.context t))) with
      engine := k, exited := update s.exited t true } joining gone (n - 1) := by
  obtain ⟨hwlist, hsleeps, hwoken⟩ := h.exit_status ht he hk
  obtain ⟨hcount, howner, hslot, hlt, hinj, hjoiner, hasleep, hnotified, halone, hfresh⟩ := h
  obtain ⟨hall, hin⟩ := hslot t ht (.inl he)
  constructor
  case count =>
    have := countIf_update (p := fun e => !e) (f := s.exited) ht true
    simp only [he, Bool.not_false, Bool.not_true, Bool.toNat_true, Bool.toNat_false] at this
    show n - 1 = countIf s.created (fun e => !e) (update s.exited t true)
    omega
  case alone => grind [Joins]
  all_goals simp only [setData, hwlist, update_apply]
  all_goals grind [Joins, exitData, TData.zero]

end

lemma exit_eq (s : ThreadsSys) (t : Nat) : s.pthreadExit t =
    let s := s.serialize t
    let tdata := s.threads (s.context t)
    { s.setData (s.context t) (exitData tdata) with
      engine := if tdata.joinable then
        s.engine.kleeThreadNotifyAllFrom s.created tdata.wlist s.lastHbnode else s.engine
      exited := update s.exited t true } := by
  unfold pthreadExit exitData
  dsimp only
  split <;> rfl

lemma join_refused (h : (s.pthreadJoin t x).2 ≠ .ok) : (s.pthreadJoin t x).1 = s.serialize t := by
  unfold pthreadJoin at h ⊢
  grind

lemma detach_refused (h : (s.pthreadDetach t x).2 ≠ .ok) :
    (s.pthreadDetach t x).1 = s ∨ (s.pthreadDetach t x).1 = s.serialize t := by
  unfold pthreadDetach at h ⊢
  grind

lemma inv_note {s : SlotRun} {r : ThreadRecording} {op : PthreadOp}
    (hi : Inv s.run.sys s.joining s.gone s.liveThreads) (ht : s.Live t) (hok : DetachOk s (t, op))
    (hcall : s.run.call t op = some r) :
    Inv (s.note t r op).run.sys (s.note t r op).joining (s.note t r op).gone
      (s.note t r op).liveThreads := by
  cases op with
  | create =>
    obtain rfl := Option.some.inj hcall
    cases hc : s.run.sys.staticListAlloc with
    | none =>
      simp only [note, create_none hc]
      exact hi.serialize
    | some c =>
      have hfree := (staticListAlloc_eq_some.1 hc).2.1
      simp only [note, create_some hc]
      exact { hi.create hfree with }
  | exit =>
    obtain rfl := Option.some.inj hcall
    simp only [note, ThreadRecording.record, exit_eq]
    exact hi.serialize.exit ht.1 ht.2 rfl
  | join x =>
    obtain rfl := Option.some.inj hcall
    simp only [note]
    by_cases hret : (s.run.sys.pthreadJoin t x).2 = .ok
    · obtain ⟨-, -, hall, hj, hno⟩ := join_ok hret
      rw [if_pos hret]
      cases hterm : (s.run.sys.threads x).terminated with
      | false =>
        simp only [ThreadRecording.record, join_sleeps hret hterm]
        exact hi.serialize.sleep ht.1 hall hj hterm (hi.nobody hno)
      | true =>
        simp only [ThreadRecording.record, join_ends hret hterm]
        have hex := (hi.owner x hall).2.2.1
        exact { hi.clear hall (hex ▸ hterm) (hi.nobody hno) with }
    · rw [if_neg hret]
      simp only [ThreadRecording.record, join_refused hret]
      exact hi.serialize
  | detach x =>
    obtain rfl := Option.some.inj hcall
    simp only [note]
    by_cases hret : (s.run.sys.pthreadDetach t x).2 = .ok
    · obtain ⟨-, hall, hj, hsys⟩ := detach_ok hret
      rw [if_pos hret]
      simp only [ThreadRecording.record, hsys]
      split
      · next hterm =>
        have hex := (hi.owner x hall).2.2.1
        exact { hi.clear hall (hex ▸ hterm) (hi.nobody hok) with }
      · next hterm =>
        have hrun := Bool.eq_false_of_not_eq_true hterm
        exact { hi.unjoinable hall hrun (hi.nobody hok) with }
    · rw [if_neg hret]
      rcases detach_refused hret with h | h <;> rw [h]
      · exact hi
      · exact hi.serialize
  | resume => cases hcall

variable {s s' : SlotRun} {l : Nat × PthreadOp}

lemma inv_step (hi : Inv s.run.sys s.joining s.gone s.liveThreads) (hok : DetachOk s l)
    (h : step s l = some s') : Inv s'.run.sys s'.joining s'.gone s'.liveThreads := by
  obtain ⟨t, op⟩ := l
  obtain ⟨r, hr, rfl⟩ := Option.map_eq_some_iff.1 h
  obtain ⟨ht, hr⟩ := Option.ite_none_right_eq_some.1 hr
  split at hr
  · next hst => exact inv_note hi ht hok hr
  · cases hr
  rename_i x hst
  obtain ⟨rfl, hr⟩ := Option.ite_none_right_eq_some.1 hr
  cases hr
  exact hi.resume hst

lemma inv_initial : Inv initial.run.sys initial.joining initial.gone initial.liveThreads := by
  have hslot (y : Nat) (hy : (ThreadsSys.initial.threads y).allocated = true) : y = 0 := by
    by_contra hne
    simp [ThreadsSys.initial, update_of_ne hne, TData.zero] at hy
  have hthread (k : Nat) (hk : k < 1) : k = 0 := by omega
  constructor
  case count => decide
  case slot =>
    intro k hk _
    rw [hthread k hk]
    decide
  case owner | wlist_lt =>
    intro y hy
    rw [hslot y hy]
    decide
  case wlist_inj =>
    intro y y' hy hy' _
    rw [hslot y hy, hslot y' hy']
  case fresh => exact fun _ _ => ⟨rfl, rfl⟩
  case joiner => rintro u x (⟨w, hu⟩ | hu) <;> cases hu
  case alone => rintro u u' x (⟨w, hu⟩ | hu) <;> cases hu
  case asleep => rintro u w x ⟨⟩
  case notified => rintro u x ⟨⟩

lemma inv_of_meets (h : Machine.ReachesBy step DetachOk initial s) :
    Inv s.run.sys s.joining s.gone s.liveThreads := by
  obtain ⟨ls, hrun, hmeets⟩ := h
  exact Machine.inv_of_meets step
    (I := fun s => Inv s.run.sys s.joining s.gone s.liveThreads) (fun _ _ _ => inv_step)
    inv_initial hmeets hrun

/-- If no thread is detached while somebody joins it, every exit wakes the joiner. -/
theorem joiners_woken (h : Machine.ReachesBy step DetachOk initial s) : ¬ s.SleepsOnExited := by
  rintro ⟨u, w, x, hu, hex⟩
  have hi := inv_of_meets h
  obtain ⟨-, hall, -, -, hin⟩ := hi.joiner u x (.inl ⟨w, hu⟩)
  have hterm := (hi.owner x hall).2.2.1
  rw [(hi.asleep u w x hu).2, hin, hex] at hterm
  cases hterm

/-- Thread 0 has joined thread 1; thread 2 sleeps in a join of thread 0. -/
theorem joiners_woken_two :
    ∃ s, Machine.ReachesBy step DetachOk initial s ∧ s.run.sys.exited 1 = true ∧
      s.run.sys.engine.status 2 ≠ .enabled ∧ ¬ s.SleepsOnExited :=
  have h : Machine.ReachesBy step DetachOk initial _ :=
    ⟨[(0, .create), (0, .create), (0, .join 1), (1, .exit), (2, .join 0), (0, .resume)], rfl,
      by decide⟩
  ⟨_, h, rfl, by decide, joiners_woken h⟩

/-- Thread 0 sleeps in a join of thread 1; thread 2 detaches thread 1, which then exits. -/
theorem sleeps_on_detached : ∃ s, Machine.Reaches step initial s ∧ s.SleepsOnExited :=
  ⟨_, ⟨[(0, .create), (0, .create), (0, .join 1), (2, .detach 1), (1, .exit)], rfl⟩, 0, 2, 1, rfl, rfl⟩

/-- If no thread is detached while somebody joins it, the table and the counter are right. -/
theorem slots_accounted (h : Machine.ReachesBy step DetachOk initial s) : s.Accounted := by
  have hi := inv_of_meets h
  refine ⟨fun y _ => ⟨fun hy => ?_, ?_⟩, hi.count, fun k k' hk hk' heq => ?_⟩
  · obtain ⟨hlt, hctx, hterm, hj, hkeep⟩ := hi.owner y hy
    refine ⟨_, hlt, hctx, ?_⟩
    rw [← hterm]
    cases ht : (s.run.sys.threads y).terminated with
    | false => exact .inl rfl
    | true =>
      rw [hkeep ht] at hj
      exact .inr (by simpa using hj.symm)
  · rintro ⟨k, hk, rfl, hlive⟩
    exact (hi.slot k hk hlive).1
  · rw [← (hi.slot k hk.1 (.inl hk.2)).2, heq, (hi.slot k' hk'.1 (.inl hk'.2)).2]

theorem slots_accounted_reuse :
    ∃ s, Machine.ReachesBy step DetachOk initial s ∧ s.run.sys.context 2 = 1 ∧
      s.run.sys.context 1 = 1 ∧ s.liveThreads = 2 ∧ s.Accounted :=
  have h : Machine.ReachesBy step DetachOk initial _ :=
    ⟨[(0, .create), (0, .join 1), (1, .exit), (0, .resume), (0, .create)], rfl, by decide⟩
  ⟨_, h, rfl, rfl, rfl, slots_accounted h⟩

/-- Thread 0 is woken from its join of thread 1.  Before it goes on, thread 2 detaches thread 1 and
creates a thread in the slot; then thread 0 clears the slot of this live thread, and the next
thread gets it as well. -/
theorem slot_shared : ∃ s, Machine.Reaches step initial s ∧ ¬ s.Accounted ∧ s.Live 3 ∧ s.Live 4 ∧
    s.run.sys.context 3 = s.run.sys.context 4 :=
  ⟨_, ⟨[(0, .create), (0, .create), (0, .join 1), (1, .exit), (2, .detach 1), (2, .create),
    (0, .resume), (0, .create)], rfl⟩,
    fun h => absurd (h.slots 3 4 ⟨by decide, rfl⟩ ⟨by decide, rfl⟩ rfl) (by decide),
    ⟨by decide, rfl⟩, ⟨by decide, rfl⟩, rfl⟩

end SlotRun

end InputCovSched
