import InputCovSched.Symbolic.Rwlock

/-!
# Exclusion of the symbolic read-write lock

A woken thread enters without a test, so a reader or a writer that enters between the
notify and the wake-up ends up inside together with the thread that was woken; the same
happens when the last reader hands over to a writer while woken readers are still to run.

    a reader enters after the notify of a writer  (reader_joins_writer)
    no entry and no hand-over past a woken thread → Exclusive  (exclusive_of_noOvertaking)
-/

namespace InputCovSched

open Tally Function List

namespace RwSys

def pendingRead : Status RwRest → Bool
  | .notified (.rdlock _) => true
  | _ => false

def pendingWrite : Status RwRest → Bool
  | .notified (.wrlock _) => true
  | _ => false

def sleepsWrite : Status RwRest → Bool
  | .asleep _ (.wrlock _) => true
  | _ => false

def readsIn (hs : List Hold) : Nat := hs.countP fun h => !h.write

def writesIn (hs : List Hold) : Nat := hs.countP fun h => h.write

section
variable (n : Nat) (s : RwSys)

def reads : Nat := total n readsIn s.held

def writes : Nat := total n writesIn s.held

def pendingReaders : Nat := countIf n pendingRead s.engine.status

def pendingWriters : Nat := countIf n pendingWrite s.engine.status

def sleepingWriters : Nat := countIf n sleepsWrite s.engine.status

/-- Nobody gets in the way of a woken thread: no reader enters while a woken writer is to
run, no writer enters while anybody woken is to run, and the last reader does not hand over
to a writer while woken readers are to run. -/
def NoOvertaking : Nat × RwOp → Prop
  | (_, .rdlock _ _) => s.rw.writer = true ∨ s.rw.nrWritersQueued ≠ 0 ∨ pendingWriters n s = 0
  | (_, .wrlock _ _) =>
    s.rw.writer = true ∨ s.rw.nrReaders ≠ 0 ∨ (pendingReaders n s = 0 ∧ pendingWriters n s = 0)
  | (_, .unlock _ _) =>
    s.rw.writer = true ∨ s.rw.nrReaders ≠ 1 ∨ s.rw.nrWritersQueued = 0 ∨ pendingReaders n s = 0
  | (_, .resume) => True

instance : ∀ l, Decidable (NoOvertaking n s l)
  | (_, .rdlock _ _) => inferInstanceAs (Decidable (_ ∨ _ ∨ _))
  | (_, .wrlock _ _) => inferInstanceAs (Decidable (_ ∨ _ ∨ (_ ∧ _)))
  | (_, .unlock _ _) => inferInstanceAs (Decidable (_ ∨ _ ∨ _ ∨ _))
  | (_, .resume) => isTrue trivial

end

/-- The waiting list on which a caller sleeps. -/
def listOf (rw : Rwlock) : RwRest → Nat
  | .rdlock _ => rw.wlistReaders
  | .wrlock _ => rw.wlistWriters

/-- The two waiting lists differ, and who sleeps sleeps on the right one. -/
structure Lists (rw : Rwlock) (k : KState RwRest) : Prop where
  ne : rw.wlistReaders ≠ 0 → rw.wlistReaders ≠ rw.wlistWriters
  asleep : ∀ t w rest, k.status t = .asleep w rest → rw.wlistReaders ≠ 0 ∧ w = listOf rw rest
  fresh : 0 < k.nextWlist

/-- The counters of the lock count what they are for, and the lock is in one of three
modes: a writer inside, a writer about to enter, or readers only. -/
structure Inv (n : Nat) (s : RwSys) : Prop where
  lists : Lists s.rw s.engine
  outside : ∀ t, n ≤ t → s.held t = []
  readers : s.rw.nrReaders = reads n s
  readers_lt : s.rw.nrReaders < 2 ^ 32
  writer : s.rw.writer.toNat = writes n s
  queued : s.rw.nrWritersQueued = sleepingWriters n s
  queued_lt : s.rw.nrWritersQueued < 2 ^ 32
  mode :
    (writes n s = 1 ∧ reads n s = 0 ∧ pendingReaders n s = 0 ∧ pendingWriters n s = 0) ∨
    (writes n s = 0 ∧ reads n s = 0 ∧ pendingReaders n s = 0 ∧ pendingWriters n s = 1) ∨
    (writes n s = 0 ∧ pendingWriters n s = 0)

variable {n t ctx : Nat} {pick : Option Nat} {s s' : RwSys} {op : RwOp} {hs : List Hold}
  {rw : Rwlock}

/-! ## Counting holds -/

lemma readsIn_cons (h : Hold) (hs : List Hold) :
    readsIn (h :: hs) = readsIn hs + (!h.write).toNat := by
  unfold readsIn
  rw [countP_cons]
  cases h.write <;> rfl

lemma writesIn_cons (h : Hold) (hs : List Hold) :
    writesIn (h :: hs) = writesIn hs + h.write.toNat := by
  unfold writesIn
  rw [countP_cons]
  cases h.write <;> rfl

section
variable {w : List Hold → Nat} {d : Hold → Nat} (hw : ∀ h hs, w (h :: hs) = w hs + d h)

include hw

lemma total_push (ht : t < n) (h : Hold) :
    total n w (update s.held t (h :: s.held t)) = total n w s.held + d h := by
  have := total_update (w := w) (f := s.held) ht (h :: s.held t)
  rw [hw] at this
  omega

lemma total_pop (ht : t < n) (hheld : s.held t = h :: hs) :
    total n w (update s.held t hs) + d h = total n w s.held := by
  have := total_update (w := w) (f := s.held) ht hs
  rw [hheld, hw] at this
  omega

end

lemma counts_congr (n : Nat) (h : s'.engine.status = s.engine.status) :
    pendingReaders n s' = pendingReaders n s ∧ pendingWriters n s' = pendingWriters n s ∧
      sleepingWriters n s' = sleepingWriters n s := by
  unfold pendingReaders pendingWriters sleepingWriters
  rw [h]
  exact ⟨rfl, rfl, rfl⟩

lemma outside_update (hi : Inv n s) (ht : t < n) (hs : List Hold) :
    ∀ u, n ≤ u → update s.held t hs u = [] := by
  intro u hu
  rw [update_of_ne (by omega)]
  exact hi.outside u hu

/-! ## One lemma for each move -/

lemma Lists.mono (h : Lists rw k)
    (h1 : rw'.wlistReaders = rw.wlistReaders) (h2 : rw'.wlistWriters = rw.wlistWriters)
    (h3 : ∀ u w rest, k'.status u = .asleep w rest → k.status u = .asleep w rest)
    (h4 : k'.nextWlist = k.nextWlist) : Lists rw' k' where
  ne := by
    rw [h1, h2]
    exact h.ne
  asleep := by
    intro u w rest hu
    have hold := h.asleep u w rest (h3 u w rest hu)
    cases rest with
    | rdlock c => exact ⟨h1 ▸ hold.1, hold.2.trans h1.symm⟩
    | wrlock c => exact ⟨h1 ▸ hold.1, hold.2.trans h2.symm⟩
  fresh := h4 ▸ h.fresh

variable {k : KState RwRest} {rest : RwRest}

lemma Lists.sleep (rw' : Rwlock) (h : Lists rw k)
    (hl : rw.wlistReaders ≠ 0) (h1 : rw'.wlistReaders = rw.wlistReaders)
    (h2 : rw'.wlistWriters = rw.wlistWriters) (t : Nat) (rest : RwRest) :
    Lists rw' (k.kleeThreadSleep t (listOf rw rest) rest) where
  ne := by
    rw [h1, h2]
    exact h.ne
  asleep := by
    have hlist : ∀ r, listOf rw' r = listOf rw r := by
      intro r
      cases r with
      | rdlock c => exact h1
      | wrlock c => exact h2
    intro u w r hu
    rw [hlist, h1]
    by_cases hut : u = t
    · rw [hut, KState.kleeThreadSleep_status, update_self] at hu
      cases hu
      exact ⟨hl, rfl⟩
    · rw [KState.kleeThreadSleep_status, update_of_ne hut] at hu
      exact h.asleep u w r hu
  fresh := h.fresh

lemma Lists.checkInit (h : Lists rw k) :
    Lists (rwlockCheckInit rw k).1 (rwlockCheckInit rw k).2 ∧
      (rwlockCheckInit rw k).1.wlistReaders ≠ 0 := by
  unfold rwlockCheckInit
  split
  · rename_i hz
    -- the lists are new, and nobody slept on the old ones
    have := h.fresh
    refine ⟨⟨fun _ => ?_, fun t w r hst => absurd hz (h.asleep t w r hst).1, ?_⟩, ?_⟩ <;>
      simp only [Rwlock.getWlists, KState.kleeGetWlist] <;> omega
  · rename_i hz
    exact ⟨h, hz⟩

lemma inv_initial (static : Bool) : Inv n (initial static) := by
  have h1 : total n readsIn (fun _ => []) = 0 := total_eq_zero.2 fun i _ => rfl
  have h2 : total n writesIn (fun _ => []) = 0 := total_eq_zero.2 fun i _ => rfl
  have h3 : countIf n pendingWrite (fun _ => .enabled) = 0 := countIf_eq_zero.2 fun i _ => rfl
  have h4 : countIf n sleepsWrite (fun _ => .enabled) = 0 := countIf_eq_zero.2 fun i _ => rfl
  have hmax : 0 < 2 ^ 32 := by decide
  have hzero : Lists .zero .boot :=
    ⟨fun h => absurd rfl h, fun t w k h => by simp [KState.boot] at h, by decide⟩
  cases static
  · exact ⟨hzero.checkInit.1, fun _ _ => rfl, h1.symm, hmax, h2.symm, h4.symm, hmax,
      .inr (.inr ⟨h2, h3⟩)⟩
  · exact ⟨hzero, fun _ _ => rfl, h1.symm, hmax, h2.symm, h4.symm, hmax, .inr (.inr ⟨h2, h3⟩)⟩

lemma Inv.refuse (hi : Inv n s) (t : Nat) : Inv n (s.refuse t) :=
  { hi with lists := { hi.lists with } }

lemma Inv.checked (hi : Inv n s) : Inv n s.checked := by
  refine ⟨hi.lists.checkInit.1, hi.outside, ?_, ?_, ?_, ?_, ?_, ?_⟩ <;>
    simp only [RwSys.checked, reads, writes, pendingReaders, pendingWriters, sleepingWriters,
      rwlockCheckInit_nrReaders, rwlockCheckInit_writer, rwlockCheckInit_nrWritersQueued,
      rwlockCheckInit_status]
  · exact hi.readers
  · exact hi.readers_lt
  · exact hi.writer
  · exact hi.queued
  · exact hi.queued_lt
  · exact hi.mode

lemma Inv.sleepRead (hi : Inv n s) (hl : s.rw.wlistReaders ≠ 0)
    (hst : s.engine.status t = .enabled) (c : Nat) : Inv n (s.sleepRead t c) := by
  have hR : pendingReaders n (s.sleepRead t c) = pendingReaders n s :=
    countIf_update_same (by rw [hst]; rfl)
  have hW : pendingWriters n (s.sleepRead t c) = pendingWriters n s :=
    countIf_update_same (by rw [hst]; rfl)
  have hQ : sleepingWriters n (s.sleepRead t c) = sleepingWriters n s :=
    countIf_update_same (by rw [hst]; rfl)
  exact { hi with
    lists := hi.lists.sleep (s.sleepRead t c).rw hl rfl rfl t (.rdlock c)
    queued := hi.queued.trans hQ.symm
    mode := by rw [hR, hW]; exact hi.mode }

lemma Inv.sleepWrite (hi : Inv n s) (hl : s.rw.wlistReaders ≠ 0) (ht : t < n)
    (hst : s.engine.status t = .enabled) (hroom : (s.rw.nrWritersQueued + 1) % 2 ^ 32 ≠ 0)
    (c : Nat) : Inv n (s.sleepWrite t c) := by
  have hR : pendingReaders n (s.sleepWrite t c) = pendingReaders n s :=
    countIf_update_same (by rw [hst]; rfl)
  have hW : pendingWriters n (s.sleepWrite t c) = pendingWriters n s :=
    countIf_update_same (by rw [hst]; rfl)
  have hQ : sleepingWriters n (s.sleepWrite t c) = sleepingWriters n s + 1 := by
    have := countIf_update (p := sleepsWrite) (f := s.engine.status) ht
      (.asleep s.rw.wlistWriters (.wrlock c))
    rw [hst] at this
    exact this
  have hq := hi.queued
  have hlt := hi.queued_lt
  have hnew : (s.sleepWrite t c).rw.nrWritersQueued = s.rw.nrWritersQueued + 1 := by
    simp only [RwSys.sleepWrite]
    omega
  exact { hi with
    lists := hi.lists.sleep (s.sleepWrite t c).rw hl rfl rfl t (.wrlock c)
    queued := by omega
    queued_lt := by omega
    mode := by rw [hR, hW]; exact hi.mode }

lemma counts_wake (s : RwSys) (ht : t < n) :
    pendingReaders n (s.wake t) + (pendingRead (s.engine.status t)).toNat = pendingReaders n s ∧
    pendingWriters n (s.wake t) + (pendingWrite (s.engine.status t)).toNat = pendingWriters n s :=
  ⟨countIf_update (f := s.engine.status) ht .enabled,
    countIf_update (f := s.engine.status) ht .enabled⟩

lemma Inv.wake (hi : Inv n s) (ht : t < n)
    (hst : s.engine.status t = .notified rest) : Inv n (s.wake t) := by
  obtain ⟨hR, hW⟩ := counts_wake s ht
  have hQ : sleepingWriters n (s.wake t) = sleepingWriters n s :=
    countIf_update_same (by rw [hst]; rfl)
  have hsame : writes n (s.wake t) = writes n s ∧ reads n (s.wake t) = reads n s := ⟨rfl, rfl⟩
  have hmode := hi.mode
  refine { hi with
    lists := hi.lists.mono rfl rfl (fun u w k hu => ?_) rfl
    queued := hi.queued.trans hQ.symm
    mode := by omega }
  by_cases hut : u = t
  · simp [RwSys.wake, hut] at hu
  · simpa [RwSys.wake, update_of_ne hut] using hu

lemma Inv.enterRead (hi : Inv n s) (ht : t < n) (hw : writes n s = 0)
    (hp : pendingWriters n s = 0) (hroom : (s.rw.nrReaders + 1) % 2 ^ 32 ≠ 0) (c : Nat) :
    Inv n (s.enterRead t c) := by
  have hr : reads n (s.enterRead t c) = reads n s + 1 := total_push readsIn_cons ht _
  have hw' : writes n (s.enterRead t c) = writes n s := total_push writesIn_cons ht _
  have hlt := hi.readers_lt
  have hrd := hi.readers
  have hnew : (s.enterRead t c).rw.nrReaders = s.rw.nrReaders + 1 := by
    simp only [RwSys.enterRead, finish]
    omega
  exact { hi with
    lists := { hi.lists with }
    outside := outside_update hi ht _
    readers := by omega
    readers_lt := by omega
    writer := hi.writer.trans hw'.symm
    mode := .inr (.inr ⟨by omega, hp⟩) }

lemma enterWrite_frame (s : RwSys) (t c : Nat) :
    (s.enterWrite t c).rw.wlistReaders = s.rw.wlistReaders ∧
    (s.enterWrite t c).rw.wlistWriters = s.rw.wlistWriters ∧
    (s.enterWrite t c).rw.nrReaders = s.rw.nrReaders ∧
    (s.enterWrite t c).rw.nrWritersQueued = s.rw.nrWritersQueued ∧
    (s.enterWrite t c).rw.writer = true ∧
    (s.enterWrite t c).engine.status = s.engine.status ∧
    (s.enterWrite t c).engine.nextWlist = s.engine.nextWlist ∧
    (s.enterWrite t c).engine.turn = none ∧
    ∃ acq, (s.enterWrite t c).held = update s.held t (⟨true, acq⟩ :: s.held t) := by
  unfold RwSys.enterWrite wrlockTail
  dsimp only
  split
  · exact ⟨rfl, rfl, rfl, rfl, rfl, rfl, rfl, rfl, _, rfl⟩
  · exact ⟨rfl, rfl, rfl, rfl, rfl, rfl, rfl, rfl, _, rfl⟩

lemma Inv.enterWrite (hi : Inv n s) (ht : t < n) (hw : writes n s = 0) (hr : reads n s = 0)
    (hpr : pendingReaders n s = 0) (hpw : pendingWriters n s = 0) (c : Nat) :
    Inv n (s.enterWrite t c) := by
  obtain ⟨h1, h2, h3, h4, h5, h6, h7, -, acq, h8⟩ := enterWrite_frame s t c
  have hr' : reads n (s.enterWrite t c) = reads n s := by
    unfold reads
    rw [h8]
    exact total_push readsIn_cons ht _
  have hw' : writes n (s.enterWrite t c) = writes n s + 1 := by
    unfold writes
    rw [h8]
    exact total_push writesIn_cons ht _
  obtain ⟨hpr', hpw', hq'⟩ := counts_congr n h6
  exact ⟨hi.lists.mono h1 h2 (fun u w k hu => h6 ▸ hu) h7, by rw [h8]; exact outside_update hi ht _,
    by rw [h3, hr']; exact hi.readers, by rw [h3]; exact hi.readers_lt, by rw [h5, hw', hw]; rfl,
    by rw [h4, hq']; exact hi.queued, by rw [h4]; exact hi.queued_lt, .inl (by omega)⟩

lemma release_frame (s : RwSys) (t ctx : Nat) (h : Hold) (hs : List Hold) :
    (s.release t ctx h hs).rw.wlistReaders = s.rw.wlistReaders ∧
    (s.release t ctx h hs).rw.wlistWriters = s.rw.wlistWriters ∧
    (s.release t ctx h hs).rw.nrWritersQueued = s.rw.nrWritersQueued ∧
    (s.release t ctx h hs).rw.writer = false ∧
    (s.release t ctx h hs).rw.nrReaders = s.rw.nrReaders - (!s.rw.writer).toNat ∧
    (s.release t ctx h hs).engine.status = s.engine.status ∧
    (s.release t ctx h hs).engine.nextWlist = s.engine.nextWlist ∧
    (s.release t ctx h hs).held = update s.held t hs := by
  cases hw : s.rw.writer <;> simp [RwSys.release, rwlockRelease, hw, KState.kleeAddHbnode,
    KState.kleeAddHbnodeToHbgroup]

lemma Inv.release (hi : Inv n s) (ctx : Nat) (ht : t < n)
    (hheld : s.held t = h :: hs) (hsome : s.rw.writer = true ∨ s.rw.nrReaders ≠ 0) :
    Inv n (s.release t ctx h hs) ∧ writes n (s.release t ctx h hs) = 0 ∧
    pendingWriters n (s.release t ctx h hs) = 0 ∧
    pendingReaders n (s.release t ctx h hs) = pendingReaders n s ∧
    (s.rw.writer = true → pendingReaders n s = 0) := by
  obtain ⟨h1, h2, h3, h4, h5, h6, h7, h8⟩ := release_frame s t ctx h hs
  have hr : reads n (s.release t ctx h hs) + (!h.write).toNat = reads n s := by
    unfold reads
    exact total_pop readsIn_cons ht hheld
  have hw : writes n (s.release t ctx h hs) + h.write.toNat = writes n s := by
    unfold writes
    exact total_pop writesIn_cons ht hheld
  obtain ⟨hpr, hpw, hq⟩ := counts_congr n h6
  have hrd := hi.readers
  have hwr := hi.writer
  have hlt := hi.readers_lt
  have hmode := hi.mode
  -- the writer flag says what kind of hold this is
  have hkind : h.write = s.rw.writer := by
    cases hk : h.write <;> cases hf : s.rw.writer <;> simp [hk, hf] at hr hw hwr hsome ⊢ <;> omega
  have hnum : writes n (s.release t ctx h hs) = 0 ∧ pendingWriters n s = 0 ∧
      (s.release t ctx h hs).rw.nrReaders = reads n (s.release t ctx h hs) ∧
      (s.rw.writer = true → pendingReaders n s = 0) := by
    rw [hkind] at hr hw
    rw [h5]
    cases hf : s.rw.writer <;> simp [hf] at hr hw hwr hsome ⊢ <;> omega
  refine ⟨⟨hi.lists.mono h1 h2 (fun u w k hu => h6 ▸ hu) h7,
    by rw [h8]; exact outside_update hi ht _, hnum.2.2.1, by omega, by rw [h4, hnum.1]; rfl,
    by rw [h3, hq]; exact hi.queued, by rw [h3]; exact hi.queued_lt, .inr (.inr ⟨?_, ?_⟩)⟩,
    ?_, ?_, hpr, hnum.2.2.2⟩ <;> omega

lemma notifyAll_readers (hi : Inv n s) (u : Nat) (p : Status RwRest → Bool)
    (hp : ∀ w c, p (.asleep w (.rdlock c)) = p (.notified (.rdlock c))) :
    p ((s.engine.kleeThreadNotifyAll s.rw.wlistReaders).status u) = p (s.engine.status u) := by
  simp only [KState.kleeThreadNotifyAll]
  split
  · rename_i hwait
    cases hst : s.engine.status u with
    | enabled => rfl
    | notified k => rfl
    | asleep w k =>
      obtain ⟨hl, hw⟩ := hi.lists.asleep u w k hst
      have hwl : w = s.rw.wlistReaders := by simpa [hst, Status.waitsOn] using hwait
      cases k with
      | rdlock c => exact (hp w c).symm
      | wrlock c => exact absurd (hwl.symm.trans hw) (hi.lists.ne hl)
  · rfl

lemma notifyOne_writer (hi : Inv n s) (hq : s.rw.nrWritersQueued ≠ 0)
    (hk : s.engine.kleeThreadNotifyOne n s.rw.wlistWriters pick = some k) :
    ∃ w c, w < n ∧ s.engine.status w = .asleep s.rw.wlistWriters (.wrlock c) ∧
      k = { s.engine with status := update s.engine.status w (.notified (.wrlock c)) } := by
  rcases KState.kleeThreadNotifyOne_cases hk with ⟨-, -, hno⟩ | ⟨w, rest, -, hw, hst, rfl⟩
  · have hpos : 0 < sleepingWriters n s := by
      have := hi.queued
      omega
    obtain ⟨u, hu, hsl⟩ := countIf_pos.1 hpos
    unfold sleepsWrite at hsl
    split at hsl
    · rename_i wl c hst
      have hwl : wl = s.rw.wlistWriters := (hi.lists.asleep u wl _ hst).2
      have := hno u hu
      simp [hst, hwl, Status.waitsOn] at this
    · cases hsl
  · obtain ⟨hl, hlist⟩ := hi.lists.asleep w _ rest hst
    cases rest with
    | rdlock c => exact absurd hlist.symm (hi.lists.ne hl)
    | wrlock c => exact ⟨w, c, hw, hst, rfl⟩

lemma Inv.notify (hi : Inv n s) (hw : writes n s = 0) (hpw : pendingWriters n s = 0)
    (hpr : s.rw.nrReaders = 0 → s.rw.nrWritersQueued ≠ 0 → pendingReaders n s = 0)
    (h : notify n s pick = some s') : Inv n s' := by
  obtain ⟨⟨rw, k⟩, hn, rfl⟩ := Option.map_eq_some_iff.1 h
  rcases rwlockNotify_cases hn with ⟨hr0, hq0, rfl, hk⟩ | ⟨-, ⟨rfl, rfl⟩ | ⟨rfl, rfl⟩⟩
  · -- a writer is woken
    obtain ⟨w, c, hwn, hst, rfl⟩ := notifyOne_writer hi hq0 hk
    have hW := countIf_update (p := pendingWrite) (f := s.engine.status) hwn (.notified (.wrlock c))
    have hQ := countIf_update (p := sleepsWrite) (f := s.engine.status) hwn (.notified (.wrlock c))
    have hR : countIf n pendingRead (update s.engine.status w (.notified (.wrlock c))) =
        pendingReaders n s := countIf_update_same (by rw [hst]; rfl)
    rw [hst] at hW hQ
    have hq := hi.queued
    have hlt := hi.queued_lt
    have hrd := hi.readers
    refine ⟨hi.lists.mono rfl rfl (fun u wl r hu => ?_) rfl, hi.outside, hi.readers, hi.readers_lt,
      hi.writer, ?_, by dsimp only; omega, .inr (.inl ⟨hw, by rw [← hr0]; exact hrd.symm, ?_, ?_⟩)⟩
    · by_cases huw : u = w
      · simp [huw] at hu
      · simpa [update_of_ne huw] using hu
    · have hQ' : countIf n sleepsWrite _ + 1 = sleepingWriters n s := hQ
      show s.rw.nrWritersQueued - 1 = countIf n sleepsWrite _
      rw [hq, ← hQ', Nat.add_sub_cancel]
      rfl
    · exact hR.trans (hpr hr0 hq0)
    · have hW' : countIf n pendingWrite _ + 0 = pendingWriters n s + 1 := hW
      rw [hpw] at hW'
      exact hW'
  · -- all sleeping readers are woken
    have hQ : countIf n sleepsWrite (s.engine.kleeThreadNotifyAll s.rw.wlistReaders).status =
        sleepingWriters n s :=
      countIf_congr fun u _ => notifyAll_readers hi u sleepsWrite fun _ _ => rfl
    have hW : countIf n pendingWrite (s.engine.kleeThreadNotifyAll s.rw.wlistReaders).status =
        pendingWriters n s :=
      countIf_congr fun u _ => notifyAll_readers hi u pendingWrite fun _ _ => rfl
    refine { hi with
      lists := hi.lists.mono rfl rfl (fun u w r hu => ?_) rfl
      queued := hi.queued.trans hQ.symm
      mode := .inr (.inr ⟨hw, hW.trans hpw⟩) }
    -- who still sleeps slept before
    simp only [KState.kleeThreadPreempt_status, KState.kleeThreadNotifyAll] at hu
    split at hu
    · cases hst : s.engine.status u <;> simp [hst, Status.wake] at hu
    · exact hu
  · exact { hi with lists := { hi.lists with } }

/-! ## The invariant over steps -/

@[simp] lemma checked_status (s : RwSys) : s.checked.engine.status = s.engine.status :=
  rwlockCheckInit_status _ _

@[simp] lemma pendingReaders_checked (n : Nat) (s : RwSys) :
    pendingReaders n s.checked = pendingReaders n s :=
  (counts_congr n (checked_status s)).1

@[simp] lemma pendingWriters_checked (n : Nat) (s : RwSys) :
    pendingWriters n s.checked = pendingWriters n s :=
  (counts_congr n (checked_status s)).2.1

lemma inv_step (hi : Inv n s) (hg : NoOvertaking n s (t, op))
    (h : step n s (t, op) = some s') : Inv n s' := by
  have hc := hi.checked
  have hl : s.checked.rw.wlistReaders ≠ 0 := hi.lists.checkInit.2
  have hwr := hi.writer
  have hrd := hi.readers
  have hw0 : s.rw.writer = false → writes n s = 0 := by
    intro hf
    rw [hf] at hwr
    exact hwr.symm
  obtain ⟨ht, -, ⟨ctx, try_, rfl, hst, rfl⟩ | ⟨ctx, try_, rfl, hst, rfl⟩ |
    ⟨ctx, pick, rfl, hst, hun⟩ | ⟨rest, rfl, hst, rfl⟩⟩ := step_cases h
  · -- rdlock
    rcases rdlock_cases s t ctx try_ with ⟨-, heq | heq⟩ | ⟨hf, hq, ⟨-, heq⟩ | ⟨hroom, heq⟩⟩ <;>
      rw [heq]
    · exact hc.refuse t
    · exact hc.sleepRead hl (by simpa using hst) _
    · exact hc.refuse t
    · have hp : pendingWriters n s = 0 := by
        simpa [NoOvertaking, hf, hq] using hg
      exact hc.enterRead ht (hw0 hf) (by simpa using hp) (by simpa [RwSys.checked] using hroom) _
  · -- wrlock
    rcases wrlock_cases s t ctx try_ with ⟨-, heq | ⟨hroom, heq⟩⟩ | ⟨hf, hr, heq⟩ <;> rw [heq]
    · exact hc.refuse t
    · exact hc.sleepWrite hl ht (by simpa using hst) (by simpa [RwSys.checked] using hroom) _
    have hp : pendingReaders n s = 0 ∧ pendingWriters n s = 0 := by
      simpa [NoOvertaking, hf, hr] using hg
    exact hc.enterWrite ht (hw0 hf) (hrd.symm.trans hr) (by simpa using hp.1)
      (by simpa using hp.2) _
  · -- unlock
    obtain ⟨hd, hs, hheld, ⟨-, -, rfl⟩ | ⟨hsome, hn⟩⟩ := unlock_cases hun
    · exact hi.refuse t
    obtain ⟨hi', hw', hpw', hpr', hpr0⟩ := hi.release ctx ht hheld hsome
    obtain ⟨-, -, h3, -, h5, -⟩ := release_frame s t ctx hd hs
    refine hi'.notify hw' hpw' (fun hr0 hq0 => ?_) hn
    rw [hpr']
    cases hf : s.rw.writer with
    | true => exact hpr0 hf
    | false =>
      -- the last reader left: the guard speaks about this state
      rw [hf] at h5 hsome
      have hone : s.rw.nrReaders = 1 := by
        simp only [Bool.not_false, Bool.toNat_true, Bool.false_eq_true, false_or] at h5 hsome
        omega
      simpa [NoOvertaking, hf, hone, h3 ▸ hq0] using hg
  · -- a woken thread
    have hst' : s.checked.engine.status t = .notified rest := by simpa using hst
    have hwk := hc.wake ht hst'
    obtain ⟨hR, hW⟩ := counts_wake s.checked ht
    rw [hst'] at hR hW
    have hmode := hc.mode
    have hsame : writes n (s.checked.wake t) = writes n s.checked ∧
      reads n (s.checked.wake t) = reads n s.checked := ⟨rfl, rfl⟩
    cases rest with
    | rdlock c =>
      simp only [pendingRead, pendingWrite, Bool.toNat_true, Bool.toNat_false] at hR hW
      rcases resume_rdlock s t c with ⟨-, heq⟩ | ⟨hroom, heq⟩ <;> rw [heq]
      · exact hwk.refuse t
      · exact hwk.enterRead ht (by omega) (by omega)
          (by simpa [RwSys.checked, RwSys.wake] using hroom) c
    | wrlock c =>
      simp only [pendingRead, pendingWrite, Bool.toNat_true, Bool.toNat_false] at hR hW
      rw [resume_wrlock]
      exact hwk.enterWrite ht (by omega) (by omega) (by omega) (by omega) c

lemma Inv.exclusive (hi : Inv n s) : s.Exclusive := by
  intro t h hh hwrite
  have ht : t < n := by
    by_contra hge
    rw [hi.outside t (by omega)] at hh
    cases hh
  have hone : 1 ≤ writesIn (s.held t) := countP_pos_iff.2 ⟨h, hh, hwrite⟩
  have hle : writesIn (s.held t) ≤ writes n s := le_total ht
  have hmode := hi.mode
  have hlen : ∀ hs : List Hold, hs.length = readsIn hs + writesIn hs := by
    intro hs
    induction hs with
    | nil => rfl
    | cons x xs ih =>
      rw [readsIn_cons, writesIn_cons, length_cons, ih]
      cases x.write <;> simp <;> omega
  have hreads : ∀ u, u < n → readsIn (s.held u) = 0 := total_eq_zero.1 (by omega : reads n s = 0)
  constructor
  · have h1 : (s.held t).length = 1 := by
      have := hlen (s.held t)
      have := hreads t ht
      omega
    obtain ⟨x, hx⟩ := length_eq_one_iff.1 h1
    rw [hx] at hh ⊢
    rw [mem_singleton.1 hh]
  · intro u hut
    by_cases hu : u < n
    · -- without the holds of t no write is left
      have hrest := total_update (w := writesIn) (f := s.held) ht []
      have hzero : total n writesIn (update s.held t []) = 0 := by
        have : writesIn [] = 0 := rfl
        have : total n writesIn s.held = writes n s := rfl
        omega
      have hnone := total_eq_zero.1 hzero u hu
      rw [update_of_ne hut] at hnone
      apply eq_nil_of_length_eq_zero
      have := hlen (s.held u)
      have := hreads u hu
      omega
    · exact hi.outside u (by omega)

/-! ## What happens without the guard -/

lemma exists_pendingWriter (h : pendingWriters n s ≠ 0) :
    ∃ w c, w < n ∧ s.engine.status w = .notified (.wrlock c) := by
  obtain ⟨w, hw, hp⟩ := countIf_pos.1 (pos_of_ne_zero h)
  unfold pendingWrite at hp
  split at hp
  · rename_i c hst
    exact ⟨w, c, hw, hst⟩
  · cases hp

lemma exists_pendingReader (h : pendingReaders n s ≠ 0) :
    ∃ w c, w < n ∧ s.engine.status w = .notified (.rdlock c) := by
  obtain ⟨w, hw, hp⟩ := countIf_pos.1 (pos_of_ne_zero h)
  unfold pendingRead at hp
  split at hp
  · rename_i c hst
    exact ⟨w, c, hw, hst⟩
  · cases hp

lemma step_resume (hturn : s.engine.turn = none) (hw : w < n)
    (hst : s.engine.status w = .notified rest) : step n s (w, .resume) = some (s.resume w rest) := by
  simp [step, hw, KState.canRun_of_turn_none hturn, hst]

lemma breaks_of_writer (hturn : s.engine.turn = none)
    (hp : pendingWriters n s ≠ 0) (hheld : s.held u ≠ []) :
    ∃ s', Machine.Reaches (step n) s s' ∧ ¬ s'.Exclusive := by
  obtain ⟨w, c, hw, hst⟩ := exists_pendingWriter hp
  refine ⟨_, Machine.Reaches.head _ (step_resume hturn hw hst) (.refl _ _), fun hex => ?_⟩
  rw [resume_wrlock] at hex
  obtain ⟨-, -, -, -, -, -, -, -, acq, hheld'⟩ := enterWrite_frame (s.checked.wake w) w c
  have hmem : (⟨true, acq⟩ : Hold) ∈ ((s.checked.wake w).enterWrite w c).held w := by
    rw [hheld', update_self]
    exact mem_cons_self
  obtain ⟨hone, hothers⟩ := hex w _ hmem rfl
  by_cases huw : u = w
  · rw [hheld', update_self] at hone
    exact hheld (huw ▸ tail_eq_of_cons_eq hone)
  have := hothers u huw
  rw [hheld', update_of_ne huw] at this
  exact hheld this

lemma breaks_of_reader (hturn : s.engine.turn = none)
    (hp : pendingReaders n s ≠ 0) (hheld : h ∈ s.held u) (hwrite : h.write = true)
    (hroom : s.rw.nrReaders = 0) :
    ∃ s', Machine.Reaches (step n) s s' ∧ ¬ s'.Exclusive := by
  obtain ⟨w, c, hw, hst⟩ := exists_pendingReader hp
  refine ⟨_, Machine.Reaches.head _ (step_resume hturn hw hst) (.refl _ _), fun hex => ?_⟩
  rcases resume_rdlock s w c with ⟨hz, -⟩ | ⟨-, heq⟩
  · omega
  rw [heq] at hex
  have hheld' : ∃ acq, ((s.checked.wake w).enterRead w c).held =
      update s.held w (⟨false, acq⟩ :: s.held w) := ⟨_, rfl⟩
  obtain ⟨acq, hheld'⟩ := hheld'
  by_cases huw : u = w
  · have hmem : h ∈ ((s.checked.wake w).enterRead w c).held w := by
      rw [hheld', update_self, ← huw]
      exact mem_cons_of_mem _ hheld
    obtain ⟨hone, -⟩ := hex w h hmem hwrite
    rw [hheld', update_self] at hone
    have := tail_eq_of_cons_eq hone
    rw [huw, this] at hheld
    cases hheld
  · have hmem : h ∈ ((s.checked.wake w).enterRead w c).held u := by
      rw [hheld', update_of_ne huw]
      exact hheld
    have := (hex u h hmem hwrite).2 w (Ne.symm huw)
    rw [hheld', update_self] at this
    cases this

lemma pendingWriters_ne_zero (hw : w < n)
    (hst : s.engine.status w = .notified (.wrlock c)) : pendingWriters n s ≠ 0 :=
  Nat.pos_iff_ne_zero.1 (countIf_pos.2 ⟨w, hw, by rw [hst]; rfl⟩)

lemma breaks_of_both (hturn : s.engine.turn = none) (hpr : pendingReaders n s ≠ 0)
    (hpw : pendingWriters n s ≠ 0) (hroom : s.rw.nrReaders = 0) :
    ∃ s', Machine.Reaches (step n) s s' ∧ ¬ s'.Exclusive := by
  obtain ⟨r, c, hr, hst⟩ := exists_pendingReader hpr
  obtain ⟨w, c', hw, hst'⟩ := exists_pendingWriter hpw
  have hwr : w ≠ r := by
    rintro rfl
    rw [hst] at hst'
    cases hst'
  rcases resume_rdlock s r c with ⟨hz, -⟩ | ⟨-, heq⟩
  · omega
  have hpw' : pendingWriters n (s.resume r (.rdlock c)) ≠ 0 := by
    apply pendingWriters_ne_zero hw
    rw [heq]
    show update s.checked.engine.status r .enabled w = _
    rw [update_of_ne hwr, checked_status, hst']
  have hheld : (s.resume r (.rdlock c)).held r ≠ [] := by
    rw [heq]
    simp [RwSys.enterRead, finish]
  have hturn' : (s.resume r (.rdlock c)).engine.turn = none := by
    rw [heq]
    rfl
  obtain ⟨s', hreach, hno⟩ := breaks_of_writer hturn' hpw' hheld
  exact ⟨s', Machine.Reaches.head _ (step_resume hturn hr hst) hreach, hno⟩

lemma overtaking_breaks (hi : Inv n s) (h : step n s (t, op) = some s')
    (hg : ¬ NoOvertaking n s (t, op)) :
    ∃ s'', Machine.Reaches (step n) s' s'' ∧ ¬ s''.Exclusive := by
  have hrd := hi.readers
  have hmode := hi.mode
  obtain ⟨ht, -, ⟨ctx, try_, rfl, -, rfl⟩ | ⟨ctx, try_, rfl, -, rfl⟩ |
    ⟨ctx, pick, rfl, -, hun⟩ | ⟨rest, rfl, -, rfl⟩⟩ := step_cases h
  · -- rdlock past a woken writer
    simp only [NoOvertaking, not_or, Bool.not_eq_true, not_not] at hg
    obtain ⟨hf, hq, hp⟩ := hg
    rcases rdlock_cases s t ctx try_ with ⟨hb, -⟩ | ⟨-, -, ⟨hz, -⟩ | ⟨-, heq⟩⟩
    · simp [hf, hq] at hb
    · omega
    rw [heq]
    refine breaks_of_writer (u := t) rfl ?_ (by simp [RwSys.enterRead, finish])
    show pendingWriters n s.checked ≠ 0
    simpa using hp
  · -- wrlock past a woken thread
    simp only [NoOvertaking, not_or, Bool.not_eq_true, not_not] at hg
    obtain ⟨hf, hr, hp⟩ := hg
    rcases wrlock_cases s t ctx try_ with ⟨hb, -⟩ | ⟨-, -, heq⟩
    · simp [hf, hr] at hb
    rw [heq]
    obtain ⟨-, -, h3, -, -, h6, -, h7, acq, h8⟩ := enterWrite_frame s.checked t ctx
    obtain ⟨hpr, hpw, -⟩ := counts_congr n (h6.trans (checked_status s))
    have hmem : (⟨true, acq⟩ : Hold) ∈ (s.checked.enterWrite t ctx).held t := by
      rw [h8, update_self]
      exact mem_cons_self
    by_cases hz : pendingWriters n s = 0
    · have hrn : pendingReaders n s ≠ 0 := fun hz' => hp ⟨hz', hz⟩
      exact breaks_of_reader h7 (by rw [hpr]; exact hrn) hmem rfl
        (by rw [h3]; simpa [RwSys.checked] using hr)
    · exact breaks_of_writer h7 (by rw [hpw]; exact hz) (ne_nil_of_mem hmem)
  · -- the last reader hands over past a woken reader
    simp only [NoOvertaking, not_or, Bool.not_eq_true, not_not] at hg
    obtain ⟨hf, hr, hq, hp⟩ := hg
    obtain ⟨hd, hs, hheld, ⟨-, hz, -⟩ | ⟨hsome, hn⟩⟩ := unlock_cases hun
    · omega
    obtain ⟨hi', -, -, hpr', -⟩ := hi.release ctx ht hheld hsome
    obtain ⟨-, -, h3, -, h5, -⟩ := release_frame s t ctx hd hs
    rw [hf, hr] at h5
    obtain ⟨⟨rw', k'⟩, hn', rfl⟩ := Option.map_eq_some_iff.1 hn
    rcases rwlockNotify_cases hn' with ⟨-, -, rfl, hk⟩ | ⟨hno, -⟩
    · obtain ⟨w, c, hw, hst, rfl⟩ := notifyOne_writer hi' (by rw [h3]; exact hq) hk
      refine breaks_of_both rfl ?_ ?_ h5
      · have hsame : countIf n pendingRead (update
            (s.release t ctx hd hs).engine.status w (.notified (.wrlock c))) =
            pendingReaders n (s.release t ctx hd hs) :=
          countIf_update_same (by rw [hst]; rfl)
        show countIf n pendingRead _ ≠ 0
        rw [KState.kleeThreadPreempt_status, hsame, hpr']
        exact hp
      · apply pendingWriters_ne_zero (c := c) hw
        simp
    · rw [h3, h5] at hno
      simp [hq] at hno
  · exact absurd trivial hg

/-- Runs in which nobody gets in the way of a woken thread keep exclusion in every state;
and one step that does can be continued to a state without exclusion. -/
theorem exclusive_of_noOvertaking (n : Nat) (static : Bool) :
    (∀ s, Machine.ReachesBy (step n) (NoOvertaking n) (initial static) s → s.Exclusive) ∧
    (∀ s l s', Machine.ReachesBy (step n) (NoOvertaking n) (initial static) s →
      step n s l = some s' → ¬ NoOvertaking n s l →
        ∃ s'', Machine.Reaches (step n) s' s'' ∧ ¬ s''.Exclusive) := by
  have hinv : ∀ s, Machine.ReachesBy (step n) (NoOvertaking n) (initial static) s → Inv n s := by
    rintro s ⟨ls, hrun, hmeets⟩
    exact Machine.inv_of_meets (step n) (fun _ _ _ hi hg h => inv_step hi hg h)
      (inv_initial static) hmeets hrun
  exact ⟨fun s hr => (hinv s hr).exclusive,
    fun s l s' hr h hg => overtaking_breaks (hinv s hr) h hg⟩

/-- A writer sleeps behind a reader, is woken by the reader's unlock, and enters. -/
theorem exclusive_of_noOvertaking_handover :
    ∃ s, Machine.ReachesBy (step 2) (NoOvertaking 2) (initial true) s ∧
      s.held 1 = [⟨true, 3⟩] ∧ s.Exclusive := by
  have hreach : ∃ s, Machine.ReachesBy (step 2) (NoOvertaking 2) (initial true) s ∧
      s.held 1 = [⟨true, 3⟩] :=
    ⟨_, ⟨[(0, .rdlock 1 false), (1, .wrlock 2 false), (0, .unlock 3 (some 1)), (1, .resume)], rfl,
      by decide⟩, rfl⟩
  obtain ⟨s, hr, hin⟩ := hreach
  exact ⟨s, hr, hin, (exclusive_of_noOvertaking 2 true).1 s hr⟩

/-- Thread 2 enters as a reader between the notify of the writer 1 and its wake-up. -/
theorem reader_joins_writer :
    ∃ s, Machine.Reaches (step 3) (initial true) s ∧ s.held 1 = [⟨true, 4⟩] ∧
      s.held 2 = [⟨false, 3⟩] ∧ ¬ s.Exclusive := by
  refine ⟨_, ⟨[(0, .rdlock 1 false), (1, .wrlock 2 false), (0, .unlock 3 (some 1)),
    (2, .rdlock 4 false), (1, .resume)], rfl⟩, rfl, rfl, fun hex => ?_⟩
  have := (hex 1 ⟨true, 4⟩ mem_cons_self rfl).2 2 (by decide)
  exact absurd this (by decide)

end RwSys

end InputCovSched
