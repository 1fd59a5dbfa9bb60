import SvrFrame.Scheduler.Ledger

namespace SvrFrame
open Library
set_option autoImplicit true

def FiberAndThread.cb? (e : FiberAndThread) : Option Callback :=
  match e.task with
  | .cb c => some c
  | .fiber _ => none

theorem FiberAndThread.cb_eq {e : FiberAndThread} : e.cb? = some c ↔ e.task = .cb c := by
  obtain ⟨task, thread⟩ := e
  cases task <;> simp [cb?]

namespace Scheduler

variable {s s' : Scheduler}

/-- The callbacks that have an entry in `m_fibers`. -/
def callbacks (s : Scheduler) : List Callback := s.mFibers.filterMap FiberAndThread.cb?

/-- A step takes an entry out of the queue or appends the callback it schedules. -/
theorem Moves.callbacks (h : Moves s a s') :
    s'.callbacks.Sublist s.callbacks ∨
      ∃ c thread, a.scheduled = some ⟨.cb c, thread⟩ ∧ s'.callbacks = s.callbacks ++ [c] := by
  have hpush {t : Task} {thread : Option WorkerId} (ht : s.schedule t thread = some s')
      (ha : a.scheduled = some ⟨t, thread⟩) : s'.callbacks.Sublist s.callbacks ∨
        ∃ c thread, a.scheduled = some ⟨.cb c, thread⟩ ∧ s'.callbacks = s.callbacks ++ [c] := by
    obtain ⟨rfl, -⟩ := schedule_eq_push ht
    cases t with
    | cb c =>
      right
      exact ⟨c, thread, ha, by simp [Scheduler.callbacks, FiberAndThread.cb?]⟩
    | fiber f =>
      left
      simp [Scheduler.callbacks, FiberAndThread.cb?]
  cases h with
  | schedule ht | bodySchedule _ ht => exact hpush ht rfl
  | pick => exact .inl (List.eraseP_sublist.filterMap _)
  | requeueOwn | requeueCb =>
    left
    simp [Scheduler.callbacks, FiberAndThread.cb?]
  | _ => exact .inl (List.Sublist.refl _)

end Scheduler

namespace Ledger
open Scheduler

variable {l : Ledger} {s' : Scheduler}

/-- The worker has picked the entry, and perhaps started it. -/
def Taken (l : Ledger) (w : WorkerId) (c : Callback) : Prop :=
  l.inHand w = some c ∨ (c, w) ∈ l.started

/-- What a step means for the entries of one worker. -/
theorem Inv.hand_step (hs : Inv l) (h : Moves l.sched a s') (v : WorkerId) :
    ((l.after a s').inHand v = l.inHand v ∧ ∀ c, (c, v) ∉ l.starts a) ∨
      (l.starts a = [] ∧ ∃ e, l.sched.mFibers.find? (l.sched.eligible v) = some e ∧
        ∀ c, (l.after a s').inHand v = some c ↔ e.task = .cb c) ∨
      ((l.after a s').inHand v = none ∧ l.starts a = (l.inHand v).toList.map (·, v)) := by
  have hstarts (c : Callback) (hv : a ≠ .work v) : (c, v) ∉ l.starts a := by
    intro hc
    cases a with
    | work w =>
      have hwv : v = w := by
        simp only [starts, startsAt] at hc
        split at hc
        · split at hc
          · exact (Prod.mk.inj (List.mem_map.1 hc).choose_spec.2).2.symm
          · cases hc
        · cases hc
      exact hv (hwv ▸ rfl)
    | _ => cases hc
  cases ha : a.worker with
  | none =>
    left
    apply And.intro (hs.inHand_outside h ha v)
    intro c
    apply hstarts
    rintro rfl
    cases ha
  | some w =>
    by_cases hvw : v = w
    · subst hvw
      by_cases hb : a.scheduled = none
      · rcases hs.transfers h ha hb with
          ⟨hhand, hnone, -⟩ | ⟨e, he, -, -, hnone, hhand⟩ | ⟨hhand, hone, -⟩
        · exact .inl ⟨hhand, by simp [hnone]⟩
        · exact .inr (.inl ⟨hnone, e, he, hhand⟩)
        · exact .inr (.inr ⟨hhand, hone⟩)
      · cases h with
        | bodySchedule _ ht =>
          obtain ⟨rfl, -⟩ := schedule_eq_push ht
          exact .inl ⟨rfl, fun _ hc => by cases hc⟩
        | schedule => cases ha
        | _ => exact absurd rfl hb
    · left
      have hne : a.worker ≠ some v := fun hv => hvw (Option.some.inj (hv.symm.trans ha))
      apply And.intro (hs.inHand_other h ((h.workerFrame ha).others v hvw) hne)
      intro c
      apply hstarts
      rintro rfl
      exact hne rfl

/-- The callbacks wait in the order in which they were accepted, and what a worker has taken was
accepted after nothing that still waits for it. -/
structure Fifo (l : Ledger) : Prop where
  inv : Inv l
  sorted : l.sched.callbacks.Pairwise (· < ·)
  behind : ∀ w c, l.Taken w c → ∀ d thread, ⟨.cb d, thread⟩ ∈ l.sched.mFibers → d < c →
    thread ≠ none ∧ thread ≠ some w
  order : ∀ w c, l.inHand w = some c → ∀ b, (b, w) ∈ l.started → b < c
  runs : ∀ w, ((l.started.filter fun p => p.2 = w).map Prod.fst).Pairwise (· < ·)

theorem initial_fifo (n : Nat) (useCaller : Bool) : Fifo (initial n useCaller) where
  inv := initial_inv n useCaller
  sorted := List.Pairwise.nil
  behind _ _ _ _ _ he := by cases he
  order _ _ _ _ hb := by cases hb
  runs _ := List.Pairwise.nil

theorem Allows.lt (h : l.Allows c w) : c < l.accepted.length := by
  rcases h with h | h <;> exact (List.getElem?_eq_some_iff.1 h).1

theorem mem_callbacks : c ∈ l.sched.callbacks ↔ ∃ thread, ⟨.cb c, thread⟩ ∈ l.sched.mFibers := by
  simp only [callbacks, List.mem_filterMap, FiberAndThread.cb_eq]
  apply Iff.intro
  · rintro ⟨⟨task, thread⟩, he, rfl⟩
    exact ⟨thread, he⟩
  · rintro ⟨thread, he⟩
    exact ⟨_, he, rfl⟩

theorem Fifo.sorted_step (hs : Fifo l) (hg : CallbacksOnly l a) (h : Moves l.sched a s') :
    s'.callbacks.Pairwise (· < ·) := by
  rcases h.callbacks with hsub | ⟨c, thread, ha, hpush⟩
  · exact hs.sorted.sublist hsub
  · obtain ⟨_, hc⟩ := hg.scheduled ha
    cases hc
    rw [hpush, List.pairwise_append]
    apply And.intro hs.sorted
    apply And.intro (List.pairwise_singleton ..)
    intro b hb d hd
    rw [List.mem_singleton.1 hd]
    obtain ⟨thread, he⟩ := mem_callbacks.1 hb
    exact (List.getElem?_eq_some_iff.1 (hs.inv.asked b thread he)).1

/-- Entries that wait before the one that a scan finds are not for this worker. -/
theorem Fifo.found (hs : Fifo l) (he : l.sched.mFibers.find? (l.sched.eligible w) = some e)
    (hc : e.task = .cb c) (hd : ⟨.cb d, thread⟩ ∈ l.sched.mFibers) (hdc : d < c) :
    thread ≠ none ∧ thread ≠ some w := by
  obtain ⟨pre, post, hq, -, hpre, -⟩ := find?_splits he
  have hsorted := hs.sorted
  rw [callbacks, hq, List.filterMap_append, List.filterMap_cons_some (FiberAndThread.cb_eq.2 hc),
    List.pairwise_append] at hsorted
  rw [hq, List.mem_append, List.mem_cons] at hd
  rcases hd with hd | rfl | hd
  · simpa [eligible] using hpre _ hd
  · cases hc
    exact absurd hdc (Nat.lt_irrefl _)
  · have hcd := List.rel_of_pairwise_cons hsorted.2.1 (List.mem_filterMap.2 ⟨_, hd, rfl⟩)
    exact absurd hcd (Nat.lt_asymm hdc)

/-- A worker takes an entry when its scan finds it. -/
theorem Inv.taken_step (hs : Inv l) (h : Moves l.sched a s') (hc : (l.after a s').Taken w c) :
    l.Taken w c ∨ ∃ e, l.sched.mFibers.find? (l.sched.eligible w) = some e ∧ e.task = .cb c := by
  rcases hs.hand_step h w with ⟨hhand, hstarts⟩ | ⟨hstarts, e, he, hhand⟩ | ⟨hhand, hstarts⟩
  · rcases hc with hc | hc
    · exact .inl (.inl (hhand ▸ hc))
    · exact .inl (.inr ((List.mem_append.1 hc).resolve_right (hstarts c)))
  · rcases hc with hc | hc
    · exact .inr ⟨e, he, (hhand c).1 hc⟩
    · rw [after, hstarts, List.append_nil] at hc
      exact .inl (.inr hc)
  · left
    rcases hc with hc | hc
    · rw [hhand] at hc
      cases hc
    · rcases List.mem_append.1 hc with hc | hc
      · exact .inr hc
      · rw [hstarts, List.mem_map] at hc
        obtain ⟨b, hb, hbc⟩ := hc
        cases hbc
        exact .inl (Option.mem_toList.1 hb)

theorem Inv.taken_allows (hs : Inv l) (hc : l.Taken w c) : l.Allows c w :=
  hc.elim (hs.allowed w c) (hs.ran (c, w))

theorem Fifo.behind_step (hs : Fifo l) (hg : CallbacksOnly l a) (h : Moves l.sched a s')
    (hc : (l.after a s').Taken w c) (hd : ⟨.cb d, thread⟩ ∈ s'.mFibers) (hdc : d < c) :
    thread ≠ none ∧ thread ≠ some w := by
  have htaken := hs.inv.taken_step h hc
  have hlt : c < l.accepted.length := by
    rcases htaken with hold | ⟨e, he, hec⟩
    · exact (hs.inv.taken_allows hold).lt
    · obtain ⟨task, thread⟩ := e
      cases hec
      have hasked := hs.inv.asked c thread (List.mem_of_find?_eq_some he)
      exact (List.getElem?_eq_some_iff.1 hasked).1
  rcases h.entries hd with hold | hnew | ⟨_, _, _, -, hfiber, -⟩
  · rcases htaken with htaken | ⟨e, he, hec⟩
    · exact hs.behind w c htaken d thread hold hdc
    · exact hs.found he hec hold hdc
  · obtain ⟨_, hlast⟩ := hg.scheduled hnew
    cases hlast
    exact absurd hdc (Nat.lt_asymm hlt)
  · cases hfiber

/-- An entry that waits has not been started. -/
theorem Inv.not_started (hs : Inv l) (hc : ⟨.cb c, thread⟩ ∈ l.sched.mFibers) :
    (c, w) ∉ l.started := by
  intro hstarted
  have hplace := hs.place c
  have hwaits : 0 < l.waiting c := List.countP_pos_iff.2 ⟨_, hc, by simp⟩
  have hruns : 0 < l.timesStarted c := List.countP_pos_iff.2 ⟨_, hstarted, by simp⟩
  split at hplace <;> omega

theorem Fifo.order_step (hs : Fifo l) (h : Moves l.sched a s')
    (hc : (l.after a s').inHand w = some c) (hb : (b, w) ∈ (l.after a s').started) : b < c := by
  rcases hs.inv.hand_step h w with ⟨hhand, hstarts⟩ | ⟨hstarts, e, he, hhand⟩ | ⟨hhand, -⟩
  · exact hs.order w c (hhand ▸ hc) b ((List.mem_append.1 hb).resolve_right (hstarts b))
  · rw [after, hstarts, List.append_nil] at hb
    have hec := (hhand c).1 hc
    have helig := List.find?_some he
    obtain ⟨task, thread⟩ := e
    cases hec
    have hmem := List.mem_of_find?_eq_some he
    simp only [eligible, Bool.and_true, decide_eq_true_eq] at helig
    by_contra hnot
    rcases Nat.lt_or_eq_of_le (Nat.le_of_not_lt hnot) with hlt | rfl
    · obtain ⟨hnone, hother⟩ := hs.behind w b (.inr hb) c thread hmem hlt
      exact helig.elim hnone hother
    · exact hs.inv.not_started hmem hb
  · rw [hhand] at hc
    cases hc

theorem Fifo.runs_step (hs : Fifo l) (h : Moves l.sched a s') (w : WorkerId) :
    (((l.after a s').started.filter fun p => p.2 = w).map Prod.fst).Pairwise (· < ·) := by
  have hruns := hs.runs w
  rcases hs.inv.hand_step h w with ⟨-, hstarts⟩ | ⟨hstarts, -⟩ | ⟨-, hstarts⟩
  · have hnone : (l.starts a).filter (fun p => p.2 = w) = [] := by
      apply List.filter_eq_nil_iff.2
      rintro ⟨c, v⟩ hc
      simp only [decide_eq_true_eq]
      rintro rfl
      exact hstarts c hc
    simp only [after, List.filter_append, hnone, List.append_nil]
    exact hruns
  · simp only [after, hstarts, List.append_nil]
    exact hruns
  · cases hhand : l.inHand w with
    | none =>
      rw [hhand] at hstarts
      simp only [after, hstarts, Option.toList_none, List.map_nil, List.append_nil]
      exact hruns
    | some c =>
      rw [hhand] at hstarts
      simp only [after, hstarts, Option.toList_some, List.map_cons, List.map_nil,
        List.filter_append, List.map_append]
      rw [List.pairwise_append]
      apply And.intro hruns
      apply And.intro
      · simp
      · intro b hb d hd
        have hdc : d = c := by simpa using hd
        obtain ⟨⟨x, v⟩, hx, rfl⟩ := List.mem_map.1 hb
        obtain ⟨hmem, hv⟩ := List.mem_filter.1 hx
        rw [hdc]
        apply hs.order w c hhand x
        rw [← of_decide_eq_true hv]
        exact hmem

theorem Fifo.step (hs : Fifo l) (hg : CallbacksOnly l a) (h : Moves l.sched a s') :
    Fifo (l.after a s') where
  inv := hs.inv.step hg h
  sorted := hs.sorted_step hg h
  behind _ _ hc _ _ hd hdc := hs.behind_step hg h hc hd hdc
  order _ _ hc _ hb := hs.order_step h hc hb
  runs := hs.runs_step h

theorem reach_fifo (h : Reach step CallbacksOnly (initial n useCaller) l) : Fifo l :=
  h.invariant (initial_fifo n useCaller) fun hs hg ht => by
    obtain ⟨s', hm, rfl⟩ := step_eq ht
    exact hs.step hg hm

/-- An accepted entry that does not wait has been taken by somebody. -/
theorem Inv.taken_of_gone (hs : Inv l) (hc : c < l.accepted.length) (hgone : l.waiting c = 0) :
    ∃ w, l.Taken w c := by
  have hplace := hs.place c
  rw [hgone, if_pos hc] at hplace
  by_cases hcarried : l.carried c = 0
  · have hruns : 0 < l.timesStarted c := by omega
    obtain ⟨⟨d, w⟩, hmem, hd⟩ := List.countP_pos_iff.1 hruns
    cases of_decide_eq_true hd
    exact ⟨w, .inr hmem⟩
  · obtain ⟨w, -, hw⟩ := List.countP_pos_iff.1 (Nat.pos_of_ne_zero hcarried)
    exact ⟨w, .inl (of_decide_eq_true hw)⟩

/-- Each worker starts callbacks in the order in which they were scheduled, and no callback leaves
the queue before an earlier one that is for every worker or for the same one. -/
theorem callbacks_fifo (h : Reach step CallbacksOnly (initial n useCaller) l) :
    (∀ w, ((l.started.filter fun p => p.2 = w).map Prod.fst).Pairwise (· < ·)) ∧
      ∀ c d, c < d → d < l.accepted.length →
        (l.accepted[c]? = some none ∨ ∃ t, l.accepted[c]? = some (some t) ∧
          l.accepted[d]? = some (some t)) → l.waiting d = 0 → l.waiting c = 0 := by
  have hs := reach_fifo h
  apply And.intro hs.runs
  intro c d hcd hd hpin hgone
  by_contra hwaits
  obtain ⟨⟨task, thread⟩, hmem, htask⟩ := List.countP_pos_iff.1 (Nat.pos_of_ne_zero hwaits)
  cases of_decide_eq_true htask
  have hasked := hs.inv.asked c thread hmem
  obtain ⟨w, hw⟩ := hs.inv.taken_of_gone hd hgone
  obtain ⟨hnone, hother⟩ := hs.behind w d hw c thread hmem hcd
  rcases hpin with hpin | ⟨t, hpin, hpin'⟩
  · exact hnone (Option.some.inj (hasked.symm.trans hpin))
  · -- the later one was for this thread too, so its worker is that thread
    have htw : t = w := by
      rcases hs.inv.taken_allows hw with hany | hthis
      · rw [hpin'] at hany
        cases hany
      · rw [hpin'] at hthis
        exact Option.some.inj (Option.some.inj hthis)
    exact hother (htw ▸ Option.some.inj (hasked.symm.trans hpin))

/-- The second of three callbacks is for the second worker; the first worker starts the others. -/
theorem callbacks_fifo_three : ∃ l, Reach step CallbacksOnly (initial 2 false) l ∧
    l.started = [(0, 0), (2, 0)] ∧ l.waiting 1 = 1 ∧
    (∀ w, ((l.started.filter fun p => p.2 = w).map Prod.fst).Pairwise (· < ·)) ∧
      ∀ c d, c < d → d < l.accepted.length →
        (l.accepted[c]? = some none ∨ ∃ t, l.accepted[c]? = some (some t) ∧
          l.accepted[d]? = some (some t)) → l.waiting d = 0 → l.waiting c = 0 := by
  obtain ⟨l, hl, hp⟩ := Reach.of_exec_map step CallbacksOnly (initial 2 false)
    ([.schedule (.cb 0) none, .schedule (.cb 1) (some 1), .schedule (.cb 2) none, .start] ++
      List.replicate 4 (.work 0) ++ [.body 0 .finish] ++ List.replicate 7 (.work 0))
    (fun l => decide (l.started = [(0, 0), (2, 0)] ∧ l.waiting 1 = 1)) (by decide)
  obtain ⟨hstarted, hwaits⟩ := of_decide_eq_true hp
  exact ⟨l, hl, hstarted, hwaits, callbacks_fifo hl⟩

end Ledger
end SvrFrame
