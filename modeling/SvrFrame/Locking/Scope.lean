import SvrFrame.Library.LockProg
import SvrFrame.Library.Tally

namespace SvrFrame
open Library
set_option autoImplicit true

/-- A `pthread_rwlock_t`; a mutex or a spin lock is one that is never locked for reading. -/
structure RWMutex where
  readers : Nat
  writer : Bool
  deriving DecidableEq, Repr

namespace RWMutex

def free : RWMutex := ⟨0, false⟩

/-- `rdlock`, `wrlock` and `lock`; `none` where the call has to wait. -/
def acquire (m : RWMutex) : LockMode → Option RWMutex
  | .shared => if m.writer then none else some { m with readers := m.readers + 1 }
  | .exclusive => if m.writer ∨ m.readers ≠ 0 then none else some { m with writer := true }

/-- `none` where nobody has locked the mutex, which is undefined. -/
def unlock (m : RWMutex) : Option RWMutex :=
  if m.writer then some { m with writer := false }
  else if m.readers ≠ 0 then some { m with readers := m.readers - 1 }
  else none

end RWMutex

/-- `ScopeLockImpl`, `ReadScopeLockImpl` and `WriteScopeLockImpl`, which differ in the function of
the mutex that they call. -/
structure ScopeLock where
  mode : LockMode
  mLocked : Bool
  deriving DecidableEq, Repr

namespace ScopeLock

def construct (mode : LockMode) (m : RWMutex) : Option (ScopeLock × RWMutex) :=
  (m.acquire mode).map fun m => (⟨mode, true⟩, m)

def scopeLock (m : RWMutex) : Option (ScopeLock × RWMutex) := construct .exclusive m
def readScopeLock (m : RWMutex) : Option (ScopeLock × RWMutex) := construct .shared m
def writeScopeLock (m : RWMutex) : Option (ScopeLock × RWMutex) := construct .exclusive m

def lock (g : ScopeLock) (m : RWMutex) : Option (ScopeLock × RWMutex) :=
  if g.mLocked then some (g, m)
  else (m.acquire g.mode).map fun m => ({ g with mLocked := true }, m)

def unlock (g : ScopeLock) (m : RWMutex) : Option (ScopeLock × RWMutex) :=
  if g.mLocked then m.unlock.map fun m => ({ g with mLocked := false }, m) else some (g, m)

end ScopeLock

/-- A mutex and the scope locks on it, in whatever threads they are. -/
structure Scopes where
  mutex : RWMutex
  guards : Nat → Option ScopeLock
  next : Nat

namespace Scopes

def initial : Scopes := ⟨.free, fun _ => none, 0⟩

def set (s : Scopes) (i : Nat) (g : Option ScopeLock) (m : RWMutex) : Scopes :=
  { s with mutex := m, guards := Function.update s.guards i g }

inductive Act where
  | construct (mode : LockMode)
  | lock (i : Nat)
  | unlock (i : Nat)
  | destroy (i : Nat)
  deriving DecidableEq, Repr

def step (s : Scopes) : Act → Option Scopes
  | .construct mode => (ScopeLock.construct mode s.mutex).map fun r =>
    { s.set s.next (some r.1) r.2 with next := s.next + 1 }
  | .lock i => (s.guards i).bind fun g => (g.lock s.mutex).map fun r => s.set i (some r.1) r.2
  | .unlock i => (s.guards i).bind fun g => (g.unlock s.mutex).map fun r => s.set i (some r.1) r.2
  | .destroy i => (s.guards i).bind fun g => (g.unlock s.mutex).map fun r => s.set i none r.2

/-- The lock that a scope lock has on the mutex. -/
def held (s : Scopes) (i : Nat) : Option LockMode :=
  (s.guards i).bind fun g => if g.mLocked then some g.mode else none

/-- The mutex is locked just as the scope locks say that it is. -/
structure Ok (s : Scopes) : Prop where
  fresh : ∀ i, s.next ≤ i → s.guards i = none
  readers : s.mutex.readers = tally s.next fun i => s.held i = some .shared
  writer : s.mutex.writer ↔ ∃ i, s.held i = some .exclusive
  alone : ∀ i j, s.held i = some .exclusive → s.held j ≠ none → i = j

theorem initial_ok : Ok initial where
  fresh _ _ := rfl
  readers := (tally_false 0).symm
  writer := by simp [initial, RWMutex.free, held]
  alone _ _ h := by cases h

variable {s s' : Scopes}

theorem Ok.held_lt (hs : Ok s) (hi : s.held i ≠ none) : i < s.next := by
  by_contra hle
  apply hi
  rw [held, hs.fresh i (Nat.le_of_not_lt hle)]
  rfl

theorem Ok.not_exclusive (hs : Ok s) (hw : s.mutex.writer = false) (i : Nat) :
    s.held i ≠ some .exclusive := by
  intro hi
  rw [hs.writer.2 ⟨i, hi⟩] at hw
  cases hw

/-- Where the mutex is free nothing is held. -/
theorem Ok.not_held (hs : Ok s) (hw : s.mutex.writer = false) (hr : s.mutex.readers = 0)
    (i : Nat) : s.held i = none := by
  cases hi : s.held i with
  | none => rfl
  | some mode =>
    have hlt := hs.held_lt (i := i) (by rw [hi]; exact fun h => by cases h)
    cases mode with
    | exclusive => exact absurd hi (hs.not_exclusive hw i)
    | shared =>
      have hnone := tally_eq_zero (hs.readers.symm.trans hr) i hlt
      simp [hi] at hnone

/-- The count of the readers does not change when room is made for a scope lock. -/
theorem Ok.readers_next (hs : Ok s) (hn : n = s.next ∨ n = s.next + 1) :
    s.mutex.readers = tally n fun i => s.held i = some .shared := by
  rcases hn with rfl | rfl
  · exact hs.readers
  · have hnone : s.held s.next = none := by
      rw [held, hs.fresh s.next (Nat.le_refl _)]
      rfl
    rw [tally_succ, ← hs.readers]
    simp [hnone]

theorem Ok.acquired (hs : Ok s) (hacquire : s.mutex.acquire mode = some s'.mutex)
    (hnext : s'.next = s.next ∨ s'.next = s.next + 1) (hi : i < s'.next) (hfree : s.held i = none)
    (hheld : ∀ j, s'.held j = if j = i then some mode else s.held j)
    (hfresh : ∀ j, s'.next ≤ j → s'.guards j = none) : Ok s' := by
  have hreaders := hs.readers_next hnext
  have hchange := tally_change (p := fun j => decide (s'.held j = some .shared))
    (q := fun j => decide (s.held j = some .shared)) hi fun j hj => by rw [hheld, if_neg hj]
  rw [← hreaders] at hchange
  have hself : s'.held i = some mode := by rw [hheld, if_pos rfl]
  cases mode with
  | shared =>
    simp only [RWMutex.acquire, Option.ite_none_left_eq_some, Option.some.injEq] at hacquire
    obtain ⟨hw, hmutex⟩ := hacquire
    have hnone := hs.not_exclusive (eq_false_of_ne_true hw)
    have hnone' (j : Nat) : s'.held j ≠ some .exclusive := by
      rw [hheld]
      split
      · exact fun h => by cases h
      · exact hnone j
    constructor
    · exact hfresh
    · simp [hself, hfree] at hchange
      rw [← hmutex]
      exact hchange.symm
    · rw [← hmutex]
      exact ⟨fun h => absurd h hw, fun ⟨j, hj⟩ => absurd hj (hnone' j)⟩
    · exact fun j _ hj => absurd hj (hnone' j)
  | exclusive =>
    simp only [RWMutex.acquire, Option.ite_none_left_eq_some, Option.some.injEq, not_or,
      not_not] at hacquire
    obtain ⟨⟨hw, hr⟩, hmutex⟩ := hacquire
    have hnone := hs.not_held (eq_false_of_ne_true hw) hr
    have honly {j : Nat} (hj : s'.held j ≠ none) : j = i := by
      by_contra hne
      rw [hheld, if_neg hne, hnone j] at hj
      exact hj rfl
    constructor
    · exact hfresh
    · simp [hself, hfree] at hchange
      rw [← hmutex]
      exact hchange.symm
    · rw [← hmutex]
      exact ⟨fun _ => ⟨i, hself⟩, fun _ => rfl⟩
    · intro j j' hj hj'
      have hji := honly (j := j) (by rw [hj]; exact fun h => by cases h)
      rw [honly hj', hji]

theorem Ok.released (hs : Ok s) (hi : s.held i = some mode)
    (hunlock : s.mutex.unlock = some s'.mutex) (hnext : s'.next = s.next)
    (hheld : ∀ j, s'.held j = if j = i then none else s.held j)
    (hfresh : ∀ j, s'.next ≤ j → s'.guards j = none) : Ok s' := by
  have hlt := hs.held_lt (i := i) (by rw [hi]; exact fun h => by cases h)
  have hchange := tally_change (p := fun j => decide (s'.held j = some .shared))
    (q := fun j => decide (s.held j = some .shared)) hlt fun j hj => by rw [hheld, if_neg hj]
  rw [← hs.readers, ← hnext] at hchange
  have hself : s'.held i = none := by rw [hheld, if_pos rfl]
  have hkept {j : Nat} {m : LockMode} (hj : s'.held j = some m) : s.held j = some m ∧ j ≠ i := by
    rw [hheld] at hj
    split at hj
    · cases hj
    · exact ⟨hj, ‹_›⟩
  have halone (j j' : Nat) (hj : s'.held j = some .exclusive) (hj' : s'.held j' ≠ none) :
      j = j' := by
    obtain ⟨m, hm⟩ := Option.ne_none_iff_exists'.1 hj'
    exact hs.alone j j' (hkept hj).1 (by rw [(hkept hm).1]; exact fun h => by cases h)
  cases mode with
  | shared =>
    have hw : s.mutex.writer = false := by
      by_contra hw
      obtain ⟨j, hj⟩ := hs.writer.1 (eq_true_of_ne_false hw)
      have hji := hs.alone j i hj (by rw [hi]; exact fun h => by cases h)
      rw [hji, hi] at hj
      cases hj
    simp only [RWMutex.unlock, hw, Bool.false_eq_true, if_false, Option.ite_none_right_eq_some,
      Option.some.injEq] at hunlock
    obtain ⟨-, hmutex⟩ := hunlock
    constructor
    · exact hfresh
    · simp [hself, hi] at hchange
      rw [← hmutex]
      change s.mutex.readers - 1 = _
      omega
    · rw [← hmutex]
      simp only [Bool.false_eq_true, false_iff]
      exact fun ⟨j, hj⟩ => hs.not_exclusive hw j (hkept hj).1
    · exact halone
  | exclusive =>
    have hw := hs.writer.2 ⟨i, hi⟩
    simp only [RWMutex.unlock, hw, if_true, Option.some.injEq] at hunlock
    constructor
    · exact hfresh
    · simp [hself, hi] at hchange
      rw [← hunlock]
      exact hchange.symm
    · rw [← hunlock]
      simp only [Bool.false_eq_true, false_iff]
      intro ⟨j, hj⟩
      obtain ⟨hold, hne⟩ := hkept hj
      exact hne (hs.alone j i hold (by rw [hi]; exact fun h => by cases h))
    · exact halone

theorem held_set (s : Scopes) (i : Nat) (g : Option ScopeLock) (m : RWMutex) (j : Nat) :
    (s.set i g m).held j =
      if j = i then g.bind fun g => if g.mLocked then some g.mode else none else s.held j := by
  simp only [held, set, Function.update_apply]
  split <;> rfl

theorem Ok.congr (hs : Ok s) (hmutex : s'.mutex = s.mutex) (hnext : s'.next = s.next)
    (hheld : ∀ j, s'.held j = s.held j) (hfresh : ∀ j, s'.next ≤ j → s'.guards j = none) :
    Ok s' where
  fresh := hfresh
  readers := by
    rw [hmutex, hnext, hs.readers]
    exact tally_congr fun j _ => by rw [hheld]
  writer := by
    simp only [hmutex, hheld]
    exact hs.writer
  alone i j := by
    rw [hheld, hheld]
    exact hs.alone i j

theorem Ok.fresh_set (hs : Ok s) (hi : s.guards i = some g) (j : Nat) (hj : s.next ≤ j) :
    (s.set i o m).guards j = none := by
  have hne : j ≠ i := by
    rintro rfl
    rw [hs.fresh j hj] at hi
    cases hi
  exact (Function.update_of_ne hne ..).trans (hs.fresh j hj)

theorem held_eq (hi : s.guards i = some g) :
    s.held i = if g.mLocked then some g.mode else none := by
  rw [held, hi]
  rfl

/-- `unlock`, and the destructor, which calls it. -/
theorem Ok.unlock (hs : Ok s) (hi : s.guards i = some g) (h : g.unlock s.mutex = some (g', m))
    (ho : ∀ x ∈ o, x = g') : Ok (s.set i o m) := by
  have hfresh : ∀ j, s.next ≤ j → (s.set i o m).guards j = none := hs.fresh_set hi
  have hheld : s.held i = if g.mLocked then some g.mode else none := held_eq hi
  by_cases hlocked : g.mLocked
  · rw [if_pos hlocked] at hheld
    rw [ScopeLock.unlock, if_pos hlocked] at h
    obtain ⟨m', hm', hg'⟩ := Option.map_eq_some_iff.1 h
    cases hg'
    have hset (j : Nat) : (s.set i o m).held j = if j = i then none else s.held j := by
      rw [held_set]
      split
      · cases o with
        | none => rfl
        | some x =>
          rw [ho x rfl]
          rfl
      · rfl
    exact Ok.released hs hheld hm' rfl hset hfresh
  · rw [if_neg hlocked] at hheld
    rw [ScopeLock.unlock, if_neg hlocked] at h
    cases h
    have hset (j : Nat) : (s.set i o s.mutex).held j = s.held j := by
      rw [held_set]
      split
      · subst j
        rw [hheld]
        cases o with
        | none => rfl
        | some x =>
          rw [ho x rfl]
          simp [hlocked]
      · rfl
    exact Ok.congr hs rfl rfl hset hfresh

theorem Ok.lock (hs : Ok s) (hi : s.guards i = some g) (h : g.lock s.mutex = some (g', m)) :
    Ok (s.set i (some g') m) := by
  have hfresh : ∀ j, s.next ≤ j → (s.set i (some g') m).guards j = none := hs.fresh_set hi
  have hheld := held_eq hi
  by_cases hlocked : g.mLocked
  · rw [ScopeLock.lock, if_pos hlocked] at h
    cases h
    have hset (j : Nat) : (s.set i (some g) s.mutex).held j = s.held j := by
      rw [held_set]
      split
      · subst j
        exact hheld.symm
      · rfl
    exact Ok.congr hs rfl rfl hset hfresh
  · rw [if_neg hlocked] at hheld
    rw [ScopeLock.lock, if_neg hlocked] at h
    obtain ⟨m', hm', heq⟩ := Option.map_eq_some_iff.1 h
    cases heq
    have hlt : i < s.next := by
      by_contra hle
      rw [hs.fresh i (Nat.le_of_not_lt hle)] at hi
      cases hi
    exact Ok.acquired hs hm' (.inl rfl) hlt hheld (held_set s i _ _) hfresh

theorem Ok.construct (hs : Ok s) (h : ScopeLock.construct mode s.mutex = some (g, m)) :
    Ok { s.set s.next (some g) m with next := s.next + 1 } := by
  obtain ⟨m', hm', heq⟩ := Option.map_eq_some_iff.1 h
  cases heq
  have hnone : s.held s.next = none := by
    rw [held, hs.fresh s.next (Nat.le_refl _)]
    rfl
  have hfresh (j : Nat) (hj : s.next + 1 ≤ j) :
      (s.set s.next (some ⟨mode, true⟩) m).guards j = none :=
    (Function.update_of_ne (Nat.ne_of_gt hj) ..).trans (hs.fresh j (Nat.le_of_succ_le hj))
  exact Ok.acquired hs hm' (.inr rfl) (Nat.lt_succ_self _) hnone
    (held_set s s.next (some ⟨mode, true⟩) m) hfresh

theorem Ok.step (hs : Ok s) (h : s.step a = some s') : Ok s' := by
  cases a with
  | construct mode =>
    obtain ⟨⟨g, m⟩, hg, rfl⟩ := Option.map_eq_some_iff.1 h
    exact hs.construct hg
  | lock i =>
    obtain ⟨g, hi, h⟩ := Option.bind_eq_some_iff.1 h
    obtain ⟨⟨g', m⟩, hg, rfl⟩ := Option.map_eq_some_iff.1 h
    exact hs.lock hi hg
  | unlock i =>
    obtain ⟨g, hi, h⟩ := Option.bind_eq_some_iff.1 h
    obtain ⟨⟨g', m⟩, hg, rfl⟩ := Option.map_eq_some_iff.1 h
    exact hs.unlock hi hg fun x hx => by cases hx; rfl
  | destroy i =>
    obtain ⟨g, hi, h⟩ := Option.bind_eq_some_iff.1 h
    obtain ⟨⟨g', m⟩, hg, rfl⟩ := Option.map_eq_some_iff.1 h
    exact hs.unlock hi hg fun x hx => by cases hx

theorem reach_ok (h : Reach step g initial s) : Ok s :=
  h.invariant initial_ok fun hs _ ht => hs.step ht

/-- Where no scope lock is locked the mutex is free. -/
theorem Ok.free (hs : Ok s) (hnone : ∀ i, s.held i = none) : s.mutex = .free := by
  have hw : s.mutex.writer = false := by
    by_contra hw
    obtain ⟨i, hi⟩ := hs.writer.1 (eq_true_of_ne_false hw)
    rw [hnone i] at hi
    cases hi
  have hr : s.mutex.readers = 0 := by
    rw [hs.readers, tally_congr (q := fun _ => false) fun i _ => by simp [hnone i], tally_false]
  exact congrArg₂ RWMutex.mk hr hw

end Scopes
end SvrFrame
