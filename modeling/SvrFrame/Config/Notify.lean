import SvrFrame.Library.Machine
import Mathlib.Logic.Function.Basic
import Mathlib.Data.Fintype.Basic
import Mathlib.Data.List.MinMax
import Mathlib.Data.List.Nodup

namespace SvrFrame
namespace Config
open Library
set_option autoImplicit true

abbrev ListenerId := Nat

/-- `RWMutex`: a thread that cannot take the lock has no step. -/
structure RWMutex (n : Nat) where
  readers : List (Fin n)
  writer : Option (Fin n)
  deriving DecidableEq, Repr

def RWMutex.rdlock (m : RWMutex n) (t : Fin n) : Option (RWMutex n) :=
  if m.writer = none then some { m with readers := t :: m.readers } else none

def RWMutex.wrlock (m : RWMutex n) (t : Fin n) : Option (RWMutex n) :=
  if m.writer = none ∧ m.readers = [] then some { m with writer := some t } else none

def RWMutex.unlock (m : RWMutex n) (t : Fin n) : RWMutex n :=
  if m.writer = some t then { m with writer := none } else { m with readers := m.readers.erase t }

inductive Edit where
  | addListener
  | delListener (key : ListenerId)
  | clearListener
  deriving DecidableEq, Repr

/-- Where a thread stands in `SetValue` or in one of the functions that change the listeners. -/
inductive VarPc (T : Type) where
  | idle
  | rdlock (val : T)
  | compare (val : T)
  | notify (val : T) (cbs : List ListenerId)
  | wrlock (val : T)
  | store (val : T)
  | wrlockCbs (e : Edit)
  | edit (e : Edit)
  | unlock
  deriving DecidableEq, Repr

def VarPc.isIdle : VarPc T → Bool
  | .idle => true
  | _ => false

/-- The call of `SetValue` has found a difference and not yet stored its value. -/
def VarPc.pending : VarPc T → Bool
  | .notify _ _ | .wrlock _ | .store _ => true
  | _ => false

theorem VarPc.not_pending_of_isIdle {pc : VarPc T} (h : pc.isIdle) : pc.pending = false := by
  cases pc with
  | idle => rfl
  | _ => cases h

/-- The thread is about to take listener `k` off. -/
def VarPc.removes (k : ListenerId) : VarPc T → Bool
  | .edit (.delListener key) => key = k
  | .edit .clearListener => true
  | _ => false

structure Note (T : Type) where
  oldValue : T
  newValue : T
  deriving DecidableEq, Repr

/-- A `CfgVar<T>`, the threads that use it and what its listeners have been told. -/
structure SharedVar (n : Nat) (T : Type) where
  mVal : T
  mCbs : List ListenerId
  sFuncId : ListenerId
  mMutex : RWMutex n
  pc : Fin n → VarPc T
  notes : ListenerId → List (Note T)

inductive VarAct (n : Nat) (T : Type) where
  | setValue (t : Fin n) (val : T)
  | fromString (t : Fin n) (val : String)
  | change (t : Fin n) (e : Edit)
  | next (t : Fin n)
  deriving DecidableEq, Repr

namespace SharedVar

def initial (n : Nat) (defaultVal : T) (cbs : List ListenerId) : SharedVar n T where
  mVal := defaultVal
  mCbs := cbs
  sFuncId := cbs.foldr max 0
  mMutex := ⟨[], none⟩
  pc := fun _ => .idle
  notes := fun _ => []

def goto (s : SharedVar n T) (t : Fin n) (pc : VarPc T) : SharedVar n T :=
  { s with pc := Function.update s.pc t pc }

def tell (s : SharedVar n T) (k : ListenerId) (val : T) : SharedVar n T :=
  { s with notes := Function.update s.notes k (s.notes k ++ [⟨s.mVal, val⟩]) }

def applyEdit (s : SharedVar n T) : Edit → SharedVar n T
  | .addListener => { s with sFuncId := s.sFuncId + 1, mCbs := s.mCbs ++ [s.sFuncId + 1] }
  | .delListener key => { s with mCbs := s.mCbs.erase key }
  | .clearListener => { s with mCbs := [] }

/-- The next step of a thread inside a call; the read lock keeps `mCbs` as the loop found it. -/
def nextStep [BEq T] (s : SharedVar n T) (t : Fin n) : Option (SharedVar n T) :=
  match s.pc t with
  | .idle => none
  | .rdlock val => (s.mMutex.rdlock t).map fun m => { s with mMutex := m }.goto t (.compare val)
  | .compare val =>
    some (if s.mVal == val then s.goto t .unlock else s.goto t (.notify val s.mCbs))
  | .notify val (k :: cbs) => some ((s.tell k val).goto t (.notify val cbs))
  | .notify val [] => some ({ s with mMutex := s.mMutex.unlock t }.goto t (.wrlock val))
  | .wrlock val => (s.mMutex.wrlock t).map fun m => { s with mMutex := m }.goto t (.store val)
  | .store val => some ({ s with mVal := val }.goto t .unlock)
  | .wrlockCbs e => (s.mMutex.wrlock t).map fun m => { s with mMutex := m }.goto t (.edit e)
  | .edit e => some ((s.applyEdit e).goto t .unlock)
  | .unlock => some ({ s with mMutex := s.mMutex.unlock t }.goto t .idle)

/-- `fromStr` is `FromStr()`, `none` where it throws; `FromString` catches the exception. -/
def step [BEq T] (fromStr : String → Option T) (s : SharedVar n T) :
    VarAct n T → Option (SharedVar n T)
  | .setValue t val => if (s.pc t).isIdle then some (s.goto t (.rdlock val)) else none
  | .fromString t text =>
    if (s.pc t).isIdle then
      some (match fromStr text with
        | some val => s.goto t (.rdlock val)
        | none => s)
    else none
  | .change t e => if (s.pc t).isIdle then some (s.goto t (.wrlockCbs e)) else none
  | .next t => s.nextStep t

/-- The notes lead from `a` to `b`: each old value is the new value before it. -/
def Chained (a : T) : List (Note T) → T → Prop
  | [], b => a = b
  | note :: notes, b => note.oldValue = a ∧ Chained note.newValue notes b

theorem Chained.extend {notes : List (Note T)} (h : Chained a notes b) :
    Chained a (notes ++ [⟨b, c⟩]) c := by
  induction notes generalizing a with
  | nil => exact ⟨h.symm, rfl⟩
  | cons note notes ih => exact ⟨h.1, ih h.2⟩

/-- The thread is about to find that its value differs from `mVal`. -/
def differs [BEq T] (s : SharedVar n T) (t : Fin n) : Bool :=
  match s.pc t with
  | .compare val => s.mVal != val
  | _ => false

/-- A comparison finds a difference only while no other call stands between its own comparison
and its store. -/
def OneUpdate [BEq T] (s : SharedVar n T) : VarAct n T → Prop
  | .next t => s.differs t = true → ∀ u, (s.pc u).pending = false
  | _ => True

def StaysRegistered (k : ListenerId) (s : SharedVar n T) : VarAct n T → Prop
  | .next t => (s.pc t).removes k = false
  | _ => True

def NotifyGuard [BEq T] (k : ListenerId) (s : SharedVar n T) (a : VarAct n T) : Prop :=
  OneUpdate s a ∧ StaysRegistered k s a

instance [BEq T] : ∀ (s : SharedVar n T) (a : VarAct n T), Decidable (OneUpdate s a)
  | s, .next t => inferInstanceAs (Decidable (s.differs t = true → ∀ u, (s.pc u).pending = false))
  | _, .setValue _ _ | _, .fromString _ _ | _, .change _ _ => inferInstanceAs (Decidable True)

instance (k : ListenerId) :
    ∀ (s : SharedVar n T) (a : VarAct n T), Decidable (StaysRegistered k s a)
  | s, .next t => inferInstanceAs (Decidable ((s.pc t).removes k = false))
  | _, .setValue _ _ | _, .fromString _ _ | _, .change _ _ => inferInstanceAs (Decidable True)

instance [BEq T] (k : ListenerId) (s : SharedVar n T) (a : VarAct n T) :
    Decidable (NotifyGuard k s a) :=
  inferInstanceAs (Decidable (_ ∧ _))

/-- The value listener `k` was last told while a call is pending at `pc`. -/
def lastTold (k : ListenerId) (mVal : T) : VarPc T → T
  | .notify val cbs => if k ∈ cbs then mVal else val
  | .wrlock val | .store val => val
  | _ => mVal

/-- Listener `k` has followed every value since `v₀`. -/
structure Tracks (v₀ : T) (k : ListenerId) (s : SharedVar n T) : Prop where
  registered : k ∈ s.mCbs
  fresh : ∀ j ∈ s.mCbs, j ≤ s.sFuncId
  distinct : s.mCbs.Nodup
  loop : ∀ t val cbs, s.pc t = .notify val cbs → cbs.Nodup
  alone : ∀ t u, (s.pc t).pending = true → (s.pc u).pending = true → t = u
  settled : (∀ t, (s.pc t).pending = false) → Chained v₀ (s.notes k) s.mVal
  busy : ∀ t, (s.pc t).pending = true → Chained v₀ (s.notes k) (lastTold k s.mVal (s.pc t))

variable {s s' : SharedVar n T}

theorem initial_tracks {cbs : List ListenerId} (hcbs : cbs.Nodup) (hk : k ∈ cbs) :
    Tracks v₀ k (initial n v₀ cbs) where
  registered := hk
  fresh _ hj := List.le_max_of_le' 0 hj (Nat.le_refl _)
  distinct := hcbs
  loop _ _ _ h := by cases h
  alone _ _ h := by cases h
  settled _ := rfl
  busy _ h := by cases h

theorem pc_goto (s : SharedVar n T) (t u : Fin n) (loc : VarPc T) :
    (s.goto t loc).pc u = if u = t then loc else s.pc u :=
  Function.update_apply _ _ _ _

/-- A thread without a pending call moves on, and still has none. -/
theorem Tracks.idle {loc : VarPc T} (hs : Tracks v₀ k s) (hp : (s.pc t).pending = false)
    (hloc : loc.pending = false) (hr : k ∈ keys) (hf : ∀ j ∈ keys, j ≤ lastId)
    (hd : keys.Nodup) :
    Tracks v₀ k ({ s with mCbs := keys, sFuncId := lastId, mMutex := m }.goto t loc) := by
  have hsame (u : Fin n) : ((if u = t then loc else s.pc u).pending = true) →
      (if u = t then loc else s.pc u) = s.pc u := by
    intro hx
    split at hx
    · rw [hloc] at hx; cases hx
    · rename_i hu; rw [if_neg hu]
  refine ⟨hr, hf, hd, ?_, ?_, ?_, ?_⟩ <;> simp only [pc_goto]
  · intro u val cbs h
    refine hs.loop u val cbs ((hsame u ?_).symm.trans h)
    rw [h]
    rfl
  · exact fun u v hu hv => hs.alone u v (hsame u hu ▸ hu) (hsame v hv ▸ hv)
  · intro h
    apply hs.settled
    intro u
    by_cases hu : u = t
    · rw [hu, hp]
    · have hnone := h u
      rw [if_neg hu] at hnone
      exact hnone
  · intro u hu
    have hpc := hsame u hu
    rw [hpc] at hu ⊢
    exact hs.busy u hu

/-- The pending call of thread `t` moves on to `loc`. -/
theorem Tracks.advance {loc : VarPc T} {told : ListenerId → List (Note T)} (hs : Tracks v₀ k s)
    (hothers : ∀ u ≠ t, (s.pc u).pending = false) (hloc : loc.pending = true)
    (hloop : ∀ val cbs, loc = .notify val cbs → cbs.Nodup)
    (hn : Chained v₀ (told k) (lastTold k s.mVal loc)) :
    Tracks v₀ k ({ s with notes := told, mMutex := m }.goto t loc) := by
  have honly (u : Fin n) (h : (if u = t then loc else s.pc u).pending = true) : u = t := by
    by_contra hu
    rw [if_neg hu, hothers u hu] at h
    cases h
  refine ⟨hs.registered, hs.fresh, hs.distinct, ?_, ?_, ?_, ?_⟩ <;> simp only [pc_goto]
  · intro u val cbs h
    have hu := honly u (h ▸ rfl)
    rw [if_pos hu] at h
    exact hloop val cbs h
  · exact fun u v hu hv => (honly u hu).trans (honly v hv).symm
  · intro h
    have ht := h t
    rw [if_pos rfl, hloc] at ht
    cases ht
  · intro u hu
    rw [if_pos (honly u hu)]
    exact hn

theorem Tracks.others {loc : VarPc T} (hs : Tracks v₀ k s) (hp : s.pc t = loc)
    (hloc : loc.pending = true) : ∀ u ≠ t, (s.pc u).pending = false := fun u hu =>
  Bool.eq_false_iff.2 fun h => hu (hs.alone u t h (hp ▸ hloc))

/-- The value is stored; the listener has been told of it before. -/
theorem Tracks.store (hs : Tracks v₀ k s) (hp : s.pc t = .store val) :
    Tracks v₀ k ({ s with mVal := val }.goto t .unlock) := by
  have hnone (u : Fin n) : (if u = t then .unlock else s.pc u : VarPc T).pending = false := by
    split
    · rfl
    · rename_i hu; exact hs.others hp rfl u hu
  refine ⟨hs.registered, hs.fresh, hs.distinct, ?_, ?_, ?_, ?_⟩ <;> simp only [pc_goto]
  · intro u v cbs h
    have hu := hnone u
    rw [h] at hu
    cases hu
  · intro u v hu
    rw [hnone u] at hu
    cases hu
  · intro _
    have hb := hs.busy t (by rw [hp]; rfl)
    rw [hp] at hb
    exact hb
  · intro u hu
    rw [hnone u] at hu
    cases hu

theorem Tracks.tell (hs : Tracks v₀ k s) (hp : s.pc t = .notify val (j :: cbs)) :
    Tracks v₀ k ((s.tell j val).goto t (.notify val cbs)) := by
  obtain ⟨hj, hcbs⟩ := List.nodup_cons.1 (hs.loop t val (j :: cbs) hp)
  have hb := hs.busy t (by rw [hp]; rfl)
  rw [hp] at hb
  refine hs.advance (hs.others hp rfl) rfl (fun _ _ h => by cases h; exact hcbs) ?_
  by_cases hk : k = j
  · subst hk
    simp only [lastTold, List.mem_cons, true_or, if_true] at hb
    simp only [lastTold, if_neg hj, Function.update_self]
    exact hb.extend
  · simp only [lastTold, List.mem_cons, hk, false_or] at hb
    rw [Function.update_of_ne hk]
    exact hb

theorem Tracks.next [BEq T] (hs : Tracks v₀ k s) (hg : NotifyGuard k s (.next t))
    (h : s.nextStep t = some s') : Tracks v₀ k s' := by
  simp only [nextStep] at h
  split at h
  · cases h
  · rename_i hp
    obtain ⟨m, -, rfl⟩ := Option.map_eq_some_iff.1 h
    exact hs.idle (by rw [hp]; rfl) rfl hs.registered hs.fresh hs.distinct
  · rename_i val hp
    cases h
    split
    · exact hs.idle (by rw [hp]; rfl) rfl hs.registered hs.fresh hs.distinct
    · rename_i hne
      have hquiet := hg.1 (by simp only [differs, hp, bne, hne, Bool.not_false])
      refine hs.advance (fun u _ => hquiet u) rfl (fun _ _ h => by cases h; exact hs.distinct) ?_
      simp only [lastTold, if_pos hs.registered]
      exact hs.settled hquiet
  · rename_i hp; cases h; exact hs.tell hp
  · rename_i hp
    cases h
    have hb := hs.busy t (by rw [hp]; rfl)
    rw [hp] at hb
    exact hs.advance (hs.others hp rfl) rfl (fun _ _ h => by cases h) hb
  · rename_i hp
    obtain ⟨m, -, rfl⟩ := Option.map_eq_some_iff.1 h
    have hb := hs.busy t (by rw [hp]; rfl)
    rw [hp] at hb
    exact hs.advance (hs.others hp rfl) rfl (fun _ _ h => by cases h) hb
  · rename_i hp; cases h; exact hs.store hp
  · rename_i hp
    obtain ⟨m, -, rfl⟩ := Option.map_eq_some_iff.1 h
    exact hs.idle (by rw [hp]; rfl) rfl hs.registered hs.fresh hs.distinct
  · rename_i e hp
    cases h
    have hidle : (s.pc t).pending = false := by rw [hp]; rfl
    cases e with
    | addListener =>
      apply hs.idle hidle rfl (List.mem_append_left _ hs.registered)
      · intro j hj
        rcases List.mem_append.1 hj with hj | hj
        · exact Nat.le_succ_of_le (hs.fresh j hj)
        · exact Nat.le_of_eq (List.mem_singleton.1 hj)
      · apply hs.distinct.append (List.nodup_singleton _)
        intro j hj hj'
        rw [List.mem_singleton.1 hj'] at hj
        exact Nat.lt_irrefl _ (hs.fresh _ hj)
    | delListener key =>
      have hkey : k ≠ key := by
        have hstays : (s.pc t).removes k = false := hg.2
        simp only [hp, VarPc.removes, decide_eq_false_iff_not] at hstays
        exact Ne.symm hstays
      exact hs.idle hidle rfl ((List.mem_erase_of_ne hkey).2 hs.registered)
        (fun j hj => hs.fresh j (List.mem_of_mem_erase hj)) (hs.distinct.erase key)
    | clearListener =>
      have hstays : (s.pc t).removes k = false := hg.2
      rw [hp] at hstays
      cases hstays
  · rename_i hp
    cases h
    exact hs.idle (by rw [hp]; rfl) rfl hs.registered hs.fresh hs.distinct

theorem Tracks.step [BEq T] (hs : Tracks v₀ k s) (hg : NotifyGuard k s a)
    (h : s.step fromStr a = some s') : Tracks v₀ k s' := by
  have hbegin {t : Fin n} {loc : VarPc T} (hp : (s.pc t).isIdle) (hloc : loc.pending = false) :
      Tracks v₀ k (s.goto t loc) :=
    hs.idle (VarPc.not_pending_of_isIdle hp) hloc hs.registered hs.fresh hs.distinct
  cases a with
  | setValue t val =>
    simp only [SharedVar.step] at h
    split at h
    · rename_i hp; cases h; exact hbegin hp rfl
    · cases h
  | fromString t text =>
    simp only [SharedVar.step] at h
    split at h
    · rename_i hp
      cases h
      split
      · exact hbegin hp rfl
      · exact hs
    · cases h
  | change t e =>
    simp only [SharedVar.step] at h
    split at h
    · rename_i hp; cases h; exact hbegin hp rfl
    · cases h
  | next t => exact hs.next hg h

/-- A listener that stays registered sees a chain that ends in the stored value once all calls
have returned, provided no comparison that finds a difference overlaps with another update. -/
theorem notifications_chain [BEq T] {cbs : List ListenerId} (hcbs : cbs.Nodup)
    (hk : k ∈ cbs)
    (h : Reach (step fromStr) (NotifyGuard k) (initial n v₀ cbs) s) :
    (∃ v, Chained v₀ (s.notes k) v) ∧ ((∀ t, s.pc t = .idle) → Chained v₀ (s.notes k) s.mVal) := by
  have hs : Tracks v₀ k s :=
    h.invariant (initial_tracks hcbs hk) fun hs hg ht => hs.step hg ht
  refine ⟨?_, fun hidle => hs.settled fun t => by rw [hidle t]; rfl⟩
  by_cases hbusy : ∃ t, (s.pc t).pending = true
  · obtain ⟨t, ht⟩ := hbusy
    exact ⟨_, hs.busy t ht⟩
  · exact ⟨_, hs.settled fun t => Bool.eq_false_iff.2 fun ht => hbusy ⟨t, ht⟩⟩

/-- A reading of numbers that knows one of them. -/
def readSeven (text : String) : Option Nat := if text = "7" then some 7 else none

theorem notifications_chain_two_updates :
    ∃ s, Reach (step readSeven) (NotifyGuard 1) (initial 2 0 [1]) s ∧
      s.notes 1 = [⟨0, 5⟩, ⟨5, 7⟩] ∧ Chained 0 (s.notes 1) s.mVal := by
  obtain ⟨s, hs, hp⟩ := Reach.of_exec_map (step readSeven) (NotifyGuard 1) (initial 2 0 [1])
    [.setValue 0 5, .fromString 1 "7", .next 0, .next 0, .next 0, .next 0, .next 0,
      .next 0, .next 0, .next 1, .next 1, .next 1, .next 1, .next 1, .next 1, .next 1]
    (fun s => decide (s.notes 1 = [⟨0, 5⟩, ⟨5, 7⟩] ∧ ∀ t, s.pc t = .idle)) (by decide)
  obtain ⟨hnotes, hidle⟩ := of_decide_eq_true hp
  exact ⟨s, hs, hnotes, (notifications_chain (by decide) (by decide) hs).2 hidle⟩

/-- Both calls compare with the initial value, notify and then store in the opposite order. -/
theorem overlapping_updates_break_chain :
    ∃ s, Reach (step readSeven) (StaysRegistered 1) (initial 2 0 [1]) s ∧
      (∀ t, s.pc t = .idle) ∧ s.notes 1 = [⟨0, 5⟩, ⟨0, 7⟩] ∧ s.mVal = 5 ∧
      ¬ ∃ v, Chained 0 (s.notes 1) v := by
  obtain ⟨s, hs, hp⟩ := Reach.of_exec_map (step readSeven) (StaysRegistered 1) (initial 2 0 [1])
    [.setValue 0 5, .setValue 1 7, .next 0, .next 1, .next 0, .next 1, .next 0, .next 1,
      .next 0, .next 1, .next 1, .next 1, .next 1, .next 0, .next 0, .next 0]
    (fun s => decide ((∀ t, s.pc t = .idle) ∧ s.notes 1 = [⟨0, 5⟩, ⟨0, 7⟩] ∧ s.mVal = 5))
    (by decide)
  obtain ⟨hidle, hnotes, hval⟩ := of_decide_eq_true hp
  refine ⟨s, hs, hidle, hnotes, hval, ?_⟩
  rintro ⟨v, hv⟩
  rw [hnotes] at hv
  exact absurd hv.2.1 (by decide)

end SharedVar
end Config
end SvrFrame
