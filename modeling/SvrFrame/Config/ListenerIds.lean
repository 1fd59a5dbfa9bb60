import SvrFrame.Library.Machine
import Mathlib.Logic.Function.Basic
import Mathlib.Data.Fintype.Basic
import Mathlib.Data.List.Nodup

namespace SvrFrame
namespace Config
open Library
set_option autoImplicit true

/-- Where a thread stands in `AddListener` or `DelListener`. The counter is read and written by
`++sFuncId`, read for `mCbs[sFuncId]` and read for the result. -/
inductive ListenerPc (m : Nat) (F : Type) where
  | idle
  | wrlockAdd (x : Fin m) (cbfunc : F)
  | load (x : Fin m) (cbfunc : F)
  | bump (x : Fin m) (cbfunc : F) (tmp : UInt64)
  | store (x : Fin m) (cbfunc : F)
  /-- The callback is in the map, under the key `key`. -/
  | result (x : Fin m) (cbfunc : F) (key : UInt64)
  | unlockAdd (x : Fin m) (cbfunc : F) (id : UInt64)
  | wrlockDel (x : Fin m) (key : UInt64)
  | erase (x : Fin m) (key : UInt64)
  | unlockDel (x : Fin m)
  deriving DecidableEq, Repr

namespace ListenerPc
variable {m : Nat} {F : Type}

def isIdle : ListenerPc m F → Bool
  | .idle => true
  | _ => false

/-- The variable whose lock the thread holds. -/
def locked : ListenerPc m F → Option (Fin m)
  | .idle | .wrlockAdd _ _ | .wrlockDel _ _ => none
  | .load x _ | .bump x _ _ | .store x _ | .result x _ _ | .unlockAdd x _ _ | .erase x _
  | .unlockDel x => some x

/-- What a call has put into the map before it returns. -/
def held : ListenerPc m F → Option (UInt64 × F)
  | .result _ cbfunc key => some (key, cbfunc)
  | .unlockAdd _ cbfunc id => some (id, cbfunc)
  | _ => none

/-- The call has stored its callback and has yet to read the counter for its result. -/
def waits : ListenerPc m F → Bool
  | .result _ _ _ => true
  | _ => false

end ListenerPc

/-- The listeners of one `CfgVar<T>` and the thread that has its write lock. -/
structure CbTable (n : Nat) (F : Type) where
  mCbs : UInt64 → Option F
  writer : Option (Fin n)
  /-- Ghost: the results of `AddListener`, with the callbacks that were handed over. -/
  returned : List (UInt64 × F)
  /-- Ghost: those of them that `DelListener` has not been called for. -/
  live : List (UInt64 × F)

/-- The variables of one type, the counter they share and the threads that use them. -/
structure CbTables (n m : Nat) (F : Type) where
  sFuncId : UInt64
  vars : Fin m → CbTable n F
  pc : Fin n → ListenerPc m F

inductive ListenerAct (n m : Nat) (F : Type) where
  | addListener (t : Fin n) (x : Fin m) (cbfunc : F)
  | delListener (t : Fin n) (x : Fin m) (key : UInt64)
  | next (t : Fin n)
  deriving DecidableEq, Repr

namespace CbTables
variable {n m : Nat} {F : Type}

def initial (n m : Nat) (F : Type) : CbTables n m F where
  sFuncId := 0
  vars := fun _ => ⟨fun _ => none, none, [], []⟩
  pc := fun _ => .idle

def goto (s : CbTables n m F) (t : Fin n) (pc : ListenerPc m F) : CbTables n m F :=
  { s with pc := Function.update s.pc t pc }

/-- A step that changes the table of variable `x`. -/
def edit (s : CbTables n m F) (t : Fin n) (x : Fin m) (v : CbTable n F) (pc : ListenerPc m F) :
    CbTables n m F :=
  { s with vars := Function.update s.vars x v, pc := Function.update s.pc t pc }

def wrlock (s : CbTables n m F) (t : Fin n) (x : Fin m) (pc : ListenerPc m F) :
    Option (CbTables n m F) :=
  if (s.vars x).writer = none then some (s.edit t x { s.vars x with writer := some t } pc) else none

def nextStep (s : CbTables n m F) (t : Fin n) : Option (CbTables n m F) :=
  match s.pc t with
  | .idle => none
  | .wrlockAdd x cbfunc => s.wrlock t x (.load x cbfunc)
  | .load x cbfunc => some (s.goto t (.bump x cbfunc s.sFuncId))
  | .bump x cbfunc tmp => some ({ s with sFuncId := tmp + 1 }.goto t (.store x cbfunc))
  | .store x cbfunc => some (s.edit t x
      { s.vars x with mCbs := Function.update (s.vars x).mCbs s.sFuncId (some cbfunc) }
      (.result x cbfunc s.sFuncId))
  | .result x cbfunc _ => some (s.goto t (.unlockAdd x cbfunc s.sFuncId))
  | .unlockAdd x cbfunc id => some (s.edit t x
      { s.vars x with
        writer := none
        returned := (s.vars x).returned ++ [(id, cbfunc)]
        live := (s.vars x).live ++ [(id, cbfunc)] } .idle)
  | .wrlockDel x key => s.wrlock t x (.erase x key)
  | .erase x key => some (s.edit t x
      { s.vars x with
        mCbs := Function.update (s.vars x).mCbs key none
        live := (s.vars x).live.filter fun e => e.1 ≠ key } (.unlockDel x))
  | .unlockDel x => some (s.edit t x { s.vars x with writer := none } .idle)

def step (s : CbTables n m F) : ListenerAct n m F → Option (CbTables n m F)
  | .addListener t x cbfunc =>
    if (s.pc t).isIdle then some (s.goto t (.wrlockAdd x cbfunc)) else none
  | .delListener t x key => if (s.pc t).isIdle then some (s.goto t (.wrlockDel x key)) else none
  | .next t => s.nextStep t

/-- The write of `++sFuncId` does not lower the counter, and does not change it between the last two
reads of another call. -/
def Orderly (s : CbTables n m F) : ListenerPc m F → Prop
  | .bump _ _ tmp => s.sFuncId ≤ tmp + 1 ∧ (tmp + 1 = s.sFuncId ∨ ∀ u, (s.pc u).waits = false)
  | _ => True

def Guard (s : CbTables n m F) : ListenerAct n m F → Prop
  | .next t => s.Orderly (s.pc t)
  | _ => True

instance (s : CbTables n m F) : ∀ pc, Decidable (s.Orderly pc)
  | .bump _ _ tmp => inferInstanceAs
    (Decidable (s.sFuncId ≤ tmp + 1 ∧ (tmp + 1 = s.sFuncId ∨ ∀ u, (s.pc u).waits = false)))
  | .idle | .wrlockAdd _ _ | .load _ _ | .store _ _ | .result _ _ _ | .unlockAdd _ _ _
  | .wrlockDel _ _ | .erase _ _ | .unlockDel _ => inferInstanceAs (Decidable True)

instance (s : CbTables n m F) : ∀ a, Decidable (s.Guard a)
  | .next t => inferInstanceAs (Decidable (s.Orderly (s.pc t)))
  | .addListener _ _ _ | .delListener _ _ _ => inferInstanceAs (Decidable True)

/-! ### One variable -/

/-- What the thread with the lock relies on. -/
def Phase (c : UInt64) (v : CbTable n F) : ListenerPc m F → Prop
  | .bump _ _ tmp => tmp ≤ c ∧ ∀ e ∈ v.returned, e.1 ≤ tmp
  | .store _ _ => ∀ e ∈ v.returned, e.1 < c
  | .result _ cbfunc key => key = c ∧ v.mCbs key = some cbfunc ∧ ∀ e ∈ v.returned, e.1 < key
  | .unlockAdd _ cbfunc id => id ≤ c ∧ v.mCbs id = some cbfunc ∧ ∀ e ∈ v.returned, e.1 < id
  | _ => True

/-- The invariant of a variable, with the counter and the position of the thread that has its
lock. -/
structure TableInv (c : UInt64) (v : CbTable n F) (pc : ListenerPc m F) : Prop where
  known : ∀ e ∈ v.returned, e.1 ≤ c
  distinct : (v.returned.map Prod.fst).Nodup
  sub : ∀ e ∈ v.live, e ∈ v.returned
  stored : ∀ e ∈ v.live, v.mCbs e.1 = some e.2
  only : ∀ id cb, v.mCbs id = some cb → (id, cb) ∈ v.live ∨ pc.held = some (id, cb)
  phase : Phase c v pc

section
variable {c c' tmp key id : UInt64} {v : CbTable n F} {pc pc' : ListenerPc m F} {x : Fin m} {cbfunc : F}

theorem bump_lt (h : tmp ≤ c) (h' : c ≤ tmp + 1) : tmp < tmp + 1 := by
  rw [UInt64.le_iff_toNat_le, UInt64.toNat_add] at *
  rw [UInt64.lt_iff_toNat_lt, UInt64.toNat_add]
  have hone : (1 : UInt64).toNat = 1 := rfl
  have hlt := tmp.toNat_lt
  omega

/-- A write of the counter for another variable. -/
theorem TableInv.counter (h : TableInv c v pc) (hle : c ≤ c') (hwaits : pc.waits → c' = c) :
    TableInv c' v pc where
  known e he := UInt64.le_trans (h.known e he) hle
  distinct := h.distinct
  sub := h.sub
  stored := h.stored
  only := h.only
  phase := by
    have hphase := h.phase
    cases pc with
    | bump x cbfunc tmp => exact ⟨UInt64.le_trans hphase.1 hle, hphase.2⟩
    | store x cbfunc => exact fun e he => UInt64.lt_of_lt_of_le (hphase e he) hle
    | result x cbfunc key => exact ⟨hphase.1.trans (hwaits rfl).symm, hphase.2⟩
    | unlockAdd x cbfunc id => exact ⟨UInt64.le_trans hphase.1 hle, hphase.2⟩
    | _ => trivial

/-- A step that leaves the table, and what is held in it. -/
theorem TableInv.goto (h : TableInv c v pc) (hheld : pc'.held = pc.held) (hphase : Phase c v pc') :
    TableInv c v pc' where
  known := h.known
  distinct := h.distinct
  sub := h.sub
  stored := h.stored
  only id cb hcb := by
    rw [hheld]
    exact h.only id cb hcb
  phase := hphase

theorem TableInv.writer (h : TableInv c v pc) (w : Option (Fin n)) :
    TableInv c { v with writer := w } pc where
  known := h.known
  distinct := h.distinct
  sub := h.sub
  stored := h.stored
  only := h.only
  phase := by
    have hphase := h.phase
    cases pc <;> exact hphase

theorem TableInv.bump (h : TableInv c v (.bump x cbfunc tmp)) (hc : c ≤ tmp + 1) :
    TableInv (tmp + 1) v (.store x cbfunc : ListenerPc m F) where
  known e he := UInt64.le_trans (h.known e he) hc
  distinct := h.distinct
  sub := h.sub
  stored := h.stored
  only := h.only
  phase e he := UInt64.lt_of_le_of_lt (h.phase.2 e he) (bump_lt h.phase.1 hc)

theorem TableInv.store (h : TableInv c v (.store x cbfunc)) :
    TableInv c { v with mCbs := Function.update v.mCbs c (some cbfunc) }
      (.result x cbfunc c : ListenerPc m F) where
  known := h.known
  distinct := h.distinct
  sub := h.sub
  stored e he := by
    have hne : e.1 ≠ c := UInt64.ne_of_lt (h.phase e (h.sub e he))
    exact (Function.update_of_ne hne _ _).trans (h.stored e he)
  only id cb hcb := by
    simp only [Function.update_apply] at hcb
    split at hcb
    · rename_i hid
      cases hcb
      rw [hid]
      exact .inr rfl
    · rcases h.only id cb hcb with hlive | hheld
      · exact .inl hlive
      · cases hheld
  phase := ⟨rfl, Function.update_self _ _ _, h.phase⟩

theorem TableInv.returns (h : TableInv c v (.unlockAdd x cbfunc id)) :
    TableInv c { v with
      writer := (none : Option (Fin n))
      returned := v.returned ++ [(id, cbfunc)]
      live := v.live ++ [(id, cbfunc)] } (.idle : ListenerPc m F) := by
  obtain ⟨hle, hcb, hlast⟩ := h.phase
  constructor
  · intro e he
    rcases List.mem_append.1 he with he | he
    · exact h.known e he
    · rw [List.mem_singleton.1 he]
      exact hle
  · rw [List.map_append]
    apply h.distinct.append (List.nodup_singleton _)
    intro k hk hk'
    obtain ⟨e, he, rfl⟩ := List.mem_map.1 hk
    have hlt := hlast e he
    rw [List.mem_singleton.1 hk'] at hlt
    exact UInt64.lt_irrefl _ hlt
  · intro e he
    rcases List.mem_append.1 he with he | he
    · exact List.mem_append_left _ (h.sub e he)
    · exact List.mem_append_right _ he
  · intro e he
    rcases List.mem_append.1 he with he | he
    · exact h.stored e he
    · rw [List.mem_singleton.1 he]
      exact hcb
  · intro id' cb' hcb'
    rcases h.only id' cb' hcb' with hlive | hheld
    · exact .inl (List.mem_append_left _ hlive)
    · cases hheld
      exact .inl (List.mem_append_right _ (List.mem_singleton_self _))
  · trivial

theorem TableInv.erase (h : TableInv c v (.erase x key : ListenerPc m F)) :
    TableInv c { v with
      mCbs := Function.update v.mCbs key none
      live := v.live.filter fun e => e.1 ≠ key } (.unlockDel x : ListenerPc m F) where
  known := h.known
  distinct := h.distinct
  sub e he := h.sub e (List.mem_filter.1 he).1
  stored e he := by
    obtain ⟨hlive, hne⟩ := List.mem_filter.1 he
    exact (Function.update_of_ne (of_decide_eq_true hne) _ _).trans (h.stored e hlive)
  only id cb hcb := by
    simp only [Function.update_apply] at hcb
    split at hcb
    · cases hcb
    · rename_i hne
      rcases h.only id cb hcb with hlive | hheld
      · exact .inl (List.mem_filter.2 ⟨hlive, decide_eq_true hne⟩)
      · cases hheld
  phase := trivial

end

/-! ### All of them -/

/-- Where the thread stands that has the lock of the variable. -/
def holder (s : CbTables n m F) (x : Fin m) : ListenerPc m F :=
  match (s.vars x).writer with
  | some t => s.pc t
  | none => .idle

structure Inv (s : CbTables n m F) : Prop where
  lock : ∀ t x, (s.pc t).locked = some x ↔ (s.vars x).writer = some t
  table : ∀ x, TableInv s.sFuncId (s.vars x) (s.holder x)

variable {s s' : CbTables n m F} {t : Fin n} {x : Fin m}

theorem initial_inv (n m : Nat) (F : Type) : Inv (initial n m F) where
  lock t x := iff_of_false (fun h => by cases h) fun h => by cases h
  table x := by
    constructor
    · exact fun e he => by cases he
    · exact List.nodup_nil
    · exact fun e he => by cases he
    · exact fun e he => by cases he
    · exact fun id cb hcb => by cases hcb
    · trivial

theorem Inv.holder_eq (h : Inv s) (hx : (s.pc t).locked = some x) : s.holder x = s.pc t := by
  rw [holder, (h.lock t x).1 hx]

/-- Who has the lock of another variable than the thread that goes on stays where it is. -/
theorem Inv.holder_other (h : Inv s) (hx : (s.pc t).locked ≠ some x)
    (hwriter : (s'.vars x).writer = (s.vars x).writer) (hpc : ∀ u ≠ t, s'.pc u = s.pc u) :
    s'.holder x = s.holder x := by
  simp only [holder, hwriter]
  split
  · rename_i u hu
    apply hpc
    rintro rfl
    exact hx ((h.lock u x).2 hu)
  · rfl

theorem holder_own {pc : ListenerPc m F}
    (hwriter : ∀ u, (s.vars x).writer = some u ↔ u = t ∧ pc.locked = some x) (hpc : s.pc t = pc) :
    s.holder x = if pc.locked = some x then pc else .idle := by
  rw [holder]
  split
  · rename_i u hu
    obtain ⟨rfl, hlocked⟩ := (hwriter u).1 hu
    rw [if_pos hlocked, hpc]
  · rename_i hnone
    have hlocked : pc.locked ≠ some x := by
      intro hlocked
      rw [(hwriter t).2 ⟨rfl, hlocked⟩] at hnone
      cases hnone
    rw [if_neg hlocked]

/-- A thread without a lock goes on to another place without one. -/
theorem Inv.outside (h : Inv s) (ht : (s.pc t).locked = none) {pc : ListenerPc m F}
    (hpc : pc.locked = none) : Inv (s.goto t pc) where
  lock u x := by
    simp only [goto, Function.update_apply]
    split
    · rename_i hut
      rw [hpc, ← h.lock, hut, ht]
    · exact h.lock u x
  table x := by
    have hx : (s.pc t).locked ≠ some x := by simp [ht]
    have hholder : (s.goto t pc).holder x = s.holder x :=
      h.holder_other hx rfl fun u hu => Function.update_of_ne hu _ _
    rw [hholder]
    exact h.table x

/-- The write of the counter by a thread that has not got the lock of this variable. -/
theorem Inv.counter (h : Inv s) {c : UInt64} (hx : (s.pc t).locked ≠ some x) (hle : s.sFuncId ≤ c)
    (hwaits : ∀ u, (s.pc u).waits → c = s.sFuncId ∨ u = t) :
    TableInv c (s.vars x) (s.holder x) := by
  apply (h.table x).counter hle
  intro hw
  rw [holder] at hw
  split at hw
  · rename_i u hu
    rcases hwaits u hw with hc | rfl
    · exact hc
    · exact absurd ((h.lock u x).2 hu) hx
  · cases hw

/-- A step of the thread that has, gets or gives back the lock of variable `x`. -/
theorem Inv.inside (h : Inv s) {c : UInt64} {v : CbTable n F} {pc : ListenerPc m F}
    (hother : ∀ y ≠ x, (s.pc t).locked ≠ some y) (hpc : ∀ y ≠ x, pc.locked ≠ some y)
    (hwriter : ∀ u, v.writer = some u ↔ u = t ∧ pc.locked = some x)
    (hold : ∀ u, (s.vars x).writer = some u → u = t)
    (hle : s.sFuncId ≤ c) (hwaits : ∀ u, (s.pc u).waits → c = s.sFuncId ∨ u = t)
    (hv : TableInv c v (if pc.locked = some x then pc else .idle)) :
    Inv { s with
      sFuncId := c
      vars := Function.update s.vars x v
      pc := Function.update s.pc t pc } where
  lock u y := by
    by_cases hy : y = x
    · subst hy
      simp only [Function.update_self, hwriter, Function.update_apply]
      split
      · rename_i hut
        simp [hut]
      · rename_i hut
        rw [h.lock]
        simp only [hut, false_and, iff_false]
        exact fun hu => hut (hold u hu)
    · simp only [Function.update_of_ne hy, Function.update_apply]
      split
      · rename_i hut
        rw [← h.lock, hut]
        exact iff_of_false (hpc y hy) (hother y hy)
      · exact h.lock u y
  table y := by
    by_cases hy : y = x
    · subst hy
      rw [holder_own (by simpa only [Function.update_self] using hwriter)
        (Function.update_self _ _ _)]
      simpa only [Function.update_self] using hv
    · have hwriter' : (Function.update s.vars x v y).writer = (s.vars y).writer := by
        rw [Function.update_of_ne hy]
      rw [h.holder_other (hother y hy) hwriter' fun u hu => Function.update_of_ne hu _ _]
      simp only [Function.update_of_ne hy]
      exact h.counter (hother y hy) hle hwaits

/-- The thread keeps the lock. -/
theorem Inv.keeps (h : Inv s) (hx : (s.pc t).locked = some x) {c : UInt64} {v : CbTable n F}
    {pc : ListenerPc m F} (hpc : pc.locked = some x) (hw : v.writer = (s.vars x).writer)
    (hle : s.sFuncId ≤ c) (hwaits : ∀ u, (s.pc u).waits → c = s.sFuncId ∨ u = t)
    (hv : TableInv c v pc) :
    Inv { s with
      sFuncId := c
      vars := Function.update s.vars x v
      pc := Function.update s.pc t pc } := by
  have hwriter := (h.lock t x).1 hx
  apply h.inside
  · intro y hy hlocked
    exact hy (Option.some.inj (hlocked.symm.trans hx))
  · intro y hy hlocked
    exact hy (Option.some.inj (hlocked.symm.trans hpc))
  · intro u
    rw [hw, hwriter, hpc, Option.some.injEq, eq_comm, and_iff_left rfl]
  · intro u hu
    exact Option.some.inj (hu.symm.trans hwriter)
  · exact hle
  · exact hwaits
  · rw [if_pos hpc]
    exact hv

theorem Inv.keeps_edit (h : Inv s) (hx : (s.pc t).locked = some x) {v : CbTable n F}
    {pc : ListenerPc m F} (hpc : pc.locked = some x) (hw : v.writer = (s.vars x).writer)
    (hv : TableInv s.sFuncId v pc) : Inv (s.edit t x v pc) :=
  h.keeps hx hpc hw (UInt64.le_refl _) (fun _ _ => .inl rfl) hv

theorem Inv.keeps_goto (h : Inv s) (hx : (s.pc t).locked = some x) {pc : ListenerPc m F}
    (hpc : pc.locked = some x) (hv : TableInv s.sFuncId (s.vars x) pc) : Inv (s.goto t pc) := by
  have hsame := h.keeps_edit hx hpc rfl hv
  rwa [edit, Function.update_eq_self] at hsame

/-- The thread gives the lock back. -/
theorem Inv.unlocks (h : Inv s) (hx : (s.pc t).locked = some x) {v : CbTable n F}
    (hw : v.writer = none) (hv : TableInv s.sFuncId v (.idle : ListenerPc m F)) :
    Inv (s.edit t x v .idle) := by
  have hwriter := (h.lock t x).1 hx
  apply h.inside
  · intro y hy hlocked
    exact hy (Option.some.inj (hlocked.symm.trans hx))
  · exact fun _ _ hlocked => by cases hlocked
  · intro u
    rw [hw]
    exact iff_of_false (fun hu => by cases hu) fun hu => by cases hu.2
  · intro u hu
    exact Option.some.inj (hu.symm.trans hwriter)
  · exact UInt64.le_refl _
  · exact fun _ _ => .inl rfl
  · exact hv

/-- The thread gets the lock. -/
theorem Inv.wrlock (h : Inv s) (ht : (s.pc t).locked = none) {pc : ListenerPc m F}
    (hpc : pc.locked = some x) (hheld : pc.held = none)
    (hphase : Phase s.sFuncId (s.vars x) pc) (hs : s.wrlock t x pc = some s') : Inv s' := by
  rw [CbTables.wrlock] at hs
  split at hs
  · rename_i hfree
    cases hs
    apply h.inside
    · intro y _ hlocked
      rw [ht] at hlocked
      cases hlocked
    · intro y hy hlocked
      exact hy (Option.some.inj (hlocked.symm.trans hpc))
    · intro u
      rw [hpc, Option.some.injEq, eq_comm, and_iff_left rfl]
    · intro u hu
      rw [hfree] at hu
      cases hu
    · exact UInt64.le_refl _
    · exact fun _ _ => .inl rfl
    · rw [if_pos hpc]
      have htable := h.table x
      rw [holder, hfree] at htable
      exact (htable.goto hheld hphase).writer (some t)
  · cases hs

/-- What a thread in the lock of variable `x` has to go on from. -/
theorem Inv.holding (h : Inv s) {pc : ListenerPc m F} (hpc : s.pc t = pc)
    (hx : pc.locked = some x) :
    (s.pc t).locked = some x ∧ TableInv s.sFuncId (s.vars x) pc := by
  subst hpc
  have htable := h.table x
  rw [h.holder_eq hx] at htable
  exact ⟨hx, htable⟩

theorem Inv.next (h : Inv s) (hg : s.Orderly (s.pc t)) (hs : s.nextStep t = some s') : Inv s' := by
  cases hpc : s.pc t with
  | idle =>
    rw [nextStep, hpc] at hs
    cases hs
  | wrlockAdd x cbfunc =>
    rw [nextStep, hpc] at hs
    have hphase : Phase s.sFuncId (s.vars x) (.load x cbfunc) := trivial
    exact h.wrlock (by rw [hpc]; rfl) rfl rfl hphase hs
  | wrlockDel x key =>
    rw [nextStep, hpc] at hs
    have hphase : Phase s.sFuncId (s.vars x) (.erase x key : ListenerPc m F) := trivial
    exact h.wrlock (by rw [hpc]; rfl) rfl rfl hphase hs
  | load x cbfunc =>
    rw [nextStep, hpc] at hs
    cases hs
    obtain ⟨hx, hv⟩ := h.holding hpc rfl
    exact h.keeps_goto hx rfl (hv.goto rfl ⟨UInt64.le_refl _, hv.known⟩)
  | bump x cbfunc tmp =>
    rw [nextStep, hpc] at hs
    cases hs
    obtain ⟨hx, hv⟩ := h.holding hpc rfl
    rw [hpc] at hg
    obtain ⟨hle, hwaits⟩ := hg
    have hothers : ∀ u, (s.pc u).waits → tmp + 1 = s.sFuncId ∨ u = t := by
      intro u hu
      rcases hwaits with hsame | hnone
      · exact .inl hsame
      · rw [hnone u] at hu
        cases hu
    have hkeeps := h.keeps hx rfl rfl hle hothers (hv.bump hle)
    rwa [Function.update_eq_self] at hkeeps
  | store x cbfunc =>
    rw [nextStep, hpc] at hs
    cases hs
    obtain ⟨hx, hv⟩ := h.holding hpc rfl
    exact h.keeps_edit hx rfl rfl hv.store
  | result x cbfunc key =>
    rw [nextStep, hpc] at hs
    cases hs
    obtain ⟨hx, hv⟩ := h.holding hpc rfl
    obtain ⟨rfl, hcb, hlast⟩ := hv.phase
    exact h.keeps_goto hx rfl (hv.goto rfl ⟨UInt64.le_refl _, hcb, hlast⟩)
  | unlockAdd x cbfunc id =>
    rw [nextStep, hpc] at hs
    cases hs
    obtain ⟨hx, hv⟩ := h.holding hpc rfl
    exact h.unlocks hx rfl hv.returns
  | erase x key =>
    rw [nextStep, hpc] at hs
    cases hs
    obtain ⟨hx, hv⟩ := h.holding hpc rfl
    exact h.keeps_edit hx rfl rfl hv.erase
  | unlockDel x =>
    rw [nextStep, hpc] at hs
    cases hs
    obtain ⟨hx, hv⟩ := h.holding hpc rfl
    have hidle : TableInv s.sFuncId (s.vars x) (.idle : ListenerPc m F) := hv.goto rfl trivial
    exact h.unlocks hx rfl (hidle.writer none)

theorem Inv.step {a : ListenerAct n m F} (h : Inv s) (hg : s.Guard a) (hs : s.step a = some s') :
    Inv s' := by
  have hidle {t : Fin n} (ht : (s.pc t).isIdle = true) : (s.pc t).locked = none := by
    cases hpc : s.pc t with
    | idle => rfl
    | _ =>
      rw [hpc] at ht
      cases ht
  cases a with
  | addListener t x cbfunc =>
    simp only [CbTables.step] at hs
    split at hs
    · rename_i ht
      cases hs
      exact h.outside (hidle ht) rfl
    · cases hs
  | delListener t x key =>
    simp only [CbTables.step] at hs
    split at hs
    · rename_i ht
      cases hs
      exact h.outside (hidle ht) rfl
    · cases hs
  | next t => exact h.next hg hs

/-- The ids of one variable are distinct, under each that has not been deleted its own callback is
stored, and what is stored beside these belongs to a call of `AddListener` that is to return its
key. -/
structure Identified (s : CbTables n m F) : Prop where
  distinct : ∀ x, (((s.vars x).returned).map Prod.fst).Nodup
  stored : ∀ x, ∀ e ∈ (s.vars x).live, e ∈ (s.vars x).returned ∧ (s.vars x).mCbs e.1 = some e.2
  only : ∀ x id cb, (s.vars x).mCbs id = some cb → (id, cb) ∈ (s.vars x).live ∨
    ∃ t, (s.pc t).locked = some x ∧ (s.pc t).held = some (id, cb)

theorem Inv.identified (h : Inv s) : Identified s where
  distinct x := (h.table x).distinct
  stored x e he := ⟨(h.table x).sub e he, (h.table x).stored e he⟩
  only x id cb hcb := by
    rcases (h.table x).only id cb hcb with hlive | hheld
    · exact .inl hlive
    · rw [holder] at hheld
      split at hheld
      · rename_i t ht
        exact .inr ⟨t, (h.lock t x).2 ht, hheld⟩
      · cases hheld

/-- `DelListener` takes off what is stored under its key, for this variable, and nothing else. -/
structure Removes (s s' : CbTables n m F) (x : Fin m) (key : UInt64) : Prop where
  removed : (s'.vars x).mCbs key = none
  live : ∀ cb, (key, cb) ∈ (s.vars x).live → (s.vars x).mCbs key = some cb
  others : ∀ y id, (y, id) ≠ (x, key) → (s'.vars y).mCbs id = (s.vars y).mCbs id

theorem Inv.removes (h : Inv s) (hpc : s.pc t = .erase x key) (hs : s.nextStep t = some s') :
    Removes s s' x key := by
  rw [nextStep, hpc] at hs
  cases hs
  constructor
  · simp only [edit, Function.update_self]
  · exact fun cb hcb => (h.table x).stored _ hcb
  · intro y id hne
    simp only [edit, Function.update_apply]
    split
    · rename_i hy
      have hid : id ≠ key := fun hid => hne (by rw [hy, hid])
      rw [hy]
      exact Function.update_of_ne hid _ _
    · rfl

/-- As long as no write of `++sFuncId` lowers the counter or comes between the last two reads of
another call, ids identify their listeners. -/
theorem ids_identify (h : Reach step Guard (initial n m F) s) :
    Identified s ∧ ∀ t x key s', s.pc t = .erase x key → s.step (.next t) = some s' →
      Removes s s' x key := by
  have hs : Inv s := h.invariant (initial_inv n m F) fun hi hg ht => hi.step hg ht
  constructor
  · exact hs.identified
  · intro t x key s' hpc ht
    exact hs.removes hpc ht

/-- Two variables whose calls overlap, the second one between the write and the read of the first;
one listener is deleted again. -/
theorem ids_identify_overlap : ∃ s, Reach step Guard (initial 2 2 Nat) s ∧
    (s.vars 0).returned = [(2, 10)] ∧ (s.vars 0).mCbs 2 = some 10 ∧
    (s.vars 1).returned = [(2, 20)] ∧ (s.vars 1).mCbs 2 = none := by
  obtain ⟨s, hr, hp⟩ := Reach.of_exec_map step Guard (initial 2 2 Nat)
    ([.addListener 0 0 10, .next 0, .next 0, .next 0, .addListener 1 1 20, .next 1, .next 1,
      .next 1, .next 0, .next 0, .next 0, .next 1, .next 1, .next 1, .delListener 1 1 2,
      .next 1, .next 1, .next 1])
    (fun s => decide ((s.vars 0).returned = [(2, 10)] ∧ (s.vars 0).live = [(2, 10)] ∧
      (s.vars 1).returned = [(2, 20)] ∧ (s.vars 1).mCbs 2 = none)) (by decide)
  obtain ⟨hreturned, hlive, hreturned', hnone⟩ := of_decide_eq_true hp
  have hmem : (2, 10) ∈ (s.vars 0).live := by rw [hlive]; exact List.mem_singleton_self _
  exact ⟨s, hr, hreturned, ((ids_identify hr).1.stored 0 _ hmem).2, hreturned', hnone⟩

/-- The call for the second variable raises the counter before the first one reads its result. -/
theorem ids_mix_up : ∃ s, Reach step (fun _ _ => True) (initial 2 2 Nat) s ∧ ¬ Identified s ∧
    (s.vars 0).returned = [(2, 10)] ∧ (s.vars 0).mCbs 2 = none ∧ (s.vars 0).mCbs 1 = some 10 := by
  obtain ⟨s, hr, hp⟩ := Reach.of_exec_map step (fun _ _ => True) (initial 2 2 Nat)
    [.addListener 0 0 10, .next 0, .next 0, .next 0, .next 0, .addListener 1 1 20, .next 1,
      .next 1, .next 1, .next 0, .next 0]
    (fun s => decide ((s.vars 0).returned = [(2, 10)] ∧ (s.vars 0).live = [(2, 10)] ∧
      (s.vars 0).mCbs 2 = none ∧ (s.vars 0).mCbs 1 = some 10)) (by decide)
  obtain ⟨hreturned, hlive, hnone, hone⟩ := of_decide_eq_true hp
  apply Exists.intro s
  constructor
  · exact hr
  constructor
  · intro hi
    have hmem : (2, 10) ∈ (s.vars 0).live := by rw [hlive]; exact List.mem_singleton_self _
    cases hnone.symm.trans (hi.stored 0 _ hmem).2
  · exact ⟨hreturned, hnone, hone⟩

end CbTables

end Config
end SvrFrame
