import SvrFrame.Config.Notify

namespace SvrFrame
namespace Config
set_option autoImplicit true

/-- The calls that one piece of code makes on a variable, one after another. What the listeners do
that a `SetValue` calls is part of the call, so that the nesting is bounded. -/
inductive Script (T : Type) where
  | done
  | getListener (key : ListenerId) (rest : Script T)
  | change (e : Edit) (rest : Script T)
  | toString (rest : Script T)
  | setValue (val : T) (bodies : ListenerId → Script T) (rest : Script T)

/-- A `CfgVar<T>` whose listeners call back into it, in one thread. -/
structure ReentrantVar (T : Type) where
  mVal : T
  /-- The keys of `mCbs` that have a function, in order. -/
  mCbs : List ListenerId
  /-- Those with an empty function. -/
  empties : List ListenerId
  sFuncId : ListenerId
  /-- The read locks on `mMutex` that the thread holds. -/
  readers : Nat
  deriving DecidableEq, Repr

/-- How a call ends. A write request waits while any read lock is held, one of the requester's own
included: the thread blocks itself. -/
inductive CallEnd (T : Type) where
  | returned (s : ReentrantVar T)
  | badFunctionCall (s : ReentrantVar T)
  | blocked (s : ReentrantVar T)
  deriving DecidableEq, Repr

namespace ReentrantVar
variable {T : Type}

/-- `mCbs[key]`. -/
def touch (s : ReentrantVar T) (key : ListenerId) : ReentrantVar T :=
  if key ∈ s.mCbs ∨ key ∈ s.empties then s else { s with empties := key :: s.empties }

def applyEdit (s : ReentrantVar T) : Edit → ReentrantVar T
  | .addListener => { s with
      sFuncId := s.sFuncId + 1
      mCbs := s.mCbs ++ [s.sFuncId + 1]
      empties := s.empties.erase (s.sFuncId + 1) }
  | .delListener key => { s with mCbs := s.mCbs.erase key, empties := s.empties.erase key }
  | .clearListener => { s with mCbs := [], empties := [] }

/-- The loop of `SetValue` over the rest of `mCbs`, whose keys are not below `key`. The iterator
also comes to the empty functions, those included that have been put in behind it. -/
def notify (call : ListenerId → ReentrantVar T → CallEnd T) :
    List ListenerId → ListenerId → ReentrantVar T → CallEnd T
  | [], key, s => if ∃ g ∈ s.empties, key ≤ g then .badFunctionCall s else .returned s
  | k :: cbs, key, s =>
    if ∃ g ∈ s.empties, key ≤ g ∧ g < k then .badFunctionCall s
    else match call k s with
      | .returned s => notify call cbs (k + 1) s
      | e => e

/-- The read lock of a `SetValue`, taken and given back. -/
def rdlock (s : ReentrantVar T) : ReentrantVar T := { s with readers := s.readers + 1 }

def unlock (s : ReentrantVar T) : ReentrantVar T := { s with readers := s.readers - 1 }

end ReentrantVar

open ReentrantVar

variable {T : Type}

/-- The calls, up to an exception of an empty function or to a write request that blocks. -/
def Script.run [BEq T] : Script T → ReentrantVar T → CallEnd T
  | .done, s => .returned s
  | .getListener key rest, s => rest.run (s.touch key)
  | .toString rest, s => rest.run s
  | .change e rest, s => if s.readers = 0 then rest.run (s.applyEdit e) else .blocked s
  | .setValue val bodies rest, s =>
    if s.mVal == val then rest.run s
    else match notify (fun k => (bodies k).run) s.mCbs 0 s.rdlock with
      | .returned s' =>
        let s' := s'.unlock
        if s'.readers = 0 then rest.run { s' with mVal := val } else .blocked s'
      | .badFunctionCall s' => .badFunctionCall s'.unlock
      | .blocked s' => .blocked s'

def ReentrantVar.setValue [BEq T] (s : ReentrantVar T) (val : T)
    (bodies : ListenerId → Script T) : CallEnd T :=
  (Script.setValue val bodies .done).run s

/-- The calls neither change the listeners nor set another value than the stored one. -/
def Script.Harmless [BEq T] (mVal : T) : Script T → Prop
  | .done => True
  | .getListener _ rest | .toString rest => rest.Harmless mVal
  | .change _ _ => False
  | .setValue val _ rest => (mVal == val) = true ∧ rest.Harmless mVal

/-- `GetListener` is asked for registered listeners only. -/
def Script.Known (cbs : List ListenerId) : Script T → Prop
  | .done => True
  | .getListener key rest => key ∈ cbs ∧ rest.Known cbs
  | .toString rest | .change _ rest => rest.Known cbs
  | .setValue _ bodies rest => (∀ k ∈ cbs, (bodies k).Known cbs) ∧ rest.Known cbs

/-- Nothing has changed but that empty functions may have been put in. -/
structure Same (s s' : ReentrantVar T) : Prop where
  mVal : s'.mVal = s.mVal
  mCbs : s'.mCbs = s.mCbs
  readers : s'.readers = s.readers

section
variable {s s' s'' : ReentrantVar T} {script : Script T} {bodies : ListenerId → Script T}

theorem Same.refl (s : ReentrantVar T) : Same s s := ⟨rfl, rfl, rfl⟩

theorem Same.trans (h : Same s s') (h' : Same s' s'') : Same s s'' :=
  ⟨h'.mVal.trans h.mVal, h'.mCbs.trans h.mCbs, h'.readers.trans h.readers⟩

theorem touch_same (s : ReentrantVar T) (key : ListenerId) : Same s (s.touch key) := by
  rw [touch]
  split
  · exact .refl s
  · exact ⟨rfl, rfl, rfl⟩

theorem rdlock_unlock (h : Same s.rdlock s') : Same s s'.unlock where
  mVal := h.mVal
  mCbs := h.mCbs
  readers := by
    rw [unlock, h.readers, rdlock]
    exact Nat.add_sub_cancel _ 1

/-- A loop that returns has called every listener, and each of the calls has returned. -/
theorem notify_returned {call : ListenerId → ReentrantVar T → CallEnd T} {cbs : List ListenerId}
    {I : ReentrantVar T → Prop} {P : ListenerId → Prop}
    (hcall : ∀ k s s', I s → call k s = .returned s' → P k ∧ I s') (hs : I s) {key : ListenerId}
    (h : notify call cbs key s = .returned s') : (∀ k ∈ cbs, P k) ∧ I s' := by
  induction cbs generalizing s key with
  | nil =>
    simp only [notify] at h
    split at h
    · cases h
    · cases h
      exact ⟨fun k hk => (by cases hk), hs⟩
  | cons k cbs ih =>
    simp only [notify] at h
    split at h
    · cases h
    · split at h
      · rename_i s₁ hone
        obtain ⟨hk, hs₁⟩ := hcall k s s₁ hs hone
        obtain ⟨hcbs, hs'⟩ := ih hs₁ h
        exact ⟨List.forall_mem_cons.2 ⟨hk, hcbs⟩, hs'⟩
      · rename_i hnot
        exact absurd h (hnot s')

/-- A loop whose calls all return does, or it comes to an empty function. -/
theorem notify_returns {call : ListenerId → ReentrantVar T → CallEnd T} {cbs : List ListenerId}
    {I : ReentrantVar T → Prop} (hcall : ∀ k ∈ cbs, ∀ s, I s → ∃ s', call k s = .returned s' ∧ I s')
    (hs : I s) (key : ListenerId) :
    ∃ s', I s' ∧ (notify call cbs key s = .returned s' ∨
      (notify call cbs key s = .badFunctionCall s' ∧ s'.empties ≠ [])) := by
  have hempties {s : ReentrantVar T} {p : ListenerId → Prop} (h : ∃ g ∈ s.empties, p g) :
      s.empties ≠ [] := by
    obtain ⟨g, hg, -⟩ := h
    exact List.ne_nil_of_mem hg
  induction cbs generalizing s key with
  | nil =>
    simp only [notify]
    split
    · rename_i hempty
      exact ⟨s, hs, .inr ⟨rfl, hempties hempty⟩⟩
    · exact ⟨s, hs, .inl rfl⟩
  | cons k cbs ih =>
    simp only [notify]
    split
    · rename_i hempty
      exact ⟨s, hs, .inr ⟨rfl, hempties hempty⟩⟩
    · obtain ⟨s₁, hone, hs₁⟩ := hcall k List.mem_cons_self s hs
      rw [hone]
      exact ih (fun k hk => hcall k (List.mem_cons_of_mem _ hk)) hs₁ (k + 1)

/-- A loop that meets no empty function, and whose calls return or block. -/
theorem notify_blocks {call : ListenerId → ReentrantVar T → CallEnd T} {cbs : List ListenerId}
    {I : ReentrantVar T → Prop} (hI : ∀ s, I s → s.empties = [])
    (hcall : ∀ k ∈ cbs, ∀ s, I s →
      (∃ s', call k s = .returned s' ∧ I s') ∨ ∃ s', call k s = .blocked s')
    (hs : I s) (key : ListenerId) :
    (∃ s', notify call cbs key s = .returned s' ∧ I s') ∨
      ∃ s', notify call cbs key s = .blocked s' := by
  have hnone {s : ReentrantVar T} (hs : I s) (p : ListenerId → Prop) :
      ¬ ∃ g ∈ s.empties, p g := by
    rintro ⟨g, hg, -⟩
    rw [hI s hs] at hg
    cases hg
  induction cbs generalizing s key with
  | nil => exact .inl ⟨s, if_neg (hnone hs _), hs⟩
  | cons k cbs ih =>
    simp only [notify, if_neg (hnone hs _)]
    rcases hcall k List.mem_cons_self s hs with ⟨s₁, hone, hs₁⟩ | ⟨s₁, hone⟩
    · rw [hone]
      exact ih (fun k hk => hcall k (List.mem_cons_of_mem _ hk)) hs₁ (k + 1)
    · rw [hone]
      exact .inr ⟨s₁, rfl⟩

theorem notify_blocked {call : ListenerId → ReentrantVar T → CallEnd T} {cbs : List ListenerId}
    {P : ReentrantVar T → Prop} (hcall : ∀ k s s', call k s = .blocked s' → P s')
    {key : ListenerId} (h : notify call cbs key s = .blocked s') : P s' := by
  induction cbs generalizing s key with
  | nil =>
    simp only [notify] at h
    split at h <;> cases h
  | cons k cbs ih =>
    simp only [notify] at h
    split at h
    · cases h
    · split at h
      · exact ih h
      · exact hcall k s s' h

section
variable [BEq T]

theorem run_harmless (h : script.Harmless s.mVal) :
    ∃ s', script.run s = .returned s' ∧ Same s s' := by
  induction script generalizing s with
  | done => exact ⟨s, rfl, .refl s⟩
  | getListener key rest ih =>
    have hsame := touch_same s key
    obtain ⟨s', hrun, hs'⟩ := ih (s := s.touch key) (by rw [hsame.mVal]; exact h)
    exact ⟨s', hrun, hsame.trans hs'⟩
  | toString rest ih => exact ih h
  | change e rest ih => cases h
  | setValue val bodies rest _ ih =>
    obtain ⟨heq, hrest⟩ := h
    obtain ⟨s', hrun, hs'⟩ := ih hrest
    apply Exists.intro s'
    constructor
    · rw [Script.run, if_pos heq]
      exact hrun
    · exact hs'

/-- Under a read lock, calls that return are harmless: anything else asks for the write lock. -/
theorem run_returned (hlock : s.readers ≠ 0) (h : script.run s = .returned s') :
    script.Harmless s.mVal ∧ Same s s' := by
  induction script generalizing s s' with
  | done =>
    cases h
    exact ⟨trivial, .refl s⟩
  | getListener key rest ih =>
    have hsame := touch_same s key
    obtain ⟨hrest, hs'⟩ := ih (s := s.touch key) (by rw [hsame.readers]; exact hlock) h
    rw [hsame.mVal] at hrest
    exact ⟨hrest, hsame.trans hs'⟩
  | toString rest ih => exact ih hlock h
  | change e rest ih =>
    rw [Script.run, if_neg hlock] at h
    cases h
  | setValue val bodies rest hbodies ih =>
    rw [Script.run] at h
    split at h
    · rename_i heq
      obtain ⟨hrest, hs'⟩ := ih hlock h
      exact ⟨⟨heq, hrest⟩, hs'⟩
    · split at h
      · rename_i s₁ hloop
        have hsame : Same s.rdlock s₁ :=
          (notify_returned (I := Same s.rdlock) (P := fun _ => True)
            (fun k t t' ht hcall => ⟨trivial, ht.trans (hbodies k (by
              rw [ht.readers]
              exact Nat.succ_ne_zero _) hcall).2⟩) (.refl _) hloop).2
        have hunlocked : s₁.unlock.readers ≠ 0 := by
          rw [(rdlock_unlock hsame).readers]
          exact hlock
        simp only [if_neg hunlocked] at h
        cases h
      · cases h
      · cases h

/-- The whole loop of a `SetValue` returns only if all bodies are harmless. -/
theorem notify_harmless {cbs : List ListenerId} (hlock : s.readers ≠ 0) {key : ListenerId}
    (h : notify (fun k => (bodies k).run) cbs key s = .returned s') :
    (∀ k ∈ cbs, (bodies k).Harmless s.mVal) ∧ Same s s' := by
  apply notify_returned (I := Same s) _ (.refl s) h
  intro k t t' ht hcall
  have htlock : t.readers ≠ 0 := by
    rw [ht.readers]
    exact hlock
  obtain ⟨hharmless, hsame⟩ := run_returned htlock hcall
  rw [ht.mVal] at hharmless
  exact ⟨hharmless, ht.trans hsame⟩

/-- The loop of a `SetValue`, if no body puts an empty function in. -/
theorem loop_known (hempties : s.empties = [])
    (hbodies : ∀ k ∈ s.mCbs, ∀ t : ReentrantVar T, t.empties = [] → t.mCbs = s.mCbs →
      t.readers ≠ 0 → (∃ t', (bodies k).run t = .returned t' ∧ t'.empties = [] ∧ Same t t') ∨
        ∃ t', (bodies k).run t = .blocked t') :
    (∃ t, notify (fun k => (bodies k).run) s.mCbs 0 s.rdlock = .returned t ∧ Same s.rdlock t) ∨
      ∃ t, notify (fun k => (bodies k).run) s.mCbs 0 s.rdlock = .blocked t := by
  have hcall : ∀ k ∈ s.mCbs, ∀ t, t.empties = [] ∧ Same s.rdlock t →
      (∃ t', (bodies k).run t = .returned t' ∧ t'.empties = [] ∧ Same s.rdlock t') ∨
        ∃ t', (bodies k).run t = .blocked t' := by
    intro k hk t ht
    have htlock : t.readers ≠ 0 := by
      rw [ht.2.readers]
      exact Nat.succ_ne_zero _
    rcases hbodies k hk t ht.1 ht.2.mCbs htlock with ⟨t', hrun, hnil, hsame⟩ | hblocked
    · exact .inl ⟨t', hrun, hnil, ht.2.trans hsame⟩
    · exact .inr hblocked
  have hstart : s.rdlock.empties = [] ∧ Same s.rdlock s.rdlock := ⟨hempties, .refl _⟩
  rcases notify_blocks (fun _ ht => ht.1) hcall hstart 0 with ⟨t, hloop, -, hsame⟩ | hblocked
  · exact .inl ⟨t, hloop, hsame⟩
  · exact .inr hblocked

/-- Without empty functions, and with lookups of registered listeners only, none is called. -/
theorem run_known (hempties : s.empties = []) (hknown : script.Known s.mCbs)
    (hlock : s.readers ≠ 0) :
    (∃ s', script.run s = .returned s' ∧ s'.empties = [] ∧ Same s s') ∨
      ∃ s', script.run s = .blocked s' := by
  induction script generalizing s with
  | done => exact .inl ⟨s, rfl, hempties, .refl s⟩
  | getListener key rest ih =>
    have htouch : s.touch key = s := if_pos (.inl hknown.1)
    simp only [Script.run, htouch]
    exact ih hempties hknown.2 hlock
  | toString rest ih => exact ih hempties hknown hlock
  | change e rest ih => exact .inr ⟨s, if_neg hlock⟩
  | setValue val bodies rest hbodies ih =>
    rw [Script.run]
    split
    · exact ih hempties hknown.2 hlock
    · rcases loop_known hempties fun k hk t hnil hcbs htlock =>
          hbodies k hnil (hcbs ▸ hknown.1 k hk) htlock with ⟨t, hloop, hsame⟩ | ⟨t, hloop⟩
      · rw [hloop]
        have hunlocked : t.unlock.readers ≠ 0 := by
          rw [(rdlock_unlock hsame).readers]
          exact hlock
        exact .inr ⟨t.unlock, if_neg hunlocked⟩
      · rw [hloop]
        exact .inr ⟨t, rfl⟩

/-- The thread that blocks has a read lock. -/
theorem run_blocked (h : script.run s = .blocked s') : s'.readers ≠ 0 := by
  induction script generalizing s s' with
  | done => cases h
  | getListener key rest ih => exact ih h
  | toString rest ih => exact ih h
  | change e rest ih =>
    rw [Script.run] at h
    split at h
    · exact ih h
    · rename_i hlock
      cases h
      exact hlock
  | setValue val bodies rest hbodies ih =>
    rw [Script.run] at h
    split at h
    · exact ih h
    · split at h
      · simp only at h
        split at h
        · exact ih h
        · rename_i hlock
          cases h
          exact hlock
      · cases h
      · rename_i hloop
        cases h
        exact notify_blocked (P := fun t => t.readers ≠ 0)
          (fun k t t' hcall => hbodies k hcall) hloop

/-- The call comes to a state in which the thread requests the write lock and holds a read lock. -/
def SelfBlocks (s : ReentrantVar T) (val : T) (bodies : ListenerId → Script T) : Prop :=
  ∃ t, s.setValue val bodies = .blocked t ∧ t.readers ≠ 0

/-- The value is equal to the stored one, or no listener changes the listeners or sets another value
than the stored one. -/
def Passes (s : ReentrantVar T) (val : T) (bodies : ListenerId → Script T) : Prop :=
  (s.mVal == val) = true ∨ ∀ k ∈ s.mCbs, (bodies k).Harmless s.mVal

theorem setValue_passes (hs : s.readers = 0) {val : T} (h : Passes s val bodies) :
    ∃ t, s.setValue val bodies = .returned t ∨
      (s.setValue val bodies = .badFunctionCall t.unlock ∧ t.empties ≠ []) := by
  rw [setValue, Script.run]
  split
  · exact ⟨s, .inl rfl⟩
  · rename_i hne
    have hharmless := h.resolve_left hne
    have hcall : ∀ k ∈ s.mCbs, ∀ t, Same s.rdlock t →
        ∃ t', (bodies k).run t = .returned t' ∧ Same s.rdlock t' := by
      intro k hk t ht
      have hbody : (bodies k).Harmless t.mVal := by
        rw [ht.mVal]
        exact hharmless k hk
      obtain ⟨t', hrun, hsame⟩ := run_harmless hbody
      exact ⟨t', hrun, ht.trans hsame⟩
    obtain ⟨t, hsame, hloop | ⟨hloop, hempties⟩⟩ := notify_returns hcall (.refl s.rdlock) 0
    · have hunlocked : t.unlock.readers = 0 := (rdlock_unlock hsame).readers.trans hs
      rw [hloop]
      exact ⟨_, .inl (if_pos hunlocked)⟩
    · rw [hloop]
      exact ⟨t, .inr ⟨rfl, hempties⟩⟩

theorem setValue_returned {val : T} (h : s.setValue val bodies = .returned s') :
    Passes s val bodies := by
  rw [setValue, Script.run] at h
  split at h
  · rename_i heq
    exact .inl heq
  · split at h
    · rename_i hloop
      exact .inr (notify_harmless (Nat.succ_ne_zero _) hloop).1
    · cases h
    · cases h

theorem setValue_known {val : T} (hempties : s.empties = [])
    (hknown : ∀ k ∈ s.mCbs, (bodies k).Known s.mCbs) (hs : s.readers = 0) :
    (∃ t, s.setValue val bodies = .returned t) ∨ ∃ t, s.setValue val bodies = .blocked t := by
  rw [setValue, Script.run]
  split
  · exact .inl ⟨s, rfl⟩
  · rcases loop_known hempties fun k hk t hnil hcbs htlock =>
        run_known hnil (hcbs ▸ hknown k hk) htlock with ⟨t, hloop, hsame⟩ | ⟨t, hloop⟩
    · have hunlocked : t.unlock.readers = 0 := (rdlock_unlock hsame).readers.trans hs
      rw [hloop]
      exact .inl ⟨_, if_pos hunlocked⟩
    · rw [hloop]
      exact .inr ⟨t, rfl⟩

/-- A `SetValue` by a thread without locks does not block itself if the value is equal or no
listener calls anything that writes. Otherwise it does, unless an empty function ends it before;
which cannot be where none is in the map and the listeners look up registered ones only. -/
theorem selfBlocks_iff (mVal val : T) (cbs empties : List ListenerId) (n : ListenerId)
    (bodies : ListenerId → Script T) :
    let s : ReentrantVar T := ⟨mVal, cbs, empties, n, 0⟩
    (Passes s val bodies → ¬ SelfBlocks s val bodies) ∧
    (¬ Passes s val bodies →
      SelfBlocks s val bodies ∨ ∃ t, s.setValue val bodies = .badFunctionCall t) ∧
    (empties = [] → (∀ k ∈ cbs, (bodies k).Known cbs) →
      (¬ SelfBlocks s val bodies ↔ Passes s val bodies)) := by
  intro s
  have hpasses (h : Passes s val bodies) : ¬ SelfBlocks s val bodies := by
    rintro ⟨t, hblocked, -⟩
    obtain ⟨t', hret | ⟨hthrown, -⟩⟩ := setValue_passes rfl h
    · cases hblocked.symm.trans hret
    · cases hblocked.symm.trans hthrown
  have hblocks (h : ∃ t, s.setValue val bodies = .blocked t) : SelfBlocks s val bodies := by
    obtain ⟨t, hblocked⟩ := h
    exact ⟨t, hblocked, run_blocked hblocked⟩
  constructor
  · exact hpasses
  constructor
  · intro hnot
    cases hend : s.setValue val bodies with
    | returned t => exact absurd (setValue_returned hend) hnot
    | badFunctionCall t => exact .inr ⟨t, rfl⟩
    | blocked t => exact .inl (hblocks ⟨t, hend⟩)
  · intro hempties hknown
    constructor
    · intro hnot
      have hends : (∃ t, s.setValue val bodies = .returned t) ∨
          ∃ t, s.setValue val bodies = .blocked t := setValue_known hempties hknown rfl
      rcases hends with ⟨t, hret⟩ | hblocked
      · exact setValue_returned hret
      · exact absurd (hblocks hblocked) hnot
    · exact hpasses

end
end

/-- A listener that looks itself up and sets the value that is stored. -/
theorem lookup_passes : let s : ReentrantVar Nat := ⟨0, [1], [], 1, 0⟩
    ¬ SelfBlocks s 5 fun _ => .getListener 1 (.setValue 0 (fun _ => .done) .done) := by
  apply ((selfBlocks_iff 0 5 [1] [] 1 _).2.2 rfl _).2
  · apply Or.inr
    exact List.forall_mem_singleton.2 ⟨rfl, trivial⟩
  · exact List.forall_mem_singleton.2
      ⟨List.mem_singleton_self 1, fun _ _ => trivial, trivial⟩

/-- A listener that takes itself off. -/
theorem delListener_blocks : let s : ReentrantVar Nat := ⟨0, [1], [], 1, 0⟩
    SelfBlocks s 5 fun _ => .change (.delListener 1) .done :=
  ⟨_, rfl, by decide⟩

end Config
end SvrFrame
