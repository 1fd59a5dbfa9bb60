import SvrFrame.Config.Notify
import SvrFrame.Library.OrdSet
import SvrFrame.Yaml.Node

namespace SvrFrame
namespace Config
open Library
set_option autoImplicit true

/-- What a listener throws; calling an empty `std::function` throws `badFunctionCall`. -/
inductive CallbackExn where
  | badFunctionCall
  | exception (what : String)
  deriving DecidableEq, Repr

/-- A listener is told the old and the new value and acts on a world of its own. -/
abbrev OnChangeCallback (W T : Type) := T → T → W → Option CallbackExn × W

/-- `std::map<uint64_t, OnChangeCallback>`, with `none` for an empty function. -/
abbrev CallbackMap (W T : Type) :=
  OrdSet fun e : ListenerId × Option (OnChangeCallback W T) => e.1

/-- A `CfgVar<T>` in the hands of one thread. The counter, which all variables of one type share,
is one of 64 bits and does not come to its end. -/
structure ListenedVar (W T : Type) where
  mVal : T
  mCbs : CallbackMap W T
  sFuncId : ListenerId

/-- The call of a listener, and whether it has come to its end without an exception. -/
structure Told (T : Type) where
  key : ListenerId
  oldValue : T
  newValue : T
  completed : Bool
  deriving DecidableEq, Repr

/-- What a call of `SetValue` does beside storing a value. -/
structure Announcement (W T : Type) where
  told : List (Told T)
  thrown : Option CallbackExn
  world : W
  deriving DecidableEq, Repr

def Announcement.none (w : W) : Announcement W T := ⟨[], .none, w⟩

/-- Listener `key` has been told first. -/
def Announcement.cons (t : Told T) (r : Announcement W T) : Announcement W T :=
  { r with told := t :: r.told }

namespace ListenedVar
variable {W T : Type}

def new (defaultVal : T) (sFuncId : ListenerId) : ListenedVar W T :=
  ⟨defaultVal, OrdSet.empty, sFuncId⟩

/-- The loop of `SetValue`. -/
def notify (oldValue newValue : T) :
    List (ListenerId × Option (OnChangeCallback W T)) → W → Announcement W T
  | [], w => .none w
  | (_, none) :: _, w => ⟨[], some .badFunctionCall, w⟩
  | (key, some cb) :: cbs, w =>
    match cb oldValue newValue w with
    | (some e, w) => ⟨[⟨key, oldValue, newValue, false⟩], some e, w⟩
    | (none, w) => (notify oldValue newValue cbs w).cons ⟨key, oldValue, newValue, true⟩

def setValue [BEq T] (s : ListenedVar W T) (val : T) (w : W) :
    ListenedVar W T × Announcement W T :=
  if s.mVal == val then (s, .none w)
  else
    let r := notify s.mVal val s.mCbs.elems w
    -- an exception leaves `SetValue` before the store
    (if r.thrown.isSome then s else { s with mVal := val }, r)

/-- `FromString` with the conversion `FromStr()`; whatever is thrown is caught. -/
def fromString [BEq T] (fromStr : String → Except Exn T) (s : ListenedVar W T) (val : String)
    (w : W) : Bool × ListenedVar W T × Announcement W T :=
  let r := match fromStr val with
    | .ok val => s.setValue val w
    | .error _ => (s, .none w)
  (false, r)

def addListener (s : ListenedVar W T) (cbfunc : OnChangeCallback W T) : ListenedVar W T where
  mVal := s.mVal
  mCbs := (s.mCbs.erase (s.sFuncId + 1)).insert (s.sFuncId + 1, some cbfunc)
  sFuncId := s.sFuncId + 1

def delListener (s : ListenedVar W T) (key : ListenerId) : ListenedVar W T :=
  { s with mCbs := s.mCbs.erase key }

/-- `mCbs[key]` makes an empty entry where there is none. -/
def getListener (s : ListenedVar W T) (key : ListenerId) :
    ListenedVar W T × Option (OnChangeCallback W T) :=
  let mCbs := s.mCbs.insert (key, none)
  ({ s with mCbs := mCbs }, (mCbs.find? key).bind Prod.snd)

def clearListener (s : ListenedVar W T) : ListenedVar W T := { s with mCbs := OrdSet.empty }

end ListenedVar

inductive ListenerCall (W T : Type) where
  | addListener (cbfunc : OnChangeCallback W T)
  | delListener (key : ListenerId)
  | getListener (key : ListenerId)
  | clearListener
  /-- Another variable of the type gets a listener. -/
  | elsewhere

def ListenerCall.reads {W T : Type} : ListenerCall W T → Bool
  | .getListener _ => true
  | _ => false

namespace ListenedVar
variable {W T : Type}

def call (s : ListenedVar W T) : ListenerCall W T → ListenedVar W T
  | .addListener cbfunc => s.addListener cbfunc
  | .delListener key => s.delListener key
  | .getListener key => (s.getListener key).1
  | .clearListener => s.clearListener
  | .elsewhere => { s with sFuncId := s.sFuncId + 1 }

def after (defaultVal : T) (sFuncId : ListenerId) (calls : List (ListenerCall W T)) :
    ListenedVar W T :=
  calls.foldl call (.new defaultVal sFuncId)

end ListenedVar

/-! ### Who is registered -/

/-- The listeners that have been added and not deleted, in order of registration; and the keys that
`GetListener` has been asked for in vain and that have neither been deleted nor given out since. -/
structure Register (W T : Type) where
  live : List (ListenerId × OnChangeCallback W T)
  ghosts : List ListenerId
  last : ListenerId

namespace Register
variable {W T : Type}

def call (r : Register W T) : ListenerCall W T → Register W T
  | .addListener cbfunc => ⟨r.live ++ [(r.last + 1, cbfunc)],
      r.ghosts.filter fun k => k ≠ r.last + 1, r.last + 1⟩
  | .delListener key => { r with
      live := r.live.filter fun e => e.1 ≠ key
      ghosts := r.ghosts.filter fun k => k ≠ key }
  | .getListener key =>
    if key ∈ r.live.map Prod.fst then r else { r with ghosts := key :: r.ghosts }
  | .clearListener => { r with live := [], ghosts := [] }
  | .elsewhere => { r with last := r.last + 1 }

def after (sFuncId : ListenerId) (calls : List (ListenerCall W T)) : Register W T :=
  calls.foldl call ⟨[], [], sFuncId⟩

/-- Each of the listeners is told, up to the first one that throws. -/
def announce (oldValue newValue : T) :
    List (ListenerId × OnChangeCallback W T) → W → Announcement W T
  | [], w => .none w
  | (key, cb) :: cbs, w =>
    match cb oldValue newValue w with
    | (some e, w) => ⟨[⟨key, oldValue, newValue, false⟩], some e, w⟩
    | (none, w) => (announce oldValue newValue cbs w).cons ⟨key, oldValue, newValue, true⟩

end Register

/-- The entries that hold a function. -/
def functions {W T : Type} (es : List (ListenerId × Option (OnChangeCallback W T))) :
    List (ListenerId × OnChangeCallback W T) :=
  es.filterMap fun e => e.2.map (Prod.mk e.1)

section
variable {W T : Type} {es : List (ListenerId × Option (OnChangeCallback W T))}

theorem mem_functions {e : ListenerId × OnChangeCallback W T} :
    e ∈ functions es ↔ (e.1, some e.2) ∈ es := by
  simp only [functions, List.mem_filterMap, Option.map_eq_some_iff]
  constructor
  · rintro ⟨⟨key, f⟩, hmem, cb, rfl, rfl⟩
    exact hmem
  · intro hmem
    exact ⟨_, hmem, e.2, rfl, rfl⟩

theorem functions_filter (p : ListenerId → Bool) :
    functions (es.filter fun e => p e.1) = (functions es).filter fun e => p e.1 := by
  induction es with
  | nil => rfl
  | cons e es ih =>
    obtain ⟨key, _ | cb⟩ := e <;> cases hp : p key <;> simp_all [functions]

theorem functions_insert_none (key : ListenerId) :
    functions (OrdSet.insertList Prod.fst (key, none) es) = functions es := by
  induction es with
  | nil => rfl
  | cons e es ih =>
    simp only [OrdSet.insertList]
    split
    · rfl
    · split
      · simp only [functions, List.filterMap_cons] at ih ⊢
        rw [ih]
      · rfl

/-- A function under a key above those of the others becomes the last one, also where keys of empty
entries are above it. -/
theorem functions_insert_last {key : ListenerId} {cb : OnChangeCallback W T}
    (hs : es.Pairwise fun a b => a.1 < b.1) (hlast : ∀ e ∈ functions es, e.1 < key)
    (hnew : ∀ e ∈ es, e.1 ≠ key) :
    functions (OrdSet.insertList Prod.fst (key, some cb) es) = functions es ++ [(key, cb)] := by
  induction es with
  | nil => rfl
  | cons e es ih =>
    have ⟨he, hes⟩ := List.pairwise_cons.1 hs
    simp only [OrdSet.insertList]
    split
    · rename_i hlt
      have hnil : functions (e :: es) = [] := by
        apply List.eq_nil_iff_forall_not_mem.2
        intro f hf
        have hkey : key < f.1 := by
          rcases List.mem_cons.1 (mem_functions.1 hf) with heq | hmem
          · rw [← heq] at hlt
            exact hlt
          · exact lt_trans hlt (he _ hmem)
        exact absurd (hlast f hf) (not_lt.2 hkey.le)
      have hcons : functions ((key, some cb) :: e :: es) = (key, cb) :: functions (e :: es) := rfl
      rw [hcons, hnil]
      rfl
    · split
      · obtain ⟨key', f⟩ := e
        have htail : ∀ e ∈ functions es, e.1 < key := fun e h =>
          hlast e (mem_functions.2 (List.mem_cons_of_mem _ (mem_functions.1 h)))
        have ih := ih hes htail fun e h => hnew e (List.mem_cons_of_mem _ h)
        cases f with
        | none => exact ih
        | some cb' => exact congrArg (List.cons (key', cb')) ih
      · rename_i hlt hgt
        exact absurd (le_antisymm (not_lt.1 hlt) (not_lt.1 hgt)) (hnew e List.mem_cons_self)

end

/-- The map holds the registered listeners, and an empty entry for each ghost. -/
structure Matches {W T : Type} (s : ListenedVar W T) (r : Register W T) : Prop where
  live : functions s.mCbs.elems = r.live
  ghosts : ∀ k, k ∈ r.ghosts ↔ (k, none) ∈ s.mCbs.elems
  last : s.sFuncId = r.last
  known : ∀ e ∈ r.live, e.1 ≤ r.last

section
variable {W T : Type} {s : ListenedVar W T} {r : Register W T}

theorem new_matches (defaultVal : T) (n : ListenerId) :
    Matches (.new defaultVal n : ListenedVar W T) ⟨[], [], n⟩ := by
  constructor
  · rfl
  · exact fun _ => iff_of_false (fun h => by cases h) fun h => by cases h
  · rfl
  · exact fun e he => by cases he

theorem Matches.addListener (h : Matches s r) (cbfunc : OnChangeCallback W T) :
    Matches (s.addListener cbfunc) (r.call (.addListener cbfunc)) := by
  have herase : functions (s.mCbs.erase (r.last + 1)).elems = r.live := by
    rw [OrdSet.erase, functions_filter fun k => decide (k ≠ r.last + 1), h.live, List.filter_eq_self]
    intro e he
    exact decide_eq_true (Nat.ne_of_lt (Nat.lt_succ_of_le (h.known e he)))
  constructor
  · simp only [ListenedVar.addListener, h.last, OrdSet.insert]
    rw [functions_insert_last (s.mCbs.erase (r.last + 1)).sorted, herase]
    · rfl
    · rw [herase]
      exact fun e he => Nat.lt_succ_of_le (h.known e he)
    · exact fun e he => (OrdSet.mem_erase.1 he).2
  · intro k
    simp only [ListenedVar.addListener, Register.call, h.last, OrdSet.mem_insert, OrdSet.mem_erase,
      List.mem_filter, h.ghosts, decide_eq_true_eq]
    constructor
    · exact .inl
    · rintro (hk | ⟨heq, -⟩)
      · exact hk
      · cases heq
  · simp only [ListenedVar.addListener, Register.call, h.last]
  · intro e he
    rcases List.mem_append.1 he with he | he
    · exact Nat.le_succ_of_le (h.known e he)
    · rw [List.mem_singleton.1 he]
      exact Nat.le_refl _

theorem Matches.delListener (h : Matches s r) (key : ListenerId) :
    Matches (s.delListener key) (r.call (.delListener key)) := by
  constructor
  · simp only [ListenedVar.delListener, OrdSet.erase]
    rw [functions_filter fun k => decide (k ≠ key), h.live]
    rfl
  · intro k
    simp only [ListenedVar.delListener, Register.call, OrdSet.mem_erase, List.mem_filter, h.ghosts,
      decide_eq_true_eq]
  · exact h.last
  · exact fun e he => h.known e (List.mem_filter.1 he).1

theorem Matches.getListener (h : Matches s r) (key : ListenerId) :
    Matches (s.getListener key).1 (r.call (.getListener key)) := by
  have hghost (k : ListenerId) : (k, none) ∈ (s.getListener key).1.mCbs.elems ↔
      (k, none) ∈ s.mCbs.elems ∨ (k = key ∧ s.mCbs.find? key = none) := by
    simp only [ListenedVar.getListener, OrdSet.mem_insert, Prod.mk.injEq, and_true]
  have hlive : functions (s.getListener key).1.mCbs.elems = r.live := by
    rw [← h.live]
    exact functions_insert_none key
  simp only [Register.call]
  split
  · rename_i hmem
    obtain ⟨e, he, rfl⟩ := List.mem_map.1 hmem
    rw [← h.live] at he
    have hfound := OrdSet.find?_isSome (mem_functions.1 he)
    constructor
    · exact hlive
    · intro k
      rw [hghost, h.ghosts]
      constructor
      · exact .inl
      · rintro (hk | ⟨-, hnone⟩)
        · exact hk
        · rw [hfound] at hnone
          cases hnone
    · exact h.last
    · exact h.known
  · rename_i hmem
    constructor
    · exact hlive
    · intro k
      rw [hghost, List.mem_cons, h.ghosts]
      constructor
      · rintro (rfl | hk)
        · cases hfind : s.mCbs.find? k with
          | none => exact .inr ⟨rfl, rfl⟩
          | some e =>
            -- the key is in the map, but nothing is registered under it
            obtain ⟨hin, rfl⟩ := OrdSet.find?_eq_some.1 hfind
            obtain ⟨key, _ | cb⟩ := e
            · exact .inl hin
            · have hlive' : (key, cb) ∈ r.live := h.live ▸ mem_functions.2 hin
              exact absurd (List.mem_map_of_mem hlive') hmem
        · exact .inl hk
      · rintro (hk | ⟨rfl, -⟩)
        · exact .inr hk
        · exact .inl rfl
    · exact h.last
    · exact h.known

theorem Matches.call (h : Matches s r) (c : ListenerCall W T) : Matches (s.call c) (r.call c) := by
  cases c with
  | addListener cbfunc => exact h.addListener cbfunc
  | delListener key => exact h.delListener key
  | getListener key => exact h.getListener key
  | clearListener =>
    constructor
    · rfl
    · exact fun _ => iff_of_false (fun h => by cases h) fun h => by cases h
    · exact h.last
    · exact fun e he => by cases he
  | elsewhere =>
    constructor
    · exact h.live
    · exact h.ghosts
    · exact congrArg (· + 1) h.last
    · exact fun e he => Nat.le_succ_of_le (h.known e he)

theorem Matches.calls (h : Matches s r) (calls : List (ListenerCall W T)) :
    Matches (calls.foldl ListenedVar.call s) (calls.foldl Register.call r) := by
  induction calls generalizing s r with
  | nil => exact h
  | cons c calls ih => exact ih (h.call c)

theorem after_matches (defaultVal : T) (n : ListenerId) (calls : List (ListenerCall W T)) :
    Matches (.after defaultVal n calls) (Register.after n calls) :=
  (new_matches defaultVal n).calls calls

theorem call_mVal (s : ListenedVar W T) (c : ListenerCall W T) : (s.call c).mVal = s.mVal := by
  cases c <;> rfl

theorem after_mVal (defaultVal : T) (n : ListenerId) (calls : List (ListenerCall W T)) :
    (ListenedVar.after defaultVal n calls).mVal = defaultVal := by
  induction calls using List.reverseRecOn with
  | nil => rfl
  | append_singleton calls c ih =>
    rw [ListenedVar.after, List.foldl_append]
    exact (call_mVal _ c).trans ih

end

/-! ### Reading a listener -/

namespace Register
variable {W T : Type} {cbs : List (ListenerId × OnChangeCallback W T)} {oldValue newValue : T}

theorem announce_key {w : W} (ht : t ∈ (announce oldValue newValue cbs w).told) :
    ∃ e ∈ cbs, e.1 = t.key := by
  induction cbs generalizing w with
  | nil => cases ht
  | cons e cbs ih =>
    obtain ⟨key, cb⟩ := e
    simp only [announce] at ht
    split at ht
    · cases List.mem_singleton.1 ht
      exact ⟨_, List.mem_cons_self, rfl⟩
    · rcases List.mem_cons.1 ht with rfl | ht
      · exact ⟨_, List.mem_cons_self, rfl⟩
      · obtain ⟨e, he, hkey⟩ := ih ht
        exact ⟨e, List.mem_cons_of_mem _ he, hkey⟩

theorem announce_told_ne_nil {w : W}
    (h : (announce oldValue newValue cbs w).thrown ≠ none) :
    (announce oldValue newValue cbs w).told ≠ [] := by
  cases cbs with
  | nil => exact absurd rfl h
  | cons e cbs =>
    obtain ⟨key, cb⟩ := e
    simp only [announce]
    split <;> exact List.cons_ne_nil _ _

/-- Listeners that do not throw are all told. -/
theorem announce_quiet (h : ∀ e ∈ cbs, ∀ w, (e.2 oldValue newValue w).1 = none) (w : W) :
    (announce oldValue newValue cbs w).told =
        cbs.map (fun e => ⟨e.1, oldValue, newValue, true⟩) ∧
      (announce oldValue newValue cbs w).thrown = none := by
  induction cbs generalizing w with
  | nil => exact ⟨rfl, rfl⟩
  | cons e cbs ih =>
    obtain ⟨key, cb⟩ := e
    have hcb := h _ List.mem_cons_self w
    simp only [announce]
    split
    · rename_i hthrown
      cases hcb.symm.trans (congrArg Prod.fst hthrown)
    · rename_i w' _
      obtain ⟨htold, hthrown⟩ := ih (fun e he => h e (List.mem_cons_of_mem _ he)) w'
      exact ⟨congrArg (List.cons _) htold, hthrown⟩

/-- No ghost stands before the first listener that throws. -/
def Unreached (r : Register W T) (oldValue newValue : T) (w : W) : Prop :=
  ∀ k ∈ r.ghosts, ∃ t ∈ (announce oldValue newValue r.live w).told, t.completed = false ∧ t.key < k

/-- What is left of a register without its ghosts. -/
def laid (r : Register W T) : Register W T := { r with ghosts := [] }

theorem laid_call (r : Register W T) (c : ListenerCall W T) :
    (r.call c).laid = if c.reads then r.laid else r.laid.call c := by
  cases c with
  | getListener key =>
    simp only [call, ListenerCall.reads, if_true]
    split <;> rfl
  | _ => rfl

theorem laid_after (n : ListenerId) (calls : List (ListenerCall W T)) :
    (after n calls).laid = after n (calls.filter fun c => !c.reads) := by
  induction calls using List.reverseRecOn with
  | nil => rfl
  | append_singleton calls c ih =>
    have hstep : after n (calls ++ [c]) = (after n calls).call c := by
      rw [after, List.foldl_append]
      rfl
    rw [hstep, laid_call, ih, List.filter_append]
    cases hc : c.reads with
    | true => simp [hc]
    | false => simp [hc, after]

end Register

namespace ListenedVar
variable {W T : Type}

/-- A call of `SetValue` tells the registered listeners and calls nothing else, and stores the
value unless one of them throws. -/
structure Undisturbed [BEq T] (s : ListenedVar W T)
    (live : List (ListenerId × OnChangeCallback W T)) (val : T) (w : W) : Prop where
  announcement : (s.setValue val w).2 =
    if s.mVal == val then .none w else Register.announce s.mVal val live w
  stored : (s.setValue val w).1.mVal =
    if s.mVal == val ∨ (Register.announce s.mVal val live w).thrown.isSome then s.mVal else val

theorem cons_inj {t : Told T} {a b : Announcement W T} (h : a.cons t = b.cons t) : a = b := by
  obtain ⟨told, thrown, world⟩ := a
  obtain ⟨told', thrown', world'⟩ := b
  simp only [Announcement.cons, Announcement.mk.injEq, List.cons.injEq, true_and] at h
  obtain ⟨rfl, rfl, rfl⟩ := h
  rfl

/-- The loop over a map tells its functions just when it meets no empty entry before a listener
throws. -/
theorem notify_eq_announce {es : List (ListenerId × Option (OnChangeCallback W T))}
    (hs : es.Pairwise fun a b => a.1 < b.1) (oldValue newValue : T) (w : W) :
    notify oldValue newValue es w = Register.announce oldValue newValue (functions es) w ↔
      ∀ k, (k, none) ∈ es → ∃ t ∈ (Register.announce oldValue newValue (functions es) w).told,
        t.completed = false ∧ t.key < k := by
  induction es generalizing w with
  | nil => exact iff_of_true rfl fun k hk => by cases hk
  | cons e es ih =>
    have ⟨he, hes⟩ := List.pairwise_cons.1 hs
    obtain ⟨key, _ | cb⟩ := e
    · have hfun : functions ((key, none) :: es) = functions es := rfl
      rw [hfun]
      apply iff_of_false
      · intro heq
        have hthrown : (Register.announce oldValue newValue (functions es) w).thrown ≠ none := by
          rw [← heq]
          exact Option.some_ne_none _
        apply Register.announce_told_ne_nil hthrown
        rw [← heq]
        rfl
      · -- the functions that are told stand behind the empty entry
        intro hreach
        obtain ⟨t, ht, -, hlt⟩ := hreach key List.mem_cons_self
        obtain ⟨e, hmem, hkey⟩ := Register.announce_key ht
        have hbehind := he _ (mem_functions.1 hmem)
        exact lt_asymm hlt (hkey ▸ hbehind)
    · have hfun : functions ((key, some cb) :: es) = (key, cb) :: functions es := rfl
      have hmem (k : ListenerId) : (k, none) ∈ (key, some cb) :: es ↔ (k, none) ∈ es := by
        simp [List.mem_cons]
      simp only [hfun, notify, Register.announce, hmem]
      split
      · apply iff_of_true rfl
        intro k hk
        exact ⟨_, List.mem_singleton_self _, rfl, he _ hk⟩
      · rename_i w' _
        have hcons (a b : Announcement W T) (t : Told T) : a.cons t = b.cons t ↔ a = b :=
          ⟨cons_inj, fun h => h ▸ rfl⟩
        rw [hcons, ih hes w']
        apply forall₂_congr
        intro k _
        constructor
        · rintro ⟨t, ht, hthrown⟩
          exact ⟨t, List.mem_cons_of_mem _ ht, hthrown⟩
        · rintro ⟨t, ht, hfailed, hlt⟩
          rcases List.mem_cons.1 ht with rfl | ht
          · cases hfailed
          · exact ⟨t, ht, hfailed, hlt⟩

theorem getListener_eq_some {s : ListenedVar W T} {key : ListenerId} {cb : OnChangeCallback W T} :
    (s.getListener key).2 = some cb ↔ (key, cb) ∈ functions s.mCbs.elems := by
  simp only [getListener, Option.bind_eq_some_iff, OrdSet.find?_eq_some, mem_functions,
    OrdSet.mem_insert]
  constructor
  · rintro ⟨⟨key', f⟩, ⟨hmem, rfl⟩, rfl⟩
    rcases hmem with hmem | ⟨heq, -⟩
    · exact hmem
    · cases heq
  · intro hmem
    exact ⟨_, ⟨.inl hmem, rfl⟩, rfl⟩

/-- What two variables with the same listeners answer is the same. -/
theorem getListener_congr {s s' : ListenedVar W T}
    (h : functions s.mCbs.elems = functions s'.mCbs.elems) (key : ListenerId) :
    (s.getListener key).2 = (s'.getListener key).2 := by
  apply Option.ext
  intro cb
  rw [getListener_eq_some, getListener_eq_some, h]

theorem undisturbed_iff [BEq T] {s : ListenedVar W T} {r : Register W T} (h : Matches s r) (val : T) (w : W) :
    s.Undisturbed r.live val w ↔ (s.mVal == val) = true ∨ r.Unreached s.mVal val w := by
  have hnotify : notify s.mVal val s.mCbs.elems w = Register.announce s.mVal val r.live w ↔
      r.Unreached s.mVal val w := by
    rw [← h.live, notify_eq_announce s.mCbs.sorted, h.live]
    exact forall_congr' fun k => by rw [h.ghosts]
  by_cases heq : (s.mVal == val) = true
  · apply iff_of_true
    · constructor <;> simp [setValue, heq]
    · exact .inl heq
  · rw [or_iff_right heq, ← hnotify]
    constructor
    · intro hu
      have hann := hu.announcement
      rw [setValue, if_neg heq, if_neg heq] at hann
      exact hann
    · intro hann
      constructor
      · rw [setValue, if_neg heq, if_neg heq]
        exact hann
      · simp only [setValue, if_neg heq, ← hann]
        split
        · rename_i hthrown
          exact (if_pos (.inr hthrown)).symm
        · rename_i hthrown
          exact (if_neg (not_or_intro heq hthrown)).symm

/-- After any calls on the listeners, `SetValue` tells the registered ones and nobody else just
when it changes nothing or meets no ghost; just then it does what it does without the calls of
`GetListener`, whose answers and whose effect on the ids of new listeners never show. -/
theorem listeners_told_iff [BEq T] (defaultVal : T) (n : ListenerId)
    (calls : List (ListenerCall W T)) (val : T) (w : W) :
    let s := after defaultVal n calls
    let s' := after defaultVal n (calls.filter fun c => !c.reads)
    let r := Register.after n calls
    (s.Undisturbed r.live val w ↔ (defaultVal == val) = true ∨ r.Unreached defaultVal val w) ∧
    (s.Undisturbed r.live val w ↔ (s.setValue val w).2 = (s'.setValue val w).2 ∧
      (s.setValue val w).1.mVal = (s'.setValue val w).1.mVal) ∧
    s.sFuncId = s'.sFuncId ∧ (∀ key, (s.getListener key).2 = (s'.getListener key).2) ∧
    ((∀ e ∈ r.live, ∀ w, (e.2 defaultVal val w).1 = none) →
      (Register.announce defaultVal val r.live w).told =
        r.live.map (fun e => ⟨e.1, defaultVal, val, true⟩) ∧
      (Register.announce defaultVal val r.live w).thrown = none ∧
      (r.Unreached defaultVal val w ↔ r.ghosts = [])) := by
  intro s s' r
  have hs : Matches s r := after_matches defaultVal n calls
  have hs' : Matches s' r.laid := by
    rw [Register.laid_after]
    exact after_matches defaultVal n _
  have hval : s.mVal = defaultVal := after_mVal defaultVal n calls
  have hval' : s'.mVal = defaultVal := after_mVal defaultVal n _
  have hlaid : s'.Undisturbed r.live val w :=
    (undisturbed_iff hs' val w).2 (.inr fun k hk => by cases hk)
  have hiff := undisturbed_iff hs val w
  rw [hval] at hiff
  constructor
  · exact hiff
  constructor
  · constructor
    · intro hu
      rw [hu.announcement, hlaid.announcement, hu.stored, hlaid.stored, hval, hval']
      exact ⟨rfl, rfl⟩
    · rintro ⟨hann, hstored⟩
      constructor
      · rw [hann, hlaid.announcement, hval, hval']
      · rw [hstored, hlaid.stored, hval, hval']
  constructor
  · exact hs.last.trans hs'.last.symm
  constructor
  · exact getListener_congr (hs.live.trans hs'.live.symm)
  · intro hquiet
    obtain ⟨htold, hthrown⟩ := Register.announce_quiet hquiet w
    constructor
    · exact htold
    constructor
    · exact hthrown
    · constructor
      · intro hreach
        apply List.eq_nil_iff_forall_not_mem.2
        intro k hk
        obtain ⟨t, ht, hfailed, -⟩ := hreach k hk
        rw [htold] at ht
        obtain ⟨e, -, rfl⟩ := List.mem_map.1 ht
        cases hfailed
      · intro hnil k hk
        rw [hnil] at hk
        cases hk

/-- Somebody asks for a listener that is registered. -/
theorem listeners_told_registered :
    let calls : List (ListenerCall Nat Nat) :=
      [.addListener fun _ val _ => (none, val), .getListener 1,
        .addListener fun _ _ w => (none, w + 1)]
    ((after 0 0 calls).setValue 5 0).2 = ⟨[⟨1, 0, 5, true⟩, ⟨2, 0, 5, true⟩], none, 6⟩ := by
  intro calls
  have hghosts : (Register.after 0 calls).ghosts = [] := rfl
  have hundisturbed := (listeners_told_iff 0 0 calls 5 0).1.2 (.inr fun k hk => by
    rw [hghosts] at hk
    cases hk)
  rw [hundisturbed.announcement]
  decide

/-- Somebody asks for a listener that is not registered. -/
theorem getListener_disturbs :
    let calls : List (ListenerCall Nat Nat) :=
      [.addListener fun _ val _ => (none, val), .getListener 7]
    ¬ (after 0 0 calls).Undisturbed (Register.after 0 calls).live 5 0 ∧
      ((after 0 0 calls).setValue 5 0).1.mVal = 0 := by
  constructor
  · intro h
    have hthrown := congrArg Announcement.thrown h.announcement
    exact absurd hthrown (by decide)
  · decide

end ListenedVar

end Config
end SvrFrame
