import SvrFrame.Log.Setup

namespace SvrFrame
open Library
set_option autoImplicit true

/-! ### The files that an update opens -/

/-- A file appender truncates its file. -/
def LogAppenderDefine.files (a : LogAppenderDefine) : List String :=
  if a.type = 1 then [a.file] else []

def LogDefine.files (i : LogDefine) : List String := i.appenders.flatMap LogAppenderDefine.files

namespace LogIniter

end LogIniter

/-- At most the files of the list have been truncated, and all of them if they could be opened. -/
structure Output.Wiped (opens : Prop) (files : List String) (out out' : Output) : Prop where
  kept : ∀ f, out'.files f = out.files f ∨ (f ∈ files ∧ out'.files f = "")
  emptied : opens → ∀ f ∈ files, out'.files f = ""

namespace Output.Wiped
variable {out out' out'' : Output}

theorem refl (opens : Prop) (out : Output) : Wiped opens [] out out :=
  ⟨fun _ => .inl rfl, fun _ _ hf => by cases hf⟩

theorem trans (h : Wiped opens fs out out') (h' : Wiped opens fs' out' out'') :
    Wiped opens (fs ++ fs') out out'' := by
  constructor
  · intro f
    rcases h'.kept f with heq | ⟨hf, hempty⟩
    · rw [heq]
      rcases h.kept f with hsame | ⟨hf, hempty⟩
      · exact .inl hsame
      · exact .inr ⟨List.mem_append_left _ hf, hempty⟩
    · exact .inr ⟨List.mem_append_right _ hf, hempty⟩
  · intro hopens f hf
    rcases h'.kept f with heq | ⟨-, hempty⟩
    · rcases List.mem_append.1 hf with hf | hf
      · rw [heq]
        exact h.emptied hopens f hf
      · exact h'.emptied hopens f hf
    · exact hempty

end Output.Wiped

namespace LoggerMgr
variable {s s' s'' : LoggerMgr}

/-- An edit of logger `l` that touches no appender of another logger. -/
structure Confined (l : LoggerId) (s s' : LoggerMgr) : Prop where
  edits : ∃ v, Edits l v s s'
  appenders : ∀ a < s.nextAppender, a ∉ (s.loggers l).mAppenderList →
    s'.appenders a = s.appenders a

namespace Confined

theorem refl (hs : Separate s) (l : LoggerId) : Confined l s s := ⟨⟨_, hs.refl l⟩, fun _ _ _ => rfl⟩

theorem trans (h : Confined l s s') (h' : Confined l s' s'') : Confined l s s'' := by
  obtain ⟨v, hedits⟩ := h.edits
  obtain ⟨v', hedits'⟩ := h'.edits
  refine ⟨⟨v', hedits.trans hedits'⟩, fun a ha hlist => ?_⟩
  rw [h'.appenders a (Nat.lt_of_lt_of_le ha hedits.grows), h.appenders a ha hlist]
  intro hmem
  rcases hedits.list a hmem with hold | hnew
  · exact hlist hold
  · exact absurd ha (Nat.not_lt.2 hnew)

theorem separate (h : Confined l s s') : Separate s' := by
  obtain ⟨v, hedits⟩ := h.edits
  exact hedits.separate

end Confined

/-- The loggers of the other names are still the same, and so are their appenders. -/
structure Spares (names : String → Prop) (s s' : LoggerMgr) : Prop where
  separate : Separate s'
  alone : ∀ name, ¬ names name → ∀ l, s.findLogger name = some l →
    s'.findLogger name = some l ∧ s'.loggers l = s.loggers l ∧
      ∀ a ∈ (s.loggers l).mAppenderList, s'.appenders a = s.appenders a

namespace Spares
variable {names : String → Prop}

theorem refl (hs : Separate s) : Spares names s s := ⟨hs, fun _ _ _ hl => ⟨hl, rfl, fun _ _ => rfl⟩⟩

theorem trans (h : Spares names s s') (h' : Spares names s' s'') : Spares names s s'' := by
  refine ⟨h'.separate, fun name hname l hl => ?_⟩
  obtain ⟨hfind, hlogger, happ⟩ := h.alone name hname l hl
  obtain ⟨hfind', hlogger', happ'⟩ := h'.alone name hname l hfind
  refine ⟨hfind', hlogger'.trans hlogger, fun a ha => ?_⟩
  rw [happ' a (by rw [hlogger]; exact ha), happ a ha]

/-- Looking for a logger and editing it leaves the others alone. -/
theorem of_getLogger (hs : Separate s) (hname : names name)
    (h : Confined (s.getLogger name).2 (s.getLogger name).1 s') : Spares names s s' := by
  obtain ⟨hs₁, hfind, -⟩ := getLogger_spec hs name
  obtain ⟨v, hedits⟩ := h.edits
  refine ⟨h.separate, fun name' hname' l hl => ?_⟩
  have hne : name' ≠ name := fun heq => hname' (heq ▸ hname)
  -- `GetLogger` itself
  have hgot : (s.getLogger name).1.findLogger name' = some l ∧
      (s.getLogger name).1.loggers l = s.loggers l ∧
      (s.getLogger name).1.appenders = s.appenders := by
    simp only [getLogger]
    split
    · exact ⟨hl, rfl, rfl⟩
    · rename_i hnone
      refine ⟨?_, ?_, rfl⟩
      · rw [findLogger_newLogger hnone, if_neg hne, hl]
      · have hlt := findLogger_lt hs.registered hl
        rw [newLogger_loggers, Function.update_of_ne (Nat.ne_of_lt hlt)]
  obtain ⟨hl₁, hlogger, happ⟩ := hgot
  have hother : l ≠ (s.getLogger name).2 := fun heq =>
    hne (findLogger_inj hs₁.registered hl₁ (heq ▸ hfind))
  refine ⟨?_, (hedits.loggers l hother).trans hlogger, fun a ha => ?_⟩
  · rw [findLogger, hedits.map]
    exact hl₁
  · rw [← hlogger] at ha
    rw [h.appenders a (hs₁.known l a ha) fun ha' => hother (hs₁.apart l _ a ha ha'), happ]

end Spares
end LoggerMgr

/-! ### What the listener leaves alone -/

namespace LogIniter
open LoggerMgr
variable {s s' : LoggerMgr} (birth : AppenderId → FileBirth)

end LogIniter

/-! ### Updates of a running system -/

namespace LogConfig

end LogConfig
end SvrFrame
