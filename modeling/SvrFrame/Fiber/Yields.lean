import SvrFrame.Fiber.Rounds

namespace SvrFrame
open Library
set_option autoImplicit true

variable {σ : Type}

namespace Drive

variable {d e : Drive σ} {f : FiberId}

/-- Of fiber `f` the thread's own fiber only calls `SwapIn`, until it has ended. -/
def DrivenBy (f : FiberId) (d : Drive σ) : Act σ → Prop
  | .reset g _ => g ≠ f
  | .swapIn g => g = f → (d.stateOf f).finished = false
  | .create _ _ | .own _ => True

/-- What `GetState` should report after a yield. -/
def Reported (st : FiberState) : Stop σ → Prop
  | .ready _ => st = .ready
  | .hold _ => st = .hold
  | .returned | .threw => True

/-- A fiber that has not ended can go on. -/
structure Live (d : Drive σ) (f : FiberId) : Prop where
  atMain : d.thread.AtMain
  born : f < d.thread.nextFiber
  resumes : (d.stateOf f).finished = false → Resumes d f

theorem Live.ne (hd : Live d f) : f ≠ d.thread.tThreadFiber := by
  rintro rfl
  have hexec : d.stateOf d.thread.tThreadFiber = .exec := hd.atMain.exec
  exact (hd.resumes (by rw [hexec]; rfl)).resumable.state hexec

/-- Unless the fiber has called `YieldToHold`, it can go on after a round or has ended. -/
theorem Live.swapIn (hd : Live d f) (hf : (d.stateOf f).finished = false)
    (hhold : ∀ c, (d.leg f).stop ≠ .hold c) (h : d.step (.swapIn f) = some e) : Live e f := by
  have hatMain := step_atMain hd.atMain h
  have hresumes := hd.resumes hf
  obtain ⟨⟨l, e'⟩, hround, rfl⟩ := Option.map_eq_some_iff.1 h
  rw [hresumes.round hd.atMain] at hround
  cases hround
  refine ⟨hatMain, hd.born, ?_⟩
  intro hf'
  rw [afterLeg_stateOf] at hf'
  cases hstop : (d.leg f).stop with
  | ready c => exact (hresumes.ready hd.atMain hstop).1
  | hold c => exact absurd hstop (hhold c)
  | returned | threw =>
    rw [hstop] at hf'
    cases hf'

theorem Live.step {a : Act σ} (hd : Live d f) (hg : DrivenBy f d a)
    (hhold : (d.stateOf f).finished = false → ∀ c, (d.leg f).stop ≠ .hold c)
    (h : d.step a = some e) : Live e f := by
  by_cases hswap : a = .swapIn f
  · subst hswap
    exact hd.swapIn (hg rfl) (hhold (hg rfl)) h
  · have hreset : ∀ cb, a ≠ .reset f cb := by
      rintro cb rfl
      exact hg rfl
    obtain ⟨hsame, hborn, -⟩ := step_frame hd.atMain hd.born hd.ne hreset hswap h
    refine ⟨step_atMain hd.atMain h, hborn, ?_⟩
    intro hf
    rw [stateOf, hsame] at hf
    obtain ⟨⟨-, hstate, hlive⟩, hcall⟩ := hd.resumes hf
    rw [← hsame] at hstate hlive hcall
    exact ⟨⟨hborn, hstate, hlive⟩, hcall⟩

/-- What `GetState` reports after a round; `YieldToHold` leaves the state at EXEC. -/
theorem Live.reported_iff (hd : Live d f) (hf : (d.stateOf f).finished = false) :
    (∃ l e, d.round f = some (l, e) ∧ Reported (e.stateOf f) l.stop) ↔
      ∀ c, (d.leg f).stop ≠ .hold c := by
  rw [(hd.resumes hf).round hd.atMain]
  constructor
  · rintro ⟨l, e, hround, hreported⟩ c hstop
    cases hround
    rw [afterLeg_stateOf, hstop] at hreported
    cases hreported
  · intro hhold
    refine ⟨_, _, rfl, ?_⟩
    rw [afterLeg_stateOf]
    cases hstop : (d.leg f).stop with
    | hold c => exact absurd hstop (hhold c)
    | ready | returned | threw => trivial

theorem Live.reach (hd : Live d f)
    (hhold : ∀ e, Reach Drive.step (DrivenBy f) d e → Live e f → (e.stateOf f).finished = false →
      ∀ c, (e.leg f).stop ≠ .hold c)
    (h : Reach Drive.step (DrivenBy f) d e) : Live e f := by
  induction h with
  | refl => exact hd
  | tail hr hg ht ih => exact ih.step hg (hhold _ hr ih) ht

/-- The context stands at the beginning of `MainFunc`. -/
structure Unstarted (d : Drive σ) (f : FiberId) : Prop where
  live : (d.thread.fibers f).ended = false
  start : (d.thread.fibers f).mContex.point = 0

theorem step_unstarted {a : Act σ} (hd : d.thread.AtMain)
    (hs : ∀ f < d.thread.nextFiber, d.stateOf f = .init → Unstarted d f) (h : d.step a = some e)
    (hf : f < e.thread.nextFiber) (hinit : e.stateOf f = .init) : Unstarted e f := by
  have hframe (hlt : f < d.thread.nextFiber) (hmain : f ≠ d.thread.tThreadFiber)
      (hreset : ∀ cb, a ≠ .reset f cb) (hswap : a ≠ .swapIn f) : Unstarted e f := by
    obtain ⟨hsame, -⟩ := step_frame hd hlt hmain hreset hswap h
    rw [stateOf, hsame] at hinit
    obtain ⟨hlive, hstart⟩ := hs f hlt hinit
    rw [← hsame] at hlive hstart
    exact ⟨hlive, hstart⟩
  have hmain : f ≠ e.thread.tThreadFiber := by
    rintro rfl
    rw [stateOf, (step_atMain hd h).exec] at hinit
    cases hinit
  cases a with
  | create useCaller c =>
    obtain ⟨t, ht, rfl⟩ := Option.map_eq_some_iff.1 h
    rw [hd.step_create] at ht
    cases ht
    rcases Nat.lt_succ_iff_lt_or_eq.1 hf with hlt | rfl
    · exact hframe hlt hmain (fun _ h => by cases h) (fun h => by cases h)
    · constructor
      all_goals simp [FiberThread.setFiber, FiberThread.callbackFiber]
  | reset g cb =>
    obtain ⟨t, ht, rfl⟩ := Option.map_eq_some_iff.1 h
    obtain ⟨rfl, -, -⟩ := FiberThread.reset_eq_some ht
    by_cases hfg : f = g
    · subst hfg
      cases cb
      all_goals constructor
      all_goals simp [FiberThread.setFiber]
    · have hreset (cb' : Option (Code σ)) : Act.reset g cb ≠ .reset f cb' := by
        intro h
        cases h
        exact hfg rfl
      cases cb <;> exact hframe hf hmain hreset (fun h => by cases h)
  | swapIn g =>
    obtain ⟨⟨l, e'⟩, hround, rfl⟩ := Option.map_eq_some_iff.1 h
    obtain ⟨hres, hcb⟩ := round_some hd hround
    rw [round_eq hd hres hcb] at hround
    cases hround
    by_cases hfg : f = g
    · subst hfg
      rw [afterLeg_stateOf] at hinit
      cases hstop : (d.leg f).stop <;> rw [hstop] at hinit <;> cases hinit
    · exact hframe hf hmain (fun _ h => by cases h) (fun h => by cases h; exact hfg rfl)
  | own g =>
    cases h
    exact hframe hf hmain (fun _ h => by cases h) (fun h => by cases h)

/-- A fiber in INIT, whether it is new or has been reset. -/
theorem reach_live {w : σ} (h : Reach Drive.step (fun _ _ => True) (initial w) d)
    (hf : f < d.thread.nextFiber) (hinit : d.stateOf f = .init) : Live d f := by
  have hatMain := reach_atMain h
  have hunstarted : Unstarted d f := by
    refine (h.invariant (I := fun d => d.thread.AtMain ∧
      ∀ f < d.thread.nextFiber, d.stateOf f = .init → Unstarted d f)
      ⟨initial_atMain w, fun _ _ h => by cases h⟩ ?_).2 f hf hinit
    intro t a u hs _ ht
    exact ⟨step_atMain hs.1 ht, fun f hf hinit => step_unstarted hs.1 hs.2 ht hf hinit⟩
  refine ⟨hatMain, hf, fun _ => ⟨⟨hf, ?_, hunstarted.live⟩, fun _ => hunstarted.start⟩⟩
  rw [← stateOf, hinit]
  exact fun h => by cases h

/-- What the fiber has left to do is free of `YieldToHold`. -/
structure HoldFree (d : Drive σ) (f : FiberId) : Prop where
  live : Live d f
  code : (d.stateOf f).finished = false → (d.codeAt (d.thread.fibers f).mContex).HoldFree

theorem HoldFree.step {a : Act σ} (hd : HoldFree d f) (hg : DrivenBy f d a)
    (h : d.step a = some e) : HoldFree e f := by
  have hstops (hf : (d.stateOf f).finished = false) := (hd.code hf).run d.world
  have hlive : Live e f := hd.live.step hg (fun hf => (hstops hf).1) h
  refine ⟨hlive, ?_⟩
  intro hf'
  by_cases hswap : a = .swapIn f
  · subst hswap
    have hf := hg rfl
    have hresumes := hd.live.resumes hf
    obtain ⟨⟨l, e'⟩, hround, rfl⟩ := Option.map_eq_some_iff.1 h
    rw [hresumes.round hd.live.atMain] at hround
    cases hround
    rw [afterLeg_stateOf] at hf'
    cases hstop : (d.leg f).stop with
    | ready c =>
      rw [(hresumes.ready hd.live.atMain hstop).2]
      exact (hstops hf).2 c hstop
    | hold c => exact absurd hstop ((hstops hf).1 c)
    | returned | threw =>
      rw [hstop] at hf'
      cases hf'
  · have hreset : ∀ cb, a ≠ .reset f cb := by
      rintro cb rfl
      exact hg rfl
    obtain ⟨hsame, hborn, hcallback, hrest⟩ :=
      step_frame hd.live.atMain hd.live.born hd.live.ne hreset hswap h
    rw [stateOf, hsame] at hf'
    have hown := hd.live.atMain.own f hd.live.born hd.live.ne
    have hcode := hd.code hf'
    simp only [codeAt, hsame, hown, hcallback, hrest] at hcode ⊢
    exact hcode

/-- A callback without `YieldToHold` never keeps its fiber from being resumed. -/
theorem Live.never_holds (hd : Live d f)
    (hcode : (d.codeAt (d.thread.fibers f).mContex).HoldFree)
    (he : Reach Drive.step (DrivenBy f) d e) (hf : (e.stateOf f).finished = false) :
    ∀ c, (e.leg f).stop ≠ .hold c := by
  have hfree : HoldFree e f := he.invariant (I := fun e => HoldFree e f) ⟨hd, fun _ => hcode⟩
    fun hs hg ht => hs.step hg ht
  exact ((hfree.code hf).run e.world).1

/-- A fiber that its thread's own fiber resumes until it has ended, doing whatever else in between,
passes every `SwapIn` and reports every yield if and only if it never calls `YieldToHold`. -/
theorem yielded_fiber_resumes_iff {w : σ}
    (h : Reach step (fun _ _ => True) (initial w) d) (hf : f < d.thread.nextFiber)
    (hinit : d.stateOf f = .init) :
    (∀ e, Reach step (DrivenBy f) d e → (e.stateOf f).finished = false →
      ∃ l e', e.round f = some (l, e') ∧ Reported (e'.stateOf f) l.stop) ↔
    ∀ e, Reach step (DrivenBy f) d e → (e.stateOf f).finished = false →
      ∀ c, (e.leg f).stop ≠ .hold c := by
  have hlive := reach_live h hf hinit
  constructor
  · intro hall e he hf
    have hlive' := hlive.reach (fun e he hlive hf => (hlive.reported_iff hf).1 (hall e he hf)) he
    exact (hlive'.reported_iff hf).1 (hall e he hf)
  · intro hnever e he hf
    have hlive' := hlive.reach (fun e he _ hf => hnever e he hf) he
    exact (hlive'.reported_iff hf).2 (hnever e he hf)

/-- A callback that yields twice and returns. -/
theorem yielded_fiber_resumes_two_yields : ∃ d : Drive Nat,
    (initial 0).create false (.yieldToReady (.act (· + 1) fun _ => .yieldToReady .ret)) = some d ∧
      ∀ e, Reach step (DrivenBy 1) d e → (e.stateOf 1).finished = false →
        ∃ l e', e.round 1 = some (l, e') ∧ Reported (e'.stateOf 1) l.stop := by
  have hfree : (Code.yieldToReady (.act (· + 1) fun _ => .yieldToReady .ret)).HoldFree :=
    fun _ => trivial
  obtain ⟨d, hd, hborn, hinit, hcode⟩ : ∃ d : Drive Nat,
      (initial 0).create false (.yieldToReady (.act (· + 1) fun _ => .yieldToReady .ret)) =
        some d ∧ 1 < d.thread.nextFiber ∧ d.stateOf 1 = .init ∧
      d.codeAt (d.thread.fibers 1).mContex =
        .yieldToReady (.act (· + 1) fun _ => .yieldToReady .ret) :=
    ⟨_, rfl, by decide, rfl, rfl⟩
  have hreach : Reach step (fun _ _ => True) (initial 0) d :=
    .tail (a := .create false _) .refl trivial hd
  refine ⟨d, hd, (yielded_fiber_resumes_iff hreach hborn hinit).2 ?_⟩
  intro e he hf
  exact (reach_live hreach hborn hinit).never_holds (hcode ▸ hfree) he hf

/-- The callback calls `YieldToHold`: the fiber still reports EXEC, and the next `SwapIn` fails. -/
theorem held_fiber_not_resumed : ∃ (d e : Drive Unit) (l : Leg Unit),
    (initial ()).create false (.yieldToHold .ret) = some d ∧ d.round 1 = some (l, e) ∧
      l.stop = .hold .ret ∧ e.stateOf 1 = .exec ∧ e.round 1 = none :=
  ⟨_, _, _, rfl, rfl, rfl, rfl, rfl⟩

end Drive
end SvrFrame
