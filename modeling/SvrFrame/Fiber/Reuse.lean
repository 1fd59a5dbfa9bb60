import SvrFrame.Fiber.Rounds

namespace SvrFrame
open Library
set_option autoImplicit true

variable {σ : Type}

/-- What the thread's own fiber sees of a fiber that it resumes until it has ended: for each
`SwapIn` the steps made meanwhile and the state afterwards. -/
abbrev Seen (σ : Type) := List (List σ × FiberState)

/-- What there is to see of a callback: the state after a `YieldToHold` does not let the fiber be
resumed. `main` is what the thread's own fiber does after every `SwapIn`. -/
def Code.seen (main : σ → σ) : Nat → Code σ → σ → Option (Seen σ × σ)
  | 0, _, _ => none
  | fuel + 1, c, w =>
    let l := c.run w
    match l.stop with
    | .ready next =>
      (next.seen main fuel (main l.world)).map fun r => ((l.steps, .ready) :: r.1, r.2)
    | .hold _ => none
    | .returned => some ([(l.steps, .term)], main l.world)
    | .threw => some ([(l.steps, .except)], main l.world)

def seenAll (main : σ → σ) (fuel : Nat) : List (Code σ) → σ → Option (List (Seen σ) × σ)
  | [], w => some ([], w)
  | c :: cs, w => (c.seen main fuel w).bind fun r =>
    (seenAll main fuel cs r.2).map fun rs => (r.1 :: rs.1, rs.2)

namespace Drive

/-- Resume the fiber until it has ended; `none` where an assertion fails or the fuel runs out. -/
def loop (main : σ → σ) : Nat → Drive σ → FiberId → Option (Seen σ × Drive σ)
  | 0, _, _ => none
  | fuel + 1, d, f => (d.round f).bind fun r =>
    let e := { r.2 with world := main r.2.world }
    if (e.stateOf f).finished then some ([(r.1.steps, e.stateOf f)], e)
    else (loop main fuel e f).map fun rs => ((r.1.steps, e.stateOf f) :: rs.1, rs.2)

/-- A new fiber for every callback; `useCaller` is what the memory of the fibers held before. -/
def fresh (main : σ → σ) (fuel : Nat) (useCaller : FiberId → Bool) :
    Drive σ → List (Code σ) → Option (List (Seen σ) × σ)
  | d, [] => some ([], d.world)
  | d, c :: cs => (d.create (useCaller d.thread.nextFiber) c).bind fun e =>
    (e.loop main fuel d.thread.nextFiber).bind fun r =>
      (fresh main fuel useCaller r.2 cs).map fun rs => (r.1 :: rs.1, rs.2)

/-- One fiber for the rest of the callbacks. -/
def resetLoop (main : σ → σ) (fuel : Nat) (f : FiberId) :
    Drive σ → List (Code σ) → Option (List (Seen σ) × σ)
  | d, [] => some ([], d.world)
  | d, c :: cs => (d.reset f (some c)).bind fun e =>
    (e.loop main fuel f).bind fun r =>
      (resetLoop main fuel f r.2 cs).map fun rs => (r.1 :: rs.1, rs.2)

/-- One fiber for all the callbacks, made for the first one. -/
def reuse (main : σ → σ) (fuel : Nat) (useCaller : Bool) (d : Drive σ) :
    List (Code σ) → Option (List (Seen σ) × σ)
  | [] => some ([], d.world)
  | c :: cs => (d.create useCaller c).bind fun e =>
    (e.loop main fuel d.thread.nextFiber).bind fun r =>
      (resetLoop main fuel d.thread.nextFiber r.2 cs).map fun rs => (r.1 :: rs.1, rs.2)

variable {d e : Drive σ} {f : FiberId}

/-- What the loop of the thread's own fiber leaves behind: a fiber to be reset. -/
structure Ended (d : Drive σ) (f : FiberId) : Prop where
  atMain : d.thread.AtMain
  born : f < d.thread.nextFiber
  ne : f ≠ d.thread.tThreadFiber
  finished : (d.stateOf f).finished = true

theorem loop_held (main : σ → σ) (fuel : Nat) (hd : d.thread.AtMain) (hf : d.stateOf f = .exec) :
    d.loop main fuel f = none := by
  cases fuel with
  | zero => rfl
  | succ fuel =>
    have hround : d.round f = none := by
      rw [Option.eq_none_iff_forall_not_mem]
      rintro ⟨l, e⟩ h
      exact (round_some hd h).1.state hf
    rw [loop, hround]
    rfl

/-- Resuming a fiber until it has ended shows what its callback has to show. -/
theorem loop_seen (main : σ → σ) (fuel : Nat) (hd : d.thread.AtMain) (hf : Resumes d f)
    (hc : d.codeAt (d.thread.fibers f).mContex = c) :
    (d.loop main fuel f).map (fun r => (r.1, r.2.world)) = c.seen main fuel d.world ∧
      ∀ r e, d.loop main fuel f = some (r, e) → Ended e f := by
  induction fuel generalizing d c with
  | zero => exact ⟨rfl, fun _ _ h => by cases h⟩
  | succ fuel ih =>
    have hround := hf.round hd
    have hatMain : (d.afterLeg f).thread.AtMain :=
      step_atMain (a := .swapIn f) hd (by rw [step, hround]; rfl)
    have hleg : d.leg f = c.run d.world := by rw [leg, hc]
    have hstate := afterLeg_stateOf d f
    rw [hleg] at hstate
    obtain ⟨e, he⟩ : ∃ e, e = { d.afterLeg f with world := main (d.afterLeg f).world } := ⟨_, rfl⟩
    have hthread : e.thread = (d.afterLeg f).thread := by rw [he]
    have hworld : e.world = main (c.run d.world).world := by
      rw [he, ← hleg]
      rfl
    have hended (hfinished : (e.stateOf f).finished = true) : Ended e f :=
      ⟨hthread ▸ hatMain, hthread ▸ hf.resumable.born, hthread ▸ hd.ne hf.resumable, hfinished⟩
    have hloop : d.loop main (fuel + 1) f =
        if (e.stateOf f).finished then some ([((c.run d.world).steps, e.stateOf f)], e)
        else (loop main fuel e f).map fun rs =>
          (((c.run d.world).steps, e.stateOf f) :: rs.1, rs.2) := by
      rw [loop, hround, he, ← hleg]
      rfl
    rw [stateOf, ← hthread] at hstate
    rw [hloop, Code.seen, ← hworld]
    cases hstop : (c.run d.world).stop with
    | ready next =>
      have hready : e.stateOf f = .ready := by rw [stateOf, hstate, hstop]; rfl
      obtain ⟨hresumes, hcode⟩ := hf.ready hd (hleg ▸ hstop)
      obtain ⟨hseen, hends⟩ := ih (d := e) (c := next) (hthread ▸ hatMain)
        (by rw [he]; exact ⟨hresumes.resumable, hresumes.callable⟩) (by rw [he]; exact hcode)
      rw [hready, if_neg (by decide)]
      simp only
      constructor
      · rw [← hseen, Option.map_map, Option.map_map]
        rfl
      · intro r e' h
        obtain ⟨rs, hrs, heq⟩ := Option.map_eq_some_iff.1 h
        cases heq
        exact hends _ _ hrs
    | hold next =>
      have hexec : e.stateOf f = .exec := by rw [stateOf, hstate, hstop]; rfl
      have hnone := loop_held main fuel (hthread ▸ hatMain) hexec
      rw [hexec, hnone]
      exact ⟨rfl, fun _ _ h => by cases h⟩
    | returned =>
      have hterm : e.stateOf f = .term := by rw [stateOf, hstate, hstop]; rfl
      rw [hterm, if_pos (by decide)]
      exact ⟨rfl, fun _ _ h => by cases h; exact hended (by rw [hterm]; rfl)⟩
    | threw =>
      have hexcept : e.stateOf f = .except := by rw [stateOf, hstate, hstop]; rfl
      rw [hexcept, if_pos (by decide)]
      exact ⟨rfl, fun _ _ h => by cases h; exact hended (by rw [hexcept]; rfl)⟩

/-- A fiber that has ended can be reset, and is then like a new one. -/
theorem Ended.reset (hd : Ended d f) (c : Code σ) :
    ∃ e, d.reset f (some c) = some e ∧ e.thread.AtMain ∧ Resumes e f ∧
      e.codeAt (e.thread.fibers f).mContex = c ∧ e.world = d.world := by
  have hstate : (d.thread.fibers f).mState = .term ∨ (d.thread.fibers f).mState = .except ∨
      (d.thread.fibers f).mState = .init := by
    have hfinished := hd.finished
    rw [stateOf] at hfinished
    revert hfinished
    cases (d.thread.fibers f).mState <;> simp [FiberState.finished]
  obtain ⟨t, ht⟩ : ∃ t, d.thread.reset f true = some t :=
    ⟨_, if_pos ⟨hd.born, hd.ne, hstate⟩⟩
  obtain ⟨heq, -⟩ := FiberThread.reset_eq_some ht
  have hfiber : t.fibers f = ⟨.init, ⟨f, 0⟩, true, false, false⟩ := by
    rw [heq]
    exact Function.update_self _ _ _
  have hborn : f < t.nextFiber := by
    rw [heq]
    exact hd.born
  refine ⟨{ d with thread := t, callback := Function.update d.callback f c }, ?_,
    hd.atMain.reset ht, ⟨⟨hborn, ?_, ?_⟩, ?_⟩, ?_, rfl⟩
  · rw [Drive.reset, Option.isSome_some, ht]
    rfl
  · rw [hfiber]
    exact fun h => by cases h
  · rw [hfiber]
  · rw [hfiber]
    exact fun _ => rfl
  · simp [codeAt, hfiber]

/-- The loop for one callback, and then the rest of the callbacks. -/
theorem loop_then {main : σ → σ} {fuel : Nat} (hd : d.thread.AtMain) (hf : Resumes d f)
    (hc : d.codeAt (d.thread.fibers f).mContex = c)
    {rest : Drive σ → Option (List (Seen σ) × σ)} {cs : List (Code σ)}
    (hrest : ∀ e, Ended e f → rest e = seenAll main fuel cs e.world) :
    ((d.loop main fuel f).bind fun r => (rest r.2).map fun rs => (r.1 :: rs.1, rs.2)) =
      seenAll main fuel (c :: cs) d.world := by
  obtain ⟨hseen, hends⟩ := loop_seen main fuel hd hf hc
  rw [seenAll, ← hseen]
  cases hloop : d.loop main fuel f with
  | none => rfl
  | some r =>
    simp only [Option.bind_some, Option.map_some]
    rw [hrest r.2 (hends r.1 r.2 hloop)]

theorem resetLoop_seen (main : σ → σ) (fuel : Nat) (cs : List (Code σ)) (hd : Ended d f) :
    d.resetLoop main fuel f cs = seenAll main fuel cs d.world := by
  induction cs generalizing d with
  | nil => rfl
  | cons c cs ih =>
    obtain ⟨e, he, hatMain, hresumes, hcode, hworld⟩ := hd.reset c
    rw [resetLoop, he, ← hworld]
    exact loop_then hatMain hresumes hcode fun _ h => ih h

theorem reuse_seen (main : σ → σ) (fuel : Nat) (useCaller : Bool) (cs : List (Code σ))
    (hd : d.thread.AtMain) : d.reuse main fuel useCaller cs = seenAll main fuel cs d.world := by
  cases cs with
  | nil => rfl
  | cons c cs =>
    obtain ⟨e, he, hresumes, hcode, hworld⟩ := create_resumes hd useCaller c
    have hatMain : e.thread.AtMain := step_atMain (a := .create useCaller c) hd he
    rw [reuse, he, ← hworld]
    exact loop_then hatMain hresumes hcode fun _ h => resetLoop_seen main fuel cs h

theorem fresh_seen (main : σ → σ) (fuel : Nat) (useCaller : FiberId → Bool) (cs : List (Code σ))
    (hd : d.thread.AtMain) : d.fresh main fuel useCaller cs = seenAll main fuel cs d.world := by
  induction cs generalizing d with
  | nil => rfl
  | cons c cs ih =>
    obtain ⟨e, he, hresumes, hcode, hworld⟩ :=
      create_resumes hd (useCaller d.thread.nextFiber) c
    have hatMain : e.thread.AtMain := step_atMain (a := .create _ c) hd he
    rw [fresh, he, ← hworld]
    exact loop_then hatMain hresumes hcode fun _ h => ih h.atMain

end Drive

/-- One more step belongs to what is seen first. -/
def Seen.step (w : σ) : Seen σ → Seen σ
  | [] => []
  | (steps, st) :: rest => (w :: steps, st) :: rest

theorem Code.seen_act (main : σ → σ) (fuel : Nat) (g : σ → σ) (next : σ → Code σ) (w : σ) :
    (Code.act g next).seen main fuel w =
      ((next w).seen main fuel (g w)).map fun r => (Seen.step (g w) r.1, r.2) := by
  cases fuel with
  | zero => rfl
  | succ fuel =>
    simp only [Code.seen, Code.run]
    cases ((next w).run (g w)).stop with
    | ready c =>
      simp only [Option.map_map]
      rfl
    | hold | returned | threw => rfl

/-- A callback that yields with `YieldToReady` only is resumed to its end. -/
theorem Code.HoldFree.seen {c : Code σ} (hc : c.HoldFree) (main : σ → σ) (w : σ) :
    ∃ n r, ∀ fuel ≥ n, c.seen main fuel w = some r := by
  induction c generalizing w with
  | act g next ih =>
    obtain ⟨n, r, hn⟩ := ih w (hc w) (g w)
    refine ⟨n, (Seen.step (g w) r.1, r.2), ?_⟩
    intro fuel hfuel
    rw [Code.seen_act, hn fuel hfuel]
    rfl
  | yieldToReady next ih =>
    obtain ⟨n, r, hn⟩ := ih hc (main w)
    refine ⟨n + 1, (([], .ready) :: r.1, r.2), ?_⟩
    intro fuel hfuel
    obtain ⟨k, rfl⟩ : ∃ k, fuel = k + 1 := ⟨fuel - 1, by omega⟩
    simp only [Code.seen, Code.run]
    rw [hn k (by omega)]
    rfl
  | yieldToHold => exact absurd hc id
  | ret =>
    refine ⟨1, ([([], .term)], main w), ?_⟩
    intro fuel hfuel
    obtain ⟨k, rfl⟩ : ∃ k, fuel = k + 1 := ⟨fuel - 1, by omega⟩
    rfl
  | throw =>
    refine ⟨1, ([([], .except)], main w), ?_⟩
    intro fuel hfuel
    obtain ⟨k, rfl⟩ : ∃ k, fuel = k + 1 := ⟨fuel - 1, by omega⟩
    rfl

theorem seenAll_some (main : σ → σ) {cs : List (Code σ)} (hcs : ∀ c ∈ cs, c.HoldFree) (w : σ) :
    ∃ n r, ∀ fuel ≥ n, seenAll main fuel cs w = some r := by
  induction cs generalizing w with
  | nil => exact ⟨0, ([], w), fun _ _ => rfl⟩
  | cons c cs ih =>
    obtain ⟨n, r, hn⟩ := (hcs c List.mem_cons_self).seen main w
    obtain ⟨m, rs, hm⟩ := ih (fun c hc => hcs c (List.mem_cons_of_mem _ hc)) r.2
    refine ⟨max n m, (r.1 :: rs.1, rs.2), ?_⟩
    intro fuel hfuel
    rw [seenAll, hn fuel (Nat.le_trans (Nat.le_max_left n m) hfuel), Option.bind_some,
      hm fuel (Nat.le_trans (Nat.le_max_right n m) hfuel)]
    rfl

/-- Running callbacks one after another in one fiber that is reset for each shows the same steps and
states as running each in a fiber of its own; and if none of them calls `YieldToHold`, all of them
come to their ends. -/
theorem reset_like_fresh {w : σ} {d : Drive σ}
    (h : Reach Drive.step (fun _ _ => True) (.initial w) d) (main : σ → σ) (useCaller : Bool)
    (useCallers : FiberId → Bool) (cs : List (Code σ)) :
    (∀ fuel, d.reuse main fuel useCaller cs = d.fresh main fuel useCallers cs) ∧
      ((∀ c ∈ cs, c.HoldFree) → ∃ n seen w', ∀ fuel ≥ n,
        d.reuse main fuel useCaller cs = some (seen, w') ∧
        d.fresh main fuel useCallers cs = some (seen, w')) := by
  have hd := Drive.reach_atMain h
  constructor
  · intro fuel
    rw [Drive.reuse_seen main fuel useCaller cs hd, Drive.fresh_seen main fuel useCallers cs hd]
  · intro hcs
    obtain ⟨n, ⟨seen, w'⟩, hn⟩ := seenAll_some main hcs d.world
    refine ⟨n, seen, w', ?_⟩
    intro fuel hfuel
    rw [Drive.reuse_seen main fuel useCaller cs hd, Drive.fresh_seen main fuel useCallers cs hd]
    exact ⟨hn fuel hfuel, hn fuel hfuel⟩

/-- The first callback yields and throws, which leaves it in `mCallback`; the second one returns. -/
theorem reset_like_fresh_two_callbacks : ∃ n seen w', ∀ fuel ≥ n,
    (Drive.initial 0).reuse id fuel false
      [.act (· + 1) fun _ => .yieldToReady .throw, .act (· * 5) fun _ => .ret] =
        some (seen, w') ∧
    (Drive.initial 0).fresh id fuel (fun _ => true)
      [.act (· + 1) fun _ => .yieldToReady .throw, .act (· * 5) fun _ => .ret] =
        some (seen, w') := by
  apply (reset_like_fresh (w := 0) .refl id false (fun _ => true) _).2
  intro c hc
  simp only [List.mem_cons, List.not_mem_nil, or_false] at hc
  rcases hc with rfl | rfl
  · exact fun _ => trivial
  · exact fun _ => trivial

example : (Drive.initial 0).reuse id 2 false
    [.act (· + 1) fun _ => .yieldToReady .throw, .act (· * 5) fun _ => .ret] =
      some ([[([1], .ready), ([], .except)], [([5], .term)]], 5) := by rfl

end SvrFrame
