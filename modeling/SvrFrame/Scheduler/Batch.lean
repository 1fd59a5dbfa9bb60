import SvrFrame.Scheduler.Steps
import Mathlib.Data.List.ReduceOption

namespace SvrFrame
namespace Scheduler
open Library
set_option autoImplicit true

variable {s : Scheduler}

/-- `scheduleNoLock`: the need to tickle, and the queue with the entry unless the pointer or the
function is empty. -/
def scheduleNoLock (s : Scheduler) (fc : Option Task) (thread : Option WorkerId) :
    Bool × Scheduler :=
  (s.mFibers.isEmpty, match fc with | some t => s.push ⟨t, thread⟩ | none => s)

/-- The loop of `schedule(begin, end)`, with what it leaves in the range: the entries swap their
members with the elements. -/
def scheduleRange (s : Scheduler) (needTickle : Bool) :
    List (Option Task) → Bool × Scheduler × List (Option Task)
  | [] => (needTickle, s, [])
  | fc :: range =>
    match s.scheduleNoLock fc none with
    | (first, s) =>
      match s.scheduleRange (first || needTickle) range with
      | (needTickle, s, left) => (needTickle, s, none :: left)

theorem scheduleRange_left (s : Scheduler) (needTickle : Bool) (range : List (Option Task)) :
    (s.scheduleRange needTickle range).2.2 = range.map fun _ => none := by
  induction range generalizing s needTickle with
  | nil => rfl
  | cons fc range ih => exact congrArg (none :: ·) (ih _ _)

/-- Once the loop is under way, a tickle is needed where the queue was empty to begin with. -/
theorem scheduleRange_tickle (s : Scheduler) {needTickle : Bool} (range : List (Option Task))
    (h : s.mFibers = [] → needTickle = true) :
    (s.scheduleRange needTickle range).1 = needTickle := by
  induction range generalizing s needTickle with
  | nil => rfl
  | cons fc range ih =>
    have hsame : (s.mFibers.isEmpty || needTickle) = needTickle := by
      cases hq : s.mFibers with
      | nil => rw [h hq]; rfl
      | cons => rfl
    simp only [scheduleRange, scheduleNoLock, hsame]
    apply ih
    cases fc with
    | none => exact h
    | some t => exact fun hempty => absurd hempty (by simp)

/-- The workers are told of a range where the queue was empty, also where all of the range is. -/
theorem scheduleRange_tickles (s : Scheduler) (range : List (Option Task)) :
    (s.scheduleRange false range).1 = (s.mFibers.isEmpty && !range.isEmpty) := by
  cases range with
  | nil => simp [scheduleRange]
  | cons fc range =>
    simp only [scheduleRange, scheduleNoLock, Bool.or_false]
    rw [scheduleRange_tickle]
    · simp
    · cases fc with
      | none => exact fun hempty => by simp [hempty]
      | some t => exact fun hempty => absurd hempty (by simp)

theorem schedule_made {t : Task} (h : ∀ f, t = .fiber f → f < s.nextFiber)
    (thread : Option WorkerId) : s.schedule t thread = some (s.push ⟨t, thread⟩) := by
  cases t with
  | fiber f => exact if_pos (h f rfl)
  | cb c => rfl

/-- The loop is the run of the calls for the single elements, with nobody's step between them. -/
theorem scheduleRange_run (s : Scheduler) (needTickle : Bool) {range : List (Option Task)}
    (hmade : ∀ f, some (.fiber f) ∈ range → f < s.nextFiber) :
    runAll step s (range.reduceOption.map fun t => .schedule t none) =
      some (s.scheduleRange needTickle range).2.1 := by
  induction range generalizing s needTickle with
  | nil => rfl
  | cons fc range ih =>
    cases fc with
    | none =>
      rw [List.reduceOption_cons_of_none]
      exact ih s _ fun f hf => hmade f (List.mem_cons_of_mem none hf)
    | some t =>
      have hpush : s.step (.schedule t none) = some (s.push ⟨t, none⟩) :=
        schedule_made (fun f hf => hmade f (hf ▸ List.mem_cons_self)) none
      rw [List.reduceOption_cons_of_some, List.map_cons, runAll, hpush, Option.bind_some]
      exact ih _ _ fun f hf => hmade f (List.mem_cons_of_mem _ hf)

end Scheduler
end SvrFrame
