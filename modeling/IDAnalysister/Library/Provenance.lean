import Mathlib.Algebra.Group.Defs
import Mathlib.Data.List.Induction
import Mathlib.Logic.Function.Basic

/-!
# Where a word comes from

Registers take constants, fresh words that have a name, and the words of other registers plus
a constant. `origin` follows, without knowing the fresh words, whether a register holds a
number or a fresh word that was shifted by a number; `run_tells` is that it is right on every
run. A shift that is not traced is only followed for numbers.
-/

namespace Provenance

inductive Step (R S A : Type) : Type
  | const (r : R) (a : A)
  | fresh (r : R) (s : S)
  | shift (traced : Bool) (r q : R) (a : A)
  | havoc (p : R → Bool)

/-- What is known of a word. -/
inductive Origin (S A : Type) : Type
  | lost
  | number (a : A)
  | drifted (s : S) (δ : A)
  deriving DecidableEq

variable {R S A : Type} [DecidableEq R] [AddMonoid A]

/-- The origin of a word plus `a`. -/
def Origin.shift (traced : Bool) (a : A) : Origin S A → Origin S A
  | lost => lost
  | number x => number (x + a)
  | drifted s δ => if traced then drifted s (δ + a) else lost

theorem Origin.shift_zero (o : Origin S A) : o.shift true 0 = o := by
  cases o with
  | lost => rfl
  | number x => rw [shift, add_zero]
  | drifted s δ => rw [shift, if_pos rfl, add_zero]

namespace Step

/-- One step on words, where `v` are the fresh ones. -/
def Moves (v : S → A) (step : Step R S A) (w w' : R → A) : Prop :=
  match step with
  | const r a => w' = Function.update w r a
  | fresh r s => w' = Function.update w r (v s)
  | shift _ r q a => w' = Function.update w r (w q + a)
  | havoc p => ∀ r, p r = false → w' r = w r

/-- One step on origins. -/
def trace (step : Step R S A) (o : R → Origin S A) : R → Origin S A :=
  match step with
  | const r a => Function.update o r (.number a)
  | fresh r s => Function.update o r (.drifted s 0)
  | shift traced r q a => Function.update o r ((o q).shift traced a)
  | havoc p => fun r => if p r then .lost else o r

end Step

/-- The words after the steps, one after the other. -/
def Run (v : S → A) : List (Step R S A) → (R → A) → (R → A) → Prop
  | [], w, w' => w' = w
  | step :: steps, w, w' => ∃ m, step.Moves v w m ∧ Run v steps m w'

def traced (steps : List (Step R S A)) (o : R → Origin S A) : R → Origin S A :=
  steps.foldl (fun o step => step.trace o) o

/-- The origins after the steps, when nothing was known before. -/
def origin (steps : List (Step R S A)) : R → Origin S A := traced steps fun _ => .lost

/-- The origin is right about the word. -/
def Origin.Tells (v : S → A) : Origin S A → A → Prop
  | lost, _ => True
  | number a, x => x = a
  | drifted s δ, x => x = v s + δ

section Tells

variable {v : S → A} {o : R → Origin S A} {w w' : R → A} {step : Step R S A}
variable {steps : List (Step R S A)}

theorem Origin.Tells.shift {o : Origin S A} {x : A} (tells : o.Tells v x) (traced : Bool) (a : A) :
    (o.shift traced a).Tells v (x + a) := by
  cases o with
  | lost => trivial
  | number y =>
      obtain rfl := tells
      rfl
  | drifted s δ =>
      obtain rfl := tells
      cases traced with
      | false => trivial
      | true => exact add_assoc (v s) δ a

theorem Step.tells (moves : step.Moves v w w') (tells : ∀ r, (o r).Tells v (w r)) (r : R) :
    (step.trace o r).Tells v (w' r) := by
  cases step with
  | const d a =>
      obtain rfl := moves
      by_cases same : r = d
      · subst same
        simp [Step.trace, Origin.Tells]
      · simpa [Step.trace, same] using tells r
  | fresh d s =>
      obtain rfl := moves
      by_cases same : r = d
      · subst same
        simp [Step.trace, Origin.Tells]
      · simpa [Step.trace, same] using tells r
  | shift traced d q a =>
      obtain rfl := moves
      by_cases same : r = d
      · subst same
        simpa [Step.trace] using (tells q).shift traced a
      · simpa [Step.trace, same] using tells r
  | havoc p =>
      cases hit : p r with
      | true => simp [Step.trace, hit, Origin.Tells]
      | false =>
          rw [moves r hit]
          simpa [Step.trace, hit] using tells r

theorem traced_tells (run : Run v steps w w') (tells : ∀ r, (o r).Tells v (w r)) (r : R) :
    (traced steps o r).Tells v (w' r) := by
  induction steps generalizing w o with
  | nil =>
      obtain rfl := run
      exact tells r
  | cons step steps ih =>
      rcases run with ⟨m, moves, rest⟩
      exact ih rest (Step.tells moves tells)

/-- On every run, a register holds a word of its origin. -/
theorem run_tells (run : Run v steps w w') (r : R) : (origin steps r).Tells v (w' r) :=
  traced_tells (o := fun _ => .lost) run (fun _ => trivial) r

/-- Every state has a run. -/
theorem exists_run (v : S → A) (steps : List (Step R S A)) (w : R → A) :
    ∃ w', Run v steps w w' := by
  induction steps generalizing w with
  | nil => exact ⟨w, rfl⟩
  | cons step steps ih =>
      have moves : ∃ m, step.Moves v w m := by
        cases step with
        | const r a => exact ⟨_, rfl⟩
        | fresh r s => exact ⟨_, rfl⟩
        | shift traced r q a => exact ⟨_, rfl⟩
        | havoc p => exact ⟨w, fun _ _ => rfl⟩
      rcases moves with ⟨m, moves⟩
      rcases ih m with ⟨w', rest⟩
      exact ⟨w', m, moves, rest⟩

end Tells

end Provenance
