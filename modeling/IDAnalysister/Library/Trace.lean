import Mathlib.Logic.Basic

/-!
# Executions along a row of labels

A labelled step relation and the executions that take the labels of a list one after the
other. What every step preserves an execution preserves, and an abstraction that is right
about a state stays right when the row is folded over it.
-/

namespace Trace

variable {L S : Type}

/-- `Along step ls s s'`: the labels `ls`, in order, may lead from `s` to `s'`. -/
inductive Along (step : L → S → S → Prop) : List L → S → S → Prop
  | nil (s : S) : Along step [] s s
  | cons {l : L} {ls : List L} {s m s' : S} :
    step l s m → Along step ls m s' → Along step (l :: ls) s s'

variable {step step' : L → S → S → Prop} {l : L} {ls ks : List L} {s s' : S}

theorem Along.append_inv (along : Along step (ls ++ ks) s s') :
    ∃ m, Along step ls s m ∧ Along step ks m s' := by
  induction ls generalizing s with
  | nil => exact ⟨s, .nil s, along⟩
  | cons l ls ih =>
      cases along with
      | cons first rest =>
          rcases ih rest with ⟨m, left, right⟩
          exact ⟨m, .cons first left, right⟩

theorem Along.cons_inv (along : Along step (l :: ls) s s') :
    ∃ m, step l s m ∧ Along step ls m s' := by
  cases along with
  | cons first rest => exact ⟨_, first, rest⟩

/-- What no step of the row changes is the same at its end. -/
theorem Along.frame {β : Type} (f : S → β) (kept : ∀ l ∈ ls, ∀ s s', step l s s' → f s' = f s)
    (along : Along step ls s s') : f s' = f s := by
  induction along with
  | nil => rfl
  | @cons l ls s m s' first _ ih =>
      have rest := ih fun k member => kept k (List.mem_cons_of_mem l member)
      rw [rest, kept l List.mem_cons_self s m first]

/-- An execution of finer steps is one of coarser steps. -/
theorem Along.mono (coarser : ∀ l ∈ ls, ∀ s s', step l s s' → step' l s s')
    (along : Along step ls s s') : Along step' ls s s' := by
  induction along with
  | nil s => exact .nil s
  | @cons l ls s m s' first _ ih =>
      exact .cons (coarser l List.mem_cons_self s m first)
        (ih fun k member => coarser k (List.mem_cons_of_mem l member))

/-- Labels may be renamed. -/
theorem Along.map {K : Type} {f : K → L} {ks : List K}
    (along : Along (fun k => step (f k)) ks s s') : Along step (ks.map f) s s' := by
  induction along with
  | nil s => exact .nil s
  | cons first _ ih => exact .cons first ih

/-- Steps that are possible everywhere can be taken in any row. -/
theorem exists_along (total : ∀ l ∈ ls, ∀ s, ∃ s', step l s s') (s : S) :
    ∃ s', Along step ls s s' := by
  induction ls generalizing s with
  | nil => exact ⟨s, .nil s⟩
  | cons l ls ih =>
      rcases total l List.mem_cons_self s with ⟨m, first⟩
      rcases ih (fun k member => total k (List.mem_cons_of_mem l member)) m with ⟨s', rest⟩
      exact ⟨s', .cons first rest⟩

/-- An abstraction of the start, updated label by label, is one of the end. -/
theorem Along.simulates {A : Type} {abstracts : A → S → Prop} {f : A → L → A}
    (sound : ∀ l ∈ ls, ∀ a s s', abstracts a s → step l s s' → abstracts (f a l) s')
    (along : Along step ls s s') {a : A} (start : abstracts a s) :
    abstracts (ls.foldl f a) s' := by
  induction along generalizing a with
  | nil => exact start
  | @cons l ls s m s' first _ ih =>
      have next := sound l List.mem_cons_self a s m start first
      exact ih (fun k member => sound k (List.mem_cons_of_mem l member)) next

end Trace
