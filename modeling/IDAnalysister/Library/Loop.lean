import Mathlib.Logic.Relation

/-!
# Bounded loops

A `while` loop whose body may fail to return, run under a bound on the number of
passes. `run` is the loop, `Passes` the relation between the states that its passes go
through. An invariant of the body is an invariant of the loop, and a measure that
every pass decreases gives a bound under which the loop returns.
-/

namespace Loop

variable {σ : Type}

/-- Run `body` until `finished`; `none` when the bound is hit or the body does not
return. -/
def run (finished : σ → Bool) (body : σ → Option σ) : Nat → σ → Option σ
  | 0, s => if finished s then some s else none
  | bound + 1, s => if finished s then some s else (body s).bind (run finished body bound)

/-- One pass. -/
def Pass (finished : σ → Bool) (body : σ → Option σ) (s s' : σ) : Prop :=
  finished s = false ∧ body s = some s'

/-- Any number of passes. -/
abbrev Passes (finished : σ → Bool) (body : σ → Option σ) : σ → σ → Prop :=
  Relation.ReflTransGen (Pass finished body)

variable {finished : σ → Bool} {body : σ → Option σ} {bound : Nat} {s s' : σ}

theorem run_of_finished (done : finished s = true) : run finished body bound s = some s := by
  cases bound with
  | zero => rw [run, if_pos done]
  | succ bound => rw [run, if_pos done]

/-- A loop that returns has gone through passes to a finished state. -/
theorem passes_of_run (h : run finished body bound s = some s') :
    Passes finished body s s' ∧ finished s' = true := by
  induction bound generalizing s with
  | zero =>
      unfold run at h
      split at h
      · rename_i done
        cases h
        exact ⟨.refl, done⟩
      · cases h
  | succ bound ih =>
      unfold run at h
      split at h
      · rename_i done
        cases h
        exact ⟨.refl, done⟩
      · rename_i more
        rcases Option.bind_eq_some_iff.mp h with ⟨next, pass, rest⟩
        rcases ih rest with ⟨passes, done⟩
        have first : Pass finished body s next := ⟨by simpa using more, pass⟩
        exact ⟨.head first passes, done⟩

/-- Whatever a loop that ends goes through leads to its end. -/
theorem Passes.to_end {e : σ} (ends : Passes finished body s e) (done : finished e = true)
    (passes : Passes finished body s s') : Passes finished body s' e := by
  induction passes with
  | refl => exact ends
  | @tail m n _ pass ih =>
      rcases ih.cases_head with same | ⟨next, pass', rest⟩
      · subst same
        rw [pass.1] at done
        cases done
      · have same := Option.some.inj (pass.2.symm.trans pass'.2)
        subst same
        exact rest

/-- A loop returns when every pass of a state that satisfies the invariant returns,
keeps the invariant and decreases a measure. -/
theorem exists_run {inv : σ → Prop} (measure : σ → Nat)
    (total : ∀ s, inv s → finished s = false → ∃ s', body s = some s')
    (keeps : ∀ s s', Pass finished body s s' → inv s → inv s')
    (decreases : ∀ s s', Pass finished body s s' → inv s → measure s' < measure s)
    (start : inv s) : ∃ s', run finished body (measure s) s = some s' := by
  generalize limit : measure s = n
  have enough : measure s ≤ n := by omega
  clear limit
  induction n generalizing s with
  | zero =>
      cases done : finished s with
      | true => exact ⟨s, run_of_finished done⟩
      | false =>
          rcases total s start done with ⟨next, pass⟩
          have less := decreases s next ⟨done, pass⟩ start
          omega
  | succ n ih =>
      cases done : finished s with
      | true => exact ⟨s, run_of_finished done⟩
      | false =>
          rcases total s start done with ⟨next, pass⟩
          have less := decreases s next ⟨done, pass⟩ start
          rcases ih (keeps s next ⟨done, pass⟩ start) (by omega) with ⟨last, rest⟩
          refine ⟨last, ?_⟩
          rw [run, done, if_neg Bool.false_ne_true, pass]
          exact rest

/-- A loop that returns within a bound returns within a larger one. -/
theorem run_mono {limit : Nat} (le : bound ≤ limit) (h : run finished body bound s = some s') :
    run finished body limit s = some s' := by
  induction bound generalizing s limit with
  | zero =>
      unfold run at h
      split at h
      · rename_i done
        cases h
        exact run_of_finished done
      · cases h
  | succ bound ih =>
      unfold run at h
      split at h
      · rename_i done
        cases h
        exact run_of_finished done
      · rename_i more
        rcases Option.bind_eq_some_iff.mp h with ⟨next, pass, rest⟩
        cases limit with
        | zero => omega
        | succ limit =>
            rw [run, if_neg more, pass]
            exact ih (by omega) rest

/-- When a pass agrees with one of another body unless it cuts the loop, the loop agrees with the
one of that body unless it was cut. -/
theorem run_cut_or_same {body' : σ → Option σ} {cut : σ → Bool}
    (ends : ∀ s, cut s = true → finished s = true)
    (same : ∀ s s', body s = some s' → cut s' = true ∨ body' s = some s')
    (h : run finished body bound s = some s') :
    cut s' = true ∨ run finished body' bound s = some s' := by
  induction bound generalizing s with
  | zero => exact Or.inr h
  | succ bound ih =>
      unfold run at h ⊢
      split at h
      · rename_i done
        rw [if_pos done]
        exact Or.inr h
      · rename_i more
        rw [if_neg more]
        rcases Option.bind_eq_some_iff.mp h with ⟨next, pass, rest⟩
        rcases same s next pass with stopped | agrees
        · rw [run_of_finished (ends next stopped)] at rest
          cases rest
          exact Or.inl stopped
        · rw [agrees]
          exact ih rest

/-! ## Counting changes -/

/-- The states that a loop goes through, within a bound on the passes. -/
def trace (finished : σ → Bool) (body : σ → Option σ) : Nat → σ → List σ
  | 0, s => [s]
  | bound + 1, s =>
      if finished s then [s]
      else
        match body s with
        | none => [s]
        | some next => s :: trace finished body bound next

/-- How often what is seen of the states of a list changes. -/
def changes {β : Type} [DecidableEq β] (see : σ → β) : List σ → Nat
  | [] => 0
  | [_] => 0
  | s :: next :: rest =>
      (if see next = see s then 0 else 1) + changes see (next :: rest)

theorem trace_eq_cons (finished : σ → Bool) (body : σ → Option σ) (bound : Nat) (s : σ) :
    ∃ rest, trace finished body bound s = s :: rest := by
  cases bound with
  | zero => exact ⟨[], rfl⟩
  | succ bound =>
      unfold trace
      split
      · exact ⟨[], rfl⟩
      · split
        · exact ⟨[], rfl⟩
        · exact ⟨_, rfl⟩

/-- A potential that no pass raises, and that every change lowers, bounds the changes. -/
theorem changes_le {β : Type} [DecidableEq β] {see : σ → β} {inv : σ → Prop}
    (potential : σ → Nat)
    (keeps : ∀ s s', Pass finished body s s' → inv s → inv s')
    (pays : ∀ s s', Pass finished body s s' → inv s →
      potential s' ≤ potential s ∧ (see s' ≠ see s → potential s' < potential s))
    (bound : Nat) (start : inv s) :
    changes see (trace finished body bound s) ≤ potential s := by
  induction bound generalizing s with
  | zero =>
      rw [trace, changes]
      exact Nat.zero_le _
  | succ bound ih =>
      unfold trace
      split
      · exact Nat.zero_le _
      · rename_i more
        cases next : body s with
        | none => exact Nat.zero_le _
        | some s' =>
            have pass : Pass finished body s s' := ⟨by simpa using more, next⟩
            have later := ih (keeps s s' pass start)
            rcases pays s s' pass start with ⟨le, paid⟩
            rcases trace_eq_cons finished body bound s' with ⟨rest, shape⟩
            dsimp only
            rw [shape] at later ⊢
            rw [changes]
            by_cases same : see s' = see s
            · rw [if_pos same]
              omega
            · have less := paid same
              rw [if_neg same]
              omega

end Loop
