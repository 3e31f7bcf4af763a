import Mathlib.Data.List.Basic

/-!
# Reading up to a terminator

A partial sequence of units is read from its start until a unit terminates it. The reading
has a limit; it gives up where the sequence has no unit.
-/

namespace Terminated

variable {α : Type} (unit : Nat → Option α) (stop : α → Bool)

/-- The units from position `start` before the first terminator among the next positions. -/
def upTo (start : Nat) : Nat → Option (List α)
  | 0 => none
  | limit + 1 =>
      match unit start with
      | none => none
      | some u => if stop u then some [] else (upTo (start + 1) limit).map (u :: ·)

/-- A terminator stands at the position. -/
def StopsAt (position : Nat) : Prop := ∃ u, unit position = some u ∧ stop u

variable {unit stop}

theorem upTo_append {start limit : Nat} {us : List α} (short : us.length < limit)
    (units : ∀ k (inside : k < us.length), unit (start + k) = some us[k])
    (plain : ∀ u ∈ us, stop u = false) (terminated : StopsAt unit stop (start + us.length)) :
    upTo unit stop start limit = some us := by
  induction us generalizing start limit with
  | nil =>
      rcases limit with _ | limit
      · exact absurd short (Nat.lt_irrefl 0)
      · rcases terminated with ⟨u, there, ends⟩
        have there : unit start = some u := there
        rw [upTo, there]
        exact if_pos ends
  | cons u us ih =>
      rcases limit with _ | limit
      · exact absurd short (Nat.not_lt_zero _)
      · have first : unit start = some u := units 0 (Nat.zero_lt_succ _)
        have rest : upTo unit stop (start + 1) limit = some us := by
          refine ih (Nat.lt_of_succ_lt_succ short) (fun k inside => ?_)
            (fun v member => plain v (List.mem_cons_of_mem u member)) ?_
          · rw [Nat.add_right_comm, Nat.add_assoc]
            exact units (k + 1) (Nat.succ_lt_succ inside)
          · rw [Nat.add_right_comm, Nat.add_assoc]
            exact terminated
        rw [upTo, first]
        simp only [plain u List.mem_cons_self, rest, Option.map_some, Bool.false_eq_true, if_false]

/-- A reading gives up where a unit is missing before a terminator, or at its limit. -/
theorem upTo_eq_none_iff {start limit : Nat} :
    upTo unit stop start limit = none ↔
      (∃ k < limit, unit (start + k) = none ∧ ∀ j < k, ¬ StopsAt unit stop (start + j)) ∨
        ∀ k < limit, ¬ StopsAt unit stop (start + k) := by
  induction limit generalizing start with
  | zero => simp [upTo]
  | succ limit ih =>
      have later := @ih (start + 1)
      simp only [Nat.add_assoc, Nat.add_comm 1] at later
      rw [upTo, Nat.exists_lt_succ_left, Nat.forall_lt_succ_left]
      simp only [Nat.forall_lt_succ_left, Nat.add_zero]
      cases read : unit start with
      | none =>
          have missing : ∀ j < 0, ¬ StopsAt unit stop (start + j) :=
            fun j before => absurd before (Nat.not_lt_zero j)
          exact iff_of_true rfl (Or.inl (Or.inl ⟨rfl, missing⟩))
      | some u =>
          by_cases ends : stop u
          · have stops : StopsAt unit stop start := ⟨u, read, ends⟩
            simp [ends, stops]
          · have runsOn : ¬ StopsAt unit stop start := by
              rintro ⟨v, there, ends'⟩
              rw [Option.some.inj (read.symm.trans there)] at ends
              exact ends ends'
            simp only [ends, runsOn, Bool.false_eq_true, if_false, Option.map_eq_none_iff, later,
              not_false_eq_true, true_and, reduceCtorEq, false_and, false_or]

end Terminated
