import Mathlib.Data.List.Basic

/-!
# Remembering what an attempt returned

A table of results that is asked first: a missing entry is computed by an attempt, which may
fail, and only a result is remembered. The attempts of different questions need not agree. What
every attempt guarantees of its results holds of every answer, and an answer that was given once
is given again.
-/

namespace Remembered

variable {κ ν : Type} [BEq κ]

/-- Ask for a key: the answer, `none` when there is none, and the table. -/
def ask (attempt : κ → Option ν) (k : κ) (table : List (κ × ν)) : Option ν × List (κ × ν) :=
  match table.lookup k with
  | some v => (some v, table)
  | none =>
      match attempt k with
      | some v => (some v, (k, v) :: table)
      | none => (none, table)

/-- Every entry is as `P` says. -/
def Sound (P : κ → ν → Prop) (table : List (κ × ν)) : Prop :=
  ∀ k v, table.lookup k = some v → P k v

variable {P : κ → ν → Prop} {attempt : κ → Option ν} {k k' : κ} {v : ν} {table : List (κ × ν)}

theorem sound_nil : Sound P [] := by
  intro k v found
  cases found

theorem ask_of_entry (found : table.lookup k = some v) : ask attempt k table = (some v, table) := by
  rw [ask, found]

theorem ask_of_missing (missing : table.lookup k = none) :
    (ask attempt k table).1 = attempt k := by
  rw [ask, missing]
  cases attempt k <;> rfl

variable [LawfulBEq κ]

theorem ask_keeps (found : table.lookup k = some v) :
    (ask attempt k' table).2.lookup k = some v := by
  unfold ask
  split
  · exact found
  · rename_i missing
    split
    · rw [List.lookup_cons]
      have other : (k == k') = false := by
        refine beq_false_of_ne ?_
        rintro rfl
        rw [found] at missing
        cases missing
      rw [other]
      exact found
    · exact found

/-- An answer is an entry from then on. -/
theorem entry_of_ask (given : (ask attempt k table).1 = some v) :
    (ask attempt k table).2.lookup k = some v := by
  cases found : table.lookup k with
  | some v' =>
      rw [ask_of_entry found] at given ⊢
      rw [← given]
      exact found
  | none =>
      rw [ask_of_missing found] at given
      rw [ask, found]
      dsimp only
      rw [given, List.lookup_cons, beq_self_eq_true]

theorem Sound.ask (sound : Sound P table) (attempt : κ → Option ν) (k : κ)
    (guarantees : ∀ v, attempt k = some v → P k v) :
    Sound P (ask attempt k table).2 ∧ ∀ v, (ask attempt k table).1 = some v → P k v := by
  unfold Remembered.ask
  split
  · rename_i v found
    refine ⟨sound, fun v' same => ?_⟩
    obtain rfl := Option.some.inj same
    exact sound k v found
  · split
    · rename_i v made
      have here := guarantees v made
      refine ⟨fun k' v' found => ?_, fun v' same => Option.some.inj same ▸ here⟩
      rw [List.lookup_cons] at found
      rcases eq_or_ne k' k with rfl | other
      · rw [beq_self_eq_true] at found
        exact Option.some.inj found ▸ here
      · rw [beq_false_of_ne other] at found
        exact sound k' v' found
    · exact ⟨sound, nofun⟩

end Remembered
