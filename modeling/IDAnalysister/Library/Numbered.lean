import Mathlib.Data.List.Basic

/-!
# Rows of steps that differ in their numbers

A row of steps, some of which store a number to a place and the others do something else.
Rows have the same layout when they differ in the stored numbers only (`SameLayout`);
`exists_sameLayout` gives a row of any layout whatever numbers it is to store.
-/

/-- A step that stores a number to a place, or another step. -/
inductive Numbered (σ τ : Type) : Type
  | store (place : σ) (n : Nat)
  | other (t : τ)
  deriving DecidableEq

namespace Numbered

variable {σ τ : Type}

/-- The step without its number. -/
def erase : Numbered σ τ → Numbered σ τ
  | store place _ => store place 0
  | other t => other t

/-- The places and numbers of the stores, in order. -/
def stores : List (Numbered σ τ) → List (σ × Nat)
  | [] => []
  | store place n :: steps => (place, n) :: stores steps
  | other _ :: steps => stores steps

/-- The step is a store to this place. -/
def StoresTo (place : σ) : Numbered σ τ → Prop
  | store place' _ => place' = place
  | other _ => False

/-- The rows differ in the stored numbers only. -/
def SameLayout (xs ys : List (Numbered σ τ)) : Prop := xs.map erase = ys.map erase

theorem mem_stores {xs : List (Numbered σ τ)} {s : σ × Nat} :
    s ∈ stores xs ↔ store s.1 s.2 ∈ xs := by
  induction xs with
  | nil => simp [stores]
  | cons x xs ih =>
      cases x with
      | store place n =>
          rcases s with ⟨place', n'⟩
          simp [stores, ih]
      | other t => simp [stores, ih]

theorem stores_append (xs ys : List (Numbered σ τ)) :
    stores (xs ++ ys) = stores xs ++ stores ys := by
  induction xs with
  | nil => rfl
  | cons x xs ih =>
      cases x with
      | store place n => exact congrArg (List.cons (place, n)) ih
      | other t => exact ih

/-- A stored number was stored by a step of the row. -/
theorem stores_split {xs : List (Numbered σ τ)} {pre post : List (σ × Nat)} {s : σ × Nat}
    (split : stores xs = pre ++ s :: post) :
    ∃ before after, xs = before ++ store s.1 s.2 :: after ∧ stores before = pre ∧
      stores after = post := by
  induction xs generalizing pre with
  | nil => cases pre <;> cases split
  | cons x xs ih =>
      cases x with
      | store place n =>
          rw [stores] at split
          cases pre with
          | nil =>
              cases split
              exact ⟨[], xs, rfl, rfl, rfl⟩
          | cons t pre =>
              rcases List.cons.inj split with ⟨rfl, later⟩
              rcases ih later with ⟨before, after, rfl, early, late⟩
              exact ⟨store place n :: before, after, rfl, congrArg _ early, late⟩
      | other t =>
          rcases ih split with ⟨before, after, rfl, early, late⟩
          exact ⟨other t :: before, after, rfl, early, late⟩

namespace SameLayout

variable {xs ys before after : List (Numbered σ τ)} {place : σ} {n : Nat} {t : τ}

theorem symm (same : SameLayout xs ys) : SameLayout ys xs := Eq.symm same

theorem length_eq (same : SameLayout xs ys) : xs.length = ys.length := by
  simpa using congrArg List.length same

theorem append {xs' ys' : List (Numbered σ τ)} (left : SameLayout xs ys)
    (right : SameLayout xs' ys') : SameLayout (xs ++ xs') (ys ++ ys') := by
  rw [SameLayout, List.map_append, left, right, List.map_append]

/-- A store splits the other row at a store to the same place. -/
theorem split_store (same : SameLayout (before ++ store place n :: after) ys) :
    ∃ pre k post, ys = pre ++ store place k :: post ∧ SameLayout before pre ∧
      SameLayout after post := by
  rw [SameLayout, List.map_append, List.map_cons] at same
  rcases List.map_eq_append_iff.mp same.symm with ⟨pre, rest, rfl, left, right⟩
  rcases List.map_eq_cons_iff.mp right with ⟨step, post, rfl, here, later⟩
  cases step with
  | store place' k =>
      have at' : place' = place := (store.inj here).1
      exact ⟨pre, k, post, by rw [at'], left.symm, later.symm⟩
  | other t => cases here

/-- Another step splits the other row at the same step. -/
theorem split_other (same : SameLayout (before ++ other t :: after) ys) :
    ∃ pre post, ys = pre ++ other t :: post ∧ SameLayout before pre ∧ SameLayout after post := by
  rw [SameLayout, List.map_append, List.map_cons] at same
  rcases List.map_eq_append_iff.mp same.symm with ⟨pre, rest, rfl, left, right⟩
  rcases List.map_eq_cons_iff.mp right with ⟨step, post, rfl, here, later⟩
  cases step with
  | store place' k => cases here
  | other t' =>
      have at' : t' = t := other.inj here
      exact ⟨pre, post, by rw [at'], left.symm, later.symm⟩

/-- What holds of every step of a row whatever its number holds of the other row. -/
theorem forall_congr {P : Numbered σ τ → Prop} (erased : ∀ x, P (erase x) ↔ P x)
    (same : SameLayout xs ys) (holds : ∀ x ∈ xs, P x) : ∀ y ∈ ys, P y := by
  intro y member
  have inside : erase y ∈ xs.map erase := by
    rw [same]
    exact List.mem_map_of_mem member
  rcases List.mem_map.mp inside with ⟨x, member', alike⟩
  rw [← erased, ← alike, erased]
  exact holds x member'

theorem not_storesTo (same : SameLayout xs ys) (none : ∀ x ∈ xs, ¬ x.StoresTo place) :
    ∀ y ∈ ys, ¬ y.StoresTo place := by
  apply same.forall_congr _ none
  intro x
  cases x <;> rfl

theorem places (same : SameLayout xs ys) :
    (stores xs).map Prod.fst = (stores ys).map Prod.fst := by
  have erased : ∀ zs : List (Numbered σ τ),
      (stores (zs.map erase)).map Prod.fst = (stores zs).map Prod.fst := by
    intro zs
    induction zs with
    | nil => rfl
    | cons z zs ih =>
        cases z with
        | store place n => exact congrArg (List.cons place) ih
        | other t => exact ih
  rw [← erased xs, same, erased]

end SameLayout

/-- The row without its numbers has the same layout. -/
theorem sameLayout_erase (xs : List (Numbered σ τ)) : SameLayout (xs.map erase) xs := by
  rw [SameLayout, List.map_map]
  apply List.map_congr_left
  intro x _
  cases x <;> rfl

theorem number_of_erased {xs : List (Numbered σ τ)} {s : σ × Nat}
    (member : s ∈ stores (xs.map erase)) : s.2 = 0 := by
  rcases List.mem_map.mp (mem_stores.mp member) with ⟨x, -, same⟩
  cases x with
  | store place n => exact (store.inj same).2.symm
  | other t => cases same

theorem lt_of_erased (xs : List (Numbered σ τ)) {bound : Nat} (positive : 0 < bound) :
    ∀ s ∈ stores (xs.map erase), s.2 < bound := by
  intro s member
  rw [number_of_erased member]
  exact positive

/-- Two lists of stores with the same places and the same numbers. -/
theorem stores_ext {ss ss' : List (σ × Nat)} (places : ss.map Prod.fst = ss'.map Prod.fst)
    (numbers : ss.map Prod.snd = ss'.map Prod.snd) : ss = ss' := by
  rw [List.zip_of_prod places numbers, ← List.zip_of_prod rfl rfl]

/-- Whatever numbers are to be stored, a row of the same layout stores them. -/
theorem exists_sameLayout (layout : List (Numbered σ τ)) (numbers : List Nat)
    (count : numbers.length = (stores layout).length) :
    ∃ steps, SameLayout steps layout ∧ (stores steps).map Prod.snd = numbers := by
  induction layout generalizing numbers with
  | nil => exact ⟨[], rfl, (List.length_eq_zero_iff.mp count).symm⟩
  | cons step layout ih =>
      cases step with
      | store place n =>
          cases numbers with
          | nil => cases count
          | cons k numbers =>
              rcases ih numbers (Nat.succ.inj count) with ⟨steps, same, stored⟩
              refine ⟨store place k :: steps, ?_, ?_⟩
              · rw [SameLayout, List.map_cons, same, List.map_cons]
                rfl
              · rw [stores, List.map_cons, stored]
      | other t =>
          rcases ih numbers count with ⟨steps, same, stored⟩
          exact ⟨other t :: steps, congrArg (List.cons (other t)) same, stored⟩

/-- Whatever numbers are to be stored around one store, a row of the same layout stores them. -/
theorem exists_around {layout : List (Numbered σ τ)} {pre post : List (σ × Nat)} {s : σ × Nat}
    (places : (pre ++ s :: post).map Prod.fst = (stores layout).map Prod.fst) :
    ∃ before after, SameLayout (before ++ store s.1 s.2 :: after) layout ∧
      stores (before ++ store s.1 s.2 :: after) = pre ++ s :: post ∧ stores after = post := by
  have count : ((pre ++ s :: post).map Prod.snd).length = (stores layout).length := by
    simpa using congrArg List.length places
  rcases exists_sameLayout layout _ count with ⟨steps, alike, numbers⟩
  have stored : stores steps = pre ++ s :: post :=
    stores_ext (alike.places.trans places.symm) numbers
  rcases stores_split stored with ⟨before, after, rfl, -, behind⟩
  exact ⟨before, after, alike, stored, behind⟩

end Numbered
