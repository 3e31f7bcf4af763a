import IDAnalysister.Library.Bytes
import IDAnalysister.Library.Numbered

/-!
# Stores relative to a base that moves

A row of steps that store numbers at places relative to a base, while the steps themselves move
the base. `Moving.placed` lists the cells of a row with their numbers. The cells do not depend
on the numbers, and any numbers can go to them (`Moving.exists_around`).
-/

open Bytes Numbered

/-- Where a store goes from a base, and where the base is behind a step. -/
structure Moving (A σ τ : Type) where
  address : σ → A → A
  onStore : σ → A → A
  onOther : τ → A → A

namespace Moving

variable {A σ τ : Type} (M : Moving A σ τ) (size : Nat)

def after : Numbered σ τ → A → A
  | .store place _, p => M.onStore place p
  | .other t, p => M.onOther t p

/-- The base behind the steps. -/
def base (steps : List (Numbered σ τ)) (p : A) : A :=
  steps.foldl (fun p step => M.after step p) p

/-- The stores of `size` bytes that the steps make. -/
def placed : List (Numbered σ τ) → A → List (Cell A × Nat)
  | [], _ => []
  | .store place n :: steps, p => (⟨M.address place p, size⟩, n) :: placed steps (M.onStore place p)
  | .other t :: steps, p => placed steps (M.onOther t p)

/-- The cells that the steps store to. -/
def cells (steps : List (Numbered σ τ)) (p : A) : List (Cell A) :=
  (M.placed size steps p).map Prod.fst

variable {M size} {steps xs ys before later : List (Numbered σ τ)} {p : A} {place : σ} {n : Nat}

@[simp] theorem base_nil : M.base [] p = p := rfl

@[simp] theorem base_cons {step : Numbered σ τ} :
    M.base (step :: steps) p = M.base steps (M.after step p) := rfl

theorem base_append : M.base (xs ++ ys) p = M.base ys (M.base xs p) := List.foldl_append

theorem placed_append :
    M.placed size (xs ++ ys) p = M.placed size xs p ++ M.placed size ys (M.base xs p) := by
  induction xs generalizing p with
  | nil => rfl
  | cons x xs ih =>
      cases x with
      | store place n => exact congrArg (List.cons _) ih
      | other t => exact ih

theorem base_erase (steps : List (Numbered σ τ)) (p : A) :
    M.base (steps.map erase) p = M.base steps p := by
  induction steps generalizing p with
  | nil => rfl
  | cons step steps ih => cases step <;> exact ih _

theorem cells_erase (steps : List (Numbered σ τ)) (p : A) :
    M.cells size (steps.map erase) p = M.cells size steps p := by
  induction steps generalizing p with
  | nil => rfl
  | cons step steps ih =>
      cases step with
      | store place n => exact congrArg (List.cons _) (ih _)
      | other t => exact ih _

/-- Neither the base nor the cells depend on the numbers. -/
theorem base_congr (same : SameLayout xs ys) (p : A) : M.base xs p = M.base ys p := by
  rw [← base_erase, same, base_erase]

theorem cells_congr (same : SameLayout xs ys) (p : A) : M.cells size xs p = M.cells size ys p := by
  rw [← cells_erase, same, cells_erase]

theorem placed_numbers (steps : List (Numbered σ τ)) (p : A) :
    (M.placed size steps p).map Prod.snd = (stores steps).map Prod.snd := by
  induction steps generalizing p with
  | nil => rfl
  | cons step steps ih =>
      cases step with
      | store place n => exact congrArg (List.cons n) (ih _)
      | other t => exact ih _

theorem size_of_mem {c : Cell A} (member : c ∈ M.cells size steps p) : c.size = size := by
  induction steps generalizing p with
  | nil => cases member
  | cons step steps ih =>
      cases step with
      | store place n =>
          rcases List.mem_cons.mp member with rfl | inside
          · rfl
          · exact ih inside
      | other t => exact ih member

/-- Whatever numbers go to the cells of the steps, steps of the same layout store them. -/
theorem exists_steps {stored : List (Cell A × Nat)} {layout : List (Numbered σ τ)}
    (places : stored.map Prod.fst = M.cells size layout p) :
    ∃ steps, SameLayout steps layout ∧ M.placed size steps p = stored := by
  have count : (stored.map Prod.snd).length = (stores layout).length := by
    have left := congrArg List.length places
    have right : ((M.placed size layout p).map Prod.snd).length =
        ((stores layout).map Prod.snd).length :=
      congrArg List.length (placed_numbers layout p)
    rw [cells] at left
    simp only [List.length_map] at left right ⊢
    omega
  rcases exists_sameLayout layout _ count with ⟨steps, same, numbers⟩
  refine ⟨steps, same, ?_⟩
  have alike : (M.placed size steps p).map Prod.fst = stored.map Prod.fst := by
    rw [places]
    exact cells_congr same p
  have values : (M.placed size steps p).map Prod.snd = stored.map Prod.snd := by
    rw [placed_numbers, numbers]
  exact stores_ext alike values

/-- The same around one store. -/
theorem exists_around (place : σ) {pre post : List (Cell A × Nat)} {v : Nat}
    (places : pre.map Prod.fst = M.cells size before p)
    (places' : post.map Prod.fst = M.cells size later (M.onStore place (M.base before p))) :
    ∃ xs ys, SameLayout xs before ∧ SameLayout ys later ∧
      M.placed size (xs ++ .store place v :: ys) p =
        pre ++ (⟨M.address place (M.base before p), size⟩, v) :: post := by
  rcases exists_steps places with ⟨xs, same, rfl⟩
  rcases exists_steps places' with ⟨ys, same', rfl⟩
  refine ⟨xs, ys, same, same', ?_⟩
  rw [placed_append, base_congr same]
  rfl

/-- Numbers that fit their cells fit the size. -/
theorem fits_of_fitting (fitting : Fitting (M.placed size steps p)) :
    ∀ s ∈ stores steps, s.2 < 256 ^ size := by
  intro s member
  have number : s.2 ∈ (M.placed size steps p).map Prod.snd := by
    rw [placed_numbers]
    exact List.mem_map_of_mem member
  rcases List.mem_map.mp number with ⟨t, inside, equal⟩
  have bound := fitting t inside
  rwa [size_of_mem (List.mem_map_of_mem inside), equal] at bound

end Moving
