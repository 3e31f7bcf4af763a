import Mathlib.Data.List.Induction
import Mathlib.Logic.Function.Basic

/-!
# A machine of word transfers

A state gives every place a word of `W` bits, and an operation sets a place to a
constant, to another place plus a constant, exchanges two places, or leaves an
arbitrary word in each of a set of places. `free ops p` says that the word at `p` after
`ops` still depends on a word the run started with or met on the way, and
`exists_run_of_free` that it can then be any word.
-/

namespace Transfer

inductive Op (P : Type) : Type
  | const (d : P) (n : Int)
  | offset (d s : P) (n : Int)
  | swap (a b : P)
  | havoc (S : P → Prop)

abbrev State (P : Type) (W : Nat) := P → BitVec W

variable {P : Type} [DecidableEq P] {W : Nat}

namespace Op

/-- One step of the machine. -/
def Step (op : Op P) (s s' : State P W) : Prop :=
  match op with
  | const d n => s' = Function.update s d (BitVec.ofInt W n)
  | offset d p n => s' = Function.update s d (s p + BitVec.ofInt W n)
  | swap a b => s' = Function.update (Function.update s a (s b)) b (s a)
  | havoc S => ∀ p, ¬ S p → s' p = s p

/-- The operation may change the word at the place. -/
def Writes : Op P → P → Prop
  | const d _, p => p = d
  | offset d _ _, p => p = d
  | swap a b, p => p = a ∨ p = b
  | havoc S, p => S p

/-- The word at the first place comes from the word the second one held. -/
def Copies : Op P → P → P → Prop
  | const _ _, _, _ => False
  | offset d s _, p, q => p = d ∧ q = s
  | swap a b, p, q => (p = b ∧ q = a) ∨ (p = a ∧ q = b)
  | havoc _, _, _ => False

/-- What is free after the operation, given what was free before. -/
def free (op : Op P) (T : P → Prop) (p : P) : Prop :=
  match op with
  | const d _ => p ≠ d ∧ T p
  | offset d s _ => if p = d then T s else T p
  | swap a b => if p = b then T a else if p = a then T b else T p
  | havoc S => S p ∨ T p

theorem Step.frame {op : Op P} {s s' : State P W} (step : op.Step s s') {p : P}
    (kept : ¬ op.Writes p) : s' p = s p := by
  cases op with
  | const d n =>
      obtain rfl := step
      exact Function.update_of_ne kept _ _
  | offset d q n =>
      obtain rfl := step
      exact Function.update_of_ne kept _ _
  | swap a b =>
      obtain rfl := step
      have na : p ≠ a := fun same => kept (Or.inl same)
      have nb : p ≠ b := fun same => kept (Or.inr same)
      rw [Function.update_of_ne nb, Function.update_of_ne na]
  | havoc S => exact step p kept

section Effects

variable {a b d p q : P} {n : Int} {s s' : State P W}

theorem Step.const_eq (step : (const d n).Step s s') : s' d = BitVec.ofInt W n := by
  rw [show s' = _ from step, Function.update_self]

theorem Step.offset_eq (step : (offset d q n).Step s s') : s' d = s q + BitVec.ofInt W n := by
  rw [show s' = _ from step, Function.update_self]

theorem Step.swap_eq (copies : (swap a b).Copies p q) (step : (swap a b).Step s s') :
    s' p = s q := by
  rw [show s' = _ from step]
  rcases copies with ⟨rfl, rfl⟩ | ⟨rfl, rfl⟩
  · rw [Function.update_self]
  · by_cases same : p = q
    · rw [same, Function.update_self]
    · rw [Function.update_of_ne same, Function.update_self]

end Effects

theorem free_of_copies {op : Op P} {T : P → Prop} {p q : P} (copies : op.Copies p q)
    (was : T q) : op.free T p := by
  cases op with
  | const d n => exact copies.elim
  | offset d s n =>
      obtain ⟨rfl, rfl⟩ := copies
      simpa [free] using was
  | swap a b =>
      rcases copies with ⟨rfl, rfl⟩ | ⟨rfl, rfl⟩
      · simpa [free] using was
      · by_cases same : p = q
        · subst same
          simpa [free] using was
        · simpa [free, same] using was
  | havoc S => exact copies.elim

theorem free_of_kept {op : Op P} {T : P → Prop} {p : P} (kept : ¬ op.Writes p) (was : T p) :
    op.free T p := by
  cases op with
  | const d n => exact ⟨kept, was⟩
  | offset d s n => simpa [free, show p ≠ d from kept] using was
  | swap a b =>
      have na : p ≠ a := fun same => kept (Or.inl same)
      have nb : p ≠ b := fun same => kept (Or.inr same)
      simpa [free, na, nb] using was
  | havoc S => exact Or.inr was

/-- Whatever a free place should hold afterwards, some step puts it there. -/
theorem exists_step_of_free {op : Op P} {T : P → Prop} {p : P} (open' : op.free T p)
    (x : BitVec W) :
    (∃ q y, T q ∧ ∀ s : State P W, s q = y → ∃ s', op.Step s s' ∧ s' p = x) ∨
      ∀ s : State P W, ∃ s', op.Step s s' ∧ s' p = x := by
  cases op with
  | const d n =>
      refine Or.inl ⟨p, x, open'.2, fun s same => ⟨_, rfl, ?_⟩⟩
      rw [Function.update_of_ne open'.1, same]
  | offset d r n =>
      by_cases same : p = d
      · subst same
        rw [free, if_pos rfl] at open'
        refine Or.inl ⟨r, x - BitVec.ofInt W n, open', fun s held => ⟨_, rfl, ?_⟩⟩
        rw [Function.update_self, held, BitVec.sub_add_cancel]
      · rw [free, if_neg same] at open'
        refine Or.inl ⟨p, x, open', fun s held => ⟨_, rfl, ?_⟩⟩
        rw [Function.update_of_ne same, held]
  | swap a b =>
      by_cases second : p = b
      · subst second
        rw [free, if_pos rfl] at open'
        refine Or.inl ⟨a, x, open', fun s held => ⟨_, rfl, ?_⟩⟩
        rw [Function.update_self, held]
      · rw [free, if_neg second] at open'
        by_cases first : p = a
        · subst first
          rw [if_pos rfl] at open'
          refine Or.inl ⟨b, x, open', fun s held => ⟨_, rfl, ?_⟩⟩
          rw [Function.update_of_ne second, Function.update_self, held]
        · rw [if_neg first] at open'
          refine Or.inl ⟨p, x, open', fun s held => ⟨_, rfl, ?_⟩⟩
          rw [Function.update_of_ne second, Function.update_of_ne first, held]
  | havoc S =>
      rcases open' with written | was
      · refine Or.inr fun s => ⟨Function.update s p x, fun q kept => ?_, Function.update_self ..⟩
        refine Function.update_of_ne (fun same => kept ?_) _ _
        rw [same]
        exact written
      · exact Or.inl ⟨p, x, was, fun s held => ⟨s, fun _ _ => rfl, held⟩⟩

theorem exists_step (op : Op P) (s : State P W) : ∃ s', op.Step s s' := by
  cases op with
  | const d n => exact ⟨_, rfl⟩
  | offset d q n => exact ⟨_, rfl⟩
  | swap a b => exact ⟨_, rfl⟩
  | havoc S => exact ⟨s, fun _ _ => rfl⟩

end Op

/-! ## Runs -/

/-- Running operations in order. -/
def Run : List (Op P) → State P W → State P W → Prop
  | [], s, s' => s' = s
  | op :: ops, s, s' => ∃ m, op.Step s m ∧ Run ops m s'

theorem run_append {xs ys : List (Op P)} {s s' : State P W} :
    Run (xs ++ ys) s s' ↔ ∃ m, Run xs s m ∧ Run ys m s' := by
  induction xs generalizing s with
  | nil => simp [Run]
  | cons op xs ih =>
      simp only [List.cons_append, Run, ih]
      constructor
      · intro given
        rcases given with ⟨m, step, k, left, right⟩
        exact ⟨k, ⟨m, step, left⟩, right⟩
      · intro given
        rcases given with ⟨k, ⟨m, step, left⟩, right⟩
        exact ⟨m, step, k, left, right⟩

/-- Places that no operation writes keep their words. -/
theorem Run.frame {ops : List (Op P)} {s s' : State P W} (run : Run ops s s') {p : P}
    (kept : ∀ op ∈ ops, ¬ op.Writes p) : s' p = s p := by
  induction ops generalizing s with
  | nil =>
      obtain rfl := run
      rfl
  | cons op ops ih =>
      obtain ⟨m, step, rest⟩ := run
      rw [ih rest fun op' member => kept op' (by simp [member]), step.frame (kept op (by simp))]

theorem exists_run (ops : List (Op P)) (s : State P W) : ∃ s', Run ops s s' := by
  induction ops generalizing s with
  | nil => exact ⟨s, rfl⟩
  | cons op ops ih =>
      obtain ⟨m, step⟩ := op.exists_step s
      obtain ⟨s', rest⟩ := ih m
      exact ⟨s', m, step, rest⟩

/-! ## What a run leaves free -/

/-- The word at a place after `ops` is not fixed by `ops`. -/
def free (ops : List (Op P)) : P → Prop := ops.foldl (fun T op => op.free T) fun _ => True

@[simp] theorem free_nil (p : P) : free [] p := trivial

theorem free_append_singleton (ops : List (Op P)) (op : Op P) (p : P) :
    free (ops ++ [op]) p ↔ op.free (free ops) p := by
  simp [free]

/-- Writing nothing leaves a free place free. -/
theorem free_append_of_kept {xs ys : List (Op P)} {p : P} (was : free xs p)
    (kept : ∀ op ∈ ys, ¬ op.Writes p) : free (xs ++ ys) p := by
  induction ys generalizing xs with
  | nil => simpa using was
  | cons op ys ih =>
      rw [List.append_cons]
      refine ih ?_ fun op' member => kept op' (by simp [member])
      exact (free_append_singleton xs op p).mpr (Op.free_of_kept (kept op (by simp)) was)

/-- A free place can end up with any word. -/
theorem exists_run_of_free {ops : List (Op P)} {p : P} (open' : free ops p) (x : BitVec W) :
    ∃ s s' : State P W, Run ops s s' ∧ s' p = x := by
  induction ops using List.reverseRecOn generalizing p x with
  | nil => exact ⟨fun _ => x, fun _ => x, rfl, rfl⟩
  | append_singleton ops op ih =>
      rcases Op.exists_step_of_free ((free_append_singleton ops op p).mp open') x with
        ⟨q, y, was, step⟩ | step
      · obtain ⟨s, m, run, held⟩ := ih was y
        obtain ⟨s', last, result⟩ := step m held
        exact ⟨s, s', run_append.mpr ⟨m, run, s', last, rfl⟩, result⟩
      · obtain ⟨m, run⟩ := exists_run ops fun _ => x
        obtain ⟨s', last, result⟩ := step m
        exact ⟨_, s', run_append.mpr ⟨m, run, s', last, rfl⟩, result⟩

end Transfer
