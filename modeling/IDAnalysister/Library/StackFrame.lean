import IDAnalysister.Library.StackMachine

/-!
# Accesses relative to the stack pointer

The stack machine with stores to, and loads from, cells at a displacement from the stack
pointer. `wrote` is the cell that a step writes: `exec_mem` describes a step by it, and `read_exec`
says what stays.
-/

namespace StackMachine

open Bytes

/-- A step of the stack machine, or an access to a cell `disp` above the stack pointer. -/
inductive Access (R : Type) (width : Nat)
  | step (step : Step R width)
  | store (disp : BitVec (width * 8)) (o : Source R width)
  | load (r : R) (disp : BitVec (width * 8))
  deriving DecidableEq

namespace Access

variable {R : Type} {width : Nat} [DecidableEq R]

def exec (sp : R) : Access R width → State R width → State R width
  | step a, s => StackMachine.exec sp a s
  | store disp o, s => { s with mem := write s.mem (s.regs sp + disp) width (o.value s.regs).toNat }
  | load r disp, s =>
      { s with
        regs := Function.update s.regs r (BitVec.ofNat _ (read s.mem (s.regs sp + disp) width)) }

def run (sp : R) (accesses : List (Access R width)) (s : State R width) : State R width :=
  accesses.foldl (fun s a => exec sp a s) s

/-- The cell that the step writes, with what it writes. -/
def wrote (sp : R) : Access R width → State R width → Option (Cell (BitVec (width * 8)) × Nat)
  | step (.push o), s => some (⟨s.regs sp - width, width⟩, (o.value s.regs).toNat)
  | store disp o, s => some (⟨s.regs sp + disp, width⟩, (o.value s.regs).toNat)
  | _, _ => none

variable {sp : R} {a : Access R width} {before after : List (Access R width)} {s : State R width}

@[simp] theorem run_nil : run sp [] s = s := rfl

@[simp] theorem run_cons : run sp (a :: after) s = run sp after (exec sp a s) := rfl

@[simp] theorem run_append : run sp (before ++ after) s = run sp after (run sp before s) :=
  List.foldl_append

theorem exec_mem : (exec sp a s).mem = storeAll (a.wrote sp s).toList s.mem := by
  cases a with
  | step b => cases b <;> rfl
  | store disp o => rfl
  | load r disp => rfl

/-- A word that the step does not write over stays in memory. -/
theorem read_exec {x : BitVec (width * 8)}
    (apart : ∀ c ∈ a.wrote sp s, ¬ c.1.Overlaps ⟨x, width⟩) :
    read (exec sp a s).mem x width = read s.mem x width := by
  rw [exec_mem]
  apply read_congr
  intro k below
  apply storeAll_outside
  intro c member has
  exact apart c (Option.mem_toList.mp member) ⟨_, has, k, below, rfl⟩

end Access

end StackMachine
