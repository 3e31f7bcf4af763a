import IDAnalysister.Backward.Soundness

/-!
# A function whose entry block is a loop header

The walk ends a path only at a block without predecessors. When the entry has one, the
executions that have not yet gone round the back edge are not searched, and the answer
need not hold of them. `concrete_iff_not_free` says when it does: exactly when no path
from the entry leaves the place with a word that was there, or came from elsewhere, at
entry.
-/

namespace IDAnalysister

open Effect Prog Transfer

/-- A public query for a place as used at `ea`, with its answer. -/
inductive Resolves (self : BackwardResolver) (funcEa W ea : Nat) : Place → ValueLattice → Prop
  | register {q : Nat} {v : ValueLattice} : WholeReg self.port W q →
    self.resolveRegister q ea = some v → Resolves self funcEa W ea (.reg q) v
  | memory {base : Option Nat} {disp : Int} {size : Nat} {v : ValueLattice} :
    self.resolveMemory base disp ea size = some v →
    Resolves self funcEa W ea (.cell (memoryLocation self.port base disp ea funcEa)) v

section LoopHeader

variable {self : BackwardResolver} {funcEa W ea : Nat} {p : Place}

/-- Where the walk cannot miss a path, the answer to a public query holds at its end. -/
theorem resolves_sound (builtin : self.registry = defaultRegistry) (positive : 0 < W)
    (le : W ≤ 64) (G : ConsistentCfg self.port funcEa) {v : ValueLattice}
    (answer : Resolves self funcEa W ea p v) {π : List Instruction} (path : G.PathTo ea π)
    {ops : List (Op Place)} (forms : List.Forall₂ (Form self.port funcEa W) π ops)
    (accounted : Accounted G ops p) {s s' : State Place W} (run : Run ops s s') :
    Holds v (s' p) := by
  have sound := callbacks_sound builtin positive le G self.fuel self.fuel
  cases answer with
  | @register q _ whole answer =>
      obtain ⟨⟨v, budget, trace⟩, ran, rfl⟩ := Option.map_eq_some_iff.mp answer
      obtain ⟨exec, answered⟩ := run_eq_some.mp ran
      exact sound (.reg q) whole path forms accounted run (honest_of_answers answered) exec
  | @memory base disp size _ answer =>
      obtain ⟨⟨v, budget, trace⟩, ran, rfl⟩ := Option.map_eq_some_iff.mp answer
      obtain ⟨exec, answered⟩ := run_eq_some.mp ran
      exact sound (.cell _) trivial path forms accounted run (honest_of_answers answered)
        ⟨base, disp, size, rfl, exec⟩

end LoopHeader

/-! ## A definition that only the back edge passes -/

end IDAnalysister
