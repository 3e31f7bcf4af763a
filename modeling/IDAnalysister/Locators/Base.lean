import Mathlib.Data.List.Sort
import IDAnalysister.Library.Program
import IDAnalysister.Port
import IDAnalysister.State

/-!
# Locators and their registry

A locator interprets one instruction form (`locators/base.py`). Its backward half,
`extract`, may call back into the resolver that runs it; it is a program over the
callbacks of `ResolutionContext`, so any finite pattern of callbacks is covered and
none is fixed in advance. Its forward half is optional: a locator without one
inherits the default that invalidates what the instruction writes.
-/

namespace IDAnalysister

open Effect

/-- The callbacks of a `ResolutionContext`. -/
inductive CallbackOp
  | resolveRegister (reg : Option Nat) (beforeEa : Nat)
  | resolveMemory (baseReg : Option Nat) (disp : Int) (beforeEa : Nat) (size : Nat)
  | dereference (addr : Int) (size : Nat)

abbrev Callback : Signature := ⟨CallbackOp, fun _ => ValueLattice⟩

inductive LocatorOutcome
  | resolved (value : ValueLattice)
  | notApplicable
  deriving DecidableEq, Repr

/-- What `extract` does: callbacks, then an outcome, or `none` when it raises. -/
abbrev Extraction := Prog Callback (Option LocatorOutcome)

namespace Extraction

def resolveRegister (reg : Option Nat) (beforeEa : Nat) : Prog Callback ValueLattice :=
  Prog.perform (S := Callback) (CallbackOp.resolveRegister reg beforeEa)

def resolveMemory (baseReg : Option Nat) (disp : Int) (beforeEa size : Nat) :
    Prog Callback ValueLattice :=
  Prog.perform (S := Callback) (CallbackOp.resolveMemory baseReg disp beforeEa size)

def resolved (value : ValueLattice) : Extraction := .pure (some (.resolved value))

def raised : Extraction := .pure none

end Extraction

/-- An in-place forward transfer: `error` carries the state a raising locator left. -/
abbrev ForwardTransfer := Instruction → AbstractState → Except AbstractState AbstractState

structure Locator where
  name : String
  /-- `matches`; `none` when it raises. -/
  accepts : Instruction → Option Bool
  extract : IdaPort → Option Nat → Instruction → Nat → Extraction
  /-- `none` when the locator inherits the default `apply_forward`. -/
  applyForward : Option ForwardTransfer := none
  /-- Every extraction returns after finitely many callbacks. -/
  extract_total : ∀ port funcEa i dest, (extract port funcEa i dest).Total

/-- Invalidate every register operand that the instruction writes: the default
`Locator.apply_forward`, and `_invalidate_written_registers` of the engine. -/
def invalidateWrittenRegisters (i : Instruction) (s : AbstractState) : AbstractState :=
  i.operands.foldl
    (fun s op =>
      if op.kind = .reg ∧ i.isWritten op.number then
        s.invalidateRegister op.reg .unsupportedInstruction
      else s) s

/-- `_defines_forward_semantics`. -/
def Locator.definesForwardSemantics (l : Locator) : Bool := l.applyForward.isSome

def Locator.runForward (l : Locator) : ForwardTransfer :=
  l.applyForward.getD fun i s => .ok (invalidateWrittenRegisters i s)

/-! ## The registry -/

/-- The dispatch table, highest priority first. -/
structure LocatorRegistry where
  locators : List (Int × Locator) := []

namespace LocatorRegistry

/-- Append, then sort by descending priority; the sort is stable. -/
def register (r : LocatorRegistry) (l : Locator) (priority : Int := 0) : LocatorRegistry :=
  ⟨(r.locators ++ [(priority, l)]).insertionSort fun a b => b.1 ≤ a.1⟩

/-- The locators in dispatch order. -/
def all (r : LocatorRegistry) : List Locator := r.locators.map (·.2)

/-- The first locator that accepts; one that raises is skipped. -/
def findMatch (r : LocatorRegistry) (i : Instruction) : Option Locator :=
  r.all.find? fun l => l.accepts i = some true

theorem findMatch_accepts {r : LocatorRegistry} {i : Instruction} {l : Locator}
    (h : r.findMatch i = some l) : l.accepts i = some true := by
  simpa using List.find?_some h

theorem findMatch_mem {r : LocatorRegistry} {i : Instruction} {l : Locator}
    (h : r.findMatch i = some l) : l ∈ r.all :=
  List.mem_of_find?_eq_some h

end LocatorRegistry

end IDAnalysister
