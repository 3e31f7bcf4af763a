import Mathlib.Tactic.Ring
import IDAnalysister.Backward.Extension

/-!
# The worked extension

`extension_points.py` adds `not reg` to a registry from the outside. The locator keeps its side
of the bargain, so a session that registers it resolves functions that mix complements with
the built-in forms.
-/

namespace IDAnalysister

open Effect Prog Transfer Trace Extraction

/-- `register_example`. -/
def registerExample (registry : LocatorRegistry) : LocatorRegistry := registry.register notLocator

namespace LocatorRegistry

/-- Locators that do not accept an instruction change no match for it. -/
theorem findMatch_append {entries added : List (Int × Locator)} {i : Instruction}
    (others : ∀ e ∈ added, e.2.accepts i ≠ some true) :
    (registerAll (entries ++ added)).findMatch i = (registerAll entries).findMatch i := by
  have none' : (added.filter fun e => e.2.accepts i = some true) = [] := by
    refine List.filter_eq_nil_iff.mpr fun e member => ?_
    simpa using others e member
  rw [findMatch_registerAll, findMatch_registerAll, Priority.find?_table, Priority.find?_table,
    List.filter_append, none', List.append_nil]

/-- A match is the one that there was, or a locator that was added. -/
theorem findMatch_append_cases (entries added : List (Int × Locator)) (i : Instruction) :
    (registerAll (entries ++ added)).findMatch i = (registerAll entries).findMatch i ∨
      ∃ e ∈ added, (registerAll (entries ++ added)).findMatch i = some e.2 ∧
        e.2.accepts i = some true := by
  cases matched : (registerAll (entries ++ added)).findMatch i with
  | none =>
      left
      have refused := findMatch_eq_none_iff.mp matched
      exact (findMatch_eq_none_iff.mpr fun e member =>
        refused e (List.mem_append_left added member)).symm
  | some l =>
      rcases findMatch_eq_some_iff.mp matched with
        ⟨priority, before, after, split, accepted, earlier, later⟩
      rcases List.append_eq_append_iff.mp split with ⟨late, -, rfl⟩ | ⟨early, rfl, rest⟩
      · exact Or.inr ⟨(priority, l), by simp, rfl, accepted⟩
      · cases early with
        | nil =>
            obtain rfl : (priority, l) :: after = added := rest
            exact Or.inr ⟨(priority, l), by simp, rfl, accepted⟩
        | cons e early =>
            obtain ⟨rfl, rfl⟩ := List.cons.inj rest
            left
            refine (findMatch_eq_some_iff.mpr
              ⟨priority, before, early, rfl, accepted, earlier, fun e member => ?_⟩).symm
            exact later e (List.mem_append_left added member)

end LocatorRegistry

theorem registerExample_defaultRegistry : registerExample defaultRegistry =
    LocatorRegistry.registerAll
      (BuiltinModule.all.flatMap BuiltinModule.registerBuiltins ++ [(0, notLocator)]) := by
  rw [defaultRegistry_eq, LocatorRegistry.registerAll, LocatorRegistry.registerAll,
    List.foldl_concat]
  rfl

/-! ## The value of a complement -/

/-- What `NotLocator` makes of the prior value of its register. -/
def complementValue (prior : ValueLattice) (size : Nat) : ValueLattice :=
  match prior.intOf with
  | none => prior
  | some n => .concrete (.int ((-n - 1) % 2 ^ ((if size = 0 then 4 else size) * 8))) .int

theorem notLocator_extract {port : IdaPort} {fe : Option Nat} {i : Instruction} {dest : Nat}
    {dst : Operand} (present : i.operand dest = some dst) :
    notLocator.extract port fe i dest = .call (.resolveRegister dst.reg i.ea) fun prior =>
      resolved (complementValue prior dst.dtypeSize) := by
  refine (withOperand_some present).trans (congrArg (Prog.call _) ?_)
  funext prior
  rw [complementValue, Prog.bind_pure_left]
  cases prior.intOf with
  | none => rfl
  | some n => rfl

/-- The masked complement of an integer is the complement of the word. -/
theorem emod_complement {W : Nat} (x : BitVec W) :
    (-(x.toNat : Int) - 1) % 2 ^ W = ((~~~x).toNat : Int) := by
  have lt := x.isLt
  have split : -(x.toNat : Int) - 1 = ((2 ^ W - 1 - x.toNat : Nat) : Int) + 2 ^ W * -1 := by
    have whole : ((2 ^ W - 1 - x.toNat : Nat) : Int) = 2 ^ W - 1 - x.toNat := by
      rw [Nat.sub_sub, Nat.cast_sub (by omega)]
      push_cast
      ring
    rw [whole]
    ring
  rw [BitVec.toNat_not, split, Int.add_mul_emod_self_left, Int.emod_eq_of_lt (Int.natCast_nonneg _)]
  exact_mod_cast (by omega : 2 ^ W - 1 - x.toNat < 2 ^ W)

theorem holds_complementValue {W size : Nat} {prior : ValueLattice} {x : BitVec W}
    (width : size * 8 = W) (positive : 0 < W) (holds : Holds prior x) :
    Holds (complementValue prior size) (~~~x) := by
  cases known : prior.intOf with
  | none =>
      -- a concrete prior value that holds of a word is an integer
      refine .of_not_concrete (fun d k same => ?_) _
      rw [complementValue, known] at same
      dsimp only at same
      rw [same, holds d k same] at known
      cases known
  | some m =>
      obtain ⟨kind, rfl⟩ := ValueLattice.intOf_eq_some known
      have value := Datum.int.inj (holds _ _ rfl)
      have sized : size ≠ 0 := by omega
      intro d k same
      rw [complementValue, known] at same
      obtain ⟨rfl, -⟩ := ValueLattice.concrete.inj same
      rw [if_neg sized, width, value, emod_complement]

/-! ## Its instruction -/

/-- `not reg` on a whole register. -/
structure NotForm (port : IdaPort) (W : Nat) (i : Instruction) (d : Nat) : Prop where
  mnem : i.mnem = "not"
  operand : ∃ a, i.operands = [a] ∧ a.number = 0 ∧ RegOperand port W a d
  written : i.isWritten 0 = true

namespace NotForm

variable {port : IdaPort} {funcEa W d : Nat} {i : Instruction} {p : Place}

theorem notCall (form : NotForm port W i d) : i.isCall = false :=
  not_isCall_of_mnem form.mnem (by decide)

theorem operand_zero (form : NotForm port W i d) :
    ∃ a, i.operand 0 = some a ∧ RegOperand port W a d := by
  rcases form.operand with ⟨a, operands, number, operand⟩
  exact ⟨a, by simp [Instruction.operand, operands, number], operand⟩

theorem placeFinding (form : NotForm port W i d) (supported : Supported port W p) :
    placeFinding port funcEa i p = if p = .reg d then some (.interpret 0) else none := by
  rcases form.operand with ⟨a, operands, number, operand⟩
  cases p with
  | cell k =>
      refine (memoryFinding_quiet (fun op member memory => ?_) k).trans (by simp)
      rw [operands, List.mem_singleton] at member
      subst member
      rw [Operand.isMemory_of_reg operand.kind] at memory
      cases memory
  | reg q =>
      have whole : ∀ op ∈ i.operands, op.kind = .reg → i.isWritten op.number →
          ∃ r, RegOperand port W op r := by
        intro op member _ _
        rw [operands, List.mem_singleton] at member
        exact ⟨d, member ▸ operand⟩
      rw [IDAnalysister.placeFinding, registerFinding_of_notCall form.notCall,
        registerOperandFinding_whole supported whole, operands]
      by_cases same : d = q
      · simp [List.find?, number, form.written, operand.kind, operand.reg, same]
      · have other : ¬ q = d := fun h => same h.symm
        simp [List.find?, operand.reg, same, other]

end NotForm

/-- A built-in form, or a complement. -/
inductive ExampleStep (port : IdaPort) (funcEa W : Nat) (i : Instruction) (s s' : State Place W) :
    Prop
  | form : FormStep port funcEa W (Supported port W) i s s' → i.mnem ≠ "not" →
    ExampleStep port funcEa W i s s'
  | complement {d : Nat} : NotForm port W i d → s' = Function.update s (.reg d) (~~~s (.reg d)) →
    ExampleStep port funcEa W i s s'

section Explained

variable {self : BackwardResolver} {funcEa W d : Nat} {i : Instruction}

/-- No built-in locator accepts a complement, so the added one is its match. -/
theorem findMatch_notLocator (form : NotForm self.port W i d) :
    (registerExample defaultRegistry).findMatch i = some notLocator := by
  rcases form.operand_zero with ⟨a, zero, operand⟩
  have one : i.operand 1 = none := by
    rcases form.operand with ⟨b, operands, number, -⟩
    simp [Instruction.operand, operands, number]
  have accepted : notLocator.accepts i = some true := by
    simp [notLocator, form.mnem, zero, operand.kind]
  have unknown : builtinForm i = none := by
    rw [builtinForm, form.mnem, zero, one]
    rfl
  rw [registerExample_defaultRegistry]
  refine LocatorRegistry.findMatch_eq_some_iff.mpr ⟨0, _, [], rfl, accepted, ?_, by simp⟩
  intro e member accepts
  rcases List.mem_flatMap.mp member with ⟨m, -, entry⟩
  rw [builtinForm_of_accepts (BuiltinModule.mem_builtins entry) accepts] at unknown
  cases unknown

theorem explains_notForm (registry : self.registry = registerExample defaultRegistry)
    (positive : 0 < W) (form : NotForm self.port W i d) :
    Explains (W := W) self funcEa (Supported self.port W) i
      fun s s' => s' = Function.update s (.reg d) (~~~s (.reg d)) := by
  have matched := findMatch_notLocator form
  rw [← registry] at matched
  refine explains_of_locator matched ?_ ?_
  · rintro p s s' supported missed rfl
    rw [form.placeFinding supported] at missed
    refine Function.update_of_ne (fun same => ?_) _ _
    rw [if_pos same] at missed
    cases missed
  · rintro cb t p dest outcome s s' supported found extraction rfl held
    rw [form.placeFinding supported] at found
    split at found
    · rename_i here
      subst here
      obtain rfl := Finding.interpret.inj (Option.some.inj found)
      rcases form.operand_zero with ⟨a, zero, operand⟩
      rw [notLocator_extract zero, operand.reg] at extraction
      rcases exec_relay (f := fun prior => complementValue prior a.dtypeSize) extraction with
        ⟨t', sub, prior, asked, value⟩
      rw [value, Function.update_self]
      exact holds_complementValue operand.width positive
        (held (.reg d) prior supported ⟨t', sub, asked⟩)
    · cases found

/-- A session with the example explains both kinds of instruction. -/
theorem explains_exampleStep (registry : self.registry = registerExample defaultRegistry)
    (positive : 0 < W) (le : W ≤ 64) :
    Explains self funcEa (Supported self.port W) i (ExampleStep self.port funcEa W i) := by
  have plain (other : i.mnem ≠ "not") : Explains self funcEa (Supported self.port W) i
      (FormStep self.port funcEa W (Supported self.port W) i) := by
    have builtin : Explains { self with registry := defaultRegistry } funcEa
        (Supported self.port W) i (FormStep self.port funcEa W (Supported self.port W) i) :=
      explains_formStep rfl positive le fun _ supported => supported
    have same : self.registry.findMatch i = defaultRegistry.findMatch i := by
      rw [registry, registerExample_defaultRegistry, defaultRegistry_eq]
      refine LocatorRegistry.findMatch_append fun e member => ?_
      obtain rfl := List.mem_singleton.mp member
      simp [notLocator, other]
    exact builtin.congr same
  have each {s s' : State Place W} (step : ExampleStep self.port funcEa W i s s') :
      ∃ effect : State Place W → State Place W → Prop,
        Explains self funcEa (Supported self.port W) i effect ∧ effect s s' := by
    cases step with
    | form moved other => exact ⟨_, plain other, moved⟩
    | complement form moved => exact ⟨_, explains_notForm registry positive form, moved⟩
  constructor
  · intro p s s' supported missed step
    rcases each step with ⟨effect, explains, moved⟩
    exact explains.frame supported missed moved
  · intro cb t p f v s s' supported found run step held
    rcases each step with ⟨effect, explains, moved⟩
    exact explains.sound supported found run moved held

end Explained

namespace Complement

open FakeIdaPort

def setEax : Instruction := insn 0x401000 "mov" 5 [reg 0 0, imm 1 5]

def notEax : Instruction := insn 0x401005 "not" 2 [reg 0 0]

def code : List Instruction := [setEax, notEax, insn 0x401007 "ret" 1 []]

def port : IdaPort := FakeIdaPort.toPort
  { pointerSize := 4
    instructions := code
    funcBounds := [(0x401000, 0x401008)]
    blocks := [(0x401000, [⟨0x401000, 0x401008, [], []⟩])] }

def graph : ConsistentCfg port 0x401000 where
  tile _ := code
  entry := ⟨0x401000, 0x401008, [], []⟩
  entry_mem := by decide
  entry_startEa := rfl
  nonempty := by decide
  disjoint := by decide
  converse := by decide
  tiled := by decide
  decoded := by decide
  heads := by decide
  owner := by decide

theorem along (m : State Place 32) : Along (ExampleStep port 0x401000 32) [setEax, notEax] m
    (Function.update m (.reg 0) (~~~5#32)) := by
  have eax : RegOperand port 32 (reg 0 0) 0 :=
    ⟨rfl, rfl, rfl, FakeIdaPort.wholeReg rfl (by decide)⟩
  have complemented : Function.update m (.reg 0) (~~~5#32) =
      Function.update (Function.update m (.reg 0) 5#32) (.reg 0)
        (~~~(Function.update m (.reg 0) 5#32) (.reg 0)) := by
    rw [Function.update_self, Function.update_idem]
  refine .cons (.form ⟨.const (.reg 0) 5, ?_, fun _ _ _ => False.elim, rfl⟩ (by decide))
    (.cons (.complement ?_ complemented) (.nil _))
  · exact .register (.movImm rfl ⟨rfl, rfl, rfl, rfl, rfl⟩ eax ⟨rfl, rfl, by decide, by decide⟩)
  · exact ⟨rfl, ⟨_, rfl, rfl, eax⟩, rfl⟩

end Complement

end IDAnalysister
