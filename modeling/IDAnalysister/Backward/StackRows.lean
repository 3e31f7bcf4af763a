import IDAnalysister.Adapters.FakePort
import IDAnalysister.Backward.Chains
import IDAnalysister.Library.StackMachine

/-!
# Registers in a row of stack instructions

What `resolve_register` reports in a straight line of pushes, pops, moves between registers,
moves of immediates, and additions to the stack pointer. The stack cell that a push writes
and the stack pointer that pushes and pops move are no operands, so the walk does not see
them: with enough budget it reports what is believed (`StackMachine.believed`).
-/

namespace IDAnalysister

open Effect Prog StackMachine

/-! ## The instruction forms -/

/-- The instruction makes the step, with `sp` as the stack pointer and words of `width`
bytes. A pop is flagged as writing its operand, and a push as reading it only. -/
inductive StackForm (port : IdaPort) (sp width : Nat) (i : Instruction) : Step Nat width → Prop
  | pushImm {op : Operand} {n : BitVec (width * 8)} : i.mnem = "push" → i.operands = [op] →
    op.number = 0 → i.isWritten 0 = false → ImmOperand (width * 8) op n.toNat →
    StackForm port sp width i (.push (.imm n))
  | pushReg {op : Operand} {r : Nat} : i.mnem = "push" → i.operands = [op] → op.number = 0 →
    i.isWritten 0 = false → RegOperand port (width * 8) op r →
    StackForm port sp width i (.push (.reg r))
  | pop {op : Operand} {r : Nat} : i.mnem = "pop" → i.operands = [op] → op.number = 0 →
    i.isWritten 0 = true → RegOperand port (width * 8) op r → StackForm port sp width i (.pop r)
  | movImm {a b : Operand} {r : Nat} {n : BitVec (width * 8)} : i.mnem = "mov" →
    Pair i a b true false → RegOperand port (width * 8) a r → ImmOperand (width * 8) b n.toNat →
    StackForm port sp width i (.mov r (.imm n))
  | movReg {a b : Operand} {r q : Nat} : i.mnem = "mov" → Pair i a b true false →
    RegOperand port (width * 8) a r → RegOperand port (width * 8) b q →
    StackForm port sp width i (.mov r (.reg q))
  | add {a b : Operand} {n : BitVec (width * 8)} : i.mnem = "add" → Pair i a b true false →
    RegOperand port (width * 8) a sp → ImmOperand (width * 8) b n.toNat →
    StackForm port sp width i (.add n)
  | sub {a b : Operand} {n : BitVec (width * 8)} : i.mnem = "sub" → Pair i a b true false →
    RegOperand port (width * 8) a sp → ImmOperand (width * 8) b n.toNat →
    StackForm port sp width i (.sub n)

/-- The instructions make the steps, and none of them is a jump. -/
def StackRow (port : IdaPort) (sp width : Nat) (is : List Instruction)
    (steps : List (Step Nat width)) : Prop :=
  List.Forall₂ (fun i step => StackForm port sp width i step ∧ i.isControlTransfer = false) is steps

/-! ## One definition -/

/-- The report for a believed word: the word, or nothing known. -/
def Shows {W : Nat} : Option (BitVec W) → ValueLattice → Prop
  | some x, v => v = .concrete (.int x.toNat) .int
  | none, v => v.isKnown = false

/-- With enough budget and nesting for `n` instructions, the query returns what shows `x`. -/
def Returns {W : Nat} (port : IdaPort) (n : Nat) (x : Option (BitVec W))
    (query : Nat → Nat → Query ValueLattice) : Prop :=
  ∃ v cost, Shows x v ∧ cost ≤ 2 * (n + 1) ∧ ∀ loops depth (b : ResolutionBudget), n < loops →
    n < depth → b.stepsUsed + 2 * (n + 1) ≤ b.maxSteps →
      attempt (handler port) none (query loops depth) b = (some v, b.spend cost)

/-- Registers used at `ea`, behind `n` instructions, are reported as believed. -/
def Believes (self : BackwardResolver) (width n ea : Nat)
    (B : Nat → Option (BitVec (width * 8))) : Prop :=
  ∀ q, WholeReg self.port (width * 8) q →
    Returns self.port n (B q) fun loops depth =>
      (self.callbacks loops depth).resolveRegister (some q) ea

section Definition

variable {self : BackwardResolver} {i : Instruction} {sp width n q : Nat}
variable {step : Step Nat width}

theorem StackForm.not_isCall {port : IdaPort} (form : StackForm port sp width i step) :
    i.isCall = false := by
  have named : i.mnem ∈ ["push", "pop", "mov", "add", "sub"] := by
    cases form with
    | pushImm mnem => simp [mnem]
    | pushReg mnem => simp [mnem]
    | pop mnem => simp [mnem]
    | movImm mnem => simp [mnem]
    | movReg mnem => simp [mnem]
    | add mnem => simp [mnem]
    | sub mnem => simp [mnem]
  have other : ∀ m ∈ ["push", "pop", "mov", "add", "sub"], startsWith m "call" = false := by decide
  exact other i.mnem named

theorem StackForm.finding {port : IdaPort} (form : StackForm port sp width i step)
    (whole : WholeReg port (width * 8) q) :
    registerFinding port i q = if step.Sets sp q then some (.interpret 0) else none := by
  have notCall := form.not_isCall
  cases form with
  | pushImm mnem operands number flag =>
      rw [registerFinding_of_notCall notCall, operands]
      simp [registerOperandFinding, number, flag, Step.Sets]
  | pushReg mnem operands number flag =>
      rw [registerFinding_of_notCall notCall, operands]
      simp [registerOperandFinding, number, flag, Step.Sets]
  | @pop op r mnem operands number flag operand =>
      rw [registerFinding_of_notCall notCall, operands,
        registerOperandFinding_whole whole fun op' member _ _ => ⟨r, by
          rwa [List.mem_singleton.mp member]⟩]
      by_cases same : r = q
      · simp [operand.kind, operand.reg, number, flag, same, Step.Sets]
      · simp [operand.reg, same, Step.Sets]
  | movImm mnem pair dest => exact registerFinding_dest notCall pair dest whole
  | movReg mnem pair dest => exact registerFinding_dest notCall pair dest whole
  | add mnem pair dest => exact registerFinding_dest notCall pair dest whole
  | sub mnem pair dest => exact registerFinding_dest notCall pair dest whole

/-- Adding to a reported word is adding to the word. -/
theorem Shows.addSub {W size : Nat} (bits : size * 8 = W) (positive : 0 < W) (le : W ≤ 64)
    {x : Option (BitVec W)} {v : ValueLattice} (shows' : Shows x v) (delta : Int) :
    Shows (x.map (· + BitVec.ofInt W delta)) (addSubValue v delta size) := by
  cases x with
  | none =>
      rcases ValueLattice.isKnown_eq_false shows' with ⟨reason, detail, rfl⟩
      rfl
  | some x =>
      obtain rfl : v = .concrete (.int x.toNat) .int := shows'
      change ValueLattice.concrete (.int (wrapToWidth ((x.toNat : Int) + delta) size)) .int = _
      rw [wrapToWidth_add bits positive le]

/-- A register that a step sets is reported as the step sets what is believed. -/
theorem StackForm.returns (builtin : self.registry = defaultRegistry) (positive : 0 < width)
    (narrow : width ≤ 8) (form : StackForm self.port sp width i step) (sets : step.Sets sp q)
    {B : Nat → Option (BitVec (width * 8))} (believes : Believes self width n i.ea B)
    (funcEa : Nat) : Returns self.port n (believe sp step B q) fun loops depth =>
      self.settle (self.callbacks loops depth) i funcEa (.interpret 0) := by
  cases form with
  | pushImm => exact sets.elim
  | pushReg => exact sets.elim
  | pop mnem =>
      obtain rfl := sets
      have unmatched := findMatch_pop mnem
      rw [← builtin] at unmatched
      refine ⟨.unknown .unsupportedInstruction (i.mnem ++ " at " ++ hex i.ea), 0, ?_, Nat.zero_le _,
        ?_⟩
      · rw [believe, Function.update_self]
        rfl
      · intro loops depth b _ _ _
        change attempt _ none (self.interpretDefinition _ i 0 _) b = _
        rw [BackwardResolver.interpretDefinition, unmatched]
        rfl
  | @movImm a b r n' mnem pair dest imm =>
      obtain rfl := sets
      have decides := decides_movImm builtin mnem pair dest.kind imm.kind imm.value funcEa
      rw [believe, Function.update_self]
      exact Yields.of_decides decides rfl
  | @movReg a b r p mnem pair dest src =>
      obtain rfl := sets
      have move : i.mnem ∈ moveMnemonics := by simp [mnem, moveMnemonics]
      rw [believe, Function.update_self]
      exact Reports.copied believes builtin move pair dest.kind src.kind src.reg src.whole
        fun v value => value
  | @add a b n' mnem pair dest imm =>
      obtain rfl := sets
      rw [believe, Function.update_self]
      refine Reports.added believes builtin (Or.inl mnem) pair dest imm (if_pos mnem)
        fun v value => ?_
      have shifted := Shows.addSub dest.width (by omega) (by omega) value n'.toNat
      rwa [BitVec.ofInt_natCast, BitVec.ofNat_toNat, BitVec.setWidth_eq] at shifted
  | @sub a b n' mnem pair dest imm =>
      obtain rfl := sets
      have other : i.mnem ≠ "add" := by
        rw [mnem]
        decide
      rw [believe, Function.update_self]
      refine Reports.added believes builtin (Or.inr mnem) pair dest imm (if_neg other)
        fun v value => ?_
      have shifted := Shows.addSub dest.width (by omega) (by omega) value (-n'.toNat)
      rw [BitVec.ofInt_neg, BitVec.ofInt_natCast, BitVec.ofNat_toNat,
        BitVec.setWidth_eq] at shifted
      simpa only [sub_eq_add_neg] using shifted

end Definition

/-! ## A row of definitions -/

section Row

variable {self : BackwardResolver} {is : List Instruction} {sp width use : Nat}
variable {steps : List (Step Nat width)}

theorem stackChain (builtin : self.registry = defaultRegistry) (positive : 0 < width)
    (narrow : width ≤ 8) : Chain self (width * 8)
      (fun i step => StackForm self.port sp width i step ∧ i.isControlTransfer = false)
      (believe sp) Shows none where
  unset := rfl
  each := by
    intro pre ts i step _ form line q whole
    have finding := form.1.finding whole
    by_cases sets : step.Sets sp q
    · rw [if_pos sets] at finding
      exact Or.inr ⟨_, finding, fun B believes =>
        form.1.returns builtin positive narrow sets believes line.funcEa⟩
    · rw [if_neg sets] at finding
      exact Or.inl ⟨finding, fun B => believe_of_other sets⟩

/-- With enough budget, registers used behind the row are reported as believed. -/
theorem StackRow.believes (builtin : self.registry = defaultRegistry) (positive : 0 < width)
    (narrow : width ≤ 8) (row : StackRow self.port sp width is steps)
    (line : StraightLine self.port is use) :
    Believes self width is.length use (believed sp steps) :=
  (stackChain builtin positive narrow).reports row line

end Row

/-! ## The row of any steps -/

/-- The step as an instruction at a given address. -/
def stackStepAt (sp width : Nat) : Step Nat width → Nat → Instruction
  | .push (.imm n), ea => FakeIdaPort.push ea 1 (FakeIdaPort.imm 0 n.toNat width)
  | .push (.reg r), ea => FakeIdaPort.push ea 1 (FakeIdaPort.reg 0 r width)
  | .pop r, ea => FakeIdaPort.insn ea "pop" 1 [FakeIdaPort.reg 0 r width]
  | .mov r (.imm n), ea =>
      FakeIdaPort.insn ea "mov" 1 [FakeIdaPort.reg 0 r width, FakeIdaPort.imm 1 n.toNat width]
  | .mov r (.reg q), ea =>
      FakeIdaPort.insn ea "mov" 1 [FakeIdaPort.reg 0 r width, FakeIdaPort.reg 1 q width]
  | .add n, ea =>
      FakeIdaPort.insn ea "add" 1 [FakeIdaPort.reg 0 sp width, FakeIdaPort.imm 1 n.toNat width]
  | .sub n, ea =>
      FakeIdaPort.insn ea "sub" 1 [FakeIdaPort.reg 0 sp width, FakeIdaPort.imm 1 n.toNat width]

section Build

variable {port : IdaPort} {sp width : Nat}

theorem stackStepAt_placed (step : Step Nat width) (ea : Nat) :
    (stackStepAt sp width step ea).ea = ea ∧ (stackStepAt sp width step ea).size = 1 := by
  cases step with
  | push o => cases o <;> exact ⟨rfl, rfl⟩
  | pop r => exact ⟨rfl, rfl⟩
  | mov r o => cases o <;> exact ⟨rfl, rfl⟩
  | add n => exact ⟨rfl, rfl⟩
  | sub n => exact ⟨rfl, rfl⟩

theorem stackStepAt_unitSized (sp width : Nat) (steps : List (Step Nat width)) :
    UnitSized (steps.map (stackStepAt sp width)) := by
  intro f member ea
  rcases List.mem_map.mp member with ⟨step, -, rfl⟩
  exact stackStepAt_placed step ea

theorem stackStepAt_form (blank : ∀ r size, port.registerView r size = none)
    (step : Step Nat width) (ea : Nat) :
    StackForm port sp width (stackStepAt sp width step ea) step ∧
      (stackStepAt sp width step ea).isControlTransfer = false := by
  have whole (r : Nat) : WholeReg port (width * 8) r := by
    intro size view _ found
    rw [blank] at found
    cases found
  have register (number r : Nat) :
      RegOperand port (width * 8) (FakeIdaPort.reg number r width) r := ⟨rfl, rfl, rfl, whole r⟩
  have immediate (number : Nat) (n : BitVec (width * 8)) :
      ImmOperand (width * 8) (FakeIdaPort.imm number n.toNat width) n.toNat :=
    ⟨rfl, rfl, Int.natCast_nonneg _, by exact_mod_cast n.isLt⟩
  cases step with
  | push o =>
      cases o with
      | imm n => exact ⟨.pushImm rfl rfl rfl rfl (immediate 0 n), rfl⟩
      | reg r => exact ⟨.pushReg rfl rfl rfl rfl (register 0 r), rfl⟩
  | pop r => exact ⟨.pop rfl rfl rfl rfl (register 0 r), rfl⟩
  | mov r o =>
      cases o with
      | imm n => exact ⟨.movImm rfl ⟨rfl, rfl, rfl, rfl, rfl⟩ (register 0 r) (immediate 1 n), rfl⟩
      | reg q => exact ⟨.movReg rfl ⟨rfl, rfl, rfl, rfl, rfl⟩ (register 0 r) (register 1 q), rfl⟩
  | add n => exact ⟨.add rfl ⟨rfl, rfl, rfl, rfl, rfl⟩ (register 0 sp) (immediate 1 n), rfl⟩
  | sub n => exact ⟨.sub rfl ⟨rfl, rfl, rfl, rfl, rfl⟩ (register 0 sp) (immediate 1 n), rfl⟩

end Build

end IDAnalysister
