import IDAnalysister.Locators.Base

/-!
# The built-in locators

The thirteen instruction forms of `locators/*_locators.py` and the registry that
`default_registry` builds from them. Ten of them test a mnemonic and the shapes of
operands 0 and 1, so their `accepts` is `acceptsPair` at their own mnemonics and
shapes.
-/

namespace IDAnalysister

open Effect Extraction

/-! ## Shared helpers (`locators/_common.py`) -/

/-- Wrap to the unsigned bit pattern of a register of `sizeBytes`; 8 bytes when the
operand could not be sized. -/
def wrapToWidth (value : Int) (sizeBytes : Nat) : Int :=
  let width := if 0 < sizeBytes ∧ sizeBytes ≤ 8 then sizeBytes else 8
  value % 2 ^ (width * 8)

/-- The reason why a memory operand names no single address, if it does not. -/
def unsupportedAddressShape (op : Operand) : Option ValueLattice :=
  match op.indexReg with
  | some index =>
      some (.unknown .unsupportedOperandShape
        ("indexed addressing [base+reg" ++ toString index ++ "*" ++ toString op.scale ++
          "] has no single static address"))
  | none =>
      if op.hasSegment then
        some (.unknown .unsupportedOperandShape
          (op.segmentName.getD "" ++
            ":-relative address has no statically known linear equivalent"))
      else none

/-- Resolve the value a memory operand of any shape refers to. -/
def loadMemoryOperand (port : IdaPort) (op : Operand) (beforeEa : Nat) :
    Prog Callback ValueLattice :=
  match unsupportedAddressShape op with
  | some rejected => .pure rejected
  | none =>
      let size := if op.dtypeSize = 0 then port.pointerSize else op.dtypeSize
      if direct : op.kind = .memDirect then
        resolveMemory none (op.addr.get (op.addr_isSome direct)) beforeEa size
      else if op.kind = .memPhrase ∨ op.kind = .memDispl then
        match op.reg with
        | none => .pure (.unknown' .unsupportedOperandShape)
        | some base => resolveMemory (some base) op.disp beforeEa size
      else .pure (.unknown' .unsupportedOperandShape)

theorem loadMemoryOperand_total (port : IdaPort) (op : Operand) (beforeEa : Nat) :
    (loadMemoryOperand port op beforeEa).Total := by
  unfold loadMemoryOperand
  split
  · exact .pure _
  · dsimp only
    split
    · exact .call fun _ => .pure _
    · split
      · split
        · exact .pure _
        · exact .call fun _ => .pure _
      · exact .pure _

/-- Operands 0 and 1 exist and have the given shape, and the mnemonic is one of the
locator's. -/
def acceptsPair (mnems : List String) (shape : Operand → Operand → Bool) (i : Instruction) :
    Option Bool :=
  if i.mnem ∈ mnems then
    match i.operand 0, i.operand 1 with
    | some dst, some src => some (shape dst src)
    | _, _ => some false
  else some false

theorem acceptsPair_eq_true {mnems : List String} {shape : Operand → Operand → Bool}
    {i : Instruction} : acceptsPair mnems shape i = some true ↔
      i.mnem ∈ mnems ∧ ∃ dst src, i.operand 0 = some dst ∧ i.operand 1 = some src ∧
        shape dst src = true := by
  unfold acceptsPair
  split
  · rename_i member
    cases i.operand 0 <;> cases i.operand 1 <;> simp [member]
  · rename_i absent
    simp [absent]

/-- Continue with one operand; an absent one raises. -/
def withOperand (i : Instruction) (number : Nat) (f : Operand → Extraction) : Extraction :=
  match i.operand number with
  | some op => f op
  | none => raised

theorem withOperand_some {i : Instruction} {number : Nat} {op : Operand} {f : Operand → Extraction}
    (present : i.operand number = some op) : withOperand i number f = f op := by
  rw [withOperand, present]

theorem withOperand_total {i : Instruction} {number : Nat} {f : Operand → Extraction}
    (each : ∀ op, (f op).Total) : (withOperand i number f).Total := by
  unfold withOperand
  split
  · exact each _
  · exact .pure _

/-- Continue a forward transfer with operands 0 and 1; an absent one raises. -/
def withOperands (i : Instruction) (s : AbstractState)
    (f : Operand → Operand → Except AbstractState AbstractState) :
    Except AbstractState AbstractState :=
  match i.operand 0, i.operand 1 with
  | some dst, some src => f dst src
  | _, _ => .error s

/-- The signed amount `add`/`sub` adds, when the immediate is present. -/
def addSubDelta (i : Instruction) (src : Operand) : Option Int :=
  src.immValue.map fun n => if i.mnem = "add" then n else -n

def moveMnemonics : List String := ["mov", "movzx", "movsx", "movsxd"]

/-! ## Register destinations (`register_locators.py`) -/

/-- `mov reg, reg2` and the widening moves: the value is passed through. -/
def movRegReg : Locator where
  name := "mov_reg_reg"
  accepts := acceptsPair moveMnemonics fun dst src => dst.kind = .reg ∧ src.kind = .reg
  extract _ _ i _ := withOperand i 1 fun src => do
    let value ← resolveRegister src.reg i.ea
    resolved value
  applyForward := some fun i s => withOperands i s fun dst src =>
    .ok (s.setRegister dst.reg (s.getRegister src.reg))
  extract_total _ _ _ _ := withOperand_total fun _ => .call fun _ => .pure _

/-- `mov reg, imm`. -/
def movRegImm : Locator where
  name := "mov_reg_imm"
  accepts := acceptsPair ["mov"] fun dst src => dst.kind = .reg ∧ src.kind = .immediate
  extract _ _ i _ := withOperand i 1 fun src => resolved (.concrete (.ofOption src.immValue) .int)
  applyForward := some fun i s => withOperands i s fun dst src =>
    .ok (s.setRegister dst.reg (.concrete (.ofOption src.immValue) .int))
  extract_total _ _ _ _ := withOperand_total fun _ => .pure _

/-- `lea reg, [absolute]`: the address itself. -/
def leaRegAddr : Locator where
  name := "lea_reg_addr"
  accepts := acceptsPair ["lea"] fun dst src => dst.kind = .reg ∧ src.kind = .memDirect
  extract _ _ i _ := withOperand i 1 fun src => resolved (.concrete (.ofOption src.addr) .pointer)
  applyForward := some fun i s => withOperands i s fun dst src =>
    .ok (s.setRegister dst.reg (.concrete (.ofOption src.addr) .pointer))
  extract_total _ _ _ _ := withOperand_total fun _ => .pure _

/-- `xchg reg1, reg2`: each operand takes the other's value. -/
def xchgRegReg : Locator where
  name := "xchg_reg_reg"
  accepts := acceptsPair ["xchg"] fun a b => a.kind = .reg ∧ b.kind = .reg
  extract _ _ i dest :=
    -- `instr.operand(1 - dest_operand)`: a negative number names no operand
    match if dest ≤ 1 then i.operand (1 - dest) else none with
    | none => .pure (some .notApplicable)
    | some other =>
        if other.kind = .reg then do
          let value ← resolveRegister other.reg i.ea
          resolved value
        else .pure (some .notApplicable)
  applyForward := some fun i s => withOperands i s fun a b =>
    .ok ((s.setRegister a.reg (s.getRegister b.reg)).setRegister b.reg (s.getRegister a.reg))
  extract_total _ _ i dest := by
    split
    · exact .pure _
    · split
      · exact .call fun _ => .pure _
      · exact .pure _

/-- `cmovCC reg, src`: both outcomes are possible, so backward it resolves to nothing
and forward it joins them. -/
def cmovRegReg : Locator where
  name := "cmov_reg_reg"
  accepts i :=
    if startsWith i.mnem "cmov" then
      match i.operand 0, i.operand 1 with
      | some dst, some _ => some (dst.kind = .reg)
      | _, _ => some false
    else some false
  extract _ _ i _ :=
    resolved (.unknown .divergentPaths
      (i.mnem ++ " at " ++ hex i.ea ++ ": condition not statically evaluable"))
  applyForward := some fun i s => withOperands i s fun dst src =>
    .ok (s.setRegister dst.reg ((s.getRegister dst.reg).join (s.getRegister src.reg)))
  extract_total _ _ _ _ := .pure _

/-! ## Memory cells (`immediate_locators.py`, `memory_locators.py`, `stack_locators.py`) -/

/-- `mov [mem], imm`. -/
def movMemImm : Locator where
  name := "mov_mem_imm"
  accepts := acceptsPair ["mov"] fun dst src => dst.isMemory ∧ src.kind = .immediate
  extract _ _ i _ := withOperand i 1 fun src => resolved (.concrete (.ofOption src.immValue) .int)
  extract_total _ _ _ _ := withOperand_total fun _ => .pure _

/-- `mov reg, [mem]` and the widening loads. -/
def movRegMem : Locator where
  name := "mov_reg_mem"
  accepts := acceptsPair moveMnemonics fun dst src => dst.kind = .reg ∧ src.isMemory
  extract port _ i _ := withOperand i 1 fun src =>
    (loadMemoryOperand port src i.ea).bind resolved
  extract_total port _ i _ := withOperand_total fun src =>
    (loadMemoryOperand_total port src i.ea).bind fun _ => .pure _

/-- `push X` for any operand shape. -/
def pushLocator : Locator where
  name := "push"
  accepts i := some (i.mnem = "push" ∧ (i.operand 0).isSome)
  extract port _ i _ := withOperand i 0 fun op =>
    if op.kind = .reg then do
      let value ← resolveRegister op.reg i.ea
      resolved value
    else if op.kind = .immediate then resolved (.concrete (.ofOption op.immValue) .int)
    else if op.isMemory then (loadMemoryOperand port op i.ea).bind resolved
    else .pure (some .notApplicable)
  extract_total port _ i _ := withOperand_total fun op => by
    split
    · exact .call fun _ => .pure _
    · split
      · exact .pure _
      · split
        · exact (loadMemoryOperand_total port op i.ea).bind fun _ => .pure _
        · exact .pure _

/-- `mov [mem], reg`. -/
def movMemReg : Locator where
  name := "mov_mem_reg"
  accepts := acceptsPair ["mov"] fun dst src => dst.isMemory ∧ src.kind = .reg
  extract _ _ i _ := withOperand i 1 fun src => do
    let value ← resolveRegister src.reg i.ea
    resolved value
  extract_total _ _ _ _ := withOperand_total fun _ => .call fun _ => .pure _

/-! ## Calls and arithmetic (`call_return_locators.py`, `arithmetic_locators.py`) -/

/-- A call defines the return register as a symbol that names the call. -/
def callReturn : Locator where
  name := "call_return"
  accepts i := some i.isCall
  extract _ _ i _ := resolved (.symbolic ("ret(" ++ hex i.ea ++ ")"))
  extract_total _ _ _ _ := .pure _

/-- What `lea` makes of the value of its base register. -/
def leaValue (base : ValueLattice) (disp : Int) (size : Nat) : ValueLattice :=
  match base.intOf with
  | none => if base.isKnown then .unknown' .unsupportedOperandShape else base
  | some n => .concrete (.int (wrapToWidth (n + disp) size)) .pointer

/-- `lea reg, [base+disp]` without an index. -/
def leaRegDispl : Locator where
  name := "lea_reg_displ"
  accepts := acceptsPair ["lea"] fun dst src =>
    dst.kind = .reg ∧ (src.kind = .memDispl ∨ src.kind = .memPhrase) ∧ src.reg.isSome ∧
      ¬ src.hasIndex
  extract _ _ i _ := withOperand i 0 fun dst => withOperand i 1 fun src => do
    let base ← resolveRegister src.reg i.ea
    resolved (leaValue base src.disp dst.dtypeSize)
  applyForward := some fun i s => withOperands i s fun dst src =>
    if (src.kind = .memDispl ∨ src.kind = .memPhrase) ∧ src.reg.isSome then
      .ok (s.setRegister dst.reg (leaValue (s.getRegister src.reg) src.disp dst.dtypeSize))
    else .ok (s.invalidateRegister dst.reg .unsupportedInstruction)
  extract_total _ _ _ _ := withOperand_total fun _ => withOperand_total fun _ =>
    .call fun _ => .pure _

/-- `add reg, imm` / `sub reg, imm`. Backward, a known prior value that is not an
integer is passed through; forward, it becomes unknown. -/
def addSubRegImm : Locator where
  name := "add_sub_reg_imm"
  accepts := acceptsPair ["add", "sub"] fun dst src => dst.kind = .reg ∧ src.kind = .immediate
  extract _ _ i _ := withOperand i 0 fun dst => withOperand i 1 fun src => do
    let prior ← resolveRegister dst.reg i.ea
    match prior.intOf with
    | none => resolved prior
    | some n =>
        match addSubDelta i src with
        | none => raised
        | some delta => resolved (.concrete (.int (wrapToWidth (n + delta) dst.dtypeSize)) .int)
  applyForward := some fun i s => withOperands i s fun dst src =>
    let prior := s.getRegister dst.reg
    match prior.intOf with
    | none =>
        .ok (s.setRegister dst.reg
          (if prior.isKnown then .unknown' .unsupportedOperandShape else prior))
    | some n =>
        match addSubDelta i src with
        | none => .error s
        | some delta =>
            .ok (s.setRegister dst.reg
              (.concrete (.int (wrapToWidth (n + delta) dst.dtypeSize)) .int))
  extract_total _ _ i _ := withOperand_total fun dst => withOperand_total fun src =>
    .call fun prior => by
      simp only [Prog.bind_pure_left]
      split
      · exact .pure _
      · split
        · exact .pure _
        · exact .pure _

/-- `xor reg, reg` / `sub reg, reg`: zero whatever the register held. -/
def zeroIdiom : Locator where
  name := "zero_idiom"
  accepts := acceptsPair ["xor", "sub"] fun dst src =>
    dst.kind = .reg ∧ src.kind = .reg ∧ dst.reg = src.reg
  extract _ _ _ _ := resolved (.concrete (.int 0) .int)
  applyForward := some fun i s =>
    match i.operand 0 with
    | some dst => .ok (s.setRegister dst.reg (.concrete (.int 0) .int))
    | none => .error s
  extract_total _ _ _ _ := .pure _

/-! ## What the extractions ask for -/

section Extract

variable {port : IdaPort} {fe : Option Nat} {i : Instruction} {dest : Nat} {dst src : Operand}

theorem movRegReg_extract (h1 : i.operand 1 = some src) :
    movRegReg.extract port fe i dest =
      .call (.resolveRegister src.reg i.ea) fun value => resolved value :=
  withOperand_some h1

theorem movRegImm_extract (h1 : i.operand 1 = some src) :
    movRegImm.extract port fe i dest = resolved (.concrete (.ofOption src.immValue) .int) :=
  withOperand_some h1

theorem leaRegAddr_extract (h1 : i.operand 1 = some src) :
    leaRegAddr.extract port fe i dest = resolved (.concrete (.ofOption src.addr) .pointer) :=
  withOperand_some h1

theorem xchgRegReg_extract {other : Operand}
    (known : (if dest ≤ 1 then i.operand (1 - dest) else none) = some other)
    (reg : other.kind = .reg) :
    xchgRegReg.extract port fe i dest =
      .call (.resolveRegister other.reg i.ea) fun value => resolved value := by
  simp only [xchgRegReg, known, if_pos reg]
  rfl

theorem movMemImm_extract (h1 : i.operand 1 = some src) :
    movMemImm.extract port fe i dest = resolved (.concrete (.ofOption src.immValue) .int) :=
  withOperand_some h1

theorem movRegMem_extract (h1 : i.operand 1 = some src) :
    movRegMem.extract port fe i dest = (loadMemoryOperand port src i.ea).bind resolved :=
  withOperand_some h1

theorem pushLocator_extract_reg (h0 : i.operand 0 = some src) (reg : src.kind = .reg) :
    pushLocator.extract port fe i dest =
      .call (.resolveRegister src.reg i.ea) fun value => resolved value :=
  (withOperand_some h0).trans (if_pos reg)

theorem movMemReg_extract (h1 : i.operand 1 = some src) :
    movMemReg.extract port fe i dest =
      .call (.resolveRegister src.reg i.ea) fun value => resolved value :=
  withOperand_some h1

theorem leaRegDispl_extract (h0 : i.operand 0 = some dst) (h1 : i.operand 1 = some src) :
    leaRegDispl.extract port fe i dest =
      .call (.resolveRegister src.reg i.ea) fun base =>
        resolved (leaValue base src.disp dst.dtypeSize) :=
  (withOperand_some h0).trans (withOperand_some h1)

end Extract

/-! ## The default registry -/

/-- `default_registry`: each module registers its locators in turn. -/
def defaultRegistry : LocatorRegistry :=
  let r : LocatorRegistry := {}
  let r := ((((r.register movRegReg).register movRegImm).register leaRegAddr).register
    xchgRegReg).register cmovRegReg
  let r := r.register movMemImm
  let r := r.register movRegMem
  let r := (r.register pushLocator).register movMemReg
  let r := r.register callReturn
  ((r.register leaRegDispl).register addSubRegImm).register zeroIdiom 1

/-- The built-in locators in dispatch order: the zero idiom is tried first. -/
def builtins : List Locator :=
  [zeroIdiom, movRegReg, movRegImm, leaRegAddr, xchgRegReg, cmovRegReg, movMemImm, movRegMem,
    pushLocator, movMemReg, callReturn, leaRegDispl, addSubRegImm]

theorem defaultRegistry_all : defaultRegistry.all = builtins := rfl

end IDAnalysister
