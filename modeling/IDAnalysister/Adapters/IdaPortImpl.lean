import IDAnalysister.Adapters.OperandDecode
import IDAnalysister.Adapters.StringReads
import IDAnalysister.Conventions
import Mathlib.Data.List.Dedup

/-!
# The adapter over a database

`IdaPortImpl` (`adapters/ida_port_impl.py`): the port over the `ida_*` modules. `IdaApi` is what
it asks of them, `none` where a call raises. A member of the port that is met by an exception
answers its default, and nothing it calls is retried.
-/

namespace IDAnalysister

/-! ## What the adapter asks for -/

/-- The fields of an `insn_t` that the conversion reads. -/
structure RawInsn extends IdaInsn where
  ea : Nat
  size : Nat
  /-- `get_canon_mnem()`. -/
  canonMnem : Option String
  /-- `get_canon_feature()`. -/
  canonFeature : Nat
  ops : Fin 8 → IdaOp

/-- The feature bits of `ida_idp`: `CF_CHG1` to `CF_CHG8`, `CF_USE1` to `CF_USE8` and those of
control transfers. -/
structure FeatureBits where
  chg : Fin 8 → Nat
  use : Fin 8 → Nat
  call : Nat
  jump : Nat
  stop : Nat

/-- `xref.type`. -/
inductive XrefType
  | callNear
  | callFar
  | jumpNear
  | jumpFar
  /-- Ordinary flow, or a reference to data. -/
  | other
  deriving DecidableEq

structure Xref where
  type : XrefType
  frm : Nat

/-- A `func_t`. -/
structure IdaFunc where
  startEa : Nat
  endEa : Nat

/-- A block of `ida_gdl.FlowChart`, with the start addresses of the blocks that it yields as its
successors and predecessors. -/
structure FlowBlock where
  startEa : Nat
  endEa : Nat
  succs : List Nat
  preds : List Nat

/-- An `argloc_t`. -/
inductive ArgLoc
  | reg1 (reg : Nat)
  | reg2 (reg : Nat)
  | stkoff (offset : Int)
  /-- Scattered, register-relative or custom. -/
  | unsupported

structure FuncDetails where
  cc : Nat
  args : List ArgLoc

/-- A `tinfo_t`. -/
structure TypeInfo where
  isFunc : Bool
  /-- `get_func_details`; `none` when it fails. -/
  details : Option FuncDetails

/-- The constants of `ida_typeinf`. -/
structure CallingConventions where
  mask : Nat
  cdecl : Nat
  stdcall : Nat
  pascal : Nat
  fastcall : Nat
  thiscall : Nat
  swift : Nat
  golang : Nat

/-- A `bitrange_t`. -/
structure BitRange where
  bitOff : Nat
  bitSize : Nat

structure IdaApi where
  features : FeatureBits
  conventions : CallingConventions
  bytes : IdaBytes
  /-- `none` inside when the length is not positive. -/
  decodeInsn : Nat → Option (Option RawInsn)
  /-- `none` inside for `BADADDR`. -/
  prevHead : Nat → Nat → Option (Option Nat)
  xrefsTo : Nat → Option (List Xref)
  getFunc : Nat → Option (Option IdaFunc)
  flowChart : IdaFunc → Option (List FlowBlock)
  getSpd : IdaFunc → Nat → Option Int
  is64bit : Option Bool
  is32bit : Option Bool
  str2reg : String → Option Int
  getRegName : Nat → Nat → Option (Option String)
  /-- The name of the parent and the part of it. -/
  getRegInfo : String → Option (Option (String × BitRange))
  getTinfo : Nat → Option (Option TypeInfo)
  guessTinfo : Nat → Option (Option TypeInfo)

/-- `_safe`: the default when the call raises. -/
def safe {α : Type} (default : α) (call : Option α) : α := call.getD default

/-- A text that is neither absent nor empty. -/
def truthy (text : Option String) : Option String := text.filter (· ≠ "")

/-- `tuple(sorted(set(…)))`. -/
def sortedSet (xs : List Nat) : List Nat := xs.dedup.insertionSort (· ≤ ·)

@[simp] theorem mem_sortedSet {xs : List Nat} {x : Nat} : x ∈ sortedSet xs ↔ x ∈ xs := by
  rw [sortedSet, List.mem_insertionSort, List.mem_dedup]

theorem sortedSet_increases (xs : List Nat) : (sortedSet xs).Pairwise (· < ·) := by
  have sorted : (sortedSet xs).Pairwise (· ≤ ·) := List.pairwise_insertionSort _ _
  have distinct : (sortedSet xs).Nodup :=
    (List.perm_insertionSort _ _).nodup_iff.mpr (List.nodup_dedup xs)
  exact (sorted.and distinct).imp fun both => Nat.lt_of_le_of_ne both.1 both.2

/-! ## Instructions -/

/-- `_convert_instruction`: the operands that are not void, each with its flags. -/
def convertInstruction (regName : Nat → Option String) (bits : FeatureBits) (insn : RawInsn) :
    Instruction :=
  let numbers := (List.finRange 8).filter fun number => (insn.ops number).type ≠ .void
  { ea := insn.ea
    mnem := (insn.canonMnem.getD "").toLower
    size := insn.size
    operands := numbers.map fun number =>
      convertOperand regName insn.toIdaInsn (insn.ops number) number
    operandWritten := numbers.map fun number => insn.canonFeature &&& bits.chg number ≠ 0
    operandRead := numbers.map fun number => insn.canonFeature &&& bits.use number ≠ 0
    isControlTransfer := insn.canonFeature &&& (bits.call ||| bits.jump ||| bits.stop) ≠ 0 }

namespace IdaPortImpl

variable (api : IdaApi)

/-- `_reg_name`. -/
def regName (reg : Nat) : Option String := safe none ((api.getRegName reg 8).map truthy)

def convert (insn : RawInsn) : Instruction := convertInstruction (regName api) api.features insn

def decodeAt (ea : Nat) : Option Instruction :=
  safe none ((api.decodeInsn ea).map (·.map (convert api)))

def prevHead (ea minEa : Nat) : Option Nat := safe none (api.prevHead ea minEa)

/-! ## Functions and cross references -/

/-- A call of the address, or a jump to it. -/
def Refers (ea frm : Nat) : Prop :=
  ∃ xrefs, api.xrefsTo ea = some xrefs ∧ ∃ xref ∈ xrefs, xref.type ≠ .other ∧ xref.frm = frm

/-- Calls, and jumps that leave for the address. -/
def codeRefsTo (ea : Nat) : List Nat :=
  safe [] ((api.xrefsTo ea).map fun xrefs =>
    sortedSet ((xrefs.filter (·.type ≠ .other)).map (·.frm)))

variable {api} in
theorem mem_codeRefsTo {ea frm : Nat} : frm ∈ codeRefsTo api ea ↔ Refers api ea frm := by
  rw [codeRefsTo, Refers]
  cases api.xrefsTo ea with
  | none => simp [safe]
  | some xrefs => simp [safe, and_assoc]

theorem codeRefsTo_increases (ea : Nat) : (codeRefsTo api ea).Pairwise (· < ·) := by
  rw [codeRefsTo]
  cases api.xrefsTo ea with
  | none => exact .nil
  | some xrefs => exact sortedSet_increases _

def getFuncStart (ea : Nat) : Option Nat := safe none ((api.getFunc ea).map (·.map (·.startEa)))

def blockInfo (block : FlowBlock) : BasicBlockInfo where
  startEa := block.startEa
  endEa := block.endEa
  succStarts := sortedSet block.succs
  predStarts := sortedSet block.preds

def getFlowchartBlocks (funcEa : Nat) : List BasicBlockInfo :=
  safe [] do
    match ← api.getFunc funcEa with
    | none => some []
    | some pfn => (api.flowChart pfn).map (·.map blockInfo)

def getSpDelta (funcEa ea : Nat) : Option Int :=
  safe none do
    match ← api.getFunc funcEa with
    | none => some none
    | some pfn => (api.getSpd pfn ea).map some

/-! ## Memory -/

/-- `read_bytes`. -/
def readBytes (addr : Int) (size : Nat) : Option (List UInt8) :=
  (List.range size).mapM fun (offset : Nat) => api.bytes.image (addr + offset)

/-- `int.from_bytes(…, byteorder="little")`. -/
def fromBytes : List UInt8 → Nat
  | [] => 0
  | low :: rest => low.toNat + 256 * fromBytes rest

/-- `int.from_bytes(…, byteorder="little", signed=True)`. -/
def fromSignedBytes (raw : List UInt8) : Int :=
  let value := fromBytes raw
  if raw ≠ [] ∧ 2 ^ (8 * raw.length - 1) ≤ value then value - 2 ^ (8 * raw.length) else value

def readInt (addr : Int) (size : Nat) (signed : Bool := false) : Option Int :=
  (readBytes api addr size).map fun raw => if signed then fromSignedBytes raw else fromBytes raw

/-! ## Registers -/

def pointerSize : Nat :=
  safe 8 do
    if ← api.is64bit then some 8
    else if ← api.is32bit then some 4
    else some 8

def registerByName (name : String) : Option Nat :=
  safe none ((api.str2reg name).map fun reg => if 0 ≤ reg then some reg.toNat else none)

def stackPointerReg : Option Nat :=
  registerByName api (if pointerSize api = 8 then "rsp" else "esp")

def framePointerReg : Option Nat :=
  registerByName api (if pointerSize api = 8 then "rbp" else "ebp")

def returnValueReg : Option Nat := registerByName api (if pointerSize api = 8 then "rax" else "eax")

/-- The first of the widths that names the register so. -/
def widthNamed (reg : Nat) (name : String) : List Nat → Option (Option Nat)
  | [] => some none
  | width :: rest => do
      if (← api.getRegName reg width) = some name then some (some width)
      else widthNamed reg name rest

/-- `_register_bit_width`. -/
def registerBitWidth (name : String) : Nat :=
  safe 32 do
    let reg ← api.str2reg name
    if reg < 0 then some (pointerSize api * 8)
    else
      match ← widthNamed api reg.toNat name [8, 4, 2, 1] with
      | some width => some (width * 8)
      | none => some (pointerSize api * 8)

/-- `_write_zero_extends`. -/
def writeZeroExtends (bitOffset bitSize parentBits : Nat) : Bool :=
  bitOffset = 0 ∧ bitSize = 32 ∧ parentBits = 64

/-- The view of a range of a parent register. A range of no bits is the whole register. -/
def viewIn (parent : Nat) (range : BitRange) (parentBits : Nat) : RegisterView :=
  let bitSize := if range.bitSize = 0 then parentBits else range.bitSize
  { parent
    bitOffset := range.bitOff
    bitSize
    parentBitSize := parentBits
    writeDefinesParent := (range.bitOff = 0 ∧ parentBits ≤ bitSize) ∨
      writeZeroExtends range.bitOff bitSize parentBits }

/-- The view that a register's name stands for. -/
def viewOfName (reg width : Nat) (name : String) : Option (Option RegisterView) := do
  let info ← api.getRegInfo name
  match info.filter (·.1 ≠ "") with
  | none =>
      some (some
        { parent := reg, bitOffset := 0, bitSize := width * 8, parentBitSize := width * 8
          writeDefinesParent := true })
  | some (parentName, range) =>
      let parent ← api.str2reg parentName
      if parent < 0 then some none
      else some (some (viewIn parent.toNat range (registerBitWidth api parentName)))

/-- The loop over the widths in `register_view`. -/
def viewOfWidths (reg : Nat) : List Nat → Option (Option RegisterView)
  | [] => some none
  | width :: rest => do
      match truthy (← api.getRegName reg width) with
      | none => viewOfWidths reg rest
      | some name => viewOfName api reg width name

/-- What `register_view` computes when it has no entry. -/
def freshView (reg sizeBytes : Nat) : Option (Option RegisterView) :=
  viewOfWidths api reg (if sizeBytes = 0 then [8, 4, 2, 1] else [sizeBytes])

/-- The registers that a call changes under every convention of the bitness. -/
def clobberedNames : List String :=
  if pointerSize api = 8 then ["rax", "rcx", "rdx", "r8", "r9", "r10", "r11"]
  else ["eax", "ecx", "edx"]

def freshClobbered : List Nat := sortedSet ((clobberedNames api).filterMap (registerByName api))

/-! ## Prototypes -/

/-- `_calling_convention_name`. -/
def callingConventionName (cc : Nat) : String :=
  let names := api.conventions
  let byConst :=
    [(names.golang, "golang"), (names.swift, "swift"), (names.thiscall, "thiscall"),
      (names.fastcall, "fastcall"), (names.pascal, "pascal"), (names.stdcall, "stdcall"),
      (names.cdecl, "cdecl")]
  (byConst.lookup (cc &&& names.mask)).getD "unknown"

/-- What one argument's place becomes; `none` when it is omitted. -/
def argLocation (index : Nat) : ArgLoc → Option ArgLocation
  | .reg1 reg | .reg2 reg => some { index, isRegister := true, reg := some reg }
  | .stkoff offset => some { index, isRegister := false, stackOffset := some offset }
  | .unsupported => none

def argLocations (args : List ArgLoc) : List ArgLocation :=
  (args.zipIdx.filterMap fun arg => argLocation arg.2 arg.1)

def prototypeOf (details : FuncDetails) : FunctionPrototype where
  callingConvention := callingConventionName api details.cc
  argLocations := argLocations details.args

def getPrototype (funcEa : Nat) : Option FunctionPrototype :=
  safe none do
    let known ← api.getTinfo funcEa
    let tif ← match known with
      | some tif => some (some tif)
      | none => api.guessTinfo funcEa
    match tif with
    | none => some none
    | some tif => if tif.isFunc then some (tif.details.map (prototypeOf api)) else some none

/-! ## The port -/

/-- The port, as far as nothing it remembers shows (`Adapters.RegisterViews`). -/
def port : FacadePort where
  decodeAt := decodeAt api
  prevHead := prevHead api
  getFuncStart := getFuncStart api
  getFlowchartBlocks := getFlowchartBlocks api
  readInt addr size := readInt api addr size
  getSpDelta := getSpDelta api
  pointerSize := pointerSize api
  stackPointerReg := stackPointerReg api
  framePointerReg := framePointerReg api
  callClobberedRegisters := freshClobbered api
  registerView reg sizeBytes := safe none (freshView api reg sizeBytes)
  returnValueReg := returnValueReg api
  codeRefsTo := codeRefsTo api
  registerByName := registerByName api
  getPrototype := getPrototype api

end IdaPortImpl

end IDAnalysister
