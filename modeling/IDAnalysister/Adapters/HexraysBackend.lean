import IDAnalysister.Adapters.IdaPortImpl
import IDAnalysister.Session.State

/-!
# The Hex-Rays backend

`resolve_call_args` of `adapters/hexrays_backend.py` over the microcode of a function: the
operands of the first call instruction at the address, as values. A number or a global is
concrete, the address of one is a memory reference whose content was not read, whatever the
number of addresses around it, and nothing else is known.
-/

namespace IDAnalysister

open ValueLattice

/-! ## Microcode -/

/-- A micro-operand, by its kind and the fields that `_mop_to_value` reads. -/
inductive MicroOperand
  /-- `mop_n`; the number may be missing. -/
  | number (nnn : Option Nat)
  /-- `mop_v`. -/
  | global (g : Nat)
  /-- `mop_r`. -/
  | register
  /-- `mop_a`; the operand may be missing. -/
  | address (a : Option MicroOperand)
  | other

inductive MicroOpcode
  | call
  | icall
  | other
  deriving DecidableEq

/-- The part of `mcallinfo_t` that is read. -/
structure CallInfo where
  args : List MicroOperand

structure MicroInsn where
  ea : Nat
  opcode : MicroOpcode
  /-- `insn.d`, and its `f`. -/
  d : Option (Option CallInfo)

/-- The blocks of a function in order, each the chain of instructions from its head. -/
abbrev MicroCode := List (List MicroInsn)

/-- What the backend asks of IDA; `none` means that the call raised. -/
structure HexraysApi where
  getFunc : Nat → Option (Option IdaFunc)
  decompileFunc : IdaFunc → Option (Option MicroCode)

namespace HexraysBackend

/-! ## The backend -/

/-- `_mop_to_value`. -/
def mopToValue : MicroOperand → ValueLattice
  | .number (some value) => .concrete (.int value) .int
  | .global g => .concrete (.int g) .pointer
  | .register => .unknown .unsupportedOperandShape
      "argument left in a register by Hex-Rays optimization; no constant available"
  | .address (some a) =>
      match mopToValue a with
      | .concrete (.int addr) _ => .memoryRef addr (.unknown' .memoryReadFailed)
      | inner => inner
  | .number none | .address none | .other =>
      .unknown .unsupportedOperandShape "unsupported Hex-Rays operand kind"

/-- The call information of an instruction, if it is a call at the address. -/
def callInfoAt (callEa : Nat) (insn : MicroInsn) : Option CallInfo :=
  if insn.ea = callEa ∧ (insn.opcode = .call ∨ insn.opcode = .icall) then insn.d.join else none

/-- `_find_call_info`. -/
def findCallInfo (mba : MicroCode) (callEa : Nat) : Option CallInfo :=
  mba.findSome? fun block => block.findSome? (callInfoAt callEa)

variable (api : HexraysApi)

/-- `_resolve_call_args_impl`; `none` when something raised. -/
def resolveCallArgsImpl (callEa numArgs : Nat) : Option (Option CallArgs) := do
  match ← api.getFunc callEa with
  | none => some none
  | some pfn =>
      match ← api.decompileFunc pfn with
      | none => some none
      | some mba =>
          some ((findCallInfo mba callEa).map fun callinfo =>
            ((callinfo.args.take numArgs).map mopToValue).zipIdx.map fun entry =>
              (entry.2, entry.1))

/-- `resolve_call_args`. -/
def resolveCallArgs (callEa numArgs : Nat) : Option CallArgs :=
  safe none (resolveCallArgsImpl api callEa numArgs)

/-! ## What an operand is worth -/

/-- A number or a global under so many addresses. -/
inductive Names : MicroOperand → Nat → Nat → ValueKind → Prop
  | number (value : Nat) : Names (.number (some value)) 0 value .int
  | global (g : Nat) : Names (.global g) 0 g .pointer
  | address {a : MicroOperand} {depth value : Nat} {kind : ValueKind} :
    Names a depth value kind → Names (.address (some a)) (depth + 1) value kind

/-- The value of an operand that names one. -/
def named : Nat → Nat → ValueKind → ValueLattice
  | 0, value, kind => .concrete (.int value) kind
  | _ + 1, value, _ => .memoryRef value (.unknown' .memoryReadFailed)

theorem Names.value {op : MicroOperand} {depth value : Nat} {kind : ValueKind}
    (names : Names op depth value kind) : mopToValue op = named depth value kind := by
  induction names with
  | number value => rfl
  | global g => rfl
  | @address a depth value kind _ ih =>
      rw [mopToValue, ih]
      cases depth <;> rfl

/-- What is known of an operand, it names. -/
theorem names_of_known {op : MicroOperand} (known : (mopToValue op).isKnown) :
    ∃ depth value kind, Names op depth value kind := by
  fun_induction mopToValue op with
  | case1 value => exact ⟨0, value, .int, .number value⟩
  | case2 g => exact ⟨0, g, .pointer, .global g⟩
  | case3 => cases known
  | case4 a addr kind inner ih =>
      have known' : (mopToValue a).isKnown := by
        rw [inner]
        rfl
      rcases ih known' with ⟨depth, value, kind, names⟩
      exact ⟨depth + 1, value, kind, .address names⟩
  | case5 a inner ih =>
      rcases ih known with ⟨depth, value, kind, names⟩
      exact ⟨depth + 1, value, kind, .address names⟩
  | case6 => cases known
  | case7 => cases known
  | case8 => cases known

/-! ## The call that is found -/

/-- The first call instruction at the address, in the order of blocks and instructions, has this
call information. -/
def FirstCall (mba : MicroCode) (callEa : Nat) (info : CallInfo) : Prop :=
  ∃ before insn after, mba.flatten = before ++ insn :: after ∧
    callInfoAt callEa insn = some info ∧ ∀ earlier ∈ before, callInfoAt callEa earlier = none

theorem findCallInfo_eq (mba : MicroCode) (callEa : Nat) :
    findCallInfo mba callEa = mba.flatten.findSome? (callInfoAt callEa) := by
  induction mba with
  | nil => rfl
  | cons block rest ih =>
      rw [List.flatten_cons, List.findSome?_append, ← ih, findCallInfo, List.findSome?_cons]
      cases block.findSome? (callInfoAt callEa) <;> rfl

theorem findCallInfo_eq_some {mba : MicroCode} {callEa : Nat} {info : CallInfo} :
    findCallInfo mba callEa = some info ↔ FirstCall mba callEa info := by
  rw [findCallInfo_eq, List.findSome?_eq_some_iff]
  rfl

/-- The decompiler has call information for the address. -/
def Decompiles (api : HexraysApi) (callEa : Nat) (info : CallInfo) : Prop :=
  ∃ pfn mba, api.getFunc callEa = some (some pfn) ∧ api.decompileFunc pfn = some (some mba) ∧
    FirstCall mba callEa info

variable {api} {callEa numArgs index : Nat} {value : ValueLattice}

theorem lookup_zipIdx (values : List ValueLattice) (start : Nat) :
    ((values.zipIdx start).map fun entry => (entry.2, entry.1)).lookup (start + index) =
      values[index]? := by
  induction values generalizing start index with
  | nil => rfl
  | cons value rest ih =>
      rw [List.zipIdx_cons, List.map_cons, List.lookup_cons]
      cases index with
      | zero => simp
      | succ index =>
          have other : (start + (index + 1) == start) = false := beq_false_of_ne (by omega)
          have next : start + (index + 1) = start + 1 + index := by omega
          rw [other, next, ih (start + 1)]
          rfl

/-- The values of the operands of a call, by their index. -/
def valuesOf (info : CallInfo) (numArgs : Nat) : CallArgs :=
  ((info.args.take numArgs).map mopToValue).zipIdx.map fun entry => (entry.2, entry.1)

theorem resolveCallArgs_eq_some {args : CallArgs} :
    resolveCallArgs api callEa numArgs = some args ↔
      ∃ info, Decompiles api callEa info ∧ valuesOf info numArgs = args := by
  constructor
  · intro answered
    have ran : resolveCallArgsImpl api callEa numArgs = some (some args) := by
      cases impl : resolveCallArgsImpl api callEa numArgs with
      | none =>
          rw [resolveCallArgs, impl] at answered
          cases answered
      | some answer =>
          rw [resolveCallArgs, impl] at answered
          exact congrArg some answered
    rcases Option.bind_eq_some_iff.mp ran with ⟨found, called, ran⟩
    cases found with
    | none => cases ran
    | some pfn =>
        rcases Option.bind_eq_some_iff.mp ran with ⟨decompiled, microcode, ran⟩
        cases decompiled with
        | none => cases ran
        | some mba =>
            rcases Option.map_eq_some_iff.mp (Option.some.inj ran) with ⟨info, first, made⟩
            exact ⟨info, ⟨pfn, mba, called, microcode, findCallInfo_eq_some.mp first⟩, made⟩
  · rintro ⟨info, ⟨pfn, mba, called, microcode, first⟩, rfl⟩
    have found := findCallInfo_eq_some.mpr first
    simp only [resolveCallArgs, resolveCallArgsImpl, called, microcode, found,
      Option.bind_eq_bind, Option.bind_some, Option.map_some]
    rfl

theorem lookup_valuesOf (info : CallInfo) : (valuesOf info numArgs).lookup index = some value ↔
    index < numArgs ∧ ∃ op, info.args[index]? = some op ∧ mopToValue op = value := by
  have entry := @lookup_zipIdx index ((info.args.take numArgs).map mopToValue) 0
  rw [Nat.zero_add] at entry
  rw [valuesOf, entry, List.getElem?_map, Option.map_eq_some_iff, List.getElem?_take]
  by_cases below : index < numArgs
  · rw [if_pos below]
    exact ⟨fun found => ⟨below, found⟩, And.right⟩
  · rw [if_neg below]
    refine iff_of_false ?_ fun both => below both.1
    rintro ⟨op, missing, -⟩
    cases missing

/-- The backend's entry for an index is the value of that operand of the call. -/
theorem resolveCallArgs_lookup :
    ((resolveCallArgs api callEa numArgs).bind fun args => args.lookup index) = some value ↔
      ∃ info op, Decompiles api callEa info ∧ index < numArgs ∧ info.args[index]? = some op ∧
        mopToValue op = value := by
  rw [Option.bind_eq_some_iff]
  constructor
  · rintro ⟨args, answered, found⟩
    rcases resolveCallArgs_eq_some.mp answered with ⟨info, decompiles, rfl⟩
    rcases (lookup_valuesOf info).mp found with ⟨below, op, there, worth⟩
    exact ⟨info, op, decompiles, below, there, worth⟩
  · rintro ⟨info, op, decompiles, below, there, worth⟩
    exact ⟨_, resolveCallArgs_eq_some.mpr ⟨info, decompiles, rfl⟩,
      (lookup_valuesOf info).mpr ⟨below, op, there, worth⟩⟩

end HexraysBackend

end IDAnalysister
