import IDAnalysister.Port

/-!
# Calling conventions

`conventions/`: a convention says, for each argument index, where the argument lives at
a call. The built-in templates and the conventions inferred from a prototype name a slot
for every index; a convention built by hand raises where no slot was declared.

`FacadePort` is the port with the members that only the facade consults.
-/

namespace IDAnalysister

/-- Where the type system of the database places one argument. -/
structure ArgLocation where
  index : Nat
  isRegister : Bool
  reg : Option Nat := none
  stackOffset : Option Int := none
  deriving DecidableEq

structure FunctionPrototype where
  callingConvention : String
  argLocations : List ArgLocation
  deriving DecidableEq

structure FacadePort extends IdaPort where
  codeRefsTo : Nat → List Nat
  registerByName : String → Option Nat
  getPrototype : Nat → Option FunctionPrototype

inductive SlotKind
  | register
  /-- The Nth element from the end of the push sequence before the call. -/
  | stackPush
  /-- A byte offset from the stack pointer at the call. -/
  | stackOffset
  deriving DecidableEq, Repr

structure ArgSlot where
  index : Nat
  kind : SlotKind
  reg : Option Nat := none
  stackPushPosition : Option Int := none
  stackOffset : Option Int := none
  push_isSome : kind = .stackPush → stackPushPosition.isSome = true := by simp
  deriving DecidableEq

/-! ## Templates -/

inductive StackMode
  | push
  | offset
  deriving DecidableEq

structure RegisterThenStackConvention where
  name : String
  registerNames : List String := []
  stackMode : StackMode := .push
  /-- Offset of the first stack argument from the stack pointer at the call. -/
  stackBaseOffset : Int := 0
  stackArgSize : Int := 4

namespace RegisterThenStackConvention

/-- The slot of one index: a named register, then the stack. -/
def slot (c : RegisterThenStackConvention) (port : FacadePort) (index : Nat) : ArgSlot :=
  match c.registerNames[index]? with
  | some name => { index, kind := .register, reg := port.registerByName name }
  | none =>
      let stackIndex := index - c.registerNames.length
      match c.stackMode with
      | .push => { index, kind := .stackPush, stackPushPosition := some stackIndex }
      | .offset =>
          { index, kind := .stackOffset,
            stackOffset := some (c.stackBaseOffset + stackIndex * c.stackArgSize) }

end RegisterThenStackConvention

/-- `CDECL`. -/
def cdecl : RegisterThenStackConvention where
  name := "cdecl"

def stdcall : RegisterThenStackConvention where
  name := "stdcall"

def fastcall : RegisterThenStackConvention where
  name := "fastcall"
  registerNames := ["ecx", "edx"]

def thiscall : RegisterThenStackConvention where
  name := "thiscall"
  registerNames := ["ecx"]

/-- `MS_X64`: the stack arguments start past the shadow space. -/
def msX64 : RegisterThenStackConvention where
  name := "ms_x64"
  registerNames := ["rcx", "rdx", "r8", "r9"]
  stackMode := .offset
  stackBaseOffset := 0x20
  stackArgSize := 8

def sysvX64 : RegisterThenStackConvention where
  name := "sysv_x64"
  registerNames := ["rdi", "rsi", "rdx", "rcx", "r8", "r9"]
  stackMode := .offset
  stackArgSize := 8

/-- `BUILTIN_TEMPLATES`. -/
def builtinTemplates : List (String × RegisterThenStackConvention) :=
  [("cdecl", cdecl), ("stdcall", stdcall), ("fastcall", fastcall), ("thiscall", thiscall),
    ("ms_x64", msX64), ("sysv_x64", sysvX64)]

/-! ## Prototypes -/

namespace FunctionPrototype

/-- `PrototypeConvention.arg_count`. -/
def argCount (p : FunctionPrototype) : Nat := p.argLocations.length

/-- The dictionary by index: a later location replaces an earlier one. -/
def byIndex (p : FunctionPrototype) (index : Nat) : Option ArgLocation :=
  p.argLocations.reverse.find? (·.index = index)

/-- `PrototypeConvention.slots`, one index of it. An index without a location gets a
register slot without a register. -/
def slot (p : FunctionPrototype) (index : Nat) : ArgSlot :=
  match p.byIndex index with
  | none => { index, kind := .register }
  | some loc =>
      if loc.isRegister then { index, kind := .register, reg := loc.reg }
      else { index, kind := .stackOffset, stackOffset := loc.stackOffset }

end FunctionPrototype

/-- `inference.infer`: `none` without a prototype that has argument locations. -/
def inferPrototype (port : FacadePort) (funcEa : Nat) : Option FunctionPrototype :=
  (port.getPrototype funcEa).filter fun p => !p.argLocations.isEmpty

/-! ## Conventions built by hand -/

/-- What `ConventionBuilder` collects: the later declaration of an index comes first. -/
structure CustomConvention where
  name : String := "custom"
  slotSpecs : List (Nat × ArgSlot) := []
  registerNames : List (Nat × String) := []

namespace CustomConvention

/-- `ConventionBuilder.reg`. -/
def addReg (c : CustomConvention) (index : Nat) (registerName : String) : CustomConvention :=
  { c with registerNames := (index, registerName) :: c.registerNames }

/-- `ConventionBuilder.stack_offset`. -/
def addStackOffset (c : CustomConvention) (index : Nat) (offset : Int) : CustomConvention :=
  { c with
    slotSpecs := (index, { index, kind := .stackOffset, stackOffset := some offset }) ::
      c.slotSpecs }

/-- `ConventionBuilder.stack_push`. -/
def addStackPush (c : CustomConvention) (index : Nat) (position : Int) : CustomConvention :=
  { c with
    slotSpecs := (index, { index, kind := .stackPush, stackPushPosition := some position }) ::
      c.slotSpecs }

/-- `_CustomConvention.slots`, one index of it; an error carries the message. -/
def slot (c : CustomConvention) (port : FacadePort) (index : Nat) : Except String ArgSlot :=
  match c.registerNames.lookup index with
  | some name => .ok { index, kind := .register, reg := port.registerByName name }
  | none =>
      match c.slotSpecs.lookup index with
      | some spec => .ok spec
      | none => .error ("convention " ++ reprString c.name ++
          " has no slot declared for argument index " ++ toString index)

end CustomConvention

/-! ## Conventions -/

inductive CallingConvention
  | template (c : RegisterThenStackConvention)
  | prototype (p : FunctionPrototype)
  | custom (c : CustomConvention)

namespace CallingConvention

def name : CallingConvention → String
  | template c => c.name
  | prototype p => "inferred:" ++ p.callingConvention
  | custom c => c.name

/-- The slot of one index; an error is a `ConventionError` with its message. -/
def slot (c : CallingConvention) (port : FacadePort) (index : Nat) : Except String ArgSlot :=
  match c with
  | template t => .ok (t.slot port index)
  | prototype p => .ok (p.slot index)
  | custom b => b.slot port index

/-- `slots`: the first index without a slot raises. -/
def slots (c : CallingConvention) (numArgs : Nat) (port : FacadePort) :
    Except String (List ArgSlot) :=
  (List.range numArgs).mapM (c.slot port)

/-- A convention that names a slot for every index. -/
def Builtin (c : CallingConvention) : Prop :=
  (∃ entry ∈ builtinTemplates, c = template entry.2) ∨ ∃ p, c = prototype p

theorem Builtin.slot_ok {c : CallingConvention} (builtin : c.Builtin) (port : FacadePort)
    (index : Nat) : ∃ slot, c.slot port index = .ok slot ∧ slot.index = index := by
  rcases builtin with ⟨entry, -, rfl⟩ | ⟨p, rfl⟩
  · refine ⟨_, rfl, ?_⟩
    unfold RegisterThenStackConvention.slot
    split
    · rfl
    · simp only
      split <;> rfl
  · refine ⟨_, rfl, ?_⟩
    unfold FunctionPrototype.slot
    split
    · rfl
    · split <;> rfl

theorem cdecl_builtin : (template cdecl).Builtin :=
  Or.inl ⟨("cdecl", cdecl), List.mem_cons_self, rfl⟩

end CallingConvention

end IDAnalysister
