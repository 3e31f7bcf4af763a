import IDAnalysister.Api.Independence
import IDAnalysister.Backward.Straight

/-!
# Pushed arguments under two conventions

A caller that pushes immediates and calls. Under `CDECL` argument `i` is the `i`-th push
before the call, and its immediate is reported. Under a prototype that places the argument
at a stack offset the same cell is looked for among the memory writes, and a push is none:
its only operand is what it reads. So the two conventions agree only where there is nothing
to report (`push_arguments_agree_iff`).
-/

namespace IDAnalysister

open Effect Prog

/-! ## The value of one slot -/

section Slots

variable {e : ParamExtractor} {callEa : Nat}

theorem slotValue_push {pushes : List Nat}
    (collected : ∀ b, attempt (handler e.port.toIdaPort) none
      (e.resolver.collectPushSequence callEa) b = (some pushes, b)) (index : Nat) (position : Int) :
    e.slotValue callEa { index, kind := .stackPush, stackPushPosition := some position } =
      match ParamExtractor.pushAt pushes position with
      | none => some (.unknown .noDefinitionFound "push sequence too short")
      | some ea => e.resolver.answer (.atInstruction ea 0) := by
  rcases query_served e.new_valid (collected e.new.budget) with ⟨s, served, valid, -⟩
  have needed : ([{ index, kind := .stackPush, stackPushPosition := some position }] :
      List ArgSlot).any (·.kind = .stackPush) = true := by simp
  simp only [ParamExtractor.slotValue, ParamExtractor.slotAlone, bind_eq,
    ParamExtractor.pushesFor, needed, if_true]
  rw [attempt_bind served]
  simp only [ParamExtractor.resolveSlot, dite_true, Option.get_some]
  cases ParamExtractor.pushAt pushes position with
  | none => rfl
  | some ea =>
      rcases serve_resolve (.atInstruction ea 0) valid with ⟨v, answered, -⟩
      simp only [answered]
      rw [answer_eq] at answered
      rcases fresh_served valid answered with ⟨s', ran, -⟩
      exact congrArg Prod.fst ran

theorem ParamExtractor.pushAt_eq (pushes : List Nat) (position : Nat) :
    pushAt pushes position = pushes.reverse[position]? := by
  unfold pushAt
  dsimp only
  split
  · rename_i outside
    have beyond : pushes.length ≤ position := by omega
    simp [beyond]
  · rename_i inside
    have below : position < pushes.length := by omega
    have idx : ((pushes.length : Int) - 1 - position).toNat = pushes.length - 1 - position := by
      omega
    rw [idx]
    exact (List.getElem?_reverse below).symm

/-- Under `CDECL`, argument `i` is the `i`-th push from the last one. -/
theorem cdecl_slotValue_eq {is : List Instruction}
    (line : StraightLine e.port.toIdaPort is callEa) (i : Nat) :
    e.slotValue callEa (cdecl.slot e.port i) =
      match (takePushes e.port.stackPointerReg is.reverse [] 0).reverse[i]? with
      | none => some (.unknown .noDefinitionFound "push sequence too short")
      | some ea => e.resolver.answer (.atInstruction ea 0) := by
  have slot : cdecl.slot e.port i =
      { index := i, kind := .stackPush, stackPushPosition := some i } := rfl
  have line' : StraightLine e.resolver.port is callEa := line
  rw [slot, slotValue_push (collectPushSequence_eq line'.headsBefore), ParamExtractor.pushAt_eq]
  rfl

theorem slotValue_offset (index : Nat) (offset : Int) :
    e.slotValue callEa { index, kind := .stackOffset, stackOffset := some offset } =
      e.resolver.answer (.memory e.port.stackPointerReg offset callEa e.port.pointerSize) := by
  rcases serve_resolve (.memory e.port.stackPointerReg offset callEa e.port.pointerSize)
    e.new_valid with ⟨v, answered, -⟩
  rw [answered]
  rw [answer_eq] at answered
  rcases fresh_served e.new_valid answered with ⟨s', ran, -⟩
  have unneeded : ([{ index, kind := .stackOffset, stackOffset := some offset }] :
      List ArgSlot).any (·.kind = .stackPush) = false := by simp
  have notPush : ¬ SlotKind.stackOffset = SlotKind.stackPush := by decide
  have notRegister : ¬ SlotKind.stackOffset = SlotKind.register := by decide
  simp only [ParamExtractor.slotValue, ParamExtractor.slotAlone, bind_eq,
    ParamExtractor.pushesFor, unneeded, Bool.false_eq_true, if_false, ParamExtractor.resolveSlot,
    notPush, notRegister, dite_false]
  exact congrArg Prod.fst ran

end Slots

/-! ## The arguments reported for one call site -/

/-- The raw values reported for a call site. -/
def argumentsAt (report : Except String ExtractionReport) (callEa : Nat) :
    Option (List ValueLattice) :=
  match report with
  | .ok report => (report.callSites.find? (·.callEa = callEa)).map (·.arguments.map (·.rawValue))
  | .error _ => none

/-- Without a decompiler and without exceptions, a call site reports the values that its
slots have alone. -/
theorem argumentsAt_eq {e : ParamExtractor} (absent : e.hexrays = none) (history : List Request)
    {target callEa n : Nat} (calls : callEa ∈ e.port.codeRefsTo target)
    {convention : Option CallingConvention} {numArgs : Option Nat} {c : CallingConvention}
    (resolved : e.resolveConvention target convention numArgs = .ok (c, n)) {slots : List ArgSlot}
    (declared : c.slots n e.port = .ok slots) (indexed : slots.map (·.index) = List.range n)
    (argTypes : ArgTypes) :
    ∃ values, argumentsAt (e.extractCalls target convention numArgs argTypes (fun _ => none)
        (e.after history e.new)).1 callEa = some values ∧
      values.map some = slots.map (e.slotValue callEa) := by
  rcases extractCalls_slots e history resolved declared indexed argTypes (fun _ => none) with
    ⟨report, ran, reported⟩
  have sites := reported.imp fun _ _ => SiteSlots.siteOf
  have listed : callEa ∈ (e.port.codeRefsTo target).insertionSort (· ≤ ·) :=
    (List.mem_insertionSort _).mpr calls
  rcases exists_of_forall₂ sites listed with ⟨site, member, found⟩
  rw [ran, argumentsAt]
  cases first : report.callSites.find? (·.callEa = callEa) with
  | none =>
      have other := List.find?_eq_none.mp first site member
      simp [found.callEa] at other
  | some chosen =>
      have here : chosen.callEa = callEa := by simpa using List.find?_some first
      rcases exists_of_forall₂ sites.flip (List.mem_of_find?_eq_some first) with ⟨ea, -, site⟩
      have values := site.values rfl absent
      rw [← site.callEa, here] at values
      refine ⟨_, rfl, ?_⟩
      rw [List.map_map]
      exact values

/-- Under a convention that names every slot, argument `i` has the value of slot `i`. -/
theorem argumentsAt_builtin {e : ParamExtractor} (absent : e.hexrays = none)
    (history : List Request) {target callEa n : Nat} (calls : callEa ∈ e.port.codeRefsTo target)
    {convention : Option CallingConvention} {numArgs : Option Nat} {c : CallingConvention}
    (resolved : e.resolveConvention target convention numArgs = .ok (c, n)) (builtin : c.Builtin)
    (argTypes : ArgTypes) :
    ∃ values, argumentsAt (e.extractCalls target convention numArgs argTypes (fun _ => none)
        (e.after history e.new)).1 callEa = some values ∧ values.length = n ∧
      ∀ i < n, ∀ slot, c.slot e.port i = .ok slot → values[i]? = e.slotValue callEa slot := by
  rcases builtin.slots_ok e.port n with ⟨slots, declared, indexed, named⟩
  rcases argumentsAt_eq absent history calls resolved declared indexed argTypes with
    ⟨values, report, agrees⟩
  refine ⟨values, report, ?_, ?_⟩
  · have lengths := congrArg List.length agrees
    have count := congrArg List.length indexed
    rw [List.length_map, List.length_map] at lengths
    rw [List.length_map, List.length_range] at count
    exact lengths.trans count
  · intro i below slot declared
    have here : (values.map some)[i]? = (slots.map (e.slotValue callEa))[i]? := by rw [agrees]
    rw [List.getElem?_map, List.getElem?_map, named i below slot declared, Option.map_some] at here
    cases value : values[i]? with
    | none =>
        rw [value] at here
        cases here
    | some v =>
        rw [value] at here
        exact Option.some.inj here

/-! ## A caller that pushes immediates -/

/-- `push n`. The pushed cell is not an operand. -/
structure PushImm (i : Instruction) (n : Int) : Prop where
  mnem : i.mnem = "push"
  operands : ∃ op, i.operands = [op] ∧ op.kind = .immediate ∧ op.number = 0 ∧
    op.immValue = some n

/-- No operand of the instruction is a memory cell that it writes. -/
def WritesNoMemory (i : Instruction) : Prop :=
  ∀ op ∈ i.operands, op.isMemory → i.isWritten op.number = false

instance (i : Instruction) : Decidable (WritesNoMemory i) :=
  inferInstanceAs (Decidable (∀ op ∈ i.operands, op.isMemory → i.isWritten op.number = false))

namespace PushImm

variable {i : Instruction} {n : Int}

theorem writesNoMemory (push : PushImm i n) : WritesNoMemory i := by
  rcases push.operands with ⟨a, operands, kind, -, -⟩
  intro op member memory
  rw [operands, List.mem_singleton] at member
  rw [member, Operand.isMemory, kind] at memory
  cases memory

/-- The immediate is reported for the push. -/
theorem answered (push : PushImm i n) {self : BackwardResolver}
    (builtin : self.registry = defaultRegistry) (decoded : self.port.decodeAt i.ea = some i)
    (enough : 1 ≤ self.maxSteps) :
    self.answer (.atInstruction i.ea 0) = some (.concrete (.int n) .int) := by
  rcases push.operands with ⟨a, operands, kind, number, imm⟩
  have first : i.operand 0 = some a := by simp [Instruction.operand, operands, number]
  have matched := findMatch_push push.mnem (by rw [first]; rfl)
  rw [← builtin] at matched
  refine answer_atInstruction decoded matched (fun owner => ?_) enough
  simp [pushLocator, withOperand, first, kind, imm, Datum.ofOption]

end PushImm

/-- The prototype whose argument `i` is the stack cell at offset `i * pointer_size`. -/
def stackPrototype (callingConvention : String) (n pointerSize : Nat) : FunctionPrototype where
  callingConvention
  argLocations := (List.range n).map fun index =>
    { index, isRegister := false, stackOffset := some ((index : Int) * pointerSize) }

theorem stackPrototype_slot {n index : Nat} (below : index < n) (name : String)
    (pointerSize : Nat) :
    (stackPrototype name n pointerSize).slot index =
      { index, kind := .stackOffset, stackOffset := some ((index : Int) * pointerSize) } := by
  have found : (stackPrototype name n pointerSize).byIndex index =
      some { index, isRegister := false, stackOffset := some ((index : Int) * pointerSize) } := by
    have only : ∀ loc ∈ (stackPrototype name n pointerSize).argLocations.reverse,
        loc.index = index →
          loc = { index, isRegister := false,
                  stackOffset := some ((index : Int) * pointerSize) } := by
      intro loc member same
      simp only [stackPrototype, List.mem_reverse, List.mem_map, List.mem_range] at member
      rcases member with ⟨k, -, rfl⟩
      cases same
      rfl
    unfold FunctionPrototype.byIndex
    cases search : (stackPrototype name n pointerSize).argLocations.reverse.find?
        (·.index = index) with
    | none =>
        have missing := List.find?_eq_none.mp search
          { index, isRegister := false, stackOffset := some ((index : Int) * pointerSize) }
          (by simpa [stackPrototype] using below)
        simp at missing
    | some loc =>
        rw [only loc (List.mem_of_find?_eq_some search) (by simpa using List.find?_some search)]
  simp [FunctionPrototype.slot, found]

theorem resolveConvention_given (e : ParamExtractor) (target : Nat) (c : CallingConvention)
    (n : Nat) : e.resolveConvention target (some c) (some n) = .ok (c, n) :=
  rfl

/-- The convention inferred from the prototype, or the default where it has no argument. -/
theorem resolveConvention_recognized {e : ParamExtractor} {target n : Nat} {name : String}
    (recognized : e.port.getPrototype target = some (stackPrototype name n e.port.pointerSize)) :
    ∃ c, e.resolveConvention target none (some n) = .ok (c, n) ∧ c.Builtin ∧
      (n ≠ 0 → c = .prototype (stackPrototype name n e.port.pointerSize)) := by
  cases n with
  | zero =>
      refine ⟨.template cdecl, ?_, Or.inl ⟨("cdecl", cdecl), List.mem_cons_self, rfl⟩, by simp⟩
      have unnamed : inferPrototype e.port target = none := by
        rw [inferPrototype, recognized]
        rfl
      simp [ParamExtractor.resolveConvention, unnamed]
  | succ n =>
      refine ⟨.prototype _, ?_, Or.inr ⟨_, rfl⟩, fun _ => rfl⟩
      have some' : inferPrototype e.port target =
          some (stackPrototype name (n + 1) e.port.pointerSize) := by
        simp [inferPrototype, recognized, stackPrototype]
      simp [ParamExtractor.resolveConvention, some']

section Caller

variable {e : ParamExtractor} {callEa : Nat} {pre pushes : List Instruction} {values : List Int}

theorem taken_pushes {sp : Option Nat} (imms : List.Forall₂ PushImm pushes values)
    (cap : pushes.length ≤ maxPushSequence) :
    ∃ earlier, takePushes sp (pre ++ pushes).reverse [] 0 = earlier ++ pushes.map (·.ea) := by
  have all : ∀ i ∈ pushes, i.mnem = "push" := by
    intro i member
    rcases exists_of_forall₂ imms member with ⟨n, -, push⟩
    exact push.mnem
  rw [List.reverse_append, takePushes_row all (by simpa using cap) (by decide), List.append_nil]
  exact takePushes_extends _ _ _ _

/-- The first argument under `CDECL` is the last push. -/
theorem cdecl_slotValue (builtin : e.registry = defaultRegistry) (enough : 1 ≤ e.maxSteps)
    (line : StraightLine e.port.toIdaPort (pre ++ pushes) callEa)
    (imms : List.Forall₂ PushImm pushes values) (cap : pushes.length ≤ maxPushSequence)
    (nonempty : pushes ≠ []) :
    ∃ n, e.slotValue callEa (cdecl.slot e.port 0) = some (.concrete (.int n) .int) := by
  have ends : ∃ earlier, takePushes e.port.stackPointerReg (pre ++ pushes).reverse [] 0 =
      earlier ++ pushes.map (·.ea) := taken_pushes imms cap
  rcases ends with ⟨earlier, taken⟩
  rcases List.eq_nil_or_concat pushes with empty | ⟨init, i, split⟩
  · exact (nonempty empty).elim
  · rw [List.concat_eq_append] at split
    have member : i ∈ pushes := by simp [split]
    rcases exists_of_forall₂ imms member with ⟨n, -, push⟩
    have last : (earlier ++ pushes.map (·.ea)).reverse[0]? = some i.ea := by simp [split]
    have decoded := line.headsBefore.decoded i (by simp [member])
    refine ⟨n, ?_⟩
    rw [cdecl_slotValue_eq line, taken, last]
    exact push.answered builtin decoded enough

/-- A pushed argument is not found at its stack offset. -/
theorem offset_slotValue (builtin : e.registry = defaultRegistry)
    (line : StraightLine e.port.toIdaPort (pre ++ pushes) callEa)
    (imms : List.Forall₂ PushImm pushes values) (quiet : ∀ i ∈ pre, WritesNoMemory i)
    (index : Nat) (offset : Int) (d : Datum) (k : ValueKind) :
    e.slotValue callEa { index, kind := .stackOffset, stackOffset := some offset } ≠
      some (.concrete d k) := by
  have builtin' : e.resolver.registry = defaultRegistry := builtin
  have strict := strict_of_builtin builtin'
  rw [slotValue_offset]
  intro answered
  have line' : StraightLine e.resolver.port (pre ++ pushes) callEa := line
  refine line'.memory_none strict (fun i member => ?_) answered d k rfl
  apply memoryFinding_quiet
  rcases List.mem_append.mp member with before | pushed
  · exact quiet i before
  · rcases exists_of_forall₂ imms pushed with ⟨n, -, push⟩
    exact push.writesNoMemory

end Caller

/-- A caller that pushes `n` immediates, at most as many as a push sequence may have, and
then calls the target: the arguments reported with the template and those reported with the
convention of the prototype agree only where no argument is asked for. -/
theorem push_arguments_agree_iff (e : ParamExtractor) (builtin : e.registry = defaultRegistry)
    (absent : e.hexrays = none) (enough : 1 ≤ e.maxSteps) {target callEa n : Nat} {name : String}
    (calls : callEa ∈ e.port.codeRefsTo target)
    (recognized : e.port.getPrototype target = some (stackPrototype name n e.port.pointerSize))
    {pre pushes : List Instruction} {values : List Int}
    (line : StraightLine e.port.toIdaPort (pre ++ pushes) callEa)
    (quiet : ∀ i ∈ pre, WritesNoMemory i) (imms : List.Forall₂ PushImm pushes values)
    (count : pushes.length = n) (cap : n ≤ maxPushSequence) (argTypes : ArgTypes)
    (history history' : List Request) :
    argumentsAt (e.extractCalls target (some (.template cdecl)) (some n) argTypes
        (fun _ => none) (e.after history e.new)).1 callEa =
      argumentsAt (e.extractCalls target none (some n) argTypes (fun _ => none)
        (e.after history' e.new)).1 callEa ↔ n = 0 := by
  rcases argumentsAt_builtin absent history calls (resolveConvention_given e _ _ n)
      CallingConvention.cdecl_builtin argTypes with ⟨left, report, count', named⟩
  rcases resolveConvention_recognized recognized with ⟨c, inferred, builtin', same⟩
  rcases argumentsAt_builtin absent history' calls inferred builtin' argTypes with
    ⟨right, report', count'', named'⟩
  rw [report, report', Option.some.injEq]
  constructor
  · intro agree
    by_contra nonzero
    have positive : 0 < n := Nat.pos_of_ne_zero nonzero
    have nonempty : pushes ≠ [] := List.ne_nil_of_length_pos (by rw [count]; exact positive)
    have first := named 0 positive _ rfl
    have first' := named' 0 positive (.mk 0 .stackOffset none none (some (0 * e.port.pointerSize)))
      (by rw [same nonzero]; exact congrArg Except.ok (stackPrototype_slot positive name _))
    rcases cdecl_slotValue builtin enough line imms (by rw [count]; exact cap) nonempty with
      ⟨v, reported⟩
    have silent := offset_slotValue builtin line imms quiet 0 (0 * e.port.pointerSize)
      (.int v) .int
    rw [← agree] at first'
    exact silent (first'.symm.trans (first.trans reported))
  · intro zero
    subst zero
    rw [List.length_eq_zero_iff.mp count', List.length_eq_zero_iff.mp count'']

/-! ## One pushed argument -/

namespace OnePush

def pushSeven : Instruction := FakeIdaPort.push 0x402000 5 (FakeIdaPort.imm 0 7)

def call : Instruction := FakeIdaPort.jump 0x402005 "call" 5 0x401000

def block : BasicBlockInfo := ⟨0x402000, 0x40200a, [], []⟩

/-- The stack deltas are exact: the push has moved the stack pointer by four bytes. -/
def port : FacadePort := FakeIdaPort.toFacadePort
  { pointerSize := 4
    instructions := [pushSeven, call]
    funcBounds := [(0x402000, 0x40200a)]
    blocks := [(0x402000, [block])]
    spDeltas := [((0x402000, 0x402000), 0), ((0x402000, 0x402005), -4)] }
  [(0x401000, stackPrototype "cdecl" 1 4)]

def extractor : ParamExtractor where
  port
  registry := defaultRegistry

def line : StraightLine port.toIdaPort ([] ++ [pushSeven]) 0x402005 where
  funcEa := 0x402000
  graph :=
    { tile := fun _ => [pushSeven, call]
      entry := block
      entry_mem := by decide
      entry_startEa := rfl
      nonempty := by decide
      disjoint := by decide
      converse := by decide
      tiled := by decide
      decoded := by decide
      heads := by decide
      owner := by decide }
  source := by decide
  lo := by decide
  hi := by decide
  executed := by decide

/-- The template reports the pushed immediate, the prototype does not find it. -/
theorem push_unseen :
    argumentsAt (extractor.extractCalls 0x401000 (some (.template cdecl)) (some 1) []
        (fun _ => none) extractor.new).1 0x402005 = some [.concrete (.int 7) .int] ∧
      argumentsAt (extractor.extractCalls 0x401000 none (some 1) [] (fun _ => none)
        extractor.new).1 0x402005 = some [.unknown' .noDefinitionFound] := by
  decide

theorem push_arguments_agree_iff_onePush :
    argumentsAt (extractor.extractCalls 0x401000 (some (.template cdecl)) (some 1) []
        (fun _ => none) extractor.new).1 0x402005 ≠
      argumentsAt (extractor.extractCalls 0x401000 none (some 1) [] (fun _ => none)
        extractor.new).1 0x402005 := by
  have imms : List.Forall₂ PushImm [pushSeven] [7] :=
    .cons ⟨rfl, _, rfl, rfl, rfl, rfl⟩ .nil
  have agree := push_arguments_agree_iff extractor rfl rfl (show 1 ≤ 200 by decide)
    (show 0x402005 ∈ port.codeRefsTo 0x401000 by decide) rfl line (by simp) imms rfl (by decide)
    [] [] []
  intro same
  have zero := agree.mp same
  cases zero

end OnePush

end IDAnalysister
