import IDAnalysister.Api.PushedArguments
import IDAnalysister.Backward.StackRows

/-!
# Pushed arguments on the stack

What `extract_calls` reports under `CDECL` for a caller that is a row of pushes, pops, moves
between registers, moves of immediates and additions to the stack pointer. Argument `i` is
the `i`-th push that the scan finds, valued at the push. Pops in between are stepped over,
although they take words off the stack again, and neither pushes nor pops count as
definitions of the stack pointer. `pushed_argument_holds_iff` says when the report is what
the stack holds at the call.
-/

namespace IDAnalysister

open Effect Prog StackMachine Bytes

/-! ## The scan over a row of stack instructions -/

section Scan

variable {port : IdaPort} {sp width : Nat} {i : Instruction} {is : List Instruction}
variable {step : Step Nat width} {steps : List (Step Nat width)}

/-- The pushes of the code are the pushes of the machine. -/
theorem StackForm.push_iff (form : StackForm port sp width i step) :
    i.mnem = "push" ↔ step.isPush := by
  cases form with
  | pushImm mnem => simp [mnem, Step.isPush]
  | pushReg mnem => simp [mnem, Step.isPush]
  | pop mnem => simp [mnem, Step.isPush]
  | movImm mnem => simp [mnem, Step.isPush]
  | movReg mnem => simp [mnem, Step.isPush]
  | add mnem => simp [mnem, Step.isPush]
  | sub mnem => simp [mnem, Step.isPush]

/-- Only the steps that name the stack pointer as their destination are not passed over. -/
theorem StackForm.passes_iff (form : StackForm port sp width i step)
    (noJump : i.isControlTransfer = false) :
    (i.mnem = "push" ∨ isTransparentToPushSequence i (some sp)) ↔ ¬ step.Sets sp sp := by
  cases form with
  | pushImm mnem => simp [mnem, Step.Sets]
  | pushReg mnem => simp [mnem, Step.Sets]
  | pop mnem operands number flag operand =>
      simp [mnem, isTransparentToPushSequence, noJump, operands, number, flag, operand.kind,
        operand.reg, Step.Sets]
  | movImm mnem pair dest =>
      simp [mnem, isTransparentToPushSequence, noJump, pair.operands, pair.first, pair.second,
        pair.flagA, pair.flagB, dest.kind, dest.reg, Step.Sets]
  | movReg mnem pair dest =>
      simp [mnem, isTransparentToPushSequence, noJump, pair.operands, pair.first, pair.second,
        pair.flagA, pair.flagB, dest.kind, dest.reg, Step.Sets]
  | add mnem pair dest =>
      simp [mnem, isTransparentToPushSequence, noJump, pair.operands, pair.first, pair.second,
        pair.flagA, pair.flagB, dest.kind, dest.reg, Step.Sets]
  | sub mnem pair dest =>
      simp [mnem, isTransparentToPushSequence, noJump, pair.operands, pair.first, pair.second,
        pair.flagA, pair.flagB, dest.kind, dest.reg, Step.Sets]

/-- They are as many. -/
theorem StackRow.pushes_eq (row : StackRow port sp width is steps) :
    (pushesOf is).length = pushes steps := by
  induction row with
  | nil => rfl
  | @cons i step is steps head tail ih =>
      by_cases push : step.isPush
      · rw [pushesOf_push (head.1.push_iff.mpr push), List.length_cons, ih, pushes, pushes,
          List.countP_cons_of_pos push]
      · rw [pushesOf_other (mt head.1.push_iff.mp push), ih, pushes, pushes,
          List.countP_cons_of_neg push]

theorem StackRow.passedOver_eq (row : StackRow port sp width is steps) :
    pushes steps + (passedOver is).length = steps.length := by
  have parts := List.length_eq_length_filter_add (l := is) (·.mnem = "push")
  rw [row.length_eq] at parts
  rw [parts, ← row.pushes_eq]
  simp [pushesOf, passedOver]

/-- From a call, the scan gets over the steps. -/
def ScansOver (sp : Nat) (steps : List (Step Nat width)) : Prop :=
  (∀ step ∈ steps, ¬ step.Sets sp sp) ∧ pushes steps < maxPushSequence ∧
    steps.length < pushes steps + maxTransparentSkip

/-- The scan passes over a row that the machine's steps let it pass over. -/
theorem StackRow.scannable_iff (row : StackRow port sp width is steps) (push : i.mnem = "push") :
    Scannable (some sp) (i :: is) ↔ ScansOver sp steps := by
  have count := row.passedOver_eq
  rw [ScansOver, ← row.pushes_eq]
  rw [← row.pushes_eq] at count
  constructor
  · intro scannable
    have few := scannable.2.2
    refine ⟨fun step member => ?_, few.1, by omega⟩
    rcases exists_of_forall₂ row.flip member with ⟨j, inside, form, noJump⟩
    exact (form.passes_iff noJump).mp (scannable.1.mem j inside)
  · intro reaches
    have few : (passedOver is).length < maxTransparentSkip := by omega
    refine ⟨Scannable.of_short (fun j member => ?_) reaches.2.1 few, Or.inl push, reaches.2.1, few⟩
    rcases exists_of_forall₂ row member with ⟨step, inside, form, noJump⟩
    exact (form.passes_iff noJump).mpr (reaches.1 step inside)

end Scan

/-! ## The value of one push -/

section Push

variable {self : BackwardResolver} {sp width : Nat} {i : Instruction} {pre : List Instruction}
variable {before : List (Step Nat width)} {o : Source Nat width}

/-- With enough budget, what is believed of the source is reported for the push. -/
theorem StackForm.answer_push (builtin : self.registry = defaultRegistry) (positive : 0 < width)
    (narrow : width ≤ 8) (row : StackRow self.port sp width pre before)
    (form : StackForm self.port sp width i (.push o)) (line : StraightLine self.port pre i.ea)
    (decoded : self.port.decodeAt i.ea = some i)
    (enough : 2 * (pre.length + 1) + 1 ≤ self.maxSteps) :
    ∃ v, Shows (o.believed sp before) v ∧ self.answer (.atInstruction i.ea 0) = some v := by
  cases form with
  | @pushImm op n mnem operands number flag imm =>
      have push : PushImm i n.toNat := ⟨mnem, op, operands, imm.kind, number, imm.value⟩
      exact ⟨_, rfl, push.answered builtin decoded (by omega)⟩
  | @pushReg op r mnem operands number flag operand =>
      have first : i.operand 0 = some op := by simp [Instruction.operand, operands, number]
      have matched := findMatch_push mnem (by rw [first]; rfl)
      rw [← builtin] at matched
      rcases row.believes builtin positive narrow line r operand.whole with
        ⟨v, cost, value, -, asked⟩
      refine ⟨v, value, answer_of_attempt (b := (self.freshBudget.spend 1).spend cost) ?_⟩
      have step : self.freshBudget.step = (true, self.freshBudget.spend 1) :=
        ResolutionBudget.step_spend (by simp only [BackwardResolver.freshBudget]; omega)
      have deep : pre.length < self.fuel := by
        simp only [BackwardResolver.fuel]
        omega
      have left : (self.freshBudget.spend 1).stepsUsed + 2 * (pre.length + 1) ≤
          (self.freshBudget.spend 1).maxSteps := by
        simp only [BackwardResolver.freshBudget, ResolutionBudget.spend]
        omega
      have extracted : pushLocator.extract self.port (self.port.getFuncStart i.ea) i 0 =
          .call (.resolveRegister (some r) i.ea) fun v => Extraction.resolved v := by
        rw [pushLocator_extract_reg first operand.kind, operand.reg]
      have relayed := attempt_relay (f := fun v => v) matched extracted
        (asked self.fuel self.fuel (self.freshBudget.spend 1) deep deep left)
      simp only [BackwardResolver.program, BackwardResolver.instructionQuery,
        BackwardResolver.resolveAtInstructionImpl, bind_eq, Query.step_bind, Query.get_bind,
        Query.funcEaFor_bind, attempt_call, handler, step, if_true, decoded]
      exact relayed

/-- With any budget, something concrete is reported only where it is believed. -/
theorem StackForm.answer_concrete (builtin : self.registry = defaultRegistry)
    (positive : 0 < width) (narrow : width ≤ 8) (row : StackRow self.port sp width pre before)
    (form : StackForm self.port sp width i (.push o)) (line : StraightLine self.port pre i.ea)
    (decoded : self.port.decodeAt i.ea = some i) {d : Datum} {k : ValueKind}
    (answered : self.answer (.atInstruction i.ea 0) = some (.concrete d k)) :
    ∃ x, o.believed sp before = some x ∧ d = .int x.toNat := by
  have strict := strict_of_builtin builtin
  have builtin' : (self.withLimits (self.maxSteps + (2 * (pre.length + 1) + 1))
      self.maxBlocks).registry = defaultRegistry := builtin
  have known : (ValueLattice.concrete d k).isKnown = true := rfl
  have larger := answer_withLimits strict
    (Nat.le_add_right self.maxSteps (2 * (pre.length + 1) + 1)) (Nat.le_refl _) known answered
  rcases StackForm.answer_push builtin' positive narrow row form line decoded
    (Nat.le_add_left _ _) with ⟨v, value, reported⟩
  obtain rfl : v = .concrete d k := Option.some.inj (reported.symm.trans larger)
  cases believed : o.believed sp before with
  | none =>
      rw [believed] at value
      cases value
  | some x =>
      rw [believed] at value
      cases value
      exact ⟨x, rfl, rfl⟩

end Push

/-! ## The arguments reported for a caller -/

/-- A function that makes the steps and then calls the target. -/
structure StackCaller (e : ParamExtractor) (sp width : Nat) (steps : List (Step Nat width))
    (target callEa : Nat) where
  builtin : e.registry = defaultRegistry
  absent : e.hexrays = none
  pointer : e.port.stackPointerReg = some sp
  pointerSize : e.port.pointerSize = width
  calls : callEa ∈ e.port.codeRefsTo target
  call : ∃ i, e.port.decodeAt callEa = some i ∧ i.isCall
  is : List Instruction
  line : StraightLine e.port.toIdaPort is callEa
  row : StackRow e.port.toIdaPort sp width is steps

/-- What any extractor reports for argument `i` of any such caller, if it is concrete, is
what the stack holds in its place when the steps were made from `s`. -/
def PushedArgumentHolds (sp width : Nat) (steps : List (Step Nat width)) (s : State Nat width)
    (i : Nat) : Prop :=
  ∀ (e : ParamExtractor) (target callEa : Nat), StackCaller e sp width steps target callEa →
    ∀ (n : Nat) (argTypes : ArgTypes) (history : List Request) (values : List ValueLattice)
      (d : Datum) (k : ValueKind),
      argumentsAt (e.extractCalls target (some (.template cdecl)) (some n) argTypes
        (fun _ => none) (e.after history e.new)).1 callEa = some values →
      values[i]? = some (.concrete d k) →
        d = .int (read (run sp steps s).mem
          ((run sp steps s).regs sp + ((i * width : Nat) : BitVec (width * 8))) width)

section Caller

variable {e : ParamExtractor} {sp width target callEa i : Nat} {steps : List (Step Nat width)}

/-- A number that is reported for an argument is the operand of a push that the scan reaches. -/
theorem StackCaller.reported (caller : StackCaller e sp width steps target callEa)
    (positive : 0 < width) (narrow : width ≤ 8) {d : Datum} {k : ValueKind}
    (found : e.slotValue callEa (cdecl.slot e.port i) = some (.concrete d k)) :
    ∃ before o after x, steps = before ++ .push o :: after ∧ pushes after = i ∧
      ScansOver sp after ∧ o.believed sp before = some x ∧ d = .int x.toNat := by
  rw [cdecl_slotValue_eq caller.line, caller.pointer] at found
  split at found
  · cases found
  · rename_i ea taken
    rcases takePushes_fromLast.mp taken with ⟨pre, p, post, split, push, count, scannable, rfl⟩
    have row := caller.row
    rw [split] at row
    rcases forall₂_split row.flip with ⟨before, step, after, parts, early, form, late⟩
    have row' : StackRow e.port.toIdaPort sp width post after := late.flip
    have decoded := caller.line.headsBefore.decoded p (by simp [split])
    cases step with
    | push o =>
        have builtin : e.resolver.registry = defaultRegistry := caller.builtin
        rcases StackForm.answer_concrete builtin positive narrow early.flip form.1
          (caller.line.upTo split) decoded found with ⟨x, believed, value⟩
        exact ⟨before, o, after, x, parts, row'.pushes_eq.symm.trans count,
          (row'.scannable_iff push).mp scannable, believed, value⟩
    | pop | mov | add | sub => cases form.1.push_iff.mp push

/-- A push that the scan reaches, of a number or a known register, is reported for its argument. -/
theorem StackCaller.reports (caller : StackCaller e sp width steps target callEa)
    (positive : 0 < width) (narrow : width ≤ 8) {before after : List (Step Nat width)}
    {o : Source Nat width} (split : steps = before ++ .push o :: after)
    (reaches : ScansOver sp after) (enough : 2 * (steps.length + 1) + 1 ≤ e.maxSteps)
    {x : BitVec (width * 8)} (believed : o.believed sp before = some x) :
    e.slotValue callEa (cdecl.slot e.port (pushes after)) =
      some (.concrete (.int x.toNat) .int) := by
  subst split
  rcases forall₂_split caller.row with ⟨pre, p, post, parts, early, form, late⟩
  have late' : StackRow e.port.toIdaPort sp width post after := late
  have push : p.mnem = "push" := form.1.push_iff.mpr rfl
  have taken : (takePushes (some sp) caller.is.reverse [] 0).reverse[pushes after]? = some p.ea :=
    takePushes_fromLast.mpr ⟨pre, p, post, parts, push, late'.pushes_eq,
      (late'.scannable_iff push).mpr reaches, rfl⟩
  have shorter : pre.length ≤ (before ++ .push o :: after).length := by
    rw [early.length_eq, List.length_append]
    exact Nat.le_add_right _ _
  have decoded := caller.line.headsBefore.decoded p (by simp [parts])
  have builtin : e.resolver.registry = defaultRegistry := caller.builtin
  have budget : 2 * (pre.length + 1) + 1 ≤ e.resolver.maxSteps := by
    change _ ≤ e.maxSteps
    omega
  rcases StackForm.answer_push builtin positive narrow early form.1 (caller.line.upTo parts)
    decoded budget with ⟨v, value, answered⟩
  rw [believed] at value
  obtain rfl : v = .concrete (.int x.toNat) .int := value
  rw [cdecl_slotValue_eq caller.line, caller.pointer, taken]
  exact answered

end Caller

/-! ## A caller for every row of steps -/

def callAt (ea : Nat) : Instruction := FakeIdaPort.jump ea "call" 1 0

section Build

variable {port : IdaPort} {sp width : Nat}

theorem callAt_isCall (ea : Nat) : (callAt ea).isCall := by
  change startsWith "call" "call" = true
  decide

theorem callAt_unitSized : UnitSized [callAt] := by
  intro f member ea
  rw [List.mem_singleton.mp member]
  exact ⟨rfl, rfl⟩

theorem stackStepAt_tiles (sp width : Nat) (steps : List (Step Nat width)) :
    Tiles 0 (layOut 0 (steps.map (stackStepAt sp width)) ++ [callAt steps.length])
      (steps.length + 1) := by
  have tiles := layOut_tiles_concat (stackStepAt_unitSized sp width steps) callAt_unitSized
  rwa [List.length_map] at tiles

end Build

/-- An extractor for the row of steps and a call, with enough budget to value every push. -/
def stackExtractor (sp width : Nat) (steps : List (Step Nat width)) : ParamExtractor where
  port :=
    { toIdaPort := linePort { blankPort with pointerSize := width, stackPointerReg := some sp } 0
        (steps.length + 1) (layOut 0 (steps.map (stackStepAt sp width)) ++ [callAt steps.length])
      codeRefsTo := fun _ => [steps.length]
      registerByName := fun _ => none
      getPrototype := fun _ => none }
  registry := defaultRegistry
  maxSteps := 2 * (steps.length + 1) + 1

def stackCaller (sp width : Nat) (steps : List (Step Nat width)) :
    StackCaller (stackExtractor sp width steps) sp width steps 0 steps.length where
  builtin := rfl
  absent := rfl
  pointer := rfl
  pointerSize := rfl
  calls := List.mem_singleton_self _
  call := ⟨_, (stackStepAt_tiles sp width steps).find_eq (i := callAt steps.length) (by simp),
    callAt_isCall _⟩
  is := layOut 0 (steps.map (stackStepAt sp width))
  line := straightLine _ (stackStepAt_tiles sp width steps)
  row := forall₂_layOut (fun step _ => stackStepAt_form (fun _ _ => rfl) step) 0

/-! ## Arguments that are reported right -/

/-- The words that the scan can reach over do not run into each other. -/
theorem ScansOver.roomy {sp width : Nat} {steps : List (Step Nat width)}
    (reaches : ScansOver sp steps) (positive : 0 < width) :
    Roomy (BitVec (width * 8)) ((pops steps + pushes steps + 2) * width) := by
  apply roomy_bitVec
  have few := pops_add_pushes_le steps
  have bounds := reaches.2
  simp only [maxPushSequence, maxTransparentSkip] at bounds
  have words : pops steps + pushes steps + 2 ≤ 2 ^ 7 := by omega
  have narrow : width ≤ 2 ^ width := Nat.lt_two_pow_self.le
  calc
    (pops steps + pushes steps + 2) * width ≤ 2 ^ 7 * 2 ^ width := Nat.mul_le_mul words narrow
    _ = 2 ^ (7 + width) := (pow_add 2 7 width).symm
    _ ≤ 2 ^ (width * 8) := Nat.pow_le_pow_right Nat.two_pos (by omega)

/-- Argument `i` is reported right for every caller with these steps if and only if what is
believed of the push that the scan finds there, if anything, lies in its place at the call. -/
theorem pushed_argument_holds_iff {width : Nat} (positive : 0 < width) (narrow : width ≤ 8)
    (sp : Nat) (steps : List (Step Nat width)) (s : State Nat width) (i : Nat) :
    PushedArgumentHolds sp width steps s i ↔
      ∀ before o after, steps = before ++ .push o :: after → pushes after = i →
        ScansOver sp after → Faithful sp before o after s := by
  constructor
  · intro holds before o after split count reaches
    rw [faithful_iff reaches.1 (reaches.roomy positive)]
    intro x believed
    have reported := (stackCaller sp width steps).reports positive narrow split reaches
      (Nat.le_refl _) believed
    rcases argumentsAt_builtin rfl [] (stackCaller sp width steps).calls
        (resolveConvention_given _ _ _ (i + 1)) CallingConvention.cdecl_builtin [] with
      ⟨values, report, -, each⟩
    have here := each i (Nat.lt_succ_self i) _ rfl
    rw [← count] at here
    have value := holds _ _ _ (stackCaller sp width steps) (i + 1) [] [] values _ _ report
      (by rw [← count]; exact here.trans reported)
    have same := Int.ofNat.inj (Datum.int.inj value)
    rw [same, split, count]
  · intro right e target callEa caller n argTypes history values d k report found
    rcases argumentsAt_builtin caller.absent history caller.calls
        (resolveConvention_given _ _ _ n) CallingConvention.cdecl_builtin argTypes with
      ⟨values', report', length, each⟩
    obtain rfl : values' = values := Option.some.inj (report'.symm.trans report)
    have below : i < n := by
      rw [← length]
      exact (List.getElem?_eq_some_iff.mp found).1
    rw [each i below _ rfl] at found
    rcases caller.reported positive narrow found with
      ⟨before, o, after, x, split, count, reaches, believed, rfl⟩
    have faithful := right before o after split count reaches
    rw [faithful_iff reaches.1 (reaches.roomy positive)] at faithful
    rw [split, ← count, faithful x believed]

/-! ## A pushed word that is popped again -/

namespace PoppedPush

def call : Instruction := FakeIdaPort.jump 0x402006 "call" 5 0x401000

/-- `push 5` and `pop ecx` load a constant. -/
def fake : FakeIdaPort where
  pointerSize := 4
  instructions := [FakeIdaPort.push 0x402000 5 (FakeIdaPort.imm 0 5),
    FakeIdaPort.insn 0x402005 "pop" 1 [FakeIdaPort.reg 0 1], call]
  funcBounds := [(0x402000, 0x40200b)]
  blocks := [(0x402000, [⟨0x402000, 0x40200b, [], []⟩])]

def extractor : ParamExtractor where
  port := fake.toFacadePort
  registry := defaultRegistry

def steps : List (Step Nat 4) := [.push (.imm 5), .pop 1]

/-- The stack pointer is register 4, and memory is empty. -/
def start : State Nat 4 where
  regs r := if r = 4 then 0x1000 else 0
  mem := 0

/-- The word is reported as the argument, and the stack holds what it held before. -/
theorem popped_word_reported :
    argumentsAt (extractor.extractCalls 0x401000 (some (.template cdecl)) (some 1) []
        (fun _ => none) extractor.new).1 0x402006 = some [.concrete (.int 5) .int] ∧
      read (run 4 steps start).mem
        ((run 4 steps start).regs 4 + ((0 * 4 : Nat) : BitVec 32)) 4 = 0 := by
  decide

/-- A register is valued at its push, not at the call. -/
theorem pushed_argument_holds_iff_changed :
    PushedArgumentHolds 4 4 [.mov 0 (.imm 3), .push (.reg 0), .mov 0 (.imm 4)] start 0 := by
  refine (pushed_argument_holds_iff (by decide) (by decide) 4 _ start 0).mpr ?_
  intro before o after split count reaches
  rcases List.cons_eq_append_iff.mp split with ⟨rfl, same⟩ | ⟨rest, rfl, later⟩
  · cases same
  · rcases List.cons_eq_append_iff.mp later with ⟨rfl, same⟩ | ⟨rest', rfl, last⟩
    · cases same
      intro δ drifted
      rw [if_pos (by decide)]
      exact (Option.some.inj drifted).symm
    · have member : Step.push o ∈ ([.mov 0 (.imm 4)] : List (Step Nat 4)) := by
        rw [last]
        simp
      simp at member

end PoppedPush

end IDAnalysister
