import IDAnalysister.Backward.Overlap
import IDAnalysister.Backward.StackRows
import IDAnalysister.Library.MovingBase
import IDAnalysister.Library.StackFrame

/-!
# Cells of the stack

What `resolve_memory` reports for `[sp+d]` after stores of immediates relative to the stack
pointer, pushes, pops, and additions to the stack pointer. The last store whose delta is
reported and adds up to the queried offset decides; a push has no written operand, and a store
whose delta is not reported is in a space of its own. `stack_answers_hold_iff` says for which
layouts every report is what the stack holds.
-/

namespace IDAnalysister

open Bytes StackMachine

/-! ## Steps with numbers -/

/-- Where a number is stored: at `[sp+disp]`, with the delta that is reported for the
instruction, or on the top of the stack. -/
inductive StackPlace
  | cell (disp : Int) (delta : Option Int)
  | top
  deriving DecidableEq

/-- A step that stores no number. -/
inductive StackMove (width : Nat)
  | pop (r : Nat)
  | add (n : BitVec (width * 8))
  | sub (n : BitVec (width * 8))
  deriving DecidableEq

abbrev StackStep (width : Nat) := Numbered StackPlace (StackMove width)

namespace StackStep

variable {width : Nat}

/-- The step on the machine. -/
def access : StackStep width → Access Nat width
  | .store (.cell disp _) n => .store (BitVec.ofInt _ disp) (.imm (BitVec.ofNat _ n))
  | .store .top n => .step (.push (.imm (BitVec.ofNat _ n)))
  | .other (.pop r) => .step (.pop r)
  | .other (.add n) => .step (.add n)
  | .other (.sub n) => .step (.sub n)

/-- The step is a store whose reported delta and displacement add up to the offset. -/
def StoresAt (offset : Int) : StackStep width → Prop
  | .store (.cell disp (some delta)) _ => delta + disp = offset
  | _ => False

theorem StoresAt.erase {offset : Int} {step : StackStep width} :
    StoresAt offset step.erase ↔ StoresAt offset step := by
  rcases step with ⟨place, n⟩ | t
  · rcases place with ⟨disp, _ | delta⟩ | _ <;> rfl
  · rfl

end StackStep

/-- How the steps move the stack pointer, and where they store. -/
def stackMoving (width : Nat) : Moving (BitVec (width * 8)) StackPlace (StackMove width) where
  address
    | .cell disp _, p => p + BitVec.ofInt _ disp
    | .top, p => p - width
  onStore
    | .cell _ _, p => p
    | .top, p => p - width
  onOther
    | .pop _, p => p + width
    | .add n, p => p + n
    | .sub n, p => p - n

/-- No step pops the stack pointer itself. -/
def KeepsPointer {width : Nat} (sp : Nat) (steps : List (StackStep width)) : Prop :=
  .other (.pop sp) ∉ steps

section Machine

variable {width sp : Nat} {steps before after : List (StackStep width)} {n : Nat}
variable {s : State Nat width}

theorem exec_access {step : StackStep width} (other : step ≠ .other (.pop sp))
    (fits : ∀ t ∈ Numbered.stores [step], t.2 < 256 ^ width) (s : State Nat width) :
    (step.access.exec sp s).regs sp = (stackMoving width).after step (s.regs sp) ∧
      (step.access.exec sp s).mem =
        storeAll ((stackMoving width).placed width [step] (s.regs sp)) s.mem := by
  rw [Access.exec_mem]
  rcases step with ⟨place, m⟩ | t
  · have bound : m < 256 ^ width := fits (place, m) List.mem_cons_self
    have number : (BitVec.ofNat (width * 8) m).toNat = m := by
      rw [BitVec.toNat_ofNat, Nat.mul_comm, Nat.pow_mul]
      exact Nat.mod_eq_of_lt bound
    cases place with
    | cell disp delta =>
        refine ⟨rfl, ?_⟩
        simp [StackStep.access, Access.wrote, Source.value, number, Moving.placed, stackMoving]
    | top =>
        refine ⟨push_pointer _, ?_⟩
        simp [StackStep.access, Access.wrote, Source.value, number, Moving.placed, stackMoving]
  · cases t with
    | pop r =>
        have apart : r ≠ sp := fun same => other (by rw [same])
        exact ⟨pop_pointer apart, rfl⟩
    | add x => exact ⟨Function.update_self .., rfl⟩
    | sub x => exact ⟨Function.update_self .., rfl⟩

/-- The machine moves the stack pointer as the steps do and makes their stores. -/
theorem run_steps (steady : KeepsPointer sp steps)
    (fits : ∀ t ∈ Numbered.stores steps, t.2 < 256 ^ width)
    (s : State Nat width) :
    (Access.run sp (steps.map StackStep.access) s).regs sp =
        (stackMoving width).base steps (s.regs sp) ∧
      (Access.run sp (steps.map StackStep.access) s).mem =
        storeAll ((stackMoving width).placed width steps (s.regs sp)) s.mem := by
  induction steps generalizing s with
  | nil => exact ⟨rfl, rfl⟩
  | cons step steps ih =>
      have split : step :: steps = [step] ++ steps := rfl
      rw [split, Numbered.stores_append] at fits
      have other : step ≠ .other (.pop sp) := fun same => steady (same ▸ List.mem_cons_self)
      have here := exec_access other (fun t member => fits t (List.mem_append_left _ member)) s
      have rest := ih (fun member => steady (List.mem_cons_of_mem _ member))
        (fun t member => fits t (List.mem_append_right _ member)) (step.access.exec sp s)
      rw [here.1, here.2] at rest
      rw [List.map_cons, Access.run_cons, split, Moving.placed_append, storeAll_append,
        Moving.base_append]
      exact rest

/-- The steps move the stack pointer by as much from everywhere. -/
theorem base_add (steps : List (StackStep width)) (p : BitVec (width * 8)) :
    (stackMoving width).base steps p = p + (stackMoving width).base steps 0 := by
  induction steps generalizing p with
  | nil => simp
  | cons step steps ih =>
      rw [Moving.base_cons, Moving.base_cons, ih, ih ((stackMoving width).after step 0),
        ← add_assoc]
      congr 1
      rcases step with ⟨place, m⟩ | t
      · cases place with
        | cell disp delta => simp [Moving.after, stackMoving]
        | top => simp [Moving.after, stackMoving, sub_eq_add_neg]
      · cases t with
        | pop r => simp [Moving.after, stackMoving]
        | add x => simp [Moving.after, stackMoving]
        | sub x => simp [Moving.after, stackMoving, sub_eq_add_neg]

end Machine

/-! ## What is reported -/

/-- The instruction makes the step; `delta` is what the port reports for a store. -/
inductive CellForm (port : IdaPort) (funcEa sp width : Nat) (i : Instruction) :
    StackStep width → Prop
  | store {disp : Int} {delta : Option Int} {n : Nat} : BaseStore i sp disp width n →
    port.getSpDelta funcEa i.ea = delta →
    CellForm port funcEa sp width i (.store (.cell disp delta) n)
  | plain {step : StackStep width} {a : Step Nat width} : StackForm port sp width i a →
    step.access = .step a → CellForm port funcEa sp width i step

/-- The instructions make the steps. -/
def CellRow (port : IdaPort) (funcEa sp width : Nat) (is : List Instruction)
    (steps : List (StackStep width)) : Prop :=
  List.Forall₂ (CellForm port funcEa sp width) is steps

section Row

variable {self : BackwardResolver} {port : IdaPort} {funcEa sp width use n : Nat}
variable {i : Instruction} {is : List Instruction} {disp offset : Int} {delta : Option Int}
variable {step : StackStep width} {steps before after : List (StackStep width)}

/-- A step of the stack machine writes no memory operand. -/
theorem StackForm.quiet {a : Step Nat width} (form : StackForm port sp width i a) :
    ∀ op ∈ i.operands, op.isMemory → i.isWritten op.number = false := by
  have notReg {op : Operand} {r : Nat} (operand : RegOperand port (width * 8) op r) :
      op.isMemory = false := Operand.isMemory_of_reg operand.kind
  have notImm {op : Operand} {x : Int} (operand : ImmOperand (width * 8) op x) :
      op.isMemory = false := by simp [Operand.isMemory, operand.kind]
  intro op member memory
  cases form with
  | pushImm _ operands _ _ operand =>
      rw [operands, List.mem_singleton] at member
      subst member
      simp [notImm operand] at memory
  | pushReg _ operands _ _ operand =>
      rw [operands, List.mem_singleton] at member
      subst member
      simp [notReg operand] at memory
  | pop _ operands _ _ operand =>
      rw [operands, List.mem_singleton] at member
      subst member
      simp [notReg operand] at memory
  | movImm _ pair dest src =>
      rw [pair.operands] at member
      rcases List.mem_pair.mp member with rfl | rfl
      · simp [notReg dest] at memory
      · simp [notImm src] at memory
  | movReg _ pair dest src =>
      rw [pair.operands] at member
      rcases List.mem_pair.mp member with rfl | rfl
      · simp [notReg dest] at memory
      · simp [notReg src] at memory
  | add _ pair dest src =>
      rw [pair.operands] at member
      rcases List.mem_pair.mp member with rfl | rfl
      · simp [notReg dest] at memory
      · simp [notImm src] at memory
  | sub _ pair dest src =>
      rw [pair.operands] at member
      rcases List.mem_pair.mp member with rfl | rfl
      · simp [notReg dest] at memory
      · simp [notImm src] at memory

theorem memoryLocation_sp (pointer : port.stackPointerReg = some sp) (disp : Int) (ea : Nat) :
    memoryLocation port (some sp) disp ea funcEa =
      match port.getSpDelta funcEa ea with
      | none => (.spUnknown ea, disp)
      | some delta => (.sp, delta + disp) := by
  cases delta : port.getSpDelta funcEa ea with
  | none => simp [memoryLocation, pointer, delta]
  | some δ => simp [memoryLocation, pointer, delta]

theorem CellForm.finding (form : CellForm port funcEa sp width i step)
    (pointer : port.stackPointerReg = some sp) (other : ¬ step.StoresAt offset) :
    memoryFinding port i (.sp, offset) funcEa = none := by
  cases form with
  | @store disp delta n store reported =>
      rw [store.finding_place, if_neg]
      rw [memoryLocation_sp pointer, reported]
      cases delta with
      | none => simp
      | some delta =>
          intro same
          exact other (Prod.mk.inj same).2
  | plain form _ => exact memoryFinding_quiet form.quiet _

/-- Without a delta at the use no instruction before it is a definition of the cell. -/
theorem CellForm.finding_unknown (form : CellForm port funcEa sp width i step)
    (pointer : port.stackPointerReg = some sp) (earlier : i.ea ≠ use) :
    memoryFinding port i (.spUnknown use, disp) funcEa = none := by
  cases form with
  | @store disp' delta n store reported =>
      rw [store.finding_place, if_neg]
      rw [memoryLocation_sp pointer, reported]
      cases delta with
      | none => simp [earlier]
      | some delta => simp
  | plain form _ => exact memoryFinding_quiet form.quiet _

theorem CellRow.clear (pointer : port.stackPointerReg = some sp)
    (row : CellRow port funcEa sp width is steps)
    (other : ∀ step ∈ steps, ¬ step.StoresAt offset) :
    ∀ j ∈ is, memoryFinding port j (.sp, offset) funcEa = none := by
  intro j member
  rcases exists_of_forall₂ row member with ⟨step, inside, form⟩
  exact form.finding pointer (other step inside)

variable {line : StraightLine self.port is use}

/-- Where the delta at the use is not reported, nothing concrete is. -/
theorem CellRow.silent_of_unknown (builtin : self.registry = defaultRegistry)
    (pointer : self.port.stackPointerReg = some sp)
    (reported : self.port.getSpDelta line.funcEa use = none)
    (row : CellRow self.port line.funcEa sp width is steps) (d : Datum) (k : ValueKind) :
    self.resolveMemory (some sp) disp use width ≠ some (.concrete d k) := by
  apply line.memory_silent builtin
  intro j member
  rw [memoryLocation_sp pointer, reported]
  rcases exists_of_forall₂ row member with ⟨step, -, form⟩
  apply form.finding_unknown pointer
  rw [← line.executed, before, List.mem_filter, decide_eq_true_eq] at member
  exact member.2.ne

/-- Where no store has the queried offset, nothing concrete is reported. -/
theorem CellRow.silent (builtin : self.registry = defaultRegistry)
    (pointer : self.port.stackPointerReg = some sp) {delta : Int}
    (reported : self.port.getSpDelta line.funcEa use = some delta)
    (row : CellRow self.port line.funcEa sp width is steps)
    (other : ∀ step ∈ steps, ¬ step.StoresAt (delta + disp)) (d : Datum) (k : ValueKind) :
    self.resolveMemory (some sp) disp use width ≠ some (.concrete d k) := by
  apply line.memory_silent builtin
  rw [memoryLocation_sp pointer, reported]
  exact row.clear pointer other

/-- What is reported is the number of the last store at the queried offset. -/
theorem CellRow.last (builtin : self.registry = defaultRegistry)
    (pointer : self.port.stackPointerReg = some sp) {delta delta' disp' : Int}
    (reported : self.port.getSpDelta line.funcEa use = some delta)
    (row : CellRow self.port line.funcEa sp width is
      (before ++ .store (.cell disp' (some delta')) n :: after))
    (here : delta' + disp' = delta + disp)
    (other : ∀ step ∈ after, ¬ step.StoresAt (delta + disp)) :
    (after.length + 2 ≤ self.maxSteps →
      self.resolveMemory (some sp) disp use width = some (.concrete (.int n) .int)) ∧
    ∀ d k, self.resolveMemory (some sp) disp use width = some (.concrete d k) → d = .int n := by
  rcases forall₂_split row with ⟨pre, i, post, split, -, form, rest⟩
  rw [← rest.length_eq]
  have located : memoryLocation self.port (some sp) disp use line.funcEa = (.sp, delta + disp) := by
    rw [memoryLocation_sp pointer, reported]
  have clear := CellRow.clear pointer rest other
  rw [← located] at clear
  cases form with
  | store store known =>
      have found : memoryFinding self.port i (.sp, delta + disp) line.funcEa = _ :=
        store.finding_place (.sp, delta + disp)
      rw [memoryLocation_sp pointer, known] at found
      simp only [here, if_true] at found
      rw [← located] at found
      exact line.memory_reported builtin split found clear (store.decides builtin line.funcEa)
  | plain _ same => cases same

end Row

/-! ## Layouts that are reported right -/

/-- Behind steps of this layout the stack pointer is `delta` above where it was, whatever the
numbers and whatever state the steps start in. -/
def ExactAt {width : Nat} (sp : Nat) (layout : List (StackStep width)) (delta : Int) : Prop :=
  ∀ steps, Numbered.SameLayout steps layout →
    (∀ t ∈ Numbered.stores steps, t.2 < 256 ^ width) →
    ∀ s : State Nat width,
      (Access.run sp (steps.map StackStep.access) s).regs sp = s.regs sp + BitVec.ofInt _ delta

/-- The deltas that are reported for stores and for the use are exact. -/
structure ExactDeltas {width : Nat} (sp : Nat) (layout : List (StackStep width))
    (delta : Option Int) : Prop where
  stores : ∀ before disp δ n after, layout = before ++ .store (.cell disp (some δ)) n :: after →
    ExactAt sp before δ
  use : ∀ δ, delta = some δ → ExactAt sp layout δ

/-- Under any limits, after steps of this layout with any numbers, from any state of the
machine, a concrete answer is the word that the stack holds at `[sp+disp]`. -/
def StackAnswersHold (sp width : Nat) (layout : List (StackStep width)) (delta : Option Int)
    (disp : Int) : Prop :=
  ∀ (self : BackwardResolver) (is : List Instruction) (use : Nat)
    (line : StraightLine self.port is use) (steps : List (StackStep width)),
    self.registry = defaultRegistry → self.port.stackPointerReg = some sp →
    self.port.getSpDelta line.funcEa use = delta →
    CellRow self.port line.funcEa sp width is steps →
    (∀ t ∈ Numbered.stores steps, t.2 < 256 ^ width) → Numbered.SameLayout steps layout →
    ∀ (s : State Nat width) (d : Datum) (k : ValueKind),
      self.resolveMemory (some sp) disp use width = some (.concrete d k) →
        d = .int (read (Access.run sp (steps.map StackStep.access) s).mem
          ((Access.run sp (steps.map StackStep.access) s).regs sp + BitVec.ofInt _ disp) width)

/-- No push and no store behind the last store at the offset overlaps its cell. Addresses are
relative to the stack pointer at the start. -/
def LastStoreKept {width : Nat} (layout : List (StackStep width)) (offset : Int) : Prop :=
  ∀ before disp delta n after, layout = before ++ .store (.cell disp (some delta)) n :: after →
    delta + disp = offset → (∀ step ∈ after, ¬ StackStep.StoresAt offset step) →
      ∀ c ∈ (stackMoving width).cells width after (BitVec.ofInt _ delta),
        ¬ c.Overlaps ⟨BitVec.ofInt _ offset, width⟩

section Layout

variable {width sp : Nat} {steps layout before after : List (StackStep width)} {delta : Option Int}
variable {disp : Int}

theorem KeepsPointer.congr (same : Numbered.SameLayout before after)
    (steady : KeepsPointer sp before) : KeepsPointer sp after := by
  have none : ∀ step ∈ before, step ≠ .other (.pop sp) := by
    intro step member here
    exact steady (here ▸ member)
  intro member
  refine same.forall_congr ?_ none _ member rfl
  intro step
  cases step <;> simp [Numbered.erase]

/-- Zeros stored to a memory of zeros. -/
theorem run_zero (steps : List (StackStep width)) {s : State Nat width} (zero : s.mem = 0) :
    (Access.run sp ((steps.map Numbered.erase).map StackStep.access) s).mem = 0 := by
  induction steps generalizing s with
  | nil => exact zero
  | cons step steps ih =>
      rw [List.map_cons, List.map_cons, Access.run_cons]
      apply ih
      rw [Access.exec_mem, zero]
      rcases step with ⟨place, n⟩ | t
      · cases place <;>
          simp [Numbered.erase, StackStep.access, Access.wrote, Source.value, write_zero]
      · cases t <;> rfl

/-- After the stack pointer was popped no delta is exact, since it may be zero wherever it was. -/
theorem ExactAt.keepsPointer (positive : 0 < width) {δ : Int} (exact : ExactAt sp layout δ) :
    KeepsPointer sp layout := by
  have bound : 0 < 256 ^ width := Nat.pow_pos (by decide)
  have behind := exact _ (Numbered.sameLayout_erase layout) (Numbered.lt_of_erased layout bound)
  intro popped
  rcases ConsistentCfg.exists_last (· = Numbered.other (StackMove.pop sp)) layout with
    none | ⟨early, step, late, split, rfl, quiet⟩
  · exact none _ popped rfl
  · have still : KeepsPointer sp (late.map Numbered.erase) := by
      have alike : Numbered.SameLayout late (late.map Numbered.erase) :=
        (Numbered.sameLayout_erase late).symm
      exact KeepsPointer.congr alike fun member => quiet _ member rfl
    have pointer (p : BitVec (width * 8)) :
        (stackMoving width).base (late.map Numbered.erase) 0 = p + BitVec.ofInt _ δ := by
      have here := behind ⟨fun _ => p, 0⟩
      rw [split, List.map_append, List.map_cons, List.map_append, List.map_cons,
        Access.run_append, Access.run_cons,
        (run_steps still (Numbered.lt_of_erased late bound) _).1] at here
      rw [← here]
      congr 1
      have zero : (Access.run sp ((early.map Numbered.erase).map StackStep.access)
          ⟨fun _ => p, 0⟩).mem = 0 := run_zero early rfl
      simp only [Numbered.erase, StackStep.access, Access.exec, exec, Function.update_self]
      rw [zero, read_zero]
      rfl
    have clash := (pointer 0).symm.trans (pointer 1)
    rw [add_left_inj] at clash
    have bits : 0 % 2 ^ (width * 8) = 1 % 2 ^ (width * 8) := congrArg BitVec.toNat clash
    rw [Nat.zero_mod, Nat.mod_eq_of_lt (Nat.one_lt_two_pow (by omega))] at bits
    exact absurd bits (by decide)

/-- Where the stack pointer was not popped the exact delta is how far the steps move it. -/
theorem exactAt_iff (positive : 0 < width) {δ : Int} : ExactAt sp layout δ ↔
    KeepsPointer sp layout ∧ (stackMoving width).base layout 0 = BitVec.ofInt _ δ := by
  constructor
  · intro exact
    have steady := exact.keepsPointer positive
    have bound : 0 < 256 ^ width := Nat.pow_pos (by decide)
    have zeros := Numbered.lt_of_erased layout bound
    have still := KeepsPointer.congr (Numbered.sameLayout_erase layout).symm steady
    have ran := (run_steps still zeros ⟨fun _ => 0, 0⟩).1
    rw [exact _ (Numbered.sameLayout_erase layout) zeros, Moving.base_erase, zero_add] at ran
    exact ⟨steady, ran.symm⟩
  · intro moves steps same fits s
    rw [(run_steps (moves.1.congr same.symm) fits s).1, base_add, Moving.base_congr same, moves.2]

/-- The cells of a row, seen from another start. -/
theorem cells_shift {c : Cell (BitVec (width * 8))} {p x : BitVec (width * 8)}
    (member : c ∈ (stackMoving width).cells width steps (p + x)) :
    ∃ e ∈ (stackMoving width).cells width steps x, c = ⟨p + e.addr, e.size⟩ := by
  induction steps generalizing x with
  | nil => cases member
  | cons step steps ih =>
      rcases step with ⟨place, n⟩ | t
      · have cells (y : BitVec (width * 8)) :
            (stackMoving width).cells width (.store place n :: steps) y =
              ⟨(stackMoving width).address place y, width⟩ ::
                (stackMoving width).cells width steps ((stackMoving width).onStore place y) := rfl
        have address : (stackMoving width).address place (p + x) =
            p + (stackMoving width).address place x := by
          cases place <;> simp [stackMoving, add_assoc, add_sub_assoc]
        have moved : (stackMoving width).onStore place (p + x) =
            p + (stackMoving width).onStore place x := by
          cases place <;> simp [stackMoving, add_sub_assoc]
        rw [cells, address, moved] at member
        rw [cells]
        rcases List.mem_cons.mp member with rfl | later
        · exact ⟨_, List.mem_cons_self, rfl⟩
        · rcases ih later with ⟨e, inside, same⟩
          exact ⟨e, List.mem_cons_of_mem _ inside, same⟩
      · have moved : (stackMoving width).onOther t (p + x) =
            p + (stackMoving width).onOther t x := by
          cases t <;> simp [stackMoving, add_assoc, add_sub_assoc]
        change c ∈ (stackMoving width).cells width steps ((stackMoving width).onOther t (p + x))
          at member
        rw [moved] at member
        exact ih member

/-- The step as an instruction at a given address. -/
def cellStepAt (sp width : Nat) : StackStep width → Nat → Instruction
  | .store (.cell disp _) n, ea => storeTo sp (⟨disp, width⟩, n) ea
  | .store .top n, ea => stackStepAt sp width (.push (.imm (BitVec.ofNat _ n))) ea
  | .other (.pop r), ea => stackStepAt sp width (.pop r) ea
  | .other (.add n), ea => stackStepAt sp width (.add n) ea
  | .other (.sub n), ea => stackStepAt sp width (.sub n) ea

/-- The deltas of the row from address 0, with the one of the use behind it. -/
def deltaAt (steps : List (StackStep width)) (delta : Option Int) (ea : Nat) : Option Int :=
  match steps[ea]? with
  | none => delta
  | some (.store (.cell _ δ) _) => δ
  | some _ => none

theorem cellStepAt_unitSized (sp : Nat) (steps : List (StackStep width)) :
    UnitSized (steps.map (cellStepAt sp width)) := by
  intro f member ea
  rcases List.mem_map.mp member with ⟨step, -, rfl⟩
  rcases step with ⟨place, n⟩ | t
  · cases place with
    | cell disp δ => exact ⟨rfl, rfl⟩
    | top => exact stackStepAt_placed _ ea
  · cases t <;> exact stackStepAt_placed _ ea

theorem cellRow_layOut {port : IdaPort} {funcEa : Nat}
    (blank : ∀ r size, port.registerView r size = none)
    (deltas : ∀ ea, port.getSpDelta funcEa ea = deltaAt steps delta ea) :
    CellRow port funcEa sp width (layOut 0 (steps.map (cellStepAt sp width))) steps := by
  apply forall₂_layOut_at
  intro k step found
  rw [Nat.zero_add]
  rcases step with ⟨place, n⟩ | t
  · cases place with
    | cell disp δ =>
        refine .store (storeTo_store sp (⟨disp, width⟩, n) k) ?_
        rw [deltas]
        change deltaAt steps delta k = δ
        rw [deltaAt, found]
    | top => exact .plain (stackStepAt_form blank (.push (.imm (BitVec.ofNat _ n))) k).1 rfl
  · cases t with
    | pop r => exact .plain (stackStepAt_form blank (.pop r) k).1 rfl
    | add x => exact .plain (stackStepAt_form blank (.add x) k).1 rfl
    | sub x => exact .plain (stackStepAt_form blank (.sub x) k).1 rfl

/-- Answers that always hold read the last store at the offset back. -/
theorem StackAnswersHold.readsBack (positive : 0 < width) {δ δ' disp' : Int} {n : Nat}
    (exact : ExactDeltas sp (before ++ .store (.cell disp' (some δ')) n :: after) (some δ))
    (holds : StackAnswersHold sp width (before ++ .store (.cell disp' (some δ')) n :: after)
      (some δ) disp)
    (here : δ' + disp' = δ + disp) (other : ∀ step ∈ after, ¬ StackStep.StoresAt (δ + disp) step) :
    ReadsBack ((stackMoving width).cells width before 0)
      ⟨(stackMoving width).base before 0 + BitVec.ofInt _ disp', width⟩
      ((stackMoving width).cells width after ((stackMoving width).base before 0))
      (BitVec.ofInt _ δ + BitVec.ofInt _ disp) width := by
  intro m pre post v cells cells' fitting
  rcases Moving.exists_around (M := stackMoving width) (.cell disp' (some δ')) (v := v)
    cells cells' with ⟨xs, ys, alike, alike', made⟩
  let steps := xs ++ .store (.cell disp' (some δ')) v :: ys
  have same : Numbered.SameLayout steps (before ++ .store (.cell disp' (some δ')) n :: after) :=
    alike.append (congrArg (List.cons _) alike')
  have fits : ∀ t ∈ Numbered.stores steps, t.2 < 256 ^ width := by
    apply Moving.fits_of_fitting (M := stackMoving width) (p := 0)
    rw [made]
    exact fitting
  let base : IdaPort :=
    { blankPort with
      stackPointerReg := some sp
      getSpDelta := fun _ ea => deltaAt steps (some δ) ea }
  let self : BackwardResolver :=
    { port := rowPort base (steps.map (cellStepAt sp width))
      registry := defaultRegistry
      maxSteps := ys.length + 2 }
  let line : StraightLine self.port (layOut 0 (steps.map (cellStepAt sp width)))
      (steps.map (cellStepAt sp width)).length := rowLine base (cellStepAt_unitSized sp steps)
  have row : CellRow self.port line.funcEa sp width (layOut 0 (steps.map (cellStepAt sp width)))
      steps := cellRow_layOut (fun _ _ => rfl) fun _ => rfl
  have reported : self.port.getSpDelta line.funcEa (steps.map (cellStepAt sp width)).length =
      some δ := by
    change deltaAt steps (some δ) (steps.map (cellStepAt sp width)).length = some δ
    rw [deltaAt, List.length_map, List.getElem?_eq_none (Nat.le_refl _)]
  have silent : ∀ step ∈ ys, ¬ StackStep.StoresAt (δ + disp) step :=
    alike'.symm.forall_congr (fun step => not_congr StackStep.StoresAt.erase) other
  have answered := (row.last rfl rfl reported here silent).1 (Nat.le_refl _)
  let start : State Nat width := ⟨fun _ => 0, m⟩
  have value := holds self _ _ line steps rfl rfl reported row fits same start _ _ answered
  have final := (exactAt_iff positive).mp (exact.use δ rfl)
  have ran := run_steps (final.1.congr same.symm) fits start
  rw [ran.1, ran.2, Moving.base_congr same, final.2, made] at value
  exact (Int.ofNat.inj (Datum.int.inj value)).symm

/-- A store that is kept is read back, whatever state the steps start in. -/
theorem LastStoreKept.read_eq (positive : 0 < width) {δ δ' disp' : Int} {n : Nat}
    (kept : LastStoreKept layout (δ + disp)) (exact : ExactDeltas sp layout (some δ))
    (split : steps = before ++ .store (.cell disp' (some δ')) n :: after)
    (same : Numbered.SameLayout steps layout) (here : δ' + disp' = δ + disp)
    (other : ∀ step ∈ after, ¬ StackStep.StoresAt (δ + disp) step)
    (fits : ∀ t ∈ Numbered.stores steps, t.2 < 256 ^ width) (s : State Nat width) :
    read (Access.run sp (steps.map StackStep.access) s).mem
      ((Access.run sp (steps.map StackStep.access) s).regs sp + BitVec.ofInt _ disp) width = n := by
  subst split
  rcases same.split_store with ⟨early, n', late, rfl, alike, alike'⟩
  have apart := kept early disp' δ' n' late rfl here
    (alike'.forall_congr (fun step => not_congr StackStep.StoresAt.erase) other)
  have final := (exactAt_iff positive).mp (exact.use δ rfl)
  have start := ((exactAt_iff positive).mp (exact.stores early disp' δ' n' late rfl)).2
  rw [← Moving.base_congr alike] at start
  have ran := run_steps (final.1.congr same.symm) fits s
  have fit : n < 256 ^ width := fits (.cell disp' (some δ'), n) (Numbered.mem_stores.mpr (by simp))
  have place : s.regs sp + BitVec.ofInt (width * 8) δ + BitVec.ofInt _ disp =
      (stackMoving width).base before (s.regs sp) + BitVec.ofInt _ disp' := by
    rw [base_add before, start, add_assoc, add_assoc, ← BitVec.ofInt_add, ← BitVec.ofInt_add, here]
  rw [ran.1, ran.2, Moving.base_congr same, base_add, final.2, place, Moving.placed_append]
  refine @read_storeAll (BitVec (width * 8)) _ _ _ _
    ⟨(stackMoving width).base before (s.regs sp) + BitVec.ofInt _ disp', width⟩ n s.mem
    ((roomy_word width).mono (Nat.le_succ width)) fit ?_
  intro t member overlaps
  have listed : t.1 ∈ (stackMoving width).cells width after (s.regs sp + BitVec.ofInt _ δ') := by
    rw [← start, ← base_add]
    exact List.mem_map_of_mem member
  rcases cells_shift listed with ⟨e, inside, shifted⟩
  rw [Moving.cells_congr alike'] at inside
  apply apart e inside
  rw [← place, add_assoc, ← BitVec.ofInt_add, shifted] at overlaps
  exact Cell.overlaps_add.mp overlaps

end Layout

/-- Where all reported deltas are exact, every report for `[sp+disp]` after steps of a layout is
right if and only if no delta is reported for the use, or no push and no later store overlaps
the last store that has the queried offset by its own delta. -/
theorem stack_answers_hold_iff {sp width : Nat} (positive : 0 < width)
    {layout : List (StackStep width)}
    {delta : Option Int} (exact : ExactDeltas sp layout delta) (disp : Int) :
    StackAnswersHold sp width layout delta disp ↔
      ∀ δ, delta = some δ → LastStoreKept layout (δ + disp) := by
  constructor
  · intro holds δ known before disp' δ' n after split here other
    subst known split
    have at' := ((exactAt_iff positive).mp (exact.stores before disp' δ' n after rfl)).2
    have sizes : ∀ c ∈ (stackMoving width).cells width before 0 ++
        (stackMoving width).cells width after ((stackMoving width).base before 0),
        Roomy (BitVec (width * 8)) c.size := by
      intro c member
      have same : c.size = width := by
        rcases List.mem_append.mp member with early | late
        · exact Moving.size_of_mem early
        · exact Moving.size_of_mem late
      rw [same]
      exact (roomy_word width).mono (Nat.le_succ width)
    have place : BitVec.ofInt (width * 8) δ + BitVec.ofInt _ disp =
        (stackMoving width).base before 0 + BitVec.ofInt _ disp' := by
      rw [at', ← BitVec.ofInt_add, ← BitVec.ofInt_add, here]
    have back := (readsBack_iff sizes (roomy_word width) (Or.inl place)).mp
      (holds.readsBack positive exact here other)
    have apart := back.2.2
    rw [at', ← BitVec.ofInt_add, here] at apart
    exact apart
  · intro right self is use line steps builtin pointer reported row fits same s d k answered
    cases delta with
    | none => exact (row.silent_of_unknown builtin pointer reported d k answered).elim
    | some δ =>
        rcases ConsistentCfg.exists_last (StackStep.StoresAt (δ + disp)) steps with
          none | ⟨pre, step, post, rfl, here, other⟩
        · exact (row.silent builtin pointer reported none d k answered).elim
        · rcases step with ⟨⟨disp', _ | δ'⟩ | _, n⟩ | t
          · cases here
          · have here' : δ' + disp' = δ + disp := here
            have value := (row.last builtin pointer reported here' other).2 d k answered
            have kept := right δ rfl
            rw [value, kept.read_eq positive exact rfl same here' other fits s]
          · cases here
          · cases here

/-! ## A push onto a stored cell -/

namespace PushedOver

def fake : FakeIdaPort where
  pointerSize := 4
  instructions := [
    FakeIdaPort.insn 0x401000 "mov" 8 [FakeIdaPort.memDispl 0 4 (-4), FakeIdaPort.imm 1 1],
    FakeIdaPort.push 0x401008 2 (FakeIdaPort.imm 0 2),
    FakeIdaPort.insn 0x40100a "ret" 1 []]
  spDeltas := [((0x401000, 0x401000), 0), ((0x401000, 0x401008), 0), ((0x401000, 0x40100a), -4)]
  funcBounds := [(0x401000, 0x40100b)]
  blocks := [(0x401000, [⟨0x401000, 0x40100b, [], []⟩])]

def resolver : BackwardResolver where
  port := fake.toPort
  registry := defaultRegistry

def steps : List (StackStep 4) := [.store (.cell (-4) (some 0)) 1, .store .top 2]

def start : State Nat 4 := ⟨fun _ => 0x1000, 0⟩

/-- The stored number is reported, and the pushed one stands in its cell. -/
theorem pushed_over :
    resolver.resolveMemory (some 4) 0 0x40100a 4 = some (.concrete (.int 1) .int) ∧
      read (Access.run 4 (steps.map StackStep.access) start).mem
        ((Access.run 4 (steps.map StackStep.access) start).regs 4) 4 = 2 := by
  decide

/-- A store below the stack pointer, one whose delta is not reported, a frame that is opened
and closed again, and a push into the cell of the first store. -/
def layout : List (StackStep 4) :=
  [.store (.cell (-4) (some 0)) 1, .store (.cell 8 none) 2, .other (.sub 8), .other (.add 8),
    .store .top 3]

/-- The deltas 0 at the first store and -4 at the use are exact. -/
theorem exact : ExactDeltas 4 layout (some (-4)) := by
  constructor
  · intro before disp δ n after split
    rcases List.cons_eq_append_iff.mp split with ⟨rfl, same⟩ | ⟨rest, -, same⟩
    · cases same
      exact (exactAt_iff (by decide)).mpr ⟨List.not_mem_nil, by decide⟩
    · -- no later store has a delta
      have member : Numbered.store (StackPlace.cell disp (some δ)) n ∈ layout.tail := by
        rw [layout, List.tail_cons, same]
        exact List.mem_append_right _ List.mem_cons_self
      simp [layout] at member
  · intro δ same
    cases same
    exact (exactAt_iff (by decide)).mpr ⟨by simp [KeepsPointer, layout], by decide⟩

/-- The pushed number stands in the cell whose first number is reported. -/
theorem stack_answers_hold_iff_layout : ¬ StackAnswersHold 4 4 layout (some (-4)) 0 := by
  intro holds
  have kept := (stack_answers_hold_iff (by decide) exact 0).mp holds (-4) rfl
  have apart := kept [] (-4) 0 1 layout.tail rfl rfl (by simp [layout, StackStep.StoresAt])
  exact apart ⟨BitVec.ofInt _ (-4), 4⟩ (by decide)
    ⟨BitVec.ofInt _ (-4), ⟨0, by decide, by decide⟩, ⟨0, by decide, by decide⟩⟩

end PushedOver

end IDAnalysister
