import IDAnalysister.Backward.Overlap
import IDAnalysister.Library.MovingBase

/-!
# Cells relative to a moving pointer

What `resolve_memory` reports for `[r+d]` after stores of immediates relative to `r` and
assignments and additions to `r` itself. The last store with the literal displacement `d`
decides; that `r` may have another value at the use is not looked at.
`pointer_answers_hold_iff` says when the reported immediate is what the memory holds there.
-/

namespace IDAnalysister

open Bytes

/-! ## Stores and pointer updates -/

/-- `mov r, x`, `add r, x` or `sub r, x`. -/
inductive PointerUpdate
  | assign (x : Int)
  | add (x : Int)
  | sub (x : Int)
  deriving DecidableEq

namespace PointerUpdate

def mnem : PointerUpdate → String
  | assign _ => "mov"
  | add _ => "add"
  | sub _ => "sub"

def amount : PointerUpdate → Int
  | assign x => x
  | add x => x
  | sub x => x

def apply {W : Nat} : PointerUpdate → BitVec W → BitVec W
  | assign x, _ => BitVec.ofInt W x
  | add x, p => p + BitVec.ofInt W x
  | sub x, p => p - BitVec.ofInt W x

end PointerUpdate

/-- An instruction of the row: `mov [r+disp], n`, or an update of `r`. -/
abbrev PointerStep := Numbered Int PointerUpdate

/-- The value of the register after the step. -/
def PointerStep.pointer {W : Nat} : PointerStep → BitVec W → BitVec W
  | .store _ _, p => p
  | .other u, p => u.apply p

/-- The value of the register after the steps. -/
def pointerAfter {W : Nat} (steps : List PointerStep) (p : BitVec W) : BitVec W :=
  steps.foldl (fun p step => PointerStep.pointer step p) p

/-- The stores of `size` bytes that the steps make, with the addresses they go to. -/
def storesOf {W : Nat} (size : Nat) : List PointerStep → BitVec W → List (Cell (BitVec W) × Nat)
  | [], _ => []
  | .store disp n :: steps, p => (⟨p + BitVec.ofInt W disp, size⟩, n) :: storesOf size steps p
  | .other u :: steps, p => storesOf size steps (u.apply p)

/-- The cells that the steps store to. -/
def cellsOf {W : Nat} (size : Nat) (steps : List PointerStep) (p : BitVec W) :
    List (Cell (BitVec W)) :=
  (storesOf size steps p).map Prod.fst

/-- The steps as stores relative to a base that moves. -/
def pointerMoving (W : Nat) : Moving (BitVec W) Int PointerUpdate where
  address disp p := p + BitVec.ofInt W disp
  onStore _ p := p
  onOther u p := u.apply p

section Steps

variable {W size : Nat} {before after : List PointerStep}

theorem storesOf_eq (size : Nat) (steps : List PointerStep) (p : BitVec W) :
    storesOf size steps p = (pointerMoving W).placed size steps p := by
  induction steps generalizing p with
  | nil => rfl
  | cons step steps ih =>
      cases step with
      | store disp n => exact congrArg (List.cons _) (ih p)
      | other u => exact ih _

theorem cellsOf_eq (size : Nat) (steps : List PointerStep) (p : BitVec W) :
    cellsOf size steps p = (pointerMoving W).cells size steps p :=
  congrArg (List.map Prod.fst) (storesOf_eq size steps p)

theorem pointerAfter_eq (steps : List PointerStep) (p : BitVec W) :
    pointerAfter steps p = (pointerMoving W).base steps p := by
  induction steps generalizing p with
  | nil => rfl
  | cons step steps ih => cases step <;> exact ih _

theorem storesOf_append {p : BitVec W} :
    storesOf size (before ++ after) p =
      storesOf size before p ++ storesOf size after (pointerAfter before p) := by
  rw [storesOf_eq, storesOf_eq, storesOf_eq, pointerAfter_eq, Moving.placed_append]

/-- Neither the pointer nor the cells depend on the stored numbers. -/
theorem pointerAfter_congr (same : Numbered.SameLayout before after) (p : BitVec W) :
    pointerAfter before p = pointerAfter after p := by
  rw [pointerAfter_eq, pointerAfter_eq, Moving.base_congr same]

theorem cellsOf_congr (same : Numbered.SameLayout before after) (p : BitVec W) :
    cellsOf size before p = cellsOf size after p := by
  rw [cellsOf_eq, cellsOf_eq, Moving.cells_congr same]

theorem cellsOf_size {steps : List PointerStep} {p : BitVec W} {c : Cell (BitVec W)}
    (member : c ∈ cellsOf size steps p) : c.size = size := by
  rw [cellsOf_eq] at member
  exact Moving.size_of_mem member

end Steps

/-! ## What is reported -/

/-- The instruction makes the step on the register `r` of `width` bytes, and stores `size`
bytes if it stores. -/
inductive PointerForm (port : IdaPort) (r width size : Nat) (i : Instruction) : PointerStep → Prop
  | store {disp : Int} {n : Nat} :
    BaseStore i r disp size n → PointerForm port r width size i (.store disp n)
  | other {a b : Operand} {u : PointerUpdate} :
    i.mnem = u.mnem → Pair i a b true false → RegOperand port (width * 8) a r →
    b.kind = .immediate → b.immValue = some u.amount →
    PointerForm port r width size i (.other u)

/-- The instructions make the steps. -/
def PointerRow (port : IdaPort) (r width size : Nat) (is : List Instruction)
    (steps : List PointerStep) : Prop :=
  List.Forall₂ (PointerForm port r width size) is steps

/-- Under any limits, after steps of this layout that store any numbers, from the value `p`
of the register and any memory, a concrete answer is what the memory holds at the address
that the register now points to. -/
def PointerAnswersHold (width size : Nat) (layout : List PointerStep) (p : BitVec (width * 8))
    (disp : Int) : Prop :=
  ∀ (self : BackwardResolver) (r : Nat) (is : List Instruction) (use : Nat)
    (steps : List PointerStep), self.registry = defaultRegistry →
    self.port.stackPointerReg ≠ some r → StraightLine self.port is use →
    PointerRow self.port r width size is steps →
    (∀ s ∈ Numbered.stores steps, s.2 < 256 ^ size) → Numbered.SameLayout steps layout →
    ∀ (m : Memory (BitVec (width * 8))) (d : Datum) (k : ValueKind),
      self.resolveMemory (some r) disp use size = some (.concrete d k) →
        d = .int (read (storeAll (storesOf size steps p) m)
          (pointerAfter steps p + BitVec.ofInt _ disp) size)

section Row

variable {self : BackwardResolver} {r width size n use : Nat} {is : List Instruction} {disp : Int}
variable {steps before after : List PointerStep}

theorem PointerForm.finding {port : IdaPort} {i : Instruction} {step : PointerStep} {funcEa : Nat}
    (form : PointerForm port r width size i step) (notSp : port.stackPointerReg ≠ some r)
    (other : ¬ step.StoresTo disp) (ea : Nat) :
    memoryFinding port i (memoryLocation port (some r) disp ea funcEa) funcEa = none := by
  cases form with
  | store store =>
      rw [store.finding notSp]
      exact if_neg other
  | other _ pair operand _ _ => exact memoryFinding_dest pair operand.kind

theorem PointerRow.clear {port : IdaPort} {funcEa : Nat} (notSp : port.stackPointerReg ≠ some r)
    (row : PointerRow port r width size is steps)
    (other : ∀ step ∈ steps, ¬ step.StoresTo disp) (ea : Nat) :
    ∀ j ∈ is, memoryFinding port j (memoryLocation port (some r) disp ea funcEa) funcEa = none := by
  intro j member
  rcases exists_of_forall₂ row member with ⟨step, inside, form⟩
  exact form.finding notSp (other step inside) ea

/-- What is reported is the number of the last store with the queried displacement. -/
theorem PointerRow.last (builtin : self.registry = defaultRegistry)
    (notSp : self.port.stackPointerReg ≠ some r) (line : StraightLine self.port is use)
    (row : PointerRow self.port r width size is (before ++ .store disp n :: after))
    (other : ∀ step ∈ after, ¬ step.StoresTo disp) :
    (after.length + 2 ≤ self.maxSteps →
      self.resolveMemory (some r) disp use size = some (.concrete (.int n) .int)) ∧
    ∀ d k, self.resolveMemory (some r) disp use size = some (.concrete d k) → d = .int n := by
  rcases forall₂_split row with ⟨pre, i, post, split, -, form, rest⟩
  rw [← rest.length_eq]
  cases form with
  | store store =>
      exact store.reported builtin notSp line split (PointerRow.clear notSp rest other use)

end Row

/-! ## Layouts that are reported right -/

/-- The step as an instruction at a given address, on register 3. -/
def stepAt (width size : Nat) : PointerStep → Nat → Instruction
  | .store disp n, ea => storeTo 3 (⟨disp, size⟩, n) ea
  | .other u, ea =>
      FakeIdaPort.insn ea u.mnem 1 [FakeIdaPort.reg 0 3 width, FakeIdaPort.imm 1 u.amount width]

theorem stepAt_form {port : IdaPort} (blank : ∀ size, port.registerView 3 size = none)
    (width size : Nat) (step : PointerStep) (ea : Nat) :
    PointerForm port 3 width size (stepAt width size step ea) step := by
  cases step with
  | store disp n => exact .store (storeTo_store 3 (⟨disp, size⟩, n) ea)
  | other u =>
      have whole : WholeReg port (width * 8) 3 := by
        intro size' view _ found
        rw [blank] at found
        cases found
      exact .other rfl ⟨rfl, rfl, rfl, rfl, rfl⟩ ⟨rfl, rfl, rfl, whole⟩ rfl rfl

theorem stepAt_unitSized (width size : Nat) (steps : List PointerStep) :
    UnitSized (steps.map (stepAt width size)) := by
  intro f member ea
  rcases List.mem_map.mp member with ⟨step, -, rfl⟩
  cases step <;> exact ⟨rfl, rfl⟩

section Layout

variable {width size : Nat} {layout before after : List PointerStep} {p : BitVec (width * 8)}
variable {disp : Int} {n : Nat}

/-- Answers that always hold read the last store with the displacement back. -/
theorem PointerAnswersHold.readsBack
    (holds : PointerAnswersHold width size (before ++ .store disp n :: after) p disp)
    (other : ∀ step ∈ after, ¬ step.StoresTo disp) :
    ReadsBack (cellsOf size before p) ⟨pointerAfter before p + BitVec.ofInt _ disp, size⟩
      (cellsOf size after (pointerAfter before p))
      (pointerAfter (before ++ .store disp n :: after) p + BitVec.ofInt _ disp) size := by
  intro m pre post v cells cells' fitting
  rw [cellsOf_eq] at cells cells'
  rw [pointerAfter_eq] at cells'
  rcases Moving.exists_around (M := pointerMoving _) disp (v := v) cells cells' with
    ⟨pre', post', left, right, made⟩
  let steps := pre' ++ .store disp v :: post'
  have same : Numbered.SameLayout steps (before ++ .store disp n :: after) :=
    left.append (congrArg (List.cons _) right)
  rw [← storesOf_eq, ← pointerAfter_eq] at made
  have fits : ∀ s ∈ Numbered.stores steps, s.2 < 256 ^ size := by
    apply Moving.fits_of_fitting (M := pointerMoving (width * 8)) (p := p)
    rw [← storesOf_eq, made]
    exact fitting
  let self : BackwardResolver :=
    { port := rowPort blankPort (steps.map (stepAt width size))
      registry := defaultRegistry
      maxSteps := post'.length + 2 }
  have line : StraightLine self.port (layOut 0 (steps.map (stepAt width size)))
      (steps.map (stepAt width size)).length := rowLine _ (stepAt_unitSized width size steps)
  have row : PointerRow self.port 3 width size (layOut 0 (steps.map (stepAt width size))) steps :=
    forall₂_layOut (fun step _ => stepAt_form (fun _ => rfl) width size step) 0
  have notSp : self.port.stackPointerReg ≠ some 3 := by
    intro same
    cases same
  have answered := (row.last rfl notSp line (right.symm.not_storesTo other)).1 (Nat.le_refl _)
  have value := holds self 3 _ _ steps rfl notSp line row fits same m _ _ answered
  rw [made, pointerAfter_congr same] at value
  exact (Int.ofNat.inj (Datum.int.inj value)).symm

end Layout

/-- Every report for `[r+disp]` after steps of a layout is right if and only if at the last
store with this literal displacement, where there is one, the register had the value that it
has at the use, and no later store overlaps the cell. -/
theorem pointer_answers_hold_iff {width size : Nat} (positive : 0 < size)
    (narrow : size < 2 ^ (width * 8)) (layout : List PointerStep) (p : BitVec (width * 8))
    (disp : Int) :
    PointerAnswersHold width size layout p disp ↔
      ∀ before n after, layout = before ++ .store disp n :: after →
        (∀ step ∈ after, ¬ step.StoresTo disp) →
          pointerAfter layout p = pointerAfter before p ∧
            ∀ c ∈ cellsOf size after (pointerAfter before p),
              ¬ c.Overlaps ⟨pointerAfter before p + BitVec.ofInt _ disp, size⟩ := by
  have roomy : Roomy (BitVec (width * 8)) (size + 1) := roomy_bitVec narrow
  constructor
  · intro holds before n after split other
    subst split
    have sizes : ∀ c ∈ cellsOf size before p ++ cellsOf size after (pointerAfter before p),
        Roomy (BitVec (width * 8)) c.size := by
      intro c member
      have same : c.size = size := by
        rcases List.mem_append.mp member with early | late
        · exact cellsOf_size early
        · exact cellsOf_size late
      rw [same]
      exact roomy.mono (Nat.le_succ size)
    have back := (readsBack_iff sizes roomy (Or.inr positive)).mp (holds.readsBack other)
    exact ⟨add_right_cancel back.1, back.2.2⟩
  · intro right self r is use steps builtin notSp line row fits same m d k answered
    rcases ConsistentCfg.exists_last (Numbered.StoresTo disp) steps with
      none | ⟨pre, step, post, split, here, other⟩
    · exact (line.memory_silent builtin (PointerRow.clear notSp row none use) d k answered).elim
    · cases step with
      | other u => cases here
      | store disp' n =>
          obtain rfl : disp' = disp := here
          subst split
          have value := (row.last builtin notSp line other).2 d k answered
          rcases same.split_store with ⟨before, n', after, rfl, left, later⟩
          have now := right before n' after rfl (later.not_storesTo other)
          have start := pointerAfter_congr left p
          have here : pointerAfter (pre ++ .store disp' n :: post) p = pointerAfter pre p := by
            rw [pointerAfter_congr same, now.1, start]
          have fit : n < 256 ^ size := fits (disp', n) (Numbered.mem_stores.mpr (by simp))
          rw [value, here, storesOf_append, storesOf]
          have back := @read_storeAll (BitVec (width * 8)) _ _ (storesOf size pre p)
            (storesOf size post (pointerAfter pre p))
            ⟨pointerAfter pre p + BitVec.ofInt _ disp', size⟩ n m (roomy.mono (Nat.le_succ size))
            fit
          rw [back]
          intro s member
          have listed : s.1 ∈ cellsOf size after (pointerAfter before p) := by
            rw [← cellsOf_congr later, ← start]
            exact List.mem_map_of_mem member
          rw [start]
          exact now.2 s.1 listed

/-! ## A pointer that moves on -/

namespace MovedPointer

def fake : FakeIdaPort where
  pointerSize := 4
  instructions := [
    FakeIdaPort.insn 0x401000 "mov" 6 [FakeIdaPort.memDispl 0 3 0, FakeIdaPort.imm 1 5],
    FakeIdaPort.insn 0x401006 "add" 3 [FakeIdaPort.reg 0 3, FakeIdaPort.imm 1 4],
    FakeIdaPort.insn 0x401009 "ret" 1 []]
  funcBounds := [(0x401000, 0x40100a)]
  blocks := [(0x401000, [⟨0x401000, 0x40100a, [], []⟩])]

def resolver : BackwardResolver where
  port := fake.toPort
  registry := defaultRegistry

def steps : List PointerStep := [.store 0 5, .other (.add 4)]

/-- The number is reported for the next cell, which was never written. -/
theorem next_cell_reported :
    resolver.resolveMemory (some 3) 0 0x401009 4 = some (.concrete (.int 5) .int) ∧
      read (storeAll (storesOf 4 steps (0x1000 : BitVec 32)) (0 : Memory (BitVec 32)))
        (pointerAfter steps (0x1000 : BitVec 32)) 4 = 0 := by
  decide

/-- A pointer that comes back names the cell it was written through. -/
theorem pointer_answers_hold_iff_back :
    PointerAnswersHold 4 4 [.store 0 5, .other (.add 4), .other (.sub 4)] 0x1000 0 := by
  refine (pointer_answers_hold_iff (by decide) (by decide) _ _ _).mpr ?_
  intro before n after split other
  rcases List.cons_eq_append_iff.mp split with ⟨rfl, same⟩ | ⟨rest, -, same⟩
  · cases same
    exact ⟨by decide, fun c member => by cases member⟩
  · have member : Numbered.store 0 n ∈ ([.other (.add 4), .other (.sub 4)] : List PointerStep) := by
      simp [same]
    simp at member

end MovedPointer

end IDAnalysister
