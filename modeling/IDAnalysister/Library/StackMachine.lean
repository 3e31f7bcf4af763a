import IDAnalysister.Library.Bytes

/-!
# A machine with its stack in memory

Registers and memory addresses are words of `width` bytes, and one register points to the
top of a stack that grows downward. `read_argument` says what stands in the cells above the
stack pointer after a row of pushes and pops. `drift` is what a reader of the instructions
gets wrong who does not count that pushes and pops move the stack pointer: `believed_eq`.
-/

namespace StackMachine

open Bytes

/-- A word, or a register. -/
inductive Source (R : Type) (width : Nat)
  | imm (n : BitVec (width * 8))
  | reg (r : R)
  deriving DecidableEq

/-- `add` and `sub` act on the stack pointer. -/
inductive Step (R : Type) (width : Nat)
  | push (o : Source R width)
  | pop (r : R)
  | mov (r : R) (o : Source R width)
  | add (n : BitVec (width * 8))
  | sub (n : BitVec (width * 8))
  deriving DecidableEq

structure State (R : Type) (width : Nat) where
  regs : R → BitVec (width * 8)
  mem : Memory (BitVec (width * 8))

variable {R : Type} {width : Nat}

def Source.value (regs : R → BitVec (width * 8)) : Source R width → BitVec (width * 8)
  | imm n => n
  | reg r => regs r

namespace Step

def isPush : Step R width → Bool
  | push _ => true
  | _ => false

def isPop : Step R width → Bool
  | pop _ => true
  | _ => false

/-- The step names the register as its destination, with `sp` as the stack pointer. -/
def Sets (sp q : R) : Step R width → Prop
  | push _ => False
  | pop r => r = q
  | mov r _ => r = q
  | add _ => sp = q
  | sub _ => sp = q

instance [DecidableEq R] (sp q : R) (step : Step R width) : Decidable (Sets sp q step) := by
  cases step <;> unfold Sets <;> infer_instance

end Step

def pushes (steps : List (Step R width)) : Nat := steps.countP (·.isPush)

def pops (steps : List (Step R width)) : Nat := steps.countP (·.isPop)

section Counts

variable {steps : List (Step R width)}

@[simp] theorem pushes_nil : pushes ([] : List (Step R width)) = 0 := rfl

@[simp] theorem pops_nil : pops ([] : List (Step R width)) = 0 := rfl

@[simp] theorem pushes_push (o : Source R width) : pushes (.push o :: steps) = pushes steps + 1 :=
  List.countP_cons_of_pos rfl

@[simp] theorem pushes_pop (r : R) : pushes (.pop r :: steps) = pushes steps := rfl

@[simp] theorem pushes_mov (r : R) (o : Source R width) :
    pushes (.mov r o :: steps) = pushes steps := rfl

@[simp] theorem pops_push (o : Source R width) : pops (.push o :: steps) = pops steps := rfl

@[simp] theorem pops_pop (r : R) : pops (.pop r :: steps) = pops steps + 1 :=
  List.countP_cons_of_pos rfl

@[simp] theorem pops_mov (r : R) (o : Source R width) : pops (.mov r o :: steps) = pops steps := rfl

/-- No step both pushes and pops. -/
theorem pops_add_pushes_le (steps : List (Step R width)) :
    pops steps + pushes steps ≤ steps.length := by
  induction steps with
  | nil => simp
  | cons step steps ih =>
      cases step with
      | push o =>
          rw [pops_push, pushes_push, List.length_cons]
          omega
      | pop r =>
          rw [pops_pop, pushes_pop, List.length_cons]
          omega
      | mov r o => exact Nat.le_succ_of_le ih
      | add n => exact Nat.le_succ_of_le ih
      | sub n => exact Nat.le_succ_of_le ih

end Counts

variable [DecidableEq R]

/-- Execute a step, with `sp` as the stack pointer. -/
def exec (sp : R) : Step R width → State R width → State R width
  | .push o, s =>
      { regs := Function.update s.regs sp (s.regs sp - width)
        mem := write s.mem (s.regs sp - width) width (o.value s.regs).toNat }
  | .pop r, s =>
      { s with
        regs := Function.update (Function.update s.regs sp (s.regs sp + width)) r
          (BitVec.ofNat _ (read s.mem (s.regs sp) width)) }
  | .mov r o, s => { s with regs := Function.update s.regs r (o.value s.regs) }
  | .add n, s => { s with regs := Function.update s.regs sp (s.regs sp + n) }
  | .sub n, s => { s with regs := Function.update s.regs sp (s.regs sp - n) }

def run (sp : R) (steps : List (Step R width)) (s : State R width) : State R width :=
  steps.foldl (fun s step => exec sp step s) s

section Run

variable {sp : R} {steps before after : List (Step R width)} {step : Step R width}
variable {s : State R width}

@[simp] theorem run_nil : run sp [] s = s := rfl

@[simp] theorem run_cons : run sp (step :: steps) s = run sp steps (exec sp step s) := rfl

@[simp] theorem run_append : run sp (before ++ after) s = run sp after (run sp before s) :=
  List.foldl_append

/-! ## Where the stack pointer goes -/

/-- A push moves the pointer down by a word. -/
theorem push_pointer (o : Source R width) : (exec sp (.push o) s).regs sp = s.regs sp - width :=
  Function.update_self ..

/-- A pop into another register moves the pointer up by a word. -/
theorem pop_pointer {r : R} (other : r ≠ sp) :
    (exec sp (.pop r) s).regs sp = s.regs sp + width := by
  rw [exec]
  simp only [Function.update_of_ne other.symm, Function.update_self]

/-- A move into another register leaves the pointer alone. -/
theorem mov_pointer {r : R} (other : r ≠ sp) (o : Source R width) :
    (exec sp (.mov r o) s).regs sp = s.regs sp :=
  Function.update_of_ne other.symm _ _

/-- Only pushes and pops move the stack pointer where no step sets it. -/
theorem regs_pointer (steady : ∀ step ∈ steps, ¬ step.Sets sp sp) :
    (run sp steps s).regs sp =
      s.regs sp + ((pops steps * width : Nat) : BitVec (width * 8)) -
        ((pushes steps * width : Nat) : BitVec (width * 8)) := by
  induction steps generalizing s with
  | nil => simp
  | cons step steps ih =>
      have rest := @ih (exec sp step s) fun t member => steady t (List.mem_cons_of_mem _ member)
      have here := steady step List.mem_cons_self
      rw [run_cons, rest]
      cases step with
      | push o =>
          rw [pops_push, pushes_push, push_pointer]
          push_cast
          ring
      | pop r =>
          rw [pops_pop, pushes_pop, pop_pointer here]
          push_cast
          ring
      | mov r o => rw [pops_mov, pushes_mov, mov_pointer here]
      | add n => exact (here rfl).elim
      | sub n => exact (here rfl).elim

/-! ## What stays in memory -/

/-- Pushes write below the highest place that the stack pointer gets to. -/
theorem mem_above (steady : ∀ step ∈ steps, ¬ step.Sets sp sp) {x : BitVec (width * 8)}
    (above : ∀ k, 0 < k → k ≤ pops steps + pushes steps → ∀ j < width,
      x ≠ s.regs sp + ((pops steps * width : Nat) : BitVec (width * 8)) -
        ((k * width : Nat) : BitVec (width * 8)) + j) :
    (run sp steps s).mem x = s.mem x := by
  induction steps generalizing s with
  | nil => rfl
  | cons step steps ih =>
      have steady' := fun t member => steady t (List.mem_cons_of_mem step member)
      have here := steady step List.mem_cons_self
      rw [run_cons]
      cases step with
      | push o =>
          rw [pops_push, pushes_push] at above
          have kept : (exec sp (.push o) s).mem x = s.mem x := by
            apply write_outside
            intro j below
            have outside := above (pops steps + 1) (Nat.succ_pos _) (by omega) j below
            intro same
            apply outside
            rw [same]
            push_cast
            ring
          rw [← kept]
          apply ih steady'
          intro k positive le j below
          have outside := above (k + 1) (Nat.succ_pos _) (by omega) j below
          intro same
          apply outside
          rw [same, push_pointer]
          push_cast
          ring
      | pop r =>
          rw [pops_pop, pushes_pop] at above
          apply ih steady'
          intro k positive le j below
          have outside := above k positive (by omega) j below
          intro same
          apply outside
          rw [same, pop_pointer here]
          push_cast
          ring
      | mov r o =>
          rw [pops_mov, pushes_mov] at above
          apply ih steady'
          rw [mov_pointer here]
          exact above
      | add n => exact (here rfl).elim
      | sub n => exact (here rfl).elim

theorem toNat_lt (x : BitVec (width * 8)) : x.toNat < 256 ^ width := by
  have words : 2 ^ (width * 8) = 256 ^ width := by
    rw [Nat.mul_comm, Nat.pow_mul]
  exact x.isLt.trans_eq words

/-- After a push and steps that do not set the stack pointer, the cell that lies as many
words above the stack pointer as words were pushed later: without pops it is the one that
was pushed, and otherwise a cell that lay above the stack pointer before the push. -/
theorem read_argument (steady : ∀ step ∈ after, ¬ step.Sets sp sp) (o : Source R width)
    (roomy : Roomy (BitVec (width * 8)) ((pops after + pushes after + 2) * width)) :
    read (run sp (.push o :: after) s).mem
        ((run sp (.push o :: after) s).regs sp +
          ((pushes after * width : Nat) : BitVec (width * 8))) width =
      if pops after = 0 then (o.value s.regs).toNat
      else read s.mem
        (s.regs sp + (((pops after - 1) * width : Nat) : BitVec (width * 8))) width := by
  let bottom := s.regs sp - (width : BitVec (width * 8))
  let top := bottom + ((pops after * width : Nat) : BitVec (width * 8))
  have pushed : (exec sp (.push o) s).regs sp = bottom := push_pointer o
  have place : (run sp (.push o :: after) s).regs sp +
      ((pushes after * width : Nat) : BitVec (width * 8)) = top := by
    rw [run_cons, regs_pointer steady, pushed, sub_add_cancel]
  rw [place]
  -- nothing behind the push writes there
  have kept : read (run sp (.push o :: after) s).mem top width =
      read (exec sp (.push o) s).mem top width := by
    apply read_congr
    intro j below
    rw [run_cons]
    apply mem_above steady
    intro k positive le j' below' same
    rw [pushed] at same
    have apart : top - ((k * width : Nat) : BitVec (width * 8)) +
        ((k * width + j : Nat) : BitVec (width * 8)) =
          top - ((k * width : Nat) : BitVec (width * 8)) + j' := by
      rw [← same]
      push_cast
      ring
    have bound : k * width + width ≤ (pops after + pushes after + 2) * width := by
      rw [← Nat.succ_mul]
      exact Nat.mul_le_mul_right width (by omega)
    have first : width ≤ k * width := Nat.le_mul_of_pos_left width positive
    have equal := roomy.add_inj (by omega) (by omega) apart
    omega
  rw [kept]
  split
  · rename_i none
    have same : top = bottom := by simp [top, none]
    rw [same]
    apply read_write
    · exact roomy.mono (Nat.le_mul_of_pos_left width (Nat.succ_pos _))
    · exact toNat_lt _
  · rename_i some
    have high : top = s.regs sp + (((pops after - 1) * width : Nat) : BitVec (width * 8)) := by
      have count : pops after * width = (pops after - 1) * width + width := by
        rw [← Nat.succ_mul, Nat.succ_eq_add_one, Nat.sub_add_cancel (Nat.pos_of_ne_zero some)]
      simp only [top, bottom, count]
      push_cast
      ring
    rw [high]
    apply read_congr
    intro j below
    apply write_outside
    intro j' below' same
    have apart : bottom + ((pops after * width + j : Nat) : BitVec (width * 8)) = bottom + j' := by
      rw [Nat.cast_add, ← add_assoc]
      change top + _ = _
      rw [high]
      exact same
    have bound : pops after * width + width ≤ (pops after + pushes after + 2) * width := by
      rw [← Nat.succ_mul]
      exact Nat.mul_le_mul_right width (by omega)
    have first : width ≤ pops after * width :=
      Nat.le_mul_of_pos_left width (Nat.pos_of_ne_zero some)
    have equal := roomy.add_inj (by omega) (by omega) apart
    omega

end Run

/-! ## Reading the steps without counting pushes and pops -/

/-- What a register is set to, as far as it goes back to numbers: popped words are not
known, and pushes and pops are not taken to move the stack pointer. -/
def believe (sp : R) :
    Step R width → (R → Option (BitVec (width * 8))) → R → Option (BitVec (width * 8))
  | .push _, B => B
  | .pop r, B => Function.update B r none
  | .mov r (.imm n), B => Function.update B r (some n)
  | .mov r (.reg q), B => Function.update B r (B q)
  | .add n, B => Function.update B sp ((B sp).map (· + n))
  | .sub n, B => Function.update B sp ((B sp).map (· - n))

def believed (sp : R) (steps : List (Step R width)) : R → Option (BitVec (width * 8)) :=
  steps.foldl (fun B step => believe sp step B) fun _ => none

/-- How far pushes and pops have moved the stack pointer since it was set to a number, in
every register that goes back to a number. -/
def shift (sp : R) :
    Step R width → (R → Option (BitVec (width * 8))) → R → Option (BitVec (width * 8))
  | .push _, D => Function.update D sp ((D sp).map (· - width))
  | .pop r, D => Function.update (Function.update D sp ((D sp).map (· + width))) r none
  | .mov r (.imm _), D => Function.update D r (some 0)
  | .mov r (.reg q), D => Function.update D r (D q)
  | .add _, D => D
  | .sub _, D => D

def drift (sp : R) (steps : List (Step R width)) : R → Option (BitVec (width * 8)) :=
  steps.foldl (fun D step => shift sp step D) fun _ => none

section Believed

variable {sp : R} {steps : List (Step R width)} {step : Step R width} {s : State R width}

theorem believed_append (steps : List (Step R width)) (step : Step R width) :
    (believed sp (steps ++ [step]) : R → Option (BitVec (width * 8))) =
      believe sp step (believed sp steps) := by
  simp [believed]

theorem drift_append (steps : List (Step R width)) (step : Step R width) :
    (drift sp (steps ++ [step]) : R → Option (BitVec (width * 8))) =
      shift sp step (drift sp steps) := by
  simp [drift]

theorem believe_of_other {q : R} {B : R → Option (BitVec (width * 8))} (other : ¬ step.Sets sp q) :
    believe sp step B q = B q := by
  cases step with
  | push o => rfl
  | pop r => exact Function.update_of_ne (Ne.symm other) _ _
  | mov r o =>
      cases o with
      | imm n => exact Function.update_of_ne (Ne.symm other) _ _
      | reg p => exact Function.update_of_ne (Ne.symm other) _ _
  | add n => exact Function.update_of_ne (Ne.symm other) _ _
  | sub n => exact Function.update_of_ne (Ne.symm other) _ _

/-- The register holds what is believed, off by its drift. -/
theorem believed_eq (steps : List (Step R width)) (s : State R width) (q : R) :
    believed sp steps q = (drift sp steps q).map fun δ => (run sp steps s).regs q - δ := by
  induction steps using List.reverseRecOn generalizing q with
  | nil => rfl
  | append_singleton steps step ih =>
      rw [believed_append, drift_append, run_append, run_cons, run_nil]
      cases step with
      | push o =>
          by_cases pointer : q = sp
          · subst pointer
            rw [push_pointer, believe, shift, Function.update_self, ih, Option.map_map]
            congr 1
            funext δ
            change _ = _ - _ - (δ - _)
            ring
          · rw [believe, shift, exec, Function.update_of_ne pointer]
            simp only [Function.update_of_ne pointer]
            exact ih q
      | pop r =>
          by_cases here : q = r
          · subst here
            simp [believe, shift]
          · rw [believe, shift, Function.update_of_ne here, Function.update_of_ne here]
            by_cases pointer : q = sp
            · subst pointer
              rw [pop_pointer (Ne.symm here), Function.update_self, ih, Option.map_map]
              congr 1
              funext δ
              change _ = _ + _ - (δ + _)
              ring
            · rw [Function.update_of_ne pointer, exec]
              simp only [Function.update_of_ne here, Function.update_of_ne pointer]
              exact ih q
      | mov r o =>
          by_cases here : q = r
          · subst here
            cases o with
            | imm n => simp [believe, shift, exec, Source.value]
            | reg p =>
                simp only [believe, shift, exec, Source.value, Function.update_self]
                exact ih p
          · cases o with
            | imm n =>
                simp only [believe, shift, exec, Function.update_of_ne here]
                exact ih q
            | reg p =>
                simp only [believe, shift, exec, Function.update_of_ne here]
                exact ih q
      | add n =>
          by_cases pointer : q = sp
          · subst pointer
            simp only [believe, shift, exec, Function.update_self]
            rw [ih, Option.map_map]
            congr 1
            funext δ
            change _ - δ + _ = _ + _ - δ
            ring
          · simp only [believe, shift, exec, Function.update_of_ne pointer]
            exact ih q
      | sub n =>
          by_cases pointer : q = sp
          · subst pointer
            simp only [believe, shift, exec, Function.update_self]
            rw [ih, Option.map_map]
            congr 1
            funext δ
            change _ - δ - _ = _ - _ - δ
            ring
          · simp only [believe, shift, exec, Function.update_of_ne pointer]
            exact ih q

/-- What a source is believed to be. -/
def Source.believed (sp : R) (steps : List (Step R width)) :
    Source R width → Option (BitVec (width * 8))
  | imm n => some n
  | reg r => StackMachine.believed sp steps r

/-- What that is off by. -/
def Source.drift (sp : R) (steps : List (Step R width)) :
    Source R width → Option (BitVec (width * 8))
  | imm _ => some 0
  | reg r => StackMachine.drift sp steps r

theorem Source.believed_eq (o : Source R width) (s : State R width) :
    o.believed sp steps =
      (o.drift sp steps).map fun δ => o.value (run sp steps s).regs - δ := by
  cases o with
  | imm n => simp [believed, drift, value]
  | reg r => exact StackMachine.believed_eq steps s r

/-- What is believed of a word pushed between `before` and `after` lies in its place at the
end: nothing was popped since and it was pushed as it is believed, or a cell above it, which
pops have brought to this place, happens to hold the same. -/
def Faithful (sp : R) (before : List (Step R width)) (o : Source R width)
    (after : List (Step R width)) (s : State R width) : Prop :=
  ∀ δ, o.drift sp before = some δ →
    if pops after = 0 then δ = 0
    else read (run sp before s).mem ((run sp before s).regs sp +
      (((pops after - 1) * width : Nat) : BitVec (width * 8))) width =
        (o.value (run sp before s).regs - δ).toNat

theorem faithful_iff {before after : List (Step R width)} {o : Source R width}
    (steady : ∀ step ∈ after, ¬ step.Sets sp sp)
    (roomy : Roomy (BitVec (width * 8)) ((pops after + pushes after + 2) * width)) :
    Faithful sp before o after s ↔ ∀ x, o.believed sp before = some x →
      read (run sp (before ++ .push o :: after) s).mem
        ((run sp (before ++ .push o :: after) s).regs sp +
          ((pushes after * width : Nat) : BitVec (width * 8))) width = x.toNat := by
  unfold Faithful
  rw [run_append, read_argument steady o roomy, o.believed_eq s]
  generalize run sp before s = here
  cases o.drift sp before with
  | none => simp
  | some δ =>
      simp only [Option.map_some, Option.some.injEq, forall_eq']
      by_cases none : pops after = 0
      · rw [if_pos none, if_pos none, BitVec.toNat_inj, eq_comm, eq_sub_iff_add_eq, add_eq_left]
        exact eq_comm
      · rw [if_neg none, if_neg none]

end Believed

end StackMachine
