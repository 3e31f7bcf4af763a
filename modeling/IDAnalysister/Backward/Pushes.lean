import IDAnalysister.Backward.Engine
import IDAnalysister.Library.Interruption

/-!
# The push-sequence scan

`BackwardResolver.collect_push_sequence`. The scan goes backward by address from the
call, takes pushes and steps over the instructions that it considers transparent; it
knows nothing of blocks and spends no budget. Its two caps end it, so it returns from
every port (`collectPushSequence_returns`). `takePushes` is the scan over the instructions
before the call, and `collectPushSequence_eq` says that this is what is returned.
-/

namespace IDAnalysister

open Effect

/-- `_MAX_PUSH_SEQUENCE`. -/
def maxPushSequence : Nat := 64

/-- `_MAX_TRANSPARENT_SKIP`. -/
def maxTransparentSkip : Nat := 16

/-- `_is_transparent_to_push_sequence`. -/
def isTransparentToPushSequence (i : Instruction) (spReg : Option Nat) : Bool :=
  if i.isControlTransfer then false
  else match spReg with
    | none => true
    | some sp => i.operands.all fun op =>
        !(i.isWritten op.number && (op.kind = .reg || op.isMemory) && op.reg = some sp)

/-- The loop of `collect_push_sequence`. Adding each push in front leaves the sequence in
program order, which the source restores by reversing it. -/
def scanPushes (port : IdaPort) (funcEa : Nat) : Nat → Option Nat → List Nat → Nat →
    Query (List Nat)
  | _, none, pushes, _ => pure pushes
  | 0, some _, _, _ => .diverge
  | bound + 1, some ea, pushes, skipped =>
      if pushes.length < maxPushSequence ∧ skipped < maxTransparentSkip then do
        let fetched ← Query.get ea
        match fetched with
        | none => pure pushes
        | some i =>
            if i.mnem = "push" then
              scanPushes port funcEa bound (port.prevHead ea funcEa) (ea :: pushes) skipped
            else if isTransparentToPushSequence i port.stackPointerReg then
              scanPushes port funcEa bound (port.prevHead ea funcEa) pushes (skipped + 1)
            else pure pushes
      else pure pushes

/-- `collect_push_sequence`. -/
def BackwardResolver.collectPushSequence (self : BackwardResolver) (callEa : Nat) :
    Query (List Nat) := do
  let owner ← Query.funcEaFor callEa
  match owner with
  | none => pure []
  | some funcEa =>
      scanPushes self.port funcEa (maxPushSequence + maxTransparentSkip)
        (self.port.prevHead callEa funcEa) [] 0

section Returns

open Prog

/-- Every round of the scan uses up one of its two caps. -/
theorem scanPushes_returns (port : IdaPort) (funcEa bound : Nat) (ea : Option Nat)
    (pushes : List Nat) (skipped : Nat)
    (open' : pushes.length + skipped < maxPushSequence + maxTransparentSkip)
    (left : maxPushSequence + maxTransparentSkip ≤ bound + (pushes.length + skipped)) :
    ∃ result, ∀ b : ResolutionBudget,
      attempt (handler port) none (scanPushes port funcEa bound ea pushes skipped) b =
        (some result, b) := by
  induction bound generalizing ea pushes skipped with
  | zero => omega
  | succ bound ih =>
      cases ea with
      | none => exact ⟨pushes, fun b => rfl⟩
      | some ea =>
          unfold scanPushes
          split
          · rename_i below
            simp only [maxPushSequence, maxTransparentSkip] at below open' left ih
            simp only [bind_eq, Query.get_bind, attempt_call, handler]
            cases port.decodeAt ea with
            | none => exact ⟨pushes, fun b => rfl⟩
            | some i =>
                by_cases push : i.mnem = "push"
                · simp only [push, if_true]
                  apply ih
                  all_goals
                    rw [List.length_cons]
                    omega
                · simp only [push, if_false]
                  split
                  · apply ih
                    all_goals omega
                  · exact ⟨pushes, fun b => rfl⟩
          · exact ⟨pushes, fun b => rfl⟩

/-- Collecting pushes returns and spends nothing. -/
theorem collectPushSequence_returns (self : BackwardResolver) (callEa : Nat) :
    ∃ result, ∀ b : ResolutionBudget,
      attempt (handler self.port) none (self.collectPushSequence callEa) b = (some result, b) := by
  simp only [BackwardResolver.collectPushSequence, bind_eq, Query.funcEaFor_bind, attempt_call,
    handler]
  cases self.port.getFuncStart callEa with
  | none => exact ⟨[], fun b => rfl⟩
  | some funcEa =>
      exact scanPushes_returns self.port funcEa _ _ [] 0 (by decide) (Nat.le_refl _)

end Returns

/-! ## The scan over a row of instructions -/

/-- The heads that the port finds from `ea` back to the start of the function. -/
structure HeadsBefore (port : IdaPort) (funcEa ea : Nat) (row : List Instruction) : Prop where
  owner : port.getFuncStart ea = some funcEa
  last : port.prevHead ea funcEa = row.getLast?.map (·.ea)
  earlier : ∀ pre i post, row = pre ++ i :: post →
    port.prevHead i.ea funcEa = pre.getLast?.map (·.ea)
  decoded : ∀ i ∈ row, port.decodeAt i.ea = some i

/-- The pushes that the scan takes, from the instructions in the order it meets them. -/
def takePushes (sp : Option Nat) : List Instruction → List Nat → Nat → List Nat
  | [], pushes, _ => pushes
  | i :: earlier, pushes, skipped =>
      if pushes.length < maxPushSequence ∧ skipped < maxTransparentSkip then
        if i.mnem = "push" then takePushes sp earlier (i.ea :: pushes) skipped
        else if isTransparentToPushSequence i sp then takePushes sp earlier pushes (skipped + 1)
        else pushes
      else pushes

section Row

open Prog

variable {port : IdaPort} {funcEa ea : Nat} {row : List Instruction}

/-- The scan takes what `takePushes` takes of the row. -/
theorem scanPushes_eq (heads : HeadsBefore port funcEa ea row) {seen rest : List Instruction}
    (split : row = seen ++ rest) {bound : Nat} {pushes : List Nat} {skipped : Nat}
    (open' : pushes.length + skipped < maxPushSequence + maxTransparentSkip)
    (left : maxPushSequence + maxTransparentSkip ≤ bound + (pushes.length + skipped))
    (b : ResolutionBudget) :
    attempt (handler port) none
        (scanPushes port funcEa bound (seen.getLast?.map (·.ea)) pushes skipped) b =
      (some (takePushes port.stackPointerReg seen.reverse pushes skipped), b) := by
  induction seen using List.reverseRecOn generalizing rest bound pushes skipped with
  | nil => cases bound <;> rfl
  | append_singleton pre i ih =>
      cases bound with
      | zero => omega
      | succ bound =>
          have last : (pre ++ [i]).getLast?.map (·.ea) = some i.ea := by simp
          have decoded := heads.decoded i (by simp [split])
          have next := heads.earlier pre i rest (by simp [split])
          have split' : row = pre ++ i :: rest := by simp [split]
          rw [last, List.reverse_append, List.reverse_singleton, List.singleton_append, takePushes,
            scanPushes]
          split
          · rename_i below
            simp only [maxPushSequence, maxTransparentSkip] at below open' left ih
            simp only [bind_eq, Query.get_bind, attempt_call, handler, decoded]
            by_cases push : i.mnem = "push"
            · simp only [push, if_true, next]
              apply ih split'
              all_goals
                rw [List.length_cons]
                omega
            · simp only [push, if_false, next]
              split
              · apply ih split'
                all_goals omega
              · rfl
          · rfl

/-- What is returned are the pushes that the scan takes, in program order. -/
theorem collectPushSequence_eq {self : BackwardResolver}
    (heads : HeadsBefore self.port funcEa ea row) (b : ResolutionBudget) :
    attempt (handler self.port) none (self.collectPushSequence ea) b =
      (some (takePushes self.port.stackPointerReg row.reverse [] 0), b) := by
  simp only [BackwardResolver.collectPushSequence, bind_eq, Query.funcEaFor_bind, attempt_call,
    handler, heads.owner, heads.last]
  exact scanPushes_eq heads (List.append_nil row).symm (by decide) (Nat.le_refl _) b

end Row

section Taken

variable {sp : Option Nat} {is : List Instruction} {pushes : List Nat} {skipped : Nat}

/-- Pushes are only added in front. -/
theorem takePushes_extends (sp : Option Nat) (is : List Instruction) (pushes : List Nat)
    (skipped : Nat) : ∃ earlier, takePushes sp is pushes skipped = earlier ++ pushes := by
  induction is generalizing pushes skipped with
  | nil => exact ⟨[], rfl⟩
  | cons i is ih =>
      unfold takePushes
      split
      · split
        · rcases ih (i.ea :: pushes) skipped with ⟨earlier, taken⟩
          exact ⟨earlier ++ [i.ea], by simp [taken]⟩
        · split
          · exact ih pushes (skipped + 1)
          · exact ⟨[], rfl⟩
      · exact ⟨[], rfl⟩

/-- Pushes in a row are all taken, up to the cap. -/
theorem takePushes_row (all : ∀ i ∈ is, i.mnem = "push") {later : List Instruction}
    (cap : is.length + pushes.length ≤ maxPushSequence) (open' : skipped < maxTransparentSkip) :
    takePushes sp (is.reverse ++ later) pushes skipped =
      takePushes sp later (is.map (·.ea) ++ pushes) skipped := by
  induction is using List.reverseRecOn generalizing pushes with
  | nil => rfl
  | append_singleton is i ih =>
      have push := all i (by simp)
      rw [List.length_append, List.length_singleton] at cap
      have below : pushes.length < maxPushSequence ∧ skipped < maxTransparentSkip :=
        ⟨by omega, open'⟩
      rw [List.reverse_append, List.reverse_singleton, List.singleton_append, List.cons_append,
        takePushes, if_pos below, if_pos push,
        ih (fun j member => all j (by simp [member])) (by rw [List.length_cons]; omega)]
      simp

end Taken

/-! ## The instructions that the scan passes over -/

/-- The pushes of a row. -/
def pushesOf (is : List Instruction) : List Instruction := is.filter (·.mnem = "push")

/-- The other instructions of a row. -/
def passedOver (is : List Instruction) : List Instruction := is.filter (¬ ·.mnem = "push")

/-- From its end, the scan gets through the whole row. -/
def Scannable (sp : Option Nat) : List Instruction → Prop
  | [] => True
  | i :: later => Scannable sp later ∧ (i.mnem = "push" ∨ isTransparentToPushSequence i sp) ∧
      (pushesOf later).length < maxPushSequence ∧ (passedOver later).length < maxTransparentSkip

section Scannable

variable {sp : Option Nat} {i : Instruction} {early run is js : List Instruction}

theorem pushesOf_append : pushesOf (is ++ js) = pushesOf is ++ pushesOf js := List.filter_append ..

theorem pushesOf_push (push : i.mnem = "push") : pushesOf (i :: is) = i :: pushesOf is := by
  simp [pushesOf, push]

theorem pushesOf_other (other : i.mnem ≠ "push") : pushesOf (i :: is) = pushesOf is := by
  simp [pushesOf, other]

theorem pushesOf_eq_nil (none' : ∀ j ∈ is, j.mnem ≠ "push") : pushesOf is = [] :=
  List.filter_eq_nil_iff.mpr fun j member => by simpa using none' j member

/-- A push of a row, counted from the last one. -/
theorem pushesOf_fromLast {position : Nat} (found : (pushesOf is).reverse[position]? = some i) :
    ∃ pre post, is = pre ++ i :: post ∧ i.mnem = "push" ∧ (pushesOf post).length = position := by
  induction is with
  | nil => simp [pushesOf] at found
  | cons j is ih =>
      by_cases push : j.mnem = "push"
      · rw [pushesOf_push push, List.reverse_cons, List.getElem?_append] at found
        split at found
        · rcases ih found with ⟨pre, post, rfl, rest⟩
          exact ⟨j :: pre, post, rfl, rest⟩
        · rename_i beyond
          rw [List.length_reverse] at beyond found
          rw [List.getElem?_singleton] at found
          split at found
          · cases found
            exact ⟨[], is, rfl, push, by omega⟩
          · cases found
      · rw [pushesOf_other push] at found
        rcases ih found with ⟨pre, post, rfl, rest⟩
        exact ⟨j :: pre, post, rfl, rest⟩

theorem Scannable.of_append (scannable : Scannable sp (is ++ js)) : Scannable sp js := by
  induction is with
  | nil => exact scannable
  | cons i is ih => exact ih scannable.1

theorem Scannable.mem (scannable : Scannable sp is) :
    ∀ j ∈ is, j.mnem = "push" ∨ isTransparentToPushSequence j sp := by
  induction is with
  | nil => exact fun j member => by cases member
  | cons i is ih =>
      intro j member
      rcases List.mem_cons.mp member with rfl | later
      · exact scannable.2.1
      · exact ih scannable.1 j later

/-- Short of the caps, only an instruction that is not passed over stops the scan. -/
theorem Scannable.of_short (passes : ∀ j ∈ is, j.mnem = "push" ∨ isTransparentToPushSequence j sp)
    (few : (pushesOf is).length < maxPushSequence)
    (few' : (passedOver is).length < maxTransparentSkip) : Scannable sp is := by
  induction is with
  | nil => trivial
  | cons i is ih =>
      have fewer : (pushesOf is).length < maxPushSequence :=
        ((List.sublist_cons_self i is).filter _).length_le.trans_lt few
      have fewer' : (passedOver is).length < maxTransparentSkip :=
        ((List.sublist_cons_self i is).filter _).length_le.trans_lt few'
      exact ⟨ih (fun j member => passes j (List.mem_cons_of_mem i member)) fewer fewer',
        passes i List.mem_cons_self, fewer, fewer'⟩

/-- The scan takes the pushes of the longest row it gets through. -/
theorem takePushes_longest (scannable : Scannable sp run) (early : List Instruction) :
    ∃ before more, early = before ++ more ∧ Scannable sp (more ++ run) ∧
      takePushes sp early.reverse ((pushesOf run).map (·.ea)) (passedOver run).length =
        (pushesOf (more ++ run)).map (·.ea) ∧
      ∀ pre i, before = pre ++ [i] → ¬ Scannable sp (i :: (more ++ run)) := by
  induction early using List.reverseRecOn generalizing run with
  | nil => exact ⟨[], [], rfl, scannable, rfl, fun pre i same => by simp at same⟩
  | append_singleton early i ih =>
      by_cases through : Scannable sp (i :: run)
      · rcases ih through with ⟨before, more, rfl, scannable', taken, longest⟩
        refine ⟨before, more ++ [i], by simp, by simpa using scannable', ?_, by simpa using longest⟩
        rw [List.reverse_append, List.reverse_singleton, List.singleton_append, takePushes]
        rw [List.length_map, if_pos through.2.2, List.append_assoc, List.singleton_append, ← taken]
        by_cases push : i.mnem = "push"
        · rw [if_pos push, pushesOf_push push, List.map_cons]
          simp [passedOver, push]
        · rw [if_neg push, if_pos (through.2.1.resolve_left push), pushesOf_other push]
          simp [passedOver, push]
      · refine ⟨early ++ [i], [], by simp, scannable, ?_, ?_⟩
        · rw [List.reverse_append, List.reverse_singleton, List.singleton_append, takePushes]
          rw [List.length_map, List.nil_append]
          split
          · rename_i below
            have blocked : ¬ (i.mnem = "push" ∨ isTransparentToPushSequence i sp) :=
              fun passes => through ⟨scannable, passes, below⟩
            rw [not_or] at blocked
            rw [if_neg blocked.1, if_neg blocked.2]
          · rfl
        · intro pre j same
          cases (List.append_inj' same rfl).2
          exact through

/-- What the scan takes from a call on. -/
theorem takePushes_call (sp : Option Nat) (row : List Instruction) :
    ∃ before run, row = before ++ run ∧ Scannable sp run ∧
      takePushes sp row.reverse [] 0 = (pushesOf run).map (·.ea) ∧
      ∀ pre i, before = pre ++ [i] → ¬ Scannable sp (i :: run) := by
  have nothing : Scannable sp [] := trivial
  rcases takePushes_longest nothing row with ⟨before, run, split, scannable, taken, longest⟩
  rw [List.append_nil] at scannable taken longest
  exact ⟨before, run, split, scannable, taken, longest⟩

/-- A row that the scan gets through is a part of the longest one. -/
theorem Scannable.suffix (longest : ∀ pre i, early = pre ++ [i] → ¬ Scannable sp (i :: run))
    (scannable : Scannable sp is) (part : is <:+ early ++ run) : is <:+ run := by
  rcases List.suffix_or_suffix_of_suffix part (List.suffix_append early run) with within | beyond
  · exact within
  · rcases beyond with ⟨more, rfl⟩
    cases more using List.reverseRecOn with
    | nil => exact List.suffix_refl run
    | append_singleton more i _ =>
        rcases part with ⟨pre, same⟩
        have split : early = (pre ++ more) ++ [i] := by
          rw [← List.append_assoc, ← List.append_assoc] at same
          exact ((List.append_left_inj run).mp same).symm
        rw [List.append_assoc, List.singleton_append] at scannable
        exact (longest _ i split scannable.of_append).elim

/-- The pushes that are taken, counted from the last one: the scan has got to them. -/
theorem takePushes_fromLast {position ea : Nat} :
    (takePushes sp is.reverse [] 0).reverse[position]? = some ea ↔
      ∃ pre i post, is = pre ++ i :: post ∧ i.mnem = "push" ∧
        (pushesOf post).length = position ∧ Scannable sp (i :: post) ∧ i.ea = ea := by
  rcases takePushes_call sp is with ⟨before, run, rfl, scannable, taken, longest⟩
  rw [taken]
  constructor
  · intro found
    rw [← List.map_reverse, List.getElem?_map, Option.map_eq_some_iff] at found
    rcases found with ⟨i, found, rfl⟩
    rcases pushesOf_fromLast found with ⟨pre, post, rfl, push, count⟩
    exact ⟨before ++ pre, i, post, by simp, push, count, scannable.of_append, rfl⟩
  · intro given
    rcases given with ⟨pre, i, post, split, push, count, through, rfl⟩
    have part : i :: post <:+ before ++ run := ⟨pre, split.symm⟩
    rcases through.suffix longest part with ⟨mid, rfl⟩
    rw [pushesOf_append, pushesOf_push push]
    simp [← count]

end Scannable

end IDAnalysister
