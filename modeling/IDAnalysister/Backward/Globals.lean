import IDAnalysister.Backward.Overlap
import IDAnalysister.Library.Numbered

/-!
# Globals across calls

What `resolve_memory` reports for an absolute address after stores of immediates to absolute
addresses and calls. The last store at the queried address decides; a call is not looked at,
although the callee may have written any of the globals. `global_answers_hold_iff` says which
layouts of stores and calls make every report right.
-/

namespace IDAnalysister

open Bytes

/-! ## Stores and calls -/

/-- A store of a number to a cell of static memory, or a call. -/
abbrev GlobalStep := Numbered (Cell Int) Unit

/-- The memory `m'` that the steps may leave of `m`: a callee may do anything to it. -/
inductive Leaves : List GlobalStep → Memory Int → Memory Int → Prop
  | nil (m : Memory Int) : Leaves [] m m
  | store {c : Cell Int} {n : Nat} {steps : List GlobalStep} {m m' : Memory Int} :
    Leaves steps (write m c.addr c.size n) m' → Leaves (.store c n :: steps) m m'
  | call {steps : List GlobalStep} {m m' : Memory Int} (made : Memory Int) :
    Leaves steps made m' → Leaves (.other () :: steps) m m'

/-- `mov [addr], n` with an operand of the cell's size. -/
structure GlobalStore (i : Instruction) (c : Cell Int) (n : Nat) : Prop where
  mnem : i.mnem = "mov"
  operands : ∃ a b, Pair i a b true false ∧ a.kind = .memDirect ∧ a.addr = some c.addr ∧
    a.dtypeSize = c.size ∧ a.hasIndex = false ∧ a.hasSegment = false ∧ b.kind = .immediate ∧
    b.immValue = some (n : Int)

/-- The instruction makes the step. -/
inductive GlobalForm (i : Instruction) : GlobalStep → Prop
  | store {c : Cell Int} {n : Nat} : GlobalStore i c n → GlobalForm i (.store c n)
  | call : i.isCall = true → (∀ op ∈ i.operands, i.isWritten op.number = false) →
    GlobalForm i (.other ())

/-- The instructions make the steps. -/
def GlobalRow (is : List Instruction) (steps : List GlobalStep) : Prop :=
  List.Forall₂ GlobalForm is steps

/-- Under any limits, after steps of this layout that store any numbers, from any memory and
whatever the callees do, a concrete answer is the content of the queried bytes. -/
def GlobalAnswersHold (layout : List GlobalStep) (addr : Int) (size : Nat) : Prop :=
  ∀ (self : BackwardResolver) (is : List Instruction) (use : Nat) (steps : List GlobalStep),
    self.registry = defaultRegistry → StraightLine self.port is use → GlobalRow is steps →
    Fitting (Numbered.stores steps) → Numbered.SameLayout steps layout →
    ∀ (m m' : Memory Int) (d : Datum) (k : ValueKind), Leaves steps m m' →
      self.resolveMemory none addr use size = some (.concrete d k) →
        d = .int (read m' addr size)

/-! ## What is left in memory -/

section Leaves

variable {steps before after : List GlobalStep} {m m' : Memory Int}

/-- What two rows leave, one after the other, their concatenation leaves. -/
theorem Leaves.append {between : Memory Int} (first : Leaves before m between)
    (second : Leaves after between m') : Leaves (before ++ after) m m' := by
  induction first with
  | nil => exact second
  | store _ ih => exact .store (ih second)
  | call made _ ih => exact .call made (ih second)

/-- What a row leaves can be cut anywhere. -/
theorem Leaves.split (whole : Leaves (before ++ after) m m') :
    ∃ between, Leaves before m between ∧ Leaves after between m' := by
  induction before generalizing m with
  | nil => exact ⟨m, .nil m, whole⟩
  | cons step before ih =>
      cases whole with
      | store later =>
          rcases ih later with ⟨between, first, second⟩
          exact ⟨between, .store first, second⟩
      | call made later =>
          rcases ih later with ⟨between, first, second⟩
          exact ⟨between, .call made first, second⟩

/-- Callees that leave memory alone. -/
theorem leaves_storeAll (steps : List GlobalStep) (m : Memory Int) :
    Leaves steps m (storeAll (Numbered.stores steps) m) := by
  induction steps generalizing m with
  | nil => exact .nil m
  | cons step steps ih =>
      cases step with
      | store c n => exact .store (ih _)
      | other _ => exact .call m (ih m)

/-- Without calls, the memory is what the stores make of it. -/
theorem Leaves.eq_storeAll (left : Leaves steps m m') (quiet : Numbered.other () ∉ steps) :
    m' = storeAll (Numbered.stores steps) m := by
  induction left with
  | nil => rfl
  | store _ ih => exact ih fun member => quiet (List.mem_cons_of_mem _ member)
  | call made _ _ => exact (quiet List.mem_cons_self).elim

end Leaves

/-! ## What is reported -/

section Row

variable {self : BackwardResolver} {port : IdaPort} {is : List Instruction} {i : Instruction}
variable {use size n : Nat} {addr : Int} {c : Cell Int} {step : GlobalStep}
variable {steps before after : List GlobalStep}

/-- The step stores at the address. -/
def StoresAt (addr : Int) : GlobalStep → Prop
  | .store c _ => c.addr = addr
  | .other _ => False

/-- A store defines the cell of its own address only. -/
theorem GlobalStore.finding (store : GlobalStore i c n) (addr : Int) (funcEa : Nat) :
    memoryFinding port i (.abs, addr) funcEa =
      if c.addr = addr then some (.interpret 0) else none := by
  rcases store.operands with ⟨a, b, pair, kind, known, -, noIndex, noSegment, -, -⟩
  have memory : a.isMemory = true := by simp [Operand.isMemory, kind]
  have location : operandLocation port a i.ea funcEa = some (.abs, c.addr) := by
    simp [operandLocation, kind, noSegment, known, memoryLocation]
  rw [memoryFinding_located pair memory noIndex location]
  simp

/-- Any other step defines nothing there. -/
theorem GlobalForm.finding (form : GlobalForm i step) (other : ¬ StoresAt addr step)
    (funcEa : Nat) : memoryFinding port i (.abs, addr) funcEa = none := by
  cases form with
  | store store =>
      rw [store.finding]
      exact if_neg other
  | call _ reads => exact memoryFinding_quiet (fun op member _ => reads op member) (.abs, addr)

/-- A row without a store to the address is clear. -/
theorem GlobalRow.clear (row : GlobalRow is steps) (other : ∀ step ∈ steps, ¬ StoresAt addr step)
    (funcEa ea : Nat) :
    ∀ j ∈ is, memoryFinding port j (memoryLocation port none addr ea funcEa) funcEa = none := by
  intro j member
  rcases exists_of_forall₂ row member with ⟨step, inside, form⟩
  exact form.finding (other step inside) funcEa

/-- What is reported is the number of the last store at the queried address. -/
theorem GlobalRow.last (builtin : self.registry = defaultRegistry)
    (line : StraightLine self.port is use) (row : GlobalRow is (before ++ .store c n :: after))
    (other : ∀ step ∈ after, ¬ StoresAt c.addr step) :
    (after.length + 2 ≤ self.maxSteps →
      self.resolveMemory none c.addr use size = some (.concrete (.int n) .int)) ∧
    ∀ d k, self.resolveMemory none c.addr use size = some (.concrete d k) → d = .int n := by
  rcases forall₂_split row with ⟨pre, i, post, split, -, form, rest⟩
  rw [← rest.length_eq]
  cases form with
  | store store =>
      have found : memoryFinding self.port i (memoryLocation self.port none c.addr use line.funcEa)
          line.funcEa = _ := store.finding c.addr line.funcEa
      rw [if_pos rfl] at found
      rcases store.operands with ⟨a, b, pair, kind, -, -, -, -, imm, value⟩
      have memory : a.isMemory = true := by simp [Operand.isMemory, kind]
      exact line.memory_reported builtin split found (GlobalRow.clear rest other line.funcEa use)
        (decides_storeImm builtin store.mnem pair memory imm value line.funcEa)

end Row

/-! ## Layouts that are reported right -/

/-- Behind every call that follows a store at the address there is another store at it. -/
def RestoredAfterCalls (layout : List GlobalStep) (addr : Int) : Prop :=
  ∀ before after, layout = before ++ .other () :: after →
    (∃ step ∈ before, StoresAt addr step) → ∃ step ∈ after, StoresAt addr step

/-- The step as an instruction at a given address. -/
def globalStepAt : GlobalStep → Nat → Instruction
  | .store c n, ea =>
      FakeIdaPort.insn ea "mov" 1
        [FakeIdaPort.memDirect 0 c.addr c.size, FakeIdaPort.imm 1 n c.size]
  | .other _, ea => FakeIdaPort.jump ea "call" 1 0

theorem globalStepAt_form (step : GlobalStep) (ea : Nat) :
    GlobalForm (globalStepAt step ea) step := by
  cases step with
  | store c n =>
      exact .store ⟨rfl, _, _, ⟨rfl, rfl, rfl, rfl, rfl⟩, rfl, rfl, rfl, rfl, rfl, rfl, rfl⟩
  | other _ => exact .call (by decide : startsWith "call" "call" = true) (by
      intro op member
      obtain rfl := List.mem_singleton.mp member
      rfl)

theorem globalStepAt_unitSized (steps : List GlobalStep) :
    UnitSized (steps.map globalStepAt) := by
  intro f member ea
  rcases List.mem_map.mp member with ⟨step, -, rfl⟩
  cases step <;> exact ⟨rfl, rfl⟩

section Layout

variable {layout before after later : List GlobalStep} {c : Cell Int} {n size : Nat} {addr : Int}
variable {m m' : Memory Int}

theorem StoresAt.erase {step : GlobalStep} : StoresAt addr step.erase ↔ StoresAt addr step := by
  cases step <;> rfl

/-- Answers that always hold read the last store at the address back. -/
theorem GlobalAnswersHold.read_eq (holds : GlobalAnswersHold layout addr size)
    (same : Numbered.SameLayout (before ++ .store c n :: after) layout) (here : c.addr = addr)
    (other : ∀ step ∈ after, ¬ StoresAt addr step)
    (fitting : Fitting (Numbered.stores (before ++ .store c n :: after)))
    (left : Leaves (before ++ .store c n :: after) m m') : read m' addr size = n := by
  subst here
  let steps := before ++ .store c n :: after
  let self : BackwardResolver :=
    { port := rowPort blankPort (steps.map globalStepAt)
      registry := defaultRegistry
      maxSteps := after.length + 2 }
  have line : StraightLine self.port (layOut 0 (steps.map globalStepAt))
      (steps.map globalStepAt).length := rowLine _ (globalStepAt_unitSized steps)
  have row : GlobalRow (layOut 0 (steps.map globalStepAt)) steps :=
    forall₂_layOut (fun step _ => globalStepAt_form step) 0
  have answered : self.resolveMemory none c.addr _ size = _ :=
    (row.last rfl line other).1 (Nat.le_refl _)
  have value := holds self _ _ steps rfl line row fitting same m m' _ _ left answered
  exact (Int.ofNat.inj (Datum.int.inj value)).symm

theorem addr_ne_of_not_storesAt (silent : ∀ step ∈ after, ¬ StoresAt addr step) :
    ∀ e ∈ (Numbered.stores after).map Prod.fst, e.addr ≠ addr := by
  intro e member same
  rcases List.mem_map.mp member with ⟨s, stored, rfl⟩
  exact silent _ (Numbered.mem_stores.mp stored) same

/-- Right answers mean that no later store overlaps the last one at the address. -/
theorem GlobalAnswersHold.intact (holds : GlobalAnswersHold layout addr size) :
    LastStoreIntact ((Numbered.stores layout).map Prod.fst) addr size := by
  apply LastStoreIntact.of_readsBack
  intro cells c cells' cut here other m pre post v same same' fitting
  have all : (pre ++ (c, v) :: post).map Prod.fst = (Numbered.stores layout).map Prod.fst := by
    rw [List.map_append, List.map_cons, same, same', cut]
  rcases Numbered.exists_around all with ⟨early, late, alike, stored, behind⟩
  have silent : ∀ step ∈ late, ¬ StoresAt addr step := by
    intro step member stores
    cases step with
    | other _ => cases stores
    | store e k =>
        have listed : e ∈ (Numbered.stores late).map Prod.fst :=
          List.mem_map_of_mem (f := Prod.fst) (Numbered.mem_stores.mpr member : (e, k) ∈ _)
        rw [behind, same'] at listed
        exact other e listed stores
  rw [← stored] at fitting ⊢
  exact holds.read_eq alike here silent fitting (leaves_storeAll _ m)

theorem not_storesAt_erase (silent : ∀ step ∈ after, ¬ StoresAt addr step) :
    ∀ step ∈ after.map Numbered.erase, ¬ StoresAt addr step := by
  intro step member
  rcases List.mem_map.mp member with ⟨step', inside, rfl⟩
  rw [StoresAt.erase]
  exact silent step' inside

/-- Stores elsewhere leave a byte alone, whatever their numbers. -/
theorem storeAll_erased {a : Int} (apart : ∀ e ∈ (Numbered.stores after).map Prod.fst, ¬ e.Has a) :
    storeAll (Numbered.stores (after.map Numbered.erase)) m a = m a := by
  apply storeAll_outside
  intro s member has
  have inside : s.1 ∈ (Numbered.stores (after.map Numbered.erase)).map Prod.fst :=
    List.mem_map_of_mem member
  rw [(Numbered.sameLayout_erase after).places] at inside
  exact apart s.1 inside has

/-- A call behind the last store at the address may leave other bytes there. -/
theorem GlobalAnswersHold.uncalled (holds : GlobalAnswersHold layout addr size)
    (intact : LastStoreIntact ((Numbered.stores layout).map Prod.fst) addr size)
    (positive : 0 < size) (whole : layout = before ++ .store c n :: (after ++ .other () :: later))
    (here : c.addr = addr) (silent : ∀ step ∈ after ++ .other () :: later, ¬ StoresAt addr step) :
    False := by
  have places : (Numbered.stores layout).map Prod.fst = (Numbered.stores before).map Prod.fst ++
      c :: (Numbered.stores (after ++ .other () :: later)).map Prod.fst := by
    rw [whole, Numbered.stores_append, List.map_append]
    rfl
  have last := intact _ c _ places here (addr_ne_of_not_storesAt silent)
  -- zero is stored everywhere, and the call leaves ones
  let m' := storeAll (Numbered.stores (later.map Numbered.erase)) fun _ => 255
  have erased : before.map Numbered.erase ++ .store c 0 ::
      (after ++ .other () :: later).map Numbered.erase = layout.map Numbered.erase := by
    simp [whole, Numbered.erase]
  have left : Leaves (before.map Numbered.erase ++ .store c 0 ::
      (after ++ .other () :: later).map Numbered.erase) 0 m' := by
    rw [List.map_append, ← List.cons_append, ← List.append_assoc]
    exact (leaves_storeAll _ 0).append (.call _ (leaves_storeAll _ _))
  have same : Numbered.SameLayout (before.map Numbered.erase ++ .store c 0 ::
      (after ++ .other () :: later).map Numbered.erase) layout := by
    rw [erased]
    exact Numbered.sameLayout_erase layout
  have fitting : Fitting (Numbered.stores (before.map Numbered.erase ++ .store c 0 ::
      (after ++ .other () :: later).map Numbered.erase)) := by
    rw [erased]
    exact fun s member => Numbered.lt_of_erased layout (Nat.pow_pos (by decide)) s member
  have zero := holds.read_eq same here (not_storesAt_erase silent) fitting left
  have byte := read_eq_zero_iff.mp zero 0 positive
  have ones : m' addr = 255 := by
    apply storeAll_erased
    intro e member has
    have listed : e ∈ (Numbered.stores (after ++ .other () :: later)).map Prod.fst := by
      rw [Numbered.stores_append, List.map_append]
      exact List.mem_append_right _ member
    exact last.2 e listed ⟨addr, has, 0, last.1 ▸ positive, by simp [here]⟩
  rw [Nat.cast_zero, add_zero, ones] at byte
  exact absurd byte (by decide)

/-- Right answers mean that no call changes the cell after that store. -/
theorem GlobalAnswersHold.restored (holds : GlobalAnswersHold layout addr size)
    (intact : LastStoreIntact ((Numbered.stores layout).map Prod.fst) addr size)
    (positive : 0 < size) : RestoredAfterCalls layout addr := by
  intro before after split stored
  by_contra none'
  rcases ConsistentCfg.exists_last (StoresAt addr) before with
    nowhere | ⟨early, step, late, rfl, here, other⟩
  · rcases stored with ⟨step, member, stores⟩
    exact nowhere step member stores
  · cases step with
    | other _ => cases here
    | store c n =>
        refine holds.uncalled intact positive (by simpa using split) here ?_
        intro step member stores
        rcases List.mem_append.mp member with inside | inside
        · exact other step inside stores
        · rcases List.mem_cons.mp inside with rfl | inside
          · exact stores
          · exact none' ⟨step, inside, stores⟩

/-- A store that no call and no other store disturbs later is read back. -/
theorem Leaves.read_last (left : Leaves (before ++ .store c n :: after) m m')
    (same : Numbered.SameLayout (before ++ .store c n :: after) layout)
    (intact : LastStoreIntact ((Numbered.stores layout).map Prod.fst) c.addr size)
    (restored : 0 < size → RestoredAfterCalls layout c.addr)
    (other : ∀ step ∈ after, ¬ StoresAt c.addr step)
    (fitting : Fitting (Numbered.stores (before ++ .store c n :: after))) :
    read m' c.addr size = n := by
  rw [← same.places, Numbered.stores_append, List.map_append] at intact
  have last := intact _ c _ rfl rfl (addr_ne_of_not_storesAt other)
  have fits : n < 256 ^ c.size := by
    apply fitting (c, n)
    rw [Numbered.stores_append]
    exact List.mem_append_right _ List.mem_cons_self
  rcases Nat.eq_zero_or_pos size with rfl | positive
  · rw [← last.1] at fits
    have zero : n = 0 := by simpa using fits
    rw [zero]
    rfl
  · have quiet : Numbered.other () ∉ after := by
      intro member
      rcases List.append_of_mem member with ⟨late, rest, rfl⟩
      have regrouped : before ++ Numbered.store c n :: (late ++ .other () :: rest) =
          (before ++ .store c n :: late) ++ .other () :: rest := by simp
      rw [regrouped] at same
      rcases same.split_other with ⟨early, later, split, alike, alike'⟩
      rcases alike.split_store with ⟨early', n', late', rfl, -, -⟩
      rcases restored positive _ _ split ⟨.store c n', by simp, rfl⟩ with ⟨step, inside, stores⟩
      have silent : ∀ step ∈ rest, ¬ StoresAt c.addr step :=
        fun step member => other step (by simp [member])
      exact alike'.forall_congr (fun step => not_congr StoresAt.erase) silent step inside stores
    rcases left.split with ⟨between, -, behind⟩
    cases behind with
    | store behind =>
        rw [behind.eq_storeAll quiet, last.1]
        have back := @read_storeAll Int _ _ [] (Numbered.stores after) c n between
          (roomy_int _) fits
        exact back fun s member => last.2 s.1 (List.mem_map_of_mem member)

end Layout

/-- Every report for `size` bytes at an address after stores and calls is right if and only if
the last store at this very address, where there is one, has the queried size, no later store
overlaps it, and no call stands behind it. -/
theorem global_answers_hold_iff (layout : List GlobalStep) (addr : Int) (size : Nat) :
    GlobalAnswersHold layout addr size ↔
      LastStoreIntact ((Numbered.stores layout).map Prod.fst) addr size ∧
        (0 < size → RestoredAfterCalls layout addr) := by
  constructor
  · intro holds
    have intact := holds.intact
    exact ⟨intact, holds.restored intact⟩
  · intro right self is use steps builtin line row fitting same m m' d k left answered
    rcases ConsistentCfg.exists_last (StoresAt addr) steps with
      none | ⟨pre, step, post, rfl, here, other⟩
    · exact (line.memory_silent builtin (row.clear none line.funcEa use) d k answered).elim
    · cases step with
      | other _ => cases here
      | store c n =>
          obtain rfl : c.addr = addr := here
          have value := (row.last builtin line other).2 d k answered
          rw [value, left.read_last same right.1 right.2 other fitting]

/-! ## A callee that clears a global -/

namespace ClearedGlobal

def fake : FakeIdaPort where
  pointerSize := 4
  instructions := [
    FakeIdaPort.insn 0x401000 "mov" 10 [FakeIdaPort.memDirect 0 0x404000, FakeIdaPort.imm 1 5],
    FakeIdaPort.jump 0x40100a "call" 5 0x402000,
    FakeIdaPort.insn 0x40100f "ret" 1 []]
  funcBounds := [(0x401000, 0x401010)]
  blocks := [(0x401000, [⟨0x401000, 0x401010, [], []⟩])]

def resolver : BackwardResolver where
  port := fake.toPort
  registry := defaultRegistry

/-- The number is reported behind the call, where the global may hold zero. -/
theorem call_looked_past :
    resolver.resolveMemory none 0x404000 0x40100f 4 = some (.concrete (.int 5) .int) ∧
      ∃ m', Leaves [.store ⟨0x404000, 4⟩ 5, .other ()] 0 m' ∧ Bytes.read m' 0x404000 4 = 0 := by
  refine ⟨by decide, 0, .store (.call 0 (.nil 0)), ?_⟩
  decide

end ClearedGlobal

end IDAnalysister
