import IDAnalysister.Adapters.FakePort
import IDAnalysister.Library.Priority
import IDAnalysister.Locators.Builtins

/-!
# Dispatch

Which locator a registry picks for an instruction, whatever was registered in whatever
order: the earliest registered one among the accepting ones of highest priority. The
built-in locators never compete, since each accepts one form of instruction only
(`builtinForm`), so their registration order does not matter.
-/

namespace IDAnalysister

open Effect Extraction

namespace LocatorRegistry

/-- Register locators one by one. -/
def registerAll (entries : List (Int × Locator)) : LocatorRegistry :=
  entries.foldl (fun r e => r.register e.2 e.1) {}

theorem registerAll_locators (entries : List (Int × Locator)) :
    (registerAll entries).locators = Priority.table entries := by
  induction entries using List.reverseRecOn with
  | nil => rfl
  | append_singleton entries e ih =>
      rw [registerAll, List.foldl_concat, Priority.table_concat, ← ih]
      rfl

variable {entries : List (Int × Locator)} {i : Instruction}

theorem mem_all_registerAll {l : Locator} :
    l ∈ (registerAll entries).all ↔ ∃ priority, (priority, l) ∈ entries := by
  rw [all, registerAll_locators]
  simp [Priority.mem_table]

theorem findMatch_registerAll (entries : List (Int × Locator)) (i : Instruction) :
    (registerAll entries).findMatch i =
      ((Priority.table entries).find? fun e => e.2.accepts i = some true).map (·.2) := by
  rw [findMatch, all, List.find?_map, registerAll_locators]
  rfl

theorem findMatch_eq_some_iff {l : Locator} :
    (registerAll entries).findMatch i = some l ↔ ∃ priority before after,
      entries = before ++ (priority, l) :: after ∧ l.accepts i = some true ∧
        (∀ e ∈ before, e.2.accepts i = some true → e.1 < priority) ∧
        ∀ e ∈ after, e.2.accepts i = some true → e.1 ≤ priority := by
  rw [findMatch_registerAll, Option.map_eq_some_iff]
  simp only [Priority.find?_table_eq_some_iff, decide_eq_true_eq]
  refine ⟨?_, ?_⟩
  · rintro ⟨e, ⟨before, after, split, accepted, earlier, later⟩, rfl⟩
    exact ⟨e.1, before, after, split, accepted, earlier, later⟩
  · rintro ⟨priority, before, after, split, accepted, earlier, later⟩
    exact ⟨(priority, l), ⟨before, after, split, accepted, earlier, later⟩, rfl⟩

theorem findMatch_eq_none_iff :
    (registerAll entries).findMatch i = none ↔ ∀ e ∈ entries, e.2.accepts i ≠ some true := by
  rw [findMatch_registerAll, Option.map_eq_none_iff, Priority.find?_table_eq_none_iff]
  simp

end LocatorRegistry

/-! ## The built-in locators never compete -/

/-- The name of the one built-in locator that could accept an instruction with these
operands 0 and 1. -/
def pairForm (mnem : String) (dst src : Operand) : String :=
  if mnem = "xchg" then "xchg_reg_reg"
  else if mnem = "lea" then
    if src.kind = .memDirect then "lea_reg_addr" else "lea_reg_displ"
  else if mnem ∈ moveMnemonics then
    if dst.kind = .reg then
      if src.kind = .reg then "mov_reg_reg"
      else if src.kind = .immediate then "mov_reg_imm"
      else "mov_reg_mem"
    else if src.kind = .reg then "mov_mem_reg"
    else "mov_mem_imm"
  else if src.kind = .reg then "zero_idiom"
  else "add_sub_reg_imm"

/-- The mnemonics of the three locators that do not look at the kinds of two operands. -/
def singleForm (mnem : String) : Option String :=
  if startsWith mnem "call" then some "call_return"
  else if startsWith mnem "cmov" then some "cmov_reg_reg"
  else if mnem = "push" then some "push"
  else none

/-- The name of the one built-in locator that could accept an instruction. -/
def builtinForm (i : Instruction) : Option String :=
  (singleForm i.mnem).or <|
    match i.operand 0, i.operand 1 with
    | some dst, some src => some (pairForm i.mnem dst src)
    | _, _ => none

theorem builtinForm_single {i : Instruction} {form : String}
    (single : singleForm i.mnem = some form) : builtinForm i = some form := by
  rw [builtinForm, single, Option.some_or]

/-- A locator that tests a mnemonic and two operands accepts what `pairForm` names. -/
theorem builtinForm_pair {mnems : List String} {shape : Operand → Operand → Bool} {i : Instruction}
    {form : String} (pairs : ∀ m ∈ mnems, singleForm m = none)
    (shaped : ∀ m ∈ mnems, ∀ dst src, shape dst src = true → pairForm m dst src = form)
    (accepted : acceptsPair mnems shape i = some true) : builtinForm i = some form := by
  rcases acceptsPair_eq_true.mp accepted with ⟨member, dst, src, h0, h1, shape⟩
  rw [builtinForm, pairs _ member, Option.none_or, h0, h1]
  exact congrArg some (shaped _ member dst src shape)

theorem kind_ne_immediate_of_isMemory {op : Operand} (memory : op.isMemory = true) :
    op.kind ≠ .immediate := by
  intro same
  simp [Operand.isMemory, same] at memory

/-- A text starts with only one text of a given length. -/
theorem startsWith_unique {s a b : String} (left : startsWith s a = true)
    (right : startsWith s b = true) (same : a.toList.length = b.toList.length) : a = b := by
  have first := List.isPrefixOf_iff_prefix.mp left
  have second := List.isPrefixOf_iff_prefix.mp right
  have shorter := List.prefix_of_prefix_length_le first second same.le
  exact String.toList_injective (shorter.eq_of_length same)

theorem singleForm_cmov {mnem : String} (cmov : startsWith mnem "cmov" = true) :
    singleForm mnem = some "cmov_reg_reg" := by
  have call : ¬ startsWith mnem "call" = true := by
    intro both
    exact absurd (startsWith_unique cmov both (by decide)) (by decide)
  rw [singleForm, if_neg call, if_pos cmov]

theorem cmovRegReg_accepts {i : Instruction} (accepted : cmovRegReg.accepts i = some true) :
    startsWith i.mnem "cmov" = true := by
  by_contra other
  simp [cmovRegReg, other] at accepted

theorem pushLocator_accepts {i : Instruction} (accepted : pushLocator.accepts i = some true) :
    i.mnem = "push" := by
  have both := of_decide_eq_true (Option.some.inj accepted)
  exact both.1

theorem callReturn_accepts {i : Instruction} (accepted : callReturn.accepts i = some true) :
    startsWith i.mnem "call" = true := Option.some.inj accepted

/-- A built-in locator accepts instructions of its own form only. -/
theorem builtinForm_of_accepts {l : Locator} (builtin : l ∈ builtins) {i : Instruction}
    (accepted : l.accepts i = some true) : builtinForm i = some l.name := by
  simp only [builtins, List.mem_cons, List.not_mem_nil, or_false] at builtin
  rcases builtin with rfl | rfl | rfl | rfl | rfl | rfl | rfl | rfl | rfl | rfl | rfl | rfl | rfl
  · refine builtinForm_pair (by decide) ?_ accepted
    simp [pairForm, moveMnemonics, zeroIdiom]
    grind
  · refine builtinForm_pair (by decide) ?_ accepted
    simp +contextual [pairForm, moveMnemonics, movRegReg]
  · refine builtinForm_pair (by decide) ?_ accepted
    simp +contextual [pairForm, moveMnemonics, movRegImm]
  · refine builtinForm_pair (by decide) ?_ accepted
    simp +contextual [pairForm, leaRegAddr]
  · refine builtinForm_pair (by decide) ?_ accepted
    simp [pairForm, xchgRegReg]
  · exact builtinForm_single (singleForm_cmov (cmovRegReg_accepts accepted))
  · refine builtinForm_pair (by decide) ?_ accepted
    simp +contextual [pairForm, moveMnemonics, movMemImm, Operand.kind_ne_reg_of_isMemory]
  · refine builtinForm_pair (by decide) ?_ accepted
    simp +contextual [pairForm, moveMnemonics, movRegMem, Operand.kind_ne_reg_of_isMemory,
      kind_ne_immediate_of_isMemory]
  · exact builtinForm_single (by rw [pushLocator_accepts accepted]; decide)
  · refine builtinForm_pair (by decide) ?_ accepted
    simp +contextual [pairForm, moveMnemonics, movMemReg, Operand.kind_ne_reg_of_isMemory]
  · exact builtinForm_single (if_pos (callReturn_accepts accepted))
  · refine builtinForm_pair (by decide) ?_ accepted
    simp [pairForm, leaRegDispl]
    grind
  · refine builtinForm_pair (by decide) ?_ accepted
    simp [pairForm, moveMnemonics, addSubRegImm]
    grind

theorem builtins_names_nodup : (builtins.map (·.name)).Nodup := by decide

/-- No instruction is accepted by two built-in locators. -/
theorem builtins_pairwise (i : Instruction) :
    builtins.Pairwise fun l l' => ¬ (l.accepts i = some true ∧ l'.accepts i = some true) := by
  have names := List.pairwise_map.mp builtins_names_nodup
  refine names.imp_of_mem fun first second other accepted => other ?_
  have same := builtinForm_of_accepts first accepted.1
  rw [builtinForm_of_accepts second accepted.2] at same
  exact (Option.some.inj same).symm

theorem builtin_unique {l l' : Locator} (first : l ∈ builtins) (second : l' ∈ builtins)
    {i : Instruction} (accepted : l.accepts i = some true) (accepted' : l'.accepts i = some true) :
    l = l' := by
  have forms := (builtinForm_of_accepts first accepted).symm.trans
    (builtinForm_of_accepts second accepted')
  exact List.inj_on_of_nodup_map builtins_names_nodup first second (Option.some.inj forms)

/-! ## Registering the built-in modules -/

/-- The modules that hold the built-in locators. -/
inductive BuiltinModule
  | registerLocators
  | immediateLocators
  | memoryLocators
  | stackLocators
  | callReturnLocators
  | arithmeticLocators
  deriving DecidableEq

/-- `register_builtins` of each module: what it registers, in order. -/
def BuiltinModule.registerBuiltins : BuiltinModule → List (Int × Locator)
  | registerLocators =>
      [(0, movRegReg), (0, movRegImm), (0, leaRegAddr), (0, xchgRegReg), (0, cmovRegReg)]
  | immediateLocators => [(0, movMemImm)]
  | memoryLocators => [(0, movRegMem)]
  | stackLocators => [(0, pushLocator), (0, movMemReg)]
  | callReturnLocators => [(0, callReturn)]
  | arithmeticLocators => [(0, leaRegDispl), (0, addSubRegImm), (1, zeroIdiom)]

/-- The order in which `default_registry` takes the modules. -/
def BuiltinModule.all : List BuiltinModule :=
  [registerLocators, immediateLocators, memoryLocators, stackLocators, callReturnLocators,
    arithmeticLocators]

theorem defaultRegistry_eq : defaultRegistry =
    LocatorRegistry.registerAll (BuiltinModule.all.flatMap BuiltinModule.registerBuiltins) := rfl

/-- One step of filling a registry: a built-in module, or somebody's own locator. -/
inductive Registration
  | builtins (m : BuiltinModule)
  | locator (priority : Int) (l : Locator)

def Registration.entries : Registration → List (Int × Locator)
  | builtins m => m.registerBuiltins
  | locator priority l => [(priority, l)]

theorem BuiltinModule.mem_builtins {m : BuiltinModule} {e : Int × Locator}
    (member : e ∈ m.registerBuiltins) : e.2 ∈ IDAnalysister.builtins := by
  have each : ∀ e ∈ m.registerBuiltins, e.2 ∈ IDAnalysister.builtins := by
    cases m <;> simp [registerBuiltins, IDAnalysister.builtins]
  exact each e member

theorem BuiltinModule.of_mem_builtins {l : Locator} (member : l ∈ IDAnalysister.builtins) :
    ∃ (m : BuiltinModule) (priority : Int), (priority, l) ∈ m.registerBuiltins := by
  rw [← defaultRegistry_all, defaultRegistry_eq, LocatorRegistry.mem_all_registerAll] at member
  rcases member with ⟨priority, member⟩
  rcases List.mem_flatMap.mp member with ⟨m, -, member⟩
  exact ⟨m, priority, member⟩

namespace LocatorRegistry

/-- Where all built-in locators are registered, and no other one accepts the instruction,
the match is the built-in locator that accepts it. -/
theorem findMatch_builtin {r : LocatorRegistry} {i : Instruction} (all : ∀ l ∈ builtins, l ∈ r.all)
    (others : ∀ l ∈ r.all, l.accepts i = some true → l ∈ builtins) {l : Locator} :
    r.findMatch i = some l ↔ l ∈ builtins ∧ l.accepts i = some true := by
  refine ⟨fun found => ?_, fun ⟨builtin, accepted⟩ => ?_⟩
  · have accepted := findMatch_accepts found
    exact ⟨others l (findMatch_mem found) accepted, accepted⟩
  · cases found : r.findMatch i with
    | none =>
        have rejected := List.find?_eq_none.mp found l (all l builtin)
        exact absurd accepted (by simpa using rejected)
    | some l' =>
        have accepted' := findMatch_accepts found
        have builtin' := others l' (findMatch_mem found) accepted'
        rw [builtin_unique builtin builtin' accepted accepted']

theorem defaultRegistry_findMatch {i : Instruction} {l : Locator} :
    defaultRegistry.findMatch i = some l ↔ l ∈ builtins ∧ l.accepts i = some true :=
  findMatch_builtin (by simp [defaultRegistry_all]) (by simp +contextual [defaultRegistry_all])

/-- The match is the earliest registered locator among the accepting ones of highest
priority. No two built-in locators accept one instruction, so any registration of all their
modules, among locators that do not accept it, finds the match of the default registry. -/
theorem findMatch_registered (entries : List (Int × Locator)) (steps : List Registration)
    (i : Instruction) :
    (∀ l, (registerAll entries).findMatch i = some l ↔ ∃ priority before after,
        entries = before ++ (priority, l) :: after ∧ l.accepts i = some true ∧
          (∀ e ∈ before, e.2.accepts i = some true → e.1 < priority) ∧
          ∀ e ∈ after, e.2.accepts i = some true → e.1 ≤ priority) ∧
      ((registerAll entries).findMatch i = none ↔ ∀ e ∈ entries, e.2.accepts i ≠ some true) ∧
      (builtins.Pairwise fun l l' => ¬ (l.accepts i = some true ∧ l'.accepts i = some true)) ∧
      ((∀ m, .builtins m ∈ steps) →
        (∀ priority l, .locator priority l ∈ steps → l.accepts i ≠ some true) →
          (registerAll (steps.flatMap Registration.entries)).findMatch i =
            defaultRegistry.findMatch i) := by
  refine ⟨fun l => findMatch_eq_some_iff, findMatch_eq_none_iff, builtins_pairwise i,
    fun modules others => ?_⟩
  ext l
  rw [defaultRegistry_findMatch]
  refine findMatch_builtin (fun l builtin => ?_) (fun l registered accepted => ?_)
  · rcases BuiltinModule.of_mem_builtins builtin with ⟨m, priority, member⟩
    exact mem_all_registerAll.mpr ⟨priority, List.mem_flatMap.mpr ⟨_, modules m, member⟩⟩
  · rcases mem_all_registerAll.mp registered with ⟨priority, member⟩
    rcases List.mem_flatMap.mp member with ⟨step, member, entry⟩
    cases step with
    | builtins m => exact BuiltinModule.mem_builtins entry
    | locator priority' l' =>
        obtain ⟨rfl, rfl⟩ := Prod.mk.inj (List.mem_singleton.mp entry)
        exact absurd accepted (others _ _ member)

end LocatorRegistry

/-! ## The example of `extension_points.py` -/

/-- `not reg`, which no built-in locator covers. -/
def notLocator : Locator where
  name := "not_reg"
  accepts i := some (i.mnem = "not" ∧ (i.operand 0).any (·.kind = .reg))
  extract _ _ i dest := withOperand i dest fun dst => do
    let prior ← resolveRegister dst.reg i.ea
    match prior.intOf with
    | none => resolved prior
    | some n =>
        let widthBits := (if dst.dtypeSize = 0 then 4 else dst.dtypeSize) * 8
        resolved (.concrete (.int ((-n - 1) % 2 ^ widthBits)) .int)
  extract_total _ _ _ _ := withOperand_total fun dst => .call fun prior => by
    simp only [Prog.bind_pure_left]
    split <;> exact .pure _

namespace Reordered

/-- `xor eax, eax`. -/
def zeroEax : Instruction :=
  FakeIdaPort.insn 0x401000 "xor" 2 [FakeIdaPort.reg 0 0, FakeIdaPort.reg 1 0]

/-- The modules in reverse order, and the example at a high priority between them. -/
def steps : List Registration :=
  [.builtins .arithmeticLocators, .locator 7 notLocator, .builtins .callReturnLocators,
    .builtins .stackLocators, .builtins .memoryLocators, .builtins .immediateLocators,
    .builtins .registerLocators]

theorem steps_unchanged :
    (LocatorRegistry.registerAll (steps.flatMap Registration.entries)).findMatch zeroEax =
      defaultRegistry.findMatch zeroEax := by
  refine (LocatorRegistry.findMatch_registered [] steps zeroEax).2.2.2 ?_ ?_
  · intro m
    cases m <;> simp [steps]
  · intro priority l member
    simp only [steps, List.mem_cons, List.not_mem_nil, reduceCtorEq, Registration.locator.injEq,
      false_or, or_false] at member
    rw [member.2]
    decide

end Reordered

end IDAnalysister
