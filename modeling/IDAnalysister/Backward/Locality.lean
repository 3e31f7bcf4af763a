import Mathlib.Data.Set.Basic
import IDAnalysister.Backward.Budget
import IDAnalysister.Backward.Pushes
import IDAnalysister.Backward.Walk
import IDAnalysister.Library.Confined
import IDAnalysister.Locators.Dispatch

/-!
# Where the backward resolver looks

A query is made at an address, and all that follows stays in the functions of the addresses it
comes to: a walk stays in the blocks of one graph, or between the start of the function and the
use when that has no block, and a locator calls back at the address of its own instruction. A
`Region` is a set of addresses that such steps do not leave. From an address of a region the
resolver fetches instructions, and asks for function starts and graphs, of that region only, for
any registry of locators that call back where they stand.
-/

namespace IDAnalysister

open Effect Prog

/-! ## Locators that stay where they are -/

/-- A callback that is made at an address. -/
def CallbackOp.AsksAt (ea : Nat) : CallbackOp → Prop
  | resolveRegister _ beforeEa => beforeEa = ea
  | resolveMemory _ _ beforeEa _ => beforeEa = ea
  | dereference _ _ => True

/-- Every callback is made at the address of the instruction. -/
def Locator.Local (l : Locator) : Prop :=
  ∀ port funcEa i dest, Uses (CallbackOp.AsksAt i.ea) (l.extract port funcEa i dest)

section Builtins

variable {ea : Nat}

/-- Looking at an operand asks nothing. -/
theorem withOperand_asksAt {i : Instruction} {number : Nat} {f : Operand → Extraction}
    (each : ∀ op, Uses (CallbackOp.AsksAt ea) (f op)) :
    Uses (CallbackOp.AsksAt ea) (withOperand i number f) := by
  unfold withOperand
  split
  · exact each _
  · exact .pure _

/-- Asking for a register at the instruction is asking there. -/
theorem resolveRegister_asksAt (reg : Option Nat) (ea : Nat) {α : Type}
    {f : ValueLattice → Prog Callback α} (each : ∀ v, Uses (CallbackOp.AsksAt ea) (f v)) :
    Uses (CallbackOp.AsksAt ea) ((Extraction.resolveRegister reg ea).bind f) :=
  .call (show CallbackOp.AsksAt ea (.resolveRegister reg ea) from rfl) each

/-- Loading a memory operand asks at the given address only. -/
theorem loadMemoryOperand_asksAt (port : IdaPort) (op : Operand) (ea : Nat) :
    Uses (CallbackOp.AsksAt ea) (loadMemoryOperand port op ea) := by
  have asks : ∀ base disp size,
      Uses (CallbackOp.AsksAt ea) (Extraction.resolveMemory base disp ea size) :=
    fun base disp size =>
      .call (show CallbackOp.AsksAt ea (.resolveMemory base disp ea size) from rfl) .pure
  unfold loadMemoryOperand
  split
  · exact .pure _
  · dsimp only
    split
    · exact asks _ _ _
    · split
      · split
        · exact .pure _
        · exact asks _ _ _
      · exact .pure _

theorem resolved_asksAt (value : ValueLattice) :
    Uses (CallbackOp.AsksAt ea) (Extraction.resolved value) := .pure _

theorem xchgRegReg_local : xchgRegReg.Local := by
  intro port funcEa i dest
  simp only [xchgRegReg]
  split
  · exact .pure _
  · split
    · exact resolveRegister_asksAt _ _ resolved_asksAt
    · exact .pure _

theorem pushLocator_local : pushLocator.Local := by
  intro port funcEa i dest
  refine withOperand_asksAt fun op => ?_
  split
  · exact resolveRegister_asksAt _ _ resolved_asksAt
  · split
    · exact .pure _
    · split
      · exact (loadMemoryOperand_asksAt port op i.ea).bind resolved_asksAt
      · exact .pure _

theorem addSubRegImm_local : addSubRegImm.Local := by
  intro port funcEa i dest
  refine withOperand_asksAt fun dst => withOperand_asksAt fun src => ?_
  refine resolveRegister_asksAt _ _ fun prior => ?_
  split
  · exact .pure _
  · split
    · exact .pure _
    · exact .pure _

/-- The built-in locators stay where they are. -/
theorem builtins_local : ∀ l ∈ defaultRegistry.all, l.Local := by
  rw [defaultRegistry_all]
  simp only [builtins, List.forall_mem_cons]
  refine ⟨fun _ _ _ _ => .pure _, ?_, ?_, ?_, xchgRegReg_local, fun _ _ _ _ => .pure _, ?_, ?_,
    pushLocator_local, ?_, fun _ _ _ _ => .pure _, ?_, addSubRegImm_local, by simp⟩
  · exact fun _ _ _ _ =>
      withOperand_asksAt fun _ => resolveRegister_asksAt _ _ resolved_asksAt
  · exact fun _ _ _ _ => withOperand_asksAt fun _ => .pure _
  · exact fun _ _ _ _ => withOperand_asksAt fun _ => .pure _
  · exact fun _ _ _ _ => withOperand_asksAt fun _ => .pure _
  · exact fun port _ i _ => withOperand_asksAt fun src =>
      (loadMemoryOperand_asksAt port src i.ea).bind resolved_asksAt
  · exact fun _ _ _ _ =>
      withOperand_asksAt fun _ => resolveRegister_asksAt _ _ resolved_asksAt
  · exact fun _ _ _ _ => withOperand_asksAt fun _ => withOperand_asksAt fun _ =>
      resolveRegister_asksAt _ _ fun _ => .pure _

/-- The worked example calls back at its own instruction. -/
theorem notLocator_local : notLocator.Local := by
  intro port funcEa i dest
  refine withOperand_asksAt fun dst => resolveRegister_asksAt _ _ fun prior => ?_
  split
  · exact .pure _
  · exact .pure _

end Builtins

/-- A registry stays local when a local locator is registered. -/
theorem LocatorRegistry.register_local {r : LocatorRegistry} {l : Locator} (priority : Int)
    (each : ∀ l ∈ r.all, l.Local) (new : l.Local) :
    ∀ l' ∈ (r.register l priority).all, l'.Local := by
  intro l' member
  rcases List.mem_map.mp member with ⟨entry, sorted, rfl⟩
  rcases List.mem_append.mp ((List.mem_insertionSort _).mp sorted) with old | added
  · exact each entry.2 (List.mem_map_of_mem old)
  · rw [List.mem_singleton.mp added]
    exact new

/-! ## Regions -/

/-- The address a query is made at. -/
def PublicQuery.ea : PublicQuery → Nat
  | register _ beforeEa => beforeEa
  | memory _ _ beforeEa _ => beforeEa
  | atInstruction ea _ => ea

/-- The heads that `prev_head` finds lie where it was asked to look, and an instruction is decoded
at its own address. -/
structure PlacedHeads (port : IdaPort) : Prop where
  within : ∀ ea minEa x, port.prevHead ea minEa = some x → minEa ≤ x ∧ x < ea
  placed : ∀ ea i, port.decodeAt ea = some i → i.ea = ea

theorem FakeIdaPort.placedHeads (f : FakeIdaPort) : PlacedHeads f.toPort where
  within ea minEa x found := by
    have listed := (List.max?_eq_some_iff.mp found).1
    simpa using (List.mem_filter.mp listed).2
  placed ea i found := by simpa using List.find?_some found

/-- Addresses that the walks of the resolver do not leave. -/
structure Region (port : IdaPort) (R : Set Nat) : Prop where
  block : ∀ ea ∈ R, ∀ f, port.getFuncStart ea = some f → ∀ block ∈ (buildCfg port f).blocks,
    ∀ x, block.startEa ≤ x → x < block.endEa → x ∈ R
  linear : ∀ ea ∈ R, ∀ f, port.getFuncStart ea = some f →
    BackwardResolver.useBlock (buildCfg port f) ea = none → ∀ x, f ≤ x → x < ea → x ∈ R

/-- The functions that addresses of a region belong to. -/
def ownersOf (port : IdaPort) (R : Set Nat) : Set Nat :=
  {f | ∃ ea ∈ R, port.getFuncStart ea = some f}

/-- The calls of a resolver that look at the database in a region only. -/
def ResolverOp.LooksIn (port : IdaPort) (R : Set Nat) : ResolverOp → Prop
  | get ea => ea ∈ R
  | funcEaFor ea => ea ∈ R
  | cfgFor f => f ∈ ownersOf port R
  | _ => True

/-- Answered by the port, the program looks at the database in a region only. -/
abbrev Stays (port : IdaPort) (R : Set Nat) {α : Type} (p : Query α)
    (good : α → Prop := fun _ => True) : Prop :=
  Confined (ResolverOp.LooksIn port R) (fun o r => Event.Honest port ⟨o, r⟩) good p

theorem stays_pure {port : IdaPort} {R : Set Nat} {α : Type} (a : α) :
    Stays port R (Prog.pure a : Query α) := .pure trivial

/-- The callbacks stay in a region when they are made at one of its addresses. -/
structure Callbacks.StayIn (port : IdaPort) (R : Set Nat) (cb : Callbacks) : Prop where
  resolveRegister : ∀ reg, ∀ ea ∈ R, Stays port R (cb.resolveRegister reg ea)
  resolveMemory : ∀ base disp, ∀ ea ∈ R, ∀ size,
    Stays port R (cb.resolveMemory base disp ea size)

section Walks

variable {R : Set Nat} {find : Instruction → Option (Query ValueLattice)}

/-- What a walk looks for stays in the region at every instruction of it. -/
def FindsIn (port : IdaPort) (R : Set Nat) (find : Instruction → Option (Query ValueLattice)) :
    Prop :=
  ∀ i, i.ea ∈ R → ∀ definition, find i = some definition →
    Stays port R definition

/-- A scan stays between its bounds. -/
theorem scanBack_stays {port : IdaPort} (heads : PlacedHeads port)
    (finds : FindsIn port R find) {lo hi : Nat} (inside : ∀ x, lo ≤ x → x < hi → x ∈ R)
    (bound : Nat) {ea : Option Nat} (start : ∀ x, ea = some x → lo ≤ x ∧ x < hi) :
    Stays port R (scanBack port find lo bound ea) := by
  induction bound generalizing ea with
  | zero =>
      cases ea with
      | none => exact stays_pure _
      | some x => exact .diverge
  | succ bound ih =>
      cases ea with
      | none => exact stays_pure _
      | some x =>
          have here := start x rfl
          have member := inside x here.1 here.2
          refine .call trivial fun ok _ => ?_
          cases ok with
          | false => exact stays_pure _
          | true =>
              refine .call member fun fetched answered => ?_
              dsimp only [bind_pure_left]
              split
              · rename_i definition found
                rcases Option.bind_eq_some_iff.mp found with ⟨i, rfl, defines⟩
                have placed := heads.placed x i answered.symm
                refine (finds i (placed ▸ member) definition defines).bind fun v _ => ?_
                exact stays_pure _
              · refine ih fun y next => ?_
                have below := heads.within x lo y next
                omega

/-- A walk stays in the blocks of its graph. -/
theorem walkBlock_stays {ρ : Type} {paths : Paths ρ} {port : IdaPort} {cfg : CfgModel}
    (heads : PlacedHeads port) (finds : FindsIn port R find)
    (blocks : ∀ block ∈ cfg.blocks, ∀ x, block.startEa ≤ x → x < block.endEa → x ∈ R)
    (loops bound : Nat) {boundary : Nat} {block : BasicBlockInfo}
    (inside : ∀ x, block.startEa ≤ x → x < boundary → x ∈ R) (visited : List Nat) :
    Stays port R (walkBlock paths port cfg find loops bound boundary block
      visited) := by
  induction bound generalizing boundary block visited with
  | zero => exact .diverge
  | succ bound ih =>
      refine (scanBack_stays heads finds inside loops fun x first =>
        heads.within boundary block.startEa x first).bind fun scanned _ => ?_
      cases scanned with
      | some value => exact stays_pure _
      | none =>
          dsimp only
          split
          · exact stays_pure _
          · split
            · exact stays_pure _
            · refine .call trivial fun ok _ => ?_
              cases ok with
              | false => exact stays_pure _
              | true =>
                  refine .call trivial fun _ _ => ?_
                  have walked : Stays port R (Prog.traverse (fun pred => walkBlock paths port cfg
                      find loops bound pred.endEa pred (block.startEa :: visited))
                      (cfg.predecessors block)) := by
                    refine Confined.traverse fun pred member => ?_
                    rcases CfgModel.mem_predecessors.mp member with ⟨start, -, found⟩
                    exact ih (blocks pred (CfgModel.byStart_mem found)) _
                  exact walked.bind fun results _ => stays_pure (paths.join results)

end Walks

/-! ## Definitions and callbacks -/

section Resolver

variable {self : BackwardResolver} {R : Set Nat} {cb : Callbacks}

theorem dereference_stays (addr : Int) (size : Nat) :
    Stays self.port R (self.dereference addr size) := by
  refine .call trivial fun ok _ => ?_
  cases ok with
  | false => exact stays_pure _
  | true =>
      simp only [bind_pure_left, if_true]
      split
      · exact stays_pure _
      · exact stays_pure _

/-- Interpreting a definition stays where the callbacks do. -/
theorem interpretDefinition_stays (each : ∀ l ∈ self.registry.all, l.Local)
    (nested : cb.StayIn self.port R) {i : Instruction} (member : i.ea ∈ R) (dest : Nat)
    (funcEa : Option Nat) :
    Stays self.port R (self.interpretDefinition cb i dest funcEa) := by
  have answers : ∀ o : CallbackOp, o.AsksAt i.ea →
      Stays self.port R (self.answerCallback cb o) := by
    intro o asks
    cases o with
    | resolveRegister reg ea => exact nested.resolveRegister reg ea (asks.symm ▸ member)
    | resolveMemory base disp ea size =>
        exact nested.resolveMemory base disp ea (asks.symm ▸ member) size
    | dereference addr size => exact dereference_stays addr size
  unfold BackwardResolver.interpretDefinition
  split
  · exact stays_pure _
  · rename_i l found
    have extraction := each l (LocatorRegistry.findMatch_mem found) self.port funcEa i dest
    have extracted : Stays self.port R (self.safeExtract cb l i dest funcEa) := by
      refine .call trivial fun _ _ => ?_
      exact (Confined.interpret answers extraction.confined).bind fun _ _ => stays_pure _
    refine extracted.bind fun outcome _ => ?_
    · cases outcome with
      | notApplicable => exact stays_pure _
      | resolved value => exact stays_pure _

/-- So does acting on a finding. -/
theorem settle_stays (each : ∀ l ∈ self.registry.all, l.Local) (nested : cb.StayIn self.port R)
    {i : Instruction} (member : i.ea ∈ R) (funcEa : Nat) (finding : Finding) :
    Stays self.port R (self.settle cb i funcEa finding) := by
  cases finding with
  | interpret operand => exact interpretDefinition_stays each nested member operand _
  | report value => exact stays_pure _

/-- Definitions of registers stay in the region. -/
theorem matchRegisterDefinition_findsIn (each : ∀ l ∈ self.registry.all, l.Local)
    (nested : cb.StayIn self.port R) (reg funcEa : Nat) :
    FindsIn self.port R (self.matchRegisterDefinition cb reg funcEa) := by
  intro i member definition found
  rcases Option.map_eq_some_iff.mp found with ⟨finding, -, rfl⟩
  exact settle_stays each nested member funcEa finding

/-- Definitions of cells stay in the region. -/
theorem matchMemoryDefinition_findsIn (each : ∀ l ∈ self.registry.all, l.Local)
    (nested : cb.StayIn self.port R) (key : MemoryKey) (funcEa : Nat) :
    FindsIn self.port R (self.matchMemoryDefinition cb key funcEa) := by
  intro i member definition found
  rcases Option.map_eq_some_iff.mp found with ⟨finding, -, rfl⟩
  exact settle_stays each nested member funcEa finding

/-- The search for a register and the search for a cell have this in common. -/
theorem search_stays (region : Region self.port R) {α : Type} {ea : Nat} (member : ea ∈ R)
    {missing : Query α} (absent : Stays self.port R missing)
    {linear : Nat → Query α} {block : Nat → BasicBlockInfo → CfgModel → Query α}
    (walksLinear : ∀ f, (∀ x, f ≤ x → x < ea → x ∈ R) →
      Stays self.port R (linear f))
    (walksBlock : ∀ f b cfg, (∀ b ∈ cfg.blocks, ∀ x, b.startEa ≤ x → x < b.endEa → x ∈ R) →
      (∀ x, b.startEa ≤ x → x < ea → x ∈ R) →
      Stays self.port R (block f b cfg)) :
    Stays self.port R (do
      let owner ← Query.funcEaFor ea
      match owner with
      | none => missing
      | some f => do
          let cfg ← Query.cfgFor f
          match BackwardResolver.useBlock cfg ea with
          | none => linear f
          | some b => block f b cfg) := by
  refine .call member fun owner answered => ?_
  cases owner with
  | none => exact absent
  | some f =>
      have owned : self.port.getFuncStart ea = some f := answered.symm
      refine .call ⟨ea, member, owned⟩ fun cfg drawn => ?_
      obtain rfl : cfg = buildCfg self.port f := drawn
      dsimp only [bind_pure_left]
      cases used : BackwardResolver.useBlock (buildCfg self.port f) ea with
      | none => exact walksLinear f (region.linear ea member f owned used)
      | some b =>
          have blocks := region.block ea member f owned
          have containing : (buildCfg self.port f).blockContaining ea = some b := by
            unfold BackwardResolver.useBlock at used
            split at used
            · cases used
            · exact used
          have around : b.startEa ≤ ea ∧ ea < b.endEa := by
            simpa using List.find?_some containing
          refine walksBlock f b _ blocks fun x after before => ?_
          exact blocks b (List.mem_of_find?_eq_some containing) x after (by omega)

section

variable (heads : PlacedHeads self.port) (region : Region self.port R)
variable (each : ∀ l ∈ self.registry.all, l.Local)

include heads region each

/-- A register query stays in the region. -/
theorem resolveRegisterImpl_stays (nested : cb.StayIn self.port R) (loops : Nat)
    (reg : Option Nat) {ea : Nat} (member : ea ∈ R) :
    Stays self.port R (self.resolveRegisterImpl loops cb reg ea) := by
  cases reg with
  | none => exact stays_pure _
  | some r =>
      refine .call trivial fun ok _ => ?_
      cases ok with
      | false => exact stays_pure _
      | true =>
          refine search_stays region member (stays_pure _) (fun f inside => ?_)
            fun f b cfg blocks inside => ?_
          · refine (scanBack_stays heads (matchRegisterDefinition_findsIn each nested r f) inside
              loops fun x first => heads.within ea f x first).bind fun _ _ => stays_pure _
          · refine (walkBlock_stays heads (matchRegisterDefinition_findsIn each nested r f) blocks
              loops loops inside []).bind fun path _ => ?_
            cases path with
            | cycle => exact stays_pure _
            | value v => exact stays_pure _

/-- A memory query stays in the region. -/
theorem resolveMemoryImpl_stays (nested : cb.StayIn self.port R) (loops : Nat)
    (base : Option Nat) (disp : Int) {ea : Nat} (member : ea ∈ R) (size : Nat) :
    Stays self.port R (self.resolveMemoryImpl loops cb base disp ea size) := by
  have searched : Stays self.port R (self.searchMemory loops cb base disp ea) := by
    refine search_stays region member (stays_pure _) (fun f inside => ?_)
      fun f b cfg blocks inside => ?_
    · refine (scanBack_stays heads (matchMemoryDefinition_findsIn each nested _ f) inside
        loops fun x first => heads.within ea f x first).bind fun scanned _ => ?_
      cases scanned with
      | none => exact stays_pure _
      | some value => exact stays_pure _
    · exact walkBlock_stays heads (matchMemoryDefinition_findsIn each nested _ f) blocks
        loops loops inside []
  have fallen : Stays self.port R (self.fallbackDereference loops cb base disp ea size) := by
    cases base with
    | none => exact dereference_stays disp size
    | some r =>
        refine (resolveRegisterImpl_stays heads region each nested loops (some r) member).bind
          fun v _ => ?_
        dsimp only
        split
        · exact stays_pure _
        · exact dereference_stays _ size
  refine .call trivial fun ok _ => ?_
  cases ok with
  | false => exact stays_pure _
  | true =>
      refine searched.bind fun found _ => ?_
      cases found with
      | value v => exact stays_pure _
      | notFound => exact fallen
      | cycle => exact fallen

/-- Callbacks of any depth stay in the region. -/
theorem callbacks_stay (loops depth : Nat) : (self.callbacks loops depth).StayIn self.port R := by
  induction depth with
  | zero => exact ⟨fun _ _ _ => .diverge, fun _ _ _ _ _ => .diverge⟩
  | succ depth ih =>
      exact ⟨fun reg ea member => resolveRegisterImpl_stays heads region each ih loops reg member,
        fun base disp ea member size =>
          resolveMemoryImpl_stays heads region each ih loops base disp member size⟩

/-- So does every public query about an address of it. -/
theorem program_stays (bound : Nat) {q : PublicQuery} (member : q.ea ∈ R) :
    Stays self.port R (self.program bound q) := by
  have nested := callbacks_stay heads region each bound bound
  cases q with
  | register reg ea => exact nested.resolveRegister (some reg) ea member
  | memory base disp ea size => exact nested.resolveMemory base disp ea member size
  | atInstruction ea dest =>
      refine .call trivial fun ok _ => ?_
      cases ok with
      | false => exact stays_pure _
      | true =>
          refine .call member fun fetched answered => ?_
          cases fetched with
          | none => exact stays_pure _
          | some i =>
              have placed := heads.placed ea i answered.symm
              refine .call member fun owner _ => ?_
              exact interpretDefinition_stays each nested (placed ▸ member) dest owner

end

end Resolver

/-! ## The push sequence -/

section Pushes

variable {R : Set Nat}

/-- Collecting pushes stays between the start of the function and the call. -/
theorem scanPushes_stays {port : IdaPort} (heads : PlacedHeads port) {f callEa : Nat}
    (inside : ∀ x, f ≤ x → x < callEa → x ∈ R) (bound : Nat) {ea : Option Nat}
    (start : ∀ x, ea = some x → f ≤ x ∧ x < callEa) {pushes : List Nat}
    (collected : ∀ x ∈ pushes, x ∈ R) (skipped : Nat) :
    Stays port R (scanPushes port f bound ea pushes skipped) (∀ x ∈ ·, x ∈ R) := by
  induction bound generalizing ea pushes skipped with
  | zero =>
      cases ea with
      | none => exact .pure collected
      | some x => exact .diverge
  | succ bound ih =>
      cases ea with
      | none => exact .pure collected
      | some x =>
          have here := start x rfl
          have member := inside x here.1 here.2
          have further : ∀ y, port.prevHead x f = some y → f ≤ y ∧ y < callEa := by
            intro y next
            have below := heads.within x f y next
            omega
          unfold scanPushes
          split
          · refine .call member fun fetched _ => ?_
            cases fetched with
            | none => exact .pure collected
            | some i =>
                dsimp only [bind_pure_left]
                split
                · exact ih further (List.forall_mem_cons.mpr ⟨member, collected⟩) skipped
                · split
                  · exact ih further collected (skipped + 1)
                  · exact .pure collected
          · exact .pure collected

/-- The pushes before a call are looked for between the start of its function and the call. -/
theorem collectPushSequence_stays {self : BackwardResolver} (heads : PlacedHeads self.port)
    {callEa : Nat} (member : callEa ∈ R)
    (inside : ∀ f, self.port.getFuncStart callEa = some f → ∀ x, f ≤ x → x < callEa → x ∈ R) :
    Stays self.port R (self.collectPushSequence callEa) (∀ x ∈ ·, x ∈ R) := by
  refine .call member fun owner answered => ?_
  cases owner with
  | none => exact .pure (List.forall_mem_nil _)
  | some f =>
      exact scanPushes_stays heads (inside f answered.symm) _
        (fun x first => heads.within callEa f x first) (List.forall_mem_nil _) 0

end Pushes

end IDAnalysister
