import IDAnalysister.Backward.Refusal
import IDAnalysister.Backward.Soundness

/-!
# What the memory walk computes

In a function whose only memory writes are immediates stored to frame or static cells,
the memory walk is exact when the budget refuses nothing: its answer is determined by
the writes that reach the use and by whether some path reaches it with none.
-/

namespace IDAnalysister

open Effect Prog

/-! ## The functions for which the walk is exact -/

/-- A register operand that shares bits with the register `r`, or has its number when
the port knows no layout. -/
def IdaPort.Overlaps (port : IdaPort) (r : Nat) (op : Operand) : Prop :=
  match port.registerView r 0, op.reg.bind (port.registerView · op.dtypeSize) with
  | some query, some write => write.parent = query.parent
  | _, _ => op.reg = some r

/-- `mov [cell], imm`: the instruction stores `n` in the frame or static cell `k`. -/
inductive StoresImm (port : IdaPort) (funcEa : Nat) (k : MemoryKey) (n : Int)
    (i : Instruction) : Prop
  | intro {a b : Operand} : i.mnem = "mov" → Pair i a b true false →
    CellOperand port funcEa i.ea a k → k.1 = .abs ∨ k.1 = .fp → b.kind = .immediate →
    b.immValue = some n → StoresImm port funcEa k n i

/-- The instruction is flagged to write the cell `k`. -/
def WritesCell (port : IdaPort) (funcEa : Nat) (k : MemoryKey) (i : Instruction) : Prop :=
  ∃ op ∈ i.operands, op.isMemory ∧ i.isWritten op.number ∧
    operandLocation port op i.ea funcEa = some k

/-- No call, no write to the frame pointer, and no memory write but an immediate stored
in a frame or static cell. -/
structure PlainStores (port : IdaPort) (funcEa : Nat) (i : Instruction) : Prop where
  notCall : i.isCall = false
  keepsFrame : ∀ fp, port.framePointerReg = some fp → ∀ op ∈ i.operands, op.kind = .reg →
    i.isWritten op.number → ¬ port.Overlaps fp op
  stores : ∀ op ∈ i.operands, op.isMemory → i.isWritten op.number →
    ∃ k n, StoresImm port funcEa k n i

section PlainStores

variable {port : IdaPort} {funcEa : Nat} {key k : MemoryKey} {n m : Int} {i : Instruction}

theorem StoresImm.finding (stores : StoresImm port funcEa k n i) :
    memoryFinding port i key funcEa = if k = key then some (.interpret 0) else none := by
  cases stores with
  | intro _ pair cell _ _ _ => exact memoryFinding_store pair cell

theorem StoresImm.writes (stores : StoresImm port funcEa k n i) : WritesCell port funcEa k i := by
  cases stores with
  | @intro a b _ pair cell _ _ _ =>
      refine ⟨a, by simp [pair.operands], cell.isMemory, ?_, cell.location⟩
      rw [pair.first]
      exact pair.flagA

/-- A store has one flagged operand, so it writes one cell. -/
theorem StoresImm.eq_of_writes (stores : StoresImm port funcEa k n i)
    (writes : WritesCell port funcEa key i) : k = key := by
  rcases writes with ⟨op, member, _, flagged, location⟩
  cases stores with
  | @intro a b _ pair cell _ _ _ =>
      rw [pair.operands] at member
      rcases List.mem_pair.mp member with rfl | rfl
      · exact Option.some.inj (cell.location.symm.trans location)
      · rw [pair.second, pair.flagB] at flagged
        cases flagged

/-- An instruction stores one number in a cell. -/
theorem StoresImm.value_unique (left : StoresImm port funcEa k n i)
    (right : StoresImm port funcEa k m i) : n = m := by
  cases left with
  | @intro a b _ pair _ _ _ value =>
      cases right with
      | @intro a' b' _ pair' _ _ _ value' =>
          have same := pair.operands.symm.trans pair'.operands
          have second : b = b' := by
            injection same with _ rest
            injection rest
          subst second
          exact Option.some.inj (value.symm.trans value')

/-- Where all stores are plain, what writes a cell stores a number in it. -/
theorem PlainStores.stores_of_writes (plain : PlainStores port funcEa i)
    (writes : WritesCell port funcEa key i) : ∃ n, StoresImm port funcEa key n i := by
  have found := writes
  rcases found with ⟨op, member, isMemory, flagged, _⟩
  rcases plain.stores op member isMemory flagged with ⟨k, n, stores⟩
  have same := stores.eq_of_writes writes
  subst same
  exact ⟨n, stores⟩

theorem memoryOperandFinding_eq_none {ops : List Operand}
    (unflagged : ∀ op ∈ ops, ¬ (op.isMemory ∧ i.isWritten op.number)) :
    memoryOperandFinding port i key funcEa ops = none := by
  induction ops with
  | nil => rfl
  | cons op ops ih =>
      have rest := ih fun op' member => unflagged op' (by simp [member])
      have head := unflagged op (by simp)
      rw [memoryOperandFinding, if_neg head, rest]

/-- The walk recognises exactly the writes to the cell. -/
theorem PlainStores.finding_isSome_iff (plain : PlainStores port funcEa i) (key : MemoryKey) :
    (memoryFinding port i key funcEa).isSome ↔ WritesCell port funcEa key i := by
  constructor
  · intro found
    by_cases flagged : ∃ op ∈ i.operands, op.isMemory ∧ i.isWritten op.number
    · rcases flagged with ⟨op, member, isMemory, flagged⟩
      rcases plain.stores op member isMemory flagged with ⟨k, n, stores⟩
      rw [stores.finding] at found
      by_cases same : k = key
      · subst same
        exact stores.writes
      · rw [if_neg same] at found
        cases found
    · push Not at flagged
      have missed : memoryFinding port i key funcEa = none :=
        memoryOperandFinding_eq_none fun op member both => flagged op member both.1 both.2
      rw [missed] at found
      cases found
  · intro writes
    rcases plain.stores_of_writes writes with ⟨n, stores⟩
    rw [stores.finding, if_pos rfl]
    rfl

/-- Nothing in such a function defines the frame pointer. -/
theorem PlainStores.registerFinding_frame (plain : PlainStores port funcEa i) {fp : Nat}
    (frame : port.framePointerReg = some fp) : registerFinding port i fp = none := by
  have keeps := plain.keepsFrame fp frame
  rw [registerFinding_of_notCall plain.notCall]
  generalize i.operands = ops at keeps
  induction ops with
  | nil => rfl
  | cons op ops ih =>
      have rest := ih fun op' member => keeps op' (by simp [member])
      by_cases candidate : op.kind = .reg ∧ i.isWritten op.number
      · have apart := keeps op (by simp) candidate.1 candidate.2
        rw [registerOperandFinding, if_pos candidate, rest]
        unfold IdaPort.Overlaps at apart
        split
        · rename_i query write viewed written
          rw [viewed, written] at apart
          rw [if_pos apart]
        · rename_i other
          split at apart
          · rename_i query write viewed written
            exact (other query write viewed written).elim
          · rw [if_neg apart]
      · rw [registerOperandFinding, if_neg candidate, rest]

end PlainStores

/-! ## Joining outcomes -/

/-- What is reported where the integers in `S` are stored on some paths, and `U` says that
other paths store none: an agreed integer, or a disagreement. -/
inductive Merged (S : Int → Prop) (U : Prop) : ValueLattice → Prop
  | agreed {n : Int} : S n → Merged S U (.concrete (.int n) .int)
  | half {detail : String} : U → Merged S U (.unknown .divergentPaths detail)
  | divergent {n m : Int} {detail : String} : S n → S m → n ≠ m →
    Merged S U (.unknown .divergentPaths detail)

/-- The outcomes of a search: nothing is said about a path that loops back, and a value
is reported only where something is stored. -/
inductive Outcome (S : Int → Prop) (U : Prop) : MemoryPath → Prop
  | cycle : Outcome S U .cycle
  | notFound : U → Outcome S U .notFound
  | value {n : Int} {v : ValueLattice} : S n → Merged S U v → Outcome S U (.value v)

section Joins

variable {S S' : Int → Prop} {U U' : Prop}

theorem Merged.mono {v : ValueLattice} (merged : Merged S U v) (stored : ∀ n, S n → S' n)
    (open' : U → U') : Merged S' U' v := by
  cases merged with
  | agreed h => exact .agreed (stored _ h)
  | half h => exact .half (open' h)
  | divergent left right ne => exact .divergent (stored _ left) (stored _ right) ne

theorem Outcome.mono {w : MemoryPath} (outcome : Outcome S U w) (stored : ∀ n, S n → S' n)
    (open' : U → U') : Outcome S' U' w := by
  cases outcome with
  | cycle => exact .cycle
  | notFound h => exact .notFound (open' h)
  | value h merged => exact .value (stored _ h) (merged.mono stored open')

/-- Merged values join to a merged value. -/
theorem Merged.join {v w : ValueLattice} (left : Merged S U v) (right : Merged S U w) :
    Merged S U (v.join w) := by
  cases left with
  | half h => exact .half h
  | divergent hn hm ne => exact .divergent hn hm ne
  | @agreed n hn =>
      cases right with
      | half h => exact .half h
      | divergent hn hm ne => exact .divergent hn hm ne
      | @agreed m hm =>
          by_cases same : n = m
          · subst same
            simp only [ValueLattice.join, and_self, if_true]
            exact .agreed hn
          · have ne : ¬ (Datum.int n = .int m ∧ ValueKind.int = .int) := by simp [same]
            rw [ValueLattice.join, if_neg ne]
            exact .divergent hn hm same

/-- So do any number of them. -/
theorem merged_joinAll {vs : List ValueLattice} (nonempty : vs ≠ [])
    (each : ∀ v ∈ vs, Merged S U v) : Merged S U (.joinAll vs) := by
  cases vs with
  | nil => exact (nonempty rfl).elim
  | cons v vs =>
      have head := each v (by simp)
      have tail : ∀ w ∈ vs, Merged S U w := fun w member => each w (by simp [member])
      rw [ValueLattice.joinAll]
      clear each nonempty
      induction vs generalizing v with
      | nil => exact head
      | cons w vs ih =>
          exact ih (v.join w) (head.join (tail w (by simp)))
            fun u member => tail u (by simp [member])

/-- The outcomes of the paths join to the outcome of the walk. -/
theorem Outcome.join {results : List MemoryPath} (each : ∀ r ∈ results, Outcome S U r) :
    Outcome S U (joinMemoryPaths results) := by
  unfold joinMemoryPaths
  dsimp only
  generalize informed : results.filter (· ≠ .cycle) = informative
  have informativeEach : ∀ r ∈ informative, r ≠ .cycle ∧ Outcome S U r := by
    intro r member
    rw [← informed, List.mem_filter] at member
    exact ⟨by simpa using member.2, each r member.1⟩
  -- a path that reports no value found no write
  have lacks : ∀ r ∈ informative, r.value? = none → U := by
    intro r member none
    have both := informativeEach r member
    cases both.2 with
    | cycle => exact (both.1 rfl).elim
    | notFound h => exact h
    | value => cases none
  have values : ∀ v ∈ informative.filterMap MemoryPath.value?, (∃ n, S n) ∧ Merged S U v := by
    intro v member
    rcases List.mem_filterMap.mp member with ⟨r, inside, known⟩
    have both := informativeEach r inside
    cases both.2 with
    | cycle => cases known
    | notFound => cases known
    | value stored merged =>
        cases known
        exact ⟨⟨_, stored⟩, merged⟩
  split
  · exact .cycle
  · rename_i some'
    split
    · rename_i none
      rcases List.exists_mem_of_ne_nil informative some' with ⟨r, member⟩
      exact .notFound (lacks r member (List.filterMap_eq_nil_iff.mp none r member))
    · rename_i found
      rcases List.exists_mem_of_ne_nil _ found with ⟨v, member⟩
      rcases (values v member).1 with ⟨n, stored⟩
      split
      · rename_i shorter
        have fewer : (informative.filterMap MemoryPath.value?).length < informative.length :=
          lt_of_le_of_ne (List.length_filterMap_le ..) shorter
        rcases List.length_filterMap_lt_length_iff_exists.mp fewer with ⟨r, member, none⟩
        exact .value stored (.half (lacks r member none))
      · exact .value stored (merged_joinAll found fun v member => (values v member).2)

/-- A value that is bounded by every stored integer, and unknown where some path stores
none, is concrete exactly when the paths agree on it. -/
theorem Merged.concrete_iff {v : ValueLattice} (merged : Merged S U v)
    (bounded : ∀ n, S n → v ≤ .concrete (.int n) .int) (opened : U → v.isKnown = false)
    {d : Datum} {k : ValueKind} :
    v = .concrete d k ↔ ∃ n, d = .int n ∧ k = .int ∧ S n ∧ (∀ m, S m → m = n) ∧ ¬ U := by
  constructor
  · intro same
    subst same
    cases merged with
    | @agreed n stored =>
        refine ⟨n, rfl, rfl, stored, ?_, ?_⟩
        · intro m other
          have le := ValueLattice.concrete_le.mp (bounded m other)
          exact Datum.int.inj (ValueLattice.concrete.inj le).1
        · intro open'
          cases opened open'
  · intro agreed
    rcases agreed with ⟨n, rfl, rfl, _, unique, closed⟩
    cases merged with
    | agreed stored => rw [unique _ stored]
    | half open' => exact (closed open').elim
    | divergent left right ne => exact (ne ((unique _ left).trans (unique _ right).symm)).elim

/-- A merged value is one of the numbers, or divergent. -/
theorem Merged.concrete_or_divergent {v : ValueLattice} (merged : Merged S U v) :
    (∃ n, v = .concrete (.int n) .int) ∨ ∃ detail, v = .unknown .divergentPaths detail := by
  cases merged with
  | agreed => exact Or.inl ⟨_, rfl⟩
  | half => exact Or.inr ⟨_, rfl⟩
  | divergent => exact Or.inr ⟨_, rfl⟩

end Joins

/-! ## The search of a use -/

/-- What `_fallback_dereference` reports: the static content of an absolute cell, and
nothing for a frame cell. -/
def fallbackValue (port : IdaPort) (base : Option Nat) (disp : Int) (size : Nat) : ValueLattice :=
  match base with
  | none =>
      .memoryRef disp (match port.readInt disp size with
        | none => .unknown' .memoryReadFailed
        | some raw => .concrete (.int raw) .int)
  | some _ => .unknown' .noDefinitionFound

section Search

variable {self : BackwardResolver} {funcEa loops : Nat} {G : ConsistentCfg self.port funcEa}
variable {cb : Callbacks} {key : MemoryKey} {t : List (Event Resolver)} {b : BasicBlockInfo}

/-- The integer `n` is stored by a write to the cell that reaches the boundary. -/
def Reaching {port : IdaPort} {funcEa : Nat} (G : ConsistentCfg port funcEa) (key : MemoryKey)
    (boundary : Nat) (b : BasicBlockInfo) (n : Int) : Prop :=
  ∃ i, G.LastDef (WritesCell port funcEa key) boundary b i ∧ StoresImm port funcEa key n i

/-- A number that reaches the end of a predecessor reaches a clear block. -/
theorem Reaching.back {boundary : Nat} {p : BasicBlockInfo} {n : Int}
    (clear : ∀ j ∈ before (G.tile b) boundary, ¬ WritesCell self.port funcEa key j)
    (pred : p ∈ G.cfg.predecessors b) (reaching : Reaching G key p.endEa p n) :
    Reaching G key boundary b n := by
  rcases reaching with ⟨i, last, stores⟩
  exact ⟨i, .back clear pred last, stores⟩

/-- The instructions of the function are in the class above. -/
def AllPlain {port : IdaPort} {funcEa : Nat} (G : ConsistentCfg port funcEa) : Prop :=
  ∀ b ∈ G.cfg.blocks, ∀ i ∈ G.tile b, PlainStores port funcEa i

/-- Where all stores are plain, the resolver takes for definitions what writes the cell. -/
theorem AllPlain.defines_iff (plain : AllPlain G) (cb : Callbacks) (key : MemoryKey) :
    ∀ c ∈ G.cfg.blocks, ∀ i ∈ G.tile c,
      (WritesCell self.port funcEa key i ↔
        Defines (self.matchMemoryDefinition cb key funcEa) i) := by
  intro c hc i member
  have same := (plain c hc i member).finding_isSome_iff key
  rw [← same, Defines, BackwardResolver.matchMemoryDefinition, Option.isSome_map]

/-- A definition that the walk finds reports the integer it stores. -/
theorem AllPlain.found_eq (plain : AllPlain G) (builtin : self.registry = defaultRegistry)
    (hb : b ∈ G.cfg.blocks) {i : Instruction} (member : i ∈ G.tile b) {v : ValueLattice}
    (found : Found (self.matchMemoryDefinition cb key funcEa) t i v) :
    ∃ n, StoresImm self.port funcEa key n i ∧ v = .concrete (.int n) .int := by
  have defines := found.defines
  have writes := (plain.defines_iff cb key b hb i member).mpr defines
  rcases (plain b hb i member).stores_of_writes writes with ⟨n, stores⟩
  refine ⟨n, stores, ?_⟩
  rcases found with ⟨definition, t', known, _, run⟩
  rw [BackwardResolver.matchMemoryDefinition, stores.finding, if_pos rfl] at known
  cases known
  cases stores with
  | intro mnem pair cell _ imm value =>
      exact exec_movMemImm builtin mnem pair cell.isMemory imm value run

/-- The search reports a value that some write stores, finds nothing only along a path
without a write, and reports a disagreement only if there is one. -/
theorem search_outcome (plain : AllPlain G) (builtin : self.registry = defaultRegistry)
    (quiet : ¬ RefusedOn t) (hb : b ∈ G.cfg.blocks) {ea : Nat} (lo : b.startEa ≤ ea)
    (hi : ea ≤ b.endEa) (honest : HonestTrace self.port t) {w : MemoryPath}
    (run : Exec (self.walkMemoryBlock cb loops key ea b funcEa G.cfg) t w) :
    Outcome (Reaching G key ea b) (G.Unwritten (WritesCell self.port funcEa key) ea b) w := by
  have clearOf {c : BasicBlockInfo} {boundary : Nat} (hc : c ∈ G.cfg.blocks)
      (clear : ∀ j ∈ before (G.tile c) boundary,
        ¬ Defines (self.matchMemoryDefinition cb key funcEa) j) :
      ∀ j ∈ before (G.tile c) boundary, ¬ WritesCell self.port funcEa key j :=
    fun j member writes => clear j member
      ((plain.defines_iff cb key c hc j (mem_of_before member)).mp writes)
  refine walkBlock_witnessed (fun boundary c w => c ∈ G.cfg.blocks →
    Outcome (Reaching G key boundary c)
      (G.Unwritten (WritesCell self.port funcEa key) boundary c) w) ?_ ?_ ?_ ?_ ?_ hb lo hi
    (List.Subset.refl t) honest run hb
  · intro refused
    exact (quiet refused).elim
  · intro boundary c pre post i v hc split clear found _
    have met : i ∈ before (G.tile c) boundary := by simp [split]
    rcases plain.found_eq builtin hc (mem_of_before met) found with ⟨n, stores, rfl⟩
    have last : G.LastDef (WritesCell self.port funcEa key) boundary c i := by
      refine .here split stores.writes fun j member writes => clear j member ?_
      have inside : j ∈ before (G.tile c) boundary := by simp [split, member]
      exact (plain.defines_iff cb key c hc j (mem_of_before inside)).mp writes
    exact .value ⟨i, last, stores⟩ (.agreed ⟨i, last, stores⟩)
  · intro boundary c _
    exact .cycle
  · intro boundary c clear none hc
    exact .notFound (.here (clearOf hc clear) none)
  · intro boundary c results clear _ each hc
    apply Outcome.join
    intro r member
    rcases exists_of_forall₂ each.flip member with ⟨p, pred, outcome⟩
    have hp := (G.mem_predecessors_iff.mp pred).1
    exact (outcome hp).mono (fun n => Reaching.back (clearOf hc clear) pred)
      (.back (clearOf hc clear) pred)

theorem coversAt_join {c : ValueLattice} (results : List MemoryPath) (r : MemoryPath)
    (member : r ∈ results) (covers : ∃ u, r = .value u ∧ u ≤ c) :
    ∃ u, joinMemoryPaths results = .value u ∧ u ≤ c := by
  rcases covers with ⟨u, rfl, le⟩
  have informative : MemoryPath.value u ∈ results.filter (· ≠ .cycle) := by
    simp [List.mem_filter, member]
  have found : u ∈ (results.filter (· ≠ .cycle)).filterMap MemoryPath.value? :=
    List.mem_filterMap.mpr ⟨_, informative, rfl⟩
  unfold joinMemoryPaths
  rw [if_neg (List.ne_nil_of_mem informative)]
  dsimp only
  rw [if_neg (List.ne_nil_of_mem found)]
  split
  · exact ⟨_, rfl, ValueLattice.unknown_le _ _ _⟩
  · exact ⟨_, rfl, (ValueLattice.joinAll_le found).trans le⟩

/-- A reaching write bounds what the search reports. -/
theorem search_le (plain : AllPlain G) (builtin : self.registry = defaultRegistry)
    (hb : b ∈ G.cfg.blocks) {ea : Nat} (lo : b.startEa ≤ ea) (hi : ea ≤ b.endEa)
    (honest : HonestTrace self.port t) {w : MemoryPath}
    (run : Exec (self.walkMemoryBlock cb loops key ea b funcEa G.cfg) t w) {n : Int}
    (reaching : Reaching G key ea b n) : ∃ u, w = .value u ∧ u ≤ .concrete (.int n) .int := by
  rcases reaching with ⟨i, last, stores⟩
  rcases last.mem_tile hb with ⟨c, hc, member, _⟩
  have last' := last.congr (plain.defines_iff cb key) hb
  refine covers_of_lastDef (fun w => ∃ u, w = .value u ∧ u ≤ .concrete (.int n) .int)
    ⟨_, rfl, ValueLattice.unknown_le _ _ _⟩ coversAt_join hb lo hi last' honest run ?_
  intro v found
  rcases plain.found_eq builtin hc member found with ⟨m, stores', rfl⟩
  have same := stores.value_unique stores'
  subst same
  exact ⟨_, rfl, le_refl _⟩

theorem open_join (results : List MemoryPath) (r : MemoryPath) (member : r ∈ results)
    (open' : r = .notFound ∨ r.Lost) :
    joinMemoryPaths results = .notFound ∨ (joinMemoryPaths results).Lost := by
  rcases open' with rfl | lost
  · have informative : MemoryPath.notFound ∈ results.filter (· ≠ .cycle) := by
      simp [List.mem_filter, member]
    have shorter : ((results.filter (· ≠ .cycle)).filterMap MemoryPath.value?).length <
        (results.filter (· ≠ .cycle)).length :=
      List.length_filterMap_lt_length_iff_exists.mpr ⟨_, informative, rfl⟩
    unfold joinMemoryPaths
    rw [if_neg (List.ne_nil_of_mem informative)]
    dsimp only
    split
    · exact Or.inl rfl
    · rw [if_pos shorter.ne]
      exact Or.inr rfl
  · exact Or.inr (joinMemoryPaths_lost ⟨r, member, lost⟩)

/-- Where a path reaches the use without a write, the search reports no known value. -/
theorem search_open (plain : AllPlain G) (hb : b ∈ G.cfg.blocks) {ea : Nat}
    (lo : b.startEa ≤ ea) (hi : ea ≤ b.endEa) (honest : HonestTrace self.port t) {w : MemoryPath}
    (run : Exec (self.walkMemoryBlock cb loops key ea b funcEa G.cfg) t w)
    (unwritten : G.Unwritten (WritesCell self.port funcEa key) ea b) :
    w = .notFound ∨ w.Lost :=
  covers_of_unwritten (fun w => w = .notFound ∨ w.Lost) (Or.inr rfl) open_join hb lo hi
    (unwritten.congr (plain.defines_iff cb key) hb) honest run (Or.inl rfl)

/-! ## The fallback -/

/-- The value of the frame pointer is never found, as nothing defines it. -/
theorem frame_unresolved (plain : AllPlain G) {fp : Nat}
    (frame : self.port.framePointerReg = some fp) (hb : b ∈ G.cfg.blocks) {ea : Nat}
    (lo : b.startEa ≤ ea) (hi : ea < b.endEa) (honest : HonestTrace self.port t)
    {v : ValueLattice} (run : Exec (self.resolveRegisterImpl loops cb (some fp) ea) t v) :
    v.isKnown = false := by
  rcases resolveRegisterImpl_cases hb lo hi honest run with
    ⟨-, rfl⟩ | ⟨t₁, sub, w, walked, value⟩
  · rfl
  · have outcome : w = .cycle ∨ w.Lost := by
      refine walkBlock_witnessed (fun _ _ w => w = .cycle ∨ w.Lost) ?_ ?_ ?_ ?_ ?_ hb lo hi.le
        (List.Subset.refl t₁) (honest.sub sub) walked
      · intro _ _ _
        exact Or.inr rfl
      · intro boundary c pre post i v hc split _ found
        have member : i ∈ before (G.tile c) boundary := by simp [split]
        have missed := (plain c hc i (mem_of_before member)).registerFinding_frame frame
        have defines := found.defines
        rw [Defines, BackwardResolver.matchRegisterDefinition, missed] at defines
        cases defines
      · intro _ _
        exact Or.inl rfl
      · intro _ _ _ _
        exact Or.inr rfl
      · intro _ c results _ _ each
        by_cases lost : ∃ r ∈ results, r.Lost
        · exact Or.inr (joinRegisterPaths_lost lost)
        · have cycles : results.filterMap RegisterPath.value? = [] := by
            apply List.filterMap_eq_nil_iff.mpr
            intro r member
            rcases exists_of_forall₂ each.flip member with ⟨p, _, cycle | found⟩
            · rw [cycle]
              rfl
            · exact (lost ⟨r, member, found⟩).elim
          exact Or.inl (by simp [registerPaths, joinRegisterPaths, cycles])
    rcases value with rfl | ⟨-, rfl⟩
    · rcases outcome with looped | lost
      · cases looped
      · exact lost
    · rfl

/-- For an absolute or a frame cell the fallback gives `fallbackValue`. -/
theorem fallback_eq (plain : AllPlain G) {base : Option Nat} {disp : Int} {size ea : Nat}
    (cell : base = none ∨ ∃ fp, base = some fp ∧ self.port.framePointerReg = some fp)
    (quiet : ¬ RefusedOn t) (hb : b ∈ G.cfg.blocks) (lo : b.startEa ≤ ea) (hi : ea < b.endEa)
    (honest : HonestTrace self.port t) {v : ValueLattice}
    (run : Exec (self.fallbackDereference loops cb base disp ea size) t v) :
    v = fallbackValue self.port base disp size := by
  rcases cell with rfl | ⟨fp, rfl, frame⟩
  · simp only [BackwardResolver.fallbackDereference, BackwardResolver.dereference, bind_eq,
      Query.step_bind] at run
    rcases exec_call.mp run with ⟨ok, t₁, rfl, asked⟩
    cases ok with
    | false => exact (quiet ⟨⟨.step, false⟩, by simp, rfl⟩).elim
    | true =>
        rw [if_pos rfl] at asked
        rw [fallbackValue]
        cases read : self.port.readInt disp size with
        | none =>
            rw [read] at asked
            exact (exec_pure.mp asked).2
        | some raw =>
            rw [read] at asked
            exact (exec_pure.mp asked).2
  · rcases exec_bind.mp run with ⟨t₁, t₂, baseVal, rfl, resolved, rest⟩
    have unknown := frame_unresolved plain frame hb lo hi (honest.sub (by simp)) resolved
    rcases ValueLattice.isKnown_eq_false unknown with ⟨reason, detail, rfl⟩
    exact (exec_pure.mp rest).2

/-- Numbers reach a block as its last definitions do. -/
theorem reaching_iff (plain : AllPlain G) (hb : b ∈ G.cfg.blocks) {boundary : Nat} :
    (∃ i, G.LastDef (WritesCell self.port funcEa key) boundary b i) ↔
      ∃ n, Reaching G key boundary b n := by
  constructor
  · intro some'
    rcases some' with ⟨i, last⟩
    rcases last.mem_tile hb with ⟨c, hc, member, writes⟩
    rcases (plain c hc i member).stores_of_writes writes with ⟨n, stores⟩
    exact ⟨n, i, last, stores⟩
  · intro some'
    rcases some' with ⟨n, i, last, _⟩
    exact ⟨i, last⟩

/-- When one integer reaches the boundary, every write that does stores it. -/
theorem stores_of_unique (plain : AllPlain G) (hb : b ∈ G.cfg.blocks) {boundary : Nat} {n : Int}
    (unique : ∀ m, Reaching G key boundary b m → m = n) (i : Instruction)
    (last : G.LastDef (WritesCell self.port funcEa key) boundary b i) :
    StoresImm self.port funcEa key n i := by
  rcases last.mem_tile hb with ⟨c, hc, member, writes⟩
  rcases (plain c hc i member).stores_of_writes writes with ⟨m, stores⟩
  have same := unique m ⟨i, last, stores⟩
  subst same
  exact stores

/-- No value of the search is that of the fallback. -/
theorem fallbackValue_ne {S : Int → Prop} {U : Prop} {v : ValueLattice} (merged : Merged S U v)
    (port : IdaPort) (base : Option Nat) (disp : Int) (size : Nat) :
    v ≠ fallbackValue port base disp size := by
  rcases merged.concrete_or_divergent with ⟨n, rfl⟩ | ⟨detail, rfl⟩
  · cases base <;> simp [fallbackValue]
  · cases base <;> simp [fallbackValue]

theorem cell_base {base : Option Nat} {disp : Int} {ea : Nat}
    (cell : (memoryLocation self.port base disp ea funcEa).1 = .abs ∨
      (memoryLocation self.port base disp ea funcEa).1 = .fp) :
    base = none ∨ ∃ fp, base = some fp ∧ self.port.framePointerReg = some fp := by
  cases base with
  | none => exact Or.inl rfl
  | some r =>
      unfold memoryLocation at cell
      dsimp only at cell
      split at cell
      · split at cell
        · rcases cell with cell | cell <;> cases cell
        · rcases cell with cell | cell <;> cases cell
      · split at cell
        · rename_i frame
          exact Or.inr ⟨r, rfl, frame⟩
        · rcases cell with cell | cell <;> cases cell

end Search

/-! ## The exact answer -/

/-- When the budget refuses nothing, `resolve_memory` of a frame or static cell returns a
concrete value exactly when some write reaches the use, every reaching write stores that
value and no path without a write does; it takes the fallback exactly when no write reaches
the use, and is unknown otherwise. -/
theorem resolveMemory_exact (self : BackwardResolver) (builtin : self.registry = defaultRegistry)
    {funcEa : Nat} (G : ConsistentCfg self.port funcEa) (plain : AllPlain G)
    {b : BasicBlockInfo} (hb : b ∈ G.cfg.blocks) {ea : Nat} (lo : b.startEa ≤ ea)
    (hi : ea < b.endEa) {base : Option Nat} {disp : Int} {size : Nat} {key : MemoryKey}
    (location : memoryLocation self.port base disp ea funcEa = key)
    (cell : key.1 = .abs ∨ key.1 = .fp) {v : ValueLattice} {budget : ResolutionBudget}
    {trace : List (Event Resolver)}
    (ran : self.execute (self.memoryQuery self.fuel base disp ea size) = some (v, budget, trace))
    (quiet : ¬ RefusedOn trace) :
    (∀ d k, v = .concrete d k ↔ ∃ n, d = .int n ∧ k = .int ∧
      (∃ i, G.LastDef (WritesCell self.port funcEa key) ea b i) ∧
      (∀ i, G.LastDef (WritesCell self.port funcEa key) ea b i →
        StoresImm self.port funcEa key n i) ∧
      ¬ G.Unwritten (WritesCell self.port funcEa key) ea b) ∧
    (v = fallbackValue self.port base disp size ↔
      ¬ ∃ i, G.LastDef (WritesCell self.port funcEa key) ea b i) ∧
    ((∃ i, G.LastDef (WritesCell self.port funcEa key) ea b i) → (∀ d k, v ≠ .concrete d k) →
      v.isKnown = false) := by
  subst location
  have bases := cell_base cell
  generalize located : memoryLocation self.port base disp ea funcEa = key
  rcases run_eq_some.mp ran with ⟨exec, answered⟩
  have honest := honest_of_answers answered
  rcases resolveMemoryImpl_cases hb lo hi honest exec with
    ⟨refused, -⟩ | ⟨t₁, sub, w, walked, rest⟩
  · exact (quiet refused).elim
  rw [located] at walked
  have quiet₁ : ¬ RefusedOn t₁ := fun refused => quiet (refused.weaken sub)
  have honest₁ := honest.sub sub
  have outcome := search_outcome plain builtin quiet₁ hb lo hi.le honest₁ walked
  have bounded (n : Int) (reaching : Reaching G key ea b n) :=
    search_le plain builtin hb lo hi.le honest₁ walked reaching
  have opened := search_open plain hb lo hi.le honest₁ walked
  have reached : (∃ i, G.LastDef (WritesCell self.port funcEa key) ea b i) ↔
      ∃ n, Reaching G key ea b n := reaching_iff plain hb
  rcases rest with rfl | ⟨nothing, t₂, sub₂, fallback⟩
  · -- the search reported the value
    cases outcome with
    | @value n v stored merged =>
        have below : ∀ m, Reaching G key ea b m → v ≤ .concrete (.int m) .int := by
          intro m reaching
          rcases bounded m reaching with ⟨u, same, le⟩
          cases same
          exact le
        have lost : G.Unwritten (WritesCell self.port funcEa key) ea b → v.isKnown = false := by
          intro unwritten
          rcases opened unwritten with same | lost
          · cases same
          · exact lost
        refine ⟨fun d k => ?_, ?_, fun _ silent => ?_⟩
        · rw [merged.concrete_iff below lost]
          constructor
          · intro agreed
            rcases agreed with ⟨n, rfl, rfl, stored, unique, closed⟩
            exact ⟨n, rfl, rfl, reached.mpr ⟨n, stored⟩, stores_of_unique plain hb unique, closed⟩
          · intro agreed
            rcases agreed with ⟨n, rfl, rfl, some', all, closed⟩
            rcases some' with ⟨i, last⟩
            refine ⟨n, rfl, rfl, ⟨i, last, all i last⟩, ?_, closed⟩
            intro m other
            rcases other with ⟨j, last', stores⟩
            exact stores.value_unique (all j last')
        · have differs := fallbackValue_ne merged self.port base disp size
          exact ⟨fun same => (differs same).elim, fun none => (none (reached.mpr ⟨n, stored⟩)).elim⟩
        · rcases merged.concrete_or_divergent with ⟨m, rfl⟩ | ⟨detail, rfl⟩
          · exact (silent _ _ rfl).elim
          · rfl
  · -- the search found no write
    have value := fallback_eq plain bases (fun refused => quiet (refused.weaken sub₂)) hb lo hi
      (honest.sub sub₂) fallback
    have unreached : ¬ ∃ i, G.LastDef (WritesCell self.port funcEa key) ea b i := by
      rw [reached]
      intro some'
      rcases some' with ⟨n, reaching⟩
      rcases bounded n reaching with ⟨u, same, _⟩
      rcases nothing with rfl | rfl
      · cases same
      · cases same
    have silent : ∀ d k, v ≠ .concrete d k := by
      rw [value]
      intro d k
      cases base <;> simp [fallbackValue]
    refine ⟨fun d k => ?_, ⟨fun _ => unreached, fun _ => value⟩,
      fun some' => (unreached some').elim⟩
    constructor
    · intro same
      exact (silent d k same).elim
    · intro agreed
      rcases agreed with ⟨_, _, _, some', _⟩
      exact (unreached some').elim

/-! ### A stack slot written before a loop

The graph of `test_stack_slot_written_before_a_loop_resolves_inside_it`. -/

namespace SlotLoop

def setSlot : Instruction :=
  FakeIdaPort.insn 0x401000 "mov" 7 [FakeIdaPort.memDispl 0 5 (-0x10), FakeIdaPort.imm 1 0x77]

def back : Instruction := FakeIdaPort.jump 0x401007 "jmp" 2 0x401007

/-- The block that jumps back to its own start. -/
def body : BasicBlockInfo := ⟨0x401007, 0x401009, [0x401007], [0x401000, 0x401007]⟩

def port : IdaPort := FakeIdaPort.toPort
  { pointerSize := 4
    instructions := [setSlot, back]
    funcBounds := [(0x401000, 0x401009)]
    blocks := [(0x401000, [⟨0x401000, 0x401007, [0x401007], []⟩, body])] }

def graph : ConsistentCfg port 0x401000 where
  tile b := if b.startEa = 0x401000 then [setSlot] else [back]
  entry := ⟨0x401000, 0x401007, [0x401007], []⟩
  entry_mem := by decide
  entry_startEa := rfl
  nonempty := by decide
  disjoint := by decide
  converse := by decide
  tiled := by decide
  decoded := by decide
  heads := by decide
  owner := by decide

def resolver : BackwardResolver := ⟨port, defaultRegistry, 200, 64⟩

theorem storesSlot : StoresImm port 0x401000 (.fp, -0x10) 0x77 setSlot :=
  .intro rfl ⟨rfl, rfl, rfl, rfl, rfl⟩ ⟨rfl, rfl, rfl, rfl, Or.inr (Or.inr rfl)⟩
    (Or.inr rfl) rfl rfl

theorem plain : AllPlain graph := by
  intro b _ i member
  have either : i = setSlot ∨ i = back := by
    by_cases first : b.startEa = 0x401000
    · exact Or.inl (by simpa [graph, first] using member)
    · exact Or.inr (by simpa [graph, first] using member)
  rcases either with rfl | rfl
  · have noRegister : ∀ op ∈ setSlot.operands, op.kind ≠ .reg := by decide
    exact ⟨by decide, fun _ _ op inside reg => (noRegister op inside reg).elim,
      fun _ _ _ _ => ⟨_, _, storesSlot⟩⟩
  · have unwritten : ∀ op ∈ back.operands, ¬ back.isWritten op.number := by decide
    exact ⟨by decide, fun _ _ op inside _ written => (unwritten op inside written).elim,
      fun op inside _ written => (unwritten op inside written).elim⟩

end SlotLoop

/-- The slot holds the immediate wherever the loop is left. -/
theorem resolveMemory_exact_slotLoop :
    (∃ i, SlotLoop.graph.LastDef (WritesCell SlotLoop.port 0x401000 (.fp, -0x10)) 0x401007
        SlotLoop.body i) ∧
      (∀ i, SlotLoop.graph.LastDef (WritesCell SlotLoop.port 0x401000 (.fp, -0x10)) 0x401007
        SlotLoop.body i → StoresImm SlotLoop.port 0x401000 (.fp, -0x10) 0x77 i) ∧
      ¬ SlotLoop.graph.Unwritten (WritesCell SlotLoop.port 0x401000 (.fp, -0x10)) 0x401007
        SlotLoop.body := by
  have query : (SlotLoop.resolver.execute (SlotLoop.resolver.memoryQuery SlotLoop.resolver.fuel
      (some 5) (-0x10) 0x401007 4)).map (fun r => (r.1, decide (RefusedOn r.2.2))) =
      some (.concrete (.int 0x77) .int, false) := by decide
  rcases Option.map_eq_some_iff.mp query with ⟨⟨v, budget, trace⟩, ran, same⟩
  have value : v = .concrete (.int 0x77) .int := congrArg Prod.fst same
  have quiet : ¬ RefusedOn trace := of_decide_eq_false (congrArg Prod.snd same)
  have inside : SlotLoop.body ∈ SlotLoop.graph.cfg.blocks := by decide
  have exact := resolveMemory_exact SlotLoop.resolver rfl SlotLoop.graph SlotLoop.plain inside
    (by decide) (by decide) rfl (Or.inr rfl) ran quiet
  rcases (exact.1 _ _).mp value with ⟨n, same, _, some', all, closed⟩
  cases same
  exact ⟨some', all, closed⟩

end IDAnalysister
