import IDAnalysister.Session.Resolver

/-!
# Runs of the instruction cache

A caller of `InstructionCache` asks for instructions and cross-references and drops entries
in any order. `Tables` is what every such run keeps of the two tables; the tables a run
leaves are those of two separate folds (`run_tables`), so neither sees the calls that go to
the other.
-/

namespace IDAnalysister

open Memo

/-- One call on the cache. -/
inductive CacheOp
  | get (ea : Nat)
  | codeRefsTo (ea : Nat)
  | invalidate (ea : Option Nat)

inductive CacheAnswer
  | insn (i : Option Instruction)
  | refs (eas : List Nat)
  | done
  deriving DecidableEq

namespace CacheOp

/-- The answer of the port itself. -/
def uncached (port : FacadePort) : CacheOp → CacheAnswer
  | get ea => .insn (port.decodeAt ea)
  | codeRefsTo ea => .refs (port.codeRefsTo ea)
  | invalidate _ => .done

/-- The address a `get` asks for. -/
def insnKey : CacheOp → Option Nat
  | get ea => some ea
  | _ => none

/-- The address a `code_refs_to` asks for. -/
def xrefKey : CacheOp → Option Nat
  | codeRefsTo ea => some ea
  | _ => none

def isInvalidate : CacheOp → Bool
  | invalidate _ => true
  | _ => false

/-- What a call makes of a table of answers of `f`; `key` is the address it looks up there. -/
def step {ν : Type} (f : Nat → ν) (key : CacheOp → Option Nat) (t : LruCache Nat ν) (o : CacheOp) :
    LruCache Nat ν :=
  match o with
  | invalidate none => t.clear
  | invalidate (some ea) => t.pop ea
  | o => (key o).elim t fun ea => (t.fetch f ea).2

theorem step_lookup {ν : Type} (f : Nat → ν) (key : CacheOp → Option Nat) (t : LruCache Nat ν)
    {o : CacheOp} (kept : o.isInvalidate = false) :
    step f key t o = (key o).elim t fun ea => (t.fetch f ea).2 := by
  cases o with
  | invalidate ea => cases kept
  | get ea => rfl
  | codeRefsTo ea => rfl

/-- The call drops entries, or looks up a key. -/
def concerns (key : CacheOp → Option Nat) (o : CacheOp) : Bool := o.isInvalidate || (key o).isSome

theorem step_unconcerned {ν : Type} (f : Nat → ν) {key : CacheOp → Option Nat} (t : LruCache Nat ν)
    {o : CacheOp} (apart : o.concerns key = false) : step f key t o = t := by
  rcases Bool.or_eq_false_iff.mp apart with ⟨kept, absent⟩
  have none : key o = none := Option.not_isSome_iff_eq_none.mp (by simp [absent])
  rw [step_lookup f key t kept, none, Option.elim_none]

end CacheOp

namespace InstructionCache

variable (port : FacadePort)

def perform (c : InstructionCache) : CacheOp → CacheAnswer × InstructionCache
  | .get ea =>
      let (answer, c) := c.get port ea
      (.insn answer, c)
  | .codeRefsTo ea =>
      let (answer, c) := c.codeRefsTo port ea
      (.refs answer, c)
  | .invalidate ea => (.done, c.invalidate ea)

/-- The answers to a list of calls, and the cache it leaves. -/
def run : InstructionCache → List CacheOp → List CacheAnswer × InstructionCache
  | c, [] => ([], c)
  | c, o :: rest =>
      let (answer, c) := c.perform port o
      let (answers, c) := run c rest
      (answer :: answers, c)

/-! ## What every call keeps -/

/-- Both tables have room for `maxEntries` and hold only answers of the port. -/
structure Tables (maxEntries : Nat) (c : InstructionCache) : Prop where
  insnCapacity : c.insnCache.capacity = maxEntries
  xrefCapacity : c.xrefCache.capacity = maxEntries
  insnCache : Faithful port.decodeAt c.insnCache.entries
  xrefCache : Faithful port.codeRefsTo c.xrefCache.entries

variable {port} {maxEntries : Nat} {c : InstructionCache}

theorem new_tables (port : FacadePort) (maxEntries : Nat) :
    Tables port maxEntries (.new maxEntries) where
  insnCapacity := rfl
  xrefCapacity := rfl
  insnCache := faithful_nil _
  xrefCache := faithful_nil _

theorem Tables.perform (tables : Tables port maxEntries c) (o : CacheOp) :
    (c.perform port o).1 = o.uncached port ∧ Tables port maxEntries (c.perform port o).2 := by
  cases o with
  | get ea =>
      have spec := LruCache.fetch_spec tables.insnCache ea
      refine ⟨congrArg CacheAnswer.insn spec.1,
        { tables with insnCapacity := ?_, insnCache := spec.2 }⟩
      exact (LruCache.fetch_capacity _ _ _).trans tables.insnCapacity
  | codeRefsTo ea =>
      have spec := LruCache.fetch_spec tables.xrefCache ea
      refine ⟨congrArg CacheAnswer.refs spec.1,
        { tables with xrefCapacity := ?_, xrefCache := spec.2 }⟩
      exact (LruCache.fetch_capacity _ _ _).trans tables.xrefCapacity
  | invalidate ea =>
      cases ea with
      | none =>
          exact ⟨rfl, { tables with insnCache := faithful_nil _, xrefCache := faithful_nil _ }⟩
      | some ea =>
          exact ⟨rfl, { tables with
            insnCache := LruCache.pop_faithful tables.insnCache ea
            xrefCache := LruCache.pop_faithful tables.xrefCache ea }⟩

/-- A run answers as the port does. -/
theorem Tables.run (tables : Tables port maxEntries c) (ops : List CacheOp) :
    (c.run port ops).1 = ops.map (·.uncached port) ∧ Tables port maxEntries (c.run port ops).2 := by
  induction ops generalizing c with
  | nil => exact ⟨rfl, tables⟩
  | cons o rest ih =>
      have first := tables.perform o
      have later := ih first.2
      refine ⟨?_, later.2⟩
      rw [List.map_cons, ← first.1, ← later.1]
      rfl

/-! ## The two tables apart -/

/-- Each table takes the calls one by one, without the other. -/
theorem run_tables (port : FacadePort) (c : InstructionCache) (ops : List CacheOp) :
    (c.run port ops).2.insnCache =
        ops.foldl (CacheOp.step port.decodeAt CacheOp.insnKey) c.insnCache ∧
      (c.run port ops).2.xrefCache =
        ops.foldl (CacheOp.step port.codeRefsTo CacheOp.xrefKey) c.xrefCache := by
  induction ops generalizing c with
  | nil => exact ⟨rfl, rfl⟩
  | cons o rest ih =>
      have later := ih (c.perform port o).2
      rcases o with ea | ea | _ | ea <;> exact later

/-- The calls that do not concern a table may be left out. -/
theorem foldl_step_filter {ν : Type} (f : Nat → ν) (key : CacheOp → Option Nat) (ops : List CacheOp)
    (t : LruCache Nat ν) :
    (ops.filter (·.concerns key)).foldl (CacheOp.step f key) t =
      ops.foldl (CacheOp.step f key) t := by
  induction ops generalizing t with
  | nil => rfl
  | cons o rest ih =>
      rw [List.foldl_cons, ← ih]
      cases concerned : o.concerns key with
      | true => rw [List.filter_cons_of_pos concerned, List.foldl_cons]
      | false =>
          rw [List.filter_cons_of_neg (by simp [concerned]), CacheOp.step_unconcerned f t concerned]

/-- Without `invalidate` a table sees a list of fetches. -/
theorem foldl_step_eq_fetchAll {ν : Type} (f : Nat → ν) (key : CacheOp → Option Nat)
    {ops : List CacheOp} (kept : ∀ o ∈ ops, o.isInvalidate = false) (t : LruCache Nat ν) :
    ops.foldl (CacheOp.step f key) t = t.fetchAll f (ops.filterMap key) := by
  induction ops generalizing t with
  | nil => rfl
  | cons o rest ih =>
      rw [List.foldl_cons, ih fun o member => kept o (List.mem_cons_of_mem _ member),
        CacheOp.step_lookup f key t (kept o List.mem_cons_self)]
      cases asked : key o with
      | none => rw [List.filterMap_cons_none asked, Option.elim_none]
      | some ea =>
          rw [List.filterMap_cons_some asked, Option.elim_some]
          rfl

/-- Over any calls on a new cache the answers are the port's, each table holds at most
`maxEntries` answers of the port and does not see the calls on the other one; and when
nothing is invalidated a table holds the last `maxEntries` distinct addresses it was asked
for, the oldest first. -/
theorem run_transparent (port : FacadePort) (maxEntries : Nat) (ops : List CacheOp) :
    let c := ((new maxEntries).run port ops).2
    ((new maxEntries).run port ops).1 = ops.map (·.uncached port) ∧
      (c.insnCache.entries.length ≤ maxEntries ∧ Faithful port.decodeAt c.insnCache.entries) ∧
      (c.xrefCache.entries.length ≤ maxEntries ∧ Faithful port.codeRefsTo c.xrefCache.entries) ∧
      (((new maxEntries).run port (ops.filter (·.concerns CacheOp.insnKey))).2.insnCache =
          c.insnCache ∧
        ((new maxEntries).run port (ops.filter (·.concerns CacheOp.xrefKey))).2.xrefCache =
          c.xrefCache) ∧
      ((∀ o ∈ ops, o.isInvalidate = false) →
        c.insnCache.keys = (ops.filterMap CacheOp.insnKey).dedup.rtake maxEntries ∧
          c.xrefCache.keys = (ops.filterMap CacheOp.xrefKey).dedup.rtake maxEntries) := by
  have spec := (new_tables port maxEntries).run ops
  have apart := run_tables port (new maxEntries) ops
  refine ⟨spec.1, ⟨?_, spec.2.insnCache⟩, ⟨?_, spec.2.xrefCache⟩, ⟨?_, ?_⟩, fun kept => ⟨?_, ?_⟩⟩
  · exact (LruCache.bounded _).trans_eq spec.2.insnCapacity
  · exact (LruCache.bounded _).trans_eq spec.2.xrefCapacity
  · rw [(run_tables port _ _).1, foldl_step_filter, apart.1]
  · rw [(run_tables port _ _).2, foldl_step_filter, apart.2]
  · rw [apart.1, foldl_step_eq_fetchAll _ _ kept]
    exact LruCache.keys_fetchAll _ _ _
  · rw [apart.2, foldl_step_eq_fetchAll _ _ kept]
    exact LruCache.keys_fetchAll _ _ _

namespace CacheRun

/-- An address without an instruction is asked for twice; the second call finds the cached
`None`. -/
def ops : List CacheOp :=
  [.get 0x500000, .get 0x401000, .codeRefsTo 0x401000, .get 0x500000, .get 0x401005]

theorem ops_held :
    ((new 2).run SpentBudget.port ops).2.insnCache.keys = [0x500000, 0x401005] := by
  have exact := (run_transparent SpentBudget.port 2 ops).2.2.2.2 (by decide)
  exact exact.1.trans (by decide)

end CacheRun

end InstructionCache

end IDAnalysister
