import IDAnalysister.Library.FiniteMap
import IDAnalysister.Merge

/-!
# Abstract states of the forward engine

The register and stack-cell dictionaries of `core/state.py`. Registers are keyed by
`Option Nat` because the source keys them by `int | None`. `read` gives one view of
both dictionaries, and states are compared by what they know at every location.
-/

namespace IDAnalysister

/-- `("sp", offset)` or `("fp", offset)`. -/
inductive StackKey
  | sp (offset : Int)
  | fp (offset : Int)
  deriving DecidableEq, Repr

structure AbstractState where
  registers : Finmap (fun _ : Option Nat => ValueLattice)
  stack : Finmap (fun _ : StackKey => ValueLattice)

/-- The source compares states with `==` on both dictionaries. -/
instance : DecidableEq AbstractState := fun s t =>
  decidable_of_iff ((s.registers.Agree t.registers ∧ t.registers.Agree s.registers) ∧
    s.stack.Agree t.stack ∧ t.stack.Agree s.stack) (by
      rw [← Finmap.eq_iff_agree, ← Finmap.eq_iff_agree]
      cases s
      cases t
      simp)

/-- A key of one of the two dictionaries. -/
inductive Location
  | reg (r : Option Nat)
  | cell (k : StackKey)
  deriving DecidableEq, Repr

namespace AbstractState

def empty : AbstractState := ⟨∅, ∅⟩

def getRegister (s : AbstractState) (reg : Option Nat) : ValueLattice :=
  (s.registers.lookup reg).getD (.unknown' .noDefinitionFound)

def setRegister (s : AbstractState) (reg : Option Nat) (value : ValueLattice) : AbstractState :=
  { s with registers := s.registers.insert reg value }

def invalidateRegister (s : AbstractState) (reg : Option Nat) (reason : UnknownReason) :
    AbstractState :=
  s.setRegister reg (.unknown' reason)

def getStack (s : AbstractState) (key : StackKey) : ValueLattice :=
  (s.stack.lookup key).getD (.unknown' .noDefinitionFound)

def setStack (s : AbstractState) (key : StackKey) (value : ValueLattice) : AbstractState :=
  { s with stack := s.stack.insert key value }

/-- Overwrite every tracked stack cell. -/
def setAllStack (s : AbstractState) (value : ValueLattice) : AbstractState :=
  { s with stack := Finmap.tabulate s.stack.keys fun _ => value }

/-- The value at a location of either dictionary. -/
def read (s : AbstractState) : Location → ValueLattice
  | .reg r => s.getRegister r
  | .cell k => s.getStack k

/-- The location has an entry in its dictionary. -/
def Tracks (s : AbstractState) : Location → Prop
  | .reg r => r ∈ s.registers.keys
  | .cell k => k ∈ s.stack.keys

instance (s : AbstractState) (l : Location) : Decidable (s.Tracks l) := by
  cases l <;> unfold Tracks <;> infer_instance

/-! ## Reading back an update -/

theorem read_setRegister (s : AbstractState) (r : Option Nat) (v : ValueLattice) (l : Location) :
    (s.setRegister r v).read l = if l = .reg r then v else s.read l := by
  cases l with
  | reg r' =>
      by_cases same : r' = r
      · subst same
        simp [read, getRegister, setRegister]
      · simp [read, getRegister, setRegister, same, Finmap.lookup_insert_of_ne]
  | cell k => simp [read, getStack, setRegister]

theorem read_invalidateRegister (s : AbstractState) (r : Option Nat) (reason : UnknownReason)
    (l : Location) :
    (s.invalidateRegister r reason).read l = if l = .reg r then .unknown' reason else s.read l :=
  read_setRegister s r _ l

theorem read_setStack (s : AbstractState) (k : StackKey) (v : ValueLattice) (l : Location) :
    (s.setStack k v).read l = if l = .cell k then v else s.read l := by
  cases l with
  | reg r => simp [read, getRegister, setStack]
  | cell k' =>
      by_cases same : k' = k
      · subst same
        simp [read, getStack, setStack]
      · simp [read, getStack, setStack, same, Finmap.lookup_insert_of_ne]

theorem read_setAllStack_cell (s : AbstractState) (v : ValueLattice) (k : StackKey) :
    (s.setAllStack v).read (.cell k) =
      if k ∈ s.stack.keys then v else .unknown' .noDefinitionFound := by
  simp only [read, getStack, setAllStack, Finmap.lookup_tabulate]
  split <;> rfl

theorem read_of_not_tracks {s : AbstractState} {l : Location} (h : ¬ s.Tracks l) :
    s.read l = .unknown' .noDefinitionFound := by
  cases l with
  | reg r =>
      have absent := Finmap.lookup_eq_none.mpr fun member => h (Finmap.mem_keys.mpr member)
      simp [read, getRegister, absent]
  | cell k =>
      have absent := Finmap.lookup_eq_none.mpr fun member => h (Finmap.mem_keys.mpr member)
      simp [read, getStack, absent]

theorem read_empty (l : Location) : empty.read l = .unknown' .noDefinitionFound := by
  apply read_of_not_tracks
  cases l <;> simp [Tracks, empty]

theorem tracks_setRegister {s : AbstractState} {r : Option Nat} {v : ValueLattice}
    {l : Location} : (s.setRegister r v).Tracks l ↔ l = .reg r ∨ s.Tracks l := by
  cases l <;> simp [Tracks, setRegister, Finmap.keys_insert]

theorem tracks_setStack {s : AbstractState} {k : StackKey} {v : ValueLattice} {l : Location} :
    (s.setStack k v).Tracks l ↔ l = .cell k ∨ s.Tracks l := by
  cases l <;> simp [Tracks, setStack, Finmap.keys_insert]

theorem tracks_setAllStack {s : AbstractState} {v : ValueLattice} {l : Location} :
    (s.setAllStack v).Tracks l ↔ s.Tracks l := by
  cases l <;> simp [Tracks, setAllStack]

/-- States with the same entries are equal. -/
theorem ext_of_read {s t : AbstractState} (tracks : ∀ l, s.Tracks l ↔ t.Tracks l)
    (same : ∀ l, s.read l = t.read l) : s = t := by
  obtain ⟨sr, ss⟩ := s
  obtain ⟨tr, ts⟩ := t
  have registers : sr = tr := by
    apply Finmap.ext_lookup
    intro r
    have keys : r ∈ sr.keys ↔ r ∈ tr.keys := tracks (.reg r)
    have value : (sr.lookup r).getD _ = (tr.lookup r).getD _ := same (.reg r)
    rw [Finmap.mem_keys, Finmap.mem_keys, ← Finmap.lookup_isSome, ← Finmap.lookup_isSome] at keys
    cases left : sr.lookup r <;> cases right : tr.lookup r <;> simp_all
  have stack : ss = ts := by
    apply Finmap.ext_lookup
    intro k
    have keys : k ∈ ss.keys ↔ k ∈ ts.keys := tracks (.cell k)
    have value : (ss.lookup k).getD _ = (ts.lookup k).getD _ := same (.cell k)
    rw [Finmap.mem_keys, Finmap.mem_keys, ← Finmap.lookup_isSome, ← Finmap.lookup_isSome] at keys
    cases left : ss.lookup k <;> cases right : ts.lookup k <;> simp_all
  rw [registers, stack]

/-! ## The information order on states -/

instance : Preorder AbstractState where
  le s t := ∀ l, s.read l ≤ t.read l
  le_refl s l := le_refl (s.read l)
  le_trans _ _ _ left right l := (left l).trans (right l)

/-- No location holds a memory reference or a region. -/
def Scalar (s : AbstractState) : Prop := ∀ l, (s.read l).Scalar

/-- Every location reads the same, up to the reason and detail of `unknown`. -/
def Alike (s t : AbstractState) : Prop := ∀ l, (s.read l).Alike (t.read l)

theorem Alike.le {s t : AbstractState} (alike : Alike s t) : s ≤ t := fun l => (alike l).le

theorem Alike.symm {s t : AbstractState} (alike : Alike s t) : Alike t s := fun l => (alike l).symm

theorem Scalar.alike {s t : AbstractState} (scalar : s.Scalar) (left : s ≤ t) (right : t ≤ s) :
    Alike s t :=
  fun l => (scalar l).alike (left l) (right l)

end AbstractState

end IDAnalysister
