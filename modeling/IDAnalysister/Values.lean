/-!
# The value lattice

Resolution results and the reasons for which a resolution may fail
(`core/values.py`, `core/diagnostics.py`). The detail texts of `unknown` are kept:
the forward engine compares states with `==`, so two `unknown` values with
different texts are different states to its worklist.
-/

namespace IDAnalysister

/-! ## Text -/

/-- `f"{n:#x}"`. -/
def hex (n : Int) : String :=
  let digits := String.ofList (Nat.toDigits 16 n.natAbs)
  if n < 0 then "-0x" ++ digits else "0x" ++ digits

example : hex 0x401000 = "0x401000" := by decide

theorem toDigits_injective {m n : Nat} (same : Nat.toDigits 16 m = Nat.toDigits 16 n) : m = n := by
  induction m using Nat.strongRecOn generalizing n with
  | ind m ih =>
      rw [Nat.toDigits_eq_if (by decide), Nat.toDigits_eq_if (n := n) (by decide)] at same
      have digits : ∀ d < 16, ∀ e < 16, Nat.digitChar d = Nat.digitChar e → d = e := by decide
      split at same
      · rename_i small
        split at same
        · rename_i small'
          exact digits m small n small' (List.cons.inj same).1
        · have nonempty := Nat.toDigits_ne_nil (n := n / 16) (b := 16)
          have lengths := congrArg List.length same
          simp [nonempty] at lengths
      · rename_i large
        split at same
        · have nonempty := Nat.toDigits_ne_nil (n := m / 16) (b := 16)
          have lengths := congrArg List.length same
          simp [nonempty] at lengths
        · rcases List.append_inj' same rfl with ⟨high, low⟩
          have high' := ih (m / 16) (by omega) high
          have low' := digits (m % 16) (by omega) (n % 16) (by omega) (List.cons.inj low).1
          omega

/-- Different addresses have different texts. -/
theorem hex_injective {m n : Nat} (same : hex m = hex n) : m = n := by
  have nonneg (k : Nat) : ¬ (k : Int) < 0 := Int.not_lt.mpr (Int.natCast_nonneg k)
  rw [hex, hex, if_neg (nonneg m), if_neg (nonneg n), Int.natAbs_natCast,
    Int.natAbs_natCast] at same
  have texts := congrArg String.toList same
  simp only [String.toList_append, String.toList_ofList] at texts
  exact toDigits_injective (List.append_cancel_left texts)

/-- `s.startswith(prefix)`. -/
def startsWith (s : String) (start : String) : Bool :=
  start.toList.isPrefixOf s.toList

/-- The characters up to U+00FF that `repr` does not print as they are: the control characters,
the no-break space and the soft hyphen. -/
def escaped (c : Char) : Prop := c.toNat < 32 ∨ 127 ≤ c.toNat ∧ c.toNat ≤ 160 ∨ c.toNat = 173

instance (c : Char) : Decidable (escaped c) :=
  inferInstanceAs (Decidable (_ ∨ _))

/-- One character of `repr` of a string delimited by `quote`. Above U+00FF every character
counts as printable. -/
def reprChar (quote c : Char) : List Char :=
  if c = quote then ['\\', c]
  else if c = '\\' then ['\\', '\\']
  else if c = '\n' then ['\\', 'n']
  else if c = '\r' then ['\\', 'r']
  else if c = '\t' then ['\\', 't']
  else if escaped c then
    ['\\', 'x', Nat.digitChar (c.toNat / 16), Nat.digitChar (c.toNat % 16)]
  else [c]

/-- `repr` of a string: double quotes are chosen only when the text has a single
quote and no double quote. -/
def reprString (s : String) : String :=
  let chars := s.toList
  let quote := if '\'' ∈ chars ∧ '"' ∉ chars then '"' else '\''
  String.ofList (quote :: chars.flatMap (reprChar quote) ++ [quote])

/-- `repr` of a byte string: as of a text, and no byte above 127 is printed as it is. -/
def reprBytes (b : List UInt8) : String :=
  let chars := b.map fun byte => Char.ofNat byte.toNat
  let quote := if '\'' ∈ chars ∧ '"' ∉ chars then '"' else '\''
  let shown (c : Char) : List Char :=
    if 127 < c.toNat then ['\\', 'x', Nat.digitChar (c.toNat / 16), Nat.digitChar (c.toNat % 16)]
    else reprChar quote c
  String.ofList ('b' :: quote :: chars.flatMap shown ++ [quote])

example : reprString "a\u00a0\u0080é" = "'a\\xa0\\x80é'" := by decide

example : reprBytes [0, 39, 255] = "b\"\\x00'\\xff\"" := by decide

/-! ## Reasons and kinds -/

/-- Why a value could not be determined. -/
inductive UnknownReason
  | noDefinitionFound
  | divergentPaths
  | divergentSymbolic
  | budgetExceeded
  | unsupportedInstruction
  | unsupportedOperandShape
  | indirectControlFlow
  | memoryReadFailed
  | loopNonConvergent
  | adapterError
  | internalError
  | mutatedMemoryContent
  deriving DecidableEq, Repr

def UnknownReason.name : UnknownReason → String
  | noDefinitionFound => "NO_DEFINITION_FOUND"
  | divergentPaths => "DIVERGENT_PATHS"
  | divergentSymbolic => "DIVERGENT_SYMBOLIC"
  | budgetExceeded => "BUDGET_EXCEEDED"
  | unsupportedInstruction => "UNSUPPORTED_INSTRUCTION"
  | unsupportedOperandShape => "UNSUPPORTED_OPERAND_SHAPE"
  | indirectControlFlow => "INDIRECT_CONTROL_FLOW"
  | memoryReadFailed => "MEMORY_READ_FAILED"
  | loopNonConvergent => "LOOP_NON_CONVERGENT"
  | adapterError => "ADAPTER_ERROR"
  | internalError => "INTERNAL_ERROR"
  | mutatedMemoryContent => "MUTATED_MEMORY_CONTENT"

/-- What a concrete value represents. -/
inductive ValueKind
  | int
  | pointer
  | string
  | bytes
  | unknownKind
  deriving DecidableEq, Repr

def ValueKind.name : ValueKind → String
  | int => "INT"
  | pointer => "POINTER"
  | string => "STRING"
  | bytes => "BYTES"
  | unknownKind => "UNKNOWN_KIND"

/-- The payload of a concrete value: an integer, a text, a byte string, or Python's `None`. -/
inductive Datum
  | none
  | int (n : Int)
  | str (s : String)
  | bytes (b : List UInt8)
  deriving DecidableEq, Repr

def Datum.ofOption : Option Int → Datum
  | .none => .none
  | .some n => .int n

def Datum.repr : Datum → String
  | none => "None"
  | int n => toString n
  | str s => reprString s
  | bytes b => reprBytes b

/-! ## Values -/

/-- A resolution result. -/
inductive ValueLattice
  | unknown (reason : UnknownReason) (detail : String)
  | concrete (value : Datum) (kind : ValueKind)
  | memoryRef (addr : Int) (value : ValueLattice)
  | symbolic (expr : String)
  | mutatedRegion (baseExpr : String) (via : String)
  deriving DecidableEq, Repr

namespace ValueLattice

/-- `unknown(reason)` with the default empty detail. -/
abbrev unknown' (reason : UnknownReason) : ValueLattice := .unknown reason ""

def isKnown : ValueLattice → Bool
  | unknown _ _ => false
  | _ => true

/-- The integer inside a concrete value (`_int_of`). -/
def intOf : ValueLattice → Option Int
  | concrete (.int n) _ => some n
  | _ => none

/-- The `repr` text of a value. -/
def reprText : ValueLattice → String
  | unknown reason detail =>
      "Unknown(" ++ reason.name ++ (if detail = "" then "" else ": " ++ detail) ++ ")"
  | concrete value kind => "Concrete(" ++ value.repr ++ ", " ++ kind.name ++ ")"
  | memoryRef addr value =>
      "MemoryRef(addr=" ++ hex addr ++ ", value=" ++ value.reprText ++ ")"
  | symbolic expr => "Symbolic(" ++ reprString expr ++ ")"
  | mutatedRegion baseExpr via =>
      "MutatedRegion(base=" ++ reprString baseExpr ++ ", via=" ++ reprString via ++ ")"

@[simp] theorem isKnown_unknown (reason : UnknownReason) (detail : String) :
    (unknown reason detail).isKnown = false := rfl

@[simp] theorem intOf_unknown (reason : UnknownReason) (detail : String) :
    (unknown reason detail).intOf = none := rfl

@[simp] theorem intOf_concrete_int (n : Int) (kind : ValueKind) :
    (concrete (.int n) kind).intOf = some n := rfl

theorem intOf_eq_some {v : ValueLattice} {n : Int} (h : v.intOf = some n) :
    ∃ kind, v = concrete (.int n) kind := by
  cases v with
  | concrete value kind =>
      cases value with
      | int m =>
          cases h
          exact ⟨kind, rfl⟩
      | none => cases h
      | str s => cases h
      | bytes b => cases h
  | unknown reason detail => cases h
  | memoryRef addr value => cases h
  | symbolic expr => cases h
  | mutatedRegion baseExpr via => cases h

theorem isKnown_eq_false {v : ValueLattice} (h : v.isKnown = false) :
    ∃ reason detail, v = unknown reason detail := by
  cases v with
  | unknown reason detail => exact ⟨reason, detail, rfl⟩
  | concrete value kind => cases h
  | memoryRef addr value => cases h
  | symbolic expr => cases h
  | mutatedRegion baseExpr via => cases h

end ValueLattice

end IDAnalysister
