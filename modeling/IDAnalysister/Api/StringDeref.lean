import IDAnalysister.Adapters.StringReads
import IDAnalysister.Api.Facade

/-!
# Dereferencing to text

`CStringDeref` and `WideStringDeref` (`postproc/builtins.py`): a resolved pointer, or the
pointer that a load found, is replaced by the text that stands there. The port's reader is
a parameter.
-/

namespace IDAnalysister

open ValueLattice

/-- `_address_of`. -/
def addressOf : ValueLattice → Option Int
  | concrete (.int addr) _ => some addr
  | memoryRef _ (concrete (.int addr) _) => some addr
  | _ => none

/-- What the two post-processors share: their names, their texts and their readers differ. -/
def derefText (name missing : String) (read : Int → Int → Option String) (maxLen : Int) :
    PostProcessor where
  name
  process value _ :=
    match addressOf value with
    | none => some (.unknown .unsupportedOperandShape "not a pointer-shaped value")
    | some addr =>
        match read addr maxLen with
        | none => some (.unknown .memoryReadFailed (missing ++ " at " ++ hex addr))
        | some text => some (.concrete (.str text) .string)

def cStringDeref (readCstring : Int → Int → Option String) (maxLen : Int := 4096) :
    PostProcessor :=
  derefText "c_string" "no C string" readCstring maxLen

def wideStringDeref (readWstring : Int → Int → Option String) (maxLen : Int := 4096) :
    PostProcessor :=
  derefText "wide_string" "no UTF-16 string" readWstring maxLen

section Chains

variable {name missing : String} {read : Int → Int → Option String} {maxLen addr : Int}
  {value : ValueLattice}

theorem isKnown_of_addressOf (pointer : addressOf value = some addr) : value.isKnown := by
  cases value with
  | unknown reason detail => cases pointer
  | concrete value kind => rfl
  | memoryRef addr value => rfl
  | symbolic expr => rfl
  | mutatedRegion baseExpr via => rfl

theorem derefText_process (port : FacadePort) (pointer : addressOf value = some addr) :
    runPostProcessors port [derefText name missing read maxLen] value =
      match read addr maxLen with
      | none => .unknown .memoryReadFailed (missing ++ " at " ++ hex addr)
      | some text => .concrete (.str text) .string := by
  rw [runPostProcessors, if_pos (isKnown_of_addressOf pointer)]
  simp only [derefText, pointer]
  cases read addr maxLen <;> rfl

/-- A pointer to an encoded text that fits the limit is reported as the text. -/
theorem derefText_pointer {image : MemoryImage}
    {readCstring readWstring : Int → Int → Option String}
    (readers : InvertsEncoders image readCstring readWstring) (port : FacadePort)
    (pointer : addressOf value = some addr) {s : String} (named : '\x00' ∉ s.toList) :
    ((Text.utf8 s).length < maxLen → image.Holds addr (Text.utf8 s ++ [0]) →
      runPostProcessors port [cStringDeref readCstring maxLen] value =
        .concrete (.str s) .string) ∧
    ((Text.utf16 s).length < maxLen →
      image.Holds addr (Text.bytesOf (Text.utf16 s ++ [(0, 0)])) →
      runPostProcessors port [wideStringDeref readWstring maxLen] value =
        .concrete (.str s) .string) := by
  constructor
  · intro short held
    rw [cStringDeref, derefText_process port pointer,
      readers.cstring addr maxLen s named short held]
  · intro short held
    rw [wideStringDeref, derefText_process port pointer,
      readers.wstring addr maxLen s named short held]

end Chains

end IDAnalysister
