import IDAnalysister.Adapters.FakePort
import IDAnalysister.Library.Terminated
import IDAnalysister.Library.Text

/-!
# String reads

`read_cstring` and `read_wstring` of both adapters (`adapters/ida_port_impl.py`,
`adapters/fake_port.py`). The two ports run the same loops over a byte-addressed image, in
which an address may be unmapped, up to a terminator or to the limit of units.
-/

namespace IDAnalysister

/-- A byte where one is mapped. -/
abbrev MemoryImage := Int → Option UInt8

/-- `raw.decode("utf-8")`, and as `latin-1` when that fails. -/
def decodeCstring (raw : List UInt8) : String :=
  (Text.ofUtf8? raw).getD (Text.ofLatin1 raw)

/-- `raw.decode("utf-16-le", errors="replace")`. -/
def decodeWstring (raw : List UInt8) : String :=
  String.ofList (Text.ofUtf16 raw)

section Loops

variable (image : MemoryImage) (addr : Int)

/-- The loop over `range(max_len)`, with the number of rounds left and the bytes read so far. -/
def scanCstring (offset : Nat) (raw : List UInt8) : Nat → Option String
  | 0 => none
  | left + 1 =>
      match image (addr + offset) with
      | none => none
      | some byteValue =>
          if byteValue = 0 then some (decodeCstring raw)
          else scanCstring (offset + 1) (raw ++ [byteValue]) left

/-- The loop `while offset < max_len * 2`, one code unit a round. -/
def scanWstring (offset : Nat) (raw : List UInt8) : Nat → Option String
  | 0 => none
  | left + 1 =>
      match image (addr + offset), image (addr + offset + 1) with
      | some lo, some hi =>
          if lo = 0 ∧ hi = 0 then some (decodeWstring raw)
          else scanWstring (offset + 2) (raw ++ [lo] ++ [hi]) left
      | _, _ => none

end Loops

/-! ## The two ports -/

/-- What the readers ask of `ida_bytes`. -/
structure IdaBytes where
  isLoaded : Int → Bool
  getByte : Int → UInt8

def IdaBytes.image (idaBytes : IdaBytes) : MemoryImage := fun cur =>
  if idaBytes.isLoaded cur then some (idaBytes.getByte cur) else none

namespace IdaPortImpl

def readCstring (idaBytes : IdaBytes) (addr : Int) (maxLen : Int := 4096) : Option String :=
  scanCstring idaBytes.image addr 0 [] maxLen.toNat

def readWstring (idaBytes : IdaBytes) (addr : Int) (maxLen : Int := 4096) : Option String :=
  scanWstring idaBytes.image addr 0 [] maxLen.toNat

end IdaPortImpl

namespace FakeIdaPort

variable (self : FakeIdaPort)

def image : MemoryImage := fun addr => (self.memory.lookup addr).map UInt8.ofNat

def readCstring (addr : Int) (maxLen : Int := 4096) : Option String :=
  scanCstring self.image addr 0 [] maxLen.toNat

def readWstring (addr : Int) (maxLen : Int := 4096) : Option String :=
  scanWstring self.image addr 0 [] maxLen.toNat

end FakeIdaPort

/-! ## The loops as readings up to a terminator -/

section Readings

variable {image : MemoryImage} {addr : Int}

/-- The code unit at a position. -/
def codeUnit (image : MemoryImage) (addr : Int) (k : Nat) : Option (UInt8 × UInt8) :=
  (image (addr + 2 * k)).bind fun lo => (image (addr + 2 * k + 1)).map fun hi => (lo, hi)

theorem scanCstring_eq (offset : Nat) (raw : List UInt8) (left : Nat) :
    scanCstring image addr offset raw left =
      (Terminated.upTo (fun k => image (addr + k)) (· == 0) offset left).map
        fun bytes => decodeCstring (raw ++ bytes) := by
  induction left generalizing offset raw with
  | zero => rfl
  | succ left ih =>
      rw [scanCstring, Terminated.upTo]
      cases image (addr + offset) with
      | none => rfl
      | some byteValue =>
          by_cases ends : byteValue = 0
          · simp [ends]
          · simp [ends, ih, Function.comp_def]

theorem scanWstring_eq (k : Nat) (raw : List UInt8) (left : Nat) :
    scanWstring image addr (2 * k) raw left =
      (Terminated.upTo (codeUnit image addr) (· == (0, 0)) k left).map
        fun units => decodeWstring (raw ++ Text.bytesOf units) := by
  induction left generalizing k raw with
  | zero => rfl
  | succ left ih =>
      have later := ih (k + 1)
      rw [Nat.mul_add] at later
      rw [scanWstring, Terminated.upTo, codeUnit]
      push_cast
      cases image (addr + 2 * k) with
      | none => rfl
      | some lo =>
          cases image (addr + 2 * k + 1) with
          | none => rfl
          | some hi =>
              by_cases ends : lo = 0 ∧ hi = 0
              · simp [ends, Text.bytesOf]
              · simp [ends, later, Text.bytesOf, Function.comp_def]

/-- The image holds the bytes from the address on. -/
def MemoryImage.Holds (image : MemoryImage) (addr : Int) (bytes : List UInt8) : Prop :=
  ∀ k (inside : k < bytes.length), image (addr + k) = some bytes[k]

theorem holds_cons {byte : UInt8} {bytes : List UInt8} :
    image.Holds addr (byte :: bytes) ↔ image addr = some byte ∧ image.Holds (addr + 1) bytes := by
  constructor
  · intro held
    refine ⟨?_, fun k inside => ?_⟩
    · simpa using held 0 (Nat.zero_lt_succ _)
    · have there := held (k + 1) (Nat.succ_lt_succ inside)
      rw [show addr + 1 + (k : Int) = addr + ((k + 1 : Nat) : Int) from by omega]
      exact there
  · rintro ⟨first, rest⟩ k inside
    rcases k with _ | k
    · simpa using first
    · rw [show addr + ((k + 1 : Nat) : Int) = addr + 1 + (k : Int) from by omega]
      exact rest k (Nat.lt_of_succ_lt_succ inside)

/-- The image of a sequence of code units holds each of them at its position. -/
theorem codeUnit_of_holds {units : List (UInt8 × UInt8)}
    (held : image.Holds addr (Text.bytesOf units)) (k : Nat) (inside : k < units.length) :
    codeUnit image addr k = some units[k] := by
  induction units generalizing addr k with
  | nil => exact absurd inside (Nat.not_lt_zero k)
  | cons unit units ih =>
      have held : image.Holds addr (unit.1 :: unit.2 :: Text.bytesOf units) := held
      rcases holds_cons.mp held with ⟨low, held⟩
      rcases holds_cons.mp held with ⟨high, held⟩
      rcases k with _ | k
      · simp [codeUnit, low, high]
      · have later := ih held k (Nat.lt_of_succ_lt_succ inside)
        rw [List.getElem_cons_succ, ← later, codeUnit, codeUnit]
        rw [show addr + 2 * ((k + 1 : Nat) : Int) = addr + 1 + 1 + 2 * (k : Int) from by
          omega]

end Readings

/-! ## The readers and the encoders -/

/-- A zero byte, and a zero code unit, at a position. -/
def ZeroByte (image : MemoryImage) (addr : Int) (k : Nat) : Prop := image (addr + k) = some 0

def ZeroUnit (image : MemoryImage) (addr : Int) (k : Nat) : Prop :=
  image (addr + 2 * k) = some 0 ∧ image (addr + 2 * k + 1) = some 0

/-- A pair of readers reads back what the encoders write, and answers None exactly when an
unmapped byte comes before the terminator or the limit does. -/
structure InvertsEncoders (image : MemoryImage)
    (readCstring readWstring : Int → Int → Option String) : Prop where
  wstring : ∀ (addr maxLen : Int) (s : String), '\x00' ∉ s.toList →
    (Text.utf16 s).length < maxLen → image.Holds addr (Text.bytesOf (Text.utf16 s ++ [(0, 0)])) →
    readWstring addr maxLen = some s
  cstring : ∀ (addr maxLen : Int) (s : String), '\x00' ∉ s.toList →
    (Text.utf8 s).length < maxLen → image.Holds addr (Text.utf8 s ++ [0]) →
    readCstring addr maxLen = some s
  wstring_none : ∀ addr maxLen : Int, readWstring addr maxLen = none ↔
    (∃ k : Nat, k < maxLen ∧ (image (addr + 2 * k) = none ∨ image (addr + 2 * k + 1) = none) ∧
      ∀ j < k, ¬ ZeroUnit image addr j) ∨
    ∀ k : Nat, k < maxLen → ¬ ZeroUnit image addr k
  cstring_none : ∀ addr maxLen : Int, readCstring addr maxLen = none ↔
    (∃ k : Nat, k < maxLen ∧ image (addr + k) = none ∧ ∀ j < k, ¬ ZeroByte image addr j) ∨
    ∀ k : Nat, k < maxLen → ¬ ZeroByte image addr k

section Inversion

variable {image : MemoryImage} {addr : Int}

theorem codeUnit_eq_none_iff {k : Nat} : codeUnit image addr k = none ↔
    image (addr + 2 * k) = none ∨ image (addr + 2 * k + 1) = none := by
  cases low : image (addr + 2 * k) <;> cases high : image (addr + 2 * k + 1) <;>
    simp [codeUnit, low, high]

theorem stopsAt_byte_iff {k : Nat} :
    Terminated.StopsAt (fun k : Nat => image (addr + k)) (· == 0) k ↔ ZeroByte image addr k := by
  simp [Terminated.StopsAt, ZeroByte]

theorem stopsAt_unit_iff {k : Nat} :
    Terminated.StopsAt (codeUnit image addr) (· == (0, 0)) k ↔ ZeroUnit image addr k := by
  cases low : image (addr + 2 * k) <;> cases high : image (addr + 2 * k + 1) <;>
    simp [Terminated.StopsAt, ZeroUnit, codeUnit, low, high]

theorem scanCstring_utf8 {s : String} {limit : Nat} (named : '\x00' ∉ s.toList)
    (short : (Text.utf8 s).length < limit) (held : image.Holds addr (Text.utf8 s ++ [0])) :
    scanCstring image addr 0 [] limit = some s := by
  have scanned : Terminated.upTo (fun k => image (addr + k)) (· == 0) 0 limit =
      some (Text.utf8 s) := by
    refine Terminated.upTo_append short (fun k inside => ?_) (fun byte member => ?_) ?_
    · rw [Nat.zero_add, held k (by simp; omega), List.getElem_append_left inside]
    · simpa using Text.utf8_ne_zero named byte member
    · rw [Nat.zero_add, stopsAt_byte_iff, ZeroByte, held _ (by simp)]
      simp
  rw [scanCstring_eq, scanned, Option.map_some, List.nil_append, decodeCstring,
    Text.ofUtf8?_utf8, Option.getD_some]

theorem scanWstring_utf16 {s : String} {limit : Nat} (named : '\x00' ∉ s.toList)
    (short : (Text.utf16 s).length < limit)
    (held : image.Holds addr (Text.bytesOf (Text.utf16 s ++ [(0, 0)]))) :
    scanWstring image addr 0 [] limit = some s := by
  have units := codeUnit_of_holds held
  have scanned : Terminated.upTo (codeUnit image addr) (· == (0, 0)) 0 limit =
      some (Text.utf16 s) := by
    refine Terminated.upTo_append short (fun k inside => ?_) (fun unit member => ?_) ?_
    · rw [Nat.zero_add, units k (by simp; omega), List.getElem_append_left inside]
    · simpa using Text.utf16_ne_zero named unit member
    · refine ⟨(0, 0), ?_, rfl⟩
      rw [Nat.zero_add, units _ (by simp)]
      simp
  have read : scanWstring image addr (2 * 0) [] limit = _ := scanWstring_eq 0 [] limit
  rw [read, scanned, Option.map_some, List.nil_append, decodeWstring, Text.ofUtf16_utf16]

/-- A count of rounds below the limit of a `range` or a `while`. -/
theorem lt_toNat_iff {k : Nat} {maxLen : Int} : k < maxLen.toNat ↔ (k : Int) < maxLen := by
  omega

theorem scans_invert : InvertsEncoders image
    (fun addr maxLen => scanCstring image addr 0 [] maxLen.toNat)
    (fun addr maxLen => scanWstring image addr 0 [] maxLen.toNat) where
  wstring _ _ _ named short held := scanWstring_utf16 named (lt_toNat_iff.mpr short) held
  cstring _ _ _ named short held := scanCstring_utf8 named (lt_toNat_iff.mpr short) held
  wstring_none addr maxLen := by
    have read : scanWstring image addr (2 * 0) [] maxLen.toNat = _ :=
      scanWstring_eq 0 [] maxLen.toNat
    rw [read, Option.map_eq_none_iff, Terminated.upTo_eq_none_iff]
    simp only [Nat.zero_add, stopsAt_unit_iff, codeUnit_eq_none_iff, lt_toNat_iff]
  cstring_none addr maxLen := by
    rw [scanCstring_eq, Option.map_eq_none_iff, Terminated.upTo_eq_none_iff]
    simp only [Nat.zero_add, stopsAt_byte_iff, lt_toNat_iff]

end Inversion

/-- Over any image, the string reads of both ports invert the encoders. -/
theorem string_reads_invert (idaBytes : IdaBytes) (fake : FakeIdaPort) :
    InvertsEncoders idaBytes.image (fun addr maxLen => IdaPortImpl.readCstring idaBytes addr maxLen)
        (fun addr maxLen => IdaPortImpl.readWstring idaBytes addr maxLen) ∧
      InvertsEncoders fake.image (fun addr maxLen => fake.readCstring addr maxLen)
        (fun addr maxLen => fake.readWstring addr maxLen) :=
  ⟨scans_invert, scans_invert⟩

-- The image of `test_wide_string_deref`; every other byte of the text is zero.
example : ({ instructions := [], funcBounds := [], memory := [(0x404000, 0x68), (0x404001, 0),
      (0x404002, 0x69), (0x404003, 0), (0x404004, 0), (0x404005, 0)] } : FakeIdaPort).readWstring
    0x404000 = some "hi" := by decide

end IDAnalysister
