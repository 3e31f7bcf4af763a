import Mathlib.Data.List.Basic

/-!
# Text as bytes

The codecs `utf-8`, `utf-16-le` and `latin-1` on the scalar values of a text. The decoder of
`utf-16-le` replaces what is not well formed; what the encoder writes it reads back. No
encoding of a text has a zero unit for a character other than NUL.
-/

namespace Text

/-! ## UTF-8 -/

/-- The UTF-8 encoding of a text. -/
def utf8 (s : String) : List UInt8 :=
  s.toList.flatMap String.utf8EncodeChar

/-- The text that the bytes encode, none when they are not UTF-8. -/
def ofUtf8? (raw : List UInt8) : Option String :=
  String.fromUTF8? raw.toByteArray

/-- A byte is the character of its number. -/
def ofLatin1 (raw : List UInt8) : String :=
  String.ofList (raw.map fun byte => Char.ofNat byte.toNat)

theorem ofUtf8?_utf8 (s : String) : ofUtf8? (utf8 s) = some s := by
  have encoded : (utf8 s).toByteArray = s.toByteArray := String.utf8Encode_toList
  rw [ofUtf8?, encoded, String.fromUTF8?, dif_pos s.isValidUTF8]
  rfl

theorem ofNat_ne_zero {n : Nat} (nonzero : n % 256 ≠ 0) : UInt8.ofNat n ≠ 0 := by
  intro isZero
  have number := congrArg UInt8.toNat isZero
  rw [UInt8.toNat_ofNat'] at number
  exact nonzero number

/-- Only NUL has a zero byte: every other byte of an encoding has a leading one. -/
theorem utf8EncodeChar_ne_zero {c : Char} (named : c ≠ '\x00') :
    ∀ byte ∈ String.utf8EncodeChar c, byte ≠ 0 := by
  have positive : c.val.toNat ≠ 0 := fun zero => named (Char.toNat_inj.mp zero)
  fun_cases String.utf8EncodeChar c with
  | case1 v ascii =>
      have small : c.val.toNat ≤ 0x7f := ascii
      simp only [List.forall_mem_cons]
      exact ⟨ofNat_ne_zero (n := c.val.toNat) (by omega), List.forall_mem_nil _⟩
  | case2 v =>
      simp only [List.forall_mem_cons]
      exact ⟨ofNat_ne_zero (by omega), ofNat_ne_zero (by omega), List.forall_mem_nil _⟩
  | case3 v =>
      simp only [List.forall_mem_cons]
      exact ⟨ofNat_ne_zero (by omega), ofNat_ne_zero (by omega), ofNat_ne_zero (by omega),
        List.forall_mem_nil _⟩
  | case4 v =>
      simp only [List.forall_mem_cons]
      exact ⟨ofNat_ne_zero (by omega), ofNat_ne_zero (by omega), ofNat_ne_zero (by omega),
        ofNat_ne_zero (by omega), List.forall_mem_nil _⟩

/-- A text without NUL has no zero byte. -/
theorem utf8_ne_zero {s : String} (named : '\x00' ∉ s.toList) : ∀ byte ∈ utf8 s, byte ≠ 0 := by
  intro byte member
  rcases List.mem_flatMap.mp member with ⟨c, inside, encoded⟩
  exact utf8EncodeChar_ne_zero (fun isNul => named (isNul ▸ inside)) byte encoded

/-! ## UTF-16, the low byte of a unit first -/

def IsHighSurrogate (unit : Nat) : Prop := 0xD800 ≤ unit ∧ unit < 0xDC00

def IsLowSurrogate (unit : Nat) : Prop := 0xDC00 ≤ unit ∧ unit < 0xE000

instance (unit : Nat) : Decidable (IsHighSurrogate unit) := inferInstanceAs (Decidable (_ ∧ _))

instance (unit : Nat) : Decidable (IsLowSurrogate unit) := inferInstanceAs (Decidable (_ ∧ _))

/-- The code units of a character, a surrogate pair above U+FFFF. -/
def unitsOf (c : Char) : List Nat :=
  if c.toNat < 0x10000 then [c.toNat]
  else [0xD800 + (c.toNat - 0x10000) / 0x400, 0xDC00 + (c.toNat - 0x10000) % 0x400]

def unitBytes (unit : Nat) : UInt8 × UInt8 := (UInt8.ofNat unit, UInt8.ofNat (unit / 256))

def unitNumber (lo hi : UInt8) : Nat := lo.toNat + 256 * hi.toNat

/-- The UTF-16 encoding of a text, one pair of bytes a code unit. -/
def utf16 (s : String) : List (UInt8 × UInt8) :=
  (s.toList.flatMap unitsOf).map unitBytes

def bytesOf (units : List (UInt8 × UInt8)) : List UInt8 :=
  units.flatMap fun unit => [unit.1, unit.2]

def replacement : Char := '\uFFFD'

/-- The characters that the bytes encode. A surrogate without its partner is replaced, and
so is what the end of the bytes cuts off. -/
def ofUtf16 : List UInt8 → List Char
  | [] => []
  | [_] => [replacement]
  | lo :: hi :: rest =>
      let unit := unitNumber lo hi
      if IsHighSurrogate unit then
        match rest with
        | lo' :: hi' :: rest' =>
            let low := unitNumber lo' hi'
            if IsLowSurrogate low then
              Char.ofNat (0x10000 + (unit - 0xD800) * 0x400 + (low - 0xDC00)) :: ofUtf16 rest'
            else replacement :: ofUtf16 (lo' :: hi' :: rest')
        | _ => [replacement]
      else if IsLowSurrogate unit then replacement :: ofUtf16 rest
      else Char.ofNat unit :: ofUtf16 rest

example : ofUtf16 [0x3D, 0xD8, 0x00, 0xDE, 0x00, 0xDE, 0x61, 0x00] = ['😀', replacement, 'a'] := by
  decide

/-- The bytes of a code unit are read back. -/
theorem unitNumber_unitBytes {unit : Nat} (small : unit < 0x10000) :
    unitNumber (unitBytes unit).1 (unitBytes unit).2 = unit := by
  simp only [unitNumber, unitBytes, UInt8.toNat_ofNat']
  omega

/-- A code unit that is not zero has no pair of zero bytes. -/
theorem unitBytes_ne_zero {unit : Nat} (small : unit < 0x10000) (nonzero : unit ≠ 0) :
    unitBytes unit ≠ (0, 0) := by
  intro isZero
  have number := unitNumber_unitBytes small
  rw [isZero] at number
  exact nonzero number.symm

/-- No scalar value is a surrogate. -/
theorem toNat_scalar (c : Char) : c.toNat < 0xD800 ∨ 0xDFFF < c.toNat ∧ c.toNat < 0x110000 :=
  c.valid

theorem unitsOf_lt {c : Char} : ∀ unit ∈ unitsOf c, unit < 0x10000 := by
  intro unit member
  have scalar := toNat_scalar c
  unfold unitsOf at member
  split at member
  · simp only [List.mem_singleton] at member
    omega
  · simp only [List.mem_cons, List.not_mem_nil, or_false] at member
    omega

theorem unitsOf_ne_zero {c : Char} (named : c ≠ '\x00') : ∀ unit ∈ unitsOf c, unit ≠ 0 := by
  intro unit member isZero
  have positive : c.toNat ≠ 0 := fun zero => named (Char.toNat_inj.mp zero)
  unfold unitsOf at member
  split at member
  · simp only [List.mem_singleton] at member
    omega
  · simp only [List.mem_cons, List.not_mem_nil, or_false] at member
    omega

/-- Only NUL has a zero unit. A zero byte may stand anywhere else. -/
theorem utf16_ne_zero {s : String} (named : '\x00' ∉ s.toList) :
    ∀ unit ∈ utf16 s, unit ≠ (0, 0) := by
  intro bytes member
  rcases List.mem_map.mp member with ⟨unit, inside, rfl⟩
  rcases List.mem_flatMap.mp inside with ⟨c, character, encoded⟩
  exact unitBytes_ne_zero (unitsOf_lt unit encoded)
    (unitsOf_ne_zero (fun isNul => named (isNul ▸ character)) unit encoded)

theorem ofUtf16_single {lo hi : UInt8} (notHigh : ¬ IsHighSurrogate (unitNumber lo hi))
    (notLow : ¬ IsLowSurrogate (unitNumber lo hi)) (rest : List UInt8) :
    ofUtf16 (lo :: hi :: rest) = Char.ofNat (unitNumber lo hi) :: ofUtf16 rest := by
  rcases rest with _ | ⟨lo', _ | ⟨hi', rest'⟩⟩ <;> simp only [ofUtf16, notHigh, notLow, if_false]

theorem ofUtf16_pair {lo hi lo' hi' : UInt8} (high : IsHighSurrogate (unitNumber lo hi))
    (low : IsLowSurrogate (unitNumber lo' hi')) (rest : List UInt8) :
    ofUtf16 (lo :: hi :: lo' :: hi' :: rest) =
      Char.ofNat (0x10000 + (unitNumber lo hi - 0xD800) * 0x400 + (unitNumber lo' hi' - 0xDC00)) ::
        ofUtf16 rest := by
  simp only [ofUtf16, high, low, if_true]

/-- The units of a character are read as that character. -/
theorem ofUtf16_unitsOf (c : Char) (rest : List UInt8) :
    ofUtf16 (bytesOf ((unitsOf c).map unitBytes) ++ rest) = c :: ofUtf16 rest := by
  have scalar := toNat_scalar c
  unfold unitsOf
  split
  case isTrue small =>
    have notHigh : ¬ IsHighSurrogate c.toNat := by unfold IsHighSurrogate; omega
    have notLow : ¬ IsLowSurrogate c.toNat := by unfold IsLowSurrogate; omega
    have number := unitNumber_unitBytes small
    rw [← number] at notHigh notLow
    refine (ofUtf16_single notHigh notLow rest).trans ?_
    rw [number, Char.ofNat_toNat]
  case isFalse large =>
    have high : IsHighSurrogate (0xD800 + (c.toNat - 0x10000) / 0x400) := by
      unfold IsHighSurrogate; omega
    have low : IsLowSurrogate (0xDC00 + (c.toNat - 0x10000) % 0x400) := by
      unfold IsLowSurrogate; omega
    have highNumber := unitNumber_unitBytes (Nat.lt_trans high.2 (by decide))
    have lowNumber := unitNumber_unitBytes (Nat.lt_trans low.2 (by decide))
    have joined : 0x10000 + (0xD800 + (c.toNat - 0x10000) / 0x400 - 0xD800) * 0x400 +
        (0xDC00 + (c.toNat - 0x10000) % 0x400 - 0xDC00) = c.toNat := by omega
    rw [← highNumber] at high
    rw [← lowNumber] at low
    refine (ofUtf16_pair high low rest).trans ?_
    rw [highNumber, lowNumber, joined, Char.ofNat_toNat]

/-- A text in UTF-16 is read back. -/
theorem ofUtf16_utf16 (s : String) : String.ofList (ofUtf16 (bytesOf (utf16 s))) = s := by
  have characters (cs : List Char) :
      ofUtf16 (bytesOf ((cs.flatMap unitsOf).map unitBytes)) = cs := by
    induction cs with
    | nil => rfl
    | cons c cs ih =>
        rw [List.flatMap_cons, List.map_append, bytesOf, List.flatMap_append]
        exact (ofUtf16_unitsOf c _).trans (congrArg (c :: ·) ih)
  rw [utf16, characters, String.ofList_toList]

end Text
