import IDAnalysister.Adapters.IdaPortImpl
import Mathlib.Tactic.Ring

/-!
# Integer reads

`read_int` of `IdaPortImpl` on the image: an integer is read from a field exactly when the image
holds the bytes that represent it there.
-/

namespace IDAnalysister

namespace IdaPortImpl

/-- The little-endian bytes of an integer, in two's complement. -/
def toBytes : Nat → Int → List UInt8
  | 0, _ => []
  | size + 1, n => UInt8.ofNat (n % 256).toNat :: toBytes size (n / 256)

/-- The integers that a field of so many bytes can hold. -/
def Representable (size : Nat) (signed : Bool) (n : Int) : Prop :=
  if signed then -256 ^ size ≤ 2 * n ∧ 2 * n < 256 ^ size else 0 ≤ n ∧ n < 256 ^ size

instance (size : Nat) (signed : Bool) (n : Int) : Decidable (Representable size signed n) := by
  unfold Representable
  infer_instance

/-! ## Bytes of an integer -/

theorem length_toBytes (size : Nat) (n : Int) : (toBytes size n).length = size := by
  induction size generalizing n with
  | zero => rfl
  | succ size ih => rw [toBytes, List.length_cons, ih]

theorem toNat_low (n : Int) : ((UInt8.ofNat (n % 256).toNat).toNat : Int) = n % 256 := by
  have nonneg := Int.emod_nonneg n (show (256 : Int) ≠ 0 by decide)
  have below := Int.emod_lt_of_pos n (show (0 : Int) < 256 by decide)
  rw [UInt8.toNat_ofNat', Nat.mod_eq_of_lt (by omega), Int.toNat_of_nonneg nonneg]

theorem emod_succ (n : Int) (size : Nat) :
    n % 256 ^ (size + 1) = n % 256 + 256 * (n / 256 % 256 ^ size) := by
  have quotients : n / 256 / 256 ^ size = n / 256 ^ (size + 1) := by
    rw [Int.ediv_ediv_of_nonneg (by decide), pow_succ']
  rw [Int.emod_def n (256 ^ (size + 1)), Int.emod_def n 256, Int.emod_def (n / 256), quotients]
  ring

/-- The bytes are read back up to a multiple of their range. -/
theorem fromBytes_toBytes (size : Nat) (n : Int) :
    (fromBytes (toBytes size n) : Int) = n % 256 ^ size := by
  induction size generalizing n with
  | zero => simp [toBytes, fromBytes]
  | succ size ih =>
      rw [toBytes, fromBytes]
      push_cast
      rw [toNat_low, ih, emod_succ]

theorem toBytes_add_mul (size : Nat) (n k : Int) :
    toBytes size (n + 256 ^ size * k) = toBytes size n := by
  induction size generalizing n with
  | zero => rfl
  | succ size ih =>
      have split : n + 256 ^ (size + 1) * k = n + 256 * (256 ^ size * k) := by ring
      rw [split, toBytes, toBytes, Int.add_mul_emod_self_left,
        Int.add_mul_ediv_left _ _ (by decide), ih]

theorem toBytes_fromBytes (raw : List UInt8) : toBytes raw.length (fromBytes raw) = raw := by
  induction raw with
  | nil => rfl
  | cons low rest ih =>
      have small := low.toNat_lt
      rw [List.length_cons, toBytes, fromBytes]
      push_cast
      rw [Int.add_mul_emod_self_left, Int.add_mul_ediv_left _ _ (by decide)]
      have quotient : (low.toNat : Int) / 256 = 0 := Int.ediv_eq_zero_of_lt (by omega) (by omega)
      have remainder : (low.toNat : Int) % 256 = low.toNat :=
        Int.emod_eq_of_lt (by omega) (by omega)
      rw [quotient, remainder, Int.zero_add, ih, Int.toNat_natCast, UInt8.ofNat_toNat]

theorem fromBytes_lt (raw : List UInt8) : fromBytes raw < 256 ^ raw.length := by
  induction raw with
  | nil => exact Nat.one_pos
  | cons low rest ih =>
      have small := low.toNat_lt
      rw [fromBytes, List.length_cons, pow_succ]
      omega

theorem fromSignedBytes_eq (raw : List UInt8) : fromSignedBytes raw =
    if (256 : Int) ^ raw.length ≤ 2 * fromBytes raw then (fromBytes raw : Int) - 256 ^ raw.length
    else fromBytes raw := by
  cases raw with
  | nil => rfl
  | cons low rest =>
      have half : (256 : Int) ^ (rest.length + 1) = 2 * 2 ^ (8 * (rest.length + 1) - 1) := by
        rw [← pow_succ', Nat.sub_add_cancel (by omega), pow_mul]
        rfl
      have whole : (2 : Int) ^ (8 * (rest.length + 1)) = 256 ^ (rest.length + 1) := by
        rw [pow_mul]
        rfl
      unfold fromSignedBytes
      simp only [List.length_cons, ne_eq, reduceCtorEq, not_false_eq_true, true_and]
      generalize fromBytes (low :: rest) = v
      have same : 2 ^ (8 * (rest.length + 1) - 1) ≤ v ↔
          (256 : Int) ^ (rest.length + 1) ≤ 2 * v := by
        rw [half, ← Int.ofNat_le]
        push_cast
        omega
      simp only [same, whole]

/-! ## What a field holds -/

/-- The integer that `read_int` makes of the bytes of a field. -/
def ofBytes (signed : Bool) (raw : List UInt8) : Int :=
  if signed then fromSignedBytes raw else fromBytes raw

theorem toBytes_ofBytes (signed : Bool) (raw : List UInt8) :
    toBytes raw.length (ofBytes signed raw) = raw := by
  cases signed with
  | false => exact toBytes_fromBytes raw
  | true =>
      change toBytes raw.length (fromSignedBytes raw) = raw
      rw [fromSignedBytes_eq]
      split
      · have wrapped : (fromBytes raw : Int) - 256 ^ raw.length =
            fromBytes raw + 256 ^ raw.length * (-1) := by ring
        rw [wrapped, toBytes_add_mul, toBytes_fromBytes]
      · exact toBytes_fromBytes raw

theorem representable_ofBytes (signed : Bool) (raw : List UInt8) :
    Representable raw.length signed (ofBytes signed raw) := by
  have below : (fromBytes raw : Int) < 256 ^ raw.length := by exact_mod_cast fromBytes_lt raw
  cases signed with
  | false => exact ⟨Int.natCast_nonneg _, below⟩
  | true =>
      change -256 ^ raw.length ≤ 2 * fromSignedBytes raw ∧
        2 * fromSignedBytes raw < 256 ^ raw.length
      rw [fromSignedBytes_eq]
      split <;> omega

/-- Two integers that a field can hold differ in their bytes. -/
theorem toBytes_injective {size : Nat} {signed : Bool} {m n : Int}
    (fits : Representable size signed m) (fits' : Representable size signed n)
    (same : toBytes size m = toBytes size n) : m = n := by
  have positive : (0 : Int) < 256 ^ size := Int.pow_pos (by decide)
  have congruent : m % 256 ^ size = n % 256 ^ size := by
    rw [← fromBytes_toBytes, ← fromBytes_toBytes, same]
  have near : -256 ^ size < m - n ∧ m - n < 256 ^ size := by
    cases signed with
    | false =>
        obtain ⟨low, high⟩ : 0 ≤ m ∧ m < 256 ^ size := fits
        obtain ⟨low', high'⟩ : 0 ≤ n ∧ n < 256 ^ size := fits'
        omega
    | true =>
        obtain ⟨low, high⟩ : -256 ^ size ≤ 2 * m ∧ 2 * m < 256 ^ size := fits
        obtain ⟨low', high'⟩ : -256 ^ size ≤ 2 * n ∧ 2 * n < 256 ^ size := fits'
        omega
  have divides := Int.dvd_of_emod_eq_zero (Int.emod_eq_emod_iff_emod_sub_eq_zero.mp congruent)
  have zero := Int.eq_zero_of_abs_lt_dvd divides (abs_lt.mpr near)
  omega

/-! ## `read_int` -/

variable {api : IdaApi} {addr n : Int} {size : Nat} {signed : Bool} {raw : List UInt8}

theorem mapM_range'_eq_some {image : MemoryImage} (start : Nat) :
    (List.range' start size).mapM (fun (offset : Nat) => image (addr + offset)) = some raw ↔
      raw.length = size ∧ image.Holds (addr + start) raw := by
  induction size generalizing start raw with
  | zero =>
      simp only [List.range'_zero, List.mapM_nil]
      constructor
      · intro none
        cases none
        exact ⟨rfl, fun k inside => absurd inside (Nat.not_lt_zero k)⟩
      · rintro ⟨empty, -⟩
        rw [List.length_eq_zero_iff.mp empty]
        rfl
  | succ size ih =>
      rw [List.range'_succ, List.mapM_cons]
      cases raw with
      | nil =>
          refine iff_of_false (fun ran => ?_) fun both => absurd both.1 (by simp)
          rcases Option.bind_eq_some_iff.mp ran with ⟨byte, -, later⟩
          rcases Option.bind_eq_some_iff.mp later with ⟨bytes, -, made⟩
          cases made
      | cons byte bytes =>
          have next : addr + (start : Int) + 1 = addr + ((start + 1 : Nat) : Int) := by omega
          rw [holds_cons, next, List.length_cons, Nat.add_right_cancel_iff, and_left_comm,
            ← ih (start + 1)]
          constructor
          · intro ran
            rcases Option.bind_eq_some_iff.mp ran with ⟨byte', first, later⟩
            rcases Option.bind_eq_some_iff.mp later with ⟨bytes', rest, made⟩
            cases made
            exact ⟨first, rest⟩
          · rintro ⟨first, rest⟩
            rw [first, Option.bind_eq_bind, Option.bind_some, rest]
            rfl

/-- The bytes that are read are those that the image holds. -/
theorem readBytes_eq_some :
    readBytes api addr size = some raw ↔ raw.length = size ∧ api.bytes.image.Holds addr raw := by
  have whole := @mapM_range'_eq_some addr size raw api.bytes.image 0
  rw [Nat.cast_zero, Int.add_zero] at whole
  rw [readBytes, List.range_eq_range']
  exact whole

/-- An integer is read from a field exactly when the image holds its bytes there. -/
theorem readInt_eq_some : readInt api addr size signed = some n ↔
    Representable size signed n ∧ api.bytes.image.Holds addr (toBytes size n) := by
  constructor
  · intro ran
    rcases Option.map_eq_some_iff.mp ran with ⟨raw, read, rfl⟩
    rcases readBytes_eq_some.mp read with ⟨rfl, held⟩
    change Representable raw.length signed (ofBytes signed raw) ∧
      api.bytes.image.Holds addr (toBytes raw.length (ofBytes signed raw))
    rw [toBytes_ofBytes]
    exact ⟨representable_ofBytes signed raw, held⟩
  · rintro ⟨fits, held⟩
    have read : readBytes api addr size = some (toBytes size n) :=
      readBytes_eq_some.mpr ⟨length_toBytes size n, held⟩
    have back : ofBytes signed (toBytes size n) = n := by
      refine toBytes_injective ?_ fits ?_
      · have fits' := representable_ofBytes signed (toBytes size n)
        rwa [length_toBytes] at fits'
      · have again := toBytes_ofBytes signed (toBytes size n)
        rwa [length_toBytes] at again
    rw [readInt, read]
    exact congrArg some back

end IdaPortImpl

end IDAnalysister
