import IDAnalysister.Library.Bytes
import Mathlib.Data.BitVec

/-!
# Moves between operands of different widths

Registers of `W` bits, moved between operands that name their low bits, numbers, and static
memory; a write of fewer than 32 bits keeps the others, and any other clears them. `passages`
follows each number along its moves as if the widths did not matter, and counts what they leave
of it: `describes_run` says how much of the number is in the register.
-/

namespace Widths

open Bytes

/-- What fills the bits that the source does not have. -/
inductive Extension
  | zero
  | sign
  deriving DecidableEq

namespace Extension

def apply (e : Extension) {s : Nat} (d : Nat) (x : BitVec s) : BitVec d :=
  match e with
  | zero => x.setWidth d
  | sign => x.signExtend d

/-- Operands of `s` and of `d` bits hold the number, and the extension does not take its highest
bit for a sign. -/
def Keeps (e : Extension) (s d : Nat) (n : Int) : Prop :=
  0 ≤ n ∧ n < 2 ^ s ∧ n < 2 ^ d ∧ (e = sign → d ≤ s ∨ n < 2 ^ (s - 1))

instance (e : Extension) (s d : Nat) (n : Int) : Decidable (e.Keeps s d n) :=
  inferInstanceAs (Decidable (_ ∧ _))

variable {e : Extension} {s d w : Nat} {n : Int}

theorem setWidth_apply (x : BitVec s) (left : w ≤ s) (right : w ≤ d) :
    (e.apply d x).setWidth w = x.setWidth w := by
  cases e with
  | zero => exact BitVec.setWidth_setWidth_of_le x right
  | sign =>
      apply BitVec.eq_of_getLsbD_eq
      intro i below
      have inside : i < s := below.trans_le left
      have inside' : i < d := below.trans_le right
      simp only [apply, BitVec.getLsbD_setWidth, BitVec.getLsbD_signExtend, inside, inside',
        decide_true, if_true, Bool.true_and]

theorem toNat_apply {x : BitVec s} (same : (x.toNat : Int) = n) (keeps : e.Keeps s d n) :
    ((e.apply d x).toNat : Int) = n := by
  rcases keeps with ⟨-, -, fits, unsigned⟩
  have small : x.toNat < 2 ^ d := by
    rw [← same] at fits
    exact_mod_cast fits
  have whole : ((x.setWidth d).toNat : Int) = n := by
    rw [BitVec.toNat_setWidth, Nat.mod_eq_of_lt small, same]
  cases e with
  | zero => exact whole
  | sign =>
      rcases unsigned rfl with narrow | low
      · rw [apply, BitVec.signExtend_eq_setWidth_of_le x narrow]
        exact whole
      · have positive : x.msb = false := by
          rw [BitVec.msb_eq_decide, decide_eq_false_iff_not, Nat.not_le]
          rw [← same] at low
          exact_mod_cast low
        rw [apply, BitVec.signExtend_eq_setWidth_of_msb_false positive]
        exact whole

end Extension

/-- A number, the low bits of a register, or `size` bytes of memory. -/
inductive Source (R : Type)
  | number (n : Int)
  | reg (q : R) (bits : Nat)
  | cell (addr : Int) (size : Nat)
  deriving DecidableEq

structure Move (R : Type) where
  dest : R
  bits : Nat
  extension : Extension
  source : Source R
  deriving DecidableEq

/-- A number that moves pass on, the bits that every operand on its way has, and whether they all
keep it. -/
structure Passage where
  number : Int
  bits : Nat
  kept : Bool
  deriving DecidableEq

variable {R : Type} {W : Nat}

/-! ## The machine -/

/-- The register after `x` is written to its low bits. -/
def put (old : BitVec W) {d : Nat} (x : BitVec d) : BitVec W :=
  if 32 ≤ d then x.setWidth W else (old >>> d <<< d) ||| x.setWidth W

def Source.value (mem : Memory Int) (regs : R → BitVec W) (e : Extension) (d : Nat) :
    Source R → BitVec d
  | number n => BitVec.ofInt d n
  | reg q s => e.apply d ((regs q).setWidth s)
  | cell addr size => e.apply d (BitVec.ofNat (size * 8) (read mem addr size))

variable [DecidableEq R]

def Move.exec (mem : Memory Int) (m : Move R) (regs : R → BitVec W) : R → BitVec W :=
  Function.update regs m.dest (put (regs m.dest) (m.source.value mem regs m.extension m.bits))

def run (mem : Memory Int) (moves : List (Move R)) (regs : R → BitVec W) : R → BitVec W :=
  moves.foldl (fun regs m => m.exec mem regs) regs

theorem run_append (mem : Memory Int) (moves : List (Move R)) (m : Move R) (regs : R → BitVec W) :
    run mem (moves ++ [m]) regs = m.exec mem (run mem moves regs) := by
  simp [run]

/-! ## Numbers along their moves -/

def Source.passage (mem : Memory Int) (P : R → Option Passage) (e : Extension) (d : Nat) :
    Source R → Option Passage
  | number n => some ⟨n, d, decide (0 ≤ n ∧ n < 2 ^ d)⟩
  | reg q s => (P q).map fun p =>
      ⟨p.number, min p.bits (min s d), p.kept && decide (e.Keeps s d p.number)⟩
  | cell addr size =>
      some ⟨read mem addr size, min (size * 8) d,
        decide (e.Keeps (size * 8) d (read mem addr size))⟩

/-- A write that keeps bits of the register leaves no number. -/
def Move.pass (mem : Memory Int) (m : Move R) (P : R → Option Passage) : R → Option Passage :=
  Function.update P m.dest
    (if 32 ≤ m.bits then m.source.passage mem P m.extension m.bits else none)

def passages (mem : Memory Int) (moves : List (Move R)) : R → Option Passage :=
  moves.foldl (fun P m => m.pass mem P) fun _ => none

theorem passages_append (mem : Memory Int) (moves : List (Move R)) (m : Move R) :
    passages mem (moves ++ [m]) = m.pass mem (passages mem moves) := by
  simp [passages]

/-- The register has the passage's low bits of the number, and all of it if it was kept. -/
def Passage.Describes (p : Passage) (x : BitVec W) : Prop :=
  x.setWidth p.bits = BitVec.ofInt p.bits p.number ∧ (p.kept → (x.toNat : Int) = p.number)

section Describes

variable {mem : Memory Int} {P : R → Option Passage} {regs : R → BitVec W} {p : Passage}
variable {s d w : Nat} {n : Int} {e : Extension}

theorem setWidth_ofInt (le : w ≤ d) : (BitVec.ofInt d n).setWidth w = BitVec.ofInt w n := by
  apply BitVec.eq_of_toNat_eq
  have nonneg (k : Nat) : 0 ≤ n % (2 : Int) ^ k := Int.emod_nonneg _ (pow_ne_zero k (by decide))
  have residue : n % (2 : Int) ^ d % 2 ^ w = n % 2 ^ w :=
    Int.emod_emod_of_dvd n (pow_dvd_pow 2 le)
  rw [BitVec.toNat_setWidth, BitVec.toNat_ofInt, BitVec.toNat_ofInt]
  apply Int.ofNat_inj.mp
  push_cast
  rw [Int.toNat_of_nonneg (nonneg d), Int.toNat_of_nonneg (nonneg w), residue]

/-- A write to an operand that clears the rest leaves the operand. -/
theorem put_clearing (old : BitVec W) (x : BitVec d) (clears : 32 ≤ d) : put old x = x.setWidth W :=
  if_pos clears

theorem toNat_ofInt_of_lt (nonneg : 0 ≤ n) (lt : n < 2 ^ d) :
    ((BitVec.ofInt d n).toNat : Int) = n := by
  rw [BitVec.toNat_ofInt]
  push_cast
  rw [Int.emod_eq_of_lt nonneg lt, Int.toNat_of_nonneg nonneg]

omit [DecidableEq R] in
/-- What the source hands over to an operand of `d` bits. -/
theorem Source.describes {o : Source R}
    (described : ∀ q p, P q = some p → p.Describes (regs q))
    (made : o.passage mem P e d = some p) :
    p.bits ≤ d ∧ p.Describes (o.value mem regs e d) := by
  cases o with
  | number n =>
      cases made
      refine ⟨Nat.le_refl d, BitVec.setWidth_eq _, ?_⟩
      intro kept
      have fits := of_decide_eq_true kept
      exact toNat_ofInt_of_lt fits.1 fits.2
  | reg q s =>
      rcases Option.map_eq_some_iff.mp made with ⟨before, known, rfl⟩
      rcases described q before known with ⟨low, whole⟩
      refine ⟨(Nat.min_le_right _ _).trans (Nat.min_le_right _ _), ?_, ?_⟩
      · have narrow : min before.bits (min s d) ≤ before.bits := Nat.min_le_left _ _
        have source : min before.bits (min s d) ≤ s :=
          (Nat.min_le_right _ _).trans (Nat.min_le_left _ _)
        have dest : min before.bits (min s d) ≤ d :=
          (Nat.min_le_right _ _).trans (Nat.min_le_right _ _)
        dsimp only [value]
        rw [e.setWidth_apply _ source dest, BitVec.setWidth_setWidth_of_le _ source,
          ← BitVec.setWidth_setWidth_of_le (regs q) narrow, low, setWidth_ofInt narrow]
      · intro kept
        rw [Bool.and_eq_true, decide_eq_true_eq] at kept
        have same := whole kept.1
        apply e.toNat_apply _ kept.2
        have fits : (regs q).toNat < 2 ^ s := by
          have bound := kept.2.2.1
          rw [← same] at bound
          exact_mod_cast bound
        rw [BitVec.toNat_setWidth, Nat.mod_eq_of_lt fits, same]
  | cell addr size =>
      cases made
      have small : read mem addr size < 2 ^ (size * 8) := by
        rw [Nat.mul_comm, Nat.pow_mul]
        exact read_lt mem addr size
      refine ⟨Nat.min_le_right _ _, ?_, ?_⟩
      · dsimp only [value]
        rw [e.setWidth_apply _ (Nat.min_le_left _ _) (Nat.min_le_right _ _), ← BitVec.ofInt_natCast,
          setWidth_ofInt (Nat.min_le_left _ _)]
      · intro kept
        apply e.toNat_apply _ (of_decide_eq_true kept)
        rw [BitVec.toNat_ofNat, Nat.mod_eq_of_lt small]

theorem Move.describes {m : Move R} (fits : m.bits ≤ W)
    (described : ∀ q p, P q = some p → p.Describes (regs q)) {r : R}
    (known : m.pass mem P r = some p) : p.Describes (m.exec mem regs r) := by
  rw [exec]
  by_cases same : r = m.dest
  · subst same
    rw [pass, Function.update_self] at known
    rw [Function.update_self]
    split at known
    · rename_i clears
      rcases m.source.describes described known with ⟨le, low, whole⟩
      rw [put_clearing _ _ clears]
      refine ⟨?_, ?_⟩
      · rw [BitVec.setWidth_setWidth_of_le _ (le.trans fits), low]
      · intro kept
        rw [BitVec.toNat_setWidth_of_le fits]
        exact whole kept
    · cases known
  · rw [pass, Function.update_of_ne same] at known
    rw [Function.update_of_ne same]
    exact described r p known

/-- After moves whose operands fit the registers, a register has the low bits of the number that
it is followed back to, and all of it if every operand on the way keeps it. -/
theorem describes_run {moves : List (Move R)} (fits : ∀ m ∈ moves, m.bits ≤ W) (mem : Memory Int)
    (regs : R → BitVec W) {r : R} (known : passages mem moves r = some p) :
    p.Describes (run mem moves regs r) := by
  induction moves using List.reverseRecOn generalizing r p with
  | nil => cases known
  | append_singleton moves m ih =>
      have shorter : ∀ m ∈ moves, m.bits ≤ W := fun m member => fits m (by simp [member])
      rw [passages_append] at known
      rw [run_append]
      exact Move.describes (fits m (by simp)) (fun q p here => ih shorter here) known

end Describes

end Widths
