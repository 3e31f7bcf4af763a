import Mathlib.Algebra.Group.Basic
import Mathlib.Data.BitVec
import Mathlib.Data.Int.Cast.Lemmas
import Mathlib.Logic.Function.Basic
import Mathlib.Tactic.Ring

/-!
# Little-endian cells of a byte memory

Addresses are any additive group with a 1, so that both the integers and the words of a
machine will do. A `Cell` is a row of bytes; `storeAll` writes numbers to cells one after
the other. `readsBack_iff` says which of the stores can be read back whatever numbers are
written: one that no later store overlaps, read with the size it was written with.
-/

namespace Bytes

/-! ## Numbers whose bytes are all ones -/

def ones (size : Nat) : Nat := 256 ^ size - 1

theorem ones_lt (size : Nat) : ones size < 256 ^ size :=
  Nat.sub_lt (Nat.pow_pos (by decide)) (by decide)

/-- Every byte of the number is 255. -/
theorem ones_byte {n k : Nat} (below : k < n) : BitVec.ofNat 8 (ones n / 256 ^ k) = 255 := by
  have split : 256 ^ n = 256 ^ k * (256 * 256 ^ (n - k - 1)) := by
    rw [← pow_succ', ← pow_add]
    congr 1
    omega
  have positive : 0 < 256 ^ k := Nat.pow_pos (by decide)
  have positive' : 0 < 256 ^ (n - k - 1) := Nat.pow_pos (by decide)
  have quotient : ones n / 256 ^ k = 256 * 256 ^ (n - k - 1) - 1 := by
    rw [Nat.div_eq_iff positive, ones, split, Nat.sub_mul, Nat.mul_comm (256 ^ k)]
    have large := Nat.le_mul_of_pos_left (256 ^ k) (Nat.mul_pos (show 0 < 256 by decide) positive')
    omega
  rw [quotient]
  apply BitVec.eq_of_toNat_eq
  rw [BitVec.toNat_ofNat]
  change _ = 255
  omega

/-! ## Cells -/

variable {A : Type}

structure Cell (A : Type) where
  addr : A
  size : Nat
  deriving DecidableEq

/-- Every number fits its cell. -/
def Fitting (stores : List (Cell A × Nat)) : Prop := ∀ s ∈ stores, s.2 < 256 ^ s.1.size

/-- Stores of all ones to a row of cells. -/
def onesTo (cells : List (Cell A)) : List (Cell A × Nat) := cells.map fun d => (d, ones d.size)

theorem onesTo_cells (cells : List (Cell A)) : (onesTo cells).map Prod.fst = cells := by
  rw [onesTo, List.map_map]
  exact List.map_id cells

/-- Each cell is stored its own number. -/
theorem mem_onesTo {cells : List (Cell A)} {s : Cell A × Nat} :
    s ∈ onesTo cells ↔ s.1 ∈ cells ∧ s.2 = ones s.1.size := by
  rcases s with ⟨d, v⟩
  simp only [onesTo, List.mem_map, Prod.mk.injEq]
  constructor
  · intro found
    rcases found with ⟨e, member, rfl, rfl⟩
    exact ⟨member, rfl⟩
  · intro both
    exact ⟨d, both.1, rfl, both.2.symm⟩

theorem onesTo_fitting (cells : List (Cell A)) : Fitting (onesTo cells) := by
  intro s member
  rw [(mem_onesTo.mp member).2]
  exact ones_lt s.1.size

/-- A number that fits may stand between fitting ones. -/
theorem Fitting.around {before after : List (Cell A × Nat)} {c : Cell A} {v : Nat}
    (left : Fitting before) (fits : v < 256 ^ c.size) (right : Fitting after) :
    Fitting (before ++ (c, v) :: after) := by
  intro s member
  rcases List.mem_append.mp member with early | late
  · exact left s early
  · rcases List.mem_cons.mp late with rfl | later
    · exact fits
    · exact right s later

/-! ## Memories -/

abbrev Memory (A : Type) := A → BitVec 8

variable [AddCommGroupWithOne A]

/-- The little-endian content of `size` bytes. -/
def read (m : Memory A) (a : A) : Nat → Nat
  | 0 => 0
  | size + 1 => (m a).toNat + 256 * read m (a + 1) size

/-- Write the `size` low bytes of a number. -/
def write [DecidableEq A] (m : Memory A) (a : A) : Nat → Nat → Memory A
  | 0, _ => m
  | size + 1, v => Function.update (write m (a + 1) size (v / 256)) a (BitVec.ofNat 8 v)

theorem add_one_add (a : A) (k : Nat) : a + 1 + k = a + (k + 1 : Nat) := by
  rw [Nat.cast_add, Nat.cast_one, add_assoc, add_comm (1 : A)]

/-! ## Reading -/

/-- What is read fits the size. -/
theorem read_lt (m : Memory A) (a : A) (size : Nat) : read m a size < 256 ^ size := by
  induction size generalizing a with
  | zero => exact Nat.one_pos
  | succ size ih =>
      have rest := ih (a + 1)
      have byte := (m a).isLt
      rw [read, pow_succ]
      omega

/-- Zero is read exactly where all bytes are zero. -/
theorem read_eq_zero_iff {m : Memory A} {a : A} {size : Nat} :
    read m a size = 0 ↔ ∀ k < size, m (a + k) = 0 := by
  induction size generalizing a with
  | zero => simp [read]
  | succ size ih =>
      have rest : read m (a + 1) size = 0 ↔ ∀ k < size, m (a + (k + 1 : Nat)) = 0 := by
        rw [ih]
        simp only [add_one_add]
      rw [Nat.forall_lt_succ_left, ← rest, read, Nat.cast_zero, add_zero]
      have byte : m a = 0 ↔ (m a).toNat = 0 := by
        rw [← BitVec.toNat_inj]
        rfl
      rw [byte]
      omega

theorem read_zero (a : A) (size : Nat) : read (0 : Memory A) a size = 0 :=
  read_eq_zero_iff.mpr fun _ _ => rfl

/-- Reading depends on the bytes of the cell only. -/
theorem read_congr {m m' : Memory A} {a : A} {size : Nat}
    (same : ∀ k < size, m (a + k) = m' (a + k)) : read m a size = read m' a size := by
  induction size generalizing a with
  | zero => rfl
  | succ size ih =>
      have first := same 0 (Nat.succ_pos size)
      rw [Nat.cast_zero, add_zero] at first
      rw [read, read, first, ih]
      intro k below
      rw [add_one_add]
      exact same (k + 1) (Nat.succ_lt_succ below)

/-! ## Rows that do not run into themselves -/

/-- Rows of this many bytes do not run into themselves. -/
def Roomy (A : Type) [AddCommGroupWithOne A] (size : Nat) : Prop :=
  ∀ j < size, ∀ k < size, (j : A) = k → j = k

/-- Integers never wrap around. -/
theorem roomy_int (size : Nat) : Roomy Int size := by
  intro j _ k _ same
  exact Int.ofNat_inj.mp same

/-- A cell no larger than the address space does not overlap itself. -/
theorem roomy_bitVec {W size : Nat} (le : size ≤ 2 ^ W) : Roomy (BitVec W) size := by
  intro j hj k hk same
  have residue := congrArg BitVec.toNat same
  simpa [Nat.mod_eq_of_lt (hj.trans_le le), Nat.mod_eq_of_lt (hk.trans_le le)] using residue

/-- A word does not reach around all addresses of its width. -/
theorem roomy_word (width : Nat) : Roomy (BitVec (width * 8)) (width + 1) := by
  apply roomy_bitVec
  calc width + 1 ≤ 2 ^ width := Nat.lt_two_pow_self
    _ ≤ 2 ^ (width * 8) := Nat.pow_le_pow_right (by decide) (by omega)

namespace Roomy

variable {size n : Nat} {a : A} {j k : Nat}

theorem mono (roomy : Roomy A n) (le : size ≤ n) : Roomy A size :=
  fun j hj k hk => roomy j (hj.trans_le le) k (hk.trans_le le)

theorem add_inj (roomy : Roomy A size) (hj : j < size) (hk : k < size)
    (same : a + (j : A) = a + k) : j = k :=
  roomy j hj k hk (add_left_cancel same)

theorem add_ne (roomy : Roomy A size) (below : k + 1 < size) : a + ((k + 1 : Nat) : A) ≠ a := by
  intro same
  have zero : ((k + 1 : Nat) : A) = (0 : Nat) := by
    rw [Nat.cast_zero]
    exact add_eq_left.mp same
  have never := roomy (k + 1) below 0 (by omega) zero
  omega

end Roomy

/-! ## Writing -/

section Write

variable [DecidableEq A] {m : Memory A} {a x : A} {size v : Nat}

/-- Writing zero into empty memory changes nothing. -/
theorem write_zero (a : A) (size : Nat) : write (0 : Memory A) a size 0 = 0 := by
  induction size generalizing a with
  | zero => rfl
  | succ size ih =>
      rw [write, Nat.zero_div, ih]
      exact Function.update_eq_self a 0

/-- A write changes no byte outside its cell. -/
theorem write_outside (outside : ∀ k < size, x ≠ a + k) : write m a size v x = m x := by
  induction size generalizing a v with
  | zero => rfl
  | succ size ih =>
      have first := outside 0 (Nat.succ_pos size)
      rw [Nat.cast_zero, add_zero] at first
      rw [write, Function.update_of_ne first]
      apply ih
      intro k below
      rw [add_one_add]
      exact outside (k + 1) (Nat.succ_lt_succ below)

/-- Every byte of a written row is one of the number. -/
theorem write_inside (roomy : Roomy A size) {k : Nat} (below : k < size) :
    write m a size v (a + k) = BitVec.ofNat 8 (v / 256 ^ k) := by
  induction size generalizing a v k with
  | zero => omega
  | succ size ih =>
      cases k with
      | zero => simp [write]
      | succ k =>
          have later := @ih (a + 1) (v / 256) (roomy.mono (Nat.le_succ size)) k (by omega)
          rw [add_one_add] at later
          rw [write, Function.update_of_ne (roomy.add_ne below), later, Nat.div_div_eq_div_mul,
            pow_succ']

/-- What was written is read back. -/
theorem read_write (roomy : Roomy A size) (fits : v < 256 ^ size) :
    read (write m a size v) a size = v := by
  induction size generalizing a v with
  | zero =>
      rw [pow_zero] at fits
      simp only [read]
      omega
  | succ size ih =>
      have outer : read (write m a (size + 1) v) (a + 1) size =
          read (write m (a + 1) size (v / 256)) (a + 1) size := by
        apply read_congr
        intro k below
        rw [add_one_add, write, Function.update_of_ne (roomy.add_ne (by omega))]
      have smaller : v / 256 < 256 ^ size := by
        rw [pow_succ] at fits
        omega
      rw [read, outer, ih (roomy.mono (Nat.le_succ size)) smaller, write, Function.update_self,
        BitVec.toNat_ofNat]
      omega

end Write

/-! ## Stores to cells -/

namespace Cell

def Has (c : Cell A) (x : A) : Prop := ∃ k < c.size, x = c.addr + k

def Overlaps (c d : Cell A) : Prop := ∃ x, c.Has x ∧ d.Has x

/-- Moving both cells along keeps them apart, or overlapping. -/
theorem overlaps_add {base x y : A} {size size' : Nat} :
    (⟨base + x, size⟩ : Cell A).Overlaps ⟨base + y, size'⟩ ↔
      (⟨x, size⟩ : Cell A).Overlaps ⟨y, size'⟩ := by
  constructor
  · intro overlaps
    rcases overlaps with ⟨z, ⟨j, below, rfl⟩, k, below', same⟩
    refine ⟨x + j, ⟨j, below, rfl⟩, k, below', ?_⟩
    rw [add_assoc, add_assoc] at same
    exact add_left_cancel same
  · intro overlaps
    rcases overlaps with ⟨z, ⟨j, below, rfl⟩, k, below', same⟩
    refine ⟨base + x + j, ⟨j, below, rfl⟩, k, below', ?_⟩
    rw [add_assoc, same, add_assoc]

end Cell

variable [DecidableEq A]

/-- Write a number to each cell, one after the other. -/
def storeAll (stores : List (Cell A × Nat)) (m : Memory A) : Memory A :=
  stores.foldl (fun m s => write m s.1.addr s.1.size s.2) m

section Stores

variable {stores before after : List (Cell A × Nat)} {c : Cell A} {v n : Nat} {m : Memory A} {x : A}

@[simp] theorem storeAll_nil : storeAll [] m = m := rfl

@[simp] theorem storeAll_cons (s : Cell A × Nat) :
    storeAll (s :: stores) m = storeAll stores (write m s.1.addr s.1.size s.2) := rfl

@[simp] theorem storeAll_append :
    storeAll (before ++ after) m = storeAll after (storeAll before m) :=
  List.foldl_append

/-- Stores change no byte outside their cells. -/
theorem storeAll_outside (outside : ∀ s ∈ stores, ¬ s.1.Has x) : storeAll stores m x = m x := by
  induction stores generalizing m with
  | nil => rfl
  | cons s stores ih =>
      rw [storeAll_cons, ih fun t member => outside t (List.mem_cons_of_mem _ member)]
      exact write_outside fun k below same => outside s List.mem_cons_self ⟨k, below, same⟩

/-- A store that nothing overlaps later is read back. -/
theorem read_storeAll (roomy : Roomy A c.size) (fits : v < 256 ^ c.size)
    (apart : ∀ s ∈ after, ¬ s.1.Overlaps c) :
    read (storeAll (before ++ (c, v) :: after) m) c.addr c.size = v := by
  have later : ∀ k < c.size, storeAll (before ++ (c, v) :: after) m (c.addr + k) =
      write (storeAll before m) c.addr c.size v (c.addr + k) := by
    intro k below
    rw [storeAll_append, storeAll_cons]
    apply storeAll_outside
    intro s member has
    exact apart s member ⟨_, has, k, below, rfl⟩
  rw [read_congr later, read_write roomy fits]

/-- A byte of ones, old or stored, outlives stores of all ones. -/
theorem storeAll_ones {cells : List (Cell A)} (roomy : ∀ d ∈ cells, Roomy A d.size)
    (ones : m x = 255 ∨ ∃ d ∈ cells, d.Has x) : storeAll (onesTo cells) m x = 255 := by
  induction cells generalizing m with
  | nil => simpa [onesTo] using ones
  | cons d cells ih =>
      have rest : ∀ e ∈ cells, Roomy A e.size :=
        fun e member => roomy e (List.mem_cons_of_mem _ member)
      have next : storeAll (onesTo (d :: cells)) m =
          storeAll (onesTo cells) (write m d.addr d.size (Bytes.ones d.size)) := rfl
      rw [next]
      apply ih rest
      by_cases has : d.Has x
      · rcases has with ⟨k, below, rfl⟩
        exact Or.inl (by rw [write_inside (roomy d List.mem_cons_self) below, ones_byte below])
      · rw [write_outside fun k below same => has ⟨k, below, same⟩]
        rcases ones with old | ⟨e, member, inside⟩
        · exact Or.inl old
        · rcases List.mem_cons.mp member with rfl | later
          · exact (has inside).elim
          · exact Or.inr ⟨e, later, inside⟩

end Stores

/-! ## What can be read back -/

/-- Whatever the memory held and whatever numbers are stored, reading `size` bytes at `a`
gives the number that was stored to `c` between the two rows of cells. -/
def ReadsBack (before : List (Cell A)) (c : Cell A) (after : List (Cell A)) (a : A)
    (size : Nat) : Prop :=
  ∀ (m : Memory A) (pre post : List (Cell A × Nat)) (v : Nat), pre.map Prod.fst = before →
    post.map Prod.fst = after → Fitting (pre ++ (c, v) :: post) →
      read (storeAll (pre ++ (c, v) :: post) m) a size = v

section ReadsBack

variable {before after : List (Cell A)} {c : Cell A} {a : A} {size : Nat}

/-- The largest number shows that no fewer bytes are read than were stored. -/
theorem ReadsBack.size_le (holds : ReadsBack before c after a size) : c.size ≤ size := by
  have fitting := (onesTo_fitting before).around (ones_lt c.size) (onesTo_fitting after)
  have back := holds 0 (onesTo before) (onesTo after) (ones c.size) (onesTo_cells _)
    (onesTo_cells _) fitting
  have bound := read_lt (storeAll (onesTo before ++ (c, ones c.size) :: onesTo after) 0) a size
  rw [back, ones] at bound
  by_contra smaller
  have less := Nat.pow_lt_pow_right (show 1 < 256 by decide) (Nat.not_le.mp smaller)
  omega

/-- A zero among ones shows that the bytes that are read are those of this store. -/
theorem ReadsBack.owned (holds : ReadsBack before c after a size)
    (roomy : ∀ d ∈ before ++ after, Roomy A d.size) {k : Nat} (below : k < size) :
    c.Has (a + k) ∧ ∀ d ∈ after, ¬ d.Has (a + k) := by
  have early : ∀ d ∈ before, Roomy A d.size := fun d member => roomy d (by simp [member])
  have late : ∀ d ∈ after, Roomy A d.size := fun d member => roomy d (by simp [member])
  have fitting := (onesTo_fitting before).around (c := c) (Nat.pow_pos (by decide))
    (onesTo_fitting after)
  have zero := holds (fun _ => 255) (onesTo before) (onesTo after) 0 (onesTo_cells _)
    (onesTo_cells _) fitting
  rw [storeAll_append, storeAll_cons] at zero
  have byte := read_eq_zero_iff.mp zero k below
  have ones_ne : (255 : BitVec 8) ≠ 0 := by decide
  constructor
  · by_contra outside
    have old : write (storeAll (onesTo before) fun _ => 255) c.addr c.size 0 (a + k) = 255 := by
      rw [write_outside fun j inside same => outside ⟨j, inside, same⟩]
      exact storeAll_ones early (Or.inl rfl)
    exact ones_ne ((storeAll_ones late (Or.inl old)).symm.trans byte)
  · intro d member stored
    exact ones_ne ((storeAll_ones late (Or.inr ⟨d, member, stored⟩)).symm.trans byte)

/-- A store is read back from its own address, with its own size, when no later store
overlaps it. -/
theorem readsBack_iff (roomy : ∀ d ∈ before ++ after, Roomy A d.size)
    (roomy' : Roomy A (c.size + 1)) (at' : a = c.addr ∨ 0 < c.size) :
    ReadsBack before c after a size ↔
      a = c.addr ∧ size = c.size ∧ ∀ d ∈ after, ¬ d.Overlaps c := by
  constructor
  · intro holds
    have le := holds.size_le
    -- the byte behind the cell is not read
    have behind : ∀ k < size, a + (k : A) ≠ c.addr + c.size := by
      intro k below same
      rcases (holds.owned roomy below).1 with ⟨j, inside, here⟩
      have equal := roomy'.add_inj (Nat.lt_succ_self _) (inside.trans (Nat.lt_succ_self _))
        (same.symm.trans here)
      omega
    have start : a = c.addr := by
      rcases at' with start | positive
      · exact start
      · rcases (holds.owned roomy (positive.trans_le le)).1 with ⟨j, inside, here⟩
        rw [Nat.cast_zero, add_zero] at here
        cases j with
        | zero => rw [here, Nat.cast_zero, add_zero]
        | succ j =>
            refine (behind (c.size - (j + 1)) (by omega) ?_).elim
            rw [here, add_assoc, ← Nat.cast_add]
            congr 2
            omega
    have same : size = c.size := by
      by_contra different
      exact behind c.size (Nat.lt_of_le_of_ne le (Ne.symm different)) (by rw [start])
    refine ⟨start, same, fun d member overlaps => ?_⟩
    rcases overlaps with ⟨x, stored, k, below, rfl⟩
    rw [← start] at stored
    exact (holds.owned roomy (by omega)).2 d member stored
  · intro all
    rcases all with ⟨rfl, rfl, apart⟩
    intro m pre post v cells cells' fitting
    have fits : v < 256 ^ c.size := fitting (c, v) (by simp)
    apply read_storeAll (roomy'.mono (Nat.le_succ _)) fits
    intro s member
    apply apart
    rw [← cells']
    exact List.mem_map_of_mem member

end ReadsBack

end Bytes
