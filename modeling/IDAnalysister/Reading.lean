import IDAnalysister.Merge

/-!
# What a value says about a machine word

A known value names a word of `W` bits: an integer names its residue, a memory reference what
was read there, and a symbol or a region whatever word it stands for. A `Reading` fixes those
words; `Holds` says that a value is right about a word under a reading.
-/

namespace IDAnalysister

/-- What a known value comes down to. -/
inductive Payload (W : Nat)
  | word (w : BitVec W)
  | datum (d : Datum)
  | expr (e : String)
  deriving DecidableEq

/-- The words that expressions, and payloads that are no integers, stand for. -/
structure Reading (W : Nat) where
  datum : Datum → BitVec W
  expr : String → BitVec W

variable {W : Nat}

def Reading.word (ρ : Reading W) : Payload W → BitVec W
  | .word w => w
  | .datum d => ρ.datum d
  | .expr e => ρ.expr e

namespace ValueLattice

/-- `none` where the value says nothing: it is unknown, or refers to an unknown content. -/
def payload (W : Nat) : ValueLattice → Option (Payload W)
  | unknown _ _ => none
  | concrete (.int n) _ => some (.word (BitVec.ofInt W n))
  | concrete d _ => some (.datum d)
  | memoryRef _ value => value.payload W
  | symbolic e => some (.expr e)
  | mutatedRegion e _ => some (.expr e)

/-- The value is right about the word. -/
def Holds (ρ : Reading W) (v : ValueLattice) (x : BitVec W) : Prop :=
  ∀ p, v.payload W = some p → x = ρ.word p

variable {ρ : Reading W} {v w : ValueLattice} {x : BitVec W}

theorem holds_unknown (reason : UnknownReason) (detail : String) :
    (unknown reason detail).Holds ρ x := by
  intro p stated
  cases stated

theorem holds_of_unknown (unknown : v.isKnown = false) : v.Holds ρ x := by
  rcases isKnown_eq_false unknown with ⟨reason, detail, rfl⟩
  exact holds_unknown reason detail

theorem holds_int {n : Int} {kind : ValueKind} :
    (concrete (.int n) kind).Holds ρ x ↔ x = BitVec.ofInt W n := by
  simp [Holds, payload, Reading.word]

theorem holds_symbolic {e : String} : (symbolic e).Holds ρ x ↔ x = ρ.expr e := by
  simp [Holds, payload, Reading.word]

/-- Of two comparable values the greater one says what the lesser one says. -/
theorem payload_of_le (le : v ≤ w) {p : Payload W} (stated : v.payload W = some p) :
    w.payload W = some p := by
  induction v generalizing w with
  | unknown reason detail => cases stated
  | concrete d kind =>
      obtain rfl := concrete_le.mp le
      exact stated
  | symbolic e =>
      obtain rfl := symbolic_le.mp le
      exact stated
  | mutatedRegion e via =>
      change Below _ _ at le
      cases w <;> simp only [Below] at le
      subst le
      exact stated
  | memoryRef addr value ih =>
      change Below _ _ at le
      cases w <;> simp only [Below] at le
      have deeper := ih le.2 stated
      exact deeper

theorem Holds.of_le (right : w.Holds ρ x) (le : v ≤ w) : v.Holds ρ x :=
  fun p stated => right p (payload_of_le le stated)

/-- Some word that the value is right about. -/
def someWord (ρ : Reading W) (v : ValueLattice) : BitVec W :=
  ((v.payload W).map ρ.word).getD 0

theorem holds_someWord (ρ : Reading W) (v : ValueLattice) : v.Holds ρ (v.someWord ρ) := by
  intro p stated
  rw [someWord, stated]
  rfl

end ValueLattice

/-! ## Telling payloads apart -/

theorem exists_word_ne (positive : 0 < W) (x : BitVec W) : ∃ y : BitVec W, y ≠ x := by
  refine ⟨~~~x, ?_⟩
  intro same
  have bit := congrArg (BitVec.getLsbD · 0) same
  simp [positive] at bit

/-- Different payloads are different words under some reading. -/
theorem exists_reading_ne (positive : 0 < W) {p q : Payload W} (differ : p ≠ q) :
    ∃ ρ : Reading W, ρ.word p ≠ ρ.word q := by
  rcases exists_word_ne positive (0 : BitVec W) with ⟨one, apart⟩
  cases p with
  | word x =>
      rcases exists_word_ne positive x with ⟨y, other⟩
      cases q with
      | word z => exact ⟨⟨fun _ => 0, fun _ => 0⟩, by simpa [Reading.word] using differ⟩
      | datum d => exact ⟨⟨fun _ => y, fun _ => y⟩, other.symm⟩
      | expr e => exact ⟨⟨fun _ => y, fun _ => y⟩, other.symm⟩
  | datum d =>
      cases q with
      | word x =>
          rcases exists_word_ne positive x with ⟨y, other⟩
          exact ⟨⟨fun _ => y, fun _ => y⟩, other⟩
      | datum d' =>
          refine ⟨⟨fun t => if t = d then one else 0, fun _ => 0⟩, ?_⟩
          have apart' : d' ≠ d := fun same => differ (by rw [same])
          simpa [Reading.word, apart'] using apart
      | expr e => exact ⟨⟨fun _ => one, fun _ => 0⟩, apart⟩
  | expr e =>
      cases q with
      | word x =>
          rcases exists_word_ne positive x with ⟨y, other⟩
          exact ⟨⟨fun _ => y, fun _ => y⟩, other⟩
      | datum d => exact ⟨⟨fun _ => 0, fun _ => one⟩, apart⟩
      | expr e' =>
          refine ⟨⟨fun _ => 0, fun t => if t = e then one else 0⟩, ?_⟩
          have apart' : e' ≠ e := fun same => differ (by rw [same])
          simpa [Reading.word, apart'] using apart

end IDAnalysister
