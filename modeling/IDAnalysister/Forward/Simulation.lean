import IDAnalysister.Forward.Transfer
import IDAnalysister.Layout

/-!
# Simulating a block is running its instructions

`_simulate_block` decodes as it goes, skipping bytes that do not decode. Which
instructions it meets depends on the addresses alone: `Sweep` lists them, and a
simulation that is not cut short applies them in turn.
-/

namespace IDAnalysister

/-- The instructions met from `ea` on, up to `stop`. -/
inductive Sweep (port : IdaPort) (stop : Nat) : Nat → List Instruction → Prop
  | done {ea : Nat} : stop ≤ ea → Sweep port stop ea []
  | gap {ea : Nat} {is : List Instruction} : ea < stop → port.decodeAt ea = none →
    Sweep port stop (ea + 1) is → Sweep port stop ea is
  | decoded {ea : Nat} {i : Instruction} {is : List Instruction} : ea < stop →
    port.decodeAt ea = some i → Sweep port stop i.nextEa is → Sweep port stop ea (i :: is)

section Sweep

variable {port : IdaPort} {stop ea lo hi : Nat} {is js : List Instruction}

theorem Sweep.of_past (past : stop ≤ ea) (sweep : Sweep port stop ea is) : is = [] := by
  cases sweep with
  | done => rfl
  | gap below => omega
  | decoded below => omega

theorem Sweep.of_gap (below : ea < stop) (missing : port.decodeAt ea = none)
    (sweep : Sweep port stop ea is) : Sweep port stop (ea + 1) is := by
  cases sweep with
  | done past => omega
  | gap _ _ rest => exact rest
  | decoded _ found =>
      rw [missing] at found
      cases found

theorem Sweep.of_decoded {i : Instruction} (below : ea < stop) (found : port.decodeAt ea = some i)
    (sweep : Sweep port stop ea is) : ∃ js, is = i :: js ∧ Sweep port stop i.nextEa js := by
  cases sweep with
  | done past => omega
  | gap _ missing =>
      rw [missing] at found
      cases found
  | decoded _ found' rest =>
      rw [found] at found'
      cases found'
      exact ⟨_, rfl, rest⟩

theorem Sweep.unique (left : Sweep port stop ea is) (right : Sweep port stop ea js) : is = js := by
  induction left generalizing js with
  | done past => exact (right.of_past past).symm
  | gap below missing _ ih => exact ih (right.of_gap below missing)
  | decoded below found _ ih =>
      rcases right.of_decoded below found with ⟨js, rfl, rest⟩
      rw [ih rest]

/-- The instructions of a tiled row, up to any address in it. -/
theorem Tiles.sweep (tiles : Tiles lo is hi) (decoded : ∀ i ∈ is, port.decodeAt i.ea = some i)
    (le : stop ≤ hi) : Sweep port stop lo (before is stop) := by
  induction tiles with
  | nil => exact .done le
  | @cons i is hi positive rest ih =>
      have later := ih (fun j member => decoded j (by simp [member])) le
      by_cases below : i.ea < stop
      · have head : before (i :: is) stop = i :: before is stop := by simp [before, below]
        rw [head]
        exact .decoded below (decoded i (by simp)) later
      · have tiles := Tiles.cons positive rest
        rw [tiles.before_eq_nil (by omega)]
        exact .done (by omega)

open Classical in
/-- The instructions met from `ea` on, if the sweep ends. -/
noncomputable def sweepOf (port : IdaPort) (stop ea : Nat) : List Instruction :=
  if ends : ∃ is, Sweep port stop ea is then ends.choose else []

theorem Sweep.sweepOf_eq (sweep : Sweep port stop ea is) : sweepOf port stop ea = is := by
  have ends : ∃ is, Sweep port stop ea is := ⟨is, sweep⟩
  rw [sweepOf, dif_pos ends]
  exact ends.choose_spec.unique sweep

end Sweep

namespace ForwardSymbolicEngine

open AbstractState

variable (self : ForwardSymbolicEngine)

/-- Running instructions one after the other. -/
def runSteps (funcEa : Nat) (is : List Instruction) (s : AbstractState) : AbstractState :=
  is.foldl (fun s i => self.step i s funcEa) s

variable {self} {funcEa : Nat} {is js : List Instruction}

theorem runSteps_cons (i : Instruction) (s : AbstractState) :
    self.runSteps funcEa (i :: is) s = self.runSteps funcEa is (self.step i s funcEa) := rfl

theorem runSteps_append (s : AbstractState) :
    self.runSteps funcEa (is ++ js) s = self.runSteps funcEa js (self.runSteps funcEa is s) :=
  List.foldl_append

theorem runSteps_tame (builtin : self.registry = defaultRegistry) (funcEa : Nat)
    (is : List Instruction) :
    Tame (fun l => ∃ i ∈ is, self.Occurs funcEa i l) (self.runSteps funcEa is) := by
  apply Tame.foldl
  intro i member
  exact (step_tame builtin funcEa i).weaken fun l occurs => ⟨i, member, occurs⟩

/-! ## The simulation loop -/

theorem exceeds_mono {limit : Option Nat} {m n : Nat} (le : m ≤ n)
    (within : exceeds limit n = false) : exceeds limit m = false := by
  cases limit with
  | none => rfl
  | some limit =>
      simp only [exceeds, Option.any_some, decide_eq_false_iff_not] at within ⊢
      omega

variable (self funcEa) in
/-- What the loop goes through up to what it returns, whatever its bound. -/
inductive Simulated (stop : Nat) :
    Nat → Nat → AbstractState → AbstractState × Nat × Bool → Prop
  | done {ea used : Nat} {s : AbstractState} : stop ≤ ea → Simulated stop ea used s (s, used, false)
  | gap {ea used : Nat} {s : AbstractState} {result : AbstractState × Nat × Bool} :
    ea < stop → self.port.decodeAt ea = none → Simulated stop (ea + 1) used s result →
    Simulated stop ea used s result
  | capped {ea used : Nat} {s : AbstractState} {i : Instruction} :
    ea < stop → self.port.decodeAt ea = some i → exceeds self.maxInstructions (used + 1) = true →
    Simulated stop ea used s (s, used + 1, true)
  | decoded {ea used : Nat} {s : AbstractState} {i : Instruction}
    {result : AbstractState × Nat × Bool} :
    ea < stop → self.port.decodeAt ea = some i → exceeds self.maxInstructions (used + 1) = false →
    Simulated stop i.nextEa (used + 1) (self.step i s funcEa) result →
    Simulated stop ea used s result

section Simulated

variable {stop bound ea used used' : Nat} {s s' : AbstractState}
variable {result : AbstractState × Nat × Bool}

theorem simulated_of_simulate
    (simulated : self.simulate funcEa stop bound ea used s = some result) :
    self.Simulated funcEa stop ea used s result := by
  induction bound generalizing ea used s with
  | zero =>
      unfold simulate at simulated
      split at simulated
      · rename_i past
        cases simulated
        exact .done past
      · cases simulated
  | succ bound ih =>
      unfold simulate at simulated
      split at simulated
      · rename_i past
        cases simulated
        exact .done past
      · rename_i before
        have below : ea < stop := Nat.lt_of_not_le before
        split at simulated
        · rename_i missing
          exact .gap below missing (ih simulated)
        · rename_i i found
          split at simulated
          · rename_i beyond
            cases simulated
            exact .capped below found beyond
          · rename_i within
            exact .decoded below found (by simpa using within) (ih simulated)

/-- A simulation that is not cut short has swept over instructions, which it counts and runs. -/
theorem Simulated.sweeps (run : self.Simulated funcEa stop ea used s result)
    (whole : result.2.2 = false) :
    ∃ is, Sweep self.port stop ea is ∧ result.1 = self.runSteps funcEa is s ∧
      result.2.1 = used + is.length ∧
      (is ≠ [] → exceeds self.maxInstructions result.2.1 = false) := by
  induction run with
  | done past => exact ⟨[], .done past, rfl, rfl, fun nonempty => (nonempty rfl).elim⟩
  | gap below missing _ ih =>
      rcases ih whole with ⟨is, sweep, ran, count, fits⟩
      exact ⟨is, .gap below missing sweep, ran, count, fits⟩
  | capped => cases whole
  | @decoded ea used s i result below found within _ ih =>
      rcases ih whole with ⟨is, sweep, ran, count, fits⟩
      have total : result.2.1 = used + (i :: is).length := by
        rw [count, List.length_cons]
        omega
      refine ⟨i :: is, .decoded below found sweep, ran, total, fun _ => ?_⟩
      cases is with
      | nil =>
          rw [total]
          simpa using within
      | cons j js => exact fits (by simp)

/-- A simulation whose instructions fit the limit is not cut short. -/
theorem Simulated.whole_of_fits (run : self.Simulated funcEa stop ea used s result)
    (sweep : Sweep self.port stop ea is)
    (fits : exceeds self.maxInstructions (used + is.length) = false) : result.2.2 = false := by
  induction run generalizing is with
  | done => rfl
  | gap below missing _ ih => exact ih (sweep.of_gap below missing) fits
  | @capped ea used s i below found beyond =>
      rcases sweep.of_decoded below found with ⟨js, rfl, -⟩
      have counted : used + 1 ≤ used + (i :: js).length := by
        rw [List.length_cons]
        omega
      rw [exceeds_mono counted fits] at beyond
      cases beyond
  | @decoded ea used s i result below found _ _ ih =>
      rcases sweep.of_decoded below found with ⟨js, rfl, rest⟩
      have total : used + 1 + js.length = used + (i :: js).length := by
        rw [List.length_cons]
        omega
      exact ih rest (total ▸ fits)

/-- A simulation that is not cut short runs the instructions it sweeps over. -/
theorem simulate_eq_runSteps
    (simulated : self.simulate funcEa stop bound ea used s = some (s', used', false)) :
    ∃ is, Sweep self.port stop ea is ∧ s' = self.runSteps funcEa is s := by
  rcases (simulated_of_simulate simulated).sweeps rfl with ⟨is, sweep, ran, -⟩
  exact ⟨is, sweep, ran⟩

/-- A simulation that is not cut short counts each instruction it runs. -/
theorem simulate_used (sweep : Sweep self.port stop ea is)
    (simulated : self.simulate funcEa stop bound ea used s = some (s', used', false)) :
    used' = used + is.length ∧ (is ≠ [] → exceeds self.maxInstructions used' = false) := by
  rcases (simulated_of_simulate simulated).sweeps rfl with ⟨js, sweep', -, count, fits⟩
  obtain rfl := sweep.unique sweep'
  exact ⟨count, fits⟩

/-- A simulation whose instructions fit the limit runs them all. -/
theorem simulate_of_fits (sweep : Sweep self.port stop ea is)
    (fits : exceeds self.maxInstructions (used + is.length) = false)
    (simulated : self.simulate funcEa stop bound ea used s = some result) :
    result = (self.runSteps funcEa is s, used + is.length, false) := by
  have run := simulated_of_simulate simulated
  have whole := run.whole_of_fits sweep fits
  rcases run.sweeps whole with ⟨js, sweep', ran, count, -⟩
  obtain rfl := sweep.unique sweep'
  rw [← ran, ← count, ← whole]

/-- Without a limit on instructions, no simulation is cut short. -/
theorem simulate_unbounded (unlimited : self.maxInstructions = none)
    (simulated : self.simulate funcEa stop bound ea used s = some result) :
    result.2.2 = false := by
  have run := simulated_of_simulate simulated
  clear simulated
  induction run with
  | done => rfl
  | gap _ _ _ ih => exact ih
  | capped _ _ beyond =>
      rw [unlimited] at beyond
      cases beyond
  | decoded _ _ _ _ ih => exact ih

end Simulated

/-- Where a simulation is not cut short, one that stops earlier returns too. -/
theorem exists_simulate_of_le {stop stop' bound ea used used' : Nat} {s out : AbstractState}
    (earlier : stop' ≤ stop)
    (simulated : self.simulate funcEa stop bound ea used s = some (out, used', false))
    (count : Nat) (t : AbstractState) :
    ∃ result, self.simulate funcEa stop' bound ea count t = some result := by
  induction bound generalizing ea used s count t with
  | zero =>
      unfold simulate at simulated
      split at simulated
      · exact ⟨_, by rw [simulate, if_pos (by omega)]⟩
      · cases simulated
  | succ bound ih =>
      unfold simulate at simulated
      split at simulated
      · exact ⟨_, by rw [simulate, if_pos (by omega)]⟩
      · by_cases past : stop' ≤ ea
        · exact ⟨_, by rw [simulate, if_pos past]⟩
        · rw [simulate, if_neg past]
          cases decoded : self.port.decodeAt ea with
          | none =>
              rw [decoded] at simulated
              exact ih simulated count t
          | some i =>
              rw [decoded] at simulated
              dsimp only at simulated ⊢
              split at simulated
              · cases simulated
              · split
                · exact ⟨_, rfl⟩
                · exact ih simulated (count + 1) _

/-- Where every decoded instruction has a size, a simulation returns. -/
theorem exists_simulate (decodes : ∀ ea i, self.port.decodeAt ea = some i → ea < i.nextEa)
    {stop bound ea : Nat} (enough : stop - ea ≤ bound) (used : Nat) (s : AbstractState) :
    ∃ result, self.simulate funcEa stop bound ea used s = some result := by
  induction bound generalizing ea used s with
  | zero =>
      have past : stop ≤ ea := by omega
      exact ⟨_, by rw [simulate, if_pos past]⟩
  | succ bound ih =>
      by_cases past : stop ≤ ea
      · exact ⟨_, by rw [simulate, if_pos past]⟩
      · rw [simulate, if_neg past]
        cases decoded : self.port.decodeAt ea with
        | none => exact ih (by omega) used s
        | some i =>
            have ahead := decodes ea i decoded
            dsimp only
            split
            · exact ⟨_, rfl⟩
            · exact ih (by omega) (used + 1) _

/-- A simulation that returns within a bound returns the same within a larger one. -/
theorem simulate_mono {stop bound limit ea used : Nat} {s : AbstractState}
    {result : AbstractState × Nat × Bool} (le : bound ≤ limit)
    (simulated : self.simulate funcEa stop bound ea used s = some result) :
    self.simulate funcEa stop limit ea used s = some result := by
  induction bound generalizing ea used s limit with
  | zero =>
      unfold simulate at simulated
      split at simulated
      · rename_i past
        cases limit with
        | zero => rwa [simulate, if_pos past]
        | succ limit => rwa [simulate, if_pos past]
      · cases simulated
  | succ bound ih =>
      cases limit with
      | zero => omega
      | succ limit =>
          have smaller : bound ≤ limit := by omega
          unfold simulate at simulated ⊢
          split at simulated
          · rename_i past
            rwa [if_pos past]
          · rename_i more
            rw [if_neg more]
            cases decoded : self.port.decodeAt ea with
            | none =>
                rw [decoded] at simulated
                exact ih smaller simulated
            | some i =>
                rw [decoded] at simulated
                dsimp only at simulated ⊢
                split at simulated
                · rename_i capped
                  rwa [if_pos capped]
                · rename_i within
                  rw [if_neg within]
                  exact ih smaller simulated

/-- What is swept over is run, when it fits the limit on instructions. -/
theorem exists_simulate_sweep {stop ea : Nat} (sweep : Sweep self.port stop ea is) (used : Nat)
    (fits : exceeds self.maxInstructions (used + is.length) = false) (funcEa : Nat)
    (s : AbstractState) : ∃ bound, self.simulate funcEa stop bound ea used s =
      some (self.runSteps funcEa is s, used + is.length, false) := by
  induction sweep generalizing used s with
  | done past => exact ⟨0, by rw [simulate, if_pos past]; rfl⟩
  | @gap ea is below missing _ ih =>
      rcases ih used fits s with ⟨bound, simulated⟩
      refine ⟨bound + 1, ?_⟩
      rw [simulate, if_neg (by omega), missing]
      exact simulated
  | @decoded ea i is below found _ ih =>
      have count : used + (i :: is).length = used + 1 + is.length := by
        rw [List.length_cons]
        omega
      rw [count] at fits ⊢
      rcases ih (used + 1) fits (self.step i s funcEa) with ⟨bound, simulated⟩
      refine ⟨bound + 1, ?_⟩
      rw [simulate, if_neg (by omega), found]
      dsimp only
      rw [exceeds_mono (by omega) fits, if_neg Bool.false_ne_true]
      exact simulated

end ForwardSymbolicEngine

end IDAnalysister
