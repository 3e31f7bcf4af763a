import IDAnalysister.Library.Interruption

/-!
# Programs that improve on others

`Improves bad p q`: wherever `p` returns something that is not `bad`, `q` makes the same calls
and returns the same. Where `p` returns something `bad`, `q` may do anything. Bad results that
are never put to use come out as bad results (`Surfaces`), so a program may be improved part by
part: one rule for each way to put programs together.
-/

namespace Effect

namespace Prog

variable {S S' : Signature} {α β σ : Type}

/-- Good executions of `p` are executions of `q`. -/
def Improves (bad : α → Prop) (p q : Prog S α) : Prop := ∀ t a, Exec p t a → ¬ bad a → Exec q t a

/-! ## Interpretations -/

/-- The calls of the second trace implement those of the first. -/
inductive Realizes (impl : (o : S.Op) → Prog S' (S.Ans o)) :
    List (Event S) → List (Event S') → Prop
  | nil : Realizes impl [] []
  | cons {o : S.Op} {r : S.Ans o} {t : List (Event S)} {t₁ t₂ : List (Event S')} :
    Exec (impl o) t₁ r → Realizes impl t t₂ → Realizes impl (⟨o, r⟩ :: t) (t₁ ++ t₂)

/-- An interpreted program executes as the program does, call by call. -/
theorem exec_interpret {impl : (o : S.Op) → Prog S' (S.Ans o)} {p : Prog S α}
    {t : List (Event S')} {a : α} :
    Exec (interpret impl p) t a ↔ ∃ t₀, Exec p t₀ a ∧ Realizes impl t₀ t := by
  constructor
  · intro run
    induction p generalizing t with
    | pure b =>
        obtain ⟨rfl, rfl⟩ := exec_pure.mp run
        exact ⟨[], .pure _, .nil⟩
    | diverge => exact (not_exec_diverge run).elim
    | call o k ih =>
        obtain ⟨t₁, t₂, r, rfl, first, rest⟩ := exec_interpret_call.mp run
        rcases ih r rest with ⟨t₀, run₀, realized⟩
        exact ⟨_, .call run₀, .cons first realized⟩
  · intro given
    rcases given with ⟨t₀, run₀, realized⟩
    induction run₀ generalizing t with
    | pure b =>
        cases realized
        exact .pure _
    | call _ ih =>
        cases realized with
        | cons first rest => exact exec_interpret_call.mpr ⟨_, _, _, rfl, first, ih rest⟩

namespace Improves

variable {bad : α → Prop} {bad' : β → Prop}

theorem refl (p : Prog S α) : Improves bad p p := fun _ _ run _ => run

/-- Whatever comes after a bad result. -/
theorem of_bad {p q : Prog S α} (returns : Returns p bad) : Improves bad p q :=
  fun t a run good => (good (returns t a run)).elim

theorem diverge {q : Prog S α} : Improves bad .diverge q :=
  fun _ _ run _ => (not_exec_diverge run).elim

theorem call {o : S.Op} {k k' : S.Ans o → Prog S α} (each : ∀ r, Improves bad (k r) (k' r)) :
    Improves bad (.call o k) (.call o k') := by
  intro t a run good
  obtain ⟨r, t', rfl, rest⟩ := exec_call.mp run
  exact .call (each r t' a rest good)

theorem bind {p q : Prog S α} {f g : α → Prog S β} (first : Improves bad p q)
    (kept : ∀ a, bad a → Returns (f a) bad') (second : ∀ a, Improves bad' (f a) (g a)) :
    Improves bad' (p.bind f) (q.bind g) := by
  intro t b run good
  obtain ⟨t₁, t₂, a, rfl, run₁, run₂⟩ := exec_bind.mp run
  have used : ¬ bad a := fun lost => good (kept a lost t₂ b run₂)
  exact exec_bind.mpr ⟨t₁, t₂, a, rfl, first t₁ a run₁ used, second a t₂ b run₂ good⟩

theorem traverse {f g : α → Prog S β} {xs : List α}
    (each : ∀ x ∈ xs, Improves bad' (f x) (g x)) :
    Improves (fun ys => ∃ y ∈ ys, bad' y) (Prog.traverse f xs) (Prog.traverse g xs) := by
  induction xs with
  | nil => exact refl _
  | cons x xs ih =>
      refine bind (each x List.mem_cons_self) (fun y lost => ?_) fun y => ?_
      · intro t ys run
        obtain ⟨_, _, zs, -, -, last⟩ := exec_bind.mp run
        obtain ⟨-, rfl⟩ := exec_pure.mp last
        exact ⟨y, List.mem_cons_self, lost⟩
      · refine bind (ih fun z member => each z (List.mem_cons_of_mem x member)) ?_ fun _ => refl _
        intro ys lost
        rcases lost with ⟨z, member, lost⟩
        exact Returns.pure ⟨z, List.mem_cons_of_mem y member, lost⟩

/-- The program improves, and so do the operations it is interpreted by; it swallows no bad
answer of theirs. -/
theorem interpret {impl impl' : (o : S'.Op) → Prog S (S'.Ans o)} {alarm : Event S' → Prop}
    (each : ∀ o, Improves (fun r => alarm ⟨o, r⟩) (impl o) (impl' o)) {p q : Prog S' α}
    (surfaces : Surfaces alarm bad p) (inner : Improves bad p q) :
    Improves bad (Prog.interpret impl p) (Prog.interpret impl' q) := by
  intro t a run good
  rcases exec_interpret.mp run with ⟨t₀, run₀, realized⟩
  refine exec_interpret.mpr ⟨t₀, inner t₀ a run₀ good, ?_⟩
  have quiet : ∀ e ∈ t₀, ¬ alarm e := fun e member loud =>
    good (surfaces t₀ a run₀ ⟨e, member, loud⟩)
  clear run run₀
  induction realized with
  | nil => exact .nil
  | cons first _ ih =>
      rcases List.forall_mem_cons.mp quiet with ⟨here, later⟩
      exact .cons (each _ _ _ first here) (ih later)

/-- Under one interpretation. -/
theorem lift {p q : Prog S' α} (inner : Improves bad p q)
    (impl : (o : S'.Op) → Prog S (S'.Ans o)) :
    Improves bad (Prog.interpret impl p) (Prog.interpret impl q) := by
  intro t a run good
  rcases exec_interpret.mp run with ⟨t₀, run₀, realized⟩
  exact exec_interpret.mpr ⟨t₀, inner t₀ a run₀ good, realized⟩

end Improves

/-! ## Runs -/

theorem answers_of_attempt {handler : Handler S σ} {p : Prog S α} {s s' : σ} {a : α}
    (ran : attempt handler none p s = (some a, s')) :
    ∃ t, Exec p t a ∧ Answers handler s t s' := by
  induction p generalizing s with
  | pure b =>
      cases ran
      exact ⟨[], .pure _, .nil _⟩
  | diverge => cases ran
  | call o k ih =>
      rcases ih _ ran with ⟨t, run, answered⟩
      exact ⟨_, .call run, .cons rfl answered⟩

/-- A run that ends well is a run of the improved program. -/
theorem Improves.attempt {bad : α → Prop} {p q : Prog S α} (improves : Improves bad p q)
    {handler : Handler S σ} {s s' : σ} {a : α}
    (ran : Prog.attempt handler none p s = (some a, s')) (good : ¬ bad a) :
    Prog.attempt handler none q s = (some a, s') := by
  rcases answers_of_attempt ran with ⟨t, run, answered⟩
  exact attempt_of_run (run_eq_some.mpr ⟨improves t a run good, answered⟩)

end Prog

end Effect
