import IDAnalysister.Library.Program

/-!
# Interrupted runs and handlers that answer alike

`attempt handler limit p s` runs `p` from `s` until it returns, or until an exception
escapes after `limit` of its calls. Either way a state is left behind, in which the next
program starts.

`Mimics R h h'` is a simulation of two handlers: from related states they answer every
call alike and stay related. It carries over to whole runs (`attempt_mimics`), also to
interrupted ones. `Implements R impl h h'` is the same for a handler whose operations are
programs over another interface (`attempt_implements`).

`Begins p t` says that the calls of `t` are the first ones of a run of `p`, which a run that is
cut short has made too. `Uses ok p` bounds the operations that any of them can be.
-/

namespace Effect

namespace Prog

variable {S S' : Signature} {α β σ τ : Type}

/-- Run `p`; `some n` raises after `n` calls, unless `p` has returned before. -/
def attempt (handler : Handler S σ) : Option Nat → Prog S α → σ → Option α × σ
  | some 0, _, s => (none, s)
  | _, .pure a, s => (some a, s)
  | _, .diverge, s => (none, s)
  | none, .call o k, s => attempt handler none (k (handler o s).1) (handler o s).2
  | some (n + 1), .call o k, s =>
      attempt handler (some n) (k (handler o s).1) (handler o s).2

section

variable {handler : Handler S σ} {s : σ}

@[simp] theorem attempt_call (o : S.Op) (k : S.Ans o → Prog S α) :
    attempt handler none (.call o k) s = attempt handler none (k (handler o s).1) (handler o s).2 :=
  rfl

/-- What follows a part that returned, if it did. -/
def next (handler : Handler S σ) (f : α → Prog S β) : Option α × σ → Option β × σ
  | (some a, s) => attempt handler none (f a) s
  | (none, s) => (none, s)

/-- A run that is not interrupted goes on with what its first part returned. -/
theorem attempt_bind_eq (p : Prog S α) (f : α → Prog S β) :
    attempt handler none (p.bind f) s = next handler f (attempt handler none p s) := by
  induction p generalizing s with
  | pure a => rfl
  | diverge => rfl
  | call o k ih => exact ih _

theorem attempt_bind {p : Prog S α} {f : α → Prog S β} {a : α} {s' : σ}
    (first : attempt handler none p s = (some a, s')) :
    attempt handler none (p.bind f) s = attempt handler none (f a) s' := by
  rw [attempt_bind_eq, first]
  rfl

/-- A last step that only computes. -/
theorem attempt_map (p : Prog S α) (f : α → β) :
    attempt handler none (p.bind fun a => .pure (f a)) s =
      ((attempt handler none p s).1.map f, (attempt handler none p s).2) := by
  rw [attempt_bind_eq]
  rcases attempt handler none p s with ⟨_ | a, s'⟩ <;> rfl

/-- What a run returns, it returns along a trace. -/
theorem exec_of_attempt {p : Prog S α} {a : α} {s' : σ}
    (ran : attempt handler none p s = (some a, s')) : ∃ t, Exec p t a := by
  induction p generalizing s with
  | pure b =>
      cases ran
      exact ⟨[], .pure _⟩
  | diverge => cases ran
  | call o k ih =>
      rcases ih _ ran with ⟨t, exec⟩
      exact ⟨_, .call exec⟩

theorem attempt_of_run {p : Prog S α} {a : α} {s' : σ} {t : List (Event S)}
    (ran : run handler p s = some (a, s', t)) : attempt handler none p s = (some a, s') := by
  have both := run_eq_some.mp ran
  rcases both with ⟨exec, answers⟩
  clear ran
  induction exec generalizing s with
  | pure b =>
      cases answers
      rfl
  | call _ ih =>
      cases answers with
      | cons answered rest =>
          rw [attempt_call, answered]
          exact ih rest

end

/-! ## The calls made so far -/

/-- The calls of `t` are the first ones of a run of `p`, which may end there or go on. -/
inductive Begins : Prog S α → List (Event S) → Prop
  | start (p : Prog S α) : Begins p []
  | call {o : S.Op} {k : S.Ans o → Prog S α} {r : S.Ans o} {t : List (Event S)} :
    Begins (k r) t → Begins (.call o k) (⟨o, r⟩ :: t)

theorem Exec.begins {p : Prog S α} {t : List (Event S)} {a : α} (run : Exec p t a) :
    Begins p t := by
  induction run with
  | pure a => exact .start _
  | call _ ih => exact .call ih

@[simp] theorem begins_pure {a : α} {t : List (Event S)} : Begins (.pure a) t ↔ t = [] := by
  refine ⟨fun begun => ?_, fun same => same ▸ .start _⟩
  cases begun
  rfl

/-- A sequenced run is still in its first part, or that has returned. -/
theorem Begins.bind_inv {p : Prog S α} {f : α → Prog S β} {t : List (Event S)}
    (begun : Begins (p.bind f) t) :
    Begins p t ∨ ∃ t₁ t₂ a, t = t₁ ++ t₂ ∧ Exec p t₁ a ∧ Begins (f a) t₂ := by
  induction p generalizing t with
  | pure a => exact Or.inr ⟨[], t, a, rfl, .pure a, begun⟩
  | diverge =>
      cases begun
      exact Or.inl (.start _)
  | call o k ih =>
      cases begun with
      | start => exact Or.inl (.start _)
      | call rest =>
          rcases ih _ rest with early | ⟨t₁, t₂, a, rfl, first, late⟩
          · exact Or.inl (.call early)
          · exact Or.inr ⟨_, t₂, a, rfl, .call first, late⟩

/-- What every call keeps, an attempt keeps, wherever it ends. -/
theorem attempt_keeps {handler : Handler S σ} {I : σ → Prop}
    (keeps : ∀ o s, I s → I (handler o s).2) (limit : Option Nat) (p : Prog S α) {s : σ}
    (start : I s) : I (attempt handler limit p s).2 := by
  induction p generalizing s limit with
  | pure a => rcases limit with _ | _ | n <;> exact start
  | diverge => rcases limit with _ | _ | n <;> exact start
  | call o k ih =>
      rcases limit with _ | _ | n
      · exact ih _ none (keeps o s start)
      · exact start
      · exact ih _ (some n) (keeps o s start)

/-- Every call that `p` can make is of an operation that satisfies `ok`. -/
inductive Uses (ok : S.Op → Prop) : Prog S α → Prop
  | pure (a : α) : Uses ok (.pure a)
  | diverge : Uses ok .diverge
  | call {o : S.Op} {k : S.Ans o → Prog S α} : ok o → (∀ r, Uses ok (k r)) → Uses ok (.call o k)

section Uses

variable {ok : S.Op → Prop}

theorem Uses.bind {p : Prog S α} {f : α → Prog S β} (first : Uses ok p)
    (second : ∀ a, Uses ok (f a)) : Uses ok (p.bind f) := by
  induction first with
  | pure a => exact second a
  | diverge => exact .diverge
  | call allowed _ ih => exact .call allowed ih

theorem Uses.interpret {impl : (o : S'.Op) → Prog S (S'.Ans o)} (each : ∀ o, Uses ok (impl o))
    (p : Prog S' α) : Uses ok (interpret impl p) := by
  induction p with
  | pure a => exact .pure a
  | diverge => exact .diverge
  | call o k ih => exact (each o).bind ih

theorem Uses.begins {p : Prog S α} {t : List (Event S)} (uses : Uses ok p) (begun : Begins p t) :
    ∀ e ∈ t, ok e.op := by
  induction begun with
  | start p => simp
  | call _ ih =>
      cases uses with
      | call allowed rest => exact List.forall_mem_cons.mpr ⟨allowed, ih (rest _)⟩

end Uses

/-! ## Simulation -/

/-- From related states the handlers answer alike and stay related. -/
def Mimics (R : σ → τ → Prop) (h : Handler S σ) (h' : Handler S τ) : Prop :=
  ∀ o s s', R s s' → (h o s).1 = (h' o s').1 ∧ R (h o s).2 (h' o s').2

theorem attempt_mimics {R : σ → τ → Prop} {h : Handler S σ} {h' : Handler S τ}
    (mimics : Mimics R h h') (p : Prog S α) (limit : Option Nat) {s : σ} {s' : τ}
    (related : R s s') :
    (attempt h limit p s).1 = (attempt h' limit p s').1 ∧
      R (attempt h limit p s).2 (attempt h' limit p s').2 := by
  induction p generalizing s s' limit with
  | pure a => rcases limit with _ | _ | n <;> exact ⟨rfl, related⟩
  | diverge => rcases limit with _ | _ | n <;> exact ⟨rfl, related⟩
  | call o k ih =>
      rcases mimics o s s' related with ⟨same, next⟩
      rcases limit with _ | _ | n
      · simp only [attempt]
        rw [same]
        exact ih _ none next
      · exact ⟨rfl, related⟩
      · simp only [attempt]
        rw [same]
        exact ih _ (some n) next

/-- Each operation of `h'` is a program that `h` runs to the same answer. -/
def Implements (R : σ → τ → Prop) (impl : (o : S'.Op) → Prog S (S'.Ans o)) (h : Handler S σ)
    (h' : Handler S' τ) : Prop :=
  ∀ o s s', R s s' → ∃ s₁, attempt h none (impl o) s = (some (h' o s').1, s₁) ∧ R s₁ (h' o s').2

theorem attempt_implements {R : σ → τ → Prop} {impl : (o : S'.Op) → Prog S (S'.Ans o)}
    {h : Handler S σ} {h' : Handler S' τ} (implements : Implements R impl h h')
    {p : Prog S' α} {a : α} {s : σ} {s' s₁' : τ} (related : R s s')
    (ran : attempt h' none p s' = (some a, s₁')) :
    ∃ s₁, attempt h none (interpret impl p) s = (some a, s₁) ∧ R s₁ s₁' := by
  induction p generalizing s s' with
  | pure b =>
      cases ran
      exact ⟨s, rfl, related⟩
  | diverge => cases ran
  | call o k ih =>
      rcases implements o s s' related with ⟨s₂, first, next⟩
      rcases ih _ next ran with ⟨s₁, rest, last⟩
      exact ⟨s₁, (attempt_bind first).trans rest, last⟩

end Prog

end Effect
