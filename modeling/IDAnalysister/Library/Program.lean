import Mathlib.Algebra.Ring.Int.Defs
import Mathlib.Data.List.Forall2

/-!
# Programs over an interface

A `Prog` is a finite-depth computation that may call the operations of a
`Signature` and continue with the answer it receives. Its readings:

* `Exec p t a`: `p` can return `a` when the calls it makes are answered as the
  trace `t` records. No state is involved, so a statement about every trace is
  a statement about every environment.
* `Solvent w credit p` and `Surfaces alarm bad p` are two properties of all those
  executions: what the calls earn pays for what they cost, and an alarming answer
  is never swallowed.
* `run handler p s`: the answers come from a stateful handler; `run_eq_some`
  identifies a run with an execution whose trace the handler produces.
* `Approx p q`: `q` behaves as `p` wherever `p` returns. `diverge` stands for a
  computation that was cut off, so raising a recursion bound only moves a
  program up this order.
-/

namespace Effect

/-- An interface: operations, and the type of answer each one receives. -/
structure Signature where
  Op : Type
  Ans : Op → Type

/-- A computation over the interface `S` with results in `α`. -/
inductive Prog (S : Signature) (α : Type) : Type
  | pure (a : α)
  | diverge
  | call (o : S.Op) (k : S.Ans o → Prog S α)

/-- One call together with the answer it received. -/
structure Event (S : Signature) where
  op : S.Op
  ans : S.Ans op

variable {S S' : Signature} {α β σ : Type}

namespace Prog

/-- Sequencing. -/
def bind : Prog S α → (α → Prog S β) → Prog S β
  | .pure a, f => f a
  | .diverge, _ => .diverge
  | .call o k, f => .call o fun r => (k r).bind f

instance : Monad (Prog S) where
  pure := Prog.pure
  bind := Prog.bind

/-- The program that performs one operation. -/
def perform (o : S.Op) : Prog S (S.Ans o) := .call o .pure

/-- Run a program on every element of a list, left to right. -/
def traverse (f : α → Prog S β) : List α → Prog S (List β)
  | [] => pure []
  | x :: xs => do
      let y ← f x
      let ys ← traverse f xs
      pure (y :: ys)

/-- Replace every operation by a program over another interface. -/
def interpret (impl : (o : S.Op) → Prog S' (S.Ans o)) : Prog S α → Prog S' α
  | .pure a => .pure a
  | .diverge => .diverge
  | .call o k => (impl o).bind fun r => interpret impl (k r)

/-- A program that was never cut off: it returns after finitely many calls
whatever it is answered. -/
inductive Total : Prog S α → Prop
  | pure (a : α) : Total (.pure a)
  | call {o : S.Op} {k : S.Ans o → Prog S α} : (∀ r, Total (k r)) → Total (.call o k)

@[simp] theorem bind_eq (p : Prog S α) (f : α → Prog S β) : p >>= f = p.bind f := rfl

@[simp] theorem pure_eq (a : α) : (pure a : Prog S α) = .pure a := rfl

@[simp] theorem bind_pure_left (a : α) (f : α → Prog S β) : (Prog.pure a).bind f = f a := rfl

@[simp] theorem perform_bind (o : S.Op) (f : S.Ans o → Prog S β) :
    (perform o).bind f = .call o f := rfl

/-- Sequencing is associative. -/
theorem bind_bind {γ : Type} (p : Prog S α) (f : α → Prog S β) (g : β → Prog S γ) :
    (p.bind f).bind g = p.bind fun a => (f a).bind g := by
  induction p with
  | pure a => rfl
  | diverge => rfl
  | call o k ih => exact congrArg (Prog.call o) (funext ih)

/-- A program is total when both of its parts are. -/
theorem Total.bind {p : Prog S α} {f : α → Prog S β} (first : Total p)
    (second : ∀ a, Total (f a)) : Total (p.bind f) := by
  induction first with
  | pure a => exact second a
  | call _ ih => exact .call ih

/-! ## Executions along a trace -/

/-- `p` returns `a` when its calls are answered as `t` records. -/
inductive Exec : Prog S α → List (Event S) → α → Prop
  | pure (a : α) : Exec (.pure a) [] a
  | call {o : S.Op} {k : S.Ans o → Prog S α} {r : S.Ans o} {t : List (Event S)} {a : α} :
    Exec (k r) t a → Exec (.call o k) (⟨o, r⟩ :: t) a

@[simp] theorem exec_pure {a b : α} {t : List (Event S)} :
    Exec (.pure a) t b ↔ t = [] ∧ b = a := by
  constructor
  · intro h
    cases h
    exact ⟨rfl, rfl⟩
  · intro given
    rcases given with ⟨rfl, rfl⟩
    exact .pure _

@[simp] theorem not_exec_diverge {t : List (Event S)} {a : α} :
    ¬ Exec (.diverge : Prog S α) t a := by
  intro h
  cases h

/-- An execution that starts with an operation goes on with some answer to it. -/
theorem exec_call {o : S.Op} {k : S.Ans o → Prog S α} {t : List (Event S)} {a : α} :
    Exec (.call o k) t a ↔ ∃ r t', t = ⟨o, r⟩ :: t' ∧ Exec (k r) t' a := by
  constructor
  · intro h
    cases h with
    | call rest => exact ⟨_, _, rfl, rest⟩
  · intro given
    rcases given with ⟨r, t', rfl, rest⟩
    exact .call rest

/-- A sequenced execution is an execution of each part, in order. -/
theorem exec_bind {p : Prog S α} {f : α → Prog S β} {t : List (Event S)} {b : β} :
    Exec (p.bind f) t b ↔ ∃ t₁ t₂ a, t = t₁ ++ t₂ ∧ Exec p t₁ a ∧ Exec (f a) t₂ b := by
  constructor
  · intro h
    induction p generalizing t with
    | pure a => exact ⟨[], t, a, rfl, .pure a, h⟩
    | diverge => exact (not_exec_diverge h).elim
    | call o k ih =>
        obtain ⟨r, t', rfl, rest⟩ := exec_call.mp h
        obtain ⟨t₁, t₂, a, rfl, first, second⟩ := ih r rest
        exact ⟨_, t₂, a, rfl, .call first, second⟩
  · intro given
    rcases given with ⟨t₁, t₂, a, rfl, first, second⟩
    induction first with
    | pure a => exact second
    | call _ ih => exact .call (ih second)

/-- An interpreted operation is executed first, and the rest with its answer. -/
theorem exec_interpret_call {impl : (o : S.Op) → Prog S' (S.Ans o)} {o : S.Op}
    {k : S.Ans o → Prog S α} {t : List (Event S')} {a : α} :
    Exec (interpret impl (.call o k)) t a ↔
      ∃ t₁ t₂ r, t = t₁ ++ t₂ ∧ Exec (impl o) t₁ r ∧ Exec (interpret impl (k r)) t₂ a :=
  exec_bind

/-- A traversal runs its body on every element, each time on a part of the trace. -/
theorem exec_traverse {f : α → Prog S β} {xs : List α} {t : List (Event S)} {ys : List β}
    (h : Exec (traverse f xs) t ys) :
    List.Forall₂ (fun x y => ∃ t' ⊆ t, Exec (f x) t' y) xs ys := by
  induction xs generalizing t ys with
  | nil =>
      obtain ⟨-, rfl⟩ := exec_pure.mp h
      exact .nil
  | cons x xs ih =>
      obtain ⟨t₁, t₂, y, rfl, first, h⟩ := exec_bind.mp h
      obtain ⟨t₂, t₃, zs, rfl, rest, last⟩ := exec_bind.mp h
      obtain ⟨rfl, rfl⟩ := exec_pure.mp last
      refine .cons ⟨t₁, by simp, first⟩ ((ih rest).imp fun x y ⟨t', sub, run⟩ => ?_)
      exact ⟨t', fun e member => by simp [sub member], run⟩

/-! ## Accounting along a trace

A weight charges some events and lets others earn. `Solvent w credit p` says that,
started with `credit`, no execution of `p` ends in debt. -/

/-- The balance of a trace. -/
def balance (w : Event S → Int) (t : List (Event S)) : Int := (t.map w).sum

@[simp] theorem balance_nil (w : Event S → Int) : balance w [] = 0 := rfl

@[simp] theorem balance_cons (w : Event S → Int) (e : Event S) (t : List (Event S)) :
    balance w (e :: t) = w e + balance w t := by
  simp [balance]

@[simp] theorem balance_append (w : Event S → Int) (t₁ t₂ : List (Event S)) :
    balance w (t₁ ++ t₂) = balance w t₁ + balance w t₂ := by
  simp [balance]

/-- One unit earned by some events and charged for others. -/
def tariff (earns costs : Event S → Bool) (e : Event S) : Int :=
  (if earns e then 1 else 0) - (if costs e then 1 else 0)

/-- Under a tariff the balance is what was earned less what was spent. -/
theorem balance_tariff (earns costs : Event S → Bool) (t : List (Event S)) :
    balance (tariff earns costs) t = (t.countP earns : Int) - t.countP costs := by
  induction t with
  | nil => rfl
  | cons e t ih =>
      rw [balance_cons, ih, tariff, List.countP_cons, List.countP_cons]
      split <;> split <;> omega

/-- Every execution of `p` costs at most `credit` more than it earns. -/
def Solvent (w : Event S → Int) (credit : Int) (p : Prog S α) : Prop :=
  ∀ t a, Exec p t a → 0 ≤ credit + balance w t

section Solvent

variable {w : Event S → Int} {credit : Int}

theorem Solvent.pure {a : α} (enough : 0 ≤ credit) : Solvent w credit (.pure a) := by
  intro t b run
  obtain ⟨rfl, -⟩ := exec_pure.mp run
  simpa using enough

theorem Solvent.diverge : Solvent w credit (.diverge : Prog S α) :=
  fun _ _ run => (not_exec_diverge run).elim

/-- What a call earns is credit for what follows it. -/
theorem Solvent.call {o : S.Op} {k : S.Ans o → Prog S α}
    (each : ∀ r, Solvent w (credit + w ⟨o, r⟩) (k r)) : Solvent w credit (.call o k) := by
  intro t a run
  obtain ⟨r, t', rfl, rest⟩ := exec_call.mp run
  have after := each r t' a rest
  rw [balance_cons]
  omega

/-- Credit that covers the first part covers both, when the second needs none. -/
theorem Solvent.bind {p : Prog S α} {f : α → Prog S β} (first : Solvent w credit p)
    (second : ∀ a, Solvent w 0 (f a)) : Solvent w credit (p.bind f) := by
  intro t b run
  obtain ⟨t₁, t₂, a, rfl, run₁, run₂⟩ := exec_bind.mp run
  have before := first t₁ a run₁
  have after := second a t₂ b run₂
  rw [balance_append]
  omega

/-- A traversal needs no credit when none of its members does. -/
theorem Solvent.traverse {f : α → Prog S β} {xs : List α}
    (each : ∀ x ∈ xs, Solvent w 0 (f x)) : Solvent w 0 (Prog.traverse f xs) := by
  induction xs with
  | nil => exact Solvent.pure (Int.le_refl 0)
  | cons x xs ih =>
      refine Solvent.bind (each x (by simp)) fun y => ?_
      refine Solvent.bind (ih fun z member => each z (by simp [member])) fun ys => ?_
      exact Solvent.pure (Int.le_refl 0)

/-- Interpreting each operation without credit interprets the whole program without. -/
theorem Solvent.interpret {S₀ : Signature} {impl : (o : S₀.Op) → Prog S (S₀.Ans o)}
    (each : ∀ o, Solvent w 0 (impl o)) : ∀ p : Prog S₀ α, Solvent w 0 (Prog.interpret impl p)
  | .pure _ => Solvent.pure (Int.le_refl 0)
  | .diverge => Solvent.diverge
  | .call o k => Solvent.bind (each o) fun r => Solvent.interpret each (k r)

/-- More credit does not hurt. -/
theorem Solvent.mono {p : Prog S α} {credit' : Int} (h : Solvent w credit p)
    (more : credit ≤ credit') : Solvent w credit' p := by
  intro t a run
  have enough := h t a run
  omega

end Solvent

/-! ## Events that must show in the result -/

/-- Whatever it is answered, `p` returns only results that satisfy `good`. -/
def Returns (p : Prog S α) (good : α → Prop) : Prop := ∀ t a, Exec p t a → good a

theorem Returns.pure {good : α → Prop} {a : α} (holds : good a) :
    Returns (.pure a : Prog S α) good := by
  intro t b run
  obtain ⟨-, rfl⟩ := exec_pure.mp run
  exact holds

/-- An execution in which an event satisfies `alarm` has a result that satisfies
`bad`: nothing in `p` swallows it. -/
def Surfaces (alarm : Event S → Prop) (bad : α → Prop) (p : Prog S α) : Prop :=
  ∀ t a, Exec p t a → (∃ e ∈ t, alarm e) → bad a

section Surfaces

variable {alarm : Event S → Prop} {bad : α → Prop} {bad' : β → Prop}

theorem Surfaces.pure {a : α} : Surfaces alarm bad (.pure a) := by
  intro t b run given
  rcases given with ⟨e, member, -⟩
  obtain ⟨rfl, -⟩ := exec_pure.mp run
  cases member

theorem Surfaces.diverge : Surfaces alarm bad (.diverge : Prog S α) :=
  fun _ _ run => (not_exec_diverge run).elim

/-- An alarm at the first operation surfaces, and so does one later. -/
theorem Surfaces.call {o : S.Op} {k : S.Ans o → Prog S α}
    (raised : ∀ r, alarm ⟨o, r⟩ → Returns (k r) bad) (rest : ∀ r, Surfaces alarm bad (k r)) :
    Surfaces alarm bad (.call o k) := by
  intro t a run given
  rcases given with ⟨e, member, loud⟩
  obtain ⟨r, t', rfl, run'⟩ := exec_call.mp run
  rcases List.mem_cons.mp member with rfl | later
  · exact raised r loud t' a run'
  · exact rest r t' a run' ⟨e, later, loud⟩

/-- What has surfaced in the first part survives the second. -/
theorem Surfaces.bind {p : Prog S α} {f : α → Prog S β} (first : Surfaces alarm bad p)
    (kept : ∀ a, bad a → Returns (f a) bad') (second : ∀ a, Surfaces alarm bad' (f a)) :
    Surfaces alarm bad' (p.bind f) := by
  intro t b run given
  rcases given with ⟨e, member, loud⟩
  obtain ⟨t₁, t₂, a, rfl, run₁, run₂⟩ := exec_bind.mp run
  rcases List.mem_append.mp member with early | late
  · exact kept a (first t₁ a run₁ ⟨e, early, loud⟩) t₂ b run₂
  · exact second a t₂ b run₂ ⟨e, late, loud⟩

/-- An alarm in a traversal surfaces in one of the results. -/
theorem Surfaces.traverse {f : α → Prog S β} {xs : List α}
    (each : ∀ x ∈ xs, Surfaces alarm bad' (f x)) :
    Surfaces alarm (fun ys => ∃ y ∈ ys, bad' y) (Prog.traverse f xs) := by
  induction xs with
  | nil => exact Surfaces.pure
  | cons x xs ih =>
      refine Surfaces.bind (each x (by simp)) (fun y loud => ?_) fun y => ?_
      · intro t ys run
        obtain ⟨_, _, zs, -, -, last⟩ := exec_bind.mp run
        obtain ⟨-, rfl⟩ := exec_pure.mp last
        exact ⟨y, by simp, loud⟩
      · refine Surfaces.bind (ih fun z member => each z (by simp [member])) ?_ fun ys => ?_
        · intro ys given
          rcases given with ⟨z, member, loud⟩
          exact Returns.pure ⟨z, by simp [member], loud⟩
        · exact Surfaces.pure

/-- An alarm of an implementation becomes an alarm of the operation it implements. -/
theorem Surfaces.interpret {S₀ : Signature} {impl : (o : S₀.Op) → Prog S (S₀.Ans o)}
    {alarm₀ : Event S₀ → Prop} (each : ∀ o, Surfaces alarm (fun r => alarm₀ ⟨o, r⟩) (impl o))
    {p : Prog S₀ α} (outer : Surfaces alarm₀ bad p) :
    Surfaces alarm bad (Prog.interpret impl p) := by
  -- an execution of the interpretation comes from one of `p`
  have lift : ∀ {p : Prog S₀ α} {t : List (Event S)} {a : α}, Exec (Prog.interpret impl p) t a →
      ∃ t₀, Exec p t₀ a ∧ ((∃ e ∈ t, alarm e) → ∃ e ∈ t₀, alarm₀ e) := by
    intro p
    induction p with
    | pure b =>
        intro t a run
        obtain ⟨rfl, rfl⟩ := exec_pure.mp run
        exact ⟨[], .pure _, by simp⟩
    | diverge => exact fun run => (not_exec_diverge run).elim
    | call o k ih =>
        intro t a run
        obtain ⟨t₁, t₂, r, rfl, first, rest⟩ := exec_interpret_call.mp run
        obtain ⟨t₀, run₀, reflects⟩ := ih r rest
        refine ⟨⟨o, r⟩ :: t₀, .call run₀, ?_⟩
        intro given
        rcases given with ⟨e, member, loud⟩
        rcases List.mem_append.mp member with early | late
        · exact ⟨_, List.mem_cons_self, each o t₁ r first ⟨e, early, loud⟩⟩
        · obtain ⟨e₀, member₀, loud₀⟩ := reflects ⟨e, late, loud⟩
          exact ⟨e₀, List.mem_cons_of_mem _ member₀, loud₀⟩
  intro t a run loud
  obtain ⟨t₀, run₀, reflects⟩ := lift run
  exact outer t₀ a run₀ (reflects loud)

end Surfaces

/-! ## Stateful handlers -/

/-- A handler answers each operation from its state. -/
abbrev Handler (S : Signature) (σ : Type) := (o : S.Op) → σ → S.Ans o × σ

/-- Run a program against a handler; `none` when the program was cut off. -/
def run (handler : Handler S σ) : Prog S α → σ → Option (α × σ × List (Event S))
  | .pure a, s => some (a, s, [])
  | .diverge, _ => none
  | .call o k, s =>
      let (r, s') := handler o s
      (run handler (k r) s').map fun (a, s'', t) => (a, s'', ⟨o, r⟩ :: t)

/-- The handler, started in `s`, gives the answers of `t` and ends in `s'`. -/
inductive Answers (handler : Handler S σ) : σ → List (Event S) → σ → Prop
  | nil (s : σ) : Answers handler s [] s
  | cons {s s' s'' : σ} {o : S.Op} {r : S.Ans o} {t : List (Event S)} :
    handler o s = (r, s') → Answers handler s' t s'' → Answers handler s (⟨o, r⟩ :: t) s''

/-- A trace that is answered can be cut anywhere. -/
theorem Answers.append_inv {handler : Handler S σ} {t₁ t₂ : List (Event S)} {s s'' : σ}
    (h : Answers handler s (t₁ ++ t₂) s'') :
    ∃ s', Answers handler s t₁ s' ∧ Answers handler s' t₂ s'' := by
  induction t₁ generalizing s with
  | nil => exact ⟨s, .nil s, h⟩
  | cons e t₁ ih =>
      cases h with
      | cons first rest =>
          obtain ⟨s', left, right⟩ := ih rest
          exact ⟨s', .cons first left, right⟩

/-- A run returns what an execution returns whose trace the handler answers. -/
theorem run_eq_some {handler : Handler S σ} {p : Prog S α} {s s' : σ} {a : α}
    {t : List (Event S)} :
    run handler p s = some (a, s', t) ↔ Exec p t a ∧ Answers handler s t s' := by
  induction p generalizing s t with
  | pure b =>
      simp only [run, Option.some.injEq, Prod.mk.injEq, exec_pure]
      constructor
      · intro given
        rcases given with ⟨rfl, rfl, rfl⟩
        exact ⟨⟨rfl, rfl⟩, .nil s⟩
      · intro given
        rcases given with ⟨⟨rfl, rfl⟩, answered⟩
        cases answered
        exact ⟨rfl, rfl, rfl⟩
  | diverge => simp [run]
  | call o k ih =>
      simp only [run, Option.map_eq_some_iff, Prod.exists, Prod.mk.injEq]
      constructor
      · intro given
        rcases given with ⟨b, s₂, t', inner, rfl, rfl, rfl⟩
        obtain ⟨exec, answered⟩ := (ih _).mp inner
        exact ⟨.call exec, .cons rfl answered⟩
      · intro given
        rcases given with ⟨exec, answered⟩
        obtain ⟨r, t', rfl, rest⟩ := exec_call.mp exec
        cases answered with
        | cons first tail =>
            refine ⟨a, s', t', ?_, rfl, rfl, ?_⟩
            · rw [first]
              exact (ih r).mpr ⟨rest, tail⟩
            · rw [first]

/-- `p` returns when run from `s`, in a state that satisfies `Q`. -/
def Halts (handler : Handler S σ) (p : Prog S α) (s : σ) (Q : σ → Prop) : Prop :=
  ∃ a s' t, run handler p s = some (a, s', t) ∧ Q s'

section Halts

variable {handler : Handler S σ} {Q R : σ → Prop} {s : σ}

theorem Halts.pure {a : α} (holds : Q s) : Halts handler (.pure a) s Q :=
  ⟨a, s, [], rfl, holds⟩

/-- A weaker condition on the last state will do. -/
theorem Halts.mono {p : Prog S α} (h : Halts handler p s Q) (weaker : ∀ s', Q s' → R s') :
    Halts handler p s R := by
  obtain ⟨a, s', t, ran, holds⟩ := h
  exact ⟨a, s', t, ran, weaker s' holds⟩

/-- The handler's answer leads on. -/
theorem Halts.call {o : S.Op} {k : S.Ans o → Prog S α}
    (h : Halts handler (k (handler o s).1) (handler o s).2 Q) :
    Halts handler (.call o k) s Q := by
  obtain ⟨a, s', t, ran, holds⟩ := h
  exact ⟨a, s', ⟨o, (handler o s).1⟩ :: t, by simp [run, ran], holds⟩

/-- A sequence halts when both of its parts do, one from the end of the other. -/
theorem Halts.bind {p : Prog S α} {f : α → Prog S β} (first : Halts handler p s R)
    (second : ∀ a s', R s' → Halts handler (f a) s' Q) : Halts handler (p.bind f) s Q := by
  obtain ⟨a, s₁, t₁, ran₁, mid⟩ := first
  obtain ⟨b, s₂, t₂, ran₂, holds⟩ := second a s₁ mid
  obtain ⟨exec₁, answers₁⟩ := run_eq_some.mp ran₁
  obtain ⟨exec₂, answers₂⟩ := run_eq_some.mp ran₂
  refine ⟨b, s₂, t₁ ++ t₂, run_eq_some.mpr ⟨exec_bind.mpr ⟨t₁, t₂, a, rfl, exec₁, exec₂⟩, ?_⟩,
    holds⟩
  clear ran₁ ran₂ exec₁ exec₂ mid
  induction answers₁ with
  | nil => exact answers₂
  | cons step _ ih => exact .cons step (ih answers₂)

/-- A traversal halts when each member halts and keeps the condition. -/
theorem Halts.traverse {f : α → Prog S β} {xs : List α} (start : Q s)
    (each : ∀ x ∈ xs, ∀ s', Q s' → Halts handler (f x) s' Q) :
    Halts handler (Prog.traverse f xs) s Q := by
  induction xs generalizing s with
  | nil => exact Halts.pure start
  | cons x xs ih =>
      refine Halts.bind (each x (by simp) s start) fun y s₁ h₁ => ?_
      refine Halts.bind (ih h₁ fun z member => each z (by simp [member])) fun ys s₂ h₂ => ?_
      exact Halts.pure h₂

/-- Replacing the operations of a total program by programs that return. -/
theorem Halts.interpret {S₀ : Signature} {impl : (o : S₀.Op) → Prog S (S₀.Ans o)}
    (each : ∀ o s', Q s' → Halts handler (impl o) s' Q) {p : Prog S₀ α} (total : Total p)
    (start : Q s) : Halts handler (Prog.interpret impl p) s Q := by
  induction total generalizing s with
  | pure a => exact Halts.pure start
  | call _ ih => exact Halts.bind (each _ s start) fun r s' h => ih r h

end Halts

/-! ## Raising a recursion bound -/

/-- `q` behaves as `p` wherever `p` was not cut off. -/
inductive Approx : Prog S α → Prog S α → Prop
  | diverge {q : Prog S α} : Approx .diverge q
  | pure (a : α) : Approx (.pure a) (.pure a)
  | call {o : S.Op} {k k' : S.Ans o → Prog S α} :
    (∀ r, Approx (k r) (k' r)) → Approx (.call o k) (.call o k')

theorem Approx.refl (p : Prog S α) : Approx p p := by
  induction p with
  | pure a => exact .pure a
  | diverge => exact .diverge
  | call o k ih => exact .call ih

/-- Approximation is a congruence for sequences. -/
theorem Approx.bind {p q : Prog S α} {f g : α → Prog S β} (h : Approx p q)
    (each : ∀ a, Approx (f a) (g a)) : Approx (p.bind f) (q.bind g) := by
  induction h with
  | diverge => exact .diverge
  | pure a => exact each a
  | call _ ih => exact .call ih

/-- Approximation is a congruence for traversals. -/
theorem Approx.traverse {f g : α → Prog S β} (each : ∀ a, Approx (f a) (g a)) (xs : List α) :
    Approx (Prog.traverse f xs) (Prog.traverse g xs) := by
  induction xs with
  | nil => exact .pure _
  | cons x xs ih => exact (each x).bind fun y => ih.bind fun ys => .pure _

/-- Better implementations make a better interpretation. -/
theorem Approx.interpret {S₀ : Signature} {impl impl' : (o : S₀.Op) → Prog S (S₀.Ans o)}
    (each : ∀ o, Approx (impl o) (impl' o)) (p : Prog S₀ α) :
    Approx (Prog.interpret impl p) (Prog.interpret impl' p) := by
  induction p with
  | pure a => exact .pure a
  | diverge => exact .diverge
  | call o k ih => exact (each o).bind ih

/-- An execution that returns is an execution of everything above it. -/
theorem Approx.exec {p q : Prog S α} (h : Approx p q) {t : List (Event S)} {a : α}
    (run : Exec p t a) : Exec q t a := by
  induction h generalizing t with
  | diverge => exact (not_exec_diverge run).elim
  | pure b => exact run
  | call _ ih =>
      obtain ⟨r, t', rfl, rest⟩ := exec_call.mp run
      exact .call (ih r rest)

/-- What a program returns, a better one returns too. -/
theorem Approx.run {handler : Handler S σ} {p q : Prog S α} (h : Approx p q) {s : σ}
    {x : α × σ × List (Event S)} (ran : run handler p s = some x) : run handler q s = some x := by
  obtain ⟨a, s', t⟩ := x
  obtain ⟨exec, answered⟩ := run_eq_some.mp ran
  exact run_eq_some.mpr ⟨h.exec exec, answered⟩

end Prog

end Effect
