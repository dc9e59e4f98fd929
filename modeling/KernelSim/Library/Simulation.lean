import Mathlib.Data.List.Basic

/-! Machines that answer the calls made on them, and the rule for two that answer alike. -/
namespace Simulation

universe u v w x

variable {σ : Type u} {τ : Type v} {α : Type w} {ρ : Type x} {step : σ → α → σ × ρ}
  {step' : τ → α → τ × ρ} {rel : σ → τ → Prop} {s : σ} {t : τ} {a : α} {as : List α}

/-- The state that a sequence of calls leads to. -/
def after (step : σ → α → σ × ρ) (s : σ) (as : List α) : σ :=
  as.foldl (fun s a => (step s a).1) s

/-- The answers to a sequence of calls, in order. -/
def answers (step : σ → α → σ × ρ) : σ → List α → List ρ
  | _, [] => []
  | s, a :: as => (step s a).2 :: answers step (step s a).1 as

/-- From related states every call gets the same answer and leads to related states. -/
def Simulates (rel : σ → τ → Prop) (step : σ → α → σ × ρ) (step' : τ → α → τ × ρ) : Prop :=
  ∀ s t a, rel s t → (step s a).2 = (step' t a).2 ∧ rel (step s a).1 (step' t a).1

theorem Simulates.run (h : Simulates rel step step') (as : List α) (hrel : rel s t) :
    answers step s as = answers step' t as ∧ rel (after step s as) (after step' t as) := by
  induction as generalizing s t with
  | nil => exact ⟨rfl, hrel⟩
  | cons a as ih =>
    obtain ⟨hanswer, hnext⟩ := h s t a hrel
    obtain ⟨hanswers, hend⟩ := ih hnext
    exact ⟨congrArg₂ List.cons hanswer hanswers, hend⟩

/-- Every call is one that `ok` allows in the state in which it is made. -/
def Allowed (ok : τ → α → Prop) (step : τ → α → τ × ρ) : τ → List α → Prop
  | _, [] => True
  | t, a :: as => ok t a ∧ Allowed ok step (step t a).1 as

instance Allowed.decidable (ok : τ → α → Prop) [∀ t a, Decidable (ok t a)]
    (step : τ → α → τ × ρ) : ∀ t as, Decidable (Allowed ok step t as)
  | _, [] => isTrue trivial
  | t, a :: as => @instDecidableAnd _ _ _ (Allowed.decidable ok step (step t a).1 as)

/-- The invariant rule for allowed calls. -/
theorem Allowed.invariant {P : τ → Prop} {ok : τ → α → Prop} {step : τ → α → τ × ρ}
    (h : Allowed ok step t as) (hstep : ∀ t a, P t → ok t a → P (step t a).1) (ht : P t) :
    P (after step t as) := by
  induction as generalizing t with
  | nil => exact ht
  | cons a as ih => exact ih h.2 (hstep t a ht h.1)

/-- The rule for a machine that stands for another as long as its calls are allowed there. -/
theorem run_of_allowed {π : Type x} {ok : τ → α → Prop} {step' : τ → α → τ × π} {f : π → ρ}
    (hstep : ∀ s t a, rel s t → ok t a →
      (step s a).2 = f (step' t a).2 ∧ rel (step s a).1 (step' t a).1)
    (hok : Allowed ok step' t as) (hrel : rel s t) :
    answers step s as = (answers step' t as).map f ∧ rel (after step s as) (after step' t as) := by
  induction as generalizing s t with
  | nil => exact ⟨rfl, hrel⟩
  | cons a as ih =>
    obtain ⟨hanswer, hnext⟩ := hstep s t a hrel hok.1
    obtain ⟨hanswers, hend⟩ := ih hok.2 hnext
    exact ⟨congrArg₂ List.cons hanswer hanswers, hend⟩

end Simulation
