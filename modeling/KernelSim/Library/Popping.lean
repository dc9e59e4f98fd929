import Mathlib.Data.List.Basic

/-! Containers that give out a least element at a time, and what comes out of them in the end. -/
namespace Popping

universe u v

variable {σ : Type u} {α : Type v}

/-- Pop until nothing comes out, at most `fuel` times: the elements in the order in which they
came, and the container left. -/
def drain (pop : σ → Option (α × σ)) : ℕ → σ → List α × σ
  | 0, s => ([], s)
  | fuel + 1, s =>
    match pop s with
    | none => ([], s)
    | some (a, t) => (a :: (drain pop fuel t).1, (drain pop fuel t).2)

/-- On the containers that satisfy `P`, `pop` takes out one element that `R` relates to all that
stay, and there is one unless the container is empty. -/
structure Pops (pop : σ → Option (α × σ)) (contents : σ → List α) (R : α → α → Prop)
    (P : σ → Prop) : Prop where
  nil : ∀ s, P s → pop s = none → contents s = []
  preserved : ∀ s a t, P s → pop s = some (a, t) → P t
  perm : ∀ s a t, P s → pop s = some (a, t) → (contents s).Perm (a :: contents t)
  least : ∀ s a t, P s → pop s = some (a, t) → ∀ b ∈ contents t, R a b

variable {pop : σ → Option (α × σ)} {contents : σ → List α} {R : α → α → Prop} {P : σ → Prop}
  {s : σ} {fuel : ℕ}

/-- All the elements come out, in order. -/
theorem Pops.drain_spec (h : Pops pop contents R P) (hs : P s)
    (hfuel : (contents s).length ≤ fuel) :
    (drain pop fuel s).1.Pairwise R ∧ (drain pop fuel s).1.Perm (contents s) ∧
      contents (drain pop fuel s).2 = [] := by
  induction fuel generalizing s with
  | zero =>
    have hnil : contents s = [] := List.length_eq_zero_iff.mp (Nat.le_zero.mp hfuel)
    rw [drain, hnil]
    exact ⟨.nil, .refl _, rfl⟩
  | succ fuel ih =>
    cases hpop : pop s with
    | none =>
      have hnil := h.nil s hs hpop
      simp only [drain, hpop, hnil]
      exact ⟨.nil, .refl _, trivial⟩
    | some out =>
      obtain ⟨a, t⟩ := out
      have hperm := h.perm s a t hs hpop
      have hlen := hperm.length_eq
      rw [List.length_cons] at hlen
      obtain ⟨hsorted, hall, hnil⟩ := ih (h.preserved s a t hs hpop) (by omega)
      simp only [drain, hpop]
      refine ⟨List.pairwise_cons.mpr ⟨?_, hsorted⟩, (hall.cons a).trans hperm.symm, hnil⟩
      exact fun b hb => h.least s a t hs hpop b (hall.subset hb)

end Popping
