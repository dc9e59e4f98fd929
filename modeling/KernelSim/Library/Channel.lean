import Mathlib.Data.List.Basic

/-! A first-in-first-out channel whose messages carry a stamp: which of them are received. -/
namespace Channel

universe u v

variable {κ : Type u} {α : Type v} [LE κ] {sent : List (κ × α)} {received l : List α}
  {k v : κ} {a : α}

/-- Every message stamped up to `v` is received. -/
def CaughtUp (sent : List (κ × α)) (received : List α) (v : κ) : Prop :=
  ∀ (i : ℕ) (k : κ) (a : α), sent[i]? = some (k, a) → k ≤ v → received[i]? = some a

/-- With nothing under way. -/
theorem caughtUp_of_drained (h : received = sent.map Prod.snd) : CaughtUp sent received v := by
  intro i k a hi _
  rw [h, List.getElem?_map, hi]
  rfl

theorem CaughtUp.receive (h : CaughtUp sent received v) : CaughtUp sent (received ++ l) v := by
  intro i k a hi hk
  have hgot := h i k a hi hk
  rw [List.getElem?_append_left (List.getElem?_eq_some_iff.mp hgot).1]
  exact hgot

/-- A message with a later stamp is not among them. -/
theorem CaughtUp.send (h : CaughtUp sent received v) (hk : ¬ k ≤ v) :
    CaughtUp (sent ++ [(k, a)]) received v := by
  intro i k' a' hi hk'
  rcases Nat.lt_or_ge i sent.length with hlt | hge
  · rw [List.getElem?_append_left hlt] at hi
    exact h i k' a' hi hk'
  · rw [List.getElem?_append_right hge, List.getElem?_singleton] at hi
    split at hi
    · cases hi
      exact absurd hk' hk
    · cases hi

end Channel
