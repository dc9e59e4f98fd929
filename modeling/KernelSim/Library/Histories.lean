import Mathlib.Data.List.Induction

/-! Properties of each event of a history in the light of the events before it. -/
namespace Histories

universe u

variable {α : Type u} {P Q : List α → α → Prop} {l es pre : List α} {a : α}

/-- Every event of `l` stands in the relation `P` to those before it. -/
def Each (P : List α → α → Prop) (l : List α) : Prop :=
  ∀ pre a post, l = pre ++ a :: post → P pre a

theorem each_nil : Each P [] := by
  intro pre a post h
  simp at h

theorem Each.of_append (h : Each P (l ++ es)) : Each P l := by
  intro pre a post hl
  exact h pre a (post ++ es) (by simp [hl])

theorem each_snoc : Each P (l ++ [a]) ↔ Each P l ∧ P l a := by
  constructor
  · exact fun h => ⟨h.of_append, h l a [] rfl⟩
  · rintro ⟨hl, ha⟩ pre b post h
    cases post using List.reverseRecOn with
    | nil =>
      obtain ⟨rfl, rfl⟩ := List.append_singleton_inj.mp h
      exact ha
    | append_singleton post c _ =>
      rw [← List.cons_append, ← List.append_assoc] at h
      exact hl pre b post (List.append_singleton_inj.mp h).1

/-- New events, each judged by all that went before. -/
theorem each_append : Each P (l ++ es) ↔ Each P l ∧ Each (fun pre a => P (l ++ pre) a) es := by
  induction es using List.reverseRecOn with
  | nil => simp [each_nil]
  | append_singleton es a ih =>
    rw [← List.append_assoc, each_snoc, ih, each_snoc, and_assoc]

theorem each_of_forall (h : ∀ a ∈ es, ∀ pre, P pre a) : Each P es := by
  intro pre a post hl
  exact h a (by simp [hl]) pre

/-- Events that satisfy `P` whatever precedes them. -/
theorem Each.append_of_forall (hl : Each P l) (h : ∀ a ∈ es, ∀ pre, P pre a) : Each P (l ++ es) :=
  each_append.mpr ⟨hl, each_of_forall fun a ha pre => h a ha (l ++ pre)⟩

end Histories
