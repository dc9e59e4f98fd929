import Mathlib.Algebra.Order.BigOperators.Group.List
import Mathlib.Algebra.BigOperators.Group.List.Basic
import Mathlib.Data.List.Perm.Basic
import Mathlib.Tactic.Abel

/-! Sums over a list of keys' holders, each contributing by what a table says of its key. -/
namespace Tally

universe u v w x

variable {ι : Type u} {κ : Type v} {σ : Type w} {M : Type x} [AddCommGroup M] [DecidableEq κ]
  {key : ι → κ} {value : ι → σ → M} {f g : κ → σ} {l l' : List ι} {a : ι} {k : κ} {y : σ}

/-- What the members of `l` contribute together. -/
def tally (key : ι → κ) (value : ι → σ → M) (f : κ → σ) (l : List ι) : M :=
  (l.map fun a => value a (f (key a))).sum

omit [DecidableEq κ] in
theorem tally_perm (h : l.Perm l') : tally key value f l = tally key value f l' :=
  (h.map _).sum_eq

omit [DecidableEq κ] in
theorem tally_cons : tally key value f (a :: l) = value a (f (key a)) + tally key value f l := by
  simp [tally]

omit [DecidableEq κ] in
/-- The table matters only at the keys of the members. -/
theorem tally_congr (h : ∀ a ∈ l, value a (g (key a)) = value a (f (key a))) :
    tally key value g l = tally key value f l :=
  congrArg List.sum (List.map_congr_left h)

theorem tally_update_of_notMem (hk : k ∉ l.map key) :
    tally key value (Function.update f k y) l = tally key value f l := by
  apply tally_congr
  intro a ha
  have hne : key a ≠ k := fun heq => hk (heq ▸ List.mem_map_of_mem ha)
  rw [Function.update_of_ne hne]

/-- With different keys, an update changes the contribution of one member. -/
theorem tally_update (hd : (l.map key).Nodup) (ha : a ∈ l) :
    tally key value (Function.update f (key a) y) l + value a (f (key a)) =
      tally key value f l + value a y := by
  obtain ⟨s, t, rfl⟩ := List.append_of_mem ha
  have hperm : (s ++ a :: t).Perm (a :: (s ++ t)) := List.perm_middle
  have hnew : key a ∉ (s ++ t).map key :=
    (List.nodup_cons.mp ((hperm.map key).nodup_iff.mp hd)).1
  rw [tally_perm hperm, tally_perm hperm, tally_cons, tally_cons, tally_update_of_notMem hnew,
    Function.update_self]
  abel

variable [PartialOrder M] [IsOrderedAddMonoid M]

omit [DecidableEq κ] in
/-- The members contribute together at least what one of them does. -/
theorem le_tally (h : ∀ b ∈ l, 0 ≤ value b (f (key b))) (ha : a ∈ l) :
    value a (f (key a)) ≤ tally key value f l := by
  apply List.single_le_sum
  · intro y hy
    obtain ⟨b, hb, rfl⟩ := List.mem_map.mp hy
    exact h b hb
  · exact List.mem_map_of_mem ha

omit [DecidableEq κ] in
theorem tally_nonneg (h : ∀ b ∈ l, 0 ≤ value b (f (key b))) : 0 ≤ tally key value f l := by
  apply List.sum_nonneg
  intro y hy
  obtain ⟨b, hb, rfl⟩ := List.mem_map.mp hy
  exact h b hb

/-- An update that raises no contribution does not raise the sum. -/
theorem tally_update_le (h : ∀ a ∈ l, key a = k → value a y ≤ value a (f k)) :
    tally key value (Function.update f k y) l ≤ tally key value f l := by
  apply List.sum_le_sum
  intro a ha
  by_cases heq : key a = k
  · subst heq
    rw [Function.update_self]
    exact h a ha rfl
  · rw [Function.update_of_ne heq]

end Tally
