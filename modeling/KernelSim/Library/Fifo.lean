import KernelSim.Library.Histories
import Mathlib.Data.List.Forall2

/-! First-in-first-out service, read off a history of events that join and leave a queue. -/
namespace Fifo
open Histories

universe u v w x

variable {ε : Type u} {α : Type v} {β : Type w} {κ : Type x} {joins : ε → Option α}
  {leaves : ε → Option β} {R : α → β → Prop} {h es pre mid : List ε} {e : ε} {a : α} {b : β}

/-- What has joined and not left, when every event that leaves takes the oldest. -/
def waiting (joins : ε → Option α) (leaves : ε → Option β) (h : List ε) : List α :=
  (h.filterMap joins).drop (h.filterMap leaves).length

/-- Every event that leaves takes what has waited longest, which `R` relates to it. -/
def InOrder (joins : ε → Option α) (leaves : ε → Option β) (R : α → β → Prop) :
    List ε → Prop :=
  Each fun pre e => ∀ b, leaves e = some b → ∃ a rest, waiting joins leaves pre = a :: rest ∧ R a b

theorem waiting_idle (hj : joins e = none) (hl : leaves e = none) :
    waiting joins leaves (h ++ [e]) = waiting joins leaves h := by
  simp [waiting, hj, hl]

theorem waiting_leave (hj : joins e = none) (hl : leaves e = some b) :
    waiting joins leaves (h ++ [e]) = (waiting joins leaves h).tail := by
  simp [waiting, hj, hl, List.tail_drop]

theorem InOrder.left_le (ho : InOrder joins leaves R h)
    (hdisjoint : ∀ e, joins e = none ∨ leaves e = none) :
    (h.filterMap leaves).length ≤ (h.filterMap joins).length := by
  induction h using List.reverseRecOn with
  | nil => simp
  | append_singleton h e ih =>
    obtain ⟨ho, he⟩ := each_snoc.mp ho
    have hle := ih ho
    rcases hdisjoint e with hj | hl
    · cases hl : leaves e with
      | none => simpa [hj, hl] using hle
      | some b =>
        obtain ⟨a, rest, hw, -⟩ := he b hl
        have hlen := congrArg List.length hw
        simp only [waiting, List.length_drop, List.length_cons] at hlen
        simp only [List.filterMap_append, hj, hl, List.filterMap_cons, List.filterMap_nil,
          List.append_nil, List.length_append, List.length_cons, List.length_nil]
        omega
    · simp only [List.filterMap_append, hl, List.filterMap_cons, List.filterMap_nil,
        List.append_nil, List.length_append]
      omega

theorem waiting_join (ho : InOrder joins leaves R h)
    (hdisjoint : ∀ e, joins e = none ∨ leaves e = none) (hj : joins e = some a) :
    waiting joins leaves (h ++ [e]) = waiting joins leaves h ++ [a] := by
  have hl : leaves e = none := (hdisjoint e).resolve_left (by simp [hj])
  have hle := ho.left_le hdisjoint
  simp [waiting, hj, hl, List.drop_append_of_le_length hle]

/-- Events that touch the queue in no way. -/
theorem waiting_append_idle (hes : ∀ e ∈ es, joins e = none ∧ leaves e = none) :
    waiting joins leaves (h ++ es) = waiting joins leaves h := by
  have hj : es.filterMap joins = [] := List.filterMap_eq_nil_iff.mpr fun e he => (hes e he).1
  have hl : es.filterMap leaves = [] := List.filterMap_eq_nil_iff.mpr fun e he => (hes e he).2
  simp [waiting, hj, hl]

/-- What holds of the queue at every moment is kept by the events that do not touch it. -/
theorem forall_prefix_idle {P : List α → Prop}
    (hes : ∀ e ∈ es, joins e = none ∧ leaves e = none)
    (hh : ∀ pre, pre <+: h → P (waiting joins leaves pre)) :
    ∀ pre, pre <+: h ++ es → P (waiting joins leaves pre) := by
  induction es using List.reverseRecOn with
  | nil => simpa using hh
  | append_singleton es e ih =>
    have hes' : ∀ e ∈ es, joins e = none ∧ leaves e = none :=
      fun e he => hes e (List.mem_append_left _ he)
    intro pre hp
    rw [← List.append_assoc, List.prefix_concat_iff] at hp
    rcases hp with rfl | hp
    · obtain ⟨hj, hl⟩ := hes e (by simp)
      rw [waiting_idle hj hl]
      exact ih hes' _ (List.prefix_refl _)
    · exact ih hes' pre hp

theorem forall_prefix_snoc {P : List α → Prop}
    (hh : ∀ pre, pre <+: h → P (waiting joins leaves pre))
    (he : P (waiting joins leaves (h ++ [e]))) :
    ∀ pre, pre <+: h ++ [e] → P (waiting joins leaves pre) := by
  intro pre hp
  rcases List.prefix_concat_iff.mp hp with rfl | hp
  · exact he
  · exact hh pre hp

theorem InOrder.append_idle (ho : InOrder joins leaves R h) (hes : ∀ e ∈ es, leaves e = none) :
    InOrder joins leaves R (h ++ es) := by
  apply Each.append_of_forall ho
  intro e he pre b hb
  rw [hes e he] at hb
  cases hb

/-- From any moment on, what leaves is what was waiting and then what joined, in that order. -/
theorem InOrder.append_inv (ho : InOrder joins leaves R (h ++ es))
    (hdisjoint : ∀ e, joins e = none ∨ leaves e = none) :
    ∃ taken, waiting joins leaves h ++ es.filterMap joins =
        taken ++ waiting joins leaves (h ++ es) ∧ List.Forall₂ R taken (es.filterMap leaves) := by
  induction es using List.reverseRecOn with
  | nil => exact ⟨[], by simp, .nil⟩
  | append_singleton es e ih =>
    rw [← List.append_assoc] at ho
    rw [← List.append_assoc h es]
    obtain ⟨ho, he⟩ := each_snoc.mp ho
    obtain ⟨taken, heq, hall⟩ := ih ho
    cases hl : leaves e with
    | none =>
      refine ⟨taken, ?_, by simpa [hl] using hall⟩
      cases hj : joins e with
      | none =>
        rw [waiting_idle hj hl]
        simpa [hj] using heq
      | some a =>
        rw [waiting_join ho hdisjoint hj, List.filterMap_append, ← List.append_assoc, heq]
        simp [hj]
    | some b =>
      have hj : joins e = none := (hdisjoint e).resolve_right (by simp [hl])
      obtain ⟨a, rest, hw, hR⟩ := he b hl
      refine ⟨taken ++ [a], ?_, ?_⟩
      · rw [waiting_leave hj hl, hw, List.filterMap_append, ← List.append_assoc, heq, hw]
        simp [hj]
      · rw [List.filterMap_append]
        exact List.rel_append hall (by simp [hl, hR])

/-- What joins behind `k` others is the `k + 1`st to leave from then on. -/
theorem InOrder.turn (ho : InOrder joins leaves R (pre ++ e :: es))
    (hdisjoint : ∀ e, joins e = none ∨ leaves e = none) (hj : joins e = some a) :
    List.Forall₂ R ((waiting joins leaves pre ++ [a]).take (es.filterMap leaves).length)
      ((es.filterMap leaves).take (waiting joins leaves pre ++ [a]).length) := by
  rw [← List.singleton_append, ← List.append_assoc] at ho
  have hpre : InOrder joins leaves R pre := ho.of_append.of_append
  obtain ⟨taken, heq, hall⟩ := ho.append_inv hdisjoint
  rw [waiting_join hpre hdisjoint hj] at heq
  have hlen := hall.length_eq
  generalize waiting joins leaves pre ++ [a] = queue at *
  have htake : queue.take (es.filterMap leaves).length = taken.take queue.length := by
    have h1 := congrArg (List.take queue.length) (congrArg (List.take taken.length) heq)
    rw [List.take_take, Nat.min_comm, ← List.take_take] at h1
    simpa [hlen] using h1
  rw [htake]
  exact List.forall₂_take _ hall

/-- While something waits, what leaves was there before it, and each only once. -/
theorem InOrder.nodup {key : α → κ} {key' : β → κ}
    (ho : InOrder joins leaves R (pre ++ mid))
    (hdisjoint : ∀ e, joins e = none ∨ leaves e = none) (hkey : ∀ a b, R a b → key' b = key a)
    (hnodup : ((waiting joins leaves pre).map key).Nodup) (ha : a ∈ waiting joins leaves pre)
    (hstays : ∀ b ∈ mid.filterMap leaves, key' b ≠ key a) :
    ((mid.filterMap leaves).map key').Nodup := by
  obtain ⟨taken, heq, hall⟩ := ho.append_inv hdisjoint
  have hmap : (mid.filterMap leaves).map key' = taken.map key := by
    clear heq hstays
    generalize mid.filterMap leaves = left at hall
    induction hall with
    | nil => rfl
    | cons hR _ ih => rw [List.map_cons, List.map_cons, ih, hkey _ _ hR]
  have htaken_le : taken <+: waiting joins leaves pre := by
    have htaken : taken <+: waiting joins leaves pre ++ mid.filterMap joins :=
      heq ▸ List.prefix_append _ _
    rcases List.prefix_or_prefix_of_prefix htaken (List.prefix_append _ _) with hp | hp
    · exact hp
    -- otherwise `a` has left
    · have hmem : key a ∈ (mid.filterMap leaves).map key' :=
        hmap ▸ List.mem_map_of_mem (hp.subset ha)
      obtain ⟨b, hb, hba⟩ := List.mem_map.mp hmem
      exact absurd hba (hstays b hb)
  rw [hmap]
  exact hnodup.sublist (htaken_le.sublist.map key)

/-! A queue gone through once, each element taken out or passed over. -/

/-- `xs` and `ys` are complementary subsequences of the third list. -/
inductive Splits : List α → List α → List α → Prop
  | nil : Splits [] [] []
  | left {xs ys zs : List α} (a : α) (h : Splits xs ys zs) : Splits (a :: xs) ys (a :: zs)
  | right {xs ys zs : List α} (a : α) (h : Splits xs ys zs) : Splits xs (a :: ys) (a :: zs)

section Splits

variable {xs ys zs : List α}

theorem Splits.snoc_left (h : Splits xs ys zs) (a : α) : Splits (xs ++ [a]) ys (zs ++ [a]) := by
  induction h with
  | nil => exact .left a .nil
  | left b _ ih => exact ih.left b
  | right b _ ih => exact ih.right b

theorem Splits.snoc_right (h : Splits xs ys zs) (a : α) : Splits xs (ys ++ [a]) (zs ++ [a]) := by
  induction h with
  | nil => exact .right a .nil
  | left b _ ih => exact ih.left b
  | right b _ ih => exact ih.right b

end Splits

end Fifo
