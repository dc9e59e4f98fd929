import Mathlib.Data.List.Forall2
import Mathlib.Algebra.Order.BigOperators.Group.List
import Mathlib.Algebra.Order.Ring.Nat

/-! One server for jobs of which the remaining times are known. If it always serves a job with the
least time left, no other way of spending the same time has fewer jobs left at any moment. -/
namespace LeastRemaining

/-- What is left without the `m` longest jobs: the least that any choice of `m` jobs leaves. -/
def leftOver : ℕ → List ℕ → ℕ
  | _, [] => 0
  | 0, x :: l => x + leftOver 0 l
  | m + 1, x :: l => min (x + leftOver (m + 1) l) (leftOver m l)

/-- The jobs that are not done. -/
def undone (l : List ℕ) : ℕ := l.countP (0 < ·)

/-- `d` units of time at most are spent on the jobs. -/
structure Serves (d : ℕ) (l l' : List ℕ) : Prop where
  less : List.Forall₂ (· ≤ ·) l' l
  units : l.sum ≤ l'.sum + d

/-- `d` units of time go to the jobs in the order they stand in. -/
def inOrder : ℕ → List ℕ → List ℕ
  | _, [] => []
  | d, x :: l => (x - d) :: inOrder (d - x) l

/-- However many jobs are left out, the others have less to do. -/
def Ahead (l l' : List ℕ) : Prop := ∀ m, leftOver m l ≤ leftOver m l'

/-- `d` units of time are spent on a job with the least time left, which may then be forgotten, and
new jobs come in. -/
inductive Works (d : ℕ) (new l l' : List ℕ) : Prop
  | idle (hd : d = 0) (h : l'.Perm (new ++ l))
  | lowered {x y : ℕ} {rest : List ℕ} (h : l.Perm (x :: rest)) (hleast : ∀ z ∈ rest, x ≤ z)
      (hd : x = y + d) (h' : l'.Perm (new ++ y :: rest))
  | finished {rest : List ℕ} (h : l.Perm (d :: rest)) (hleast : ∀ z ∈ rest, d ≤ z)
      (h' : l'.Perm (new ++ rest))

variable {m d x y : ℕ} {l l' new rival served : List ℕ}

theorem serves_inOrder (d : ℕ) (l : List ℕ) : Serves d l (inOrder d l) := by
  induction l generalizing d with
  | nil => exact ⟨.nil, Nat.zero_le _⟩
  | cons x l ih =>
    obtain ⟨hless, hunits⟩ := ih (d - x)
    refine ⟨.cons (Nat.sub_le x d) hless, ?_⟩
    rw [inOrder, List.sum_cons, List.sum_cons]
    omega

theorem Serves.reverse (h : Serves d l l') : Serves d l.reverse l'.reverse := by
  refine ⟨List.forall₂_reverse_iff.mpr h.less, ?_⟩
  rw [List.sum_reverse, List.sum_reverse]
  exact h.units

/-- The time spent is what the jobs have less. -/
theorem Works.sum (h : Works d new l l') : new.sum + l.sum = l'.sum + d := by
  cases h with
  | idle hd h =>
    rw [h.sum_eq, List.sum_append, hd, Nat.add_zero]
  | lowered h hleast hd h' =>
    rw [h.sum_eq, h'.sum_eq, List.sum_append, List.sum_cons, List.sum_cons]
    omega
  | finished h hleast h' =>
    rw [h.sum_eq, h'.sum_eq, List.sum_append, List.sum_cons]
    omega

theorem leftOver_succ (m x : ℕ) (l : List ℕ) :
    leftOver (m + 1) (x :: l) = min (x + leftOver (m + 1) l) (leftOver m l) := rfl

theorem leftOver_succ_le (m : ℕ) (l : List ℕ) : leftOver (m + 1) l ≤ leftOver m l := by
  induction l generalizing m with
  | nil => exact Nat.zero_le _
  | cons x l ih =>
    cases m with
    | zero =>
      have := ih 0
      rw [leftOver_succ, leftOver]
      omega
    | succ m =>
      have := ih m
      have := ih (m + 1)
      rw [leftOver_succ, leftOver_succ]
      omega

theorem leftOver_perm (h : l.Perm l') (m : ℕ) : leftOver m l = leftOver m l' := by
  induction h generalizing m with
  | nil => rfl
  | cons x _ ih => cases m <;> simp only [leftOver, ih]
  | swap x y l =>
    cases m with
    | zero =>
      simp only [leftOver]
      omega
    | succ m =>
      cases m <;> simp only [leftOver] <;> omega
  | trans _ _ ih ih' => rw [ih, ih']

theorem leftOver_of_length_le (h : l.length ≤ m) : leftOver m l = 0 := by
  induction l generalizing m with
  | nil => cases m <;> rfl
  | cons x l ih =>
    cases m with
    | zero => cases h
    | succ m =>
      have := ih (m := m) (Nat.le_of_succ_le_succ h)
      rw [leftOver_succ]
      omega

/-- To leave out a job with the least time left is of no use while there are others. -/
theorem leftOver_least_le (hleast : ∀ z ∈ l, x ≤ z) (hm : m < l.length) :
    x + leftOver (m + 1) l ≤ leftOver m l := by
  induction l generalizing m with
  | nil => cases hm
  | cons z l ih =>
    have hz := hleast z List.mem_cons_self
    have hrest : ∀ z ∈ l, x ≤ z := fun z hz => hleast z (List.mem_cons_of_mem _ hz)
    cases m with
    | zero =>
      have := leftOver_succ_le 0 l
      simp only [leftOver]
      omega
    | succ m =>
      have := ih hrest (Nat.lt_of_succ_lt_succ hm)
      simp only [leftOver]
      omega

theorem leftOver_least (hleast : ∀ z ∈ l, x ≤ z) (hm : m ≤ l.length) :
    leftOver m (x :: l) = x + leftOver m l := by
  cases m with
  | zero => rfl
  | succ m =>
    have := leftOver_least_le hleast hm
    rw [leftOver_succ]
    omega

/-- What is done does not count. -/
theorem leftOver_done (m : ℕ) (l : List ℕ) : leftOver m (0 :: l) = leftOver m l := by
  cases m with
  | zero => exact Nat.zero_add _
  | succ m =>
    have := leftOver_succ_le m l
    rw [leftOver_succ]
    omega

/-- `d` units of time lower what is left by `d` at most. -/
theorem leftOver_serves (h : Serves d l l') (m : ℕ) : leftOver m l ≤ leftOver m l' + d := by
  obtain ⟨hless, hunits⟩ := h
  induction hless generalizing m d with
  | nil => exact Nat.le_add_right _ _
  | @cons y x l' l hy hrest ih =>
    rw [List.sum_cons, List.sum_cons] at hunits
    have hsum : l'.sum ≤ l.sum := hrest.sum_le_sum
    have hd : ∀ m, leftOver m l ≤ leftOver m l' + (d - (x - y)) := fun m => ih m (by omega)
    cases m with
    | zero =>
      have := hd 0
      simp only [leftOver]
      omega
    | succ m =>
      have := hd m
      have := hd (m + 1)
      simp only [leftOver]
      omega

/-- No more than `m` jobs are left when there is nothing to do without some `m` of them. -/
theorem leftOver_eq_zero (m : ℕ) (l : List ℕ) : leftOver m l = 0 ↔ undone l ≤ m := by
  induction l generalizing m with
  | nil => simp [leftOver, undone]
  | cons x l ih =>
    rcases Nat.eq_zero_or_pos x with rfl | hx
    · rw [leftOver_done, ih, undone, undone, List.countP_cons_of_neg (by simp)]
    · rw [undone, List.countP_cons_of_pos (by simpa using hx)]
      cases m with
      | zero =>
        rw [leftOver]
        omega
      | succ m =>
        have := ih m
        rw [undone] at this
        rw [leftOver_succ]
        omega

theorem Ahead.undone_le (h : Ahead l l') : undone l ≤ undone l' := by
  have hnone := (leftOver_eq_zero (undone l') l').mpr (Nat.le_refl _)
  exact (leftOver_eq_zero (undone l') l).mp (Nat.le_zero.mp (hnone ▸ h (undone l')))

theorem Ahead.append (h : Ahead l l') (new : List ℕ) : Ahead (new ++ l) (new ++ l') := by
  induction new with
  | nil => exact h
  | cons x new ih =>
    intro m
    cases m with
    | zero =>
      have := ih 0
      simp only [List.cons_append, leftOver]
      omega
    | succ m =>
      have := ih m
      have := ih (m + 1)
      simp only [List.cons_append, leftOver]
      omega

theorem Ahead.perm (h : Ahead l rival) (hp : l'.Perm l) : Ahead l' rival := by
  intro m
  rw [leftOver_perm hp]
  exact h m

/-- To serve a job with the least time left is at least as good as to serve any. -/
theorem Ahead.serve (h : Ahead (x :: l) rival) (hleast : ∀ z ∈ l, x ≤ z) (hd : x = y + d)
    (hs : Serves d rival served) : Ahead (y :: l) served := by
  intro m
  have hall := h m
  have hrival := leftOver_serves hs m
  by_cases hm : m ≤ l.length
  · have hy : ∀ z ∈ l, y ≤ z := fun z hz => by
      have := hleast z hz
      omega
    rw [leftOver_least hleast hm] at hall
    rw [leftOver_least hy hm]
    omega
  · rw [leftOver_of_length_le (by rw [List.length_cons]; omega)]
    exact Nat.zero_le _

/-- Whoever always serves a job with the least time left stays ahead. -/
theorem Ahead.works (h : Ahead l rival) (hw : Works d new l l') (hs : Serves d rival served) :
    Ahead l' (new ++ served) := by
  cases hw with
  | idle hd hp =>
    have hserved : Ahead l served := by
      intro m
      have := h m
      have := leftOver_serves hs m
      omega
    exact (hserved.append new).perm hp
  | lowered hl hleast hd hp => exact (((h.perm hl.symm).serve hleast hd hs).append new).perm hp
  | @finished rest hl hleast hp =>
    have hdone : Ahead (0 :: rest) served :=
      (h.perm hl.symm).serve hleast (Nat.zero_add d).symm hs
    have hrest : Ahead rest served := fun m => leftOver_done m rest ▸ hdone m
    exact (hrest.append new).perm hp

end LeastRemaining
