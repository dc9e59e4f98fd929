import Mathlib.Data.List.Basic
import Mathlib.Data.List.Infix

/-! Finite runs of a labelled step relation, with the rules for invariants over them. -/
namespace Runs

universe u v

variable {σ : Type u} {α : Type v} {R Q : σ → α → σ → Prop} {s t w : σ} {a : α}
  {as bs : List α}

/-- A finite run of `R`, with the actions it takes in order. -/
inductive Trace (R : σ → α → σ → Prop) (s : σ) : List α → σ → Prop
  | refl : Trace R s [] s
  | snoc {as : List α} {t w : σ} {a : α} :
      Trace R s as t → R t a w → Trace R s (as ++ [a]) w

/-- Some finite run of `R` leads from `s` to `t`. -/
def Reachable (R : σ → α → σ → Prop) (s t : σ) : Prop := ∃ as, Trace R s as t

theorem Trace.invariant {P : σ → Prop} (h : Trace R s as t)
    (hstep : ∀ s a t, P s → R s a t → P t) (hs : P s) : P t := by
  induction h with
  | refl => exact hs
  | snoc _ hr ih => exact hstep _ _ _ ih hr

theorem Trace.mono (h : Trace R s as t) (hRQ : ∀ s a t, R s a t → Q s a t) :
    Trace Q s as t := by
  induction h with
  | refl => exact .refl
  | snoc _ hr ih => exact .snoc ih (hRQ _ _ _ hr)

theorem Reachable.refl : Reachable R s s := ⟨[], .refl⟩

theorem Reachable.snoc (h : Reachable R s t) (hr : R t a w) : Reachable R s w := by
  obtain ⟨as, h⟩ := h
  exact ⟨as ++ [a], h.snoc hr⟩

theorem Reachable.invariant {P : σ → Prop} (h : Reachable R s t)
    (hstep : ∀ s a t, P s → R s a t → P t) (hs : P s) : P t := by
  obtain ⟨_, h⟩ := h
  exact h.invariant hstep hs

theorem Trace.trans (h : Trace R s as t) (h' : Trace R t bs w) : Trace R s (as ++ bs) w := by
  induction h' with
  | refl => simpa using h
  | snoc _ hr ih =>
    rw [← List.append_assoc]
    exact ih.snoc hr

theorem Reachable.trans (h : Reachable R s t) (h' : Reachable R t w) : Reachable R s w := by
  obtain ⟨as, h⟩ := h
  obtain ⟨bs, h'⟩ := h'
  exact ⟨as ++ bs, h.trans h'⟩

/-- The steps of a partial function, taken where a guard allows them. -/
def Guarded (ok : σ → α → Prop) (step : σ → α → Option σ) (s : σ) (a : α) (t : σ) : Prop :=
  ok s a ∧ step s a = some t

/-- The steps of a relation that start in states where a guard allows the action. -/
def Restrict (ok : σ → α → Prop) (R : σ → α → σ → Prop) (s : σ) (a : α) (t : σ) : Prop :=
  ok s a ∧ R s a t

/-- Running the function, with the guard tested at every step. -/
def execute (ok : σ → α → Prop) [∀ s a, Decidable (ok s a)] (step : σ → α → Option σ) :
    σ → List α → Option σ
  | s, [] => some s
  | s, a :: as => if ok s a then (step s a).bind fun t => execute ok step t as else none

theorem trace_of_execute {ok : σ → α → Prop} [∀ s a, Decidable (ok s a)]
    {step : σ → α → Option σ} (h : execute ok step s as = some t) :
    Trace (Guarded ok step) s as t := by
  induction as generalizing s with
  | nil =>
    cases h
    exact .refl
  | cons a as ih =>
    simp only [execute] at h
    split at h
    · rename_i hok
      obtain ⟨u, hu, ht⟩ := Option.bind_eq_some_iff.mp h
      exact (Trace.refl.snoc ⟨hok, hu⟩).trans (ih ht)
    · cases h

/-- A run of the function is a run of any relation that contains it. -/
theorem trace_of_execute_of {ok : σ → α → Prop} [∀ s a, Decidable (ok s a)]
    {step : σ → α → Option σ} (hR : ∀ s a t, step s a = some t → R s a t)
    (h : execute ok step s as = some t) : Trace (Restrict ok R) s as t :=
  (trace_of_execute h).mono fun s a t hs => ⟨hs.1, hR s a t hs.2⟩

/-- A run found by evaluation, to a state that passes a test. -/
theorem exists_trace_of_execute {ok : σ → α → Prop} [∀ s a, Decidable (ok s a)]
    {step : σ → α → Option σ} {test : σ → Bool} (hR : ∀ s a t, step s a = some t → R s a t)
    (h : (execute ok step s as).any test = true) :
    ∃ t, Trace (Restrict ok R) s as t ∧ test t = true := by
  cases he : execute ok step s as with
  | none => simp [he] at h
  | some t => exact ⟨t, trace_of_execute_of hR he, by simpa [he] using h⟩

/-- Every state that a run along `as` passes through satisfies `P`. -/
def Always (R : σ → α → σ → Prop) (s : σ) (as : List α) (P : σ → Prop) : Prop :=
  ∀ pre t, pre <+: as → Trace R s pre t → P t

/-- Every step that a run along `as` takes starts in a state satisfying `C` with its action. -/
def Throughout (R : σ → α → σ → Prop) (s : σ) (as : List α) (C : σ → α → Prop) : Prop :=
  ∀ pre a t w, pre ++ [a] <+: as → Trace R s pre t → R t a w → C t a

theorem Throughout.of_prefix {C : σ → α → Prop} (h : Throughout R s as C) (hb : bs <+: as) :
    Throughout R s bs C := by
  intro pre a t w hp
  exact h pre a t w (hp.trans hb)

theorem Trace.nil_eq (h : Trace R s [] t) : t = s := by
  generalize he : ([] : List α) = as at h
  cases h with
  | refl => rfl
  | snoc _ _ => simp at he

theorem Trace.cons_inv (h : Trace R s (a :: as) w) : ∃ t, R s a t ∧ Trace R t as w := by
  generalize he : a :: as = bs at h
  induction h generalizing as with
  | refl => cases he
  | @snoc cs t w c ht hr ih =>
    cases cs with
    | nil =>
      obtain ⟨rfl, rfl⟩ : a = c ∧ as = [] := by simpa using he
      rw [ht.nil_eq] at hr
      exact ⟨w, hr, .refl⟩
    | cons d ds =>
      obtain ⟨rfl, rfl⟩ : a = d ∧ as = ds ++ [c] := by simpa using he
      obtain ⟨u, hu, ht⟩ := ih rfl
      exact ⟨u, hu, ht.snoc hr⟩

theorem Trace.snoc_inv (h : Trace R s (as ++ [a]) w) : ∃ t, Trace R s as t ∧ R t a w := by
  generalize he : as ++ [a] = bs at h
  cases h with
  | refl => simp at he
  | snoc ht hr =>
    obtain ⟨rfl, rfl⟩ := List.append_singleton_inj.mp he
    exact ⟨_, ht, hr⟩

/-- A condition on the actions of a run alone. -/
theorem throughout_of_forall {C : α → Prop} (h : ∀ a ∈ as, C a) :
    Throughout R s as fun _ a => C a := by
  intro pre a t w hp _ _
  exact h a (hp.subset (List.mem_append_right _ (List.mem_singleton.mpr rfl)))

theorem throughout_nil {C : σ → α → Prop} : Throughout R s [] C := by
  intro pre a t w hp
  simp at hp

/-- A condition on the steps of a run, checked one step at a time. -/
theorem throughout_cons {C : σ → α → Prop} (hC : C s a)
    (h : ∀ t, R s a t → Throughout R t as C) : Throughout R s (a :: as) C := by
  intro pre b t w hp ht hr
  cases pre with
  | nil =>
    obtain rfl : b = a := by simpa using hp
    rw [ht.nil_eq]
    exact hC
  | cons c pre =>
    obtain ⟨rfl, hpre⟩ : c = a ∧ pre ++ [b] <+: as := by
      simpa [List.cons_prefix_cons] using hp
    obtain ⟨u, hu, ht⟩ := ht.cons_inv
    exact h u hu pre b t w hpre ht hr

/-- A guard tested along the run of a function that leaves no other step. -/
theorem throughout_of_execute {ok : σ → α → Prop} [∀ s a, Decidable (ok s a)]
    {step : σ → α → Option σ} (hR : ∀ s a t, R s a t → step s a = some t)
    (h : (execute ok step s as).isSome = true) : Throughout R s as ok := by
  induction as generalizing s with
  | nil => exact throughout_nil
  | cons a as ih =>
    simp only [execute] at h
    split at h
    · rename_i hok
      refine throughout_cons hok fun t ht => ih ?_
      rwa [hR s a t ht] at h
    · cases h

/-- The invariant rule for a run whose steps all meet `C`. -/
theorem Trace.invariant_of_throughout {P : σ → Prop} {C : σ → α → Prop}
    (h : Trace R s as t) (hC : Throughout R s as C)
    (hstep : ∀ s a t, P s → C s a → R s a t → P t) (hs : P s) : P t := by
  induction h with
  | refl => exact hs
  | @snoc as t w a ht hr ih =>
    have hpre : Throughout R s as C := hC.of_prefix (List.prefix_append as [a])
    exact hstep _ _ _ (ih hpre) (hC as a t w (List.prefix_refl _) ht hr) hr

/-- The steps of a function lead to one state. -/
theorem Trace.unique {ok : σ → α → Prop} {step : σ → α → Option σ}
    (h : Trace (Guarded ok step) s as t) (h' : Trace (Guarded ok step) s as w) : t = w := by
  induction h generalizing w with
  | refl => exact h'.nil_eq.symm
  | snoc _ hr ih =>
    obtain ⟨u, hu, hr'⟩ := h'.snoc_inv
    obtain rfl := ih hu
    exact Option.some.inj (hr.2.symm.trans hr'.2)

/-- A condition holds throughout a run of a function when it does up to the last step and there. -/
theorem Trace.throughout_snoc {ok : σ → α → Prop} {step : σ → α → Option σ} {C : σ → α → Prop}
    (h : Trace (Guarded ok step) s as t) (hr : Guarded ok step t a w) :
    Throughout (Guarded ok step) s (as ++ [a]) C ↔ Throughout (Guarded ok step) s as C ∧ C t a := by
  constructor
  · intro hC
    exact ⟨hC.of_prefix (List.prefix_append as [a]), hC as a t w (List.prefix_refl _) h hr⟩
  · rintro ⟨hC, hlast⟩ pre b u v hp hu hs
    rcases List.prefix_concat_iff.mp hp with heq | hp
    · obtain ⟨rfl, rfl⟩ := List.append_singleton_inj.mp heq
      rwa [← h.unique hu]
    · exact hC pre b u v hp hu hs

/-- A relation that a step on one side carries to a step on the other holds along whole runs. -/
theorem Trace.simulate {τ : Type u} {S : τ → α → τ → Prop} {rel : σ → τ → Prop}
    {C : σ → α → Prop} {u : τ} (h : Trace R s as t) (hC : Throughout R s as C)
    (hstep : ∀ s a t u, rel s u → C s a → R s a t → ∃ v, S u a v ∧ rel t v) (hs : rel s u) :
    ∃ v, Trace S u as v ∧ rel t v := by
  induction h with
  | refl => exact ⟨u, .refl, hs⟩
  | @snoc as t w a ht hr ih =>
    obtain ⟨v, hv, hrel⟩ := ih (hC.of_prefix (List.prefix_append as [a]))
    obtain ⟨x, hx, hrel⟩ := hstep t a w v hrel (hC as a t w (List.prefix_refl _) ht hr) hr
    exact ⟨x, hv.snoc hx, hrel⟩

/-- A guard `C` that preserves an invariant, and whose first failure breaks `P` at once,
holds throughout exactly the runs on which `P` always holds. -/
theorem always_iff_throughout {I P : σ → Prop} {C : σ → α → Prop} (hs : I s)
    (hP : ∀ s, I s → P s) (hgood : ∀ s a t, I s → C s a → R s a t → I t)
    (hbad : ∀ s a t, I s → ¬ C s a → R s a t → ¬ P t) :
    Always R s as P ↔ Throughout R s as C := by
  constructor
  · intro h
    have hinv : ∀ pre t, Trace R s pre t → pre <+: as → I t := by
      intro pre t ht
      induction ht with
      | refl => exact fun _ => hs
      | @snoc pre t w a ht hr ih =>
        intro hp
        have hI := ih ((List.prefix_append _ _).trans hp)
        by_contra hw
        exact hbad _ _ _ hI (fun hC => hw (hgood _ _ _ hI hC hr)) hr (h _ _ hp (ht.snoc hr))
    intro pre a t w hp ht hr
    by_contra hC
    exact hbad _ _ _ (hinv pre t ht ((List.prefix_append _ _).trans hp)) hC hr
      (h _ _ hp (ht.snoc hr))
  · intro h pre t hp ht
    exact hP t (ht.invariant_of_throughout (h.of_prefix hp) hgood hs)

end Runs
