import Mathlib.Data.List.Basic

/-! The lines of a text, read through a buffer that may be shorter than they are. -/
namespace Lines

universe u

/-- Up to `room` characters, no further than a newline, and the text left. -/
def takeLine : ℕ → List Char → List Char × List Char
  | 0, text => ([], text)
  | _ + 1, [] => ([], [])
  | room + 1, c :: text =>
    if c = '\n' then ([c], text) else (c :: (takeLine room text).1, (takeLine room text).2)

/-- The lines of a text, each with the newline that ends it; the last may have none. -/
def lines : List Char → List (List Char)
  | [] => []
  | c :: text =>
    if c = '\n' then [c] :: lines text
    else match lines text with
      | [] => [[c]]
      | line :: rest => (c :: line) :: rest

/-- What a line comes in when no more than `room + 1` characters are taken at a time. -/
def stretches (room : ℕ) (line : List Char) : List (List Char) :=
  if line.length ≤ room + 1 then [line]
  else line.take (room + 1) :: stretches room (line.drop (room + 1))
termination_by line.length
decreasing_by
  rw [List.length_drop]
  omega

/-- Each element with the number of the group it is in. -/
def numbered {α : Type u} : ℕ → List (List α) → List (ℕ × α)
  | _, [] => []
  | n, group :: groups => group.map (n, ·) ++ numbered (n + 1) groups

variable {α : Type u} {room n : ℕ} {text line : List Char} {rest : List (List Char)}
  {group group' : List α} {groups groups' : List (List α)}

theorem lines_eq_nil : lines text = [] ↔ text = [] := by
  cases text with
  | nil => simp [lines]
  | cons c text =>
    simp only [lines, reduceCtorEq, iff_false]
    split
    · simp
    · split <;> simp

theorem length_pos (h : lines text = line :: rest) : 0 < line.length := by
  cases text with
  | nil => cases h
  | cons c text =>
    rw [lines] at h
    split at h
    · cases h
      exact Nat.succ_pos _
    · split at h <;> cases h <;> exact Nat.succ_pos _

theorem takeLine_nil : takeLine room [] = ([], []) := by
  cases room <;> rfl

theorem takeLine_length (h : text ≠ []) : (takeLine (room + 1) text).2.length < text.length := by
  induction room generalizing text with
  | zero =>
    cases text with
    | nil => exact absurd rfl h
    | cons c text =>
      rw [takeLine]
      split <;> simp [takeLine]
  | succ room ih =>
    cases text with
    | nil => exact absurd rfl h
    | cons c text =>
      rw [takeLine]
      split
      · simp
      · cases text with
        | nil => simp [takeLine_nil]
        | cons d text =>
          have hlt := ih (show d :: text ≠ [] by simp)
          rw [List.length_cons]
          exact Nat.lt_succ_of_lt hlt

/-- One turn takes the start of the first line and leaves what is left of it before the others. -/
theorem takeLine_lines (h : lines text = line :: rest) :
    (takeLine room text).1 = line.take room ∧
      lines (takeLine room text).2 =
        if line.length ≤ room then rest else line.drop room :: rest := by
  induction room generalizing text line with
  | zero =>
    rw [if_neg (Nat.not_le_of_gt (length_pos h))]
    exact ⟨rfl, h⟩
  | succ room ih =>
    cases text with
    | nil => cases h
    | cons c text =>
      rw [lines] at h
      rw [takeLine]
      split at h
      · rename_i hc
        cases h
        simp [hc]
      · rename_i hc
        rw [if_neg hc]
        split at h
        · rename_i hnil
          cases h
          simp [lines_eq_nil.mp hnil, takeLine_nil, lines]
        · rename_i hcons
          cases h
          obtain ⟨hpiece, hrest⟩ := ih hcons
          rw [hpiece, hrest]
          simp

/-- A line ends in its only newline, where another follows. -/
theorem newline_mem (h : lines text = line :: rest) (room : ℕ) :
    ('\n' ∈ line.take room → line.length ≤ room) ∧
      (line.length ≤ room → rest ≠ [] → '\n' ∈ line.take room) := by
  induction text generalizing line room with
  | nil => cases h
  | cons c text ih =>
    cases room with
    | zero =>
      have hpos := length_pos h
      exact ⟨fun hmem => absurd hmem List.not_mem_nil, fun hlen => absurd hlen (by omega)⟩
    | succ room =>
      rw [lines] at h
      split at h
      · rename_i hc
        cases h
        simp [hc]
      · rename_i hc
        split at h
        · cases h
          simp
        · rename_i hcons
          cases h
          obtain ⟨hends, hmem⟩ := ih hcons room
          rw [List.take_succ_cons, List.mem_cons, List.length_cons, Nat.add_le_add_iff_right]
          constructor
          · rintro (heq | htake)
            · exact absurd heq.symm hc
            · exact hends htake
          · intro hlen hne
            exact Or.inr (hmem hlen hne)

/-- A text that starts with a line. -/
theorem lines_cons (h : '\n' ∉ line) :
    lines (line ++ '\n' :: text) = (line ++ ['\n']) :: lines text := by
  induction line with
  | nil => simp [lines]
  | cons c line ih =>
    rw [List.mem_cons, not_or] at h
    rw [List.cons_append, lines, if_neg (Ne.symm h.1), ih h.2]
    rfl

theorem stretches_short (h : line.length ≤ room + 1) : stretches room line = [line] := by
  rw [stretches, if_pos h]

theorem stretches_long (h : ¬ line.length ≤ room + 1) :
    stretches room line = line.take (room + 1) :: stretches room (line.drop (room + 1)) := by
  rw [stretches, if_neg h]

theorem numbered_cons : numbered n (group :: groups) = group.map (n, ·) ++ numbered (n + 1) groups :=
  rfl

theorem map_snd_numbered : (numbered n groups).map Prod.snd = groups.flatten := by
  induction groups generalizing n with
  | nil => rfl
  | cons group groups ih =>
    rw [numbered_cons, List.map_append, ih, List.map_map, List.flatten_cons]
    congr 1
    exact List.map_id group

theorem le_of_mem_numbered {q : ℕ × α} (h : q ∈ numbered n groups) : n ≤ q.1 := by
  induction groups generalizing n with
  | nil => cases h
  | cons group groups ih =>
    rw [numbered_cons, List.mem_append] at h
    rcases h with h | h
    · obtain ⟨a, -, rfl⟩ := List.mem_map.mp h
      exact Nat.le_refl n
    · exact Nat.le_of_succ_le (ih h)

/-- The elements of the first group, by their number. -/
theorem filter_numbered : (numbered n (group :: groups)).filter (·.1 = n) = group.map (n, ·) := by
  rw [numbered_cons, List.filter_append]
  have hfirst : (group.map (n, ·)).filter (·.1 = n) = group.map (n, ·) := by
    rw [List.filter_eq_self]
    intro q hq
    obtain ⟨a, -, rfl⟩ := List.mem_map.mp hq
    exact decide_eq_true rfl
  have hrest : (numbered (n + 1) groups).filter (·.1 = n) = [] := by
    rw [List.filter_eq_nil_iff]
    intro q hq heq
    have hle := le_of_mem_numbered hq
    have := of_decide_eq_true heq
    omega
  rw [hfirst, hrest, List.append_nil]

/-- The numbers tell the groups apart. -/
theorem numbered_inj (hlen : groups.length = groups'.length) :
    numbered n groups = numbered n groups' ↔ groups = groups' := by
  constructor
  · intro h
    induction groups generalizing n groups' with
    | nil => exact (List.length_eq_zero_iff.mp hlen.symm).symm
    | cons group groups ih =>
      cases groups' with
      | nil => cases hlen
      | cons group' groups' =>
        have hmap := congrArg (List.filter (·.1 = n)) h
        rw [filter_numbered, filter_numbered] at hmap
        obtain rfl : group = group' := List.map_injective_iff.mpr (fun _ _ he => (Prod.mk.inj he).2) hmap
        rw [numbered_cons, numbered_cons, List.append_cancel_left_eq] at h
        rw [ih (Nat.succ.inj hlen) h]
  · rintro rfl
    rfl

end Lines
