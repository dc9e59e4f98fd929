import Mathlib.Algebra.Order.Ring.Int
import Mathlib.Data.List.TakeWhile

/-! Integers as decimal text: printing one, and reading one as the conversions of C do. -/
namespace Decimal

/-- The text of an integer, as `%d` prints it. -/
def decimal : ℤ → List Char
  | .ofNat n => Nat.toDigits 10 n
  | .negSucc n => '-' :: Nat.toDigits 10 (n + 1)

/-- `isspace` -/
def isSpace (c : Char) : Bool := [' ', '\t', '\n', '\x0b', '\x0c', '\r'].contains c

/-- The longest run of digits at the start of a text, and the text behind it. -/
def scanNat (text : List Char) : Option (ℕ × List Char) :=
  match text.takeWhile Char.isDigit with
  | [] => none
  | digits => some (Nat.ofDigitChars 10 digits 0, text.dropWhile Char.isDigit)

def scanSigned : List Char → Option (ℤ × List Char)
  | [] => none
  | c :: text =>
    if c = '-' then (scanNat text).map fun (n, rest) => (-n, rest)
    else if c = '+' then (scanNat text).map fun (n, rest) => (n, rest)
    else (scanNat (c :: text)).map fun (n, rest) => (n, rest)

/-- An integer at the start of a text, behind white space and a sign, and the text after it. -/
def scanInt (text : List Char) : Option (ℤ × List Char) := scanSigned (text.dropWhile isSpace)

/-- The text does not go on with a digit. -/
def NoDigit (text : List Char) : Prop := ∀ c, text.head? = some c → c.isDigit = false

variable {text rest digits : List Char} {c : Char} {n k : ℕ} {z : ℤ}

theorem noDigit_nil : NoDigit [] := by
  intro c h
  cases h

theorem noDigit_cons (h : c.isDigit = false) : NoDigit (c :: rest) := by
  intro d hd
  obtain rfl : c = d := Option.some.inj hd
  exact h

theorem ne_of_isDigit {d : Char} (hc : c.isDigit = true) (hd : d.isDigit = false) : c ≠ d := by
  rintro rfl
  rw [hc] at hd
  cases hd

theorem isSpace_of_isDigit (h : c.isDigit = true) : isSpace c = false := by
  rw [isSpace, List.contains_eq_mem, decide_eq_false_iff_not]
  intro hmem
  simp only [List.mem_cons, List.not_mem_nil, or_false] at hmem
  rcases hmem with rfl | rfl | rfl | rfl | rfl | rfl <;> cases h

/-- Digits up to a character that is none. -/
theorem span_digits (hd : ∀ c ∈ digits, c.isDigit = true) (hr : NoDigit rest) :
    (digits ++ rest).takeWhile Char.isDigit = digits ∧
      (digits ++ rest).dropWhile Char.isDigit = rest := by
  rw [List.takeWhile_append_of_pos hd, List.dropWhile_append_of_pos hd]
  cases rest with
  | nil => simp
  | cons c rest =>
    have hc := hr c rfl
    simp [hc]

theorem isDigit_toDigits (h : c ∈ Nat.toDigits 10 n) : c.isDigit = true :=
  Nat.isDigit_of_mem_toDigits (by omega) (by omega) h

theorem scanNat_toDigits (hr : NoDigit rest) :
    scanNat (Nat.toDigits 10 n ++ rest) = some (n, rest) := by
  obtain ⟨htake, hdrop⟩ := span_digits (fun _ h => isDigit_toDigits (n := n) h) hr
  unfold scanNat
  split
  · rename_i hnil
    rw [htake] at hnil
    exact absurd hnil Nat.toDigits_ne_nil
  · rw [htake, hdrop, Nat.ofDigitChars_ten_toDigits]

/-- A number starts with a digit, which is neither white space nor a sign. -/
theorem exists_toDigits (n : ℕ) : ∃ c digits, Nat.toDigits 10 n = c :: digits ∧ c.isDigit = true := by
  cases h : Nat.toDigits 10 n with
  | nil => exact absurd h Nat.toDigits_ne_nil
  | cons c digits =>
    have hc : c ∈ Nat.toDigits 10 n := h ▸ List.mem_cons_self
    exact ⟨c, digits, rfl, isDigit_toDigits hc⟩

theorem mem_decimal (h : c ∈ decimal z) : c.isDigit = true ∨ c = '-' := by
  cases z with
  | ofNat n => exact Or.inl (isDigit_toDigits h)
  | negSucc n =>
    rcases List.mem_cons.mp h with rfl | h
    · exact Or.inr rfl
    · exact Or.inl (isDigit_toDigits h)

theorem scanInt_space (h : isSpace c = true) : scanInt (c :: text) = scanInt text := by
  rw [scanInt, List.dropWhile_cons_of_pos h]
  rfl

theorem scanInt_of_not_space (h : isSpace c = false) :
    scanInt (c :: text) = scanSigned (c :: text) := by
  rw [scanInt, List.dropWhile_cons_of_neg (by simp [h])]

/-- Reading back what was printed, up to where the digits end. -/
theorem scanInt_decimal (z : ℤ) (hr : NoDigit rest) :
    scanInt (decimal z ++ rest) = some (z, rest) := by
  cases z with
  | ofNat n =>
    obtain ⟨c, digits, heq, hc⟩ := exists_toDigits n
    have hminus : c ≠ '-' := ne_of_isDigit hc rfl
    have hplus : c ≠ '+' := ne_of_isDigit hc rfl
    have hscan := scanNat_toDigits (n := n) hr
    rw [heq, List.cons_append] at hscan
    rw [decimal, heq, List.cons_append, scanInt_of_not_space (isSpace_of_isDigit hc), scanSigned,
      if_neg hminus, if_neg hplus, hscan]
    rfl
  | negSucc n =>
    have hscan := scanNat_toDigits (n := n + 1) hr
    rw [decimal, List.cons_append, scanInt_of_not_space rfl, scanSigned, if_pos rfl, hscan]
    rfl

/-! Reading a number depends on nothing but the characters that it takes. -/

/-- White space, signs and digits. -/
def isNumeric (c : Char) : Bool := isSpace c || c == '-' || c == '+' || c.isDigit

theorem noDigit_dropWhile (text : List Char) : NoDigit (text.dropWhile Char.isDigit) := by
  intro c hc
  have hnot := List.head?_dropWhile_not Char.isDigit text
  rw [hc] at hnot
  simpa using hnot

theorem noDigit_takeWhile (p : Char → Bool) (h : NoDigit rest) : NoDigit (rest.takeWhile p) := by
  cases rest with
  | nil => exact noDigit_nil
  | cons c rest =>
    have hc := h c rfl
    by_cases hp : p c = true
    · rw [List.takeWhile_cons_of_pos hp]
      exact noDigit_cons hc
    · rw [List.takeWhile_cons_of_neg hp]
      exact noDigit_nil

theorem scanNat_some (h : scanNat text = some (n, rest)) :
    ∃ c digits, text = c :: digits ++ rest ∧ (∀ d ∈ c :: digits, d.isDigit = true) ∧ NoDigit rest ∧
      ∀ after, NoDigit after → scanNat (c :: digits ++ after) = some (n, after) := by
  unfold scanNat at h
  split at h
  · cases h
  · rename_i digits hne
    obtain ⟨hn, hrest⟩ := Prod.mk.inj (Option.some.inj h)
    have htext : text = text.takeWhile Char.isDigit ++ rest := by
      rw [← hrest, List.takeWhile_append_dropWhile]
    have hdigits : ∀ d ∈ text.takeWhile Char.isDigit, d.isDigit = true :=
      fun d hd => List.mem_takeWhile_imp hd
    have hend : NoDigit rest := hrest ▸ noDigit_dropWhile text
    generalize text.takeWhile Char.isDigit = taken at *
    cases taken with
    | nil => exact absurd rfl hne
    | cons c digits =>
      refine ⟨c, digits, htext, hdigits, hend, ?_⟩
      intro after hafter
      obtain ⟨htake, hdrop⟩ := span_digits hdigits hafter
      rw [scanNat, htake, hdrop]
      simp [hn]

theorem scanSigned_some (h : scanSigned text = some (z, rest)) :
    ∃ c taken, text = c :: taken ++ rest ∧ isSpace c = false ∧
      (∀ d ∈ c :: taken, isNumeric d = true) ∧ NoDigit rest ∧
      ∀ after, NoDigit after → scanSigned (c :: taken ++ after) = some (z, after) := by
  have hdigit : ∀ {d : Char}, d.isDigit = true → isNumeric d = true := by
    intro d hd
    simp [isNumeric, hd]
  cases text with
  | nil => cases h
  | cons c text =>
    rw [scanSigned] at h
    by_cases hminus : c = '-'
    · subst hminus
      rw [if_pos rfl] at h
      obtain ⟨⟨n, after⟩, hscan, heq⟩ := Option.map_eq_some_iff.mp h
      cases heq
      obtain ⟨d, digits, rfl, hd, hend, hlocal⟩ := scanNat_some hscan
      refine ⟨'-', d :: digits, rfl, rfl, ?_, hend, ?_⟩
      · rintro e (_ | ⟨_, he⟩)
        · rfl
        · exact hdigit (hd e he)
      · intro after hafter
        rw [List.cons_append, scanSigned, if_pos rfl, hlocal after hafter]
        rfl
    by_cases hplus : c = '+'
    · subst hplus
      rw [if_neg hminus, if_pos rfl] at h
      obtain ⟨⟨n, after⟩, hscan, heq⟩ := Option.map_eq_some_iff.mp h
      cases heq
      obtain ⟨d, digits, rfl, hd, hend, hlocal⟩ := scanNat_some hscan
      refine ⟨'+', d :: digits, rfl, rfl, ?_, hend, ?_⟩
      · rintro e (_ | ⟨_, he⟩)
        · rfl
        · exact hdigit (hd e he)
      · intro after hafter
        rw [List.cons_append, scanSigned, if_neg hminus, if_pos rfl, hlocal after hafter]
        rfl
    · rw [if_neg hminus, if_neg hplus] at h
      obtain ⟨⟨n, after⟩, hscan, heq⟩ := Option.map_eq_some_iff.mp h
      cases heq
      obtain ⟨d, digits, htext, hd, hend, hlocal⟩ := scanNat_some hscan
      obtain ⟨rfl, rfl⟩ := List.cons.inj htext
      refine ⟨c, digits, rfl, isSpace_of_isDigit (hd c List.mem_cons_self),
        fun e he => hdigit (hd e he), hend, ?_⟩
      intro after hafter
      have hscan' := hlocal after hafter
      rw [List.cons_append] at hscan' ⊢
      rw [scanSigned, if_neg hminus, if_neg hplus, hscan']
      rfl

theorem scanInt_some (h : scanInt text = some (z, rest)) :
    ∃ taken, text = taken ++ rest ∧ (∀ c ∈ taken, isNumeric c = true) ∧ NoDigit rest ∧
      ∀ after, NoDigit after → scanInt (taken ++ after) = some (z, after) := by
  obtain ⟨c, taken, htext, hc, hnumeric, hend, hlocal⟩ := scanSigned_some h
  have hspaces : ∀ d ∈ text.takeWhile isSpace, isSpace d = true :=
    fun d hd => List.mem_takeWhile_imp hd
  refine ⟨text.takeWhile isSpace ++ (c :: taken), ?_, ?_, hend, ?_⟩
  · rw [List.append_assoc, ← htext, List.takeWhile_append_dropWhile]
  · intro d hd
    rcases List.mem_append.mp hd with hd | hd
    · simp [isNumeric, hspaces d hd]
    · exact hnumeric d hd
  · intro after hafter
    rw [scanInt, List.append_assoc, List.dropWhile_append_of_pos hspaces, List.cons_append,
      List.dropWhile_cons_of_neg (by simp [hc])]
    exact hlocal after hafter

/-- A text cut where a character comes that no number has. -/
theorem scanInt_takeWhile {p : Char → Bool} (hp : ∀ c, isNumeric c = true → p c = true)
    (h : scanInt text = some (z, rest)) :
    scanInt (text.takeWhile p) = some (z, rest.takeWhile p) := by
  obtain ⟨taken, rfl, hnumeric, hend, hlocal⟩ := scanInt_some h
  rw [List.takeWhile_append_of_pos fun c hc => hp c (hnumeric c hc)]
  exact hlocal _ (noDigit_takeWhile p hend)

/-- How much room the text takes, the sign included. -/
theorem length_decimal_le_iff (hk : 0 < k) :
    (decimal z).length ≤ k ↔ -10 ^ (k - 1) < z ∧ z < 10 ^ k := by
  have hpos : (0 : ℤ) < 10 ^ (k - 1) := pow_pos (by omega) _
  have hpos' : (0 : ℤ) < 10 ^ k := pow_pos (by omega) _
  cases z with
  | ofNat n =>
    rw [decimal, Nat.length_toDigits_le_iff (by omega) hk, Int.ofNat_eq_natCast]
    constructor
    · intro h
      have hcast : (n : ℤ) < 10 ^ k := by exact_mod_cast h
      exact ⟨by omega, hcast⟩
    · rintro ⟨-, h⟩
      exact_mod_cast h
  | negSucc n =>
    rw [decimal, List.length_cons, Int.negSucc_eq]
    obtain ⟨k, rfl⟩ := Nat.exists_eq_add_of_lt hk
    rw [Nat.zero_add, Nat.add_sub_cancel, Nat.add_le_add_iff_right]
    cases k with
    | zero =>
      have hlen : 0 < (Nat.toDigits 10 (n + 1)).length := Nat.length_toDigits_pos
      constructor
      · omega
      · intro h
        simp at h
        omega
    | succ k =>
      rw [Nat.length_toDigits_le_iff (by omega) (Nat.succ_pos k)]
      constructor
      · intro h
        have hcast : ((n : ℤ) + 1) < 10 ^ (k + 1) := by exact_mod_cast h
        exact ⟨by omega, by omega⟩
      · rintro ⟨h, -⟩
        have hcast : ((n : ℤ) + 1) < 10 ^ (k + 1) := by omega
        exact_mod_cast hcast

end Decimal
