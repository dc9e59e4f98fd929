import KernelSim.Library.Decimal
import Mathlib.Data.List.Infix

/-! Records printed after a format, and read back: fixed text, integers, one of some words, and text
up to a character. -/
namespace Formats
open Decimal

/-- How the text of a record goes on. -/
inductive Format
  | stop
  | text (s : List Char) (rest : Format)
  /-- `%d` -/
  | int (rest : Format)
  /-- one of the words, which decides what follows -/
  | oneOf (words : List (List Char)) (rest : ℕ → Format)
  /-- any text that the character does not occur in, and the character -/
  | upTo (c : Char) (rest : Format)

/-- What fills a place of a format. -/
inductive Field
  | int (z : ℤ)
  | word (i : ℕ)
  | str (s : List Char)
  deriving DecidableEq, Repr

def print : Format → List Field → List Char
  | .text s f, fields => s ++ print f fields
  | .int f, .int z :: fields => decimal z ++ print f fields
  | .oneOf words f, .word i :: fields => words.getD i [] ++ print (f i) fields
  | .upTo c f, .str s :: fields => s ++ c :: print f fields
  | _, _ => []

/-- The fields are what the format asks for. -/
def Conforms : Format → List Field → Prop
  | .stop, fields => fields = []
  | .text _ f, fields => Conforms f fields
  | .int f, .int _ :: fields => Conforms f fields
  | .oneOf words f, .word i :: fields => i < words.length ∧ Conforms (f i) fields
  | .upTo c f, .str s :: fields => c ∉ s ∧ Conforms f fields
  | _, _ => False

/-- A record at the start of a text, and the text after it. -/
def scan : Format → List Char → Option (List Field × List Char)
  | .stop, t => some ([], t)
  | .text s f, t => if s.isPrefixOf t then scan f (t.drop s.length) else none
  | .int f, t => do
    let (z, t) ← scanInt t
    let (fields, t) ← scan f t
    return (.int z :: fields, t)
  | .oneOf words f, t => do
    let i ← words.findIdx? (·.isPrefixOf t)
    let (fields, t) ← scan (f i) (t.drop (words.getD i []).length)
    return (.word i :: fields, t)
  | .upTo c f, t => do
    let (fields, rest) ← scan f ((t.dropWhile (· ≠ c)).drop 1)
    return (.str (t.takeWhile (· ≠ c)) :: fields, rest)

/-- The records of a text, up to the first place where none can be read. -/
def scanAll (f : Format) : ℕ → List Char → List (List Field)
  | 0, _ => []
  | fuel + 1, t =>
    match scan f t with
    | some (fields, rest) => fields :: scanAll f fuel rest
    | none => []

def readAll (f : Format) (t : List Char) : List (List Field) := scanAll f t.length t

/-- No word starts another. -/
def PrefixFree (words : List (List Char)) : Prop :=
  words.Pairwise fun u w => ¬ u <+: w ∧ ¬ w <+: u

/-- What is printed goes on with a character that is no digit. -/
def EndsNumber : Format → Prop
  | .text s _ => s.head?.any (!·.isDigit)
  | .oneOf words _ => ∀ w ∈ words, w.head?.any (!·.isDigit)
  | _ => False

/-- A format whose records can be told apart by their text. -/
def Unambiguous : Format → Prop
  | .stop => True
  | .text _ f => Unambiguous f
  | .int f => EndsNumber f ∧ Unambiguous f
  | .oneOf words f => PrefixFree words ∧ ∀ i < words.length, Unambiguous (f i)
  | .upTo _ f => Unambiguous f

instance : ∀ f, Decidable (EndsNumber f)
  | .stop => inferInstanceAs (Decidable False)
  | .text s _ => inferInstanceAs (Decidable (s.head?.any (!·.isDigit) = true))
  | .int _ => inferInstanceAs (Decidable False)
  | .oneOf words _ => inferInstanceAs (Decidable (∀ w ∈ words, w.head?.any (!·.isDigit) = true))
  | .upTo _ _ => inferInstanceAs (Decidable False)

instance (words : List (List Char)) : Decidable (PrefixFree words) :=
  inferInstanceAs (Decidable (words.Pairwise fun u w => ¬ u <+: w ∧ ¬ w <+: u))

instance decidableUnambiguous : ∀ f, Decidable (Unambiguous f)
  | .stop => isTrue trivial
  | .text _ f => decidableUnambiguous f
  | .int f => @instDecidableAnd _ _ _ (decidableUnambiguous f)
  | .oneOf words f => @instDecidableAnd _ _ _
      (@Nat.decidableBallLT words.length (fun i _ => Unambiguous (f i)) fun i _ => decidableUnambiguous (f i))
  | .upTo _ f => decidableUnambiguous f

variable {f : Format} {fields : List Field} {rest t : List Char} {records : List (List Field)}
  {words : List (List Char)} {s : List Char} {i : ℕ} {c : Char}

theorem getD_word (h : i < words.length) : words.getD i [] = words[i] := by
  simp [h]

theorem noDigit_append (h : s.head?.any (!·.isDigit) = true) : NoDigit (s ++ t) := by
  cases s with
  | nil => cases h
  | cons c s => exact noDigit_cons (by simpa using h)

/-- A number printed before such a format can be read up to its end. -/
theorem noDigit_print (h : EndsNumber f) (hf : Conforms f fields) : NoDigit (print f fields ++ rest) := by
  cases f with
  | stop => exact h.elim
  | int f => exact h.elim
  | upTo c f => exact h.elim
  | text s f =>
    rw [print, List.append_assoc]
    exact noDigit_append h
  | oneOf words f =>
    cases fields with
    | nil => exact hf.elim
    | cons field fields =>
      cases field with
      | int z => exact hf.elim
      | str s => exact hf.elim
      | word i =>
        rw [print, List.append_assoc]
        apply noDigit_append
        rw [getD_word hf.1]
        exact h _ (List.getElem_mem hf.1)

/-- The word that a text starts with is found among words none of which starts another. -/
theorem findIdx?_word (h : PrefixFree words) (hi : i < words.length) :
    words.findIdx? (·.isPrefixOf (words.getD i [] ++ t)) = some i := by
  rw [List.findIdx?_eq_some_iff_getElem, getD_word hi]
  refine ⟨hi, ?_, ?_⟩
  · rw [List.isPrefixOf_iff_prefix]
    exact List.prefix_append _ _
  · intro j hj
    rw [List.isPrefixOf_iff_prefix]
    intro hpre
    have hpair := List.pairwise_iff_getElem.mp h j i (hj.trans hi) hi hj
    rcases List.prefix_or_prefix_of_prefix hpre (List.prefix_append words[i] t) with hji | hij
    · exact hpair.1 hji
    · exact hpair.2 hij

theorem takeWhile_upTo (h : c ∉ s) :
    (s ++ c :: t).takeWhile (· ≠ c) = s ∧ (s ++ c :: t).dropWhile (· ≠ c) = c :: t := by
  have hne : ∀ d ∈ s, decide (d ≠ c) = true := by
    intro d hd
    rw [decide_eq_true_eq]
    rintro rfl
    exact h hd
  rw [List.takeWhile_append_of_pos hne, List.dropWhile_append_of_pos hne]
  simp

/-- Reading back what was printed, whatever comes after it. -/
theorem scan_print (hr : Unambiguous f) (hf : Conforms f fields) :
    scan f (print f fields ++ rest) = some (fields, rest) := by
  induction f generalizing fields with
  | stop =>
    obtain rfl : fields = [] := hf
    rfl
  | text s f ih =>
    have hpre : s.isPrefixOf (s ++ (print f fields ++ rest)) = true :=
      List.isPrefixOf_iff_prefix.mpr (List.prefix_append _ _)
    rw [print, List.append_assoc, scan, if_pos hpre, List.drop_left]
    exact ih hr hf
  | int f ih =>
    cases fields with
    | nil => exact hf.elim
    | cons field fields =>
      cases field with
      | word i => exact hf.elim
      | str s => exact hf.elim
      | int z =>
        have hend : NoDigit (print f fields ++ rest) := noDigit_print hr.1 hf
        rw [print, List.append_assoc, scan, scanInt_decimal z hend]
        simp [ih hr.2 hf]
  | oneOf words f ih =>
    cases fields with
    | nil => exact hf.elim
    | cons field fields =>
      cases field with
      | int z => exact hf.elim
      | str s => exact hf.elim
      | word i =>
        rw [print, List.append_assoc, scan, findIdx?_word hr.1 hf.1]
        simp [ih i (hr.2 i hf.1) hf.2]
  | upTo c f ih =>
    cases fields with
    | nil => exact hf.elim
    | cons field fields =>
      cases field with
      | int z => exact hf.elim
      | word i => exact hf.elim
      | str s =>
        obtain ⟨htake, hdrop⟩ := takeWhile_upTo (t := print f fields ++ rest) hf.1
        rw [print, List.append_assoc, List.cons_append, scan, htake, hdrop]
        simp [ih hr hf.2]

/-- A text of whole records, none of them empty, reads back as these records. -/
theorem readAll_print (hr : Unambiguous f) (hf : ∀ fields ∈ records, Conforms f fields)
    (hpos : ∀ fields ∈ records, print f fields ≠ []) (hstop : scan f [] = none) :
    readAll f (records.flatMap (print f)) = records := by
  have hscan : ∀ fuel, records.length ≤ fuel →
      scanAll f fuel (records.flatMap (print f)) = records := by
    induction records with
    | nil =>
      intro fuel _
      cases fuel with
      | zero => rfl
      | succ fuel => simp [scanAll, hstop]
    | cons fields records ih =>
      intro fuel hfuel
      rw [List.length_cons] at hfuel
      obtain ⟨fuel, rfl⟩ : ∃ m, fuel = m + 1 := ⟨fuel - 1, by omega⟩
      rw [List.flatMap_cons, scanAll, scan_print hr (hf _ List.mem_cons_self)]
      simp only [List.cons.injEq, true_and]
      exact ih (fun r h => hf r (List.mem_cons_of_mem _ h))
        (fun r h => hpos r (List.mem_cons_of_mem _ h)) fuel (Nat.le_of_succ_le_succ hfuel)
  apply hscan
  clear hscan hf
  induction records with
  | nil => exact Nat.zero_le _
  | cons fields records ih =>
    have hlen := List.length_pos_iff.mpr (hpos _ List.mem_cons_self)
    have hrest := ih fun r h => hpos r (List.mem_cons_of_mem _ h)
    rw [List.flatMap_cons, List.length_append, List.length_cons]
    omega

end Formats
