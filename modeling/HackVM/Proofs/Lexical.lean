import HackVM.Proofs.Markers
import Mathlib.Data.Nat.Digits.Defs

/-!
# Tokens, Numbers and Names

What a line consists of, said without the functions that read it.

Reading splits a line by a fold from the right, reads a numeral by a fold from
the left and tests names by a scan. The same notions are stated here the way a
description of the language states them. Tokens are the runs of characters
between white space; each run is followed by white space or by the end of the
line, which is what makes it as long as it can be. A number is a row of digits
of which the last counts ones, the one before it tens, and so on. A name is made
of certain characters and does not start with a digit.

Characters are given by their places in the code, and white space by the list of
its code points, so that neither rests on a test of the library.

## Main definitions

* `Text.whiteSpace`: The code points of white space.
* `Text.Tokens`: The tokens of a text.
* `Text.decimal`: The number that digits name.
* `IsDigits`: The text is a row of digits.
* `IsNumber`: The text is a number that fits a word.
* `IsSymbolName`: The text is a name.

## Theorems

* `Text.isBlank_iff`: Blanks are white space.
* `Text.tokens_iff`: The words of a text are its tokens.
* `Text.numeralValue_eq_decimal`: Both ways to read digits agree.
* `isNumeral_iff`: A numeral is a row of digits.
* `ofNumeral?_eq_some_iff`: Reading a numeral gives its number.
* `isName_iff`: The test for names finds the names.
-/

namespace HackVM

namespace Text

section Tokens

/-- The code points with the Unicode property White_Space, one by one. -/
def whiteSpace : List Nat :=
  [0x0009, 0x000A, 0x000B, 0x000C, 0x000D, 0x0020, 0x0085, 0x00A0, 0x1680, 0x2000, 0x2001, 0x2002,
    0x2003, 0x2004, 0x2005, 0x2006, 0x2007, 0x2008, 0x2009, 0x200A, 0x2028, 0x2029, 0x202F, 0x205F,
    0x3000]

/-- The tokens of a text, in order: its longest runs of characters that are not
    white space. -/
inductive Tokens : List Char → List String → Prop
  | nil : Tokens [] []
  | space {c : Char} {cs : List Char} {tokens : List String} :
      c.toNat ∈ whiteSpace → Tokens cs tokens → Tokens (c :: cs) tokens
  | last {token : String} :
      token ≠ "" → (∀ c ∈ token.toList, c.toNat ∉ whiteSpace) → Tokens token.toList [token]
  | next {token : String} {c : Char} {cs : List Char} {tokens : List String} :
      token ≠ "" → (∀ c ∈ token.toList, c.toNat ∉ whiteSpace) → c.toNat ∈ whiteSpace →
      Tokens cs tokens → Tokens (token.toList ++ c :: cs) (token :: tokens)

/-- The ranges of blanks hold white space and nothing else. -/
theorem isBlank_iff {c : Char} : isBlank c = true ↔ c.toNat ∈ whiteSpace := by
  simp only [isBlank, blankRanges, whiteSpace, List.any_cons, List.any_nil, Bool.or_false,
    Bool.or_eq_true, Bool.and_eq_true, decide_eq_true_eq, List.mem_cons, List.not_mem_nil,
    or_false]
  omega

theorem isBlank_eq_false_iff {c : Char} : isBlank c = false ↔ c.toNat ∉ whiteSpace := by
  rw [← isBlank_iff, Bool.not_eq_true]

/-- A blank in front adds no word. -/
theorem words_cons_blank {c : Char} (hc : isBlank c = true) (cs : List Char) :
    words (c :: cs) = words cs := by
  rw [words, List.foldr_cons, OpenWords.cons, if_pos hc]
  rfl

/-- A text without blanks is one word. -/
theorem words_of_visible {word : List Char} (hne : word ≠ [])
    (hword : ∀ c ∈ word, isBlank c = false) : words word = [word] := by
  have hempty : word.isEmpty = false := by simpa using hne
  rw [words, foldr_cons_word hword, OpenWords.close, List.append_nil, hempty]
  rfl

/-- Tokens are the words. -/
theorem words_of_tokens {cs : List Char} {tokens : List String} (h : Tokens cs tokens) :
    (words cs).map String.ofList = tokens := by
  induction h with
  | nil => rfl
  | space hc _ ih => rw [words_cons_blank (isBlank_iff.mpr hc), ih]
  | last hne hvisible =>
      rw [words_of_visible (String.toList_eq_nil_iff.not.mpr hne)
        fun c hc => isBlank_eq_false_iff.mpr (hvisible c hc)]
      simp
  | next hne hvisible hc _ ih =>
      rw [words_append_blank (String.toList_eq_nil_iff.not.mpr hne)
        (fun c hc => isBlank_eq_false_iff.mpr (hvisible c hc)) (isBlank_iff.mpr hc),
        List.map_cons, ih, String.ofList_toList]

/-- A text that starts with a visible character is a word, and behind it nothing
    or a blank and the rest. -/
theorem exists_first_word {c : Char} (hc : isBlank c = false) (cs : List Char) :
    ∃ word : String, word ≠ "" ∧ (∀ d ∈ word.toList, isBlank d = false) ∧
      (c :: cs = word.toList ∨
        ∃ d rest, c :: cs = word.toList ++ d :: rest ∧ isBlank d = true) := by
  induction cs generalizing c with
  | nil => exact ⟨String.ofList [c], by simp, by simpa using hc, Or.inl (by simp)⟩
  | cons d ds ih =>
      by_cases hd : isBlank d = true
      · exact ⟨String.ofList [c], by simp, by simpa using hc, Or.inr ⟨d, ds, by simp, hd⟩⟩
      · -- The next character is visible, too, and its word grows by this one.
        rcases ih (Bool.not_eq_true _ ▸ hd) with ⟨word, -, hvisible, hsplit⟩
        refine ⟨String.ofList (c :: word.toList), by simp, ?_, ?_⟩
        · rw [String.toList_ofList]
          exact List.forall_mem_cons.mpr ⟨hc, hvisible⟩
        · rw [String.toList_ofList]
          rcases hsplit with hall | ⟨e, rest, hrest, he⟩
          · exact Or.inl (by rw [hall])
          · exact Or.inr ⟨e, rest, by rw [hrest, List.cons_append], he⟩

/-- Every text has tokens. -/
theorem exists_tokens (cs : List Char) : ∃ tokens, Tokens cs tokens := by
  -- A token may be of any length, so the induction is on that of the text.
  induction hlength : cs.length using Nat.strong_induction_on generalizing cs with
  | _ n ih =>
      cases cs with
      | nil => exact ⟨[], .nil⟩
      | cons c cs =>
          by_cases hc : isBlank c = true
          · rcases ih cs.length (by rw [← hlength]; exact Nat.lt_succ_self _) cs rfl with
              ⟨tokens, htokens⟩
            exact ⟨tokens, .space (isBlank_iff.mp hc) htokens⟩
          · rcases exists_first_word (Bool.not_eq_true _ ▸ hc) cs with
              ⟨word, hne, hvisible, hsplit⟩
            have hword : ∀ d ∈ word.toList, d.toNat ∉ whiteSpace :=
              fun d hd => isBlank_eq_false_iff.mp (hvisible d hd)
            rcases hsplit with hall | ⟨d, rest, hrest, hd⟩
            · exact ⟨[word], hall ▸ .last hne hword⟩
            · have hshorter : rest.length < n := by
                rw [← hlength, hrest, List.length_append, List.length_cons]
                omega
              rcases ih rest.length hshorter rest rfl with ⟨tokens, htokens⟩
              exact ⟨word :: tokens, hrest ▸ .next hne hword (isBlank_iff.mp hd) htokens⟩

/-- The words of a text are its tokens, and it has no others. -/
theorem tokens_iff {cs : List Char} {tokens : List String} :
    Tokens cs tokens ↔ tokens = (words cs).map String.ofList := by
  constructor
  · intro h
    exact (words_of_tokens h).symm
  · rintro rfl
    rcases exists_tokens cs with ⟨tokens, htokens⟩
    rw [words_of_tokens htokens]
    exact htokens

end Tokens

section Numbers

/-- The number that digits name: the last digit counts ones, the one before it
    tens, and so on. -/
def decimal (digits : List Char) : Nat :=
  Nat.ofDigits 10 (digits.reverse.map fun c => c.toNat - '0'.toNat)

/-- Reading digits from the left gives the number that they name. -/
theorem numeralValue_eq_decimal (cs : List Char) : numeralValue cs = decimal cs := by
  -- Reading ends with the ones, so the digits are taken from the right.
  have hreverse : ∀ digits : List Char, Nat.ofDigitChars 10 digits.reverse 0 =
      Nat.ofDigits 10 (digits.map fun c => c.toNat - '0'.toNat) := by
    intro digits
    induction digits with
    | nil => rfl
    | cons c digits ih =>
        rw [List.reverse_cons, Nat.ofDigitChars_append, ih, List.map_cons, Nat.ofDigits_cons,
          Nat.ofDigitChars_cons, Nat.ofDigitChars_nil, Nat.add_comm]
  rw [numeralValue, decimal, ← hreverse, List.reverse_reverse]

end Numbers

end Text

/-- The text is a row of digits. -/
def IsDigits (text : String) : Prop :=
  text ≠ "" ∧ ∀ c ∈ text.toList, '0' ≤ c ∧ c ≤ '9'

instance (text : String) : Decidable (IsDigits text) :=
  @instDecidableAnd _ _ inferInstance (List.decidableBAll _ _)

/-- The text is a row of digits and names the word. -/
def IsNumber (text : String) (value : Word) : Prop :=
  text ≠ "" ∧ (∀ c ∈ text.toList, '0' ≤ c ∧ c ≤ '9') ∧ Text.decimal text.toList = value.toNat

/-- The text is made of ASCII letters, digits and four signs, and does not start
    with a digit. -/
def IsSymbolName (text : String) : Prop :=
  text ≠ "" ∧
  (∀ c ∈ text.toList, ('a' ≤ c ∧ c ≤ 'z') ∨ ('A' ≤ c ∧ c ≤ 'Z') ∨ ('0' ≤ c ∧ c ≤ '9') ∨
    c ∈ ['_', '.', '$', ':']) ∧
  ∀ c, text.toList.head? = some c → ¬('0' ≤ c ∧ c ≤ '9')

theorem isDigit_iff {c : Char} : c.isDigit = true ↔ '0' ≤ c ∧ c ≤ '9' := by
  have hdigit : c.isDigit = (decide (c.val ≥ '0'.val) && decide (c.val ≤ '9'.val)) := rfl
  rw [hdigit, Bool.and_eq_true, decide_eq_true_eq, decide_eq_true_eq]
  rfl

theorem isNameChar_iff {c : Char} :
    isNameChar c = true ↔ ('a' ≤ c ∧ c ≤ 'z') ∨ ('A' ≤ c ∧ c ≤ 'Z') ∨ ('0' ≤ c ∧ c ≤ '9') ∨
      c ∈ ['_', '.', '$', ':'] := by
  have halphanum : c.isAlphanum = ((c.isUpper || c.isLower) || c.isDigit) := rfl
  have hupper : c.isUpper = true ↔ 'A' ≤ c ∧ c ≤ 'Z' := decide_eq_true_iff
  have hlower : c.isLower = true ↔ 'a' ≤ c ∧ c ≤ 'z' := by
    have hrange : c.isLower = (decide (c.val ≥ 'a'.val) && decide (c.val ≤ 'z'.val)) := rfl
    rw [hrange, Bool.and_eq_true, decide_eq_true_eq, decide_eq_true_eq]
    rfl
  simp only [isNameChar, halphanum, Bool.or_eq_true, hupper, hlower, isDigit_iff, beq_iff_eq,
    List.mem_cons, List.not_mem_nil, or_false, or_assoc]
  exact or_left_comm

/-- A numeral is a row of digits. -/
theorem isNumeral_iff {text : String} :
    Text.isNumeral text.toList = true ↔ IsDigits text := by
  simp only [Text.isNumeral, Bool.and_eq_true, Bool.not_eq_true', List.isEmpty_eq_false_iff,
    ne_eq, String.toList_eq_nil_iff, List.all_eq_true, isDigit_iff, IsDigits]

theorem IsNumber.isNumeral {text : String} {value : Word} (h : IsNumber text value) :
    Text.isNumeral text.toList = true :=
  isNumeral_iff.mpr ⟨h.1, h.2.1⟩

/-- Reading a numeral gives its number, if a word can hold it. -/
theorem ofNumeral?_eq_some_iff {text : String} {value : Word} :
    Word.ofNumeral? text.toList = some value ↔ IsNumber text value := by
  have hsize := value.isLt
  simp only [Word.ofNumeral?, Text.readNumeral?, Option.map_eq_some_iff, Bool.and_eq_true,
    decide_eq_true_eq, Option.ite_none_right_eq_some, Option.some.injEq, isNumeral_iff,
    IsDigits, Text.numeralValue_eq_decimal, IsNumber]
  constructor
  · rintro ⟨_, ⟨⟨⟨hne, hdigits⟩, hle⟩, rfl⟩, rfl⟩
    refine ⟨hne, hdigits, ?_⟩
    -- The limit is the greatest word, so the word is the number.
    rw [BitVec.toNat_ofNat, Nat.mod_eq_of_lt (by omega)]
  · rintro ⟨hne, hdigits, hvalue⟩
    refine ⟨_, ⟨⟨⟨hne, hdigits⟩, by omega⟩, rfl⟩, ?_⟩
    rw [hvalue, BitVec.ofNat_toNat, BitVec.setWidth_eq]

/-- The test for names finds the names. -/
theorem isName_iff {name : String} : isName name = true ↔ IsSymbolName name := by
  rw [isName, IsSymbolName, ne_eq, ← String.toList_eq_nil_iff]
  cases name.toList with
  | nil => simp
  | cons c rest =>
      simp only [Bool.and_eq_true, Bool.not_eq_true', List.all_eq_true, isNameChar_iff,
        reduceCtorEq, not_false_eq_true, true_and, List.forall_mem_cons, List.head?_cons,
        Option.some.injEq, forall_eq', ← isDigit_iff, Bool.not_eq_true]
      exact and_assoc.trans and_comm

end HackVM
