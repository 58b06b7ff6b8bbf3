import Asm6502.Lexeme
import Asm6502.Proofs.Boundary

/-!
# Which rule a first character selects

The rules of `Lexeme.Rule` are tried one after another, but the order does not
matter: no character starts lexemes of two rules.  This file says, rule by rule,
which characters those are, without an order.

A blank or a semicolon belongs to no class that a token goes on with.  It
therefore ends whatever stands in front of it, except a string, which has an end
mark of its own.

## Main results

* `Rule.of?_eq_some_iff` — a character selects a rule exactly if it starts it.
* `run_of_boundary`, `word_of_boundary`, `word_of_colon` — what the longest match
  takes if the text behind it cannot go on.
-/

namespace Asm6502

namespace Text

theorem isAlpha_iff_toNat {c : Char} : c.isAlpha = true ↔
    (65 ≤ c.toNat ∧ c.toNat ≤ 90) ∨ (97 ≤ c.toNat ∧ c.toNat ≤ 122) := by
  show (decide (c.val ≥ 'A'.val ∧ c.val ≤ 'Z'.val) ||
    (decide (c.val ≥ 'a'.val) && decide (c.val ≤ 'z'.val))) = true ↔ _
  simp only [Bool.or_eq_true, decide_eq_true_eq, Bool.and_eq_true, ge_iff_le,
    UInt32.le_iff_toNat_le]
  exact Iff.rfl

/-- A digit is no letter, so numerals and names never compete. -/
theorem isDigit_eq_false_of_isWordStart {c : Char} (h : isWordStart c = true) :
    c.isDigit = false := by
  rw [Bool.eq_false_iff]
  intro hdigit
  have hrange : 48 ≤ c.toNat ∧ c.toNat ≤ 57 := Char.isDigit_iff_toNat.1 hdigit
  have hlow : c.toNat < 128 := by omega
  simp only [isWordStart, isAlphabetic, hlow, if_true, Bool.or_eq_true, beq_iff_eq,
    isAlpha_iff_toNat] at h
  rcases h with hletter | rfl
  · omega
  · exact absurd hdigit (by decide)

/-- Whether a text is one name from end to end. -/
def isWord : List Char → Bool
  | [] => false
  | c :: cs => isWordStart c && cs.all isWordChar

/-- What separates two tokens starts with a blank or, at a comment, a semicolon. -/
def startsSeparator (c : Char) : Bool := isBlank c || c == ';'

/-- The five characters that do. -/
def separatorStarts : List Char := [' ', '\t', '\r', '\n', ';']

theorem mem_separatorStarts {c : Char} (h : startsSeparator c = true) : c ∈ separatorStarts := by
  simpa [separatorStarts, startsSeparator, isBlank, or_assoc] using h

/-- A class without these characters ends in front of each of them. -/
theorem eq_false_of_startsSeparator {p : Char → Bool} {c : Char}
    (hp : separatorStarts.all (fun c => !p c) = true) (h : startsSeparator c = true) :
    p c = false := by
  have hnot := List.all_eq_true.1 hp c (mem_separatorStarts h)
  simpa using hnot

end Text

namespace Token.Kind

/-- The characters that are tokens of their own, with their kinds. -/
def punctuation : List (Char × Kind) :=
  [ ('=', .equals), (',', .comma), ('#', .hash), ('+', .plus), ('-', .minus)
  , ('<', .less), ('>', .greater), ('(', .parenLeft), (')', .parenRight), (':', .colon) ]

/-- There are no others, so what holds of the ten holds of all punctuation. -/
theorem mem_punctuation {c : Char} {k : Kind} (h : ofPunctuation? c = some k) :
    (c, k) ∈ punctuation := by
  unfold ofPunctuation? at h
  split at h
  case h_11 => cases h
  all_goals
    cases h
    decide

end Token.Kind

namespace Lexeme

/-- The characters that start a lexeme of the rule. -/
def Rule.Starts (c : Char) : Rule → Prop
  | .blank => Text.isBlank c = true
  | .comment => c = ';'
  | .directive => c = '.'
  | .hexadecimal => c = '$'
  | .binary => c = '%'
  | .string => Text.isQuote c = true
  | .decimal => c.isDigit = true
  | .word => Text.isWordStart c = true
  | .punctuation k => Token.Kind.ofPunctuation? c = some k

/-- The order in which the rules are tried plays no part. -/
theorem Rule.of?_eq_some_iff {c : Char} {r : Rule} : Rule.of? c = some r ↔ r.Starts c := by
  constructor
  · intro h
    unfold Rule.of? at h
    repeat' split at h
    case isFalse.isFalse.isFalse.isFalse.isFalse.isFalse.isFalse.isFalse =>
      obtain ⟨k, hk, rfl⟩ := Option.map_eq_some_iff.1 h
      exact hk
    all_goals
      cases h
      assumption
  · intro h
    have ne_of_class {p : Char → Bool} {x : Char} (hc : p c = true) (hx : p x = false) :
        c ≠ x := by
      rintro rfl
      rw [hc] at hx
      cases hx
    cases r with
    | blank => simp only [Rule.Starts] at h; simp [Rule.of?, h]
    | comment => cases h; rfl
    | directive => cases h; rfl
    | hexadecimal => cases h; rfl
    | binary => cases h; rfl
    | string =>
        simp only [Rule.Starts, Text.isQuote, Bool.or_eq_true, beq_iff_eq] at h
        rcases h with rfl | rfl <;> rfl
    | decimal =>
        have hne (x : Char) (hx : x.isDigit = false) : c ≠ x := ne_of_class h hx
        simp only [Rule.Starts] at h
        simp [Rule.of?, Text.isBlank, Text.isQuote, h, hne]
    | word =>
        have hne (x : Char) (hx : Text.isWordStart x = false) : c ≠ x := ne_of_class h hx
        have hblank : Text.isBlank c = false := by
          simp [Text.isBlank, hne ' ' (by decide), hne '\t' (by decide), hne '\r' (by decide),
            hne '\n' (by decide)]
        have hquote : Text.isQuote c = false := by
          simp [Text.isQuote, hne '\x22' (by decide), hne '\x27' (by decide)]
        have hdigit := Text.isDigit_eq_false_of_isWordStart h
        simp only [Rule.Starts] at h
        simp [Rule.of?, h, hblank, hquote, hdigit, hne ';' (by decide), hne '.' (by decide),
          hne '$' (by decide), hne '%' (by decide)]
    | punctuation k =>
        have hall : ∀ e ∈ Token.Kind.punctuation,
            Rule.of? e.1 = (Token.Kind.ofPunctuation? e.1).map .punctuation := by decide
        rw [hall _ (Token.Kind.mem_punctuation h), h]
        rfl

theorem next?_of_starts {c : Char} {r : Rule} (h : r.Starts c) (cs : List Char) :
    next? (c :: cs) = some (r.split c cs) := by
  rw [next?, Rule.of?_eq_some_iff.2 h, Option.map_some]

/-! ## Where the longest match ends -/

section Boundary

variable {p : Char → Bool} {body rest : List Char}

theorem run_of_boundary (kind : Kind) (c : Char) (inside : ∀ c ∈ body, p c = true)
    (boundary : ∀ c ∈ rest.head?, p c = false) :
    run kind p c (body ++ rest) = (⟨kind, c :: body⟩, rest) := by
  rw [run, takeWhile_append_of_boundary inside boundary,
    dropWhile_append_of_boundary inside boundary]

/-- A word in front of something that is neither a word character nor a colon. -/
theorem word_of_boundary (c : Char) (inside : ∀ c ∈ body, Text.isWordChar c = true)
    (boundary : ∀ c ∈ rest.head?, Text.isWordChar c = false) (noColon : rest.head? ≠ some ':') :
    word c (body ++ rest) = (⟨.token (wordKind (c :: body)), c :: body⟩, rest) := by
  unfold word
  rw [takeWhile_append_of_boundary inside boundary,
    dropWhile_append_of_boundary inside boundary]
  split
  next tail => exact absurd rfl noColon
  next => rfl

/-- A word with a colon directly behind it, whatever follows the colon. -/
theorem word_of_colon (c : Char) (inside : ∀ c ∈ body, Text.isWordChar c = true) :
    word c (body ++ ':' :: rest) = (⟨.token .label, c :: body ++ [':']⟩, rest) := by
  have boundary : ∀ c ∈ (':' :: rest).head?, Text.isWordChar c = false := by
    intro c hc
    cases hc
    decide
  unfold word
  rw [takeWhile_append_of_boundary inside boundary,
    dropWhile_append_of_boundary inside boundary]
  rfl

end Boundary

end Lexeme

end Asm6502
