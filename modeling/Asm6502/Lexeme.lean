import Asm6502.Text.Classes
import Asm6502.Token

/-!
# Lexemes

A lexeme is a piece of source text that is read as a whole: one blank
character, a comment, or the text of a token. `Lexeme.next?` splits the first
lexeme off a text, and the first character alone decides the rule:

* a blank stands for itself;
* a semicolon starts a comment, which runs up to the next line feed;
* a dot starts a directive of letters and dots, of which `.db` and `.dw` are the
  data markers;
* a dollar sign, a percent sign or a digit starts a numeral;
* a quotation mark starts a string, which ends at the same mark or, if none
  follows, at the end of the text; a backslash takes the next character with it;
* a letter or an underscore starts a word, which is a label if a colon stands
  directly behind it, and else an index register, a mnemonic or a name;
* a punctuation character is a token of its own.

Nothing else can start a lexeme. Positions play no part here.

## Main results

* `append_of_next?` — a split loses nothing.
* `length_lt_of_next?` — it takes at least one character, so repeated splitting
  ends.
* `text_induction` — the induction that follows it.
* `next?_eq_none_iff` — it fails at the end of the text and at a character that
  no rule starts with.
-/

namespace Asm6502

namespace Lexeme

/-- What a piece of text is. -/
inductive Kind where
  /-- One character that only separates. -/
  | blank
  /-- A semicolon and the rest of its line. -/
  | comment
  /-- The text of a token. -/
  | token (kind : Token.Kind)
  deriving DecidableEq, Repr

end Lexeme

/-- A piece of text and what it is. -/
structure Lexeme where
  kind : Lexeme.Kind
  text : List Char
  deriving DecidableEq, Repr

namespace Lexeme

/-! ## Kinds that the whole text decides -/

/-- The kind of a directive, by the characters behind its first dot. -/
def directiveKind (body : List Char) : Token.Kind :=
  if body = ['d', 'b'] then .dataBytes
  else if body = ['d', 'w'] then .dataWords
  else .directive

/-- The kind of a word that no colon follows. The registers are spelled with
small letters only, mnemonics in any case. -/
def wordKind (word : List Char) : Token.Kind :=
  if word = ['x'] then .xReg
  else if word = ['y'] then .yReg
  else match Mnemonic.ofWord? word with
    | some m => .instruction m
    | none => .name

/-! ## Where a lexeme ends -/

/-- The lexeme of the character `c` and the longest run of characters of the
class `p` behind it. -/
def run (kind : Kind) (p : Char → Bool) (c : Char) (cs : List Char) : Lexeme × List Char :=
  (⟨kind, c :: cs.takeWhile p⟩, cs.dropWhile p)

/-- Splits the body of a quoted string, with its closing mark, off the text
behind the opening mark. -/
def quoted (mark : Char) : List Char → List Char × List Char
  | [] => ([], [])
  | [c] => ([c], [])
  | c :: d :: cs =>
    if c = mark then ([c], d :: cs)
    else if c = '\\' then
      let tail := quoted mark cs
      (c :: d :: tail.1, tail.2)
    else
      let tail := quoted mark (d :: cs)
      (c :: tail.1, tail.2)

/-- A word, or a label if a colon stands directly behind the word. -/
def word (c : Char) (cs : List Char) : Lexeme × List Char :=
  let name := c :: cs.takeWhile Text.isWordChar
  match cs.dropWhile Text.isWordChar with
  | ':' :: rest => (⟨.token .label, name ++ [':']⟩, rest)
  | rest => (⟨.token (wordKind name), name⟩, rest)

/-! ## The rules -/

/-- The rules by which a lexeme is read. -/
inductive Rule where
  | blank | comment | directive | hexadecimal | binary | string | decimal | word
  | punctuation (kind : Token.Kind)
  deriving DecidableEq, Repr

/-- The rule that a lexeme starting with `c` follows; none if `c` can start no
lexeme. -/
def Rule.of? (c : Char) : Option Rule :=
  if Text.isBlank c then some .blank
  else if c = ';' then some .comment
  else if c = '.' then some .directive
  else if c = '$' then some .hexadecimal
  else if c = '%' then some .binary
  else if Text.isQuote c then some .string
  else if c.isDigit then some .decimal
  else if Text.isWordStart c then some .word
  else (Token.Kind.ofPunctuation? c).map .punctuation

/-- The lexeme that starts with `c` and follows the rule, and the text behind
it. -/
def Rule.split (c : Char) (cs : List Char) : Rule → Lexeme × List Char
  | .blank => (⟨.blank, [c]⟩, cs)
  | .comment => run .comment (· != '\n') c cs
  | .directive =>
    run (.token (directiveKind (cs.takeWhile Text.isDirectiveChar))) Text.isDirectiveChar c cs
  | .hexadecimal => run (.token .hexConst) Text.isHexDigit c cs
  | .binary => run (.token .binConst) Text.isBinaryDigit c cs
  | .string =>
    let tail := quoted c cs
    (⟨.token .name, c :: tail.1⟩, tail.2)
  | .decimal => run (.token .decConst) Char.isDigit c cs
  | .word => Lexeme.word c cs
  | .punctuation k => (⟨.token k, [c]⟩, cs)

/-- The first lexeme of a text and the text behind it; none at the end of the
text and at a character that can start no lexeme. -/
def next? : List Char → Option (Lexeme × List Char)
  | [] => none
  | c :: cs => (Rule.of? c).map (Rule.split c cs)

/-! ## A split loses nothing -/

theorem run_append (kind : Kind) (p : Char → Bool) (c : Char) (cs : List Char) :
    (run kind p c cs).1.text ++ (run kind p c cs).2 = c :: cs := by
  simp [run, List.takeWhile_append_dropWhile]

theorem quoted_append (mark : Char) (cs : List Char) :
    (quoted mark cs).1 ++ (quoted mark cs).2 = cs := by
  fun_induction quoted mark cs with
  | case1 => rfl
  | case2 c => rfl
  | case3 d cs => rfl
  | case4 d cs h tail ih => simpa using ih
  | case5 c d cs h h' tail ih => simpa using ih

theorem word_append (c : Char) (cs : List Char) :
    (word c cs).1.text ++ (word c cs).2 = c :: cs := by
  have h := List.takeWhile_append_dropWhile (p := Text.isWordChar) (l := cs)
  unfold word
  split
  next rest hd => simpa [hd] using h
  next => simp [h]

/-- Whatever the rule, the lexeme and the text behind it make up the text that
was split. -/
theorem Rule.split_append (c : Char) (cs : List Char) (r : Rule) :
    (r.split c cs).1.text ++ (r.split c cs).2 = c :: cs := by
  cases r with
  | blank => rfl
  | comment => exact run_append ..
  | directive => exact run_append ..
  | hexadecimal => exact run_append ..
  | binary => exact run_append ..
  | string => exact congrArg (c :: ·) (quoted_append c cs)
  | decimal => exact run_append ..
  | word => exact word_append c cs
  | punctuation k => rfl

/-- Every lexeme has a first character. -/
theorem Rule.split_ne_nil (c : Char) (cs : List Char) (r : Rule) :
    (r.split c cs).1.text ≠ [] := by
  cases r with
  | word =>
    show (Lexeme.word c cs).1.text ≠ []
    unfold Lexeme.word
    split <;> simp
  | blank | comment | directive | hexadecimal | binary | string | decimal | punctuation =>
    exact List.cons_ne_nil _ _

theorem append_of_next? {cs rest : List Char} {x : Lexeme} (h : next? cs = some (x, rest)) :
    x.text ++ rest = cs := by
  match cs, h with
  | c :: cs, h =>
    obtain ⟨r, _, hr⟩ := Option.map_eq_some_iff.1 h
    have := Rule.split_append c cs r
    rwa [hr] at this

theorem ne_nil_of_next? {cs rest : List Char} {x : Lexeme} (h : next? cs = some (x, rest)) :
    x.text ≠ [] := by
  match cs, h with
  | c :: cs, h =>
    obtain ⟨r, _, hr⟩ := Option.map_eq_some_iff.1 h
    have := Rule.split_ne_nil c cs r
    rwa [hr] at this

/-- What remains is shorter than what was split. -/
theorem length_lt_of_next? {cs rest : List Char} {x : Lexeme}
    (h : next? cs = some (x, rest)) : rest.length < cs.length := by
  rw [← append_of_next? h, List.length_append]
  have := List.length_pos_iff.2 (ne_nil_of_next? h)
  omega

/-- Induction on a text, lexeme by lexeme, up to where none can be split off. -/
@[elab_as_elim]
theorem text_induction {motive : List Char → Prop}
    (stuck : ∀ cs, next? cs = none → motive cs)
    (split : ∀ cs x rest, next? cs = some (x, rest) → motive rest → motive cs)
    (cs : List Char) : motive cs := by
  induction hn : cs.length using Nat.strongRecOn generalizing cs with
  | ind n ih =>
    cases hnext : next? cs with
    | none => exact stuck cs hnext
    | some found =>
      have hlt : found.2.length < n := hn ▸ length_lt_of_next? hnext
      exact split cs found.1 found.2 hnext (ih _ hlt found.2 rfl)

theorem next?_eq_none_iff {cs : List Char} :
    next? cs = none ↔ cs = [] ∨ ∃ c rest, cs = c :: rest ∧ Rule.of? c = none := by
  cases cs with
  | nil => simp [next?]
  | cons c cs => simp [next?]

end Lexeme

end Asm6502
