import Asm6502.Proofs.Lexing.Places
import Asm6502.Proofs.Lexing.Rules
import Asm6502.Proofs.Lexing.Tokens

/-!
# Scanning undoes printing

The texts that can be printed for a token are described kind by kind, without the
scanner.  A text printed from a list of such lexemes, with separators between
them, scans into exactly those tokens.

A separator is made of blanks and of comments that end with their line.  It must
not be empty between two lexemes, for `1` and `2` side by side are `12`.  In front
of the first lexeme and behind the last it may be empty.

## Main results

* `next?_of_spelled` — each lexeme is read as a whole in front of a separator.
* `tokenize_printed` — scanning undoes printing.
-/

namespace Asm6502

/-! ## What can be printed -/

/-- What stands between the marks of a string: a backslash takes the next character
with it, and the mark itself occurs only so. -/
inductive QuotedBody (mark : Char) : List Char → Prop where
  | done : QuotedBody mark []
  | plain {c : Char} {body : List Char} (noMark : c ≠ mark) (noBackslash : c ≠ '\\')
      (more : QuotedBody mark body) : QuotedBody mark (c :: body)
  | escaped {c : Char} {body : List Char} (more : QuotedBody mark body) :
      QuotedBody mark ('\\' :: c :: body)

/-- `Spelled d k text`: the dialect keeps tokens of kind `k` with the text `text`. -/
inductive Spelled (d : Dialect) : Token.Kind → List Char → Prop where
  /-- An identifier that is neither an index register nor, in any case, a mnemonic. -/
  | name {w : List Char} (word : Text.isWord w = true) (noX : w ≠ ['x']) (noY : w ≠ ['y'])
      (noMnemonic : ∀ m : Mnemonic, w.map Mnemonic.foldCase ≠ m.letters) : Spelled d .name w
  /-- A string, which ends at its own mark. -/
  | string {mark : Char} {body : List Char} (quote : Text.isQuote mark = true)
      (closed : QuotedBody mark body) : Spelled d .name (mark :: body ++ [mark])
  | xReg : Spelled d .xReg ['x']
  | yReg : Spelled d .yReg ['y']
  /-- A mnemonic in any mixture of cases. -/
  | instruction {m : Mnemonic} {w : List Char} (word : Text.isWord w = true)
      (folds : w.map Mnemonic.foldCase = m.letters) : Spelled d (.instruction m) w
  /-- Any identifier with its colon, but for the prefixes of a dialect that drops them. -/
  | label {w : List Char} (word : Text.isWord w = true)
      (keeps : ¬ (d.dropsPrefixes = true ∧ (w = ['z'] ∨ w = ['a']))) :
      Spelled d .label (w ++ [':'])
  | dataBytes : Spelled d .dataBytes ['.', 'd', 'b']
  | dataWords : Spelled d .dataWords ['.', 'd', 'w']
  /-- Letters and dots behind a dot, unless they make one of the data markers. -/
  | directive {body : List Char} (inside : ∀ c ∈ body, Text.isDirectiveChar c = true)
      (noBytes : body ≠ ['d', 'b']) (noWords : body ≠ ['d', 'w']) :
      Spelled d .directive ('.' :: body)
  | hexConst {digits : List Char} (inside : ∀ c ∈ digits, Text.isHexDigit c = true) :
      Spelled d .hexConst ('$' :: digits)
  | binConst {digits : List Char} (inside : ∀ c ∈ digits, Text.isBinaryDigit c = true) :
      Spelled d .binConst ('%' :: digits)
  | decConst {c : Char} {digits : List Char} (first : c.isDigit = true)
      (inside : ∀ c ∈ digits, c.isDigit = true) : Spelled d .decConst (c :: digits)
  | punctuation {c : Char} {k : Token.Kind} (h : Token.Kind.ofPunctuation? c = some k) :
      Spelled d k [c]

/-- Blanks and whole comments, each ended by a line feed. -/
inductive Separator : List Char → Prop where
  | done : Separator []
  | blank {c : Char} {cs : List Char} (separates : Text.isBlank c = true)
      (more : Separator cs) : Separator (c :: cs)
  | comment {body cs : List Char} (inLine : '\n' ∉ body) (more : Separator cs) :
      Separator (';' :: body ++ '\n' :: cs)

/-- A lexeme and the separator printed in front of it. -/
structure Printed where
  gap : List Char
  kind : Token.Kind
  text : List Char

namespace Printed

/-- The characters that are printed. -/
def chars (x : Printed) : List Char := x.gap ++ x.text

/-- The tokens of a printed list, each at the place of its first character, if the
list is printed behind the text `before`. -/
def tokens (before : List Char) : List Printed → List Token
  | [] => []
  | x :: xs =>
    ⟨x.kind, String.ofList x.text, .behind (before ++ x.gap)⟩ :: tokens (before ++ x.chars) xs

end Printed

/-! ## Reading one lexeme -/

section Quoted

variable {mark c : Char}

/-- A string ends at its mark. -/
theorem Lexeme.quoted_mark (mark : Char) (cs : List Char) :
    quoted mark (mark :: cs) = ([mark], cs) := by
  cases cs with
  | nil => rfl
  | cons d cs => rw [quoted, if_pos rfl]

/-- A backslash takes the next character with it. -/
theorem Lexeme.quoted_escaped (hmark : mark ≠ '\\') (d : Char) (cs : List Char) :
    quoted mark ('\\' :: d :: cs) = ('\\' :: d :: (quoted mark cs).1, (quoted mark cs).2) := by
  rw [quoted, if_neg hmark.symm, if_pos rfl]

/-- Any other character is taken alone. -/
theorem Lexeme.quoted_of_plain (noMark : c ≠ mark) (noBackslash : c ≠ '\\') (cs : List Char) :
    quoted mark (c :: cs) = (c :: (quoted mark cs).1, (quoted mark cs).2) := by
  cases cs with
  | nil => rfl
  | cons d cs => rw [quoted, if_neg noMark, if_neg noBackslash]

end Quoted

theorem quoted_of_quotedBody {mark : Char} {body : List Char} (rest : List Char)
    (hmark : mark ≠ '\\') (h : QuotedBody mark body) :
    Lexeme.quoted mark (body ++ mark :: rest) = (body ++ [mark], rest) := by
  induction h with
  | done => exact Lexeme.quoted_mark mark rest
  | @plain c body noMark noBackslash _ ih =>
      rw [List.cons_append, Lexeme.quoted_of_plain noMark noBackslash, ih]
      rfl
  | @escaped c body _ ih =>
      rw [List.cons_append, List.cons_append, Lexeme.quoted_escaped hmark, ih]
      rfl

/-- A string that does not reach to the end of its text is closed. -/
theorem Lexeme.quoted_closed {mark : Char} {cs : List Char} (h : (quoted mark cs).2 ≠ []) :
    ∃ body, QuotedBody mark body ∧ (quoted mark cs).1 = body ++ [mark] := by
  fun_induction quoted mark cs with
  | case1 => exact absurd rfl h
  | case2 c => exact absurd rfl h
  | case3 d cs => exact ⟨[], .done, rfl⟩
  | case4 d cs hc tail ih =>
      obtain ⟨body, hbody, htail⟩ := ih h
      refine ⟨'\\' :: d :: body, .escaped hbody, ?_⟩
      rw [htail]
      rfl
  | case5 c d cs hmark hbackslash tail ih =>
      obtain ⟨body, hbody, htail⟩ := ih h
      refine ⟨c :: body, .plain hmark hbackslash hbody, ?_⟩
      rw [htail]
      rfl

theorem Mnemonic.ofWord?_eq_none {w : List Char}
    (h : ∀ m : Mnemonic, w.map foldCase ≠ m.letters) : ofWord? w = none := by
  cases hfound : ofWord? w with
  | none => rfl
  | some m => exact absurd (letters_of_ofLetters? hfound).symm (h m)

theorem Lexeme.wordKind_eq_name {w : List Char} (noX : w ≠ ['x']) (noY : w ≠ ['y'])
    (noMnemonic : ∀ m : Mnemonic, w.map Mnemonic.foldCase ≠ m.letters) :
    wordKind w = .name := by
  rw [wordKind, if_neg noX, if_neg noY, Mnemonic.ofWord?_eq_none noMnemonic]

theorem Lexeme.wordKind_eq_instruction {w : List Char} {m : Mnemonic}
    (folds : w.map Mnemonic.foldCase = m.letters) : wordKind w = .instruction m := by
  have hlength : w.length = 3 := by
    have hletters : m.letters.length = 3 := by cases m <;> rfl
    rw [← hletters, ← folds, List.length_map]
  have hne (c : Char) : w ≠ [c] := by
    rintro rfl
    cases hlength
  have hfound : Mnemonic.ofWord? w = some m := by
    rw [Mnemonic.ofWord?, folds, Mnemonic.ofLetters?_letters]
  rw [wordKind, if_neg (hne 'x'), if_neg (hne 'y'), hfound]

/-- A word is read as a whole in front of what separates. -/
theorem Lexeme.next?_of_isWord {w rest : List Char} (hw : Text.isWord w = true)
    (hrest : ∀ c ∈ rest.head?, Text.startsSeparator c = true) :
    next? (w ++ rest) = some (⟨.token (wordKind w), w⟩, rest) := by
  match w, hw with
  | c :: w, hw =>
    simp only [Text.isWord, Bool.and_eq_true, List.all_eq_true] at hw
    obtain ⟨hstart, hinside⟩ := hw
    have hboundary : ∀ c ∈ rest.head?, Text.isWordChar c = false := fun c hc =>
      Text.eq_false_of_startsSeparator (by decide) (hrest c hc)
    have hcolon : rest.head? ≠ some ':' := by
      intro hhead
      exact absurd (hrest ':' hhead) (by decide)
    rw [List.cons_append, next?_of_starts (r := .word) hstart]
    exact congrArg some (word_of_boundary c hinside hboundary hcolon)

/-- A dotted word is read as a whole, and its kind is told by all of it. -/
theorem Lexeme.next?_of_directive {body rest : List Char}
    (inside : ∀ c ∈ body, Text.isDirectiveChar c = true)
    (boundary : ∀ c ∈ rest.head?, Text.isDirectiveChar c = false) :
    next? ('.' :: body ++ rest) = some (⟨.token (directiveKind body), '.' :: body⟩, rest) := by
  rw [List.cons_append, next?_of_starts (r := .directive) rfl]
  simp only [Rule.split, takeWhile_append_of_boundary inside boundary,
    run_of_boundary _ '.' inside boundary]

/-- What can be printed for a token is read back in front of what separates. -/
theorem next?_of_spelled {d : Dialect} {k : Token.Kind} {text rest : List Char}
    (h : Spelled d k text) (hrest : ∀ c ∈ rest.head?, Text.startsSeparator c = true) :
    Lexeme.next? (text ++ rest) = some (⟨.token k, text⟩, rest) := by
  have hboundary {p : Char → Bool} (hp : Text.separatorStarts.all (fun c => !p c) = true) :
      ∀ c ∈ rest.head?, p c = false := fun c hc =>
    Text.eq_false_of_startsSeparator hp (hrest c hc)
  have hdirective : ∀ c ∈ rest.head?, Text.isDirectiveChar c = false := hboundary (by decide)
  have hrun {r : Lexeme.Rule} {c : Char} {body : List Char} {x : Lexeme} (hc : r.Starts c)
      (hsplit : r.split c (body ++ rest) = (x, rest)) :
      Lexeme.next? (c :: body ++ rest) = some (x, rest) := by
    rw [List.cons_append, Lexeme.next?_of_starts hc, hsplit]
  cases h with
  | name word noX noY noMnemonic =>
      rw [Lexeme.next?_of_isWord word hrest, Lexeme.wordKind_eq_name noX noY noMnemonic]
  | @string mark body quote closed =>
      have hmark : mark ≠ '\\' := by
        rintro rfl
        cases quote
      have hbody := quoted_of_quotedBody rest hmark closed
      rw [List.append_assoc, List.singleton_append, List.cons_append,
        Lexeme.next?_of_starts (r := .string) quote]
      simp only [Lexeme.Rule.split, hbody]
      rfl
  | xReg => exact Lexeme.next?_of_isWord (w := ['x']) (by decide) hrest
  | yReg => exact Lexeme.next?_of_isWord (w := ['y']) (by decide) hrest
  | instruction word folds =>
      rw [Lexeme.next?_of_isWord word hrest, Lexeme.wordKind_eq_instruction folds]
  | @label w word keeps =>
      match w, word with
      | c :: w, word =>
        simp only [Text.isWord, Bool.and_eq_true, List.all_eq_true] at word
        rw [List.append_assoc, List.singleton_append, List.cons_append,
          Lexeme.next?_of_starts (r := .word) word.1]
        exact congrArg some (Lexeme.word_of_colon c word.2)
  | dataBytes =>
      have inside : ∀ c ∈ ['d', 'b'], Text.isDirectiveChar c = true :=
        List.all_eq_true.1 (by decide)
      exact Lexeme.next?_of_directive inside hdirective
  | dataWords =>
      have inside : ∀ c ∈ ['d', 'w'], Text.isDirectiveChar c = true :=
        List.all_eq_true.1 (by decide)
      exact Lexeme.next?_of_directive inside hdirective
  | directive inside noBytes noWords =>
      rw [Lexeme.next?_of_directive inside hdirective, Lexeme.directiveKind, if_neg noBytes,
        if_neg noWords]
  | hexConst inside =>
      exact hrun (r := .hexadecimal) rfl (Lexeme.run_of_boundary _ '$' inside
        (hboundary (by decide)))
  | binConst inside =>
      exact hrun (r := .binary) rfl (Lexeme.run_of_boundary _ '%' inside
        (hboundary (by decide)))
  | @decConst c digits first inside =>
      exact hrun (r := .decimal) first (Lexeme.run_of_boundary _ c inside
        (hboundary (by decide)))
  | @punctuation c k h =>
      exact Lexeme.next?_of_starts (r := .punctuation k) h rest

/-- What can be printed for a token is no addressing prefix that the dialect drops. -/
theorem drops_of_spelled {d : Dialect} {k : Token.Kind} {text : List Char} (p : Position)
    (h : Spelled d k text) : d.drops ⟨k, String.ofList text, p⟩ = false := by
  have hkind (hk : k ≠ .label) : d.drops ⟨k, String.ofList text, p⟩ = false := by
    simp [Dialect.drops, hk]
  cases h with
  | @label w word keeps =>
      have hz : "z:" = String.ofList (['z'] ++ [':']) := rfl
      have ha : "a:" = String.ofList (['a'] ++ [':']) := rfl
      simp only [Dialect.drops, hz, ha, beq_eq_decide, String.ofList_inj, List.append_cancel_right_eq]
      simpa using keeps
  | @punctuation c k h =>
      have hall : ∀ e ∈ Token.Kind.punctuation, e.2 ≠ .label := by decide
      exact hkind (hall _ (Token.Kind.mem_punctuation h))
  | name | string | xReg | yReg | instruction | dataBytes | dataWords | directive | hexConst
  | binConst | decConst => exact hkind (by simp)

/-! ## Reading from left to right -/

variable {d : Dialect} {p : Position} {rest : List Char}

theorem head?_of_separator {s : List Char} (h : Separator s) (hs : s ≠ []) :
    ∀ c ∈ (s ++ rest).head?, Text.startsSeparator c = true := by
  intro c hc
  cases h with
  | done => exact absurd rfl hs
  | blank separates more =>
      cases hc
      simp [Text.startsSeparator, separates]
  | comment inLine more =>
      cases hc
      rfl

/-- A separator yields no token. -/
theorem result_of_separator {s : List Char} (h : Separator s) :
    (scanFrom p (s ++ rest)).result d = (scanFrom (p.after s) rest).result d := by
  have hnone (r : Except LexicalError (List Token)) : r.map ([] ++ ·) = r := by
    cases r <;> rfl
  have hblank {p : Position} {c : Char} {cs : List Char} (hc : Text.isBlank c = true) :
      (scanFrom p (c :: cs)).result d = (scanFrom (p.after [c]) cs).result d := by
    rw [result_of_next?_eq_some (Lexeme.next?_of_starts (r := .blank) hc cs)]
    exact hnone _
  induction h generalizing p with
  | done => rfl
  | @blank c cs separates _ ih =>
      rw [List.cons_append, hblank separates, ih]
      rfl
  | @comment body cs inLine _ ih =>
      have hnext : Lexeme.next? (';' :: body ++ '\n' :: (cs ++ rest)) =
          some (⟨.comment, ';' :: body⟩, '\n' :: (cs ++ rest)) := by
        rw [List.cons_append, Lexeme.next?_of_starts (r := .comment) rfl]
        refine congrArg some (Lexeme.run_of_boundary _ ';' ?_ ?_)
        · intro c hc
          have hne : c ≠ '\n' := by
            rintro rfl
            exact inLine hc
          simpa using hne
        · intro c hc
          cases hc
          rfl
      have hsplit : ';' :: body ++ '\n' :: cs ++ rest = ';' :: body ++ '\n' :: (cs ++ rest) := by
        simp only [List.append_assoc, List.cons_append]
      rw [hsplit, result_of_next?_eq_some hnext, Piece.kept?_comment, Option.toList_none, hnone,
        hblank rfl, ih, Position.after_append _ (';' :: body)]
      rfl

/-- In front of what separates, a lexeme yields its token. -/
theorem result_of_spelled {k : Token.Kind} {text : List Char} (h : Spelled d k text)
    (hrest : ∀ c ∈ rest.head?, Text.startsSeparator c = true) :
    (scanFrom p (text ++ rest)).result d =
      ((scanFrom (p.after text) rest).result d).map (⟨k, String.ofList text, p⟩ :: ·) := by
  have hdrops : ¬ d.drops ⟨k, String.ofList text, p⟩ = true := by
    rw [drops_of_spelled p h]
    decide
  rw [result_of_next?_eq_some (next?_of_spelled h hrest), Piece.kept?_token, if_neg hdrops]
  rfl

/-- Reading a printed list that stands behind the text `before`. -/
theorem result_of_printed {last : List Char} (xs : List Printed) (before : List Char)
    (hspelled : ∀ x ∈ xs, Separator x.gap ∧ Spelled d x.kind x.text)
    (hgaps : ∀ x ∈ xs.tail, x.gap ≠ []) (hlast : Separator last) :
    (scanFrom (.behind before) (xs.flatMap Printed.chars ++ last)).result d =
      .ok (Printed.tokens before xs ++
        [.endAt (.behind (before ++ (xs.flatMap Printed.chars ++ last)))]) := by
  induction xs generalizing before with
  | nil =>
      have hend : (scanFrom (.behind before) (last ++ [])).result d =
          (scanFrom ((Position.behind before).after last) []).result d := result_of_separator hlast
      rw [List.append_nil, Position.behind_after] at hend
      simp only [List.flatMap_nil, List.nil_append, Printed.tokens]
      rw [hend, result_of_next?_eq_none rfl]
  | cons x xs ih =>
      obtain ⟨hgap, htext⟩ := hspelled x List.mem_cons_self
      have htail : ∀ y ∈ xs, y.gap ≠ [] := hgaps
      have hrest : ∀ c ∈ (xs.flatMap Printed.chars ++ last).head?,
          Text.startsSeparator c = true := by
        cases xs with
        | nil =>
            by_cases hempty : last = []
            · simp [hempty]
            · have hhead : ∀ c ∈ (last ++ []).head?, Text.startsSeparator c = true :=
                head?_of_separator hlast hempty
              simpa using hhead
        | cons y ys =>
            have hy := (hspelled y (by simp)).1
            rw [List.flatMap_cons, Printed.chars, List.append_assoc, List.append_assoc]
            exact head?_of_separator hy (htail y List.mem_cons_self)
      have hmore := ih (before ++ x.chars) (fun y hy => hspelled y (List.mem_cons_of_mem _ hy))
        (fun y hy => htail y (List.mem_of_mem_tail hy))
      have hsplit : (x :: xs).flatMap Printed.chars ++ last =
          x.gap ++ (x.text ++ (xs.flatMap Printed.chars ++ last)) := by
        simp only [List.flatMap_cons, Printed.chars, List.append_assoc]
      have hplace : (Position.behind (before ++ x.gap)).after x.text = .behind (before ++ x.chars) := by
        rw [Position.behind_after, Printed.chars, List.append_assoc]
      rw [hsplit, result_of_separator hgap, Position.behind_after, result_of_spelled htext hrest,
        hplace, hmore]
      simp [Except.map, Printed.tokens, Printed.chars, List.append_assoc]

/-- Scanning undoes printing: lexemes with non-empty separators between them scan into
exactly their tokens, each at the place of its first character, and the end. -/
theorem tokenize_printed {d : Dialect} {last : List Char} {xs : List Printed} (table : Comments)
    (hspelled : ∀ x ∈ xs, Separator x.gap ∧ Spelled d x.kind x.text)
    (hgaps : ∀ x ∈ xs.tail, x.gap ≠ []) (hlast : Separator last) :
    let text := xs.flatMap Printed.chars ++ last
    (tokenize d (String.ofList text) table).1 =
      .ok (Printed.tokens [] xs ++ [.endAt (.behind text)]) := by
  intro text
  rw [tokenize_fst, String.toList_ofList]
  exact result_of_printed xs [] hspelled hgaps hlast

/-- A label, a mnemonic in mixed case, a string that holds its own mark, a semicolon and
a line feed, and behind a comment a numeral and a comma. -/
def printedLines : List Printed :=
  [ ⟨[], .label, ['s', ':']⟩
  , ⟨[' '], .instruction .lda, ['L', 'd', 'A']⟩
  , ⟨['\t'], .name, ['"', '\\', '"', ';', '\n', '"']⟩
  , ⟨[';', 'c', '\n'], .hexConst, ['$', 'f', 'F']⟩
  , ⟨[' '], .comma, [',']⟩ ]

theorem tokenize_printed_printedLines :
    (∀ x ∈ printedLines, Separator x.gap ∧ Spelled {} x.kind x.text) ∧
      (tokenize {} (String.ofList (printedLines.flatMap Printed.chars ++ ['\r'])) .empty).1 =
        .ok
          [ ⟨.label, "s:", ⟨1, 1⟩⟩, ⟨.instruction .lda, "LdA", ⟨1, 4⟩⟩
          , ⟨.name, "\"\\\";\n\"", ⟨1, 8⟩⟩, ⟨.hexConst, "$fF", ⟨3, 1⟩⟩
          , ⟨.comma, ",", ⟨3, 5⟩⟩, .endAt ⟨3, 7⟩ ] := by
  have hstring : Spelled {} .name ['"', '\\', '"', ';', '\n', '"'] :=
    .string (by decide)
      (.escaped (.plain (by decide) (by decide) (.plain (by decide) (by decide) .done)))
  have hspelled : ∀ x ∈ printedLines, Separator x.gap ∧ Spelled {} x.kind x.text := by
    intro x hx
    simp only [printedLines, List.mem_cons, List.not_mem_nil, or_false] at hx
    rcases hx with rfl | rfl | rfl | rfl | rfl
    · exact ⟨.done, .label (w := ['s']) (by decide) (by decide)⟩
    · exact ⟨.blank (by decide) .done, .instruction (by decide) (by decide)⟩
    · exact ⟨.blank (by decide) .done, hstring⟩
    · have hcomment : Separator ([';', 'c'] ++ '\n' :: []) := .comment (by decide) .done
      exact ⟨hcomment, .hexConst (List.all_eq_true.1 (by decide))⟩
    · exact ⟨.blank (by decide) .done, .punctuation rfl⟩
  have hgaps : ∀ x ∈ printedLines.tail, x.gap ≠ [] := by decide
  have hlast : Separator ['\r'] := .blank (by decide) .done
  refine ⟨hspelled, (tokenize_printed .empty hspelled hgaps hlast).trans ?_⟩
  decide +kernel

end Asm6502
