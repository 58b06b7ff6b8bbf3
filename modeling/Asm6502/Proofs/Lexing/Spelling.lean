import Asm6502.Proofs.Lexing.Lossless
import Asm6502.Proofs.Lexing.Printing

/-!
# How the tokens of a text are spelled

Every token of a text but its end was split off by one of the rules, so its text has the
form that the rule gives it.  The scanners of numerals go on as long as there are digits
and do not ask for one: a dollar or percent sign without digits is a token of its own
and has the kind of a numeral.  Decimal numerals start with a digit and are never empty.

## Main results

* `splitsOff_of_result` — each token of a text is split off in front of the next one.
* `Token.SplitsOff.numeral` — what the text of a numeral token is.
* `Token.SplitsOff.declaredName_eq` — names do not end with a colon.
-/

namespace Asm6502

/-- `t.SplitsOff rest`: a rule splits the token off in front of the text `rest`. -/
def Token.SplitsOff (t : Token) (rest : List Char) : Prop :=
  ∃ r c cs, Lexeme.Rule.Starts c r ∧ r.split c cs = (⟨.token t.kind, t.text.toList⟩, rest)

/-- Signs, digits and nothing else, and at least one digit. -/
inductive IsNumeral : List Char → Prop where
  | hexadecimal {digits : List Char} (nonempty : digits ≠ [])
      (inside : ∀ c ∈ digits, Text.isHexDigit c = true) : IsNumeral ('$' :: digits)
  | binary {digits : List Char} (nonempty : digits ≠ [])
      (inside : ∀ c ∈ digits, Text.isBinaryDigit c = true) : IsNumeral ('%' :: digits)
  | decimal {digits : List Char} (nonempty : digits ≠ [])
      (inside : ∀ c ∈ digits, c.isDigit = true) : IsNumeral digits

/-! ## Tokens and rules -/

/-- The lexeme of a token that is kept. -/
theorem Piece.lexeme_eq_of_kept? {d : Dialect} {x : Piece} {t : Token} (h : x.kept? d = some t) :
    x.lexeme = ⟨.token t.kind, t.text.toList⟩ := by
  obtain ⟨⟨kind, text⟩, p⟩ := x
  cases kind with
  | blank => cases h
  | comment => cases h
  | token k =>
      rw [kept?_token] at h
      split at h
      next => cases h
      next =>
        cases h
        rw [String.toList_ofList]

/-- What is read first and kept is split off by a rule. -/
theorem splitsOff_of_next? {d : Dialect} {cs rest : List Char} {x : Lexeme} {p : Position}
    {t : Token} (hnext : Lexeme.next? cs = some (x, rest))
    (hkept : (Piece.mk x p).kept? d = some t) :
    t.SplitsOff rest := by
  have hx : x = ⟨.token t.kind, t.text.toList⟩ := Piece.lexeme_eq_of_kept? hkept
  cases cs with
  | nil => cases hnext
  | cons c cs =>
      obtain ⟨r, hr, hsplit⟩ := Option.map_eq_some_iff.1 hnext
      exact ⟨r, c, cs, Lexeme.Rule.of?_eq_some_iff.1 hr, by rw [hsplit, hx]⟩

/-- Each token of a text but its end is split off by a rule, and if no text is left behind
it, then the end comes next. -/
theorem splitsOff_of_result {d : Dialect} {p : Position} {cs : List Char} {ts : List Token}
    {place : Nat} {t : Token} (h : (scanFrom p cs).result d = .ok ts) (ht : ts[place]? = some t)
    (hproper : t.kind ≠ .eof) :
    ∃ rest, t.SplitsOff rest ∧
      (rest = [] → ∀ u, ts[place + 1]? = some u → u.kind = .eof) := by
  induction cs using Lexeme.text_induction generalizing p ts place with
  | stuck cs hnext =>
      rw [result_of_next?_eq_none hnext] at h
      cases cs with
      | nil =>
          cases h
          have hend : t = .endAt p := List.mem_singleton.1 (List.mem_of_getElem? ht)
          rw [hend] at hproper
          exact absurd rfl hproper
      | cons c cs => cases h
  | split cs x rest hnext ih =>
      obtain ⟨ts', hts', hts⟩ := exists_of_result_eq_ok hnext h
      cases hkept : (Piece.mk x p).kept? d with
      | none =>
          rw [hkept] at hts
          rw [show ts = ts' from hts] at ht ⊢
          exact ih hts' ht
      | some first =>
          rw [hkept] at hts
          rw [show ts = first :: ts' from hts] at ht ⊢
          cases place with
          | succ place =>
              have hbehind := ih hts' ht
              exact hbehind
          | zero =>
              cases ht
              refine ⟨rest, splitsOff_of_next? hnext hkept, ?_⟩
              rintro rfl u hu
              rw [result_of_next?_eq_none rfl] at hts'
              cases hts'
              cases hu
              rfl

/-! ## What the rules read -/

/-- A run holds nothing that is not in its class. -/
theorem Lexeme.of_mem_run {p : Char → Bool} {cs : List Char} :
    ∀ c ∈ cs.takeWhile p, p c = true :=
  List.all_eq_true.1 List.all_takeWhile

/-- Only three of the rules give the kind of a numeral. -/
theorem Lexeme.Rule.isConstant_eq_false {r : Rule} {c : Char} {cs : List Char} {k : Token.Kind}
    (hstarts : Rule.Starts c r) (hkind : (r.split c cs).1.kind = .token k)
    (hr : r ≠ .hexadecimal ∧ r ≠ .binary ∧ r ≠ .decimal) : k.isConstant = false := by
  cases r with
  | blank => cases hkind
  | comment => cases hkind
  | hexadecimal => exact absurd rfl hr.1
  | binary => exact absurd rfl hr.2.1
  | decimal => exact absurd rfl hr.2.2
  | string =>
      cases hkind
      rfl
  | directive =>
      cases hkind
      unfold directiveKind
      repeat' split
      all_goals rfl
  | word =>
      simp only [split, Lexeme.word] at hkind
      split at hkind
      next =>
        cases hkind
        rfl
      next =>
        cases hkind
        unfold wordKind
        repeat' split
        all_goals rfl
  | punctuation k' =>
      cases hkind
      have hkinds : ∀ e ∈ Token.Kind.punctuation, e.2.isConstant = false := by decide
      exact hkinds _ (Token.Kind.mem_punctuation hstarts)

/-- A string with text behind it has been closed. -/
theorem Lexeme.getLast?_quoted {mark : Char} {cs : List Char} (h : (quoted mark cs).2 ≠ []) :
    (quoted mark cs).1.getLast? = some mark := by
  obtain ⟨body, _, hclosed⟩ := quoted_closed h
  rw [hclosed, List.getLast?_concat]

/-- Names are read as words or as strings. -/
theorem Lexeme.Rule.eq_of_kind_name {r : Rule} {c : Char} {cs : List Char}
    (hstarts : Rule.Starts c r) (hkind : (r.split c cs).1.kind = .token .name) :
    r = .string ∨ r = .word ∧ (r.split c cs).1.text = c :: cs.takeWhile Text.isWordChar := by
  cases r with
  | blank | comment | hexadecimal | binary | decimal => cases hkind
  | string => exact .inl rfl
  | directive =>
      have hother : directiveKind (cs.takeWhile Text.isDirectiveChar) ≠ .name := by
        unfold directiveKind
        repeat' split
        all_goals simp
      exact absurd (Lexeme.Kind.token.inj hkind) hother
  | word =>
      refine .inr ⟨rfl, ?_⟩
      simp only [split, Lexeme.word] at hkind ⊢
      split at hkind
      next => cases hkind
      next => rfl
  | punctuation k =>
      have hkinds : ∀ e ∈ Token.Kind.punctuation, e.2 ≠ .name := by decide
      exact absurd (Lexeme.Kind.token.inj hkind) (hkinds _ (Token.Kind.mem_punctuation hstarts))

/-! ## The texts of tokens -/

namespace Token.SplitsOff

variable {t : Token} {rest : List Char}

/-- The text of a numeral token is a numeral, unless it is a sign without digits. -/
theorem numeral (h : t.SplitsOff rest) (hconst : t.kind.isConstant = true) :
    IsNumeral t.text.toList ∨ t.text = "$" ∨ t.text = "%" := by
  obtain ⟨r, c, cs, hstarts, hsplit⟩ := h
  have hlexeme := congrArg Prod.fst hsplit
  have hkind := congrArg Lexeme.kind hlexeme
  have htext : _ = t.text.toList := congrArg Lexeme.text hlexeme
  have htext' (s : String) (hs : t.text.toList = s.toList) : t.text = s :=
    String.toList_inj.1 hs
  cases r with
  | hexadecimal =>
      cases hstarts
      rw [← htext] at htext' ⊢
      cases hdigits : cs.takeWhile Text.isHexDigit with
      | nil => exact .inr (.inl (htext' _ (congrArg (List.cons _) hdigits)))
      | cons d ds =>
          refine .inl (.hexadecimal ?_ Lexeme.of_mem_run)
          rw [hdigits]
          exact List.cons_ne_nil d ds
  | binary =>
      cases hstarts
      rw [← htext] at htext' ⊢
      cases hdigits : cs.takeWhile Text.isBinaryDigit with
      | nil => exact .inr (.inr (htext' _ (congrArg (List.cons _) hdigits)))
      | cons d ds =>
          refine .inl (.binary ?_ Lexeme.of_mem_run)
          rw [hdigits]
          exact List.cons_ne_nil d ds
  | decimal =>
      rw [← htext]
      refine .inl (.decimal (List.cons_ne_nil _ _) ?_)
      intro x hx
      rcases List.mem_cons.1 hx with rfl | hx
      · exact hstarts
      · exact Lexeme.of_mem_run x hx
  | word | directive | punctuation | blank | comment | string =>
      rw [Lexeme.Rule.isConstant_eq_false hstarts hkind (by simp)] at hconst
      cases hconst

/-- A name in front of more text does not end with a colon: a word holds none, and a string
ends with its mark. -/
theorem declaredName_eq (h : t.SplitsOff rest) (hname : t.kind = .name) (hrest : rest ≠ []) :
    t.declaredName = t.text := by
  have hlast : t.text.toList.getLast? ≠ some ':' := by
    obtain ⟨r, c, cs, hstarts, hsplit⟩ := h
    have hlexeme := congrArg Prod.fst hsplit
    have hkind := congrArg Lexeme.kind hlexeme
    rw [hname] at hkind
    have htext : _ = t.text.toList := congrArg Lexeme.text hlexeme
    have hbehind : _ = rest := congrArg Prod.snd hsplit
    rcases Lexeme.Rule.eq_of_kind_name hstarts hkind with rfl | ⟨rfl, hword⟩
    · have hquoted : (Lexeme.quoted c cs).2 ≠ [] := hbehind ▸ hrest
      have hmark : t.text.toList.getLast? = some c := by
        rw [← htext]
        show (c :: (Lexeme.quoted c cs).1).getLast? = some c
        rw [List.getLast?_cons, Lexeme.getLast?_quoted hquoted]
        rfl
      have hquote : Text.isQuote c = true := hstarts
      rw [hmark]
      rintro ⟨⟩
      cases hquote
    · intro hcolon
      have hmem := List.mem_of_getLast? hcolon
      rw [← htext, hword] at hmem
      rcases List.mem_cons.1 hmem with rfl | hmem
      · cases hstarts
      · cases Lexeme.of_mem_run _ hmem
  rw [declaredName, if_neg hlast]

end Token.SplitsOff

end Asm6502
