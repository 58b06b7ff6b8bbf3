import Asm6502.Cursor
import Asm6502.Proofs.Lexing.LineEnds

/-!
# Reading token by token

A cursor reads one token at a time.  It has no scan of the whole text to choose from: what
the dialect drops it passes over at once and goes on with what stands behind, and the
comments on its way go into the table one by one.  Reading on until the end of the text or
an error is told here as a relation of its own, step by step.

It comes to an end on every text, and gives what the scan of the whole text gives.  For a
dialect that drops addressing prefixes this means that passing over them leaves the cursor
where reading them would have left it.  So the two dialects see the same tokens, but for the
prefixes, the same comments and the same error.

## Main results

* `next_of_next?_eq_some`, `next_of_next?_eq_none` — the two equations of reading a token.
* `Reads.unique`, `reads_scanFrom` — reading on gives one answer, that of the scan.
* `tokenize_dropsPrefixes` — dropping prefixes is a filter on the tokens.
-/

namespace Asm6502

namespace Cursor

variable {d : Dialect} {c : Cursor} {rest : List Char} {x : Lexeme}

/-! ## The equations of reading a token -/

/-- Where no lexeme starts, the cursor stays. -/
theorem next_of_next?_eq_none (h : Lexeme.next? c.rest = none) (d : Dialect) (table : Comments) :
    c.next d table = (c.halt, c, table) := by
  rw [next]
  split
  next => rfl
  next x rest h' => rw [h] at h'; cases h'

/-- A lexeme that is a token to be kept ends the step; every other one is passed over, and
if it is a comment, then it is recorded. -/
theorem next_of_next?_eq_some (h : Lexeme.next? c.rest = some (x, rest)) (d : Dialect)
    (table : Comments) :
    let behind : Cursor := ⟨c.position.after x.text, rest⟩
    let recorded := table.recordAll (Piece.mk x c.position).comment?.toList
    c.next d table =
      match (Piece.mk x c.position).kept? d with
      | some t => (.ok t, behind, recorded)
      | none => behind.next d recorded := by
  intro behind recorded
  rw [next]
  split
  next h' => rw [h] at h'; cases h'
  next x' rest' h' =>
    rw [h] at h'
    cases h'
    unfold Piece.kept?
    cases htoken : (Piece.mk x c.position).token? with
    | none =>
        simp only [htoken]
        rfl
    | some t =>
        simp only [htoken]
        cases hdrops : d.drops t with
        | true => simp [Option.filter, hdrops, behind, recorded]
        | false => simp [Option.filter, hdrops, behind, recorded]

end Cursor

/-! ## Reading on -/

/-- `Reads d c table answer left`: from the cursor on, the tokens up to the end of the text,
or the error that comes first, are the answer, and the table is left with the comments
recorded. -/
inductive Reads (d : Dialect) :
    Cursor → Comments → Except LexicalError (List Token) → Comments → Prop where
  /-- The end of the text is the last token. -/
  | finish {c behind : Cursor} {table left : Comments} {t : Token}
      (step : c.next d table = (.ok t, behind, left)) (last : t.kind = .eof) :
      Reads d c table (.ok [t]) left
  /-- An error is the answer, whatever has been read before. -/
  | fail {c behind : Cursor} {table left : Comments} {e : LexicalError}
      (step : c.next d table = (.error e, behind, left)) : Reads d c table (.error e) left
  /-- Behind any other token, reading goes on. -/
  | more {c behind : Cursor} {table between left : Comments} {t : Token}
      {answer : Except LexicalError (List Token)}
      (step : c.next d table = (.ok t, behind, between)) (proper : t.kind ≠ .eof)
      (goesOn : Reads d behind between answer left) :
      Reads d c table (answer.map (t :: ·)) left

variable {d : Dialect} {c behind : Cursor} {table left left' : Comments}
  {answer answer' : Except LexicalError (List Token)} {t : Token}

/-- There is one answer at most. -/
theorem Reads.unique (h : Reads d c table answer left) (h' : Reads d c table answer' left') :
    answer = answer' ∧ left = left' := by
  induction h generalizing answer' left' with
  | finish step last =>
      cases h' with
      | finish step' =>
          cases step.symm.trans step'
          exact ⟨rfl, rfl⟩
      | fail step' => cases step.symm.trans step'
      | more step' proper =>
          cases step.symm.trans step'
          exact absurd last proper
  | fail step =>
      cases h' with
      | finish step' => cases step.symm.trans step'
      | fail step' =>
          cases step.symm.trans step'
          exact ⟨rfl, rfl⟩
      | more step' => cases step.symm.trans step'
  | more step proper _ ih =>
      cases h' with
      | finish step' last =>
          cases step.symm.trans step'
          exact absurd last proper
      | fail step' => cases step.symm.trans step'
      | more step' _ goesOn =>
          cases step.symm.trans step'
          obtain ⟨rfl, rfl⟩ := ih goesOn
          exact ⟨rfl, rfl⟩

/-- What is passed over may as well stand in front of the cursor. -/
theorem Reads.of_next_eq {between : Comments} (hnext : c.next d table = behind.next d between)
    (h : Reads d behind between answer left) : Reads d c table answer left := by
  cases h with
  | finish step last => exact .finish (hnext.trans step) last
  | fail step => exact .fail (hnext.trans step)
  | more step proper goesOn => exact .more (hnext.trans step) proper goesOn

/-- No rule reads the end of the text. -/
theorem Lexeme.kind_ne_eof_of_next? {cs rest : List Char} {x : Lexeme} {k : Token.Kind}
    (h : next? cs = some (x, rest)) (hk : x.kind = .token k) : k ≠ .eof := by
  rcases next?_cases h with ⟨_, rfl, _⟩ | ⟨_, rfl, _⟩ | ⟨k', hk', hproper, _⟩
  · cases hk
  · cases hk
  · rw [hk] at hk'
    cases hk'
    exact hproper

/-- Reading on from a place gives what the scan from there gives. -/
theorem reads_scanFrom (d : Dialect) (p : Position) (cs : List Char) (table : Comments) :
    Reads d ⟨p, cs⟩ table ((scanFrom p cs).result d)
      (table.recordAll (scanFrom p cs).comments) := by
  induction cs using Lexeme.text_induction generalizing p table with
  | stuck cs hnext =>
      have hstep := Cursor.next_of_next?_eq_none (c := ⟨p, cs⟩) hnext d table
      rw [result_of_next?_eq_none hnext, scanFrom_of_next?_eq_none hnext]
      cases cs with
      | nil => exact .finish hstep rfl
      | cons e cs => exact .fail hstep
  | split cs x rest hnext ih =>
      have hstep := Cursor.next_of_next?_eq_some (c := ⟨p, cs⟩) hnext d table
      have hcomments : (scanFrom p cs).comments = (Piece.mk x p).comment?.toList ++
          (scanFrom (p.after x.text) rest).comments := by
        rw [scanFrom_of_next?_eq_some hnext, Scan.comments_prepend]
      have hbehind := ih (p.after x.text) (table.recordAll (Piece.mk x p).comment?.toList)
      rw [hcomments, Comments.recordAll_append, result_of_next?_eq_some hnext]
      cases hkept : (Piece.mk x p).kept? d with
      | none =>
          rw [hkept] at hstep
          have hsame (r : Except LexicalError (List Token)) :
              r.map ((none : Option Token).toList ++ ·) = r := by
            cases r <;> rfl
          rw [hsame]
          exact hbehind.of_next_eq hstep
      | some t =>
          rw [hkept] at hstep
          have hkind : x.kind = .token t.kind :=
            congrArg Lexeme.kind (Piece.lexeme_eq_of_kept? hkept)
          exact .more hstep (Lexeme.kind_ne_eof_of_next? hnext hkind) hbehind

/-- Reading a whole text token by token gives what scanning it gives, and nothing else. -/
theorem reads_start_iff (d : Dialect) (text : String) (table : Comments) :
    Reads d (.start text) table answer left ↔ (answer, left) = tokenize d text table := by
  have hscan : Reads d (.start text) table (tokenize d text table).1 (tokenize d text table).2 :=
    reads_scanFrom d .start text.toList table
  constructor
  · intro h
    obtain ⟨rfl, rfl⟩ := h.unique hscan
    rfl
  · intro h
    rw [← h] at hscan
    exact hscan

/-! ## Two dialects -/

/-- The dialect that drops nothing has the tokens of both. -/
theorem Scan.result_dropsPrefixes (s : Scan) :
    s.result { dropsPrefixes := true } = (s.result { dropsPrefixes := false }).map
      (List.filter fun t => !decide (t.kind = .label ∧ (t.text = "z:" ∨ t.text = "a:"))) := by
  have hdrops (t : Token) : Dialect.drops { dropsPrefixes := true } t =
      decide (t.kind = .label ∧ (t.text = "z:" ∨ t.text = "a:")) := by
    simp [Dialect.drops, Bool.beq_eq_decide_eq]
  have hkeeps (t : Token) : Dialect.drops { dropsPrefixes := false } t = false := rfl
  unfold result
  cases s.error? with
  | some e => rfl
  | none => simp [tokens, hdrops, hkeeps, Except.map, Token.endAt, List.filter_append]

/-- Dropping the addressing prefixes is a filter.  Reading token by token, with the prefixes
passed over where they stand, gives in both dialects what the scan of the text gives; both
fail on the same texts, with the same error, and record the same comments; and the tokens
that are left are those that are no prefix. -/
theorem tokenize_dropsPrefixes (text : String) (table : Comments) :
    let kept := tokenize { dropsPrefixes := false } text table
    let dropped := tokenize { dropsPrefixes := true } text table
    (∀ d answer left,
      Reads d (.start text) table answer left ↔ (answer, left) = tokenize d text table) ∧
      dropped.1 = kept.1.map
        (List.filter fun t => !decide (t.kind = .label ∧ (t.text = "z:" ∨ t.text = "a:"))) ∧
      dropped.2 = kept.2 :=
  ⟨fun d _ _ => reads_start_iff d text table, (scan text).result_dropsPrefixes, rfl⟩

end Asm6502
