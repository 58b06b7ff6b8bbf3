import Asm6502.Proofs.Lexing.LineEnds

/-!
# Where comments stand

A comment starts at a semicolon that no lexeme in front of it has taken in, and goes on to
the end of its line.  So a line has one comment at most: what stands behind a comment starts
with a line feed.  Lines are counted by all line feeds of the text, those inside strings
included, and a semicolon inside a string starts nothing, however many lines the string
takes.

The table keeps one comment for each line, and none of those of a text replaces another one
of them; so it ends up with all of them.  Where scanning stops at a character that can start
no lexeme, nothing behind is split into lexemes, and what has been recorded is there.

## Main results

* `commentAt_iff_of_next?` — the comments of a text, lexeme by lexeme.
* `CommentAt.unique` — one comment on each line.
* `CommentAt.outside` — no comment starts inside a lexeme.
* `mem_comments_iff` — a scan finds exactly the comments of its text.
* `tokenize_comments` — what the table holds in the end.
-/

namespace Asm6502

/-- `Splits cs xs rest`: the first lexemes of the text are `xs`, and `rest` is the text that
stands behind them. -/
inductive Splits : List Char → List Lexeme → List Char → Prop where
  | done {cs : List Char} : Splits cs [] cs
  | more {cs mid rest : List Char} {x : Lexeme} {xs : List Lexeme}
      (first : Lexeme.next? cs = some (x, mid)) (later : Splits mid xs rest) :
      Splits cs (x :: xs) rest

/-- `CommentAt cs before comment`: behind its beginning `before`, the text `cs` has a comment.
What stands in front of it is a sequence of lexemes, it starts with a semicolon, and it goes on
up to the next line feed or to the end of the text. -/
def CommentAt (cs before comment : List Char) : Prop :=
  ∃ xs body behind, Splits cs xs (';' :: body ++ behind) ∧
    before = xs.flatMap (·.text) ∧ comment = ';' :: body ∧
    '\n' ∉ body ∧ ∀ c ∈ behind.head?, c = '\n'

variable {cs mid rest before before' comment comment' : List Char} {x : Lexeme}
  {xs : List Lexeme}

/-! ## Lexeme by lexeme -/

/-- Splitting loses nothing. -/
theorem Splits.append_eq (h : Splits cs xs rest) : cs = xs.flatMap (·.text) ++ rest := by
  induction h with
  | done => rfl
  | more first _ ih =>
      rw [List.flatMap_cons, List.append_assoc, ← ih, Lexeme.append_of_next? first]

/-- A comment is a lexeme. -/
theorem Lexeme.next?_comment {body behind : List Char} (inLine : '\n' ∉ body)
    (stops : ∀ c ∈ behind.head?, c = '\n') :
    next? (';' :: body ++ behind) = some (⟨.comment, ';' :: body⟩, behind) := by
  have hinside : ∀ c ∈ body, (c != '\n') = true := by
    intro c hc
    simp only [bne_iff_ne]
    rintro rfl
    exact inLine hc
  have hends : ∀ c ∈ behind.head?, (c != '\n') = false := by
    intro c hc
    rw [stops c hc]
    rfl
  rw [List.cons_append, next?_of_starts (r := .comment) rfl]
  exact congrArg some (run_of_boundary .comment ';' hinside hends)

/-- The comments of a text: its first lexeme may be one, and all others stand behind it. -/
theorem commentAt_iff_of_next? (h : Lexeme.next? cs = some (x, mid)) :
    CommentAt cs before comment ↔ (before = [] ∧ x = ⟨.comment, comment⟩) ∨
      ∃ before', before = x.text ++ before' ∧ CommentAt mid before' comment := by
  constructor
  · rintro ⟨xs, body, behind, hsplits, rfl, rfl, inLine, stops⟩
    cases hsplits with
    | done =>
        rw [Lexeme.next?_comment inLine stops] at h
        cases h
        exact .inl ⟨rfl, rfl⟩
    | more first later =>
        cases first.symm.trans h
        exact .inr ⟨_, rfl, _, body, behind, later, rfl, rfl, inLine, stops⟩
  · rintro (⟨rfl, rfl⟩ | ⟨before', rfl, xs, body, behind, later, rfl, rfl, inLine, stops⟩)
    · have hcs := Lexeme.append_of_next? h
      rcases Lexeme.next?_cases h with ⟨_, heq, _⟩ | ⟨body, heq, inLine, stops⟩ | ⟨_, hk, _⟩
      · cases heq
      · cases heq
        subst hcs
        exact ⟨[], body, mid, .done, rfl, rfl, inLine, stops⟩
      · cases hk
    · exact ⟨x :: xs, body, behind, .more h later, rfl, rfl, inLine, stops⟩

/-- Where no lexeme starts, there is no comment. -/
theorem not_commentAt_of_next? (h : Lexeme.next? cs = none) : ¬ CommentAt cs before comment := by
  rintro ⟨xs, body, behind, hsplits, -, -, inLine, stops⟩
  cases hsplits with
  | done =>
      rw [Lexeme.next?_comment inLine stops] at h
      cases h
  | more first later => cases first.symm.trans h

/-- A comment is a part of the text, on one line. -/
theorem CommentAt.isComment (h : CommentAt cs before comment) :
    comment.head? = some ';' ∧ '\n' ∉ comment ∧
      ∃ behind, cs = before ++ comment ++ behind ∧ ∀ c ∈ behind.head?, c = '\n' := by
  obtain ⟨xs, body, behind, hsplits, rfl, rfl, inLine, stops⟩ := h
  have hline : '\n' ∉ ';' :: body := by simpa using inLine
  refine ⟨rfl, hline, behind, ?_, stops⟩
  rw [List.append_assoc]
  exact hsplits.append_eq

/-! ## One comment on each line -/

/-- Behind a comment, all comments stand on later lines. -/
theorem CommentAt.count_pos (h : CommentAt cs before comment)
    (hcs : ∀ c ∈ cs.head?, c = '\n') : 0 < before.count '\n' := by
  cases cs with
  | nil => exact absurd h (not_commentAt_of_next? rfl)
  | cons c cs =>
      obtain rfl : c = '\n' := hcs c rfl
      have hfeed : Lexeme.next? ('\n' :: cs) = some (⟨.blank, ['\n']⟩, cs) := rfl
      rcases (commentAt_iff_of_next? hfeed).1 h with ⟨_, heq⟩ | ⟨before', rfl, _⟩
      · cases heq
      · simp

/-- Two comments on one line are the same. -/
theorem CommentAt.unique (h : CommentAt cs before comment) (h' : CommentAt cs before' comment')
    (hline : before.count '\n' = before'.count '\n') : before = before' ∧ comment = comment' := by
  -- If the first lexeme is one of the two, then the other one is further down.
  have first {x : Lexeme} {mid : List Char} {comment before comment' : List Char} {cs : List Char}
      (hnext : Lexeme.next? cs = some (x, mid)) (hx : x = ⟨.comment, comment⟩)
      (h : CommentAt mid before comment') : 0 < before.count '\n' := by
    rcases Lexeme.next?_cases hnext with ⟨_, heq, _⟩ | ⟨_, _, _, stops⟩ | ⟨_, hk, _⟩
    · rw [hx] at heq
      cases heq
    · exact h.count_pos stops
    · rw [hx] at hk
      cases hk
  induction cs using Lexeme.text_induction generalizing before before' with
  | stuck cs hnext => exact absurd h (not_commentAt_of_next? hnext)
  | split cs x rest hnext ih =>
      rcases (commentAt_iff_of_next? hnext).1 h with ⟨rfl, hx⟩ | ⟨later, rfl, hlater⟩ <;>
        rcases (commentAt_iff_of_next? hnext).1 h' with ⟨rfl, hx'⟩ | ⟨later', rfl, hlater'⟩
      · rw [hx] at hx'
        cases hx'
        exact ⟨rfl, rfl⟩
      · have hpos := first hnext hx hlater'
        rw [List.count_append, List.count_nil] at hline
        omega
      · have hpos := first hnext hx' hlater
        rw [List.count_append, List.count_nil] at hline
        omega
      · rw [List.count_append, List.count_append] at hline
        obtain ⟨rfl, rfl⟩ := ih hlater hlater' (Nat.add_left_cancel hline)
        exact ⟨rfl, rfl⟩

/-! ## No comment inside a lexeme -/

/-- A comment stands in front of a lexeme or behind it, or it is that lexeme. -/
theorem CommentAt.outside (h : CommentAt cs before comment) (hsplits : Splits cs xs rest)
    (hnext : Lexeme.next? rest = some (x, mid)) :
    before.length < (xs.flatMap (·.text)).length ∨ x = ⟨.comment, comment⟩ ∨
      (xs.flatMap (·.text)).length + x.text.length ≤ before.length := by
  induction hsplits generalizing before with
  | done =>
      rcases (commentAt_iff_of_next? hnext).1 h with ⟨_, hx⟩ | ⟨later, rfl, _⟩
      · exact .inr (.inl hx)
      · right
        right
        rw [List.length_append, List.flatMap_nil, List.length_nil]
        omega
  | @more cs mid' rest y xs first _ ih =>
      rw [List.flatMap_cons, List.length_append]
      rcases (commentAt_iff_of_next? first).1 h with ⟨rfl, _⟩ | ⟨later, rfl, hlater⟩
      · have hpos := List.length_pos_iff.2 (Lexeme.ne_nil_of_next? first)
        left
        rw [List.length_nil]
        omega
      · rw [List.length_append]
        rcases ih hlater hnext with hin | hx | hbehind
        · left
          omega
        · exact .inr (.inl hx)
        · right
          right
          omega

/-- A string goes on at least as long as it has not been closed. -/
theorem Lexeme.length_quoted_le {mark : Char} {body : List Char} (hmark : mark ≠ '\\')
    (hbody : QuotedBody mark body) (behind : List Char) :
    body.length ≤ (quoted mark (body ++ behind)).1.length := by
  induction hbody with
  | done => exact Nat.zero_le _
  | @plain c body noMark noBackslash _ ih =>
      rw [List.cons_append, quoted_of_plain noMark noBackslash]
      exact Nat.succ_le_succ ih
  | @escaped c body _ ih =>
      rw [List.cons_append, List.cons_append, quoted_escaped hmark]
      exact Nat.succ_le_succ (Nat.succ_le_succ ih)

/-- Inside a string, closed or not, no comment starts. -/
theorem CommentAt.outside_string (h : CommentAt cs before comment) {mark : Char}
    {body behind : List Char} (hsplits : Splits cs xs (mark :: body ++ behind))
    (hmark : Text.isQuote mark = true) (hbody : QuotedBody mark body) :
    before.length < (xs.flatMap (·.text)).length ∨
      (xs.flatMap (·.text)).length + body.length < before.length := by
  have hne : mark ≠ '\\' := by
    rintro rfl
    cases hmark
  have hnext := Lexeme.next?_of_starts (r := .string) hmark (body ++ behind)
  have hlength : body.length + 1 ≤ (mark :: (Lexeme.quoted mark (body ++ behind)).1).length :=
    Nat.succ_le_succ (Lexeme.length_quoted_le hne hbody behind)
  rcases h.outside hsplits hnext with hin | hx | hbehind
  · exact .inl hin
  · cases hx
  · right
    exact Nat.lt_of_lt_of_le (Nat.add_lt_add_left hlength _) hbehind

/-! ## The table -/

/-- A scan finds exactly the comments of its text, each on the line of its semicolon. -/
theorem mem_comments_iff {p : Position} {e : Nat × String} :
    e ∈ (scanFrom p cs).comments ↔ ∃ before comment, CommentAt cs before comment ∧
      e = ((p.after before).line, String.ofList comment) := by
  induction cs using Lexeme.text_induction generalizing p with
  | stuck cs hnext =>
      rw [scanFrom_of_next?_eq_none hnext]
      constructor
      · rintro ⟨⟩
      · rintro ⟨before, comment, h, _⟩
        exact absurd h (not_commentAt_of_next? hnext)
  | split cs x rest hnext ih =>
      have hfirst : e ∈ (Piece.mk x p).comment? ↔
          ∃ comment, x = ⟨.comment, comment⟩ ∧ e = (p.line, String.ofList comment) := by
        obtain ⟨kind, text⟩ := x
        cases kind with
        | blank | token => simp [Piece.comment?]
        | comment => simp [Piece.comment?, eq_comm]
      have hscan : e ∈ (scanFrom p cs).comments ↔ e ∈ (Piece.mk x p).comment? ∨
          e ∈ (scanFrom (p.after x.text) rest).comments := by
        rw [scanFrom_of_next?_eq_some hnext]
        simp [Scan.comments, Scan.prepend]
      rw [hscan, hfirst, ih]
      constructor
      · rintro (⟨comment, hx, rfl⟩ | ⟨later, comment, h, rfl⟩)
        · exact ⟨[], comment, (commentAt_iff_of_next? hnext).2 (.inl ⟨rfl, hx⟩), rfl⟩
        · refine ⟨x.text ++ later, comment, (commentAt_iff_of_next? hnext).2 (.inr ⟨_, rfl, h⟩), ?_⟩
          rw [Position.after_append]
      · rintro ⟨before, comment, h, rfl⟩
        rcases (commentAt_iff_of_next? hnext).1 h with ⟨rfl, hx⟩ | ⟨later, rfl, hlater⟩
        · exact .inl ⟨comment, hx, rfl⟩
        · refine .inr ⟨later, comment, hlater, ?_⟩
          rw [Position.after_append]

/-- What is recorded for a line that has no second comment stays in the table. -/
theorem Comments.at?_recordAll_of_mem {found : List (Nat × String)} {e : Nat × String}
    (he : e ∈ found) (hone : ∀ e' ∈ found, e'.1 = e.1 → e' = e) (c : Comments) :
    (c.recordAll found).at? e.1 = some e.2 := by
  induction found using List.reverseRecOn with
  | nil => cases he
  | append_singleton found last ih =>
      rw [recordAll_append]
      show ((c.recordAll found).record last.1 last.2).at? e.1 = _
      rw [at?_record]
      split
      next hline => rw [hone last (List.mem_append_right _ List.mem_cons_self) hline]
      next hline =>
        rcases List.mem_append.1 he with he | he
        · exact ih he fun e' he' => hone e' (List.mem_append_left _ he')
        · rw [List.mem_singleton.1 he] at hline
          exact absurd rfl hline

theorem tokenize_snd (d : Dialect) (text : String) (table : Comments) :
    (tokenize d text table).2 = table.recordAll (scanFrom .start text.toList).comments := rfl

/-- A comment is in the table in the end, for the line it starts on. -/
theorem at?_tokenize_of_commentAt {text : String} (h : CommentAt text.toList before comment)
    (d : Dialect) (table : Comments) :
    (tokenize d text table).2.at? (1 + before.count '\n') = some (String.ofList comment) := by
  have hline (before : List Char) : (Position.start.after before).line = 1 + before.count '\n' :=
    Position.line_after .start before
  have hfound : (1 + before.count '\n', String.ofList comment) ∈
      (scanFrom .start text.toList).comments :=
    mem_comments_iff.2 ⟨before, comment, h, by rw [hline]⟩
  rw [tokenize_snd]
  refine Comments.at?_recordAll_of_mem hfound ?_ table
  intro e he heq
  obtain ⟨before', comment', h', rfl⟩ := mem_comments_iff.1 he
  rw [hline] at heq ⊢
  obtain ⟨rfl, rfl⟩ := h'.unique h (Nat.add_left_cancel heq)
  rfl

/-- For a line on which no comment starts, the table has in the end what it had before. -/
theorem at?_tokenize_of_forall_ne {text : String} {line : Nat}
    (hnone : ∀ before comment, CommentAt text.toList before comment → 1 + before.count '\n' ≠ line)
    (d : Dialect) (table : Comments) : (tokenize d text table).2.at? line = table.at? line := by
  rw [tokenize_snd]
  refine Comments.at?_recordAll_of_ne ?_ table
  intro e he
  obtain ⟨before, comment, h, rfl⟩ := mem_comments_iff.1 he
  rw [Position.line_after]
  exact hnone before comment h

/-- The comments of a text, each of which starts outside all strings and ends with its line,
have lines of their own.  Whether the text scans without an error or not, the table in the end
has each of them, as it is written, for the line of its semicolon, and all that it had before
for the other lines. -/
theorem tokenize_comments (d : Dialect) (text : String) (table : Comments) :
    let cs := text.toList
    let left := (tokenize d text table).2
    (∀ before comment, CommentAt cs before comment →
      left.at? (1 + before.count '\n') = some (String.ofList comment)) ∧
      (∀ line, (∀ before comment, CommentAt cs before comment → 1 + before.count '\n' ≠ line) →
        left.at? line = table.at? line) ∧
      (∀ before comment, CommentAt cs before comment →
        comment.head? = some ';' ∧ '\n' ∉ comment ∧
          ∃ behind, cs = before ++ comment ++ behind ∧ ∀ c ∈ behind.head?, c = '\n') ∧
      (∀ before comment before' comment', CommentAt cs before comment →
        CommentAt cs before' comment' → before.count '\n' = before'.count '\n' →
        before = before' ∧ comment = comment') ∧
      ∀ before comment xs mark body behind, CommentAt cs before comment →
        Splits cs xs (mark :: body ++ behind) → Text.isQuote mark = true → QuotedBody mark body →
        before.length < (xs.flatMap (·.text)).length ∨
          (xs.flatMap (·.text)).length + body.length < before.length := by
  intro cs left
  refine ⟨?_, ?_, fun _ _ h => h.isComment, fun _ _ _ _ h h' => h.unique h',
    fun _ _ _ _ _ _ h => h.outside_string⟩
  · intro before comment h
    exact at?_tokenize_of_commentAt h d table
  · intro line hnone
    exact at?_tokenize_of_forall_ne hnone d table

/-- A comment on the first line, a string over the next two lines with a semicolon on each of
them, a comment behind the string, and a character that nothing starts with. -/
theorem tokenize_comments_stringLines :
    let cs := "; a\n.db \"b;\nc;\" ; d\n@ ; e".toList
    let table := ((Comments.empty.record 1 "; x").record 2 "; y").record 3 "; z"
    let left := tokenize {} (String.ofList cs) table
    let before := "; a\n.db \"b;\nc;\" ".toList
    let xs : List Lexeme := [⟨.comment, "; a".toList⟩, ⟨.blank, ['\n']⟩,
      ⟨.token .dataBytes, ".db".toList⟩, ⟨.blank, [' ']⟩]
    left.1 = .error ⟨'@', ⟨4, 1⟩⟩ ∧
      CommentAt cs [] "; a".toList ∧ left.2.at? 1 = some "; a" ∧
      CommentAt cs before "; d".toList ∧ left.2.at? 3 = some "; d" ∧
      (∀ before comment, CommentAt cs before comment → 1 + before.count '\n' ≠ 2) ∧
      left.2.at? 2 = some "; y" ∧
      Splits cs xs ('"' :: "b;\nc;".toList ++ "\" ; d\n@ ; e".toList) ∧
      QuotedBody '"' "b;\nc;".toList ∧
      ∀ before comment, CommentAt cs before comment →
        before.length < 8 ∨ 13 < before.length := by
  intro cs table left before xs
  have hcomments := tokenize_comments {} (String.ofList cs) table
  rw [String.toList_ofList] at hcomments
  obtain ⟨hfound, hother, -, -, hstring⟩ := hcomments
  have hsplits : Splits cs xs ('"' :: "b;\nc;".toList ++ "\" ; d\n@ ; e".toList) :=
    .more rfl (.more rfl (.more rfl (.more rfl .done)))
  have hbody : QuotedBody '"' "b;\nc;".toList :=
    .plain (by decide) (by decide) (.plain (by decide) (by decide) (.plain (by decide) (by decide)
      (.plain (by decide) (by decide) (.plain (by decide) (by decide) .done))))
  have hstops (behind : List Char) : ∀ c ∈ ('\n' :: behind).head?, c = '\n' := by
    rintro c ⟨⟩
    rfl
  have hfirst : CommentAt cs [] "; a".toList :=
    ⟨[], " a".toList, _, .done, rfl, rfl, by decide, hstops _⟩
  have hsecond : CommentAt cs before "; d".toList :=
    ⟨xs ++ [⟨.token .name, "\"b;\nc;\"".toList⟩, ⟨.blank, [' ']⟩], " d".toList, "\n@ ; e".toList,
      .more rfl (.more rfl (.more rfl (.more rfl (.more rfl (.more rfl .done))))),
      by decide +kernel, rfl, by decide, hstops _⟩
  have hlines : ∀ e ∈ (scanFrom .start cs).comments, e.1 ≠ 2 := by decide +kernel
  have hnone (before' comment : List Char) (h : CommentAt cs before' comment) :
      1 + before'.count '\n' ≠ 2 := by
    have hline := hlines _ (mem_comments_iff.2 ⟨before', comment, h, rfl⟩)
    rwa [Position.start_after] at hline
  refine ⟨by decide +kernel, hfirst, hfound _ _ hfirst, hsecond, hfound _ _ hsecond, hnone,
    hother 2 hnone, hsplits, hbody, fun before' comment h => ?_⟩
  exact hstring before' comment xs '"' _ _ h hsplits rfl hbody

end Asm6502
