import Asm6502.Proofs.Lexing.CommentLines

/-!
# Carriage returns in front of line feeds

A line may end with a line feed alone, or with a carriage return in front of it.  Where such a
carriage return stands between two lexemes, it is a blank that goes; where it ends a comment, the
comment becomes shorter by it; and inside a string the string does.  Behind a backslash too: then
the line feed is taken in its place, and a line feed ends no string.

A carriage return takes a column.  So the two readings of a line may be at different columns in
front of a line feed, and nowhere else: a line feed leads to the first column from everywhere.

## Main results

* `next?_unifyLineEnds` — what becomes of the first lexeme.
* `result_unifyLineEnds` — the tokens are found at the same places.
* `CommentAt.unifyLineEnds`, `exists_of_commentAt_unifyLineEnds` — the comments, on the same lines.
-/

namespace Asm6502

/-- Replaces every carriage return with a line feed behind it by the line feed alone. -/
def unifyLineEnds : List Char → List Char
  | '\r' :: '\n' :: cs => '\n' :: unifyLineEnds cs
  | c :: cs => c :: unifyLineEnds cs
  | [] => []

/-- A text within a line, without its last character if this is a carriage return and a line feed
comes next. -/
def withoutReturn (line : List Char) (next : Option Char) : List Char :=
  if line.getLast? = some '\r' ∧ next = some '\n' then line.dropLast else line

/-- The token with the lines of its text ended by line feeds alone. -/
def Token.unifyLineEnds (t : Token) : Token :=
  { t with text := String.ofList (Asm6502.unifyLineEnds t.text.toList) }

/-! ## Texts -/

section Texts

variable {c : Char} {cs xs ys : List Char}

theorem unifyLineEnds_of_pair (h : cs.head? = some '\n') :
    unifyLineEnds ('\r' :: cs) = unifyLineEnds cs := by
  obtain ⟨cs, rfl⟩ := List.head?_eq_some_iff.1 h
  rfl

theorem unifyLineEnds_of_no_pair (h : ¬ (c = '\r' ∧ cs.head? = some '\n')) :
    unifyLineEnds (c :: cs) = c :: unifyLineEnds cs := by
  rw [unifyLineEnds]
  rintro cs rfl rfl
  exact h ⟨rfl, rfl⟩

/-- A text behind another one plays no part in it, if it does not complete a pair. -/
theorem unifyLineEnds_append (h : xs.getLast? = some '\r' → ys.head? ≠ some '\n') :
    unifyLineEnds (xs ++ ys) = unifyLineEnds xs ++ unifyLineEnds ys := by
  induction xs with
  | nil => rfl
  | cons c xs ih =>
      have hbehind : unifyLineEnds (xs ++ ys) = unifyLineEnds xs ++ unifyLineEnds ys := by
        refine ih fun hlast => h ?_
        rw [List.getLast?_cons, hlast]
        rfl
      by_cases hpair : c = '\r' ∧ xs.head? = some '\n'
      · obtain ⟨rfl, hhead⟩ := hpair
        have hwhole : (xs ++ ys).head? = some '\n' := by rw [List.head?_append, hhead]; rfl
        rw [List.cons_append, unifyLineEnds_of_pair hwhole, unifyLineEnds_of_pair hhead, hbehind]
      · have hwhole : ¬ (c = '\r' ∧ (xs ++ ys).head? = some '\n') := by
          rintro ⟨rfl, hhead⟩
          cases xs with
          | nil => exact h rfl hhead
          | cons d xs => exact hpair ⟨rfl, hhead⟩
        rw [List.cons_append, unifyLineEnds_of_no_pair hwhole, unifyLineEnds_of_no_pair hpair,
          hbehind]
        rfl

/-- A text without the one or the other of the two characters stays as it is. -/
theorem unifyLineEnds_eq_self (h : '\r' ∉ cs ∨ '\n' ∉ cs) : unifyLineEnds cs = cs := by
  induction cs with
  | nil => rfl
  | cons c cs ih =>
      rw [unifyLineEnds_of_no_pair, ih]
      · exact h.imp (fun hnot hmem => hnot (List.mem_cons_of_mem c hmem))
          (fun hnot hmem => hnot (List.mem_cons_of_mem c hmem))
      · rintro ⟨rfl, hhead⟩
        rcases h with hnot | hnot
        · exact hnot List.mem_cons_self
        · exact hnot (List.mem_cons_of_mem _ (List.mem_of_head? hhead))

/-- A text within a line loses at most the carriage return at its end. -/
theorem unifyLineEnds_line (inLine : '\n' ∉ xs) (ys : List Char) :
    unifyLineEnds (xs ++ ys) = withoutReturn xs ys.head? ++ unifyLineEnds ys := by
  by_cases hpair : xs.getLast? = some '\r' ∧ ys.head? = some '\n'
  · rw [withoutReturn, if_pos hpair]
    obtain ⟨zs, rfl⟩ := List.getLast?_eq_some_iff.1 hpair.1
    have hline : '\n' ∉ zs := fun hmem => inLine (List.mem_append_left _ hmem)
    rw [List.dropLast_concat, List.append_assoc, unifyLineEnds_append fun _ => by simp,
      unifyLineEnds_eq_self (.inr hline)]
    exact congrArg (zs ++ ·) (unifyLineEnds_of_pair hpair.2)
  · rw [withoutReturn, if_neg hpair, unifyLineEnds_append fun hlast hhead => hpair ⟨hlast, hhead⟩,
      unifyLineEnds_eq_self (.inr inLine)]

/-- Where lines end, they still do. -/
theorem head?_unifyLineEnds (h : cs.head? = some '\n') : (unifyLineEnds cs).head? = some '\n' := by
  obtain ⟨cs, rfl⟩ := List.head?_eq_some_iff.1 h
  rfl

/-- The text that remains starts as it did, or with a line feed. -/
theorem standsFor_unifyLineEnds (cs : List Char) : Lexeme.StandsFor (unifyLineEnds cs) cs := by
  cases cs with
  | nil => exact .inl rfl
  | cons c cs =>
      by_cases hpair : c = '\r' ∧ cs.head? = some '\n'
      · obtain ⟨rfl, hhead⟩ := hpair
        rw [unifyLineEnds_of_pair hhead]
        exact .inr (.inr (head?_unifyLineEnds hhead))
      · rw [unifyLineEnds_of_no_pair hpair]
        exact .inl rfl

/-- The place behind a text is the same: a pair leads to the next line from every column. -/
theorem Position.after_unifyLineEnds (p : Position) (cs : List Char) :
    p.after (Asm6502.unifyLineEnds cs) = p.after cs := by
  induction cs generalizing p with
  | nil => rfl
  | cons c cs ih =>
      by_cases hpair : c = '\r' ∧ cs.head? = some '\n'
      · obtain ⟨rfl, hhead⟩ := hpair
        rw [unifyLineEnds_of_pair hhead, ih]
        obtain ⟨cs, rfl⟩ := List.head?_eq_some_iff.1 hhead
        rfl
      · rw [unifyLineEnds_of_no_pair hpair, after_cons, after_cons, ih]

theorem count_unifyLineEnds (cs : List Char) : (unifyLineEnds cs).count '\n' = cs.count '\n' := by
  have hline := congrArg Position.line (Position.start.after_unifyLineEnds cs)
  rw [Position.line_after, Position.line_after] at hline
  exact Nat.add_left_cancel hline

theorem withoutReturn_cons (hc : c ≠ '\r') (xs : List Char) (next : Option Char) :
    withoutReturn (c :: xs) next = c :: withoutReturn xs next := by
  cases xs with
  | nil => simp [withoutReturn, hc]
  | cons d xs =>
      rw [withoutReturn, withoutReturn, List.getLast?_cons_cons]
      split
      next => rfl
      next => rfl

theorem count_withoutReturn (xs : List Char) (next : Option Char) :
    (withoutReturn xs next).count '\n' = xs.count '\n' := by
  unfold withoutReturn
  split
  next hpair =>
    obtain ⟨zs, rfl⟩ := List.getLast?_eq_some_iff.1 hpair.1
    rw [List.dropLast_concat, List.count_append]
    rfl
  next => rfl

end Texts

/-! ## One lexeme -/

namespace Lexeme

variable {mark c d : Char} {cs rest : List Char} {x : Lexeme}

/-- What becomes of a lexeme that stands in front of the character `next`. -/
def unifyLineEnds (x : Lexeme) (next : Option Char) : Lexeme :=
  match x.kind with
  | .comment => ⟨.comment, withoutReturn x.text next⟩
  | k => ⟨k, Asm6502.unifyLineEnds x.text⟩

theorem count_text_unifyLineEnds (x : Lexeme) (next : Option Char) :
    (x.unifyLineEnds next).text.count '\n' = x.text.count '\n' := by
  obtain ⟨kind, text⟩ := x
  cases kind with
  | comment => exact count_withoutReturn text next
  | blank | token => exact count_unifyLineEnds text

theorem head?_quoted (mark : Char) (cs : List Char) : (quoted mark cs).1.head? = cs.head? := by
  fun_cases quoted mark cs with
  | case1 | case2 | case3 | case4 | case5 => rfl

/-- A string goes on to the same mark.  The mark is no line end, and a line feed is taken alone,
as a carriage return is, unless a backslash stands in front of it. -/
theorem quoted_unifyLineEnds (hmark : Text.isQuote mark = true) (cs : List Char) :
    quoted mark (Asm6502.unifyLineEnds cs) =
      (Asm6502.unifyLineEnds (quoted mark cs).1, Asm6502.unifyLineEnds (quoted mark cs).2) := by
  have hne (c : Char) (hc : Text.isQuote c = false) : c ≠ mark := by
    rintro rfl
    rw [hc] at hmark
    cases hmark
  fun_induction quoted mark cs with
  | case1 => rfl
  | case2 c =>
      rw [unifyLineEnds_of_no_pair (by simp)]
      rfl
  | case3 d cs =>
      have hreturn : mark ≠ '\r' := (hne '\r' rfl).symm
      rw [unifyLineEnds_of_no_pair fun hpair => hreturn hpair.1, quoted_mark,
        unifyLineEnds_of_no_pair fun hpair => hreturn hpair.1]
      rfl
  | case4 d cs tail h ih =>
      have hescape (text : List Char) : Asm6502.unifyLineEnds ('\\' :: text) =
          '\\' :: Asm6502.unifyLineEnds text := unifyLineEnds_of_no_pair (by simp)
      rw [hescape, hescape]
      by_cases hpair : d = '\r' ∧ cs.head? = some '\n'
      · -- The backslash takes the line feed in place of the carriage return.
        obtain ⟨rfl, hhead⟩ := hpair
        rw [unifyLineEnds_of_pair hhead, unifyLineEnds_of_pair ((head?_quoted mark cs).trans hhead)]
        obtain ⟨cs, rfl⟩ := List.head?_eq_some_iff.1 hhead
        rw [unifyLineEnds_of_no_pair (by simp), quoted_of_plain (hne '\n' rfl) (by decide)] at ih
        rw [unifyLineEnds_of_no_pair (by simp), quoted_escaped (hne '\\' rfl).symm]
        obtain ⟨hbody, hbehind⟩ := Prod.mk.inj ih
        rw [hbody, hbehind]
      · have hpair' : ¬ (d = '\r' ∧ tail.1.head? = some '\n') := by
          rwa [head?_quoted]
        rw [unifyLineEnds_of_no_pair hpair, unifyLineEnds_of_no_pair hpair',
          quoted_escaped (hne '\\' rfl).symm, ih]
  | case5 c d cs h h' tail ih =>
      have hhead : tail.1.head? = (d :: cs).head? := head?_quoted mark (d :: cs)
      by_cases hpair : c = '\r' ∧ (d :: cs).head? = some '\n'
      · obtain ⟨rfl, hfeed⟩ := hpair
        rw [unifyLineEnds_of_pair hfeed, unifyLineEnds_of_pair (hhead.trans hfeed), ih]
      · rw [unifyLineEnds_of_no_pair hpair, quoted_of_plain h h', ih,
          unifyLineEnds_of_no_pair (by rwa [hhead])]

/-- A carriage return stands nowhere in a token but a string. -/
theorem Rule.return_not_mem {r : Rule} (hstarts : r.Starts c)
    (hr : r ≠ .blank ∧ r ≠ .comment ∧ r ≠ .string) (cs : List Char) :
    '\r' ∉ (r.split c cs).1.text := by
  have hrun {p : Char → Bool} (hp : p '\r' = false) : '\r' ∉ cs.takeWhile p := by
    intro hmem
    rw [of_mem_run _ hmem] at hp
    cases hp
  have hfirst : '\r' ≠ c := by
    rintro rfl
    rw [← Rule.of?_eq_some_iff] at hstarts
    exact hr.1 (Option.some.inj hstarts).symm
  cases r with
  | blank => exact absurd rfl hr.1
  | comment => exact absurd rfl hr.2.1
  | string => exact absurd rfl hr.2.2
  | punctuation k => simp [split, hfirst]
  | directive | hexadecimal | binary | decimal =>
      exact List.not_mem_cons_of_ne_of_not_mem hfirst (hrun (by decide))
  | word =>
      have hword : '\r' ∉ c :: cs.takeWhile Text.isWordChar :=
        List.not_mem_cons_of_ne_of_not_mem hfirst (hrun (by decide))
      simp only [split, Lexeme.word]
      split
      next => simpa using hword
      next => exact hword

theorem unifyLineEnds_eq_self_of_return_not_mem (h : '\r' ∉ x.text) (next : Option Char) :
    x.unifyLineEnds next = x := by
  obtain ⟨kind, text⟩ := x
  cases kind with
  | comment =>
      have hlast : ¬ (text.getLast? = some '\r' ∧ next = some '\n') := fun hpair =>
        h (List.mem_of_getLast? hpair.1)
      rw [unifyLineEnds, withoutReturn, if_neg hlast]
  | blank | token => rw [unifyLineEnds, Asm6502.unifyLineEnds_eq_self (.inl h)]

/-- A comment stays a comment, up to the same line feed. -/
theorem next?_comment_unifyLineEnds {body behind : List Char} (inLine : '\n' ∉ body)
    (stops : ∀ c ∈ behind.head?, c = '\n') :
    next? (Asm6502.unifyLineEnds (';' :: body ++ behind)) =
      some (⟨.comment, withoutReturn (';' :: body) behind.head?⟩,
        Asm6502.unifyLineEnds behind) := by
  have inLine' : '\n' ∉ withoutReturn body behind.head? := by
    rwa [← List.count_eq_zero, count_withoutReturn, List.count_eq_zero]
  have stops' : ∀ c ∈ (Asm6502.unifyLineEnds behind).head?, c = '\n' := by
    intro c hc
    cases hhead : behind.head? with
    | none =>
        rw [List.head?_eq_none_iff.1 hhead] at hc
        cases hc
    | some d =>
        obtain rfl : d = '\n' := stops d hhead
        rw [head?_unifyLineEnds hhead] at hc
        exact (Option.some.inj hc).symm
  have hline : '\n' ∉ ';' :: body := List.not_mem_cons_of_ne_of_not_mem (by decide) inLine
  rw [unifyLineEnds_line hline, withoutReturn_cons (by decide)]
  exact next?_comment inLine' stops'

/-- What becomes of the first lexeme of a text.  Either it is a carriage return that goes, or it
stands in front of what becomes of the text behind it. -/
theorem next?_unifyLineEnds (h : next? cs = some (x, rest)) :
    (x = ⟨.blank, ['\r']⟩ ∧ rest.head? = some '\n' ∧
      Asm6502.unifyLineEnds cs = Asm6502.unifyLineEnds rest) ∨
    next? (Asm6502.unifyLineEnds cs) =
      some (x.unifyLineEnds rest.head?, Asm6502.unifyLineEnds rest) := by
  cases cs with
  | nil => cases h
  | cons c cs =>
      obtain ⟨r, hr, hsplit⟩ := Option.map_eq_some_iff.1 h
      have hstarts := Rule.of?_eq_some_iff.1 hr
      have hcs := append_of_next? h
      cases r with
      | blank =>
          cases hsplit
          by_cases hpair : c = '\r' ∧ rest.head? = some '\n'
          · obtain ⟨rfl, hhead⟩ := hpair
            exact .inl ⟨rfl, hhead, unifyLineEnds_of_pair hhead⟩
          · right
            rw [unifyLineEnds_of_no_pair hpair, next?_of_starts hstarts, Rule.split, unifyLineEnds,
              unifyLineEnds_of_no_pair (by simp)]
            rfl
      | comment =>
          right
          obtain rfl : c = ';' := hstarts
          cases hsplit
          have inLine : '\n' ∉ cs.takeWhile (· != '\n') := fun hmem => by
            simpa using of_mem_run _ hmem
          have stops : ∀ d ∈ (cs.dropWhile (· != '\n')).head?, d = '\n' := fun d hd => by
            simpa using head?_dropWhile_eq_false _ cs hd
          rw [← hcs]
          exact next?_comment_unifyLineEnds inLine stops
      | string =>
          right
          have hreturn : c ≠ '\r' := by
            rintro rfl
            cases hstarts
          cases hsplit
          rw [unifyLineEnds_of_no_pair fun hpair => hreturn hpair.1, next?_of_starts hstarts,
            Rule.split, quoted_unifyLineEnds hstarts, unifyLineEnds,
            unifyLineEnds_of_no_pair fun hpair => hreturn hpair.1]
      | directive | hexadecimal | binary | decimal | word | punctuation =>
          right
          have hreturn : '\r' ∉ x.text := by
            have hnot := Rule.return_not_mem hstarts (by simp) cs
            rwa [hsplit] at hnot
          have hlast : x.text.getLast? ≠ some '\r' := fun hlast =>
            hreturn (List.mem_of_getLast? hlast)
          rw [unifyLineEnds_eq_self_of_return_not_mem hreturn, ← hcs,
            unifyLineEnds_append fun hlast' => absurd hlast' hlast,
            Asm6502.unifyLineEnds_eq_self (.inl hreturn)]
          refine next?_behind h (standsFor_unifyLineEnds rest) fun hrest => .inl ?_
          rw [hrest]
          rfl

/-- Where no lexeme starts, the first character stays. -/
theorem next?_unifyLineEnds_eq_none (h : next? cs = none) :
    next? (Asm6502.unifyLineEnds cs) = none ∧
      (Asm6502.unifyLineEnds cs).head? = cs.head? ∧ cs.head? ≠ some '\n' := by
  cases cs with
  | nil => exact ⟨rfl, rfl, by simp⟩
  | cons c cs =>
      rw [next?, Option.map_eq_none_iff] at h
      have hne (d : Char) (hd : Rule.of? d ≠ none) : c ≠ d := by
        rintro rfl
        exact hd h
      rw [unifyLineEnds_of_no_pair fun hpair => hne '\r' (by decide) hpair.1]
      refine ⟨?_, rfl, by simpa using hne '\n' (by decide)⟩
      rw [next?, h, Option.map_none]

/-- A token with a carriage return in it is a string. -/
theorem return_not_mem_or_isQuote {k : Token.Kind} (h : next? cs = some (x, rest))
    (hk : x.kind = .token k) :
    '\r' ∉ x.text ∨
      k = .name ∧ ∃ mark tail, x.text = mark :: tail ∧ Text.isQuote mark = true := by
  cases cs with
  | nil => cases h
  | cons c cs =>
      obtain ⟨r, hr, hsplit⟩ := Option.map_eq_some_iff.1 h
      have hstarts := Rule.of?_eq_some_iff.1 hr
      cases r with
      | blank | comment =>
          cases hsplit
          cases hk
      | string =>
          cases hsplit
          cases hk
          exact .inr ⟨rfl, c, _, rfl, hstarts⟩
      | directive | hexadecimal | binary | decimal | word | punctuation =>
          have hnot := Rule.return_not_mem hstarts (by simp) cs
          rw [hsplit] at hnot
          exact .inl hnot

end Lexeme

/-! ## The whole text -/

section Whole

variable {p q : Position} {cs rest before comment : List Char} {x : Lexeme} {d : Dialect}

/-- The token of a lexeme is kept or dropped as it was. -/
theorem kept?_unifyLineEnds (h : Lexeme.next? cs = some (x, rest)) (next : Option Char) :
    (Piece.mk (x.unifyLineEnds next) p).kept? d =
      ((Piece.mk x p).kept? d).map Token.unifyLineEnds := by
  obtain ⟨kind, text⟩ := x
  cases kind with
  | blank | comment => rfl
  | token k =>
      have htoken : Token.unifyLineEnds ⟨k, String.ofList text, p⟩ =
          ⟨k, String.ofList (unifyLineEnds text), p⟩ := by
        rw [Token.unifyLineEnds, String.toList_ofList]
      have hdrops : d.drops ⟨k, String.ofList (unifyLineEnds text), p⟩ =
          d.drops ⟨k, String.ofList text, p⟩ := by
        rcases Lexeme.return_not_mem_or_isQuote h rfl with hnot | ⟨rfl, _⟩
        · rw [unifyLineEnds_eq_self (.inl hnot)]
        · have hkind : (Token.Kind.name == Token.Kind.label) = false := rfl
          simp [Dialect.drops, hkind]
      rw [Lexeme.unifyLineEnds, Piece.kept?_token, Piece.kept?_token, hdrops]
      split
      next => rfl
      next => rw [Option.map_some, htoken]

/-- Two places of a line that both stand in front of the text `cs`: they are the same, or else
only a line feed is left of the line. -/
def Meets (p q : Position) (cs : List Char) : Prop :=
  p = q ∨ p.line = q.line ∧ cs.head? = some '\n'

/-- In front of anything but a line feed they are the same. -/
theorem Meets.eq (h : Meets p q cs) (hcs : cs.head? ≠ some '\n') : p = q :=
  h.resolve_right fun hfeed => hcs hfeed.2

/-- A carriage return in front of a line feed brings them apart. -/
theorem Meets.return (h : Meets p q ('\r' :: rest)) (hrest : rest.head? = some '\n') :
    Meets (p.after ['\r']) q rest := by
  obtain rfl := h.eq (by simp)
  exact .inr ⟨rfl, hrest⟩

/-- Any other lexeme brings them together, but for a comment, which may lose its end. -/
theorem Meets.after (h : Meets p q cs) (hnext : Lexeme.next? cs = some (x, rest)) :
    Meets (p.after x.text) (q.after (x.unifyLineEnds rest.head?).text) rest := by
  rcases h with rfl | ⟨hline, hhead⟩
  · by_cases hrest : rest.head? = some '\n'
    · refine .inr ⟨?_, hrest⟩
      rw [Position.line_after, Position.line_after, Lexeme.count_text_unifyLineEnds]
    · left
      obtain ⟨kind, text⟩ := x
      cases kind with
      | blank | token => exact (p.after_unifyLineEnds text).symm
      | comment =>
          rw [Lexeme.unifyLineEnds, withoutReturn, if_neg fun hpair => hrest hpair.2]
  · obtain ⟨cs, rfl⟩ := List.head?_eq_some_iff.1 hhead
    cases hnext
    left
    show p.nextLine = q.nextLine
    rw [Position.nextLine, Position.nextLine, hline]

/-- A line feed is no token. -/
theorem Meets.kept?_eq (h : Meets p q cs) (hnext : Lexeme.next? cs = some (x, rest)) :
    (Piece.mk x p).kept? d = (Piece.mk x q).kept? d := by
  rcases h with rfl | ⟨_, hhead⟩
  · rfl
  · obtain ⟨cs, rfl⟩ := List.head?_eq_some_iff.1 hhead
    cases hnext
    rfl

/-- The same tokens are found at the same places, or the same error is. -/
theorem result_unifyLineEnds (h : Meets p q cs) :
    (scanFrom q (unifyLineEnds cs)).result d =
      ((scanFrom p cs).result d).map (List.map Token.unifyLineEnds) := by
  induction cs using Lexeme.text_induction generalizing p q with
  | stuck cs hnext =>
      obtain ⟨hnext', hhead, hfeed⟩ := Lexeme.next?_unifyLineEnds_eq_none hnext
      obtain rfl := h.eq hfeed
      cases cs with
      | nil =>
          rw [unifyLineEnds, result_of_next?_eq_none hnext]
          rfl
      | cons c cs =>
          obtain ⟨tail, htail⟩ := List.head?_eq_some_iff.1 hhead
          rw [htail] at hnext' ⊢
          rw [result_of_next?_eq_none hnext, result_of_next?_eq_none hnext']
          rfl
  | split cs x rest hnext ih =>
      rw [result_of_next?_eq_some hnext]
      rcases Lexeme.next?_unifyLineEnds hnext with ⟨rfl, hrest, hcs⟩ | hnext'
      · rw [← Lexeme.append_of_next? hnext] at h
        rw [hcs, ih (h.return hrest), Piece.kept?_blank]
        cases (scanFrom (p.after ['\r']) rest).result d with
        | error e => rfl
        | ok ts => rfl
      · rw [result_of_next?_eq_some hnext', kept?_unifyLineEnds hnext, ih (h.after hnext),
          h.kept?_eq hnext]
        cases (scanFrom (p.after x.text) rest).result d with
        | error e => rfl
        | ok ts =>
            cases (Piece.mk x q).kept? d with
            | none => rfl
            | some t => rfl

/-- Each comment is there, on the same line, without its carriage return in front of a line
feed. -/
theorem CommentAt.unifyLineEnds {behind : List Char} (h : CommentAt cs before comment)
    (hcs : cs = before ++ comment ++ behind) :
    ∃ before', CommentAt (Asm6502.unifyLineEnds cs) before' (withoutReturn comment behind.head?) ∧
      before'.count '\n' = before.count '\n' := by
  induction cs using Lexeme.text_induction generalizing before with
  | stuck cs hnext => exact absurd h (not_commentAt_of_next? hnext)
  | split cs x rest hnext ih =>
      have hread := Lexeme.append_of_next? hnext
      rcases (commentAt_iff_of_next? hnext).1 h with ⟨rfl, rfl⟩ | ⟨later, rfl, hlater⟩
      · rw [List.nil_append, ← hread] at hcs
        obtain rfl := List.append_cancel_left hcs
        rcases Lexeme.next?_unifyLineEnds hnext with ⟨heq, _⟩ | hnext'
        · cases heq
        · exact ⟨[], (commentAt_iff_of_next? hnext').2 (.inl ⟨rfl, rfl⟩), rfl⟩
      · rw [List.append_assoc, List.append_assoc, ← hread] at hcs
        have hrest := List.append_cancel_left hcs
        rw [← List.append_assoc] at hrest
        obtain ⟨before', hcomment, hcount⟩ := ih hlater hrest
        rcases Lexeme.next?_unifyLineEnds hnext with ⟨rfl, _, heq⟩ | hnext'
        · rw [heq]
          exact ⟨before', hcomment, by simpa using hcount⟩
        · refine ⟨_, (commentAt_iff_of_next? hnext').2 (.inr ⟨before', rfl, hcomment⟩), ?_⟩
          rw [List.count_append, List.count_append, hcount, Lexeme.count_text_unifyLineEnds]

/-- And on other lines there is none. -/
theorem exists_of_commentAt_unifyLineEnds (h : CommentAt (unifyLineEnds cs) before comment) :
    ∃ before' comment', CommentAt cs before' comment' ∧
      before'.count '\n' = before.count '\n' := by
  induction cs using Lexeme.text_induction generalizing before with
  | stuck cs hnext =>
      exact absurd h (not_commentAt_of_next? (Lexeme.next?_unifyLineEnds_eq_none hnext).1)
  | split cs x rest hnext ih =>
      rcases Lexeme.next?_unifyLineEnds hnext with ⟨rfl, _, heq⟩ | hnext'
      · rw [heq] at h
        obtain ⟨before', comment', hcomment, hcount⟩ := ih h
        exact ⟨_, _, (commentAt_iff_of_next? hnext).2 (.inr ⟨before', rfl, hcomment⟩),
          by simpa using hcount⟩
      · rcases (commentAt_iff_of_next? hnext').1 h with ⟨rfl, hx⟩ | ⟨later, rfl, hlater⟩
        · obtain ⟨kind, text⟩ := x
          cases kind with
          | blank | token => cases hx
          | comment => exact ⟨[], text, (commentAt_iff_of_next? hnext).2 (.inl ⟨rfl, rfl⟩), rfl⟩
        · obtain ⟨before', comment', hcomment, hcount⟩ := ih hlater
          refine ⟨_, _, (commentAt_iff_of_next? hnext).2 (.inr ⟨before', rfl, hcomment⟩), ?_⟩
          rw [List.count_append, List.count_append, hcount, Lexeme.count_text_unifyLineEnds]

/-- A token that changes is a string with a line feed in it. -/
theorem isQuote_of_unifyLineEnds_ne {t : Token} (h : t ∈ (scanFrom p cs).tokens d)
    (hne : t.unifyLineEnds ≠ t) :
    t.kind = .name ∧ '\n' ∈ t.text.toList ∧
      ∃ mark tail, t.text.toList = mark :: tail ∧ Text.isQuote mark = true := by
  have hchanged (hsame : unifyLineEnds t.text.toList = t.text.toList) : False := by
    refine hne ?_
    rw [Token.unifyLineEnds, hsame, String.ofList_toList]
  obtain ⟨_, _, hnext⟩ := exists_of_mem_tokens h
  rcases Lexeme.return_not_mem_or_isQuote hnext rfl with hnot | ⟨hname, hquote⟩
  · exact (hchanged (unifyLineEnds_eq_self (.inl hnot))).elim
  · refine ⟨hname, ?_, hquote⟩
    by_contra hnot
    exact hchanged (unifyLineEnds_eq_self (.inr hnot))

end Whole

/-- How the lines of a text end does not matter.  With line feeds alone it has the same tokens at
the same places, their texts with line feeds alone, or the same error; only strings over several
lines change.  Both texts have their comments on the same lines, and one that ends with a carriage
return in front of a line feed is recorded without it.  For the other lines both leave the table as
it was. -/
theorem tokenize_unifyLineEnds (d : Dialect) (text : String) (table : Comments) :
    let given := tokenize d text table
    let unified := tokenize d (String.ofList (unifyLineEnds text.toList)) table
    unified.1 = given.1.map (List.map Token.unifyLineEnds) ∧
      (∀ ts, given.1 = .ok ts → ∀ t ∈ ts, t.unifyLineEnds ≠ t →
        t.kind = .name ∧ '\n' ∈ t.text.toList ∧
          ∃ mark tail, t.text.toList = mark :: tail ∧ Text.isQuote mark = true) ∧
      (∀ before comment behind, CommentAt text.toList before comment →
        text.toList = before ++ comment ++ behind →
        given.2.at? (1 + before.count '\n') = some (String.ofList comment) ∧
          unified.2.at? (1 + before.count '\n') =
            some (String.ofList (withoutReturn comment behind.head?))) ∧
      ∀ line, (∀ before comment, CommentAt text.toList before comment →
          1 + before.count '\n' ≠ line) →
        given.2.at? line = table.at? line ∧ unified.2.at? line = table.at? line := by
  intro given unified
  have htext : (String.ofList (unifyLineEnds text.toList)).toList = unifyLineEnds text.toList :=
    String.toList_ofList
  refine ⟨?_, ?_, ?_, ?_⟩
  · show (scanFrom .start (String.ofList _).toList).result d = _
    rw [htext]
    exact result_unifyLineEnds (.inl rfl)
  · intro ts hts t ht hne
    obtain ⟨-, rfl⟩ := rest_eq_nil_of_result (s := scan text) hts
    rcases List.mem_append.1 ht with ht | ht
    · exact isQuote_of_unifyLineEnds_ne ht hne
    · rw [List.mem_singleton.1 ht] at hne
      exact absurd rfl hne
  · intro before comment behind h hcs
    obtain ⟨before', h', hcount⟩ := h.unifyLineEnds hcs
    rw [← htext] at h'
    refine ⟨at?_tokenize_of_commentAt h d table, ?_⟩
    rw [← hcount]
    exact at?_tokenize_of_commentAt h' d table
  · intro line hnone
    refine ⟨at?_tokenize_of_forall_ne hnone d table, at?_tokenize_of_forall_ne ?_ d table⟩
    intro before comment h
    rw [htext] at h
    obtain ⟨before', comment', h', hcount⟩ := exists_of_commentAt_unifyLineEnds h
    rw [← hcount]
    exact hnone before' comment' h'

/-- A comment on the first line, a string over the next two lines with a backslash in front of a
line end, and a comment at the end of the text with a carriage return that stays. -/
theorem tokenize_unifyLineEnds_stringLines :
    let cs := "; a\r\n\x22x\\\r\ny\x22 ;\r".toList
    let table := Comments.empty.record 2 "; z"
    let t : Token := ⟨.name, "\x22x\\\r\ny\x22", ⟨2, 1⟩⟩
    let given := tokenize {} (String.ofList cs) table
    let unified := tokenize {} (String.ofList (unifyLineEnds cs)) table
    given.1 = .ok [t, .endAt ⟨3, 6⟩] ∧
      unified.1 = .ok [⟨.name, "\x22x\\\ny\x22", ⟨2, 1⟩⟩, .endAt ⟨3, 6⟩] ∧
      (t.kind = .name ∧ '\n' ∈ t.text.toList ∧
        ∃ mark tail, t.text.toList = mark :: tail ∧ Text.isQuote mark = true) ∧
      CommentAt cs [] "; a\r".toList ∧ given.2.at? 1 = some "; a\r" ∧
      unified.2.at? 1 = some "; a" ∧
      (∀ before comment, CommentAt cs before comment → 1 + before.count '\n' ≠ 2) ∧
      given.2.at? 2 = some "; z" ∧ unified.2.at? 2 = some "; z" := by
  intro cs table t given unified
  have hwhole := tokenize_unifyLineEnds {} (String.ofList cs) table
  rw [String.toList_ofList] at hwhole
  obtain ⟨htokens, hstrings, hcomments, hothers⟩ := hwhole
  have hgiven : given.1 = .ok [t, .endAt ⟨3, 6⟩] := by decide +kernel
  have hunified : unified.1 = .ok [⟨.name, "\x22x\\\ny\x22", ⟨2, 1⟩⟩, .endAt ⟨3, 6⟩] := by
    rw [htokens, hgiven]
    decide +kernel
  have hstops (behind : List Char) : ∀ c ∈ ('\n' :: behind).head?, c = '\n' := by
    rintro c ⟨⟩
    rfl
  have hcomment : CommentAt cs [] "; a\r".toList :=
    ⟨[], " a\r".toList, _, .done, rfl, rfl, by decide, hstops _⟩
  have hlines : ∀ e ∈ (scanFrom .start cs).comments, e.1 ≠ 2 := by decide +kernel
  have hnone (before comment : List Char) (h : CommentAt cs before comment) :
      1 + before.count '\n' ≠ 2 := by
    have hline := hlines _ (mem_comments_iff.2 ⟨before, comment, h, rfl⟩)
    rwa [Position.start_after] at hline
  obtain ⟨hfound, hfound'⟩ := hcomments _ _ _ hcomment rfl
  obtain ⟨hother, hother'⟩ := hothers 2 hnone
  exact ⟨hgiven, hunified, hstrings _ hgiven t List.mem_cons_self (by decide +kernel), hcomment,
    hfound, hfound', hnone, hother, hother'⟩

end Asm6502
