import Asm6502.Proofs.Lexing.Spelling

/-!
# More text behind a text

A scan reads from left to right and looks at most one character past the lexeme that it
reads.  So what stands behind a lexeme may be replaced by another text with the same first
character, or be cut off.  And more text behind a text leaves every lexeme alone that has
something behind it already.  The last lexeme may go on in the text behind, unless that text
starts with a line feed: this ends everything but a string, and a string too if its mark has
been read.

## Main results

* `next?_behind`, `next?_append` — when a lexeme stays as it is.
* `scanFrom_append` — a scan goes on where it stopped.
* `stop_scanFrom` — where that is.
-/

namespace Asm6502

/-- A string whose closing mark is missing.  Behind a backslash a mark does not count. -/
def IsOpenString (text : List Char) : Prop :=
  ∃ mark tail, text = mark :: tail ∧ Text.isQuote mark = true ∧
    ∀ body, QuotedBody mark body → tail ≠ body ++ [mark]

namespace Lexeme

variable {c : Char} {cs rest rest' more : List Char} {x : Lexeme}

/-! ## One lexeme -/

/-- What may stand behind a lexeme in place of the text `rest`: something with the same first
character, nothing at all, or a line feed. -/
def StandsFor (rest' rest : List Char) : Prop :=
  rest'.head? = rest.head? ∨ rest' = [] ∨ rest'.head? = some '\n'

/-- A class that ends in front of a text ends in front of what stands for it. -/
theorem StandsFor.boundary {p : Char → Bool} (hp : p '\n' = false) (h : StandsFor rest' rest)
    (hrest : ∀ d ∈ rest.head?, p d = false) : ∀ d ∈ rest'.head?, p d = false := by
  intro d hd
  rcases h with hhead | rfl | hhead
  · exact hrest d (hhead ▸ hd)
  · cases hd
  · rw [hhead] at hd
    cases hd
    exact hp

/-- A run ends where it ended before. -/
theorem run_behind (kind : Kind) {p : Char → Bool} (hp : p '\n' = false)
    (h : StandsFor rest' (cs.dropWhile p)) :
    run kind p c (cs.takeWhile p ++ rest') = (⟨kind, c :: cs.takeWhile p⟩, rest') :=
  run_of_boundary kind c of_mem_run
    (h.boundary hp fun _ hd => head?_dropWhile_eq_false p cs hd)

/-- So does a word, and it does not become a label either. -/
theorem word_behind (h : StandsFor rest' (word c cs).2) :
    ∃ tail, (word c cs).1.text = c :: tail ∧ word c (tail ++ rest') = ((word c cs).1, rest') := by
  let name := cs.takeWhile Text.isWordChar
  have hinside : ∀ d ∈ name, Text.isWordChar d = true := of_mem_run
  have hcs : name ++ cs.dropWhile Text.isWordChar = cs := List.takeWhile_append_dropWhile
  by_cases hcolon : (cs.dropWhile Text.isWordChar).head? = some ':'
  · obtain ⟨rest, hdrop⟩ := List.head?_eq_some_iff.1 hcolon
    have hword : word c cs = (⟨.token .label, c :: name ++ [':']⟩, rest) := by
      rw [← hcs, hdrop]
      exact word_of_colon c hinside
    refine ⟨name ++ [':'], by rw [hword]; rfl, ?_⟩
    rw [hword, List.append_assoc, List.singleton_append]
    exact word_of_colon c hinside
  · have hends : ∀ d ∈ (cs.dropWhile Text.isWordChar).head?, Text.isWordChar d = false :=
      fun _ hd => head?_dropWhile_eq_false _ cs hd
    have hword : word c cs =
        (⟨.token (wordKind (c :: name)), c :: name⟩, cs.dropWhile Text.isWordChar) := by
      rw [← word_of_boundary c hinside hends hcolon, hcs]
    rw [hword] at h ⊢
    refine ⟨name, rfl, word_of_boundary c hinside (h.boundary (by decide) hends) ?_⟩
    rcases h with hhead | rfl | hhead
    · rwa [hhead]
    · nofun
    · rw [hhead]
      decide

/-- Whatever the rule, the text behind a lexeme is looked at by its first character only, and
neither the end of a text nor a line feed makes a lexeme go on.  A string without its mark
alone has to stay the last one. -/
theorem next?_behind (h : next? cs = some (x, rest)) (hrest : StandsFor rest' rest)
    (hopen : rest = [] → rest' = [] ∨ ¬ IsOpenString x.text) :
    next? (x.text ++ rest') = some (x, rest') := by
  cases cs with
  | nil => cases h
  | cons c cs =>
      obtain ⟨r, hr, hsplit⟩ := Option.map_eq_some_iff.1 h
      have hstarts := Rule.of?_eq_some_iff.1 hr
      have hx : x = (r.split c cs).1 := by rw [hsplit]
      have hbehind : rest = (r.split c cs).2 := by rw [hsplit]
      subst hx hbehind
      suffices hwhole : ∃ tail, (r.split c cs).1.text = c :: tail ∧
          r.split c (tail ++ rest') = ((r.split c cs).1, rest') by
        obtain ⟨tail, htext, hread⟩ := hwhole
        rw [htext, List.cons_append, next?_of_starts hstarts, hread]
      cases r with
      | blank => exact ⟨[], rfl, rfl⟩
      | punctuation k => exact ⟨[], rfl, rfl⟩
      | comment => exact ⟨_, rfl, run_behind .comment (by decide) hrest⟩
      | hexadecimal => exact ⟨_, rfl, run_behind _ (by decide) hrest⟩
      | binary => exact ⟨_, rfl, run_behind _ (by decide) hrest⟩
      | decimal => exact ⟨_, rfl, run_behind _ (by decide) hrest⟩
      | word => exact word_behind hrest
      | directive =>
          refine ⟨_, rfl, ?_⟩
          -- The whole run tells the kind, so the run must be known before its lexeme is.
          have hbody : (cs.takeWhile Text.isDirectiveChar ++ rest').takeWhile
              Text.isDirectiveChar = cs.takeWhile Text.isDirectiveChar :=
            takeWhile_append_of_boundary of_mem_run
              (StandsFor.boundary (by decide) hrest fun _ hd => head?_dropWhile_eq_false _ cs hd)
          rw [Rule.split, hbody]
          exact run_behind _ (by decide) hrest
      | string =>
          refine ⟨(quoted c cs).1, rfl, ?_⟩
          have hmark : c ≠ '\\' := by
            rintro rfl
            cases hstarts
          by_cases hend : (quoted c cs).2 = [] ∧ rest' = []
          · have hcs := quoted_append c cs
            rw [hend.1, List.append_nil] at hcs
            rw [hend.2, List.append_nil, hcs]
            exact Prod.ext rfl hend.1
          · have hclosed : ∃ body, QuotedBody c body ∧ (quoted c cs).1 = body ++ [c] := by
              by_cases hbehind : (quoted c cs).2 = []
              · have hnot := (hopen hbehind).resolve_left fun hnil => hend ⟨hbehind, hnil⟩
                by_contra hnone
                exact hnot ⟨c, _, rfl, hstarts, fun body hbody heq => hnone ⟨body, hbody, heq⟩⟩
              · exact quoted_closed hbehind
            obtain ⟨body, hbody, hread⟩ := hclosed
            have hagain := quoted_of_quotedBody rest' hmark hbody
            simp only [Rule.split, hread, List.append_assoc, List.singleton_append, hagain]

/-- A lexeme that has something behind it stays as it is, and so does the last one in front
of a line feed, unless it is a string without its mark. -/
theorem next?_append (h : next? cs = some (x, rest))
    (hmore : rest = [] → more.head? = some '\n' ∧ ¬ IsOpenString x.text) :
    next? (cs ++ more) = some (x, rest ++ more) := by
  rw [← append_of_next? h, List.append_assoc]
  refine next?_behind h ?_ fun hrest => .inr (hmore hrest).2
  cases rest with
  | nil => exact .inr (.inr (hmore rfl).1)
  | cons d rest => exact .inl rfl

end Lexeme

/-! ## The whole text -/

/-- The position where a scan stops is that behind all that it has read. -/
theorem stop_scanFrom (p : Position) (cs : List Char) :
    (scanFrom p cs).stop = p.after ((scanFrom p cs).pieces.flatMap (·.lexeme.text)) := by
  induction cs using Lexeme.text_induction generalizing p with
  | stuck cs hnext =>
      rw [scanFrom_of_next?_eq_none hnext]
      rfl
  | split cs x rest hnext ih =>
      rw [scanFrom_of_next?_eq_some hnext, Scan.prepend, List.flatMap_append,
        Position.after_append, ih]
      simp

/-- A scan goes on where it stopped.  If it came to the end of its text, then it must not
have ended with an open string, and a line feed must follow. -/
theorem scanFrom_append (p : Position) (cs : List Char) {more : List Char}
    (hmore : (scanFrom p cs).rest = [] → more.head? = some '\n' ∧
      ∀ x ∈ (scanFrom p cs).pieces.getLast?, ¬ IsOpenString x.lexeme.text) :
    scanFrom p (cs ++ more) =
      (scanFrom (scanFrom p cs).stop ((scanFrom p cs).rest ++ more)).prepend
        (scanFrom p cs).pieces := by
  induction cs using Lexeme.text_induction generalizing p with
  | stuck cs hnext =>
      rw [scanFrom_of_next?_eq_none hnext]
      rfl
  | split cs x rest hnext ih =>
      have hscan := scanFrom_of_next?_eq_some (p := p) hnext
      rw [hscan] at hmore ⊢
      have hwhole : Lexeme.next? (cs ++ more) = some (x, rest ++ more) := by
        refine Lexeme.next?_append hnext ?_
        rintro rfl
        rw [scanFrom_of_next?_eq_none rfl] at hmore
        have hend := hmore rfl
        exact ⟨hend.1, hend.2 ⟨x, p⟩ rfl⟩
      have hbehind := ih (p.after x.text) ?_
      · rw [scanFrom_of_next?_eq_some hwhole, hbehind]
        simp only [Scan.prepend, List.append_assoc]
      · intro hrest
        refine ⟨(hmore hrest).1, ?_⟩
        intro y hy
        refine (hmore hrest).2 y ?_
        rw [Scan.prepend, List.singleton_append, List.getLast?_cons, Option.mem_def.1 hy]
        rfl

end Asm6502
