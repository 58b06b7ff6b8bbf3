import Asm6502.Proofs.Lexing.Places
import Asm6502.Proofs.Lexing.Rules
import Asm6502.Proofs.Lexing.Tokens

/-!
# Tokens and gaps make up the text

A text that scans without an error is a sequence of tokens with gaps between
them, in front of the first and behind the last.  A gap holds nothing that a
token could have been made of: blanks, comments and, in a dialect that drops
them, the addressing prefixes `z:` and `a:`.

Two things about a gap depend on what surrounds it.  A comment goes up to a line
feed or to the end of the text, whether or not the line feed belongs to the same
gap.  And a prefix is a whole name: right behind a token that is a name, a gap
cannot start with one, for the letter would have belonged to that name.

## Main results

* `tokenize_covers` — tokens and gaps make up the text, every token stands where
  its first character does, and positions strictly increase.
-/

namespace Asm6502

/-- `Gap d joined gap after`: in front of the text `after`, the text `gap` holds no
token.  `joined` tells that the character in front of the gap belongs to a name. -/
inductive Gap (d : Dialect) : Bool → List Char → List Char → Prop where
  | done {joined : Bool} {after : List Char} : Gap d joined [] after
  /-- Spaces, tabs, carriage returns and line feeds. -/
  | blank {joined : Bool} {c : Char} {gap after : List Char}
      (separates : Text.isBlank c = true) (more : Gap d false gap after) :
      Gap d joined (c :: gap) after
  /-- A comment holds no line feed, and one follows unless the text is over. -/
  | comment {joined : Bool} {body gap after : List Char} (inLine : '\n' ∉ body)
      (stops : ∀ c ∈ (gap ++ after).head?, c = '\n') (more : Gap d false gap after) :
      Gap d joined (';' :: body ++ gap) after
  /-- An addressing prefix, where the dialect drops it and no name is cut short. -/
  | addressing {c : Char} {gap after : List Char} (drops : d.dropsPrefixes = true)
      (letter : c = 'z' ∨ c = 'a') (more : Gap d false gap after) :
      Gap d false (c :: ':' :: gap) after

/-- `Covers d joined before ts cs`: behind the text `before`, the text `cs` consists
of the tokens `ts` and gaps.  `joined` tells that `before` ends with a name that is a
token. -/
inductive Covers (d : Dialect) : Bool → List Char → List Token → List Char → Prop where
  /-- The last gap reaches to the end, which is the only end token. -/
  | finish {joined : Bool} {before gap : List Char} (clean : Gap d joined gap []) :
      Covers d joined before [.endAt (.behind (before ++ gap))] gap
  /-- A gap, the text of a token that stands right behind it, and the rest. -/
  | token {joined : Bool} {before gap rest : List Char} {t : Token} {ts : List Token}
      (clean : Gap d joined gap (t.text.toList ++ rest)) (proper : t.kind ≠ .eof)
      (nonempty : t.text ≠ "") (placed : t.position = .behind (before ++ gap))
      (more : Covers d (Text.isWord t.text.toList) (before ++ gap ++ t.text.toList) ts rest) :
      Covers d joined before (t :: ts) (gap ++ t.text.toList ++ rest)

/-! ## What the first lexeme of a text is -/

namespace Lexeme

theorem text_isWord_eq_false {c : Char} {cs : List Char} (h : Text.isWordStart c = false) :
    Text.isWord (c :: cs) = false := by
  simp [Text.isWord, h]

/-- A comment runs to the end of its line. -/
theorem comment_of_split {c : Char} {cs : List Char} (h : Rule.Starts c .comment) :
    ∃ body, (Rule.split c cs .comment).1 = ⟨.comment, ';' :: body⟩ ∧ '\n' ∉ body ∧
      ∀ x ∈ (Rule.split c cs .comment).2.head?, x = '\n' := by
  cases h
  refine ⟨cs.takeWhile (· != '\n'), rfl, ?_, ?_⟩
  · intro hmem
    have hall := List.all_eq_true.1 (List.all_takeWhile (p := (· != '\n')) (l := cs)) _ hmem
    simp at hall
  · intro x hx
    have hstop := head?_dropWhile_eq_false _ _ hx
    simpa using hstop

/-- `IsToken x rest`: the lexeme `x` in front of `rest` is a token, and if it is a name,
it has been read to its end. -/
def IsToken (x : Lexeme) (rest : List Char) : Prop :=
  ∃ k, x.kind = .token k ∧ k ≠ .eof ∧
    (Text.isWord x.text = true → ∀ c ∈ rest.head?, Text.isWordChar c = false)

theorem directiveKind_ne_eof (body : List Char) : directiveKind body ≠ .eof := by
  unfold directiveKind
  split
  next => decide
  next =>
    split
    next => decide
    next => decide

theorem wordKind_ne_eof (w : List Char) : wordKind w ≠ .eof := by
  unfold wordKind
  repeat' split
  all_goals simp

/-- A word takes all characters that could go on with it.  A label ends with its
colon and may be followed by anything. -/
theorem isToken_word (c : Char) (cs : List Char) : IsToken (word c cs).1 (word c cs).2 := by
  unfold word
  split
  next rest hdrop =>
    refine ⟨.label, rfl, by decide, ?_⟩
    intro hword
    have hcolon : Text.isWordChar ':' = false := by decide
    simp [Text.isWord, hcolon] at hword
  next rest hdrop =>
    refine ⟨wordKind (c :: cs.takeWhile Text.isWordChar), rfl, wordKind_ne_eof _, ?_⟩
    intro _ x hx
    exact head?_dropWhile_eq_false _ _ hx

/-- No other rule than that of words reads a name. -/
theorem isWordStart_eq_false_of_starts {c : Char} {r : Rule} (h : Rule.Starts c r)
    (hr : r ≠ .word) : Text.isWordStart c = false := by
  rw [Bool.eq_false_iff]
  intro hstart
  have hword : Rule.of? c = some .word := Rule.of?_eq_some_iff.2 hstart
  rw [Rule.of?_eq_some_iff.2 h] at hword
  exact hr (Option.some.inj hword)

/-- What starts like no name is none, so it cannot have been cut short. -/
theorem isToken_of_starts {c : Char} {r : Rule} (h : Rule.Starts c r) (hr : r ≠ .word)
    {k : Token.Kind} (hk : k ≠ .eof) (tail rest : List Char) :
    IsToken ⟨.token k, c :: tail⟩ rest := by
  refine ⟨k, rfl, hk, ?_⟩
  rw [text_isWord_eq_false (isWordStart_eq_false_of_starts h hr)]
  intro hfalse
  cases hfalse

/-- The three things that the first lexeme of a text may be. -/
theorem next?_cases {cs rest : List Char} {x : Lexeme} (h : next? cs = some (x, rest)) :
    (∃ c, x = ⟨.blank, [c]⟩ ∧ Text.isBlank c = true) ∨
      (∃ body, x = ⟨.comment, ';' :: body⟩ ∧ '\n' ∉ body ∧ ∀ c ∈ rest.head?, c = '\n') ∨
      IsToken x rest := by
  match cs, h with
  | c :: cs, h =>
    obtain ⟨r, hr, hsplit⟩ := Option.map_eq_some_iff.1 h
    have hstarts := Rule.of?_eq_some_iff.1 hr
    have hx : x = (r.split c cs).1 := by rw [hsplit]
    have hrest : rest = (r.split c cs).2 := by rw [hsplit]
    subst hx hrest
    cases r with
    | blank => exact .inl ⟨c, rfl, hstarts⟩
    | comment => exact .inr (.inl (comment_of_split hstarts))
    | word => exact .inr (.inr (isToken_word c cs))
    | directive =>
        exact .inr (.inr (isToken_of_starts hstarts (by decide) (directiveKind_ne_eof _) _ _))
    | punctuation k =>
        have hkinds : ∀ e ∈ Token.Kind.punctuation, e.2 ≠ .eof := by decide
        have hk : k ≠ .eof := hkinds _ (Token.Kind.mem_punctuation hstarts)
        exact .inr (.inr (isToken_of_starts hstarts (by simp) hk _ _))
    | hexadecimal | binary | string | decimal =>
        exact .inr (.inr (isToken_of_starts hstarts (by decide) (by decide) _ _))

end Lexeme

/-! ## From left to right -/

variable {d : Dialect} {joined : Bool} {before cs : List Char} {ts : List Token}

/-- What separates may be put in front of the first gap. -/
theorem Covers.prepend {s : List Char} (h : Covers d false (before ++ s) ts cs)
    (hs : ∀ gap after, gap ++ after = cs → Gap d false gap after → Gap d joined (s ++ gap) after) :
    Covers d joined before ts (s ++ cs) := by
  cases h with
  | finish clean =>
      rw [List.append_assoc]
      exact .finish (hs _ _ (List.append_nil _) clean)
  | @token _ _ gap rest t ts clean proper nonempty placed more =>
      have hsplit : s ++ (gap ++ t.text.toList ++ rest) = (s ++ gap) ++ t.text.toList ++ rest := by
        simp only [List.append_assoc]
      rw [hsplit]
      refine .token (hs _ _ (List.append_assoc ..).symm clean) proper nonempty ?_ ?_
      · rw [placed, List.append_assoc]
      · rwa [← List.append_assoc before]

/-- A dropped token is one of the two addressing prefixes. -/
theorem Dialect.drops_eq_true {t : Token} (h : d.drops t = true) :
    d.dropsPrefixes = true ∧ ∃ c, (c = 'z' ∨ c = 'a') ∧ t.text.toList = [c, ':'] := by
  simp only [Dialect.drops, Bool.and_eq_true, Bool.or_eq_true, beq_iff_eq] at h
  obtain ⟨⟨hd, _⟩, htext | htext⟩ := h
  · exact ⟨hd, 'z', .inl rfl, by rw [htext]; rfl⟩
  · exact ⟨hd, 'a', .inr rfl, by rw [htext]; rfl⟩

/-- A dropped token becomes a part of the gap, where no name in front of it goes on. -/
theorem Covers.dropped {t : Token} (hdrops : d.drops t = true)
    (hjoined : joined = true → ∀ c ∈ (t.text.toList ++ cs).head?, Text.isWordChar c = false)
    (h : Covers d false (before ++ t.text.toList) ts cs) :
    Covers d joined before ts (t.text.toList ++ cs) := by
  obtain ⟨hd, c, hc, htext⟩ := Dialect.drops_eq_true hdrops
  rw [htext] at hjoined h ⊢
  have hletter : Text.isWordChar c = true := by
    rcases hc with rfl | rfl
    · decide
    · decide
  have hfree : joined = false := by
    rw [Bool.eq_false_iff]
    intro hj
    rw [hjoined hj c rfl] at hletter
    cases hletter
  subst hfree
  exact h.prepend fun gap after _ hgap => .addressing hd hc hgap

/-- A token that is kept stands behind an empty gap. -/
theorem Covers.kept {t : Token} (hk : t.kind ≠ .eof) (hne : t.text.toList ≠ [])
    (placed : t.position = .behind before)
    (h : Covers d (Text.isWord t.text.toList) (before ++ t.text.toList) ts cs) :
    Covers d joined before (t :: ts) (t.text.toList ++ cs) := by
  have hnonempty : t.text ≠ "" := by
    intro hempty
    rw [hempty] at hne
    exact hne rfl
  rw [← List.nil_append t.text.toList]
  apply Covers.token .done hk hnonempty
  · rw [List.append_nil]
    exact placed
  · rw [List.append_nil]
    exact h

/-- The tokens of a text, with the gaps between them, make it up.  If the text stands
behind a name, the name must have been read to its end. -/
theorem covers_of_result (hjoined : joined = true → ∀ c ∈ cs.head?, Text.isWordChar c = false)
    (h : (scanFrom (.behind before) cs).result d = .ok ts) : Covers d joined before ts cs := by
  have unjoined {cs : List Char} :
      false = true → ∀ c ∈ cs.head?, Text.isWordChar c = false := by simp
  induction cs using Lexeme.text_induction generalizing joined before ts with
  | stuck cs hnext =>
      rw [result_of_next?_eq_none hnext] at h
      cases cs with
      | nil =>
          cases h
          have hend : Position.behind before = .behind (before ++ []) := by
            rw [List.append_nil]
          rw [hend]
          exact .finish .done
      | cons c cs => cases h
  | split cs x rest hnext ih =>
      obtain ⟨kind, text⟩ := x
      obtain ⟨ts', hts', rfl⟩ := exists_of_result_eq_ok hnext h
      rw [Position.behind_after] at hts'
      have hcs := Lexeme.append_of_next? hnext
      subst hcs
      rcases Lexeme.next?_cases hnext with
        ⟨c, heq, hc⟩ | ⟨body, heq, hbody, hstops⟩ | ⟨k, hkind, hk, hword⟩
      · cases heq
        have hcovers := ih unjoined hts'
        exact hcovers.prepend fun gap after _ hgap => .blank hc hgap
      · cases heq
        have hcovers := ih unjoined hts'
        refine hcovers.prepend fun gap after hrest hgap => .comment hbody ?_ hgap
        rwa [hrest]
      · cases hkind
        obtain ⟨w, rfl⟩ : ∃ w : String, w.toList = text :=
          ⟨String.ofList text, String.toList_ofList⟩
        have hne : w.toList ≠ [] := Lexeme.ne_nil_of_next? hnext
        let t : Token := ⟨k, w, .behind before⟩
        rw [Piece.kept?_token, String.ofList_toList]
        by_cases hdrops : d.drops t = true
        · rw [if_pos hdrops]
          exact Covers.dropped (t := t) hdrops hjoined (ih unjoined hts')
        · rw [if_neg hdrops]
          exact Covers.kept (t := t) hk hne rfl (ih hword hts')

/-! ## Positions increase -/

/-- A token of a covered text stands somewhere in that text. -/
theorem Covers.position_eq (h : Covers d joined before ts cs) :
    ∀ t ∈ ts, ∃ w, t.position = .behind (before ++ w) := by
  induction h with
  | @finish _ _ gap _ =>
      intro t ht
      rw [List.mem_singleton] at ht
      exact ⟨gap, by rw [ht]; rfl⟩
  | @token _ _ gap rest u us _ _ _ placed _ ih =>
      intro t ht
      rcases List.mem_cons.1 ht with rfl | ht
      · exact ⟨gap, placed⟩
      · obtain ⟨w, hw⟩ := ih t ht
        exact ⟨gap ++ u.text.toList ++ w, by rw [hw]; simp only [List.append_assoc]⟩

theorem Covers.pairwise_lt (h : Covers d joined before ts cs) :
    ts.Pairwise (fun t u => t.position < u.position) := by
  induction h with
  | finish => exact List.pairwise_singleton _ _
  | @token _ before gap rest t ts _ _ nonempty placed more ih =>
      refine List.pairwise_cons.2 ⟨?_, ih⟩
      intro u hu
      obtain ⟨w, hw⟩ := more.position_eq u hu
      have hfurther : u.position = t.position.after (t.text.toList ++ w) := by
        rw [hw, placed, Position.behind_after, List.append_assoc (before ++ gap)]
      rw [hfurther]
      apply Position.lt_after
      simp [nonempty]

/-- A text that scans without an error consists of its tokens and of gaps between
them, each token stands where its first character does, and the positions, that of the
end included, strictly increase. -/
theorem tokenize_covers {d : Dialect} {text : String} {table : Comments} {ts : List Token}
    (h : (tokenize d text table).1 = .ok ts) :
    Covers d false [] ts text.toList ∧ ts.Pairwise (fun t u => t.position < u.position) := by
  have hcovers : Covers d false [] ts text.toList := covers_of_result (by simp) h
  exact ⟨hcovers, hcovers.pairwise_lt⟩

/-- A dropped prefix in front of a name and another one right behind a string, with a
comment and both line endings between them. -/
theorem tokenize_covers_prefixes :
    let text := "b:lda z:tab ; c\r\n\"q;\nr\"a:$F"
    let ts : List Token :=
      [ ⟨.label, "b:", ⟨1, 1⟩⟩, ⟨.instruction .lda, "lda", ⟨1, 3⟩⟩, ⟨.name, "tab", ⟨1, 9⟩⟩
      , ⟨.name, "\"q;\nr\"", ⟨2, 1⟩⟩, ⟨.hexConst, "$F", ⟨3, 5⟩⟩, .endAt ⟨3, 7⟩ ]
    (tokenize {} text .empty).1 = .ok ts ∧ Covers {} false [] ts text.toList ∧
      ts.Pairwise (fun t u => t.position < u.position) := by
  intro text ts
  have h : (tokenize {} text .empty).1 = .ok ts := by decide +kernel
  exact ⟨h, tokenize_covers h⟩

end Asm6502
