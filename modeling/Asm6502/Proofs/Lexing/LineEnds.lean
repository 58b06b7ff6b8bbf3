import Asm6502.Proofs.Lexing.Continuation

/-!
# Texts with a line feed between them

Nothing is carried over a line feed but an open string.  So a text can be scanned line by
line: what stands behind a line feed is scanned like a text of its own, and only the line
numbers tell that something stands in front of it.  An error, on the other hand, is final,
whatever stands behind it.

The comments of two such texts never meet in a table, for the last line of the first is
above all lines of the second.

## Main results

* `scanFrom_down` — line numbers play no part in a scan.
* `scan_lineFeed` — the scan of two texts with a line feed between them.
* `scan_of_error` — the scan of a text that fails, with more text behind it.
* `tokenize_lineFeed` — what that means for their tokens, errors and comments.
-/

namespace Asm6502

/-! ## Further down -/

/-- The same column, `k` lines further down. -/
def Position.down (k : Nat) (p : Position) : Position := ⟨p.line + k, p.column⟩

/-- The token, `k` lines further down. -/
def Token.down (k : Nat) (t : Token) : Token := { t with position := t.position.down k }

/-- The error, `k` lines further down. -/
def LexicalError.down (k : Nat) (e : LexicalError) : LexicalError :=
  { e with position := e.position.down k }

/-- The piece, `k` lines further down. -/
def Piece.down (k : Nat) (x : Piece) : Piece := { x with position := x.position.down k }

/-- The scan of the same text, `k` lines further down. -/
def Scan.down (k : Nat) (s : Scan) : Scan :=
  ⟨s.pieces.map (Piece.down k), s.stop.down k, s.rest⟩

theorem Position.after_down (k : Nat) (p : Position) (cs : List Char) :
    (p.down k).after cs = (p.after cs).down k := by
  induction cs generalizing p with
  | nil => rfl
  | cons c cs ih =>
      have hadvance : (p.down k).advance c = (p.advance c).down k := by
        unfold advance
        split
        next => simp only [nextLine, down, Nat.add_right_comm]
        next => rfl
      rw [after_cons, after_cons, hadvance, ih]

theorem Position.line_le_after (p : Position) (cs : List Char) : p.line ≤ (p.after cs).line := by
  rw [line_after]
  exact Nat.le_add_right _ _

/-- Line numbers play no part in a scan. -/
theorem scanFrom_down (k : Nat) (p : Position) (cs : List Char) :
    scanFrom (p.down k) cs = (scanFrom p cs).down k := by
  induction cs using Lexeme.text_induction generalizing p with
  | stuck cs hnext =>
      rw [scanFrom_of_next?_eq_none hnext, scanFrom_of_next?_eq_none hnext]
      rfl
  | split cs x rest hnext ih =>
      rw [scanFrom_of_next?_eq_some hnext, scanFrom_of_next?_eq_some hnext, Position.after_down, ih]
      rfl

namespace Scan

variable (d : Dialect) (k : Nat) (s : Scan)

theorem tokens_down : (s.down k).tokens d = (s.tokens d).map (Token.down k) := by
  have htoken : Piece.token? ∘ Piece.down k = fun x => x.token?.map (Token.down k) := by
    funext x
    obtain ⟨⟨kind, text⟩, p⟩ := x
    cases kind with
    | blank | comment | token => rfl
  rw [tokens, tokens, down, List.filterMap_map, htoken, ← List.map_filterMap, List.filter_map]
  rfl

theorem comments_down : (s.down k).comments = s.comments.map fun e => (e.1 + k, e.2) := by
  have hcomment : Piece.comment? ∘ Piece.down k = fun x => x.comment?.map fun e => (e.1 + k, e.2) := by
    funext x
    obtain ⟨⟨kind, text⟩, p⟩ := x
    cases kind with
    | blank | comment | token => rfl
  rw [comments, comments, down, List.filterMap_map, hcomment, ← List.map_filterMap]

theorem error?_down : (s.down k).error? = s.error?.map (LexicalError.down k) := by
  rw [error?, error?, Option.map_map]
  rfl

end Scan

/-! ## The pieces of a scan -/

variable {p : Position} {cs : List Char} {x : Piece} {d : Dialect}

/-- A piece is what a rule splits off at its place. -/
theorem exists_of_mem_pieces (h : x ∈ (scanFrom p cs).pieces) :
    ∃ before behind rest, cs = before ++ behind ∧ x.position = p.after before ∧
      Lexeme.next? behind = some (x.lexeme, rest) := by
  induction cs using Lexeme.text_induction generalizing p with
  | stuck cs hnext =>
      rw [scanFrom_of_next?_eq_none hnext] at h
      cases h
  | split cs y rest hnext ih =>
      rw [scanFrom_of_next?_eq_some hnext] at h
      rcases List.mem_cons.1 h with rfl | h
      · exact ⟨[], cs, rest, rfl, rfl, hnext⟩
      · obtain ⟨before, behind, rest', hcs, hplace, hsplit⟩ := ih h
        refine ⟨y.text ++ before, behind, rest', ?_, ?_, hsplit⟩
        · rw [← Lexeme.append_of_next? hnext, hcs, List.append_assoc]
        · rw [hplace, Position.after_append]

/-- A token is what a rule splits off as such. -/
theorem exists_of_mem_tokens {t : Token} (h : t ∈ (scanFrom p cs).tokens d) :
    ∃ behind rest, Lexeme.next? behind = some (⟨.token t.kind, t.text.toList⟩, rest) := by
  obtain ⟨x, hx, htoken⟩ := List.mem_filterMap.1 (List.mem_filter.1 h).1
  obtain ⟨_, behind, rest, _, _, hnext⟩ := exists_of_mem_pieces hx
  refine ⟨behind, rest, ?_⟩
  obtain ⟨⟨kind, text⟩, place⟩ := x
  cases kind with
  | blank | comment => cases htoken
  | token k =>
      cases htoken
      rwa [String.toList_ofList]

/-- A comment stands on one of the lines of the text. -/
theorem line_of_mem_comments {e : Nat × String} (h : e ∈ (scanFrom p cs).comments) :
    p.line ≤ e.1 ∧ e.1 ≤ (p.after cs).line := by
  obtain ⟨x, hx, he⟩ := List.mem_filterMap.1 h
  have hline : e.1 = x.position.line := by
    unfold Piece.comment? at he
    split at he
    next => cases he; rfl
    all_goals cases he
  obtain ⟨before, behind, _, hcs, hplace, _⟩ := exists_of_mem_pieces hx
  rw [hline, hplace, hcs, Position.after_append]
  exact ⟨p.line_le_after before, (p.after before).line_le_after behind⟩

/-- An open string at the end of a text is its last token. -/
theorem getLast?_tokens_of_isOpenString (hlast : (scanFrom p cs).pieces.getLast? = some x)
    (hopen : IsOpenString x.lexeme.text) (d : Dialect) :
    ∃ t, ((scanFrom p cs).tokens d).getLast? = some t ∧ IsOpenString t.text.toList := by
  have hkind : x.lexeme.kind = .token .name := by
    obtain ⟨mark, tail, htext, hquote, _⟩ := hopen
    obtain ⟨_, behind, rest, _, _, hnext⟩ := exists_of_mem_pieces (List.mem_of_getLast? hlast)
    have hbehind := Lexeme.append_of_next? hnext
    rw [htext, List.cons_append] at hbehind
    rw [← hbehind, Lexeme.next?_of_starts (r := .string) hquote] at hnext
    exact (congrArg (·.1.kind) (Option.some.inj hnext)).symm
  obtain ⟨pieces, hpieces⟩ := List.getLast?_eq_some_iff.1 hlast
  let t : Token := ⟨.name, String.ofList x.lexeme.text, x.position⟩
  have htoken : x.token? = some t := by
    unfold Piece.token?
    rw [hkind]
  have hkept : d.drops t = false := by
    simp [Dialect.drops, t]
  refine ⟨t, ?_, ?_⟩
  · simp [Scan.tokens, hpieces, List.filterMap_append, htoken, hkept]
  · rwa [String.toList_ofList]

/-! ## Comments -/

namespace Comments

theorem recordAll_append (c : Comments) (found found' : List (Nat × String)) :
    c.recordAll (found ++ found') = (c.recordAll found).recordAll found' :=
  List.foldl_append

/-- Lines without a comment keep what they have. -/
theorem at?_recordAll_of_ne {found : List (Nat × String)} {line : Nat}
    (h : ∀ e ∈ found, e.1 ≠ line) (c : Comments) : (c.recordAll found).at? line = c.at? line := by
  induction found generalizing c with
  | nil => rfl
  | cons e found ih =>
      have hne : e.1 ≠ line := h e List.mem_cons_self
      show ((c.record e.1 e.2).recordAll found).at? line = _
      rw [ih (fun e he => h e (List.mem_cons_of_mem _ he)), at?_record, if_neg hne]

/-- Comments that are recorded further down are found further down. -/
theorem at?_recordAll_down (c : Comments) (found : List (Nat × String)) (k line : Nat) :
    (c.recordAll (found.map fun e => (e.1 + k, e.2))).at? (line + k) =
      ((empty.recordAll found).at? line).or (c.at? (line + k)) := by
  induction found using List.reverseRecOn with
  | nil =>
      show c.at? (line + k) = (empty.at? line).or _
      rw [at?_empty, Option.none_or]
  | append_singleton found e ih =>
      rw [List.map_append, recordAll_append, recordAll_append]
      show ((recordAll c _).record (e.1 + k) e.2).at? (line + k) =
        (((empty.recordAll found).record e.1 e.2).at? line).or _
      rw [at?_record, at?_record, ih]
      by_cases hline : e.1 = line
      · rw [if_pos hline, if_pos (by rw [hline])]
        rfl
      · rw [if_neg hline, if_neg (by omega)]

/-- Two texts of which the second starts `k` lines below the first, and the first ends there,
record their comments side by side. -/
theorem at?_recordAll_append_down {found found' : List (Nat × String)} {k : Nat}
    (hfound : ∀ e ∈ found, e.1 ≤ k) (hfound' : ∀ e ∈ found', 1 ≤ e.1) (c : Comments)
    (line : Nat) :
    (c.recordAll (found ++ found'.map fun e => (e.1 + k, e.2))).at? line =
      if line ≤ k then (c.recordAll found).at? line
      else ((empty.recordAll found').at? (line - k)).or (c.at? line) := by
  rw [recordAll_append]
  split
  next hline =>
    refine at?_recordAll_of_ne ?_ _
    intro e he
    obtain ⟨e', he', rfl⟩ := List.mem_map.1 he
    have hfirst := hfound' e' he'
    omega
  next hline =>
    have hback : line - k + k = line := by omega
    have hbelow := at?_recordAll_down (c.recordAll found) found' k (line - k)
    rw [hback] at hbelow
    have habove : (c.recordAll found).at? line = c.at? line := by
      refine at?_recordAll_of_ne ?_ _
      intro e he
      have hlast := hfound e he
      omega
    rw [hbelow, habove]

end Comments

/-! ## Two texts -/

/-- The line of the end of a text. -/
def lastLine (text : String) : Nat := text.toList.count '\n' + 1

theorem line_after_start (text : String) :
    (Position.start.after text.toList).line = lastLine text := by
  rw [Position.start_after]
  exact Nat.add_comm _ _

theorem rest_eq_nil_of_result {s : Scan} {ts : List Token} (h : s.result d = .ok ts) :
    s.rest = [] ∧ ts = s.tokens d ++ [.endAt s.stop] := by
  unfold Scan.result at h
  split at h
  next herror =>
    cases h
    exact ⟨List.head?_eq_none_iff.1 (Option.map_eq_none_iff.1 herror), rfl⟩
  next => cases h

theorem error?_of_result {s : Scan} {e : LexicalError} (h : s.result d = .error e) :
    s.error? = some e := by
  unfold Scan.result at h
  split at h
  next => cases h
  next herror => cases h; exact herror

/-- The scan of two texts with a line feed between them. -/
theorem scan_lineFeed {a : String} (b : String) (hend : (scan a).rest = [])
    (hopen : ∀ x ∈ (scan a).pieces.getLast?, ¬ IsOpenString x.lexeme.text) :
    scan (a ++ "\n" ++ b) = ((scan b).down (lastLine a)).prepend
      ((scan a).pieces ++ [⟨⟨.blank, ['\n']⟩, (scan a).stop⟩]) := by
  have hread : (scan a).pieces.flatMap (·.lexeme.text) = a.toList := by
    have hsplit := scanFrom_append_rest .start a.toList
    rwa [show (scanFrom .start a.toList).rest = [] from hend, List.append_nil] at hsplit
  have hstop : (scan a).stop = Position.start.after a.toList := by
    rw [← hread]
    exact stop_scanFrom .start a.toList
  have hnextLine : (scan a).stop.after ['\n'] = Position.start.down (lastLine a) := by
    rw [hstop, ← line_after_start]
    show Position.nextLine _ = _
    rw [Position.nextLine, Position.down, Nat.add_comm]
    rfl
  have hfeed : Lexeme.next? ('\n' :: b.toList) = some (⟨.blank, ['\n']⟩, b.toList) := rfl
  have htext : (a ++ "\n" ++ b).toList = a.toList ++ '\n' :: b.toList := by simp
  rw [scan, htext, scanFrom_append .start a.toList fun _ => ⟨rfl, hopen⟩]
  show (scanFrom (scan a).stop ((scan a).rest ++ _)).prepend (scan a).pieces = _
  rw [hend, List.nil_append, scanFrom_of_next?_eq_some hfeed, hnextLine, scanFrom_down]
  simp only [Scan.prepend, List.append_assoc]
  rfl

/-- Behind the tokens of the first text come those of the second, with the end, or its
error. -/
theorem result_lineFeed {a : String} (b : String) (hend : (scan a).rest = [])
    (hopen : ∀ x ∈ (scan a).pieces.getLast?, ¬ IsOpenString x.lexeme.text) (d : Dialect) :
    (scan (a ++ "\n" ++ b)).result d =
      match (scan b).result d with
      | .ok us => .ok ((scan a).tokens d ++ us.map (Token.down (lastLine a)))
      | .error e => .error (e.down (lastLine a)) := by
  rw [scan_lineFeed b hend hopen]
  have htokens : (((scan b).down (lastLine a)).prepend
      ((scan a).pieces ++ [⟨⟨.blank, ['\n']⟩, (scan a).stop⟩])).tokens d =
        (scan a).tokens d ++ ((scan b).tokens d).map (Token.down (lastLine a)) := by
    rw [← Scan.tokens_down]
    simp [Scan.tokens, Scan.prepend]
    rfl
  have herror : (((scan b).down (lastLine a)).prepend
      ((scan a).pieces ++ [⟨⟨.blank, ['\n']⟩, (scan a).stop⟩])).error? =
        (scan b).error?.map (LexicalError.down (lastLine a)) := by
    rw [← Scan.error?_down]
    rfl
  rw [Scan.result, Scan.result, herror, htokens]
  cases (scan b).error? with
  | none =>
      show Except.ok _ = Except.ok _
      rw [List.map_append, List.append_assoc]
      rfl
  | some e => rfl

/-- So do the comments. -/
theorem comments_lineFeed {a : String} (b : String) (hend : (scan a).rest = [])
    (hopen : ∀ x ∈ (scan a).pieces.getLast?, ¬ IsOpenString x.lexeme.text) :
    (scan (a ++ "\n" ++ b)).comments =
      (scan a).comments ++ (scan b).comments.map fun e => (e.1 + lastLine a, e.2) := by
  rw [scan_lineFeed b hend hopen, ← Scan.comments_down]
  simp [Scan.comments, Scan.prepend]
  rfl

/-- A scan stops where no rule applies. -/
theorem next?_rest (p : Position) (cs : List Char) :
    Lexeme.next? (scanFrom p cs).rest = none := by
  induction cs using Lexeme.text_induction generalizing p with
  | stuck cs hnext => rwa [scanFrom_of_next?_eq_none hnext]
  | split cs x rest hnext ih =>
      rw [scanFrom_of_next?_eq_some hnext]
      exact ih _

/-- Where a text fails, more text behind it changes nothing. -/
theorem scan_of_error {a : String} {e : LexicalError} (h : (scan a).error? = some e) (b : String) :
    (scan (a ++ b)).error? = some e ∧ (scan (a ++ b)).comments = (scan a).comments := by
  obtain ⟨c, hhead, he⟩ := Option.map_eq_some_iff.1 h
  obtain ⟨rest, hrest⟩ := List.head?_eq_some_iff.1 hhead
  have hnone : Lexeme.next? ((scan a).rest ++ b.toList) = none := by
    have hstuck : Lexeme.next? (scan a).rest = none := next?_rest .start a.toList
    rw [hrest, Lexeme.next?_eq_none_iff] at hstuck
    rw [hrest, List.cons_append, Lexeme.next?_eq_none_iff]
    simpa using hstuck
  have hscan : scan (a ++ b) = ⟨(scan a).pieces, (scan a).stop, (scan a).rest ++ b.toList⟩ := by
    rw [scan, String.toList_append, scanFrom_append .start a.toList]
    · show (scanFrom (scan a).stop ((scan a).rest ++ _)).prepend (scan a).pieces = _
      rw [scanFrom_of_next?_eq_none hnone, Scan.prepend, List.append_nil]
    · intro hnil
      rw [show (scanFrom .start a.toList).rest = _ from hrest] at hnil
      cases hnil
  rw [hscan]
  refine ⟨?_, rfl⟩
  rw [Scan.error?, hrest]
  exact congrArg some he

/-- Two texts with a line feed between them are scanned one below the other, unless the first
ends with an open string.  And where a text fails, more text behind it changes nothing. -/
theorem tokenize_lineFeed (d : Dialect) (a b : String) (table : Comments) :
    (∀ ts, (tokenize d a table).1 = .ok ts →
      (∀ t ∈ ts.dropLast.getLast?, ¬ IsOpenString t.text.toList) →
      let k := a.toList.count '\n' + 1
      let whole := tokenize d (a ++ "\n" ++ b) table
      (∀ us, (tokenize d b .empty).1 = .ok us →
        whole.1 = .ok (ts.dropLast ++ us.map (Token.down k))) ∧
      (∀ e, (tokenize d b .empty).1 = .error e → whole.1 = .error (e.down k)) ∧
      ∀ line, whole.2.at? line =
        if line ≤ k then (tokenize d a table).2.at? line
        else ((tokenize d b .empty).2.at? (line - k)).or (table.at? line)) ∧
    ∀ e, (tokenize d a table).1 = .error e →
      (tokenize d (a ++ b) table).1 = .error e ∧
        (tokenize d (a ++ b) table).2 = (tokenize d a table).2 := by
  refine ⟨?_, ?_⟩
  · intro ts hts hclosed k whole
    obtain ⟨hend, rfl⟩ := rest_eq_nil_of_result (s := scan a) hts
    rw [List.dropLast_concat] at hclosed ⊢
    have hopen : ∀ x ∈ (scan a).pieces.getLast?, ¬ IsOpenString x.lexeme.text := by
      intro x hx hopen
      obtain ⟨t, ht, htopen⟩ := getLast?_tokens_of_isOpenString hx hopen d
      exact hclosed t ht htopen
    have hresult : whole.1 = _ := result_lineFeed b hend hopen d
    refine ⟨?_, ?_, ?_⟩
    · intro us hus
      rw [hresult, show (scan b).result d = .ok us from hus]
      rfl
    · intro e he
      rw [hresult, show (scan b).result d = .error e from he]
      rfl
    · intro line
      show (table.recordAll (scan _).comments).at? line = _
      rw [comments_lineFeed b hend hopen]
      refine Comments.at?_recordAll_append_down ?_ ?_ table line
      · intro e he
        have hline := (line_of_mem_comments he).2
        rwa [line_after_start] at hline
      · intro e he
        exact (line_of_mem_comments he).1
  · intro e he
    obtain ⟨herror, hcomments⟩ := scan_of_error (error?_of_result (s := scan a) he) b
    refine ⟨?_, ?_⟩
    · show Scan.result _ d = _
      rw [Scan.result, herror]
    · show table.recordAll (scan _).comments = _
      rw [hcomments]
      rfl

/-- A closed string over two lines with a comment behind it, and a dropped prefix, a second
comment or an error on the line below; and an error with more text behind it. -/
theorem tokenize_lineFeed_closedString :
    let a := ".db \"\n\" ; one"
    let ts : List Token := [⟨.dataBytes, ".db", ⟨1, 1⟩⟩, ⟨.name, "\"\n\"", ⟨1, 5⟩⟩]
    let us : List Token := [⟨.instruction .lda, "lda", ⟨1, 1⟩⟩, ⟨.hexConst, "$1", ⟨1, 7⟩⟩,
      .endAt ⟨1, 15⟩]
    let whole := tokenize {} (a ++ "\n" ++ "lda z:$1 ; two") .empty
    (tokenize {} a .empty).1 = .ok (ts ++ [.endAt ⟨2, 8⟩]) ∧
      (∀ t ∈ ts.getLast?, ¬ IsOpenString t.text.toList) ∧
      (tokenize {} "lda z:$1 ; two" .empty).1 = .ok us ∧
      whole.1 = .ok (ts ++ us.map (Token.down 2)) ∧
      whole.2.at? 2 = some "; one" ∧ whole.2.at? 3 = some "; two" ∧
      (tokenize {} (a ++ "\n" ++ "@") .empty).1 = .error ⟨'@', ⟨3, 1⟩⟩ ∧
      (tokenize {} ("x @" ++ " ; y") .empty).1 = .error ⟨'@', ⟨1, 3⟩⟩ := by
  intro a ts us whole
  have hts : (tokenize {} a .empty).1 = .ok (ts ++ [.endAt ⟨2, 8⟩]) := by decide +kernel
  have hus : (tokenize {} "lda z:$1 ; two" .empty).1 = .ok us := by decide +kernel
  have hclosed : ∀ t ∈ ts.getLast?, ¬ IsOpenString t.text.toList := by
    intro t ht
    cases ht
    rintro ⟨mark, tail, htext, _, hnone⟩
    cases htext
    exact hnone ['\n'] (.plain (by decide) (by decide) .done) rfl
  have hlines : a.toList.count '\n' + 1 = 2 := by decide +kernel
  have hbelow := (tokenize_lineFeed {} a "lda z:$1 ; two" .empty).1 _ hts hclosed
  have hbad := (tokenize_lineFeed {} a "@" .empty).1 _ hts hclosed
  have hstuck := (tokenize_lineFeed {} "x @" " ; y" .empty).2 ⟨'@', ⟨1, 3⟩⟩ (by decide +kernel)
  rw [hlines] at hbelow hbad
  refine ⟨hts, hclosed, hus, hbelow.1 us hus, ?_, ?_, ?_, hstuck.1⟩
  · rw [hbelow.2.2 2]
    decide +kernel
  · rw [hbelow.2.2 3]
    decide +kernel
  · exact hbad.2.1 ⟨'@', ⟨1, 1⟩⟩ (by decide +kernel)

end Asm6502
