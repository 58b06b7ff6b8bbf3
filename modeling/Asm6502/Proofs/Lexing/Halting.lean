import Asm6502.Proofs.Lexing.Stepwise

/-!
# Where reading stops

Reading stops at the end of a text or at the first character that can start no lexeme.  What
has been read up to there does not depend on that character or on anything behind it: if the
text is cut there, then the same tokens are read and the same comments are recorded, and the
text ends where the error was.

A cursor that has come to such a place stays there.  It gives the same answer as often as it is
asked, and neither passes nor records anything more.

## Main results

* `scanFrom_read` — the scan of what has been read of a text.
* `take_scanFrom`, `goOn_scanFrom` — all answers of a cursor, and where it ends up.
* `tokenize_halts` — what an error tells of the text in front of it, and that it stays.
-/

namespace Asm6502

/-! ## What has been read -/

/-- What has been read of a text scans alone as it did in the text. -/
theorem scanFrom_read (p : Position) (cs : List Char) :
    scanFrom p ((scanFrom p cs).pieces.flatMap (·.lexeme.text)) =
      ⟨(scanFrom p cs).pieces, (scanFrom p cs).stop, []⟩ := by
  induction cs using Lexeme.text_induction generalizing p with
  | stuck cs hnext =>
      rw [scanFrom_of_next?_eq_none hnext]
      exact scanFrom_of_next?_eq_none rfl
  | split cs x rest hnext ih =>
      let read := (scanFrom (p.after x.text) rest).pieces.flatMap (·.lexeme.text)
      have hrest : read ++ (scanFrom (p.after x.text) rest).rest = rest :=
        scanFrom_append_rest (p.after x.text) rest
      have hstands : Lexeme.StandsFor read rest := by
        rw [← hrest]
        cases read with
        | nil => exact .inr (.inl rfl)
        | cons c read => exact .inl rfl
      have hagain : Lexeme.next? (x.text ++ read) = some (x, read) := by
        refine Lexeme.next?_behind hnext hstands ?_
        rintro rfl
        exact .inl (List.append_eq_nil_iff.1 hrest).1
      rw [scanFrom_of_next?_eq_some hnext]
      show scanFrom p (x.text ++ read) = _
      rw [scanFrom_of_next?_eq_some hagain, ih]
      rfl

/-- A text with an error, cut in front of it. -/
theorem exists_of_error? {text : String} {e : LexicalError} (h : (scan text).error? = some e) :
    ∃ u v, text.toList = u ++ e.found :: v ∧ e.position = .behind u ∧
      Lexeme.Rule.of? e.found = none ∧ (scan text).stop = e.position ∧
      (scan text).rest = e.found :: v ∧
      scan (String.ofList u) = ⟨(scan text).pieces, e.position, []⟩ := by
  obtain ⟨c, hhead, rfl⟩ := Option.map_eq_some_iff.1 h
  obtain ⟨v, hrest⟩ := List.head?_eq_some_iff.1 hhead
  let u := (scan text).pieces.flatMap (·.lexeme.text)
  have htext : u ++ (scan text).rest = text.toList := scanFrom_append_rest .start text.toList
  have hstop : (scan text).stop = .behind u := by
    rw [← Position.start_after]
    exact stop_scanFrom .start text.toList
  have hstuck : Lexeme.next? (scan text).rest = none := next?_rest .start text.toList
  rw [hrest, Lexeme.next?, Option.map_eq_none_iff] at hstuck
  refine ⟨u, v, ?_, hstop, hstuck, rfl, hrest, ?_⟩
  · rw [← htext, hrest]
  · rw [scan, String.toList_ofList]
    exact scanFrom_read .start text.toList

/-! ## All answers of a cursor -/

namespace Cursor

/-- The cursor and the table behind `n` answers. -/
def goOn (d : Dialect) : Nat → Cursor → Comments → Cursor × Comments
  | 0, c, table => (c, table)
  | n + 1, c, table =>
    let (_, behind, table) := c.next d table
    behind.goOn d n table

/-- Where no lexeme starts, the same answer is given for ever. -/
theorem take_of_next?_eq_none {c : Cursor} (h : Lexeme.next? c.rest = none) (d : Dialect)
    (table : Comments) (n : Nat) : c.take d n table = List.replicate n c.halt := by
  induction n with
  | zero => rfl
  | succ n ih =>
      rw [take, next_of_next?_eq_none h]
      exact congrArg (c.halt :: ·) ih

/-- And nothing more is passed or recorded. -/
theorem goOn_of_next?_eq_none {c : Cursor} (h : Lexeme.next? c.rest = none) (d : Dialect)
    (table : Comments) (n : Nat) : c.goOn d n table = (c, table) := by
  induction n with
  | zero => rfl
  | succ n ih =>
      rw [goOn, next_of_next?_eq_none h]
      exact ih

end Cursor

/-- One copy more of what comes last does not show at the front. -/
theorem take_append_replicate {α : Type} (xs : List α) (a : α) (n : Nat) :
    (xs ++ List.replicate (n + 1) a).take n = (xs ++ List.replicate n a).take n := by
  have hcopies : min (n - xs.length) (n + 1) = min (n - xs.length) n := by omega
  rw [List.take_append, List.take_append, List.take_replicate, List.take_replicate, hcopies]

/-- First come the tokens that the scan finds, then the answer at the place where it stops. -/
theorem take_scanFrom (d : Dialect) (p : Position) (cs : List Char) (table : Comments) (n : Nat) :
    (Cursor.mk p cs).take d n table =
      (((scanFrom p cs).tokens d).map Except.ok ++
        List.replicate n (Cursor.halt ⟨(scanFrom p cs).stop, (scanFrom p cs).rest⟩)).take n := by
  induction cs using Lexeme.text_induction generalizing p table n with
  | stuck cs hnext =>
      rw [Cursor.take_of_next?_eq_none hnext, scanFrom_of_next?_eq_none hnext]
      simp [Scan.tokens]
  | split cs x rest hnext ih =>
      have hstep := Cursor.next_of_next?_eq_some (c := ⟨p, cs⟩) hnext d table
      have hbehind := ih (p.after x.text) (table.recordAll (Piece.mk x p).comment?.toList)
      rw [scanFrom_of_next?_eq_some hnext, Scan.tokens_prepend]
      cases n with
      | zero => rfl
      | succ n =>
          cases hkept : (Piece.mk x p).kept? d with
          | none =>
              rw [hkept] at hstep
              rw [Cursor.take, hstep]
              exact hbehind (n + 1)
          | some t =>
              rw [hkept] at hstep
              rw [Cursor.take, hstep]
              exact congrArg (Except.ok t :: ·)
                ((hbehind n).trans (take_append_replicate _ _ n).symm)

/-- Behind that answer the cursor stays at that place, and all comments of the scan have been
recorded. -/
theorem goOn_scanFrom (d : Dialect) (p : Position) (cs : List Char) (table : Comments) {n : Nat}
    (hn : ((scanFrom p cs).tokens d).length < n) :
    (Cursor.mk p cs).goOn d n table =
      (⟨(scanFrom p cs).stop, (scanFrom p cs).rest⟩,
        table.recordAll (scanFrom p cs).comments) := by
  induction cs using Lexeme.text_induction generalizing p table n with
  | stuck cs hnext =>
      rw [Cursor.goOn_of_next?_eq_none hnext, scanFrom_of_next?_eq_none hnext]
      rfl
  | split cs x rest hnext ih =>
      have hstep := Cursor.next_of_next?_eq_some (c := ⟨p, cs⟩) hnext d table
      rw [scanFrom_of_next?_eq_some hnext, Scan.tokens_prepend] at hn
      rw [scanFrom_of_next?_eq_some hnext, Scan.comments_prepend, Comments.recordAll_append]
      cases n with
      | zero => exact absurd hn (Nat.not_lt_zero _)
      | succ n =>
          cases hkept : (Piece.mk x p).kept? d with
          | none =>
              rw [hkept] at hstep hn
              rw [Cursor.goOn, hstep]
              exact ih (p.after x.text) _ hn
          | some t =>
              rw [hkept] at hstep hn
              rw [Cursor.goOn, hstep]
              exact ih (p.after x.text) _ (Nat.lt_of_succ_lt_succ hn)

/-- `Settles d c table ts last halted left`: from the cursor on, the tokens `ts` are read, and
then the answer is `last` for ever.  The first time it is given, the cursor is left `halted`
and the table `left`, and both stay so. -/
structure Settles (d : Dialect) (c : Cursor) (table : Comments) (ts : List Token)
    (last : Except LexicalError Token) (halted : Cursor) (left : Comments) : Prop where
  proper : ∀ t ∈ ts, t.kind ≠ .eof
  answers : ∀ n, c.take d n table = (ts.map Except.ok ++ List.replicate n last).take n
  stays : ∀ n, ts.length < n → c.goOn d n table = (halted, left)

/-- No token of a scan is the end. -/
theorem kind_ne_eof_of_mem_tokens {p : Position} {cs : List Char} {d : Dialect} {t : Token}
    (h : t ∈ (scanFrom p cs).tokens d) : t.kind ≠ .eof := by
  obtain ⟨_, _, hnext⟩ := exists_of_mem_tokens h
  exact Lexeme.kind_ne_eof_of_next? hnext rfl

theorem settles_scan (d : Dialect) (text : String) (table : Comments) :
    Settles d (.start text) table ((scan text).tokens d)
      (Cursor.halt ⟨(scan text).stop, (scan text).rest⟩) ⟨(scan text).stop, (scan text).rest⟩
      (tokenize d text table).2 where
  proper _ ht := kind_ne_eof_of_mem_tokens ht
  answers n := take_scanFrom d .start text.toList table n
  stays _ hn := goOn_scanFrom d .start text.toList table hn

/-- If a text fails, then it fails in front of a character that starts no token, no comment and
no blank.  The text up to there has exactly the tokens that are read before the error, with the
end where the error was, and the same comments.  The error is given for ever once it has been
given, and the end of a text that does not fail is too; neither passes or records anything
more. -/
theorem tokenize_halts (d : Dialect) (text : String) (table : Comments) :
    (∀ e, (tokenize d text table).1 = .error e →
      ∃ u v ts, text.toList = u ++ e.found :: v ∧ e.position = .behind u ∧
        (∀ r, ¬ Lexeme.Rule.Starts e.found r) ∧
        tokenize d (String.ofList u) table =
          (.ok (ts ++ [.endAt e.position]), (tokenize d text table).2) ∧
        Settles d (.start text) table ts (.error e) ⟨e.position, e.found :: v⟩
          (tokenize d text table).2) ∧
    ∀ ts, (tokenize d text table).1 = .ok ts →
      ∃ us finish, ts = us ++ [.endAt finish] ∧
        Settles d (.start text) table us (.ok (.endAt finish)) ⟨finish, []⟩
          (tokenize d text table).2 := by
  have hsettles := settles_scan d text table
  constructor
  · intro e he
    obtain ⟨u, v, htext, hplace, hrule, hstop, hrest, hcut⟩ :=
      exists_of_error? (error?_of_result (s := scan text) he)
    rw [hstop, hrest] at hsettles
    refine ⟨u, v, (scan text).tokens d, htext, hplace, ?_, ?_, hsettles⟩
    · intro r hr
      rw [Lexeme.Rule.of?_eq_some_iff.2 hr] at hrule
      cases hrule
    · rw [tokenize, hcut]
      rfl
  · intro ts hts
    obtain ⟨hend, rfl⟩ := rest_eq_nil_of_result (s := scan text) hts
    rw [hend] at hsettles
    exact ⟨_, _, rfl, hsettles⟩

/-- An error behind a dropped prefix, a mnemonic and a comment, with another comment behind
it. -/
theorem tokenize_halts_atSign :
    let text := "z:lda ; c\n@ ; d"
    let e : LexicalError := ⟨'@', ⟨2, 1⟩⟩
    (tokenize {} text .empty).1 = .error e ∧
      (∃ u v ts, text.toList = u ++ e.found :: v ∧ e.position = .behind u ∧
        (∀ r, ¬ Lexeme.Rule.Starts e.found r) ∧
        tokenize {} (String.ofList u) .empty =
          (.ok (ts ++ [.endAt e.position]), (tokenize {} text .empty).2) ∧
        Settles {} (.start text) .empty ts (.error e) ⟨e.position, e.found :: v⟩
          (tokenize {} text .empty).2) ∧
      (tokenize {} "rts" .empty).1 = .ok [⟨.instruction .rts, "rts", ⟨1, 1⟩⟩, .endAt ⟨1, 4⟩] ∧
      ∃ us finish, [⟨.instruction .rts, "rts", ⟨1, 1⟩⟩, .endAt ⟨1, 4⟩] = us ++ [.endAt finish] ∧
        Settles {} (.start "rts") .empty us (.ok (.endAt finish)) ⟨finish, []⟩
          (tokenize {} "rts" .empty).2 := by
  intro text e
  have herror : (tokenize {} text .empty).1 = .error e := by decide +kernel
  have hok : (tokenize {} "rts" .empty).1 =
      .ok [⟨.instruction .rts, "rts", ⟨1, 1⟩⟩, .endAt ⟨1, 4⟩] := by decide +kernel
  exact ⟨herror, (tokenize_halts {} text .empty).1 e herror, hok,
    (tokenize_halts {} "rts" .empty).2 _ hok⟩

end Asm6502
