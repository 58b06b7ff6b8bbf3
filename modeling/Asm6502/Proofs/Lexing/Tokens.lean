import Asm6502.Scan

/-!
# The tokens of a text, lexeme by lexeme

`Scan.result` filters a finished scan.  Proofs go from left to right instead:
they split one lexeme off and speak of the tokens of what remains.  The two
equations below are all that they need, so neither the scan nor its pieces are
opened again.

## Main results

* `result_of_next?_eq_some` — a lexeme adds at most one token in front.
* `result_of_next?_eq_none` — where no lexeme starts, the text ends or fails.
-/

namespace Asm6502

/-- The token that a piece contributes, unless the dialect drops it. -/
def Piece.kept? (d : Dialect) (x : Piece) : Option Token :=
  x.token?.filter fun t => !d.drops t

namespace Piece

@[simp] theorem kept?_blank (d : Dialect) (text : List Char) (p : Position) :
    (Piece.mk ⟨.blank, text⟩ p).kept? d = none := rfl

@[simp] theorem kept?_comment (d : Dialect) (text : List Char) (p : Position) :
    (Piece.mk ⟨.comment, text⟩ p).kept? d = none := rfl

theorem kept?_token (d : Dialect) (k : Token.Kind) (text : List Char) (p : Position) :
    (Piece.mk ⟨.token k, text⟩ p).kept? d =
      if d.drops ⟨k, String.ofList text, p⟩ then none
      else some ⟨k, String.ofList text, p⟩ := by
  unfold kept? token?
  by_cases hdrops : d.drops ⟨k, String.ofList text, p⟩ = true <;> simp [Option.filter, hdrops]

end Piece

namespace Scan

theorem tokens_prepend (d : Dialect) (x : Piece) (s : Scan) :
    (s.prepend [x]).tokens d = (x.kept? d).toList ++ s.tokens d := by
  unfold tokens prepend Piece.kept?
  cases hx : x.token? with
  | none => simp [hx]
  | some t => by_cases ht : d.drops t = true <;> simp [hx, ht, Option.filter]

theorem comments_prepend (x : Piece) (s : Scan) :
    (s.prepend [x]).comments = x.comment?.toList ++ s.comments := by
  cases hx : x.comment? with
  | none => simp [comments, prepend, hx]
  | some e => simp [comments, prepend, hx]

/-- A piece in front of a scan changes neither where the scan stops nor why. -/
theorem result_prepend (d : Dialect) (x : Piece) (s : Scan) :
    (s.prepend [x]).result d = (s.result d).map ((x.kept? d).toList ++ ·) := by
  have herror : (s.prepend [x]).error? = s.error? := rfl
  unfold result
  rw [herror, tokens_prepend]
  cases s.error? with
  | none => simp [Except.map, prepend]
  | some e => rfl

end Scan

theorem result_of_next?_eq_some {d : Dialect} {p : Position} {cs rest : List Char}
    {x : Lexeme} (h : Lexeme.next? cs = some (x, rest)) :
    (scanFrom p cs).result d =
      ((scanFrom (p.after x.text) rest).result d).map
        (((Piece.mk x p).kept? d).toList ++ ·) := by
  rw [scanFrom_of_next?_eq_some h, Scan.result_prepend]

theorem result_of_next?_eq_none {d : Dialect} {p : Position} {cs : List Char}
    (h : Lexeme.next? cs = none) :
    (scanFrom p cs).result d =
      match cs with
      | [] => .ok [.endAt p]
      | c :: _ => .error ⟨c, p⟩ := by
  rw [scanFrom_of_next?_eq_none h]
  cases cs <;> rfl

/-- If a text scans without an error, so does what remains behind its first lexeme. -/
theorem exists_of_result_eq_ok {d : Dialect} {p : Position} {cs rest : List Char} {x : Lexeme}
    {ts : List Token} (hnext : Lexeme.next? cs = some (x, rest))
    (h : (scanFrom p cs).result d = .ok ts) :
    ∃ ts', (scanFrom (p.after x.text) rest).result d = .ok ts' ∧
      ts = ((Piece.mk x p).kept? d).toList ++ ts' := by
  rw [result_of_next?_eq_some hnext] at h
  cases hrest : (scanFrom (p.after x.text) rest).result d with
  | error e =>
      rw [hrest] at h
      cases h
  | ok ts' =>
      rw [hrest] at h
      cases h
      exact ⟨ts', rfl, rfl⟩

theorem tokenize_fst (d : Dialect) (text : String) (table : Comments) :
    (tokenize d text table).1 = (scanFrom .start text.toList).result d := rfl

end Asm6502
