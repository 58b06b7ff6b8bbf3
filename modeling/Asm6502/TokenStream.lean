import Asm6502.Token

/-!
# A list of tokens as something to read from

A token stream holds the tokens still ahead, none of which is an end, and the
position of the end behind them. It always has a current token: behind the last
one the end stands, as often as one looks.

Any list of tokens can be read. The first end in it is the end; if there is
none, the end is taken to stand where the last token does, and at the start of
the text when there is no token at all.

## Main results

* `ahead_ofTokens_ne_eof` — no token ahead is an end.
* `ofTokens_append_eof` — nothing behind the first end plays a part.
-/

namespace Asm6502

/-- The tokens ahead of a reader, and where the text ends. -/
structure TokenStream where
  ahead : List Token
  finish : Position
  deriving DecidableEq, Repr

namespace TokenStream

/-- Whether a token is of any kind but the end. -/
def isProper (t : Token) : Bool := t.kind != .eof

/-- The stream of a list of tokens. -/
def ofTokens (ts : List Token) : TokenStream where
  ahead := ts.takeWhile isProper
  finish :=
    match ts.dropWhile isProper with
    | e :: _ => e.position
    | [] => (ts.getLast?.map Token.position).getD .start

/-- The token to be read next. -/
def current (s : TokenStream) : Token := s.ahead.headD (.endAt s.finish)

/-- The stream behind its current token. The end is never passed. -/
def advance (s : TokenStream) : TokenStream := { s with ahead := s.ahead.tail }

/-- The number of tokens ahead. -/
def length (s : TokenStream) : Nat := s.ahead.length

/-! ## Reading and the end -/

@[simp] theorem current_cons (t : Token) (ts : List Token) (p : Position) :
    (TokenStream.mk (t :: ts) p).current = t := rfl

@[simp] theorem current_nil (p : Position) : (TokenStream.mk [] p).current = .endAt p := rfl

@[simp] theorem advance_cons (t : Token) (ts : List Token) (p : Position) :
    (TokenStream.mk (t :: ts) p).advance = ⟨ts, p⟩ := rfl

@[simp] theorem advance_nil (p : Position) :
    (TokenStream.mk [] p).advance = ⟨[], p⟩ := rfl

theorem ahead_ofTokens_ne_eof {ts : List Token} {t : Token} (h : t ∈ (ofTokens ts).ahead) :
    t.kind ≠ .eof := by
  have := List.all_takeWhile (p := isProper) (l := ts)
  simpa [isProper] using List.all_eq_true.1 this t h

/-- Nothing behind the first end plays a part. -/
theorem ofTokens_append_eof {ts us : List Token} {e : Token}
    (hts : ∀ t ∈ ts, t.kind ≠ .eof) (he : e.kind = .eof) :
    ofTokens (ts ++ e :: us) = ⟨ts, e.position⟩ := by
  have hts' : ∀ t ∈ ts, isProper t = true := fun t ht => by simp [isProper, hts t ht]
  have he' : isProper e = false := by simp [isProper, he]
  simp [ofTokens, List.takeWhile_append_of_pos hts', List.dropWhile_append_of_pos hts', he']

end TokenStream

end Asm6502
