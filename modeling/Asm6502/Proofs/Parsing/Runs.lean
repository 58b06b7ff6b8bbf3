import Asm6502.Parser.State
import Asm6502.Proofs.Tree.Growth

/-!
# How a parser ends

A parser is a function from states to results, so what it does could be told by
running it.  That tells too much: a proof about a caller would open every parser
called.  `Ends` says of one run what is worth knowing, a condition on the value
and the state if the parser answers and another one if it fails.  The equations
below take `Ends` apart along the steps of a parser, so that each parser is opened
once, for its own statement, and its callers use that.

What reading does to a state is always of one kind.  It passes tokens, adds nodes
and reports problems, in whatever order; `State.Reads` keeps the three apart.

Ends and labels are never passed inside a statement, neither while it is read nor
while a place to go on is sought behind a failure; such tokens are `Interior`.

## Main results

* `ends_bind`, `Ends.imp` — sequencing and consequence.
* `State.Reads.trans` — what two parsers in a row pass and report.
* `State.reads_resync` — seeking a statement passes no label.
-/

namespace Asm6502.Parser

variable {α β : Type} {s s' s'' : State} {post : α → State → Prop}
  {fail : Failure → State → Prop}

/-! ## One run -/

/-- Started in the state `s`, the parser answers a value in a state with `post`, or
fails in a state with `fail`. -/
def Ends (p : Parser α) (s : State) (post : α → State → Prop)
    (fail : Failure → State → Prop) : Prop :=
  match p s with
  | .ok a s' => post a s'
  | .error e s' => fail e s'

theorem Ends.imp {p : Parser α} {post' : α → State → Prop} {fail' : Failure → State → Prop}
    (h : Ends p s post fail) (hpost : ∀ a s', post a s' → post' a s')
    (hfail : ∀ e s', fail e s' → fail' e s') : Ends p s post' fail' := by
  unfold Ends at h ⊢
  cases hp : p s with
  | ok a s' =>
      rw [hp] at h
      exact hpost a s' h
  | error e s' =>
      rw [hp] at h
      exact hfail e s' h

/-- Two things may be known of one run. -/
theorem Ends.and {p : Parser α} {post' : α → State → Prop} {fail' : Failure → State → Prop}
    (h : Ends p s post fail) (h' : Ends p s post' fail') :
    Ends p s (fun a s' => post a s' ∧ post' a s') (fun e s' => fail e s' ∧ fail' e s') := by
  unfold Ends at h h' ⊢
  cases hp : p s with
  | ok a s' =>
      rw [hp] at h h'
      exact ⟨h, h'⟩
  | error e s' =>
      rw [hp] at h h'
      exact ⟨h, h'⟩

theorem Ends.imp_post {p : Parser α} {post' : α → State → Prop} (h : Ends p s post fail)
    (hpost : ∀ a s', post a s' → post' a s') : Ends p s post' fail :=
  h.imp hpost fun _ _ hf => hf

@[simp] theorem ends_pure (a : α) : Ends (pure a) s post fail ↔ post a s := Iff.rfl

@[simp] theorem ends_throw (e : Failure) :
    Ends (throw e : Parser α) s post fail ↔ fail e s := Iff.rfl

@[simp] theorem ends_bind (p : Parser β) (f : β → Parser α) :
    Ends (p >>= f) s post fail ↔ Ends p s (fun b s' => Ends (f b) s' post fail) fail := by
  unfold Ends
  simp only [bind, EStateM.bind]
  cases p s <;> rfl

@[simp] theorem ends_current {post : Token → State → Prop} :
    Ends current s post fail ↔ post s.current s := Iff.rfl

@[simp] theorem ends_advance {post : Unit → State → Prop} :
    Ends advance s post fail ↔ post () s.advance := Iff.rfl

@[simp] theorem ends_diagnose (d : Diagnostic) {post : Unit → State → Prop} :
    Ends (diagnose d) s post fail ↔ post () (s.diagnose d) := Iff.rfl

@[simp] theorem ends_add (k : Node.Kind) (line : Nat) {post : NodeId → State → Prop} :
    Ends (add k line) s post fail ↔ post (s.add k line).1 (s.add k line).2 := Iff.rfl

@[simp] theorem ends_addList (items : List NodeId) {post : Option NodeId → State → Prop} :
    Ends (addList items) s post fail ↔ post (s.addList items).1 (s.addList items).2 := Iff.rfl

@[simp] theorem ends_lineOf (id : NodeId) {post : Nat → State → Prop} :
    Ends (lineOf id) s post fail ↔ post (s.tree.line id) s := Iff.rfl

@[simp] theorem ends_ahead {post : List Token → State → Prop} :
    Ends ahead s post fail ↔ post s.stream.ahead s := Iff.rfl

theorem ends_ite {c : Prop} [Decidable c] (p q : Parser α) :
    Ends (if c then p else q) s post fail ↔
      (c → Ends p s post fail) ∧ (¬ c → Ends q s post fail) := by
  by_cases hc : c <;> simp [hc]

/-- Failing is excluded. -/
def Never : Failure → State → Prop := fun _ _ => False

theorem Ends.exists_of_never {p : Parser α} (h : Ends p s post Never) :
    ∃ a s', p s = .ok a s' ∧ post a s' := by
  unfold Ends at h
  cases hp : p s with
  | ok a s' =>
      rw [hp] at h
      exact ⟨a, s', rfl, h⟩
  | error e s' =>
      rw [hp] at h
      exact h.elim

theorem ends_expect (k : Token.Kind) {post : Token → State → Prop} :
    Ends (expect k) s post fail ↔
      (s.current.kind = k → post s.current s.advance) ∧
        (s.current.kind ≠ k → fail (.unexpected k.describe s.current) s) := by
  unfold expect
  simp only [ends_bind, ends_current, ends_ite, ends_advance, ends_pure, ends_throw, ne_eq]

/-! ## Which tokens are no end -/

/-- A kind that some table knows is not the end, which no table knows. -/
theorem ne_eof_of_eq_some {f : Token.Kind → Option α} {k : Token.Kind} {a : α} (h : f k = some a)
    (heof : f .eof = none) : k ≠ .eof := by
  rintro rfl
  rw [heof] at h
  cases h

theorem ne_eof_of_isConstant {k : Token.Kind} (h : k.isConstant = true) : k ≠ .eof := by
  rintro rfl
  cases h

/-! ## Tokens inside a statement -/

/-- Ends and labels end whatever is being read. -/
def IsStop (k : Token.Kind) : Prop := k = .eof ∨ k = .label

/-- None of the tokens is an end or a label. -/
def Interior (ts : List Token) : Prop := ∀ t ∈ ts, t.kind ≠ .eof ∧ t.kind ≠ .label

namespace Interior

variable {t : Token} {ts us : List Token}

theorem nil : Interior [] := fun _ ht => absurd ht List.not_mem_nil

theorem cons (heof : t.kind ≠ .eof) (hlabel : t.kind ≠ .label) (hts : Interior ts) :
    Interior (t :: ts) := by
  intro u hu
  rcases List.mem_cons.1 hu with rfl | hu
  · exact ⟨heof, hlabel⟩
  · exact hts u hu

theorem append (hts : Interior ts) (hus : Interior us) : Interior (ts ++ us) := by
  intro u hu
  rcases List.mem_append.1 hu with hu | hu
  · exact hts u hu
  · exact hus u hu

theorem flatMap {α : Type} {f : α → List Token} {xs : List α}
    (h : ∀ x ∈ xs, Interior (f x)) : Interior (xs.flatMap f) := by
  intro u hu
  obtain ⟨x, hx, hu⟩ := List.mem_flatMap.1 hu
  exact h x hx u hu

/-- A single token that some table knows, if the table knows neither. -/
theorem of_eq_some {f : Token.Kind → Option α} {a : α} (h : f t.kind = some a)
    (heof : f .eof = none) (hlabel : f .label = none) : Interior [t] := by
  refine .cons (ne_eof_of_eq_some h heof) ?_ .nil
  intro hkind
  rw [hkind, hlabel] at h
  cases h

/-- A single token of a kind that is neither. -/
theorem of_kind {k : Token.Kind} (h : t.kind = k) (heof : k ≠ .eof) (hlabel : k ≠ .label) :
    Interior [t] := by
  subst h
  exact .cons heof hlabel .nil

theorem of_isConstant (h : t.kind.isConstant = true) : Interior [t] := by
  refine .cons (ne_eof_of_isConstant h) ?_ .nil
  intro hkind
  rw [hkind] at h
  cases h

end Interior

/-! ## What reading does to a state -/

namespace State

/-- Between the states `s` and `s'`, the tokens `passed` have been read and the
problems `reported` have been reported, and the tree has grown. -/
structure Reads (s s' : State) (passed : List Token) (reported : List Diagnostic) : Prop where
  ahead_eq : s.stream.ahead = passed ++ s'.stream.ahead
  finish_eq : s'.stream.finish = s.stream.finish
  grows : s.tree.Grows s'.tree
  diagnostics_eq : s'.diagnostics.toList = s.diagnostics.toList ++ reported

variable {passed passed' : List Token} {reported reported' : List Diagnostic}

theorem Reads.refl (s : State) : s.Reads s [] [] where
  ahead_eq := rfl
  finish_eq := rfl
  grows := .refl _
  diagnostics_eq := (List.append_nil _).symm

theorem Reads.trans (h : s.Reads s' passed reported) (h' : s'.Reads s'' passed' reported') :
    s.Reads s'' (passed ++ passed') (reported ++ reported') where
  ahead_eq := by rw [h.ahead_eq, h'.ahead_eq, List.append_assoc]
  finish_eq := h'.finish_eq.trans h.finish_eq
  grows := h.grows.trans h'.grows
  diagnostics_eq := by rw [h'.diagnostics_eq, h.diagnostics_eq, List.append_assoc]

/-- A token other than the end is the first of those ahead. -/
theorem ahead_eq_cons (h : s.current.kind ≠ .eof) :
    s.stream.ahead = s.current :: s.advance.stream.ahead := by
  unfold current TokenStream.current at h ⊢
  cases hahead : s.stream.ahead with
  | nil =>
      rw [hahead] at h
      exact absurd rfl h
  | cons t ts =>
      show t :: ts = t :: s.stream.ahead.tail
      rw [hahead]
      rfl

theorem current_of_nil (h : s.stream.ahead = []) : s.current = .endAt s.stream.finish := by
  rw [current, TokenStream.current, h]
  rfl

theorem current_eq_of_ahead {t : Token} {ts : List Token} (h : s.stream.ahead = t :: ts) :
    s.current = t := by
  rw [current, TokenStream.current, h]
  rfl

theorem ahead_advance {t : Token} {ts : List Token} (h : s.stream.ahead = t :: ts) :
    s.advance.stream.ahead = ts := by
  show s.stream.ahead.tail = ts
  rw [h]
  rfl

/-- What holds of the first token ahead, and of the end, holds of the current token. -/
theorem current_of_head? {p : Token.Kind → Prop} (h : ∀ t ∈ s.stream.ahead.head?, p t.kind)
    (heof : p .eof) : p s.current.kind := by
  rw [current, TokenStream.current]
  cases hahead : s.stream.ahead with
  | nil => exact heof
  | cons t ts =>
      apply h
      rw [hahead]
      rfl

/-- Reading a known beginning leaves the rest. -/
theorem Reads.ahead_eq_rest {rest : List Token} (h : s.Reads s' passed reported)
    (hs : s.stream.ahead = passed ++ rest) : s'.stream.ahead = rest :=
  List.append_cancel_left (h.ahead_eq.symm.trans hs)

theorem reads_advance (h : s.current.kind ≠ .eof) : s.Reads s.advance [s.current] [] where
  ahead_eq := ahead_eq_cons h
  finish_eq := rfl
  grows := .refl _
  diagnostics_eq := (List.append_nil _).symm

/-- Advancing passes the first of the tokens ahead. -/
theorem reads_advance_of_ahead {t : Token} {ts : List Token} (hs : s.stream.ahead = t :: ts) :
    s.Reads s.advance [t] [] where
  ahead_eq := by rw [hs, ahead_advance hs, List.singleton_append]
  finish_eq := rfl
  grows := .refl _
  diagnostics_eq := (List.append_nil _).symm

theorem reads_diagnose (s : State) (d : Diagnostic) : s.Reads (s.diagnose d) [] [d] where
  ahead_eq := rfl
  finish_eq := rfl
  grows := .refl _
  diagnostics_eq := Array.toList_push

theorem reads_add {k : Node.Kind} (line : Nat) (hk : ∀ child ∈ k.children, s.tree.IsInner child) :
    s.Reads (s.add k line).2 [] [] where
  ahead_eq := rfl
  finish_eq := rfl
  grows := Tree.grows_add line hk
  diagnostics_eq := (List.append_nil _).symm

theorem node_add (s : State) (k : Node.Kind) (line : Nat) :
    (s.add k line).2.tree.node (s.add k line).1 = ⟨k, line⟩ := Tree.node_add_self _ _ _

theorem reads_addList {items : List NodeId} (hitems : ∀ item ∈ items, s.tree.IsInner item) :
    s.Reads (s.addList items).2 [] [] where
  ahead_eq := rfl
  finish_eq := rfl
  grows := Tree.grows_addList hitems
  diagnostics_eq := (List.append_nil _).symm

/-- Seeking a statement passes the tokens in front of it, none of which starts one. -/
theorem reads_resync (s : State) : ∃ passed, s.Reads s.resync passed [] ∧ Interior passed := by
  have hseek (finish : Position) (ts : List Token) :
      ∃ passed, ts = passed ++ (seekStatement finish ts).ahead ∧
        (seekStatement finish ts).finish = finish ∧ Interior passed := by
    induction ts with
    | nil => exact ⟨[], rfl, rfl, .nil⟩
    | cons t ts ih =>
        unfold seekStatement
        split
        next => exact ⟨[], rfl, rfl, .nil⟩
        next hgoes =>
          obtain ⟨passed, hpassed, hfinish, hinterior⟩ := ih
          have heof : t.kind ≠ .eof := by
            intro hk
            simp [startsStatement, hk] at hgoes
          have hlabel : t.kind ≠ .label := by
            intro hk
            simp [startsStatement, hk] at hgoes
          exact ⟨t :: passed, by rw [List.cons_append, ← hpassed], hfinish,
            .cons heof hlabel hinterior⟩
  obtain ⟨passed, hpassed, hfinish, hinterior⟩ := hseek s.stream.finish s.stream.ahead
  exact ⟨passed, ⟨hpassed, hfinish, .refl _, (List.append_nil _).symm⟩, hinterior⟩

theorem reads_recover (s : State) (e : Failure) :
    ∃ passed, s.Reads (s.recover e) passed [e.diagnostic] ∧ Interior passed := by
  obtain ⟨passed, hpassed, hinterior⟩ := reads_resync (s.diagnose e.diagnostic)
  exact ⟨passed, (reads_diagnose s e.diagnostic).trans hpassed, hinterior⟩

/-- A directive takes one numeral behind it along. -/
theorem reads_skipDirective (h : s.current.kind = .directive) :
    ∃ argument : Option { t : Token // t.kind.isConstant = true },
      s.Reads s.skipDirective (s.current :: (argument.map Subtype.val).toList) [] := by
  have hadvance := reads_advance (s := s) (by rw [h]; decide)
  unfold skipDirective
  by_cases hconst : s.advance.current.kind.isConstant = true
  · rw [if_pos hconst]
    exact ⟨some ⟨_, hconst⟩, hadvance.trans (reads_advance (ne_eof_of_isConstant hconst))⟩
  · rw [if_neg hconst]
    exact ⟨none, hadvance⟩

theorem reads_skip (report : Token → Diagnostic) (h : s.current.kind ≠ .eof) :
    s.Reads (s.skip report) [s.current] [report s.current] :=
  (reads_diagnose s (report s.current)).trans
    (reads_advance (s := s.diagnose (report s.current)) h)

end State

end Asm6502.Parser
