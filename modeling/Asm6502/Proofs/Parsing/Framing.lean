import Asm6502.Proofs.Boundary
import Asm6502.Proofs.Parsing.Simulation

/-!
# Reading within a longer text

What a reader makes of some tokens should not depend on what was read in front of them,
nor on what stands behind, if that starts with a label.  To say so, two runs are compared:
one over the tokens alone, and one in which they stand within a longer text.  The frame
is what the longer run has in addition: a tree and reports from before, and tokens behind.

The two runs go the same way, step by step, and their states stay embedded: the longer
one has the tree of the shorter one on top of its own, and its reports behind its own.
Only at the boundary do they see different tokens, a label in one run and the end in the
other.  What looks at lines does tell them apart; but no operand starts there, so it makes
no difference.

## Main results

* `Embeds.pastLabels` — labels in front of the boundary are the same in both runs.
* `simulation` — the two runs are a simulation.
-/

namespace Asm6502.Parser

/-! ## Frames -/

/-- What a longer run has in addition to a shorter one. -/
structure Frame where
  /-- The tree built before. -/
  base : Tree
  /-- The kinds of problems reported before. -/
  reported : List Diagnostic.Kind
  /-- The tokens behind. -/
  rest : List Token
  starts : ∀ t ∈ rest.head?, t.kind = .label

/-- The kinds of the problems reported so far. -/
def State.kinds (s : State) : List Diagnostic.Kind := s.diagnostics.toList.map Diagnostic.kind

namespace Frame

/-- The stream `x` has the tokens of `y` ahead, and then those behind.  If there are some,
no label and no colon stands directly in front of them, for these would join what is
behind. -/
structure Extends (f : Frame) (x y : TokenStream) : Prop where
  ahead_eq : x.ahead = y.ahead ++ f.rest
  closed : f.rest ≠ [] → ∀ before t, y.ahead = before ++ [t] → t.kind ≠ .label ∧ t.kind ≠ .colon

/-- The state `s` of a longer run has the state `s'` of a shorter one embedded. -/
structure Embeds (f : Frame) (s s' : State) : Prop where
  stream : f.Extends s.stream s'.stream
  tree : f.base.OnTop s.tree s'.tree
  kinds_eq : s.kinds = f.reported ++ s'.kinds

/-! ## Streams -/

namespace Extends

variable {f : Frame} {x y : TokenStream}

theorem current_eq (h : f.Extends x y) (hy : y.ahead ≠ []) : x.current = y.current := by
  obtain ⟨t, ts, hts⟩ := List.exists_cons_of_ne_nil hy
  rw [TokenStream.current, TokenStream.current, h.ahead_eq, hts]
  rfl

/-- Where the shorter run is at its end, both runs see a stop. -/
theorem isStop (h : f.Extends x y) (hy : y.ahead = []) :
    IsStop x.current.kind ∧ IsStop y.current.kind := by
  constructor
  · rw [TokenStream.current, h.ahead_eq, hy, List.nil_append]
    cases hrest : f.rest with
    | nil => exact .inl rfl
    | cons t ts =>
        refine .inr (f.starts t ?_)
        rw [hrest]
        rfl
  · rw [TokenStream.current, hy]
    exact .inl rfl

theorem of_suffix {x' y' : TokenStream} (passed : List Token) (h : f.Extends x y)
    (hx : x'.ahead = y'.ahead ++ f.rest) (hy : y.ahead = passed ++ y'.ahead) :
    f.Extends x' y' where
  ahead_eq := hx
  closed := by
    intro hrest before t hahead
    refine h.closed hrest (passed ++ before) t ?_
    rw [hy, hahead, List.append_assoc]

theorem advance (h : f.Extends x y) (hy : y.ahead ≠ []) : f.Extends x.advance y.advance := by
  obtain ⟨t, ts, hts⟩ := List.exists_cons_of_ne_nil hy
  refine h.of_suffix [t] ?_ ?_
  · show x.ahead.tail = y.ahead.tail ++ f.rest
    rw [h.ahead_eq, hts]
    rfl
  · show y.ahead = [t] ++ y.ahead.tail
    rw [hts]
    rfl

end Extends

/-! ## States -/

namespace Embeds

variable {f : Frame} {s s' : State}

theorem ahead_ne_nil (hcurrent : s'.current.kind ≠ .eof) : s'.stream.ahead ≠ [] := by
  intro hnil
  rw [State.current_of_nil hnil] at hcurrent
  exact hcurrent rfl

theorem current_eq (h : f.Embeds s s') (hcurrent : s'.current.kind ≠ .eof) :
    s.current = s'.current := h.stream.current_eq (ahead_ne_nil hcurrent)

theorem isStop (h : f.Embeds s s') (hcurrent : s'.current.kind = .eof) :
    IsStop s.current.kind := by
  by_cases hahead : s'.stream.ahead = []
  · exact (h.stream.isStop hahead).1
  · have heq : s.current = s'.current := h.stream.current_eq hahead
    exact .inl (heq ▸ hcurrent)

theorem advance (h : f.Embeds s s') (hcurrent : s'.current.kind ≠ .eof) :
    f.Embeds s.advance s'.advance where
  stream := h.stream.advance (ahead_ne_nil hcurrent)
  tree := h.tree
  kinds_eq := h.kinds_eq

/-- At the boundary the two runs may see different lines. -/
theorem behind {limit : Nat} (hlimit : 1 ≤ limit) (h : f.Embeds s s')
    (hcurrent : s'.current.kind ≠ .eof) :
    Behind limit s.current s'.current s.advance s'.advance := by
  have hnext := h.advance hcurrent
  by_cases hahead : s'.advance.stream.ahead = []
  · exact .inr ⟨hlimit, hnext.stream.isStop hahead⟩
  · have heq : s.advance.current = s'.advance.current := hnext.stream.current_eq hahead
    rw [Behind, heq, h.current_eq hcurrent]
    exact .inl Iff.rfl

theorem diagnose (h : f.Embeds s s') {d d' : Diagnostic} (hd : d.kind = d'.kind) :
    f.Embeds (s.diagnose d) (s'.diagnose d') where
  stream := h.stream
  tree := h.tree
  kinds_eq := by
    have hkinds (s : State) (d : Diagnostic) : (s.diagnose d).kinds = s.kinds ++ [d.kind] := by
      show (s.diagnostics.push d).toList.map Diagnostic.kind = _
      rw [Array.toList_push, List.map_append]
      rfl
    rw [hkinds, hkinds, h.kinds_eq, hd, List.append_assoc]

theorem add (h : f.Embeds s s') {k k' : Node.Kind} {line line' : Nat}
    (hk : k = k'.renumber (· + f.base.height)) (hline : line = line') :
    f.Embeds (s.add k line).2 (s'.add k' line').2 := by
  subst hk hline
  exact ⟨h.stream, h.tree.add _ _, h.kinds_eq⟩

theorem pushItem (h : f.Embeds s s') (id : Nat) :
    f.Embeds (s.pushItem (id + f.base.height)) (s'.pushItem id) :=
  ⟨h.stream, h.tree.pushItem id, h.kinds_eq⟩

/-- The labels directly ahead are the same, and so is what stands behind them, for none of
them reaches up to the boundary. -/
theorem pastLabels (hs : f.Embeds s s') (hmore : f.rest ≠ [] → s'.stream.ahead ≠ []) :
    s.labels = s'.labels ∧ f.Embeds s.pastLabels s'.pastLabels := by
  have hahead : s.stream.ahead = s'.labels ++ (s'.pastLabels.stream.ahead ++ f.rest) := by
    rw [hs.stream.ahead_eq, ← List.append_assoc, ← s'.ahead_eq_labels]
  have hinside : ∀ t ∈ s'.labels, (t.kind == .label) = true := by
    intro t ht
    exact beq_iff_eq.2 (s'.kind_of_mem_labels t ht)
  have hboundary :
      ∀ t ∈ (s'.pastLabels.stream.ahead ++ f.rest).head?, (t.kind == .label) = false := by
    intro t ht
    by_cases hpast : s'.pastLabels.stream.ahead = []
    · by_cases hrest : f.rest = []
      · rw [hpast, hrest] at ht
        cases ht
      · have hall := s'.ahead_eq_labels
        rw [hpast, List.append_nil] at hall
        have hlast := List.dropLast_append_getLast (hmore hrest)
        have hmem : s'.stream.ahead.getLast (hmore hrest) ∈ s'.labels :=
          hall ▸ List.getLast_mem (hmore hrest)
        exact absurd (s'.kind_of_mem_labels _ hmem) (hs.stream.closed hrest _ _ hlast.symm).1
    · rw [List.head?_append_of_ne_nil _ hpast] at ht
      exact head?_dropWhile_eq_false (fun t : Token => t.kind == .label) _ ht
  constructor
  · rw [State.labels, hahead]
    exact takeWhile_append_of_boundary hinside hboundary
  · refine ⟨hs.stream.of_suffix s'.labels ?_ s'.ahead_eq_labels, hs.tree, hs.kinds_eq⟩
    rw [State.pastLabels, hahead]
    exact dropWhile_append_of_boundary hinside hboundary

/-- Behind a label or a colon of the shorter run, the boundary has not been reached. -/
theorem ahead_advance_ne_nil (hs : f.Embeds s s')
    (hjoins : s'.current.kind = .label ∨ s'.current.kind = .colon) (hrest : f.rest ≠ []) :
    s'.advance.stream.ahead ≠ [] := by
  intro hnil
  have hcurrent : s'.current.kind ≠ .eof := by
    rcases hjoins with h | h
    · rw [h]
      decide
    · rw [h]
      decide
  have hahead := State.ahead_eq_cons hcurrent
  rw [hnil] at hahead
  obtain ⟨hlabel, hcolon⟩ := hs.stream.closed hrest [] s'.current hahead
  rcases hjoins with h | h
  · exact hlabel h
  · exact hcolon h

/-- Labels behind a label or a colon end in front of the boundary. -/
theorem labels (hs : f.Embeds s s')
    (hjoins : s'.current.kind = .label ∨ s'.current.kind = .colon) :
    List.Forall₂ Eq s.advance.labels s'.advance.labels ∧
      f.Embeds s.advance.pastLabels s'.advance.pastLabels := by
  have hcurrent : s'.current.kind ≠ .eof := by
    rcases hjoins with h | h
    · rw [h]
      decide
    · rw [h]
      decide
  obtain ⟨hlabels, hpast⟩ := (hs.advance hcurrent).pastLabels (hs.ahead_advance_ne_nil hjoins)
  rw [hlabels]
  exact ⟨List.forall₂_same.2 fun _ _ => rfl, hpast⟩

end Embeds

/-- The two runs go the same way, with the nodes of the longer one moved up. -/
def simulation (f : Frame) {limit : Nat} (hlimit : 1 ≤ limit) : Simulation limit where
  Related := f.Embeds
  Tokens := Eq
  Places _ _ := True
  Lines := Eq
  shift := f.base.height
  kind_eq := congrArg Token.kind
  text_eq := congrArg Token.text
  place _ := trivial
  line := congrArg Token.line
  current := Embeds.current_eq
  stop := Embeds.isStop
  currentPlace _ := trivial
  advance := Embeds.advance
  behind := Embeds.behind hlimit
  labels := Embeds.labels
  diagnose h hkind _ := h.diagnose hkind
  add h hk hline := h.add hk hline
  size h := ⟨h.tree.size_eq, h.tree.rooted_top.size_pos⟩
  pushItem h _ := h.pushItem _
  lineOf h hpos := h.tree.line_eq hpos

end Frame

end Asm6502.Parser
