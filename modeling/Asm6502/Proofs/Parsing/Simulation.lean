import Asm6502.Proofs.Parsing.ProgramSoundness
import Asm6502.Proofs.Tree.Terms

/-!
# Runs that go the same way

To say that something plays no part in reading, two runs are compared, one with it and one
without.  What is to be shown is always the same: the runs take the same decisions, so they
pass tokens that belong together, build nodes that belong together, and report problems
that belong together.

A `Simulation` says what belongs together, and that the single steps of a parser keep it:
passing a token, adding a node, reporting a problem.  It has to answer for the few
questions that a parser asks, too: what kind of token is ahead, and whether it stands on
the line of the one in front.  From that, all parsers are shown to end alike, once for all
simulations.

Two runs need not see the same token at the end.  One may be over where the other one goes
on with a label.  Both are stops: nothing that reads a statement ever asks whether a token
is one or the other, and nothing passes it.

## Main results

* `alike_bind` — runs that end alike go on to end alike.
* `alike_expression`, `alike_operand` — expressions are read alike.
* `alike_item` — so are the items of code blocks.
-/

namespace Asm6502.Parser

/-- Behind `token` its line ends in both runs, or in none, or nothing can start there. -/
def Behind (limit : Nat) (token token' : Token) (s s' : State) : Prop :=
  (s.current.line = token.line ↔ s'.current.line = token'.line) ∨
    1 ≤ limit ∧ IsStop s.current.kind ∧ IsStop s'.current.kind

/-- Two runs whose states belong together, whatever is read next. -/
structure Simulation (limit : Nat) where
  Related : State → State → Prop
  /-- Tokens that belong together, and likewise places and lines. -/
  Tokens : Token → Token → Prop
  Places : Position → Position → Prop
  Lines : Nat → Nat → Prop
  /-- How far the numbers of nodes are moved up in the first run. -/
  shift : Nat
  kind_eq {t t' : Token} : Tokens t t' → t.kind = t'.kind
  text_eq {t t' : Token} : Tokens t t' → t.text = t'.text
  place {t t' : Token} : Tokens t t' → Places t.position t'.position
  line {t t' : Token} : Tokens t t' → Lines t.line t'.line
  current {s s' : State} : Related s s' → s'.current.kind ≠ .eof → Tokens s.current s'.current
  /-- Where the second run is over, the first one sees a stop. -/
  stop {s s' : State} : Related s s' → s'.current.kind = .eof → IsStop s.current.kind
  currentPlace {s s' : State} : Related s s' → Places s.current.position s'.current.position
  advance {s s' : State} : Related s s' → s'.current.kind ≠ .eof → Related s.advance s'.advance
  behind {s s' : State} : Related s s' → s'.current.kind ≠ .eof →
    Behind limit s.current s'.current s.advance s'.advance
  /-- The labels of a section are the same in both runs. -/
  labels {s s' : State} : Related s s' → s'.current.kind = .label ∨ s'.current.kind = .colon →
    List.Forall₂ Tokens s.advance.labels s'.advance.labels ∧
      Related s.advance.pastLabels s'.advance.pastLabels
  diagnose {s s' : State} {d d' : Diagnostic} : Related s s' → d.kind = d'.kind →
    Places d.position d'.position → Related (s.diagnose d) (s'.diagnose d')
  add {s s' : State} {k k' : Node.Kind} {line line' : Nat} : Related s s' →
    k = k'.renumber (· + shift) → Lines line line' →
      Related (s.add k line).2 (s'.add k' line').2
  size {s s' : State} : Related s s' → s.tree.size = s'.tree.size + shift ∧ 0 < s'.tree.size
  pushItem {s s' : State} {id : Nat} : Related s s' → 0 < id →
    Related (s.pushItem (id + shift)) (s'.pushItem id)
  lineOf {s s' : State} {id : Nat} : Related s s' → 0 < id →
    Lines (s.tree.line (id + shift)) (s'.tree.line id)

namespace Simulation

variable {limit : Nat} {S : Simulation limit} {s s' : State}

/-! ## Nodes -/

/-- The nodes of the two runs that belong together. -/
def Same (S : Simulation limit) (id id' : Nat) : Prop := id = id' + S.shift ∧ 0 < id'

def SameIfAny (S : Simulation limit) (id? id'? : Option Nat) : Prop :=
  id? = id'?.map (· + S.shift) ∧ ∀ id' ∈ id'?, 0 < id'

def SameList (S : Simulation limit) (ids ids' : List Nat) : Prop :=
  ids = ids'.map (· + S.shift) ∧ ∀ id' ∈ ids', 0 < id'

theorem sameIfAny_none (S : Simulation limit) : S.SameIfAny none none :=
  ⟨rfl, fun _ h => by cases h⟩

theorem sameIfAny_some {id id' : Nat} (h : S.Same id id') : S.SameIfAny (some id) (some id') := by
  refine ⟨congrArg some h.1, ?_⟩
  intro i hi
  cases hi
  exact h.2

theorem SameList.cons {id id' : Nat} {ids ids' : List Nat} (hids : S.SameList ids ids')
    (h : S.Same id id') : S.SameList (id :: ids) (id' :: ids') := by
  obtain ⟨rfl, hid⟩ := h
  obtain ⟨rfl, hpos⟩ := hids
  refine ⟨rfl, ?_⟩
  intro i hi
  rcases List.mem_cons.1 hi with rfl | hi
  · exact hid
  · exact hpos i hi

theorem sameList_nil (S : Simulation limit) : S.SameList [] [] := ⟨rfl, fun _ h => by cases h⟩

theorem SameList.reverse {ids ids' : List Nat} (h : S.SameList ids ids') :
    S.SameList ids.reverse ids'.reverse := by
  obtain ⟨rfl, hpos⟩ := h
  refine ⟨List.map_reverse.symm, ?_⟩
  intro i hi
  exact hpos i (List.mem_reverse.1 hi)

/-- Answers that belong together are there in both runs or in none. -/
theorem SameIfAny.cases {id? id'? : Option Nat} (h : S.SameIfAny id? id'?) :
    id? = none ∧ id'? = none ∨ ∃ id id', id? = some id ∧ id'? = some id' ∧ S.Same id id' := by
  obtain ⟨rfl, hpos⟩ := h
  cases id'? with
  | none => exact .inl ⟨rfl, rfl⟩
  | some id => exact .inr ⟨_, id, rfl, rfl, rfl, hpos id rfl⟩

theorem SameList.append_toList {ids ids' : List NodeId} {found found' : Option NodeId}
    (hids : S.SameList ids ids') (h : S.SameIfAny found found') :
    S.SameList (found.toList ++ ids) (found'.toList ++ ids') := by
  rcases h.cases with ⟨rfl, rfl⟩ | ⟨id, id', rfl, rfl, hid⟩
  · exact hids
  · exact hids.cons hid

/-! ## The token ahead -/

/-- The two runs see tokens that belong together, or both see a stop. -/
theorem current_cases (hs : S.Related s s') :
    S.Tokens s.current s'.current ∨ IsStop s.current.kind ∧ IsStop s'.current.kind := by
  by_cases hcurrent : s'.current.kind = .eof
  · exact .inr ⟨S.stop hs hcurrent, .inl hcurrent⟩
  · exact .inl (S.current hs hcurrent)

/-- A table that knows neither of the stops answers the same in both runs. -/
theorem lookup_eq {α : Type} (hs : S.Related s s') (table : Token.Kind → α)
    (hstop : table .label = table .eof) : table s.current.kind = table s'.current.kind := by
  have hvalue {k : Token.Kind} (hk : IsStop k) : table k = table .eof := by
    rcases hk with rfl | rfl
    · rfl
    · exact hstop
  rcases current_cases hs with htokens | ⟨h, h'⟩
  · rw [S.kind_eq htokens]
  · rw [hvalue h, hvalue h']

/-- The two runs answer alike when asked for a kind that is no stop. -/
theorem kind_eq_iff (hs : S.Related s s') {k : Token.Kind} (heof : k ≠ .eof)
    (hlabel : k ≠ .label) : s.current.kind = k ↔ s'.current.kind = k := by
  have hsame := lookup_eq hs (fun kind => decide (kind = k)) (by simp [heof.symm, hlabel.symm])
  exact decide_eq_decide.1 hsame

/-! ## Steps -/

theorem add_same (hs : S.Related s s') {k k' : Node.Kind} {line line' : Nat}
    (hk : k = k'.renumber (· + S.shift)) (hline : S.Lines line line') :
    S.Related (s.add k line).2 (s'.add k' line').2 ∧
      S.Same (s.add k line).1 (s'.add k' line').1 := ⟨S.add hs hk hline, S.size hs⟩

theorem line_same (hs : S.Related s s') {id id' : Nat} (hid : S.Same id id') :
    S.Lines (s.tree.line id) (s'.tree.line id') := by
  obtain ⟨rfl, hpos⟩ := hid
  exact S.lineOf hs hpos

theorem pushItem_same (hs : S.Related s s') {id id' : Nat} (hid : S.Same id id') :
    S.Related (s.pushItem id) (s'.pushItem id') := by
  obtain ⟨rfl, hpos⟩ := hid
  exact S.pushItem hs hpos

/-- Cell by cell, ordered lists are built alike. -/
theorem addList_same (hs : S.Related s s') {ids ids' : List NodeId} (hids : S.SameList ids ids') :
    S.Related (s.addList ids).2 (s'.addList ids').2 ∧
      S.SameIfAny (s.addList ids).1 (s'.addList ids').1 := by
  obtain ⟨rfl, hpos⟩ := hids
  induction ids' with
  | nil => exact ⟨hs, sameIfAny_none S⟩
  | cons id ids ih =>
      obtain ⟨ht, hnext⟩ := ih fun i hi => hpos i (List.mem_cons_of_mem _ hi)
      have hline := S.lineOf ht (hpos id List.mem_cons_self)
      have hk : Node.Kind.list (id + S.shift) (s.addList (ids.map (· + S.shift))).1 =
          (Node.Kind.list id (s'.addList ids).1).renumber (· + S.shift) :=
        congrArg (Node.Kind.list (id + S.shift)) hnext.1
      obtain ⟨hcell, hid⟩ := add_same ht hk hline
      exact ⟨hcell, sameIfAny_some hid⟩

/-! ## Results -/

/-- Reasons to fail that belong together. -/
def Fails (S : Simulation limit) (e e' : Failure) : Prop :=
  e.kind = e'.kind ∧ S.Places e.position e'.position

/-- Two runs end alike: both answer, and the answers belong together, or both fail, for
reasons that belong together. -/
inductive Agrees (S : Simulation limit) {α β : Type} (rel : α → β → Prop) :
    Result α → Result β → Prop where
  | ok {a : α} {b : β} {s s' : State} (hvalue : rel a b) (hstate : S.Related s s') :
      S.Agrees rel (.ok a s) (.ok b s')
  | error {e e' : Failure} {s s' : State} (hfails : S.Fails e e') (hstate : S.Related s s') :
      S.Agrees rel (.error e s) (.error e' s')

/-- Started in two states, the two parsers end alike. -/
def Alike (S : Simulation limit) {α β : Type} (rel : α → β → Prop) (p : Parser α)
    (q : Parser β) (s s' : State) : Prop := S.Agrees rel (p s) (q s')

section Steps

variable {α β γ δ : Type} {rel : α → β → Prop} {rel' : γ → δ → Prop}

theorem alike_pure {a : α} {b : β} (hvalue : rel a b) (hs : S.Related s s') :
    S.Alike rel (pure a) (pure b) s s' := .ok hvalue hs

theorem alike_throw {e e' : Failure} (hfails : S.Fails e e') (hs : S.Related s s') :
    S.Alike rel (throw e) (throw e') s s' := .error hfails hs

/-- Runs that end alike go on to end alike. -/
theorem alike_bind {p : Parser α} {q : Parser β} {g : α → Parser γ} {h : β → Parser δ}
    (hp : S.Alike rel p q s s')
    (hg : ∀ a b t t', rel a b → S.Related t t' → S.Alike rel' (g a) (h b) t t') :
    S.Alike rel' (p >>= g) (q >>= h) s s' := by
  unfold Alike at hp ⊢
  simp only [bind, EStateM.bind]
  generalize p s = r at hp ⊢
  generalize q s' = r' at hp ⊢
  cases hp with
  | ok hvalue hstate => exact hg _ _ _ _ hvalue hstate
  | error hfails hstate => exact .error hfails hstate

@[simp] theorem alike_current (g : Token → Parser α) (h : Token → Parser β) :
    S.Alike rel (Parser.current >>= g) (Parser.current >>= h) s s' ↔
      S.Alike rel (g s.current) (h s'.current) s s' := Iff.rfl

@[simp] theorem alike_advance (g : Unit → Parser α) (h : Unit → Parser β) :
    S.Alike rel (Parser.advance >>= g) (Parser.advance >>= h) s s' ↔
      S.Alike rel (g ()) (h ()) s.advance s'.advance := Iff.rfl

@[simp] theorem alike_ahead (g h : List Token → Parser α) {rel : α → α → Prop} :
    S.Alike rel (ahead >>= g) (ahead >>= h) s s' ↔
      S.Alike rel (g s.stream.ahead) (h s'.stream.ahead) s s' := Iff.rfl

@[simp] theorem alike_lineOf (id id' : NodeId) (g h : Nat → Parser α) {rel : α → α → Prop} :
    S.Alike rel (Parser.lineOf id >>= g) (Parser.lineOf id' >>= h) s s' ↔
      S.Alike rel (g (s.tree.line id)) (h (s'.tree.line id')) s s' := Iff.rfl

theorem alike_add (hs : S.Related s s') {k k' : Node.Kind} {line line' : Nat}
    (hk : k = k'.renumber (· + S.shift)) (hline : S.Lines line line') :
    S.Alike S.Same (Parser.add k line) (Parser.add k' line') s s' :=
  .ok (add_same hs hk hline).2 (add_same hs hk hline).1

/-- A node that is the answer. -/
theorem alike_add_some (hs : S.Related s s') {k k' : Node.Kind} {line line' : Nat}
    (hk : k = k'.renumber (· + S.shift)) (hline : S.Lines line line') :
    S.Alike S.SameIfAny (Parser.add k line >>= fun id => pure (some id))
      (Parser.add k' line' >>= fun id => pure (some id)) s s' := by
  refine alike_bind (alike_add hs hk hline) ?_
  intro id id' t t' hid ht
  exact alike_pure (sameIfAny_some hid) ht

theorem alike_ite {c c' : Prop} [Decidable c] [Decidable c'] {p q : Parser α} {p' q' : Parser β}
    (hc : c ↔ c') (hpos : c' → S.Alike rel p p' s s') (hneg : ¬ c' → S.Alike rel q q' s s') :
    S.Alike rel (if c then p else q) (if c' then p' else q') s s' := by
  by_cases h : c'
  · rw [if_pos (hc.2 h), if_pos h]
    exact hpos h
  · rw [if_neg fun h' => h (hc.1 h'), if_neg h]
    exact hneg h

theorem alike_expect (hs : S.Related s s') {k : Token.Kind} (heof : k ≠ .eof)
    (hlabel : k ≠ .label) : S.Alike S.Tokens (expect k) (expect k) s s' := by
  unfold expect
  rw [alike_current]
  refine alike_ite (kind_eq_iff hs heof hlabel) ?_ ?_
  · intro hk
    have hcurrent : s'.current.kind ≠ .eof := hk ▸ heof
    exact alike_pure (S.current hs hcurrent) (S.advance hs hcurrent)
  · intro _
    exact alike_throw ⟨rfl, S.currentPlace hs⟩ hs

end Steps

/-! ## Expressions -/

theorem alike_required {E : Parser (Option NodeId)} (after after' : Token)
    (h : S.Alike S.SameIfAny E E s s') :
    S.Alike S.Same (required E after) (required E after') s s' := by
  unfold required
  refine alike_bind h ?_
  intro answer answer' t t' ha ht
  rcases ha.cases with ⟨rfl, rfl⟩ | ⟨id, id', rfl, rfl, hid⟩
  · exact alike_throw ⟨rfl, S.currentPlace ht⟩ ht
  · exact alike_pure hid ht

section Levels

variable {E : Parser (Option NodeId)}

/-- A node for the current token. -/
theorem alike_leaf (hs : S.Related s s') (hcurrent : s'.current.kind ≠ .eof) {k k' : Node.Kind}
    (hk : k = k'.renumber (· + S.shift)) : S.Alike S.SameIfAny (leaf k) (leaf k') s s' := by
  unfold leaf
  rw [alike_current, alike_advance]
  exact alike_add_some (S.advance hs hcurrent) hk (S.line (S.current hs hcurrent))

theorem alike_signed (hE : ∀ s s', S.Related s s' → S.Alike S.SameIfAny E E s s')
    (hs : S.Related s s') (hcurrent : s'.current.kind ≠ .eof) (w : Wrapper) :
    S.Alike S.SameIfAny (signed E w) (signed E w) s s' := by
  unfold signed
  rw [alike_current, alike_advance]
  refine alike_bind (alike_required _ _ (hE _ _ (S.advance hs hcurrent))) ?_
  intro child child' t t' hchild ht
  exact alike_add_some ht (congrArg (Node.Kind.wrap w) hchild.1) (S.line (S.current hs hcurrent))

theorem alike_parenthesised (hE : ∀ s s', S.Related s s' → S.Alike S.SameIfAny E E s s')
    (hs : S.Related s s') (hcurrent : s'.current.kind ≠ .eof) :
    S.Alike S.SameIfAny (parenthesised E) (parenthesised E) s s' := by
  unfold parenthesised
  rw [alike_current, alike_advance]
  refine alike_bind (alike_required _ _ (hE _ _ (S.advance hs hcurrent))) ?_
  intro child child' t t' hchild ht
  refine alike_bind (alike_expect ht (by decide) (by decide)) ?_
  intro _ _ u u' _ hu
  exact alike_add_some hu (congrArg (Node.Kind.wrap .indirect) hchild.1)
    (S.line (S.current hs hcurrent))

theorem alike_primary (hE : ∀ s s', S.Related s s' → S.Alike S.SameIfAny E E s s')
    (hs : S.Related s s') : S.Alike S.SameIfAny (primary E) (primary E) s s' := by
  by_cases hcurrent : s'.current.kind = .eof
  · rw [Alike, primary_of_isStop (S.stop hs hcurrent), primary_of_isStop (.inl hcurrent)]
    exact .ok (sameIfAny_none S) hs
  · have htokens := S.current hs hcurrent
    unfold primary
    rw [alike_current, S.kind_eq htokens, S.text_eq htokens]
    cases s'.current.kind with
    | name => exact alike_leaf hs hcurrent rfl
    | hexConst | binConst | decConst => exact alike_leaf hs hcurrent rfl
    | hash => exact alike_signed hE hs hcurrent .immediate
    | less => exact alike_signed hE hs hcurrent .loByte
    | greater => exact alike_signed hE hs hcurrent .hiByte
    | parenLeft => exact alike_parenthesised hE hs hcurrent
    | _ => exact alike_pure (sameIfAny_none S) hs

end Levels

/-- Link by link, chains grow alike. -/
theorem alike_sumRound {E : Parser (Option NodeId)}
    (hE : ∀ s s', S.Related s s' → S.Alike S.SameIfAny E E s s') (x x' : NodeId × State)
    (hx : S.Same x.1 x'.1 ∧ S.Related x.2 x'.2) :
    Sum.LiftRel (fun x x' => S.Same x.1 x'.1 ∧ S.Related x.2 x'.2) (S.Agrees S.Same)
      (sumRound E x) (sumRound E x') := by
  obtain ⟨hleft, hs⟩ := hx
  unfold sumRound
  rw [lookup_eq hs sumOperator? rfl]
  cases hoperator : sumOperator? x'.2.current.kind with
  | none => exact .inr (.ok hleft hs)
  | some operator =>
      have hcurrent := ne_eof_of_eq_some hoperator rfl
      have hright := alike_required x.2.current x'.2.current
        (alike_primary hE (S.advance hs hcurrent))
      unfold Alike at hright
      dsimp only
      generalize required (primary E) x.2.current x.2.advance = r at hright ⊢
      generalize required (primary E) x'.2.current x'.2.advance = r' at hright ⊢
      cases hright with
      | error hfails hstate => exact .inr (.error hfails hstate)
      | @ok right right' t t' hright ht =>
          have hsum : Node.Kind.sum operator x.1 right =
              (Node.Kind.sum operator x'.1 right').renumber (· + S.shift) := by
            rw [hleft.1, hright.1]
            rfl
          have hadd := add_same ht hsum (line_same ht hleft)
          exact .inl ⟨hadd.2, hadd.1⟩

/-- Expressions are read alike. -/
theorem alike_expression (levels : Nat) (hs : S.Related s s') :
    S.Alike S.SameIfAny (expression limit levels) (expression limit levels) s s' := by
  induction levels generalizing s s' with
  | zero => exact .error ⟨rfl, S.currentPlace hs⟩ hs
  | succ levels ih =>
      show S.Alike S.SameIfAny (sum (expression limit levels)) (sum (expression limit levels)) s s'
      unfold sum
      refine alike_bind (alike_primary (fun _ _ h => ih h) hs) ?_
      intro answer answer' t t' ha ht
      rcases ha.cases with ⟨rfl, rfl⟩ | ⟨left, left', rfl, rfl, hleft⟩
      · exact alike_pure (sameIfAny_none S) ht
      · -- Each run has a bound of its own, and neither plays a part.
        obtain ⟨_, _, h⟩ := sumRest_rounds limit levels left (Nat.le_refl t.remaining)
        obtain ⟨_, _, h'⟩ := sumRest_rounds limit levels left' (Nat.le_refl t'.remaining)
        have hchain : S.Alike S.Same (sumRest (expression limit levels) t.stream.ahead left)
            (sumRest (expression limit levels) t'.stream.ahead left') t t' :=
          h.alike _ _ h' ⟨hleft, ht⟩ (alike_sumRound fun _ _ h => ih h)
        dsimp only
        rw [alike_ahead]
        refine alike_bind hchain ?_
        intro id id' u u' hid hu
        exact alike_pure (sameIfAny_some hid) hu

/-! ## Operands -/

theorem alike_operand (hs : S.Related s s') :
    S.Alike S.SameIfAny (operand limit) (operand limit) s s' := by
  unfold operand
  refine alike_bind (alike_expression limit hs) ?_
  intro answer answer' t t' ha ht
  rcases ha.cases with ⟨rfl, rfl⟩ | ⟨id, id', rfl, rfl, hid⟩
  · exact alike_pure (sameIfAny_none S) ht
  · dsimp only
    rw [alike_current]
    refine alike_ite (kind_eq_iff ht (by decide) (by decide)) ?_ ?_
    · intro hcomma
      have hbehind := S.advance ht (by rw [hcomma]; decide)
      rw [alike_advance, alike_current, lookup_eq hbehind indexWrapper? rfl]
      cases hregister : indexWrapper? t'.advance.current.kind with
      | none => exact alike_throw ⟨rfl, S.currentPlace hbehind⟩ hbehind
      | some wrapper =>
          have hlast := S.advance hbehind (ne_eof_of_eq_some hregister rfl)
          dsimp only
          rw [alike_advance, alike_lineOf]
          exact alike_add_some hlast (congrArg (Node.Kind.wrap wrapper) hid.1) (line_same hlast hid)
    · intro _
      exact alike_pure (sameIfAny_some hid) ht

/-- What may only start on the line of the token in front.  At a stop the two runs may
answer differently whether the line goes on; either way, nothing starts there. -/
theorem alike_sameLine {p : Parser (Option NodeId)} {token token' : Token}
    (hs : S.Related s s') (hbehind : Behind limit token token' s s')
    (hp : S.Alike S.SameIfAny p p s s')
    (hstop : 1 ≤ limit → ∀ u : State, IsStop u.current.kind → p u = .ok none u) :
    S.Alike S.SameIfAny (if s.current.line = token.line then p else pure none)
      (if s'.current.line = token'.line then p else pure none) s s' := by
  rcases hbehind with hline | ⟨hlimit, h, h'⟩
  · refine alike_ite hline ?_ ?_
    · intro _
      exact hp
    · intro _
      exact alike_pure (sameIfAny_none S) hs
  · have hnone (line : Nat) {u : State} (hu : IsStop u.current.kind) :
        (if u.current.line = line then p else pure none) u = .ok none u := by
      by_cases hline : u.current.line = line
      · rw [if_pos hline]
        exact hstop hlimit u hu
      · rw [if_neg hline]
        rfl
    rw [Alike, hnone _ h, hnone _ h']
    exact .ok (sameIfAny_none S) hs

theorem alike_onLineOf {token token' : Token} (hs : S.Related s s')
    (hbehind : Behind limit token token' s s') :
    S.Alike S.SameIfAny (operandOf.onLineOf limit token) (operandOf.onLineOf limit token')
      s s' := by
  unfold operandOf.onLineOf
  rw [alike_current]
  exact alike_sameLine hs hbehind (alike_operand hs) fun hlimit u => operand_of_isStop hlimit

/-! ## Items -/

theorem alike_operandOf {token token' : Token} (htokens : S.Tokens token token')
    (c : OperandClass) (hs : S.Related s s') (hbehind : Behind limit token token' s s') :
    S.Alike S.SameIfAny (operandOf limit token c) (operandOf limit token' c) s s' := by
  cases c with
  | implied => exact alike_pure (sameIfAny_none S) hs
  | memory =>
      simp only [operandOf]
      refine alike_bind (alike_onLineOf hs hbehind) ?_
      intro answer answer' t t' ha ht
      rcases ha.cases with ⟨rfl, rfl⟩ | ⟨id, id', rfl, rfl, hid⟩
      · exact alike_pure (sameIfAny_none S) (S.diagnose ht rfl (S.place htokens))
      · exact alike_pure (sameIfAny_some hid) ht
  | accumulator => exact alike_onLineOf hs hbehind
  | target =>
      simp only [operandOf]
      refine alike_bind (alike_expect hs (by decide) (by decide)) ?_
      intro target target' t t' htarget ht
      rw [S.text_eq htarget]
      exact alike_add_some ht rfl (S.line htarget)

theorem alike_instruction (m : Mnemonic) (hs : S.Related s s') (hcurrent : s'.current.kind ≠ .eof) :
    S.Alike S.SameIfAny (instruction limit m) (instruction limit m) s s' := by
  have htokens := S.current hs hcurrent
  unfold instruction
  rw [alike_current, alike_advance]
  refine alike_bind
    (alike_operandOf htokens _ (S.advance hs hcurrent) (S.behind hs hcurrent)) ?_
  intro operand operand' t t' hoperand ht
  exact alike_add_some ht (congrArg (Node.Kind.instruction m) hoperand.1) (S.line htokens)

/-- Comma by comma, data lists grow alike. -/
theorem alike_dataRound (x x' : List NodeId × State)
    (hx : S.SameList x.1 x'.1 ∧ S.Related x.2 x'.2) :
    Sum.LiftRel (fun x x' => S.SameList x.1 x'.1 ∧ S.Related x.2 x'.2) (S.Agrees S.SameList)
      (dataRound limit x) (dataRound limit x') := by
  obtain ⟨hdone, hs⟩ := hx
  have hcomma := kind_eq_iff hs (k := .comma) (by decide) (by decide)
  unfold dataRound
  by_cases h : x'.2.current.kind = .comma
  · rw [if_pos (hcomma.2 h), if_pos h]
    have hvalue := alike_expression limit (S.advance hs (by rw [h]; decide))
    unfold Alike at hvalue
    generalize expression limit limit x.2.advance = r at hvalue ⊢
    generalize expression limit limit x'.2.advance = r' at hvalue ⊢
    cases hvalue with
    | error hfails hstate => exact .inr (.error hfails hstate)
    | ok ha ht =>
        rcases ha.cases with ⟨rfl, rfl⟩ | ⟨id, id', rfl, rfl, hid⟩
        · exact .inr (.ok hdone.reverse ht)
        · exact .inl ⟨hdone.cons hid, ht⟩
  · rw [if_neg fun h' => h (hcomma.1 h'), if_neg h]
    exact .inr (.ok hdone.reverse hs)

theorem alike_dataList (hs : S.Related s s') :
    S.Alike S.SameIfAny (dataList limit) (dataList limit) s s' := by
  unfold dataList
  refine alike_bind (alike_expression limit hs) ?_
  intro answer answer' t t' ha ht
  rcases ha.cases with ⟨rfl, rfl⟩ | ⟨id, id', rfl, rfl, hid⟩
  · exact alike_pure (sameIfAny_none S) ht
  · obtain ⟨_, _, h⟩ := dataRest_rounds limit [id] (Nat.le_refl t.remaining)
    obtain ⟨_, _, h'⟩ := dataRest_rounds limit [id'] (Nat.le_refl t'.remaining)
    have hlist : S.Alike S.SameList (dataRest limit t.stream.ahead [id])
        (dataRest limit t'.stream.ahead [id']) t t' :=
      h.alike _ _ h' ⟨(sameList_nil S).cons hid, ht⟩ alike_dataRound
    dsimp only
    rw [alike_ahead]
    refine alike_bind hlist ?_
    intro ids ids' u u' hids hu
    exact .ok (addList_same hu hids).2 (addList_same hu hids).1

theorem dataList_of_isStop (hlimit : 1 ≤ limit) (h : IsStop s.current.kind) :
    dataList limit s = .ok none s := by
  obtain ⟨levels, rfl⟩ := Nat.exists_eq_add_of_le' hlimit
  unfold dataList
  simp only [bind, EStateM.bind, expression_of_isStop (levels + 1) levels h]
  rfl

theorem ite_bind_bind {α β : Type} {c : Prop} [Decidable c] (p q : Parser α) (g : α → Parser β) :
    (if c then p >>= g else q >>= g) = (if c then p else q) >>= g := by
  by_cases hc : c
  · rw [if_pos hc, if_pos hc]
  · rw [if_neg hc, if_neg hc]

theorem alike_data (width : DataWidth) (hs : S.Related s s') (hcurrent : s'.current.kind ≠ .eof) :
    S.Alike S.SameIfAny (data limit width) (data limit width) s s' := by
  have htokens := S.current hs hcurrent
  have hbehind := S.advance hs hcurrent
  unfold data
  rw [alike_current, alike_advance, alike_current]
  dsimp only
  rw [ite_bind_bind, ite_bind_bind]
  refine alike_bind (alike_sameLine hbehind (S.behind hs hcurrent) (alike_dataList hbehind)
    fun hlimit u => dataList_of_isStop hlimit) ?_
  intro values values' t t' hvalues ht
  rcases hvalues.cases with ⟨rfl, rfl⟩ | ⟨head, head', rfl, rfl, hhead⟩
  · exact alike_pure (sameIfAny_none S) (S.diagnose ht rfl (S.place htokens))
  · exact alike_add_some ht (congrArg (Node.Kind.data width) hhead.1) (S.line htokens)

theorem alike_item {item : Parser (Option NodeId)} (h : item? limit s'.current.kind = some item)
    (hs : S.Related s s') : S.Alike S.SameIfAny item item s s' := by
  have hcurrent := ne_eof_of_eq_some h rfl
  unfold item? at h
  split at h
  next m _ =>
    cases h
    exact alike_instruction m hs hcurrent
  next =>
    cases h
    exact alike_data .byte hs hcurrent
  next =>
    cases h
    exact alike_data .word hs hcurrent
  next => cases h

end Simulation

end Asm6502.Parser
