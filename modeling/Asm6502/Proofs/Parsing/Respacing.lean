import Asm6502.Proofs.Lexing.Printing
import Asm6502.Proofs.Parsing.Ownership
import Asm6502.Proofs.Parsing.ProgramSimulation
import Asm6502.SourceUnit
import Mathlib.Data.List.Chain
import Mathlib.Data.List.TakeWhile

/-!
# Where tokens stand

Tokens carry positions, and a reader takes little notice of them.  It asks one thing only:
whether a token stands on the line of the one directly in front.  So the tokens can be moved
about, and as long as the same neighbours share a line, the same tree is built and the same
problems are reported, each at the token it was reported at before.

For a source text that means that blanks, comments and blank lines can be put in and taken
out wherever there are separators, if only lines are broken between the same lexemes.

Two runs are compared (see `Simulation`), one over the tokens here and one over the tokens
there.  They see tokens that differ in their positions only, all the way.

## Main results

* `sameStream_ofTokens` — at the start, the tokens ahead are the same but for their places.
* `respaced_printed` — printing with other separators moves the tokens about.
* `program_respaced` — where tokens stand does not change what is read.
-/

namespace Asm6502

/-! ## Moved tokens -/

namespace TokenStream

/-- A list of tokens with the end that a reader takes it to have. -/
def completed (ts : List Token) : List Token :=
  if ts.getLast?.map Token.kind = some .eof then ts
  else ts ++ [.endAt ((ts.getLast?.map Token.position).getD .start)]

theorem exists_eof_completed (ts : List Token) : ∃ e ∈ completed ts, e.kind = .eof := by
  unfold completed
  split
  next h =>
    obtain ⟨e, he, hkind⟩ := Option.map_eq_some_iff.1 h
    exact ⟨e, List.mem_of_getLast? he, hkind⟩
  next => exact ⟨_, List.mem_append_right _ (List.mem_singleton_self _), rfl⟩

/-- The first end, and what stands in front of it. -/
theorem exists_eq_append_eof {ts : List Token} (h : ∃ e ∈ ts, e.kind = .eof) :
    ∃ front e behind, ts = front ++ e :: behind ∧ (∀ t ∈ front, t.kind ≠ .eof) ∧ e.kind = .eof := by
  induction ts with
  | nil =>
      obtain ⟨_, hmem, _⟩ := h
      cases hmem
  | cons t ts ih =>
      by_cases ht : t.kind = .eof
      · exact ⟨[], t, ts, rfl, List.forall_mem_nil _, ht⟩
      · have hmore : ∃ e ∈ ts, e.kind = .eof := by
          obtain ⟨e, hmem, he⟩ := h
          rcases List.mem_cons.1 hmem with rfl | hmem
          · exact absurd he ht
          · exact ⟨e, hmem, he⟩
        obtain ⟨front, e, behind, rfl, hfront, he⟩ := ih hmore
        refine ⟨t :: front, e, behind, rfl, ?_, he⟩
        intro u hu
        rcases List.mem_cons.1 hu with rfl | hu
        · exact ht
        · exact hfront u hu

theorem ofTokens_completed (ts : List Token) : ofTokens (completed ts) = ofTokens ts := by
  unfold completed
  split
  next => rfl
  next hlast =>
    by_cases h : ∃ e ∈ ts, e.kind = .eof
    · obtain ⟨front, e, behind, rfl, hfront, he⟩ := exists_eq_append_eof h
      rw [List.append_assoc, List.cons_append, ofTokens_append_eof hfront he,
        ofTokens_append_eof hfront he]
    · have hproper : ∀ t ∈ ts, t.kind ≠ .eof := fun t ht hk => h ⟨t, ht, hk⟩
      have hall : ∀ t ∈ ts, isProper t = true := fun t ht => bne_iff_ne.2 (hproper t ht)
      rw [ofTokens_append_eof hproper rfl, ofTokens, List.takeWhile_eq_self_iff.2 hall,
        List.dropWhile_eq_nil_iff.2 hall]
      rfl

theorem ofTokens_eof {t : Token} (ht : t.kind = .eof) (ts : List Token) :
    ofTokens (t :: ts) = ⟨[], t.position⟩ :=
  ofTokens_append_eof (List.forall_mem_nil _) ht

theorem ofTokens_cons {t : Token} {ts : List Token} (ht : t.kind ≠ .eof)
    (h : ∃ e ∈ ts, e.kind = .eof) :
    ofTokens (t :: ts) = ⟨t :: (ofTokens ts).ahead, (ofTokens ts).finish⟩ := by
  obtain ⟨front, e, behind, rfl, hfront, he⟩ := exists_eq_append_eof h
  have hall : ∀ u ∈ t :: front, u.kind ≠ .eof := by
    intro u hu
    rcases List.mem_cons.1 hu with rfl | hu
    · exact ht
    · exact hfront u hu
  rw [ofTokens_append_eof hfront he, ← List.cons_append, ofTokens_append_eof hall he]

theorem line_current_ofTokens {t : Token} {ts : List Token} (h : ∃ e ∈ t :: ts, e.kind = .eof) :
    (ofTokens (t :: ts)).current.line = t.line := by
  by_cases ht : t.kind = .eof
  · rw [ofTokens_eof ht]
    rfl
  · have hmore : ∃ e ∈ ts, e.kind = .eof := by
      obtain ⟨e, hmem, he⟩ := h
      rcases List.mem_cons.1 hmem with rfl | hmem
      · exact absurd he ht
      · exact ⟨e, hmem, he⟩
    rw [ofTokens_cons ht hmore]
    rfl

end TokenStream

/-- The tokens `us` are the tokens `ts` moved about: the same neighbours share a line. -/
structure Respaced (ts us : List Token) : Prop where
  kinds_eq : ts.map Token.kind = us.map Token.kind
  texts_eq : ts.map Token.text = us.map Token.text
  lines_iff : (ts.zip us).IsChain fun x y => x.1.line = y.1.line ↔ x.2.line = y.2.line

/-- The positions of two tokens with the same index. -/
def SamePlace (ts us : List Token) (p q : Position) : Prop :=
  ∃ (i : Nat) (t u : Token), ts[i]? = some t ∧ us[i]? = some u ∧ t.position = p ∧ u.position = q

/-! ## Trees up to lines -/

namespace Tree

/-- Trees with the same nodes, under the same numbers, but for their lines. -/
structure SameShape (t t' : Tree) : Prop where
  kinds_eq : t.nodes.map Node.kind = t'.nodes.map Node.kind
  parents_eq : t.parents = t'.parents

variable {t t' : Tree}

namespace SameShape

theorem size_eq (h : t.SameShape t') : t.size = t'.size := by
  have hsize := congrArg Array.size h.kinds_eq
  rwa [Array.size_map, Array.size_map] at hsize

theorem setParent (h : t.SameShape t') (id : NodeId) (p : Option NodeId) :
    (t.setParent id p).SameShape (t'.setParent id p) where
  kinds_eq := h.kinds_eq
  parents_eq := congrArg (fun parents => parents.setIfInBounds id p) h.parents_eq

theorem foldl_setParent (h : t.SameShape t') (ids : List NodeId) (p : Option NodeId) :
    (ids.foldl (fun t id => t.setParent id p) t).SameShape
      (ids.foldl (fun t id => t.setParent id p) t') := by
  induction ids generalizing t t' with
  | nil => exact h
  | cons id ids ih => exact ih (h.setParent id p)

theorem add (h : t.SameShape t') (k : Node.Kind) (line line' : Nat) :
    (t.add k line).2.SameShape (t'.add k line').2 where
  kinds_eq := by
    rw [nodes_add, nodes_add, Array.map_push, Array.map_push, h.kinds_eq]
  parents_eq := by
    have hlinked := h.foldl_setParent k.children (some t.size)
    have hparents := congrArg (fun parents => parents.push none) hlinked.parents_eq
    rw [show t.size = t'.nodes.size from h.size_eq] at hparents
    unfold Tree.add
    rw [show t.nodes.size = t'.nodes.size from h.size_eq]
    exact hparents

theorem pushItem (h : t.SameShape t') (id : NodeId) :
    (t.pushItem id).SameShape (t'.pushItem id) where
  kinds_eq := by
    have howned (t : Tree) : (t.pushItem id).nodes.map Node.kind =
        (t.nodes.map Node.kind).modify 0 fun k => k.appendItem id := by
      have hnodes : (t.pushItem id).nodes =
          t.nodes.modify 0 fun n => { n with kind := n.kind.appendItem id } := rfl
      refine Array.ext (by simp [hnodes]) ?_
      intro i hi hi'
      simp only [hnodes, Array.getElem_map, Array.getElem_modify]
      split
      · rfl
      · rfl
    rw [howned, howned, h.kinds_eq]
  parents_eq := congrArg (fun parents => parents.setIfInBounds id (some 0)) h.parents_eq

end SameShape

end Tree

namespace Parser

/-! ## Streams -/

variable {P : Position → Position → Prop}

/-- Tokens that differ in their places only. -/
structure SameToken (P : Position → Position → Prop) (t u : Token) : Prop where
  kind_eq : t.kind = u.kind
  text_eq : t.text = u.text
  place : P t.position u.position

/-- Streams of tokens that differ in their places only, where the same neighbours share a
line. -/
inductive SameStream (P : Position → Position → Prop) : TokenStream → TokenStream → Prop where
  | nil {p q : Position} (hfinish : P p q) : SameStream P ⟨[], p⟩ ⟨[], q⟩
  | cons {t u : Token} {ts us : List Token} {p q : Position} (htoken : SameToken P t u)
      (hline : (TokenStream.mk ts p).current.line = t.line ↔
        (TokenStream.mk us q).current.line = u.line)
      (more : SameStream P ⟨ts, p⟩ ⟨us, q⟩) : SameStream P ⟨t :: ts, p⟩ ⟨u :: us, q⟩

namespace SameStream

variable {x y : TokenStream}

theorem current (h : SameStream P x y) : SameToken P x.current y.current := by
  cases h with
  | nil hfinish => exact ⟨rfl, rfl, hfinish⟩
  | cons htoken => exact htoken

theorem advance (h : SameStream P x y) : SameStream P x.advance y.advance := by
  cases h with
  | nil hfinish => exact .nil hfinish
  | cons _ _ more => exact more

/-- The line ends behind the current token in both or in none. -/
theorem line_iff (h : SameStream P x y) (hcurrent : y.current.kind ≠ .eof) :
    x.advance.current.line = x.current.line ↔ y.advance.current.line = y.current.line := by
  cases h with
  | nil => exact absurd rfl hcurrent
  | cons _ hline => exact hline

/-- The labels that come directly ahead, and what stands behind them. -/
theorem labels {ts us : List Token} {p q : Position} (h : SameStream P ⟨ts, p⟩ ⟨us, q⟩) :
    List.Forall₂ (SameToken P) (ts.takeWhile fun t => t.kind == .label)
        (us.takeWhile fun t => t.kind == .label) ∧
      SameStream P ⟨ts.dropWhile fun t => t.kind == .label, p⟩
        ⟨us.dropWhile fun t => t.kind == .label, q⟩ := by
  induction ts generalizing us with
  | nil =>
      cases h with
      | nil hfinish => exact ⟨.nil, .nil hfinish⟩
  | cons t ts ih =>
      cases h with
      | @cons _ u _ us _ _ htoken hline more =>
          have hkind := htoken.kind_eq
          rw [List.takeWhile_cons, List.takeWhile_cons, List.dropWhile_cons, List.dropWhile_cons,
            hkind]
          by_cases hlabel : (u.kind == .label) = true
          · rw [if_pos hlabel, if_pos hlabel, if_pos hlabel, if_pos hlabel]
            exact ⟨.cons htoken (ih more).1, (ih more).2⟩
          · rw [if_neg hlabel, if_neg hlabel, if_neg hlabel, if_neg hlabel]
            exact ⟨.nil, .cons htoken hline more⟩

end SameStream

theorem exists_eof_of_sameToken {ts us : List Token} (h : List.Forall₂ (SameToken P) ts us)
    (hts : ∃ e ∈ ts, e.kind = .eof) : ∃ e ∈ us, e.kind = .eof := by
  induction h with
  | nil => exact hts
  | @cons t u ts us htoken _ ih =>
      obtain ⟨e, hmem, he⟩ := hts
      rcases List.mem_cons.1 hmem with rfl | hmem
      · exact ⟨u, List.mem_cons_self, htoken.kind_eq ▸ he⟩
      · obtain ⟨e', hmem', he'⟩ := ih ⟨e, hmem, he⟩
        exact ⟨e', List.mem_cons_of_mem _ hmem', he'⟩

theorem sameStream_ofTokens {ts us : List Token} (htokens : List.Forall₂ (SameToken P) ts us)
    (hlines : (ts.zip us).IsChain fun x y => x.1.line = y.1.line ↔ x.2.line = y.2.line)
    (h : ∃ e ∈ ts, e.kind = .eof) :
    SameStream P (TokenStream.ofTokens ts) (TokenStream.ofTokens us) := by
  induction htokens with
  | nil =>
      obtain ⟨_, hmem, _⟩ := h
      cases hmem
  | @cons t u ts us htoken hmore ih =>
      by_cases ht : t.kind = .eof
      · have hu : u.kind = .eof := htoken.kind_eq ▸ ht
        rw [TokenStream.ofTokens_eof ht, TokenStream.ofTokens_eof hu]
        exact .nil htoken.place
      · have hu : u.kind ≠ .eof := htoken.kind_eq ▸ ht
        obtain ⟨e, hmem, he⟩ := h
        have hts : ∃ e ∈ ts, e.kind = .eof :=
          ⟨e, (List.mem_cons.1 hmem).resolve_left fun heq => ht (heq ▸ he), he⟩
        have hus : ∃ e ∈ us, e.kind = .eof := exists_eof_of_sameToken hmore hts
        rw [List.zip_cons_cons, List.isChain_cons] at hlines
        obtain ⟨hnext, hchain⟩ := hlines
        rw [TokenStream.ofTokens_cons ht hts, TokenStream.ofTokens_cons hu hus]
        refine .cons htoken ?_ (ih hchain hts)
        cases hmore with
        | nil =>
            obtain ⟨_, hmem, _⟩ := hts
            cases hmem
        | @cons t' u' ts us =>
            show (TokenStream.ofTokens (t' :: ts)).current.line = t.line ↔
              (TokenStream.ofTokens (u' :: us)).current.line = u.line
            rw [TokenStream.line_current_ofTokens hts, TokenStream.line_current_ofTokens hus,
              eq_comm, hnext (t', u') rfl, eq_comm]

/-! ## States -/

/-- States of two runs over tokens that differ in their places only. -/
structure SameState (P : Position → Position → Prop) (s s' : State) : Prop where
  stream : SameStream P s.stream s'.stream
  shape : s.tree.SameShape s'.tree
  size_pos : 0 < s'.tree.size
  diagnostics : List.Forall₂ (fun d d' => d.kind = d'.kind ∧ P d.position d'.position)
    s.diagnostics.toList s'.diagnostics.toList

namespace SameState

variable {s s' : State} {limit : Nat}

theorem advance (h : SameState P s s') : SameState P s.advance s'.advance :=
  ⟨h.stream.advance, h.shape, h.size_pos, h.diagnostics⟩

theorem labels (h : SameState P s s') :
    List.Forall₂ (SameToken P) s.labels s'.labels ∧ SameState P s.pastLabels s'.pastLabels := by
  obtain ⟨hlabels, hpast⟩ := h.stream.labels
  exact ⟨hlabels, hpast, h.shape, h.size_pos, h.diagnostics⟩

theorem diagnose (h : SameState P s s') {d d' : Diagnostic} (hkind : d.kind = d'.kind)
    (hplace : P d.position d'.position) : SameState P (s.diagnose d) (s'.diagnose d') where
  stream := h.stream
  shape := h.shape
  size_pos := h.size_pos
  diagnostics := by
    show List.Forall₂ _ (s.diagnostics.push d).toList (s'.diagnostics.push d').toList
    rw [Array.toList_push, Array.toList_push]
    exact List.rel_append h.diagnostics (.cons ⟨hkind, hplace⟩ .nil)

theorem add (h : SameState P s s') (k : Node.Kind) (line line' : Nat) :
    SameState P (s.add k line).2 (s'.add k line').2 where
  stream := h.stream
  shape := h.shape.add k line line'
  size_pos := by
    show 0 < (s'.tree.add k line').2.size
    rw [Tree.size_add]
    exact Nat.succ_pos _
  diagnostics := h.diagnostics

theorem pushItem (h : SameState P s s') (id : NodeId) :
    SameState P (s.pushItem id) (s'.pushItem id) where
  stream := h.stream
  shape := h.shape.pushItem id
  size_pos := by
    show 0 < (s'.tree.pushItem id).size
    rw [Tree.size_pushItem]
    exact h.size_pos
  diagnostics := h.diagnostics

end SameState

theorem renumber_zero (k : Node.Kind) : k.renumber (· + 0) = k := by
  cases k with
  | root items => exact congrArg Node.Kind.root (List.map_id items)
  | list item next => cases next <;> rfl
  | label text child type => cases child <;> rfl
  | instruction mnemonic operand => cases operand <;> rfl
  | data | decl | name | const | wrap | sum => rfl

/-- The two runs go the same way, with the nodes under the same numbers. -/
def respacing (P : Position → Position → Prop) (limit : Nat) : Simulation limit where
  Related := SameState P
  Tokens := SameToken P
  Places := P
  Lines _ _ := True
  shift := 0
  kind_eq h := h.kind_eq
  text_eq h := h.text_eq
  place h := h.place
  line _ := trivial
  current h _ := h.stream.current
  stop h hcurrent := .inl (h.stream.current.kind_eq.trans hcurrent)
  currentPlace h := h.stream.current.place
  advance h _ := h.advance
  behind h hcurrent := .inl (h.stream.line_iff hcurrent)
  labels h _ := h.advance.labels
  diagnose h hkind hplace := h.diagnose hkind hplace
  add h hk _ := by
    rw [renumber_zero] at hk
    subst hk
    exact h.add _ _ _
  size h := ⟨h.shape.size_eq, h.size_pos⟩
  pushItem h _ := h.pushItem _
  lineOf _ _ := trivial

/-! ## Programs -/

theorem forall₂_sameToken {ts us : List Token} (h : Respaced ts us) :
    List.Forall₂ (SameToken (SamePlace ts us)) ts us := by
  have hlength : ts.length = us.length := by
    have hlengths := congrArg List.length h.kinds_eq
    rwa [List.length_map, List.length_map] at hlengths
  refine List.forall₂_iff_get.2 ⟨hlength, ?_⟩
  intro i hi hi'
  have hkind : ts[i].kind = us[i].kind := by
    have hkinds := congrArg (fun ks => ks[i]?) h.kinds_eq
    simpa [hi, hi'] using hkinds
  have htext : ts[i].text = us[i].text := by
    have htexts := congrArg (fun texts => texts[i]?) h.texts_eq
    simpa [hi, hi'] using htexts
  exact ⟨hkind, htext, i, ts[i], us[i], List.getElem?_eq_getElem hi, List.getElem?_eq_getElem hi',
    rfl, rfl⟩

/-- Moved tokens are read alike. -/
theorem program_of_respaced (limit : Nat) {ts us : List Token}
    (h : Respaced (TokenStream.completed ts) (TokenStream.completed us)) :
    (program limit ts).tree.SameShape (program limit us).tree ∧
      List.Forall₂ (fun d d' => d.kind = d'.kind ∧
          SamePlace (TokenStream.completed ts) (TokenStream.completed us) d.position d'.position)
        (program limit ts).diagnostics (program limit us).diagnostics := by
  let P := SamePlace (TokenStream.completed ts) (TokenStream.completed us)
  have hstream : SameStream P (TokenStream.ofTokens ts) (TokenStream.ofTokens us) := by
    rw [← TokenStream.ofTokens_completed ts, ← TokenStream.ofTokens_completed us]
    exact sameStream_ofTokens (forall₂_sameToken h) h.lines_iff
      (TokenStream.exists_eof_completed ts)
  have hstart : SameState P (State.start ts) (State.start us) :=
    ⟨hstream, ⟨rfl, rfl⟩, Nat.zero_lt_one, .nil⟩
  obtain ⟨_, s, _, _, hrounds, hprogram, _, _⟩ := program_accounts limit ts
  obtain ⟨_, s', _, _, hrounds', hprogram', _, _⟩ := program_accounts limit us
  have heof (s s' : State) (hs : SameState P s s') (hcurrent : s'.current.kind = .eof) :
      s.current.kind = .eof := hs.stream.current.kind_eq.trans hcurrent
  have hends : SameState P s s' := hrounds.alike (SameState P) (SameState P) hrounds' hstart
    fun s s' hs => Simulation.alike_statementRound (S := respacing P limit) heof s s' hs
  rw [hprogram, hprogram']
  exact ⟨hends.shape, hends.diagnostics⟩

end Parser

/-! ## Source texts -/

namespace Printed

/-- The text that is printed, with `last` behind the last lexeme. -/
def source (xs : List Printed) (last : List Char) : String :=
  String.ofList (xs.flatMap Printed.chars ++ last)

/-- The tokens of a printed text that stands behind the text `before`, and its end. -/
def allTokens (before : List Char) (xs : List Printed) (last : List Char) : List Token :=
  tokens before xs ++ [.endAt (.behind (before ++ (xs.flatMap Printed.chars ++ last)))]

/-- What is printed in front of the first lexeme, or in front of the end. -/
def firstGap (xs : List Printed) (last : List Char) : List Char :=
  (xs.head?.map Printed.gap).getD last

theorem allTokens_cons (before : List Char) (x : Printed) (xs : List Printed) (last : List Char) :
    allTokens before (x :: xs) last =
      ⟨x.kind, String.ofList x.text, .behind (before ++ x.gap)⟩ ::
        allTokens (before ++ x.chars) xs last := by
  simp only [allTokens, tokens, List.flatMap_cons, List.cons_append, List.append_assoc]

theorem exists_allTokens_eq_cons (before : List Char) (xs : List Printed) (last : List Char) :
    ∃ t ts, allTokens before xs last = t :: ts ∧
      t.line = Position.lineBehind (before ++ firstGap xs last) := by
  cases xs with
  | nil => exact ⟨_, _, rfl, rfl⟩
  | cons x xs => exact ⟨_, _, allTokens_cons before x xs last, rfl⟩

theorem gaps_eq_cons (xs : List Printed) (last : List Char) :
    xs.map Printed.gap ++ [last] = firstGap xs last :: (xs.map Printed.gap ++ [last]).tail := by
  cases xs with
  | nil => rfl
  | cons x xs => rfl

end Printed

open Printed (source allTokens firstGap)

/-- Lexemes that can be printed: separators stand between them. -/
structure Prints (d : Dialect) (xs : List Printed) (last : List Char) : Prop where
  spelled : ∀ x ∈ xs, Separator x.gap ∧ Spelled d x.kind x.text
  gaps : ∀ x ∈ xs.tail, x.gap ≠ []
  ends : Separator last

/-- The same lexemes, printed with line feeds between the same ones.  What stands in front
of the first one does not matter. -/
structure Reprinted (xs : List Printed) (last : List Char) (ys : List Printed)
    (last' : List Char) : Prop where
  kinds_eq : xs.map Printed.kind = ys.map Printed.kind
  texts_eq : xs.map Printed.text = ys.map Printed.text
  breaks : List.Forall₂ (fun g g' => '\n' ∈ g ↔ '\n' ∈ g')
    (xs.map Printed.gap ++ [last]).tail (ys.map Printed.gap ++ [last']).tail

theorem Position.lineBehind_eq_iff (before cs : List Char) :
    lineBehind before = lineBehind (before ++ cs) ↔ '\n' ∉ cs := by
  rw [lineBehind, lineBehind, List.count_append, ← List.count_eq_zero]
  omega

namespace Reprinted

variable {xs ys : List Printed} {last last' : List Char}

theorem of_cons {x y : Printed} (h : Reprinted (x :: xs) last (y :: ys) last') :
    x.kind = y.kind ∧ x.text = y.text ∧
      ('\n' ∈ firstGap xs last ↔ '\n' ∈ firstGap ys last') ∧ Reprinted xs last ys last' := by
  obtain ⟨hkinds, htexts, hbreaks⟩ := h
  rw [List.map_cons, List.map_cons, List.cons.injEq] at hkinds htexts
  have hgaps : List.Forall₂ (fun g g' => '\n' ∈ g ↔ '\n' ∈ g') (xs.map Printed.gap ++ [last])
      (ys.map Printed.gap ++ [last']) := hbreaks
  rw [Printed.gaps_eq_cons xs, Printed.gaps_eq_cons ys, List.forall₂_cons] at hgaps
  exact ⟨hkinds.1, htexts.1, hgaps.1, hkinds.2, htexts.2, hgaps.2⟩

/-- Printing with other separators moves the tokens about. -/
theorem respaced (h : Reprinted xs last ys last') (before before' : List Char) :
    Respaced (allTokens before xs last) (allTokens before' ys last') := by
  induction xs generalizing ys before before' with
  | nil =>
      cases ys with
      | nil => exact ⟨rfl, rfl, .singleton _⟩
      | cons => cases h.kinds_eq
  | cons x xs ih =>
      cases ys with
      | nil => cases h.kinds_eq
      | cons y ys =>
          obtain ⟨hkind, htext, hbreak, hmore⟩ := h.of_cons
          obtain ⟨hkinds, htexts, hlines⟩ := ih hmore (before ++ x.chars) (before' ++ y.chars)
          rw [Printed.allTokens_cons, Printed.allTokens_cons]
          refine ⟨?_, ?_, ?_⟩
          · rw [List.map_cons, List.map_cons, hkinds, hkind]
          · rw [List.map_cons, List.map_cons, htexts, htext]
          · rw [List.zip_cons_cons, List.isChain_cons]
            refine ⟨?_, hlines⟩
            obtain ⟨t, ts, hts, ht⟩ :=
              Printed.exists_allTokens_eq_cons (before ++ x.chars) xs last
            obtain ⟨u, us, hus, hu⟩ :=
              Printed.exists_allTokens_eq_cons (before' ++ y.chars) ys last'
            have hline (before : List Char) (z : Printed) (gap : List Char) :
                Position.lineBehind (before ++ z.gap) =
                    Position.lineBehind (before ++ z.chars ++ gap) ↔ '\n' ∉ z.text ++ gap := by
              rw [Printed.chars, List.append_assoc, List.append_assoc, ← List.append_assoc before,
                Position.lineBehind_eq_iff]
            rw [hts, hus, List.zip_cons_cons]
            rintro _ ⟨⟩
            show Position.lineBehind (before ++ x.gap) = t.line ↔
              Position.lineBehind (before' ++ y.gap) = u.line
            rw [ht, hu, hline, hline, htext, List.mem_append, List.mem_append, hbreak]

end Reprinted

theorem tokenize_source {d : Dialect} {xs : List Printed} {last : List Char}
    (h : Prints d xs last) (table : Comments) :
    (tokenize d (source xs last) table).1 = .ok (allTokens [] xs last) := by
  rw [source, tokenize_fst, String.toList_ofList]
  exact result_of_printed xs [] h.spelled h.gaps h.ends

theorem completed_allTokens (before : List Char) (xs : List Printed) (last : List Char) :
    TokenStream.completed (allTokens before xs last) = allTokens before xs last := by
  refine if_pos ?_
  rw [allTokens, List.getLast?_append_cons]
  rfl

namespace Parser

/-- A printed text is read as its tokens are. -/
theorem readSource_source (limit : Nat) {d : Dialect} {xs : List Printed} {last : List Char}
    (h : Prints d xs last) :
    (readSource ⟨d, limit⟩ (source xs last)).1 = .ok (program limit (allTokens [] xs last)) :=
  readSource_fst (o := ⟨d, limit⟩) (tokenize_source h .empty)

/-- Where tokens stand does not change what is read, if the same neighbours share a line:
the trees are the same but for the lines of their nodes, and the same problems are reported
at the same tokens.  In a source text, blanks, comments and blank lines can be put in and
taken out, if lines are broken between the same lexemes. -/
theorem program_respaced (limit : Nat) :
    (∀ ts us : List Token,
      Respaced (TokenStream.completed ts) (TokenStream.completed us) →
        (program limit ts).tree.SameShape (program limit us).tree ∧
          List.Forall₂ (fun d d' => d.kind = d'.kind ∧
              SamePlace (TokenStream.completed ts) (TokenStream.completed us) d.position d'.position)
            (program limit ts).diagnostics (program limit us).diagnostics) ∧
      ∀ (d : Dialect) (xs ys : List Printed) (last last' : List Char),
        Prints d xs last → Prints d ys last' → Reprinted xs last ys last' →
          ∃ outcome outcome', (readSource ⟨d, limit⟩ (source xs last)).1 = .ok outcome ∧
            (readSource ⟨d, limit⟩ (source ys last')).1 = .ok outcome' ∧
            outcome.tree.SameShape outcome'.tree ∧
            outcome.diagnostics.map Diagnostic.kind = outcome'.diagnostics.map Diagnostic.kind := by
  refine ⟨fun ts us => program_of_respaced limit, ?_⟩
  intro d xs ys last last' hxs hys h
  have hrespaced := h.respaced [] []
  rw [← completed_allTokens [] xs last, ← completed_allTokens [] ys last'] at hrespaced
  obtain ⟨hshape, hdiagnostics⟩ := program_of_respaced limit hrespaced
  refine ⟨_, _, readSource_source limit hxs, readSource_source limit hys, hshape, ?_⟩
  have hkinds := List.forall₂_map_left_iff.2
    (List.forall₂_map_right_iff.2 (hdiagnostics.imp fun _ _ h => h.1))
  rwa [List.forall₂_eq_eq_eq] at hkinds

/-- A label, and on a line of its own an operand that lacks its index register. -/
def plainLines : List Printed :=
  [⟨[], .label, ['s', ':']⟩, ⟨['\n'], .instruction .lda, ['L', 'd', 'A']⟩,
    ⟨[' '], .hexConst, ['$', 'f', 'F']⟩, ⟨[' '], .comma, [',']⟩]

/-- The same with a comment in front, a blank line in between and an indented mnemonic. -/
def airyLines : List Printed :=
  [⟨[';', 'c', '\n'], .label, ['s', ':']⟩,
    ⟨['\n', '\n', '\t'], .instruction .lda, ['L', 'd', 'A']⟩,
    ⟨[' ', ' '], .hexConst, ['$', 'f', 'F']⟩, ⟨['\t'], .comma, [',']⟩]

theorem spelled_lines : Spelled {} .label ['s', ':'] ∧ Spelled {} (.instruction .lda) ['L', 'd', 'A'] ∧
    Spelled {} .hexConst ['$', 'f', 'F'] ∧ Spelled {} .comma [','] :=
  ⟨.label (w := ['s']) (by decide) (by decide), .instruction (by decide) (by decide),
    .hexConst (List.all_eq_true.1 (by decide)), .punctuation rfl⟩

theorem prints_plainLines : Prints {} plainLines ['\n'] where
  spelled := by
    obtain ⟨hlabel, hmnemonic, hnumeral, hcomma⟩ := spelled_lines
    intro x hx
    simp only [plainLines, List.mem_cons, List.not_mem_nil, or_false] at hx
    rcases hx with rfl | rfl | rfl | rfl
    · exact ⟨.done, hlabel⟩
    · exact ⟨.blank (by decide) .done, hmnemonic⟩
    · exact ⟨.blank (by decide) .done, hnumeral⟩
    · exact ⟨.blank (by decide) .done, hcomma⟩
  gaps := by decide
  ends := .blank (by decide) .done

theorem prints_airyLines : Prints {} airyLines ['\n', '\n'] where
  spelled := by
    obtain ⟨hlabel, hmnemonic, hnumeral, hcomma⟩ := spelled_lines
    have hcomment : Separator ([';', 'c'] ++ '\n' :: []) := .comment (by decide) .done
    intro x hx
    simp only [airyLines, List.mem_cons, List.not_mem_nil, or_false] at hx
    rcases hx with rfl | rfl | rfl | rfl
    · exact ⟨hcomment, hlabel⟩
    · exact ⟨.blank (by decide) (.blank (by decide) (.blank (by decide) .done)), hmnemonic⟩
    · exact ⟨.blank (by decide) (.blank (by decide) .done), hnumeral⟩
    · exact ⟨.blank (by decide) .done, hcomma⟩
  gaps := by decide
  ends := .blank (by decide) (.blank (by decide) .done)

/-- The numeral is an operand in both, and the same problem is reported at the end. -/
theorem program_respaced_airyLines :
    let ts := allTokens [] plainLines ['\n']
    let us := allTokens [] airyLines ['\n', '\n']
    Respaced (TokenStream.completed ts) (TokenStream.completed us) ∧
      (program 1 ts).diagnostics.map Diagnostic.position = [⟨3, 1⟩] ∧
      List.Forall₂ (fun d d' => d.kind = d'.kind ∧
          SamePlace (TokenStream.completed ts) (TokenStream.completed us) d.position d'.position)
        (program 1 ts).diagnostics (program 1 us).diagnostics ∧
      Prints {} plainLines ['\n'] ∧ Prints {} airyLines ['\n', '\n'] ∧
      Reprinted plainLines ['\n'] airyLines ['\n', '\n'] ∧
      ∃ outcome outcome', (readSource ⟨{}, 1⟩ (source plainLines ['\n'])).1 = .ok outcome ∧
        (readSource ⟨{}, 1⟩ (source airyLines ['\n', '\n'])).1 = .ok outcome' ∧
        outcome.tree.SameShape outcome'.tree ∧
        outcome.diagnostics.map Diagnostic.kind = outcome'.diagnostics.map Diagnostic.kind := by
  intro ts us
  have hreprinted : Reprinted plainLines ['\n'] airyLines ['\n', '\n'] := by
    refine ⟨rfl, rfl, .cons ?_ (.cons ?_ (.cons ?_ (.cons ?_ .nil)))⟩
    · decide
    · decide
    · decide
    · decide
  have hrespaced : Respaced (TokenStream.completed ts) (TokenStream.completed us) := by
    rw [completed_allTokens, completed_allTokens]
    exact hreprinted.respaced [] []
  have hposition : (program 1 ts).diagnostics.map Diagnostic.position = [⟨3, 1⟩] := by
    decide +kernel
  exact ⟨hrespaced, hposition, ((program_respaced 1).1 ts us hrespaced).2, prints_plainLines,
    prints_airyLines, hreprinted,
    (program_respaced 1).2 {} plainLines airyLines ['\n'] ['\n', '\n'] prints_plainLines
      prints_airyLines hreprinted⟩

end Parser

end Asm6502
