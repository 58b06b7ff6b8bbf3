import Asm6502.Parser.Program
import Asm6502.Proofs.Parsing.Loops

/-!
# What the parser of programs answers

Reading a program always ends with a tree, whatever the tokens are and however
often a statement is given up.  What the tree shows is a program: each item of the
root is a declaration or a section of the concrete syntax.  And there is an account of
the tokens before the end, which says where these entries come from and what was
reported about the rest.

The invariant carried through the statements is `Accounts`.  Nodes abandoned by a
failure do not disturb it, for it speaks of the items of the root only, and what
they own is never changed.

## Main results

* `statement_accounts` — one statement adds one stretch to the account.
* `program_accounts` — the account of a program, up to the end.
* `program_selects` — the tree of a program is a selection of its tokens.
-/

namespace Asm6502.Parser

open Syntax

variable {s s' : State} {limit : Nat}

/-! ## Labels -/

/-- A label may be added in front of a node that is there. -/
theorem reads_addLabel (token : Token) {child : Option NodeId}
    (hchild : ∀ id ∈ child, s.tree.IsInner id) : s.Reads (addLabel token child s).2 [] [] := by
  refine State.reads_add _ ?_
  intro id hid
  exact hchild id (Option.mem_toList.1 hid)

/-- Adds labels in front of a node.  The innermost label is added first, so the chain is
built from its end. -/
def addLabels (labels : List Token) (x : Option NodeId × State) : Option NodeId × State :=
  labels.foldr
    (fun token (child, s) =>
      let (id, s) := addLabel token child s
      (some id, s))
    x

theorem addLabels_cons (token : Token) (labels : List Token) (x : Option NodeId × State) :
    addLabels (token :: labels) x =
      (some (addLabel token (addLabels labels x).1 (addLabels labels x).2).1,
        (addLabel token (addLabels labels x).1 (addLabels labels x).2).2) := rfl

theorem addLabels_reads (labels : List Token) {child : Option NodeId} (s : State)
    (hchild : ∀ id ∈ child, s.tree.IsInner id) :
    let answer := addLabels labels (child, s)
    s.Reads answer.2 [] [] ∧ LabelsShownAt answer.2.tree child labels answer.1 := by
  induction labels with
  | nil => exact ⟨.refl s, rfl⟩
  | cons token labels ih =>
      obtain ⟨hreads, hshown⟩ := ih
      have hinner := hshown.isInner fun id hid => hreads.grows.isInner (hchild id hid)
      have hadd := reads_addLabel token hinner
      refine ⟨hreads.trans hadd, _, _, _, rfl, token.declares_declaredName,
        State.node_add .., ?_⟩
      exact hshown.keeps hadd.grows.keeps

/-- The labels that come directly ahead. -/
def State.labels (s : State) : List Token := s.stream.ahead.takeWhile fun t => t.kind == .label

/-- Behind the labels that come directly ahead. -/
def State.pastLabels (s : State) : State :=
  { s with stream := ⟨s.stream.ahead.dropWhile fun t => t.kind == .label, s.stream.finish⟩ }

theorem State.ahead_eq_labels (s : State) :
    s.stream.ahead = s.labels ++ s.pastLabels.stream.ahead :=
  List.takeWhile_append_dropWhile.symm

theorem State.reads_pastLabels (s : State) : s.Reads s.pastLabels s.labels [] where
  ahead_eq := s.ahead_eq_labels
  finish_eq := rfl
  grows := .refl _
  diagnostics_eq := (List.append_nil _).symm

theorem State.kind_of_mem_labels (s : State) : ∀ t ∈ s.labels, t.kind = .label := by
  intro t ht
  have hall := List.all_takeWhile (p := fun t : Token => t.kind == .label) (l := s.stream.ahead)
  exact eq_of_beq (List.all_eq_true.1 hall t ht)

/-- The labels of a section, the first one included, are added behind its block. -/
theorem labelSection_eq (limit : Nat) (token : Token) (s : State) :
    labelSection limit token s =
      let answer := addLabels s.labels (block limit s.pastLabels)
      (addLabel token answer.1 answer.2).2.pushItem (addLabel token answer.1 answer.2).1 := rfl

theorem addLabels_elsewhere (labels : List Token) (x : Option NodeId × State) :
    (addLabels labels x).2.stream = x.2.stream ∧
      (addLabels labels x).2.diagnostics = x.2.diagnostics := by
  induction labels with
  | nil => exact ⟨rfl, rfl⟩
  | cons token labels ih => exact ih

/-- Behind the items of its block, a section changes nothing but the tree. -/
theorem labelSection_elsewhere (limit : Nat) (token : Token) (s : State) :
    let behind := (blockItems limit s.pastLabels.stream.ahead [] s.pastLabels).2
    (labelSection limit token s).stream = behind.stream ∧
      (labelSection limit token s).diagnostics = behind.diagnostics := by
  rw [labelSection_eq]
  exact addLabels_elsewhere s.labels (block limit s.pastLabels)

/-- A section is its first label, the labels directly ahead, and the block behind
them. -/
theorem labelSection_of_block {limit : Nat} (token : Token) {ids : List NodeId}
    {items : List Item} {passed : List Token} {reported : List Diagnostic}
    (hblock : s.pastLabels.Reads (block limit s.pastLabels).2 passed reported)
    (hlists : (block limit s.pastLabels).2.tree.Lists (block limit s.pastLabels).1 ids)
    (hshown : List.Forall₂ (fun id i => i.ShownAt (block limit s.pastLabels).2.tree id) ids
      items) :
    ∃ (s₁ : State) (id : NodeId), labelSection limit token s = s₁.pushItem id ∧
      s.Reads s₁ (s.labels ++ passed) reported ∧
      Section.ShownAt s₁.tree ⟨token, s.labels, items⟩ id := by
  let head := (block limit s.pastLabels).1
  have hhead : ∀ id ∈ head, (block limit s.pastLabels).2.tree.IsInner id := by
    intro id hid
    rw [show (block limit s.pastLabels).1 = some id from hid] at hlists
    exact hlists.isInner
  obtain ⟨hnested, hlabels⟩ := addLabels_reads s.labels _ hhead
  let answer := addLabels s.labels (block limit s.pastLabels)
  have hadd : answer.2.Reads (addLabel token answer.1 answer.2).2 [] [] :=
    reads_addLabel token (hlabels.isInner fun id hid => hnested.grows.isInner (hhead id hid))
  have hkeeps := (hnested.trans hadd).grows.keeps
  have hkept := lists_keeps (R := fun t id i => Item.ShownAt t i id) hlists hshown hkeeps
    Item.ShownAt.isInner fun hi => hi.keeps hkeeps
  refine ⟨(addLabel token answer.1 answer.2).2, (addLabel token answer.1 answer.2).1,
    labelSection_eq limit token s, ?_, ?_⟩
  · have hall := (s.reads_pastLabels.trans hblock).trans (hnested.trans hadd)
    simp only [List.append_nil, List.nil_append] at hall
    exact hall
  · exact ⟨head, ids, hkept.1, hkept.2, _, _, answer.1, rfl, token.declares_declaredName,
      State.node_add .., hlabels.keeps hadd.grows.keeps⟩

/-- A section is read behind its heading, and its node becomes an item of the root. -/
theorem labelSection_reads (limit : Nat) (token : Token) (s : State) :
    ∃ (s₁ : State) (id : NodeId) (parts : List BlockPart),
      labelSection limit token s = s₁.pushItem id ∧
        s.Reads s₁ (s.labels ++ parts.flatMap BlockPart.tokens)
          (parts.flatMap BlockPart.reports) ∧
        Section.ShownAt s₁.tree ⟨token, s.labels, parts.filterMap BlockPart.item?⟩ id ∧
        ∀ i ∈ parts.filterMap BlockPart.item?, (∀ e ∈ i.expressions, e.Fits limit) ∧ i.OnLine := by
  obtain ⟨ids, parts, hlists, hparts⟩ := block_reads limit s.pastLabels
  obtain ⟨s₁, id, hrun, hreads, hshown⟩ :=
    labelSection_of_block token hparts.reads hlists hparts.shown
  exact ⟨s₁, id, parts, hrun, hreads, hshown, fun i hi => ⟨hparts.fits i hi, hparts.onLine i hi⟩⟩

/-! ## Declarations -/

theorem declaration_ends (limit : Nat) (hname : s.current.kind = .name)
    (hequals : s.advance.current.kind = .equals) :
    Ends (declaration limit) s
      (fun id s' => ∃ d : Declaration, s.Reads s' d.tokens [] ∧ d.ShownAt s'.tree id ∧
        d.value.Fits limit)
      (Abandoned s.advance.advance) := by
  have hpassed := (State.reads_advance (s := s) (by rw [hname]; decide)).trans
    (State.reads_advance (s := s.advance) (by rw [hequals]; decide))
  unfold declaration
  simp only [ends_bind, ends_current, ends_advance, ends_required, ends_add]
  refine (expression_ends limit limit s.advance.advance).imp_post ?_
  intro answer s' ha
  cases answer with
  | none =>
      cases ha
      exact .here (.refl _) .nil
  | some value =>
      obtain ⟨e, he, hdepth, _⟩ := ha
      have hadd : s'.Reads (s'.add (.decl s.current.text value) s.current.line).2 [] [] :=
        State.reads_add _ (by simpa [Node.Kind.children] using he.shown.isInner)
      refine ⟨⟨s.current, s.advance.current, hname, hequals, e⟩, ?_,
        ⟨value, State.node_add .., he.shown.keeps hadd.grows.keeps⟩, he.canonical, hdepth⟩
      have hall := (hpassed.trans he.reads).trans hadd
      rwa [List.append_nil] at hall

/-! ## Statements -/

/-- The items of the root show the entries. -/
structure Shows (limit : Nat) (s : State) (entries : List Entry) : Prop where
  rooted : s.tree.Rooted
  descends : s.tree.Descends
  shown : List.Forall₂ (fun id e => e.ShownAt s.tree id) s.tree.items entries
  fits : ∀ entry ∈ entries, ∀ e ∈ entry.expressions, e.Fits limit

namespace Shows

variable {entries : List Entry} {passed : List Token} {reported : List Diagnostic}

theorem start (ts : List Token) : Shows limit (State.start ts) [] where
  rooted := Tree.rooted_empty
  descends := Tree.descends_empty
  shown := .nil
  fits := by simp

/-- Reading on adds no entry by itself. -/
theorem reads (h : Shows limit s entries) (hr : s.Reads s' passed reported) :
    Shows limit s' entries where
  rooted := hr.grows.rooted h.rooted
  descends := hr.grows.descends h.descends
  shown := by
    rw [hr.grows.items_eq h.rooted]
    exact h.shown.imp fun _ _ he => he.keeps hr.grows.keeps
  fits := h.fits

/-- Adding an entry to the root. -/
theorem pushItem {entry : Entry} {id : NodeId} (h : Shows limit s entries)
    (hshown : entry.ShownAt s.tree id) (hfits : ∀ e ∈ entry.expressions, e.Fits limit) :
    Shows limit (s.pushItem id) (entries ++ [entry]) where
  rooted := Tree.rooted_pushItem h.rooted id
  descends := Tree.descends_pushItem h.rooted h.descends id
  shown := by
    have hkeeps := Tree.keeps_pushItem h.rooted id
    have hitems : (s.pushItem id).tree.items = s.tree.items ++ [id] :=
      Tree.items_pushItem h.rooted id
    rw [hitems]
    refine List.rel_append ?_ (.cons (hshown.keeps hkeeps) .nil)
    exact h.shown.imp fun _ _ he => he.keeps hkeeps
  fits := by
    intro e he
    rcases List.mem_append.1 he with he | he
    · exact h.fits e he
    · rw [List.mem_singleton.1 he]
      exact hfits

theorem canonical (h : Shows limit s entries) :
    ∀ entry ∈ entries, ∀ e ∈ entry.expressions, e.Canonical :=
  fun entry hentry e he => (h.fits entry hentry e he).canonical

end Shows

/-- The account tells what became of the tokens of `ts` that have been passed: its
entries are what the items of the root show, and its reports are the diagnostics. -/
structure Accounts (limit : Nat) (ts : List Token) (s : State)
    (account : List Statement) : Prop where
  shows : Shows limit s (account.filterMap Statement.entry?)
  tokens_eq : ts = account.flatMap Statement.tokens ++ s.stream.ahead
  diagnostics_eq : s.diagnostics.toList = account.flatMap Statement.reports
  onLine : ∀ entry ∈ account.filterMap Statement.entry?, ∀ i ∈ entry.items, i.OnLine

namespace Accounts

variable {ts : List Token} {account : List Statement} {st : Statement}

theorem start (ts : List Token) :
    Accounts limit (ts.takeWhile TokenStream.isProper) (State.start ts) [] where
  shows := .start ts
  tokens_eq := rfl
  diagnostics_eq := rfl
  onLine := by simp

theorem isInner_items (h : Accounts limit ts s account) : ∀ id ∈ s.tree.items, s.tree.IsInner id :=
  ((List.forall₂_and_left (p := s.tree.IsInner) ..).1
    (h.shows.shown.imp fun _ _ he => ⟨Entry.ShownAt.isInner he, he⟩)).1

/-- What reading a stretch does to the tokens and the diagnostics. -/
theorem snoc_eqs (h : Accounts limit ts s account) (hread : s.Reads s' st.tokens st.reports) :
    ts = (account ++ [st]).flatMap Statement.tokens ++ s'.stream.ahead ∧
      s'.diagnostics.toList = (account ++ [st]).flatMap Statement.reports := by
  rw [List.flatMap_append, List.flatMap_append, List.flatMap_singleton, List.flatMap_singleton]
  constructor
  · rw [h.tokens_eq, hread.ahead_eq, List.append_assoc]
  · rw [hread.diagnostics_eq, h.diagnostics_eq]

/-- Reading a stretch that is no entry. -/
theorem snoc (h : Accounts limit ts s account) (hst : st.entry? = none)
    (hread : s.Reads s' st.tokens st.reports) : Accounts limit ts s' (account ++ [st]) where
  shows := by
    rw [List.filterMap_append, List.filterMap_cons_none hst, List.filterMap_nil, List.append_nil]
    exact h.shows.reads hread
  tokens_eq := (h.snoc_eqs hread).1
  diagnostics_eq := (h.snoc_eqs hread).2
  onLine := by
    rw [List.filterMap_append, List.filterMap_cons_none hst, List.filterMap_nil, List.append_nil]
    exact h.onLine

/-- What has been reported stays reported. -/
theorem mem_diagnostics {d : Diagnostic} (h : Accounts limit ts s account)
    (h' : Accounts limit ts s' (account ++ [st])) (hd : d ∈ s.diagnostics.toList) :
    d ∈ s'.diagnostics.toList := by
  rw [h.diagnostics_eq] at hd
  rw [h'.diagnostics_eq, List.flatMap_append]
  exact List.mem_append_left _ hd

/-- Reading an entry and adding it to the root. -/
theorem snoc_entry {entry : Entry} {id : NodeId} (h : Accounts limit ts s account)
    (hst : st.entry? = some entry) (hread : s.Reads s' st.tokens st.reports)
    (hshown : entry.ShownAt s'.tree id) (hfits : ∀ e ∈ entry.expressions, e.Fits limit)
    (honLine : ∀ i ∈ entry.items, i.OnLine) :
    Accounts limit ts (s'.pushItem id) (account ++ [st]) where
  shows := by
    rw [List.filterMap_append, List.filterMap_cons_some hst, List.filterMap_nil]
    exact (h.shows.reads hread).pushItem hshown hfits
  tokens_eq := (h.snoc_eqs hread).1
  diagnostics_eq := (h.snoc_eqs hread).2
  onLine := by
    rw [List.filterMap_append, List.filterMap_cons_some hst, List.filterMap_nil]
    intro e he
    rcases List.mem_append.1 he with he | he
    · exact h.onLine e he
    · rw [List.mem_singleton.1 he]
      exact honLine

end Accounts

/-- A section behind its heading. -/
theorem labelSection_accounts {ts : List Token} {account : List Statement} (heading : Heading)
    (limit : Nat) (h : Accounts limit ts s account)
    (hheading : s.Reads s' heading.tokens heading.reports) :
    ∃ st, Accounts limit ts (labelSection limit heading.token s') (account ++ [st]) := by
  obtain ⟨s₁, id, parts, hrun, hreads, hshown, hitems⟩ :=
    labelSection_reads limit heading.token s'
  have hall := hheading.trans hreads
  rw [← List.append_assoc] at hall
  have hentry : (Entry.labelled _).ShownAt s₁.tree id := hshown
  refine ⟨.labelled heading s'.labels s'.kind_of_mem_labels parts, ?_⟩
  rw [hrun]
  refine h.snoc_entry rfl hall hentry ?_ fun i hi => (hitems i hi).2
  intro e he
  obtain ⟨i, hi, he⟩ := List.mem_flatMap.1 he
  exact (hitems i hi).1 e he

/-- One statement adds one stretch to the account. -/
theorem statement_accounts {ts : List Token} {account : List Statement} (limit : Nat)
    (h : Accounts limit ts s account) (hcurrent : s.current.kind ≠ .eof) :
    ∃ st, Accounts limit ts (statement limit s) (account ++ [st]) := by
  have hpassed := State.reads_advance hcurrent
  unfold statement
  dsimp only
  split
  next hdirective =>
    obtain ⟨argument, hreads⟩ := State.reads_skipDirective hdirective
    exact ⟨.directive ⟨s.current, hdirective, argument⟩, h.snoc rfl hreads⟩
  next hlabel => exact labelSection_accounts (.label s.current hlabel) limit h hpassed
  next hname =>
    have hinterior : Interior [s.current] := .of_kind hname (by decide) (by decide)
    split
    next hequals =>
      have hends := declaration_ends limit hname hequals
      unfold Ends at hends
      split
      next id s' hrun =>
        rw [hrun] at hends
        obtain ⟨d, hreads, hshown, hfits⟩ := hends
        have hentry : (Entry.declaration d).ShownAt s'.tree id := hshown
        refine ⟨.declaration d, h.snoc_entry rfl hreads hentry ?_ ?_⟩
        · intro e he
          rw [List.mem_singleton.1 he]
          exact hfits
        · intro i hi
          cases hi
      next e s' hrun =>
        rw [hrun] at hends
        have hequals' : s.advance.current.kind = .equals := hequals
        have hsecond : Interior [s.advance.current] := .of_kind hequals' (by decide) (by decide)
        have hbehind : Abandoned s.advance e s' :=
          .behind (State.reads_advance (by rw [hequals']; decide)) hsecond hends
        obtain ⟨g, rfl, hreads⟩ := reads_recover_of_abandoned hinterior hpassed hbehind
        exact ⟨.givenUp g, h.snoc rfl hreads⟩
    next hcolon =>
      have hcolon' : s.advance.current.kind = .colon := hcolon
      have hboth := (hpassed.trans (State.reads_advance (by rw [hcolon']; decide))).trans
        (State.reads_diagnose s.advance.advance (.detachedLabel s.current))
      exact labelSection_accounts (.detached s.current s.advance.current hname hcolon') limit h
        hboth
    next =>
      refine ⟨.skipped s.current hinterior, h.snoc rfl ?_⟩
      rw [Statement.reports, if_pos hname]
      exact State.reads_skip .strayName hcurrent
  next _ hlabel hname =>
    refine ⟨.skipped s.current (.cons hcurrent hlabel .nil), h.snoc rfl ?_⟩
    rw [Statement.reports, if_neg hname]
    exact State.reads_skip .noStatement hcurrent

/-! ## Programs -/

/-- One statement, unless the tokens are over. -/
def statementRound (limit : Nat) (s : State) : State ⊕ State :=
  if s.current.kind = .eof then .inr s else .inl (statement limit s)

theorem statementRound_eq_inl :
    statementRound limit s = .inl s' ↔ s.current.kind ≠ .eof ∧ statement limit s = s' := by
  unfold statementRound
  by_cases hcurrent : s.current.kind = .eof
  · simp [hcurrent]
  · simp [hcurrent]

theorem statementRound_eq_inr :
    statementRound limit s = .inr s' ↔ s.current.kind = .eof ∧ s = s' := by
  unfold statementRound
  by_cases hcurrent : s.current.kind = .eof
  · simp [hcurrent]
  · simp [hcurrent]

/-- What each statement keeps holds at the end. -/
theorem Rounds.keeps {n : Nat} (keeps : State → Prop) (h : Rounds (statementRound limit) n s s')
    (hs : keeps s)
    (hstatement : ∀ x, keeps x → x.current.kind ≠ .eof → keeps (statement limit x)) :
    s'.current.kind = .eof ∧ keeps s' := by
  refine h.invariant keeps (fun x => x.current.kind = .eof ∧ keeps x) hs ?_ ?_
  · intro x y hx hround
    obtain ⟨hcurrent, rfl⟩ := statementRound_eq_inl.1 hround
    exact hstatement x hx hcurrent
  · intro x r hx hround
    obtain ⟨hcurrent, rfl⟩ := statementRound_eq_inr.1 hround
    exact ⟨hcurrent, hx⟩

theorem statements_cons (limit attempts : Nat) (b : Unit) (bound : List Unit) (s : State) :
    statements limit attempts (b :: bound).length s =
      (statementRound limit s).elim (statements limit attempts bound.length) id := by
  rw [List.length_cons, statements, statementRound]
  by_cases hcurrent : s.current.kind = .eof
  · rw [if_pos hcurrent, if_pos hcurrent]
    rfl
  · rw [if_neg hcurrent, if_neg hcurrent]
    rfl

/-- A longer account leaves fewer tokens. -/
theorem Accounts.remaining_lt {ts : List Token} {account : List Statement} {st : Statement}
    (h : Accounts limit ts s account) (h' : Accounts limit ts s' (account ++ [st])) :
    s'.remaining < s.remaining := by
  have htokens := h'.tokens_eq
  rw [h.tokens_eq, List.flatMap_append, List.flatMap_singleton, List.append_assoc] at htokens
  have hlength := congrArg List.length (List.append_cancel_left htokens)
  have hpos := List.length_pos_iff.2 st.tokens_ne_nil
  rw [List.length_append] at hlength
  show s'.stream.ahead.length < s.stream.ahead.length
  omega

/-- The bound on the statements is no restriction. -/
theorem statements_rounds {ts : List Token} {account : List Statement} (limit attempts : Nat)
    {bound : List Unit} (h : Accounts limit ts s account) (hbound : s.remaining ≤ bound.length) :
    ∃ n ≤ s.remaining, Rounds (statementRound limit) n s
      (statements limit attempts bound.length s) := by
  refine exists_rounds_of_bounded State.remaining
    (fun bound s => statements limit attempts bound.length s)
    (fun s => ∃ account, Accounts limit ts s account) ?_ (statements_cons limit attempts) ?_
    bound ⟨account, h⟩ hbound
  · intro x r _ hround
    obtain ⟨hcurrent, rfl⟩ := statementRound_eq_inr.1 hround
    rw [List.length_nil, statements, if_pos hcurrent]
  · rintro x y ⟨account, h⟩ hround
    obtain ⟨hcurrent, rfl⟩ := statementRound_eq_inl.1 hround
    obtain ⟨st, h'⟩ := statement_accounts limit h hcurrent
    exact ⟨⟨_, h'⟩, h.remaining_lt h'⟩

/-- Statement after statement, the account is taken to the end of the tokens. -/
theorem Rounds.accounts {ts : List Token} {account : List Statement} {n : Nat}
    (h : Rounds (statementRound limit) n s s') (hs : Accounts limit ts s account) :
    s'.current.kind = .eof ∧ ∃ account, Accounts limit ts s' account := by
  refine h.keeps (fun s => ∃ account, Accounts limit ts s account) ⟨account, hs⟩ ?_
  rintro x ⟨account, hx⟩ hcurrent
  obtain ⟨st, hy⟩ := statement_accounts limit hx hcurrent
  exact ⟨_, hy⟩

theorem isProper_of_mem_takeWhile {ts : List Token} {t : Token}
    (h : t ∈ ts.takeWhile TokenStream.isProper) : t.kind ≠ .eof :=
  TokenStream.ahead_ofTokens_ne_eof h

/-- Reading a program is going from statement to statement up to the end, at most as
often as there are tokens in front of the end.  The account of the outcome covers these
tokens. -/
theorem program_accounts (limit : Nat) (ts : List Token) :
    ∃ n s' account, n ≤ (ts.takeWhile TokenStream.isProper).length ∧
      Rounds (statementRound limit) n (State.start ts) s' ∧
      program limit ts = ⟨s'.tree, s'.diagnostics.toList⟩ ∧
      Accounts limit (ts.takeWhile TokenStream.isProper) s' account ∧ s'.stream.ahead = [] := by
  let attempts := 2 * ((State.start ts).remaining + 1)
  have hbound : (State.start ts).remaining ≤ (List.replicate attempts ()).length := by
    rw [List.length_replicate]
    omega
  obtain ⟨n, hn, hrounds⟩ := statements_rounds limit attempts (Accounts.start ts) hbound
  obtain ⟨hcurrent, account, haccount⟩ := hrounds.accounts (Accounts.start ts)
  rw [List.length_replicate] at hrounds hcurrent haccount
  refine ⟨n, _, account, hn, hrounds, rfl, haccount, ?_⟩
  by_contra hahead
  obtain ⟨t, rest, hrest⟩ := List.exists_cons_of_ne_nil hahead
  rw [State.current_eq_of_ahead hrest] at hcurrent
  have hmem : t ∈ ts.takeWhile TokenStream.isProper := by
    rw [haccount.tokens_eq, hrest]
    simp
  exact isProper_of_mem_takeWhile hmem hcurrent

/-- The tree of a program shows entries whose tokens, in order, are a selection of the
tokens before the end. -/
theorem program_selects (limit : Nat) (ts : List Token) :
    ∃ entries : List Entry,
      (program limit ts).tree.Rooted ∧
      List.Forall₂ (fun id e => e.ShownAt (program limit ts).tree id)
        (program limit ts).tree.items entries ∧
      List.Sublist (entries.flatMap Entry.tokens) (ts.takeWhile TokenStream.isProper) ∧
      ∀ entry ∈ entries, ∀ e ∈ entry.expressions, e.Canonical := by
  obtain ⟨_, s', account, _, _, hprogram, haccount, hahead⟩ := program_accounts limit ts
  rw [hprogram]
  refine ⟨_, haccount.shows.rooted, haccount.shows.shown, ?_, haccount.shows.canonical⟩
  rw [haccount.tokens_eq, hahead, List.append_nil]
  exact sublist_flatMap_filterMap Statement.sublist_tokens account

end Asm6502.Parser
