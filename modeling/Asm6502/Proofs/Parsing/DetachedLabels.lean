import Asm6502.Proofs.Lexing.Spelling
import Asm6502.Proofs.Parsing.Provenance
import Asm6502.Proofs.Parsing.Taken

/-!
# Labels with a detached colon

A name that begins a line and has a colon behind it is meant to be a label.  Unless it is asked
for, it becomes one: a label with this name and line comes from the token, nothing else does,
and there is one warning about it.

It is asked for by a declaration or an item of a code block that reaches up to it and has to go
on there: by an operator, a sign, an opening parenthesis, an equals sign, the comma of a list of
data or the mnemonic of a branch, at the end of the line above.  The same tokens where nothing of
the kind has been begun ask for nothing.  A name that is asked for becomes no label, and nothing
is reported to be recovered there.

That the name is reported is known from reading up to it.  The rest follows from how
tokens and nodes line up: whatever is reported to be a recovered label is one, and comes
from the token that stands where the report says.

## Main results

* `DetachedAt.exists_fence` — reading comes to the name and stops there.
* `AskedFor.not_mem_diagnostics` — or takes it.
* `readSource_detachedLabels` — the labels with a detached colon of a text.
* `readSource_detachedLabels_continued` — what becomes of them where they are asked for.
-/

namespace Asm6502

/-! ## Names with a detached colon -/

/-- At `place` stands a name, the first token of its line and directly in front of a
colon. -/
structure DetachedAt (ts : List Token) (place : Nat) (name : Token) : Prop where
  here : ts[place]? = some name
  isName : name.kind = .name
  colon : ts[place + 1]?.map Token.kind = some .colon
  first : ∀ t ∈ ts.take place, t.line ≠ name.line

instance (ts : List Token) (place : Nat) (name : Token) : Decidable (DetachedAt ts place name) :=
  decidable_of_iff (ts[place]? = some name ∧ name.kind = .name ∧
      ts[place + 1]?.map Token.kind = some .colon ∧ ∀ t ∈ ts.take place, t.line ≠ name.line)
    ⟨fun ⟨here, isName, colon, first⟩ => ⟨here, isName, colon, first⟩,
      fun ⟨here, isName, colon, first⟩ => ⟨here, isName, colon, first⟩⟩

namespace DetachedAt

variable {ts : List Token} {place : Nat} {name : Token}

theorem getElem?_colon (h : DetachedAt ts place name) :
    ∃ colon, ts[place + 1]? = some colon ∧ colon.kind = .colon :=
  Option.map_eq_some_iff.1 h.colon

/-- Such a name stops whatever is being read in front of it. -/
theorem exists_fence (h : DetachedAt ts place name) :
    ∃ f : Parser.Fence, f.name = name ∧ ts = f.before ++ f.tokens ∧ f.tokens = ts.drop place := by
  obtain ⟨colon, hcolon, isColon⟩ := h.getElem?_colon
  obtain ⟨hlt, hget⟩ := List.getElem?_eq_some_iff.1 h.here
  obtain ⟨hlt', hget'⟩ := List.getElem?_eq_some_iff.1 hcolon
  have htokens : name :: colon :: ts.drop (place + 2) = ts.drop place := by
    rw [← hget, ← hget', List.cons_getElem_drop_succ, List.cons_getElem_drop_succ]
  refine ⟨⟨ts.take place, name, colon, ts.drop (place + 2), h.isName, isColon, h.first⟩, rfl, ?_,
    htokens⟩
  show ts = ts.take place ++ name :: colon :: ts.drop (place + 2)
  rw [htokens, List.take_append_drop]

/-- Such a name and its colon stand in front of the end. -/
theorem of_append_eof {us : List Token} {e : Token} (h : DetachedAt (us ++ [e]) place name)
    (he : e.kind = .eof) : DetachedAt us place name := by
  have hlt : place + 1 < us.length := by
    obtain ⟨colon, hcolon, isColon⟩ := h.getElem?_colon
    by_contra hbehind
    rw [List.getElem?_append_right (Nat.le_of_not_lt hbehind)] at hcolon
    have hlast : colon = e := List.mem_singleton.1 (List.mem_of_getElem? hcolon)
    rw [hlast, he] at isColon
    cases isColon
  have hlt' : place < us.length := Nat.lt_of_succ_lt hlt
  exact
    { here := by
        rw [← List.getElem?_append_left hlt']
        exact h.here
      isName := h.isName
      colon := by
        rw [← List.getElem?_append_left hlt]
        exact h.colon
      first := by
        rw [← List.take_append_of_le_length (Nat.le_of_lt hlt')]
        exact h.first }

/-- In front of a colon no name ends with one, so the label has the text of the name. -/
theorem declares_text {d : Dialect} {p : Position} {cs : List Char}
    (h : DetachedAt ts place name) (hscan : (scanFrom p cs).result d = .ok ts) :
    name.Declares name.text := by
  obtain ⟨colon, hcolon, isColon⟩ := h.getElem?_colon
  obtain ⟨rest, hsplits, hend⟩ := splitsOff_of_result hscan h.here (by simp [h.isName])
  refine Token.declares_iff.2 (hsplits.declaredName_eq h.isName ?_).symm
  intro hrest
  cases isColon.symm.trans (hend hrest colon hcolon)

end DetachedAt

/-! ## One of each -/

/-- Where keys are distinct, only one element has the key of `x`. -/
theorem filter_key_eq {α β : Type} [DecidableEq α] [DecidableEq β] {key : α → β} {xs : List α}
    {x : α} (hkeys : (xs.map key).Nodup) (hx : x ∈ xs) :
    xs.filter (fun y => key y == key x) = [x] := by
  have hsame : xs.filter (fun y => key y == key x) = xs.filter (· == x) := by
    refine List.filter_congr fun y hy => ?_
    rw [Bool.eq_iff_iff, beq_iff_eq, beq_iff_eq]
    exact ⟨fun h => List.inj_on_of_nodup_map hkeys hy hx h, congrArg key⟩
  rw [hsame, List.filter_beq, List.count_eq_one_of_mem hkeys.of_map hx]
  rfl

theorem Placed.nodup_placements {t : Tree} {keep : Node.Kind → Bool} {ts : List Token}
    {ids : List NodeId} {n : Nat} {places : List Nat} (h : Placed t keep ts ids n places) :
    ((placements t keep ids places).map Prod.snd).Nodup := by
  rw [placements, List.map_snd_zip (Nat.le_of_eq h.stands.length_eq.symm)]
  exact h.increasing.imp Nat.ne_of_lt

/-- Tokens at different places of a text have different positions. -/
theorem eq_of_position_eq {ts : List Token} {place place' : Nat} {t t' : Token}
    (hpositions : ts.Pairwise fun t u => t.position < u.position) (ht : ts[place]? = some t)
    (ht' : ts[place']? = some t') (h : t.position = t'.position) : place = place' := by
  obtain ⟨hlt, rfl⟩ := List.getElem?_eq_some_iff.1 ht
  obtain ⟨hlt', rfl⟩ := List.getElem?_eq_some_iff.1 ht'
  rcases Nat.lt_trichotomy place place' with hbefore | heq | hbehind
  · exact absurd h (Position.ne_of_lt (List.pairwise_iff_getElem.1 hpositions _ _ hlt hlt' hbefore))
  · exact heq
  · exact absurd h.symm
      (Position.ne_of_lt (List.pairwise_iff_getElem.1 hpositions _ _ hlt' hlt hbehind))

namespace Parser

/-- A tokenization ends with an end, and has no other one. -/
theorem eq_append_of_covers {d : Dialect} {joined : Bool} {before cs : List Char}
    {ts : List Token} (h : Covers d joined before ts cs) :
    ∃ e, e.kind = .eof ∧ ts = ts.takeWhile TokenStream.isProper ++ [e] := by
  induction h with
  | finish => exact ⟨_, rfl, rfl⟩
  | @token _ _ _ _ t ts _ proper _ _ _ ih =>
      obtain ⟨e, he, hts⟩ := ih
      have hproper : TokenStream.isProper t = true := bne_iff_ne.2 proper
      refine ⟨e, he, ?_⟩
      rw [List.takeWhile_cons_of_pos hproper, List.cons_append, ← hts]

/-- One label with the name and the line of the token `name` comes from it, no other node does,
and one report at its position says so. -/
structure RecoveredAt (outcome : Outcome) (places : List Nat) (place : Nat) (name : Token) :
    Prop where
  node : ∃ id child type,
    (placements outcome.tree Node.Kind.hasToken outcome.tree.walk places).filter
      (fun x => x.2 == place) = [(id, place)] ∧
    outcome.tree.node id = ⟨.label name.text child type, name.line⟩
  report : outcome.diagnostics.filter
    (fun d => d.position == name.position && d.kind == .recoveredLabel) = [.detachedLabel name]

/-- No label comes from the token `name`, and nothing is reported to be recovered there. -/
structure PassedOverAt (outcome : Outcome) (places : List Nat) (place : Nat) (name : Token) :
    Prop where
  node : ∀ id, (id, place) ∈ placements outcome.tree Node.Kind.hasToken outcome.tree.walk places →
    (outcome.tree.kind id).isLabel = false
  report : outcome.diagnostics.filter
    (fun d => d.position == name.position && d.kind == .recoveredLabel) = []

section Program

variable {limit : Nat} {ts : List Token} {places : List Nat} {place : Nat} {name : Token}

/-- A name with a detached colon on its own line is reported, unless it is asked for. -/
theorem mem_diagnostics_of_detachedAt (limit : Nat)
    (hname : DetachedAt (ts.takeWhile TokenStream.isProper) place name) :
    Diagnostic.detachedLabel name ∈ (program limit ts).diagnostics ∨
      AskedFor limit ts ((ts.takeWhile TokenStream.isProper).drop place) := by
  obtain ⟨f, rfl, hproper, htokens⟩ := hname.exists_fence
  rw [← htokens]
  exact f.reports limit hproper

/-- A name that is asked for is not reported. -/
theorem AskedFor.not_mem_diagnostics
    (h : AskedFor limit ts ((ts.takeWhile TokenStream.isProper).drop place))
    (hpositions : (ts.takeWhile TokenStream.isProper).Pairwise fun t u => t.position < u.position)
    (hhere : (ts.takeWhile TokenStream.isProper)[place]? = some name) (isName : name.kind = .name) :
    Diagnostic.detachedLabel name ∉ (program limit ts).diagnostics := by
  intro hreported
  obtain ⟨s, hs, hcurrent, hsame⟩ := exists_atStatement_of_recovery hreported rfl
  obtain ⟨account, haccount⟩ := hs.exists_accounts
  have hdrop : (ts.takeWhile TokenStream.isProper).drop
      (account.flatMap Syntax.Statement.tokens).length = s.stream.ahead := by
    rw [haccount.tokens_eq, List.drop_left]
  have hat : (ts.takeWhile TokenStream.isProper)[
      (account.flatMap Syntax.Statement.tokens).length]? = some s.current := by
    rw [← List.head?_drop, hdrop, State.ahead_eq_cons hcurrent]
    rfl
  rw [eq_of_position_eq hpositions hat hhere (congrArg Diagnostic.position hsame).symm] at hdrop
  obtain ⟨hlt, hget⟩ := List.getElem?_eq_some_iff.1 hhere
  have hbehind := List.drop_eq_getElem_cons hlt
  rw [hget] at hbehind
  rw [hbehind] at h hdrop
  exact h.ahead_ne isName hs hdrop.symm

/-- Only the report of the name itself says that something is recovered at its position. -/
theorem mem_diagnostics_of_position
    (hpositions : (ts.takeWhile TokenStream.isProper).Pairwise fun t u => t.position < u.position)
    (hname : (ts.takeWhile TokenStream.isProper)[place]? = some name) {d : Diagnostic}
    (hd : d ∈ (program limit ts).diagnostics.filter
      fun d => d.position == name.position && d.kind == .recoveredLabel) :
    d = .detachedLabel name := by
  rw [← List.filter_filter, List.mem_filter] at hd
  obtain ⟨token, htoken, rfl⟩ := List.mem_map.1 ((program_traced limit ts).sublist_recovered.subset
    hd.1)
  obtain ⟨place', hplace'⟩ := List.mem_iff_getElem?.1 htoken
  obtain rfl := eq_of_position_eq hpositions hplace' hname (eq_of_beq hd.2)
  rw [hname] at hplace'
  cases hplace'
  rfl

variable (hrecovers : Recovers (program limit ts).tree Node.Kind.hasToken
    (ts.takeWhile TokenStream.isProper) (program limit ts).tree.walk places
    (program limit ts).diagnostics)
  (hpositions : (ts.takeWhile TokenStream.isProper).Pairwise fun t u => t.position < u.position)

include hrecovers hpositions

/-- A name that is not reported to be recovered has not become a label. -/
theorem passedOverAt_of_not_mem (hname : (ts.takeWhile TokenStream.isProper)[place]? = some name)
    (hother : name.kind ≠ .label)
    (hreported : Diagnostic.detachedLabel name ∉ (program limit ts).diagnostics) :
    PassedOverAt (program limit ts) places place name := by
  constructor
  · intro id hpair
    rw [Bool.eq_false_iff]
    intro hlabel
    exact hreported (hrecovers.reported id place name hpair hlabel hname hother)
  · refine List.eq_nil_iff_forall_not_mem.2 fun d hd => hreported ?_
    rw [← mem_diagnostics_of_position hpositions hname hd]
    exact (List.mem_filter.1 hd).1

variable (hplaces : Placed (program limit ts).tree Node.Kind.hasToken
    (ts.takeWhile TokenStream.isProper) (program limit ts).tree.walk
    (recoveries (program limit ts).diagnostics) places)

include hplaces

/-- A name that is reported to be recovered has become one label. -/
theorem recoveredAt_of_mem (hname : (ts.takeWhile TokenStream.isProper)[place]? = some name)
    (htext : name.Declares name.text)
    (hreported : Diagnostic.detachedLabel name ∈ (program limit ts).diagnostics) :
    RecoveredAt (program limit ts) places place name := by
  have hrecovery := List.mem_filter.2 ⟨hreported, (rfl : Diagnostic.isRecovery _ = true)⟩
  constructor
  · obtain ⟨id, place', token, hpair, hlabel, htoken, hsame⟩ := hrecovers.isLabel _ hrecovery
    obtain rfl := eq_of_position_eq hpositions hname htoken (congrArg Diagnostic.position hsame)
    obtain ⟨token', text, child, type, htoken', hdeclares, hnode, _⟩ :=
      ((List.forall₂_iff_zip.1 hplaces.stands).2 hpair).of_isLabel hlabel
    rw [hname] at htoken'
    cases htoken'
    rw [Token.declares_iff.1 hdeclares, ← Token.declares_iff.1 htext] at hnode
    exact ⟨id, child, type, filter_key_eq hplaces.nodup_placements hpair, hnode⟩
  · rw [← List.filter_filter]
    refine filter_key_eq ?_ hrecovery
    refine List.Nodup.sublist ((program_traced limit ts).sublist_recovered.map
      Diagnostic.position) ?_
    rw [List.map_map]
    exact List.pairwise_map.2 (hpositions.imp Position.ne_of_lt)

end Program

/-- The nodes of a program that come from tokens, with their places. -/
theorem program_recovers (limit : Nat) (ts : List Token) :
    let tree := (program limit ts).tree
    let proper := ts.takeWhile TokenStream.isProper
    ∃ places, Placed tree Node.Kind.hasToken proper tree.walk
        (recoveries (program limit ts).diagnostics) places ∧
      Recovers tree Node.Kind.hasToken proper tree.walk places (program limit ts).diagnostics := by
  intro tree proper
  obtain ⟨places, hplaces, hrecovers⟩ := (program_traced limit ts).exists_recovers
    Node.Kind.hasToken (fun _ h => h) fun _ h => Node.Kind.hasToken_of_isLabel h
  have hroot : (tree.kind 0).hasToken = false := by
    rw [(program_unshared limit ts).rooted.kind_eq]
    rfl
  have hwalk : tree.walk = 0 :: tree.items.flatMap tree.preorder := Tree.walk_eq tree
  exact ⟨places, hwalk ▸ hplaces.cons_of_not_keep hroot, hwalk ▸ hrecovers.cons_of_not_keep hroot⟩

/-- In a text that scans without an error, a name with a detached colon that begins its
line becomes a label with its name and line, unless it is asked for.  The root leads to this
label, no other node comes from the token, and one diagnostic at its position reports the label as
recovered.  From a name that is asked for no label comes, and no diagnostic at its position reports
one as recovered.  Which node comes from which token is the same for all names: the nodes that
come from tokens do so in order. -/
theorem readSource_detachedLabels {o : ReadOptions} {text : String} {ts : List Token}
    (h : (tokenize o.dialect text .empty).1 = .ok ts) :
    ∃ outcome, (readSource o text).1 = .ok outcome ∧
      (∀ id, id ∈ outcome.tree.walk ↔ outcome.tree.Reaches id) ∧ outcome.tree.walk.Nodup ∧
      ∃ places : List Nat, places.Pairwise (· < ·) ∧
        List.Forall₂ (StandsAt outcome.tree ts)
          (outcome.tree.walk.filter fun id => (outcome.tree.kind id).hasToken) places ∧
        ∀ place name, DetachedAt ts place name →
          let behind := (ts.takeWhile TokenStream.isProper).drop place
          RecoveredAt outcome places place name ∧ ¬ AskedFor o.nestingLimit ts behind ∨
            PassedOverAt outcome places place name ∧ AskedFor o.nestingLimit ts behind := by
  have hunshared := program_unshared o.nestingLimit ts
  obtain ⟨hcovers, hall⟩ := tokenize_covers h
  have hpositions := hall.sublist (List.takeWhile_sublist TokenStream.isProper)
  obtain ⟨places, hplaces, hrecovers⟩ := program_recovers o.nestingLimit ts
  refine ⟨_, readSource_fst h, fun _ => hunshared.mem_walk_iff, hunshared.nodup_walk, places,
    hplaces.increasing, hplaces.stands.imp fun _ _ h => h.of_takeWhile, ?_⟩
  intro place name hname behind
  have htext := hname.declares_text h
  obtain ⟨e, he, hts⟩ := eq_append_of_covers hcovers
  rw [hts] at hname
  have hproper := hname.of_append_eof he
  by_cases hreported : Diagnostic.detachedLabel name ∈ (program o.nestingLimit ts).diagnostics
  · refine .inl ⟨recoveredAt_of_mem hrecovers hpositions hplaces hproper.here htext hreported, ?_⟩
    exact fun hasked => hasked.not_mem_diagnostics hpositions hproper.here hproper.isName hreported
  · have hasked := (mem_diagnostics_of_detachedAt o.nestingLimit hproper).resolve_left hreported
    refine .inr ⟨?_, hasked⟩
    exact passedOverAt_of_not_mem hrecovers hpositions hproper.here
      (by rw [hproper.isName]; decide) hreported

/-- What asks for the name on the next line in its place asks for nothing elsewhere: a branch in no
code block, a mnemonic whose line has ended, an equals sign behind no name.  A plus sign in an
operand does ask. -/
theorem readSource_detachedLabels_stray :
    let text := "bne\nLoop :\n  lda\nFoo :\n  =\nBar :\n  lda 1 +\nEnd :"
    let ts : List Token :=
      [ ⟨.instruction .bne, "bne", ⟨1, 1⟩⟩
      , ⟨.name, "Loop", ⟨2, 1⟩⟩, ⟨.colon, ":", ⟨2, 6⟩⟩, ⟨.instruction .lda, "lda", ⟨3, 3⟩⟩
      , ⟨.name, "Foo", ⟨4, 1⟩⟩, ⟨.colon, ":", ⟨4, 5⟩⟩, ⟨.equals, "=", ⟨5, 3⟩⟩
      , ⟨.name, "Bar", ⟨6, 1⟩⟩, ⟨.colon, ":", ⟨6, 5⟩⟩
      , ⟨.instruction .lda, "lda", ⟨7, 3⟩⟩, ⟨.decConst, "1", ⟨7, 7⟩⟩, ⟨.plus, "+", ⟨7, 9⟩⟩
      , ⟨.name, "End", ⟨8, 1⟩⟩, ⟨.colon, ":", ⟨8, 5⟩⟩, .endAt ⟨8, 6⟩ ]
    let proper := ts.takeWhile TokenStream.isProper
    (tokenize {} text .empty).1 = .ok ts ∧
      ∃ outcome, (readSource {} text).1 = .ok outcome ∧
        (∀ x ∈ [(1, "Loop", 2), (4, "Foo", 4), (7, "Bar", 6)],
          let name : Token := ⟨.name, x.2.1, ⟨x.2.2, 1⟩⟩
          DetachedAt ts x.1 name ∧ ¬ AskedFor defaultLimit ts (proper.drop x.1) ∧
            (∃ id child type, outcome.tree.Reaches id ∧
              outcome.tree.node id = ⟨.label x.2.1 child type, x.2.2⟩) ∧
            outcome.diagnostics.filter
              (fun d => d.position == ⟨x.2.2, 1⟩ && d.kind == .recoveredLabel) =
                [.detachedLabel name]) ∧
        DetachedAt ts 12 ⟨.name, "End", ⟨8, 1⟩⟩ ∧ AskedFor defaultLimit ts (proper.drop 12) ∧
        outcome.diagnostics.filter
          (fun d => d.position == ⟨8, 1⟩ && d.kind == .recoveredLabel) = [] := by
  intro text ts proper
  have h : (tokenize {} text .empty).1 = .ok ts := by decide +kernel
  obtain ⟨outcome, houtcome, hwalk, _, places, _, _, hall⟩ :=
    readSource_detachedLabels (o := {}) h
  have hprogram : program defaultLimit ts = outcome :=
    Except.ok.inj ((readSource_fst (o := {}) h).symm.trans houtcome)
  have hnames : ∀ x ∈ [(1, "Loop", 2), (4, "Foo", 4), (7, "Bar", 6)],
      DetachedAt ts x.1 ⟨.name, x.2.1, ⟨x.2.2, 1⟩⟩ ∧
        (program defaultLimit ts).diagnostics.filter
          (fun d => d.position == ⟨x.2.2, 1⟩ && d.kind == .recoveredLabel) ≠ [] := by
    decide +kernel
  have hnone : (program defaultLimit ts).diagnostics.filter
      (fun d => d.position == ⟨8, 1⟩ && d.kind == .recoveredLabel) = [] := by decide +kernel
  have hend : DetachedAt ts 12 ⟨.name, "End", ⟨8, 1⟩⟩ := by decide
  rw [hprogram] at hnames hnone
  refine ⟨h, outcome, houtcome, ?_, hend, ?_, hnone⟩
  · intro x hx name
    obtain ⟨hname, hreported⟩ := hnames x hx
    rcases hall x.1 name hname with ⟨hrecovered, hfree⟩ | ⟨hpassed, _⟩
    · obtain ⟨id, child, type, hpair, hnode⟩ := hrecovered.node
      have hmem : (id, x.1) ∈ _ := List.mem_of_mem_filter (hpair ▸ List.mem_cons_self)
      have hreaches := (hwalk id).1 (List.mem_of_mem_filter (List.of_mem_zip hmem).1)
      exact ⟨hname, hfree, ⟨id, child, type, hreaches, hnode⟩, hrecovered.report⟩
    · exact absurd hpassed.report hreported
  · rcases hall 12 _ hend with ⟨hrecovered, _⟩ | ⟨_, hasked⟩
    · cases hnone.symm.trans hrecovered.report
    · exact hasked

/-- The tokens of lines that ask for more, each in front of a name with a detached
colon. -/
def continuedTokens : List Token :=
  [ ⟨.name, "FOO", ⟨1, 1⟩⟩, ⟨.equals, "=", ⟨1, 5⟩⟩
  , ⟨.name, "Loop", ⟨2, 1⟩⟩, ⟨.colon, ":", ⟨2, 6⟩⟩, ⟨.instruction .rts, "rts", ⟨3, 3⟩⟩
  , ⟨.label, "L:", ⟨4, 1⟩⟩
  , ⟨.instruction .lda, "lda", ⟨4, 4⟩⟩, ⟨.decConst, "1", ⟨4, 8⟩⟩, ⟨.plus, "+", ⟨4, 10⟩⟩
  , ⟨.name, "A", ⟨5, 1⟩⟩, ⟨.colon, ":", ⟨5, 3⟩⟩
  , ⟨.instruction .lda, "lda", ⟨6, 2⟩⟩, ⟨.decConst, "1", ⟨6, 6⟩⟩, ⟨.minus, "-", ⟨6, 8⟩⟩
  , ⟨.name, "B", ⟨7, 1⟩⟩, ⟨.colon, ":", ⟨7, 3⟩⟩
  , ⟨.instruction .lda, "lda", ⟨8, 2⟩⟩, ⟨.hash, "#", ⟨8, 6⟩⟩
  , ⟨.name, "C", ⟨9, 1⟩⟩, ⟨.colon, ":", ⟨9, 3⟩⟩
  , ⟨.instruction .lda, "lda", ⟨10, 2⟩⟩, ⟨.less, "<", ⟨10, 6⟩⟩
  , ⟨.name, "D", ⟨11, 1⟩⟩, ⟨.colon, ":", ⟨11, 3⟩⟩
  , ⟨.instruction .lda, "lda", ⟨12, 2⟩⟩, ⟨.greater, ">", ⟨12, 6⟩⟩
  , ⟨.name, "E", ⟨13, 1⟩⟩, ⟨.colon, ":", ⟨13, 3⟩⟩
  , ⟨.dataBytes, ".db", ⟨14, 2⟩⟩, ⟨.decConst, "1", ⟨14, 6⟩⟩, ⟨.comma, ",", ⟨14, 7⟩⟩
  , ⟨.name, "F", ⟨15, 1⟩⟩, ⟨.colon, ":", ⟨15, 3⟩⟩
  , ⟨.instruction .bne, "bne", ⟨16, 2⟩⟩
  , ⟨.name, "G", ⟨17, 1⟩⟩, ⟨.colon, ":", ⟨17, 3⟩⟩
  , ⟨.instruction .lda, "lda", ⟨18, 2⟩⟩, ⟨.parenLeft, "(", ⟨18, 6⟩⟩
  , ⟨.name, "H", ⟨19, 1⟩⟩, ⟨.colon, ":", ⟨19, 3⟩⟩, .endAt ⟨20, 1⟩ ]

/-- Where the line above asks for more, it takes the name: no label has the line of the
name, and none is reported to be recovered. -/
theorem readSource_detachedLabels_continued :
    let text := "FOO =\nLoop :\n  rts\nL: lda 1 +\nA :\n lda 1 -\nB :\n lda #\nC :\n" ++
      " lda <\nD :\n lda >\nE :\n .db 1,\nF :\n bne\nG :\n lda (\nH :\n"
    let outcome := program defaultLimit continuedTokens
    (tokenize {} text .empty).1 = .ok continuedTokens ∧ (readSource {} text).1 = .ok outcome ∧
      (∀ place ∈ [2, 9, 14, 18, 22, 26, 31, 34, 38], ∃ name,
        DetachedAt continuedTokens place name ∧
          ∀ id, outcome.tree.Reaches id → (outcome.tree.kind id).isLabel = true →
            outcome.tree.line id ≠ name.line) ∧
      ∀ d ∈ outcome.diagnostics, d.kind ≠ .recoveredLabel := by
  intro text outcome
  have h : (tokenize {} text .empty).1 = .ok continuedTokens := by decide +kernel
  have hnames : ∀ place ∈ [2, 9, 14, 18, 22, 26, 31, 34, 38], ∃ name ∈ continuedTokens,
      DetachedAt continuedTokens place name ∧ name.line ≠ 4 := by decide +kernel
  have hlabels : ∀ id ∈ outcome.tree.walk, (outcome.tree.kind id).isLabel = true →
      outcome.tree.line id = 4 := by decide +kernel
  refine ⟨h, readSource_fst h, ?_, by decide +kernel⟩
  intro place hplace
  obtain ⟨name, _, hname, hline⟩ := hnames place hplace
  refine ⟨name, hname, ?_⟩
  intro id hreaches hlabel
  have hid := (program_unshared defaultLimit continuedTokens).mem_walk_iff.2 hreaches
  rw [hlabels id hid hlabel]
  exact hline.symm

end Parser

end Asm6502
