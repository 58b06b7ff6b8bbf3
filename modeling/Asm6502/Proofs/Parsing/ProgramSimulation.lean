import Asm6502.Proofs.Parsing.Simulation

/-!
# Programs that are read the same way

What holds of expressions and items goes on to hold of blocks, sections and statements:
two runs that a simulation relates stay related, statement by statement, through all that
is skipped or given up on the way.

## Main results

* `resync_same` — the two runs find the same place to go on.
* `statement_same` — statements are read alike.
* `alike_statementRound` — so are programs, if the runs are over at the same time.
-/

namespace Asm6502.Parser.Simulation

variable {limit : Nat} {S : Simulation limit} {s s' : State}

/-! ## Where statements start -/

theorem startsStatement_eq (hs : S.Related s s') :
    startsStatement s.stream = startsStatement s'.stream := by
  by_cases hcurrent : s'.current.kind = .eof
  · have hstop (u : State) (hu : IsStop u.current.kind) : startsStatement u.stream = true := by
      have hkind : IsStop u.stream.current.kind := hu
      rcases hkind with h | h
      · simp [startsStatement, h]
      · simp [startsStatement, h]
    rw [hstop s (S.stop hs hcurrent), hstop s' (.inl hcurrent)]
  · have hkind : s.stream.current.kind = s'.stream.current.kind := S.kind_eq (S.current hs hcurrent)
    have hnext := lookup_eq (S.advance hs hcurrent) (fun k => k == .colon || k == .equals) rfl
    have hnext' : (s.stream.advance.current.kind == .colon ||
          s.stream.advance.current.kind == .equals) =
        (s'.stream.advance.current.kind == .colon ||
          s'.stream.advance.current.kind == .equals) := hnext
    unfold startsStatement
    rw [hkind, hnext']

theorem endsBlock_eq (hs : S.Related s s') : endsBlock s.stream = endsBlock s'.stream := by
  have hdirective : (s.stream.current.kind != .directive) =
      (s'.stream.current.kind != .directive) := lookup_eq hs (fun k => k != .directive) rfl
  rw [endsBlock, endsBlock, startsStatement_eq hs, hdirective]

/-- Seeking passes token after token. -/
theorem resync_eq (s : State) :
    s.resync = if startsStatement s.stream then s else s.advance.resync := by
  obtain ⟨⟨ahead, finish⟩, tree, diagnostics⟩ := s
  cases ahead with
  | nil => rfl
  | cons t ts =>
      show State.mk (seekStatement finish (t :: ts)) tree diagnostics = _
      rw [seekStatement]
      by_cases hstarts : startsStatement ⟨t :: ts, finish⟩ = true
      · rw [if_pos hstarts, if_pos hstarts]
      · rw [if_neg hstarts, if_neg hstarts]
        rfl

/-- The place nearest ahead where a statement can start is the same, or the end. -/
theorem resync_same (hs : S.Related s s') : S.Related s.resync s'.resync := by
  induction hn : s'.remaining using Nat.strongRecOn generalizing s s' with
  | ind n ih =>
    rw [resync_eq s, resync_eq s', startsStatement_eq hs]
    by_cases hstarts : startsStatement s'.stream = true
    · rw [if_pos hstarts, if_pos hstarts]
      exact hs
    · rw [if_neg hstarts, if_neg hstarts]
      have hcurrent : s'.current.kind ≠ .eof := by
        intro hk
        have hkind : s'.stream.current.kind = .eof := hk
        exact hstarts (by simp [startsStatement, hkind])
      exact ih _ (hn ▸ State.remaining_advance_lt hcurrent) (S.advance hs hcurrent) rfl

theorem recover_same (hs : S.Related s s') {e e' : Failure} (he : S.Fails e e') :
    S.Related (s.recover e) (s'.recover e') := resync_same (S.diagnose hs he.1 he.2)

/-- A token is skipped, with a report on where it stands. -/
theorem skip_same (hs : S.Related s s') (report : Token → Diagnostic)
    (hposition : ∀ t, (report t).position = t.position)
    (hkind : ∀ t t', (report t).kind = (report t').kind) (hcurrent : s'.current.kind ≠ .eof) :
    S.Related (s.skip report) (s'.skip report) := by
  refine S.advance (S.diagnose hs (hkind _ _) ?_) hcurrent
  rw [hposition, hposition]
  exact S.currentPlace hs

theorem skipDirective_same (hs : S.Related s s') (hcurrent : s'.current.kind ≠ .eof) :
    S.Related s.skipDirective s'.skipDirective := by
  have hbehind := S.advance hs hcurrent
  unfold State.skipDirective
  dsimp only
  rw [lookup_eq hbehind Token.Kind.isConstant rfl]
  by_cases hconst : s'.advance.current.kind.isConstant = true
  · rw [if_pos hconst, if_pos hconst]
    exact S.advance hbehind (ne_eof_of_isConstant hconst)
  · rw [if_neg hconst, if_neg hconst]
    exact hbehind

/-! ## Blocks -/

/-- Step by step, code blocks grow alike. -/
theorem alike_blockRound (x x' : List NodeId × State)
    (hx : S.SameList x.1 x'.1 ∧ S.Related x.2 x'.2) :
    Sum.LiftRel (fun x x' => S.SameList x.1 x'.1 ∧ S.Related x.2 x'.2)
      (fun r r' => S.SameList r.1 r'.1 ∧ S.Related r.2 r'.2)
      (blockRound limit x) (blockRound limit x') := by
  obtain ⟨hdone, hs⟩ := hx
  unfold blockRound
  rw [endsBlock_eq hs]
  by_cases hends : endsBlock x'.2.stream = true
  · rw [if_pos hends, if_pos hends]
    exact .inr ⟨hdone.reverse, hs⟩
  · rw [if_neg hends, if_neg hends]
    have hcurrent := current_ne_eof_of_not_endsBlock hends
    rw [S.kind_eq (S.current hs hcurrent)]
    by_cases hdirective : x'.2.current.kind = .directive
    · rw [if_pos hdirective, if_pos hdirective]
      exact .inl ⟨hdone, skipDirective_same hs hcurrent⟩
    · rw [if_neg hdirective, if_neg hdirective]
      cases hitem : item? limit x'.2.current.kind with
      | none =>
          exact .inl ⟨hdone, skip_same hs .stall (fun _ => rfl) (fun _ _ => rfl) hcurrent⟩
      | some item =>
          have hrun := alike_item hitem hs
          unfold Alike at hrun
          dsimp only
          generalize item x.2 = r at hrun ⊢
          generalize item x'.2 = r' at hrun ⊢
          cases hrun with
          | ok hfound ht => exact .inl ⟨hdone.append_toList hfound, ht⟩
          | error hfails ht => exact .inr ⟨hdone.reverse, recover_same ht hfails⟩

theorem alike_block (hs : S.Related s s') :
    S.SameIfAny (block limit s).1 (block limit s').1 ∧
      S.Related (block limit s).2 (block limit s').2 := by
  obtain ⟨_, _, h⟩ := blockItems_rounds limit [] (Nat.le_refl s.remaining)
  obtain ⟨_, _, h'⟩ := blockItems_rounds limit [] (Nat.le_refl s'.remaining)
  obtain ⟨hids, ht⟩ := h.alike _ _ h' ⟨sameList_nil S, hs⟩ alike_blockRound
  exact (addList_same ht hids).symm

/-! ## Sections and declarations -/

theorem declaredName_eq {t t' : Token} (h : S.Tokens t t') : t.declaredName = t'.declaredName := by
  rw [Token.declaredName, Token.declaredName, S.text_eq h]

theorem alike_addLabel {token token' : Token} (htokens : S.Tokens token token')
    {child child' : Option NodeId} (hchild : S.SameIfAny child child') (hs : S.Related s s') :
    S.Related (addLabel token child s).2 (addLabel token' child' s').2 ∧
      S.Same (addLabel token child s).1 (addLabel token' child' s').1 := by
  refine add_same hs ?_ (S.line htokens)
  rw [declaredName_eq htokens, hchild.1]
  rfl

theorem alike_addLabels {labels labels' : List Token} (hlabels : List.Forall₂ S.Tokens labels labels')
    {x x' : Option NodeId × State} (hchild : S.SameIfAny x.1 x'.1) (hs : S.Related x.2 x'.2) :
    S.SameIfAny (addLabels labels x).1 (addLabels labels' x').1 ∧
      S.Related (addLabels labels x).2 (addLabels labels' x').2 := by
  induction hlabels with
  | nil => exact ⟨hchild, hs⟩
  | cons htoken _ ih =>
      obtain ⟨ht, hid⟩ := alike_addLabel htoken ih.1 ih.2
      rw [addLabels_cons, addLabels_cons]
      exact ⟨sameIfAny_some hid, ht⟩

/-- A section is read alike behind labels that are the same. -/
theorem labelSection_same {token token' : Token} (htokens : S.Tokens token token')
    (hlabels : List.Forall₂ S.Tokens s.labels s'.labels)
    (hpast : S.Related s.pastLabels s'.pastLabels) :
    S.Related (labelSection limit token s) (labelSection limit token' s') := by
  obtain ⟨hhead, hblock⟩ := alike_block hpast
  obtain ⟨hchild, hchain⟩ := alike_addLabels hlabels hhead hblock
  obtain ⟨hlast, hid⟩ := alike_addLabel htokens hchild hchain
  rw [labelSection_eq, labelSection_eq]
  exact pushItem_same hlast hid

theorem alike_declaration (hs : S.Related s s') (hname : s'.current.kind ≠ .eof)
    (hequals : s'.advance.current.kind ≠ .eof) :
    S.Alike S.Same (declaration limit) (declaration limit) s s' := by
  have htokens := S.current hs hname
  have hbehind := S.advance hs hname
  unfold declaration
  rw [alike_current, alike_advance, alike_current, alike_advance, S.text_eq htokens]
  refine alike_bind
    (alike_required _ _ (alike_expression limit (S.advance hbehind hequals))) ?_
  intro value value' t t' hvalue ht
  exact alike_add ht (congrArg (Node.Kind.decl s'.current.text) hvalue.1) (S.line htokens)

/-! ## Statements -/

theorem statement_same (hs : S.Related s s') (hcurrent : s'.current.kind ≠ .eof) :
    S.Related (statement limit s) (statement limit s') := by
  have htokens := S.current hs hcurrent
  have hbehind := S.advance hs hcurrent
  have hnext {k : Token.Kind} (heof : k ≠ .eof) (hlabel : k ≠ .label) :
      s.stream.advance.current.kind = k ↔ s'.stream.advance.current.kind = k :=
    kind_eq_iff hbehind heof hlabel
  unfold statement
  dsimp only
  rw [S.kind_eq htokens]
  cases hk : s'.current.kind with
  | directive => exact skipDirective_same hs hcurrent
  | label =>
      obtain ⟨hlabels, hpast⟩ := S.labels hs (.inl hk)
      exact labelSection_same htokens hlabels hpast
  | name =>
      dsimp only
      by_cases hequals : s'.stream.advance.current.kind = .equals
      · have hequals' : s'.advance.current.kind ≠ .eof := by
          rw [show s'.advance.current.kind = .equals from hequals]
          decide
        have hrun := alike_declaration hs hcurrent hequals'
        rw [(hnext (by decide) (by decide)).2 hequals, hequals]
        unfold Alike at hrun
        dsimp only
        generalize declaration limit s = r at hrun ⊢
        generalize declaration limit s' = r' at hrun ⊢
        cases hrun with
        | ok hid ht => exact pushItem_same ht hid
        | error hfails ht => exact recover_same ht hfails
      · by_cases hcolon : s'.stream.advance.current.kind = .colon
        · obtain ⟨hlabels, hpast⟩ := S.labels hbehind (.inr hcolon)
          rw [(hnext (by decide) (by decide)).2 hcolon, hcolon]
          exact labelSection_same htokens hlabels (S.diagnose hpast rfl (S.place htokens))
        · have hequals' : s.stream.advance.current.kind ≠ .equals :=
            mt (hnext (by decide) (by decide)).1 hequals
          have hcolon' : s.stream.advance.current.kind ≠ .colon :=
            mt (hnext (by decide) (by decide)).1 hcolon
          split
          next h => exact absurd h hequals'
          next h => exact absurd h hcolon'
          next => exact skip_same hs .strayName (fun _ => rfl) (fun _ _ => rfl) hcurrent
  | _ => exact skip_same hs .noStatement (fun _ => rfl) (fun _ _ => rfl) hcurrent

/-! ## Programs -/

/-- The first run keeps up with the second one. -/
theorem statementRound_follows {t' : State} (hs : S.Related s s')
    (hround : statementRound limit s' = .inl t') :
    s.current.kind ≠ .eof ∧ statementRound limit s = .inl (statement limit s) ∧
      S.Related (statement limit s) t' := by
  obtain ⟨hcurrent, rfl⟩ := statementRound_eq_inl.1 hround
  have hcurrent' : s.current.kind ≠ .eof := by
    rw [S.kind_eq (S.current hs hcurrent)]
    exact hcurrent
  exact ⟨hcurrent', statementRound_eq_inl.2 ⟨hcurrent', rfl⟩, statement_same hs hcurrent⟩

/-- If the first run is over where the second one is, they end together. -/
theorem alike_statementRound
    (hends : ∀ s s', S.Related s s' → s'.current.kind = .eof → s.current.kind = .eof)
    (s s' : State) (hs : S.Related s s') :
    Sum.LiftRel S.Related S.Related (statementRound limit s) (statementRound limit s') := by
  by_cases hcurrent : s'.current.kind = .eof
  · rw [statementRound_eq_inr.2 ⟨hends s s' hs hcurrent, rfl⟩,
      statementRound_eq_inr.2 ⟨hcurrent, rfl⟩]
    exact .inr hs
  · have hnext : statementRound limit s' = .inl (statement limit s') :=
      statementRound_eq_inl.2 ⟨hcurrent, rfl⟩
    obtain ⟨_, hround, ht⟩ := statementRound_follows hs hnext
    rw [hround, hnext]
    exact .inl ht

end Asm6502.Parser.Simulation
