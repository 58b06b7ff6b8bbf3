import Asm6502.Proofs.Parsing.ProgramSoundness
import Mathlib.Logic.Relation

/-!
# How far reading has come

A program is read by two loops, one over its statements and one over the items of a code block.
What holds of the whole outcome is proved by what each of their rounds keeps.  Other facts are
about one phrase in the midst of a program: that a statement started there, that an item
reported something.  For these the states in between are named: those in which a statement is
next, and those in which a code block goes on.

From such a state on, reading goes its way to the end.  It only adds to the diagnostics, so what
has been reported in one of these states is the beginning of what the program reports.

## Main results

* `AtStatement.keeps`, `AtItem.keeps` — what holds in all of these states.
* `AtStatement.rounds`, `AtItem.exists_statement` — how reading goes on from them.
* `AtStatement.remaining_le_statement` — in which order it comes to them.
* `AtItem.diagnostics_stay` — what has been reported stays reported.
-/

namespace Asm6502.Parser

open Syntax

/-! ## Rounds in between -/

section Comes

variable {σ ρ : Type} {round : σ → σ ⊕ ρ} {x y z : σ} {r : ρ} {n : Nat}

/-- The loop goes from `x` through some rounds to `y`. -/
def Comes (round : σ → σ ⊕ ρ) : σ → σ → Prop := Relation.ReflTransGen fun x y => round x = .inl y

theorem Comes.keeps (h : Comes round x y) (keeps : σ → Prop) (hx : keeps x)
    (hmore : ∀ x y, keeps x → round x = .inl y → keeps y) : keeps y := by
  induction h with
  | refl => exact hx
  | tail _ hround ih => exact hmore _ _ ih hround

/-- A loop goes one way, so of two points on it one comes behind the other. -/
theorem Comes.total (h : Comes round x y) (h' : Comes round x z) :
    Comes round y z ∨ Comes round z y := by
  refine h.total_of_right_unique ?_ h'
  intro a b c hb hc
  exact Sum.inl.inj (hb.symm.trans hc)

/-- From there on the loop goes to the same end. -/
theorem Comes.exists_rounds (h : Comes round x y) (hx : Rounds round n x r) :
    ∃ m, Rounds round m y r := by
  induction h with
  | refl => exact ⟨n, hx⟩
  | tail _ hround ih =>
      obtain ⟨m, hm⟩ := ih
      cases hm with
      | last h =>
          rw [h] at hround
          cases hround
      | more h rest =>
          cases h.symm.trans hround
          exact ⟨_, rest⟩

theorem Rounds.unique {r' : ρ} {n' : Nat} (h : Rounds round n x r) (h' : Rounds round n' x r') :
    r = r' := by
  refine h.alike Eq Eq h' rfl ?_
  rintro x _ rfl
  cases round x with
  | inl y => exact .inl rfl
  | inr r => exact .inr rfl

end Comes

/-! ## The states -/

variable {limit : Nat} {ts : List Token} {s s' : State} {x y : List NodeId × State}

/-- Reading the tokens comes to the state, in which a statement is next or the tokens are over. -/
def AtStatement (limit : Nat) (ts : List Token) (s : State) : Prop :=
  Comes (statementRound limit) (State.start ts) s

/-- The statement in the state `s` is a section, and `s'` is the state behind its heading. -/
inductive Heads (s : State) : State → Prop where
  | label (isLabel : s.current.kind = .label) : Heads s s.advance
  | detached (isName : s.current.kind = .name) (isColon : s.advance.current.kind = .colon) :
      Heads s (s.advance.advance.diagnose (.detachedLabel s.current))

/-- Reading the tokens comes to the state `x.2`, in which a code block goes on, or ends, behind the
items `x.1`. -/
def AtItem (limit : Nat) (ts : List Token) (x : List NodeId × State) : Prop :=
  ∃ s s', AtStatement limit ts s ∧ Heads s s' ∧ Comes (blockRound limit) ([], s'.pastLabels) x

theorem Heads.current_ne_eof (h : Heads s s') : s.current.kind ≠ .eof := by
  cases h with
  | label isLabel =>
      rw [isLabel]
      decide
  | detached isName =>
      rw [isName]
      decide

theorem Heads.statement_eq (limit : Nat) (h : Heads s s') :
    statement limit s = labelSection limit s.current s' := by
  unfold statement
  cases h with
  | label isLabel => simp only [isLabel]
  | detached isName isColon =>
      have hcolon : s.stream.advance.current.kind = .colon := isColon
      simp only [isName, hcolon]

theorem AtStatement.start (limit : Nat) (ts : List Token) :
    AtStatement limit ts (State.start ts) := .refl

theorem AtStatement.next (h : AtStatement limit ts s) (hcurrent : s.current.kind ≠ .eof) :
    AtStatement limit ts (statement limit s) :=
  h.tail (statementRound_eq_inl.2 ⟨hcurrent, rfl⟩)

theorem AtItem.first (h : AtStatement limit ts s) (hheads : Heads s s') :
    AtItem limit ts ([], s'.pastLabels) := ⟨s, s', h, hheads, .refl⟩

theorem AtItem.next (h : AtItem limit ts x) (hround : blockRound limit x = .inl y) :
    AtItem limit ts y := by
  obtain ⟨s, s', hs, hheads, hx⟩ := h
  exact ⟨s, s', hs, hheads, hx.tail hround⟩

/-- What statements keep holds wherever a statement is next. -/
theorem AtStatement.keeps (h : AtStatement limit ts s) (keeps : State → Prop)
    (hstart : keeps (State.start ts))
    (hstatement : ∀ s, keeps s → s.current.kind ≠ .eof → keeps (statement limit s)) : keeps s := by
  refine Comes.keeps h keeps hstart ?_
  intro s s' hs hround
  obtain ⟨hcurrent, rfl⟩ := statementRound_eq_inl.1 hround
  exact hstatement s hs hcurrent

/-- What headings lead to and the steps through a block keep holds wherever a block goes on. -/
theorem AtItem.keeps (h : AtItem limit ts x) (keeps inBlock : State → Prop)
    (hstatement : ∀ s, AtStatement limit ts s → keeps s)
    (hheads : ∀ s s', keeps s → Heads s s' → inBlock s'.pastLabels)
    (hround : ∀ x y, inBlock x.2 → blockRound limit x = .inl y → inBlock y.2) : inBlock x.2 := by
  obtain ⟨s, s', hs, hs', hx⟩ := h
  exact hx.keeps (fun x => inBlock x.2) (hheads s s' (hstatement s hs) hs') hround

/-! ## Reading on -/

/-- Statement after statement, reading goes on to the outcome of the program. -/
theorem AtStatement.rounds (h : AtStatement limit ts s) :
    ∃ n s', Rounds (statementRound limit) n s s' ∧
      program limit ts = ⟨s'.tree, s'.diagnostics.toList⟩ := by
  obtain ⟨_, s', _, _, hrounds, hprogram, _, _⟩ := program_accounts limit ts
  obtain ⟨n, hn⟩ := Comes.exists_rounds h hrounds
  exact ⟨n, s', hn, hprogram⟩

/-- What statements keep from here on holds at the end. -/
theorem AtStatement.keeps_outcome (h : AtStatement limit ts s) (keeps : State → Prop)
    (hs : keeps s)
    (hstatement : ∀ s, keeps s → s.current.kind ≠ .eof → keeps (statement limit s)) :
    ∃ s', keeps s' ∧ program limit ts = ⟨s'.tree, s'.diagnostics.toList⟩ := by
  obtain ⟨_, s', hrounds, hprogram⟩ := h.rounds
  exact ⟨s', (hrounds.keeps keeps hs hstatement).2, hprogram⟩

/-- The end of a code block, from a point in it on. -/
abbrev blockEnd (limit : Nat) (x : List NodeId × State) : State :=
  (blockItems limit x.2.stream.ahead x.1 x.2).2

/-- Behind one step the end of a block is the same. -/
theorem blockEnd_eq_of_round (h : blockRound limit x = .inl y) :
    blockEnd limit x = blockEnd limit y := by
  obtain ⟨_, _, hx⟩ := blockItems_rounds (s := x.2) limit x.1 (Nat.le_refl _)
  obtain ⟨_, _, hy⟩ := blockItems_rounds (s := y.2) limit y.1 (Nat.le_refl _)
  exact congrArg Prod.snd (hx.unique (.more h hy))

theorem blockEnd_eq_of_last {r : List NodeId × State} (h : blockRound limit x = .inr r) :
    blockEnd limit x = r.2 := by
  obtain ⟨_, _, hx⟩ := blockItems_rounds (s := x.2) limit x.1 (Nat.le_refl _)
  exact congrArg Prod.snd (hx.unique (.last h))

theorem remaining_blockEnd_le (limit : Nat) (x : List NodeId × State) :
    (blockEnd limit x).remaining ≤ x.2.remaining := by
  obtain ⟨_, _, _, hparts⟩ := blockItems_reads limit x.2.stream.ahead x.1 x.2
  exact hparts.reads.remaining_le

theorem Heads.remaining_le (h : Heads s s') : s'.remaining ≤ s.remaining := by
  have hadvance := State.remaining_advance_lt h.current_ne_eof
  cases h with
  | label => exact Nat.le_of_lt hadvance
  | detached _ isColon =>
      have hcolon := State.remaining_advance_lt (s := s.advance) (by rw [isColon]; decide)
      exact Nat.le_of_lt (Nat.lt_trans hcolon hadvance)

/-- Item after item, reading goes on to the end of the statement that the block is in.  Only the
tree is another one there, for the labels of the section have been added. -/
theorem AtItem.exists_statement (h : AtItem limit ts x) :
    ∃ s, AtStatement limit ts s ∧ s.current.kind ≠ .eof ∧ x.2.remaining ≤ s.remaining ∧
      (statement limit s).stream = (blockEnd limit x).stream ∧
      (statement limit s).diagnostics = (blockEnd limit x).diagnostics := by
  obtain ⟨s, s', hs, hheads, hx⟩ := h
  let keeps (x : List NodeId × State) : Prop :=
    blockEnd limit ([], s'.pastLabels) = blockEnd limit x ∧
      x.2.remaining ≤ s'.pastLabels.remaining
  obtain ⟨hend, hle⟩ : keeps x := by
    refine Comes.keeps hx keeps ⟨rfl, Nat.le_refl _⟩ ?_
    rintro x y ⟨hend, hle⟩ hround
    exact ⟨hend.trans (blockEnd_eq_of_round hround),
      Nat.le_trans (Nat.le_of_lt (remaining_lt_of_blockRound hround)) hle⟩
  have hlabels := (State.reads_pastLabels s').remaining_le
  have hahead := Nat.le_trans hle (Nat.le_trans hlabels hheads.remaining_le)
  refine ⟨s, hs, hheads.current_ne_eof, hahead, ?_⟩
  rw [hheads.statement_eq, ← hend]
  exact labelSection_elsewhere limit s.current s'

/-- Wherever a statement is next, the tokens and the reports are accounted for. -/
theorem AtStatement.exists_accounts (h : AtStatement limit ts s) :
    ∃ account, Accounts limit (ts.takeWhile TokenStream.isProper) s account := by
  refine h.keeps (fun s => ∃ account, Accounts limit _ s account) ⟨[], .start ts⟩ ?_
  rintro s ⟨account, hs⟩ hcurrent
  obtain ⟨st, hst⟩ := statement_accounts limit hs hcurrent
  exact ⟨_, hst⟩

theorem AtStatement.remaining_statement_lt (h : AtStatement limit ts s)
    (hcurrent : s.current.kind ≠ .eof) : (statement limit s).remaining < s.remaining := by
  obtain ⟨_, hs⟩ := h.exists_accounts
  obtain ⟨_, hst⟩ := statement_accounts limit hs hcurrent
  exact hs.remaining_lt hst

theorem AtStatement.remaining_le_of_comes (h : AtStatement limit ts s)
    (hcomes : Comes (statementRound limit) s s') : s'.remaining ≤ s.remaining := by
  let keeps (s' : State) : Prop := AtStatement limit ts s' ∧ s'.remaining ≤ s.remaining
  refine (hcomes.keeps keeps ⟨h, Nat.le_refl _⟩ ?_).2
  rintro s₁ s₂ ⟨hs₁, hle⟩ hround
  obtain ⟨hcurrent, rfl⟩ := statementRound_eq_inl.1 hround
  exact ⟨hs₁.next hcurrent, Nat.le_trans (Nat.le_of_lt (hs₁.remaining_statement_lt hcurrent)) hle⟩

/-- Where fewer tokens are ahead, the statement in front has been read to its end. -/
theorem AtStatement.remaining_le_statement (h : AtStatement limit ts s)
    (h' : AtStatement limit ts s') (hlt : s'.remaining < s.remaining) :
    s'.remaining ≤ (statement limit s).remaining := by
  rcases Comes.total h h' with hcomes | hcomes
  · rcases hcomes.cases_head with rfl | ⟨_, hround, hmore⟩
    · exact absurd hlt (Nat.lt_irrefl _)
    · obtain ⟨hcurrent, rfl⟩ := statementRound_eq_inl.1 hround
      exact (h.next hcurrent).remaining_le_of_comes hmore
  · exact absurd hlt (Nat.not_lt.2 (h'.remaining_le_of_comes hcomes))

/-- What has been reported stays reported, in front of all else. -/
theorem AtStatement.diagnostics_stay (h : AtStatement limit ts s) :
    s.diagnostics.toList <+: (program limit ts).diagnostics := by
  let keeps (s' : State) : Prop :=
    (∃ account, Accounts limit (ts.takeWhile TokenStream.isProper) s' account) ∧
      s.diagnostics.toList <+: s'.diagnostics.toList
  obtain ⟨s', ⟨_, hprefix⟩, hprogram⟩ :=
    h.keeps_outcome keeps ⟨h.exists_accounts, List.prefix_rfl⟩ (by
      rintro s' ⟨⟨account, hs'⟩, hprefix⟩ hcurrent
      obtain ⟨st, hst⟩ := statement_accounts limit hs' hcurrent
      refine ⟨⟨_, hst⟩, hprefix.trans ?_⟩
      rw [hs'.diagnostics_eq, hst.diagnostics_eq, List.flatMap_append]
      exact List.prefix_append _ _)
  rw [hprogram]
  exact hprefix

/-- A label that is reported to be recovered was found where a statement started. -/
theorem exists_atStatement_of_recovery {d : Diagnostic} (hd : d ∈ (program limit ts).diagnostics)
    (hk : d.kind = .recoveredLabel) :
    ∃ s, AtStatement limit ts s ∧ s.current.kind ≠ .eof ∧ d = .detachedLabel s.current := by
  let found (d : Diagnostic) : Prop :=
    ∃ s, AtStatement limit ts s ∧ s.current.kind ≠ .eof ∧ d = .detachedLabel s.current
  let keeps (s : State) : Prop := AtStatement limit ts s ∧
    ∀ d ∈ s.diagnostics.toList, d.kind = .recoveredLabel → found d
  obtain ⟨s', ⟨_, hall⟩, hprogram⟩ := (AtStatement.start limit ts).keeps_outcome keeps
    ⟨.start limit ts, List.forall_mem_nil _⟩ (by
      rintro s ⟨hs, hall⟩ hcurrent
      obtain ⟨_, haccount⟩ := hs.exists_accounts
      obtain ⟨st, hst⟩ := statement_accounts limit haccount hcurrent
      refine ⟨hs.next hcurrent, ?_⟩
      intro d hd hk
      rw [hst.diagnostics_eq, List.flatMap_append, ← haccount.diagnostics_eq,
        List.flatMap_singleton] at hd
      rcases List.mem_append.1 hd with hd | hd
      · exact hall d hd hk
      · obtain ⟨name, more, htokens, rfl⟩ := st.exists_of_mem_reports hd hk
        have hahead := hst.tokens_eq
        rw [haccount.tokens_eq, List.flatMap_append, List.flatMap_singleton, List.append_assoc,
          htokens] at hahead
        rw [← State.current_eq_of_ahead (List.append_cancel_left hahead)]
        exact ⟨s, hs, hcurrent, rfl⟩)
  rw [hprogram] at hd
  exact hall d hd hk

theorem AtItem.diagnostics_stay (h : AtItem limit ts x) :
    x.2.diagnostics.toList <+: (program limit ts).diagnostics := by
  obtain ⟨s, hs, hcurrent, _, _, hdiagnostics⟩ := h.exists_statement
  obtain ⟨_, parts, _, hparts⟩ := blockItems_reads limit x.2.stream.ahead x.1 x.2
  have hblock : x.2.diagnostics.toList <+: (statement limit s).diagnostics.toList := by
    rw [hdiagnostics, hparts.reads.diagnostics_eq]
    exact List.prefix_append _ _
  exact hblock.trans (hs.next hcurrent).diagnostics_stay

end Asm6502.Parser
