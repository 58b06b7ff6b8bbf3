import Asm6502.Proofs.Parsing.Syntax

/-!
# What becomes of every token

Reading goes on whatever the tokens are, so most lists of tokens are no program,
and still each of their tokens is dealt with: it becomes part of an entry, or it is
passed over.  An account says which, one stretch of tokens after another.  The
stretches of an account, put together, are the tokens; the entries in it are what the
tree shows; and each stretch says what is reported about it.

Three things happen beside the reading of phrases.  A directive is passed over
silently.  A token that fits nowhere is skipped, with a report.  A phrase that turns
out wrong is given up: what was read of it and all that stands in front of the next
place where a statement can start is lost, with one report for all of it.

Labels are never among the tokens passed over or lost.

## Main results

* `Statement.interior` — what is passed over holds no label.
* `Statement.length_reports_le` — there is a token for each report.
* `Statement.sublist_tokens` — what an entry is made of comes from its tokens.
-/

namespace Asm6502.Syntax

/-! ## Stretches of tokens -/

/-- A directive and the one numeral that may follow it. -/
structure Directive where
  token : Token
  isDirective : token.kind = .directive
  argument : Option { t : Token // t.kind.isConstant = true }

def Directive.tokens (d : Directive) : List Token :=
  d.token :: (d.argument.map Subtype.val).toList

/-- A phrase that was given up, up to the place where a statement can start again. -/
structure GivenUp where
  first : Token
  lost : List Token
  interior : Parser.Interior (first :: lost)
  failure : Parser.Failure

def GivenUp.tokens (g : GivenUp) : List Token := g.first :: g.lost

/-- A stretch of a code block. -/
inductive BlockPart where
  | directive (d : Directive)
  | item (i : Item)
  /-- A data marker with no data on its line. -/
  | bareMarker (marker : Token) (width : DataWidth)
      (isMarker : markerWidth? marker.kind = some width)
  /-- A token that starts no item. -/
  | stalled (t : Token) (interior : Parser.Interior [t])
  /-- An item that was given up. -/
  | givenUp (g : GivenUp)

namespace BlockPart

def tokens : BlockPart → List Token
  | directive d => d.tokens
  | item i => i.tokens
  | bareMarker marker _ _ => [marker]
  | stalled t _ => [t]
  | givenUp g => g.tokens

/-- The item that a stretch is, if it is one. -/
def item? : BlockPart → Option Item
  | item i => some i
  | directive _ | bareMarker _ _ _ | stalled _ _ | givenUp _ => none

/-- What is reported about a stretch. -/
def reports : BlockPart → List Diagnostic
  | directive _ => []
  | item i => i.reports
  | bareMarker marker _ _ => [.noData marker]
  | stalled t _ => [.stall t]
  | givenUp g => [g.failure.diagnostic]

end BlockPart

/-- What a section starts with. -/
inductive Heading where
  | label (t : Token) (isLabel : t.kind = .label)
  /-- A name and a colon some way behind it. -/
  | detached (name colon : Token) (isName : name.kind = .name) (isColon : colon.kind = .colon)

namespace Heading

/-- The token that tells the name. -/
def token : Heading → Token
  | label t _ => t
  | detached name _ _ _ => name

def tokens : Heading → List Token
  | label t _ => [t]
  | detached name colon _ _ => [name, colon]

def reports : Heading → List Diagnostic
  | label _ _ => []
  | detached name _ _ _ => [.detachedLabel name]

end Heading

/-- A stretch of a program. -/
inductive Statement where
  | directive (d : Directive)
  | declaration (d : Declaration)
  /-- A declaration that was given up. -/
  | givenUp (g : GivenUp)
  /-- A section: its heading, the labels directly behind, and its code block. -/
  | labelled (heading : Heading) (nested : List Token)
      (areLabels : ∀ t ∈ nested, t.kind = .label) (parts : List BlockPart)
  /-- A token that starts no statement. -/
  | skipped (t : Token) (interior : Parser.Interior [t])

namespace Statement

def tokens : Statement → List Token
  | directive d => d.tokens
  | declaration d => d.tokens
  | givenUp g => g.tokens
  | labelled heading nested _ parts => heading.tokens ++ nested ++ parts.flatMap BlockPart.tokens
  | skipped t _ => [t]

/-- The entry that a stretch is, if it is one. -/
def entry? : Statement → Option Entry
  | declaration d => some (.declaration d)
  | labelled heading nested _ parts =>
    some (.labelled ⟨heading.token, nested, parts.filterMap BlockPart.item?⟩)
  | directive _ | givenUp _ | skipped _ _ => none

/-- What is reported about a stretch. -/
def reports : Statement → List Diagnostic
  | directive _ | declaration _ => []
  | givenUp g => [g.failure.diagnostic]
  | labelled heading _ _ parts => heading.reports ++ parts.flatMap BlockPart.reports
  | skipped t _ => [if t.kind = .name then .strayName t else .noStatement t]

end Statement

/-! ## What is never passed over -/

theorem Directive.interior (d : Directive) : Parser.Interior d.tokens := by
  have hdirective := Parser.Interior.of_kind d.isDirective (by decide) (by decide)
  refine hdirective.append ?_
  cases d.argument with
  | none => exact .nil
  | some argument => exact .of_isConstant argument.2

theorem BlockPart.interior (p : BlockPart) : Parser.Interior p.tokens := by
  cases p with
  | directive d => exact d.interior
  | item i => exact i.interior
  | bareMarker marker width isMarker => exact .of_eq_some isMarker rfl rfl
  | stalled t interior => exact interior
  | givenUp g => exact g.interior

/-- The labels are all in entries. -/
theorem Statement.interior (st : Statement) (h : st.entry? = none) :
    Parser.Interior st.tokens := by
  cases st with
  | directive d => exact d.interior
  | givenUp g => exact g.interior
  | skipped t interior => exact interior
  | declaration | labelled => cases h

/-! ## A token for each report -/

theorem length_flatMap_le {α β γ : Type} {f : α → List β} {g : α → List γ}
    (h : ∀ x, (f x).length ≤ (g x).length) (xs : List α) :
    (xs.flatMap f).length ≤ (xs.flatMap g).length := by
  induction xs with
  | nil => exact Nat.le_refl _
  | cons x xs ih =>
      rw [List.flatMap_cons, List.flatMap_cons, List.length_append, List.length_append]
      exact Nat.add_le_add (h x) ih

theorem Item.length_reports_le (i : Item) : i.reports.length ≤ i.tokens.length := by
  cases i with
  | instruction t mnemonic isMnemonic arguments =>
      simp only [reports, tokens, List.length_cons]
      split
      · simp
      · simp
  | data => simp [reports]

theorem BlockPart.length_reports_le (p : BlockPart) : p.reports.length ≤ p.tokens.length := by
  cases p with
  | directive d => simp [reports]
  | item i => exact i.length_reports_le
  | bareMarker marker => simp [reports, tokens]
  | stalled t => simp [reports, tokens]
  | givenUp g => simp [reports, tokens, GivenUp.tokens]

theorem Statement.length_reports_le (st : Statement) : st.reports.length ≤ st.tokens.length := by
  cases st with
  | directive d => simp [reports]
  | declaration d => simp [reports]
  | givenUp g => simp [reports, tokens, GivenUp.tokens]
  | labelled heading nested areLabels parts =>
      have hheading : heading.reports.length ≤ heading.tokens.length := by
        cases heading with
        | label => simp [Heading.reports]
        | detached => simp [Heading.reports, Heading.tokens]
      have hparts := length_flatMap_le BlockPart.length_reports_le parts
      simp only [reports, tokens, List.length_append]
      omega
  | skipped t => simp [reports, tokens]

theorem Statement.tokens_ne_nil (st : Statement) : st.tokens ≠ [] := by
  cases st with
  | directive | declaration | givenUp | skipped => exact List.cons_ne_nil _ _
  | labelled heading =>
      cases heading with
      | label | detached => exact List.cons_ne_nil _ _

/-! ## Which problems are reported -/

theorem Item.kind_of_mem_reports {i : Item} {r : Diagnostic} (hr : r ∈ i.reports) :
    r.kind = .missingOperand := by
  cases i with
  | instruction t mnemonic isMnemonic arguments =>
      simp only [reports] at hr
      split at hr
      · rw [List.mem_singleton.1 hr]
        rfl
      · cases hr
  | data => cases hr

theorem GivenUp.kind_ne (g : GivenUp) :
    g.failure.kind ≠ .recoveryExhausted ∧ g.failure.kind ≠ .recoveredLabel := by
  rcases g.failure.kind_eq with hk | hk
  · simp [hk]
  · simp [hk]

/-- Inside a block no label is recovered. -/
theorem BlockPart.kind_ne_of_mem_reports {p : BlockPart} {r : Diagnostic} (hr : r ∈ p.reports) :
    r.kind ≠ .recoveryExhausted ∧ r.kind ≠ .recoveredLabel := by
  cases p with
  | directive d => cases hr
  | item i => simp [Item.kind_of_mem_reports hr]
  | bareMarker marker => simp [List.mem_singleton.1 hr]
  | stalled t => simp [List.mem_singleton.1 hr]
  | givenUp g =>
      rw [List.mem_singleton.1 hr]
      exact g.kind_ne

/-- Reading is never given up altogether. -/
theorem Statement.kind_ne_of_mem_reports {st : Statement} {r : Diagnostic}
    (hr : r ∈ st.reports) : r.kind ≠ .recoveryExhausted := by
  cases st with
  | directive | declaration => cases hr
  | givenUp g =>
      rw [List.mem_singleton.1 hr]
      exact g.kind_ne.1
  | labelled heading nested areLabels parts =>
      rcases List.mem_append.1 hr with hr | hr
      · cases heading with
        | label => cases hr
        | detached => simp [List.mem_singleton.1 hr]
      · obtain ⟨p, _, hr⟩ := List.mem_flatMap.1 hr
        exact (BlockPart.kind_ne_of_mem_reports hr).1
  | skipped t =>
      rw [List.mem_singleton.1 hr]
      split
      · simp
      · simp

/-- The report of a recovered label is about the name that a section starts with. -/
theorem Statement.exists_of_mem_reports {st : Statement} {r : Diagnostic} (hr : r ∈ st.reports)
    (hk : r.kind = .recoveredLabel) :
    ∃ name more, st.tokens = name :: more ∧ r = .detachedLabel name := by
  cases st with
  | directive | declaration => cases hr
  | givenUp g =>
      rw [List.mem_singleton.1 hr] at hk
      exact absurd hk g.kind_ne.2
  | labelled heading nested areLabels parts =>
      rcases List.mem_append.1 hr with hr | hr
      · cases heading with
        | label => cases hr
        | detached name => exact ⟨name, _, rfl, List.mem_singleton.1 hr⟩
      · obtain ⟨p, _, hr⟩ := List.mem_flatMap.1 hr
        exact absurd hk (BlockPart.kind_ne_of_mem_reports hr).2
  | skipped t =>
      rw [List.mem_singleton.1 hr] at hk
      split at hk
      · cases hk
      · cases hk

/-! ## Entries and their tokens -/

/-- Picking some of the parts picks some of the tokens. -/
theorem sublist_flatMap_filterMap {α β γ : Type} {pick : α → Option β} {f : β → List γ}
    {g : α → List γ} (h : ∀ x y, pick x = some y → List.Sublist (f y) (g x)) (xs : List α) :
    List.Sublist ((xs.filterMap pick).flatMap f) (xs.flatMap g) := by
  induction xs with
  | nil => exact List.Sublist.refl _
  | cons x xs ih =>
      rw [List.flatMap_cons]
      cases hx : pick x with
      | none =>
          rw [List.filterMap_cons_none hx]
          exact ih.trans (List.sublist_append_right _ _)
      | some y =>
          rw [List.filterMap_cons_some hx, List.flatMap_cons]
          exact (h x y hx).append ih

theorem Heading.singleton_sublist_tokens (h : Heading) : List.Sublist [h.token] h.tokens := by
  cases h with
  | label t => exact List.Sublist.refl _
  | detached name colon => exact List.singleton_sublist.2 List.mem_cons_self

theorem BlockPart.sublist_tokens (p : BlockPart) (i : Item) (h : p.item? = some i) :
    List.Sublist i.tokens p.tokens := by
  cases p with
  | item i' =>
      cases h
      exact List.Sublist.refl _
  | directive | bareMarker | stalled | givenUp => cases h

theorem Statement.sublist_tokens (st : Statement) (e : Entry) (h : st.entry? = some e) :
    List.Sublist e.tokens st.tokens := by
  cases st with
  | declaration d =>
      cases h
      exact List.Sublist.refl _
  | labelled heading nested areLabels parts =>
      cases h
      have hhead := heading.singleton_sublist_tokens.append (List.Sublist.refl nested)
      exact hhead.append (sublist_flatMap_filterMap BlockPart.sublist_tokens parts)
  | directive | givenUp | skipped => cases h

end Asm6502.Syntax
