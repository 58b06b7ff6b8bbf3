import Asm6502.Proofs.Boundary
import Asm6502.Proofs.Parsing.BlockCompleteness
import Asm6502.Proofs.Parsing.ProgramSoundness

/-!
# Programs are read back

Reading undoes laying out.  A canonical program that is laid out in lines is read
back as it was written, entry by entry, and nothing is reported but the operands
that instructions should have and do not have.

Each entry ends where the next one starts, and it is the next one that shows where:
a label or a declared name ends a block, another line ends an instruction, and
everything that an entry starts with ends an expression.

## Main results

* `program_reads_back` — the tree and the diagnostics of a program laid out.
-/

namespace Asm6502.Parser

open Syntax

variable {s s' : State} {limit : Nat} {lines : List (List Token)}

/-! ## Entries -/

theorem declaration_reads_back {d : Declaration} {rest : List Token} (hc : d.value.Canonical)
    (hdepth : d.value.depth < limit) (hs : s.stream.ahead = d.tokens ++ rest)
    (hrest : EndsSum rest) :
    Ends (declaration limit) s
      (fun id s' => s.Reads s' d.tokens [] ∧ d.ShownAt s'.tree id) Never := by
  have hname : s.current = d.name := State.current_eq_of_ahead hs
  have hs' : s.advance.stream.ahead = d.equals :: (d.value.tokens ++ rest) :=
    State.ahead_advance hs
  have hpassed := (State.reads_advance_of_ahead hs).trans (State.reads_advance_of_ahead hs')
  unfold declaration
  simp only [ends_bind, ends_current, ends_advance]
  refine ends_required_of_readsBack (expression_reads_back limit limit d.value _ rest hc hdepth
    (State.ahead_advance hs') hrest) ?_
  intro value s' he
  have hadd : s'.Reads (s'.add (.decl d.name.text value) d.name.line).2 [] [] :=
    State.reads_add _ (by simpa [Node.Kind.children] using he.shown.isInner)
  simp only [ends_add, hname]
  refine ⟨?_, value, State.node_add .., he.shown.keeps hadd.grows.keeps⟩
  have hall := (hpassed.trans he.reads).trans hadd
  rw [List.append_nil] at hall
  exact hall

/-- Between the two states, an entry has been read, which node `id` shows. -/
structure ReadsEntry (s s' : State) (entry : Entry) (passed : List Token) (id : NodeId) : Prop where
  reads : s.Reads s' passed entry.reports
  shown : entry.ShownAt s'.tree id

theorem statement_of_declares {id : NodeId} (hname : s.current.kind = .name)
    (hequals : s.advance.current.kind = .equals) (hrun : declaration limit s = .ok id s') :
    statement limit s = s'.pushItem id := by
  have hequals' : s.stream.advance.current.kind = .equals := hequals
  unfold statement
  simp only [hname, hequals', hrun]

theorem statement_of_label (limit : Nat) (hlabel : s.current.kind = .label) :
    statement limit s = labelSection limit s.current s.advance := by
  unfold statement
  simp only [hlabel]

theorem statement_of_declaration {d : Declaration} {rest : List Token} (hc : d.value.Canonical)
    (hdepth : d.value.depth < limit) (hs : s.stream.ahead = d.tokens ++ rest)
    (hrest : EndsSum rest) :
    ∃ s₁ id, statement limit s = s₁.pushItem id ∧
      ReadsEntry s s₁ (.declaration d) d.tokens id := by
  have hname : s.current = d.name := State.current_eq_of_ahead hs
  have hequals : s.advance.current = d.equals :=
    State.current_eq_of_ahead (State.ahead_advance hs)
  obtain ⟨id, s', hanswer, hreads, hshown⟩ :=
    (declaration_reads_back hc hdepth hs hrest).exists_of_never
  refine ⟨s', id, ?_, hreads, hshown⟩
  exact statement_of_declares (hname ▸ d.isName) (hequals ▸ d.isEquals) hanswer

/-- A section is read back if the block behind its labels is. -/
theorem statement_of_labels (limit : Nat) {sec : Section} {behind passed : List Token}
    (hlabels : ∀ t ∈ sec.heading :: sec.nested, IsLabelToken t)
    (hs : s.stream.ahead = sec.heading :: sec.nested ++ behind)
    (hbehind : ∀ t ∈ behind.head?, t.kind ≠ .label)
    (hblock : ∀ s : State, s.stream.ahead = behind →
      ReadsBlock s sec.items passed (block limit s).1 (block limit s).2) :
    ∃ s₁ id, statement limit s = s₁.pushItem id ∧
      ReadsEntry s s₁ (.labelled sec) (sec.heading :: sec.nested ++ passed) id := by
  have hcurrent : s.current = sec.heading := State.current_eq_of_ahead hs
  have hkind : sec.heading.kind = .label := (hlabels _ List.mem_cons_self).1
  have hnested : ∀ t ∈ sec.nested, (t.kind == Token.Kind.label) = true := by
    intro t ht
    rw [(hlabels t (List.mem_cons_of_mem _ ht)).1]
    rfl
  have hother : ∀ t ∈ behind.head?, (t.kind == Token.Kind.label) = false := by
    intro t ht
    exact beq_eq_false_iff_ne.2 (hbehind t ht)
  have hahead : s.advance.stream.ahead = sec.nested ++ behind := State.ahead_advance hs
  have htake : s.advance.labels = sec.nested := by
    rw [State.labels, hahead]
    exact takeWhile_append_of_boundary hnested hother
  have hdrop : s.advance.pastLabels.stream.ahead = behind := by
    show (s.advance.stream.ahead.dropWhile fun t => t.kind == .label) = behind
    rw [hahead]
    exact dropWhile_append_of_boundary hnested hother
  obtain ⟨ids, hreads, hlists, hshown⟩ := hblock s.advance.pastLabels hdrop
  obtain ⟨s₁, id, hrun, hall, hsection⟩ :=
    labelSection_of_block sec.heading hreads hlists hshown
  rw [htake] at hall hsection
  refine ⟨s₁, id, ?_, ?_, hsection⟩
  · rw [statement_of_label limit (hcurrent ▸ hkind), hcurrent]
    exact hrun
  · exact (State.reads_advance_of_ahead hs).trans hall

/-- The first entry of a program is read back, and the rest of the program is left. -/
theorem statement_reads_back {entry : Entry} {p : List Entry} (hlimit : 1 ≤ limit)
    (hlaid : LaidOut (entry :: p) lines) (hp : ∀ e ∈ entry :: p, e.Canonical)
    (hdepth : ∀ e ∈ entry.expressions, e.depth < limit) (hown : OnOwnLines lines)
    (hs : s.stream.ahead = lines.flatten) :
    ∃ s₁ id passed lines', statement limit s = s₁.pushItem id ∧ ReadsEntry s s₁ entry passed id ∧
      lines.flatten = passed ++ lines'.flatten ∧ LaidOut p lines' ∧ OnOwnLines lines' := by
  have hrest : ∀ e ∈ p, e.Canonical := fun e he => hp e (List.mem_cons_of_mem _ he)
  have hentry : entry.Canonical := hp entry List.mem_cons_self
  cases hlaid with
  | @declaration d p lines more =>
      have hends := (endsOperand_of_startsEntry (more.startsEntry hrest)).1
      obtain ⟨s₁, id, hrun, hreads⟩ :=
        statement_of_declaration hentry (hdepth _ List.mem_cons_self) hs hends
      exact ⟨s₁, id, _, lines, hrun, hreads, rfl, more, hown.2⟩
  | @block sec p lines hitems more =>
      have hstarts := more.startsEntry hrest
      have hbehind : ∀ t ∈ (sec.items.map Item.tokens ++ lines).flatten.head?,
          t.kind ≠ .label := by
        obtain ⟨i, items, hi⟩ := List.exists_cons_of_ne_nil hitems
        obtain ⟨t, ts, hts, _, hkind⟩ := i.exists_tokens_eq_cons
        rw [hi, List.map_cons, List.cons_append, List.flatten_cons, hts]
        intro u hu
        cases hu
        rcases hkind with ⟨m, hk⟩ | hk | hk <;> rw [hk] <;> simp
      obtain ⟨s₁, id, hrun, hreads⟩ := statement_of_labels limit hentry.1 hs hbehind
        (fun s' hs' => block_reads_back hlimit hentry.2
          (fun i hi e he => hdepth e (List.mem_flatMap.2 ⟨i, hi, he⟩)) hs' hown.2 hstarts)
      refine ⟨s₁, id, _, lines, hrun, hreads, ?_, more, hown.2.of_append⟩
      rw [List.flatten_cons, List.flatten_append, ← List.flatMap_def, List.append_assoc]
  | @bare sec p lines gap hitems hgap more =>
      have hstarts := more.startsEntry hrest
      have hbehind : ∀ t ∈ (gap :: lines.flatten).head?, t.kind ≠ .label := by
        intro t ht
        cases ht
        rw [hgap]
        decide
      obtain ⟨s₁, id, hrun, hreads⟩ := statement_of_labels limit hentry.1 hs hbehind
        (fun s' hs' => by
          rw [hitems]
          exact bareBlock_reads_back hgap hs' hstarts)
      refine ⟨s₁, id, _, lines, hrun, hreads, ?_, more, hown.2.2⟩
      rw [List.flatten_cons, List.flatten_cons, List.append_assoc]

/-- Where the lines of a program that is not empty start, the tokens are not over. -/
theorem current_ne_eof_of_laidOut {entry : Entry} {p : List Entry}
    (hlaid : LaidOut (entry :: p) lines) (hp : ∀ e ∈ entry :: p, e.Canonical)
    (hs : s.stream.ahead = lines.flatten) : s.current.kind ≠ .eof := by
  have hlength := hlaid.length_le
  have hproper := hlaid.proper hp
  rw [← hs] at hlength hproper
  cases hahead : s.stream.ahead with
  | nil =>
      rw [hahead] at hlength
      cases hlength
  | cons t ts =>
      rw [State.current_eq_of_ahead hahead]
      apply hproper
      rw [hahead]
      exact List.mem_cons_self

theorem statements_of_eof (attempts left : Nat) (h : s.current.kind = .eof) :
    statements limit attempts left s = s := by
  cases left with
  | zero => exact if_pos h
  | succ left => exact if_pos h

theorem statements_succ (attempts left : Nat) (h : s.current.kind ≠ .eof) :
    statements limit attempts (left + 1) s =
      statements limit attempts left (statement limit s) := if_neg h

/-- The entries of a program are read back one after another, behind what is shown
already. -/
theorem statements_reads_back {p before : List Entry} (hlimit : 1 ≤ limit)
    (attempts left : Nat) (hlaid : LaidOut p lines) (hp : ∀ entry ∈ p, entry.Canonical)
    (hdepth : ∀ entry ∈ p, ∀ e ∈ entry.expressions, e.depth < limit) (hown : OnOwnLines lines)
    (hs : s.stream.ahead = lines.flatten) (hleft : p.length ≤ left) (h : Shows limit s before) :
    Shows limit (statements limit attempts left s) (before ++ p) ∧
      (statements limit attempts left s).diagnostics.toList =
        s.diagnostics.toList ++ p.flatMap Entry.reports := by
  -- Each round passes the lines of one entry; what it has added is carried along by `Shows`.
  induction p generalizing s lines left before with
  | nil =>
      cases hlaid
      have heof : s.current.kind = .eof := by
        rw [State.current_of_nil hs]
        rfl
      rw [statements_of_eof attempts left heof, List.append_nil, List.flatMap_nil, List.append_nil]
      exact ⟨h, rfl⟩
  | cons entry p ih =>
      have htail {q : Entry → Prop} (hq : ∀ e ∈ entry :: p, q e) : ∀ e ∈ p, q e :=
        fun e he => hq e (List.mem_cons_of_mem _ he)
      obtain ⟨s₁, id, passed, lines', hrun, hreads, hlines, hlaid', hown'⟩ :=
        statement_reads_back hlimit hlaid hp (hdepth entry List.mem_cons_self) hown hs
      have hahead : (s₁.pushItem id).stream.ahead = lines'.flatten :=
        hreads.reads.ahead_eq_rest (hs.trans hlines)
      have hpushed := (h.reads hreads.reads).pushItem hreads.shown fun e he =>
        ⟨(hp entry List.mem_cons_self).expressions e he, hdepth entry List.mem_cons_self e he⟩
      cases left with
      | zero => cases hleft
      | succ left =>
          have hrec := ih left hlaid' (htail hp) (htail hdepth) hown' hahead
            (Nat.le_of_succ_le_succ hleft) hpushed
          have hdiagnostics : (s₁.pushItem id).diagnostics.toList =
              s.diagnostics.toList ++ entry.reports := hreads.reads.diagnostics_eq
          rw [statements_succ attempts left (current_ne_eof_of_laidOut hlaid hp hs), hrun,
            List.flatMap_cons, ← List.append_assoc, ← hdiagnostics]
          rw [List.append_assoc, List.singleton_append] at hrec
          exact hrec

/-- What is reported about an entry is no error. -/
theorem isError_eq_false_of_mem_reports {entry : Entry} {r : Diagnostic}
    (h : r ∈ entry.reports) : r.isError = false := by
  cases entry with
  | declaration d => cases h
  | labelled sec =>
      obtain ⟨i, _, hi⟩ := List.mem_flatMap.1 h
      cases i with
      | data => cases hi
      | instruction t m isMnemonic arguments =>
          by_cases hmissing : m.operandClass = .memory ∧ arguments.operand? = none
          · rw [Item.reports, if_pos hmissing] at hi
            rw [List.mem_singleton.1 hi]
            rfl
          · rw [Item.reports, if_neg hmissing] at hi
            cases hi

/-- Reading undoes laying out.  Let a canonical program be laid out in lines, with
nothing but an end behind the last one, and let its expressions nest less deep than
the limit, which is at least one.  Then the items of the root show the entries of the
program, and the diagnostics are those about missing operands, which are no errors. -/
theorem program_reads_back {p : List Entry} {tail : List Token} (hlimit : 1 ≤ limit)
    (hp : ∀ entry ∈ p, entry.Canonical)
    (hdepth : ∀ entry ∈ p, ∀ e ∈ entry.expressions, e.depth < limit)
    (hlaid : LaidOut p lines) (hown : OnOwnLines lines) (htail : ∀ t ∈ tail.head?, t.kind = .eof) :
    let outcome := program limit (lines.flatten ++ tail)
    outcome.tree.kind 0 = .root outcome.tree.items ∧
      List.Forall₂ (fun id entry => entry.ShownAt outcome.tree id) outcome.tree.items p ∧
      outcome.diagnostics = p.flatMap Entry.reports ∧ outcome.hasErrors = false := by
  intro outcome
  let ts := lines.flatten ++ tail
  have hinside : ∀ t ∈ lines.flatten, TokenStream.isProper t = true := by
    intro t ht
    exact bne_iff_ne.2 (hlaid.proper hp t ht)
  have hboundary : ∀ t ∈ tail.head?, TokenStream.isProper t = false := by
    intro t ht
    rw [TokenStream.isProper, htail t ht]
    rfl
  have hs : (State.start ts).stream.ahead = lines.flatten :=
    takeWhile_append_of_boundary hinside hboundary
  let attempts := 2 * ((State.start ts).remaining + 1)
  have hleft : p.length ≤ attempts := by
    have hremaining : (State.start ts).remaining = lines.flatten.length := congrArg List.length hs
    have hlength := hlaid.length_le
    omega
  obtain ⟨hshows, hdiagnostics⟩ :=
    statements_reads_back hlimit attempts attempts hlaid hp hdepth hown hs hleft (Shows.start ts)
  have hreports : outcome.diagnostics = p.flatMap Entry.reports := hdiagnostics
  refine ⟨hshows.rooted.kind_eq, hshows.shown, hreports, ?_⟩
  rw [Outcome.hasErrors, hreports, List.any_eq_false]
  intro r hr
  obtain ⟨entry, _, hentry⟩ := List.mem_flatMap.1 hr
  rw [isError_eq_false_of_mem_reports hentry]
  exact Bool.false_ne_true

/-! ## A program laid out -/

/-- The tokens `tab = $10 + (base - 1)` on line 1. -/
def tableDeclaration : Declaration where
  name := ⟨.name, "tab", ⟨1, 1⟩⟩
  equals := ⟨.equals, "=", ⟨1, 5⟩⟩
  isName := rfl
  isEquals := rfl
  value :=
    .sum (.const ⟨.hexConst, "$10", ⟨1, 7⟩⟩ rfl) ⟨.plus, "+", ⟨1, 11⟩⟩ .add rfl
      (.parens ⟨.parenLeft, "(", ⟨1, 13⟩⟩ rfl
        (.sum (.name ⟨.name, "base", ⟨1, 14⟩⟩ rfl) ⟨.minus, "-", ⟨1, 19⟩⟩ .subtract rfl
          (.const ⟨.decConst, "1", ⟨1, 21⟩⟩ rfl))
        ⟨.parenRight, ")", ⟨1, 22⟩⟩ rfl)

/-- The labels `start: loop:` on line 2 and, from line 3 on, the items `lda <tab - 1, x`,
`sta` without its operand, and `.db 1, 2`. -/
def loopSection : Section where
  heading := ⟨.label, "start:", ⟨2, 1⟩⟩
  nested := [⟨.label, "loop:", ⟨2, 8⟩⟩]
  items :=
    [ .instruction ⟨.instruction .lda, "lda", ⟨3, 3⟩⟩ .lda rfl
        (.memory (some (.indexed
          (.signed ⟨.less, "<", ⟨3, 7⟩⟩ .loByte rfl
            (.sum (.name ⟨.name, "tab", ⟨3, 8⟩⟩ rfl) ⟨.minus, "-", ⟨3, 12⟩⟩ .subtract rfl
              (.const ⟨.decConst, "1", ⟨3, 14⟩⟩ rfl)))
          ⟨.comma, ",", ⟨3, 15⟩⟩ rfl ⟨.xReg, "x", ⟨3, 17⟩⟩ .indexedX rfl)))
    , .instruction ⟨.instruction .sta, "STA", ⟨4, 3⟩⟩ .sta rfl (.memory none)
    , .data ⟨.dataBytes, ".db", ⟨5, 3⟩⟩ .byte rfl (.const ⟨.decConst, "1", ⟨5, 7⟩⟩ rfl)
        [⟨⟨.comma, ",", ⟨5, 8⟩⟩, rfl, .const ⟨.decConst, "2", ⟨5, 10⟩⟩ rfl⟩] none ]

/-- The label `end:` on line 6, without a block. -/
def endSection : Section := ⟨⟨.label, "end:", ⟨6, 1⟩⟩, [], []⟩

/-- All of it. -/
def loopProgram : List Entry :=
  [.declaration tableDeclaration, .labelled loopSection, .labelled endSection]

/-- Its lines, of which the last one is the directive behind the bare label. -/
def loopLines : List (List Token) :=
  tableDeclaration.tokens :: (loopSection.heading :: loopSection.nested) ::
    (loopSection.items.map Item.tokens ++
      [[endSection.heading], [⟨.directive, ".end", ⟨7, 1⟩⟩]])

theorem onOwnLines_loopLines : OnOwnLines loopLines :=
  ⟨⟨1, by decide, by decide⟩, ⟨2, by decide, by decide⟩, ⟨3, by decide, by decide⟩,
    ⟨4, by decide, by decide⟩, ⟨5, by decide, by decide⟩, ⟨6, by decide, by decide⟩,
    ⟨7, by decide, by decide⟩, trivial⟩

/-- Two levels are enough for it, and only the second item lacks an operand. -/
theorem program_reads_back_loopProgram :
    (∀ entry ∈ loopProgram, entry.Canonical) ∧
      (∀ entry ∈ loopProgram, ∀ e ∈ entry.expressions, e.depth < 2) ∧
      LaidOut loopProgram loopLines ∧ OnOwnLines loopLines ∧
      List.Forall₂
        (fun id entry => entry.ShownAt
          (program 2 (loopLines.flatten ++ [.endAt ⟨7, 5⟩])).tree id)
        (program 2 (loopLines.flatten ++ [.endAt ⟨7, 5⟩])).tree.items loopProgram ∧
      (program 2 (loopLines.flatten ++ [.endAt ⟨7, 5⟩])).diagnostics =
        [.noOperand ⟨.instruction .sta, "STA", ⟨4, 3⟩⟩] := by
  have hlaid : LaidOut loopProgram loopLines :=
    .declaration (.block (by decide) (.bare rfl rfl .done))
  have hdepth : ∀ entry ∈ loopProgram, ∀ e ∈ entry.expressions, e.depth < 2 := by decide
  have hcanonical : ∀ entry ∈ loopProgram, entry.Canonical := by decide +kernel
  have htail : ∀ t ∈ [Token.endAt ⟨7, 5⟩].head?, t.kind = .eof := by decide
  obtain ⟨_, hshown, hdiagnostics, _⟩ :=
    program_reads_back (by decide) hcanonical hdepth hlaid onOwnLines_loopLines htail
  exact ⟨hcanonical, hdepth, hlaid, onOwnLines_loopLines, hshown, hdiagnostics⟩

end Asm6502.Parser
