import Asm6502.Proofs.Lexing.Spelling
import Asm6502.Proofs.Parsing.Provenance

/-!
# The numerals of a tree

Who evaluates an expression reads the constants of its tree as numbers.  Their texts are
those of tokens, which neither the parser nor the repair of the tree looks at or changes,
and the text of a token is what a scanner has put together.  So each constant is a
numeral, with one exception: a dollar or percent sign without digits is scanned as a
numeral, and no one objects.

## Main results

* `program_constants` — the constants of a tree are among the tokens.
* `readSource_numerals` — a constant is a numeral or a sign alone.
* `readSource_bareSign` — the exception does occur.
-/

namespace Asm6502.Parser

/-- The constants of a tree are numerals among the tokens, with their texts. -/
theorem program_constants (limit : Nat) (ts : List Token) {id : NodeId} {s : String}
    (hreaches : (program limit ts).tree.Reaches id)
    (hconst : (program limit ts).tree.kind id = .const s) :
    ∃ (place : Nat) (t : Token), ts[place]? = some t ∧ t.kind.isConstant = true ∧ t.text = s := by
  have hunshared := program_unshared limit ts
  have hwalk := hunshared.mem_walk_iff.2 hreaches
  rw [Tree.walk_eq] at hwalk
  rcases List.mem_cons.1 hwalk with rfl | hbelow
  · rw [hunshared.rooted.kind_eq] at hconst
    cases hconst
  obtain ⟨places, hplaces⟩ := (program_traced limit ts).exists_placed Node.Kind.hasToken
    (fun _ h => h) fun _ h => Node.Kind.hasToken_of_isLabel h
  obtain ⟨place, hstands⟩ := hplaces.exists_place id hbelow (by rw [hconst]; rfl)
  obtain ⟨t, ht, hfrom, _⟩ := hstands.of_takeWhile
  rw [hconst] at hfrom
  exact ⟨place, t, ht, hfrom.2, hfrom.1.symm⟩

/-- In the tree of a text that scans without an error, each constant has the text of a
token, and this text is a numeral, a dollar sign alone or a percent sign alone.  So where
no token is a sign alone, all constants are numerals. -/
theorem readSource_numerals {o : ReadOptions} {text : String} {ts : List Token}
    (h : (tokenize o.dialect text .empty).1 = .ok ts) :
    ∃ outcome, (readSource o text).1 = .ok outcome ∧
      ∀ id, outcome.tree.Reaches id → ∀ s, outcome.tree.kind id = .const s →
        (∃ t ∈ ts, t.kind.isConstant = true ∧ t.text = s) ∧
          (IsNumeral s.toList ∨ s = "$" ∨ s = "%") := by
  refine ⟨_, readSource_fst h, ?_⟩
  intro id hreaches s hconst
  obtain ⟨place, t, ht, hkind, rfl⟩ := program_constants o.nestingLimit ts hreaches hconst
  have hproper : t.kind ≠ .eof := by
    intro heof
    rw [heof] at hkind
    cases hkind
  obtain ⟨rest, hsplits, _⟩ := splitsOff_of_result h ht hproper
  exact ⟨⟨t, List.mem_of_getElem? ht, hkind, rfl⟩, hsplits.numeral hkind⟩

/-- Numerals of all three kinds, and a percent sign alone in an operand. -/
theorem readSource_numerals_mixed :
    let text := "b: .db $1F,%01,07\n lda %"
    let ts : List Token :=
      [ ⟨.label, "b:", ⟨1, 1⟩⟩, ⟨.dataBytes, ".db", ⟨1, 4⟩⟩, ⟨.hexConst, "$1F", ⟨1, 8⟩⟩
      , ⟨.comma, ",", ⟨1, 11⟩⟩, ⟨.binConst, "%01", ⟨1, 12⟩⟩, ⟨.comma, ",", ⟨1, 15⟩⟩
      , ⟨.decConst, "07", ⟨1, 16⟩⟩, ⟨.instruction .lda, "lda", ⟨2, 2⟩⟩
      , ⟨.binConst, "%", ⟨2, 6⟩⟩, .endAt ⟨2, 7⟩ ]
    (tokenize {} text .empty).1 = .ok ts ∧
      ∃ outcome, (readSource {} text).1 = .ok outcome ∧
        ∀ id, outcome.tree.Reaches id → ∀ s, outcome.tree.kind id = .const s →
          (∃ t ∈ ts, t.kind.isConstant = true ∧ t.text = s) ∧
            (IsNumeral s.toList ∨ s = "$" ∨ s = "%") := by
  intro text ts
  have h : (tokenize {} text .empty).1 = .ok ts := by decide +kernel
  exact ⟨h, readSource_numerals h⟩

/-- A dollar sign alone is read as a constant without any objection, and is no numeral. -/
theorem readSource_bareSign :
    ∃ ts outcome id s, (tokenize {} "Data:\n  .db $\n" .empty).1 = .ok ts ∧
      (readSource {} "Data:\n  .db $\n").1 = .ok outcome ∧ outcome.diagnostics = [] ∧
      outcome.tree.Reaches id ∧ outcome.tree.kind id = .const s ∧ ¬ IsNumeral s.toList := by
  let ts : List Token :=
    [ ⟨.label, "Data:", ⟨1, 1⟩⟩, ⟨.dataBytes, ".db", ⟨2, 3⟩⟩, ⟨.hexConst, "$", ⟨2, 7⟩⟩
    , .endAt ⟨3, 1⟩ ]
  have h : (tokenize {} "Data:\n  .db $\n" .empty).1 = .ok ts := by decide +kernel
  have hwalk : 1 ∈ (program defaultLimit ts).tree.walk := by decide +kernel
  refine ⟨ts, _, 1, "$", h, readSource_fst h, by decide +kernel, ?_, by decide +kernel, ?_⟩
  · exact (program_unshared defaultLimit ts).mem_walk_iff.1 hwalk
  · intro hnumeral
    cases hnumeral with
    | hexadecimal nonempty => exact nonempty rfl
    | decimal _ inside => exact absurd (inside '$' (List.mem_singleton_self _)) (by decide)

end Asm6502.Parser
