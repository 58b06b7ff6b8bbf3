import Asm6502.Proofs.Boundary
import Asm6502.Proofs.Tree.Terms
import Asm6502.Proofs.Tree.Writer

/-!
# What the lines of an outline tell

Headings do not quote their texts: a name may have blanks and brackets in it, or look like
another heading.  They can be read back all the same.  The first three letters tell which
kind of node it is; a text stands between a fixed beginning and a fixed ending; the type of
a label is what stands behind the last opening bracket; and a number ends where its digits
end.  What cannot be read off a heading is what the node owns, and from which line of the
source it was read, unless it is an instruction.

Indentations and headings can be told apart too, for no heading starts with a blank.  So the
text of an outline tells the level and the heading of each of its lines, as long as no text
has a line feed in it and no level shares its indentation with others.

## Main results

* `Node.eq_of_heading?` — a heading tells its kind of node, and the line of an instruction.
* `map_row_eq_of_textOf_eq` — a text tells the row of each of its lines.
-/

namespace Asm6502

/-! ## Words and numbers -/

theorem LabelType.name_injective : Function.Injective LabelType.name := by
  intro type type' h
  cases type <;> cases type' <;> first | rfl | exact absurd h (by decide)

theorem DataWidth.heading_injective : Function.Injective DataWidth.heading := by
  intro width width' h
  cases width <;> cases width' <;> first | rfl | exact absurd h (by decide)

theorem Wrapper.heading_injective : Function.Injective Wrapper.heading := by
  intro wrapper wrapper' h
  cases wrapper <;> cases wrapper' <;> first | rfl | exact absurd h (by decide)

theorem SumOperator.heading_injective : Function.Injective SumOperator.heading := by
  intro operator operator' h
  cases operator <;> cases operator' <;> first | rfl | exact absurd h (by decide)

theorem Mnemonic.code_injective : Function.Injective Mnemonic.code := by
  intro m m' h
  have hidx : m.ctorIdx = m'.ctorIdx := Nat.add_left_cancel h
  rw [← ofNat_ctorIdx m, hidx, ofNat_ctorIdx]

theorem isDigit_of_mem_digits {n : Nat} {c : Char} (h : c ∈ Nat.toDigits 10 n) :
    c.isDigit = true := Nat.isDigit_of_mem_toDigits (by decide) (by decide) h

/-- A number ends where its digits end. -/
theorem digits_append_inj {m n : Nat} {cs cs' : List Char}
    (hcs : ∀ c ∈ cs.head?, c.isDigit = false) (hcs' : ∀ c ∈ cs'.head?, c.isDigit = false)
    (h : Nat.toDigits 10 m ++ cs = Nat.toDigits 10 n ++ cs') : m = n ∧ cs = cs' := by
  obtain ⟨hdigits, hrest⟩ := append_inj_of_boundary (fun _ => isDigit_of_mem_digits) hcs
    (fun _ => isDigit_of_mem_digits) hcs' h
  refine ⟨?_, hrest⟩
  calc m
      = Nat.ofDigitChars 10 (Nat.toDigits 10 m) 0 := Nat.ofDigitChars_ten_toDigits.symm
    _ = Nat.ofDigitChars 10 (Nat.toDigits 10 n) 0 := by rw [hdigits]
    _ = n := Nat.ofDigitChars_ten_toDigits

namespace Node.Kind

/-! ## Kinds without numbers -/

/-- The kind with nothing that it owns. -/
def bare : Kind → Kind
  | .root _ => .root []
  | .list _ _ => .list 0 none
  | .data width _ => .data width 0
  | .decl text _ => .decl text 0
  | .label text _ type => .label text none type
  | .name text => .name text
  | .const text => .const text
  | .wrap wrapper _ => .wrap wrapper 0
  | .sum operator _ _ => .sum operator 0 0
  | .instruction mnemonic _ => .instruction mnemonic none

/-- The kind with the given nodes in the places of those that it owns. -/
def fill (k : Kind) (ids : List NodeId) : Kind :=
  match k with
  | .root _ => .root ids
  | .list _ _ => .list (ids.headD 0) ids.tail.head?
  | .data width _ => .data width (ids.headD 0)
  | .decl text _ => .decl text (ids.headD 0)
  | .label text _ type => .label text ids.head? type
  | .name text => .name text
  | .const text => .const text
  | .wrap wrapper _ => .wrap wrapper (ids.headD 0)
  | .sum operator _ _ => .sum operator (ids.headD 0) (ids.tail.headD 0)
  | .instruction mnemonic _ => .instruction mnemonic ids.head?

theorem fill_children (k : Kind) : k.bare.fill k.children = k := by
  cases k with
  | list item next => cases next <;> rfl
  | label text child type => cases child <;> rfl
  | instruction mnemonic operand => cases operand <;> rfl
  | root | data | decl | name | const | wrap | sum => rfl

/-- A kind is what it is without numbers, and what it owns. -/
theorem eq_of_bare {k k' : Kind} (hbare : k.bare = k'.bare) (hchildren : k.children = k'.children) :
    k = k' := by
  rw [← fill_children k, hbare, hchildren, fill_children]

theorem bare_renumber (f : NodeId → NodeId) (k : Kind) : (k.renumber f).bare = k.bare := by
  cases k <;> rfl

/-- The text that a node of the kind has of its own. -/
def text? : Kind → Option String
  | .decl text _ | .label text _ _ | .name text | .const text => some text
  | .root _ | .list _ _ | .data _ _ | .wrap _ _ | .sum _ _ _ | .instruction _ _ => none

end Node.Kind

namespace Node

variable {n n' : Node} {heading : String}

/-- The line of the source that a heading shows: that of an instruction. -/
def shownLine? (n : Node) : Option Nat :=
  match n.kind with
  | .instruction _ _ => some n.line
  | .root _ | .list _ _ | .data _ _ | .decl _ _ | .label _ _ _ | .name _ | .const _ | .wrap _ _
  | .sum _ _ _ => none

/-! ## Reading headings -/

/-- The number of the kind whose headings start with the letters. -/
def kindOfLetters : List Char → Nat
  | ['l', 'i', 's'] => 1
  | ['d', 'a', 't'] => 2
  | ['d', 'e', 'c'] => 3
  | ['l', 'a', 'b'] => 4
  | ['n', 'a', 'm'] => 5
  | ['c', 'o', 'n'] => 6
  | ['i', 'm', 'm'] | ['i', 'n', 'd'] | ['l', 'o', 'w'] | ['h', 'i', 'g'] => 7
  | ['a', 'd', 'd'] | ['s', 'u', 'b'] => 8
  | ['i', 'n', 's'] => 9
  | _ => 0

/-- The first letters of a heading tell which kind of node it is. -/
theorem kindOfLetters_of_heading? (h : n.heading? = some heading) :
    kindOfLetters (heading.toList.take 3) = n.kind.ctorIdx := by
  obtain ⟨k, line⟩ := n
  cases k with
  | root => cases h
  | list => cases h; rfl
  | data width => cases h; cases width <;> rfl
  | wrap wrapper => cases h; cases wrapper <;> rfl
  | sum operator => cases h; cases operator <;> rfl
  | decl | label | name | const | instruction =>
      cases h
      simp only [String.toList_append]
      rfl

theorem head?_of_heading? (h : n.heading? = some heading) : heading.toList.head? ≠ some ' ' := by
  obtain ⟨k, line⟩ := n
  cases k with
  | root => cases h
  | list => cases h; decide
  | data width => cases h; cases width <;> decide
  | wrap wrapper => cases h; cases wrapper <;> decide
  | sum operator => cases h; cases operator <;> decide
  | decl | label | name | const | instruction => cases h; simp

/-- A heading goes over the end of a line only if a text of its node does. -/
theorem lineFeed_notMem_heading? (h : n.heading? = some heading)
    (htext : ∀ text ∈ n.kind.text?, '\n' ∉ text.toList) : '\n' ∉ heading.toList := by
  obtain ⟨k, line⟩ := n
  have hdigits (m : Nat) : '\n' ∉ Nat.toDigits 10 m := by
    intro hmem
    cases isDigit_of_mem_digits hmem
  have hmnemonic (m : Mnemonic) : '\n' ∉ m.name.toList := by
    have hall : ∀ m ∈ Mnemonic.all, '\n' ∉ m.name.toList := by decide +kernel
    exact hall m m.mem_all
  cases k with
  | root => cases h
  | list => cases h; decide
  | data width => cases h; cases width <;> decide
  | wrap wrapper => cases h; cases wrapper <;> decide
  | sum operator => cases h; cases operator <;> decide
  | label text child type =>
      have hname := htext text rfl
      have htype : '\n' ∉ type.name.toList := by cases type <;> decide
      cases h
      simp [hname, htype]
  | decl text | name text | const text =>
      have hname := htext text rfl
      cases h
      simp [hname]
  | instruction m operand =>
      cases h
      simp [hdigits, hmnemonic]

/-- The type of a label is what stands behind the last opening bracket. -/
theorem label_heading_inj {text text' : String} {type type' : LabelType}
    (h : "label: " ++ text ++ " [" ++ type.name ++ "]" =
      "label: " ++ text' ++ " [" ++ type'.name ++ "]") : text = text' ∧ type = type' := by
  have hlists :
      type.name.toList.reverse ++ '[' :: ' ' :: (text.toList.reverse ++ " :lebal".toList) =
        type'.name.toList.reverse ++ '[' :: ' ' :: (text'.toList.reverse ++ " :lebal".toList) := by
    simpa using congrArg (fun s => s.toList.reverse) h
  have hbracket (type : LabelType) : '[' ∉ type.name.toList.reverse := by
    cases type <;> decide
  obtain ⟨htype, htext⟩ := append_cons_inj_of_not_mem (hbracket type) (hbracket type') hlists
  rw [List.cons.injEq, List.append_left_inj, List.reverse_inj] at htext
  rw [List.reverse_inj] at htype
  exact ⟨String.toList_injective htext.2, LabelType.name_injective (String.toList_injective htype)⟩

/-- The numbers of an instruction end where their digits end. -/
theorem instruction_heading_inj {line line' : Nat} {m m' : Mnemonic}
    (h : "instruction (line " ++ toString line ++ ") " ++ toString m.code ++ " " ++ m.name ++ ":" =
      "instruction (line " ++ toString line' ++ ") " ++ toString m'.code ++ " " ++ m'.name ++ ":") :
    line = line' ∧ m = m' := by
  have hlists : Nat.toDigits 10 line ++
      ')' :: ' ' :: (Nat.toDigits 10 m.code ++ ' ' :: (m.name.toList ++ [':'])) =
        Nat.toDigits 10 line' ++
          ')' :: ' ' :: (Nat.toDigits 10 m'.code ++ ' ' :: (m'.name.toList ++ [':'])) := by
    simpa using congrArg String.toList h
  have hend {c : Char} (hc : c.isDigit = false) (cs : List Char) :
      ∀ d ∈ (c :: cs).head?, d.isDigit = false := by
    rintro d ⟨⟩
    exact hc
  obtain ⟨hline, hrest⟩ := digits_append_inj (hend rfl _) (hend rfl _) hlists
  injection hrest with _ hrest
  injection hrest with _ hrest
  obtain ⟨hcode, _⟩ := digits_append_inj (hend rfl _) (hend rfl _) hrest
  exact ⟨hline, Mnemonic.code_injective hcode⟩

/-- A heading tells what kind of node it is, but for what the node owns, and from which line
an instruction was read. -/
theorem eq_of_heading? (h : n.heading? = some heading) (h' : n'.heading? = some heading) :
    n.kind.bare = n'.kind.bare ∧ n.shownLine? = n'.shownLine? := by
  have hletters : n.kind.ctorIdx = n'.kind.ctorIdx := by
    rw [← kindOfLetters_of_heading? h, kindOfLetters_of_heading? h']
  obtain ⟨k, line⟩ := n
  obtain ⟨k', line'⟩ := n'
  have hsame := h.trans h'.symm
  cases k with
  | root => cases h
  | list item next =>
      cases k' with
      | list => exact ⟨rfl, rfl⟩
      | root | data | decl | label | name | const | wrap | sum | instruction => cases hletters
  | data width head =>
      cases k' with
      | data width' =>
          obtain rfl := DataWidth.heading_injective (Option.some.inj hsame)
          exact ⟨rfl, rfl⟩
      | root | list | decl | label | name | const | wrap | sum | instruction => cases hletters
  | decl text expression =>
      cases k' with
      | decl text' =>
          have heq : "decl: " ++ text ++ " =" = "decl: " ++ text' ++ " =" := Option.some.inj hsame
          rw [String.append_left_inj, String.append_right_inj] at heq
          subst heq
          exact ⟨rfl, rfl⟩
      | root | list | data | label | name | const | wrap | sum | instruction => cases hletters
  | label text child type =>
      cases k' with
      | label =>
          obtain ⟨rfl, rfl⟩ := label_heading_inj (Option.some.inj hsame)
          exact ⟨rfl, rfl⟩
      | root | list | data | decl | name | const | wrap | sum | instruction => cases hletters
  | name text =>
      cases k' with
      | name text' =>
          obtain rfl := (String.append_right_inj _).1 (Option.some.inj hsame)
          exact ⟨rfl, rfl⟩
      | root | list | data | decl | label | const | wrap | sum | instruction => cases hletters
  | const text =>
      cases k' with
      | const text' =>
          obtain rfl := (String.append_right_inj _).1 (Option.some.inj hsame)
          exact ⟨rfl, rfl⟩
      | root | list | data | decl | label | name | wrap | sum | instruction => cases hletters
  | wrap wrapper child =>
      cases k' with
      | wrap wrapper' =>
          obtain rfl := Wrapper.heading_injective (Option.some.inj hsame)
          exact ⟨rfl, rfl⟩
      | root | list | data | decl | label | name | const | sum | instruction => cases hletters
  | sum operator =>
      cases k' with
      | sum operator' =>
          obtain rfl := SumOperator.heading_injective (Option.some.inj hsame)
          exact ⟨rfl, rfl⟩
      | root | list | data | decl | label | name | const | wrap | instruction => cases hletters
  | instruction m =>
      cases k' with
      | instruction m' =>
          obtain ⟨rfl, rfl⟩ := instruction_heading_inj (Option.some.inj hsame)
          exact ⟨rfl, rfl⟩
      | root | list | data | decl | label | name | const | wrap | sum => cases hletters

end Node

namespace Tree

variable {t t' : Tree} {v v' : Visit} {vs vs' : List Visit}

/-! ## Reading lines -/

/-- What a line of an outline tells: its level, the kind of the node without numbers, and the
line of the source that is shown. -/
structure Row where
  level : Nat
  kind : Node.Kind
  shown : Option Nat

/-- The row of a visit. -/
def row (t : Tree) (v : Visit) : Row := ⟨v.level, (t.kind v.id).bare, (t.node v.id).shownLine?⟩

/-- A visit that has one line of its own, at a level that shares its indentation with no other
one. -/
structure IsPlain (t : Tree) (v : Visit) : Prop where
  noRoot : ∀ items, t.kind v.id ≠ .root items
  oneLine : ∀ text ∈ (t.kind v.id).text?, '\n' ∉ text.toList
  shallow : v.level ≤ 64

theorem IsPlain.exists_heading (h : t.IsPlain v) :
    ∃ heading, (t.node v.id).heading? = some heading ∧ '\n' ∉ heading.toList ∧
      (t.lineAt v.level v.id).toList =
        List.replicate (4 * v.level) ' ' ++ heading.toList ++ ['\n'] := by
  cases hheading : (t.node v.id).heading? with
  | none =>
      cases hkind : (t.node v.id).kind with
      | root items => exact absurd hkind (h.noRoot items)
      | list | data | decl | label | name | const | wrap | sum | instruction =>
          rw [Node.heading?, hkind] at hheading
          cases hheading
  | some heading =>
      have hblanks : min (4 * v.level) 256 = 4 * v.level :=
        Nat.min_eq_left (Nat.mul_le_mul_left 4 h.shallow)
      refine ⟨heading, rfl, Node.lineFeed_notMem_heading? hheading h.oneLine, ?_⟩
      simp [lineAt, lineBehind, hheading, hblanks]

/-- The line of a visit comes to an end where the next one starts, and it tells its row. -/
theorem row_eq_of_lineAt (h : t.IsPlain v) (h' : t'.IsPlain v') {rest rest' : List Char}
    (heq : (t.lineAt v.level v.id).toList ++ rest = (t'.lineAt v'.level v'.id).toList ++ rest') :
    t.row v = t'.row v' ∧ rest = rest' := by
  obtain ⟨heading, hheading, hfeed, hline⟩ := h.exists_heading
  obtain ⟨heading', hheading', hfeed', hline'⟩ := h'.exists_heading
  have hfirst {n : Nat} {heading : String} (hfeed : '\n' ∉ heading.toList) :
      '\n' ∉ List.replicate n ' ' ++ heading.toList := by
    intro hc
    rcases List.mem_append.1 hc with hc | hc
    · cases List.eq_of_mem_replicate hc
    · exact hfeed hc
  rw [hline, hline', List.append_assoc _ _ rest, List.append_assoc _ _ rest'] at heq
  obtain ⟨hfirst, hrest⟩ := append_cons_inj_of_not_mem (hfirst hfeed) (hfirst hfeed') heq
  -- No heading starts with a blank, so the blanks in front of it can be counted.
  have hblank (n : Nat) : ∀ c ∈ List.replicate n ' ', (c == ' ') = true := by
    intro c hc
    rw [List.eq_of_mem_replicate hc]
    rfl
  have hletter {n : Node} {heading : String} (h : n.heading? = some heading) :
      ∀ c ∈ heading.toList.head?, (c == ' ') = false := by
    intro c hc
    rw [beq_eq_false_iff_ne]
    rintro rfl
    exact Node.head?_of_heading? h hc
  obtain ⟨hblanks, htext⟩ := append_inj_of_boundary (hblank _) (hletter hheading) (hblank _)
    (hletter hheading') hfirst
  have hlevel : v.level = v'.level := by
    have hlength := congrArg List.length hblanks
    rw [List.length_replicate, List.length_replicate] at hlength
    exact Nat.eq_of_mul_eq_mul_left (by decide) hlength
  rw [← String.toList_injective htext] at hheading'
  obtain ⟨hkind, hshown⟩ := Node.eq_of_heading? hheading hheading'
  refine ⟨?_, hrest⟩
  rw [row, row, hlevel, hshown]
  exact congrArg (Row.mk _ · _) hkind

/-- A text tells the row of each of its lines. -/
theorem map_row_eq_of_textOf_eq (h : ∀ v ∈ vs, t.IsPlain v) (h' : ∀ v ∈ vs', t'.IsPlain v)
    (heq : t.textOf vs = t'.textOf vs') : vs.map t.row = vs'.map t'.row := by
  have hne {t : Tree} {v : Visit} (h : t.IsPlain v) (vs : List Visit) :
      t.textOf (v :: vs) ≠ "" := by
    obtain ⟨heading, _, _, hline⟩ := h.exists_heading
    intro hempty
    have hlists := congrArg String.toList hempty
    rw [textOf_cons, String.toList_append, hline] at hlists
    simp at hlists
  induction vs generalizing vs' with
  | nil =>
      cases vs' with
      | nil => rfl
      | cons v' vs' => exact absurd heq.symm (hne (h' v' List.mem_cons_self) vs')
  | cons v vs ih =>
      cases vs' with
      | nil => exact absurd heq (hne (h v List.mem_cons_self) vs)
      | cons v' vs' =>
          have hlists := congrArg String.toList heq
          rw [textOf_cons, textOf_cons, String.toList_append, String.toList_append] at hlists
          obtain ⟨hrow, hrest⟩ := row_eq_of_lineAt (h v List.mem_cons_self)
            (h' v' List.mem_cons_self) hlists
          rw [List.map_cons, List.map_cons, hrow, ih (fun w hw => h w (List.mem_cons_of_mem _ hw))
            (fun w hw => h' w (List.mem_cons_of_mem _ hw)) (String.toList_injective hrest)]

end Tree

end Asm6502
