/-!
# Instruction mnemonics

The fifty-six mnemonics of the 6502, their numeric codes, and what each of them
expects behind it. The codes are handed to code generators; they count up from
eleven in the order of declaration, so that order is fixed.

A mnemonic may be written in any case. Names are compared after folding: the
ASCII capitals and the Kelvin sign become small letters, and no other character
has a lower-case form that is a single ASCII letter.

## Main results

* `Mnemonic.ofLetters?_letters` — every mnemonic is found by its own letters.
* `Mnemonic.letters_of_ofLetters?` — and by nothing else.
-/

namespace Asm6502

/-- The mnemonics, in the order of their codes. -/
inductive Mnemonic where
  | lda | ldx | ldy | sta | stx | sty
  | tax | tay | txa | tya | tsx | txs
  | pha | php | pla | plp
  | and | eor | ora | bit | adc | sbc
  | cmp | cpx | cpy
  | inc | inx | iny | dec | dex | dey
  | asl | lsr | rol | ror
  | jmp | jsr | rts
  | bcc | bcs | beq | bmi | bne | bpl | bvc | bvs
  | clc | cld | cli | clv | sec | sed | sei
  | brk | nop | rti
  deriving DecidableEq, Repr

/-- What an instruction expects behind its mnemonic. -/
inductive OperandClass where
  /-- Nothing at all, as in `rts`. -/
  | implied
  /-- An operand expression with an optional index, as in `lda $0200,x`. -/
  | memory
  /-- The same, but the operand may be left out, as in `asl`. -/
  | accumulator
  /-- A bare name, as in `bne Loop`. -/
  | target
  deriving DecidableEq, Repr

namespace Mnemonic

/-- All mnemonics, in the order of their codes. -/
def all : List Mnemonic :=
  [ .lda, .ldx, .ldy, .sta, .stx, .sty, .tax, .tay, .txa, .tya, .tsx, .txs
  , .pha, .php, .pla, .plp, .and, .eor, .ora, .bit, .adc, .sbc, .cmp, .cpx, .cpy
  , .inc, .inx, .iny, .dec, .dex, .dey, .asl, .lsr, .rol, .ror, .jmp, .jsr, .rts
  , .bcc, .bcs, .beq, .bmi, .bne, .bpl, .bvc, .bvs
  , .clc, .cld, .cli, .clv, .sec, .sed, .sei, .brk, .nop, .rti ]

theorem mem_all (m : Mnemonic) : m ∈ all := by cases m <;> decide

/-- The numeric code: eleven for the first mnemonic, then counting up. -/
def code (m : Mnemonic) : Nat := 11 + m.ctorIdx

/-! ## Spelling -/

/-- The three small letters of a mnemonic. -/
def letters : Mnemonic → List Char
  | .lda => ['l', 'd', 'a']
  | .ldx => ['l', 'd', 'x']
  | .ldy => ['l', 'd', 'y']
  | .sta => ['s', 't', 'a']
  | .stx => ['s', 't', 'x']
  | .sty => ['s', 't', 'y']
  | .tax => ['t', 'a', 'x']
  | .tay => ['t', 'a', 'y']
  | .txa => ['t', 'x', 'a']
  | .tya => ['t', 'y', 'a']
  | .tsx => ['t', 's', 'x']
  | .txs => ['t', 'x', 's']
  | .pha => ['p', 'h', 'a']
  | .php => ['p', 'h', 'p']
  | .pla => ['p', 'l', 'a']
  | .plp => ['p', 'l', 'p']
  | .and => ['a', 'n', 'd']
  | .eor => ['e', 'o', 'r']
  | .ora => ['o', 'r', 'a']
  | .bit => ['b', 'i', 't']
  | .adc => ['a', 'd', 'c']
  | .sbc => ['s', 'b', 'c']
  | .cmp => ['c', 'm', 'p']
  | .cpx => ['c', 'p', 'x']
  | .cpy => ['c', 'p', 'y']
  | .inc => ['i', 'n', 'c']
  | .inx => ['i', 'n', 'x']
  | .iny => ['i', 'n', 'y']
  | .dec => ['d', 'e', 'c']
  | .dex => ['d', 'e', 'x']
  | .dey => ['d', 'e', 'y']
  | .asl => ['a', 's', 'l']
  | .lsr => ['l', 's', 'r']
  | .rol => ['r', 'o', 'l']
  | .ror => ['r', 'o', 'r']
  | .jmp => ['j', 'm', 'p']
  | .jsr => ['j', 's', 'r']
  | .rts => ['r', 't', 's']
  | .bcc => ['b', 'c', 'c']
  | .bcs => ['b', 'c', 's']
  | .beq => ['b', 'e', 'q']
  | .bmi => ['b', 'm', 'i']
  | .bne => ['b', 'n', 'e']
  | .bpl => ['b', 'p', 'l']
  | .bvc => ['b', 'v', 'c']
  | .bvs => ['b', 'v', 's']
  | .clc => ['c', 'l', 'c']
  | .cld => ['c', 'l', 'd']
  | .cli => ['c', 'l', 'i']
  | .clv => ['c', 'l', 'v']
  | .sec => ['s', 'e', 'c']
  | .sed => ['s', 'e', 'd']
  | .sei => ['s', 'e', 'i']
  | .brk => ['b', 'r', 'k']
  | .nop => ['n', 'o', 'p']
  | .rti => ['r', 't', 'i']

/-- The name that listings and messages show: the letters as capitals. -/
def name (m : Mnemonic) : String := String.ofList (m.letters.map Char.toUpper)

/-- The mnemonic with these small letters, if there is one. -/
def ofLetters? (cs : List Char) : Option Mnemonic :=
  all.find? fun m => m.letters == cs

theorem ofLetters?_letters (m : Mnemonic) : ofLetters? m.letters = some m := by
  cases m <;> decide

theorem letters_of_ofLetters? {cs : List Char} {m : Mnemonic}
    (h : ofLetters? cs = some m) : m.letters = cs := by
  rw [ofLetters?] at h
  have hm := List.find?_some h
  exact eq_of_beq hm

/-- Folds the case of one character as far as mnemonics are concerned. -/
def foldCase (c : Char) : Char := if c = '\u212A' then 'k' else c.toLower

/-- The mnemonic that a name spells in any mixture of cases, if it spells one. -/
def ofWord? (cs : List Char) : Option Mnemonic := ofLetters? (cs.map foldCase)

/-! ## What follows a mnemonic -/

/-- The conditional branches. -/
def isBranch : Mnemonic → Bool
  | .bcc | .bcs | .beq | .bmi | .bne | .bpl | .bvc | .bvs => true
  | _ => false

/-- The instructions that never take an operand. -/
def isImplied : Mnemonic → Bool
  | .brk | .clc | .cld | .cli | .clv | .dex | .dey | .inx | .iny | .nop
  | .pha | .php | .pla | .plp | .rti | .rts | .sec | .sed | .sei
  | .tax | .tay | .tsx | .txa | .txs | .tya => true
  | _ => false

/-- The shifts and rotations, which work on the accumulator when no operand is
given. -/
def isAccumulator : Mnemonic → Bool
  | .asl | .lsr | .rol | .ror => true
  | _ => false

/-- The kind of operand a mnemonic takes. Branches and the subroutine call name
their target; what is in no special group addresses memory. -/
def operandClass (m : Mnemonic) : OperandClass :=
  if m.isImplied then .implied
  else if m.isAccumulator then .accumulator
  else if m.isBranch || m == .jsr then .target
  else .memory

end Mnemonic

end Asm6502
