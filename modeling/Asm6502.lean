import Asm6502.Cursor
import Asm6502.Main
import Asm6502.Proofs.Lexing.Lossless
import Asm6502.Proofs.Lexing.Printing
import Asm6502.Proofs.Parsing.Acceptance
import Asm6502.Proofs.Parsing.Bounds
import Asm6502.Proofs.Parsing.Containment
import Asm6502.Proofs.Parsing.Coverage
import Asm6502.Proofs.Parsing.DetachedLabels
import Asm6502.Proofs.Parsing.FirstEnd
import Asm6502.Proofs.Parsing.NestingLimit
import Asm6502.Proofs.Parsing.Numerals
import Asm6502.Proofs.Parsing.ProgramCompleteness
import Asm6502.Proofs.Parsing.ProgramShape
import Asm6502.Proofs.Parsing.ReportOrder
import Asm6502.Proofs.Parsing.Respacing
import Asm6502.Proofs.Tree.Claims
import Asm6502.Tree.Labels
import Asm6502.Proofs.Tree.Session
import Asm6502.Proofs.Lexing.Continuation
import Asm6502.Proofs.Lexing.LineEnds
import Asm6502.Proofs.Tree.Writer
import Asm6502.Proofs.CommandLine.Files
import Asm6502.Proofs.Lexing.CommentLines
import Asm6502.Proofs.Lexing.Stepwise
import Asm6502.Proofs.Lexing.Halting
import Asm6502.Proofs.Lexing.CarriageReturns
import Asm6502.Proofs.Tree.Relinking
import Asm6502.Proofs.Tree.Headings
import Asm6502.Proofs.Tree.Legibility
import Asm6502.Proofs.Tree.Lists
import Asm6502.Proofs.Parsing.LabelSearch
import Asm6502.Proofs.Parsing.OnLine
