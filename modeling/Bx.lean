import Bx.Flow.View
import Bx.Lalr.Session
import Bx.Lexer.Declarations
import Bx.Lexer.Script
import Bx.Main
import Bx.Parser.Tree
import Bx.Proofs.Asm.Operands
import Bx.Proofs.Blocks.Partition
import Bx.Proofs.Flow.CopyPropagation
import Bx.Proofs.Flow.Layout
import Bx.Proofs.Flow.NoDeadStores
import Bx.Proofs.Flow.PhiLiveness
import Bx.Proofs.Flow.SsaForm
import Bx.Proofs.Flow.TrailingLabel
import Bx.Proofs.Flow.Uses
import Bx.Proofs.Procedural.Comparing
import Bx.Proofs.Procedural.Passing
import Bx.Proofs.Procedural.Returns
import Bx.Proofs.Procedural.Spacing
import Bx.Proofs.Procedural.Typing
import Bx.Proofs.Scoping.Checks
import Bx.Proofs.Source.LoopLabels
import Bx.Proofs.Straight.Correct
import Bx.Proofs.Straight.Registers
import Bx.Proofs.Structured.Conditions
import Bx.Proofs.Structured.Precedence
import Bx.Proofs.Tac.RoundTrip
import Bx.Proofs.TwosComplement
import Bx.Tac.Memories
