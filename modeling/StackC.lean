import StackC.SExpr.Match
import StackC.Asm.HelperTable
import StackC.Corpus.Golden
import StackC.Main
import StackC.Proofs.Derivation.Complete
import StackC.Proofs.Lowering.Errors
import StackC.Proofs.Execution.Program
import StackC.Proofs.Lowering.Balance
import StackC.Proofs.Compile.Session
import StackC.Proofs.Compile.Layout
import StackC.Proofs.Compile.Reread
import StackC.Proofs.Compile.Decoding
import StackC.Proofs.Lowering.Supply
import StackC.Proofs.Execution.Assigned
import StackC.Proofs.Markdown.Reading
import StackC.Proofs.Markdown.Code
import StackC.Proofs.Corpus.Renewal
import StackC.Proofs.Corpus.Settled
import StackC.Proofs.Corpus.Agreement
import StackC.Proofs.Execution.Words
import StackC.Proofs.Reading.Spelled
import StackC.Proofs.Reading.Declared
import StackC.Proofs.Token.Lexemes
import StackC.Proofs.Derivation.Viable
import StackC.Proofs.Compile.LoopHeaders
import StackC.Proofs.Compile.Turned
import StackC.Proofs.SExpr.Blame
import StackC.Proofs.Cursor.Program
import StackC.Proofs.Compile.Apart
import StackC.Proofs.Diagnostic.Position
import StackC.Proofs.SExpr.Printing
import StackC.Proofs.Corpus.Splicing
import StackC.Proofs.Corpus.Extraction
import StackC.Proofs.Token.Blanks
import StackC.Proofs.Lowering.Scratch
import StackC.Proofs.Asm.HelperTable
