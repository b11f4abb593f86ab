import Calcbook.Main
import Calcbook.Formula.Text
import Calcbook.Proofs.Parsing.Soundness
import Calcbook.Proofs.Parsing.Completeness
import Calcbook.Proofs.Formula.Depth
import Calcbook.Proofs.Formula.Printing
import Calcbook.Proofs.Book.Delivery
import Calcbook.Proofs.Book.Arrivals
import Calcbook.Proofs.Parsing.LeftRecursion
import Calcbook.Proofs.Parsing.ViablePrefix
import Calcbook.Proofs.Grammar.Search
import Calcbook.Proofs.Grammar.Mistakes
import Calcbook.Proofs.Lexeme.Munch
import Calcbook.Proofs.Formula.Refusals
import Calcbook.Proofs.Formula.Faults
import Calcbook.Proofs.Parsing.Sessions
import Calcbook.Proofs.Formula.Words
import Calcbook.Proofs.Lexeme.Lookahead
import Calcbook.Proofs.Lexeme.Conserved
import Calcbook.Proofs.Parsing.Actions
import Calcbook.Proofs.Parsing.Walks
import Calcbook.Proofs.Parsing.Frontier
