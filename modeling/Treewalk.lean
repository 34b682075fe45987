import Treewalk.Source
import Treewalk.Session
import Treewalk.Host
import Treewalk.Command
import Treewalk.Syntax.Equal
import Treewalk.Token.Bytes
import Treewalk.Main
import Treewalk.Proofs.Parsing.Exact
import Treewalk.Proofs.Mirror.Defined
import Treewalk.Proofs.CallCount
import Treewalk.Proofs.Lexical.Resolution
import Treewalk.Proofs.Encapsulation
import Treewalk.Proofs.Batch
import Treewalk.Proofs.Seam
import Treewalk.Proofs.Returns
import Treewalk.Proofs.Renaming.Meaning
import Treewalk.Proofs.Loops.Meaning
import Treewalk.Proofs.Receivers.Right
import Treewalk.Proofs.Words.Spread
import Treewalk.Proofs.Initializers.Construction
import Treewalk.Proofs.Cells
import Treewalk.Proofs.Alike
import Treewalk.Proofs.Bytes.Safe
import Treewalk.Proofs.Progress.Rules
import Treewalk.Proofs.Balanced
import Treewalk.Proofs.Rooted
import Treewalk.Proofs.Unambiguous
import Treewalk.Proofs.Parsing.WellFormed
