import Curried.Token
import Curried.Expr
import Curried.Parse
import Curried.Term
import Curried.Scopes
import Curried.Canonical
import Curried.Value
import Curried.Machine
import Curried.Interpreter
import Curried.Proofs.Success
import Curried.Proofs.Names
import Curried.Proofs.Scan
import Curried.Proofs.Grammar
import Curried.Proofs.Parse
import Curried.Proofs.Completion
import Curried.Proofs.Layout
import Curried.Proofs.Literals
import Curried.Proofs.Print
import Curried.Proofs.Numbering
import Curried.Proofs.Admissible
import Curried.Proofs.Naming
import Curried.Proofs.Faults
import Curried.Proofs.Regrouping
import Curried.Proofs.ReadBack
import Curried.Proofs.Lexical
import Curried.Proofs.WellFormed
import Curried.Proofs.Spelling
import Curried.Proofs.Render
import Curried.Proofs.Reduction
import Curried.Proofs.Renumbering
import Curried.Proofs.Evaluation
import Curried.Proofs.Run
import Curried.Proofs.Direct
import Curried.Proofs.Related
import Curried.Proofs.Renaming
import Curried.Proofs.Currying
import Curried.Proofs.Counting
import Curried.Proofs.Halting
import Curried.Proofs.Limit
import Curried.Proofs.Invariant
import Curried.Proofs.Resolution
import Curried.Proofs.Arity
import Curried.Proofs.Saturation
import Curried.Proofs.Splitting
import Curried.Proofs.Pending
import Curried.Proofs.Globals
import Curried.Proofs.Scopes
import Curried.Proofs.Record
import Curried.Proofs.Effects
import Curried.Proofs.CallCost
import Curried.Proofs.Misfit
import Curried.Proofs.Numerals
import Curried.Proofs.Arithmetic
