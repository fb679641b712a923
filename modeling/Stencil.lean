import Stencil.Main
import Stencil.Proofs.Command.Failures
import Stencil.Proofs.Compile.LineEndings
import Stencil.Proofs.Compile.ScopeClass
import Stencil.Proofs.Expr.Numbers
import Stencil.Proofs.Expr.Recursion
import Stencil.Proofs.Markup.ClassChains
import Stencil.Proofs.Markup.Events
import Stencil.Proofs.Markup.Resolution
import Stencil.Proofs.Markup.SiblingKeys
import Stencil.Proofs.Markup.Simulation
import Stencil.Proofs.Script.Margins
import Stencil.Proofs.Script.NewOperand
import Stencil.Proofs.Script.RoundTrip
import Stencil.Proofs.Script.StatementStart
import Stencil.Proofs.Style.Matching
import Stencil.Proofs.Style.Rescoping
import Stencil.Proofs.Style.RoundTrip
import Stencil.Proofs.Template.Joining
import Stencil.Proofs.Template.Refusals
import Stencil.Proofs.Template.Wiring
import Stencil.Proofs.Token.Brackets
import Stencil.Proofs.Token.EmptyLines
import Stencil.Proofs.Token.Reindentation
import Stencil.Proofs.Token.Termination
import Stencil.Proofs.Token.WordModes
