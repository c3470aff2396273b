import FiniteDomain.Main
import FiniteDomain.Proofs.Expr.Division
import FiniteDomain.Proofs.Expr.LevelOrder
import FiniteDomain.Proofs.Expr.Overflow
import FiniteDomain.Proofs.Network.ArcConsistency
import FiniteDomain.Proofs.Network.CalledVariables
import FiniteDomain.Proofs.Network.Enumeration
import FiniteDomain.Proofs.Network.Forward
import FiniteDomain.Proofs.Network.Maintained
import FiniteDomain.Proofs.Network.Meaning
import FiniteDomain.Proofs.Network.PrintedSolutions
import FiniteDomain.Proofs.Network.Relinking
import FiniteDomain.Proofs.Network.SolveErrors
import FiniteDomain.Proofs.Network.States
import FiniteDomain.Proofs.Network.Termination
import FiniteDomain.Proofs.Network.Trails
import FiniteDomain.Proofs.Problem.Comments
import FiniteDomain.Proofs.Problem.DeclaredNames
import FiniteDomain.Proofs.Problem.ErrorPlaces
import FiniteDomain.Proofs.Problem.Generated
import FiniteDomain.Proofs.Problem.PrintedDomains
import FiniteDomain.Proofs.Problem.Queens
import FiniteDomain.Proofs.Problem.TextFormat
import FiniteDomain.Proofs.Syntax.Exactness
import FiniteDomain.Proofs.Syntax.SyntaxErrors
