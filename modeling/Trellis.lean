import Trellis.Main
import Trellis.Proofs.Command.Modes
import Trellis.Proofs.Component.Fresh
import Trellis.Proofs.Expr.Calls
import Trellis.Proofs.Expr.Ending
import Trellis.Proofs.Expr.MemberPath
import Trellis.Proofs.Expr.Nested
import Trellis.Proofs.Expr.Reading
import Trellis.Proofs.Host.AnyMoves
import Trellis.Proofs.Host.AttrUpdates
import Trellis.Proofs.Host.Journey
import Trellis.Proofs.Host.Mirror
import Trellis.Proofs.Host.Session
import Trellis.Proofs.Host.Standing
import Trellis.Proofs.Host.WellFormed
import Trellis.Proofs.Host.Zones
import Trellis.Proofs.Markup.Stopping
import Trellis.Proofs.Markup.Written
import Trellis.Proofs.Template.Chains
import Trellis.Proofs.Template.Formed
import Trellis.Proofs.Template.Grown
import Trellis.Proofs.Template.ItemKeys
import Trellis.Proofs.Template.OutlineLines
import Trellis.Proofs.Template.Registration
import Trellis.Proofs.Template.Renders
import Trellis.Proofs.Template.TextAndAttribute
import Trellis.Proofs.Tree.AttrDifference
import Trellis.Proofs.Tree.Equivalent
import Trellis.Proofs.Value.Brackets
import Trellis.Proofs.Value.Documents
import Trellis.Proofs.Value.Dropped
