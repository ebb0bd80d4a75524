import XPath.Main
import XPath.Outline
import XPath.Render.Construct
import XPath.Transform.Edit
import XPath.Value.Decimal.Compact
import XPath.Value.Double.Conversion
import XPath.Proofs.Role
import XPath.Proofs.Rule
import XPath.Proofs.WellFormed
import XPath.Proofs.Sound.Name
import XPath.Proofs.Lexeme
import XPath.Proofs.TokenText
import XPath.Proofs.Numeral
import XPath.Proofs.Sound.SequenceType
import XPath.Proofs.Sound.Primary
import XPath.Proofs.Sound.Path
import XPath.Proofs.Sound.Expr
import XPath.Proofs.Parse
import XPath.Proofs.Lossless
import XPath.Proofs.Nearest
import XPath.Proofs.Canonical
import XPath.Proofs.Complete.Name
import XPath.Proofs.Complete.SequenceType
import XPath.Proofs.Complete.Opening
import XPath.Proofs.Complete.Primary
import XPath.Proofs.Complete.Path
import XPath.Proofs.Complete.Operator
import XPath.Proofs.Complete.Expr
import XPath.Proofs.RoundTrip
import XPath.Proofs.Edges
import XPath.Proofs.PlainTransform
import XPath.Proofs.SharedNodes
import XPath.Proofs.LazyTransform
import XPath.Proofs.Substitution
import XPath.Proofs.TextRoundTrip
import XPath.Proofs.UnexpectedToken
import XPath.Proofs.Limit
import XPath.Proofs.Alike.Parse
import XPath.Proofs.NameText
import XPath.Proofs.DecimalValue
import XPath.Proofs.DecimalQuotient
import XPath.Proofs.DecimalForm
import XPath.Proofs.DecimalRemainder
import XPath.Proofs.DecimalText
import XPath.Proofs.DecimalRounding
import XPath.Proofs.TypeRoundTrip
import XPath.Proofs.Progress
import XPath.Proofs.Position
import XPath.Proofs.LoneSlash
import XPath.Proofs.LookAhead
import XPath.Proofs.LexFailure
import XPath.Proofs.DoubleRounding
import XPath.Proofs.LoneOperand
import XPath.Proofs.NumericLiteral
import XPath.Proofs.StringText
import XPath.Proofs.DecimalCompact
import XPath.Proofs.Spacing
import XPath.Proofs.Words
import XPath.Proofs.LineFeeds
import XPath.Proofs.Outline
import XPath.Proofs.Separated
import XPath.Proofs.TrailingZeros
