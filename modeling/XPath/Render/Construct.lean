import XPath.Parse
import XPath.Render.Expr

/-!
# Rendering of any construct
-/

namespace XPath.StartSymbol

/-- The pieces of what has been read. -/
def pieces : (s : StartSymbol) → s.Value → List Piece
  | expr, n => n.pieces
  | sequenceType, t => t.pieces
  | itemType, t => t.pieces
  | singleType, t => t.pieces
  | kindTest, t => t.pieces
  | nodeTest, t => t.pieces
  | nameTest, t => t.pieces
  | eqName, n => n.pieces
  | ncName, n => n.pieces
  | predicate, n => predicatePieces (n, n.pieces)
  | argumentList, args => argumentPieces (args.map (·.map fun n => (n, n.pieces)))
  | paramList, params => paramsPieces params
  | enclosedExpr, e => enclosedPieces (e.map fun n => (n, n.pieces))

end XPath.StartSymbol
