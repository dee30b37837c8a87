import Dice.Log
import Dice.Recorder
import Dice.Roller
import Dice.Session
import Dice.Source.Script
import Dice.Source.Words
import Dice.Proofs.Score.Order
import Dice.Proofs.Expr.Every
import Dice.Proofs.Operator
import Dice.Proofs.Rolling
import Dice.Proofs.Bounds
import Dice.Proofs.Selection
import Dice.Proofs.SelectionBounds
import Dice.Proofs.Die
import Dice.Proofs.BoundEvaluation
import Dice.Proofs.Expr.Built
import Dice.Proofs.Finishing
import Dice.Proofs.Notation.Balanced
import Dice.Proofs.Notation.Spelling
import Dice.Proofs.Notation.Tokens
import Dice.Proofs.Notation.Form
import Dice.Proofs.Notation.Grammar
import Dice.Proofs.Notation.Lexed
import Dice.Proofs.Notation.Consumed
import Dice.Proofs.Notation.Pieces
import Dice.Proofs.DieText
import Dice.Proofs.Expr.Tally
import Dice.Proofs.Notation.Written
import Dice.Proofs.Expr.Texts
import Dice.Proofs.Expr.Legible
import Dice.Proofs.Expr.Regrouped
import Dice.Proofs.Rereading
import Dice.Proofs.Notation.Parsed
import Dice.Proofs.Expr.Spliced
import Dice.Proofs.Roundtrip
import Dice.Proofs.Notation.Accepted
import Dice.Proofs.Formula
import Dice.Proofs.Operation
import Dice.Proofs.Notation.Checked
import Dice.Proofs.Notation.Nesting
import Dice.Proofs.Refusal
import Dice.Proofs.Score.Steady
import Dice.Proofs.RegroupedBounds
import Dice.Proofs.Notation.Shifted
import Dice.Proofs.Notation.Segments
import Dice.Proofs.Notation.Piecewise
import Dice.Proofs.Postorder
import Dice.Proofs.Session
import Dice.Proofs.Reached
import Dice.Proofs.Expr.Pools
import Dice.Proofs.Notation.Reported
import Dice.Proofs.Notation.Unbalanced
import Dice.Proofs.Notation.Placed
import Dice.Proofs.Guarded
import Dice.Proofs.Explosion
import Dice.Proofs.Notation.Spelt
import Dice.Proofs.Notation.Denotes
import Dice.Proofs.Notation.Wrapped
import Dice.Proofs.Notation.Condensed
import Dice.Proofs.Notation.Ahead
import Dice.Proofs.Notation.Enclosed
import Dice.Proofs.Ranking
import Dice.Proofs.Notation.Cuts
import Dice.Proofs.Summands
import Dice.Proofs.Notation.Visited
import Dice.Proofs.ExplodingDice
import Dice.Proofs.Notation.Parts
import Dice.Proofs.Notation.Invalid
import Dice.Proofs.Notation.Faces
import Dice.Proofs.Notation.Trailing
import Dice.Proofs.OpenOperators
import Dice.Proofs.Notation.Delivered
