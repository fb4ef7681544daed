import LiveSheet.BlockGrid
import LiveSheet.Coord
import LiveSheet.Decimal
import LiveSheet.Decimal.Style
import LiveSheet.Demo
import LiveSheet.Error
import LiveSheet.Exchange
import LiveSheet.Expr
import LiveSheet.Expr.Grammar
import LiveSheet.Expr.Lexeme
import LiveSheet.Expr.Token
import LiveSheet.Formula
import LiveSheet.Formula.Memo
import LiveSheet.Graph
import LiveSheet.Json
import LiveSheet.Json.Decoding
import LiveSheet.Json.Document
import LiveSheet.Population
import LiveSheet.Queue
import LiveSheet.Recent
import LiveSheet.Session
import LiveSheet.Session.Run
import LiveSheet.Settings
import LiveSheet.Sheet
import LiveSheet.Sheet.Cascade
import LiveSheet.Sheet.Evaluation
import LiveSheet.Store
import LiveSheet.Template
import LiveSheet.Text
import LiveSheet.Value
import LiveSheet.Viewport
import LiveSheet.Main
import LiveSheet.Proofs.BlockGrid
import LiveSheet.Proofs.BlockGrid.Writes
import LiveSheet.Proofs.BlockGrid.Bands
import LiveSheet.Proofs.Store
import LiveSheet.Proofs.Graph.Edges
import LiveSheet.Proofs.Graph.Reach
import LiveSheet.Proofs.Graph.Changes
import LiveSheet.Proofs.Graph.Order
import LiveSheet.Proofs.Memo
import LiveSheet.Proofs.Recent.Recency
import LiveSheet.Proofs.Memo.Recency
import LiveSheet.Proofs.Denotation
import LiveSheet.Proofs.Writing.Cycles
import LiveSheet.Proofs.Sheet.Soundness
import LiveSheet.Proofs.Sheet.Settling
import LiveSheet.Proofs.Sheet.Walk
import LiveSheet.Proofs.Sheet.Steps
import LiveSheet.Proofs.Sheet.Evaluation
import LiveSheet.Proofs.Sheet.Coherence
import LiveSheet.Proofs.Sheet.Edits
import LiveSheet.Proofs.Sheet.Extent
import LiveSheet.Proofs.Sheet.Freshness
import LiveSheet.Proofs.Sheet.Upkeep
import LiveSheet.Proofs.Sheet.Revision
import LiveSheet.Proofs.Sheet.Draining
import LiveSheet.Proofs.Sheet.Batches
import LiveSheet.Proofs.Sheet.Work
import LiveSheet.Proofs.Sheet.Findings
import LiveSheet.Proofs.Sheet.Exploration
import LiveSheet.Proofs.Sheet.Accounts
import LiveSheet.Proofs.Sheet.Agreement
import LiveSheet.Proofs.Sheet.Replay
import LiveSheet.Proofs.Session.Runs
import LiveSheet.Proofs.Session.Values
import LiveSheet.Proofs.Session.Propagation
import LiveSheet.Proofs.Session.History
import LiveSheet.Proofs.Session.Draining
import LiveSheet.Proofs.Session.Batches
import LiveSheet.Proofs.Session.Recomputed
import LiveSheet.Proofs.Session.Recalculation
import LiveSheet.Proofs.Session.Interleaving
import LiveSheet.Proofs.Session.Bulk
import LiveSheet.Proofs.Session.Loading
import LiveSheet.Proofs.Session.Passes
import LiveSheet.Proofs.Session.View
import LiveSheet.Proofs.Session.Bookkeeping
import LiveSheet.Proofs.Session.Shown
import LiveSheet.Proofs.Population
import LiveSheet.Proofs.Template
import LiveSheet.Proofs.Viewport
import LiveSheet.Proofs.Decimal.Rounding
import LiveSheet.Proofs.Decimal.Exact
import LiveSheet.Proofs.Decimal.Plain
import LiveSheet.Proofs.Decimal.Unsigned
import LiveSheet.Proofs.Expr.Lexing
import LiveSheet.Proofs.Expr.Lexemes
import LiveSheet.Proofs.Expr.Offences
import LiveSheet.Proofs.Expr.Printing
import LiveSheet.Proofs.Expr.Opening
import LiveSheet.Proofs.Expr.Finite
import LiveSheet.Proofs.Expr.Derivation
import LiveSheet.Proofs.Expr.Association
import LiveSheet.Proofs.Formula.Pieces
import LiveSheet.Proofs.Formula.Words
import LiveSheet.Proofs.Formula.Substitution
import LiveSheet.Proofs.Formula.Validity
import LiveSheet.Proofs.Coord.Column
import LiveSheet.Proofs.Coord.Words
import LiveSheet.Proofs.Coord.Address
import LiveSheet.Proofs.Formula.Scanning
import LiveSheet.Proofs.Decimal.Quotient
import LiveSheet.Proofs.Viewport.Scrolling
import LiveSheet.Proofs.Expr.Parser
import LiveSheet.Proofs.Sheet.Stack
