import LoxExpr.CommandLine.Session
import LoxExpr.Main
import LoxExpr.Proofs.Grammar
import LoxExpr.Proofs.Reading
import LoxExpr.Proofs.Moves
import LoxExpr.Proofs.Charge
import LoxExpr.Proofs.Acceptance
import LoxExpr.Proofs.Height
import LoxExpr.Proofs.NumberText
import LoxExpr.Proofs.Pieces
import LoxExpr.Proofs.SourceText
import LoxExpr.Proofs.SyntaxErrors
import LoxExpr.Proofs.Contract
import LoxExpr.Proofs.Tokenization
import LoxExpr.Proofs.Beginnings
import LoxExpr.Proofs.Stages
import LoxExpr.Proofs.Lines
import LoxExpr.Proofs.Seams
import LoxExpr.Proofs.Safety
import LoxExpr.Proofs.Composition
import LoxExpr.Proofs.Typing
import LoxExpr.Proofs.Budgets
import LoxExpr.Proofs.Literals
import LoxExpr.Proofs.Reprints
import LoxExpr.Proofs.Quotes
import LoxExpr.Proofs.Misprints
import LoxExpr.Proofs.Postfix
import LoxExpr.Proofs.Histories
import LoxExpr.Proofs.Arguments
import LoxExpr.Proofs.Replies
import LoxExpr.Proofs.Sessions
import LoxExpr.Proofs.Alike
import LoxExpr.Proofs.Places
import LoxExpr.Proofs.Below
import LoxExpr.Proofs.Layout
import LoxExpr.Proofs.Ends
import LoxExpr.Proofs.Rounding
import LoxExpr.Proofs.Shortest
import LoxExpr.Proofs.Numerals
import LoxExpr.Proofs.Rescans
import LoxExpr.Proofs.OpenStrings
import LoxExpr.Proofs.Modes
import LoxExpr.Proofs.PrefixText
