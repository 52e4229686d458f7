import LoxSyntax.Expr.Postorder
import LoxSyntax.Main
import LoxSyntax.Number.Nearest
import LoxSyntax.Parse.Canonical
import LoxSyntax.Parse.Grammar
import LoxSyntax.Parse.Recovery
import LoxSyntax.Proofs.Number.Reading
import LoxSyntax.Proofs.Parse.Refusal
import LoxSyntax.Proofs.Parse.RoundTrip
import LoxSyntax.Proofs.Session.Prompt
import LoxSyntax.Scan.Reading
import LoxSyntax.Session.Command
import LoxSyntax.Proofs.Expr.Display
import LoxSyntax.Proofs.Expr.Parenthesized
import LoxSyntax.Proofs.Session.Account
import LoxSyntax.Proofs.Session.Modes
import LoxSyntax.Proofs.Text.Utf8
import LoxSyntax.Proofs.Text.Newline
import LoxSyntax.Proofs.Session.File
import LoxSyntax.Proofs.Scan.Blanked
import LoxSyntax.Proofs.Expr.ReversePolish
import LoxSyntax.Proofs.Number.Display
import LoxSyntax.Proofs.Scan.Numeral
import LoxSyntax.Proofs.Parse.Echo
import LoxSyntax.Proofs.Expr.Same
import LoxSyntax.Proofs.Parse.Nesting
import LoxSyntax.Proofs.Parse.Locality
import LoxSyntax.Proofs.Session.Listing
import LoxSyntax.Proofs.Expr.Reread
import LoxSyntax.Proofs.Session.Rows
import LoxSyntax.Proofs.Scan.Rescan
import LoxSyntax.Proofs.CommandLine.Verbose
import LoxSyntax.Proofs.CommandLine.Order
import LoxSyntax.Proofs.Expr.Walk
import LoxSyntax.Proofs.Token.Debug
import LoxSyntax.Proofs.Parse.Descent
