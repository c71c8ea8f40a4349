import Mintage.Command.Arguments
import Mintage.Command.Files
import Mintage.Command.Run
import Mintage.Contract.Assembly
import Mintage.Contract.Gate
import Mintage.Contract.Inheritance
import Mintage.Contract.Metadata
import Mintage.Contract.Minting
import Mintage.Contract.Notice
import Mintage.Contract.Plan
import Mintage.Contract.Proceeds
import Mintage.Contract.Registry
import Mintage.Contract.Sale
import Mintage.Decimal
import Mintage.Json.Codec
import Mintage.Json.Numeral
import Mintage.Json.Reader
import Mintage.Json.Record
import Mintage.Json.Skip
import Mintage.Json.Text
import Mintage.Layout.Doc
import Mintage.Layout.Fit
import Mintage.Layout.Render
import Mintage.Main
import Mintage.Outline
import Mintage.Settings.AddressBook
import Mintage.Settings.Basic
import Mintage.Settings.Derived
import Mintage.Settings.Json
import Mintage.Settings.Shares
import Mintage.Solidity.Expr
import Mintage.Solidity.OneLine
import Mintage.Solidity.Print
import Mintage.Solidity.Program
import Mintage.Solidity.Stmt
import Mintage.Template.Token
import Mintage.Template.Uri
import Mintage.Text.Blank
import Mintage.Text.Name
import Mintage.Text.Quoted
import Mintage.Proofs.Execution.Run
import Mintage.Proofs.Execution.Call
import Mintage.Proofs.Contract.Members
import Mintage.Proofs.Settings.Shares
import Mintage.Proofs.Withdrawal
import Mintage.Proofs.Execution.Frame
import Mintage.Proofs.Execution.Outcome
import Mintage.Proofs.Contract.Calls
import Mintage.Proofs.Minting.Token
import Mintage.Proofs.Minting.Call
import Mintage.Proofs.Minting.Supply
import Mintage.Proofs.Scope.Names
import Mintage.Proofs.Scope.Vocabulary
import Mintage.Proofs.Scope.Sale
import Mintage.Proofs.Scope.Minting
import Mintage.Proofs.Scope.Metadata
import Mintage.Proofs.Scope.Resolution
import Mintage.Proofs.Metadata
import Mintage.Proofs.Execution.History
import Mintage.Proofs.Allowance.Ledger
import Mintage.Proofs.Allowance.Sale
import Mintage.Proofs.Allowance.Mint
import Mintage.Proofs.Allowance.Seed
import Mintage.Proofs.Allowance.Bound
import Mintage.Proofs.Layout.Stroke
import Mintage.Proofs.Layout.Typeset
import Mintage.Proofs.Solidity.Pieces
import Mintage.Proofs.Solidity.Typesetting
import Mintage.Proofs.Solidity.Gathering
import Mintage.Proofs.Text.Lexeme
import Mintage.Proofs.Text.Plain
import Mintage.Proofs.Text.Skeleton
import Mintage.Proofs.Solidity.Lexing
import Mintage.Proofs.Solidity.Tidy
import Mintage.Proofs.Solidity.Declares
import Mintage.Proofs.Solidity.Nesting
import Mintage.Proofs.Solidity.Ending
import Mintage.Proofs.Solidity.Sound
import Mintage.Proofs.Source.Sale
import Mintage.Proofs.Source.Metadata
import Mintage.Proofs.Source.Program
import Mintage.Proofs.Source.Brackets
import Mintage.Proofs.Source.Display
import Mintage.Proofs.Idle
import Mintage.Proofs.Layout.Room
import Mintage.Proofs.TokenUri
import Mintage.Proofs.Layout.Visit
import Mintage.Proofs.Solidity.Regular
import Mintage.Proofs.Solidity.Dense
import Mintage.Proofs.Solidity.Reader
import Mintage.Proofs.Solidity.Readback
import Mintage.Proofs.Json.Text
import Mintage.Proofs.Json.Numeral
import Mintage.Proofs.Json.Codec
import Mintage.Proofs.Json.Record
import Mintage.Proofs.Settings.Json
import Mintage.Proofs.Refused
import Mintage.Proofs.Allowance.Answer
import Mintage.Proofs.Command.Arguments
import Mintage.Proofs.Command.Files
import Mintage.Proofs.Command.Run
import Mintage.Proofs.Layout.Lines
import Mintage.Proofs.Layout.Pen
import Mintage.Proofs.Solidity.Writing
import Mintage.Proofs.Solidity.Neat
import Mintage.Proofs.Solidity.Formatting
import Mintage.Proofs.Source.Formatting
import Mintage.Proofs.Contract.Names
import Mintage.Proofs.Scope.Imports
import Mintage.Proofs.Decimal
import Mintage.Proofs.Template.Grammar
import Mintage.Proofs.Template.Lexing
import Mintage.Proofs.Template.Filling
import Mintage.Proofs.Layout.Measure
import Mintage.Proofs.Layout.Algebra
import Mintage.Proofs.Text.Words
import Mintage.Proofs.Solidity.OneLine
import Mintage.Proofs.Layout.Short
import Mintage.Proofs.Solidity.Grouping
import Mintage.Proofs.Text.Name
import Mintage.Proofs.Text.Literal
import Mintage.Proofs.Solidity.Literal
