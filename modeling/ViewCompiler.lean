import ViewCompiler.CommandLine.Command
import ViewCompiler.CommandLine.Options
import ViewCompiler.CommandLine.Run
import ViewCompiler.Compile.ClassName
import ViewCompiler.Compile.Context
import ViewCompiler.Compile.Expression
import ViewCompiler.Compile.Markup
import ViewCompiler.Compile.Slot
import ViewCompiler.Compile.Statement
import ViewCompiler.Compile.Unit
import ViewCompiler.Console.Colour
import ViewCompiler.Console.ControlSequence
import ViewCompiler.Console.Literal
import ViewCompiler.Console.Message
import ViewCompiler.Console.Style
import ViewCompiler.Expression.Access
import ViewCompiler.Expression.Accessor
import ViewCompiler.Expression.Atomic
import ViewCompiler.Expression.Identifier
import ViewCompiler.Expression.Literal
import ViewCompiler.Expression.Paren
import ViewCompiler.Expression.Phrase
import ViewCompiler.Expression.Variables
import ViewCompiler.FileTree
import ViewCompiler.FileTree.Change
import ViewCompiler.Glob
import ViewCompiler.Keyed
import ViewCompiler.Main
import ViewCompiler.Names
import ViewCompiler.Path
import ViewCompiler.Php.Fragment
import ViewCompiler.Php.Layout
import ViewCompiler.Php.Printer
import ViewCompiler.Php.Syntax
import ViewCompiler.Project.Build
import ViewCompiler.Project.Config
import ViewCompiler.Project.Event
import ViewCompiler.Project.View
import ViewCompiler.Project.Watch
import ViewCompiler.Proofs.Compile.Captures
import ViewCompiler.Proofs.Compile.Declared
import ViewCompiler.Proofs.Compile.Emitting
import ViewCompiler.Proofs.Compile.Flat
import ViewCompiler.Proofs.Compile.Headers
import ViewCompiler.Proofs.Compile.Hoists
import ViewCompiler.Proofs.Compile.HostVariables
import ViewCompiler.Proofs.Compile.Indentation
import ViewCompiler.Proofs.Compile.Introducing
import ViewCompiler.Proofs.Compile.LineEnds
import ViewCompiler.Proofs.Compile.LiteralText
import ViewCompiler.Proofs.Compile.PlainText
import ViewCompiler.Proofs.Compile.Reads
import ViewCompiler.Proofs.Compile.Slots
import ViewCompiler.Proofs.Compile.Totality
import ViewCompiler.Proofs.Compile.Units
import ViewCompiler.Proofs.Expression.Accesses
import ViewCompiler.Proofs.Expression.Balance
import ViewCompiler.Proofs.Expression.Calls
import ViewCompiler.Proofs.Expression.Cutting
import ViewCompiler.Proofs.Expression.Exchange
import ViewCompiler.Proofs.Expression.Groups
import ViewCompiler.Proofs.Expression.HostCode
import ViewCompiler.Proofs.Expression.Idempotence
import ViewCompiler.Proofs.Expression.Mentions
import ViewCompiler.Proofs.Expression.Merging
import ViewCompiler.Proofs.Expression.Occurrences
import ViewCompiler.Proofs.Expression.Operands
import ViewCompiler.Proofs.Expression.Quotes
import ViewCompiler.Proofs.Expression.Reference
import ViewCompiler.Proofs.Expression.Rewriting
import ViewCompiler.Proofs.Expression.Scanning
import ViewCompiler.Proofs.Expression.Undivided
import ViewCompiler.Proofs.FileTree.Contents
import ViewCompiler.Proofs.FileTree.Making
import ViewCompiler.Proofs.Keyed
import ViewCompiler.Proofs.Names
import ViewCompiler.Proofs.Path
import ViewCompiler.Proofs.Php.Appending
import ViewCompiler.Proofs.Php.Execution
import ViewCompiler.Proofs.Php.Headers
import ViewCompiler.Proofs.Php.Indentation
import ViewCompiler.Proofs.Php.LineEnds
import ViewCompiler.Proofs.Php.Mapping
import ViewCompiler.Proofs.Php.OpenTags
import ViewCompiler.Proofs.Php.Reads
import ViewCompiler.Proofs.Php.StringLiteral
import ViewCompiler.Proofs.Project.Failures
import ViewCompiler.Proofs.Project.Following
import ViewCompiler.Proofs.Project.Listing
import ViewCompiler.Proofs.Project.Mirror
import ViewCompiler.Proofs.Project.Outputs
import ViewCompiler.Proofs.Project.Resolution
import ViewCompiler.Proofs.Project.Sources
import ViewCompiler.Proofs.Project.Steps
import ViewCompiler.Proofs.Project.Summaries
import ViewCompiler.Proofs.Template.Accesses
import ViewCompiler.Proofs.Template.Attributes
import ViewCompiler.Proofs.Template.Canonical
import ViewCompiler.Proofs.Template.Choosing
import ViewCompiler.Proofs.Template.DedupReads
import ViewCompiler.Proofs.Template.Deduplication
import ViewCompiler.Proofs.Template.Derivation
import ViewCompiler.Proofs.Template.Detached
import ViewCompiler.Proofs.Template.Entering
import ViewCompiler.Proofs.Template.Forms
import ViewCompiler.Proofs.Template.FreeVariables
import ViewCompiler.Proofs.Template.Heads
import ViewCompiler.Proofs.Template.Hoisting
import ViewCompiler.Proofs.Template.Idempotence
import ViewCompiler.Proofs.Template.Introducing
import ViewCompiler.Proofs.Template.Levels
import ViewCompiler.Proofs.Template.Lexing
import ViewCompiler.Proofs.Template.Meaning
import ViewCompiler.Proofs.Template.Nesting
import ViewCompiler.Proofs.Template.Outline
import ViewCompiler.Proofs.Template.Overwriting
import ViewCompiler.Proofs.Template.Passes
import ViewCompiler.Proofs.Template.Reading
import ViewCompiler.Proofs.Template.Reads
import ViewCompiler.Proofs.Template.Rendering
import ViewCompiler.Proofs.Template.Repeated
import ViewCompiler.Proofs.Template.Replacing
import ViewCompiler.Proofs.Template.RoundTrip
import ViewCompiler.Proofs.Template.Rounds
import ViewCompiler.Proofs.Template.Running
import ViewCompiler.Proofs.Template.Shape
import ViewCompiler.Proofs.Template.Sharing
import ViewCompiler.Proofs.Template.Stack
import ViewCompiler.Proofs.Template.Standing
import ViewCompiler.Proofs.Template.Tags
import ViewCompiler.Proofs.Template.Tidy
import ViewCompiler.Proofs.Template.Tokens
import ViewCompiler.Proofs.Template.WellFormed
import ViewCompiler.Proofs.Template.WholeCalls
import ViewCompiler.Proofs.Text.Blank
import ViewCompiler.Proofs.Text.Cut
import ViewCompiler.Remainder
import ViewCompiler.Template.Access
import ViewCompiler.Template.Attribute
import ViewCompiler.Template.Frame
import ViewCompiler.Template.Hoist
import ViewCompiler.Template.Lexeme
import ViewCompiler.Template.Lexeme.Directive
import ViewCompiler.Template.Lexeme.Reader
import ViewCompiler.Template.Lexeme.Shortens
import ViewCompiler.Template.Lexemes
import ViewCompiler.Template.Node
import ViewCompiler.Template.Parse
import ViewCompiler.Template.Scope
import ViewCompiler.Template.Slot
import ViewCompiler.Template.Strategy
import ViewCompiler.Template.Visible
import ViewCompiler.Text.Blank
import ViewCompiler.Text.Cut
import ViewCompiler.Text.DecimalDigit
import ViewCompiler.Text.Folding
import ViewCompiler.Text.Newlines
