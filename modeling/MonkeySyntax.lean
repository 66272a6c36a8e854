import MonkeySyntax.Ast.Tokens
import MonkeySyntax.Grammar.Program
import MonkeySyntax.Json.Reader
import MonkeySyntax.Main
import MonkeySyntax.Parser.Lookahead
import MonkeySyntax.Parser.Operation
import MonkeySyntax.Proofs.Acceptance
import MonkeySyntax.Proofs.Boundaries
import MonkeySyntax.Proofs.Chains
import MonkeySyntax.Proofs.Climbing
import MonkeySyntax.Proofs.Command.Completion
import MonkeySyntax.Proofs.Command.Sources
import MonkeySyntax.Proofs.Conservation
import MonkeySyntax.Proofs.Consistency
import MonkeySyntax.Proofs.Continuation
import MonkeySyntax.Proofs.Decomposition
import MonkeySyntax.Proofs.Equality
import MonkeySyntax.Proofs.Extent
import MonkeySyntax.Proofs.Faults
import MonkeySyntax.Proofs.Holes
import MonkeySyntax.Proofs.Locations
import MonkeySyntax.Proofs.Numerals
import MonkeySyntax.Proofs.Placement
import MonkeySyntax.Proofs.Records
import MonkeySyntax.Proofs.Rereading
import MonkeySyntax.Proofs.Resynchronisation
import MonkeySyntax.Proofs.Sessions
import MonkeySyntax.Proofs.SignedNumerals
import MonkeySyntax.Proofs.Spelling
import MonkeySyntax.Proofs.Starts
import MonkeySyntax.Proofs.UnaryRuns
import MonkeySyntax.Proofs.Window
