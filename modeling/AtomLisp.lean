import AtomLisp.Text.Quoted
import AtomLisp.Token.Lexer
import AtomLisp.Builtin
import AtomLisp.Reader
import AtomLisp.Value.Render
import AtomLisp.Value.Inspect
import AtomLisp.Error
import AtomLisp.Integer
import AtomLisp.Bindings
import AtomLisp.Store.Inspect
import AtomLisp.Session
import AtomLisp.Eval
import AtomLisp.Completion
import AtomLisp.CommandLine
import AtomLisp.Main
import AtomLisp.Proofs.TextBytes
import AtomLisp.Proofs.TokensOfText
import AtomLisp.Proofs.Lexing
import AtomLisp.Proofs.LexerCalls
import AtomLisp.Proofs.SourceLines
import AtomLisp.Proofs.Parentheses
import AtomLisp.Proofs.Reading
import AtomLisp.Proofs.LenientReading
import AtomLisp.Proofs.RoundTrip
import AtomLisp.Proofs.StoreOperations
import AtomLisp.Proofs.FormParts
import AtomLisp.Proofs.Preservation
import AtomLisp.Proofs.Appending
import AtomLisp.Proofs.Depth
import AtomLisp.Proofs.PendingApplications
import AtomLisp.Proofs.Clauses
import AtomLisp.Proofs.ProgramPieces
import AtomLisp.Proofs.DisplayedSources
import AtomLisp.Proofs.Conversation
import AtomLisp.Proofs.Frame
import AtomLisp.Proofs.DefinedNames
import AtomLisp.Proofs.Occurrence
import AtomLisp.Proofs.Renaming
import AtomLisp.Proofs.History
import AtomLisp.Proofs.RenamedForms
import AtomLisp.Proofs.References
import AtomLisp.Proofs.Mirror
import AtomLisp.Proofs.LockStep
import AtomLisp.Proofs.Simulation
import AtomLisp.Proofs.Reachable
import AtomLisp.Proofs.EnvironmentInvariant
import AtomLisp.Proofs.LexicalScoping
import AtomLisp.Proofs.RepeatedCalls
import AtomLisp.Proofs.UnmentionedNames
import AtomLisp.Proofs.Regimes
import AtomLisp.Proofs.WellFormedCode
import AtomLisp.Proofs.Equality
import AtomLisp.Proofs.Hosts
import AtomLisp.Proofs.ClosureIdentity
import AtomLisp.Proofs.Shadowing
import AtomLisp.Proofs.Numerals
import AtomLisp.Proofs.Arithmetic
import AtomLisp.Proofs.QuietResults
import AtomLisp.Proofs.LibraryDefinitions
import AtomLisp.Proofs.LibraryPairs
import AtomLisp.Proofs.Pervasive
import AtomLisp.Proofs.Announcements
import AtomLisp.Proofs.OpenParentheses
import AtomLisp.Proofs.ListedNames
import AtomLisp.Proofs.Completing
import AtomLisp.Proofs.SourceNames
import AtomLisp.Proofs.Accepting
import AtomLisp.Proofs.Requests
import AtomLisp.Proofs.Inputs
import AtomLisp.Proofs.Finishing
import AtomLisp.Proofs.Journals
import AtomLisp.Proofs.LawfulJournals
import AtomLisp.Proofs.Chronicles
import AtomLisp.Proofs.FirstNames
import AtomLisp.Proofs.ClosureSources
