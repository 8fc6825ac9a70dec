import TextGrammar.Markup.Section
import TextGrammar.Markup.Nesting
import TextGrammar.Modifier
import TextGrammar.Json.Reader
import TextGrammar.Json
import TextGrammar.Named
import TextGrammar.Store
import TextGrammar.Random
import TextGrammar.Ron.Reader
import TextGrammar.Document.Json
import TextGrammar.Document.Ron
import TextGrammar.Settings
import TextGrammar.Symbols
import TextGrammar.Text
import TextGrammar.Grammar
import TextGrammar.Cli.Linter
import TextGrammar.Cli.Preview
import TextGrammar.Main
import TextGrammar.Proofs.Named
import TextGrammar.Proofs.Symbols
import TextGrammar.Proofs.Markup.Parts
import TextGrammar.Proofs.Expansion.Expander
import TextGrammar.Proofs.Expansion.Account
import TextGrammar.Proofs.Expansion.Scoping
import TextGrammar.Proofs.Expansion.Inside
import TextGrammar.Proofs.Expansion.Simulation
import TextGrammar.Proofs.Expansion.Steps
import TextGrammar.Proofs.Expansion.Cap
import TextGrammar.Proofs.Expansion.Tree
import TextGrammar.Proofs.Grammar.Termination
import TextGrammar.Proofs.Grammar.Reachable
import TextGrammar.Proofs.Grammar.Reuse
import TextGrammar.Proofs.Expansion.Gather
import TextGrammar.Proofs.Grammar.Append
import TextGrammar.Proofs.Markup.Closed
import TextGrammar.Proofs.Markup.Lossless
import TextGrammar.Proofs.Lint.PushFree
import TextGrammar.Proofs.Lint.Unreferenced
import TextGrammar.Proofs.Lint.Soundness
import TextGrammar.Proofs.Expansion.Resolve
import TextGrammar.Proofs.Expansion.Shows
import TextGrammar.Proofs.Lint.NoExit
import TextGrammar.Proofs.Grammar.ScopedPush
import TextGrammar.Proofs.Grammar.RaisedCap
import TextGrammar.Proofs.Grammar.Literal
import TextGrammar.Proofs.Grammar.LockedIn
import TextGrammar.Proofs.Expansion.Certificate
import TextGrammar.Proofs.Grammar.Certified
import TextGrammar.Proofs.Grammar.Frame
import TextGrammar.Proofs.Expansion.Follow
import TextGrammar.Proofs.Grammar.Replay
import TextGrammar.Proofs.Grammar.Enriched
import TextGrammar.Proofs.Decimal.Numeral
import TextGrammar.Proofs.Json.Lexed
import TextGrammar.Proofs.Json.Parsed
import TextGrammar.Proofs.Document.Saved
import TextGrammar.Proofs.Exact
import TextGrammar.Proofs.Grammar.Operations
import TextGrammar.Proofs.Expansion.Derivation
import TextGrammar.Proofs.Grammar.Draws
import TextGrammar.Proofs.Markup.Alternatives
import TextGrammar.Proofs.Markup.Written
import TextGrammar.Proofs.Markup.Rescanned
import TextGrammar.Proofs.Distribution
import TextGrammar.Proofs.Grammar.Layers
import TextGrammar.Proofs.Grammar.Recorded
import TextGrammar.Proofs.Grammar.Unresolved
import TextGrammar.Proofs.Markup.Permuted
import TextGrammar.Proofs.Grammar.Commuted
import TextGrammar.Proofs.Text.Escape
import TextGrammar.Proofs.Document.Merged
import TextGrammar.Proofs.Double
import TextGrammar.Proofs.Markup.Referred
import TextGrammar.Proofs.Grammar.Referred
