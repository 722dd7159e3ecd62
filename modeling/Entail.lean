import Entail.Calendar
import Entail.Coded.Basic
import Entail.Coded.Naming
import Entail.Coded.Unify
import Entail.Derivation
import Entail.FailureKind
import Entail.Files
import Entail.Forest
import Entail.Journal
import Entail.Json.Printer
import Entail.Number.Binary64
import Entail.Number.Shortest
import Entail.Proofs.Certificates
import Entail.Proofs.Checkpoint
import Entail.Proofs.Coding
import Entail.Proofs.Coherence
import Entail.Proofs.Contradictions
import Entail.Proofs.Documents
import Entail.Proofs.Forest.Partition
import Entail.Proofs.Forest.Ranks
import Entail.Proofs.Generations
import Entail.Proofs.Grammar
import Entail.Proofs.Growth
import Entail.Proofs.Instances
import Entail.Proofs.Irrelevance
import Entail.Proofs.Json.Texts
import Entail.Proofs.Json.Tokens
import Entail.Proofs.LeastModel
import Entail.Proofs.Loading
import Entail.Proofs.Matching
import Entail.Proofs.MatchingModes
import Entail.Proofs.Numbering
import Entail.Proofs.Pauses
import Entail.Proofs.Plain.Basic
import Entail.Proofs.Plain.Equivalence
import Entail.Proofs.Plain.Likeness
import Entail.Proofs.Plain.Matching
import Entail.Proofs.Plain.Refinement
import Entail.Proofs.QueriesAndSaturation
import Entail.Proofs.Registries
import Entail.Proofs.Renaming
import Entail.Proofs.Requests
import Entail.Proofs.RoundOrder
import Entail.Proofs.Rounds
import Entail.Proofs.RuleSets
import Entail.Proofs.Scoping
import Entail.Proofs.Shapes
import Entail.Proofs.Shortening
import Entail.Proofs.Sources
import Entail.Proofs.Symbols
import Entail.Proofs.Tallies
import Entail.Proofs.Termination
import Entail.Proofs.Turns
import Entail.Proofs.Unfolding
import Entail.Proofs.Unifiers
import Entail.Proofs.Views
import Entail.Proofs.Warnings
import Entail.Proofs.Yaml.Blocks
import Entail.Proofs.Yaml.Characters
import Entail.Proofs.Yaml.Faults
import Entail.Proofs.Yaml.Flows
import Entail.Proofs.Yaml.Lexing
import Entail.Proofs.Yaml.Nodes
import Entail.Proofs.Yaml.Plain
import Entail.Proofs.Yaml.Positions
import Entail.Proofs.Yaml.Quoted
import Entail.Proofs.Yaml.Styles
import Entail.Proofs.Yaml.Tokens
import Entail.Proofs.Yaml.Unread
import Entail.Proofs.Yaml.Values
import Entail.Reasoner.Basic
import Entail.Reasoner.Load
import Entail.Reasoner.Query
import Entail.Reasoner.Round
import Entail.Record
import Entail.Rule
import Entail.RuleBook
import Entail.Settings
import Entail.Settings.Coercion
import Entail.Settings.DotEnv
import Entail.Settings.Environment
import Entail.Source
import Entail.Support
import Entail.Symbol
import Entail.Text.Characters
import Entail.Text.Numeral
import Entail.Text.Quoted
import Entail.Value
import Entail.Value.Literal
import Entail.Yaml.Cursor
import Entail.Yaml.Graph
import Entail.Yaml.Kind
import Entail.Yaml.Knot
import Entail.Yaml.Lexeme
import Entail.Yaml.Lexer
import Entail.Yaml.Printer
import Entail.Yaml.Reader
import Entail.Yaml.Reading
import Entail.Yaml.Scalar
import Entail.Yaml.Style
import Entail.Yaml.Timestamp
import Entail.Yaml.Token
