import FieldMask.Json.Reader
import FieldMask.Options.Reader
import FieldMask.Prune.Pruner
import FieldMask.Response
import FieldMask.Selector.Grammar
import FieldMask.Proofs.Paths
import FieldMask.Proofs.Matching
import FieldMask.Proofs.Selector.Tokens
import FieldMask.Proofs.Selector.Lexemes
import FieldMask.Proofs.Selector.Feeding
import FieldMask.Proofs.Selector.Branches
import FieldMask.Proofs.Selector.Derivation
import FieldMask.Proofs.Selector.Correctness
import FieldMask.Proofs.Selector.Canonical
import FieldMask.Proofs.Selector.Errors
import FieldMask.Proofs.Json.Positions
import FieldMask.Proofs.Prune.Questions
import FieldMask.Proofs.Prune.Survival
import FieldMask.Proofs.Prune.Names
import FieldMask.Proofs.Prune.Composition
import FieldMask.Proofs.Prune.Runs
import FieldMask.Proofs.Prune.Judged
import FieldMask.Proofs.Prune.Hidden
import FieldMask.Proofs.Sinks
import FieldMask.Proofs.Response.Leaves
import FieldMask.Proofs.Response.Containers
import FieldMask.Proofs.Response.Outcome
import FieldMask.Proofs.Text.Utf8
import FieldMask.Proofs.QueryStrings
import FieldMask.Proofs.Prune.Counts
import FieldMask.Proofs.Prune.Levels
import FieldMask.Proofs.Selector.Blanks
import FieldMask.Proofs.Selector.Commas
import FieldMask.Proofs.Redundancy
import FieldMask.Proofs.CaseFolding
import FieldMask.Proofs.Selector.Tokenization
import FieldMask.Json.Grammar
import FieldMask.Proofs.Json.Strings
import FieldMask.Proofs.Json.Numerals
import FieldMask.Proofs.Json.Skipping
import FieldMask.Proofs.Options
import FieldMask.Selector.Machine
import FieldMask.Proofs.Selector.Moves
import FieldMask.Proofs.Selector.Stack
import FieldMask.Proofs.Selector.Agreement
import FieldMask.Proofs.Selector.Halting
import FieldMask.Proofs.Selector.OpenPaths
import FieldMask.Proofs.Fields
