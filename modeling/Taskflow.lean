import Taskflow.Main
import Taskflow.Run.Script
import Taskflow.Wire.Run
import Taskflow.Wire.Settings
import Taskflow.Proofs.Except
import Taskflow.Proofs.Grammar.Order
import Taskflow.Proofs.Program.Structure
import Taskflow.Proofs.Grammar.Numbering
import Taskflow.Proofs.Grammar.Programs
import Taskflow.Proofs.Typing.Rules
import Taskflow.Proofs.Run.Resolution
import Taskflow.Proofs.Run.Steps
import Taskflow.Proofs.Run.World
import Taskflow.Proofs.Typing.Exactness
import Taskflow.Proofs.Typing.Soundness
import Taskflow.Proofs.Run.FailFast
import Taskflow.Proofs.Run.Schedule
import Taskflow.Proofs.Workflow.Dispatch
import Taskflow.Proofs.Run.Inlining
import Taskflow.Proofs.Run.Cancellation
import Taskflow.Proofs.Grammar.Legible
import Taskflow.Proofs.Grammar.Reading
import Taskflow.Proofs.Grammar.Clauses
import Taskflow.Proofs.Grammar.RoundTrip
import Taskflow.Proofs.Grammar.Layout
import Taskflow.Proofs.Grammar.Spelling
import Taskflow.Proofs.Run.Watching
import Taskflow.Proofs.Typing.Bare
import Taskflow.Proofs.Typing.Regrouping
import Taskflow.Proofs.Workflow.DryRun
import Taskflow.Proofs.Typing.Identity
import Taskflow.Proofs.Typing.Distribution
import Taskflow.Proofs.Grammar.Ids
import Taskflow.Proofs.Typing.Renaming
import Taskflow.Proofs.Typing.Expansion
import Taskflow.Proofs.Run.Descent
import Taskflow.Proofs.Run.Counting
import Taskflow.Proofs.Grammar.Phrases
import Taskflow.Proofs.Grammar.Cutting
import Taskflow.Proofs.Grammar.Derivation
import Taskflow.Proofs.Grammar.Acceptance
import Taskflow.Proofs.Grammar.Places
import Taskflow.Proofs.Grammar.Respelling
import Taskflow.Proofs.Grammar.Building
import Taskflow.Proofs.Grammar.ParseTrees
import Taskflow.Proofs.SortedMap
import Taskflow.Proofs.Wire.Fields
import Taskflow.Proofs.Wire.RoundTrip
import Taskflow.Proofs.Grammar.Under
import Taskflow.Proofs.Grammar.Unambiguous
import Taskflow.Proofs.Grammar.Concatenation
import Taskflow.Proofs.Grammar.SignatureFiles
import Taskflow.Proofs.Grammar.Entries
import Taskflow.Proofs.Grammar.TypeTexts
import Taskflow.Proofs.Grammar.TypeSpellings
import Taskflow.Proofs.Grammar.Positions
import Taskflow.Proofs.Grammar.Spans
import Taskflow.Proofs.Grammar.Completion
import Taskflow.Proofs.Grammar.Refusals
import Taskflow.Proofs.Typing.Warnings
import Taskflow.Proofs.Typing.Under
import Taskflow.Proofs.Typing.SignatureFiles
import Taskflow.Proofs.Program.Reordering
import Taskflow.Proofs.Typing.Reordering
import Taskflow.Proofs.Run.Sites
import Taskflow.Proofs.Workflow.Reordering
import Taskflow.Proofs.Run.CriticalPath
import Taskflow.Proofs.Run.Forsaking
import Taskflow.Proofs.Run.Annals
import Taskflow.Proofs.Run.History
import Taskflow.Proofs.Run.Evaluations
import Taskflow.Proofs.Run.Stages
import Taskflow.Proofs.Run.Launching
import Taskflow.Proofs.Run.Chains
import Taskflow.Proofs.Run.Requests
import Taskflow.Proofs.Run.Explanations
import Taskflow.Proofs.Run.Outcomes
import Taskflow.Proofs.Run.Provenance
import Taskflow.Proofs.Run.Completions
import Taskflow.Proofs.Run.Violations
import Taskflow.Proofs.Run.Limits
import Taskflow.Proofs.Run.Timeouts
import Taskflow.Proofs.Workflow.Regrouping
import Taskflow.Proofs.Typing.Instances
import Taskflow.Proofs.Program.Removal
import Taskflow.Proofs.Typing.Locality
import Taskflow.Proofs.Run.Interchange
import Taskflow.Proofs.Workflow.DeadDeclarations
import Taskflow.Proofs.Typing.Reported
import Taskflow.Proofs.Run.Blame
import Taskflow.Proofs.Workflow.Placeholders
