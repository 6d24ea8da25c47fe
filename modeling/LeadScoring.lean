import LeadScoring.Assessment
import LeadScoring.Vocabulary.Derivation
import LeadScoring.Scorer
import LeadScoring.Random
import LeadScoring.Forest.Config
import LeadScoring.Forest.Training
import LeadScoring.Forest.Metrics
import LeadScoring.Attribution
import LeadScoring.Config
import LeadScoring.Feedback
import LeadScoring.Model.Document
import LeadScoring.Pipeline
import LeadScoring.Workspace.Directory
import LeadScoring.CommandLine.Run
import LeadScoring.Main
import LeadScoring.Proofs.Tree.Simulation
import LeadScoring.Proofs.Pipeline
import LeadScoring.Proofs.Artifact.Canonical
import LeadScoring.Proofs.Noninterference
import LeadScoring.Proofs.SlotLimit
import LeadScoring.Proofs.Scorer.Engine
import LeadScoring.Proofs.Scorer.Keys
import LeadScoring.Proofs.Text.Bytes
import LeadScoring.Proofs.Json.Members
import LeadScoring.Proofs.Json.Numbers
import LeadScoring.Proofs.Json.Parts
import LeadScoring.Proofs.Json.Accepted
import LeadScoring.Proofs.Feedback.Lines
import LeadScoring.Proofs.Workspace.Directory
import LeadScoring.Proofs.Feedback.Recording
import LeadScoring.Proofs.Scalar.Order
import LeadScoring.Proofs.Forest.Thresholds
import LeadScoring.Proofs.Scalar.Whole
import LeadScoring.Proofs.Forest.NodeCounts
import LeadScoring.Proofs.Forest.BestCut
import LeadScoring.Proofs.Forest.Compiling
import LeadScoring.Proofs.Tree.Worklist
import LeadScoring.Proofs.Artifact.Relayout
import LeadScoring.Proofs.Scorer.Endless
import LeadScoring.Proofs.Forest.Purity
import LeadScoring.Proofs.Table.Expansion
import LeadScoring.Proofs.Vocabulary.Readings
import LeadScoring.Proofs.Vocabulary.Listing
import LeadScoring.Proofs.Vocabulary.Rows
import LeadScoring.Proofs.Vocabulary.Sources
import LeadScoring.Proofs.Forest.Reordering
import LeadScoring.Proofs.Forest.Repetition
import LeadScoring.Proofs.Forest.Building
import LeadScoring.Proofs.Table.Splitting
import LeadScoring.Proofs.Vocabulary.Cells
import LeadScoring.Proofs.Forest.Importances
import LeadScoring.Proofs.Attribution.Baseline
import LeadScoring.Proofs.Random.Seeds
import LeadScoring.Proofs.CrossValidation
import LeadScoring.Proofs.Forest.ClassReport
import LeadScoring.Proofs.Ranking
import LeadScoring.Proofs.Table.Quoting
import LeadScoring.Proofs.Attribution.Walk
import LeadScoring.Proofs.Vocabulary.Index
import LeadScoring.Proofs.Random.Scaling
import LeadScoring.Proofs.Random.Period
