import DiamondScript.Compile
import DiamondScript.Delivery
import DiamondScript.Files.Tree
import DiamondScript.Main
import DiamondScript.Project
import DiamondScript.Proofs.Outcome
import DiamondScript.Proofs.Derivation
import DiamondScript.Proofs.Temporary
import DiamondScript.Proofs.Machine
import DiamondScript.Proofs.Evaluation
import DiamondScript.Proofs.Meaning
import DiamondScript.Proofs.Assignment
import DiamondScript.Proofs.Datum
import DiamondScript.Proofs.Typing
import DiamondScript.Proofs.Lookup
import DiamondScript.Proofs.Preservation
import DiamondScript.Proofs.Freshness
import DiamondScript.Proofs.Spacing
import DiamondScript.Proofs.Bare
import DiamondScript.Proofs.Agreement
import DiamondScript.Proofs.Layout
import DiamondScript.Proofs.Items
import DiamondScript.Proofs.Resolution
import DiamondScript.Proofs.Independence
import DiamondScript.Proofs.Wire
import DiamondScript.Proofs.Defaults
import DiamondScript.Proofs.NativeCalls
import DiamondScript.Proofs.Matching
import DiamondScript.Proofs.Grammar
import DiamondScript.Proofs.Steps
import DiamondScript.Proofs.Sentence
import DiamondScript.Proofs.Rendering
import DiamondScript.Proofs.Operands
import DiamondScript.Proofs.ReadBack
import DiamondScript.Proofs.Expansion
import DiamondScript.Proofs.Inversion
import DiamondScript.Proofs.Simulation
import DiamondScript.Proofs.Unfolding
import DiamondScript.Proofs.Constants
import DiamondScript.Proofs.Packing
import DiamondScript.Proofs.JsonText
import DiamondScript.Proofs.RoundTrip
import DiamondScript.Proofs.ItemData
import DiamondScript.Proofs.Container
import DiamondScript.Proofs.Spelling
import DiamondScript.Proofs.Records
import DiamondScript.Proofs.CatalogText
import DiamondScript.Proofs.Coverage
import DiamondScript.Proofs.ByteLexer
import DiamondScript.Proofs.Placed
import DiamondScript.Proofs.ParserSpans
import DiamondScript.Proofs.Diagnostics
import DiamondScript.Proofs.Linking
import DiamondScript.Proofs.CatalogAnswers
import DiamondScript.Proofs.Siblings
import DiamondScript.Proofs.Interruption
import DiamondScript.Proofs.ElementWrites
import DiamondScript.Proofs.Nesting
import DiamondScript.Proofs.OperatorTree
import DiamondScript.Proofs.Precedence
import DiamondScript.Proofs.TagChoices
import DiamondScript.Proofs.Compatibility
import DiamondScript.Proofs.WellFormed
import DiamondScript.Proofs.Environment
import DiamondScript.Proofs.Activations
import DiamondScript.Proofs.Progress
import DiamondScript.Proofs.Halting
import DiamondScript.Proofs.TypeText
import DiamondScript.Proofs.Decimals
import DiamondScript.Proofs.NumberText
import DiamondScript.Proofs.CompactText
import DiamondScript.Proofs.BlockText
import DiamondScript.Proofs.SettingsText
import DiamondScript.Proofs.PathNames
import DiamondScript.Proofs.TreePaths
import DiamondScript.Proofs.TreeChanges
import DiamondScript.Proofs.TreeRuns
import DiamondScript.Proofs.SavedSettings
import DiamondScript.Proofs.NewProject
