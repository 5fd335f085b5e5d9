import BooleanSteps.Explanation
import BooleanSteps.Formula.Context
import BooleanSteps.Formula.Drawing
import BooleanSteps.Formula.Duality
import BooleanSteps.Formula.Flat
import BooleanSteps.Formula.Grammar
import BooleanSteps.Formula.Names
import BooleanSteps.Formula.Nesting
import BooleanSteps.Formula.Rearrangement
import BooleanSteps.Formula.Truth
import BooleanSteps.Law.Instance
import BooleanSteps.Main
import BooleanSteps.NormalForm
import BooleanSteps.Proofs.Normality
import BooleanSteps.Proofs.Quiescence
import BooleanSteps.Workbench
import BooleanSteps.Proofs.Effort
import BooleanSteps.Proofs.Settling
import BooleanSteps.Proofs.Termination
import BooleanSteps.Proofs.KeyDecoding
import BooleanSteps.Proofs.Meaning
import BooleanSteps.Proofs.Occurrences
import BooleanSteps.Proofs.Soundness
import BooleanSteps.Proofs.Feeding
import BooleanSteps.Proofs.GrammarCompleteness
import BooleanSteps.Proofs.GrammarSoundness
import BooleanSteps.Proofs.PrintedTokens
import BooleanSteps.Proofs.FlatForm
import BooleanSteps.Proofs.PrintedPhrases
import BooleanSteps.Proofs.Irreducibility
import BooleanSteps.Formula.Levels
import BooleanSteps.Proofs.Refusals
import BooleanSteps.Proofs.Cuts
import BooleanSteps.Proofs.ReadFormulas
import BooleanSteps.Proofs.RoundTrip
import BooleanSteps.Proofs.NestingBound
import BooleanSteps.Proofs.Likeness
import BooleanSteps.Proofs.Explaining
import BooleanSteps.Proofs.EqualKeys
import BooleanSteps.Proofs.AppliedLaws
import BooleanSteps.Proofs.OrderIndependence
import BooleanSteps.Proofs.LexicalGrammar
import BooleanSteps.Proofs.ViablePrefixes
import BooleanSteps.Proofs.ByteOrder
import BooleanSteps.Proofs.FewestParentheses
import BooleanSteps.Proofs.DualLaws
import BooleanSteps.Proofs.Duality
import BooleanSteps.Proofs.PartialInterpretations
import BooleanSteps.Proofs.TruthTables
import BooleanSteps.Proofs.Words
import BooleanSteps.Proofs.Tidying
import BooleanSteps.Proofs.Batches
import BooleanSteps.Proofs.Reports
import BooleanSteps.Formula.Descent
import BooleanSteps.Proofs.BalancedLevels
