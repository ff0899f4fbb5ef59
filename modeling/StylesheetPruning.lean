import StylesheetPruning.Command.FileTree
import StylesheetPruning.Main
import StylesheetPruning.Proofs.Command.Deliveries
import StylesheetPruning.Proofs.Edit.LeftToRight
import StylesheetPruning.Proofs.Edit.NormalForm
import StylesheetPruning.Proofs.Edit.RuleOrder
import StylesheetPruning.Proofs.Markup.DocumentContents
import StylesheetPruning.Proofs.Pruning.AtRules
import StylesheetPruning.Proofs.Pruning.ClassRules
import StylesheetPruning.Proofs.Pruning.Concatenation
import StylesheetPruning.Proofs.Pruning.EntryPoints
import StylesheetPruning.Proofs.Pruning.Keeping
import StylesheetPruning.Proofs.Pruning.LargerInventories
import StylesheetPruning.Proofs.Pruning.LiveRules
import StylesheetPruning.Proofs.Pruning.Provenance
import StylesheetPruning.Proofs.Pruning.Requirements
import StylesheetPruning.Proofs.Selector.EscapeSegments
import StylesheetPruning.Proofs.Selector.Keyframes
import StylesheetPruning.Proofs.Stylesheet.HollowRules
import StylesheetPruning.Proofs.Stylesheet.Remasking
import StylesheetPruning.Proofs.Stylesheet.SpacedStructure
import StylesheetPruning.Proofs.Stylesheet.Tokenization
