import JsonShape.Main
import JsonShape.Node.Same
import JsonShape.Typespace.Visit
import JsonShape.Proofs.Definition.Shape
import JsonShape.Proofs.Typespace.Compiled
import JsonShape.Proofs.Typespace.Induction
import JsonShape.Proofs.Validation.Acceptance
import JsonShape.Proofs.Validation.Belongs
import JsonShape.Proofs.Generation.Results
import JsonShape.Proofs.Generation.Soundness
import JsonShape.Proofs.Generation.Productive
import JsonShape.Proofs.Generation.Completeness
import JsonShape.Proofs.Definition.Scan
import JsonShape.Proofs.Definition.Token
import JsonShape.Proofs.Definition.Rendering
import JsonShape.Proofs.Definition.RoundTrip
import JsonShape.Proofs.Typespace.AliasCycles
import JsonShape.Proofs.Validation.Transparency
import JsonShape.Proofs.Generation.Absence
import JsonShape.Proofs.Definition.Grammar
import JsonShape.Proofs.Typespace.AliasHeight
import JsonShape.Proofs.Validation.CallDepth
import JsonShape.Proofs.Typespace.Reachability
import JsonShape.Proofs.References.Walk
import JsonShape.Proofs.References.Discovery
import JsonShape.Proofs.Validation.Faults
import JsonShape.Proofs.Generation.Substitution
import JsonShape.Proofs.Typespace.Answers
import JsonShape.Proofs.Typespace.StackDiscipline
import JsonShape.Proofs.Model.Congruence
import JsonShape.Proofs.Model.Resolution
import JsonShape.Proofs.Definition.Monotone
import JsonShape.Proofs.Model.Extension
import JsonShape.Proofs.CommandLine.Verdicts
import JsonShape.Proofs.Generation.Alternatives
import JsonShape.Proofs.Generation.Escapes
import JsonShape.Proofs.Generation.RequiredCycles
import JsonShape.Proofs.Validation.Parts
import JsonShape.Proofs.Validation.Equivariance
import JsonShape.Proofs.Validation.Composition
import JsonShape.Proofs.Json.Entries
import JsonShape.Proofs.Validation.ErrorPaths
import JsonShape.Proofs.Validation.KeyOrder
import JsonShape.Proofs.Validation.Pruning
import JsonShape.Proofs.Definition.Structure
import JsonShape.Proofs.Model.Names
import JsonShape.Proofs.References.Forms
import JsonShape.Proofs.Definition.Culprits
import JsonShape.Proofs.Definition.NumberLiterals
import JsonShape.Proofs.Node.IntegerLiteral
import JsonShape.Proofs.Validation.PathTexts
import JsonShape.Proofs.Definition.Splitting
import JsonShape.Proofs.CommandLine.LineNumbers
import JsonShape.Proofs.Typespace.Visits
import JsonShape.Proofs.Typespace.Termination
import JsonShape.Proofs.Json.Cutting
import JsonShape.Proofs.Json.CutNumbers
import JsonShape.Proofs.Json.Extent
