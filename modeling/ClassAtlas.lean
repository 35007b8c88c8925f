import ClassAtlas.Analysis
import ClassAtlas.CommandLine
import ClassAtlas.Main
import ClassAtlas.Proofs.Frontier.Classification
import ClassAtlas.Proofs.Frontier.Submissions
import ClassAtlas.Proofs.Frontier.Histories
import ClassAtlas.Proofs.Frontier.Growth
import ClassAtlas.Proofs.Frontier.Recordings
import ClassAtlas.Proofs.Profile.Contents
import ClassAtlas.Proofs.Profile.Rows
import ClassAtlas.Proofs.Survey.Runs
import ClassAtlas.Proofs.Survey.Closure
import ClassAtlas.Proofs.Survey.RootOrder
import ClassAtlas.Proofs.Survey.Agreement
import ClassAtlas.Proofs.Signature.Grammar
import ClassAtlas.Proofs.Signature.Reading
import ClassAtlas.Proofs.Signature.Types
import ClassAtlas.Proofs.Signature.Completeness
import ClassAtlas.Proofs.Signature.Gaps
import ClassAtlas.Proofs.Signature.Trees
import ClassAtlas.Proofs.Signature.Soundness
import ClassAtlas.Proofs.ConstantPool.Layout
import ClassAtlas.Proofs.Annotations.Layout
import ClassAtlas.Proofs.Annotations.Canonical
import ClassAtlas.Proofs.Member.Layout
import ClassAtlas.Proofs.ClassFile.Layout
import ClassAtlas.Proofs.Decoder.Locality
import ClassAtlas.Proofs.Decoder.Outcome
import ClassAtlas.Proofs.ConstantPool.Resolution
import ClassAtlas.Proofs.ClassFile.Truncation
import ClassAtlas.Proofs.ClassFile.Frame
import ClassAtlas.Proofs.ConstantPool.Growth
import ClassAtlas.Proofs.ClassFile.HiddenEdits
import ClassAtlas.Proofs.Decoder.Answers
import ClassAtlas.Proofs.Containment.Lowering
import ClassAtlas.Proofs.ClassFile.Outline
import ClassAtlas.Proofs.ClassFile.Lowering
import ClassAtlas.Proofs.Survey.Failures
import ClassAtlas.Proofs.Survey.Sessions
import ClassAtlas.Proofs.ClassId.WrittenForm
import ClassAtlas.Proofs.Decoder.Faults
import ClassAtlas.Proofs.ClassPath.Search
import ClassAtlas.Proofs.Plan.Loading
import ClassAtlas.Proofs.FileTree.Walks
import ClassAtlas.Proofs.ClassPath.Files
import ClassAtlas.Proofs.ClassPath.Discovery
import ClassAtlas.Proofs.Report.Lists
import ClassAtlas.Proofs.FileTree.Writing
import ClassAtlas.Proofs.Annotations.Lines
import ClassAtlas.Proofs.Profile.Lines
import ClassAtlas.Proofs.Plan.Reports
import ClassAtlas.Proofs.ClassId.Forms
import ClassAtlas.Proofs.Text.Groups
import ClassAtlas.Proofs.Containment.Chain
import ClassAtlas.Proofs.ClassFile.Concealment
import ClassAtlas.Proofs.Decimal.Numerals
import ClassAtlas.Proofs.Decimal.Intervals
import ClassAtlas.Proofs.Decimal.Readings
import ClassAtlas.Proofs.Text.Quoted
import ClassAtlas.Proofs.Constant.Rendering
import ClassAtlas.Proofs.ClassPath.Confinement
import ClassAtlas.Proofs.Annotations.TypeAnnotations
import ClassAtlas.Proofs.Signature.Erased
import ClassAtlas.Proofs.ConstantPool.Classes
import ClassAtlas.Proofs.ClassFile.Erasure
import ClassAtlas.Proofs.Decoder.Grammar
import ClassAtlas.Proofs.Annotations.Grammar
import ClassAtlas.Proofs.Member.Isolation
import ClassAtlas.Proofs.Frontier.Sources
import ClassAtlas.Proofs.ClassId.Dimensions
import ClassAtlas.Proofs.Signature.Machine
import ClassAtlas.Proofs.Signature.Turns
import ClassAtlas.Proofs.Signature.Limits
import ClassAtlas.Proofs.Signature.Simulation
import ClassAtlas.Proofs.Signature.Confinement
