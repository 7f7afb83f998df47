import AtomicStyles.Code.Token
import AtomicStyles.Code.Unit
import AtomicStyles.Compiler
import AtomicStyles.Css.Declaration
import AtomicStyles.Css.Identifier
import AtomicStyles.Css.Token
import AtomicStyles.Css.Value
import AtomicStyles.Data
import AtomicStyles.Digest.Hash
import AtomicStyles.Digest.Xxh3
import AtomicStyles.Entries
import AtomicStyles.Error
import AtomicStyles.Json.Config
import AtomicStyles.Json.Numeral
import AtomicStyles.Json.Printer
import AtomicStyles.Json.Tree
import AtomicStyles.Json.Value
import AtomicStyles.Number.Binary64
import AtomicStyles.Number.Reading
import AtomicStyles.Number.Shortest
import AtomicStyles.Number.Text
import AtomicStyles.Selection.Merge
import AtomicStyles.Selection.Procedure
import AtomicStyles.Selection.State
import AtomicStyles.Sheet.Emitter
import AtomicStyles.Sheet.Layer
import AtomicStyles.Style.Description
import AtomicStyles.Style.Forest
import AtomicStyles.Style.Literal
import AtomicStyles.Style.Lowering
import AtomicStyles.Style.Normal
import AtomicStyles.Text.Blank
import AtomicStyles.Text.Invisible
import AtomicStyles.Text.Offset
import AtomicStyles.Theme.Config
import AtomicStyles.Theme.File
import AtomicStyles.Theme.Property
import AtomicStyles.Theme.Registry
import AtomicStyles.Theme.Standard
import AtomicStyles.Theme.Summary
import AtomicStyles.Yaml.Character
import AtomicStyles.Yaml.Config
import AtomicStyles.Yaml.Document
import AtomicStyles.Yaml.Grammar
import AtomicStyles.Yaml.Node
import AtomicStyles.Yaml.Scalar
import AtomicStyles.Yaml.Schema
import AtomicStyles.Yaml.Token
import AtomicStyles.Yaml.Tokens
import AtomicStyles.Proofs.LoweredRules
import AtomicStyles.Proofs.SelectedMeaning
import AtomicStyles.Proofs.LoweredClasses
import AtomicStyles.Proofs.ClassList
import AtomicStyles.Proofs.Overlay
import AtomicStyles.Proofs.Printing
import AtomicStyles.Proofs.SheetLines
import AtomicStyles.Proofs.CompilationUnit
import AtomicStyles.Proofs.TokenIdentity
import AtomicStyles.Proofs.SingleClass
import AtomicStyles.Proofs.Cascade
import AtomicStyles.Proofs.LayerOrder
import AtomicStyles.Proofs.Merging
import AtomicStyles.Proofs.ForeignClass
import AtomicStyles.Proofs.MergeOrder
import AtomicStyles.Proofs.Override
import AtomicStyles.Proofs.BracketedValue
import AtomicStyles.Proofs.Noninterference
import AtomicStyles.Proofs.Fallback
import AtomicStyles.Proofs.LexicalScope
import AtomicStyles.Proofs.CompilationOrder
import AtomicStyles.Proofs.UnitBoundaries
import AtomicStyles.Proofs.BuiltTheme
import AtomicStyles.Proofs.OrdinalRange
import AtomicStyles.Proofs.ThemeGrowth
import AtomicStyles.Proofs.FailedCalls
import AtomicStyles.Proofs.ConfigText
import AtomicStyles.Proofs.EnclosingPreludes
import AtomicStyles.Proofs.GroupOverride
import AtomicStyles.Proofs.SheetStructure
import AtomicStyles.Proofs.AcceptedValues
import AtomicStyles.Proofs.VariableReference
import AtomicStyles.Proofs.Literals
import AtomicStyles.Proofs.BlankValues
import AtomicStyles.Proofs.Walk
import AtomicStyles.Proofs.Conflicts
import AtomicStyles.Proofs.ColorOpacity
import AtomicStyles.Proofs.Shorthands
import AtomicStyles.Proofs.Exchange
import AtomicStyles.Proofs.NestedConditions
import AtomicStyles.Proofs.TagOrder
import AtomicStyles.Proofs.ThemeOrdinals
import AtomicStyles.Proofs.ConditionAliases
import AtomicStyles.Proofs.UnitGrammar
import AtomicStyles.Proofs.ByteReading
import AtomicStyles.Proofs.Hyphenation
import AtomicStyles.Proofs.HashDigits
