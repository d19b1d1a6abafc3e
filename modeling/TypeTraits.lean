import TypeTraits.Builtin
import TypeTraits.Category
import TypeTraits.Config.Configuration
import TypeTraits.Config.Fields
import TypeTraits.Config.FlagSet
import TypeTraits.Config.TargetText
import TypeTraits.Decl.Enumeration
import TypeTraits.Decl.Function
import TypeTraits.Decl.Record
import TypeTraits.Error
import TypeTraits.Expr.Basic
import TypeTraits.Expr.Checker
import TypeTraits.Expr.Conditional
import TypeTraits.Expr.Initialization
import TypeTraits.Expr.Operators
import TypeTraits.Expr.Overload
import TypeTraits.Expr.Reference
import TypeTraits.Expr.Sequence
import TypeTraits.Expr.Standard
import TypeTraits.Expr.UserDefined
import TypeTraits.Hierarchy
import TypeTraits.Ladder
import TypeTraits.Layout.Basic
import TypeTraits.Layout.Object
import TypeTraits.Layout.Record
import TypeTraits.Layout.Storage
import TypeTraits.Limits
import TypeTraits.LogFormat
import TypeTraits.Logic
import TypeTraits.Pool.Basic
import TypeTraits.Pool.NameTable
import TypeTraits.Pool.TypeFormation
import TypeTraits.Pool.TypeTable
import TypeTraits.Program
import TypeTraits.Proofs.Config.Configuration
import TypeTraits.Proofs.Config.TargetText
import TypeTraits.Proofs.Expr.Binding
import TypeTraits.Proofs.Expr.CandidateOrder
import TypeTraits.Proofs.Expr.Checker
import TypeTraits.Proofs.Expr.CompositeTypes
import TypeTraits.Proofs.Expr.Compositional
import TypeTraits.Proofs.Expr.ConditionalTypes
import TypeTraits.Proofs.Expr.Effects
import TypeTraits.Proofs.Expr.Execution
import TypeTraits.Proofs.Expr.Hiding
import TypeTraits.Proofs.Expr.InitializationForms
import TypeTraits.Proofs.Expr.Lifetime
import TypeTraits.Proofs.Expr.Matching
import TypeTraits.Proofs.Expr.ObjectCalls
import TypeTraits.Proofs.Expr.Operations
import TypeTraits.Proofs.Expr.ParameterConversions
import TypeTraits.Proofs.Expr.PointerOperands
import TypeTraits.Proofs.Expr.PointerOperation
import TypeTraits.Proofs.Expr.Recursion
import TypeTraits.Proofs.Expr.ReferenceCast
import TypeTraits.Proofs.Expr.Reordered
import TypeTraits.Proofs.Expr.Resolution
import TypeTraits.Proofs.Expr.Returns
import TypeTraits.Proofs.Expr.RootClass
import TypeTraits.Proofs.Expr.Scalar
import TypeTraits.Proofs.Expr.Selection
import TypeTraits.Proofs.Expr.Steady
import TypeTraits.Proofs.Expr.Surroundings
import TypeTraits.Proofs.Expr.TrivialBinding
import TypeTraits.Proofs.Expr.UserConversions
import TypeTraits.Proofs.Hierarchy.BaseConversion
import TypeTraits.Proofs.Hierarchy.BaseOrder
import TypeTraits.Proofs.Hierarchy.Congruence
import TypeTraits.Proofs.Hierarchy.Path
import TypeTraits.Proofs.Hierarchy.Reachability
import TypeTraits.Proofs.Hierarchy.VirtualBases
import TypeTraits.Proofs.Hierarchy.Walk
import TypeTraits.Proofs.Layout.DataModel
import TypeTraits.Proofs.Layout.Object
import TypeTraits.Proofs.Layout.Padding
import TypeTraits.Proofs.Layout.Placement
import TypeTraits.Proofs.Layout.Qualification
import TypeTraits.Proofs.Layout.Record
import TypeTraits.Proofs.Layout.Storage
import TypeTraits.Proofs.Layout.Termination
import TypeTraits.Proofs.Layout.Unbounded
import TypeTraits.Proofs.Pool.NameTable
import TypeTraits.Proofs.Pool.NodeIdentity
import TypeTraits.Proofs.Pool.Reading
import TypeTraits.Proofs.Pool.TypeIdentity
import TypeTraits.Proofs.Pool.TypeTable
import TypeTraits.Proofs.Program.BarredBases
import TypeTraits.Proofs.Program.CompletionOrder
import TypeTraits.Proofs.Program.DerivedMembers
import TypeTraits.Proofs.Program.Development
import TypeTraits.Proofs.Program.EarlierStates
import TypeTraits.Proofs.Program.ImplicitPromises
import TypeTraits.Proofs.Program.LastDestructor
import TypeTraits.Proofs.Program.NameIndex
import TypeTraits.Proofs.Program.Relaxation
import TypeTraits.Proofs.Program.RelaxedMembers
import TypeTraits.Proofs.Program.Reordered
import TypeTraits.Proofs.Program.RootClass
import TypeTraits.Proofs.Program.SpecifierOrder
import TypeTraits.Proofs.Program.Store
import TypeTraits.Proofs.Record.Completion
import TypeTraits.Proofs.Record.DefaultConstruction
import TypeTraits.Proofs.Record.Effects
import TypeTraits.Proofs.Record.Facts
import TypeTraits.Proofs.Record.FinalOverriders
import TypeTraits.Proofs.Record.ImplicitMembers
import TypeTraits.Proofs.Record.Layout
import TypeTraits.Proofs.Record.Outline
import TypeTraits.Proofs.Record.Qualification
import TypeTraits.Proofs.Record.Relaxed
import TypeTraits.Proofs.Record.Reordered
import TypeTraits.Proofs.Record.Shares
import TypeTraits.Proofs.Record.SubobjectOrder
import TypeTraits.Proofs.Record.Subobjects
import TypeTraits.Proofs.Record.UniqueRepresentation
import TypeTraits.Proofs.Recursion.Scopes
import TypeTraits.Proofs.Session.Memory
import TypeTraits.Proofs.Spelling.Declarator
import TypeTraits.Proofs.Spelling.Identity
import TypeTraits.Proofs.Spelling.Leaf
import TypeTraits.Proofs.Spelling.Name
import TypeTraits.Proofs.Spelling.Reading
import TypeTraits.Proofs.Spelling.Token
import TypeTraits.Proofs.Text.Json
import TypeTraits.Proofs.Trait.Agreement
import TypeTraits.Proofs.Trait.CommonConversions
import TypeTraits.Proofs.Trait.CommonSymmetry
import TypeTraits.Proofs.Trait.CommonType
import TypeTraits.Proofs.Trait.Conservative
import TypeTraits.Proofs.Trait.Construction
import TypeTraits.Proofs.Trait.ConstructionPaths
import TypeTraits.Proofs.Trait.ConversionHiding
import TypeTraits.Proofs.Trait.Degradation
import TypeTraits.Proofs.Trait.DerivedConversions
import TypeTraits.Proofs.Trait.Destruction
import TypeTraits.Proofs.Trait.Emptiness
import TypeTraits.Proofs.Trait.Implications
import TypeTraits.Proofs.Trait.Invocation
import TypeTraits.Proofs.Trait.MemberPointer
import TypeTraits.Proofs.Trait.Memory
import TypeTraits.Proofs.Trait.PointerFormation
import TypeTraits.Proofs.Trait.ReferenceCategories
import TypeTraits.Proofs.Trait.Strength
import TypeTraits.Proofs.Trait.Swapping
import TypeTraits.Proofs.Trait.UnknownTypes
import TypeTraits.Proofs.Ty.Counterparts
import TypeTraits.Proofs.Ty.Decay
import TypeTraits.Proofs.Ty.HiddenReferences
import TypeTraits.Proofs.Ty.Levels
import TypeTraits.Proofs.Ty.NormalForm
import TypeTraits.Proofs.Ty.QualificationOrder
import TypeTraits.Proofs.Ty.Qualifiers
import TypeTraits.Qualifier
import TypeTraits.Record.Completion
import TypeTraits.Record.Draft
import TypeTraits.Record.Facts
import TypeTraits.Record.Special
import TypeTraits.Recursion.Guard
import TypeTraits.Session
import TypeTraits.Target
import TypeTraits.Text.Blank
import TypeTraits.Text.Hex
import TypeTraits.Text.Json.Basic
import TypeTraits.Text.Json.Reading
import TypeTraits.Text.Json.Writing
import TypeTraits.Trait.Assignment
import TypeTraits.Trait.Capability
import TypeTraits.Trait.CommonType
import TypeTraits.Trait.Construction
import TypeTraits.Trait.Conversion
import TypeTraits.Trait.Destruction
import TypeTraits.Trait.Introspection
import TypeTraits.Trait.Invocation
import TypeTraits.Trait.Kind
import TypeTraits.Trait.MemberPointer
import TypeTraits.Trait.Property
import TypeTraits.Trait.Query
import TypeTraits.Trait.Solver
import TypeTraits.Trait.Swap
import TypeTraits.Transform
import TypeTraits.Ty.Basic
import TypeTraits.Ty.Formation
import TypeTraits.Ty.Resolution
import TypeTraits.Ty.Spelling
import TypeTraits.Ty.View
