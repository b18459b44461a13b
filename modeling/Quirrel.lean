import Quirrel.Lib.Walk
import Quirrel.Lib.Scatter
import Quirrel.Table.Basic
import Quirrel.Table.Invariant
import Quirrel.Table.NewSlot
import Quirrel.Table.FiniteMap
import Quirrel.Table.Shape
import Quirrel.Table.Grown
import Quirrel.Table.Reachable
import Quirrel.Table.ShapeId
import Quirrel.Lib.Float32
import Quirrel.Lib.FloatWord
import Quirrel.Lib.LittleEndian
import Quirrel.Lib.Numbering
import Quirrel.Lib.Outcome
import Quirrel.Lib.Copies
import Quirrel.Vm.Object
import Quirrel.Vm.Arith
import Quirrel.Vm.Exec
import Quirrel.Vm.Agree
import Quirrel.Compiler.AddImmediate
import Quirrel.Compiler.AddInstruction
import Quirrel.Compiler.Peephole
import Quirrel.Compiler.BasicBlock
import Quirrel.Class.Basic
import Quirrel.Class.Members
import Quirrel.Class.InlineCache
import Quirrel.Class.NativeFields
import Quirrel.Serialization.Basic
import Quirrel.Serialization.Deserialize
import Quirrel.Serialization.Scalars
import Quirrel.Serialization.Restore
import Quirrel.Serialization.RoundTrip
import Quirrel.Serialization.BackReferences
import Quirrel.Serialization.Safety
import Quirrel.Generator.Outers
import Quirrel.Generator.Suspend
import Quirrel.Generator.Transparent
import Quirrel.Gc.Heap
import Quirrel.Gc.Sound
import Quirrel.FunctionProto.SaveLoad
import Quirrel.TypedLocals.Sound
import Quirrel.ConstFold.Agree
import Quirrel.Array.Basic
import Quirrel.Array.ListRefinement
import Quirrel.Interpolation.Concatenation
import Quirrel.Callback.Basic
import Quirrel.Callback.Methods
import Quirrel.Callback.Protocol
import Quirrel.Lib.FloatOrder
import Quirrel.Vm.Compare
import Quirrel.Vm.CompareOrder
import Quirrel.Class.Lock
import Quirrel.Lib.MaskCover
import Quirrel.TypeDecl.Accepted
import Quirrel.TypeDecl.Printer
import Quirrel.TypeDecl.RoundTrip
import Quirrel.Modules.Consistent
import Quirrel.Interning.Invariant
import Quirrel.Interning.Operations
import Quirrel.Table.NewSlotResult
import Quirrel.StaticAnalyzer.ReturnPaths
import Quirrel.StringLiteral.Escape
import Quirrel.DerefInc.Agree
import Quirrel.Dedup.Meaning
import Quirrel.Directives.OneScope
import Quirrel.Array.Sort
import Quirrel.Array.Sorted
import Quirrel.Lib.Splitting
import Quirrel.Strings.Basic
import Quirrel.Strings.SplitJoin
import Quirrel.Lexer.Number
import Quirrel.Lexer.NumberExact
import Quirrel.Format.Basic
import Quirrel.Format.Bounds
import Quirrel.Table.Iterate
import Quirrel.Strings.Subst
import Quirrel.Strings.SubstPass
import Quirrel.Hash.DeepHash
import Quirrel.FunctionProto.GetLine
import Quirrel.FunctionProto.LineInfos
import Quirrel.StaticAnalyzer.LoopTerminator
import Quirrel.References.Counts
import Quirrel.Class.NativeSlots
import Quirrel.Class.Placed
import Quirrel.Swap.Atomic
import Quirrel.NodeEqualChecker.Basic
import Quirrel.NodeEqualChecker.Exact
import Quirrel.ScopeMerge.Basic
import Quirrel.ScopeMerge.Run
import Quirrel.ScopeMerge.UpperBound
import Quirrel.Regex.Basic
import Quirrel.Regex.Built
import Quirrel.Regex.Characters
import Quirrel.Regex.Compiled
import Quirrel.Regex.Match
import Quirrel.Regex.Terminates
import Quirrel.PathName.Basic
import Quirrel.PathName.Body
import Quirrel.PathName.Components
import Quirrel.PathName.Passes
import Quirrel.PathName.Resolve
import Quirrel.PathName.Simplified
import Quirrel.Regex.Language
import Quirrel.Regex.Sound
import Quirrel.Delegation.Accesses
import Quirrel.Lib.Ancestors
import Quirrel.Lib.Mates
import Quirrel.RefCount.Basic
import Quirrel.RefCount.Counting
import Quirrel.RefCount.Evolution
import Quirrel.RefCount.Safe
