import Silt.Bytecode.Value
import Silt.Bytecode.Instr
import Silt.Bytecode.Decode
import Silt.Bytecode.Verify
import Silt.Vm.Runtime
import Silt.Lib.Dataflow
import Silt.Sync.Token
import Silt.Sync.Channel
import Silt.Sync.Wait
import Silt.Sync.Park
import Silt.Sync.World
import Silt.Sync.ParkSteps
import Silt.Sync.Effect
import Silt.Sync.Rendezvous
import Silt.Sync.Order
import Silt.Sync.Demand
import Silt.Sync.Cell
import Silt.Sync.Ends
import Silt.Sync.Parking
import Silt.Lib.Settles
import Silt.Typechecker.Ranges
import Silt.Typechecker.Pattern
import Silt.Typechecker.Search
import Silt.Typechecker.Rows
import Silt.Typechecker.Exhaustiveness
import Silt.Vm.Exec
import Silt.Vm.Safety
import Silt.Lib.Sliced
import Silt.Vm.Machine
import Silt.Vm.Slicing
import Silt.Http.Wire
import Silt.Http.Cutting
import Silt.Collections.ListValue
import Silt.Collections.ListRefines
import Silt.Lib.Registers
import Silt.Collections.ListCalls
import Silt.Collections.Totals
import Silt.Lib.Ascending
import Silt.Lib.OrderedTree
import Silt.Collections.MapValue
import Silt.Collections.MapRefines
import Silt.Collections.MapCalls
import Silt.Collections.Value
import Silt.Collections.KeyWalk
import Silt.Collections.KeyReads
import Silt.Collections.KeyOrder
import Silt.Types.Canonical
import Silt.Types.CanonicalEnds
import Silt.Lib.Condensed
import Silt.Typechecker.Order
import Silt.Lib.Breadth
import Silt.Lib.Earliest
import Silt.Typechecker.InitOrder
import Silt.Format.Doc
import Silt.Format.Render
import Silt.Typechecker.Impls
import Silt.Typechecker.ProbeUnify
import Silt.Typechecker.ImplsFit
import Silt.Format.Operators
import Silt.Format.Pratt
import Silt.Format.Parens
import Silt.Format.ReadPrinted
import Silt.Package.Graph
import Silt.Package.Resolve
import Silt.Package.Lock
import Silt.Lib.DepthFirst
import Silt.Session.ModuleOrder
import Silt.Source.Positions
import Silt.Typechecker.Levels
import Silt.Format.Layout
import Silt.Lib.MergeRuns
import Silt.Collections.SortWith
import Silt.Http.ChunkedBody
import Silt.Http.Response
import Silt.Encoding.Form
import Silt.Package.Checksum
