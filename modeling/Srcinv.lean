import Srcinv.Core
import Srcinv.Lib.Run
import Srcinv.Lib.Layout
import Srcinv.Lib.Parts
import Srcinv.Lib.ByteNum
import Srcinv.Lib.Blocks
import Srcinv.Lib.SearchTree
import Srcinv.Lib.Grounded
import Srcinv.Record
import Srcinv.Collect.Writer
import Srcinv.Collect.GlobalData
import Srcinv.Collect.Header
import Srcinv.Analysis.Parse
import Srcinv.Analysis.Preview
import Srcinv.Analysis.Globals
import Srcinv.Analysis.Resfile
import Srcinv.Analysis.ResfileBytes
import Srcinv.Analysis.ResfileCursors
import Srcinv.Analysis.ParsePhases
import Srcinv.Analysis.Hold
import Srcinv.Analysis.HoldBlocks
import Srcinv.Analysis.GccNode
import Srcinv.Analysis.Sinode
import Srcinv.Analysis.Getbase
import Srcinv.Analysis.SinodeNames
import Srcinv.Analysis.SinodeTrees
import Srcinv.Analysis.SinodeWeak
import Srcinv.Analysis.SinodeIdTrees
import Srcinv.RoundTrip
import Srcinv.Analysis.Sample
import Srcinv.Analysis.SampleEntries
import Srcinv.Analysis.SampleFrames
import Srcinv.Analysis.FuncNode
import Srcinv.Analysis.MarkEntry
import Srcinv.Analysis.Xnode
import Srcinv.Analysis.CallGraph
import Srcinv.Analysis.CallTrace
import Srcinv.Analysis.TraceOrder
import Srcinv.Analysis.DataInit
import Srcinv.Analysis.RefGraph
import Srcinv.Analysis.SsaName
import Srcinv.Analysis.SsaReads
import Srcinv.Analysis.DsTreeRefs
import Srcinv.Analysis.OobRead
import Srcinv.Analysis.DsCount
import Srcinv.Hacking.Staticchk
import Srcinv.Src.Blocks
import Srcinv.Src.Restore
import Srcinv.Analysis.Adjust
import Srcinv.Analysis.Assign
import Srcinv.Analysis.AssignPlaces
import Srcinv.Analysis.AssignMeaning
import Srcinv.Analysis.AssignCases
import Srcinv.Analysis.AssignCopies
import Srcinv.Analysis.AssignLoops
import Srcinv.Analysis.AssignAlias
import Srcinv.Analysis.PointerArith
import Srcinv.Analysis.Cfg
import Srcinv.Analysis.PhiEdges
import Srcinv.Analysis.CfgWalks
import Srcinv.Analysis.FunctionDetail
import Srcinv.Analysis.Switch
import Srcinv.Analysis.AsmDetail
import Srcinv.Analysis.Extend
import Srcinv.Analysis.Compute
import Srcinv.Analysis.CopyData
import Srcinv.Analysis.FindSearch
import Srcinv.Analysis.FindElem
import Srcinv.Analysis.InitLayout
import Srcinv.Analysis.InitPlaces
import Srcinv.Analysis.PhiBlock
import Srcinv.Analysis.Possible
import Srcinv.Analysis.SibufTypes
import Srcinv.Analysis.NameList
import Srcinv.Analysis.TypeDetail
import Srcinv.Analysis.CallSsa
import Srcinv.Analysis.FieldOffset
import Srcinv.Analysis.BitField
import Srcinv.Analysis.RawFunc
import Srcinv.Analysis.DsvFlag
import Srcinv.Analysis.ObjScan
import Srcinv.Analysis.HeldSibufs
import Srcinv.Analysis.TypeNameBuf
import Srcinv.Collect.ExpandComment
import Srcinv.Hacking.PrintCfg
import Srcinv.Hacking.ShowDetail
import Srcinv.Analysis.Phase4Walk
import Srcinv.Lib.Listing
import Srcinv.Collect.HeapWalk
import Srcinv.Analysis.Lookups
import Srcinv.Analysis.AsmCalls
import Srcinv.Analysis.GvarInit
import Srcinv.Analysis.IndirectCalls
