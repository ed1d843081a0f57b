import Ilang.Util.Name
import Ilang.Util.Container
import Ilang.Util.Position
import Ilang.Util.Bits
import Ilang.Util.Sched
import Ilang.Util.HashCons
import Ilang.Util.Clocked
import Ilang.Util.SExp
import Ilang.Smt.Value
import Ilang.Smt.Term
import Ilang.Smt.Solver
import Ilang.Ila.Ast
import Ilang.Ila.AstHub
import Ilang.Ila.Node
import Ilang.Ila.Abs
import Ilang.Ila.Hierarchy
import Ilang.Ila.Build
import Ilang.Ila.Graph
import Ilang.Ila.HashAst
import Ilang.Ila.VarContainer
import Ilang.Ila.VarShape
import Ilang.Ila.VarZip
import Ilang.Ila.VarNames
import Ilang.Ila.Register
import Ilang.Ila.VarHost
import Ilang.Target.Z3Adapter
import Ilang.Target.SmtSwitch
import Ilang.Mngr.Unroller
import Ilang.Mngr.Trace
import Ilang.Mngr.PathUnroll
import Ilang.Mngr.PathExec
import Ilang.Mngr.MonoUnroll
import Ilang.Mngr.UnrollerSmt
import Ilang.Mngr.Refinement
import Ilang.Mngr.CommDiag
import Ilang.Mngr.EqCheck
import Ilang.Mngr.EqCheckSound
import Ilang.Mngr.IncCheck
import Ilang.Mngr.TimeShift
import Ilang.Mngr.RewriteExpr
import Ilang.Mngr.RewriteGeneric
import Ilang.Mngr.CondStore
import Ilang.Mngr.StoreLoad
import Ilang.Mngr.SanityCheck
import Ilang.Mngr.SimplifySemantic
import Ilang.Mngr.ChildProgCfg
import Ilang.Mngr.LegacyBmc
import Ilang.Mngr.CopyTree
import Ilang.Mngr.CopyMaps
import Ilang.Mngr.CopyNode
import Ilang.Mngr.CopyCorrect
import Ilang.Api.Z3Unroller
import Ilang.Verilog.Expr
import Ilang.Verilog.Ports
import Ilang.Target.Emit
import Ilang.Target.EmitEffects
import Ilang.Target.VerilogGen
import Ilang.Target.VerilogExact
import Ilang.Target.VerilogMem
import Ilang.Target.VerilogIla
import Ilang.Target.VerilogNames
import Ilang.Target.Ilator
import Ilang.Target.IlatorExact
import Ilang.Target.IlatorRun
import Ilang.Target.IlatorUpdate
import Ilang.Target.IlatorKernel
import Ilang.Vtarget.Monitor
import Ilang.Vtarget.IteUnknown
import Ilang.Vtarget.RefineCond
import Ilang.Util.Lexing
import Ilang.Verilog.Lexical
import Ilang.Vtarget.VarExtract
import Ilang.Vtarget.VarLexemes
import Ilang.Util.Spelling
import Ilang.Vtarget.WireNames
import Ilang.Vtarget.VlgMod
import Ilang.Vtarget.VlgModInserts
import Ilang.Util.Precedence
import Ilang.Verilog.Operators
import Ilang.Vtarget.EmbedExpr
import Ilang.Vtarget.EmbedExact
import Ilang.Vtarget.AssumeReg
import Ilang.Vtarget.AbsMem
import Ilang.Vtarget.InvSynCegar
import Ilang.Vtarget.AbcParse
import Ilang.Vtarget.AbcSound
import Ilang.SmtInout.ChcInvIn
import Ilang.SmtInout.ChcInvExact
import Ilang.SmtInout.YosysSmt
import Ilang.SmtInout.YosysFlatten
import Ilang.SmtInout.YosysSound
import Ilang.SmtInout.YosysKeep
import Ilang.SmtInout.YosysLeaves
import Ilang.Mcm.Constraint
import Ilang.Mcm.MemoryModel
import Ilang.Mcm.TsoWeaker
import Ilang.Mcm.ReadSet
import Ilang.Mcm.PushPop
import Ilang.Mcm.LocalState
import Ilang.Mcm.Machine
import Ilang.Mcm.History
import Ilang.Mcm.CoreRun
import Ilang.Mcm.Links
import Ilang.Mcm.ScComplete
import Ilang.Mcm.StoreBuffer
import Ilang.Mcm.TsoComplete
import Ilang.Mcm.NotNested
import Ilang.Mcm.SysInit
import Ilang.Util.OrdMap
import Ilang.Target.ConstMem
import Ilang.Target.IlatorMemory
import Ilang.Target.IlaSim
import Ilang.Target.IlaSimExact
import Ilang.Target.IlaSimRun
import Ilang.Smt.Sorting
import Ilang.Ila.Construct
import Ilang.Target.HubTerm
import Ilang.Target.HubSound
import Ilang.Target.HubExact
import Ilang.Mngr.Flatten
import Ilang.Mngr.FlattenValid
import Ilang.Util.IStream
import Ilang.Vtarget.InvCnf
import Ilang.Vtarget.AbcGla
import Ilang.Vtarget.CexExtract
import Ilang.Vtarget.InvObj
import Ilang.Vtarget.InvObjCalls
import Ilang.Verilog.ParamHier
import Ilang.Verilog.ConstEval
import Ilang.Target.ItsyDecompose
import Ilang.Util.WordBlock
import Ilang.Target.ItsyNode
import Ilang.Target.ItsyOps
import Ilang.Target.ItsyExact
import Ilang.Util.Brackets
import Ilang.SmtInout.YosysReader
import Ilang.SmtInout.YosysWritten
import Ilang.SmtInout.YosysItems
import Ilang.SmtInout.YosysReaderExact
import Ilang.Util.Pieces
import Ilang.Util.StrUtil
import Ilang.Vtarget.TextRewrites
import Ilang.Verilog.NameLookup
import Ilang.Verilog.NameTarget
import Ilang.Verilog.NameLookupExact
import Ilang.Mngr.ChildProgEntry
import Ilang.Target.IlaSimText
import Ilang.Target.IlaSimUpdate
import Ilang.Target.IlaSimUpdateExact
import Ilang.Util.Json
import Ilang.Target.JsonSer
import Ilang.Target.JsonDes
import Ilang.Target.JsonRead
import Ilang.Target.JsonVars
import Ilang.Target.JsonRoundTrip
