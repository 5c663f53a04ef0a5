import Nibble.Lib.Chain
import Nibble.IR.ShortCircuit
import Nibble.IR.Frame
import Nibble.IR.Value
import Nibble.IR.ScList
import Nibble.IR.Spec
import Nibble.IR.Condition
import Nibble.IR.CondSpec
import Nibble.IR.JumpSpec
import Nibble.IR.CondSound
import Nibble.IR.CfgCond
import Nibble.IR.CondLost
import Nibble.IR.CondExact
import Nibble.IR.CondValue
import Nibble.IR.TmpExact
import Nibble.XIR.Addr
import Nibble.XIR.Chain
import Nibble.XIR.AddrLower
import Nibble.XIR.AddrExact
import Nibble.IR.Produced
import Nibble.X64.AddrDecode
import Nibble.X64.Encoding
import Nibble.X64.RelocExact
import Nibble.X64.ConstExact
import Nibble.X64.CallAlign
import Nibble.Ast.InternExact
import Nibble.Data.Reloc
import Nibble.Data.PtrExact
import Nibble.X64.CallConv
import Nibble.XIR.DivisionExact
import Nibble.X64.RegAllocExact
import Nibble.X64.Flags
import Nibble.X64.CallSave
import Nibble.X64.FrameExact
import Nibble.HashMapExact
import Nibble.Front.VisibilityExact
import Nibble.Front.CompileExact
import Nibble.Front.LexerExact
import Nibble.Front.ExprExact
import Nibble.Front.InternStr
import Nibble.Front.Escape
import Nibble.Front.IntExact
import Nibble.Resolve.ArrayLit
import Nibble.Resolve.Arith
import Nibble.Resolve.SwitchExact
import Nibble.IR.SwitchExact
import Nibble.Resolve.NormalExact
import Nibble.Resolve.TotalExact
import Nibble.PathUtils.NormExact
import Nibble.Print.FloatExact
import Nibble.Print.RoundExact
import Nibble.Print.FormatExact
import Nibble.XIR.AliasExact
import Nibble.Front.StrLen
import Nibble.Ast.MangleExact
import Nibble.AllocatorExact
import Nibble.Resolve.EnumExact
import Nibble.Resolve.TypespecExact
import Nibble.PathUtils.ImportExact
import Nibble.Front.SourceFilesExact
import Nibble.Resolve.Flow
import Nibble.Resolve.FlowExact
import Nibble.IR.CondEnter
import Nibble.IR.StmtSpec
import Nibble.IR.StmtRules
import Nibble.IR.LoopRules
import Nibble.IR.SwitchRules
import Nibble.IR.StmtSound
import Nibble.X64.ElfExact
