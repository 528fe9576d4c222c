import HighAsm.Main
import HighAsm.Proofs.Diagnostics
import HighAsm.Proofs.DirectWrites
import HighAsm.Proofs.FunctionNames
import HighAsm.Proofs.Interfaces
import HighAsm.Proofs.Leftovers
import HighAsm.Proofs.Namespaces
import HighAsm.Proofs.Permissiveness
import HighAsm.Proofs.Retyping
import HighAsm.Proofs.Schedules
import HighAsm.Proofs.OtherLimits
import HighAsm.Proofs.Translation
import HighAsm.Proofs.Completions
import HighAsm.Proofs.Positions
import HighAsm.Proofs.DataDump
import HighAsm.Proofs.Pieces
import HighAsm.Proofs.DeadCode
import HighAsm.Proofs.SwitchOrder
import HighAsm.Proofs.WrappedText
import HighAsm.Proofs.TestDocuments
import HighAsm.Proofs.ListedCode
import HighAsm.Proofs.RejectedSettings
import HighAsm.Proofs.FlagSpellings
