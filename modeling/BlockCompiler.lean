import BlockCompiler.Release
import BlockCompiler.Session
import BlockCompiler.Proofs.Payloads
import BlockCompiler.Proofs.ClosedText
import BlockCompiler.Proofs.TypeNames
import BlockCompiler.Proofs.LogIndependence
import BlockCompiler.Proofs.OrderIndependence
import BlockCompiler.Proofs.LowererCalls
import BlockCompiler.Proofs.MissingReturn
import BlockCompiler.Proofs.StmtFrame
import BlockCompiler.Proofs.Poisoning
import BlockCompiler.Proofs.Verification
import BlockCompiler.Proofs.PayloadRoom
import BlockCompiler.Proofs.SpellingHistory
import BlockCompiler.Proofs.CallOrder
import BlockCompiler.Proofs.JsonLines
import BlockCompiler.Proofs.Gating
import BlockCompiler.Proofs.Literals
import BlockCompiler.Proofs.LogOptions
