import MethodCache.Proofs.LinkedRuns
import MethodCache.Proofs.OrderedRuns
import MethodCache.Proofs.Transparency
import MethodCache.Text.Quoted
import MethodCache.Proofs.Consistency
import MethodCache.Proofs.Tracking
import MethodCache.Proofs.Undoing
import MethodCache.Proofs.Repeating
import MethodCache.Proofs.Naming
import MethodCache.Proofs.Outcomes
import MethodCache.Proofs.Checking
import MethodCache.Proofs.Isolation
import MethodCache.Proofs.Conversion
import MethodCache.Proofs.Emptying
import MethodCache.Proofs.Searching
import MethodCache.Proofs.Reflection
import MethodCache.Proofs.Turns
import MethodCache.Proofs.Dispatching
