import Mathlib.Data.List.Nodup
import Unstack.Proofs.Frame.Effect

namespace Unstack

namespace Frame

variable {f : Frame}

end Frame

namespace MethodInfo

variable {m : MethodInfo}

end MethodInfo

end Unstack
