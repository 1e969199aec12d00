import ProxyKernel.TrapRefinement

namespace ProxyKernel.Trap
open ByteMem Syscall Transition Print

variable {K : Linked} {s t : State} {w : List UserEvent} {v : UserMachine}

end ProxyKernel.Trap
