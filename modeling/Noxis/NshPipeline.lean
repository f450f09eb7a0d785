import Noxis.NshParse
import Noxis.PipeEnds
/-!
# NshPipeline — redirections in a pipeline (`run_one_cmd`, `run_pipeline`)

Both runners fork, and the child sets up its descriptors and calls `_exec_search`.  The child of `run_one_cmd` opens the files that
`parse` has recorded; that of `run_pipeline` moves the ends of the pipes into place and looks at no recorded file.  `look` is what
the lookup of `sys_open` finds for a path and flags.
-/
namespace Noxis

open Option Function FdSys List
namespace Nsh

/-! ## The children -/

section
variable {s t : FdSys} {q flags target : Nat} {look : Text → Nat → Option Found} {path : Text} {f : Found} {d : Reading}

end

/-! ## The pipeline -/

end Nsh
end Noxis
