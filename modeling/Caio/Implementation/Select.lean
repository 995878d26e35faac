import Caio.Implementation.Release

namespace Caio.Implementation

inductive Backend
  | uring
  | linux
  | thread
  | python
deriving DecidableEq, Repr

namespace Modules

variable (m : Modules)

end Modules

variable {m : Modules} {module asyncio : Backend → Except ImportError Unit} {b : Backend}

end Caio.Implementation
