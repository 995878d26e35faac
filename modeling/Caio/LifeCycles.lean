import Caio.LinuxAio.Stages
import Caio.PythonAio.Stages
import Caio.ThreadAio.Stages
import Caio.Uring.Stages

namespace Caio

open OneShot

/-- In every run of a backend an Operation is new, then in flight and then done, and never goes
back: it is accepted once, and what `get_value()` makes of its buffer stays as it is when it is
done. No Operation is freed in flight, and the address of a freed one starts anew. -/
theorem operations_one_shot :
    (Tasks Uring.World.system Uring.World.Lives Uring.World.stage ∧
      ∀ s a t p, Uring.World.system.Reachable s → s.step a = some t → ¬s.Lives p → t.Lives p →
        t.stage p = .idle) ∧
    Tasks LinuxAio.World.fresh LinuxAio.World.Lives LinuxAio.World.stage ∧
    Tasks ThreadAio.World.fresh ThreadAio.World.Lives ThreadAio.World.stage ∧
    Tasks PythonAio.World.system (fun _ _ => True) PythonAio.World.stage :=
  ⟨⟨Uring.World.tasks, fun _ _ _ _ h hs => Uring.World.born_idle h hs⟩, LinuxAio.World.tasks,
    ThreadAio.World.tasks, PythonAio.World.tasks⟩

end Caio
