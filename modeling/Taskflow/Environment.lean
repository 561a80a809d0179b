import Taskflow.SortedMap
import Taskflow.Ty

/-!
# Type environments

What is known about tasks before a program runs: the declared type of each, by name.
-/

namespace Taskflow

/-- Declared types by task name, listed in the order of the names. -/
abbrev Environment := SortedMap String Ty

end Taskflow
