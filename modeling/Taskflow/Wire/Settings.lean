import Taskflow.Settings
import Taskflow.Wire.Run

/-!
# Settings as documents

A key that is missing leaves its setting as standard.
-/

namespace Taskflow.Settings

def encode (s : Settings) : Json :=
  .obj ([("strict", .bool s.strict), ("typed", .bool s.typed), ("product_policy", s.policy.encode)]
    ++ (match s.timeout with
      | some ms => [("task_timeout_ms", .int ms)]
      | none => [])
    ++ [("simulated_latency_ms", .int s.latency), ("log_level", .str s.logLevel)])

def fields : List String :=
  ["strict", "typed", "product_policy", "task_timeout_ms", "simulated_latency_ms", "log_level"]

def decode? (j : Json) : Option Settings := do
  let es ← j.members? fields
  some
    { strict := ← Json.defaulted? standard.strict Json.bool? (es.lookup "strict")
      typed := ← Json.defaulted? standard.typed Json.bool? (es.lookup "typed")
      policy := ← Json.defaulted? standard.policy Policy.decode? (es.lookup "product_policy")
      timeout := ← Json.optional? Json.count? (es.lookup "task_timeout_ms")
      latency := ← Json.defaulted? standard.latency Json.count? (es.lookup "simulated_latency_ms")
      logLevel := ← Json.defaulted? standard.logLevel Json.str? (es.lookup "log_level") }

end Taskflow.Settings
