import IoScheduling.Config.Basic
import IoScheduling.Text.Json

/-!
# Reading a configuration

A configuration is a JSON object with a member for each setting that differs from its default, or
a JSON array with the settings in order. Other members are skipped, and a setting must not be
given twice.
-/
namespace IoScheduling.Config

open IoScheduling.Text (Json)

def settingNames : List String :=
  ["default_policy", "starting_policy", "hash_buckets", "idle_timeout_ms", "refresh_interval_ms",
    "aioli_quantum_bytes", "mlf_quantum_bytes", "max_aggregation_size", "select_period_ms",
    "min_requests_before_selection", "min_selection_probability", "performance_validity_ms",
    "time_window_ns", "shift_wait_ns", "aggregation_wait_ns", "max_predicted_wait_ns",
    "trace_predict", "access_latency_ns", "access_ns_per_byte"]

def readString? : Json → Option String
  | .string text => text
  | _ => none

/-- A natural number of at most `limit`, written without fraction and exponent. -/
def readNat? (limit : Nat) : Json → Option Nat
  | .number n => n.toWord?.filter (· ≤ limit)
  | _ => none

def readBool? : Json → Option Bool
  | .bool b => some b
  | _ => none

def readFloat? : Json → Option Float
  | .number n => n.toFloat?
  | _ => none

def readStringOrNull? : Json → Option (Option String)
  | .null => some none
  | value => (readString? value).map some

def set? (c : Config) (name : String) (value : Json) : Option Config :=
  let word := readNat? maxWord value
  match name with
  | "default_policy" => (readString? value).map fun s => { c with defaultPolicy := s }
  | "starting_policy" => (readStringOrNull? value).map fun s => { c with startingPolicy := s }
  | "hash_buckets" => word.map fun n => { c with hashBuckets := n }
  | "idle_timeout_ms" => word.map fun n => { c with idleTimeoutMs := n }
  | "refresh_interval_ms" => word.map fun n => { c with refreshIntervalMs := n }
  | "aioli_quantum_bytes" => word.map fun n => { c with aioliQuantumBytes := n }
  | "mlf_quantum_bytes" => word.map fun n => { c with feedbackQuantumBytes := n }
  | "max_aggregation_size" => word.map fun n => { c with maxAggregationSize := n }
  | "select_period_ms" => word.map fun n => { c with selectPeriodMs := n }
  | "min_requests_before_selection" =>
    word.map fun n => { c with minRequestsBeforeSelection := n }
  | "min_selection_probability" =>
    (readNat? 0xFFFFFFFF value).map fun n => { c with minSelectionProbability := n }
  | "performance_validity_ms" => word.map fun n => { c with performanceValidityMs := n }
  | "time_window_ns" => word.map fun n => { c with timeWindowNs := n }
  | "shift_wait_ns" => word.map fun n => { c with shiftWaitNs := n }
  | "aggregation_wait_ns" => word.map fun n => { c with aggregationWaitNs := n }
  | "max_predicted_wait_ns" => word.map fun n => { c with maxPredictedWaitNs := n }
  | "trace_predict" => (readBool? value).map fun b => { c with tracePredict := b }
  | "access_latency_ns" => word.map fun n => { c with accessLatencyNs := n }
  | "access_ns_per_byte" => (readFloat? value).map fun x => { c with accessNsPerByte := x }
  | _ => none

def setAll? (c : Config) : List (String × Json) → Option Config
  | [] => some c
  | (name, value) :: rest => (c.set? name value).bind fun c => setAll? c rest

def settingsOf? (members : List (Option String × Json)) : Option (List (String × Json)) := do
  let named ← members.mapM fun (name, value) => name.map fun s => (s, value)
  return named.filter fun (s, _) => settingNames.contains s

def ofJson? : Json → Option Config
  | .object members => do
    let settings ← settingsOf? members
    if (settings.map Prod.fst).Nodup then setAll? defaults settings else none
  | .array items =>
    if items.length ≤ settingNames.length then setAll? defaults (settingNames.zip items) else none
  | _ => none

def readText? (text : String) : Option Config := (Json.parse? text).bind ofJson?

def ofFile : Option ByteArray → Except Fault Config := load readText?

end IoScheduling.Config
