import IoScheduling.Pending.Request

/-!
# Faults

What can go wrong, by cause. Each cause has a code and a message.
-/
namespace IoScheduling

inductive ConfigFault where
  | noBuckets
  | noQuantum
  | noAggregation
  | probabilityNotPercentage
  | negativeByteTime
  | metaDefault (name : String)
  | unreadable
  | other (text : String)
  deriving DecidableEq, Repr

def ConfigFault.message : ConfigFault → String
  | noBuckets => "hash_buckets must be positive"
  | noQuantum => "quantum sizes must be positive"
  | noAggregation => "max_aggregation_size must be positive"
  | probabilityNotPercentage => "min_selection_probability is a percentage"
  | negativeByteTime => "access_ns_per_byte must be a non-negative number"
  | metaDefault name => "default policy " ++ name ++ " cannot be a meta-policy"
  | unreadable => "the text is not a configuration"
  | other text => text

inductive Fault where
  | io (text : String)
  | allocation (text : String)
  | notFound (address : Address)
  | invalidConfiguration (cause : ConfigFault)
  | noCallback
  | shuttingDown
  | unknownPolicy (name : String)
  | serialization (text : String)
  deriving DecidableEq, Repr

namespace Fault

def code : Fault → Int
  | io _ => -1
  | allocation _ => -2
  | notFound _ => -3
  | invalidConfiguration _ => -4
  | noCallback => -5
  | shuttingDown => -6
  | unknownPolicy _ => -7
  | serialization _ => -8

def directionName : Direction → String
  | .read => "Read"
  | .write => "Write"

def message : Fault → String
  | io text => "IO error: " ++ text
  | allocation text => "Allocation failure: " ++ text
  | notFound a =>
    "Request not found: " ++ a.file ++ " " ++ directionName a.direction ++
      " offset=" ++ toString a.offset ++ " length=" ++ toString a.length
  | invalidConfiguration cause => "Invalid configuration: " ++ cause.message
  | noCallback => "No usable processing callback was provided"
  | shuttingDown => "Scheduler is shutting down"
  | unknownPolicy name => "Unknown scheduling policy: " ++ name
  | serialization text => "Serialization error: " ++ text

end Fault

end IoScheduling
