import IoScheduling.Core.State

/-!
# Launching a scheduler

Whoever launches a scheduler must provide code to hand requests over to, and may leave everything
else to its default. A bad configuration keeps no scheduler from starting.
-/
namespace IoScheduling.Service

inductive ConfigSource where
  | defaults
  | given (config : Config)
  | file (bytes : Option ByteArray)

/-- The configuration from a source, where `read?` reads the text of a file. -/
def ConfigSource.resolve (read? : String → Option Config) : ConfigSource → Config
  | defaults => .defaults
  | given config => .orDefaults config.accept
  | file bytes => .orDefaults (Config.load read? bytes)

structure Launch where
  takesOne : Bool
  takesMany : Bool
  config : ConfigSource
  maxStream : Option Nat
  accessTime : Option AccessTime
  predictor : Option Predictor

/-- What the scheduler is set up with; there must be some code to hand requests over to. -/
def Launch.setup (read? : String → Option Config) (hash : String → Nat) (l : Launch) :
    Except Fault Setup := do
  let callbacks ← Callbacks.of? l.takesOne l.takesMany
  let setup := Setup.withHash hash (l.config.resolve read?) callbacks (l.maxStream.getD 1)
  return { setup with
    accessTime := l.accessTime.getD setup.accessTime
    predictor := l.predictor }

end IoScheduling.Service
