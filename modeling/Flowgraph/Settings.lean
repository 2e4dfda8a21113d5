import Flowgraph.Number.Decimal
import Flowgraph.Text.Blank

/-!
# Settings

How many rounds a run may take, where checkpoints are kept and where events go.
A value given outright wins over the environment, and the environment over the
default; a step limit that cannot be read is passed over.
-/

namespace Flowgraph

inductive StoreKind where
  | memory
  | sqlite
deriving DecidableEq

inductive SinkKind where
  | stdout
  | memory
deriving DecidableEq

/-- The event bus and the channels of streamed runs. -/
structure BusSettings where
  capacity : Nat
  sinks : List SinkKind
deriving DecidableEq

namespace BusSettings

def defaultCapacity : Nat := 1024

/-- Settings with a channel capacity, 0 standing for the default one. -/
def of (capacity : Nat) (sinks : List SinkKind) : BusSettings :=
  ⟨if capacity = 0 then defaultCapacity else capacity, sinks⟩

def stdoutOnly : BusSettings := of defaultCapacity [.stdout]

def memoryOnly : BusSettings := of defaultCapacity [.memory]

def silent : BusSettings := of defaultCapacity []

/-- Adds a kind of sink that is not there yet. -/
def addSink (b : BusSettings) (kind : SinkKind) : BusSettings :=
  if kind ∈ b.sinks then b else { b with sinks := b.sinks ++ [kind] }

end BusSettings

/-- What the environment says. -/
structure Environment where
  maxSteps : Option String := none
  database : Option String := none

structure Settings where
  store : StoreKind := .memory
  database : Option String
  maxSteps : UInt64
  bus : BusSettings := .stdoutOnly
deriving DecidableEq

namespace Settings

def defaultMaxSteps : UInt64 := 1000

def defaultDatabase : String := "graflow.db"

def resolveDatabase (env : Environment) (given : Option String) : String :=
  given.getD (env.database.getD defaultDatabase)

def resolveMaxSteps (env : Environment) (given : Option UInt64) : UInt64 :=
  match given, env.maxSteps with
  | some limit, _ => limit
  | none, some text =>
    match readWord (Text.trim text.toList) with
    | some n => UInt64.ofNat n
    | none => defaultMaxSteps
  | none, none => defaultMaxSteps

/-- The settings of an environment, with what is given outright. -/
def of (env : Environment) (store : StoreKind := .memory) (database : Option String := none)
    (maxSteps : Option UInt64 := none) : Settings where
  store
  database := some (resolveDatabase env database)
  maxSteps := resolveMaxSteps env maxSteps

/-- Sets the step limit, at least 1. -/
def withMaxSteps (s : Settings) (limit : UInt64) : Settings :=
  { s with maxSteps := if limit = 0 then 1 else limit }

/-- Adds a kind of sink to the bus. -/
def addSink (s : Settings) (kind : SinkKind) : Settings := { s with bus := s.bus.addSink kind }

/-- The address of the database; a name that is an address stands as it is. -/
def databaseUrl (s : Settings) : String :=
  let name := s.database.getD defaultDatabase
  if "sqlite:".toList.isPrefixOf name.toList then name else "sqlite://" ++ name

/-- Whether runs with these settings have a memory sink to look into. -/
def hasMemorySink (s : Settings) : Bool := s.bus.sinks.contains .memory

/-- What a run has that is given no settings of its own: no sinks, and the environment's limit. -/
def quiet (env : Environment) : Settings := { Settings.of env with bus := .silent }

end Settings

end Flowgraph
