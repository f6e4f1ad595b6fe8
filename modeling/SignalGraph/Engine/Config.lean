import SignalGraph.Binary.Basic

/-!
# Engine configuration

The one setting of an engine is its sample rate. Any rate can be written down;
`Config.check` accepts those from 1 Hz to 768 kHz.
-/

namespace SignalGraph

/-- The settings of an engine. -/
structure Config where
  /-- Ticks per second. -/
  sampleRate : UInt32 := 48000
deriving DecidableEq

/-- A fault in the settings. -/
inductive ConfigError where
  /-- The sample rate is out of range. -/
  | sampleRate (rate : UInt32)
deriving DecidableEq

namespace Config

/-- The least sample rate accepted. -/
def minSampleRate : UInt32 := 1

/-- The greatest sample rate accepted. -/
def maxSampleRate : UInt32 := 768000

/-- The settings read from a record whose sample rate, if it has one, is a whole
    number. None, if the number has no place in 32 bits. -/
def ofRecord? : Option Int → Option Config
  | none => some {}
  | some rate => if 0 ≤ rate ∧ rate < UInt32.size then some ⟨.ofNat rate.toNat⟩ else none

/-- The seconds from one tick to the next. -/
def deltaTime (config : Config) : Binary32 := 1 / Binary.ofInt config.sampleRate.toNat

/-- Accepts a configuration whose sample rate is in range. -/
def check (config : Config) : Except ConfigError Unit :=
  if minSampleRate ≤ config.sampleRate ∧ config.sampleRate ≤ maxSampleRate then .ok ()
  else .error (.sampleRate config.sampleRate)

end Config

/-- The wording of a fault. -/
def ConfigError.message : ConfigError → String
  | sampleRate rate =>
    s!"sample rate {rate} Hz is outside {Config.minSampleRate}..={Config.maxSampleRate}"

end SignalGraph
