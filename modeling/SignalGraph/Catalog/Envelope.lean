import SignalGraph.Unit.Declaration

/-!
# Envelope

A level that follows a gate in straight lines. While the gate is high, the level
rises to one in `attack` seconds, falls to `sustain` in `decay` seconds, and stays
there. When the gate is low, it falls to zero, and the envelope is ready to rise
again from wherever the level is.

Times below `Binary32.epsilon` act as that long, so that no step divides by zero;
`sustain` is taken between zero and one.
-/

namespace SignalGraph.Catalog.Envelope

/-- The stages of an envelope. -/
inductive Stage where
  /-- Rising, or at rest while the gate is low. -/
  | attack
  /-- Falling towards the level to hold. -/
  | decay
  /-- Holding a level. -/
  | sustain
deriving DecidableEq

namespace Stage

/-- The number of stages. -/
def count : Nat := 3

/-- The name of a stage. -/
def name : Stage → String
  | attack => "Attack"
  | decay => "Decay"
  | sustain => "SustainOrRelease"

/-- The number by which a stage is kept in a state cell. -/
def toInt : Stage → Int32
  | attack => 0
  | decay => 1
  | sustain => 2

/-- The stage of a number; of a number that no stage has, the last one. -/
def ofInt (n : Int32) : Stage :=
  if n = 0 then attack else if n = 1 then decay else sustain

/-- A stage is read back from its number. -/
theorem ofInt_toInt (stage : Stage) : ofInt stage.toInt = stage := by cases stage <;> decide

end Stage

/-- The state of an envelope. -/
structure State where
  /-- The stage. -/
  stage : Stage
  /-- The level. -/
  level : Binary32
deriving DecidableEq

/-- What an envelope reads at a tick. -/
structure Controls where
  /-- High while the envelope is to sound. -/
  gate : Binary32
  /-- The seconds from zero to one. -/
  attack : Binary32
  /-- The seconds from one to the level to hold. -/
  decay : Binary32
  /-- The level to hold. -/
  sustain : Binary32
  /-- The seconds from the level held to zero. -/
  release : Binary32

/-- The gate is high above this value. -/
def gateThreshold : Binary32 := 0.5

/-- A time to divide by. -/
def divisor (time : Binary32) : Binary32 := (time.maxNumber 0).maxNumber Binary32.epsilon

/-- The state of an envelope after a tick of `dt` seconds. -/
def step (c : Controls) (dt : Binary32) (s : State) : State :=
  let decay := c.decay.maxNumber 0
  let sustain := c.sustain.clamp 0 1
  if c.gate > gateThreshold then
    match s.stage with
    | .attack =>
      let level := s.level + dt / divisor c.attack
      if level ≥ 1 then ⟨if decay > 0 then .decay else .sustain, 1⟩ else ⟨.attack, level⟩
    | .decay =>
      let level := s.level - dt * (1 - sustain) / divisor decay
      if level ≤ sustain then ⟨.sustain, sustain⟩ else ⟨.decay, level⟩
    | .sustain => ⟨.sustain, sustain⟩
  else
    let level := s.level - dt * sustain / divisor c.release
    ⟨.attack, if level < 0 then 0 else level⟩

/-- The update of an envelope, on a frame of controls, stage, level and length of
    the tick. -/
def update (a : Frame) : Frame :=
  let controls := ⟨a.get 0, a.get 1, a.get 2, a.get 3, a.get 4⟩
  let s := step controls (a.get 7) ⟨.ofInt (a.getInt 5), a.get 6⟩
  (a.setInt 5 s.stage.toInt).set 6 s.level

end Envelope

/-- The envelope with attack, decay, sustain and release. -/
def adsr : Declaration where
  unit := "adsr"
  inputs :=
    [⟨"gate", 0, .float⟩, ⟨"attack", 0.01, .float⟩, ⟨"decay", 0.1, .float⟩,
      ⟨"sustain", 0.7, .float⟩, ⟨"release", 0.2, .float⟩]
  states := [.enum "stage" Envelope.Stage.count Envelope.Stage.attack.toInt]
  outputs := [{ name := "level", access := .readWrite }]
  update := some
    ⟨["gate", "attack", "decay", "sustain", "release", "stage", "level", "delta_time"],
      Envelope.update⟩

end SignalGraph.Catalog
