import SignalGraph.Binary.Basic

/-!
# Argument frames

An update takes its arguments in a frame: a row of words, one for each argument
in the order the unit lists them. It answers in the same frame, by leaving in
the places of outputs and state what they become. A frame has room for
`maxArguments` words, whatever the number of arguments in use, so that an update
is a function from frames to frames. Beyond the end of a frame there are zeros,
and what is put there is lost.
-/

namespace SignalGraph

/-- The most arguments an update may take. -/
abbrev maxArguments : Nat := 16

/-- A row of arguments. -/
structure Frame where
  /-- How many arguments are in use. -/
  size : Nat
  /-- The words; those not in use are zero to begin with. -/
  cells : Vector Binary32 maxArguments

namespace Frame

/-- The frame of `size` zeros. -/
def zeros (size : Nat) : Frame := ⟨size, Vector.replicate maxArguments 0⟩

/-- The frame of the given arguments. -/
def ofList (arguments : List Binary32) : Frame :=
  ⟨arguments.length, Vector.ofFn fun i => arguments.getD i 0⟩

/-- The word at `i`. -/
def get (frame : Frame) (i : Nat) : Binary32 := frame.cells[i]?.getD 0

/-- Puts a word at `i`. -/
def set (frame : Frame) (i : Nat) (word : Binary32) : Frame :=
  { frame with cells := frame.cells.setIfInBounds i word }

/-- The whole number whose bits are at `i`. -/
def getInt (frame : Frame) (i : Nat) : Int32 := (frame.get i).toInt32

/-- Puts the bits of a whole number at `i`. -/
def setInt (frame : Frame) (i : Nat) (n : Int32) : Frame := frame.set i (.ofInt32 n)

theorem get_ofList (arguments : List Binary32) {i : Nat} (h : i < maxArguments) :
    (ofList arguments).get i = arguments.getD i 0 := by
  simp [get, ofList, h]

theorem get_set (frame : Frame) (i j : Nat) (word : Binary32) :
    (frame.set i word).get j = if i = j ∧ j < maxArguments then word else frame.get j := by
  simp only [get, set, Vector.getElem?_setIfInBounds]
  grind

/-- Whole numbers come back from a frame as they were put there. -/
theorem getInt_setInt (frame : Frame) {i : Nat} (n : Int32) (h : i < maxArguments) :
    (frame.setInt i n).getInt i = n := by
  simp [getInt, setInt, get_set, h]

end Frame

end SignalGraph
