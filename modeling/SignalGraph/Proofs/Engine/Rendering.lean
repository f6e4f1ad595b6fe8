import Mathlib.Algebra.BigOperators.Ring.List
import Mathlib.Data.Nat.ModEq
import Mathlib.Logic.Function.Iterate
import SignalGraph.Proofs.Engine.Script

/-!
# Rendering

To fill a buffer, an engine runs a tick for each whole frame and puts down the values of all
roots after it. What it puts down is the signal of the engine (`Engine.signal`), and as
signals can be cut between any two ticks (`Engine.signal_add`), so can buffers between any two
frames: how long the buffers are that a host asks for can be heard nowhere
(`Engine.render_eq_ticks`).
-/

namespace SignalGraph

namespace Engine

variable {engine : Engine} {buffer : Array Binary32} {count frame channel i : Nat}

/-! ## The signal of an engine -/

/-- The values of all roots after each of the next ticks, one tick after the other. -/
def signal (engine : Engine) (count : Nat) : List Binary32 :=
  (List.range count).flatMap fun frame => (tick^[frame + 1] engine).samples

theorem signal_one (engine : Engine) : engine.signal 1 = engine.tick.samples :=
  List.append_nil _

/-- A signal goes on from where the engine is then. -/
theorem signal_add (engine : Engine) (m n : Nat) :
    engine.signal (m + n) = engine.signal m ++ (tick^[m] engine).signal n := by
  have hlater (frame : Nat) : tick^[frame + 1] (tick^[m] engine) = tick^[m + frame + 1] engine := by
    rw [← Function.iterate_add_apply, Nat.add_comm, Nat.add_assoc]
  rw [signal, List.range_add, List.flatMap_append, List.flatMap_map, signal, signal]
  simp only [hlater]

theorem plan_iterate_tick (engine : Engine) (n : Nat) : (tick^[n] engine).plan = engine.plan := by
  induction n with
  | zero => rfl
  | succ n ih => rw [Function.iterate_succ_apply', tick, advance, ih]

theorem outputCount_iterate_tick (engine : Engine) (n : Nat) :
    (tick^[n] engine).outputCount = engine.outputCount := by
  rw [outputCount, plan_iterate_tick, outputCount]

theorem length_samples (engine : Engine) : engine.samples.length = engine.outputCount :=
  List.length_map _

theorem getElem?_samples (engine : Engine) (channel : Nat) :
    engine.samples[channel]? = engine.sample? channel :=
  List.getElem?_map

/-- There is a value of each root for each tick. -/
theorem length_signal (engine : Engine) (count : Nat) :
    (engine.signal count).length = count * engine.outputCount := by
  induction count with
  | zero => rw [Nat.zero_mul]; rfl
  | succ count ih =>
    rw [signal_add, List.length_append, ih, signal_one, ← Function.iterate_succ_apply' tick,
      length_samples, outputCount_iterate_tick, Nat.succ_mul]

/-- The values of the roots after a tick stand together, in their order. -/
theorem getElem?_signal (hframe : frame < count) (hchannel : channel < engine.outputCount) :
    (engine.signal count)[frame * engine.outputCount + channel]? =
      (tick^[frame + 1] engine).sample? channel := by
  obtain ⟨rest, rfl⟩ : ∃ rest, count = frame + (1 + rest) := ⟨count - frame - 1, by omega⟩
  have hlength : (tick^[frame] engine).tick.samples.length = engine.outputCount := by
    rw [← Function.iterate_succ_apply' tick, length_samples, outputCount_iterate_tick]
  -- Before the frame there are the values of earlier ticks, and after it those of later ones.
  rw [signal_add, signal_add, signal_one,
    List.getElem?_append_right (length_signal .. ▸ Nat.le_add_right ..), length_signal,
    Nat.add_sub_cancel_left, List.getElem?_append_left (hlength ▸ hchannel), getElem?_samples,
    Function.iterate_succ_apply']

/-! ## Buffers -/

/-- Frame by frame, the signal is added to the buffer, and each frame is counted. -/
theorem fill_eq (engine : Engine) (rendered : Rendered) (count : Nat) :
    engine.fill rendered count = (tick^[count] engine,
      ⟨rendered.toArray ++ engine.signal count, rendered.frames + count⟩) := by
  induction count generalizing engine rendered with
  | zero => simp [fill, signal]
  | succ count ih =>
    have hbuffer : rendered.toArray ++ engine.tick.samples ++ engine.tick.signal count =
        rendered.toArray ++ (engine.tick.samples ++ engine.tick.signal count) :=
      Array.toList_inj.1 (by simp)
    rw [fill, ih, hbuffer, ← Function.iterate_succ_apply tick, Nat.add_comm count, signal_add,
      signal_one, Function.iterate_one, Nat.add_assoc, Nat.succ_eq_one_add]

/-- The signal of an engine for as many frames as there are in the buffer. -/
def filled (engine : Engine) (buffer : Array Binary32) : Array Binary32 :=
  (engine.signal (engine.frameCount buffer)).toArray

theorem size_filled (engine : Engine) (buffer : Array Binary32) :
    (engine.filled buffer).size = engine.frameCount buffer * engine.outputCount := by
  rw [filled, List.size_toArray, length_signal]

theorem render_eq (engine : Engine) (buffer : Array Binary32) :
    engine.render buffer = (tick^[engine.frameCount buffer] engine,
      ⟨engine.filled buffer ++ buffer.extract (engine.frameCount buffer * engine.outputCount),
        engine.frameCount buffer⟩) := by
  have hempty : (#[] : Array Binary32) ++ engine.signal (engine.frameCount buffer) =
      engine.filled buffer := by simp [filled]
  rw [render, fill_eq, hempty, Nat.zero_add]
  dsimp only
  rw [size_filled]

/-- As many frames are counted as there are whole frames in the buffer. -/
theorem frames_render (engine : Engine) (buffer : Array Binary32) :
    (engine.render buffer).2.frames = engine.frameCount buffer := by rw [render_eq]

theorem frameCount_mul_le (engine : Engine) (buffer : Array Binary32) :
    engine.frameCount buffer * engine.outputCount ≤ buffer.size :=
  Nat.div_mul_le_self ..

theorem size_render (engine : Engine) (buffer : Array Binary32) :
    (engine.render buffer).2.size = buffer.size := by
  have hle := engine.frameCount_mul_le buffer
  rw [render_eq, Array.size_append, size_filled, Array.size_extract]
  omega

/-- The values of the roots stand in the frame of their tick. -/
theorem getElem?_render (hframe : frame < engine.frameCount buffer)
    (hchannel : channel < engine.outputCount) :
    (engine.render buffer).2.toArray[frame * engine.outputCount + channel]? =
      (tick^[frame + 1] engine).sample? channel := by
  have hnext : frame * engine.outputCount + channel < (frame + 1) * engine.outputCount := by
    rw [Nat.succ_mul]
    omega
  have hlt : frame * engine.outputCount + channel < (engine.filled buffer).size :=
    size_filled engine buffer ▸ Nat.lt_of_lt_of_le hnext (Nat.mul_le_mul_right _ hframe)
  rw [render_eq, Array.getElem?_append_left hlt, filled, List.getElem?_toArray,
    getElem?_signal hframe hchannel]

/-- What is no whole frame stays. -/
theorem getElem?_render_of_le (hi : engine.frameCount buffer * engine.outputCount ≤ i) :
    (engine.render buffer).2.toArray[i]? = buffer[i]? := by
  rw [render_eq, Array.getElem?_append_right (size_filled engine buffer ▸ hi), size_filled,
    Array.getElem?_extract, Nat.add_sub_cancel' hi]
  by_cases hlt : i < buffer.size
  · rw [if_pos (by omega)]
  · rw [if_neg (by omega), Array.getElem?_eq_none (Nat.not_lt.1 hlt)]

/-! ## Buffers in a row -/

/-- Fills buffers one after the other, and counts the frames of all of them. -/
def renderAll (engine : Engine) : List (Array Binary32) → Engine × Rendered
  | [] => (engine, ⟨#[], 0⟩)
  | block :: blocks =>
    let (engine, filled) := engine.render block
    let (engine, rest) := engine.renderAll blocks
    (engine, ⟨filled.toArray ++ rest.toArray, filled.frames + rest.frames⟩)

theorem renderAll_cons {block : Array Binary32} {blocks : List (Array Binary32)}
    {next after : Engine} {filled rest : Rendered} (hblock : engine.render block = (next, filled))
    (hblocks : next.renderAll blocks = (after, rest)) :
    engine.renderAll (block :: blocks) =
      (after, ⟨filled.toArray ++ rest.toArray, filled.frames + rest.frames⟩) := by
  rw [renderAll, hblock]
  dsimp only
  rw [hblocks]

/-- A buffer of whole frames is filled up. -/
theorem render_of_dvd (h : engine.outputCount ∣ buffer.size) :
    let count := buffer.size / engine.outputCount
    engine.render buffer = (tick^[count] engine, ⟨(engine.signal count).toArray, count⟩) := by
  have hrest : buffer.extract buffer.size = #[] := by simp
  rw [render_eq, filled, frameCount, Nat.div_mul_cancel h, hrest, Array.append_empty]

/-- Buffers of whole frames are filled up, one after the other. -/
theorem renderAll_of_dvd {blocks : List (Array Binary32)}
    (h : ∀ block ∈ blocks, engine.outputCount ∣ block.size) :
    let count := (blocks.map Array.size).sum / engine.outputCount
    engine.renderAll blocks = (tick^[count] engine, ⟨(engine.signal count).toArray, count⟩) := by
  induction blocks generalizing engine with
  | nil => simp [renderAll, signal]
  | cons block blocks ih =>
    obtain ⟨hblock, hblocks⟩ := List.forall_mem_cons.1 h
    let first := block.size / engine.outputCount
    let later := (blocks.map Array.size).sum / engine.outputCount
    have hcount : ((block :: blocks).map Array.size).sum / engine.outputCount = first + later := by
      rw [List.map_cons, List.sum_cons, Nat.add_div_of_dvd_right hblock]
    have hlater : (tick^[first] engine).renderAll blocks =
        (tick^[later] (tick^[first] engine),
          ⟨((tick^[first] engine).signal later).toArray, later⟩) := by
      have hblocks' : ∀ b ∈ blocks, (tick^[first] engine).outputCount ∣ b.size := by
        rwa [outputCount_iterate_tick]
      have hrest := ih hblocks'
      rwa [outputCount_iterate_tick] at hrest
    have hengine : tick^[later] (tick^[first] engine) = tick^[first + later] engine := by
      rw [Nat.add_comm, Function.iterate_add_apply]
    dsimp only
    rw [hcount, renderAll_cons (render_of_dvd hblock) hlater, signal_add, hengine,
      List.append_toArray]

/-- To render a buffer is to run a tick for each whole frame, with the samples after the tick
    in the frame, and to say how many frames those are, and nothing else: what is left of the
    buffer stays, and the engine is where the ticks have left it. So it makes no difference in
    how many buffers of whole frames a signal is rendered. -/
theorem render_eq_ticks (engine : Engine) :
    (∀ buffer : Array Binary32,
      let after := (engine.render buffer).1
      let rendered := (engine.render buffer).2
      let count := rendered.frames
      count = buffer.size / engine.outputCount ∧ after = tick^[count] engine ∧
      rendered.size = buffer.size ∧
      (∀ frame < count, ∀ channel < engine.outputCount,
        rendered.toArray[frame * engine.outputCount + channel]? =
          (tick^[frame + 1] engine).sample? channel) ∧
      ∀ i, count * engine.outputCount ≤ i → rendered.toArray[i]? = buffer[i]?) ∧
    ∀ (blocks : List (Array Binary32)) (whole : Array Binary32),
      (∀ block ∈ blocks, engine.outputCount ∣ block.size) →
      whole.size = (blocks.map Array.size).sum →
      engine.renderAll blocks = engine.render whole := by
  refine ⟨fun buffer => ?_, fun blocks whole hblocks hsize => ?_⟩
  · dsimp only
    rw [frames_render]
    exact ⟨rfl, by rw [render_eq], size_render engine buffer,
      fun _ hframe _ hchannel => getElem?_render hframe hchannel,
      fun _ hi => getElem?_render_of_le hi⟩
  · have hwhole : engine.outputCount ∣ whole.size := by
      refine hsize ▸ List.dvd_sum fun size hmem => ?_
      obtain ⟨block, hblock, rfl⟩ := List.mem_map.1 hmem
      exact hblocks block hblock
    rw [renderAll_of_dvd hblocks, render_of_dvd hwhole, hsize]

/-- Two roots of the loop. Of a buffer of five words, the last one stays, and a second buffer
    of whole frames goes on from where an empty one left the engine. -/
theorem render_eq_ticks_loop : ∃ plan, Plan.compile .loop [⟨⟨2⟩, 0⟩, ⟨⟨1⟩, 0⟩] = .ok plan ∧
    let engine := ofPlan plan
    let rendered := (engine.render #[7, 7, 7, 7, 7]).2
    (engine.render #[7, 7, 7, 7, 7]).1 = engine.tick.tick ∧ rendered.frames = 2 ∧
    rendered.toArray[3]? = engine.tick.tick.sample? 1 ∧ rendered.toArray[4]? = some 7 ∧
    engine.renderAll [#[], #[7, 7], #[7, 7]] = engine.render #[0, 0, 0, 0] := by
  obtain ⟨plan, hplan⟩ := Plan.exists_compile_eq_ok Patch.resolution_loop_listener
  obtain ⟨r, hc⟩ := Plan.compile_eq_ok hplan
  have hcount : (ofPlan plan).outputCount = 2 := hc.outputSlots.length_eq.symm
  obtain ⟨hrender, hblocks⟩ := render_eq_ticks (ofPlan plan)
  obtain ⟨hframes, hengine, -, hframe, hrest⟩ := hrender #[7, 7, 7, 7, 7]
  rw [hcount] at hframes hframe hrest
  rw [hframes] at hengine hframe hrest
  refine ⟨plan, hplan, hengine, hframes, hframe 1 (by decide) 1 (by decide), hrest 4 (by decide),
    hblocks _ _ ?_ rfl⟩
  rw [hcount]
  decide

end Engine

end SignalGraph
