import HookScript.Heap.Basic

/-!
Names at run time. A name is looked for a given number of frames out first, and then in every frame from the
innermost one on.
-/

namespace HookScript.Heap

def newFrame (heap : Heap) (parent : Option FrameId) : FrameId × Heap :=
  (⟨heap.frames.size⟩, { heap with frames := heap.frames.push ⟨.empty, parent⟩ })

/-- The frame around a frame. It is always the older of the two, so going outwards comes to an end. -/
def parent? (heap : Heap) (frame : FrameId) : Option FrameId :=
  match heap.frames[frame.index]? with
  | some f => f.parent.filter (·.index < frame.index)
  | none => none

theorem parent?_index_lt {heap : Heap} {frame parent : FrameId} (h : heap.parent? frame = some parent) :
    parent.index < frame.index := by
  unfold parent? at h
  split at h
  · simpa using (Option.filter_eq_some_iff.1 h).2
  · cases h

def chain (heap : Heap) (frame : FrameId) : List FrameId :=
  match _outer : heap.parent? frame with
  | some parent => frame :: chain heap parent
  | none => [frame]
termination_by frame.index
decreasing_by exact parent?_index_lt _outer

def binding? (heap : Heap) (frame : FrameId) (name : String) : Option Value :=
  match heap.frames[frame.index]? with
  | some f => f.names.get? name
  | none => none

/-- Binds a name in a frame, whether or not it was bound there before. -/
def declare (heap : Heap) (frame : FrameId) (name : String) (value : Value) : Heap :=
  { heap with
    frames := heap.frames.modify frame.index fun f => { f with names := f.names.insert name value } }

def declareAll (heap : Heap) (frame : FrameId) : List (String × Value) → Heap
  | [] => heap
  | (name, value) :: rest => declareAll (heap.declare frame name value) frame rest

def ancestor? (heap : Heap) (frame : FrameId) (level : Nat) : Option FrameId := (heap.chain frame)[level]?

def lookup? (heap : Heap) (frame : FrameId) (name : String) : Option Value :=
  (heap.chain frame).findSome? fun f => heap.binding? f name

/-- The value of a name `level` steps out, or else its innermost value. -/
def get? (heap : Heap) (frame : FrameId) (level : Nat) (name : String) : Option Value :=
  match (heap.ancestor? frame level).bind fun f => heap.binding? f name with
  | some value => some value
  | none => heap.lookup? frame name

/-- The frame in which an assignment to a name takes place: `level` steps out, or else the innermost that
binds the name. -/
def assignee? (heap : Heap) (frame : FrameId) (level : Nat) (name : String) : Option FrameId :=
  match (heap.ancestor? frame level).filter fun f => (heap.binding? f name).isSome with
  | some f => some f
  | none => (heap.chain frame).find? fun f => (heap.binding? f name).isSome

def assign? (heap : Heap) (frame : FrameId) (level : Nat) (name : String) (value : Value) : Option Heap :=
  (heap.assignee? frame level name).map fun f => heap.declare f name value

end HookScript.Heap
