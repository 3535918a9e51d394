/-
The store of frames.

A frame binds names and lies inside at most one outer frame. Frames are shared: closures and inner frames refer
to a frame by its number, and numbers are given in the order in which frames are made, so an outer frame has the
smaller number. The `chain` of a frame is the frame itself and the frames that it lies in, nearest first. A name
is found in the nearest frame of the chain that binds it, and binding a name changes one frame only: inner
frames hide the bindings of outer ones and never change them (`frame?_define`).
-/
import FrameLisp.Store.Bindings

namespace FrameLisp

/-- bindings and the frame around them, if there is one -/
structure Frame where
  bindings : Bindings
  outer : Option FrameId

/-- all frames made so far, by number -/
structure Store where
  frames : Array Frame

namespace Store

def empty : Store := ⟨#[]⟩

/-- how many frames there are; also the number of the next one -/
def size (s : Store) : Nat := s.frames.size

def frame? (s : Store) (id : FrameId) : Option Frame := s.frames[id]?

/-- the frame and the frames that it lies in, nearest first -/
def chain (s : Store) (id : FrameId) : List FrameId :=
  match s.frame? id with
  | none => []
  | some frame =>
    match frame.outer with
    | none => [id]
    | some outer => if outer < id then id :: chain s outer else [id]
termination_by id

/-- whether a frame itself binds a name -/
def binds (s : Store) (name : String) (id : FrameId) : Bool :=
  match s.frame? id with
  | none => false
  | some frame => frame.bindings.binds name

/-- the nearest frame of the chain that binds a name -/
def find? (s : Store) (id : FrameId) (name : String) : Option FrameId :=
  (s.chain id).find? (s.binds name)

/-- the value of a name in the nearest frame of the chain that binds it -/
def lookup? (s : Store) (id : FrameId) (name : String) : Option Datum :=
  ((s.find? id name).bind s.frame?).bind fun frame => frame.bindings.value? name

/-- a new frame with its bindings, inside `outer` if that is given; its number is the old size -/
def push (s : Store) (bindings : Bindings) (outer : Option FrameId) : Store :=
  ⟨s.frames.push ⟨bindings, outer⟩⟩

/-- changes the bindings of one frame -/
def update (s : Store) (id : FrameId) (change : Bindings → Bindings) : Store :=
  ⟨s.frames.modify id fun frame => { frame with bindings := change frame.bindings }⟩

/-- binds a name in one frame -/
def define (s : Store) (id : FrameId) (name : String) (value : Datum) : Store :=
  s.update id fun bindings => bindings.assign name value

@[simp] theorem size_push (s : Store) (bindings : Bindings) (outer : Option FrameId) :
    (s.push bindings outer).size = s.size + 1 := by
  simp [push, size]

@[simp] theorem size_update (s : Store) (id : FrameId) (change : Bindings → Bindings) :
    (s.update id change).size = s.size := by
  simp [update, size]

@[simp] theorem size_define (s : Store) (id : FrameId) (name : String) (value : Datum) :
    (s.define id name value).size = s.size := size_update ..

/-- a new frame changes no other one -/
theorem frame?_push (s : Store) (bindings : Bindings) (outer : Option FrameId) (id : FrameId) :
    (s.push bindings outer).frame? id = if id = s.size then some ⟨bindings, outer⟩ else s.frame? id :=
  Array.getElem?_push

theorem frame?_update (s : Store) (id : FrameId) (change : Bindings → Bindings) (other : FrameId) :
    (s.update id change).frame? other =
      if id = other then (s.frame? other).map fun frame => { frame with bindings := change frame.bindings }
      else s.frame? other := by
  simp only [update, frame?, Array.getElem?_modify]

/-- a root frame is alone in its chain -/
theorem chain_root {s : Store} {id : FrameId} {frame : Frame} (h : s.frame? id = some frame)
    (houter : frame.outer = none) : s.chain id = [id] := by
  rw [chain, h]
  simp [houter]

/-- the chain of a frame goes on with the chain of the frame around it -/
theorem chain_inner {s : Store} {id outer : FrameId} {frame : Frame} (h : s.frame? id = some frame)
    (houter : frame.outer = some outer) (hlt : outer < id) : s.chain id = id :: s.chain outer := by
  rw [chain, h]
  simp [houter, hlt]

/-- binding a name changes one frame -/
theorem frame?_define (s : Store) (id : FrameId) (name : String) (value : Datum) (other : FrameId) :
    (s.define id name value).frame? other =
      if id = other then (s.frame? other).map fun frame => { frame with bindings := frame.bindings.assign name value }
      else s.frame? other :=
  frame?_update ..

theorem frame?_eq_none_iff {s : Store} {id : FrameId} : s.frame? id = none ↔ s.size ≤ id := by
  simp [frame?, size]

end Store

end FrameLisp
