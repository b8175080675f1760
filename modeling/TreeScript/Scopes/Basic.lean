import TreeScript.Scopes.Frame

/-!
# Scopes

The variables in sight stand in a stack of frames, one for each open scope. The
outermost frame holds the globals and is never dropped, so a stack is an
innermost frame and the frames around it. A lookup and an assignment stop at the
innermost frame that binds the name; a definition always goes to the innermost
frame.
-/

namespace TreeScript

/-- The open scopes, the innermost first. -/
structure Scopes where
  innermost : Frame
  enclosing : List Frame

namespace Scopes

/-- The global scope alone, without variables. -/
def initial : Scopes :=
  ⟨.empty, []⟩

/-- All frames, the innermost first. -/
def frames (s : Scopes) : List Frame :=
  s.innermost :: s.enclosing

/-- The number of open scopes, with the global one. -/
def depth (s : Scopes) : Nat :=
  s.frames.length

/-- Opens a scope. -/
def push (s : Scopes) : Scopes :=
  ⟨.empty, s.frames⟩

/-- Closes the innermost scope, unless it is the global one. -/
def pop (s : Scopes) : Scopes :=
  match s.enclosing with
  | [] => s
  | frame :: frames => ⟨frame, frames⟩

/-- Binds a name in the innermost scope. -/
def define (s : Scopes) (name : String) (value : Value) : Scopes :=
  ⟨s.innermost.insert name value, s.enclosing⟩

/-- Binds a name to the unit in the innermost scope. -/
def declare (s : Scopes) (name : String) : Scopes :=
  s.define name .unit

/-- The value of a name in the innermost scope that binds it. -/
def get? (s : Scopes) (name : String) : Option Value :=
  s.frames.findSome? (·.get? name)

/-- Rebinds a name in the first frame that binds it. -/
def rebind? (name : String) (value : Value) : List Frame → Option (List Frame)
  | [] => none
  | frame :: frames =>
    if frame.binds name then some (frame.insert name value :: frames)
    else (rebind? name value frames).map (frame :: ·)

/-- Rebinds a name in the innermost scope that binds it, if there is one. -/
def assign? (s : Scopes) (name : String) (value : Value) : Option Scopes :=
  if s.innermost.binds name then some (s.define name value)
  else (rebind? name value s.enclosing).map (⟨s.innermost, ·⟩)

@[simp] theorem pop_push (s : Scopes) : s.push.pop = s :=
  rfl

@[simp] theorem depth_push (s : Scopes) : s.push.depth = s.depth + 1 :=
  rfl

@[simp] theorem depth_define (s : Scopes) (name : String) (value : Value) :
    (s.define name value).depth = s.depth :=
  rfl

/-- A new scope hides nothing. -/
@[simp] theorem get?_push (s : Scopes) (name : String) : s.push.get? name = s.get? name :=
  rfl

@[simp] theorem get?_define (s : Scopes) (name : String) (value : Value) (x : String) :
    (s.define name value).get? x = if x = name then some value else s.get? x := by
  unfold get? frames define
  by_cases h : x = name <;> simp [List.findSome?_cons, h]

/-- A frame that does not bind a name is left alone by its assignment. -/
theorem rebind?_cons_of_not_binds {name : String} {frame : Frame} (h : frame.binds name = false)
    (value : Value) (frames : List Frame) :
    rebind? name value (frame :: frames) = (rebind? name value frames).map (frame :: ·) := by
  simp [rebind?, h]

/-- The frame that an assignment changes is the first that binds the name. -/
theorem rebind?_cons_of_binds {name : String} {frame : Frame} (h : frame.binds name = true)
    (value : Value) (frames : List Frame) :
    rebind? name value (frame :: frames) = some (frame.insert name value :: frames) := by
  simp [rebind?, h]

end Scopes

end TreeScript
