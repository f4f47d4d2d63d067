import AnnotatedScheme.Ty.Basic

/-!
# Type environments

An environment is a chain of frames, the innermost one first; a frame gives types to variables.

* `Env.lookup`   the type in the nearest frame that binds a variable, if it has one;
* `Env.combine`  the first frame of one environment on top of another, without what is bound there.

A variable whose type is a gap counts as unbound, though it hides the bindings further out.
-/

namespace AnnotatedScheme

abbrev Frame := List (String × Ty)

structure Env where
  frames : List Frame
  deriving DecidableEq

namespace Env

def empty : Env := ⟨[]⟩

def extend (frame : Frame) (env : Env) : Env := ⟨frame :: env.frames⟩

def lookup (env : Env) (name : String) : Option Ty :=
  (env.frames.findSome? (List.lookup name)).filter (· ≠ .gap)

/-- the bindings of a frame whose type mentions a type variable of the name of the variable -/
def recursive? (frame : Frame) : Option String :=
  (frame.find? fun (name, t) => t.occurs name).map Prod.fst

/-- what is left of a frame without the variables that are bound in `env` -/
def unbound (env : Env) (frame : Frame) : Frame :=
  frame.filter fun (name, _) => (env.lookup name).isNone

/-- the environment `first` with the innermost frame of `second` on top, as far as it binds other
variables; if one of the two is empty, the other one as it is. A variable of that frame whose type
mentions a type variable of its own name is an error, and the result is that name. -/
def combine (first second : Env) : Except String Env :=
  match first.frames, second.frames with
  | [], _ => .ok second
  | _, [] => .ok first
  | _, frame :: _ =>
    match recursive? frame with
    | some name => .error name
    | none => .ok (first.extend (first.unbound frame))

/-- the type variables in an environment -/
def names (env : Env) : List String :=
  env.frames.flatMap fun frame => frame.flatMap fun (_, t) => t.names

/-! ## look-up -/

theorem lookup_empty (name : String) : empty.lookup name = none := rfl

theorem lookup_extend (frame : Frame) (env : Env) (name : String) :
    (env.extend frame).lookup name =
      match frame.lookup name with
      | some t => if t = .gap then none else some t
      | none => env.lookup name := by
  unfold lookup extend
  simp only [List.findSome?_cons]
  cases frame.lookup name with
  | none => rfl
  | some t => by_cases h : t = .gap <;> simp [Option.filter, h]

end Env

end AnnotatedScheme
