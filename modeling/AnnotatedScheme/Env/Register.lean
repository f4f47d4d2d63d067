import AnnotatedScheme.Env.Basic
import AnnotatedScheme.Typing.Error

/-!
# A register of environments

Environments that are built alike are equal, and may still be two. The register numbers all
environments in the order in which they are made, and knows of each which one it is: `combine` with
an empty environment makes no new one, but hands out the other operand.

An operand may be left out. What is put on top of nothing has no empty environment at its end; it
binds what the same frames on an empty environment bind, and is not built alike.
-/

namespace AnnotatedScheme.Env

structure Made where
  identity : Nat
  env : Env
  /-- whether an empty environment is at the end -/
  ends : Bool
  deriving DecidableEq

structure Register where
  entries : Array (Option Made)

namespace Register

def empty : Register := ⟨#[]⟩

def find (register : Register) (number : Option Nat) : Option Made :=
  (number.bind fun n => register.entries[n]?).join

def envOf (made : Option Made) : Env := (made.map Made.env).getD .empty

def size (register : Register) : Nat := register.entries.size

def add (register : Register) (made : Option Made) : Register := ⟨register.entries.push made⟩

/-- puts in an environment that is no other one -/
def addNew (register : Register) (env : Env) (ends : Bool) : Register :=
  register.add (some ⟨register.size, env, ends⟩)

def addEmpty (register : Register) : Register := register.addNew .empty true

/-- puts in an environment that stands on top of `made` -/
def addAbove (register : Register) (made : Option Made) (env : Env) : Register :=
  register.addNew env (made.any Made.ends)

def extend (register : Register) (number : Option Nat) (frame : Frame) : Register :=
  let made := register.find number
  register.addAbove made ((envOf made).extend frame)

inductive Fault
  | gap
  | typing (error : TypingError)

def Fault.message : Fault → Except Gap String
  | .gap => .error .environments
  | .typing error => error.message

def combine (register : Register) (first second : Option Nat) : Except Fault Register :=
  match register.find first, register.find second with
  | none, none => .error .gap
  | some a, b =>
    if a.env = .empty then .ok (register.add b)
    else
      match b with
      | none => .error .gap
      | some b =>
        if b.env = .empty then .ok (register.add (some a))
        else
          match a.env.combine b.env with
          | .ok env => .ok (register.addAbove (some a) env)
          | .error name => .error (.typing (.recursive name))
  | none, some b =>
    match b.env.frames with
    | [] => .ok (register.add none)
    | frame :: _ =>
      match recursive? frame with
      | none => .ok (register.addAbove none (Env.empty.extend frame))
      | some name => .error (.typing (.recursive name))

/-- whether two environments are built alike, and whether they are one -/
def compare (register : Register) (first second : Option Nat) : Bool × Bool :=
  let a := register.find first
  let b := register.find second
  let build (made : Made) := (made.env, made.ends)
  (a.map build = b.map build, a.map Made.identity = b.map Made.identity)

def lookup (register : Register) (number : Option Nat) (name : String) : Option Ty :=
  (envOf (register.find number)).lookup name

/-- the type of a variable, which must have one -/
def apply (register : Register) (number : Option Nat) (name : String) : Except TypingError Ty :=
  match register.lookup number name with
  | some t => .ok t
  | none => .error (.unbound name)

end Register

end AnnotatedScheme.Env
