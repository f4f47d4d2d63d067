/-!
# Gaps

A tree that was built by hand may have places left empty. It has no text: `Gap.message` names the
first of these places, from left to right, that stops the writing.
-/

namespace AnnotatedScheme

/-- what should have stood in the empty place -/
inductive Gap
  | datum
  | value
  | type
  | expression
  | environments
  deriving DecidableEq

def Gap.message : Gap → String
  | .datum => "Not an s-expression: None"
  | .value => "Unknown quoted value: None"
  | .type => "Not a type expression: None"
  | .expression => "Unknown node: None"
  | .environments => "Not a type environment: None, None"

/-- a text, unless there is a gap in what it is the text of -/
def Gap.orText (gap? : Option Gap) (text : String) : Except Gap String :=
  match gap? with
  | some gap => .error gap
  | none => .ok text

theorem Gap.orText_of_eq_none {gap? : Option Gap} (h : gap? = none) (text : String) :
    Gap.orText gap? text = .ok text := by
  rw [h]
  rfl

end AnnotatedScheme
