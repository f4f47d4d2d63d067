/-!
# Line ends

A line may end with a line feed, a carriage return, or both in this order. `LineEnd.unify` makes
every line end a line feed.
-/

namespace AnnotatedScheme.LineEnd

/-- a line feed right behind a carriage return adds nothing -/
def unifyBehind (afterReturn : Bool) : List Char → List Char
  | [] => []
  | c :: rest =>
    if c = '\r' then '\n' :: unifyBehind true rest
    else if afterReturn ∧ c = '\n' then unifyBehind false rest
    else c :: unifyBehind false rest

def unify (text : List Char) : List Char := unifyBehind false text

theorem unify_of_not_mem {text : List Char} (h : '\r' ∉ text) : unify text = text := by
  unfold unify
  induction text with
  | nil => rfl
  | cons c rest ih =>
    simp only [List.mem_cons, not_or] at h
    simp [unifyBehind, Ne.symm h.1, ih h.2]

end AnnotatedScheme.LineEnd
