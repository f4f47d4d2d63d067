import AnnotatedScheme.Proofs.Datum.Bounds
import AnnotatedScheme.Proofs.Exp.Fault
import AnnotatedScheme.Proofs.Typing.Adequacy
import AnnotatedScheme.Proofs.Typing.Printed

/-!
# Every source text has a verdict

A source text is accepted with a type or rejected with a message (`verdict_of_every_text`), unless
it has a numeral in it that is not converted. What each stage hands to the next one keeps the next
one from failing in any other way: data that were read have no gaps, so each error in their form has
a message; the trees built of them are those of the grammar, so the checker ends with a type that
has a text or with an ordinary error, and the frames it makes have a type for each name
(`Exp.FramesComplete`).
-/

namespace AnnotatedScheme

variable {Q : String → Prop}

/-! ## errors -/

/-- the failures of source texts: each has a message, and none is kept for trees built by hand -/
def Failure.IsOrdinary : Failure → Prop
  | .source (.read (.reader _)) => True
  | .source (.read (.overlong _)) => False
  | .source (.form e) => e.datum.gap? = none ∧ e.rule ≠ .knownAtom
  | .typing e => e.IsOrdinary

theorem FormError.Within.isOrdinary {d : Datum} {e : FormError} (h : e.Within d)
    (hd : d.Over Q) : (Failure.source (.form e)).IsOrdinary := by
  have hover := hd.within h.datum
  refine ⟨hover.gap?, fun hrule => ?_⟩
  rw [h.knownAtom hrule] at hover
  cases hover

theorem Failure.IsOrdinary.message {failure : Failure} (h : failure.IsOrdinary) :
    ∃ message, failure.message = .ok message := by
  match failure with
  | .source (.read (.reader e)) => exact ⟨e.message, rfl⟩
  | .source (.form e) => exact ⟨_, Gap.orText_of_eq_none h.1 _⟩
  | .typing e => exact ⟨e.text, Gap.orText_of_eq_none h.1 _⟩

theorem typeOfText_of_overlong {text : String} {numeral : Overlong}
    (h : Token.scan text = .error (.overlong numeral)) (kind : Exp.Kind) :
    typeOfText kind text = .error (.source (.read (.overlong numeral))) := by
  rw [typeOfText, Exp.ofText, Datum.read_eq_overlong_iff.mpr h]

theorem isOrdinary_of_typeOfText {kind : Exp.Kind} {text : String} {failure : Failure}
    (h : typeOfText kind text = .error failure) :
    failure.IsOrdinary ∨ ∃ numeral, Token.scan text = .error (.overlong numeral) := by
  unfold typeOfText at h
  cases hbuilt : Exp.ofText kind text with
  | error e =>
    rw [hbuilt] at h
    obtain rfl := Except.error.inj h
    cases e with
    | read reason =>
      cases reason with
      | reader => exact .inl trivial
      | overlong numeral =>
        exact .inr ⟨numeral, Datum.read_eq_overlong_iff.mp (Exp.read_of_ofText hbuilt)⟩
    | form e =>
      obtain ⟨d, hread, hwithin⟩ := Exp.within_of_ofText hbuilt
      exact .inl (hwithin.isOrdinary (Datum.isRead_of_read hread).over)
  | ok e =>
    rw [hbuilt] at h
    left
    have keeps : Keeps IsSymbol Ty.IsReadName := ⟨fun _ => id, fun _ => isReadName_of_isGenerated⟩
    have henv : Env.empty.Over Ty.IsReadName := fun _ hframe => absurd hframe List.not_mem_nil
    have hensures := (Exp.isProgram_of_ofText hbuilt).ensures keeps henv
      (Supply.start (e.names ++ Env.empty.names))
    dsimp only at h
    unfold Exp.typeIn Check.outcome EStateM.run at h
    split at h
    · cases h
    · rename_i error s hcheck
      rw [hcheck] at hensures
      obtain rfl := Except.error.inj h
      exact hensures

/-! ## frames -/

namespace Exp

/-- the frame that an expression makes has a type for each variable that is bound there -/
def FramesComplete : Exp → Prop
  | .lambda params _ _ => ∃ frame, frame? params = some frame ∧ params = decls frame
  | .letIn bindings _ => ∃ frame, boundFrame? bindings = some frame ∧
      bindings.map (fun b => b.bound?.bind fun p => p.1.declared?) = frame.map some
  | .letrec bindings _ => ∀ frame, lambdaFrame? bindings = some frame →
      bindings.map (fun b => b.bound?.bind fun p => p.1.variableName?) =
          frame.map (fun p => some p.1) ∧
        bindings.map (fun b => b.bound?.bind fun p => p.2.lambdaType?) =
          frame.map fun p => some p.2
  | _ => True

theorem framesComplete_letrec (bounds : List Bound) (body : List Exp) :
    (letrec (bounds.map Bound.binding) body).FramesComplete := by
  intro frame hframe
  induction bounds generalizing frame with
  | nil =>
    obtain rfl := Option.some.inj hframe
    exact ⟨rfl, rfl⟩
  | cons b rest ih =>
    obtain ⟨d, value, t, tail, hb, ht, htail, rfl⟩ := lambdaFrame?_cons_eq_some_iff.mp hframe
    obtain ⟨rfl, rfl⟩ := Prod.mk.inj (Option.some.inj hb)
    obtain ⟨hnames, htypes⟩ := ih tail htail
    refine ⟨?_, ?_⟩
    · rw [List.map_cons, List.map_cons, hnames]
      rfl
    · rw [List.map_cons, List.map_cons, htypes, hb, Option.bind_some, ht]
      rfl

theorem IsExpression.framesComplete {e : Exp} (h : e.IsExpression Q) : e.FramesComplete := by
  cases h with
  | @lambda params => exact ⟨params, frame?_decls params, rfl⟩
  | @letIn bounds =>
    have hframe := boundFrame?_map_binding bounds
    exact ⟨_, hframe, mapM_eq_some_iff.mp hframe⟩
  | @letrec bounds body => exact framesComplete_letrec bounds body
  | _ => trivial

theorem IsForm.framesComplete {e : Exp} (h : e.IsForm Q) {part : Exp} (within : Within part e) :
    part.FramesComplete := by
  induction within with
  | refl =>
    cases h with
    | expression h => exact h.framesComplete
    | define => trivial
  | part hnext _ ih => exact ih (.expression (h.part hnext))

theorem IsProgram.framesComplete {e : Exp} (h : e.IsProgram Q) {part : Exp}
    (within : Within part e) : part.FramesComplete := by
  cases h with
  | form h => exact h.framesComplete within
  | program _ hforms =>
    cases within with
    | refl => trivial
    | part hnext within => exact (hforms _ hnext).framesComplete within

end Exp

/-! ## verdicts -/

theorem Failure.IsOrdinary.verdict {failure : Failure} (h : failure.IsOrdinary) {kind : Exp.Kind}
    {text message : String} (failed : typeOfText kind text = .error failure)
    (hmessage : failure.message = .ok message) :
    Verdict.ofText kind text = .ok (.failure message) := by
  unfold Verdict.ofText
  rw [failed]
  match failure, h with
  | .source (.read (.reader _)), _ | .source (.form _), _ | .typing _, _ =>
    dsimp only
    rw [hmessage]
    rfl

theorem verdict_ofText_of_overlong {text : String} {numeral : Overlong}
    (h : Token.scan text = .error (.overlong numeral)) (kind : Exp.Kind) :
    Verdict.ofText kind text = .error (.overlong numeral) := by
  rw [Verdict.ofText, typeOfText_of_overlong h]

/-- The verdict on a text is the text of its type, or the message of its failure, unless a numeral
is refused. -/
theorem verdict_ofText_cases (kind : Exp.Kind) (text : String) :
    (∃ t, typeOfText kind text = .ok t ∧ Verdict.ofText kind text = .ok (.ok t.text)) ∨
      (∃ failure message, typeOfText kind text = .error failure ∧ failure.message = .ok message ∧
        Verdict.ofText kind text = .ok (.failure message)) ∨
      ∃ numeral, Token.scan text = .error (.overlong numeral) := by
  cases h : typeOfText kind text with
  | ok t =>
    have hwritten : t.written = .ok t.text :=
      Gap.orText_of_eq_none (over_of_typeOfText h).gap? t.text
    refine .inl ⟨t, rfl, ?_⟩
    rw [Verdict.ofText, h]
    dsimp only
    rw [hwritten]
    rfl
  | error failure =>
    rcases isOrdinary_of_typeOfText h with ordinary | overlong
    · obtain ⟨message, hmessage⟩ := ordinary.message
      exact .inr (.inl ⟨failure, message, rfl, hmessage, ordinary.verdict h hmessage⟩)
    · exact .inr (.inr overlong)

/-- Every text has a verdict, with either a type or a message, unless the scanner comes to a numeral
of more than `digitLimit` digits that is not converted. On the way to the verdict
* only ordinary failures occur;
* the tree that is built has a text, and the frames for all expressions in it are complete;
* the position in the list of tokens does not run past its end: what the reader finds wrong with
  tokens, be it that there are no more of them, is wrong in the line of a token that it has taken;
* the position in the text does not run past its end at the last character of a token: this is one
  of the characters that are left;
* nor does it behind a backslash in a string: the escape that is unknown is the character there. -/
theorem verdict_of_every_text (kind : Exp.Kind) (text : String) :
    ((∃ verdict, Verdict.ofText kind text = .ok verdict ∧
        (verdict.type?.isSome ↔ verdict.success = true) ∧
        (verdict.message?.isSome ↔ verdict.success = false) ∧
        (verdict.success = true ↔ ∃ t, typeOfText kind text = .ok t)) ∨
      ∃ numeral, Token.scan text = .error (.overlong numeral) ∧ digitLimit < numeral.digits ∧
        numeral.digits ≤ text.length ∧
        Verdict.ofText kind text = .error (.overlong numeral)) ∧
    (∀ failure, typeOfText kind text = .error failure → failure.IsOrdinary ∨
      ∃ numeral, Token.scan text = .error (.overlong numeral) ∧
        failure = .source (.read (.overlong numeral))) ∧
    (∀ e, Exp.ofText kind text = .ok e →
      e.written = .ok e.text ∧ ∀ part, Exp.Within part e → part.FramesComplete) ∧
    (∀ tokens, Token.scan text = .ok tokens → ∀ error, Datum.ofTokens tokens = .error error →
      ∃ token ∈ tokens, token.line = error.line) ∧
    (∀ line c rest shape n, Token.shapeOf line c rest = .ok (shape, n) → n ≤ rest.length) ∧
    ∀ rest escape offset, Quoted.decode rest = .error (.invalidEscape escape offset) →
      rest[offset]? = some escape := by
  refine ⟨?_, fun failure failed => ?_, fun e built => ⟨?_, fun part => ?_⟩,
    fun _ _ _ => Datum.line_of_ofTokens, fun _ _ _ _ _ => Token.length_le_of_shapeOf,
    fun _ _ _ => Quoted.get_of_decode⟩
  · rcases verdict_ofText_cases kind text with
      ⟨t, typed, verdict⟩ | ⟨failure, message, failed, -, verdict⟩ | ⟨numeral, overlong⟩
    · exact .inl ⟨_, verdict, by simp [Verdict.ok, typed]⟩
    · exact .inl ⟨_, verdict, by simp [Verdict.failure, failed]⟩
    · obtain ⟨hlong, hlength⟩ := Token.bounds_of_scanFrom overlong
      rw [String.length_toList] at hlength
      exact .inr ⟨numeral, overlong, hlong, hlength, verdict_ofText_of_overlong overlong kind⟩
  · refine (isOrdinary_of_typeOfText failed).imp_right fun ⟨numeral, overlong⟩ => ?_
    have failed' := typeOfText_of_overlong overlong kind
    exact ⟨numeral, overlong, Except.error.inj (failed.symm.trans failed')⟩
  · exact Gap.orText_of_eq_none (Exp.isProgram_of_ofText built).gap? e.text
  · exact (Exp.isProgram_of_ofText built).framesComplete

end AnnotatedScheme
