import AnnotatedScheme.Proofs.Ty.Reader
import AnnotatedScheme.Proofs.Typing.Call
import AnnotatedScheme.Proofs.Typing.Ordinary
import AnnotatedScheme.Typing.Verdict

/-!
# Computed types are read back

The type of a source text has variables that are symbols: those of the annotations, `literal`, and
numbered names, which are symbols as well (`isReadName_of_isGenerated`). So its text is read back as
its normal form.
-/

namespace AnnotatedScheme

/-! ## generated names -/

theorem ofSymbol?_of_underscore {name : String} (h : '_' ∈ name.toList) :
    Ty.ofSymbol? name = some (.var name) := by
  have hne : ∀ other : String, '_' ∉ other.toList → name ≠ other := by
    rintro other hother rfl
    exact hother h
  have hname : Ty.ofName? name = none := by
    rw [Ty.ofName?, if_neg (hne _ (by decide)), if_neg (hne _ (by decide)),
      if_neg (hne _ (by decide)), if_neg (hne _ (by decide)), if_neg (hne _ (by decide))]
  rw [Ty.ofSymbol?, hname]
  simp [Ty.reservedNames, hne "->" (by decide), hne "*" (by decide), hne "Pair" (by decide),
    hne ":" (by decide), hne "." (by decide)]

theorem isSymbolName_candidate {base : String} (h : base ∈ ["T", "T1", "T2"]) (index : Nat) :
    isSymbolName (Supply.candidate base index) = true := by
  obtain ⟨front, hbase, hfront⟩ : ∃ front, base.toList = 'T' :: front ∧
      ∀ d ∈ front, endsAtom d = false ∧ isForbidden d = false := by
    simp only [List.mem_cons, List.not_mem_nil, or_false] at h
    rcases h with rfl | rfl | rfl
    · exact ⟨[], rfl, List.forall_mem_nil _⟩
    · exact ⟨['1'], rfl, List.forall_mem_singleton.mpr (by decide)⟩
    · exact ⟨['2'], rfl, List.forall_mem_singleton.mpr (by decide)⟩
  have htext := Supply.toList_candidate base index
  rw [hbase, List.cons_append] at htext
  refine isSymbolName_iff.mpr ⟨'T', _, htext, by decide, by decide, fun heq => ?_, fun d hd => ?_,
    rfl⟩
  · rw [heq] at htext
    cases htext
  · rcases List.mem_append.mp hd with hd | hd
    · exact hfront d hd
    rcases List.mem_cons.mp hd with rfl | hd
    · decide
    · have hdigit := Nat.isDigit_of_mem_toDigits (by decide) (by decide) hd
      exact stays_of_isDecimalDigit (isDecimalDigit_of_isDigit hdigit)

theorem isReadName_of_isGenerated {name : String} (h : IsGenerated name) : Ty.IsReadName name := by
  rcases h with rfl | ⟨base, hbase, index, rfl⟩
  · exact ⟨.inr (by decide), by decide⟩
  · exact ⟨.inr (isSymbolName_candidate hbase index),
      ofSymbol?_of_underscore (Supply.underscore_mem_candidate base index)⟩

/-! ## computed types -/

theorem typeOfText_eq_ok_iff {kind : Exp.Kind} {text : String} {t : Ty} :
    typeOfText kind text = .ok t ↔
      ∃ e, Exp.ofText kind text = .ok e ∧ e.typeIn .empty = .ok t := by
  unfold typeOfText
  cases Exp.ofText kind text with
  | error => simp
  | ok e => simp [Except.mapError_eq_ok_iff]

theorem over_of_typeOfText {kind : Exp.Kind} {text : String} {t : Ty}
    (h : typeOfText kind text = .ok t) : t.Over Ty.IsReadName := by
  obtain ⟨e, built, typed⟩ := typeOfText_eq_ok_iff.mp h
  obtain ⟨s', hyields⟩ := Call.start_yields_iff.mpr typed
  have keeps : Keeps IsSymbol Ty.IsReadName := ⟨fun _ => id, fun _ => isReadName_of_isGenerated⟩
  have henv : Env.empty.Over Ty.IsReadName := fun _ hframe => absurd hframe List.not_mem_nil
  have hensures := (Exp.isProgram_of_ofText built).ensures keeps henv (Call.start .empty e).supply
  change e.typeOf .empty (Call.start .empty e).supply = _ at hyields
  rw [hyields] at hensures
  exact hensures

/-- The text of a computed type is read back as the type, unless a procedure in it has `Empty` for
its only parameter, and then as the type without that parameter; two computed types have the same
text just if they are the same but for such parameters. -/
theorem printed_type_reads_back {kind : Exp.Kind} {text : String} {t : Ty}
    (h : typeOfText kind text = .ok t) :
    t.written = .ok t.text ∧ Ty.ofText t.text = .ok t.normal ∧
      (Ty.ofText t.text = .ok t ↔ t.hasLoneEmpty = false) ∧
      ∀ {kind' : Exp.Kind} {text' : String} {t' : Ty}, typeOfText kind' text' = .ok t' →
        (t.text = t'.text ↔ t.normal = t'.normal) := by
  have hover := over_of_typeOfText h
  have hread : Ty.ofText t.text = .ok t.normal := hover.ofText_text
  have hwritten : t.written = .ok t.text := by
    rw [Ty.written, hover.gap?]
    rfl
  refine ⟨hwritten, hread, ?_, fun {kind' text' t'} h' => ⟨fun heq => ?_, fun heq => ?_⟩⟩
  · rw [hread, Except.ok.injEq, Ty.normal_eq_self_iff]
  -- the text determines what is read from it
  · have hread' : Ty.ofText t'.text = .ok t'.normal := (over_of_typeOfText h').ofText_text
    rw [← heq, hread] at hread'
    exact Except.ok.inj hread'
  · rw [← Ty.text_normal t, heq, Ty.text_normal]

theorem printed_type_of_lone_empty :
    typeOfText .form "(lambda ((x : Empty)) : boolean #t)" = .ok (.proc [.empty] .boolean) ∧
      Ty.ofText (Ty.proc [.empty] .boolean).text = .ok (.proc [] .boolean) ∧
      Ty.ofText (Ty.proc [.empty] .boolean).text ≠ .ok (.proc [.empty] .boolean) := by
  have h : typeOfText .form "(lambda ((x : Empty)) : boolean #t)" =
      .ok (.proc [.empty] .boolean) := Except.toOption_eq_some_iff.mp (by decide +kernel)
  obtain ⟨-, hread, hiff, -⟩ := printed_type_reads_back h
  exact ⟨h, hread, fun heq => absurd (hiff.mp heq) (by decide)⟩

end AnnotatedScheme
