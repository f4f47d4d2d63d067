import AnnotatedScheme.Proofs.Ty.Grammar

/-!
# Which types are read back from their texts

A variable may have any name, and a text with odd names in it can be that of a quite different type.
`Ty.IsPlain` says what it takes that this does not happen: the names are those of symbols that are
read as variables, and no procedure has the only parameter `Empty`. Just these types are read back
from their texts (`ofText_written_iff`). What is read is plain anyway, so that an accident never
gives back the type whose text it was.
-/

namespace AnnotatedScheme.Ty

/-- a name that is read as one symbol, and as a variable where a type stands -/
def IsIdentifier (name : String) : Prop :=
  Datum.read name = .ok (.symbol name) ∧
    name ∉ ["number", "boolean", "string", "void", "Empty", "->", "*", "Pair", ":", "."]

structure IsPlain (t : Ty) : Prop where
  complete : t.hasGap = false
  identifiers : ∀ name ∈ t.names, IsIdentifier name
  parameters : t.hasLoneEmpty = false

theorem isIdentifier_iff {name : String} : IsIdentifier name ↔ IsReadName name := by
  constructor
  · rintro ⟨hread, hname⟩
    have hsymbol : IsSymbol name := by
      cases (Datum.isRead_of_read hread).over with
      | atom h => exact h name rfl
    refine ⟨hsymbol, ofSymbol?_of_not_mem (fun hmem => hname ?_) fun hmem => hname ?_⟩
    · exact List.mem_append_left ["->", "*", "Pair", ":", "."] hmem
    · exact List.mem_append_right ["number", "boolean", "string", "void", "Empty"] hmem
  · intro h
    refine ⟨(Datum.readable_symbol h.isSymbolName).spelled.read, fun hmem => ?_⟩
    have hall : ∀ x ∈ ["number", "boolean", "string", "void", "Empty", "->", "*", "Pair", ":", "."],
        ofSymbol? x ≠ some (.var x) := by decide
    exact hall name hmem h.2

theorem isPlain_iff {t : Ty} : t.IsPlain ↔ t.Over IsReadName ∧ t.hasLoneEmpty = false := by
  rw [over_iff, and_assoc]
  constructor
  · rintro ⟨hcomplete, hnames, hparams⟩
    exact ⟨hcomplete, fun name hname => isIdentifier_iff.mp (hnames name hname), hparams⟩
  · rintro ⟨hcomplete, hnames, hparams⟩
    exact ⟨hcomplete, fun name hname => isIdentifier_iff.mpr (hnames name hname), hparams⟩

theorem over_of_ofText {text : String} {t : Ty} (h : ofText text = .ok t) :
    t.Over IsReadName := by
  unfold ofText at h
  cases hread : Datum.read text with
  | error e =>
    rw [hread] at h
    cases h
  | ok d =>
    rw [hread] at h
    exact over_of_ofDatum (Datum.isRead_of_read hread).over (Except.mapError_eq_ok_iff.mp h)

theorem Over.written {P : String → Prop} {t : Ty} (h : t.Over P) : t.written = .ok t.text :=
  Gap.orText_of_eq_none h.gap? t.text

theorem IsPlain.ofText_text {t : Ty} (h : t.IsPlain) : ofText t.text = .ok t := by
  obtain ⟨hover, hparams⟩ := isPlain_iff.mp h
  rw [hover.ofText_text, normal_eq_self_iff.mpr hparams]

/-- A type that is read from its own text is plain, for what is read has no other names, and no
parameters `Empty` that stand alone. -/
theorem isPlain_of_ofText_text {t : Ty} (h : ofText t.text = .ok t) : t.IsPlain := by
  have hover := over_of_ofText h
  have hnormal : t.normal = t := Except.ok.inj (hover.ofText_text.symm.trans h)
  exact isPlain_iff.mpr ⟨hover, normal_eq_self_iff.mp hnormal⟩

/-- A type has a text from which it is read back just if it is plain, and two plain types never have
the same text. -/
theorem ofText_written_iff (t : Ty) :
    ((∃ text, t.written = .ok text ∧ ofText text = .ok t) ↔ t.IsPlain) ∧
      ∀ u : Ty, t.IsPlain → u.IsPlain → t.written = u.written → t = u := by
  refine ⟨⟨fun h => ?_, fun h => ?_⟩, fun u ht hu heq => ?_⟩
  · obtain ⟨text, hwritten, hread⟩ := h
    have htext := (over_of_ofText hread).written
    obtain rfl := Except.ok.inj (hwritten.symm.trans htext)
    exact isPlain_of_ofText_text hread
  · exact ⟨t.text, (isPlain_iff.mp h).1.written, h.ofText_text⟩
  · rw [(isPlain_iff.mp ht).1.written, (isPlain_iff.mp hu).1.written] at heq
    have hread := ht.ofText_text
    rw [Except.ok.inj heq, hu.ofText_text] at hread
    exact (Except.ok.inj hread).symm

/-- A name can look like a pair type: of the two types with this text, only the pair is plain. -/
theorem ofText_written_lookalikes :
    (Ty.pair (.var "a") (.var "b")).IsPlain ∧ ¬(Ty.var "(Pair a b)").IsPlain ∧
      (Ty.var "(Pair a b)").written = (Ty.pair (.var "a") (.var "b")).written := by
  have hread : ofText "(Pair a b)" = .ok (.pair (.var "a") (.var "b")) :=
    Except.toOption_eq_some_iff.mp (by decide +kernel)
  have hpair : (Ty.pair (.var "a") (.var "b")).written = .ok "(Pair a b)" :=
    Except.toOption_eq_some_iff.mp (by decide +kernel)
  have hvar : (Ty.var "(Pair a b)").written = .ok "(Pair a b)" := rfl
  refine ⟨(ofText_written_iff _).1.mp ⟨_, hpair, hread⟩, fun hplain => ?_, hvar.trans hpair.symm⟩
  obtain ⟨text, hwritten, hback⟩ := (ofText_written_iff _).1.mpr hplain
  obtain rfl := Except.ok.inj (hvar.symm.trans hwritten)
  rw [hread] at hback
  cases hback

end AnnotatedScheme.Ty
