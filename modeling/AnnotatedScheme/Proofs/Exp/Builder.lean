import AnnotatedScheme.Proofs.Datum.Read
import AnnotatedScheme.Proofs.Exp.Grammar

/-!
# What is built of data has its shape

Data without gaps over names with `Q` give types, values and trees of the same kind
(`Ty.over_of_ofDatum`, `Value.Derives.over`, `Exp.Derives.trees`); a source text gives trees over
the names that the reader reads (`Exp.isProgram_of_ofText`).
-/

namespace AnnotatedScheme

variable {Q P : String → Prop}

theorem Datum.Over.items {items : List Datum} (h : (Datum.list items).Over Q) :
    ∀ d ∈ items, d.Over Q := by
  cases h with
  | list h => exact h

theorem Datum.Over.symbol? {d : Datum} (h : d.Over Q) {name : String}
    (hd : d.symbol? = some name) : Q name := by
  cases h with
  | @atom value h =>
    cases value with
    | symbol s =>
      obtain rfl := Option.some.inj hd
      exact h s rfl
    | _ => cases hd
  | list => cases hd

/-! ## types -/

namespace Ty

theorem over_of_ofSymbol? {name : String} {t : Ty} (h : Q name) (ht : ofSymbol? name = some t) :
    t.Over (IsTypeName Q) := by
  have hread := ht
  unfold ofSymbol? at ht
  cases hname : ofName? name with
  | some u =>
    rw [hname] at ht
    obtain rfl := Option.some.inj ht
    unfold ofName? at hname
    repeat' split at hname
    all_goals first | cases hname; constructor | cases hname
  | none =>
    rw [hname] at ht
    dsimp only at ht
    split at ht
    · cases ht
    · obtain rfl := Option.some.inj ht
      exact .var ⟨h, hread⟩

theorem everySecond_sublist {α : Type} (as : List α) : (everySecond as).Sublist as := by
  fun_induction everySecond as with
  | case1 => exact .refl _
  | case2 => exact .refl _
  | case3 a b rest ih => exact (ih.cons b).cons_cons a

theorem everySecond_map {α β : Type} (f : α → β) (as : List α) :
    everySecond (as.map f) = (everySecond as).map f := by
  fun_induction everySecond as with
  | case1 => rfl
  | case2 => rfl
  | case3 a b rest ih => simp [everySecond, ih]

/-- A list that is read as a type is a pair type, or a procedure type by its separators. -/
theorem ofDatum_list_eq_ok {items : List Datum} {t : Ty} (h : ofDatum (.list items) = .ok t) :
    (∃ b c first second, items = [.symbol "Pair", b, c] ∧ ofDatum b = .ok first ∧
      ofDatum c = .ok second ∧ t = .pair first second) ∨
    ∃ parts, brokenRule? items = none ∧ (everySecond items).map ofDatum = parts.map .ok ∧
      t = procOfParts parts := by
  rw [ofDatum, ofEach_eq_map] at h
  unfold ofItems at h
  split at h
  · rename_i _ first second hpair hitems
    left
    obtain ⟨a, b, c, rfl⟩ : ∃ a b c, items = [a, b, c] := by
      obtain ⟨a, _, rfl, -, hrest⟩ := List.map_eq_cons_iff.mp hitems
      obtain ⟨b, _, rfl, -, hrest⟩ := List.map_eq_cons_iff.mp hrest
      obtain ⟨c, _, rfl, -, hrest⟩ := List.map_eq_cons_iff.mp hrest
      obtain rfl := List.map_eq_nil_iff.mp hrest
      exact ⟨a, b, c, rfl⟩
    obtain rfl := Datum.isSymbol_iff.mp hpair
    simp only [List.map_cons, List.cons.injEq, Except.bind_eq_ok_iff, Except.pure_eq_ok_iff]
      at hitems h
    obtain ⟨-, rfl, rfl, -⟩ := hitems
    obtain ⟨first, hfirst, second, hsecond, rfl⟩ := h
    exact ⟨b, c, first, second, rfl, hfirst, hsecond, rfl⟩
  · split at h
    · split at h
      · cases h
      · rename_i hrule
        obtain ⟨parts, hmap, hproc⟩ := Except.bind_eq_ok_iff.mp h
        obtain rfl := Except.pure_eq_ok_iff.mp hproc
        rw [mapM_eq_ok_iff, List.map_id, everySecond_map] at hmap
        exact .inr ⟨parts, hrule, hmap, rfl⟩
    · cases h

theorem two_le_length_of_brokenRule? {items : List Datum} (h : brokenRule? items = none) :
    2 ≤ items.length := by
  unfold brokenRule? at h
  dsimp only at h
  split at h
  · cases h
  · omega

theorem over_procOfParts {parts : List Ty} (nonempty : parts ≠ []) (h : ∀ t ∈ parts, t.Over P) :
    (procOfParts parts).Over P := by
  refine .proc (fun p hp => ?_) (h _ ?_)
  · split at hp
    · exact absurd hp List.not_mem_nil
    · exact h p (List.dropLast_subset parts hp)
  · rw [List.getLastD_eq_getLast?, List.getLast?_eq_some_getLast nonempty]
    exact List.getLast_mem nonempty

theorem over_of_ofDatum {d : Datum} (hd : d.Over Q) {t : Ty} (h : ofDatum d = .ok t) :
    t.Over (IsTypeName Q) := by
  induction hd generalizing t with
  | @atom value hvalue =>
    cases value with
    | symbol name =>
      rw [ofDatum, ofAtom] at h
      split at h
      · rename_i u hu
        obtain rfl := Except.ok.inj h
        exact over_of_ofSymbol? (hvalue name rfl) hu
      · cases h
    | _ => cases h
  | @list items hitems ih =>
    rcases ofDatum_list_eq_ok h with
      ⟨b, c, first, second, rfl, hfirst, hsecond, rfl⟩ | ⟨parts, hrule, hmap, rfl⟩
    · exact .pair (ih b (by simp) hfirst) (ih c (by simp) hsecond)
    · refine over_procOfParts ?_ fun t ht => ?_
      · intro hparts
        subst hparts
        have hlen := two_le_length_of_brokenRule? hrule
        match items with
        | [] | [_] => simp at hlen
        | _ :: _ :: _ => simp [everySecond] at hmap
      · obtain ⟨d, hd, hdt⟩ := exists_of_map_eq hmap ht
        exact ih d ((everySecond_sublist items).subset hd) hdt

end Ty

/-! ## values -/

theorem Value.Over.asTail {v : Value} (h : v.Over Q) : v.asTail = v := by
  cases h <;> rfl

theorem Value.Derives.over {d : Datum} {v : Value} (h : Value.Derives d v) (hd : d.Over Q) :
    v.Over Q := by
  induction h with
  | atom =>
    cases hd with
    | atom hvalue => exact .atom hvalue
  | gap => cases hd
  | empty => exact .empty
  | tail _ ih =>
    have hv := ih (hd.items _ (by simp))
    rwa [hv.asTail]
  | cell _ _ ihf ihs =>
    refine .cell (ihf (hd.items _ List.mem_cons_self)) (ihs (.list fun d hmem => ?_))
    exact hd.items d (List.mem_cons_of_mem _ hmem)

/-! ## expressions, forms and programs -/

namespace Exp

/-- the trees of each category over names with `Q` -/
def Category.Trees (Q : String → Prop) : Category → Exp → Prop
  | .declaration, e => ∃ p : String × Ty, e = .decl p.1 p.2 ∧ IsDeclaration Q p
  | .binding, e => ∃ b : Bound, e = b.binding ∧ IsDeclaration Q b.declaration ∧
      b.value.IsExpression Q
  | .expression, e => e.IsExpression Q
  | .form, e => e.IsForm Q
  | .program, e => e.IsProgram Q

theorem Derives.trees {c : Category} {d : Datum} {e : Exp} (h : Derives c d e) (hd : d.Over Q) :
    c.Trees Q e := by
  induction h with
  | decl hx ht =>
    have hover := Ty.over_of_ofDatum (hd.items _ (by simp)) ht
    exact ⟨(_, _), rfl, (hd.items _ List.mem_cons_self).symbol? rfl, hx, hover⟩
  | binding _ _ ihd ihv =>
    obtain ⟨⟨x, t⟩, rfl, hdecl⟩ := ihd (hd.items _ (by simp))
    exact ⟨⟨x, t, _⟩, rfl, hdecl, ihv (hd.items _ (by simp))⟩
  | number value => exact .number value
  | boolean value => exact .boolean value
  | string content => exact .string content
  | primitive h => exact .primitive h
  | var h => exact .var (hd.symbol? rfl) h
  | conditional _ _ _ iht ihc iha =>
    exact .conditional (iht (hd.items _ (by simp))) (ihc (hd.items _ (by simp)))
      (iha (hd.items _ (by simp)))
  | @lambda params body result t _ hresult nonempty _ ihp ihb =>
    obtain ⟨frame, hparams, hframe⟩ := exists_map_of_forall
      (forall_snd_of_items [] (hd.items _ (by simp)).items ihp)
    have hover := Ty.over_of_ofDatum (hd.items result (by simp)) hresult
    rw [hparams]
    exact .lambda hframe hover (mt List.map_eq_nil_iff.mp nonempty)
      (forall_snd_of_items [_, _, _, _] hd.items ihb)
  | app _ _ iho ihs =>
    exact .app (iho (hd.items _ List.mem_cons_self)) (forall_snd_of_items [_] hd.items ihs)
  | letIn _ nonempty _ ihs ihb =>
    obtain ⟨bounds, hbindings, hbounds⟩ := exists_map_of_forall
      (forall_snd_of_items [] (hd.items _ (by simp)).items ihs)
    rw [hbindings]
    exact .letIn (fun b hb => (hbounds b hb).1) (fun b hb => (hbounds b hb).2)
      (mt List.map_eq_nil_iff.mp nonempty) (forall_snd_of_items [_, _] hd.items ihb)
  | letrec _ nonempty _ ihs ihb =>
    obtain ⟨bounds, hbindings, hbounds⟩ := exists_map_of_forall
      (forall_snd_of_items [] (hd.items _ (by simp)).items ihs)
    rw [hbindings]
    exact .letrec (fun b hb => (hbounds b hb).1) (fun b hb => (hbounds b hb).2)
      (mt List.map_eq_nil_iff.mp nonempty) (forall_snd_of_items [_, _] hd.items ihb)
  | quote h => exact .quote (h.over (hd.items _ (by simp)))
  | expression _ ih => exact .expression (ih hd)
  | define _ _ ihd ihv =>
    obtain ⟨⟨x, t⟩, rfl, hdecl⟩ := ihd (hd.items _ (by simp))
    exact .define hdecl (ihv (hd.items _ (by simp)))
  | program nonempty _ ih =>
    exact .program (mt List.map_eq_nil_iff.mp nonempty) (forall_snd_of_items [_] hd.items ih)

theorem isForm_of_ofForm {d : Datum} (hd : d.Over Q) {e : Exp} (h : ofForm d = .ok e) :
    e.IsForm Q :=
  (derives_of_ofForm h).trees hd

theorem isProgram_of_ofText {kind : Kind} {text : String} {e : Exp} (h : ofText kind text = .ok e) :
    e.IsProgram IsSymbol := by
  obtain ⟨d, hread, hderives⟩ := ofText_eq_ok_iff.mp h
  have htrees := hderives.trees (Datum.isRead_of_read hread).over
  cases kind with
  | form => exact .form htrees
  | program => exact htrees

end Exp

end AnnotatedScheme
