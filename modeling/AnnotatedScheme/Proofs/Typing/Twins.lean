import AnnotatedScheme.Proofs.Ty.Renaming
import AnnotatedScheme.Proofs.Typing.Fresh

/-!
# The index of the supply does not matter

The rule of a form looks at the types of its parts no closer than a permutation of names can be
seen that fixes the names of the environment, of the annotations and `literal` (`Exp.Rule.rename`).
So a check that succeeds in one run succeeds in a run with another index, and the permutation of the
twins takes the one type to the other (`Exp.typeOf_twins`); nor can it fail in one run alone
(`typeOf_alike_of_reserved`).
-/

namespace AnnotatedScheme

open Supply

/-! ## rules -/

namespace Exp

variable {σ : String → String}

theorem getLast?_map_rename {ts : List Ty} {t : Ty} (h : ts.getLast? = some t) :
    (ts.map (Ty.rename σ)).getLast? = some (t.rename σ) := by
  rw [List.getLast?_map, h]
  rfl

/-- the types in a frame of fixed variables -/
theorem map_rename_frame {frame : Frame} (h : ∀ name ∈ frame.names, σ name = name) :
    (frame.map Prod.snd).map (Ty.rename σ) = frame.map Prod.snd := by
  refine Ty.map_rename_eq_self fun t ht name hname => h name ?_
  obtain ⟨entry, hentry, rfl⟩ := List.mem_map.mp ht
  exact List.mem_flatMap.mpr ⟨entry, hentry, hname⟩

theorem Rule.rename {env : Env} {e : Exp} {ts : List Ty} {t : Ty} (h : Rule env e ts t)
    (fixed : ∀ name, name ∈ env.names ∨ name ∈ e.names ∨ name = "literal" → σ name = name) :
    Rule env e (ts.map (Ty.rename σ)) (t.rename σ) := by
  have hexp : ∀ name ∈ e.names, σ name = name := fun name hname => fixed name (.inr (.inl hname))
  cases h with
  | number value => exact .number value
  | boolean value => exact .boolean value
  | string content => exact .string content
  | var h =>
    have hsame := Ty.rename_eq_self fun name hname =>
      fixed name (.inl (Env.mem_names_of_lookup h hname))
    rw [hsame]
    exact .var h
  | quote h =>
    have hsame := Ty.rename_eq_self fun name hname =>
      fixed name (.inr (.inr (names_of_typeQuoted h hname)))
    rw [hsame]
    exact .quote h
  | conditional t => exact .conditional (t.rename σ)
  | @lambda params body result frame ts hparams hlast =>
    have hframe : ∀ name ∈ frame.names, σ name = name := fun name hname =>
      hexp name (List.mem_append_left _ (List.mem_append_left _ (names_frame? hparams hname)))
    have hresult : result.rename σ = result := Ty.rename_eq_self fun name hname =>
      hexp name (List.mem_append_left _ (List.mem_append_right _ hname))
    have hlast := getLast?_map_rename (σ := σ) hlast
    rw [hresult] at hlast
    rw [Ty.rename_proc, map_rename_frame hframe, hresult]
    exact .lambda hparams hlast
  | app h params t =>
    rw [List.map_cons, Ty.rename_proc]
    exact .app h _ _
  | cons h first second => exact .cons h _ _
  | car h first second => exact .car h _ _
  | cdr h first second => exact .cdr h _ _
  | letIn hframe hlast =>
    have hnames := fun name hname =>
      hexp name (List.mem_append_left _ (names_boundFrame? hframe hname))
    rw [List.map_append, map_rename_frame hnames]
    exact .letIn hframe (getLast?_map_rename hlast)
  | @letrec bindings body frame types ts t hframe htypes hlast =>
    have hsame : types.map (Ty.rename σ) = types := by
      refine Ty.map_rename_eq_self fun u hu name hname => ?_
      obtain ⟨value, hvalue, hu⟩ := exists_of_map_eq htypes hu
      have hmem := names_lambdaType? hu hname
      exact hexp name (names_of_mem_parts (List.mem_append_left _ hvalue) hmem)
    rw [List.map_append, hsame]
    exact .letrec hframe htypes (getLast?_map_rename hlast)
  | @define d value x t h =>
    have hsame : t.rename σ = t := Ty.rename_eq_self fun name hname =>
      hexp name (List.mem_append_left _ (mem_names_of_declared? h hname))
    rw [List.map_cons, hsame]
    exact .define h
  | program hscopes hlast => exact .program hscopes (getLast?_map_rename hlast)

end Exp

/-! ## runs -/

/-- A type of the first run comes out of the second one under the permutation. -/
def Twins.Follow {reserved : List String} (w : Twins reserved) (c : Env × Exp) (t : Ty)
    (s : Supply) : Prop :=
  ∃ w' : Twins reserved, w.Leads w' ∧ w'.first = s ∧ (∀ name ∈ t.names, w'.Knows name) ∧
    c.2.typeOf c.1 w.second = .ok (t.rename w'.σ) w'.second

variable {reserved : List String}

/-- The step: checks one after the other can be followed, by the same checks or by related ones, if
each of them can. -/
theorem Runs.twins {cs ds : List (Env × Exp)} {s s' : Supply} {ts : List Ty}
    {related : Env × Exp → Env × Exp → Prop} (runs : Runs cs s ts s')
    (h : List.Forall₂ related cs ds)
    (hall : ∀ c ∈ cs, ∀ d, related c d → ∀ (w : Twins reserved) t s₁,
      c.2.typeOf c.1 w.first = .ok t s₁ → w.Follow d t s₁) {w : Twins reserved} (hw : w.first = s) :
    ∃ w' : Twins reserved, w.Leads w' ∧ w'.first = s' ∧
      (∀ t ∈ ts, ∀ name ∈ t.names, w'.Knows name) ∧
      Runs ds w.second (ts.map (Ty.rename w'.σ)) w'.second := by
  induction runs generalizing ds w with
  | nil =>
    cases h
    exact ⟨w, .refl w, hw, nofun, .nil _⟩
  | @cons env e t s s₁ s' rest ts head tail ih =>
    rw [List.forall_mem_cons] at hall
    cases h with
    | @cons _ d _ ds hd hds =>
      obtain ⟨w₁, hleads, hfirst, hknows, hhead⟩ := hall.1 d hd w t s₁ (hw ▸ head)
      obtain ⟨w', hleads', hfirst', hknows', htail⟩ := ih hds hall.2 hfirst
      have hback : t.rename w₁.σ = t.rename w'.σ := (hleads'.rename_eq hknows).symm
      refine ⟨w', hleads.trans hleads', hfirst', ?_, ?_⟩
      · refine List.forall_mem_cons.mpr ⟨fun name hname => ?_, hknows'⟩
        exact hleads'.knows (hknows name hname)
      · exact .cons (hback ▸ hhead) htail

/-- Where the types of the parts are known, so is the type, and the permutation can be seen neither
in the environment nor in the annotations. -/
theorem Exp.Rule.twins {env : Env} {e : Exp} {ts : List Ty} {t : Ty} (hrule : Rule env e ts t)
    (hreserved : ∀ name, name ∈ env.names ∨ name ∈ e.names → name ∈ reserved) {w : Twins reserved}
    (hknows : ∀ u ∈ ts, ∀ name ∈ u.names, w.Knows name) :
    (∀ name ∈ t.names, w.Knows name) ∧ Rule env e (ts.map (Ty.rename w.σ)) (t.rename w.σ) := by
  constructor
  · intro name hname
    rcases hrule.names hname with h | h | h | ⟨u, hu, h⟩
    · exact .inl (hreserved name (.inl h))
    · exact .inl (hreserved name (.inr h))
    · exact .inr (.inl h)
    · exact hknows u hu name h
  · refine hrule.rename fun name hname => w.fixes name ?_
    rw [← or_assoc] at hname
    exact hname.imp_left (hreserved name)

theorem Exp.typeOf_twins {e : Exp} {env : Env} {w : Twins reserved}
    (covered : (Call.mk env e w.first).Covered) {t : Ty} {s : Supply}
    (h : e.typeOf env w.first = .ok t s) : w.Follow (env, e) t s := by
  induction e using Exp.partsInduct generalizing env w t s with
  | step e ih =>
    rcases primitive_or_not e with ⟨name, rfl⟩ | hprim
    -- only here do the runs draw names, on the same bases
    · obtain ⟨signature, hsig, hrename⟩ := typeOf_primitive_eq_ok_iff.mp h
      obtain ⟨w', hleads, hfirst, hsecond, hknows, htype⟩ := w.exists_rename signature
      rw [hrename] at hfirst hknows htype
      refine ⟨w', hleads, hfirst, hknows, typeOf_primitive_eq_ok_iff.mpr ⟨signature, hsig, ?_⟩⟩
      exact Prod.ext htype hsecond.symm
    · obtain ⟨ts, runs, hrule⟩ := (typeOf_eq_ok_iff hprim).mp h
      have hsame : List.Forall₂ Eq (e.checks env) (e.checks env) :=
        List.forall₂_same.mpr fun _ _ => rfl
      have hfollow : ∀ c ∈ e.checks env, ∀ d, c = d → ∀ (w₁ : Twins reserved) u s₁,
          c.2.typeOf c.1 w₁.first = .ok u s₁ → w₁.Follow d u s₁ := by
        rintro c hc _ rfl w₁ u s₁ hcheck
        have hreserved := w₁.reserved_first.trans w.reserved_first.symm
        exact ih c.2 (mem_parts_of_mem_checks hc) (covered.check hc hreserved) hcheck
      obtain ⟨w', hleads, hfirst, hknows, runs'⟩ := runs.twins hsame hfollow rfl
      have hreserved : ∀ name, name ∈ env.names ∨ name ∈ e.names → name ∈ reserved :=
        fun name hname => w.reserved_first ▸ covered name hname
      obtain ⟨hknown, hrule'⟩ := hrule.twins hreserved hknows
      exact ⟨w', hleads, hfirst, hknown, (typeOf_eq_ok_iff hprim).mpr ⟨_, runs', hrule'⟩⟩

/-- Where all type variables of the expression and of the environment are reserved, two checks from
supplies at any two indices both fail, or give types that are the same under a permutation of names,
which moves none but numbered names, no reserved ones and not `literal`. -/
theorem typeOf_alike_of_reserved {env : Env} {e : Exp} {reserved : List String}
    (covers : ∀ name, name ∈ env.names ∨ name ∈ e.names → name ∈ reserved) (i j : Nat) :
    (∃ t s t' s', e.typeOf env ⟨reserved, i⟩ = .ok t s ∧ e.typeOf env ⟨reserved, j⟩ = .ok t' s' ∧
      ∃ σ : Equiv.Perm String, (∀ name, name ∈ reserved ∨ name = "literal" → σ name = name) ∧
        (∀ name, σ name ≠ name → ∃ base index, name = candidate base index) ∧ t' = t.rename σ) ∨
    ∃ error s error' s', e.typeOf env ⟨reserved, i⟩ = .error error s ∧
      e.typeOf env ⟨reserved, j⟩ = .error error' s' := by
  have follow : ∀ i j t s, e.typeOf env ⟨reserved, i⟩ = .ok t s →
      (Twins.start reserved i j).Follow (env, e) t s :=
    fun i j t s h => Exp.typeOf_twins (w := Twins.start reserved i j) covers h
  cases hfirst : e.typeOf env ⟨reserved, i⟩ with
  | ok t s =>
    obtain ⟨w', -, -, -, hsecond⟩ := follow i j t s hfirst
    exact .inl ⟨t, s, _, _, rfl, hsecond, w'.σ, w'.fixes, w'.moves, rfl⟩
  | error error s =>
    cases hsecond : e.typeOf env ⟨reserved, j⟩ with
    | ok t' s' =>
      -- the second run alone cannot succeed, since the first one would follow it
      obtain ⟨w', -, -, -, hback⟩ := follow j i t' s' hsecond
      have hback : e.typeOf env ⟨reserved, i⟩ = _ := hback
      rw [hfirst] at hback
      cases hback
    | error error' s' => exact .inr ⟨error, s, error', s', rfl, rfl⟩

/-- a pair of two procedures whose types have variables -/
def pairOfPrimitives : Exp := .app (.primitive "cons") [.primitive "eq?", .primitive "display"]

/-- the type of the pair, up to the names that were drawn -/
def pairOfPrimitivesType (a b c : String) : Ty :=
  .pair (.proc [.var a, .var b] .boolean) (.proc [.var c] .void)

theorem pairOfPrimitives_alike :
    (∀ name, name ∈ Env.names ⟨[[("y", .var "T1_2")]]⟩ ∨ name ∈ pairOfPrimitives.names →
      name ∈ ["T1_2"]) ∧
    pairOfPrimitives.typeOf ⟨[[("y", .var "T1_2")]]⟩ ⟨["T1_2"], 1⟩ =
      .ok (pairOfPrimitivesType "T1_1" "T2_2" "T_3") ⟨["T1_2"], 4⟩ ∧
    pairOfPrimitives.typeOf ⟨[[("y", .var "T1_2")]]⟩ ⟨["T1_2"], 2⟩ =
      .ok (pairOfPrimitivesType "T1_3" "T2_4" "T_5") ⟨["T1_2"], 6⟩ ∧
    ∃ σ : Equiv.Perm String, σ "T1_2" = "T1_2" ∧
      pairOfPrimitivesType "T1_3" "T2_4" "T_5" =
        (pairOfPrimitivesType "T1_1" "T2_2" "T_3").rename σ := by
  have covers : ∀ name, name ∈ Env.names ⟨[[("y", .var "T1_2")]]⟩ ∨ name ∈ pairOfPrimitives.names →
      name ∈ ["T1_2"] := by simp [Env.names, Ty.names, pairOfPrimitives, Exp.names, Exp.namesAll]
  have first : pairOfPrimitives.typeOf ⟨[[("y", .var "T1_2")]]⟩ ⟨["T1_2"], 1⟩ =
      .ok (pairOfPrimitivesType "T1_1" "T2_2" "T_3") ⟨["T1_2"], 4⟩ :=
    Check.run?_eq_some_iff.mp (by decide +kernel)
  have second : pairOfPrimitives.typeOf ⟨[[("y", .var "T1_2")]]⟩ ⟨["T1_2"], 2⟩ =
      .ok (pairOfPrimitivesType "T1_3" "T2_4" "T_5") ⟨["T1_2"], 6⟩ :=
    Check.run?_eq_some_iff.mp (by decide +kernel)
  refine ⟨covers, first, second, ?_⟩
  obtain ⟨t, s, t', s', ht, ht', σ, fixes, -, htype⟩ | ⟨error, s, -, -, herror, -⟩ :=
    typeOf_alike_of_reserved covers 1 2
  · obtain ⟨rfl, -⟩ := EStateM.Result.ok.inj (first.symm.trans ht)
    obtain ⟨rfl, -⟩ := EStateM.Result.ok.inj (second.symm.trans ht')
    exact ⟨σ, fixes "T1_2" (.inl (by decide)), htype⟩
  · rw [first] at herror
    cases herror

end AnnotatedScheme
