import AnnotatedScheme.Ty.Basic

/-!
# Type variables in types

* `Ty.occurs_iff_mem_names`   a variable occurs in a type just if it is one of its variables;
* `Ty.mem_names_substitute`   the variables that are left by a substitution;
* `Ty.Over P`                 types without gaps whose variables all satisfy `P`.
-/

namespace AnnotatedScheme

namespace Ty

theorem mem_namesAll {ts : List Ty} {name : String} :
    name ∈ namesAll ts ↔ ∃ t ∈ ts, name ∈ t.names := by
  rw [namesAll_eq_flatMap, List.mem_flatMap]

theorem occurs_iff_mem_names {t : Ty} {name : String} : t.occurs name = true ↔ name ∈ t.names := by
  induction t using Ty.induct with
  | var n =>
    rw [occurs, names, decide_eq_true_iff, List.mem_singleton]
    exact eq_comm
  | proc params result ihp ihr =>
    have hparams : occursAny name params = true ↔ name ∈ namesAll params := by
      rw [occursAny_eq_any, List.any_eq_true, mem_namesAll]
      exact exists_congr fun p => and_congr_right (ihp p)
    rw [occurs, names, Bool.or_eq_true, List.mem_append, hparams, ihr]
  | pair first second ihf ihs =>
    rw [occurs, names, Bool.or_eq_true, List.mem_append, ihf, ihs]
  | _ => exact iff_of_false Bool.false_ne_true List.not_mem_nil

theorem mem_names_substitute {f : String → Ty} {t : Ty} {name : String} :
    name ∈ (t.substitute f).names ↔ ∃ n ∈ t.names, name ∈ (f n).names := by
  induction t using Ty.induct with
  | var n => simp [substitute, names]
  | proc params result ihp ihr =>
    simp only [substitute, names, List.mem_append, mem_namesAll, substituteAll_eq_map,
      List.mem_map, ihr]
    refine ⟨fun h => ?_, fun h => ?_⟩
    · rcases h with ⟨_, ⟨p, hp, rfl⟩, h⟩ | ⟨n, hn, h⟩
      · obtain ⟨n, hn, h⟩ := (ihp p hp).mp h
        exact ⟨n, .inl ⟨p, hp, hn⟩, h⟩
      · exact ⟨n, .inr hn, h⟩
    · obtain ⟨n, ⟨p, hp, hn⟩ | hn, h⟩ := h
      · exact .inl ⟨_, ⟨p, hp, rfl⟩, (ihp p hp).mpr ⟨n, hn, h⟩⟩
      · exact .inr ⟨n, hn, h⟩
  | pair first second ihf ihs =>
    simp only [substitute, names, List.mem_append, ihf, ihs, or_and_right, exists_or]
  | _ => simp [substitute, names]

theorem anyGap_eq_false_iff {ts : List Ty} : anyGap ts = false ↔ ∀ t ∈ ts, t.hasGap = false := by
  induction ts with
  | nil => simp [anyGap]
  | cons t rest ih => simp [anyGap, ih]

/-- no gaps, and all variables satisfy `P` -/
inductive Over (P : String → Prop) : Ty → Prop
  | number : Over P .number
  | boolean : Over P .boolean
  | string : Over P .string
  | void : Over P .void
  | empty : Over P .empty
  | var {name : String} (h : P name) : Over P (.var name)
  | proc {params : List Ty} {result : Ty} (hparams : ∀ p ∈ params, Over P p)
      (hresult : Over P result) : Over P (.proc params result)
  | pair {first second : Ty} (hfirst : Over P first) (hsecond : Over P second) :
      Over P (.pair first second)

variable {P : String → Prop} {t : Ty}

theorem Over.hasGap (h : t.Over P) : t.hasGap = false := by
  induction h with
  | proc _ _ ihp ihr =>
    rw [Ty.hasGap, anyGap_eq_false_iff.mpr ihp, ihr]
    rfl
  | pair _ _ ihf ihs =>
    rw [Ty.hasGap, ihf, ihs]
    rfl
  | _ => rfl

theorem Over.of_mem_names (h : t.Over P) {name : String} (hname : name ∈ t.names) : P name := by
  induction h with
  | var h => exact List.mem_singleton.mp hname ▸ h
  | proc _ _ ihp ihr =>
    rcases List.mem_append.mp hname with hname | hname
    · obtain ⟨p, hp, hname⟩ := mem_namesAll.mp hname
      exact ihp p hp hname
    · exact ihr hname
  | pair _ _ ihf ihs =>
    rcases List.mem_append.mp hname with hname | hname
    · exact ihf hname
    · exact ihs hname
  | _ => exact absurd hname List.not_mem_nil

theorem over_of_names (hgap : t.hasGap = false) (hnames : ∀ name ∈ t.names, P name) :
    t.Over P := by
  induction t using Ty.induct with
  | var name => exact .var (hnames name List.mem_cons_self)
  | proc params result ihp ihr =>
    rw [hasGap, Bool.or_eq_false_iff, anyGap_eq_false_iff] at hgap
    have hresult := ihr hgap.2 fun name hname => hnames name (List.mem_append_right _ hname)
    refine .proc (fun p hp => ihp p hp (hgap.1 p hp) fun name hname => ?_) hresult
    exact hnames name (List.mem_append_left _ (mem_namesAll.mpr ⟨p, hp, hname⟩))
  | pair first second ihf ihs =>
    rw [hasGap, Bool.or_eq_false_iff] at hgap
    have hfirst := ihf hgap.1 fun name hname => hnames name (List.mem_append_left _ hname)
    have hsecond := ihs hgap.2 fun name hname => hnames name (List.mem_append_right _ hname)
    exact .pair hfirst hsecond
  | gap => cases hgap
  | _ => constructor

theorem over_iff : t.Over P ↔ t.hasGap = false ∧ ∀ name ∈ t.names, P name :=
  ⟨fun h => ⟨h.hasGap, fun _ => h.of_mem_names⟩, fun h => over_of_names h.1 h.2⟩

theorem Over.gap? (h : t.Over P) : t.gap? = none := by
  rw [Ty.gap?, h.hasGap]
  rfl

theorem Over.mono {P' : String → Prop} (h : t.Over P) (hP : ∀ name, P name → P' name) :
    t.Over P' :=
  over_of_names h.hasGap fun name hname => hP name (h.of_mem_names hname)

theorem Over.substitute {P' : String → Prop} (h : t.Over P) {f : String → Ty}
    (hf : ∀ name, P name → (f name).Over P') : (t.substitute f).Over P' := by
  induction h with
  | var h => exact hf _ h
  | proc _ _ ihp ihr =>
    rw [Ty.substitute, substituteAll_eq_map]
    exact .proc (List.forall_mem_map.mpr ihp) ihr
  | pair _ _ ihf ihs => exact .pair ihf ihs
  | _ => constructor

end Ty

end AnnotatedScheme
