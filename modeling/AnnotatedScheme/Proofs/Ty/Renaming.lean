import AnnotatedScheme.Proofs.Lists
import AnnotatedScheme.Proofs.Ty.Supply
import Mathlib.Logic.Equiv.Basic

/-!
# Two supplies in step

Two runs that draw names on the same bases, with the same names reserved, draw different names if
their supplies stand at different indices. `Twins` is where two such runs stand: their supplies, the
names drawn in the first run, and a permutation of names that takes these to the names drawn in the
second run and fixes all reserved names.

* `Ty.rename`         the variables of a type under a map of names;
* `Twins.Knows`       the names that types of the first run can have so far;
* `Twins.Leads`       later on, the permutation is the same on the names known before;
* `Twins.exists_rename`  to rename a type leads to twins whose permutation takes the one renamed
                      type to the other;
* `Twins.ahead`       the second run can go on alone, and nothing that is known changes.
-/

namespace AnnotatedScheme

/-! ## renaming -/

namespace Ty

/-- a type with other names for its variables -/
def rename (f : String → String) (t : Ty) : Ty := t.substitute (.var ∘ f)

theorem substitute_congr {f g : String → Ty} {t : Ty} (h : ∀ name ∈ t.names, f name = g name) :
    t.substitute f = t.substitute g := by
  induction t using Ty.induct with
  | var name => exact h name List.mem_cons_self
  | proc params result ihp ihr =>
    have hresult := ihr fun name hname => h name (List.mem_append_right _ hname)
    have hparams : params.map (substitute f) = params.map (substitute g) := by
      refine List.map_congr_left fun p hp => ihp p hp fun name hname => ?_
      exact h name (List.mem_append_left _ (mem_namesAll.mpr ⟨p, hp, hname⟩))
    rw [substitute, substitute, substituteAll_eq_map, substituteAll_eq_map, hparams, hresult]
  | pair first second ihf ihs =>
    have hfirst := ihf fun name hname => h name (List.mem_append_left _ hname)
    have hsecond := ihs fun name hname => h name (List.mem_append_right _ hname)
    rw [substitute, substitute, hfirst, hsecond]
  | _ => rfl

theorem substitute_substitute (f g : String → Ty) (t : Ty) :
    (t.substitute f).substitute g = t.substitute fun name => (f name).substitute g := by
  induction t using Ty.induct with
  | proc params result ihp ihr =>
    have hparams : (params.map (substitute f)).map (substitute g) =
        params.map (substitute fun name => (f name).substitute g) := by
      rw [List.map_map]
      exact List.map_congr_left fun p hp => ihp p hp
    rw [substitute, substitute, substitute, substituteAll_eq_map, substituteAll_eq_map,
      substituteAll_eq_map, hparams, ihr]
  | pair first second ihf ihs => rw [substitute, substitute, substitute, ihf, ihs]
  | _ => rfl

theorem substitute_var (t : Ty) : t.substitute .var = t := by
  induction t using Ty.induct with
  | proc params result ihp ihr =>
    have hparams : params.map (substitute .var) = params.map id :=
      List.map_congr_left fun p hp => ihp p hp
    rw [substitute, substituteAll_eq_map, hparams, List.map_id, ihr]
  | pair first second ihf ihs => rw [substitute, ihf, ihs]
  | _ => rfl

theorem substitute_eq_self {f : String → Ty} {t : Ty} (h : ∀ name ∈ t.names, f name = .var name) :
    t.substitute f = t :=
  (substitute_congr h).trans (substitute_var t)

theorem substitute_proc (f : String → Ty) (params : List Ty) (result : Ty) :
    (Ty.proc params result).substitute f =
      .proc (params.map (substitute f)) (result.substitute f) := by
  rw [substitute, substituteAll_eq_map]

section

variable {f g : String → String} {t : Ty}

theorem rename_congr (h : ∀ name ∈ t.names, f name = g name) : t.rename f = t.rename g :=
  substitute_congr fun name hname => congrArg Ty.var (h name hname)

theorem rename_eq_self (h : ∀ name ∈ t.names, f name = name) : t.rename f = t :=
  substitute_eq_self fun name hname => congrArg Ty.var (h name hname)

theorem rename_proc (params : List Ty) (result : Ty) :
    (Ty.proc params result).rename f = .proc (params.map (rename f)) (result.rename f) :=
  substitute_proc _ params result

end

/-- types whose variables are left where they are -/
theorem map_rename_eq_self {f : String → String} {ts : List Ty}
    (h : ∀ t ∈ ts, ∀ name ∈ t.names, f name = name) : ts.map (rename f) = ts := by
  have hid : ts.map (rename f) = ts.map id :=
    List.map_congr_left fun t ht => rename_eq_self (h t ht)
  rw [hid, List.map_id]

end Ty

/-! ## supplies -/

namespace Supply

/-- a numbered name that is behind the index of the supply -/
def Past (s : Supply) (name : String) : Prop :=
  ∃ base index, name = candidate base index ∧ index < s.next

variable {s s' : Supply} {name : String}

theorem Past.mono (h : s.Past name) (hnext : s.next ≤ s'.next) : s'.Past name := by
  obtain ⟨base, index, hname, hlt⟩ := h
  exact ⟨base, index, hname, Nat.lt_of_lt_of_le hlt hnext⟩

/-- A fresh name is behind the index from then on, and was not before. -/
theorem past_fresh (base : String) (s : Supply) :
    (s.fresh base).2.Past (s.fresh base).1 ∧ ¬ s.Past (s.fresh base).1 := by
  obtain ⟨-, -, base', index, hname, hle, hlt⟩ := fresh_spec base s
  refine ⟨⟨base', index, hname, hlt⟩, fun hpast => ?_⟩
  obtain ⟨base'', index', hname', hlt'⟩ := hpast
  have hindex := candidate_inj (hname.symm.trans hname')
  omega

theorem fresh_not_reserved (base : String) (s : Supply) : (s.fresh base).1 ∉ s.reserved :=
  (fresh_spec base s).2.1

theorem fresh_ne_literal (base : String) (s : Supply) : (s.fresh base).1 ≠ "literal" :=
  candidate_ne_literal base _

end Supply

/-! ## twins -/

open Supply

structure Twins (reserved : List String) where
  first : Supply
  second : Supply
  /-- the names drawn in the first run -/
  drawn : List String
  σ : Equiv.Perm String
  reserved_first : first.reserved = reserved
  reserved_second : second.reserved = reserved
  fixes : ∀ name, name ∈ reserved ∨ name = "literal" → σ name = name
  moves : ∀ name, σ name ≠ name → ∃ base index, name = candidate base index
  past : ∀ name ∈ drawn, first.Past name ∧ second.Past (σ name)

namespace Twins

variable {reserved : List String}

/-- two runs that have not drawn names yet -/
def start (reserved : List String) (i j : Nat) : Twins reserved where
  first := ⟨reserved, i⟩
  second := ⟨reserved, j⟩
  drawn := []
  σ := Equiv.refl String
  reserved_first := rfl
  reserved_second := rfl
  fixes := fun _ _ => rfl
  moves := fun _ h => absurd rfl h
  past := fun _ h => absurd h List.not_mem_nil

def Knows (w : Twins reserved) (name : String) : Prop :=
  name ∈ reserved ∨ name = "literal" ∨ name ∈ w.drawn

structure Leads (w w' : Twins reserved) : Prop where
  drawn : ∀ name ∈ w.drawn, name ∈ w'.drawn
  agree : ∀ name, w.Knows name → w'.σ name = w.σ name

variable {w w₁ w' : Twins reserved}

theorem Leads.refl (w : Twins reserved) : w.Leads w := ⟨fun _ => id, fun _ _ => rfl⟩

theorem Leads.knows (h : w.Leads w') {name : String} (hname : w.Knows name) : w'.Knows name :=
  hname.imp_right fun hname => hname.imp_right (h.drawn name)

theorem Leads.trans (h : w.Leads w₁) (h' : w₁.Leads w') : w.Leads w' where
  drawn := fun name hname => h'.drawn name (h.drawn name hname)
  agree := fun name hname => (h'.agree name (h.knows hname)).trans (h.agree name hname)

/-- A type that is known is renamed as before. -/
theorem Leads.rename_eq (h : w.Leads w') {t : Ty} (ht : ∀ name ∈ t.names, w.Knows name) :
    t.rename w'.σ = t.rename w.σ :=
  Ty.rename_congr fun name hname => h.agree name (ht name hname)

/-! ### drawing in both runs -/

/-- the permutation after `a` is drawn in the first run and `b` in the second -/
def after (w : Twins reserved) (a b : String) : Equiv.Perm String :=
  w.σ.trans (Equiv.swap (w.σ a) b)

theorem after_drawn (w : Twins reserved) (a b : String) : w.after a b a = b :=
  Equiv.swap_apply_left (w.σ a) b

theorem after_of_ne (w : Twins reserved) {a b name : String} (ha : name ≠ a) (hb : w.σ name ≠ b) :
    w.after a b name = w.σ name :=
  Equiv.swap_apply_of_ne_of_ne (fun h => ha (w.σ.injective h)) hb

theorem after_eq_of_knows (w : Twins reserved) (base : String) {name : String}
    (h : w.Knows name) :
    w.after (w.first.fresh base).1 (w.second.fresh base).1 name = w.σ name := by
  have ha := w.reserved_first ▸ fresh_not_reserved base w.first
  have hb := w.reserved_second ▸ fresh_not_reserved base w.second
  refine w.after_of_ne ?_ ?_
  · rintro rfl
    rcases h with h | h | h
    · exact ha h
    · exact fresh_ne_literal base w.first h
    · exact (past_fresh base w.first).2 (w.past _ h).1
  · intro heq
    rcases h with h | h | h
    · exact hb (heq ▸ (w.fixes name (.inl h)).symm ▸ h)
    · exact fresh_ne_literal base w.second (heq ▸ (w.fixes name (.inr h)).trans h)
    · exact (past_fresh base w.second).2 (heq ▸ (w.past name h).2)

/-- A name that is moved after the drawing was moved before, or has just been drawn. -/
theorem exists_of_after_ne (w : Twins reserved) (base : String) {name : String}
    (h : w.after (w.first.fresh base).1 (w.second.fresh base).1 name ≠ name) :
    ∃ base index, name = candidate base index := by
  by_cases hσ : w.σ name = name
  · by_cases ha : name = (w.first.fresh base).1
    · exact ⟨base, _, ha⟩
    · by_cases hb : name = (w.second.fresh base).1
      · exact ⟨base, _, hb⟩
      · refine absurd ?_ h
        rw [w.after_of_ne ha (fun heq => hb (hσ.symm.trans heq)), hσ]
  · exact w.moves name hσ

/-- where the runs stand when each has drawn a name on the same base -/
def fresh (w : Twins reserved) (base : String) : Twins reserved where
  first := (w.first.fresh base).2
  second := (w.second.fresh base).2
  drawn := (w.first.fresh base).1 :: w.drawn
  σ := w.after (w.first.fresh base).1 (w.second.fresh base).1
  reserved_first := w.reserved_first
  reserved_second := w.reserved_second
  fixes := fun name h => by
    have hknows : w.Knows name := h.imp_right .inl
    rw [w.after_eq_of_knows base hknows, w.fixes name h]
  moves := fun _ => w.exists_of_after_ne base
  past := fun name h => by
    obtain ⟨hgrows, -⟩ := fresh_spec base w.first
    obtain ⟨hgrows', -⟩ := fresh_spec base w.second
    rcases List.mem_cons.mp h with rfl | h
    · rw [w.after_drawn]
      exact ⟨(past_fresh base w.first).1, (past_fresh base w.second).1⟩
    · have hpast := w.past name h
      rw [w.after_eq_of_knows base (.inr (.inr h))]
      exact ⟨hpast.1.mono hgrows.next, hpast.2.mono hgrows'.next⟩

theorem leads_fresh (w : Twins reserved) (base : String) : w.Leads (w.fresh base) :=
  ⟨fun _ => List.mem_cons_of_mem _, fun _ => w.after_eq_of_knows base⟩

theorem fresh_σ (w : Twins reserved) (base : String) :
    (w.fresh base).σ (w.first.fresh base).1 = (w.second.fresh base).1 :=
  w.after_drawn _ _

/-- Names drawn on a list of bases lead to twins that take the one mapping to the other. -/
theorem exists_freshEach (w : Twins reserved) (names : List String) :
    ∃ w', w.Leads w' ∧ w'.first = (freshEach names w.first).2 ∧
      w'.second = (freshEach names w.second).2 ∧
      (∀ p ∈ (freshEach names w.first).1, p.2 ∈ w'.drawn) ∧
      (freshEach names w.second).1 = (freshEach names w.first).1.map (Prod.map id w'.σ) := by
  induction names generalizing w with
  | nil => exact ⟨w, .refl w, rfl, rfl, nofun, rfl⟩
  | cons name rest ih =>
    obtain ⟨w', hleads, hfirst, hsecond, hdrawn, hmap⟩ := ih (w.fresh name)
    have hmem : (w.first.fresh name).1 ∈ w'.drawn := hleads.drawn _ List.mem_cons_self
    have hnew : w'.σ (w.first.fresh name).1 = (w.second.fresh name).1 := by
      rw [hleads.agree _ (.inr (.inr List.mem_cons_self)), w.fresh_σ]
    refine ⟨w', (w.leads_fresh name).trans hleads, hfirst, hsecond, ?_, ?_⟩
    · exact List.forall_mem_cons.mpr ⟨hmem, hdrawn⟩
    · rw [freshEach, freshEach, List.map_cons]
      exact congrArg₂ List.cons (Prod.ext rfl hnew.symm) hmap

theorem exists_rename (w : Twins reserved) (t : Ty) :
    ∃ w', w.Leads w' ∧ w'.first = (Supply.rename t w.first).2 ∧
      w'.second = (Supply.rename t w.second).2 ∧
      (∀ name ∈ (Supply.rename t w.first).1.names, w'.Knows name) ∧
      (Supply.rename t w.second).1 = (Supply.rename t w.first).1.rename w'.σ := by
  obtain ⟨w', hleads, hfirst, hsecond, hdrawn, hmap⟩ := w.exists_freshEach t.names.eraseDups
  obtain ⟨-, hlookup⟩ := freshEach_spec t.names.eraseDups w.first
  have hfound : ∀ name ∈ t.names,
      ∃ new, (freshEach t.names.eraseDups w.first).1.lookup name = some new := by
    intro name hname
    obtain ⟨index, hindex, -⟩ := hlookup name (List.mem_eraseDups.mpr hname)
    exact ⟨_, hindex⟩
  refine ⟨w', hleads, hfirst, hsecond, fun name hname => ?_, ?_⟩
  · obtain ⟨n, hn, hname⟩ := Ty.mem_names_substitute.mp hname
    obtain ⟨new, hnew⟩ := hfound n hn
    rw [Ty.names, renamed, hnew, Option.getD_some, List.mem_singleton] at hname
    subst hname
    obtain ⟨front, back, hmapping, -⟩ := List.lookup_eq_some_iff.mp hnew
    have hmem : (n, name) ∈ (freshEach t.names.eraseDups w.first).1 := by
      rw [hmapping]
      exact List.mem_append_right front List.mem_cons_self
    exact .inr (.inr (hdrawn _ hmem))
  · rw [Ty.rename]
    show t.substitute _ = (t.substitute _).substitute _
    rw [Ty.substitute_substitute]
    refine Ty.substitute_congr fun name hname => ?_
    obtain ⟨new, hnew⟩ := hfound name hname
    show Ty.var (renamed _ name) = .var (w'.σ (renamed _ name))
    rw [hmap, renamed, renamed, lookup_map_prodMap, hnew]
    rfl

/-! ### going on in the second run alone -/

/-- where the runs stand when the second one has gone on to the supply `s` -/
def ahead (w : Twins reserved) {s : Supply} (h : Grows w.second s) : Twins reserved :=
  { w with
    second := s
    reserved_second := h.reserved.trans w.reserved_second
    past := fun name hname => (w.past name hname).imp_right fun hpast => hpast.mono h.next }

theorem leads_ahead (w : Twins reserved) {s : Supply} (h : Grows w.second s) :
    w.Leads (w.ahead h) :=
  ⟨fun _ => id, fun _ _ => rfl⟩

end Twins

end AnnotatedScheme
