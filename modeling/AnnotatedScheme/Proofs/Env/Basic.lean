import AnnotatedScheme.Env.Basic
import AnnotatedScheme.Proofs.Lists
import AnnotatedScheme.Proofs.Ty.Basic

/-!
# What environments hold

A look-up finds what stands in a frame (`Env.exists_of_lookup`), and a combination of environments
holds bindings of the two, or is one of them (`Env.combine_eq_ok`). So look-ups and combinations

* bring in no type variables (`Env.mem_names_of_lookup`, `Env.names_combine`);
* keep `Env.Over P`: no gaps, and all type variables satisfy `P`.
-/

namespace AnnotatedScheme

/-- the type variables in a frame -/
def Frame.names (frame : Frame) : List String := frame.flatMap fun (_, t) => t.names

namespace Env

variable {env first second : Env}

theorem exists_of_lookup {x : String} {t : Ty} (h : env.lookup x = some t) :
    ∃ frame ∈ env.frames, (x, t) ∈ frame := by
  obtain ⟨hfind, -⟩ := Option.filter_eq_some_iff.mp h
  obtain ⟨frame, hframe, hlookup⟩ := List.exists_of_findSome?_eq_some hfind
  exact ⟨frame, hframe, mem_of_lookup_eq_some hlookup⟩

/-- a frame decides nothing for the variables that it does not bind -/
theorem lookup_extend_of_not_mem {frame : Frame} {x : String} (h : x ∉ frame.map Prod.fst) :
    (env.extend frame).lookup x = env.lookup x := by
  rw [lookup_extend, lookup_eq_none_iff_not_mem.mpr h]

theorem combine_eq_ok (h : first.combine second = .ok env) :
    env = first ∨ env = second ∨
      ∃ frame ∈ second.frames, env = first.extend (first.unbound frame) := by
  unfold combine at h
  split at h
  · exact .inr (.inl (Except.ok.inj h).symm)
  · exact .inl (Except.ok.inj h).symm
  · rename_i frame _ hsecond _
    split at h
    · cases h
    · exact .inr (.inr ⟨frame, hsecond ▸ List.mem_cons_self, (Except.ok.inj h).symm⟩)

/-! ## type variables -/

variable {name : String}

theorem names_extend (frame : Frame) (env : Env) :
    (env.extend frame).names = frame.names ++ env.names := rfl

theorem mem_names_iff : name ∈ env.names ↔ ∃ frame ∈ env.frames, name ∈ frame.names :=
  List.mem_flatMap

theorem mem_names_of_lookup {x : String} {t : Ty} (h : env.lookup x = some t)
    (hname : name ∈ t.names) : name ∈ env.names := by
  obtain ⟨frame, hframe, hentry⟩ := exists_of_lookup h
  exact mem_names_iff.mpr ⟨frame, hframe, List.mem_flatMap.mpr ⟨(x, t), hentry, hname⟩⟩

theorem names_combine (h : first.combine second = .ok env) (hname : name ∈ env.names) :
    name ∈ first.names ∨ name ∈ second.names := by
  rcases combine_eq_ok h with rfl | rfl | ⟨frame, hframe, rfl⟩
  · exact .inl hname
  · exact .inr hname
  · rw [names_extend, List.mem_append] at hname
    rcases hname with hname | hname
    · obtain ⟨entry, hentry, hname⟩ := List.mem_flatMap.mp hname
      have hmem : entry ∈ frame := (List.mem_filter.mp hentry).1
      have hframeNames : name ∈ frame.names := List.mem_flatMap.mpr ⟨entry, hmem, hname⟩
      exact .inr (mem_names_iff.mpr ⟨frame, hframe, hframeNames⟩)
    · exact .inl hname

/-! ## types over a condition -/

/-- all types in the environment are without gaps, and their variables satisfy `P` -/
def Over (P : String → Prop) (env : Env) : Prop :=
  ∀ frame ∈ env.frames, ∀ entry ∈ frame, entry.2.Over P

variable {P : String → Prop}

theorem Over.extend (h : env.Over P) {frame : Frame} (hframe : ∀ entry ∈ frame, entry.2.Over P) :
    (env.extend frame).Over P :=
  List.forall_mem_cons.mpr ⟨hframe, h⟩

theorem Over.lookup (h : env.Over P) {x : String} {t : Ty} (hx : env.lookup x = some t) :
    t.Over P := by
  obtain ⟨frame, hframe, hentry⟩ := exists_of_lookup hx
  exact h frame hframe (x, t) hentry

theorem Over.combine (h : first.Over P) (h' : second.Over P)
    (hcombine : first.combine second = .ok env) : env.Over P := by
  rcases combine_eq_ok hcombine with rfl | rfl | ⟨frame, hframe, rfl⟩
  · exact h
  · exact h'
  · refine h.extend fun entry hentry => ?_
    exact h' frame hframe entry (List.mem_filter.mp hentry).1

end Env

end AnnotatedScheme
