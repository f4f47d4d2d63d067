import AnnotatedScheme.Proofs.Ty.Calls
import AnnotatedScheme.Proofs.Ty.Renaming

/-!
# Renaming in one walk

`Supply.walk` goes through a type from left to right, and draws a name where it meets a variable for
the first time. `Supply.rename` draws all names first, and comes to the same (`walk_start`). So a
renamed type has, under an injective map, one name for each of its variables, and nobody else is
given these names (`rename_freshly`).
-/

namespace AnnotatedScheme

namespace Supply

/-- where a walk stands: the new names of the variables met so far, and the supply -/
structure Walker where
  mapping : List (String × String)
  supply : Supply

def Walker.meet (w : Walker) (name : String) : Walker :=
  match w.mapping.lookup name with
  | some _ => w
  | none => ⟨w.mapping ++ [(name, (w.supply.fresh name).1)], (w.supply.fresh name).2⟩

mutual
def walk : Ty → Walker → Ty × Walker
  | .var name, w => (.var (renamed (w.meet name).mapping name), w.meet name)
  | .proc params result, w =>
    let (params, w) := walkAll params w
    let (result, w) := walk result w
    (.proc params result, w)
  | .pair first second, w =>
    let (first, w) := walk first w
    let (second, w) := walk second w
    (.pair first second, w)
  | t, w => (t, w)

def walkAll : List Ty → Walker → List Ty × Walker
  | [], w => ([], w)
  | t :: rest, w =>
    let (t, w) := walk t w
    let (rest, w) := walkAll rest w
    (t :: rest, w)
end

theorem walk_proc (params : List Ty) (result : Ty) (w : Walker) :
    walk (.proc params result) w =
      (.proc (walkAll params w).1 (walk result (walkAll params w).2).1,
        (walk result (walkAll params w).2).2) := by
  rw [walk]

theorem walk_pair (first second : Ty) (w : Walker) :
    walk (.pair first second) w =
      (.pair (walk first w).1 (walk second (walk first w).2).1,
        (walk second (walk first w).2).2) := by
  rw [walk]

theorem walkAll_cons (t : Ty) (rest : List Ty) (w : Walker) :
    walkAll (t :: rest) w =
      ((walk t w).1 :: (walkAll rest (walk t w).2).1, (walkAll rest (walk t w).2).2) := by
  rw [walkAll]

/-! ## the variables on the way -/

/-- `mapping'` has all names of `mapping` -/
def Extends (mapping mapping' : List (String × String)) : Prop :=
  ∀ name new, mapping.lookup name = some new → mapping'.lookup name = some new

theorem extends_append (mapping more : List (String × String)) :
    Extends mapping (mapping ++ more) := by
  intro name new h
  rw [List.lookup_append, h]
  rfl

theorem Extends.trans {m m₁ m' : List (String × String)} (h : Extends m m₁) (h' : Extends m₁ m') :
    Extends m m' :=
  fun name new hname => h' name new (h name new hname)

theorem Walker.extends_meet (w : Walker) (name : String) :
    Extends w.mapping (w.meet name).mapping := by
  unfold meet
  split
  · exact fun _ _ => id
  · exact extends_append _ _

theorem Walker.extends_meets (w : Walker) (names : List String) :
    Extends w.mapping (names.foldl meet w).mapping := by
  induction names generalizing w with
  | nil => exact fun _ _ => id
  | cons name rest ih => exact (w.extends_meet name).trans (ih (w.meet name))

theorem Walker.exists_lookup_meet (w : Walker) (name : String) :
    ∃ new, (w.meet name).mapping.lookup name = some new := by
  unfold meet
  split
  · exact ⟨_, ‹_›⟩
  · rename_i hnone
    exact ⟨_, by rw [List.lookup_append, hnone, List.lookup_cons_self]; rfl⟩

theorem renamed_of_extends {mapping mapping' : List (String × String)}
    (h : Extends mapping mapping') {name new : String} (hname : mapping.lookup name = some new) :
    renamed mapping name = renamed mapping' name := by
  rw [renamed, renamed, hname, h name new hname]

/-- The walk meets the variables of the type as they stand, and puts the names for them that all
later mappings have, too. -/
theorem walk_spec (t : Ty) (w : Walker) :
    (walk t w).2 = t.names.foldl Walker.meet w ∧
      ∀ mapping, Extends (t.names.foldl Walker.meet w).mapping mapping →
        (walk t w).1 = t.substitute fun name => .var (renamed mapping name) := by
  induction t using Ty.induct generalizing w with
  | var name =>
    refine ⟨rfl, fun mapping hextends => ?_⟩
    obtain ⟨new, hnew⟩ := w.exists_lookup_meet name
    exact congrArg Ty.var (renamed_of_extends hextends hnew)
  | proc params result ihp ihr =>
    have hparams : (walkAll params w).2 = (Ty.namesAll params).foldl Walker.meet w ∧
        ∀ mapping, Extends ((Ty.namesAll params).foldl Walker.meet w).mapping mapping →
          (walkAll params w).1 =
            Ty.substituteAll (fun name => .var (renamed mapping name)) params := by
      clear ihr
      induction params generalizing w with
      | nil => exact ⟨rfl, fun _ _ => rfl⟩
      | cons p rest ih =>
        rw [List.forall_mem_cons] at ihp
        obtain ⟨hw, htype⟩ := ihp.1 w
        obtain ⟨hw', htypes⟩ := ih ihp.2 (walk p w).2
        rw [hw] at hw' htypes
        rw [walkAll_cons, Ty.namesAll, List.foldl_append]
        refine ⟨by rw [hw, hw'], fun mapping hextends => ?_⟩
        have hbefore := (Walker.extends_meets _ (Ty.namesAll rest)).trans hextends
        rw [Ty.substituteAll, ← htype mapping hbefore, ← htypes mapping hextends, hw]
    obtain ⟨hw, htypes⟩ := hparams
    obtain ⟨hw', htype⟩ := ihr (walkAll params w).2
    rw [hw] at hw' htype
    rw [walk_proc, Ty.names, List.foldl_append]
    refine ⟨by rw [hw, hw'], fun mapping hextends => ?_⟩
    have hbefore := (Walker.extends_meets _ result.names).trans hextends
    rw [Ty.substitute, ← htypes mapping hbefore, ← htype mapping hextends, hw]
  | pair first second ihf ihs =>
    obtain ⟨hw, hfirst⟩ := ihf w
    obtain ⟨hw', hsecond⟩ := ihs (walk first w).2
    rw [hw] at hw' hsecond
    rw [walk_pair, Ty.names, List.foldl_append]
    refine ⟨by rw [hw, hw'], fun mapping hextends => ?_⟩
    have hbefore := (Walker.extends_meets _ second.names).trans hextends
    rw [Ty.substitute, ← hfirst mapping hbefore, ← hsecond mapping hextends, hw]
  | _ => exact ⟨rfl, fun _ _ => rfl⟩

/-! ## the names drawn before the walk -/

theorem eraseDups_concat (names : List String) (name : String) :
    (names ++ [name]).eraseDups =
      if name ∈ names then names.eraseDups else names.eraseDups ++ [name] := by
  rw [List.eraseDups_append, List.removeAll]
  by_cases h : name ∈ names
  · rw [if_pos h, List.filter_cons_of_neg (by simpa using h)]
    exact List.append_nil _
  · rw [if_neg h, List.filter_cons_of_pos (by simpa using h)]
    rfl

theorem nodup_eraseDups (names : List String) : names.eraseDups.Nodup := by
  induction names using List.reverseRecOn with
  | nil => exact List.nodup_nil
  | append_singleton names name ih =>
    rw [eraseDups_concat]
    split
    · exact ih
    · rename_i h
      refine List.nodup_append.mpr ⟨ih, List.nodup_singleton name, fun n hn n' hn' heq => h ?_⟩
      rw [← List.mem_singleton.mp hn', ← heq]
      exact List.mem_eraseDups.mp hn

/-- A name is drawn where a variable is met for the first time. -/
theorem foldl_meet (names : List String) (s : Supply) :
    names.foldl Walker.meet ⟨[], s⟩ =
      ⟨(freshEach names.eraseDups s).1, (freshEach names.eraseDups s).2⟩ := by
  induction names using List.reverseRecOn with
  | nil => rfl
  | append_singleton names name ih =>
    have hkeys := map_fst_freshEach names.eraseDups s
    rw [List.foldl_append, ih, List.foldl_cons, List.foldl_nil, Walker.meet, eraseDups_concat]
    by_cases h : name ∈ names
    · have hmet : (freshEach names.eraseDups s).1.lookup name ≠ none := by
        rw [Ne, lookup_eq_none_iff_not_mem, hkeys, List.mem_eraseDups, not_not]
        exact h
      obtain ⟨new, hnew⟩ := Option.ne_none_iff_exists'.mp hmet
      simp only [hnew, if_pos h]
    · have hnone : (freshEach names.eraseDups s).1.lookup name = none := by
        rw [lookup_eq_none_iff_not_mem, hkeys, List.mem_eraseDups]
        exact h
      simp only [hnone, if_neg h, freshEach_append]
      rfl

theorem walk_start (t : Ty) (s : Supply) :
    walk t ⟨[], s⟩ =
      ((rename t s).1, ⟨(freshEach t.names.eraseDups s).1, (rename t s).2⟩) := by
  obtain ⟨hw, htype⟩ := walk_spec t ⟨[], s⟩
  rw [foldl_meet] at hw htype
  exact Prod.ext (htype _ fun _ _ => id) hw

/-- Where each variable stands once, a mapping is the list of its values. -/
theorem map_renamed {mapping : List (String × String)} (h : (mapping.map Prod.fst).Nodup) :
    (mapping.map Prod.fst).map (fun name => (name, renamed mapping name)) = mapping := by
  have hid : mapping.map (fun p => (p.1, renamed mapping p.1)) = mapping.map id := by
    refine List.map_congr_left ?_
    rintro ⟨name, new⟩ hmem
    rw [renamed, (lookup_eq_some_iff_mem h).mpr hmem]
    rfl
  rw [List.map_map]
  exact hid.trans (List.map_id mapping)

/-- A renamed type is the type under an injective map of its variables to names that are not
reserved, and that no call before or after returns. One name is drawn for each variable, in the
order in which the variables occur first. -/
theorem rename_freshly (t : Ty) (s : Supply) :
    ∃ m : String → String, (rename t s).1 = t.rename m ∧
      (∀ n ∈ t.names, ∀ n' ∈ t.names, m n = m n' → n = n') ∧
      (∀ n ∈ t.names, m n ∉ s.reserved ∧
        (∀ s₀ bases names, Calls s₀ bases names s → m n ∉ names) ∧
        ∀ bases names s', Calls (rename t s).2 bases names s' → m n ∉ names) ∧
      Calls s t.names.eraseDups (t.names.eraseDups.map m) (rename t s).2 ∧
      walk t ⟨[], s⟩ =
        ((rename t s).1, ⟨t.names.eraseDups.map fun n => (n, m n), (rename t s).2⟩) ∧
      (t.names = [] → rename t s = (t, s)) := by
  have hkeys := map_fst_freshEach t.names.eraseDups s
  have hmapping := map_renamed (hkeys.symm ▸ nodup_eraseDups t.names)
  have hcalls := calls_freshEach t.names.eraseDups s
  rw [hkeys] at hmapping
  rw [← hmapping, List.map_map] at hcalls
  have hmem : ∀ n ∈ t.names, renamed (freshEach t.names.eraseDups s).1 n ∈
      t.names.eraseDups.map (renamed (freshEach t.names.eraseDups s).1) := by
    intro n hn
    exact List.mem_map_of_mem (List.mem_eraseDups.mpr hn)
  refine ⟨renamed (freshEach t.names.eraseDups s).1, rfl, fun n hn n' hn' heq => ?_,
    fun n hn => ⟨?_, ?_, ?_⟩, hcalls, ?_, fun hnil => ?_⟩
  · exact List.inj_on_of_nodup_map hcalls.nodup (List.mem_eraseDups.mpr hn)
      (List.mem_eraseDups.mpr hn') heq
  · exact (hcalls.drawn _ (hmem n hn)).1
  · intro s₀ bases names hbefore hname
    exact hbefore.not_later hcalls _ hname (hmem n hn)
  · intro bases names s' hafter
    exact hcalls.not_later hafter _ (hmem n hn)
  · rw [walk_start, hmapping]
  · show ((t.rename _), (freshEach t.names.eraseDups s).2) = (t, s)
    rw [Ty.rename_eq_self (by rw [hnil]; exact nofun), hnil]
    rfl

end Supply

end AnnotatedScheme
