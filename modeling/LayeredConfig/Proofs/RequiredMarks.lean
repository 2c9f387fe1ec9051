import LayeredConfig.Proofs.Aliases
import LayeredConfig.Proofs.Required
import Mathlib.Data.List.Basic

/-! # What is extracted

The extraction takes away all that is not a required mark, and then the lists and maps of which nothing is left. What
remains has the marks of the value, each once, and nothing else; so a second extraction takes nothing away.
-/
namespace LayeredConfig.Value
variable {t v w : Value} {items : List Value} {fields : Fields}

theorem requiredItems_eq_filterMap : requiredItems items = items.filterMap required? := by
  induction items with
  | nil => rfl
  | cons v rest ih =>
    rw [requiredItems, ih, List.filterMap_cons]
    cases v.required? <;> rfl

theorem requiredFields_eq_filterMap :
    requiredFields fields = fields.filterMap fun p => p.2.required?.map (Prod.mk p.1) := by
  induction fields with
  | nil => rfl
  | cons p rest ih =>
    rw [requiredFields, ih, List.filterMap_cons]
    cases p.2.required? <;> rfl

theorem required?_list_eq_some_iff :
    (list items).required? = some t ↔ requiredItems items ≠ [] ∧ t = list (requiredItems items) := by
  rw [required?]
  split
  · next h => simp [h]
  · next h => exact ⟨fun he => ⟨h, (Option.some.inj he).symm⟩, fun he => congrArg some he.2.symm⟩

theorem required?_map_eq_some_iff :
    (map fields).required? = some t ↔ requiredFields fields ≠ [] ∧ t = map (requiredFields fields) := by
  rw [required?]
  split
  · next h => simp [h]
  · next h => exact ⟨fun he => ⟨h, (Option.some.inj he).symm⟩, fun he => congrArg some he.2.symm⟩

def MarkOrFilled : Value → Prop
  | list items => items ≠ []
  | map fields => fields ≠ []
  | v => v = string requiredMark

/-- All leaves are required marks, and no list or map is empty. -/
def OnlyRequired (t : Value) : Prop := ∀ w : Value, w.Inside t → w.MarkOrFilled

namespace OnlyRequired

theorem inside (h : t.OnlyRequired) (hw : w.Inside t) : w.OnlyRequired := fun u hu => h u (hu.trans hw)

theorem mark : (string requiredMark).OnlyRequired := by
  rintro w ⟨⟩
  rfl

theorem list (hne : items ≠ []) (h : ∀ v ∈ items, v.OnlyRequired) : (list items).OnlyRequired := by
  intro w hw
  rcases Inside.list_iff.mp hw with rfl | ⟨v,hv,hw⟩
  · exact hne
  · exact h v hv w hw

theorem map (hne : fields ≠ []) (h : ∀ key v, (key, v) ∈ fields → v.OnlyRequired) : (map fields).OnlyRequired := by
  intro w hw
  rcases Inside.map_iff.mp hw with rfl | ⟨key,v,hv,hw⟩
  · exact hne
  · exact h key v hv w hw

/-- From such a value nothing is taken away. -/
theorem required?_eq_self (h : t.OnlyRequired) : t.required? = some t := by
  induction t with
  | list items ih =>
    have hself : requiredItems items = items := by
      rw [requiredItems_eq_filterMap, List.filterMap_congr fun v hv => ih v hv (h.inside (.item hv .refl)),
        List.filterMap_some]
    have hne : items ≠ [] := h _ .refl
    exact required?_list_eq_some_iff.mpr (by simp [hself, hne])
  | map fields ih =>
    have hself : requiredFields fields = fields := by
      have hfield : ∀ p ∈ fields, p.2.required?.map (Prod.mk p.1) = some p := by
        rintro ⟨key,v⟩ hv
        rw [ih key v hv (h.inside (.field hv .refl))]
        rfl
      rw [requiredFields_eq_filterMap, List.filterMap_congr hfield, List.filterMap_some]
    have hne : fields ≠ [] := h _ .refl
    exact required?_map_eq_some_iff.mpr (by simp [hself, hne])
  | _ =>
    have hmark : _ = string requiredMark := h _ .refl
    rw [hmark]
    rfl

end OnlyRequired

theorem onlyRequired_of_required? (h : v.required? = some t) : t.OnlyRequired := by
  induction v generalizing t with
  | list items ih =>
    obtain ⟨hne,rfl⟩ := required?_list_eq_some_iff.mp h
    refine .list hne ?_
    intro w hw
    rw [requiredItems_eq_filterMap] at hw
    obtain ⟨v,hv,hw⟩ := List.mem_filterMap.mp hw
    exact ih v hv hw
  | map fields ih =>
    obtain ⟨hne,rfl⟩ := required?_map_eq_some_iff.mp h
    refine .map hne ?_
    intro key w hw
    rw [requiredFields_eq_filterMap] at hw
    obtain ⟨⟨l,v⟩,hv,hp⟩ := List.mem_filterMap.mp hw
    obtain ⟨u,hu,he⟩ := Option.map_eq_some_iff.mp hp
    cases he
    exact ih l v hv hu
  | string s =>
    rw [required?] at h
    split at h
    · next hs =>
      cases h
      subst hs
      exact .mark
    · cases h
  | _ => cases h

/-! ## How many marks there are -/

def isRequired : Value → Bool
  | string s => s == requiredMark
  | _ => false

def requiredCount (v : Value) : Nat := v.parts.countP isRequired

theorem requiredCount_list : (list items).requiredCount = (partsOfItems items).countP isRequired := by
  rw [requiredCount, parts, List.countP_cons_of_neg (by simp [isRequired])]

theorem requiredCount_map : (map fields).requiredCount = (partsOfFields fields).countP isRequired := by
  rw [requiredCount, parts, List.countP_cons_of_neg (by simp [isRequired])]

theorem countP_requiredItems (h : ∀ v ∈ items, v.required?.elim 0 requiredCount = v.requiredCount) :
    (partsOfItems (requiredItems items)).countP isRequired = (partsOfItems items).countP isRequired := by
  induction items with
  | nil => rfl
  | cons v rest ih =>
    obtain ⟨hv,hrest⟩ := List.forall_mem_cons.mp h
    rw [requiredItems, partsOfItems, List.countP_append, ← ih hrest, ← requiredCount, ← hv]
    cases v.required? with
    | none => simp
    | some w => simp [partsOfItems, requiredCount]

theorem countP_requiredFields (h : ∀ key v, (key, v) ∈ fields → v.required?.elim 0 requiredCount = v.requiredCount) :
    (partsOfFields (requiredFields fields)).countP isRequired = (partsOfFields fields).countP isRequired := by
  induction fields with
  | nil => rfl
  | cons p rest ih =>
    obtain ⟨key,v⟩ := p
    obtain ⟨hv,hrest⟩ := Fields.forall_mem_cons.mp h
    rw [requiredFields, partsOfFields, List.countP_append, ← ih hrest, ← requiredCount, ← hv]
    cases v.required? with
    | none => simp
    | some w => simp [partsOfFields, requiredCount]

/-- What the extraction leaves out has no marks. -/
theorem requiredCount_required? : v.required?.elim 0 requiredCount = v.requiredCount := by
  induction v with
  | list items ih =>
    rw [requiredCount_list, ← countP_requiredItems ih, required?]
    split
    · next h => simp [h, partsOfItems]
    · exact requiredCount_list
  | map fields ih =>
    rw [requiredCount_map, ← countP_requiredFields ih, required?]
    split
    · next h => simp [h, partsOfFields]
    · exact requiredCount_map
  | string s =>
    rw [required?]
    split
    · next h => simp [h]
    · next h => simp [requiredCount, parts, isRequired, h]
  | _ => rfl

theorem DirectiveFree.finished_iff (h : v.DirectiveFree) : v.Finished ↔ ¬ (string requiredMark).Inside v :=
  ⟨fun hf => hf.required, fun hr => ⟨h, hr⟩⟩

/-- The extraction keeps all required marks and nothing else, and finds what the check of an output finds. -/
theorem required?_keeps_marks (v : Value) :
    (v.required? = none ↔ ¬ (string requiredMark).Inside v) ∧
      (∀ t, v.required? = some t →
        t.OnlyRequired ∧ t.requiredCount = v.requiredCount ∧ t.required? = some t) ∧
      (v.DirectiveFree → (v.checkFinished = .ok () ↔ v.required? = none)) := by
  refine ⟨required?_eq_none_iff, ?_, ?_⟩
  · intro t h
    have honly := onlyRequired_of_required? h
    refine ⟨honly, ?_, honly.required?_eq_self⟩
    rw [← requiredCount_required? (v := v), h, Option.elim_some]
  · intro h
    rw [required?_eq_none_iff, ← h.finished_iff]
    exact checkAt_eq_ok_iff

theorem required?_keeps_marks_image :
    let v := map [("env", map [("debug", string "0")]), ("image", string requiredMark),
      ("ports", list [list [], null, map [("host", string requiredMark), ("name", string "web")]])]
    let t := map [("image", string requiredMark), ("ports", list [map [("host", string requiredMark)]])]
    v.required? = some t ∧ t.OnlyRequired ∧ t.requiredCount = v.requiredCount ∧ v.requiredCount = 2 ∧
      t.required? = some t ∧ v.DirectiveFree ∧ v.checkFinished ≠ .ok () := by
  intro v t
  have ht : v.required? = some t := by rfl
  obtain ⟨_,hkept,hcheck⟩ := required?_keeps_marks v
  obtain ⟨honly,hcount,hself⟩ := hkept t ht
  have hfree : v.DirectiveFree := by decide
  refine ⟨ht, honly, hcount, by rfl, hself, hfree, ?_⟩
  rw [ne_eq, hcheck hfree, ht]
  nofun

end LayeredConfig.Value
