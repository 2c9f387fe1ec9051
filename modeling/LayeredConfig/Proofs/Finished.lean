import LayeredConfig.Output
import LayeredConfig.Proofs.Results
import LayeredConfig.Proofs.Subtrees

/-! # Outputs and their check

What a document puts out is the document itself, or maps inside it without their marks. The check walks a
value in order and stops at the first directive or required mark. It succeeds on the values that hold
neither, wherever in a document the walk began.
-/
namespace LayeredConfig
variable {v w : Value} {key : String} {items : List Value} {fields : Fields} {place : List String}
variable {index : Nat}

namespace Directive

theorem mem_all (d : Directive) : d ∈ all := by cases d <;> decide

theorem isKey_eq_true_iff : isKey key = true ↔ ∃ d : Directive, d.key = key := by
  simp [isKey, mem_all]

theorem ne_key (h : isKey key = false) (d : Directive) : key ≠ d.key := by
  rintro rfl
  rw [isKey_eq_true_iff.mpr ⟨d, rfl⟩] at h
  cases h

end Directive

theorem isSelected_iff :
    isSelected fields = true ↔ fields.get? Directive.output.key = some (.bool true) := by
  rw [isSelected]
  split
  · next h => simp [h]
  · next h => simpa using h

namespace Value

theorem selectedItems_eq_flatMap : selectedItems items = items.flatMap selected := by
  induction items with
  | nil => rfl
  | cons v rest ih => rw [selectedItems, ih, List.flatMap_cons]

theorem selectedFields_eq_flatMap : selectedFields fields = fields.flatMap (·.2.selected) := by
  induction fields with
  | nil => rfl
  | cons p rest ih => rw [selectedFields, ih, List.flatMap_cons]

theorem hasSelectionItems_eq_any : hasSelectionItems items = items.any hasSelection := by
  induction items with
  | nil => rfl
  | cons v rest ih => rw [hasSelectionItems, ih, List.any_cons]

theorem hasSelectionFields_eq_any : hasSelectionFields fields = fields.any (·.2.hasSelection) := by
  induction fields with
  | nil => rfl
  | cons p rest ih => rw [hasSelectionFields, ih, List.any_cons]

/-- The walk that looks for a selected map finds one just if the walk that gathers them does. -/
theorem hasSelection_iff : v.hasSelection = true ↔ v.selected ≠ [] := by
  induction v with
  | list items ih =>
    simp only [hasSelection, hasSelectionItems_eq_any, List.any_eq_true, selected, selectedItems_eq_flatMap, ne_eq,
      List.flatMap_eq_nil_iff, Classical.not_forall, exists_prop]
    exact exists_congr fun v => and_congr_right (ih v)
  | map fields ih =>
    rw [hasSelection, selected]
    cases isSelected fields with
    | true => simp
    | false =>
      simp only [Bool.false_or, hasSelectionFields_eq_any, List.any_eq_true, Bool.false_eq_true, if_false,
        selectedFields_eq_flatMap, ne_eq, List.flatMap_eq_nil_iff, Classical.not_forall, exists_prop]
      exact exists_congr fun p => and_congr_right (ih p.1 p.2)
  | _ => simp [hasSelection, selected]

/-- Each selected map stands in the value with its mark. -/
theorem inside_of_mem_selected (h : w ∈ v.selected) :
    ∃ fields : Fields, (map fields).Inside v ∧ isSelected fields = true ∧
      w = map (fields.erase Directive.output.key) := by
  induction v with
  | list items ih =>
    rw [selected, selectedItems_eq_flatMap] at h
    obtain ⟨v,hv,hw⟩ := List.mem_flatMap.mp h
    obtain ⟨fields,hin,hs⟩ := ih v hv hw
    exact ⟨fields, .item hv hin, hs⟩
  | map fields ih =>
    rw [selected] at h
    split at h
    · next hs => exact ⟨fields, .refl, hs, List.mem_singleton.mp h⟩
    · rw [selectedFields_eq_flatMap] at h
      obtain ⟨⟨key,v⟩,hv,hw⟩ := List.mem_flatMap.mp h
      obtain ⟨gs,hin,hs⟩ := ih key v hv hw
      exact ⟨gs, .field hv hin, hs⟩
  | _ => cases h

theorem holdsField_of_hasSelection (h : v.hasSelection = true) :
    v.HoldsField Directive.output.key (bool true) := by
  obtain ⟨w,hw⟩ := List.exists_mem_of_ne_nil _ (hasSelection_iff.mp h)
  obtain ⟨fields,hin,hs,_⟩ := inside_of_mem_selected hw
  exact ⟨fields, hin, Fields.mem_of_get? (isSelected_iff.mp hs)⟩

theorem mem_outputs (h : w ∈ v.outputs) :
    w = v ∨ ∃ fields : Fields, (map fields).Inside v ∧ w = map (fields.erase Directive.output.key) := by
  rw [outputs] at h
  split at h
  · obtain ⟨fields,hin,_,hw⟩ := inside_of_mem_selected h
    exact Or.inr ⟨fields, hin, hw⟩
  · exact Or.inl (List.mem_singleton.mp h)

structure Finished (v : Value) : Prop where
  directive : ∀ d : Directive, ∀ w, ¬ v.HoldsField d.key w
  required : ¬ (string requiredMark).Inside v

theorem finished_list : (list items).Finished ↔ ∀ v ∈ items, v.Finished := by
  constructor
  · intro h v hv
    refine ⟨fun d w hw => h.directive d w (hw.inside (.item hv .refl)), ?_⟩
    intro hr
    exact h.required (.item hv hr)
  · intro h
    constructor
    · intro d w hw
      obtain ⟨v,hv,hw⟩ := HoldsField.list_iff.mp hw
      exact (h v hv).directive d w hw
    · intro hr
      rcases Inside.list_iff.mp hr with he | ⟨v,hv,hr⟩
      · cases he
      · exact (h v hv).required hr

theorem finished_map :
    (map fields).Finished ↔
      ∀ key v, (key, v) ∈ fields → Directive.isKey key = false ∧ v.Finished := by
  constructor
  · intro h key v hv
    have hkey : ¬ Directive.isKey key = true := by
      intro hk
      obtain ⟨d,rfl⟩ := Directive.isKey_eq_true_iff.mp hk
      exact h.directive d v (HoldsField.map_iff.mpr (Or.inl hv))
    refine ⟨Bool.not_eq_true _ ▸ hkey, fun d w hw => h.directive d w (hw.inside (.field hv .refl)), ?_⟩
    intro hr
    exact h.required (.field hv hr)
  · intro h
    constructor
    · intro d w hw
      rcases HoldsField.map_iff.mp hw with hw | ⟨key,v,hv,hw⟩
      · have hk := Directive.isKey_eq_true_iff.mpr ⟨d, rfl⟩
        rw [(h _ w hw).1] at hk
        cases hk
      · exact (h key v hv).2.directive d w hw
    · intro hr
      rcases Inside.map_iff.mp hr with he | ⟨key,v,hv,hr⟩
      · cases he
      · exact (h key v hv).2.required hr

theorem checkItems_eq_ok_iff (h : ∀ v ∈ items, ∀ place, v.checkAt place = .ok () ↔ v.Finished) :
    checkItems place index items = .ok () ↔ ∀ v ∈ items, v.Finished := by
  induction items generalizing index with
  | nil => simp [checkItems]
  | cons x rest ih =>
    have hx := h x List.mem_cons_self (toString index :: place)
    have hrest := @ih (index + 1) fun v hv => h v (List.mem_cons_of_mem _ hv)
    rw [checkItems, bind_eq_ok_iff, List.forall_mem_cons, ← hx, ← hrest]
    exact ⟨fun ⟨_,hc,hr⟩ => ⟨hc, hr⟩, fun ⟨hc,hr⟩ => ⟨_, hc, hr⟩⟩

theorem checkFields_eq_ok_iff
    (h : ∀ key v, (key, v) ∈ fields → ∀ place, v.checkAt place = .ok () ↔ v.Finished) :
    checkFields place fields = .ok () ↔
      ∀ key v, (key, v) ∈ fields → Directive.isKey key = false ∧ v.Finished := by
  induction fields with
  | nil => simp [checkFields]
  | cons p rest ih =>
    obtain ⟨l,x⟩ := p
    have hx := h l x List.mem_cons_self (l :: place)
    have hrest := ih fun key v hv => h key v (List.mem_cons_of_mem _ hv)
    rw [checkFields, Fields.forall_mem_cons, ← hx, ← hrest]
    cases hl : Directive.isKey l with
    | true =>
      constructor
      · rintro ⟨⟩
      · rintro ⟨⟨⟨⟩,_⟩,_⟩
    | false =>
      simp only [Bool.false_eq_true, if_false, bind_eq_ok_iff, true_and]
      exact ⟨fun ⟨_,hc,hr⟩ => ⟨hc, hr⟩, fun ⟨hc,hr⟩ => ⟨_, hc, hr⟩⟩

/-- The check accepts exactly the finished values, whatever place it reports failures from. -/
theorem checkAt_eq_ok_iff : v.checkAt place = .ok () ↔ v.Finished := by
  induction v generalizing place with
  | list items ih =>
    rw [checkAt, checkItems_eq_ok_iff fun v hv _ => ih v hv, finished_list]
  | map fields ih =>
    rw [checkAt, checkFields_eq_ok_iff fun key v hv _ => ih key v hv, finished_map]
  | string s =>
    rw [checkAt]
    split
    · next h =>
      subst h
      constructor
      · rintro ⟨⟩
      · intro h
        exact absurd .refl h.required
    · next h =>
      refine iff_of_true rfl ⟨fun _ _ => HoldsField.not_leaf rfl, ?_⟩
      rintro ⟨⟩
      exact h rfl
  | _ =>
    refine iff_of_true rfl ⟨fun _ _ => HoldsField.not_leaf rfl, ?_⟩
    rintro ⟨⟩

end Value
end LayeredConfig
