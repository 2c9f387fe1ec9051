import LayeredConfig.Proofs.Canonical

/-! # Canonical forms of canonical forms

A map is looked at before its fields are, so a date that stands in the place of another date's text becomes
that text only after the map around it was passed over. Taking the canonical form again then changes it.
Nothing else does: numbers and all other maps are settled at once.
-/
namespace LayeredConfig.Value
variable {v w : Value} {text : String}

/-- The map that carries a date, here with any value in the place of its text. -/
def datetime (v : Value) : Value := map [(datetimeKey, v)]

theorem canonical_datetime_string : (datetime (string text)).canonical = string text := by
  rw [datetime, canonical, if_pos rfl]

theorem canonical_datetime_datetime : (datetime (datetime v)).canonical = datetime (datetime v).canonical := rfl

theorem canonical_eq_string_iff :
    v.canonical = string text ↔ v = string text ∨ v = datetime (string text) := by
  constructor
  · intro h
    cases v with
    | map fields =>
      rcases @canonical_map fields with hc | ⟨s,rfl,hc⟩
      · rw [hc] at h
        cases h
      · rw [hc] at h
        cases h
        exact Or.inr rfl
    | string s => exact Or.inl h
    | _ => cases h
  · rintro (rfl | rfl)
    · rfl
    · exact canonical_datetime_string

/-- Parts stay parts; of a date the only part is its text. -/
theorem Inside.canonical (h : w.Inside v) : w.canonical.Inside v.canonical := by
  induction h with
  | refl => exact .refl
  | @item v items hv _ ih =>
    rw [Value.canonical, canonicalItems_eq_map]
    exact .item (List.mem_map_of_mem hv) ih
  | @field key v fields hv _ ih =>
    rcases @canonical_map fields with hc | ⟨text,rfl,hc⟩
    · rw [hc, canonicalFields_eq_map]
      exact .field (List.mem_map_of_mem hv) ih
    · cases List.mem_singleton.mp hv
      rwa [hc]

/-- A map that is no date is settled with its fields, unless it becomes a date as a date in it becomes a text. -/
theorem canonical_canonical_map {fields : Fields} (hc : (map fields).canonical = map (canonicalFields fields))
    (ih : ∀ key v, (key, v) ∈ fields → v.canonical.canonical = v.canonical)
    (h : ∀ text, map fields ≠ datetime (datetime (string text))) :
    (map fields).canonical.canonical = (map fields).canonical := by
  rw [hc]
  rcases @canonical_map (canonicalFields fields) with hcc | ⟨text,hfields,_⟩
  · rw [hcc]
    simp only [canonicalFields_eq_map, List.map_map]
    refine congrArg map (List.map_congr_left ?_)
    rintro ⟨key,v⟩ hv
    exact Prod.ext rfl (ih key v hv)
  · rw [canonicalFields_eq_map] at hfields
    obtain ⟨⟨key,v⟩,rfl,he⟩ := List.map_eq_singleton_iff.mp hfields
    obtain ⟨rfl,hv⟩ := Prod.mk.inj he
    rcases canonical_eq_string_iff.mp hv with rfl | rfl
    · cases hc.symm.trans canonical_datetime_string
    · exact absurd rfl (h text)

/-- The canonical form is final if and only if no date stands in the place of another date's text. -/
theorem canonical_canonical_iff :
    v.canonical.canonical = v.canonical ↔ ∀ text, ¬ (datetime (datetime (string text))).Inside v := by
  constructor
  · intro h text hin
    have hfixed := canonical_eq_self_of_inside h hin.canonical
    rw [canonical_datetime_datetime, canonical_datetime_string, canonical_datetime_string] at hfixed
    cases hfixed
  · intro h
    induction v with
    | list items ih =>
      simp only [canonical, canonicalItems_eq_map, List.map_map]
      refine congrArg list (List.map_congr_left ?_)
      intro v hv
      exact ih v hv fun text hin => h text (.item hv hin)
    | map fields ih =>
      rcases @canonical_map fields with hc | ⟨text,_,hc⟩
      · refine canonical_canonical_map hc ?_ ?_
        · intro key v hv
          exact ih key v hv fun text hin => h text (.field hv hin)
        · intro text he
          exact h text (he ▸ .refl)
      · rw [hc]
        rfl
    | number n => exact congrArg number n.canonical_canonical
    | _ => rfl

/-- A date in a date takes two steps to become a text. -/
theorem not_idempotent_of_nested_datetime :
    let v := datetime (datetime (string "1979-05-27"))
    v.canonical = datetime (string "1979-05-27") ∧ v.canonical.canonical = string "1979-05-27" ∧
      v.canonical.canonical ≠ v.canonical := by
  intro v
  have h : v.canonical = datetime (string "1979-05-27") := by
    rw [canonical_datetime_datetime, canonical_datetime_string]
  refine ⟨h, ?_, ?_⟩
  · rw [h, canonical_datetime_string]
  · rw [h, canonical_datetime_string]
    intro he
    cases he

end LayeredConfig.Value
