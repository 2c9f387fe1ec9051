import LayeredConfig.Proofs.Numbers
import LayeredConfig.Proofs.Shapes

/-! # The canonical form of a tree

The canonical form is taken part by part, except that a map which carries a date becomes a text. Leaves in
canonical form that count as the same are equal.
-/
namespace LayeredConfig

namespace Value
variable {v w : Value} {items : List Value} {fields : Fields} {key : String}

theorem canonicalItems_eq_map : canonicalItems items = items.map canonical := by
  induction items with
  | nil => rfl
  | cons v rest ih => rw [canonicalItems, ih, List.map_cons]

theorem canonicalFields_eq_map :
    canonicalFields fields = fields.map fun p => (p.1, p.2.canonical) := by
  induction fields with
  | nil => rfl
  | cons p rest ih => rw [canonicalFields, ih, List.map_cons]

theorem canonical_map :
    (map fields).canonical = map (canonicalFields fields) ∨
      ∃ text, fields = [(datetimeKey, string text)] ∧ (map fields).canonical = string text := by
  cases fields with
  | nil => exact Or.inl rfl
  | cons p rest =>
    obtain ⟨key,v⟩ := p
    cases rest with
    | nil =>
      cases v with
      | string text =>
        rw [canonical]
        by_cases hk : key = datetimeKey
        · exact Or.inr ⟨text, by rw [hk], if_pos hk⟩
        · exact Or.inl (if_neg hk)
      | _ => exact Or.inl rfl
    | cons q rest => cases v <;> exact Or.inl rfl

/-- Keys are not touched, so their order stays. -/
theorem Ordered.canonical (h : v.Ordered) : v.canonical.Ordered := by
  induction v with
  | list items ih =>
    rw [Value.canonical, canonicalItems_eq_map]
    refine ordered_list.mpr ?_
    intro w hw
    obtain ⟨v,hv,rfl⟩ := List.mem_map.mp hw
    exact ih v hv (ordered_list.mp h v hv)
  | map fields ih =>
    rcases @canonical_map fields with hc | ⟨text,_,hc⟩
    · rw [hc, canonicalFields_eq_map]
      refine ordered_map.mpr ⟨List.pairwise_map.mpr h.ascending, ?_⟩
      intro key w hw
      obtain ⟨⟨l,v⟩,hv,he⟩ := List.mem_map.mp hw
      cases he
      exact ih l v hv (h.field hv)
    · rw [hc]
      trivial
  | _ => trivial

theorem ListFree.canonical (h : v.ListFree) : v.canonical.ListFree := by
  induction v with
  | list items _ => exact absurd .refl (h items)
  | map fields ih =>
    rcases @canonical_map fields with hc | ⟨text,_,hc⟩
    · rw [hc, canonicalFields_eq_map]
      refine listFree_map_iff.mpr ?_
      intro key w hw
      obtain ⟨⟨l,v⟩,hv,he⟩ := List.mem_map.mp hw
      cases he
      exact ih l v hv (listFree_map_iff.mp h l v hv)
    · rw [hc]
      exact listFree_of_isLeaf rfl
  | _ => exact listFree_of_isLeaf rfl

theorem reach_canonical_le : v.canonical.reach ≤ v.reach := by
  induction v with
  | list items ih =>
    rw [Value.canonical, canonicalItems_eq_map]
    refine reach_list_le_iff.mpr ?_
    intro w hw
    obtain ⟨v,hv,rfl⟩ := List.mem_map.mp hw
    exact Nat.lt_of_le_of_lt (ih v hv) (reach_lt_of_mem_items hv)
  | map fields ih =>
    rcases @canonical_map fields with hc | ⟨text,_,hc⟩
    · rw [hc, canonicalFields_eq_map]
      refine reach_map_le_iff.mpr ?_
      intro key w hw
      obtain ⟨⟨l,v⟩,hv,he⟩ := List.mem_map.mp hw
      cases he
      exact Nat.lt_of_le_of_lt (ih l v hv) (reach_lt_of_mem_fields hv)
    · rw [hc]
      exact Nat.zero_le _
  | _ => exact Nat.le_refl _

theorem get?_canonicalFields :
    Fields.get? key (canonicalFields fields) = (fields.get? key).map canonical := by
  induction fields with
  | nil => rfl
  | cons p rest ih =>
    obtain ⟨l,x⟩ := p
    rw [canonicalFields, Fields.get?_cons, Fields.get?_cons, ih]
    split <;> rfl

/-- What stands inside a value in canonical form is in canonical form. -/
theorem canonical_eq_self_of_inside (h : v.canonical = v) (hw : w.Inside v) : w.canonical = w := by
  induction hw with
  | refl => exact h
  | @item v items hv _ ih =>
    rw [canonical, canonicalItems_eq_map] at h
    have hself : items.map Value.canonical = items.map id := by rw [Value.list.inj h, List.map_id]
    exact ih (List.map_inj_left.mp hself v hv)
  | @field key v fields hv _ ih =>
    refine ih ?_
    rcases @canonical_map fields with hc | ⟨text,_,hc⟩
    · rw [hc, canonicalFields_eq_map] at h
      have hself : fields.map (fun p => (p.1, p.2.canonical)) = fields.map id := by
        rw [Value.map.inj h, List.map_id]
      exact (Prod.mk.inj (List.map_inj_left.mp hself (key, v) hv)).2
    · rw [hc] at h
      cases h

theorem same_self (h : v.isLeaf = true) : v.same v = true := by
  cases v with
  | list items => cases h
  | map fields => cases h
  | number n => exact n.same_self
  | _ => simp [same]

theorem eq_string_of_same {s : String} (h : v.same (string s) = true) : v = string s := by
  cases v <;> simp_all [same]

theorem isLeaf_of_same (hv : v.isLeaf = true) (h : v.same w = true) : w.isLeaf = true := by
  cases v <;> cases w <;> simp_all [same, isLeaf]

theorem same_congr (hv : v.isLeaf = true) (h : v.same w = true) (u : Value) : v.same u = w.same u := by
  cases v with
  | list items => cases hv
  | map fields => cases hv
  | number m =>
    cases w with
    | number n =>
      cases u with
      | number k => exact Number.same_congr h k
      | _ => rfl
    | _ => cases h
  | _ => cases w <;> cases u <;> simp_all [same]

/-- Where one side is in canonical form, leaves that count as the same are equal. -/
theorem eq_of_same (hw : w.isLeaf = true) (hc : v.canonical = v) (h : v.same w = true) : v = w := by
  cases w with
  | list items => cases hw
  | map fields => cases hw
  | number n =>
    cases v with
    | number m => rw [Number.eq_of_same (Value.number.inj hc) h]
    | _ => cases h
  | _ => cases v <;> simp_all [same]

theorem same_iff_of_canonical (hc : v.canonical = v) (h : v.isScalar = true ∨ w.isScalar = true) :
    v.same w = true ↔ v = w := by
  constructor
  · intro hsame
    refine eq_of_same ?_ hc hsame
    rcases h with hv | hw
    · exact isLeaf_of_same (isLeaf_of_isScalar hv) hsame
    · exact isLeaf_of_isScalar hw
  · rintro rfl
    exact same_self (isLeaf_of_isScalar (h.elim id id))

end Value
end LayeredConfig
