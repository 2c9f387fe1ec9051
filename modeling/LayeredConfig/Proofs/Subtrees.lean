import LayeredConfig.Proofs.Fields
import LayeredConfig.Value.Path

/-! # Values inside a value

`Inside` relates a value to all that stands in it, at any depth and itself included. What a path leads
to is inside, and so is what a scalar, list or map is made of; a law that holds inside a value is
therefore a law of every part of it.
-/
namespace LayeredConfig.Value
variable {u v w : Value} {key : String} {items : List Value} {fields : Fields}

/-- Induction with the elements of a list and the values of a map as the smaller cases. -/
@[elab_as_elim, induction_eliminator]
theorem induction {motive : Value → Prop} (null : motive null) (bool : ∀ b, motive (bool b))
    (number : ∀ n, motive (number n)) (string : ∀ s, motive (string s))
    (list : ∀ items, (∀ v ∈ items, motive v) → motive (list items))
    (map : ∀ fields, (∀ key v, (key, v) ∈ fields → motive v) → motive (map fields)) : ∀ v, motive v
  | .null => null
  | .bool b => bool b
  | .number n => number n
  | .string s => string s
  | .list items => list items fun v _ => induction null bool number string list map v
  | .map fields => map fields fun _ v _ => induction null bool number string list map v
termination_by v => sizeOf v
decreasing_by
  · next h =>
    have hlt := List.sizeOf_lt_of_mem h
    simp only [Value.list.sizeOf_spec]
    omega
  · next h =>
    have hlt := List.sizeOf_lt_of_mem h
    simp only [Prod.mk.sizeOf_spec] at hlt
    simp only [Value.map.sizeOf_spec]
    omega

/-- Induction for operations that look into maps only. -/
@[elab_as_elim]
theorem descend {motive : Value → Prop}
    (step : ∀ v, (∀ fields key w, v = map fields → (key, w) ∈ fields → motive w) → motive v)
    (v : Value) : motive v := by
  induction v with
  | map fields ih =>
    refine step _ ?_
    intro gs key w he hw
    cases he
    exact ih key w hw
  | _ => exact step _ fun _ _ _ he => nomatch he

def isLeaf : Value → Bool
  | list _ => false
  | map _ => false
  | _ => true

def isScalar (v : Value) : Bool := v.isLeaf && !v.isNull

theorem not_isScalar_map : ¬ (map fields).isScalar = true := by simp [isScalar, isLeaf]

theorem isLeaf_of_isScalar (h : v.isScalar = true) : v.isLeaf = true := by
  rw [isScalar, Bool.and_eq_true] at h
  exact h.1

theorem ne_null_of_isScalar (h : v.isScalar = true) : v ≠ null := by
  rintro rfl
  cases h

theorem kind_eq_map_iff : v.kind = .map ↔ ∃ fields, v = map fields := by cases v <;> simp [kind]

theorem not_isScalar_of_kind (h : v.kind = .map) : ¬ v.isScalar = true := by
  obtain ⟨fields,rfl⟩ := kind_eq_map_iff.mp h
  exact not_isScalar_map

theorem hasKey_map_eq_false_iff : (map fields).hasKey key = false ↔ Fields.get? key fields = none := by
  simp [hasKey, field?]

theorem follow_cons_of_get? {path : List String} (h : Fields.get? key fields = some v) :
    (map fields).follow (key :: path) = v.follow path := by
  rw [follow, step, h]
  rfl

theorem follow_cons_of_isLeaf {path : List String} (h : v.isLeaf = true) :
    v.follow (key :: path) = none := by
  cases v with
  | list items => cases h
  | map fields => cases h
  | _ => rfl

theorem follow_singleton_of_get? (h : Fields.get? key fields = some v) :
    (map fields).follow [key] = some v := follow_cons_of_get? h

theorem follow_append {path rest : List String} :
    v.follow (path ++ rest) = (v.follow path).bind (·.follow rest) := by
  induction path generalizing v with
  | nil => rfl
  | cons key path ih =>
    rw [List.cons_append, follow, follow, Option.bind_assoc]
    exact congrArg _ (funext fun _ => ih)

theorem follow_concat_of_get? {path : List String} (h : v.follow path = some (map fields))
    (hw : Fields.get? key fields = some w) : v.follow (path ++ [key]) = some w := by
  rw [follow_append, h]
  exact follow_singleton_of_get? hw

/-- A value stands somewhere in another: it is the other, or inside an element or a field of it. -/
inductive Inside (w : Value) : Value → Prop where
  | refl : Inside w w
  | item {v : Value} {items : List Value} : v ∈ items → Inside w v → Inside w (list items)
  | field {key : String} {v : Value} {fields : Fields} :
      (key, v) ∈ fields → Inside w v → Inside w (map fields)

namespace Inside

theorem list_iff : w.Inside (list items) ↔ w = list items ∨ ∃ v ∈ items, w.Inside v := by
  constructor
  · intro h
    cases h with
    | refl => exact Or.inl rfl
    | item hv h => exact Or.inr ⟨_, hv, h⟩
  · rintro (rfl | ⟨v,hv,h⟩)
    · exact refl
    · exact item hv h

theorem map_iff :
    w.Inside (map fields) ↔ w = map fields ∨ ∃ key v, (key, v) ∈ fields ∧ w.Inside v := by
  constructor
  · intro h
    cases h with
    | refl => exact Or.inl rfl
    | field hv h => exact Or.inr ⟨_, _, hv, h⟩
  · rintro (rfl | ⟨key,v,hv,h⟩)
    · exact refl
    · exact field hv h

theorem trans (h : u.Inside v) (hv : v.Inside w) : u.Inside w := by
  induction hv with
  | refl => exact h
  | item hm _ ih => exact item hm ih
  | field hm _ ih => exact field hm ih

theorem of_step {s : String} (h : v.step s = some w) : w.Inside v := by
  cases v with
  | map fields => exact field (Fields.mem_of_get? h) refl
  | list items =>
    obtain ⟨n,_,hn⟩ := Option.bind_eq_some_iff.mp h
    exact item (List.mem_of_getElem? hn) refl
  | _ => simp [step] at h

theorem of_follow {path : List String} (h : v.follow path = some w) : w.Inside v := by
  induction path generalizing v with
  | nil =>
    cases h
    exact refl
  | cons s rest ih =>
    obtain ⟨u,hu,h⟩ := Option.bind_eq_some_iff.mp h
    exact (ih h).trans (of_step hu)

theorem of_atPath? {path : String} (h : v.atPath? path = some w) : w.Inside v := by
  have h := (Option.filter_eq_some_iff.mp h).1
  split at h
  · cases h
    exact refl
  · exact of_follow h

end Inside

def ListFree (v : Value) : Prop := ∀ items, ¬ (list items).Inside v

namespace ListFree

theorem inside (h : v.ListFree) (hu : u.Inside v) : u.ListFree := fun items hi => h items (hi.trans hu)

theorem get? (h : (map fields).ListFree) (hu : Fields.get? key fields = some u) : u.ListFree :=
  h.inside (.field (Fields.mem_of_get? hu) .refl)

theorem cases (h : v.ListFree) : v = null ∨ v.isScalar = true ∨ ∃ fields, v = map fields := by
  cases v with
  | null => exact Or.inl rfl
  | list items => exact absurd .refl (h items)
  | map fields => exact Or.inr (Or.inr ⟨fields, rfl⟩)
  | _ => exact Or.inr (Or.inl rfl)

/-- Without lists a path goes through maps. -/
theorem follow_cons_eq_some_iff {path : List String} (h : v.ListFree) :
    v.follow (key :: path) = some w ↔
      ∃ fields u, v = map fields ∧ Fields.get? key fields = some u ∧ u.follow path = some w := by
  constructor
  · intro hw
    obtain ⟨u,hu,hrest⟩ := Option.bind_eq_some_iff.mp hw
    cases v with
    | list items => exact absurd .refl (h items)
    | map fields => exact ⟨fields, u, rfl, hu, hrest⟩
    | _ => cases hu
  · rintro ⟨fields,u,rfl,hu,hw⟩
    rwa [follow_cons_of_get? hu]

end ListFree

theorem listFree_of_isLeaf (h : v.isLeaf = true) : v.ListFree := by
  intro items hi
  cases v with
  | list _ => cases h
  | map _ => cases h
  | _ => cases hi

theorem listFree_map_iff : (map fields).ListFree ↔ ∀ key v, (key, v) ∈ fields → v.ListFree := by
  constructor
  · intro h key v hv
    exact h.inside (.field hv .refl)
  · intro h items hi
    rcases Inside.map_iff.mp hi with he | ⟨key,v,hv,hi⟩
    · cases he
    · exact h key v hv items hi

mutual

def parts : Value → List Value
  | list items => list items :: partsOfItems items
  | map fields => map fields :: partsOfFields fields
  | v => [v]

def partsOfItems : List Value → List Value
  | [] => []
  | v :: rest => v.parts ++ partsOfItems rest

def partsOfFields : List (String × Value) → List Value
  | [] => []
  | (_, v) :: rest => v.parts ++ partsOfFields rest

end

theorem mem_partsOfItems : w ∈ partsOfItems items ↔ ∃ v ∈ items, w ∈ v.parts := by
  induction items with
  | nil => simp [partsOfItems]
  | cons v rest ih => simp [partsOfItems, ih]

theorem mem_partsOfFields : w ∈ partsOfFields fields ↔ ∃ key v, (key, v) ∈ fields ∧ w ∈ v.parts := by
  induction fields with
  | nil => simp [partsOfFields]
  | cons p rest ih =>
    obtain ⟨l,x⟩ := p
    simp only [partsOfFields, List.mem_append, ih, List.mem_cons, Prod.mk.injEq]
    constructor
    · rintro (h | ⟨key,v,hv,h⟩)
      · exact ⟨l, x, Or.inl ⟨rfl, rfl⟩, h⟩
      · exact ⟨key, v, Or.inr hv, h⟩
    · rintro ⟨key,v,⟨_,rfl⟩ | hv,h⟩
      · exact Or.inl h
      · exact Or.inr ⟨key, v, hv, h⟩

theorem inside_iff_mem_parts : w.Inside v ↔ w ∈ v.parts := by
  induction v with
  | list items ih =>
    simp only [Inside.list_iff, parts, List.mem_cons, mem_partsOfItems]
    exact or_congr_right (exists_congr fun v => and_congr_right (ih v))
  | map fields ih =>
    simp only [Inside.map_iff, parts, List.mem_cons, mem_partsOfFields]
    exact or_congr_right (exists₂_congr fun key v => and_congr_right (ih key v))
  | _ =>
    simp only [parts, List.mem_singleton]
    constructor
    · rintro ⟨⟩
      rfl
    · rintro rfl
      exact .refl

theorem listFree_iff : v.ListFree ↔ ∀ w ∈ v.parts, w.kind ≠ .list := by
  constructor
  · intro h w hw
    have hw := inside_iff_mem_parts.mpr hw
    cases w with
    | list items => exact absurd hw (h items)
    | _ => nofun
  · intro h items hi
    exact h _ (inside_iff_mem_parts.mp hi) rfl

instance (v : Value) : Decidable v.ListFree := decidable_of_iff _ listFree_iff.symm

mutual

def decideOrdered : (v : Value) → Decidable v.Ordered
  | null => .isTrue trivial
  | bool _ => .isTrue trivial
  | number _ => .isTrue trivial
  | string _ => .isTrue trivial
  | list items => decideOrderedItems items
  | map fields =>
    have : Decidable (OrderedFields fields) := decideOrderedFields fields
    inferInstanceAs (Decidable (fields.Pairwise (·.1 < ·.1) ∧ OrderedFields fields))

def decideOrderedItems : (items : List Value) → Decidable (OrderedItems items)
  | [] => .isTrue trivial
  | v :: rest =>
    have := decideOrdered v
    have := decideOrderedItems rest
    inferInstanceAs (Decidable (v.Ordered ∧ OrderedItems rest))

def decideOrderedFields : (fields : List (String × Value)) → Decidable (OrderedFields fields)
  | [] => .isTrue trivial
  | (_, v) :: rest =>
    have := decideOrdered v
    have := decideOrderedFields rest
    inferInstanceAs (Decidable (v.Ordered ∧ OrderedFields rest))

end

instance (v : Value) : Decidable v.Ordered := decideOrdered v

theorem ordered_list : (list items).Ordered ↔ ∀ v ∈ items, v.Ordered := by
  simp only [Ordered]
  induction items with
  | nil => simp [OrderedItems]
  | cons v rest ih => simp only [OrderedItems, ih, List.forall_mem_cons]

theorem ordered_map :
    (map fields).Ordered ↔ fields.Ascending ∧ ∀ key v, (key, v) ∈ fields → v.Ordered := by
  have hf : OrderedFields fields ↔ ∀ key v, (key, v) ∈ fields → v.Ordered := by
    induction fields with
    | nil => simp [OrderedFields]
    | cons p rest ih =>
      obtain ⟨l,x⟩ := p
      rw [OrderedFields, ih, Fields.forall_mem_cons]
  simp only [Ordered, hf]

theorem ordered_map_nil : (map []).Ordered := ordered_map.mpr ⟨.nil, fun _ _ hw => nomatch hw⟩

theorem ordered_of_isLeaf (h : v.isLeaf = true) : v.Ordered := by
  cases v with
  | list items => cases h
  | map fields => cases h
  | _ => trivial

theorem Ordered.ascending (h : (map fields).Ordered) : fields.Ascending := (ordered_map.mp h).1

theorem Ordered.field (h : (map fields).Ordered) (hv : (key, v) ∈ fields) : v.Ordered :=
  (ordered_map.mp h).2 key v hv

theorem Ordered.erase (h : (map fields).Ordered) : (map (fields.erase key)).Ordered :=
  ordered_map.mpr ⟨h.ascending.erase, fun _ _ hv => h.field (Fields.mem_erase hv)⟩

theorem Ordered.insert (h : (map fields).Ordered) (hv : v.Ordered) : (map (fields.insert key v)).Ordered := by
  refine ordered_map.mpr ⟨h.ascending.insert, ?_⟩
  intro k w hw
  rcases Fields.mem_insert hw with he | hw
  · cases he
    exact hv
  · exact h.field hw

theorem Ordered.inside (h : v.Ordered) (hw : w.Inside v) : w.Ordered := by
  induction hw with
  | refl => exact h
  | item hv _ ih => exact ih (ordered_list.mp h _ hv)
  | field hv _ ih => exact ih (h.field hv)

theorem height_le_of_mem (h : v ∈ items) : v.height ≤ heightItems items := by
  induction items with
  | nil => cases h
  | cons w items ih =>
    rw [heightItems]
    rcases List.mem_cons.mp h with rfl | h
    · exact Nat.le_max_left _ _
    · exact Nat.le_trans (ih h) (Nat.le_max_right _ _)

theorem height_le_of_mem_fields (h : (key, v) ∈ fields) : v.height ≤ heightFields fields := by
  induction fields with
  | nil => cases h
  | cons p fields ih =>
    obtain ⟨k,w⟩ := p
    rw [heightFields]
    rcases List.mem_cons.mp h with he | h
    · cases he
      exact Nat.le_max_left _ _
    · exact Nat.le_trans (ih h) (Nat.le_max_right _ _)

/-- Some map in a value, at any depth, holds a value under a key. -/
def HoldsField (v : Value) (key : String) (w : Value) : Prop :=
  ∃ fields, (map fields).Inside v ∧ (key, w) ∈ fields

namespace HoldsField

theorem inside (h : v.HoldsField key w) (hv : v.Inside u) : u.HoldsField key w := by
  obtain ⟨fields,hf,hw⟩ := h
  exact ⟨fields, hf.trans hv, hw⟩

theorem not_leaf (hv : v.isLeaf) : ¬ v.HoldsField key w := by
  rintro ⟨fields,hf,_⟩
  cases v with
  | list items => cases hv
  | map fields => cases hv
  | _ => cases hf

theorem list_iff : (list items).HoldsField key w ↔ ∃ v ∈ items, v.HoldsField key w := by
  constructor
  · rintro ⟨fields,hf,hw⟩
    rcases Inside.list_iff.mp hf with hf | ⟨v,hv,hf⟩
    · cases hf
    · exact ⟨v, hv, fields, hf, hw⟩
  · rintro ⟨v,hv,h⟩
    exact h.inside (.item hv .refl)

theorem map_iff :
    (map fields).HoldsField key w ↔
      (key, w) ∈ fields ∨ ∃ k v, (k, v) ∈ fields ∧ v.HoldsField key w := by
  constructor
  · rintro ⟨gs,hg,hw⟩
    rcases Inside.map_iff.mp hg with hg | ⟨k,v,hv,hg⟩
    · cases hg
      exact Or.inl hw
    · exact Or.inr ⟨k, v, hv, gs, hg, hw⟩
  · rintro (hw | ⟨k,v,hv,h⟩)
    · exact ⟨fields, .refl, hw⟩
    · exact h.inside (.field hv .refl)

end HoldsField
end LayeredConfig.Value
