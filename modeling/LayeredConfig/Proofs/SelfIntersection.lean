import LayeredConfig.Proofs.Entities
import Mathlib.Data.List.Pairwise

/-! # Intersections of a value with itself

A value has all of itself in common with itself, unless it holds what an intersection drops or marks: `null`, an
empty map or an empty list. In a list each element is its own partner, for no other element before or after it
names the same entity; an element without a name has no partner and is kept as well.
-/
namespace LayeredConfig
open Comparison
variable {matchers : List String} {a v w x y : Value} {fs gs : Fields} {items : List Value}

namespace Value

structure Substantial (v : Value) : Prop where
  noNull : ¬ null.Inside v
  noEmptyMap : ¬ (map []).Inside v
  noEmptyList : ¬ (list []).Inside v

def Unpaired (matchers : List String) (x y : Value) : Prop :=
  x.correlates matchers y = false ∧ y.correlates matchers x = false

instance : Std.Symm (Unpaired matchers) := ⟨fun _ _ => And.symm⟩

instance : DecidableRel (Unpaired matchers) := fun _ _ => inferInstanceAs (Decidable (_ ∧ _))

/-- In no list of the value do two elements name the same entity. -/
def DistinctEntities (matchers : List String) (v : Value) : Prop :=
  ∀ items, (list items).Inside v → items.Pairwise (Unpaired matchers)

namespace Substantial

theorem inside (h : v.Substantial) (hw : w.Inside v) : w.Substantial where
  noNull hn := h.noNull (hn.trans hw)
  noEmptyMap hm := h.noEmptyMap (hm.trans hw)
  noEmptyList hl := h.noEmptyList (hl.trans hw)

theorem ne_null (h : v.Substantial) : v ≠ null := by
  rintro rfl
  exact h.noNull .refl

theorem ne_empty_map (h : v.Substantial) : v ≠ map [] := by
  rintro rfl
  exact h.noEmptyMap .refl

theorem ne_nil (h : (list items).Substantial) : items ≠ [] := by
  rintro rfl
  exact h.noEmptyList .refl

end Substantial

theorem DistinctEntities.inside (h : v.DistinctEntities matchers) (hw : w.Inside v) : w.DistinctEntities matchers :=
  fun items hi => h items (hi.trans hw)

/-- The only partner that an element has in its own list is itself. -/
theorem DistinctEntities.partner_eq (h : (list items).DistinctEntities matchers) (hx : x ∈ items)
    (hy : items.find? (x.correlates matchers) = some y) : y = x := by
  by_contra hne
  have hunpaired := (h items .refl).forall hx (List.mem_of_find?_eq_some hy) (Ne.symm hne)
  cases hunpaired.1.symm.trans (List.find?_some hy)

def elements : Value → List Value
  | list items => items
  | _ => []

theorem distinctEntities_iff : v.DistinctEntities matchers ↔
    ∀ w ∈ v.parts, w.elements.Pairwise (Unpaired matchers) := by
  constructor
  · intro h w hw
    cases w with
    | list items => exact h items (inside_iff_mem_parts.mpr hw)
    | _ => exact .nil
  · intro h items hi
    exact h _ (inside_iff_mem_parts.mp hi)

instance (matchers : List String) (v : Value) : Decidable (v.DistinctEntities matchers) :=
  decidable_of_iff _ distinctEntities_iff.symm

end Value

namespace Comparison

/-- Fields stay that are compared with themselves, if each of them does. -/
theorem outcomeFields_eq_self (h : ∀ key x, (key, x) ∈ fs →
      Comparison.intersect.outcomeEntry matchers (some x) (Fields.get? key gs) = some x) :
    Comparison.intersect.outcomeFields matchers gs fs = fs := by
  induction fs with
  | nil => rfl
  | cons p rest ih =>
    obtain ⟨key,x⟩ := p
    obtain ⟨hx,hrest⟩ := Fields.forall_mem_cons.mp h
    rw [outcomeFields_cons, hx, ih hrest]
    rfl

theorem outcomeItems_eq_self (hd : (Value.list items).DistinctEntities matchers)
    (h : ∀ x ∈ items, x ≠ .map [] ∧ Comparison.intersect.outcome matchers x x = some x) :
    Comparison.intersect.outcomeItems matchers items items = items := by
  have hpartner : ∀ x ∈ items, ∀ y, items.find? (x.correlates matchers) = some y →
      Comparison.intersect.outcome matchers y x = some x := by
    intro x hx y hy
    rw [hd.partner_eq hx hy]
    exact (h x hx).2
  have hitem : ∀ x ∈ items, Comparison.intersect.outcomeItem matchers items x = id x := by
    intro x hx
    cases hy : items.find? (x.correlates matchers) with
    | none => exact outcomeItem_of_no_partner hy
    | some y => exact outcomeItem_of_partner hy (hpartner x hx y hy)
  have hmap : Comparison.intersect.outcomeItems matchers items items =
      items.map (Comparison.intersect.outcomeItem matchers items) := by
    refine outcomeItems_eq_map ?_
    intro x hx y hy he
    exact (h x hx).1 (Option.some.inj ((hpartner x hx y hy).symm.trans he))
  rw [hmap, List.map_congr_left hitem, List.map_id]

theorem outcome_self (ho : v.Ordered) (hs : v.Substantial) (hd : v.DistinctEntities matchers) :
    Comparison.intersect.outcome matchers v v = some v := by
  induction v with
  | list items ih =>
    have hitems : Comparison.intersect.outcomeItems matchers items items = items := by
      refine outcomeItems_eq_self hd ?_
      intro x hx
      have hin : x.Inside (.list items) := .item hx .refl
      exact ⟨(hs.inside hin).ne_empty_map, ih x hx (ho.inside hin) (hs.inside hin) (hd.inside hin)⟩
    obtain ⟨x,rest,rfl⟩ := List.exists_cons_of_ne_nil hs.ne_nil
    rw [outcome, hitems]
  | map fields ih =>
    rw [outcome, outcomeFields_eq_self]
    intro key x hx
    have hin : x.Inside (.map fields) := .field hx .refl
    rw [(Fields.get?_eq_some_iff ho.ascending).mpr hx]
    exact outcomeEntry_eq_some_iff.mpr ⟨x, x, rfl, rfl,
      ih key x hx (ho.inside hin) (hs.inside hin) (hd.inside hin), (hs.inside hin).ne_empty_map⟩
  | null => exact absurd rfl hs.ne_null
  | _ => rw [outcome_of_isScalar hs.ne_null hs.ne_null (Or.inl rfl), compareScalars, Value.same_self rfl]; rfl

end Comparison

/-- What is neither `null` nor empty anywhere, and in no list names an entity twice, is what it has in common with
itself. -/
theorem intersect_self (ho : a.Ordered) (hc : a.canonical = a) (hr : a.reach ≤ depthLimit) (hs : a.Substantial)
    (hd : a.DistinctEntities defaultMatchers) : intersect a a = .ok a := by
  rw [intersect, compare_eq (by rwa [hc]), hc, outcome_self ho hs hd]
  rfl

theorem intersect_self_services :
    let named (name port : String) := Value.map [("name", .string name), ("port", .string port)]
    let nested := Value.map [("metadata", .map [("name", .string "db")])]
    let a := Value.map [("args", .list [.string "run", .string "run"]),
      ("services", .list [named "db" "1", named "web" "1", nested])]
    a.Ordered ∧ a.canonical = a ∧ a.reach ≤ depthLimit ∧ a.Substantial ∧
      a.DistinctEntities defaultMatchers ∧ intersect a a = .ok a := by
  intro named nested a
  have ho : a.Ordered := by decide
  have hc : a.canonical = a := rfl
  have hr : a.reach ≤ depthLimit := by decide
  have hs : a.Substantial := by
    constructor <;>
      simp [a, named, nested, Value.inside_iff_mem_parts, Value.parts, Value.partsOfFields, Value.partsOfItems]
  have hd : a.DistinctEntities defaultMatchers := by decide
  exact ⟨ho, hc, hr, hs, hd, intersect_self ho hc hr hs hd⟩

end LayeredConfig
