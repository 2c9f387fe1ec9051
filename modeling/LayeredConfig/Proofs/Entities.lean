import LayeredConfig.Proofs.Canonical
import LayeredConfig.Proofs.DottedPaths
import LayeredConfig.Proofs.Outcomes

/-! # Entities in lists

Elements of two lists are paired by the entity that both name. What two partners have in common has that name
still, so an intersection drops no element and each stands where it stood.
-/
namespace LayeredConfig
variable {a b u v w x y : Value} {fs gs : Fields} {items others : List Value} {matchers path : List String}
variable {label : String} {depth : Nat} {c : Comparison} {o : Option Value} {r : Value}

namespace Value

def decidingMatcher? (matchers : List String) (a b : Value) : Option String :=
  matchers.find? fun m => (a.entityName? (segments m)).isSome && (b.entityName? (segments m)).isSome

theorem correlates_iff :
    a.correlates matchers b = true ↔
      ∃ m u v, decidingMatcher? matchers a b = some m ∧ a.entityName? (segments m) = some u ∧
        b.entityName? (segments m) = some v ∧ u.same v = true := by
  induction matchers with
  | nil => simp [correlates, decidingMatcher?]
  | cons m rest ih =>
    rw [correlates, decidingMatcher?] at ih ⊢
    rw [List.findSome?_cons, List.find?_cons]
    cases ha : a.entityName? (segments m) with
    | none => simpa using ih
    | some u =>
      cases hb : b.entityName? (segments m) with
      | none => simpa using ih
      | some v => simp [ha, hb]

/-- Only a map leads further. -/
theorem kind_of_entityName? (hpath : path ≠ []) (h : a.entityName? path = some u) : a.kind = .map := by
  obtain ⟨key,rest,rfl⟩ := List.exists_cons_of_ne_nil hpath
  obtain ⟨v,hv,_⟩ := Option.bind_eq_some_iff.mp h
  cases a <;> first | rfl | cases hv

theorem maps_of_correlates (h : a.correlates matchers b = true) : a.kind = .map ∧ b.kind = .map := by
  obtain ⟨m,_,_,_,ha,hb,_⟩ := correlates_iff.mp h
  exact ⟨kind_of_entityName? (segments_ne_nil m) ha, kind_of_entityName? (segments_ne_nil m) hb⟩

theorem maps_of_partner (h : others.find? (x.correlates matchers) = some y) :
    ∃ fs gs, x = map fs ∧ y = map gs := by
  obtain ⟨hx,hy⟩ := maps_of_correlates (List.find?_some h)
  obtain ⟨fs,rfl⟩ := kind_eq_map_iff.mp hx
  obtain ⟨gs,rfl⟩ := kind_eq_map_iff.mp hy
  exact ⟨fs, gs, rfl, rfl⟩

theorem ne_empty_of_entityName? (hu : u.isScalar = true) (h : a.entityName? path = some u) : a ≠ map [] := by
  rintro rfl
  cases path with
  | nil =>
    cases h
    cases hu
  | cons key rest => cases h

end Value

namespace Comparison

/-- What stands where two values agree is kept, with every map on the way to it. -/
theorem entityName?_outcome (ho : x.Ordered) (hu : u.isScalar = true) (hsame : u.same v = true)
    (hx : x.entityName? path = some u) (hy : y.entityName? path = some v) :
    ∃ w, Comparison.intersect.outcome matchers y x = some w ∧ w.entityName? path = some u := by
  induction path generalizing x y with
  | nil =>
    cases hx
    cases hy
    have hv : v ≠ .null := by
      rintro rfl
      cases u with
      | null => cases hu
      | _ => cases hsame
    refine ⟨u, ?_, rfl⟩
    rw [outcome_of_isScalar (Value.ne_null_of_isScalar hu) hv (Or.inl hu), compareScalars, if_pos hsame]
    rfl
  | cons key rest ih =>
    obtain ⟨x',hx',hxu⟩ := Option.bind_eq_some_iff.mp hx
    obtain ⟨y',hy',hyv⟩ := Option.bind_eq_some_iff.mp hy
    obtain ⟨fs,rfl⟩ := Value.kind_eq_map_iff.mp (Value.kind_of_entityName? (List.cons_ne_nil key rest) hx)
    obtain ⟨gs,rfl⟩ := Value.kind_eq_map_iff.mp (Value.kind_of_entityName? (List.cons_ne_nil key rest) hy)
    obtain ⟨w',hw',hwu⟩ := ih (ho.field (Fields.mem_of_get? hx')) hxu hyv
    have hfield : Fields.get? key (Comparison.intersect.outcomeFields matchers gs fs) = some w' := by
      rw [get?_outcomeFields ho.ascending]
      exact outcomeEntry_eq_some_iff.mpr ⟨x', y', hx', hy', hw', Value.ne_empty_of_entityName? hu hwu⟩
    exact ⟨_, rfl, Option.bind_eq_some_iff.mpr ⟨w', hfield, hwu⟩⟩

/-- What becomes of one element of a list: it is compared with its partner, or kept for want of one. -/
def outcomeItem (c : Comparison) (matchers : List String) (others : List Value) (x : Value) : Value :=
  ((others.find? (x.correlates matchers)).bind fun y => c.outcome matchers y x).getD x

theorem outcomeItem_of_no_partner (h : others.find? (x.correlates matchers) = none) :
    c.outcomeItem matchers others x = x := by
  rw [outcomeItem, h]
  rfl

theorem outcomeItem_of_partner (h : others.find? (x.correlates matchers) = some y)
    (hw : c.outcome matchers y x = some w) : c.outcomeItem matchers others x = w := by
  rw [outcomeItem, h, Option.bind_some, hw]
  rfl

/-- Elements whose comparison leaves something keep their positions. -/
theorem outcomeItems_eq_map
    (h : ∀ x ∈ items, ∀ y, others.find? (x.correlates matchers) = some y →
      c.outcome matchers y x ≠ some (.map [])) :
    c.outcomeItems matchers others items = items.map (c.outcomeItem matchers others) := by
  induction items with
  | nil => rfl
  | cons x rest ih =>
    obtain ⟨hx,hrest⟩ := List.forall_mem_cons.mp h
    rw [List.map_cons, ← ih hrest]
    cases hfind : others.find? (x.correlates matchers) with
    | none =>
      rw [outcomeItem_of_no_partner hfind]
      cases x <;> simp [outcomeItems, hfind]
    | some y =>
      obtain ⟨fs,gs,rfl,rfl⟩ := Value.maps_of_partner hfind
      have hkept : c.outcomeFields matchers gs fs ≠ [] := by
        intro he
        exact hx _ hfind (by rw [outcome, he])
      rw [outcomeItem_of_partner hfind rfl]
      simp [outcomeItems, hfind, hkept]

/-- Partners that are named by a scalar have a map in common that bears the name. -/
theorem exists_named_of_partner (ho : x.Ordered) (hfind : others.find? (x.correlates matchers) = some y)
    (hscalar : ∀ m u, Value.decidingMatcher? matchers x y = some m → x.entityName? (segments m) = some u →
      u.isScalar = true) :
    ∃ w m u, Comparison.intersect.outcome matchers y x = some w ∧ w.kind = .map ∧ w ≠ .map [] ∧
      Value.decidingMatcher? matchers x y = some m ∧ x.entityName? (segments m) = some u ∧
      w.entityName? (segments m) = some u := by
  obtain ⟨m,u,v,hm,hu,hv,hsame⟩ := Value.correlates_iff.mp (List.find?_some hfind)
  have hus := hscalar m u hm hu
  obtain ⟨w,hw,hwu⟩ := entityName?_outcome ho hus hsame hu hv
  exact ⟨w, m, u, hw, Value.kind_of_entityName? (segments_ne_nil m) hwu, Value.ne_empty_of_entityName? hus hwu,
    hm, hu, hwu⟩

/-- In lists that can be compared, so can partners on their own. -/
theorem ok_of_partner (h : c.compareAt matchers label depth (.list others) (.list items) = .ok o) (hx : x ∈ items)
    (hfind : others.find? (x.correlates matchers) = some y) :
    c.compareAt matchers label 0 y x = .ok (c.outcome matchers y x) := by
  obtain ⟨fs,gs,rfl,rfl⟩ := Value.maps_of_partner hfind
  have hdepth : ¬ depthLimit < depth := Nat.not_lt.mpr (depth_le_of_compareAt h)
  simp only [compareAt, if_neg hdepth] at h
  obtain ⟨results,hresults,_⟩ := bind_eq_ok_iff.mp h
  obtain ⟨kept,hkept⟩ := ok_of_compareItems hresults fs gs hx hfind
  have hfields := compareFields_of_ok label hkept (Nat.zero_le _)
  simp only [compareAt, outcome, if_neg (Nat.not_lt_zero depthLimit), hfields]
  rfl

end Comparison
open Comparison

/-- An intersection of lists has every element of the first, in its place and with the name it is known by. -/
theorem intersect_keeps_entities (hne : items ≠ []) (ho : (Value.list items).Ordered)
    (hc : (Value.list items).canonical = .list items) (hc' : (Value.list others).canonical = .list others)
    (hscalar : ∀ x ∈ items, ∀ y, others.find? (x.correlates matchers) = some y →
      ∀ m u, Value.decidingMatcher? matchers x y = some m → x.entityName? (segments m) = some u →
        u.isScalar = true)
    (h : Comparison.intersect.compare matchers (.list items) (.list others) = .ok r) :
    ∃ kept, r = .list kept ∧ kept.length = items.length ∧ ∀ (i : Nat) x, items[i]? = some x →
      (others.find? (x.correlates matchers) = none → kept[i]? = some x) ∧
      ∀ y, others.find? (x.correlates matchers) = some y →
        ∃ w m u, Comparison.intersect.compare matchers x y = .ok w ∧ kept[i]? = some w ∧ w.kind = .map ∧
          Value.decidingMatcher? matchers x y = some m ∧ x.entityName? (segments m) = some u ∧
          w.entityName? (segments m) = some u := by
  obtain ⟨⟨label,depth,o,hok⟩,rfl⟩ := compare_eq_ok_iff.mp h
  rw [hc, hc'] at hok ⊢
  have hnamed := fun x hx y hfind =>
    exists_named_of_partner (Value.ordered_list.mp ho x hx) hfind (hscalar x hx y hfind)
  have hitems : Comparison.intersect.outcomeItems matchers others items =
      items.map (Comparison.intersect.outcomeItem matchers others) := by
    refine outcomeItems_eq_map ?_
    intro x hx y hfind he
    obtain ⟨w,_,_,hw,_,hwne,_⟩ := hnamed x hx y hfind
    exact hwne (Option.some.inj (hw.symm.trans he))
  have hr : Comparison.intersect.outcome matchers (.list others) (.list items) =
      some (.list (items.map (Comparison.intersect.outcomeItem matchers others))) := by
    obtain ⟨x,rest,rfl⟩ := List.exists_cons_of_ne_nil hne
    rw [outcome, hitems]
    rfl
  refine ⟨_, congrArg (Option.getD · .null) hr, List.length_map _, ?_⟩
  intro i x hi
  have hx := List.mem_of_getElem? hi
  have hkept : (items.map (Comparison.intersect.outcomeItem matchers others))[i]? =
      some (Comparison.intersect.outcomeItem matchers others x) := by
    rw [List.getElem?_map, hi]
    rfl
  rw [hkept]
  constructor
  · intro hnone
    rw [outcomeItem_of_no_partner hnone]
  · intro y hfind
    obtain ⟨w,m,u,hw,hmap,_,hname⟩ := hnamed x hx y hfind
    have hxc := Value.canonical_eq_self_of_inside hc (.item hx .refl)
    have hyc := Value.canonical_eq_self_of_inside hc' (.item (List.mem_of_find?_eq_some hfind) .refl)
    refine ⟨w, m, u, ?_, ?_, hmap, hname⟩
    · rw [compare_eq_ok_iff, hxc, hyc, hw]
      exact ⟨⟨_, _, _, ok_of_partner hok hx hfind⟩, rfl⟩
    · rw [outcomeItem_of_partner hfind hw]

theorem intersect_keeps_entities_sizes :
    let matchers := ["id", "metadata.name"]
    let named := Value.map [("metadata", .map [("name", .string "db")])]
    let large := Value.map [("metadata", .map [("name", .string "db")]), ("size", .string "2")]
    let small := Value.map [("metadata", .map [("name", .string "db")]), ("size", .string "1")]
    let sized := Value.map [("metadata", .map [("name", .string "db")]), ("size", .string requiredMark)]
    let items := [named, .string "db", large]
    items ≠ [] ∧ (Value.list items).Ordered ∧ (Value.list items).canonical = .list items ∧
      (Value.list [small]).canonical = .list [small] ∧
      Comparison.intersect.compare matchers (.list items) (.list [small]) =
        .ok (.list [named, .string "db", sized]) ∧
      ∃ kept, Value.list [named, .string "db", sized] = .list kept ∧ kept.length = items.length ∧
        kept[1]? = some (.string "db") ∧
        ∃ w m u, Comparison.intersect.compare matchers large small = .ok w ∧ kept[2]? = some w ∧ w.kind = .map ∧
          Value.decidingMatcher? matchers large small = some m ∧ large.entityName? (segments m) = some u ∧
          w.entityName? (segments m) = some u := by
  intro matchers named large small sized items
  have hne : items ≠ [] := by nofun
  have ho : (Value.list items).Ordered := by decide
  have hc : (Value.list items).canonical = .list items := rfl
  have hc' : (Value.list [small]).canonical = .list [small] := rfl
  have h : Comparison.intersect.compare matchers (.list items) (.list [small]) =
      .ok (.list [named, .string "db", sized]) := rfl
  have hscalar : ∀ x ∈ items, ∀ y, [small].find? (x.correlates matchers) = some y →
      ∀ m u, Value.decidingMatcher? matchers x y = some m → x.entityName? (segments m) = some u →
        u.isScalar = true := by
    intro x hx y hy m u hm hu
    simp only [items, List.mem_cons, List.not_mem_nil, or_false] at hx
    rcases hx with rfl | rfl | rfl <;> cases hy <;> cases hm <;> cases hu <;> rfl
  obtain ⟨kept,hkept,hlength,hall⟩ := intersect_keeps_entities hne ho hc hc' hscalar h
  exact ⟨hne, ho, hc, hc', h, kept, hkept, hlength, (hall 1 _ rfl).1 rfl, (hall 2 _ rfl).2 small rfl⟩

end LayeredConfig
