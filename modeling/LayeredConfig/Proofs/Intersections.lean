import LayeredConfig.Proofs.Canonical
import LayeredConfig.Proofs.Difference

/-! # Intersections of three values

Without lists an intersection is determined by the scalars it has at its paths, and these come from what the
values hold at the same path. Two ways of folding three values can so be compared path by path. They differ only
by the empty maps that are dropped: a required mark stands where a scalar meets an empty intersection, unless the
intersection was taken first and is no longer there.
-/
namespace LayeredConfig
open Comparison
variable {path : List String} {a b c u w x y z : Value} {fs gs : Fields}

def meet (x y : Value) : Option Value := Comparison.intersect.outcome defaultMatchers y x

def agree (x y : Value) : Value := if x.same y then x else .string requiredMark

theorem agree_map_right (hx : x.isScalar = true) : agree x (.map gs) = .string requiredMark := by
  cases x <;> simp_all [agree, Value.same, Value.isScalar, Value.isLeaf, Value.isNull]

theorem agree_mark_left : agree (.string requiredMark) y = .string requiredMark := by
  rw [agree]
  split <;> rfl

theorem agree_mark_right : agree x (.string requiredMark) = .string requiredMark := by
  rw [agree]
  split
  · next h => exact Value.eq_string_of_same h
  · rfl

theorem isScalar_agree (hx : x.isScalar = true) : (agree x y).isScalar = true := by
  rw [agree]
  split
  · exact hx
  · rfl

theorem agree_assoc (hx : x.isScalar = true) : agree (agree x y) z = agree x (agree y z) := by
  cases hxy : x.same y with
  | true =>
    have hxz := Value.same_congr (Value.isLeaf_of_isScalar hx) hxy z
    cases hyz : y.same z with
    | true => simp [agree, hxy, hyz, hxz]
    | false =>
      have hleft : agree (agree x y) z = .string requiredMark := by simp [agree, hxy, hyz, hxz]
      have hright : agree y z = .string requiredMark := by simp [agree, hyz]
      rw [hleft, hright, agree_mark_right]
  | false =>
    have hleft : agree x y = .string requiredMark := by simp [agree, hxy]
    rw [hleft, agree_mark_left]
    cases hyz : y.same z with
    | true => simp [agree, hxy, hyz]
    | false =>
      have hright : agree y z = .string requiredMark := by simp [agree, hyz]
      rw [hright, agree_mark_right]

theorem meet_null_left : meet .null y = none := by simp [meet, outcome]

theorem meet_null_right : meet x .null = none := by cases x <;> simp [meet, outcome]

theorem meet_eq_agree (hx : x ≠ .null) (hy : y ≠ .null) (h : x.isScalar = true ∨ y.isScalar = true) :
    meet x y = some (agree x y) := by
  rw [meet, outcome_of_isScalar hx hy h, compareScalars, agree]
  split <;> rfl

theorem meet_map_scalar (hy : y.isScalar = true) : meet (.map fs) y = some (.string requiredMark) := by
  cases y <;> simp_all [meet, outcome, mismatch, Value.isScalar, Value.isLeaf, Value.isNull]

theorem meet_scalar_map (hx : x.isScalar = true) : meet x (.map gs) = some (.string requiredMark) := by
  rw [meet_eq_agree (Value.ne_null_of_isScalar hx) (by nofun) (Or.inl hx), agree_map_right hx]

theorem meet_mark_left (hy : y ≠ .null) : meet (.string requiredMark) y = some (.string requiredMark) := by
  rw [meet_eq_agree (by nofun) hy (Or.inl rfl), agree_mark_left]

theorem exists_meet (hx : x ≠ .null) (hy : y ≠ .null) : ∃ w, meet x y = some w :=
  exists_outcome_intersect defaultMatchers hx hy

theorem ne_null_of_meet (h : meet x y = some w) : x ≠ .null ∧ y ≠ .null ∧ w ≠ .null := by
  refine ⟨?_, ?_, ne_null_of_outcome h⟩
  · rintro rfl
    cases meet_null_left.symm.trans h
  · rintro rfl
    cases meet_null_right.symm.trans h

theorem filled_of_meet (ho : x.Ordered) (hl : x.ListFree) (h : meet x y = some w) : w.Filled :=
  filled_of_outcome ho hl h

theorem kind_of_meet (hl : x.ListFree) (h : meet x y = some w) :
    w.kind = .map ↔ x.kind = .map ∧ y.kind = .map := by
  constructor
  · intro hw
    obtain ⟨hs,rfl⟩ := Value.kind_eq_map_iff.mp hw
    rcases maps_of_outcome hl h with ⟨fs,gs,rfl,rfl,_⟩ | ⟨hsub,_⟩
    · exact ⟨rfl, rfl⟩
    · cases hsub
  · rintro ⟨hx,hy⟩
    obtain ⟨fs,rfl⟩ := Value.kind_eq_map_iff.mp hx
    obtain ⟨gs,rfl⟩ := Value.kind_eq_map_iff.mp hy
    cases h
    rfl

theorem exists_meet_map (hx : x.kind = .map) (hy : y.kind = .map) :
    ∃ w, meet x y = some w ∧ w.kind = .map := by
  obtain ⟨fs,rfl⟩ := Value.kind_eq_map_iff.mp hx
  obtain ⟨gs,rfl⟩ := Value.kind_eq_map_iff.mp hy
  exact ⟨_, rfl, rfl⟩

/-- What two values have in common at a path is what their places there have in common, unless it is dropped. -/
theorem follow_meet_iff (hao : a.Ordered) (ha : a.ListFree) (hb : b.ListFree) :
    (∃ r, meet a b = some r ∧ r.follow path = some w) ↔
      ∃ x y, a.follow path = some x ∧ b.follow path = some y ∧ meet x y = some w ∧
        (path ≠ [] → w ≠ .map []) := by
  constructor
  · rintro ⟨r,hr,hw⟩
    exact exists_of_follow_outcome (Or.inl rfl) hao ha hr hw
  · rintro ⟨x,y,hx,hy,hxy,hw⟩
    exact follow_outcome_of_follow hao ha hb hx hy hxy hw

theorem meet_assoc_of_scalar (hx : x.isScalar = true) (hy : y.ListFree) (hz : z.ListFree) (hy0 : y ≠ .null)
    (hz0 : z ≠ .null) : (meet x y).bind (meet · z) = (meet y z).bind (meet x ·) := by
  have hx0 := Value.ne_null_of_isScalar hx
  have hxy := isScalar_agree (y := y) hx
  have hleft : (meet x y).bind (meet · z) = some (agree (agree x y) z) := by
    rw [meet_eq_agree hx0 hy0 (Or.inl hx), Option.bind_some]
    exact meet_eq_agree (Value.ne_null_of_isScalar hxy) hz0 (Or.inl hxy)
  obtain ⟨w,hw⟩ := exists_meet hy0 hz0
  have hright : (meet y z).bind (meet x ·) = some (agree x w) := by
    rw [hw, Option.bind_some]
    exact meet_eq_agree hx0 (ne_null_of_meet hw).2.2 (Or.inl hx)
  rw [hleft, hright]
  refine congrArg some ?_
  by_cases hscalar : y.isScalar = true ∨ z.isScalar = true
  · cases (meet_eq_agree hy0 hz0 hscalar).symm.trans hw
    exact agree_assoc hx
  · obtain ⟨gs,rfl⟩ := (hy.cases.resolve_left hy0).resolve_left fun h => hscalar (Or.inl h)
    obtain ⟨hs,rfl⟩ := (hz.cases.resolve_left hz0).resolve_left fun h => hscalar (Or.inr h)
    cases hw
    rw [agree_map_right hx, agree_map_right hx, agree_mark_left]

/-- Unless all three are maps, it does not matter where the brackets stand. -/
theorem meet_assoc_of_not_maps (hx : x.ListFree) (hy : y.ListFree) (hz : z.ListFree)
    (h : ¬ (x.kind = .map ∧ y.kind = .map ∧ z.kind = .map)) :
    (meet x y).bind (meet · z) = (meet y z).bind (meet x ·) := by
  by_cases hx0 : x = .null
  · simp [hx0, meet_null_left]
  by_cases hy0 : y = .null
  · simp [hy0, meet_null_left, meet_null_right]
  by_cases hz0 : z = .null
  · simp [hz0, meet_null_right]
  have hmark : (Value.string requiredMark).isScalar = true := rfl
  rcases hx.cases.resolve_left hx0 with hxs | ⟨fs,rfl⟩
  · exact meet_assoc_of_scalar hxs hy hz hy0 hz0
  rcases hy.cases.resolve_left hy0 with hys | ⟨gs,rfl⟩
  · rw [meet_map_scalar hys, meet_eq_agree hy0 hz0 (Or.inl hys), Option.bind_some, Option.bind_some,
      meet_mark_left hz0, meet_map_scalar (isScalar_agree hys)]
  rcases hz.cases.resolve_left hz0 with hzs | ⟨hs,rfl⟩
  · obtain ⟨w,hw⟩ := exists_meet hx0 hy0
    obtain ⟨ws,rfl⟩ := Value.kind_eq_map_iff.mp ((kind_of_meet hx hw).mpr ⟨rfl, rfl⟩)
    rw [hw, Option.bind_some, meet_map_scalar hzs, meet_map_scalar hzs, Option.bind_some, meet_map_scalar hmark]
  · exact absurd ⟨rfl, rfl, rfl⟩ h

namespace Value

/-- Two maps that have nothing in common: at no path do they have values other than maps. -/
structure Apart (x y : Value) : Prop where
  left : x.kind = .map
  right : y.kind = .map
  below : ∀ path u v, x.follow path = some u → y.follow path = some v →
    u = null ∨ v = null ∨ (u.kind = .map ∧ v.kind = .map)

/-- Below the roots of three values, two neighbours have nothing in common where the third is a scalar. -/
def Contested (a b c : Value) : Prop :=
  ∃ path x y z, path ≠ [] ∧ a.follow path = some x ∧ b.follow path = some y ∧ c.follow path = some z ∧
    ((x.Apart y ∧ z.isScalar = true) ∨ (y.Apart z ∧ x.isScalar = true))

end Value

theorem meet_eq_empty_iff (hxo : x.Ordered) (hx : x.ListFree) (hy : y.ListFree) :
    meet x y = some (.map []) ↔ x.Apart y := by
  constructor
  · intro h
    obtain ⟨hxm,hym⟩ := (kind_of_meet hx h).mp rfl
    refine ⟨hxm, hym, ?_⟩
    intro path u v hu hv
    by_cases hu0 : u = .null
    · exact Or.inl hu0
    by_cases hv0 : v = .null
    · exact Or.inr (Or.inl hv0)
    obtain ⟨w,hw⟩ := exists_meet hu0 hv0
    have hul := hx.inside (.of_follow hu)
    rcases isScalar_or_map_of_outcome hul hw with hscalar | ⟨hs,rfl⟩
    · have hne : w ≠ .map [] := by
        rintro rfl
        cases hscalar
      obtain ⟨r,hr,hrw⟩ := (follow_meet_iff hxo hx hy).mpr ⟨u, v, hu, hv, hw, fun _ => hne⟩
      cases h.symm.trans hr
      cases path with
      | nil => exact absurd (Option.some.inj hrw).symm hne
      | cons _ _ => cases hrw
    · exact Or.inr (Or.inr ((kind_of_meet hul hw).mp rfl))
  · intro h
    obtain ⟨fs,rfl⟩ := Value.kind_eq_map_iff.mp h.left
    obtain ⟨gs,rfl⟩ := Value.kind_eq_map_iff.mp h.right
    have hmaps : meet (.map fs) (.map gs) =
        some (.map (Comparison.intersect.outcomeFields defaultMatchers gs fs)) := rfl
    rw [hmaps]
    refine congrArg some (Classical.byContradiction fun hne => ?_)
    obtain ⟨path,w,hw,hscalar⟩ := (filled_of_meet hxo hx hmaps).exists_scalar hne
    obtain ⟨u,v,hu,hv,huv,_⟩ := (follow_meet_iff hxo hx hy).mp ⟨_, hmaps, hw⟩
    obtain ⟨hu0,hv0,_⟩ := ne_null_of_meet huv
    have hkinds := ((h.below path u v hu hv).resolve_left hu0).resolve_left hv0
    exact Value.not_isScalar_of_kind ((kind_of_meet (hx.inside (.of_follow hu)) huv).mpr hkinds) hscalar

theorem not_maps_of_fold_left (hxo : x.Ordered) (hx : x.ListFree) (hu : u.isScalar = true)
    (hxy : meet x y = some w) (hw : meet w z = some u) : ¬ (x.kind = .map ∧ y.kind = .map ∧ z.kind = .map) := by
  rintro ⟨hxm,hym,hzm⟩
  have hwm := (kind_of_meet hx hxy).mpr ⟨hxm, hym⟩
  exact Value.not_isScalar_of_kind ((kind_of_meet (filled_of_meet hxo hx hxy).listFree hw).mpr ⟨hwm, hzm⟩) hu

theorem not_maps_of_fold_right (hx : x.ListFree) (hy : y.ListFree) (hu : u.isScalar = true)
    (hyz : meet y z = some w) (hw : meet x w = some u) : ¬ (x.kind = .map ∧ y.kind = .map ∧ z.kind = .map) := by
  rintro ⟨hxm,hym,hzm⟩
  have hwm := (kind_of_meet hy hyz).mpr ⟨hym, hzm⟩
  exact Value.not_isScalar_of_kind ((kind_of_meet hx hw).mpr ⟨hxm, hwm⟩) hu

/-- Only a scalar has a scalar in common with a map. -/
theorem isScalar_of_meet_map_left (hz : z.ListFree) (hu : u.isScalar = true) (h : meet (.map []) z = some u) :
    z.isScalar = true := by
  refine (hz.cases.resolve_left (ne_null_of_meet h).2.1).resolve_right ?_
  rintro ⟨hs,rfl⟩
  cases h
  cases hu

theorem isScalar_of_meet_map_right (hx : x.ListFree) (hu : u.isScalar = true) (h : meet x (.map []) = some u) :
    x.isScalar = true := by
  refine (hx.cases.resolve_left (ne_null_of_meet h).1).resolve_right ?_
  rintro ⟨fs,rfl⟩
  cases h
  cases hu

section Folds
variable (hao : a.Ordered) (hbo : b.Ordered) (ha : a.ListFree) (hb : b.ListFree) (hc : c.ListFree)

include hao ha hb hc in
theorem follow_fold_left (path : List String) (hu : u ≠ .map []) :
    (∃ l, (meet a b).bind (meet · c) = some l ∧ l.follow path = some u) ↔
      ∃ x y z w, a.follow path = some x ∧ b.follow path = some y ∧ c.follow path = some z ∧
        meet x y = some w ∧ (path ≠ [] → w ≠ .map []) ∧ meet w z = some u := by
  constructor
  · rintro ⟨l,hl,hfollow⟩
    obtain ⟨ab,hab,hl⟩ := Option.bind_eq_some_iff.mp hl
    have hfilled := filled_of_meet hao ha hab
    obtain ⟨w,z,hw,hz,hwz,_⟩ := (follow_meet_iff hfilled.ordered hfilled.listFree hc).mp ⟨l, hl, hfollow⟩
    obtain ⟨x,y,hx,hy,hxy,hne⟩ := (follow_meet_iff hao ha hb).mp ⟨ab, hab, hw⟩
    exact ⟨x, y, z, w, hx, hy, hz, hxy, hne, hwz⟩
  · rintro ⟨x,y,z,w,hx,hy,hz,hxy,hne,hwz⟩
    obtain ⟨ab,hab,hw⟩ := (follow_meet_iff hao ha hb).mpr ⟨x, y, hx, hy, hxy, hne⟩
    have hfilled := filled_of_meet hao ha hab
    obtain ⟨l,hl,hfollow⟩ := (follow_meet_iff hfilled.ordered hfilled.listFree hc).mpr
      ⟨w, z, hw, hz, hwz, fun _ => hu⟩
    exact ⟨l, Option.bind_eq_some_iff.mpr ⟨ab, hab, hl⟩, hfollow⟩

include hao hbo ha hb hc

theorem follow_fold_right (path : List String) (hu : u ≠ .map []) :
    (∃ r, (meet b c).bind (meet a ·) = some r ∧ r.follow path = some u) ↔
      ∃ x y z w, a.follow path = some x ∧ b.follow path = some y ∧ c.follow path = some z ∧
        meet y z = some w ∧ (path ≠ [] → w ≠ .map []) ∧ meet x w = some u := by
  constructor
  · rintro ⟨r,hr,hfollow⟩
    obtain ⟨bc,hbc,hr⟩ := Option.bind_eq_some_iff.mp hr
    have hfilled := filled_of_meet hbo hb hbc
    obtain ⟨x,w,hx,hw,hxw,_⟩ := (follow_meet_iff hao ha hfilled.listFree).mp ⟨r, hr, hfollow⟩
    obtain ⟨y,z,hy,hz,hyz,hne⟩ := (follow_meet_iff hbo hb hc).mp ⟨bc, hbc, hw⟩
    exact ⟨x, y, z, w, hx, hy, hz, hyz, hne, hxw⟩
  · rintro ⟨x,y,z,w,hx,hy,hz,hyz,hne,hxw⟩
    obtain ⟨bc,hbc,hw⟩ := (follow_meet_iff hbo hb hc).mpr ⟨y, z, hy, hz, hyz, hne⟩
    have hfilled := filled_of_meet hbo hb hbc
    obtain ⟨r,hr,hfollow⟩ := (follow_meet_iff hao ha hfilled.listFree).mpr ⟨x, w, hx, hw, hxw, fun _ => hu⟩
    exact ⟨r, Option.bind_eq_some_iff.mpr ⟨bc, hbc, hr⟩, hfollow⟩

/-- Both folds have the same scalars, if what one drops on the way does not matter to the other. -/
theorem follow_fold_iff (path : List String) (h : ¬ a.Contested b c) (hu : u.isScalar = true) :
    (∃ l, (meet a b).bind (meet · c) = some l ∧ l.follow path = some u) ↔
      ∃ r, (meet b c).bind (meet a ·) = some r ∧ r.follow path = some u := by
  have hne : u ≠ .map [] := by
    rintro rfl
    cases hu
  rw [follow_fold_left hao ha hb hc path hne, follow_fold_right hao hbo ha hb hc path hne]
  constructor
  · rintro ⟨x,y,z,w,hx,hy,hz,hxy,_,hw⟩
    have hxl := ha.inside (.of_follow hx)
    have hyl := hb.inside (.of_follow hy)
    have hzl := hc.inside (.of_follow hz)
    have hnot := not_maps_of_fold_left (hao.inside (.of_follow hx)) hxl hu hxy hw
    have hassoc : (meet y z).bind (meet x ·) = some u := by
      rw [← meet_assoc_of_not_maps hxl hyl hzl hnot, hxy]
      exact hw
    obtain ⟨w',hyz,hw'⟩ := Option.bind_eq_some_iff.mp hassoc
    refine ⟨x, y, z, w', hx, hy, hz, hyz, ?_, hw'⟩
    rintro hpath rfl
    have hapart := (meet_eq_empty_iff (hbo.inside (.of_follow hy)) hyl hzl).mp hyz
    exact h ⟨path, x, y, z, hpath, hx, hy, hz, Or.inr ⟨hapart, isScalar_of_meet_map_right hxl hu hw'⟩⟩
  · rintro ⟨x,y,z,w,hx,hy,hz,hyz,_,hw⟩
    have hxl := ha.inside (.of_follow hx)
    have hyl := hb.inside (.of_follow hy)
    have hzl := hc.inside (.of_follow hz)
    have hnot := not_maps_of_fold_right hxl hyl hu hyz hw
    have hassoc : (meet x y).bind (meet · z) = some u := by
      rw [meet_assoc_of_not_maps hxl hyl hzl hnot, hyz]
      exact hw
    obtain ⟨w',hxy,hw'⟩ := Option.bind_eq_some_iff.mp hassoc
    refine ⟨x, y, z, w', hx, hy, hz, hxy, ?_, hw'⟩
    rintro hpath rfl
    have hapart := (meet_eq_empty_iff (hao.inside (.of_follow hx)) hxl hyl).mp hxy
    exact h ⟨path, x, y, z, hpath, hx, hy, hz, Or.inl ⟨hapart, isScalar_of_meet_map_left hzl hu hw'⟩⟩

/-- Where the values are contested there is a required mark in one fold and nothing in the other. -/
theorem fold_ne_of_contested (h : a.Contested b c) :
    (meet a b).bind (meet · c) ≠ (meet b c).bind (meet a ·) := by
  obtain ⟨path,x,y,z,hpath,hx,hy,hz,hcase⟩ := h
  intro heq
  have hmark : (Value.string requiredMark).isScalar = true := rfl
  have hmark0 : Value.string requiredMark ≠ .map [] := nofun
  have hscalars := follow_fold_left hao ha hb hc path hmark0
  rw [heq, follow_fold_right hao hbo ha hb hc path hmark0] at hscalars
  rcases hcase with ⟨hapart,hscalar⟩ | ⟨hapart,hscalar⟩
  · have hempty := (meet_eq_empty_iff (hao.inside (.of_follow hx)) (ha.inside (.of_follow hx))
      (hb.inside (.of_follow hy))).mpr hapart
    obtain ⟨fs,rfl⟩ := Value.kind_eq_map_iff.mp hapart.left
    obtain ⟨gs,rfl⟩ := Value.kind_eq_map_iff.mp hapart.right
    obtain ⟨_,_,_,w,hx',hy',_,hxy,hkept,_⟩ := hscalars.mp ⟨_, _, z, _, hx, hy, hz, meet_map_scalar hscalar,
      fun _ => hmark0, meet_map_scalar hmark⟩
    cases hx.symm.trans hx'
    cases hy.symm.trans hy'
    exact hkept hpath (Option.some.inj (hxy.symm.trans hempty))
  · have hempty := (meet_eq_empty_iff (hbo.inside (.of_follow hy)) (hb.inside (.of_follow hy))
      (hc.inside (.of_follow hz))).mpr hapart
    obtain ⟨gs,rfl⟩ := Value.kind_eq_map_iff.mp hapart.left
    obtain ⟨hs,rfl⟩ := Value.kind_eq_map_iff.mp hapart.right
    obtain ⟨_,_,_,w,_,hy',hz',hyz,hkept,_⟩ := hscalars.mpr ⟨x, _, _, _, hx, hy, hz, meet_scalar_map hscalar,
      fun _ => hmark0, meet_scalar_map hmark⟩
    cases hy.symm.trans hy'
    cases hz.symm.trans hz'
    exact hkept hpath (Option.some.inj (hyz.symm.trans hempty))

/-- Intersections can be taken in either order just where the values are not contested. -/
theorem meet_assoc_iff : (meet a b).bind (meet · c) = (meet b c).bind (meet a ·) ↔ ¬ a.Contested b c := by
  refine ⟨fun heq h => fold_ne_of_contested hao hbo ha hb hc h heq, ?_⟩
  intro h
  by_cases hmaps : a.kind = .map ∧ b.kind = .map ∧ c.kind = .map
  · obtain ⟨ham,hbm,hcm⟩ := hmaps
    have hscalars := fun path (u : Value) (hu : u.isScalar = true) => follow_fold_iff hao hbo ha hb hc path h hu
    obtain ⟨ab,hab,habm⟩ := exists_meet_map ham hbm
    obtain ⟨bc,hbc,hbcm⟩ := exists_meet_map hbm hcm
    have habf := filled_of_meet hao ha hab
    obtain ⟨l,hl,hlm⟩ := exists_meet_map habm hcm
    obtain ⟨r,hr,hrm⟩ := exists_meet_map ham hbcm
    rw [hab, hbc, Option.bind_some, Option.bind_some, hl, hr] at hscalars ⊢
    have hlf := filled_of_meet habf.ordered habf.listFree hl
    have hrf := filled_of_meet hao ha hr
    refine congrArg some (hlf.ext hrf (by rw [hlm, hrm]) ?_)
    intro path u hu
    simpa using hscalars path u hu
  · exact meet_assoc_of_not_maps ha hb hc hmaps

end Folds

theorem reach_meet_le (hl : x.ListFree) (h : meet x y = some w) : w.reach ≤ x.reach := by
  induction x using Value.descend generalizing y w with
  | step x ih =>
    rcases isScalar_or_map_of_outcome hl h with hscalar | ⟨hs,rfl⟩
    · rw [Value.reach_of_isLeaf (Value.isLeaf_of_isScalar hscalar)]
      exact Nat.zero_le _
    rcases maps_of_outcome hl h with ⟨fs,gs,rfl,rfl,rfl⟩ | ⟨hsub,_⟩
    · refine Value.reach_map_le_iff.mpr ?_
      intro key v hv
      obtain ⟨x,hx,he⟩ := mem_outcomeFields hv
      obtain ⟨x',y,hx',_,hxy,_⟩ := outcomeEntry_eq_some_iff.mp he
      cases hx'
      exact Nat.lt_of_le_of_lt (ih fs key x rfl hx (Value.listFree_map_iff.mp hl key x hx) hxy)
        (Value.reach_lt_of_mem_fields hx)
    · cases hsub

theorem reach_getD_meet_le (hl : x.ListFree) : ((meet x y).getD .null).reach ≤ x.reach := by
  cases h : meet x y with
  | none => exact Nat.zero_le _
  | some w => exact reach_meet_le hl h

theorem intersect_eq (h : a.reach ≤ depthLimit) :
    intersect a b = .ok ((meet a.canonical b.canonical).getD .null) :=
  compare_eq (Nat.le_trans Value.reach_canonical_le h)

theorem getD_null_fold_left :
    (meet ((meet a b).getD .null) c).getD .null = ((meet a b).bind (meet · c)).getD .null := by
  cases meet a b with
  | none => rw [Option.getD_none, meet_null_left, Option.bind_none]
  | some w => rfl

theorem getD_null_fold_right :
    (meet a ((meet b c).getD .null)).getD .null = ((meet b c).bind (meet a ·)).getD .null := by
  cases meet b c with
  | none => rw [Option.getD_none, meet_null_right, Option.bind_none]
  | some w => rfl

theorem bind_ne_null {o : Option Value} {f : Value → Option Value} (h : ∀ w, f w ≠ some .null) :
    o.bind f ≠ some .null := by
  intro hnull
  obtain ⟨w,_,hw⟩ := Option.bind_eq_some_iff.mp hnull
  exact h w hw

theorem getD_null_inj {o p : Option Value} (ho : o ≠ some .null) (hp : p ≠ some .null) :
    o.getD .null = p.getD .null ↔ o = p := by
  cases o <;> cases p <;> simp_all [eq_comm]

/-- Three values without lists can be intersected in either order. If the first intersection leaves no map that
stands for a text, the order does not matter just where the values are not contested. -/
theorem intersect_assoc_iff (hao : a.Ordered) (hbo : b.Ordered) (ha : a.ListFree) (hb : b.ListFree)
    (hc : c.ListFree) (hra : a.reach ≤ depthLimit) (hrb : b.reach ≤ depthLimit) :
    ∃ ab bc l r, intersect a b = .ok ab ∧ intersect b c = .ok bc ∧ intersect ab c = .ok l ∧
      intersect a bc = .ok r ∧
      (ab.canonical = ab → bc.canonical = bc → (l = r ↔ ¬ a.canonical.Contested b.canonical c.canonical)) := by
  have hrab : ((meet a.canonical b.canonical).getD .null).reach ≤ depthLimit :=
    Nat.le_trans (reach_getD_meet_le ha.canonical) (Nat.le_trans Value.reach_canonical_le hra)
  refine ⟨_, _, _, _, intersect_eq hra, intersect_eq hrb, intersect_eq hrab, intersect_eq hra, ?_⟩
  intro hab hbc
  have hnull : ∀ x y, meet x y ≠ some .null := fun x y h => (ne_null_of_meet h).2.2 rfl
  rw [hab, hbc, getD_null_fold_left, getD_null_fold_right,
    ← meet_assoc_iff hao.canonical hbo.canonical ha.canonical hb.canonical hc.canonical]
  exact getD_null_inj (bind_ne_null fun w => hnull w c.canonical) (bind_ne_null fun w => hnull a.canonical w)

theorem intersect_assoc_iff_replicas :
    let a := Value.map [("image", .string "app:1"),
      ("limits", .map [("cpu", .string "2"), ("memory", .string "1Gi")])]
    let b := Value.map [("image", .string "app:1"), ("limits", .map [("cpu", .string "4")]), ("port", .null)]
    let c := Value.map [("image", .string "app:2"), ("limits", .map [("cpu", .string "4")])]
    let ab := Value.map [("image", .string "app:1"), ("limits", .map [("cpu", .string requiredMark)])]
    let bc := Value.map [("image", .string requiredMark), ("limits", .map [("cpu", .string "4")])]
    let abc := Value.map [("image", .string requiredMark), ("limits", .map [("cpu", .string requiredMark)])]
    a.Ordered ∧ b.Ordered ∧ a.ListFree ∧ b.ListFree ∧ c.ListFree ∧ a.reach ≤ depthLimit ∧ b.reach ≤ depthLimit ∧
      ab.canonical = ab ∧ bc.canonical = bc ∧ ¬ a.canonical.Contested b.canonical c.canonical ∧
      intersect a b = .ok ab ∧ intersect b c = .ok bc ∧ intersect ab c = .ok abc ∧
      intersect a bc = .ok abc := by
  intro a b c ab bc abc
  have hao : a.Ordered := by decide
  have hbo : b.Ordered := by decide
  have ha : a.ListFree := by decide
  have hb : b.ListFree := by decide
  have hc : c.ListFree := by decide
  have hra : a.reach ≤ depthLimit := by decide
  have hrb : b.reach ≤ depthLimit := by decide
  have hab : intersect a b = .ok ab := rfl
  have hbc : intersect b c = .ok bc := rfl
  have hleft : intersect ab c = .ok abc := rfl
  have hright : intersect a bc = .ok abc := rfl
  obtain ⟨_,_,l,r,hab',hbc',hl,hr,hiff⟩ := intersect_assoc_iff hao hbo ha hb hc hra hrb
  cases Except.ok.inj (hab.symm.trans hab')
  cases Except.ok.inj (hbc.symm.trans hbc')
  have heq : l = r := Except.ok.inj ((hl.symm.trans hleft).trans (hright.symm.trans hr))
  exact ⟨hao, hbo, ha, hb, hc, hra, hrb, rfl, rfl, (hiff rfl rfl).mp heq, hab, hbc, hleft, hright⟩

/-- Two maps with nothing in common are dropped before they can meet a scalar; and a map of which only its date
is left counts as a text. -/
theorem intersect_not_assoc :
    let a := Value.map [("k", .map [("x", .string "1")])]
    let b := Value.map [("k", .map [("y", .string "1")])]
    let c := Value.map [("k", .string "1")]
    let d := Value.map [(datetimeKey, .string "1"), ("x", .string "1")]
    let e := Value.map [(datetimeKey, .string "1"), ("y", .string "1")]
    let f := Value.string "1"
    (∀ v ∈ [a, b, c, d, e, f], v.Ordered ∧ v.canonical = v ∧ v.ListFree ∧ v.reach ≤ depthLimit) ∧
      (∃ ab bc l r, intersect a b = .ok ab ∧ intersect b c = .ok bc ∧ intersect ab c = .ok l ∧
        intersect a bc = .ok r ∧ l ≠ r) ∧
      ∃ de ef l r, intersect d e = .ok de ∧ intersect e f = .ok ef ∧ intersect de f = .ok l ∧
        intersect d ef = .ok r ∧ l ≠ r := by
  intro a b c d e f
  refine ⟨?_, ⟨_, _, .map [], .map [("k", .string requiredMark)], rfl, rfl, rfl, rfl, by simp⟩,
    ⟨_, _, .string "1", .string requiredMark, rfl, rfl, rfl, rfl, by simp [requiredMark]⟩⟩
  intro v hv
  simp only [List.mem_cons, List.not_mem_nil, or_false] at hv
  rcases hv with rfl | rfl | rfl | rfl | rfl | rfl <;> exact ⟨by decide, rfl, by decide, by decide⟩

end LayeredConfig
