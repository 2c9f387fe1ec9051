import LayeredConfig.Proofs.Intersections
import LayeredConfig.Proofs.Outcomes

/-! # The common shape

Of two values without lists an intersection keeps, place by place, the scalars they agree on and a required mark
where they do not, and maps only on the way to these. Neither value comes first in this, so the two can be exchanged.
-/
namespace LayeredConfig
open Comparison
variable {path : List String} {a b r u w x y : Value} {matchers : List String} {label : String} {depth : Nat}
variable {o : Option Value}

/-- Values in canonical form agree only where they are equal. -/
theorem eq_agree_iff (hxc : x.canonical = x) (h : x.isScalar = true ∨ y.isScalar = true) :
    u = agree x y ↔ (x = y → u = x) ∧ (x ≠ y → u = .string requiredMark) := by
  rw [agree]
  by_cases he : x = y
  · subst he
    simp [(Value.same_iff_of_canonical hxc h).mpr rfl]
  · simp [mt (Value.same_iff_of_canonical hxc h).mp he, he]

theorem agree_comm (hxc : x.canonical = x) (hyc : y.canonical = y) (h : x.isScalar = true ∨ y.isScalar = true) :
    agree x y = agree y x := by
  refine (eq_agree_iff hyc h.symm).mpr ⟨?_, ?_⟩
  · rintro rfl
    exact ((eq_agree_iff hxc h).mp rfl).1 rfl
  · intro hne
    exact ((eq_agree_iff hxc h).mp rfl).2 (Ne.symm hne)

theorem isScalar_or_of_not_maps (hx : x.ListFree) (hy : y.ListFree) (hx0 : x ≠ .null) (hy0 : y ≠ .null)
    (h : ¬ (x.kind = .map ∧ y.kind = .map)) : x.isScalar = true ∨ y.isScalar = true := by
  rcases hx.cases.resolve_left hx0 with hx | ⟨fs,rfl⟩
  · exact Or.inl hx
  · exact Or.inr ((hy.cases.resolve_left hy0).resolve_right fun ⟨gs,hg⟩ => h ⟨rfl, hg ▸ rfl⟩)

/-- What is no map comes from two values that are not both maps. -/
theorem meet_eq_some_iff (hx : x.ListFree) (hy : y.ListFree) (hxc : x.canonical = x) (hu : u.kind ≠ .map) :
    meet x y = some u ↔ x ≠ .null ∧ y ≠ .null ∧ ¬ (x.kind = .map ∧ y.kind = .map) ∧
      (x = y → u = x) ∧ (x ≠ y → u = .string requiredMark) := by
  constructor
  · intro h
    obtain ⟨hx0,hy0,_⟩ := ne_null_of_meet h
    have hnot := mt (kind_of_meet hx h).mpr hu
    have hscalar := isScalar_or_of_not_maps hx hy hx0 hy0 hnot
    rw [meet_eq_agree hx0 hy0 hscalar] at h
    exact ⟨hx0, hy0, hnot, (eq_agree_iff hxc hscalar).mp (Option.some.inj h).symm⟩
  · rintro ⟨hx0,hy0,hnot,hagree⟩
    have hscalar := isScalar_or_of_not_maps hx hy hx0 hy0 hnot
    rw [meet_eq_agree hx0 hy0 hscalar, (eq_agree_iff hxc hscalar).mpr hagree]

/-- At every place the intersection has what the values have in common there. -/
theorem follow_meet_of_not_map (hao : a.Ordered) (ha : a.ListFree) (hb : b.ListFree) (hac : a.canonical = a)
    (hw : meet a b = some w) (hu : u.kind ≠ .map) :
    w.follow path = some u ↔
      ∃ x y, a.follow path = some x ∧ b.follow path = some y ∧ x ≠ .null ∧ y ≠ .null ∧
        ¬ (x.kind = .map ∧ y.kind = .map) ∧ (x = y → u = x) ∧ (x ≠ y → u = .string requiredMark) := by
  have hne : u ≠ .map [] := by
    rintro rfl
    exact hu rfl
  have hmeet := @follow_meet_iff path a b u hao ha hb
  simp only [hw, Option.some.injEq, exists_eq_left'] at hmeet
  rw [hmeet]
  refine exists₂_congr fun x y => and_congr_right fun hx => and_congr_right fun hy => ?_
  rw [and_iff_left fun _ => hne]
  exact meet_eq_some_iff (ha.inside (.of_follow hx)) (hb.inside (.of_follow hy))
    (Value.canonical_eq_self_of_inside hac (.of_follow hx)) hu

/-! ## Exchanging the two values -/

theorem meet_comm (hao : a.Ordered) (hbo : b.Ordered) (ha : a.ListFree) (hb : b.ListFree) (hac : a.canonical = a)
    (hbc : b.canonical = b) : meet a b = meet b a := by
  by_cases ha0 : a = .null
  · rw [ha0, meet_null_left, meet_null_right]
  by_cases hb0 : b = .null
  · rw [hb0, meet_null_left, meet_null_right]
  by_cases hmaps : a.kind = .map ∧ b.kind = .map
  · obtain ⟨w,hw,hwm⟩ := exists_meet_map hmaps.1 hmaps.2
    obtain ⟨u,hu,hum⟩ := exists_meet_map hmaps.2 hmaps.1
    rw [hw, hu]
    refine congrArg some ((filled_of_meet hao ha hw).ext (filled_of_meet hbo hb hu) (by rw [hwm, hum]) ?_)
    intro path v hv
    have hkind : v.kind ≠ .map := fun hmap => Value.not_isScalar_of_kind hmap hv
    rw [follow_meet_of_not_map hao ha hb hac hw hkind, follow_meet_of_not_map hbo hb ha hbc hu hkind]
    have hswap : ∀ x y : Value, (x = y → v = x) ∧ (x ≠ y → v = .string requiredMark) →
        (y = x → v = y) ∧ (y ≠ x → v = .string requiredMark) := by
      rintro x y ⟨heq,hne⟩
      exact ⟨fun he => he ▸ heq he.symm, fun h => hne h.symm⟩
    constructor
    · rintro ⟨x,y,hx,hy,hx0,hy0,hnot,hxy⟩
      exact ⟨y, x, hy, hx, hy0, hx0, fun h => hnot h.symm, hswap x y hxy⟩
    · rintro ⟨y,x,hy,hx,hy0,hx0,hnot,hyx⟩
      exact ⟨x, y, hx, hy, hx0, hy0, fun h => hnot h.symm, hswap y x hyx⟩
  · have hscalar := isScalar_or_of_not_maps ha hb ha0 hb0 hmaps
    rw [meet_eq_agree ha0 hb0 hscalar, meet_eq_agree hb0 ha0 hscalar.symm, agree_comm hac hbc hscalar]

/-- The places that two values share are within the limit for both or for neither. -/
theorem compareAt_swap (hbo : b.Ordered) (ha : a.ListFree) (hb : b.ListFree) (label' : String)
    (h : Comparison.intersect.compareAt matchers label depth b a = .ok o) :
    ∃ p, Comparison.intersect.compareAt matchers label' depth a b = .ok p := by
  induction a using Value.descend generalizing b label label' depth o with
  | step a ih =>
    have hdepth : ¬ depthLimit < depth := Nat.not_lt.mpr (depth_le_of_compareAt h)
    by_cases hmaps : a.kind = .map ∧ b.kind = .map
    · obtain ⟨fs,rfl⟩ := Value.kind_eq_map_iff.mp hmaps.1
      obtain ⟨gs,rfl⟩ := Value.kind_eq_map_iff.mp hmaps.2
      simp only [compareAt, if_neg hdepth] at h
      obtain ⟨kept,hkept,_⟩ := bind_eq_ok_iff.mp h
      have hfields : Comparison.intersect.compareFields matchers label' depth fs gs =
          .ok (Comparison.intersect.outcomeFields matchers fs gs) := by
        refine compareFields_eq_outcomeFields ?_
        intro key y x hy hx _ label'
        have hmem := Fields.mem_of_get? hx
        obtain ⟨_,_,ho⟩ := ok_of_compareFields hkept key x y hmem
          ((Fields.get?_eq_some_iff hbo.ascending).mpr hy) rfl
        obtain ⟨p,hp⟩ := ih fs key x rfl hmem (hbo.field hy) (ha.get? hx) (hb.inside (.field hy .refl)) label' ho
        exact compareAt_of_ok label' hp (Nat.le_refl _)
      exact ⟨_, by simp only [compareAt, if_neg hdepth, hfields]; rfl⟩
    · cases b with
      | list items => exact absurd .refl (hb items)
      | map gs =>
        cases a with
        | map fs => exact absurd ⟨rfl, rfl⟩ hmaps
        | _ => simp [compareAt, hdepth]
      | _ => cases a <;> simp [compareAt, hdepth]

/-- Without lists an intersection is read off the two values place by place. -/
theorem intersect_pointwise (hao : a.Ordered) (hbo : b.Ordered) (ha : a.ListFree) (hb : b.ListFree)
    (hac : a.canonical = a) (hbc : b.canonical = b) (ha0 : a ≠ .null) (hb0 : b ≠ .null)
    (h : intersect a b = .ok r) :
    (∀ path u, u.kind ≠ .map →
      (r.follow path = some u ↔
        ∃ x y, a.follow path = some x ∧ b.follow path = some y ∧ x ≠ .null ∧ y ≠ .null ∧
          ¬ (x.kind = .map ∧ y.kind = .map) ∧ (x = y → u = x) ∧ (x ≠ y → u = .string requiredMark))) ∧
    (∀ path, path ≠ [] →
      ((∃ fs, r.follow path = some (.map fs)) ↔
        ∃ rest u, rest ≠ [] ∧ r.follow (path ++ rest) = some u ∧ u.kind ≠ .map)) ∧
    intersect b a = .ok r := by
  obtain ⟨⟨label,depth,o,ho⟩,rfl⟩ := compare_eq_ok_iff.mp h
  obtain ⟨w,hw⟩ := exists_meet ha0 hb0
  have hr : (Comparison.intersect.outcome defaultMatchers b.canonical a.canonical).getD .null = w := by
    rw [hac, hbc]
    exact congrArg (Option.getD · .null) hw
  rw [hr]
  refine ⟨fun path u hu => follow_meet_of_not_map hao ha hb hac hw hu,
    fun path hpath => (filled_of_meet hao ha hw).follow_map_iff hpath, ?_⟩
  rw [hac, hbc] at ho
  obtain ⟨p,hp⟩ := compareAt_swap hbo ha hb label ho
  refine compare_eq_ok_iff.mpr ⟨⟨label, depth, p, by rwa [hac, hbc]⟩, ?_⟩
  have hcomm : meet b a = some w := (meet_comm hao hbo ha hb hac hbc).symm.trans hw
  rw [hac, hbc]
  exact (congrArg (Option.getD · .null) hcomm).symm

theorem intersect_pointwise_limits :
    let a := Value.map [("image", .string "app:1"), ("limits", .map [("cpu", .string "2"), ("memory", .string "1Gi")]),
      ("port", .string "80")]
    let b := Value.map [("image", .string "app:2"), ("limits", .map [("cpu", .string "2")]), ("port", .map [])]
    let r := Value.map [("image", .string requiredMark), ("limits", .map [("cpu", .string "2")]),
      ("port", .string requiredMark)]
    intersect a b = .ok r ∧
      (∃ x y, a.follow ["limits", "cpu"] = some x ∧ b.follow ["limits", "cpu"] = some y ∧ x ≠ .null ∧ y ≠ .null ∧
        ¬ (x.kind = .map ∧ y.kind = .map) ∧ (x = y → Value.string "2" = x) ∧
        (x ≠ y → Value.string "2" = .string requiredMark)) ∧
      (∃ rest u, rest ≠ [] ∧ r.follow (["limits"] ++ rest) = some u ∧ u.kind ≠ .map) ∧ intersect b a = .ok r := by
  intro a b r
  have h : intersect a b = .ok r := rfl
  obtain ⟨hvalues,hmaps,hswap⟩ := intersect_pointwise (a := a) (b := b) (by decide) (by decide) (by decide)
    (by decide) rfl rfl (by nofun) (by nofun) h
  exact ⟨h, (hvalues ["limits", "cpu"] (.string "2") (by decide)).mp rfl, (hmaps ["limits"] (by decide)).mp ⟨_, rfl⟩,
    hswap⟩

end LayeredConfig
