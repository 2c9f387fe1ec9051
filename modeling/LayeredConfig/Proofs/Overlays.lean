import LayeredConfig.Proofs.Canonical
import LayeredConfig.Proofs.Difference
import LayeredConfig.Proofs.MergeLaws

/-! # Bases and overlays

What a subtraction keeps of a value is an overlay: merged onto the baseline it gives the value again, as long
as the two hold maps with the same keys at the same places. The baseline may be one that was derived as an
intersection. The canonical form that the subtraction compares with may then differ from the base itself.
-/
namespace LayeredConfig
variable {matchers path : List String} {key label : String} {depth : Nat}
variable {a b i r u v x y : Value} {fs gs hs : Fields} {o : Option Value}

namespace Value

/-- A base that a value can be laid over: it holds maps and scalars in canonical form, and scalars wherever
the value does. -/
structure Supports (i a : Value) : Prop where
  plain : ∀ path u, i.follow path = some u → (u.isScalar = true ∧ u.canonical = u) ∨ ∃ gs, u = map gs
  scalar : ∀ path x u, a.follow path = some x → i.follow path = some u → x.isScalar = true →
    u.isScalar = true

theorem Supports.get? (h : (map gs).Supports (map fs)) (hu : Fields.get? key gs = some u)
    (hx : Fields.get? key fs = some x) : u.Supports x where
  plain path w hw := h.plain (key :: path) w ((follow_cons_of_get? hu).trans hw)
  scalar path w w' hw hw' := h.scalar (key :: path) w w' ((follow_cons_of_get? hx).trans hw)
    ((follow_cons_of_get? hu).trans hw')

/-- What the merge onto a base gives back of a value: all, if the base has all the keys, and no scalar where
the value holds an empty map below its root. -/
structure Covers (i a : Value) : Prop where
  keys : i.SameKeys a
  filled : ∀ path, path ≠ [] → a.follow path = some (map []) → ∀ u, i.follow path = some u →
    u.isScalar = false

theorem Covers.get? (h : (map gs).Covers (map fs)) (hu : Fields.get? key gs = some u)
    (hx : Fields.get? key fs = some x) : u.Covers x where
  keys path w w' hw hw' := h.keys (key :: path) w w' ((follow_cons_of_get? hu).trans hw)
    ((follow_cons_of_get? hx).trans hw')
  filled path _ hw w hw' := h.filled (key :: path) (List.cons_ne_nil _ _)
    ((follow_cons_of_get? hx).trans hw) w ((follow_cons_of_get? hu).trans hw')

end Value

open Comparison

/-- Empty maps are not kept in an overlay. Under one key it does the same without them, unless a scalar is to
become an empty map. -/
theorem mergeEntry_filter (ho : o ≠ some .null) (h : mergeAt (depth + 1) u (o.getD .null) = .ok r) :
    ∃ e, mergeEntry depth (some u) (o.filter (!isEmptyMap ·)) = .ok (some e) ∧
      (u.isLeaf = false ∨ r ≠ .map [] → e = r) := by
  obtain ⟨hd,hm⟩ := mergeAt_eq_ok_iff.mp h
  cases o with
  | none =>
    cases hm with
    | kept => exact ⟨_, rfl, fun _ => rfl⟩
    | taken _ hn => exact absurd rfl hn
  | some v =>
    have hv : v ≠ .null := fun he => ho (congrArg some he)
    cases hempty : isEmptyMap v with
    | false =>
      refine ⟨r, ?_, fun _ => rfl⟩
      simp only [Option.getD_some] at h
      simp [Option.filter, hempty, mergeEntry_some_some hv, h, Functor.map, Except.map]
    | true =>
      have he := isEmptyMap_iff.mp hempty
      subst he
      refine ⟨u, by simp [Option.filter, hempty, mergeEntry], ?_⟩
      intro hkept
      simp only [Option.getD_some] at h
      cases u with
      | map fs => exact Except.ok.inj ((mergeAt_map_nil hd).symm.trans h)
      | list items =>
        cases hm with
        | taken hl _ => cases hl
      | _ =>
        rcases hkept with hleaf | hne
        · cases hleaf
        · rw [mergeAt_of_isLeaf hd rfl hv] at h
          exact absurd (Except.ok.inj h).symm hne

/-- Maps merge as their entries do. -/
theorem mergeAt_of_entries {P : Prop} (hd : depth ≤ depthLimit) (hp : Fields.get? Directive.patch.key gs = none)
    (hf : fs.Ascending) (hg : gs.Ascending) (hh : hs.Ascending)
    (h : ∀ key, ∃ e, mergeEntry depth (fs.get? key) (gs.get? key) = .ok e ∧ (P → e = hs.get? key)) :
    ∃ r, mergeAt depth (.map fs) (.map gs) = .ok r ∧ (P → r = .map hs) := by
  obtain ⟨rs,hrs⟩ := mergeFields_succeeds hf hg fun key => (h key).imp fun _ he => he.1
  refine ⟨.map rs, mergeAt_eq_ok_iff.mpr ⟨hd, .fields (isReplacement_of_get? hp) hrs⟩, ?_⟩
  intro hP
  obtain ⟨hasc,hentries⟩ := (mergeFields_eq_ok_iff hf hg).mp hrs
  refine congrArg Value.map (Fields.ext hasc hh ?_)
  intro key
  obtain ⟨e,he,heq⟩ := h key
  exact (Except.ok.inj ((hentries key).symm.trans he)).trans (heq hP)

/-- Onto a scalar the overlay is the whole value, or nothing if the scalar is the value already. -/
theorem mergeAt_outcome_of_isScalar (hd : depth ≤ depthLimit) (hi : i.isScalar = true) (ha : a.Concrete)
    (hac : a.canonical = a) :
    mergeAt depth i ((Comparison.subtract.outcome matchers i a).getD .null) = .ok a := by
  have hleaf := Value.isLeaf_of_isScalar hi
  rw [outcome_of_isScalar ha.ne_null (Value.ne_null_of_isScalar hi) (Or.inr hi), compareScalars]
  cases hsame : a.same i with
  | false => exact mergeAt_of_isLeaf hd hleaf ha.ne_null
  | true =>
    rw [Value.eq_of_same hleaf hac hsame]
    exact mergeAt_eq_ok_iff.mpr ⟨hd, .kept i⟩

theorem Value.Covers.isSome_get? (h : (map gs).Covers (map fs)) (key : String) :
    (Fields.get? key gs).isSome = (Fields.get? key fs).isSome :=
  h.keys [] gs fs rfl rfl key

theorem mergeEntry_outcomeEntry (hs : (Value.map gs).Supports (.map fs))
    (ih : ∀ u x, Fields.get? key gs = some u → Fields.get? key fs = some x →
      ∃ r, mergeAt (depth + 1) u ((Comparison.subtract.outcome matchers u.canonical x).getD .null) = .ok r ∧
        (u.Covers x → r = x)) :
    ∃ e, mergeEntry depth (Fields.get? key gs) (Comparison.subtract.outcomeEntry matchers (Fields.get? key fs)
        ((Fields.get? key gs).map Value.canonical)) = .ok e ∧
      ((Value.map gs).Covers (.map fs) → e = Fields.get? key fs) := by
  cases hu : Fields.get? key gs with
  | none =>
    refine ⟨none, by simp [outcomeEntry, mergeEntry], ?_⟩
    intro hcovers
    have hsome := hcovers.isSome_get? key
    rw [hu] at hsome
    exact (Option.isNone_iff_eq_none.mp (by simpa using hsome.symm)).symm
  | some u =>
    cases hx : Fields.get? key fs with
    | none =>
      refine ⟨some u, rfl, ?_⟩
      intro hcovers
      simpa [hu, hx] using hcovers.isSome_get? key
    | some x =>
      obtain ⟨r,hr,hback⟩ := ih u x hu hx
      have hnull : Comparison.subtract.outcome matchers u.canonical x ≠ some .null :=
        fun he => ne_null_of_outcome he rfl
      obtain ⟨e,he,hkept⟩ := mergeEntry_filter hnull hr
      refine ⟨some e, he, ?_⟩
      intro hcovers
      have hrx : r = x := hback (hcovers.get? hu hx)
      subst hrx
      refine congrArg some (hkept ?_)
      by_cases hempty : r = .map []
      · subst hempty
        have hscalar := hcovers.filled [key] (List.cons_ne_nil _ _) (Value.follow_cons_of_get? hx) u
          (Value.follow_cons_of_get? hu)
        rcases hs.plain [key] u (Value.follow_cons_of_get? hu) with ⟨hu,_⟩ | ⟨hs,rfl⟩
        · rw [hu] at hscalar
          cases hscalar
        · exact Or.inl rfl
      · exact Or.inr hempty

/-- Onto a map of leaves the overlay may be the whole value. -/
theorem mergeAt_onto_leaves (hd : depth + (Value.map fs).reach ≤ depthLimit) (hao : (Value.map fs).Ordered)
    (ha : (Value.map fs).Concrete) (hgs : gs.Ascending) (hleaf : ∀ key u, (key, u) ∈ gs → u.isLeaf = true) :
    ∃ r, mergeAt depth (.map gs) (.map fs) = .ok r ∧ ((Value.map gs).Covers (.map fs) → r = .map fs) := by
  refine mergeAt_of_entries (by omega) ha.get?_patch hgs hao.ascending hao.ascending ?_
  intro key
  cases hx : Fields.get? key fs with
  | none =>
    refine ⟨Fields.get? key gs, rfl, ?_⟩
    intro hcovers
    have hsome := hcovers.isSome_get? key
    rw [hx] at hsome
    exact Option.isNone_iff_eq_none.mp (by simpa using hsome)
  | some x =>
    have hx0 := (ha.get? hx).ne_null
    have hlt := Value.reach_lt_of_mem_fields (Fields.mem_of_get? hx)
    cases hu : Fields.get? key gs with
    | none => exact ⟨some x, mergeEntry_none_left hx0, fun _ => rfl⟩
    | some u =>
      refine ⟨some x, ?_, fun _ => rfl⟩
      rw [mergeEntry_some_some hx0, mergeAt_of_isLeaf (by omega) (hleaf key u (Fields.mem_of_get? hu)) hx0]
      rfl

/-- What a subtraction keeps of a value can be merged onto a base, also where the base is not in the canonical
form in which it was compared; and the value comes back if the base covers it. -/
theorem mergeAt_outcome (hd : depth + a.reach ≤ depthLimit) (hao : a.Ordered) (hac : a.canonical = a)
    (ha : a.Concrete) (hio : i.Ordered) (hs : i.Supports a) :
    ∃ r, mergeAt depth i ((Comparison.subtract.outcome matchers i.canonical a).getD .null) = .ok r ∧
      (i.Covers a → r = a) := by
  induction a using Value.descend generalizing depth i with
  | step a ih =>
    have hdepth : depth ≤ depthLimit := by omega
    rcases hs.plain [] i rfl with ⟨hscalar,hic⟩ | ⟨gs,rfl⟩
    · rw [hic]
      exact ⟨a, mergeAt_outcome_of_isScalar hdepth hscalar ha hac, fun _ => rfl⟩
    rcases ha.scalar_or_map with hscalar | ⟨fs,rfl⟩
    · exact absurd (hs.scalar [] a _ rfl rfl hscalar) Value.not_isScalar_map
    rcases @Value.canonical_map gs with hcanonical | ⟨text,rfl,hcanonical⟩
    · rw [hcanonical]
      have hfs := hao.ascending
      have hpatch : Fields.get? Directive.patch.key
          (Comparison.subtract.outcomeFields matchers (Value.canonicalFields gs) fs) = none := by
        rw [get?_outcomeFields hfs, ha.get?_patch]
        rfl
      refine mergeAt_of_entries hdepth hpatch hio.ascending (outcomeFields_ascending hfs) hfs ?_
      intro key
      rw [get?_outcomeFields hfs, Value.get?_canonicalFields]
      refine mergeEntry_outcomeEntry hs ?_
      intro u x hu hx
      have hmem := Fields.mem_of_get? hx
      have hlt := Value.reach_lt_of_mem_fields hmem
      exact ih fs key x rfl hmem (by omega) (hao.field hmem)
        (Value.canonical_eq_self_of_inside hac (.field hmem .refl)) (ha.get? hx)
        (hio.field (Fields.mem_of_get? hu)) (hs.get? hu hx)
    · -- The base was compared as a text, from which the whole value differs.
      rw [hcanonical]
      refine mergeAt_onto_leaves hd hao ha hio.ascending ?_
      intro key u hu
      cases List.mem_singleton.mp hu
      rfl

theorem merge_outcome (hr : a.reach ≤ depthLimit) (hao : a.Ordered) (hac : a.canonical = a) (ha : a.Concrete)
    (hio : i.Ordered) (hs : i.Supports a) :
    ∃ r, merge i ((Comparison.subtract.outcome defaultMatchers i.canonical a).getD .null) = .ok r ∧
      (i.Covers a → r = a) :=
  mergeAt_outcome (by omega) hao hac ha hio hs

theorem subtract_eq (hr : a.reach ≤ depthLimit) (hac : a.canonical = a) :
    subtract a b = .ok ((Comparison.subtract.outcome defaultMatchers b.canonical a).getD .null) := by
  rw [subtract, compare_eq (by rwa [hac]), hac]

namespace Value.SameShape

theorem scalar_iff (h : a.SameShape b) (ha : a.Concrete) (hb : b.Concrete) (hx : a.follow path = some x)
    (hy : b.follow path = some y) : x.isScalar = true ↔ y.isScalar = true := by
  rw [(ha.follow hx).isScalar_iff, (hb.follow hy).isScalar_iff]
  exact not_congr (h.maps path x y hx hy)

theorem supports (h : a.SameShape b) (ha : a.Concrete) (hb : b.Concrete) (hbc : b.canonical = b) :
    b.Supports a where
  plain _ _ hu := (hb.follow hu).scalar_or_map.imp_left fun hscalar =>
    ⟨hscalar, canonical_eq_self_of_inside hbc (.of_follow hu)⟩
  scalar _ _ _ hx hu hscalar := (h.scalar_iff ha hb hx hu).mp hscalar

theorem covers (h : a.SameShape b) : b.Covers a where
  keys := h.keys.symm
  filled path _ hx u hu := by
    obtain ⟨gs,rfl⟩ := kind_eq_map_iff.mp ((h.maps path _ u hx hu).mp rfl)
    rfl

end Value.SameShape

theorem follow_getD_null (hv : v.isScalar = true) :
    (o.getD .null).follow path = some v ↔ ∃ r, o = some r ∧ r.follow path = some v := by
  cases o with
  | some r => simp
  | none =>
    simp only [Option.getD_none, reduceCtorEq, false_and, exists_false, iff_false]
    intro h
    cases path with
    | nil =>
      cases h
      cases hv
    | cons key rest => cases h

/-- Of two scalars the first is kept if they differ. -/
theorem outcome_subtract_eq_some_iff (hx : x.isScalar = true) (hxc : x.canonical = x) (hy : y.isScalar = true) :
    Comparison.subtract.outcome matchers y x = some v ↔ x = v ∧ y ≠ v := by
  have hx0 := Value.ne_null_of_isScalar hx
  have hy0 := Value.ne_null_of_isScalar hy
  rw [outcome_of_isScalar hx0 hy0 (Or.inl hx), compareScalars]
  cases hsame : x.same y with
  | true =>
    have he := Value.eq_of_same (Value.isLeaf_of_isScalar hy) hxc hsame
    simp [agreement, he]
  | false =>
    have hne : x ≠ y := by
      rintro rfl
      rw [Value.same_self (Value.isLeaf_of_isScalar hx)] at hsame
      cases hsame
    simp only [Bool.false_eq_true, if_false, mismatch, Option.some.injEq]
    constructor
    · rintro rfl
      exact ⟨rfl, hne.symm⟩
    · exact And.left

/-- An overlay has a scalar where the two values have different scalars, and nowhere else. -/
theorem follow_outcome_subtract (hao : a.Ordered) (hac : a.canonical = a) (ha : a.Concrete) (hb : b.Concrete)
    (hs : a.SameShape b) (hv : v.isScalar = true) :
    ((Comparison.subtract.outcome matchers b a).getD .null).follow path = some v ↔
      a.follow path = some v ∧ ∃ w, b.follow path = some w ∧ w ≠ v := by
  have hcompare : ∀ x y, a.follow path = some x → b.follow path = some y → x.isScalar = true →
      (Comparison.subtract.outcome matchers y x = some v ↔ x = v ∧ y ≠ v) := by
    intro x y hx hy hscalar
    exact outcome_subtract_eq_some_iff hscalar (Value.canonical_eq_self_of_inside hac (.of_follow hx))
      ((hs.scalar_iff ha hb hx hy).mp hscalar)
  rw [follow_getD_null hv]
  constructor
  · rintro ⟨r,hr,hfollow⟩
    obtain ⟨x,y,hx,hy,hxy,_⟩ := exists_of_follow_outcome (Or.inr hs) hao ha.noList hr hfollow
    have hscalar : x.isScalar = true := by
      refine (ha.follow hx).scalar_or_map.resolve_right ?_
      rintro ⟨fs,rfl⟩
      obtain ⟨gs,rfl⟩ := Value.kind_eq_map_iff.mp ((hs.maps path _ y hx hy).mp rfl)
      cases hxy
      cases hv
    obtain ⟨rfl,hne⟩ := (hcompare x y hx hy hscalar).mp hxy
    exact ⟨hx, y, hy, hne⟩
  · rintro ⟨hx,y,hy,hne⟩
    refine follow_outcome_of_follow hao ha.noList hb.noList hx hy ((hcompare v y hx hy hv).mpr ⟨rfl, hne⟩) ?_
    rintro _ rfl
    cases hv

/-- The overlay of a value on one of the same shape gives the value again, and it has a scalar just where the
two have different scalars. -/
theorem merge_subtract (hao : a.Ordered) (hbo : b.Ordered) (hac : a.canonical = a) (hbc : b.canonical = b)
    (ha : a.Concrete) (hb : b.Concrete) (hs : a.SameShape b) (hr : a.reach ≤ depthLimit) :
    ∃ overlay, subtract a b = .ok overlay ∧ merge b overlay = .ok a ∧
      ∀ path v, v.isScalar = true →
        (overlay.follow path = some v ↔ a.follow path = some v ∧ ∃ w, b.follow path = some w ∧ w ≠ v) := by
  obtain ⟨r,hmerge,hback⟩ := merge_outcome hr hao hac ha hbo (hs.supports ha hb hbc)
  cases hback hs.covers
  refine ⟨_, subtract_eq hr hac, hmerge, ?_⟩
  intro path v hv
  rw [hbc]
  exact follow_outcome_subtract hao hac ha hb hs hv

theorem merge_subtract_replicas :
    let a := Value.map [("image", .string "app:2"), ("labels", .map []),
      ("limits", .map [("cpu", .string "2"), ("memory", .string "1Gi")])]
    let b := Value.map [("image", .string "app:1"), ("labels", .map []),
      ("limits", .map [("cpu", .string "2"), ("memory", .string "2Gi")])]
    a.Ordered ∧ b.Ordered ∧ a.canonical = a ∧ b.canonical = b ∧ a.Concrete ∧ b.Concrete ∧ a.SameShape b ∧
      a.reach ≤ depthLimit ∧
      ∃ overlay, subtract a b = .ok overlay ∧ merge b overlay = .ok a ∧
        ∀ path v, v.isScalar = true →
          (overlay.follow path = some v ↔ a.follow path = some v ∧ ∃ w, b.follow path = some w ∧ w ≠ v) := by
  intro a b
  have hao : a.Ordered := by decide
  have hbo : b.Ordered := by decide
  have ha : a.Concrete := by decide
  have hb : b.Concrete := by decide
  have hlimits : (Value.map [("cpu", .string "2"), ("memory", .string "1Gi")]).SameShape
      (.map [("cpu", .string "2"), ("memory", .string "2Gi")]) :=
    .cons (.of_isLeaf rfl rfl) (.cons (.of_isLeaf rfl rfl) .nil)
  have hs : a.SameShape b := .cons (.of_isLeaf rfl rfl) (.cons .nil (.cons hlimits .nil))
  have hr : a.reach ≤ depthLimit := by decide
  exact ⟨hao, hbo, rfl, rfl, ha, hb, hs, hr, merge_subtract hao hbo rfl rfl ha hb hs hr⟩

theorem supports_of_outcome (hao : a.Ordered) (hac : a.canonical = a) (hl : a.ListFree)
    (h : Comparison.intersect.outcome matchers b a = some i) : i.Supports a where
  plain path u hu := by
    obtain ⟨x,y,hx,hy,hxy,_⟩ := exists_of_follow_outcome (Or.inl rfl) hao hl h hu
    have hxl := hl.inside (.of_follow hx)
    rcases isScalar_or_map_of_outcome hxl hxy with hscalar | hmap
    · refine Or.inl ⟨hscalar, ?_⟩
      rcases scalar_of_outcome_intersect hxl hscalar hxy with rfl | rfl
      · exact Value.canonical_eq_self_of_inside hac (.of_follow hx)
      · rfl
    · exact Or.inr hmap
  scalar path x u hx hu hscalar := by
    obtain ⟨x',y,hx',hy,hxy,_⟩ := exists_of_follow_outcome (Or.inl rfl) hao hl h hu
    cases hx.symm.trans hx'
    exact isScalar_of_outcome hscalar hxy

theorem contains_outcomeFields (hf : fs.Ascending) (ha : (Value.map fs).Concrete) (hb : (Value.map gs).Concrete)
    (hk : Fields.contains key fs = Fields.contains key gs)
    (hne : ∀ x y, Fields.get? key fs = some x → Fields.get? key gs = some y →
      Comparison.intersect.outcome matchers y x ≠ some (.map [])) :
    Fields.contains key (Comparison.intersect.outcomeFields matchers gs fs) = Fields.contains key fs := by
  rw [Fields.contains, get?_outcomeFields hf]
  cases hx : Fields.get? key fs with
  | none => simp [Fields.contains, outcomeEntry, hx]
  | some x =>
    have hy : (Fields.get? key gs).isSome = true := by
      rw [Fields.contains, Fields.contains, hx] at hk
      exact hk.symm
    obtain ⟨y,hy⟩ := Option.isSome_iff_exists.mp hy
    obtain ⟨r,hr⟩ := exists_outcome_intersect matchers (ha.get? hx).ne_null (hb.get? hy).ne_null
    have hempty : r ≠ .map [] := by
      rintro rfl
      exact hne x y hx hy hr
    rw [outcomeEntry_eq_some_iff.mpr ⟨x, y, rfl, hy, hr, hempty⟩, Fields.contains, hx]
    rfl

/-- The intersection of two maps with the same keys is not empty, unless the first one is. -/
theorem outcome_intersect_ne_empty (hxo : x.Ordered) (hx : x.Concrete) (hy : y.Concrete) (hk : x.SameKeys y)
    (hempty : x.EmptyApart y) (hne : x ≠ .map []) :
    Comparison.intersect.outcome matchers y x ≠ some (.map []) := by
  induction x using Value.descend generalizing y with
  | step x ih =>
    intro h
    rcases maps_of_outcome hx.noList h with ⟨fs,gs,rfl,rfl,hnil⟩ | ⟨hsub,_⟩
    · cases fs with
      | nil => exact hne rfl
      | cons p rest =>
        obtain ⟨key,x⟩ := p
        have hfields : ∀ x' y', Fields.get? key ((key, x) :: rest) = some x' → Fields.get? key gs = some y' →
            Comparison.intersect.outcome matchers y' x' ≠ some (.map []) := by
          intro x' y' hx' hy'
          have hmem := Fields.mem_of_get? hx'
          have hxf := Value.follow_singleton_of_get? hx'
          have hyf := Value.follow_singleton_of_get? hy'
          exact ih _ key x' rfl hmem (hxo.field hmem) (hx.get? hx') (hy.get? hy') (hk.follow hxf hyf)
            (hempty.follow hxf hyf) (hempty.ne_empty (List.cons_ne_nil key []) hxf hyf)
        have hcontains := contains_outcomeFields hxo.ascending hx hy (hk [] _ gs rfl rfl key) hfields
        rw [← hnil] at hcontains
        simp [Fields.contains, Fields.get?_cons] at hcontains
    · cases hsub

theorem covers_of_outcome (hao : a.Ordered) (ha : a.Concrete) (hb : b.Concrete) (hk : a.SameKeys b)
    (hempty : a.EmptyApart b) (h : Comparison.intersect.outcome matchers b a = some i) : i.Covers a where
  keys path gs fs hu hfs key := by
    obtain ⟨x,y,hx,hy,hxy,_⟩ := exists_of_follow_outcome (Or.inl rfl) hao ha.noList h hu
    cases hfs.symm.trans hx
    rcases maps_of_outcome (ha.follow hx).noList hxy with ⟨_,hs,hfs',rfl,rfl⟩ | ⟨hsub,_⟩
    · cases hfs'
      refine contains_outcomeFields (hao.inside (.of_follow hx)).ascending (ha.follow hx) (hb.follow hy)
        (hk path fs hs hx hy key) ?_
      intro x' y' hx' hy'
      have hxkey := Value.follow_concat_of_get? hx hx'
      have hykey := Value.follow_concat_of_get? hy hy'
      exact outcome_intersect_ne_empty (hao.inside (.of_follow hxkey)) (ha.follow hxkey) (hb.follow hykey)
        (hk.follow hxkey hykey) (hempty.follow hxkey hykey) (hempty.ne_empty (by simp) hxkey hykey)
    · cases hsub
  filled path hpath hx u hu := by
    obtain ⟨_,y,_,hy,_⟩ := exists_of_follow_outcome (Or.inl rfl) hao ha.noList h hu
    cases (hempty path hpath hx).symm.trans hy

/-- A base that is derived from two values with the same keys, and the overlay on it, can be merged. This gives
the first value again, as long as the second has nothing in the place of an empty map below the root. -/
theorem merge_intersect_subtract (hao : a.Ordered) (hac : a.canonical = a) (hbc : b.canonical = b)
    (ha : a.Concrete) (hb : b.Concrete) (hk : a.SameKeys b) (hr : a.reach ≤ depthLimit) :
    ∃ base overlay r, intersect a b = .ok base ∧ subtract a base = .ok overlay ∧ merge base overlay = .ok r ∧
      (a.EmptyApart b → r = a) := by
  obtain ⟨i,hi⟩ := exists_outcome_intersect defaultMatchers ha.ne_null hb.ne_null
  have hbase : intersect a b = .ok i := by
    rw [intersect, compare_eq (by rwa [hac]), hac, hbc, hi]
    rfl
  obtain ⟨r,hmerge,hback⟩ := merge_outcome hr hao hac ha (filled_of_outcome hao ha.noList hi).ordered
    (supports_of_outcome hao hac ha.noList hi)
  refine ⟨i, _, r, hbase, subtract_eq hr hac, hmerge, ?_⟩
  intro hempty
  exact hback (covers_of_outcome hao ha hb hk hempty hi)

def Rebuilds (a b : Value) : Prop :=
  ∃ base overlay, intersect a b = .ok base ∧ subtract a base = .ok overlay ∧ merge base overlay = .ok a

theorem merge_intersect_subtract_replicas :
    let a := Value.map [("image", .string "app:2"), ("labels", .map [("tier", .string "web")]),
      ("limits", .map [("cpu", .string "2"), ("memory", .map [])])]
    let b := Value.map [("image", .string "app:2"), ("labels", .map [("tier", .string "api")]),
      ("limits", .string "none")]
    a.Ordered ∧ a.canonical = a ∧ b.canonical = b ∧ a.Concrete ∧ b.Concrete ∧ a.SameKeys b ∧
      a.reach ≤ depthLimit ∧ a.EmptyApart b ∧ Rebuilds a b := by
  intro a b
  have hao : a.Ordered := by decide
  have ha : a.Concrete := by decide
  have hb : b.Concrete := by decide
  have hr : a.reach ≤ depthLimit := by decide
  have hlabels : (Value.map [("tier", .string "web")]).SameKeys (.map [("tier", .string "api")]) :=
    .cons (.of_isLeaf (Or.inl rfl)) .nil
  have hk : a.SameKeys b :=
    .cons (.of_isLeaf (Or.inl rfl)) (.cons hlabels (.cons (.of_isLeaf (Or.inr rfl)) .nil))
  have htier : (Value.map [("tier", .string "web")]).EmptyApart (.map [("tier", .string "api")]) :=
    .cons (.of_isLeaf (Or.inl rfl)) (by simp) .nil
  have hlimits : (Value.map [("cpu", .string "2"), ("memory", .map [])]).EmptyApart (.string "none") :=
    .of_isLeaf (Or.inr rfl)
  have hempty : a.EmptyApart b :=
    .cons (.of_isLeaf (Or.inl rfl)) (by simp) (.cons htier (by simp) (.cons hlimits (by simp) .nil))
  obtain ⟨base,overlay,r,hbase,hoverlay,hmerge,hback⟩ := merge_intersect_subtract hao rfl rfl ha hb hk hr
  cases hback hempty
  exact ⟨hao, rfl, rfl, ha, hb, hk, hr, hempty, base, overlay, hbase, hoverlay, hmerge⟩

/-- An empty map that both values have is in neither the base nor the overlay, and one in the place of a scalar is
not in the overlay. -/
theorem not_rebuilt_of_empty :
    let a := Value.map [("k", .map [])]
    let b := Value.map [("k", .string "x")]
    (∀ v ∈ [a, b], v.Ordered ∧ v.canonical = v ∧ v.Concrete ∧ v.reach ≤ depthLimit) ∧ a.SameKeys a ∧
      a.SameKeys b ∧ ¬ Rebuilds a a ∧ ¬ Rebuilds a b := by
  intro a b
  have hlost : ∀ other base overlay r, intersect a other = .ok base → subtract a base = .ok overlay →
      merge base overlay = .ok r → r ≠ a → ¬ Rebuilds a other := by
    rintro other base overlay r hbase hoverlay hmerge hne ⟨_,_,hb,ho,hm⟩
    cases hbase.symm.trans hb
    cases hoverlay.symm.trans ho
    exact hne (Except.ok.inj (hmerge.symm.trans hm))
  refine ⟨?_, .cons .nil .nil, .cons (.of_isLeaf (Or.inr rfl)) .nil, ?_, ?_⟩
  · intro v hv
    simp only [List.mem_cons, List.not_mem_nil, or_false] at hv
    rcases hv with rfl | rfl <;> exact ⟨by decide, rfl, by decide, by decide⟩
  · exact hlost a (.map []) (.map []) (.map []) rfl rfl rfl (by simp [a])
  · have hmarked : Value.map [("k", .string requiredMark)] ≠ a := by simp [a]
    exact hlost b _ (.map []) _ rfl rfl rfl hmarked

end LayeredConfig
