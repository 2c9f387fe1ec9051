import LayeredConfig.Proofs.Merge

/-! # Laws of merging

Layers that only add and override form a stack that may be squashed from either end: when merging them
one after another succeeds, so does merging their merge, with the same result. Success has to be carried
over too, because the two orders meet different pairs of values at different places.
-/
namespace LayeredConfig
variable {depth index : Nat} {key : String} {a b c ab abc v : Value} {fs gs : Fields}
variable {items xs ys : List Value}

/-- A layer with no `$patch` at any depth and no `null` below its root. -/
structure Value.Additive (v : Value) : Prop where
  noPatch : ∀ w, ¬ v.HoldsField Directive.patch.key w
  noNull : Value.null.Inside v → v = .null

namespace Value.Additive

theorem ne_null (h : (map fs).Additive) (hv : (key, v) ∈ fs) : v ≠ .null := by
  rintro rfl
  cases h.noNull (.field hv .refl)

theorem field (h : (map fs).Additive) (hv : (key, v) ∈ fs) : v.Additive where
  noPatch w hw := h.noPatch w (hw.inside (.field hv .refl))
  noNull hn := nomatch h.noNull (hn.trans (.field hv .refl))

theorem get?_patch (h : (map fs).Additive) : Fields.get? Directive.patch.key fs = none :=
  Fields.get?_eq_none_iff.mpr fun w hw => h.noPatch w (HoldsField.map_iff.mpr (Or.inl hw))

theorem isRemoval (h : (list items).Additive) (hv : v ∈ items) : isRemoval v = .ok false := by
  cases v with
  | map fs =>
    have hg : Fields.get? Directive.patch.key fs = none := by
      refine Fields.get?_eq_none_iff.mpr ?_
      intro w hw
      exact h.noPatch w (HoldsField.list_iff.mpr ⟨_, hv, HoldsField.map_iff.mpr (Or.inl hw)⟩)
    simp [LayeredConfig.isRemoval, isReplacement, hg]
  | _ => rfl

end Value.Additive

theorem mergeItems_append (h : ∀ v ∈ ys, isRemoval v = .ok false) :
    mergeItems index xs ys = .ok (xs ++ ys) := by
  induction ys generalizing index xs with
  | nil => simp [mergeItems]
  | cons y rest ih =>
    have hrest : mergeItems (index + 1) (xs ++ [y]) rest = .ok ((xs ++ [y]) ++ rest) :=
      ih fun v hv => h v (List.mem_cons_of_mem _ hv)
    rw [mergeItems, h y List.mem_cons_self]
    simpa [labelled, bind, Except.bind] using hrest

theorem mergeAt_null_left (hd : depth ≤ depthLimit) : mergeAt depth .null v = .ok v := by
  by_cases hv : v = .null
  · subst hv
    exact mergeAt_eq_ok_iff.mpr ⟨hd, .kept _⟩
  · exact mergeAt_of_isLeaf hd rfl hv

/-- Within the depth limit a key that is absent takes a value just as one that holds `null`. -/
theorem mergeEntry_of_le {old : Option Value} (hd : depth + 1 ≤ depthLimit) (hv : v ≠ .null) :
    mergeEntry depth old (some v) = some <$> mergeAt (depth + 1) (old.getD .null) v := by
  cases old with
  | none =>
    rw [mergeEntry_none_left hv, Option.getD_none, mergeAt_null_left hd]
    rfl
  | some x => exact mergeEntry_some_some hv

/-- Associativity under one key, from associativity of the values that stand there. -/
theorem mergeEntry_assoc {old mid new om omn : Option Value}
    (hmid : ∀ y, mid = some y → y ≠ .null) (hnew : ∀ z, new = some z → z ≠ .null)
    (ih : ∀ x y z xy w, old = some x → mid = some y → new = some z →
      mergeAt (depth + 1) x y = .ok xy → mergeAt (depth + 1) xy z = .ok w →
      ∃ yz, mergeAt (depth + 1) y z = .ok yz ∧ mergeAt (depth + 1) x yz = .ok w)
    (hom : mergeEntry depth old mid = .ok om) (homn : mergeEntry depth om new = .ok omn) :
    ∃ mn, mergeEntry depth mid new = .ok mn ∧ mergeEntry depth old mn = .ok omn := by
  cases new with
  | none =>
    cases homn
    exact ⟨mid, rfl, hom⟩
  | some z =>
    have hz := hnew z rfl
    cases mid with
    | none =>
      cases hom
      exact ⟨some z, mergeEntry_none_left hz, homn⟩
    | some y =>
      have hy := hmid y rfl
      cases old with
      | none =>
        rw [mergeEntry_none_left hy] at hom
        cases hom
        rw [mergeEntry_some_some hz] at homn
        obtain ⟨w,hw,rfl⟩ := map_eq_ok_iff.mp homn
        have hn : w ≠ .null := (mergeAt_eq_ok_iff.mp hw).2.ne_null (Or.inl hy)
        exact ⟨some w, (mergeEntry_some_some hz).trans homn, mergeEntry_none_left hn⟩
      | some x =>
        rw [mergeEntry_some_some hy] at hom
        obtain ⟨xy,hxy,rfl⟩ := map_eq_ok_iff.mp hom
        rw [mergeEntry_some_some hz] at homn
        obtain ⟨w,hw,rfl⟩ := map_eq_ok_iff.mp homn
        obtain ⟨yz,hyz,hxyz⟩ := ih x y z xy w rfl rfl rfl hxy hw
        have hn : yz ≠ .null := (mergeAt_eq_ok_iff.mp hyz).2.ne_null (Or.inl hy)
        refine ⟨some yz, ?_, ?_⟩
        · rw [mergeEntry_some_some hz, hyz]
          rfl
        · rw [mergeEntry_some_some hn, hxyz]
          rfl

/-- Associativity of maps, from that of the values under each key. -/
theorem mergeFields_assoc {es hs rs : Fields} (hf : fs.Ascending) (hg : gs.Ascending)
    (he : es.Ascending) (hh : hs.Ascending) (hmid : ∀ key y, gs.get? key = some y → y ≠ .null)
    (hnew : ∀ key z, es.get? key = some z → z ≠ .null)
    (ih : ∀ key x y z xy w, fs.get? key = some x → gs.get? key = some y → es.get? key = some z →
      mergeAt (depth + 1) x y = .ok xy → mergeAt (depth + 1) xy z = .ok w →
      ∃ yz, mergeAt (depth + 1) y z = .ok yz ∧ mergeAt (depth + 1) x yz = .ok w)
    (hfg : mergeFields depth fs gs = .ok hs) (hhe : mergeFields depth hs es = .ok rs) :
    ∃ bs, mergeFields depth gs es = .ok bs ∧ mergeFields depth fs bs = .ok rs := by
  obtain ⟨_,hfg⟩ := (mergeFields_eq_ok_iff hf hg).mp hfg
  obtain ⟨hrs,hhe⟩ := (mergeFields_eq_ok_iff hh he).mp hhe
  have hentry : ∀ key, ∃ o, mergeEntry depth (gs.get? key) (es.get? key) = .ok o ∧
      mergeEntry depth (fs.get? key) o = .ok (rs.get? key) := by
    intro key
    refine mergeEntry_assoc (hmid key) (hnew key) ?_ (hfg key) (hhe key)
    intro x y z xy w hx hy hz
    exact ih key x y z xy w hx hy hz
  obtain ⟨bs,hbs⟩ := mergeFields_succeeds hg he fun key => (hentry key).imp fun _ h => h.1
  obtain ⟨hasc,hge⟩ := (mergeFields_eq_ok_iff hg he).mp hbs
  refine ⟨bs, hbs, (mergeFields_eq_ok_iff hf hasc).mpr ⟨hrs, ?_⟩⟩
  intro key
  obtain ⟨o,ho,hr⟩ := hentry key
  rw [hge key] at ho
  cases ho
  exact hr

theorem get?_of_mergeFields {hs : Fields} (hf : fs.Ascending) (hg : gs.Ascending)
    (hfk : fs.get? key = none) (hgk : gs.get? key = none) (h : mergeFields depth fs gs = .ok hs) :
    hs.get? key = none := by
  have hk := ((mergeFields_eq_ok_iff hf hg).mp h).2 key
  rw [hfk, hgk] at hk
  exact (Except.ok.inj hk).symm

theorem mergeItems_assoc {zs es rs : List Value} (hys : ∀ v ∈ ys, isRemoval v = .ok false)
    (hes : ∀ v ∈ es, isRemoval v = .ok false) (hxy : mergeItems 0 xs ys = .ok zs)
    (hze : mergeItems 0 zs es = .ok rs) :
    ∃ bs, mergeItems 0 ys es = .ok bs ∧ mergeItems 0 xs bs = .ok rs := by
  rw [mergeItems_append hys] at hxy
  cases hxy
  rw [mergeItems_append hes] at hze
  cases hze
  refine ⟨ys ++ es, mergeItems_append hes, ?_⟩
  rw [List.append_assoc]
  refine mergeItems_append ?_
  intro v hv
  exact (List.mem_append.mp hv).elim (hys v) (hes v)

/-- Associativity at every depth. The induction is on the uppermost layer: only where all three layers
hold a map does a merge go on below. -/
theorem mergeAt_assoc (ha : a.Ordered) (hb : b.Ordered) (hc : c.Ordered) (hba : b.Additive)
    (hca : c.Additive) (hab : mergeAt depth a b = .ok ab) (habc : mergeAt depth ab c = .ok abc) :
    ∃ bc, mergeAt depth b c = .ok bc ∧ mergeAt depth a bc = .ok abc := by
  induction c using Value.descend generalizing depth a b ab abc with
  | step c ih =>
    obtain ⟨hd,hm⟩ := mergeAt_eq_ok_iff.mp hab
    obtain ⟨_,hn⟩ := mergeAt_eq_ok_iff.mp habc
    have hor : ab.Ordered := mergeAt_ordered ha hb hab
    cases hm with
    | kept => exact ⟨c, mergeAt_null_left hd, habc⟩
    | taken hl hne =>
      exact ⟨abc, habc, mergeAt_eq_ok_iff.mpr ⟨hd, .taken hl (hn.ne_null (Or.inl hne))⟩⟩
    | replaced hr =>
      rw [isReplacement_of_get? hba.get?_patch] at hr
      cases hr
    | @fields fs gs hs _ hfg =>
      cases hn with
      | kept => exact ⟨.map gs, mergeAt_eq_ok_iff.mpr ⟨hd, .kept _⟩, hab⟩
      | taken hl => cases hl
      | replaced hr =>
        rw [isReplacement_of_get? hca.get?_patch] at hr
        cases hr
      | @fields _ es rs _ hhe =>
        have hassoc : ∃ bs, mergeFields depth gs es = .ok bs ∧ mergeFields depth fs bs = .ok rs := by
          refine mergeFields_assoc ha.ascending hb.ascending hc.ascending hor.ascending ?_ ?_ ?_ hfg hhe
          · exact fun key y hy => hba.ne_null (Fields.mem_of_get? hy)
          · exact fun key z hz => hca.ne_null (Fields.mem_of_get? hz)
          · intro key x y z xy w hx hy hz hxy hw
            have hx := Fields.mem_of_get? hx
            have hy := Fields.mem_of_get? hy
            have hz := Fields.mem_of_get? hz
            exact ih es key z rfl hz (ha.field hx) (hb.field hy) (hc.field hz) (hba.field hy)
              (hca.field hz) hxy hw
        obtain ⟨bs,hbs,hfb⟩ := hassoc
        have hpatch : bs.get? Directive.patch.key = none :=
          get?_of_mergeFields hb.ascending hc.ascending hba.get?_patch hca.get?_patch hbs
        refine ⟨.map bs, mergeAt_eq_ok_iff.mpr ⟨hd, ?_⟩, mergeAt_eq_ok_iff.mpr ⟨hd, ?_⟩⟩
        · exact .fields (isReplacement_of_get? hca.get?_patch) hbs
        · exact .fields (isReplacement_of_get? hpatch) hfb
    | @items xs ys zs hxy =>
      cases hn with
      | kept => exact ⟨.list ys, mergeAt_eq_ok_iff.mpr ⟨hd, .kept _⟩, hab⟩
      | taken hl => cases hl
      | @items _ es rs hze =>
        obtain ⟨bs,hbs,hxb⟩ := mergeItems_assoc (fun _ => hba.isRemoval) (fun _ => hca.isRemoval) hxy hze
        exact ⟨.list bs, mergeAt_eq_ok_iff.mpr ⟨hd, .items hbs⟩, mergeAt_eq_ok_iff.mpr ⟨hd, .items hxb⟩⟩

/-- A stack of additive layers on any value may be squashed from either end. -/
theorem merge_assoc_of_additive (ha : a.Ordered) (hb : b.Ordered) (hc : c.Ordered) (hba : b.Additive)
    (hca : c.Additive) (hab : merge a b = .ok ab) (habc : merge ab c = .ok abc) :
    ∃ bc, merge b c = .ok bc ∧ merge a bc = .ok abc :=
  mergeAt_assoc ha hb hc hba hca hab habc

theorem merge_assoc_of_additive_limits :
    let a := Value.map [("limits", .map [("cpu", .string "1"), ("io", .null)]), ("tags", .list [.null])]
    let b := Value.map [("limits", .map [("cpu", .string "2")]), ("tags", .list [.string "x"])]
    let c := Value.map [("limits", .map [("io", .string "3")]), ("tags", .list [.map []])]
    let abc := Value.map [("limits", .map [("cpu", .string "2"), ("io", .string "3")]),
      ("tags", .list [.null, .string "x", .map []])]
    a.Ordered ∧ b.Ordered ∧ c.Ordered ∧ b.Additive ∧ c.Additive ∧
      (∃ ab, merge a b = .ok ab ∧ merge ab c = .ok abc) ∧
      ∃ bc, merge b c = .ok bc ∧ merge a bc = .ok abc := by
  intro a b c abc
  have ha : a.Ordered := by decide
  have hb : b.Ordered := by decide
  have hc : c.Ordered := by decide
  have hba : b.Additive := by
    constructor <;> simp [b, Value.HoldsField, Value.inside_iff_mem_parts, Value.parts, Value.partsOfFields,
      Value.partsOfItems, Directive.key]
  have hca : c.Additive := by
    constructor <;> simp [c, Value.HoldsField, Value.inside_iff_mem_parts, Value.parts, Value.partsOfFields,
      Value.partsOfItems, Directive.key]
  exact ⟨ha, hb, hc, hba, hca, ⟨_, rfl, rfl⟩, merge_assoc_of_additive ha hb hc hba hca rfl rfl⟩

end LayeredConfig
