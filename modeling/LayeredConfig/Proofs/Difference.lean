import LayeredConfig.Difference
import LayeredConfig.Proofs.Results
import LayeredConfig.Proofs.Shapes

/-! # Comparisons within the limit

A comparison fails only where values nest too deeply. `outcome` is what it gives without that limit, and
`compareAt_eq_outcome` says that the two agree on every value whose places are within it. Of two maps the
outcome is taken key by key, and `outcomeEntry` says what becomes of one key.
-/
namespace LayeredConfig
variable {c : Comparison} {matchers path : List String} {label key : String} {depth : Nat}
variable {a b r v x y : Value} {fs gs : Fields} {items others : List Value} {o p : Option Value}

namespace Comparison

mutual

/-- The comparison of two values without a limit to how deeply they nest. -/
def outcome (c : Comparison) (matchers : List String) (b : Value) : Value → Option Value
  | .null => none
  | .map a =>
    match b with
    | .null => none
    | .map b => some (.map (outcomeFields c matchers b a))
    | _ => some (c.mismatch (.map a))
  | .list a =>
    match b with
    | .null => none
    | .list b =>
      match outcomeItems c matchers b a with
      | [] => c.exhausted
      | kept => some (.list kept)
    | _ => some (c.mismatch (.list a))
  | a =>
    match b with
    | .null => none
    | b => c.compareScalars a b

def outcomeFields (c : Comparison) (matchers : List String) (b : Fields) :
    List (String × Value) → Fields
  | [] => []
  | (key, a) :: rest =>
    match ((Fields.get? key b).bind fun other => outcome c matchers other a).filter (!isEmptyMap ·) with
    | some v => (key, v) :: outcomeFields c matchers b rest
    | none => outcomeFields c matchers b rest

def outcomeItems (c : Comparison) (matchers : List String) (b : List Value) :
    List Value → List Value
  | [] => []
  | .map a :: rest =>
    match b.find? (Value.correlates matchers (.map a)) with
    | some (.map partner) =>
      let kept := outcomeFields c matchers partner a
      if kept.isEmpty then outcomeItems c matchers b rest else .map kept :: outcomeItems c matchers b rest
    | _ => .map a :: outcomeItems c matchers b rest
  | a :: rest => a :: outcomeItems c matchers b rest

end

def outcomeEntry (c : Comparison) (matchers : List String) (old new : Option Value) : Option Value :=
  (old.bind fun x => new.bind fun y => c.outcome matchers y x).filter (!isEmptyMap ·)

theorem isEmptyMap_iff : isEmptyMap v = true ↔ v = .map [] := by
  cases v with
  | map fields => cases fields <;> simp [isEmptyMap]
  | _ => simp [isEmptyMap]

theorem outcomeEntry_eq_some_iff :
    c.outcomeEntry matchers o p = some r ↔
      ∃ x y, o = some x ∧ p = some y ∧ c.outcome matchers y x = some r ∧ r ≠ .map [] := by
  have hempty : (!isEmptyMap r) = true ↔ r ≠ .map [] := by simp [← isEmptyMap_iff]
  simp only [outcomeEntry, Option.filter_eq_some_iff, Option.bind_eq_some_iff, hempty]
  constructor
  · rintro ⟨⟨x,hx,y,hy,he⟩,hne⟩
    exact ⟨x, y, hx, hy, he, hne⟩
  · rintro ⟨x,y,hx,hy,he,hne⟩
    exact ⟨⟨x, hx, y, hy, he⟩, hne⟩

/-- A scalar on either side is compared as scalars are. -/
theorem outcome_of_isScalar (ha : a ≠ .null) (hb : b ≠ .null) (h : a.isScalar = true ∨ b.isScalar = true) :
    c.outcome matchers b a = c.compareScalars a b := by
  cases a <;> cases b <;>
    simp_all [outcome, compareScalars, Value.same, Value.isScalar, Value.isLeaf, Value.isNull]

/-- Nothing is written as `null`: what is left is a value. -/
theorem ne_null_of_outcome (h : c.outcome matchers b a = some r) : r ≠ .null := by
  rintro rfl
  cases c <;> cases a <;> cases b
  all_goals simp only [outcome, compareScalars, agreement, mismatch, exhausted] at h
  all_goals first | cases h | (split at h <;> cases h)

theorem outcomeFields_cons :
    c.outcomeFields matchers gs ((key, x) :: fs) =
      (c.outcomeEntry matchers (some x) (Fields.get? key gs)).elim (c.outcomeFields matchers gs fs)
        fun v => (key, v) :: c.outcomeFields matchers gs fs := by
  rw [outcomeFields, outcomeEntry, Option.bind_some]
  cases Option.filter _ _ <;> rfl

theorem mem_outcomeFields (h : (key, v) ∈ c.outcomeFields matchers gs fs) :
    ∃ x, (key, x) ∈ fs ∧ c.outcomeEntry matchers (some x) (Fields.get? key gs) = some v := by
  induction fs with
  | nil => simp [outcomeFields] at h
  | cons p rest ih =>
    obtain ⟨l,x⟩ := p
    have hrest : (key, v) ∈ c.outcomeFields matchers gs rest →
        ∃ x', (key, x') ∈ (l, x) :: rest ∧
          c.outcomeEntry matchers (some x') (Fields.get? key gs) = some v := by
      intro h
      obtain ⟨x',hx,he⟩ := ih h
      exact ⟨x', List.mem_cons_of_mem _ hx, he⟩
    rw [outcomeFields_cons] at h
    cases he : c.outcomeEntry matchers (some x) (Fields.get? l gs) with
    | none =>
      rw [he] at h
      exact hrest h
    | some w =>
      rw [he] at h
      rcases List.mem_cons.mp h with hw | h
      · cases hw
        exact ⟨x, List.mem_cons_self, he⟩
      · exact hrest h

theorem outcomeFields_ascending (hf : fs.Ascending) : (c.outcomeFields matchers gs fs).Ascending := by
  induction fs with
  | nil => exact .nil
  | cons p rest ih =>
    obtain ⟨l,x⟩ := p
    obtain ⟨hl,hrest⟩ := Fields.Ascending.cons_iff.mp hf
    rw [outcomeFields_cons]
    cases c.outcomeEntry matchers (some x) (Fields.get? l gs) with
    | none => exact ih hrest
    | some w =>
      refine Fields.Ascending.cons_iff.mpr ⟨?_, ih hrest⟩
      rintro ⟨key,v⟩ hv
      obtain ⟨x',hx,_⟩ := mem_outcomeFields hv
      have hlt : l < key := hl (key, x') hx
      exact hlt

theorem get?_outcomeFields (hf : fs.Ascending) :
    (c.outcomeFields matchers gs fs).get? key = c.outcomeEntry matchers (fs.get? key) (gs.get? key) := by
  cases hx : fs.get? key with
  | none =>
    refine Fields.get?_eq_none_iff.mpr ?_
    intro v hv
    obtain ⟨x,hmem,_⟩ := mem_outcomeFields hv
    exact Fields.get?_eq_none_iff.mp hx x hmem
  | some x =>
    induction fs with
    | nil => cases hx
    | cons p rest ih =>
      obtain ⟨l,x'⟩ := p
      rw [outcomeFields_cons]
      rw [Fields.get?_cons] at hx
      by_cases hl : l = key
      · subst hl
        rw [if_pos rfl] at hx
        cases hx
        cases he : c.outcomeEntry matchers (some x) (gs.get? l) with
        | some w => simp [Fields.get?_cons]
        | none =>
          -- The key stands in no later field.
          refine Fields.get?_eq_none_iff.mpr ?_
          intro v hv
          obtain ⟨x',hmem,_⟩ := mem_outcomeFields hv
          exact Fields.get?_eq_none_iff.mp hf.get?_tail x' hmem
      · rw [if_neg hl] at hx
        cases c.outcomeEntry matchers (some x') (gs.get? l) with
        | none => exact ih hf.tail hx
        | some w => simpa [Fields.get?_cons, hl] using ih hf.tail hx

/-- Only the fields that are looked at need to be compared. -/
theorem compareFields_eq_outcomeFields
    (h : ∀ key x y, (key, x) ∈ fs → Fields.get? key gs = some y → c.skips x y = false → ∀ label,
      c.compareAt matchers label (depth + 1) y x = .ok (c.outcome matchers y x)) :
    c.compareFields matchers label depth gs fs = .ok (c.outcomeFields matchers gs fs) := by
  induction fs with
  | nil => rfl
  | cons p rest ih =>
    obtain ⟨key,x⟩ := p
    obtain ⟨hx,hrest⟩ := Fields.forall_mem_cons.mp fun key x hmem y => h key x y hmem
    have hrest := ih fun key x y hmem => hrest key x hmem y
    rw [compareFields, outcomeFields_cons]
    cases hy : Fields.get? key gs with
    | none => simpa [outcomeEntry] using hrest
    | some y =>
      simp only [hrest]
      cases hskip : c.skips x y with
      | true =>
        have hnull : x = .null := by
          cases x <;> simp_all [skips, Value.isNull]
        subst hnull
        simp [outcomeEntry, outcome]
      | false =>
        simp only [hx y hy hskip, Bool.false_eq_true, if_false, outcomeEntry, Option.bind_some, bind, Except.bind]
        cases c.outcome matchers y x with
        | none => rfl
        | some v => cases hv : isEmptyMap v <;> simp [Option.filter, hv]

theorem compareItems_eq_outcomeItems
    (h : ∀ fs gs, .map fs ∈ items → others.find? (Value.correlates matchers (.map fs)) = some (.map gs) →
      c.compareFields matchers label (depth + 1) gs fs = .ok (c.outcomeFields matchers gs fs)) :
    c.compareItems matchers label depth others items = .ok (c.outcomeItems matchers others items) := by
  induction items with
  | nil => rfl
  | cons x rest ih =>
    have hrest := ih fun fs gs hfs => h fs gs (List.mem_cons_of_mem _ hfs)
    cases x with
    | map fs =>
      have hfs := fun gs => h fs gs List.mem_cons_self
      rw [compareItems, outcomeItems]
      cases hfind : others.find? (Value.correlates matchers (.map fs)) with
      | none => simp only [hrest, bind, Except.bind]
      | some partner =>
        cases partner with
        | map gs => simp only [hfs gs hfind, hrest, bind, Except.bind]
        | _ => simp only [hrest, bind, Except.bind]
    | _ => simp only [compareItems, outcomeItems, hrest, bind, Except.bind]

/-- Where every place of a value is within the limit, its comparison succeeds. -/
theorem compareAt_eq_outcome (h : depth + a.reach ≤ depthLimit) :
    c.compareAt matchers label depth b a = .ok (c.outcome matchers b a) := by
  induction a generalizing label depth b with
  | map fs ih =>
    have hdepth : ¬ depthLimit < depth := by omega
    have hfields : ∀ gs, c.compareFields matchers label depth gs fs = .ok (c.outcomeFields matchers gs fs) := by
      intro gs
      refine compareFields_eq_outcomeFields ?_
      intro key x y hx _ _ label
      have hlt := Value.reach_lt_of_mem_fields hx
      exact ih key x hx (by omega)
    cases b <;> simp [compareAt, outcome, hdepth, hfields, bind, Except.bind]
  | list items ih =>
    have hdepth : ¬ depthLimit < depth := by omega
    have hitems : ∀ others,
        c.compareItems matchers label depth others items = .ok (c.outcomeItems matchers others items) := by
      intro others
      refine compareItems_eq_outcomeItems ?_
      intro fs gs hfs _
      have hlt := Value.reach_lt_of_mem_items hfs
      have hmap : c.compareAt matchers label (depth + 1) (.map gs) (.map fs) =
          .ok (c.outcome matchers (.map gs) (.map fs)) := ih (.map fs) hfs (by omega)
      have hle : ¬ depthLimit < depth + 1 := by omega
      simp only [compareAt, outcome, if_neg hle] at hmap
      obtain ⟨kept,hkept,he⟩ := bind_eq_ok_iff.mp hmap
      cases he
      exact hkept
    cases b with
    | list others =>
      simp only [compareAt, outcome, if_neg hdepth, hitems, bind, Except.bind]
      cases c.outcomeItems matchers others items <;> rfl
    | _ => simp [compareAt, outcome, hdepth]
  | _ =>
    have hdepth : ¬ depthLimit < depth := by omega
    cases b <;> simp [compareAt, outcome, hdepth]

theorem compare_eq (h : a.canonical.reach ≤ depthLimit) :
    c.compare matchers a b = .ok ((c.outcome matchers b.canonical a.canonical).getD .null) := by
  rw [Comparison.compare, compareAt_eq_outcome (by omega)]
  rfl

theorem isScalar_of_outcome (ha : a.isScalar = true) (h : c.outcome matchers b a = some r) :
    r.isScalar = true := by
  have hb : b ≠ .null := by
    rintro rfl
    cases a <;> simp_all [outcome, Value.isScalar, Value.isLeaf]
  rw [outcome_of_isScalar (Value.ne_null_of_isScalar ha) hb (Or.inl ha), compareScalars] at h
  cases c <;> split at h <;> cases h <;> first | exact ha | rfl

/-- A map is left of two maps, or it is a map that a subtraction keeps whole. -/
theorem maps_of_outcome (ha : a.ListFree) {hs : Fields} (h : c.outcome matchers b a = some (.map hs)) :
    (∃ fs gs, a = .map fs ∧ b = .map gs ∧ hs = c.outcomeFields matchers gs fs) ∨
      c = .subtract ∧ a = .map hs ∧ b.kind ≠ .map := by
  rcases ha.cases with rfl | hscalar | ⟨fs,rfl⟩
  · simp [outcome] at h
  · exact absurd (isScalar_of_outcome hscalar h) Value.not_isScalar_map
  · cases b <;> cases c <;> simp_all [outcome, mismatch, Value.kind]

theorem isScalar_or_map_of_outcome (ha : a.ListFree) (h : c.outcome matchers b a = some r) :
    r.isScalar = true ∨ ∃ hs, r = .map hs := by
  rcases ha.cases with rfl | hscalar | ⟨fs,rfl⟩
  · simp [outcome] at h
  · exact Or.inl (isScalar_of_outcome hscalar h)
  · cases b with
    | null => simp [outcome] at h
    | map gs =>
      cases h
      exact Or.inr ⟨_, rfl⟩
    | _ => cases c <;> cases h <;> first | exact Or.inl rfl | exact Or.inr ⟨fs, rfl⟩

/-- Of an intersection without lists nothing is left that is empty, but for the root. -/
theorem filled_of_outcome (ho : a.Ordered) (hl : a.ListFree)
    (h : Comparison.intersect.outcome matchers b a = some r) : r.Filled := by
  induction a using Value.descend generalizing b r with
  | step a ih =>
    rcases isScalar_or_map_of_outcome hl h with hscalar | ⟨hs,rfl⟩
    · exact .scalar hscalar
    rcases maps_of_outcome hl h with ⟨fs,gs,rfl,rfl,rfl⟩ | ⟨hsub,_⟩
    · have hentry : ∀ key v, (key, v) ∈ Comparison.intersect.outcomeFields matchers gs fs →
          v.Filled ∧ v ≠ .map [] := by
        intro key v hv
        obtain ⟨x,hx,he⟩ := mem_outcomeFields hv
        obtain ⟨x',y,hx',_,hxy,hne⟩ := outcomeEntry_eq_some_iff.mp he
        cases hx'
        exact ⟨ih fs key x rfl hx (ho.field hx) (Value.listFree_map_iff.mp hl key x hx) hxy, hne⟩
      exact .fields (outcomeFields_ascending ho.ascending) (fun key v hv => (hentry key v hv).1)
        fun key v hv => (hentry key v hv).2
    · cases hsub

/-- What is left at a path is left of what the two values hold there. A subtraction keeps maps whole where the
shapes differ, an intersection does not. -/
theorem exists_of_follow_outcome (hc : c = .intersect ∨ a.SameShape b) (ho : a.Ordered) (hl : a.ListFree)
    (h : c.outcome matchers b a = some r) (hr : r.follow path = some v) :
    ∃ x y, a.follow path = some x ∧ b.follow path = some y ∧ c.outcome matchers y x = some v ∧
      (path ≠ [] → v ≠ .map []) := by
  induction path generalizing a b r with
  | nil =>
    cases hr
    exact ⟨a, b, rfl, rfl, h, fun hne => absurd rfl hne⟩
  | cons key rest ih =>
    obtain ⟨w,hw,hrest⟩ := Option.bind_eq_some_iff.mp hr
    rcases isScalar_or_map_of_outcome hl h with hscalar | ⟨hs,rfl⟩
    · cases r <;> first | cases hw | cases hscalar
    rcases maps_of_outcome hl h with ⟨fs,gs,rfl,rfl,rfl⟩ | ⟨hsub,rfl,hb⟩
    · have hentry : Fields.get? key (c.outcomeFields matchers gs fs) = some w := hw
      rw [get?_outcomeFields ho.ascending] at hentry
      obtain ⟨x,y,hx,hy,hxy,hne⟩ := outcomeEntry_eq_some_iff.mp hentry
      have hshape : c = .intersect ∨ x.SameShape y := hc.imp_right fun hs => hs.get? hx hy
      obtain ⟨x',y',hx',hy',hxy',hne'⟩ := ih hshape (ho.field (Fields.mem_of_get? hx)) (hl.get? hx) hxy hrest
      refine ⟨x', y', (Value.follow_cons_of_get? hx).trans hx', (Value.follow_cons_of_get? hy).trans hy', hxy',
        ?_⟩
      intro _
      cases rest with
      | nil =>
        cases hrest
        exact hne
      | cons k rest => exact hne' (List.cons_ne_nil k rest)
    · rcases hc with hc | hc
      · cases hsub.symm.trans hc
      · exact absurd ((hc.maps [] _ b rfl rfl).mp rfl) hb

theorem follow_outcome_of_follow (ho : a.Ordered) (ha : a.ListFree) (hb : b.ListFree)
    (hx : a.follow path = some x) (hy : b.follow path = some y) (h : c.outcome matchers y x = some v)
    (hv : path ≠ [] → v ≠ .map []) : ∃ r, c.outcome matchers b a = some r ∧ r.follow path = some v := by
  induction path generalizing a b with
  | nil =>
    cases hx
    cases hy
    exact ⟨v, h, rfl⟩
  | cons key rest ih =>
    have hne := hv (List.cons_ne_nil key rest)
    obtain ⟨fs,x',rfl,hx',hx⟩ := ha.follow_cons_eq_some_iff.mp hx
    obtain ⟨gs,y',rfl,hy',hy⟩ := hb.follow_cons_eq_some_iff.mp hy
    obtain ⟨r,hr,hrest⟩ := ih (ho.field (Fields.mem_of_get? hx')) (ha.get? hx') (hb.get? hy') hx hy fun _ => hne
    have hkept : r ≠ .map [] := by
      rintro rfl
      cases rest with
      | nil => exact hne (Option.some.inj hrest).symm
      | cons _ _ => cases hrest
    refine ⟨_, rfl, ?_⟩
    rwa [Value.follow_cons_of_get? (v := r)]
    rw [get?_outcomeFields ho.ascending]
    exact outcomeEntry_eq_some_iff.mpr ⟨x', y', hx', hy', hr, hkept⟩

/-- Two values have something in common, be it a required mark. -/
theorem exists_outcome_intersect (matchers : List String) (ha : a ≠ .null) (hb : b ≠ .null) :
    ∃ r, Comparison.intersect.outcome matchers b a = some r := by
  cases a with
  | null => exact absurd rfl ha
  | map fs => cases b <;> first | exact absurd rfl hb | exact ⟨_, rfl⟩
  | list items =>
    cases b with
    | null => exact absurd rfl hb
    | list others =>
      rw [outcome]
      split <;> exact ⟨_, rfl⟩
    | _ => exact ⟨_, rfl⟩
  | _ =>
    rw [outcome_of_isScalar ha hb (Or.inl rfl), compareScalars]
    split <;> exact ⟨_, rfl⟩

/-- A scalar in an intersection is what the first value has, or the required mark. -/
theorem scalar_of_outcome_intersect (hl : a.ListFree) (hr : r.isScalar = true)
    (h : Comparison.intersect.outcome matchers b a = some r) : r = a ∨ r = .string requiredMark := by
  have hb : b ≠ .null := by
    rintro rfl
    cases a <;> cases h
  rcases hl.cases with rfl | hscalar | ⟨fs,rfl⟩
  · cases h
  · rw [outcome_of_isScalar (Value.ne_null_of_isScalar hscalar) hb (Or.inl hscalar), compareScalars] at h
    split at h <;> cases h
    · exact Or.inl rfl
    · exact Or.inr rfl
  · cases b with
    | null => exact absurd rfl hb
    | map gs =>
      cases h
      cases hr
    | _ =>
      cases h
      exact Or.inr rfl

end Comparison
end LayeredConfig
