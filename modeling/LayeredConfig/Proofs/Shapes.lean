import LayeredConfig.Directive
import LayeredConfig.Proofs.Subtrees

/-! # Shapes of values

`reach` counts how deep the places of a value lie, as the limits of merges and comparisons count it. Two values
are compared by the maps that they hold at the same paths: `SameKeys` allows one to hold a scalar where the
other holds a map, `SameShape` does not. A value that is `Filled` is known by its scalars.
-/
namespace LayeredConfig.Value
variable {a b u v x y : Value} {path rest : List String} {key label : String} {n : Nat}
variable {fs gs : Fields} {items : List Value}

mutual

def reach : Value → Nat
  | list items => reachOfItems items
  | map fields => reachOfFields fields
  | _ => 0

def reachOfItems : List Value → Nat
  | [] => 0
  | v :: rest => max (v.reach + 1) (reachOfItems rest)

def reachOfFields : List (String × Value) → Nat
  | [] => 0
  | (_, v) :: rest => max (v.reach + 1) (reachOfFields rest)

end

theorem reach_of_isLeaf (h : v.isLeaf = true) : v.reach = 0 := by
  cases v with
  | list items => cases h
  | map fields => cases h
  | _ => rfl

theorem reach_list_le_iff : (list items).reach ≤ n ↔ ∀ v ∈ items, v.reach < n := by
  rw [reach]
  induction items with
  | nil => simp [reachOfItems]
  | cons v rest ih =>
    rw [List.forall_mem_cons, ← ih, reachOfItems]
    omega

theorem reach_map_le_iff : (map fs).reach ≤ n ↔ ∀ key v, (key, v) ∈ fs → v.reach < n := by
  rw [reach]
  induction fs with
  | nil => simp [reachOfFields]
  | cons p rest ih =>
    obtain ⟨l,x⟩ := p
    rw [Fields.forall_mem_cons, ← ih, reachOfFields]
    omega

theorem reach_lt_of_mem_items (h : v ∈ items) : v.reach < (list items).reach :=
  reach_list_le_iff.mp (Nat.le_refl _) v h

theorem reach_lt_of_mem_fields (h : (key, v) ∈ fs) : v.reach < (map fs).reach :=
  reach_map_le_iff.mp (Nat.le_refl _) key v h

def SameKeys (a b : Value) : Prop :=
  ∀ path fs gs, a.follow path = some (map fs) → b.follow path = some (map gs) →
    ∀ key, Fields.contains key fs = Fields.contains key gs

/-- At every path to a place in both values one holds a map just if the other does, with the same keys. -/
structure SameShape (a b : Value) : Prop where
  keys : a.SameKeys b
  maps : ∀ path x y, a.follow path = some x → b.follow path = some y → (x.kind = .map ↔ y.kind = .map)

/-- Below the roots, where the first value holds an empty map the second has nothing. -/
def EmptyApart (a b : Value) : Prop :=
  ∀ path, path ≠ [] → a.follow path = some (map []) → b.follow path = none

theorem follow_cons_cons :
    (map ((label, x) :: fs)).follow (key :: rest) =
      if label = key then x.follow rest else (map fs).follow (key :: rest) := by
  rw [follow, step, Fields.get?_cons]
  split <;> rfl

theorem SameKeys.nil : (map []).SameKeys (map []) := by
  intro path fs gs hf hg key
  cases path with
  | nil =>
    cases hf
    cases hg
    rfl
  | cons _ _ => cases hf

theorem SameKeys.cons (hx : x.SameKeys y) (h : (map fs).SameKeys (map gs)) :
    (map ((label, x) :: fs)).SameKeys (map ((label, y) :: gs)) := by
  intro path fs' gs' hf hg key
  cases path with
  | nil =>
    cases hf
    cases hg
    have hrest := h [] fs gs rfl rfl key
    rw [Fields.contains, Fields.contains] at hrest
    rw [Fields.contains, Fields.contains, Fields.get?_cons, Fields.get?_cons]
    split
    · rfl
    · exact hrest
  | cons l rest =>
    rw [follow_cons_cons] at hf hg
    by_cases hl : label = l
    · rw [if_pos hl] at hf hg
      exact hx rest fs' gs' hf hg key
    · rw [if_neg hl] at hf hg
      exact h (l :: rest) fs' gs' hf hg key

theorem SameKeys.of_isLeaf (h : a.isLeaf = true ∨ b.isLeaf = true) : a.SameKeys b := by
  intro path fs gs hf hg key
  cases path with
  | nil =>
    cases hf
    cases hg
    rcases h with h | h <;> cases h
  | cons l rest =>
    rcases h with h | h
    · rw [follow_cons_of_isLeaf h] at hf
      cases hf
    · rw [follow_cons_of_isLeaf h] at hg
      cases hg

theorem EmptyApart.nil : (map []).EmptyApart (map []) := by
  intro path hpath _
  cases path with
  | nil => exact absurd rfl hpath
  | cons _ _ => rfl

theorem EmptyApart.cons (hx : x.EmptyApart y) (hne : x ≠ map []) (h : (map fs).EmptyApart (map gs)) :
    (map ((label, x) :: fs)).EmptyApart (map ((label, y) :: gs)) := by
  intro path hpath hu
  cases path with
  | nil => exact absurd rfl hpath
  | cons l rest =>
    rw [follow_cons_cons] at hu ⊢
    by_cases hl : label = l
    · rw [if_pos hl] at hu ⊢
      cases rest with
      | nil => exact absurd (Option.some.inj hu) hne
      | cons k rest => exact hx (k :: rest) (List.cons_ne_nil k rest) hu
    · rw [if_neg hl] at hu ⊢
      exact h (l :: rest) (List.cons_ne_nil l rest) hu

theorem EmptyApart.of_isLeaf (h : a.isLeaf = true ∨ b.isLeaf = true) : a.EmptyApart b := by
  intro path hpath hu
  cases path with
  | nil => exact absurd rfl hpath
  | cons l rest =>
    rcases h with h | h
    · rw [follow_cons_of_isLeaf h] at hu
      cases hu
    · exact follow_cons_of_isLeaf h

theorem EmptyApart.follow (h : a.EmptyApart b) (hx : a.follow path = some x) (hy : b.follow path = some y) :
    x.EmptyApart y := by
  intro rest hrest hu
  have hnone : b.follow (path ++ rest) = none := by
    refine h (path ++ rest) ?_ ?_
    · exact fun he => hrest (List.append_eq_nil_iff.mp he).2
    · rw [follow_append, hx]
      exact hu
  rwa [follow_append, hy] at hnone

theorem EmptyApart.ne_empty (h : a.EmptyApart b) (hpath : path ≠ []) (hx : a.follow path = some x)
    (hy : b.follow path = some y) : x ≠ map [] := by
  rintro rfl
  cases (h path hpath hx).symm.trans hy

theorem SameShape.nil : (map []).SameShape (map []) where
  keys := .nil
  maps path x y hx hy := by
    cases path with
    | nil =>
      cases hx
      cases hy
      exact Iff.rfl
    | cons _ _ => cases hx

theorem SameShape.cons (hx : x.SameShape y) (h : (map fs).SameShape (map gs)) :
    (map ((label, x) :: fs)).SameShape (map ((label, y) :: gs)) where
  keys := hx.keys.cons h.keys
  maps path u w hu hw := by
    cases path with
    | nil =>
      cases hu
      cases hw
      exact Iff.rfl
    | cons l rest =>
      rw [follow_cons_cons] at hu hw
      by_cases hl : label = l
      · rw [if_pos hl] at hu hw
        exact hx.maps rest u w hu hw
      · rw [if_neg hl] at hu hw
        exact h.maps (l :: rest) u w hu hw

theorem SameShape.of_isLeaf (ha : a.isLeaf = true) (hb : b.isLeaf = true) : a.SameShape b where
  keys := .of_isLeaf (Or.inl ha)
  maps path x y hx hy := by
    cases path with
    | nil =>
      cases hx
      cases hy
      cases a <;> cases b <;> simp_all [kind, isLeaf]
    | cons l rest =>
      rw [follow_cons_of_isLeaf ha] at hx
      cases hx

theorem SameKeys.symm (h : a.SameKeys b) : b.SameKeys a :=
  fun path fs gs hf hg key => (h path gs fs hg hf key).symm

theorem SameKeys.follow (h : a.SameKeys b) (hx : a.follow path = some x) (hy : b.follow path = some y) :
    x.SameKeys y := by
  intro rest fs gs hf hg
  refine h (path ++ rest) fs gs ?_ ?_
  · rw [follow_append, hx]
    exact hf
  · rw [follow_append, hy]
    exact hg

theorem SameKeys.get? (h : (map fs).SameKeys (map gs)) (hx : Fields.get? key fs = some x)
    (hy : Fields.get? key gs = some y) : x.SameKeys y :=
  h.follow (follow_singleton_of_get? hx) (follow_singleton_of_get? hy)

theorem SameShape.get? (h : (map fs).SameShape (map gs)) (hx : Fields.get? key fs = some x)
    (hy : Fields.get? key gs = some y) : x.SameShape y where
  keys := h.keys.get? hx hy
  maps path x' y' hx' hy' := h.maps (key :: path) x' y' ((follow_cons_of_get? hx).trans hx')
    ((follow_cons_of_get? hy).trans hy')

structure Concrete (v : Value) : Prop where
  noList : v.ListFree
  noNull : ¬ null.Inside v
  noPatch : ∀ w, ¬ v.HoldsField Directive.patch.key w

namespace Concrete

theorem inside (h : v.Concrete) (hu : u.Inside v) : u.Concrete where
  noList := h.noList.inside hu
  noNull hn := h.noNull (hn.trans hu)
  noPatch w hw := h.noPatch w (hw.inside hu)

theorem get? (h : (map fs).Concrete) (hx : fs.get? key = some x) : x.Concrete :=
  h.inside (.field (Fields.mem_of_get? hx) .refl)

theorem follow (h : v.Concrete) (hw : v.follow path = some u) : u.Concrete :=
  h.inside (.of_follow hw)

theorem ne_null (h : v.Concrete) : v ≠ null := by
  rintro rfl
  exact h.noNull .refl

theorem scalar_or_map (h : v.Concrete) : v.isScalar = true ∨ ∃ fs, v = map fs :=
  h.noList.cases.resolve_left h.ne_null

theorem isScalar_iff (h : v.Concrete) : v.isScalar = true ↔ v.kind ≠ .map := by
  constructor
  · rintro hscalar hmap
    obtain ⟨fs,rfl⟩ := kind_eq_map_iff.mp hmap
    exact not_isScalar_map hscalar
  · intro hmap
    exact h.scalar_or_map.resolve_right fun hm => hmap (kind_eq_map_iff.mpr hm)

theorem get?_patch (h : (map fs).Concrete) : Fields.get? Directive.patch.key fs = none :=
  Fields.get?_eq_none_iff.mpr fun w hw => h.noPatch w (HoldsField.map_iff.mpr (Or.inl hw))

end Concrete


theorem concrete_iff : v.Concrete ↔
    v.ListFree ∧ ∀ w ∈ v.parts, w.kind ≠ .null ∧ w.hasKey Directive.patch.key = false := by
  constructor
  · intro h
    refine ⟨h.noList, ?_⟩
    intro w hw
    have hw := h.inside (inside_iff_mem_parts.mpr hw)
    rcases hw.scalar_or_map with hscalar | ⟨fs,rfl⟩
    · cases w <;> simp_all [isScalar, isLeaf, isNull, kind, hasKey, field?]
    · simp [kind, hasKey, field?, hw.get?_patch]
  · rintro ⟨hl,h⟩
    refine ⟨hl, ?_, ?_⟩
    · intro hn
      exact (h _ (inside_iff_mem_parts.mp hn)).1 rfl
    · rintro w ⟨fs,hf,hw⟩
      have hnone := hasKey_map_eq_false_iff.mp (h _ (inside_iff_mem_parts.mp hf)).2
      exact Fields.get?_eq_none_iff.mp hnone w hw

instance (v : Value) : Decidable v.Concrete := decidable_of_iff _ concrete_iff.symm

/-- Maps and scalars, in order, with no empty map below the root. -/
inductive Filled : Value → Prop where
  | scalar {v : Value} : v.isScalar = true → Filled v
  | fields {fs : Fields} : fs.Ascending → (∀ key v, (key, v) ∈ fs → Filled v) →
      (∀ key v, (key, v) ∈ fs → v ≠ .map []) → Filled (.map fs)

namespace Filled

theorem ordered (h : v.Filled) : v.Ordered := by
  induction h with
  | scalar hs => exact ordered_of_isLeaf (isLeaf_of_isScalar hs)
  | fields hasc _ _ ih => exact ordered_map.mpr ⟨hasc, ih⟩

theorem listFree (h : v.Filled) : v.ListFree := by
  induction h with
  | scalar hs => exact listFree_of_isLeaf (isLeaf_of_isScalar hs)
  | fields _ _ _ ih => exact listFree_map_iff.mpr ih

theorem field (h : (map fs).Filled) (hv : (key, v) ∈ fs) : v.Filled := by
  cases h with
  | scalar hs => cases hs
  | fields _ hf _ => exact hf key v hv

theorem ne_empty (h : (map fs).Filled) (hv : (key, v) ∈ fs) : v ≠ map [] := by
  cases h with
  | scalar hs => cases hs
  | fields _ _ hne => exact hne key v hv

theorem exists_scalar (h : v.Filled) (hne : v ≠ map []) :
    ∃ path u, v.follow path = some u ∧ u.isScalar = true := by
  induction h with
  | @scalar v hs => exact ⟨[], v, rfl, hs⟩
  | @fields fs _ _ hfields ih =>
    cases fs with
    | nil => exact absurd rfl hne
    | cons p rest =>
      obtain ⟨key,x⟩ := p
      obtain ⟨path,u,hu,hs⟩ := ih key x List.mem_cons_self (hfields key x List.mem_cons_self)
      have hx : Fields.get? key ((key, x) :: rest) = some x := by simp [Fields.get?_cons]
      exact ⟨key :: path, u, (follow_cons_of_get? hx).trans hu, hs⟩

theorem of_follow (h : v.Filled) (hu : v.follow path = some u) : u.Filled ∧ (path ≠ [] → u ≠ map []) := by
  induction path generalizing v with
  | nil =>
    cases hu
    exact ⟨h, fun hne => absurd rfl hne⟩
  | cons key rest ih =>
    obtain ⟨fs,x,rfl,hx,hu⟩ := h.listFree.follow_cons_eq_some_iff.mp hu
    have hmem := Fields.mem_of_get? hx
    obtain ⟨hfilled,hne⟩ := ih (h.field hmem) hu
    refine ⟨hfilled, fun _ => ?_⟩
    cases rest with
    | nil =>
      cases hu
      exact h.ne_empty hmem
    | cons k rest => exact hne (List.cons_ne_nil k rest)

/-- Below the root a map stands just where something other than a map is further down. -/
theorem follow_map_iff (h : v.Filled) (hpath : path ≠ []) :
    (∃ fs, v.follow path = some (map fs)) ↔
      ∃ rest u, rest ≠ [] ∧ v.follow (path ++ rest) = some u ∧ u.kind ≠ .map := by
  constructor
  · rintro ⟨fs,hfs⟩
    obtain ⟨hfilled,hne⟩ := h.of_follow hfs
    obtain ⟨rest,u,hu,hscalar⟩ := hfilled.exists_scalar (hne hpath)
    refine ⟨rest, u, ?_, ?_, fun hmap => not_isScalar_of_kind hmap hscalar⟩
    · rintro rfl
      cases hu
      exact not_isScalar_map hscalar
    · rw [follow_append, hfs]
      exact hu
  · rintro ⟨rest,u,hrest,hu,_⟩
    rw [follow_append] at hu
    obtain ⟨x,hx,hu⟩ := Option.bind_eq_some_iff.mp hu
    obtain ⟨key,rest,rfl⟩ := List.exists_cons_of_ne_nil hrest
    obtain ⟨fs,_,rfl,_⟩ := (h.of_follow hx).1.listFree.follow_cons_eq_some_iff.mp hu
    exact ⟨fs, hx⟩

/-- Each field leads to a scalar, so where the scalars are there are the fields, and maps where the maps are. -/
theorem get?_of_scalars (hu : (map fs).Filled) (hv : (map gs).Filled)
    (h : ∀ path w, w.isScalar = true → (map fs).follow path = some w → (map gs).follow path = some w)
    (key : String) (x : Value) (hx : Fields.get? key fs = some x) :
    ∃ y, Fields.get? key gs = some y ∧ (x.kind = .map → y.kind = .map) := by
  have hmem := Fields.mem_of_get? hx
  obtain ⟨path,w,hw,hs⟩ := (hu.field hmem).exists_scalar (hu.ne_empty hmem)
  have hfollow := h (key :: path) w hs ((follow_cons_of_get? hx).trans hw)
  obtain ⟨gs',y,hgs,hy,hrest⟩ := hv.listFree.follow_cons_eq_some_iff.mp hfollow
  cases hgs
  refine ⟨y, hy, ?_⟩
  intro hmap
  cases path with
  | nil =>
    cases hw
    obtain ⟨_,rfl⟩ := kind_eq_map_iff.mp hmap
    exact absurd hs not_isScalar_map
  | cons k rest =>
    obtain ⟨hs',_,rfl,_⟩ := (hv.listFree.get? hy).follow_cons_eq_some_iff.mp hrest
    rfl

/-- Values of this form are the same if they have the same scalars. -/
theorem ext (hu : u.Filled) (hv : v.Filled) (hkind : u.kind = .map ↔ v.kind = .map)
    (h : ∀ path w, w.isScalar = true → (u.follow path = some w ↔ v.follow path = some w)) : u = v := by
  induction hu generalizing v with
  | @scalar u hs => exact (Option.some.inj ((h [] u hs).mp rfl)).symm
  | @fields fs hasc hfields hne ih =>
    obtain ⟨gs,rfl⟩ := kind_eq_map_iff.mp (hkind.mp rfl)
    have hu : (map fs).Filled := .fields hasc hfields hne
    have hfg := hu.get?_of_scalars hv fun path w hw => (h path w hw).mp
    have hgf := hv.get?_of_scalars hu fun path w hw => (h path w hw).mpr
    refine congrArg map (Fields.ext hasc hv.ordered.ascending ?_)
    intro key
    cases hx : Fields.get? key fs with
    | none =>
      cases hy : Fields.get? key gs with
      | none => rfl
      | some y =>
        obtain ⟨x,hx',_⟩ := hgf key y hy
        cases hx.symm.trans hx'
    | some x =>
      obtain ⟨y,hy,hxy⟩ := hfg key x hx
      obtain ⟨x',hx',hyx⟩ := hgf key y hy
      cases hx.symm.trans hx'
      have he : x = y := by
        refine ih key x (Fields.mem_of_get? hx) (hv.field (Fields.mem_of_get? hy)) ⟨hxy, hyx⟩ ?_
        intro path w hw
        have hfollow := h (key :: path) w hw
        rwa [follow_cons_of_get? hx, follow_cons_of_get? hy] at hfollow
      rw [hy, he]

end Filled

end LayeredConfig.Value
