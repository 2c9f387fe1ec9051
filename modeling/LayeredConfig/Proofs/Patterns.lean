import LayeredConfig.Proofs.Canonical
import LayeredConfig.Value.Pattern
import Mathlib.Data.List.Forall2
import Mathlib.Data.List.Sort

/-! # The order of patterns

To satisfy a pattern is to say at least as much as it does: the same scalars and lists of the same length, and in
maps all of its keys. This orders values partially. Two values that satisfy one another are equal up to the sign
of zero, as equality of documents is.
-/
namespace LayeredConfig.Value
variable {a b c v p : Value} {fs gs : Fields} {items others patterns : List Value}

/-! ## What satisfies a pattern -/

theorem satisfies_of_isLeaf (hp : p.isLeaf = true) : v.satisfies p = v.same p := by
  cases p with
  | list items => cases hp
  | map fields => cases hp
  | _ => rfl

theorem satisfies_self_of_isScalar (h : v.isScalar = true) : v.satisfies v = true := by
  rw [satisfies_of_isLeaf (isLeaf_of_isScalar h), same_self (isLeaf_of_isScalar h)]

theorem satisfiesFields_iff :
    satisfiesFields fs gs = true ↔
      ∀ key p, (key, p) ∈ gs → ∃ v, Fields.get? key fs = some v ∧ v.satisfies p = true := by
  induction gs with
  | nil => simp [satisfiesFields]
  | cons q rest ih =>
    obtain ⟨k,p⟩ := q
    rw [satisfiesFields, Bool.and_eq_true, ih, Fields.forall_mem_cons]
    cases Fields.get? k fs <;> simp

theorem satisfiesItems_iff :
    satisfiesItems items patterns = true ↔ List.Forall₂ (fun v p => v.satisfies p = true) items patterns := by
  induction items generalizing patterns with
  | nil => cases patterns <;> simp [satisfiesItems]
  | cons v rest ih => cases patterns <;> simp [satisfiesItems, ih]

theorem map_satisfies_map_iff :
    (map fs).satisfies (map gs) = true ↔
      ∀ key p, (key, p) ∈ gs → ∃ v, Fields.get? key fs = some v ∧ v.satisfies p = true := by
  rw [satisfies, satisfiesFields_iff]

theorem list_satisfies_list_iff :
    (list items).satisfies (list patterns) = true ↔
      List.Forall₂ (fun v p => v.satisfies p = true) items patterns := by
  rw [satisfies, satisfiesItems_iff]

theorem eq_map_of_satisfies (h : v.satisfies (map gs) = true) : ∃ fs, v = map fs := by
  cases v <;> simp_all [satisfies]

theorem eq_list_of_satisfies (h : v.satisfies (list patterns) = true) : ∃ items, v = list items := by
  cases v <;> simp_all [satisfies]

/-! ## Equal values -/

theorem isLeaf_of_same_right (hw : b.isLeaf = true) (h : a.same b = true) : a.isLeaf = true := by
  cases a <;> cases b <;> simp_all [same, isLeaf]

theorem sameItems_iff :
    sameItems items others = true ↔ List.Forall₂ (fun x y => x.same y = true) items others := by
  induction items generalizing others with
  | nil => cases others <;> simp [sameItems]
  | cons v rest ih => cases others <;> simp [sameItems, ih]

theorem sameFields_of_keys (hkeys : fs.map (·.1) = gs.map (·.1))
    (h : ∀ key x y, (key, x) ∈ fs → (key, y) ∈ gs → x.same y = true) : sameFields fs gs = true := by
  induction fs generalizing gs with
  | nil =>
    cases gs with
    | nil => rfl
    | cons q gs => cases hkeys
  | cons p fs ih =>
    obtain ⟨k,x⟩ := p
    cases gs with
    | nil => cases hkeys
    | cons q gs =>
      obtain ⟨l,y⟩ := q
      simp only [List.map_cons, List.cons.injEq] at hkeys
      obtain ⟨rfl,hkeys⟩ := hkeys
      have hhead := h _ x y List.mem_cons_self List.mem_cons_self
      have htail := ih hkeys fun key x y hx hy => h key x y (List.mem_cons_of_mem _ hx) (List.mem_cons_of_mem _ hy)
      simp [sameFields, hhead, htail]

/-! ## The order -/

theorem satisfies_self (h : v.Ordered) : v.satisfies v = true := by
  induction v with
  | list items ih =>
    refine list_satisfies_list_iff.mpr (List.forall₂_same.mpr ?_)
    intro v hv
    exact ih v hv (ordered_list.mp h v hv)
  | map fields ih =>
    refine map_satisfies_map_iff.mpr ?_
    intro key v hv
    exact ⟨v, (Fields.get?_eq_some_iff h.ascending).mpr hv, ih key v hv (h.field hv)⟩
  | _ => rw [satisfies_of_isLeaf rfl, same_self rfl]

theorem satisfiesItems_trans
    (ih : ∀ p ∈ patterns, ∀ {a b : Value}, a.satisfies b = true → b.satisfies p = true → a.satisfies p = true)
    (hab : List.Forall₂ (fun v p => v.satisfies p = true) items others)
    (hbc : List.Forall₂ (fun v p => v.satisfies p = true) others patterns) :
    List.Forall₂ (fun v p => v.satisfies p = true) items patterns := by
  induction hab generalizing patterns with
  | nil => exact hbc
  | cons hv _ ihrest =>
    cases hbc with
    | cons hp hrest =>
      obtain ⟨hfirst,hlater⟩ := List.forall_mem_cons.mp ih
      exact .cons (hfirst hv hp) (ihrest hlater hrest)

/-- The induction is on the last of the three: it says what the others hold. -/
theorem satisfies_trans (hab : a.satisfies b = true) (hbc : b.satisfies c = true) : a.satisfies c = true := by
  induction c generalizing a b with
  | list patterns ih =>
    obtain ⟨others,rfl⟩ := eq_list_of_satisfies hbc
    obtain ⟨items,rfl⟩ := eq_list_of_satisfies hab
    rw [list_satisfies_list_iff] at hab hbc ⊢
    exact satisfiesItems_trans ih hab hbc
  | map hs ih =>
    obtain ⟨gs,rfl⟩ := eq_map_of_satisfies hbc
    obtain ⟨fs,rfl⟩ := eq_map_of_satisfies hab
    rw [map_satisfies_map_iff] at hab hbc ⊢
    intro key z hz
    obtain ⟨y,hy,hyz⟩ := hbc key z hz
    obtain ⟨x,hx,hxy⟩ := hab key y (Fields.mem_of_get? hy)
    exact ⟨x, hx, ih key z hz hxy hyz⟩
  | _ =>
    rw [satisfies_of_isLeaf rfl] at hbc ⊢
    have hb := isLeaf_of_same_right rfl hbc
    rw [satisfies_of_isLeaf hb] at hab
    rwa [same_congr (isLeaf_of_same_right hb hab) hab]

/-- A map that satisfies another has all of its keys. -/
theorem keys_subset_of_satisfies (h : (map fs).satisfies (map gs) = true) : gs.map (·.1) ⊆ fs.map (·.1) := by
  intro key hkey
  obtain ⟨⟨_,p⟩,hp,rfl⟩ := List.mem_map.mp hkey
  obtain ⟨u,hu,_⟩ := map_satisfies_map_iff.mp h _ p hp
  exact List.mem_map.mpr ⟨_, Fields.mem_of_get? hu, rfl⟩

theorem satisfies_of_mem {key : String} (hf : fs.Ascending) (h : (map fs).satisfies (map gs) = true)
    (hv : (key, v) ∈ fs) (hp : (key, p) ∈ gs) : v.satisfies p = true := by
  obtain ⟨u,hu,hup⟩ := map_satisfies_map_iff.mp h key p hp
  cases ((Fields.get?_eq_some_iff hf).mpr hv).symm.trans hu
  exact hup

theorem sameItems_of_satisfies
    (ih : ∀ v ∈ items, ∀ u ∈ others, v.satisfies u = true → u.satisfies v = true → v.same u = true)
    (hab : List.Forall₂ (fun v p => v.satisfies p = true) items others)
    (hba : List.Forall₂ (fun v p => v.satisfies p = true) others items) :
    List.Forall₂ (fun x y => x.same y = true) items others := by
  induction hab with
  | nil => exact .nil
  | cons hv _ ihrest =>
    cases hba with
    | cons hu hrest =>
      refine .cons (ih _ List.mem_cons_self _ List.mem_cons_self hv hu) (ihrest ?_ hrest)
      intro v hv u hu
      exact ih v (List.mem_cons_of_mem _ hv) u (List.mem_cons_of_mem _ hu)

theorem same_of_satisfies (ha : a.Ordered) (hb : b.Ordered) (hab : a.satisfies b = true)
    (hba : b.satisfies a = true) : a.same b = true := by
  induction a generalizing b with
  | list items ih =>
    obtain ⟨others,rfl⟩ := eq_list_of_satisfies hba
    rw [list_satisfies_list_iff] at hab hba
    refine sameItems_iff.mpr (sameItems_of_satisfies ?_ hab hba)
    intro v hv u hu
    exact ih v hv (ordered_list.mp ha v hv) (ordered_list.mp hb u hu)
  | map fs ih =>
    obtain ⟨gs,rfl⟩ := eq_map_of_satisfies hba
    have hkeys : fs.map (·.1) = gs.map (·.1) :=
      List.Subset.antisymm_of_pairwise (List.pairwise_map.mpr ha.ascending) (List.pairwise_map.mpr hb.ascending)
        (keys_subset_of_satisfies hba) (keys_subset_of_satisfies hab)
    refine sameFields_of_keys hkeys ?_
    intro key x y hx hy
    exact ih key x hx (ha.field hx) (hb.field hy) (satisfies_of_mem ha.ascending hab hx hy)
      (satisfies_of_mem hb.ascending hba hy hx)
  | _ =>
    rw [satisfies_of_isLeaf rfl] at hba
    rwa [satisfies_of_isLeaf (isLeaf_of_same_right rfl hba)] at hab

/-- Every value satisfies itself; what satisfies a value satisfies all that this does; and values that satisfy one
another are equal. -/
theorem satisfies_partialOrder (ha : a.Ordered) (hb : b.Ordered) :
    a.satisfies a = true ∧
      (a.satisfies b = true → b.satisfies c = true → a.satisfies c = true) ∧
      (a.satisfies b = true → b.satisfies a = true → a.same b = true) :=
  ⟨satisfies_self ha, satisfies_trans, same_of_satisfies ha hb⟩

theorem satisfies_partialOrder_zeros :
    let zero (negative : Bool) := number (.float (.zero negative))
    let a := map [("at", list [zero true, null]), ("kind", string "x")]
    let b := map [("at", list [zero false, null]), ("kind", string "x")]
    let c := map [("at", list [zero true, null])]
    a.Ordered ∧ b.Ordered ∧ a.satisfies b = true ∧ b.satisfies a = true ∧ b.satisfies c = true ∧
      c.satisfies b = false ∧ a ≠ b ∧ a.satisfies a = true ∧ a.satisfies c = true ∧ a.same b = true := by
  intro zero a b c
  have ha : a.Ordered := by decide
  have hb : b.Ordered := by decide
  have hab : a.satisfies b = true := by rfl
  have hba : b.satisfies a = true := by rfl
  have hbc : b.satisfies c = true := by rfl
  obtain ⟨hrefl,htrans,hantisymm⟩ := satisfies_partialOrder (c := c) ha hb
  exact ⟨ha, hb, hab, hba, hbc, rfl, by simp [a, b, zero, Binary64.zero], hrefl, htrans hab hbc,
    hantisymm hab hba⟩

end LayeredConfig.Value
