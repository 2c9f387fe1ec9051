import LayeredConfig.Proofs.MergeLaws

/-! # Deletion

A `null` of the source deletes the key it is assigned to where the destination has a map to delete from. Where
the destination has no map, the source is taken as it is, and the `null` stays in the result.
-/
namespace LayeredConfig

namespace Value
variable {v w : Value} {key : String} {keys : List String} {fields : Fields}

/-- What stands at a path of keys; only maps are gone through. -/
def under (v : Value) : List String → Option Value
  | [] => some v
  | key :: keys => (v.field? key).bind (·.under keys)

def Unpatched (v : Value) (keys : List String) : Prop :=
  ∀ q u, q <+: keys → v.under q = some u → u.hasKey Directive.patch.key = false

theorem under_map_cons : (map fields).under (key :: keys) = (fields.get? key).bind (·.under keys) := rfl

theorem under_map_cons_of_get? (h : fields.get? key = some v) :
    (map fields).under (key :: keys) = v.under keys := by
  rw [under_map_cons, h]
  rfl

theorem under_cons_of_isLeaf (h : v.isLeaf = true) : v.under (key :: keys) = none := by
  cases v with
  | list items => cases h
  | map fields => cases h
  | _ => rfl

theorem under_cons_eq_some (h : v.under (key :: keys) = some w) :
    ∃ fields u, v = map fields ∧ Fields.get? key fields = some u ∧ u.under keys = some w := by
  obtain ⟨u,hu,hw⟩ := Option.bind_eq_some_iff.mp h
  cases v with
  | map fields => exact ⟨fields, u, rfl, hu, hw⟩
  | _ => cases hu

theorem unpatched_nil_iff : v.Unpatched [] ↔ v.hasKey Directive.patch.key = false := by
  constructor
  · intro hp
    exact hp [] v (List.prefix_refl _) rfl
  · intro hk q u hq hu
    cases List.prefix_nil.mp hq
    cases hu
    exact hk

theorem unpatched_map_cons_iff (h : fields.get? key = some v) :
    (map fields).Unpatched (key :: keys) ↔ fields.get? Directive.patch.key = none ∧ v.Unpatched keys := by
  constructor
  · intro hp
    refine ⟨hasKey_map_eq_false_iff.mp (hp [] _ List.nil_prefix rfl), ?_⟩
    intro q u hq hu
    exact hp (key :: q) u (List.cons_prefix_cons.mpr ⟨rfl, hq⟩) ((under_map_cons_of_get? h).trans hu)
  · rintro ⟨hnone,hp⟩ q u hq hu
    rcases List.prefix_cons_iff.mp hq with rfl | ⟨q',rfl,hq'⟩
    · cases hu
      exact hasKey_map_eq_false_iff.mpr hnone
    · rw [under_map_cons_of_get? h] at hu
      exact hp q' u hq' hu

end Value

variable {depth : Nat} {dst src r : Value} {key : String} {path : List String}

/-- A map without `$patch` is taken as it is where there is no map, and else laid over what stands there key by
key. -/
theorem mergeAt_cases_of_unpatched {gs : Fields} (hd : dst.Ordered) (hs : (Value.map gs).Ordered)
    (hp : gs.get? Directive.patch.key = none) (h : mergeAt depth dst (.map gs) = .ok r) :
    (dst.isLeaf = true ∧ r = .map gs) ∨
      ∃ fs hs : Fields, dst = .map fs ∧ r = .map hs ∧
        ∀ key, mergeEntry depth (fs.get? key) (gs.get? key) = .ok (hs.get? key) := by
  cases (mergeAt_eq_ok_iff.mp h).2 with
  | taken hl _ => exact Or.inl ⟨hl, rfl⟩
  | replaced hb =>
    rw [isReplacement_of_get? hp] at hb
    cases hb
  | @fields fs _ hs' _ hm =>
    exact Or.inr ⟨fs, hs', rfl, rfl, ((mergeFields_eq_ok_iff hd.ascending hs.ascending).mp hm).2⟩

/-- What becomes of a `null`: the induction follows its path down, as long as both sides hold maps. -/
theorem mergeAt_deletes (hd : dst.Ordered) (hs : src.Ordered) (h : mergeAt depth dst src = .ok r)
    (hn : src.under (path ++ [key]) = some .null) (hp : src.Unpatched (path ++ [key])) :
    ((∃ fs, dst.under path = some (.map fs)) → r.under (path ++ [key]) = none) ∧
      ((∀ fs, dst.under path ≠ some (.map fs)) → r.under (path ++ [key]) = some .null) := by
  induction path generalizing depth dst src r with
  | nil =>
    obtain ⟨gs,v,rfl,hv,hnull⟩ := Value.under_cons_eq_some hn
    obtain ⟨hpatch,_⟩ := (Value.unpatched_map_cons_iff hv).mp hp
    cases hnull
    rcases mergeAt_cases_of_unpatched hd hs hpatch h with ⟨hl,rfl⟩ | ⟨fs,hs',rfl,rfl,hentries⟩
    · refine ⟨?_, fun _ => hn⟩
      rintro ⟨fs,hfs⟩
      cases hfs
      cases hl
    · refine ⟨fun _ => ?_, fun hno => absurd rfl (hno fs)⟩
      have hentry := hentries key
      rw [hv] at hentry
      have hgone : hs'.get? key = none := (Except.ok.inj hentry).symm
      rw [List.nil_append, Value.under_map_cons, hgone]
      rfl
  | cons k path ih =>
    obtain ⟨gs,v,rfl,hv,hnull⟩ := Value.under_cons_eq_some hn
    obtain ⟨hpatch,hrest⟩ := (Value.unpatched_map_cons_iff hv).mp hp
    have hne : v ≠ .null := by
      rintro rfl
      cases path <;> cases hnull
    rcases mergeAt_cases_of_unpatched hd hs hpatch h with ⟨hl,rfl⟩ | ⟨fs,hs',rfl,rfl,hentries⟩
    · refine ⟨?_, fun _ => hn⟩
      rintro ⟨fs,hfs⟩
      rw [Value.under_cons_of_isLeaf hl] at hfs
      cases hfs
    · have hentry := hentries k
      rw [hv] at hentry
      cases hold : fs.get? k with
      | none =>
        rw [hold, mergeEntry_none_left hne] at hentry
        have hkept : hs'.get? k = some v := (Except.ok.inj hentry).symm
        refine ⟨?_, fun _ => (Value.under_map_cons_of_get? hkept).trans hnull⟩
        rintro ⟨es,hes⟩
        rw [Value.under_map_cons, hold] at hes
        cases hes
      | some x =>
        rw [hold, mergeEntry_some_some hne] at hentry
        obtain ⟨w,hw,hmerged⟩ := map_eq_ok_iff.mp hentry
        rw [List.cons_append, Value.under_map_cons_of_get? hmerged.symm, Value.under_map_cons_of_get? hold]
        exact ih (hd.field (Fields.mem_of_get? hold)) (hs.field (Fields.mem_of_get? hv)) hw hnull hrest

/-- Where a source holds `null` and no `$patch` is on the way, the merge holds nothing if the destination has a
map in that place to delete from, and else the `null` that was taken with the source. -/
theorem merge_deletes {fs gs : Fields} {keys : List String} (hd : (Value.map fs).Ordered)
    (hs : (Value.map gs).Ordered) (h : merge (.map fs) (.map gs) = .ok r)
    (hn : (Value.map gs).under keys = some .null) (hp : (Value.map gs).Unpatched keys) :
    ((∃ es, (Value.map fs).under keys.dropLast = some (.map es)) → r.under keys = none) ∧
      ((∀ es, (Value.map fs).under keys.dropLast ≠ some (.map es)) → r.under keys = some .null) := by
  rcases List.eq_nil_or_concat keys with rfl | ⟨path,key,rfl⟩
  · cases hn
  · rw [List.concat_eq_append] at hn hp ⊢
    rw [List.dropLast_concat]
    exact mergeAt_deletes hd hs h hn hp

theorem merge_deletes_nested :
    let dst := Value.map [("env", .map [("A", .string "1"), ("B", .string "2")])]
    let src := Value.map [("env", .map [("A", .null)]), ("probe", .map [("path", .null)])]
    let r := Value.map [("env", .map [("B", .string "2")]), ("probe", .map [("path", .null)])]
    merge dst src = .ok r ∧ src.under ["env", "A"] = some .null ∧ r.under ["env", "A"] = none ∧
      src.under ["probe", "path"] = some .null ∧ r.under ["probe", "path"] = some .null := by
  intro dst src r
  have hd : dst.Ordered := by decide
  have hs : src.Ordered := by decide
  have h : merge dst src = .ok r := by rfl
  have henv : src.Unpatched ["env", "A"] := (Value.unpatched_map_cons_iff rfl).mpr
    ⟨rfl, (Value.unpatched_map_cons_iff rfl).mpr ⟨rfl, Value.unpatched_nil_iff.mpr rfl⟩⟩
  have hprobe : src.Unpatched ["probe", "path"] := (Value.unpatched_map_cons_iff rfl).mpr
    ⟨rfl, (Value.unpatched_map_cons_iff rfl).mpr ⟨rfl, Value.unpatched_nil_iff.mpr rfl⟩⟩
  refine ⟨h, rfl, (merge_deletes hd hs h rfl henv).1 ⟨_, rfl⟩, rfl, (merge_deletes hd hs h rfl hprobe).2 ?_⟩
  intro es he
  cases he

/-- A `null` below a key that the destination does not have stays. -/
theorem not_deleted_of_absent :
    let src := Value.map [("a", .map [("b", .null)])]
    merge (.map []) src = .ok src ∧ src.under ["a", "b"] = some .null ∧ src.Unpatched ["a", "b"] ∧
      ¬ src.under ["a", "b"] = none := by
  intro src
  refine ⟨rfl, rfl, ?_, nofun⟩
  exact (Value.unpatched_map_cons_iff rfl).mpr
    ⟨rfl, (Value.unpatched_map_cons_iff rfl).mpr ⟨rfl, Value.unpatched_nil_iff.mpr rfl⟩⟩

end LayeredConfig
