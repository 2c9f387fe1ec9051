import LayeredConfig.Proofs.Deletion
import LayeredConfig.Proofs.Patterns
import LayeredConfig.Proofs.Shapes

/-! # What a layer sets and what it leaves alone

A layer of maps and scalars is in effect once it is merged: the result satisfies it as a pattern, and merging it
again changes nothing. Where a layer mentions nothing, the result holds what the destination held.
-/
namespace LayeredConfig

namespace Value
variable {v p : Value} {keys rest : List String} {fs gs : Fields}

theorem under_append : v.under (keys ++ rest) = (v.under keys).bind (·.under rest) := by
  induction keys generalizing v with
  | nil => rfl
  | cons key keys ih =>
    rw [List.cons_append, under, under, Option.bind_assoc]
    exact congrArg _ (funext fun _ => ih)

/-- A path along which only maps without `$patch` stand, until one that lacks the next key. -/
def Unmentioned (v : Value) (keys : List String) : Prop :=
  ∃ before key after fields, keys = before ++ key :: after ∧ v.under before = some (map fields) ∧
    Fields.get? key fields = none ∧ v.Unpatched before

theorem Unmentioned.under_eq_none (h : v.Unmentioned keys) : v.under keys = none := by
  obtain ⟨before,key,after,fields,rfl,hbefore,hkey,_⟩ := h
  rw [under_append, hbefore, Option.bind_some, under_map_cons, hkey]
  rfl

end Value

variable {depth : Nat} {dst src r : Value} {fs gs : Fields} {keys : List String}

theorem eq_of_mergeAt_isScalar (hs : src.isScalar = true) (h : mergeAt depth dst src = .ok r) : r = src := by
  cases (mergeAt_eq_ok_iff.mp h).2 with
  | taken => rfl
  | _ => cases hs

/-- Each value of a layer stands in the merge as merged onto something. -/
theorem exists_fields_of_mergeAt (hd : dst.Ordered) (hs : (Value.map gs).Ordered)
    (hc : (Value.map gs).Concrete) (hr : depth + (Value.map gs).reach ≤ depthLimit)
    (h : mergeAt depth dst (.map gs) = .ok r) :
    ∃ hs : Fields, r = .map hs ∧ ∀ key v, Fields.get? key gs = some v →
      ∃ x w, x.Ordered ∧ hs.get? key = some w ∧ mergeAt (depth + 1) x v = .ok w := by
  have hbelow : ∀ key v, Fields.get? key gs = some v → depth + 1 ≤ depthLimit := by
    intro key v hv
    have hlt := Value.reach_lt_of_mem_fields (Fields.mem_of_get? hv)
    omega
  rcases mergeAt_cases_of_unpatched hd hs hc.get?_patch h with ⟨_,rfl⟩ | ⟨fs,hs',rfl,rfl,hentries⟩
  · refine ⟨gs, rfl, ?_⟩
    intro key v hv
    exact ⟨.null, v, trivial, hv, mergeAt_null_left (hbelow key v hv)⟩
  · refine ⟨hs', rfl, ?_⟩
    intro key v hv
    have hentry := hentries key
    rw [hv, mergeEntry_of_le (hbelow key v hv) (hc.get? hv).ne_null] at hentry
    obtain ⟨w,hw,hkey⟩ := map_eq_ok_iff.mp hentry
    refine ⟨(fs.get? key).getD .null, w, ?_, hkey.symm, hw⟩
    cases hold : fs.get? key with
    | none => trivial
    | some x => exact hd.field (Fields.mem_of_get? hold)

/-- Fields that a layer changes nothing of are not changed by all of them together. -/
theorem mergeAt_eq_self_of_fields (hd : depth ≤ depthLimit) (hf : fs.Ascending) (hg : gs.Ascending)
    (hp : gs.get? Directive.patch.key = none)
    (h : ∀ key v, gs.get? key = some v →
      v ≠ .null ∧ ∃ w, fs.get? key = some w ∧ mergeAt (depth + 1) w v = .ok w) :
    mergeAt depth (.map fs) (.map gs) = .ok (.map fs) := by
  refine mergeAt_eq_ok_iff.mpr ⟨hd, .fields (isReplacement_of_get? hp) ?_⟩
  refine (mergeFields_eq_ok_iff hf hg).mpr ⟨hf, ?_⟩
  intro key
  cases hv : gs.get? key with
  | none => rfl
  | some v =>
    obtain ⟨hne,w,hw,hm⟩ := h key v hv
    rw [hw, mergeEntry_some_some hne, hm]
    rfl

/-- The induction is on the layer. Its fields are merged onto what stood there, or onto nothing. -/
theorem mergeAt_again (hd : dst.Ordered) (hs : src.Ordered) (hc : src.Concrete)
    (hr : depth + src.reach ≤ depthLimit) (h : mergeAt depth dst src = .ok r) :
    r.satisfies src = true ∧ mergeAt depth r src = .ok r := by
  induction src using Value.descend generalizing depth dst r with
  | step src ih =>
    have hle : depth ≤ depthLimit := by omega
    have hor : r.Ordered := mergeAt_ordered hd hs h
    rcases hc.scalar_or_map with hscalar | ⟨gs,rfl⟩
    · rw [eq_of_mergeAt_isScalar hscalar h]
      refine ⟨Value.satisfies_self_of_isScalar hscalar, ?_⟩
      exact mergeAt_of_isLeaf hle (Value.isLeaf_of_isScalar hscalar) (Value.ne_null_of_isScalar hscalar)
    · obtain ⟨hs',rfl,hfields⟩ := exists_fields_of_mergeAt hd hs hc hr h
      have hagain : ∀ key v, Fields.get? key gs = some v →
          ∃ w, hs'.get? key = some w ∧ w.satisfies v = true ∧ mergeAt (depth + 1) w v = .ok w := by
        intro key v hv
        obtain ⟨x,w,hx,hw,hm⟩ := hfields key v hv
        have hmem := Fields.mem_of_get? hv
        have hlt := Value.reach_lt_of_mem_fields hmem
        exact ⟨w, hw, ih gs key v rfl hmem hx (hs.field hmem) (hc.get? hv) (by omega) hm⟩
      refine ⟨Value.satisfiesFields_iff.mpr ?_,
        mergeAt_eq_self_of_fields hle hor.ascending hs.ascending hc.get?_patch ?_⟩
      · intro key v hv
        obtain ⟨w,hw,hsat,_⟩ := hagain key v ((Fields.get?_eq_some_iff hs.ascending).mpr hv)
        exact ⟨w, hw, hsat⟩
      · intro key v hv
        obtain ⟨w,hw,_,hm⟩ := hagain key v hv
        exact ⟨(hc.get? hv).ne_null, w, hw, hm⟩

/-- A layer of maps and scalars is in effect once it is merged, and merging it again changes nothing. -/
theorem merge_again (hd : dst.Ordered) (hs : src.Ordered) (hc : src.Concrete) (hr : src.reach ≤ depthLimit)
    (h : merge dst src = .ok r) : r.satisfies src = true ∧ merge r src = .ok r :=
  mergeAt_again hd hs hc (by omega) h

theorem merge_again_service :
    let dst := Value.map [("host", .string "a"), ("spec", .map [("env", .null), ("ports", .list [.null])])]
    let src := Value.map [("host", .map [("name", .string "b")]),
      ("spec", .map [("env", .map [("A", .bool true)]), ("image", .string "web")])]
    let r := Value.map [("host", .map [("name", .string "b")]),
      ("spec", .map [("env", .map [("A", .bool true)]), ("image", .string "web"), ("ports", .list [.null])])]
    dst.Ordered ∧ src.Ordered ∧ src.Concrete ∧ src.reach ≤ depthLimit ∧ merge dst src = .ok r ∧
      r.satisfies src = true ∧ merge r src = .ok r := by
  intro dst src r
  have hd : dst.Ordered := by decide
  have hs : src.Ordered := by decide
  have hc : src.Concrete := by decide
  have hr : src.reach ≤ depthLimit := by decide
  have h : merge dst src = .ok r := by rfl
  exact ⟨hd, hs, hc, hr, h, merge_again hd hs hc hr h⟩

/-- The induction follows the path as far as the source mentions it. -/
theorem mergeAt_keeps_unmentioned (hd : dst.Ordered) (hs : src.Ordered) (h : mergeAt depth dst src = .ok r)
    (hu : src.Unmentioned keys) : r.under keys = dst.under keys := by
  have hnone : src.under keys = none := hu.under_eq_none
  obtain ⟨before,key,after,es,rfl,hbefore,hkey,hp⟩ := hu
  induction before generalizing depth dst src r with
  | nil =>
    cases hbefore
    have hpatch := Value.hasKey_map_eq_false_iff.mp (Value.unpatched_nil_iff.mp hp)
    rcases mergeAt_cases_of_unpatched hd hs hpatch h with ⟨hl,rfl⟩ | ⟨fs,hs',rfl,rfl,hentries⟩
    · rw [hnone, List.nil_append, Value.under_cons_of_isLeaf hl]
    · have hentry := hentries key
      rw [hkey] at hentry
      rw [List.nil_append, Value.under_map_cons, Value.under_map_cons, ← Except.ok.inj hentry]
  | cons k before ih =>
    obtain ⟨gs,v,rfl,hv,hrest⟩ := Value.under_cons_eq_some hbefore
    obtain ⟨hpatch,hp⟩ := (Value.unpatched_map_cons_iff hv).mp hp
    have hgone : v.under (before ++ key :: after) = none := by
      rwa [List.cons_append, Value.under_map_cons_of_get? hv] at hnone
    rcases mergeAt_cases_of_unpatched hd hs hpatch h with ⟨hl,rfl⟩ | ⟨fs,hs',rfl,rfl,hentries⟩
    · rw [hnone, List.cons_append, Value.under_cons_of_isLeaf hl]
    · have hne : v ≠ .null := by
        rintro rfl
        cases before <;> cases hrest
      have hentry := hentries k
      rw [hv] at hentry
      cases hold : fs.get? k with
      | none =>
        rw [hold, mergeEntry_none_left hne] at hentry
        rw [List.cons_append, Value.under_map_cons_of_get? (Except.ok.inj hentry).symm, hgone,
          Value.under_map_cons, hold]
        rfl
      | some x =>
        rw [hold, mergeEntry_some_some hne] at hentry
        obtain ⟨w,hw,hmerged⟩ := map_eq_ok_iff.mp hentry
        rw [List.cons_append, Value.under_map_cons_of_get? hmerged.symm, Value.under_map_cons_of_get? hold]
        have hx := hd.field (Fields.mem_of_get? hold)
        exact ih hx (hs.field (Fields.mem_of_get? hv)) hw hgone hrest hp

/-- What a layer does not mention survives: at a path along which the source holds only maps without `$patch`,
until one that lacks the next key, the merge holds what the destination holds. -/
theorem merge_keeps_unmentioned (hd : dst.Ordered) (hs : src.Ordered) (h : merge dst src = .ok r)
    (hu : src.Unmentioned keys) : r.under keys = dst.under keys :=
  mergeAt_keeps_unmentioned hd hs h hu

theorem merge_keeps_unmentioned_env :
    let dst := Value.map [("spec", .map [("env", .map [("A", .string "1"), ("B", .map [("from", .list [.null])])]),
      ("image", .string "web")])]
    let src := Value.map [("spec", .map [("env", .map [("A", .null), ("C", .bool true)]), ("image", .list [])])]
    let r := Value.map [("spec", .map [("env", .map [("B", .map [("from", .list [.null])]), ("C", .bool true)]),
      ("image", .list [])])]
    dst.Ordered ∧ src.Ordered ∧ merge dst src = .ok r ∧ src.Unmentioned ["spec", "env", "B", "from"] ∧
      r.under ["spec", "env", "B", "from"] = dst.under ["spec", "env", "B", "from"] ∧
      dst.under ["spec", "env", "B", "from"] = some (.list [.null]) := by
  intro dst src r
  have hd : dst.Ordered := by decide
  have hs : src.Ordered := by decide
  have h : merge dst src = .ok r := by rfl
  have hp : src.Unpatched ["spec", "env"] := (Value.unpatched_map_cons_iff rfl).mpr
    ⟨rfl, (Value.unpatched_map_cons_iff rfl).mpr ⟨rfl, Value.unpatched_nil_iff.mpr rfl⟩⟩
  have hu : src.Unmentioned ["spec", "env", "B", "from"] := ⟨["spec", "env"], "B", ["from"], _, rfl, rfl, rfl, hp⟩
  exact ⟨hd, hs, h, hu, merge_keeps_unmentioned hd hs h hu, rfl⟩

end LayeredConfig
