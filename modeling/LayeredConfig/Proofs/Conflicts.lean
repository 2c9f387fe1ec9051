import LayeredConfig.Proofs.MergeLaws

/-! # Where a merge fails

A merge compares values that stand at the same path on both sides. It fails just if two of them do not go together,
and the error names the first such path: a map comes before its fields, and those in the order of their keys.
-/
namespace LayeredConfig

inductive BadPatch : Value → Error → Prop where
  | kind {fs : Fields} {v : Value} : fs.get? Directive.patch.key = some v → v.kind ≠ .string →
      BadPatch (.map fs) (.patchKind v.kind)
  | value {fs : Fields} {s : String} : fs.get? Directive.patch.key = some (.string s) → s ≠ replacePatch →
      BadPatch (.map fs) (.patchValue s)

/-- Two values that stand below a number of keys and do not go together, with the place of the fault in them and
the error for it. Past the depth limit nothing else counts. -/
inductive Clash (keys : Nat) : Value → Value → List String → Error → Prop where
  | tooDeep {x y : Value} : depthLimit < keys → Clash keys x y [] .tooDeep
  | patch {fs gs : Fields} {cause : Error} : keys ≤ depthLimit → BadPatch (.map gs) cause →
      Clash keys (.map fs) (.map gs) [] cause
  | element {xs before after : List Value} {v : Value} {cause : Error} : keys ≤ depthLimit →
      BadPatch v cause → (∀ w ∈ before, ∀ e, ¬ BadPatch w e) →
      Clash keys (.list xs) (.list (before ++ v :: after)) [toString before.length] cause
  | kinds {x y : Value} : keys ≤ depthLimit → x.kind = .map ∨ x.kind = .list → y.kind ≠ x.kind →
      Clash keys x y [] (.mismatch x.kind y.kind)

/-- What stands at a path on both sides: the maps on the way are merged field by field. -/
inductive Common : Value → Value → List String → Value → Value → Prop where
  | root (x y : Value) : Common x y [] x y
  | field {fs gs : Fields} {key : String} {path : List String} {x y x' y' : Value} :
      gs.get? Directive.patch.key = none → fs.get? key = some x → gs.get? key = some y → y ≠ .null →
      Common x y path x' y' → Common (.map fs) (.map gs) (key :: path) x' y'

def Conflict (depth : Nat) (dst src : Value) (path place : List String) (cause : Error) : Prop :=
  ∃ x y, Common dst src path x y ∧ y ≠ .null ∧ Clash (depth + path.length) x y place cause

/-- No other conflict comes before: a map comes before its fields, and those in the order of their keys. -/
structure FirstConflict (depth : Nat) (dst src : Value) (path place : List String) (cause : Error) : Prop where
  conflict : Conflict depth dst src path place cause
  first : ∀ earlier, List.Lex (· < ·) earlier path → ∀ place cause, ¬ Conflict depth dst src earlier place cause

variable {depth index : Nat} {key : String} {path place : List String} {dst src r v x y : Value}
variable {cause e : Error} {b : Bool} {fs gs : Fields} {xs ys zs : List Value}

theorem BadPatch.isRemoval (h : BadPatch v cause) : isRemoval v = .error cause := by
  cases h with
  | @kind fs w hw hkind =>
    rw [LayeredConfig.isRemoval, isReplacement, hw]
    cases w with
    | string s => exact absurd rfl hkind
    | _ => rfl
  | value hs hne =>
    rw [LayeredConfig.isRemoval, isReplacement, hs]
    exact if_neg hne

theorem isRemoval_eq_error_iff : isRemoval v = .error cause ↔ BadPatch v cause := by
  refine ⟨?_, BadPatch.isRemoval⟩
  intro h
  cases v with
  | map fs =>
    rw [isRemoval, isReplacement] at h
    split at h
    · cases h
    · next s hs =>
      split at h
      · cases h
      · next hne =>
        cases h
        exact .value hs hne
    · next w hno hw =>
      cases h
      refine .kind hw ?_
      intro hkind
      cases w with
      | string s => exact hno s rfl
      | _ => cases hkind
  | _ => cases h

theorem not_badPatch (h : isRemoval v = .ok b) : ¬ BadPatch v cause := by
  intro hbad
  rw [hbad.isRemoval] at h
  cases h

theorem BadPatch.root (h : BadPatch v cause) : cause.root = cause ∧ cause.labels = [] := by
  cases h <;> exact ⟨rfl, rfl⟩

theorem isRemoval_of_mergeItems (h : mergeItems index xs ys = .ok zs) (hv : v ∈ ys) :
    ∃ b, isRemoval v = .ok b := by
  induction ys generalizing index xs with
  | nil => cases hv
  | cons y rest ih =>
    obtain ⟨b,hb,h⟩ := bind_eq_ok_iff.mp h
    rcases List.mem_cons.mp hv with rfl | hv
    · exact ⟨b, labelled_eq_ok_iff.mp hb⟩
    · cases b with
      | true => exact ih h hv
      | false => exact ih h hv

/-- The join of two lists fails at the first element of the source that has a bad `$patch`. -/
theorem mergeItems_error (h : mergeItems index xs ys = .error e) :
    ∃ before v after cause, ys = before ++ v :: after ∧ BadPatch v cause ∧
      (∀ w ∈ before, ∀ e, ¬ BadPatch w e) ∧ e = .context (toString (index + before.length)) cause := by
  induction ys generalizing index xs with
  | nil => cases h
  | cons y rest ih =>
    rcases bind_eq_error_iff.mp h with hy | ⟨b,hb,h⟩
    · obtain ⟨cause,hc,rfl⟩ := labelled_eq_error_iff.mp hy
      exact ⟨[], y, rest, cause, rfl, isRemoval_eq_error_iff.mp hc, nofun, rfl⟩
    · have hrest : ∃ zs, mergeItems (index + 1) zs rest = .error e := by
        cases b with
        | true => exact ⟨_, h⟩
        | false => exact ⟨_, h⟩
      obtain ⟨zs,hrest⟩ := hrest
      obtain ⟨before,v,after,cause,rfl,hv,hbefore,rfl⟩ := ih hrest
      have hy : ∀ e, ¬ BadPatch y e := fun _ => not_badPatch (labelled_eq_ok_iff.mp hb)
      refine ⟨y :: before, v, after, cause, rfl, hv, List.forall_mem_cons.mpr ⟨hy, hbefore⟩, ?_⟩
      rw [List.length_cons, Nat.add_assoc, Nat.add_comm 1]

/-- The merge of two maps fails at the first key whose entries do not merge. -/
theorem mergeFields_error (hf : fs.Ascending) (hg : gs.Ascending) (h : mergeFields depth fs gs = .error e) :
    ∃ key cause, mergeEntry depth (fs.get? key) (gs.get? key) = .error cause ∧ e = .context key cause ∧
      ∀ k, k < key → ∃ o, mergeEntry depth (fs.get? k) (gs.get? k) = .ok o := by
  induction gs generalizing fs with
  | nil => cases h
  | cons p rest ih =>
    obtain ⟨l,v⟩ := p
    have hself : Fields.get? l ((l, v) :: rest) = some v := if_pos rfl
    rw [mergeFields_eq_bind] at h
    rcases bind_eq_error_iff.mp h with hl | ⟨o,ho,h⟩
    · obtain ⟨cause,hc,rfl⟩ := labelled_eq_error_iff.mp hl
      refine ⟨l, cause, hself ▸ hc, rfl, ?_⟩
      intro k hk
      have hnone : Fields.get? k ((l, v) :: rest) = none := by
        refine Fields.get?_eq_none_iff.mpr ?_
        intro w hw
        rcases List.mem_cons.mp hw with he | hw
        · cases he
          exact String.lt_irrefl _ hk
        · exact String.lt_asymm hk ((Fields.Ascending.cons_iff.mp hg).1 _ hw)
      rw [hnone]
      exact ⟨_, rfl⟩
    · have hother : ∀ k, l ≠ k → mergeEntry depth ((fs.put l o).get? k) (Fields.get? k rest) =
          mergeEntry depth (fs.get? k) (Fields.get? k ((l, v) :: rest)) := by
        intro k hk
        rw [Fields.get?_put hf, if_neg hk, Fields.get?_cons, if_neg hk]
      obtain ⟨key,cause,hc,rfl,hbefore⟩ := ih hf.put hg.tail h
      have hne : l ≠ key := by
        rintro rfl
        rw [hg.get?_tail] at hc
        cases hc
      refine ⟨key, cause, hother key hne ▸ hc, rfl, ?_⟩
      intro k hk
      by_cases hlk : l = k
      · subst hlk
        exact ⟨o, hself ▸ labelled_eq_ok_iff.mp ho⟩
      · exact hother k hlk ▸ hbefore k hk

/-- A failure is that of the two values themselves or of a field of both. -/
theorem clash_or_fields_of_error (hn : src ≠ .null ∨ depth ≤ depthLimit) (h : mergeAt depth dst src = .error e) :
    (src ≠ .null ∧ Clash depth dst src e.labels e.root) ∨
      ∃ fs gs : Fields, dst = .map fs ∧ src = .map gs ∧ depth ≤ depthLimit ∧ isReplacement gs = .ok false ∧
        mergeFields depth fs gs = .error e := by
  by_cases hd : depthLimit < depth
  · have hne : src ≠ .null := hn.resolve_right (Nat.not_le.mpr hd)
    have hdeep : mergeAt depth dst src = .error .tooDeep := by cases src <;> simp [mergeAt, hd]
    rw [hdeep] at h
    cases h
    exact Or.inl ⟨hne, .tooDeep hd⟩
  · have hle : depth ≤ depthLimit := Nat.not_lt.mp hd
    cases src <;> cases dst <;> simp only [mergeAt, if_neg hd] at h
    case map.map gs fs =>
      rcases bind_eq_error_iff.mp h with hp | ⟨b,hb,h⟩
      · have hbad : BadPatch (.map gs) e := isRemoval_eq_error_iff.mp hp
        refine Or.inl ⟨by simp, ?_⟩
        rw [hbad.root.1, hbad.root.2]
        exact .patch hle hbad
      · cases b with
        | true => cases h
        | false => exact Or.inr ⟨fs, gs, rfl, rfl, hle, hb, map_eq_error_iff.mp h⟩
    case list.list ys xs =>
      obtain ⟨before,v,after,cause,rfl,hv,hbefore,rfl⟩ := mergeItems_error (map_eq_error_iff.mp h)
      refine Or.inl ⟨by simp, ?_⟩
      rw [Nat.zero_add, Error.root, Error.labels, hv.root.1, hv.root.2]
      exact .element hle hv hbefore
    -- the other pairs merge, or are refused for their kinds
    all_goals cases h
    all_goals exact Or.inl ⟨by simp, .kinds hle (by simp [Value.kind]) (by simp [Value.kind])⟩

theorem Clash.not_ok (hc : Clash depth x y place cause) (hy : y ≠ .null) : mergeAt depth x y ≠ .ok r := by
  intro h
  obtain ⟨hd,hm⟩ := mergeAt_eq_ok_iff.mp h
  cases hc with
  | tooDeep hlt => exact Nat.not_le.mpr hlt hd
  | @patch _ gs _ _ hbad =>
    have hpatch : ∀ b, isReplacement gs ≠ .ok b := fun b hb => not_badPatch (v := .map gs) hb hbad
    cases hm with
    | taken hl => cases hl
    | replaced hb => exact hpatch _ hb
    | fields hb => exact hpatch _ hb
  | element _ hbad =>
    cases hm with
    | taken hl => cases hl
    | items hm =>
      obtain ⟨b,hb⟩ := isRemoval_of_mergeItems hm (List.mem_append_right _ List.mem_cons_self)
      exact not_badPatch hb hbad
  | kinds _ hx hkind =>
    cases hm with
    | kept => exact hy rfl
    | taken hl => cases x <;> simp [Value.isLeaf, Value.kind] at hl hx
    | _ => exact hkind rfl

theorem conflict_cons_iff :
    Conflict depth dst src (key :: path) place cause ↔
      ∃ (fs gs : Fields) (x y : Value), dst = .map fs ∧ src = .map gs ∧
        gs.get? Directive.patch.key = none ∧ fs.get? key = some x ∧ gs.get? key = some y ∧ y ≠ .null ∧
        Conflict (depth + 1) x y path place cause := by
  have hlength : depth + (key :: path).length = depth + 1 + path.length := by
    rw [List.length_cons, Nat.add_right_comm, Nat.add_assoc]
  constructor
  · rintro ⟨x',y',hcommon,hne,hclash⟩
    cases hcommon with
    | field hp hx hy hnull hcommon =>
      exact ⟨_, _, _, _, rfl, rfl, hp, hx, hy, hnull, x', y', hcommon, hne, hlength ▸ hclash⟩
  · rintro ⟨fs,gs,x,y,rfl,rfl,hp,hx,hy,hnull,x',y',hcommon,hne,hclash⟩
    exact ⟨x', y', .field hp hx hy hnull hcommon, hne, hlength ▸ hclash⟩

/-- Values that do not go together are in the way of a merge wherever both sides hold them. -/
theorem not_conflict_of_ok (hd : dst.Ordered) (hs : src.Ordered) (h : mergeAt depth dst src = .ok r) :
    ¬ Conflict depth dst src path place cause := by
  induction path generalizing depth dst src r with
  | nil =>
    rintro ⟨x,y,hcommon,hne,hclash⟩
    cases hcommon
    exact hclash.not_ok hne h
  | cons key path ih =>
    intro hconflict
    obtain ⟨fs,gs,x,y,rfl,rfl,hp,hx,hy,hnull,hrest⟩ := conflict_cons_iff.mp hconflict
    cases (mergeAt_eq_ok_iff.mp h).2 with
    | taken hl => cases hl
    | replaced hb =>
      rw [isReplacement_of_get? hp] at hb
      cases hb
    | fields _ hm =>
      have hentry := ((mergeFields_eq_ok_iff hd.ascending hs.ascending).mp hm).2 key
      rw [hx, hy, mergeEntry_some_some hnull] at hentry
      obtain ⟨w,hw,_⟩ := map_eq_ok_iff.mp hentry
      exact ih (hd.field (Fields.mem_of_get? hx)) (hs.field (Fields.mem_of_get? hy)) hw hrest

theorem not_clash_of_isReplacement (hd : depth ≤ depthLimit) (hb : isReplacement gs = .ok b) :
    ¬ Clash depth (.map fs) (.map gs) place cause := by
  intro hclash
  cases hclash with
  | tooDeep hlt => exact Nat.not_le.mpr hlt hd
  | patch _ hbad => exact not_badPatch (v := .map gs) hb hbad
  | kinds _ _ hkind => exact hkind rfl

/-- The first conflict of a field is the first of the maps if the fields before it merge. -/
theorem FirstConflict.field (hd : (Value.map fs).Ordered) (hs : (Value.map gs).Ordered)
    (hle : depth ≤ depthLimit) (hb : isReplacement gs = .ok false) (hx : fs.get? key = some x)
    (hy : gs.get? key = some y) (hnull : y ≠ .null)
    (hbefore : ∀ k, k < key → ∃ o, mergeEntry depth (fs.get? k) (gs.get? k) = .ok o)
    (h : FirstConflict (depth + 1) x y path place cause) :
    FirstConflict depth (.map fs) (.map gs) (key :: path) place cause where
  conflict :=
    conflict_cons_iff.mpr ⟨fs, gs, x, y, rfl, rfl, isReplacement_eq_ok_false hb, hx, hy, hnull, h.conflict⟩
  first earlier hlex place' cause' hother := by
    cases hlex with
    | nil =>
      obtain ⟨_,_,hcommon,_,hclash⟩ := hother
      cases hcommon
      exact not_clash_of_isReplacement hle hb hclash
    | @cons _ rest _ hlex =>
      obtain ⟨_,_,x',y',hfs,hgs,_,hx',hy',_,hother⟩ := conflict_cons_iff.mp hother
      cases hfs
      cases hgs
      cases hx.symm.trans hx'
      cases hy.symm.trans hy'
      exact h.first rest hlex _ _ hother
    | @rel k _ _ _ hlt =>
      obtain ⟨_,_,x',y',hfs,hgs,_,hx',hy',hnull',hother⟩ := conflict_cons_iff.mp hother
      cases hfs
      cases hgs
      obtain ⟨o,ho⟩ := hbefore k hlt
      rw [hx', hy', mergeEntry_some_some hnull'] at ho
      obtain ⟨w,hw,_⟩ := map_eq_ok_iff.mp ho
      have hdx := hd.field (Fields.mem_of_get? hx')
      have hsy := hs.field (Fields.mem_of_get? hy')
      exact not_conflict_of_ok hdx hsy hw hother

/-- The induction is on the source: a field that fails has a first conflict of its own. -/
theorem mergeAt_error (hd : dst.Ordered) (hs : src.Ordered) (hn : src ≠ .null ∨ depth ≤ depthLimit)
    (h : mergeAt depth dst src = .error e) :
    ∃ path place, FirstConflict depth dst src path place e.root ∧ e.labels = path ++ place := by
  induction src using Value.descend generalizing depth dst e with
  | step src ih =>
    rcases clash_or_fields_of_error hn h with ⟨hne,hclash⟩ | ⟨fs,gs,rfl,rfl,hle,hb,hm⟩
    · have hconflict : Conflict depth dst src [] e.labels e.root := ⟨dst, src, .root _ _, hne, hclash⟩
      exact ⟨[], e.labels, ⟨hconflict, nofun⟩, rfl⟩
    · obtain ⟨key,cause,hc,rfl,hbefore⟩ := mergeFields_error hd.ascending hs.ascending hm
      obtain ⟨x,y,hx,hy,hnull,hxy⟩ := mergeEntry_error hc
      have hmem := Fields.mem_of_get? hy
      have hdx := hd.field (Fields.mem_of_get? hx)
      obtain ⟨path,place,hfirst,hlabels⟩ := ih gs key y rfl hmem hdx (hs.field hmem) (Or.inl hnull) hxy
      refine ⟨key :: path, place, hfirst.field hd hs hle hb hx hy hnull hbefore, ?_⟩
      rw [Error.labels, hlabels, List.cons_append]

/-- A merge fails just if it has a conflict. The error is that of the first one, and its labels lead there. -/
theorem merge_conflict (hd : dst.Ordered) (hs : src.Ordered) :
    ((∃ e, merge dst src = .error e) ↔ ∃ path place cause, Conflict 0 dst src path place cause) ∧
      ∀ e, merge dst src = .error e →
        ∃ path place, FirstConflict 0 dst src path place e.root ∧ e.labels = path ++ place := by
  have hlocated : ∀ e, merge dst src = .error e →
      ∃ path place, FirstConflict 0 dst src path place e.root ∧ e.labels = path ++ place :=
    fun e h => mergeAt_error hd hs (Or.inr (Nat.zero_le _)) h
  refine ⟨⟨?_, ?_⟩, hlocated⟩
  · rintro ⟨e,he⟩
    obtain ⟨path,place,hfirst,_⟩ := hlocated e he
    exact ⟨path, place, e.root, hfirst.conflict⟩
  · rintro ⟨path,place,cause,hconflict⟩
    cases h : merge dst src with
    | error e => exact ⟨e, rfl⟩
    | ok r => exact absurd hconflict (not_conflict_of_ok hd hs h)

theorem merge_conflict_tags :
    let dst := Value.map [("env", .map [("A", .string "1")]), ("spec", .map [("ports", .list [.null]),
      ("tags", .list [.string "x"])]), ("zone", .map [])]
    let src := Value.map [("env", .map [("A", .map [("$patch", .bool true)])]), ("spec", .map [("ports", .null),
      ("tags", .list [.string "y", .map [("$patch", .string "merge")]])]), ("zone", .map [("$patch", .null)])]
    let e := Error.context "spec" (.context "tags" (.context "1" (.patchValue "merge")))
    dst.Ordered ∧ src.Ordered ∧ merge dst src = .error e ∧
      (∃ path place cause, Conflict 0 dst src path place cause) ∧
      ∃ path place, FirstConflict 0 dst src path place (.patchValue "merge") ∧
        ["spec", "tags", "1"] = path ++ place := by
  intro dst src e
  have hd : dst.Ordered := by decide
  have hs : src.Ordered := by decide
  have h : merge dst src = .error e := by rfl
  have hconflict := merge_conflict hd hs
  exact ⟨hd, hs, h, hconflict.1.mp ⟨e, h⟩, hconflict.2 e h⟩

end LayeredConfig
