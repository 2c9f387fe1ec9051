import LayeredConfig.Merge
import LayeredConfig.Proofs.Results
import LayeredConfig.Proofs.Subtrees

/-! # What a merge does

`Merged` lists the ways in which a merge succeeds. Two maps merge key by key: `mergeEntry` says what
becomes of one key, and the fields of the result are those that it gives.
-/
namespace LayeredConfig
variable {depth index : Nat} {key : String} {dst src r v : Value} {fs gs hs : Fields}
variable {xs ys zs : List Value} {b : Bool}

/-- A map with `$patch`, which as an element of a source stands for a removal. -/
def Value.isMarker (v : Value) : Bool := v.hasKey Directive.patch.key

theorem isMarker_of_isRemoval (h : isRemoval v = .ok b) : v.isMarker = b := by
  cases v with
  | map fs =>
    rw [isRemoval, isReplacement] at h
    rw [Value.isMarker, Value.hasKey, Value.field?]
    split at h
    · next hn =>
      cases h
      rw [hn]
      rfl
    · next s hs =>
      split at h
      · cases h
        rw [hs]
        rfl
      · cases h
    · cases h
  | _ =>
    cases h
    rfl

theorem isReplacement_eq_ok_false (h : isReplacement fs = .ok false) :
    fs.get? Directive.patch.key = none :=
  Value.hasKey_map_eq_false_iff.mp (isMarker_of_isRemoval h)

theorem isReplacement_of_get? (h : fs.get? Directive.patch.key = none) :
    isReplacement fs = .ok false := by
  simp [isReplacement, h]

inductive Merged (depth : Nat) : Value → Value → Value → Prop where
  | kept (dst : Value) : Merged depth dst .null dst
  | taken {dst src : Value} : dst.isLeaf → src ≠ .null → Merged depth dst src src
  | replaced {fs gs : Fields} : isReplacement gs = .ok true →
      Merged depth (.map fs) (.map gs) (.map (gs.erase Directive.patch.key))
  | fields {fs gs hs : Fields} : isReplacement gs = .ok false → mergeFields depth fs gs = .ok hs →
      Merged depth (.map fs) (.map gs) (.map hs)
  | items {xs ys zs : List Value} : mergeItems 0 xs ys = .ok zs →
      Merged depth (.list xs) (.list ys) (.list zs)

theorem mergeAt_eq_ok_iff :
    mergeAt depth dst src = .ok r ↔ depth ≤ depthLimit ∧ Merged depth dst src r := by
  by_cases hd : depthLimit < depth
  · have hle : ¬ depth ≤ depthLimit := Nat.not_le.mpr hd
    cases src <;> simp [mergeAt, hd, hle]
  · have hle : depth ≤ depthLimit := Nat.not_lt.mp hd
    simp only [hle, true_and]
    constructor
    · intro h
      cases src with
      | null =>
        simp only [mergeAt, if_neg hd] at h
        cases h
        exact .kept dst
      | map gs =>
        simp only [mergeAt, if_neg hd] at h
        cases dst with
        | map fs =>
          obtain ⟨b,hb,h⟩ := bind_eq_ok_iff.mp h
          cases b with
          | true =>
            cases h
            exact .replaced hb
          | false =>
            obtain ⟨hs,hm,rfl⟩ := map_eq_ok_iff.mp h
            exact .fields hb hm
        | list xs => cases h
        | _ =>
          cases h
          exact .taken rfl (by simp)
      | list ys =>
        simp only [mergeAt, if_neg hd] at h
        cases dst with
        | list xs =>
          obtain ⟨zs,hm,rfl⟩ := map_eq_ok_iff.mp h
          exact .items hm
        | map fs => cases h
        | _ =>
          cases h
          exact .taken rfl (by simp)
      | _ =>
        simp only [mergeAt, if_neg hd] at h
        cases dst <;> cases h <;> exact .taken rfl (by simp)
    · intro h
      cases h with
      | kept => simp only [mergeAt, if_neg hd]
      | taken hl hn => cases src <;> cases dst <;> simp_all [mergeAt, Value.isLeaf]
      | replaced hb => simp [mergeAt, hd, hb, bind, Except.bind]
      | fields hb hm => simp [mergeAt, hd, hb, hm, bind, Except.bind, Functor.map, Except.map]
      | items hm => simp [mergeAt, hd, hm, Functor.map, Except.map]

theorem mergeAt_map_nil (hd : depth ≤ depthLimit) : mergeAt depth (.map fs) (.map []) = .ok (.map fs) :=
  mergeAt_eq_ok_iff.mpr ⟨hd, .fields rfl rfl⟩

theorem mergeAt_of_isLeaf (hd : depth ≤ depthLimit) (hl : dst.isLeaf = true) (hs : src ≠ .null) :
    mergeAt depth dst src = .ok src :=
  mergeAt_eq_ok_iff.mpr ⟨hd, .taken hl hs⟩

namespace Merged

theorem ne_null (h : Merged depth dst src r) (hn : dst ≠ .null ∨ src ≠ .null) : r ≠ .null := by
  cases h with
  | kept =>
    rcases hn with hn | hn
    · exact hn
    · exact absurd rfl hn
  | taken _ hs => exact hs
  | _ => simp

end Merged

def mergeEntry (depth : Nat) : Option Value → Option Value → Except Error (Option Value)
  | old, none => .ok old
  | _, some .null => .ok none
  | none, some new => .ok (some new)
  | some old, some new => some <$> mergeAt (depth + 1) old new

theorem mergeEntry_none_left (hv : v ≠ .null) : mergeEntry depth none (some v) = .ok (some v) := by
  cases v with
  | null => exact absurd rfl hv
  | _ => rfl

theorem mergeEntry_some_some (hv : v ≠ .null) :
    mergeEntry depth (some dst) (some v) = some <$> mergeAt (depth + 1) dst v := by
  cases v with
  | null => exact absurd rfl hv
  | _ => rfl

theorem mergeEntry_error {old new : Option Value} (h : mergeEntry depth old new = .error e) :
    ∃ x y, old = some x ∧ new = some y ∧ y ≠ .null ∧ mergeAt (depth + 1) x y = .error e := by
  cases new with
  | none => cases h
  | some y =>
    by_cases hy : y = .null
    · subst hy
      cases h
    · cases old with
      | none =>
        rw [mergeEntry_none_left hy] at h
        cases h
      | some x =>
        rw [mergeEntry_some_some hy] at h
        exact ⟨x, y, rfl, rfl, hy, map_eq_error_iff.mp h⟩

theorem mergeFields_cons_of_none (hv : v ≠ .null) (h : fs.get? key = none) :
    mergeFields depth fs ((key, v) :: gs) = mergeFields depth (fs.insert key v) gs := by
  cases v with
  | null => exact absurd rfl hv
  | _ => simp only [mergeFields, h]

theorem mergeFields_cons_of_some {old : Value} (hv : v ≠ .null) (h : fs.get? key = some old) :
    mergeFields depth fs ((key, v) :: gs) = labelled key (mergeAt (depth + 1) old v) >>=
      fun merged => mergeFields depth (fs.insert key merged) gs := by
  cases v with
  | null => exact absurd rfl hv
  | _ => simp only [mergeFields, h]

/-- One field of the source changes the value under its key and no other. -/
theorem mergeFields_eq_bind :
    mergeFields depth fs ((key, v) :: gs) =
      labelled key (mergeEntry depth (fs.get? key) (some v)) >>= fun o =>
        mergeFields depth (fs.put key o) gs := by
  by_cases hv : v = .null
  · subst hv
    simp [mergeFields, mergeEntry, labelled, Fields.put, bind, Except.bind]
  · cases hold : fs.get? key with
    | none =>
      rw [mergeFields_cons_of_none hv hold, mergeEntry_none_left hv]
      rfl
    | some old =>
      rw [mergeFields_cons_of_some hv hold, mergeEntry_some_some hv]
      cases mergeAt (depth + 1) old v <;> rfl

theorem mergeFields_cons :
    mergeFields depth fs ((key, v) :: gs) = .ok hs ↔
      ∃ o, mergeEntry depth (fs.get? key) (some v) = .ok o ∧
        mergeFields depth (fs.put key o) gs = .ok hs := by
  simp only [mergeFields_eq_bind, bind_eq_ok_iff, labelled_eq_ok_iff]

/-- A merge of maps is the merge of their entries. -/
theorem mergeFields_eq_ok_iff (hf : fs.Ascending) (hg : gs.Ascending) :
    mergeFields depth fs gs = .ok hs ↔
      hs.Ascending ∧ ∀ key, mergeEntry depth (fs.get? key) (gs.get? key) = .ok (hs.get? key) := by
  induction gs generalizing fs with
  | nil =>
    simp only [mergeFields, Except.ok.injEq]
    constructor
    · rintro rfl
      exact ⟨hf, fun _ => rfl⟩
    · rintro ⟨hh,he⟩
      exact Fields.ext hf hh fun key => Except.ok.inj (he key)
  | cons p rest ih =>
    obtain ⟨l,v⟩ := p
    simp only [mergeFields_cons, ih hf.put hg.tail, Fields.get?_put hf]
    constructor
    · rintro ⟨o,ho,hh,he⟩
      refine ⟨hh, ?_⟩
      intro key
      have hk := he key
      rw [Fields.get?_cons]
      by_cases hl : l = key
      · subst hl
        rw [if_pos rfl, hg.get?_tail] at hk
        rw [if_pos rfl, ho, ← hk]
        rfl
      · rwa [if_neg hl] at hk ⊢
    · rintro ⟨hh,he⟩
      refine ⟨hs.get? l, ?_, hh, ?_⟩
      · simpa [Fields.get?_cons] using he l
      · intro key
        by_cases hl : l = key
        · subst hl
          rw [if_pos rfl, hg.get?_tail]
          rfl
        · simpa [Fields.get?_cons, hl] using he key

theorem mergeFields_succeeds (hf : fs.Ascending) (hg : gs.Ascending)
    (h : ∀ key, ∃ o, mergeEntry depth (fs.get? key) (gs.get? key) = .ok o) :
    ∃ hs, mergeFields depth fs gs = .ok hs := by
  induction gs generalizing fs with
  | nil => exact ⟨fs, rfl⟩
  | cons p rest ih =>
    obtain ⟨l,v⟩ := p
    obtain ⟨o,ho⟩ := h l
    rw [Fields.get?_cons, if_pos rfl] at ho
    have hrest : ∃ hs, mergeFields depth (fs.put l o) rest = .ok hs := by
      refine ih hf.put hg.tail ?_
      intro key
      rw [Fields.get?_put hf]
      by_cases hl : l = key
      · subst hl
        rw [hg.get?_tail]
        exact ⟨_, rfl⟩
      · simpa [Fields.get?_cons, hl] using h key
    obtain ⟨hs,hm⟩ := hrest
    exact ⟨hs, mergeFields_cons.mpr ⟨o, ho, hm⟩⟩

/-- A value that a merge leaves under a key is from one side or merged from both. -/
theorem mergeEntry_eq_ok_some {old new : Option Value} (h : mergeEntry depth old new = .ok (some v)) :
    old = some v ∨ new = some v ∨
      ∃ x y, old = some x ∧ new = some y ∧ mergeAt (depth + 1) x y = .ok v := by
  cases new with
  | none => exact Or.inl (Except.ok.inj h)
  | some y =>
    by_cases hy : y = .null
    · subst hy
      cases h
    · cases old with
      | none =>
        rw [mergeEntry_none_left hy] at h
        exact Or.inr (Or.inl (Except.ok.inj h))
      | some x =>
        rw [mergeEntry_some_some hy] at h
        obtain ⟨w,hw,he⟩ := map_eq_ok_iff.mp h
        cases he
        exact Or.inr (Or.inr ⟨x, y, rfl, rfl, hw⟩)

theorem mem_of_mergeFields (hf : fs.Ascending) (hg : gs.Ascending)
    (h : mergeFields depth fs gs = .ok hs) (hv : (key, v) ∈ hs) :
    (key, v) ∈ fs ∨ (key, v) ∈ gs ∨
      ∃ x y, (key, x) ∈ fs ∧ (key, y) ∈ gs ∧ mergeAt (depth + 1) x y = .ok v := by
  obtain ⟨hh,he⟩ := (mergeFields_eq_ok_iff hf hg).mp h
  have hk := he key
  rw [(Fields.get?_eq_some_iff hh).mpr hv] at hk
  rcases mergeEntry_eq_ok_some hk with hx | hy | ⟨x,y,hx,hy,hm⟩
  · exact Or.inl (Fields.mem_of_get? hx)
  · exact Or.inr (Or.inl (Fields.mem_of_get? hy))
  · exact Or.inr (Or.inr ⟨x, y, Fields.mem_of_get? hx, Fields.mem_of_get? hy, hm⟩)

/-- What is laid over a map stands in the merge, by itself or merged into what was there. -/
theorem exists_mem_of_mergeFields (hf : fs.Ascending) (hg : gs.Ascending)
    (h : mergeFields depth fs gs = .ok hs) (hv : (key, v) ∈ gs) (hnull : v ≠ .null) :
    (key, v) ∈ hs ∨ ∃ x w, (key, x) ∈ fs ∧ mergeAt (depth + 1) x v = .ok w ∧ (key, w) ∈ hs := by
  obtain ⟨_,he⟩ := (mergeFields_eq_ok_iff hf hg).mp h
  have hk := he key
  rw [(Fields.get?_eq_some_iff hg).mpr hv] at hk
  cases hold : fs.get? key with
  | none =>
    rw [hold, mergeEntry_none_left hnull] at hk
    exact Or.inl (Fields.mem_of_get? (Except.ok.inj hk).symm)
  | some x =>
    rw [hold, mergeEntry_some_some hnull] at hk
    obtain ⟨w,hw,hk⟩ := map_eq_ok_iff.mp hk
    exact Or.inr ⟨x, w, Fields.mem_of_get? hold, hw, Fields.mem_of_get? hk.symm⟩

/-- One element of the source removes what stands at its position, or is appended. -/
theorem mergeItems_cons (h : mergeItems index xs (v :: ys) = .ok zs) :
    (v.isMarker = true ∧ mergeItems (index + 1) (xs.eraseIdx index) ys = .ok zs) ∨
      (v.isMarker = false ∧ mergeItems (index + 1) (xs ++ [v]) ys = .ok zs) := by
  obtain ⟨b,hb,h⟩ := bind_eq_ok_iff.mp h
  have hmarker : v.isMarker = b := isMarker_of_isRemoval (labelled_eq_ok_iff.mp hb)
  cases b with
  | true => exact Or.inl ⟨hmarker, h⟩
  | false => exact Or.inr ⟨hmarker, h⟩

/-- Merged lists keep the order of what stood in one and was appended from the other. -/
theorem mergeItems_sublist (h : mergeItems index xs ys = .ok zs) :
    zs.Sublist (xs ++ ys.filter (!·.isMarker)) := by
  induction ys generalizing index xs with
  | nil =>
    cases h
    exact List.sublist_append_left _ _
  | cons y rest ih =>
    rcases mergeItems_cons h with ⟨hy,h⟩ | ⟨hy,h⟩
    · rw [List.filter_cons_of_neg (by simp [hy])]
      exact (ih h).trans ((List.eraseIdx_sublist xs index).append_right _)
    · rw [List.filter_cons_of_pos (by simp [hy])]
      simpa using ih h

/-- The elements of merged lists are from one list or the other. -/
theorem mem_of_mergeItems (h : mergeItems index xs ys = .ok zs) (hv : v ∈ zs) : v ∈ xs ∨ v ∈ ys :=
  (List.mem_append.mp ((mergeItems_sublist h).subset hv)).imp_right fun hm => (List.mem_filter.mp hm).1

/-- Merging keeps the keys of every map in order. -/
theorem mergeAt_ordered (hd : dst.Ordered) (hs : src.Ordered) (h : mergeAt depth dst src = .ok r) :
    r.Ordered := by
  induction src using Value.descend generalizing depth dst r with
  | step src ih =>
    cases (mergeAt_eq_ok_iff.mp h).2 with
    | kept => exact hd
    | taken => exact hs
    | replaced => exact hs.erase
    | @fields fs gs hs' _ hm =>
      obtain ⟨hh,_⟩ := (mergeFields_eq_ok_iff hd.ascending hs.ascending).mp hm
      refine Value.ordered_map.mpr ⟨hh, ?_⟩
      intro key v hv
      rcases mem_of_mergeFields hd.ascending hs.ascending hm hv with hx | hy | ⟨x,y,hx,hy,hm⟩
      · exact hd.field hx
      · exact hs.field hy
      · exact ih gs key y rfl hy (hd.field hx) (hs.field hy) hm
    | items hm =>
      refine Value.ordered_list.mpr ?_
      intro v hv
      rcases mem_of_mergeItems hm hv with hv | hv
      · exact Value.ordered_list.mp hd v hv
      · exact Value.ordered_list.mp hs v hv

/-- A merge has no key, at any depth, that neither side has. -/
theorem holdsField_of_mergeAt (hd : dst.Ordered) (hs : src.Ordered) (h : mergeAt depth dst src = .ok r)
    (hr : r.HoldsField key v) : ∃ w, dst.HoldsField key w ∨ src.HoldsField key w := by
  induction src using Value.descend generalizing depth dst r with
  | step src ih =>
    cases (mergeAt_eq_ok_iff.mp h).2 with
    | kept => exact ⟨v, Or.inl hr⟩
    | taken => exact ⟨v, Or.inr hr⟩
    | replaced =>
      refine ⟨v, Or.inr (Value.HoldsField.map_iff.mpr ?_)⟩
      rcases Value.HoldsField.map_iff.mp hr with hv | ⟨k,w,hw,hv⟩
      · exact Or.inl (Fields.mem_erase hv)
      · exact Or.inr ⟨k, w, Fields.mem_erase hw, hv⟩
    | @fields fs gs hs' _ hm =>
      have hfs := hd.ascending
      have hgs := hs.ascending
      rcases Value.HoldsField.map_iff.mp hr with hv | ⟨k,w,hw,hv⟩
      · rcases mem_of_mergeFields hfs hgs hm hv with hx | hy | ⟨x,y,hx,_,_⟩
        · exact ⟨v, Or.inl ⟨fs, .refl, hx⟩⟩
        · exact ⟨v, Or.inr ⟨gs, .refl, hy⟩⟩
        · exact ⟨x, Or.inl ⟨fs, .refl, hx⟩⟩
      · rcases mem_of_mergeFields hfs hgs hm hw with hx | hy | ⟨x,y,hx,hy,hm⟩
        · exact ⟨v, Or.inl (hv.inside (.field hx .refl))⟩
        · exact ⟨v, Or.inr (hv.inside (.field hy .refl))⟩
        · obtain ⟨u,hu⟩ := ih gs k y rfl hy (hd.field hx) (hs.field hy) hm hv
          exact ⟨u, hu.imp (·.inside (.field hx .refl)) (·.inside (.field hy .refl))⟩
    | items hm =>
      obtain ⟨w,hw,hv⟩ := Value.HoldsField.list_iff.mp hr
      refine ⟨v, (mem_of_mergeItems hm hw).imp ?_ ?_⟩
      · exact fun hw => Value.HoldsField.list_iff.mpr ⟨w, hw, hv⟩
      · exact fun hw => Value.HoldsField.list_iff.mpr ⟨w, hw, hv⟩

end LayeredConfig
