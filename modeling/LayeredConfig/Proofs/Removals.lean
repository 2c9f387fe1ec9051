import LayeredConfig.Proofs.MergeLaws

/-! # Joined lists

An element of a source that is a map with `$patch` takes out what stands at its own position of the list that has
been joined so far; every other element is appended. So the order of the elements never changes, and no more are
lost than there are such markers.
-/
namespace LayeredConfig

/-- What is left of a list, counted from a position on, without its even positions below `2 * m`. -/
def withoutEven (m start : Nat) (xs : List Value) : List Value :=
  ((xs.zipIdx start).filter fun p => !(p.2 % 2 == 0 && p.2 < 2 * m)).map Prod.fst

variable {index m start : Nat} {v r : Value} {xs ys zs : List Value}

theorem withoutEven_cons_even (he : start % 2 = 0) (hm : start < 2 * m) :
    withoutEven m start (v :: xs) = withoutEven m (start + 1) xs := by
  simp [withoutEven, List.zipIdx_cons, he, hm]

theorem withoutEven_cons_odd (ho : start % 2 = 1) :
    withoutEven m start (v :: xs) = v :: withoutEven m (start + 1) xs := by
  simp [withoutEven, List.zipIdx_cons, ho]

theorem withoutEven_of_le (h : 2 * m ≤ start) : withoutEven m start xs = xs := by
  rw [withoutEven, List.filter_eq_self.mpr, List.zipIdx_map_fst]
  intro p hp
  have hle := List.le_snd_of_mem_zipIdx hp
  have hnot : ¬ p.2 < 2 * m := by omega
  simp [hnot]

theorem isRemoval_of_not_marker (h : v.isMarker = false) : isRemoval v = .ok false := by
  cases v with
  | map fs => exact isReplacement_of_get? (Value.hasKey_map_eq_false_iff.mp h)
  | _ => rfl

theorem length_le_of_mergeItems (h : mergeItems index xs ys = .ok zs) :
    xs.length + ys.length ≤ zs.length + 2 * ys.countP Value.isMarker := by
  induction ys generalizing index xs with
  | nil =>
    cases h
    simp
  | cons y rest ih =>
    rcases mergeItems_cons h with ⟨hy,h⟩ | ⟨hy,h⟩
    · have hrest := ih h
      have herase : xs.length ≤ (xs.eraseIdx index).length + 1 := by
        rw [List.length_eraseIdx]
        split <;> omega
      rw [List.countP_cons_of_pos hy, List.length_cons]
      omega
    · have hrest := ih h
      rw [List.length_append, List.length_singleton] at hrest
      rw [List.countP_cons_of_neg (by simp [hy]), List.length_cons]
      omega

/-- Markers behind the end of the list remove nothing. -/
theorem mergeItems_of_length_le (hm : ∀ y ∈ ys, y.isMarker = true) (hl : xs.length ≤ index)
    (h : mergeItems index xs ys = .ok zs) : zs = xs := by
  induction ys generalizing index with
  | nil =>
    cases h
    rfl
  | cons y rest ih =>
    obtain ⟨hy,hrest⟩ := List.forall_mem_cons.mp hm
    rcases mergeItems_cons h with ⟨_,h⟩ | ⟨hno,_⟩
    · rw [List.eraseIdx_of_length_le hl] at h
      exact ih hrest (Nat.le_succ_of_le hl) h
    · rw [hy] at hno
      cases hno

/-- Each marker shifts the list by one under the next one. When the list starts with what is left of the first
`2 * before.length` elements, the next marker meets the first element after those. -/
theorem mergeItems_markers (before : List Value) (hm : ∀ y ∈ ys, y.isMarker = true)
    (h : mergeItems before.length (before ++ xs) ys = .ok zs) :
    zs = before ++ withoutEven (before.length + ys.length) (2 * before.length) xs := by
  induction ys generalizing before xs with
  | nil =>
    cases h
    exact congrArg (before ++ ·) (withoutEven_of_le (Nat.le_refl _)).symm
  | cons y rest ih =>
    obtain ⟨hy,hrest⟩ := List.forall_mem_cons.mp hm
    have heven : 2 * before.length % 2 = 0 := Nat.mul_mod_right 2 _
    have hlt : 2 * before.length < 2 * (before.length + (y :: rest).length) := by
      rw [List.length_cons]
      omega
    rcases mergeItems_cons h with ⟨_,h⟩ | ⟨hno,_⟩
    · rw [List.eraseIdx_append_of_length_le (Nat.le_refl _), Nat.sub_self] at h
      cases xs with
      | nil =>
        rw [List.eraseIdx_nil, List.append_nil] at h
        rw [mergeItems_of_length_le hrest (Nat.le_succ _) h]
        exact (List.append_nil _).symm
      | cons x xs =>
        rw [List.eraseIdx_cons_zero] at h
        rw [withoutEven_cons_even heven hlt]
        cases xs with
        | nil =>
          rw [List.append_nil] at h
          rw [mergeItems_of_length_le hrest (Nat.le_succ _) h]
          exact (List.append_nil _).symm
        | cons x' tail =>
          have hlength : (before ++ [x']).length = before.length + 1 := List.length_append
          have hsum : before.length + 1 + rest.length = before.length + (y :: rest).length := by
            rw [List.length_cons, Nat.add_right_comm, Nat.add_assoc]
          rw [List.append_cons, ← hlength] at h
          rw [withoutEven_cons_odd (by omega), ih (before ++ [x']) hrest h, hlength, hsum, List.append_assoc]
          rfl
    · rw [hy] at hno
      cases hno

/-- The join of two lists keeps the order of the destination and of the elements that are no markers, and loses
at most one element for each marker. Markers alone remove every second element. -/
theorem merge_lists (h : merge (.list xs) (.list ys) = .ok r) :
    ∃ zs, r = .list zs ∧ zs.Sublist (xs ++ ys.filter (!·.isMarker)) ∧
      xs.length + ys.length ≤ zs.length + 2 * ys.countP Value.isMarker ∧
      (∃ kept added, zs = kept ++ added ∧ kept.Sublist xs ∧ added.Sublist ys ∧
        ∀ v ∈ added, v.isMarker = false) ∧
      ((∀ y ∈ ys, y.isMarker = false) → zs = xs ++ ys) ∧
      ((∀ y ∈ ys, y.isMarker = true) → zs = withoutEven ys.length 0 xs) := by
  cases (mergeAt_eq_ok_iff.mp h).2 with
  | taken hl => cases hl
  | @items _ _ zs hm =>
    have hsub := mergeItems_sublist hm
    refine ⟨zs, rfl, hsub, length_le_of_mergeItems hm, ?_, ?_, ?_⟩
    · obtain ⟨kept,added,he,hkept,hadded⟩ := List.sublist_append_iff.mp hsub
      refine ⟨kept, added, he, hkept, hadded.trans List.filter_sublist, ?_⟩
      intro v hv
      simpa using (List.mem_filter.mp (hadded.subset hv)).2
    · intro hno
      rw [mergeItems_append fun v hv => isRemoval_of_not_marker (hno v hv)] at hm
      exact (Except.ok.inj hm).symm
    · intro hall
      simpa using mergeItems_markers [] hall hm

theorem merge_lists_removed :
    let remove := Value.map [("$patch", .string "replace")]
    let xs := [Value.string "a", .string "b", .string "c"]
    merge (.list xs) (.list [.string "d", remove, remove]) = .ok (.list [.string "a", .string "c"]) ∧
      [Value.string "a", .string "c"].Sublist (xs ++ [.string "d", remove, remove].filter (!·.isMarker)) ∧
      xs.length + 3 ≤ 2 + 2 * [.string "d", remove, remove].countP Value.isMarker ∧
      merge (.list xs) (.list [remove, remove, remove]) = .ok (.list [.string "b"]) ∧
      [Value.string "b"] = withoutEven 3 0 xs := by
  intro remove xs
  have h : merge (.list xs) (.list [.string "d", remove, remove]) = .ok (.list [.string "a", .string "c"]) := by rfl
  have hall : merge (.list xs) (.list [remove, remove, remove]) = .ok (.list [.string "b"]) := by rfl
  obtain ⟨zs,he,hsub,hlength,_⟩ := merge_lists h
  obtain ⟨rest,hrest,_,_,_,_,hmarkers⟩ := merge_lists hall
  cases he
  cases hrest
  exact ⟨h, hsub, hlength, hall, hmarkers (by decide)⟩

end LayeredConfig
