import LayeredConfig.Proofs.Sessions

/-! # How a session grows

A merge into a document beyond the end first fills the session up to it with `null` documents. The
documents that were there stay at their places, and all but the one that is merged into stay as they are.
-/
namespace LayeredConfig.Session
variable {s : Session} {index count i : Nat} {patch data : Value} {origin : Option DocumentId}

@[simp] theorem length_pad : (s.pad count).documents.length = max s.documents.length count := by
  simp only [pad, List.length_append, List.length_map, List.length_range]
  omega

@[simp] theorem length_setData : (s.setData index data origin).documents.length = s.documents.length := by
  simp [setData]

theorem getElem?_pad (h : i < s.documents.length) : (s.pad count).documents[i]? = s.documents[i]? :=
  List.getElem?_append_left h

theorem getElem?_setData_of_ne (h : i ≠ index) :
    (s.setData index data origin).documents[i]? = s.documents[i]? := by
  simp [setData, Ne.symm h]

/-- What is read of a document beyond the end is what is read of one that is filled in. -/
theorem read_pad {α : Type} {f : Document → α} {a : α} (hf : ∀ id, f ⟨id, [], .null⟩ = a) :
    ((s.pad count).documents[i]?.map f).getD a = (s.documents[i]?.map f).getD a := by
  by_cases h : i < s.documents.length
  · rw [getElem?_pad h]
  · rw [List.getElem?_eq_none (Nat.not_lt.mp h)]
    cases hd : (s.pad count).documents[i]? with
    | none => rfl
    | some d =>
      rw [pad, List.getElem?_append_right (Nat.not_lt.mp h)] at hd
      obtain ⟨j,_,rfl⟩ := List.mem_map.mp (List.mem_of_getElem? hd)
      exact hf _

theorem dataAt_pad : (s.pad count).dataAt i = s.dataAt i := read_pad fun _ => rfl

/-- The session after data were given to the document at an index, which may lie beyond the end. -/
def merged (s : Session) (index : Nat) (data : Value) (origin : Option DocumentId) : Session :=
  (s.pad (index + 1)).setData index data origin

theorem perform_applyAt_merged :
    perform (applyAt index patch origin) s = match s.patchedAt index patch with
      | .ok data => (.ok (), s.merged index data origin)
      | .error e => (.error e, s) :=
  perform_applyAt

@[simp] theorem length_merged :
    (s.merged index data origin).documents.length = max s.documents.length (index + 1) := by
  simp [merged]

theorem lt_length_pad : index < (s.pad (index + 1)).documents.length := by
  rw [length_pad]
  omega

theorem dataAt_merged :
    (s.merged index data origin).dataAt i = if i = index then data else s.dataAt i := by
  rw [merged, dataAt_setData lt_length_pad, dataAt_pad]

theorem getElem?_merged_of_ne (hi : i < s.documents.length) (hne : i ≠ index) :
    (s.merged index data origin).documents[i]? = s.documents[i]? := by
  rw [merged, getElem?_setData_of_ne hne, getElem?_pad hi]

end LayeredConfig.Session
