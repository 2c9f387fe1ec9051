import LayeredConfig.Session
import LayeredConfig.Proofs.Merge

/-! # Changes to the documents of a session

One merge changes the data of one document. It happens as a whole or not at all, so that what several
merges leave behind is decided by how many of them came before the first that failed.
-/
namespace LayeredConfig.Session
variable {s t u : Session} {index i : Nat} {patch data : Value} {origin : Option DocumentId}
variable {targets : List Nat} {r : Except Error Unit}

def patchedAt (s : Session) (index : Nat) (patch : Value) : Except Error Value :=
  if maxIndex ≤ index then .error (.invalidIndex index s.documents.length)
  else merge (s.dataAt index) patch

theorem merge_of_patchedAt (h : s.patchedAt index patch = .ok data) :
    merge (s.dataAt index) patch = .ok data := by
  rw [patchedAt] at h
  split at h
  · cases h
  · exact h

theorem perform_applyAt :
    perform (applyAt index patch origin) s = match s.patchedAt index patch with
      | .ok data => (.ok (), (s.pad (index + 1)).setData index data origin)
      | .error e => (.error e, s) := by
  rw [applyAt, perform_bind, patchedAt]
  simp only [perform_get]
  by_cases hi : maxIndex ≤ index
  · simp [hi]
  · simp only [hi, if_false]
    rw [perform_bind]
    simp only [applyAt.liftExcept, perform_mk_pure]
    cases merge (s.dataAt index) patch with
    | error e => rfl
    | ok data => rfl

theorem pad_eq_self (h : i < s.documents.length) : s.pad (i + 1) = s := by
  simp [pad, Nat.sub_eq_zero_of_le h]

theorem dataAt_setData (h : index < s.documents.length) :
    (s.setData index data origin).dataAt i = if i = index then data else s.dataAt i := by
  simp only [dataAt, setData, List.getElem?_modify]
  by_cases hi : i = index
  · subst hi
    simp [h]
  · have hne : ¬ index = i := fun he => hi he.symm
    simp [hi, hne]

theorem patchedAt_setData (h : index < s.documents.length) (hi : i ≠ index) :
    (s.setData index data origin).patchedAt i patch = s.patchedAt i patch := by
  rw [patchedAt, patchedAt, dataAt_setData h, if_neg hi]
  simp [setData]

structure SameFrame (s t : Session) : Prop where
  identities : t.documents.map (fun d => (d.id, d.parents)) = s.documents.map fun d => (d.id, d.parents)
  registry : t.registry = s.registry
  nextId : t.nextId = s.nextId

namespace SameFrame

theorem refl (s : Session) : SameFrame s s := ⟨rfl, rfl, rfl⟩

theorem trans (h : SameFrame s t) (h' : SameFrame t u) : SameFrame s u where
  identities := h'.identities.trans h.identities
  registry := h'.registry.trans h.registry
  nextId := h'.nextId.trans h.nextId

theorem setData : SameFrame s (s.setData index data none) where
  identities := by
    refine List.ext_getElem? ?_
    intro i
    simp only [Session.setData, List.getElem?_map, List.getElem?_modify]
    by_cases hi : index = i
    · subst hi
      cases s.documents[index]? <;> simp
    · simp [hi]
  registry := rfl
  nextId := rfl

theorem length (h : SameFrame s t) : t.documents.length = s.documents.length := by
  simpa using congrArg List.length h.identities

theorem getElem?_eq (h : SameFrame s t) (hd : t.dataAt i = s.dataAt i) : t.documents[i]? = s.documents[i]? := by
  have hid : t.documents[i]?.map (fun d => (d.id, d.parents)) = s.documents[i]?.map fun d => (d.id, d.parents) := by
    simpa using congrArg (·[i]?) h.identities
  rw [dataAt, dataAt] at hd
  cases ht : t.documents[i]? with
  | none =>
    rw [ht] at hid
    exact (Option.map_eq_none_iff.mp hid.symm).symm
  | some d =>
    cases hs : s.documents[i]? with
    | none => simp [ht, hs] at hid
    | some d' =>
      cases d
      cases d'
      simp_all

/-- The data are all that is left to tell two sessions apart. -/
theorem eq (h : SameFrame s t) (hd : ∀ i, t.dataAt i = s.dataAt i) : t = s := by
  have hdocs : t.documents = s.documents := List.ext_getElem? fun i => h.getElem?_eq (hd i)
  cases s
  cases t
  obtain ⟨_,hr,hn⟩ := h
  simp_all

end SameFrame

/-- The targets that a patch is merged into one after another until one refuses it. -/
def reached (s : Session) (patch : Value) (targets : List Nat) : List Nat :=
  targets.takeWhile fun i => (s.patchedAt i patch).isOk

theorem reached_cons_of_ok (h : s.patchedAt index patch = .ok data) :
    s.reached patch (index :: targets) = index :: s.reached patch targets := by
  simp [reached, h, Except.isOk, Except.toBool]

theorem reached_cons_of_error {e : Error} (h : s.patchedAt index patch = .error e) :
    s.reached patch (index :: targets) = [] := by
  simp [reached, h, Except.isOk, Except.toBool]

theorem reached_congr (h : ∀ i ∈ targets, s.patchedAt i patch = t.patchedAt i patch) :
    s.reached patch targets = t.reached patch targets := by
  induction targets with
  | nil => rfl
  | cons i rest ih =>
    have hi := h i List.mem_cons_self
    have hrest := ih fun j hj => h j (List.mem_cons_of_mem _ hj)
    cases hp : t.patchedAt i patch with
    | error e => rw [reached_cons_of_error hp, reached_cons_of_error (hi.trans hp)]
    | ok data => rw [reached_cons_of_ok hp, reached_cons_of_ok (hi.trans hp), hrest]

/-- A patch was merged into the documents at some indices, and nothing else happened. -/
structure Patched (s t : Session) (patch : Value) (indices : List Nat) : Prop where
  frame : SameFrame s t
  merged : ∀ i ∈ indices, merge (s.dataAt i) patch = .ok (t.dataAt i)
  kept : ∀ i, i ∉ indices → t.dataAt i = s.dataAt i

namespace Patched

theorem nil : Patched s s patch [] where
  frame := .refl s
  merged _ hi := nomatch hi
  kept _ _ := rfl

theorem eq_iff {indices : List Nat} (h : Patched s t patch indices) :
    t = s ↔ ∀ i ∈ indices, merge (s.dataAt i) patch = .ok (s.dataAt i) := by
  constructor
  · rintro rfl
    exact h.merged
  · intro hall
    refine h.frame.eq ?_
    intro i
    by_cases hi : i ∈ indices
    · exact Except.ok.inj ((h.merged i hi).symm.trans (hall i hi))
    · exact h.kept i hi

/-- The document at the first index is merged before the others and not looked at again. -/
theorem cons {indices : List Nat} (hi : index < s.documents.length) (hn : index ∉ indices)
    (hd : merge (s.dataAt index) patch = .ok data)
    (h : Patched (s.setData index data none) t patch indices) : Patched s t patch (index :: indices) where
  frame := SameFrame.setData.trans h.frame
  merged i hmem := by
    rcases List.mem_cons.mp hmem with rfl | hmem
    · rw [hd, h.kept i hn, dataAt_setData hi, if_pos rfl]
    · have hne : i ≠ index := fun he => hn (he ▸ hmem)
      have hm := h.merged i hmem
      rwa [dataAt_setData hi, if_neg hne] at hm
  kept i hnot := by
    have hne := List.ne_of_not_mem_cons hnot
    rw [h.kept i (List.not_mem_of_not_mem_cons hnot), dataAt_setData hi, if_neg hne]

end Patched

/-- A run over several documents merges the patch into those that it reaches, and succeeds if these are all. -/
theorem forM_applyAt (hn : targets.Nodup) (hlt : ∀ i ∈ targets, i < s.documents.length)
    (h : perform (targets.forM fun i => applyAt i patch none) s = (r, t)) :
    Patched s t patch (s.reached patch targets) ∧ (r = .ok () ↔ s.reached patch targets = targets) := by
  induction targets generalizing s with
  | nil =>
    cases h
    exact ⟨.nil, iff_of_true rfl rfl⟩
  | cons i rest ih =>
    rw [List.forM, perform_bind, perform_applyAt] at h
    have hi := hlt i List.mem_cons_self
    obtain ⟨hnot,hrest⟩ := List.nodup_cons.mp hn
    cases hp : s.patchedAt i patch with
    | error e =>
      rw [hp] at h
      cases h
      rw [reached_cons_of_error hp]
      exact ⟨.nil, iff_of_false nofun nofun⟩
    | ok data =>
      rw [hp, pad_eq_self hi] at h
      -- the documents still to come are as they were
      have hsame : (s.setData i data none).reached patch rest = s.reached patch rest := by
        refine reached_congr ?_
        intro j hj
        exact patchedAt_setData hi fun he => hnot (he ▸ hj)
      have hlength : (s.setData i data none).documents.length = s.documents.length :=
        SameFrame.setData.length
      have hlater := ih hrest (fun j hj => hlength ▸ hlt j (List.mem_cons_of_mem _ hj)) h
      rw [hsame] at hlater
      rw [reached_cons_of_ok hp, List.cons.injEq, hlater.2]
      refine ⟨?_, (and_iff_right rfl).symm⟩
      exact .cons hi (fun hm => hnot ((List.takeWhile_sublist _).mem hm)) (merge_of_patchedAt hp) hlater.1

theorem lt_of_mem_matching {pattern : Value} (h : i ∈ s.matching pattern) : i < s.documents.length := by
  obtain ⟨p,hp,rfl⟩ := List.mem_map.mp h
  simpa using List.snd_lt_of_mem_zipIdx (List.mem_filter.mp hp).1

theorem matching_nodup {pattern : Value} : (s.matching pattern).Nodup := by
  have hsub : (s.matching pattern).Sublist (s.documents.zipIdx.map (·.2)) :=
    List.filter_sublist.map _
  rw [List.zipIdx_map_snd] at hsub
  exact hsub.nodup (List.nodup_range' 1)

theorem perform_apply_of_none {rest : Value} (h : splitPattern patch = (rest, none)) :
    perform (apply index patch origin) s = perform (applyAt index rest origin) s := by
  rw [apply, h]

theorem perform_apply_of_some {rest pattern : Value} (h : splitPattern patch = (rest, some pattern)) :
    perform (apply index patch origin) s = if s.matching pattern = [] then (.error (.noMatch pattern.summary), s)
      else perform ((s.matching pattern).forM fun i => applyAt i rest origin) s := by
  simp only [apply, h, perform_bind, perform_get, List.isEmpty_iff]
  split <;> rfl

def reachedBy (s : Session) (patch : Value) : List Nat :=
  match splitPattern patch with
  | (_, none) => []
  | (rest, some pattern) => s.reached rest (s.matching pattern)

theorem apply_error {e : Error} (h : perform (apply index patch none) s = (.error e, t)) :
    Patched s t (splitPattern patch).1 (s.reachedBy patch) := by
  rw [reachedBy]
  cases hp : splitPattern patch with
  | mk rest pattern =>
    cases pattern with
    | none =>
      rw [perform_apply_of_none hp, perform_applyAt] at h
      split at h
      · cases h
      · cases h
        exact .nil
    | some pattern =>
      rw [perform_apply_of_some hp] at h
      by_cases he : s.matching pattern = []
      · rw [if_pos he] at h
        cases h
        simp only [he]
        exact .nil
      · rw [if_neg he] at h
        exact (forM_applyAt matching_nodup (fun i hi => lt_of_mem_matching hi) h).1

/-- A patch that fails leaves the number of documents, their identifiers and their parents as they
were. The documents reached before the failure hold their merges, so the session is what it was exactly
when none of these merges changes anything, and always after a patch without a pattern. -/
theorem applyPatch_error {e : Error} (h : perform (applyPatch index patch) s = (.error e, t)) :
    Patched s t (splitPattern patch.canonical).1 (s.reachedBy patch.canonical) ∧
      (t = s ↔ ∀ i ∈ s.reachedBy patch.canonical,
        merge (s.dataAt i) (splitPattern patch.canonical).1 = .ok (s.dataAt i)) ∧
      ((splitPattern patch.canonical).2 = none → t = s) := by
  have hpatched := apply_error h
  refine ⟨hpatched, hpatched.eq_iff, ?_⟩
  intro hnone
  refine hpatched.eq_iff.mpr ?_
  rw [reachedBy]
  split
  · exact fun i hi => nomatch hi
  · next hp =>
    rw [hp] at hnone
    cases hnone

theorem applyPatch_error_second :
    let kind := ("kind", Value.string "x")
    let patch := Value.map [("$match", .map [kind]), ("v", .bool true)]
    let s : Session := ⟨[⟨0, [], .map [kind]⟩, ⟨1, [], .map [kind, ("v", .map [])]⟩], .empty, 2⟩
    let t : Session := ⟨[⟨0, [], .map [kind, ("v", .bool true)]⟩,
      ⟨1, [], .map [kind, ("v", .map [])]⟩], .empty, 2⟩
    perform (applyPatch 0 patch) s = (.error (.context "v" (.mismatch .map .bool)), t) ∧
      Patched s t (.map [("v", .bool true)]) [0] := by
  intro kind patch s t
  have h : perform (applyPatch 0 patch) s = (.error (.context "v" (.mismatch .map .bool)), t) := by rfl
  exact ⟨h, (applyPatch_error h).1⟩

/-- A pattern can select a document that takes the patch before one that refuses it. -/
theorem not_unchanged_of_applyPatch_error :
    let kind := ("kind", Value.string "x")
    let build := do
      applyPatch 0 (.map [kind])
      applyPatch 1 (.map [kind, ("v", .map [])])
    let s := (perform build (empty .empty)).2
    let after := perform (applyPatch 0 (.map [("$match", .map [kind]), ("v", .bool true)])) s
    (∃ e, after.1 = .error e) ∧ after.2 ≠ s := by
  intro kind build s after
  have hs : (s.dataAt 0).hasKey "v" = false := by rfl
  have ht : (after.2.dataAt 0).hasKey "v" = true := by rfl
  refine ⟨⟨.context "v" (.mismatch .map .bool), rfl⟩, ?_⟩
  intro he
  rw [he, hs] at ht
  cases ht

end LayeredConfig.Session
