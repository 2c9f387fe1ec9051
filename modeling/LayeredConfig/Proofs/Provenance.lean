import LayeredConfig.Proofs.Growth
import LayeredConfig.Proofs.Invariants

/-! # Provenance

However far it gets, a change to a session is a number of merges into single documents. Each of them may
add documents at the end, under identifiers that no document has yet, and records at most one identifier,
with the document that it changes. Documents therefore keep their places and their identifiers through
every run, and what is recorded with one of them is the history of what was merged into it.
-/
namespace LayeredConfig.Session
variable {α β : Type} {s t u : Session} {index count i : Nat} {patch data : Value}
variable {origin : Option DocumentId}

def ids (s : Session) : List DocumentId := s.documents.map (·.id)

def parentsAt (s : Session) (index : Nat) : List DocumentId :=
  (s.documents[index]?.map (·.parents)).getD []

structure Numbered (s : Session) : Prop where
  nodup : s.ids.Nodup
  lt : ∀ id ∈ s.ids, id < s.nextId

theorem ids_merged : (s.merged index data origin).ids =
    s.ids ++ (List.range (index + 1 - s.documents.length)).map (s.nextId + ·) := by
  have hset : ∀ u : Session, (u.setData index data origin).ids = u.ids := by
    intro u
    refine List.ext_getElem? ?_
    intro j
    by_cases hj : index = j
    · subst hj
      cases hd : u.documents[index]? <;> simp [ids, setData, hd]
    · simp [ids, setData, hj]
  rw [merged, hset]
  simp [ids, pad]

theorem Numbered.merged (h : s.Numbered) : (s.merged index data origin).Numbered where
  nodup := by
    rw [ids_merged]
    -- What is filled in takes the next identifiers, all of them beyond those in use.
    refine List.nodup_append.mpr ⟨h.nodup, ?_, ?_⟩
    · exact List.Pairwise.map _ (fun _ _ hne he => hne (Nat.add_left_cancel he)) List.nodup_range
    · rintro a ha b hb rfl
      obtain ⟨j,_,rfl⟩ := List.mem_map.mp hb
      exact Nat.not_lt.mpr (Nat.le_add_right _ j) (h.lt _ ha)
  lt id hid := by
    have hnext : (s.merged index data origin).nextId =
        s.nextId + (index + 1 - s.documents.length) := rfl
    rw [ids_merged] at hid
    rw [hnext]
    rcases List.mem_append.mp hid with hid | hid
    · exact Nat.lt_add_right _ (h.lt id hid)
    · obtain ⟨j,hj,rfl⟩ := List.mem_map.mp hid
      exact Nat.add_lt_add_left (List.mem_range.mp hj) s.nextId

theorem parentsAt_setData (h : index < s.documents.length) :
    (s.setData index data origin).parentsAt i =
      s.parentsAt i ++ if i = index then origin.toList else [] := by
  by_cases hi : i = index
  · subst hi
    simp [parentsAt, setData, h]
  · simp [parentsAt, getElem?_setData_of_ne hi, hi]

theorem parentsAt_merged : (s.merged index data origin).parentsAt i =
    s.parentsAt i ++ if i = index then origin.toList else [] := by
  have hpad : (s.pad (index + 1)).parentsAt i = s.parentsAt i := read_pad fun _ => rfl
  rw [merged, parentsAt_setData lt_length_pad, hpad]

structure Merging where
  index : Nat
  patch : Value
  origin : Option DocumentId

/-- The merges that lead from one session to another. Identifiers may be taken in between. -/
inductive Applied : Session → List Merging → Session → Prop where
  | nil (s : Session) : Applied s [] s
  | merge {s t : Session} {m : Merging} {data : Value} {log : List Merging} :
      s.patchedAt m.index m.patch = .ok data → Applied (s.merged m.index data m.origin) log t →
      Applied s (m :: log) t
  | taken {s t : Session} {log : List Merging} (count : Nat) :
      Applied { s with nextId := s.nextId + count } log t → Applied s log t

def mergesInto (index : Nat) (log : List Merging) : List Merging := log.filter (·.index == index)

namespace Applied
variable {log log' : List Merging}

theorem trans (h : Applied s log t) (h' : Applied t log' u) : Applied s (log ++ log') u := by
  induction h with
  | nil => exact h'
  | merge hd _ ih => exact .merge hd (ih h')
  | taken count _ ih => exact .taken count (ih h')

theorem numbered (h : Applied s log t) (hs : s.Numbered) : t.Numbered := by
  induction h with
  | nil => exact hs
  | merge _ _ ih => exact ih hs.merged
  | taken count _ ih =>
    refine ih ⟨hs.nodup, ?_⟩
    intro id hid
    exact Nat.lt_add_right count (hs.lt id hid)

theorem ids_isPrefix (h : Applied s log t) : s.ids <+: t.ids := by
  induction h with
  | nil => exact List.prefix_refl _
  | merge _ _ ih =>
    rw [ids_merged] at ih
    exact (List.prefix_append _ _).trans ih
  | taken _ _ ih => exact ih

theorem parentsAt (h : Applied s log t) :
    t.parentsAt i = s.parentsAt i ++ (mergesInto i log).filterMap (·.origin) := by
  induction h with
  | nil => simp [mergesInto]
  | @merge s t m _ log _ _ ih =>
    rw [ih, parentsAt_merged, List.append_assoc]
    congr 1
    by_cases hm : m.index = i
    · cases ho : m.origin <;> simp [mergesInto, hm, ho]
    · simp [mergesInto, hm, Ne.symm hm]
  | taken _ _ ih => exact ih

end Applied

/-- At each document the merges are of patches from a list, in its order, with the identifiers that are
given there. -/
def Follows (log : List Merging) (patches : List (Value × Option DocumentId)) : Prop :=
  ∀ i, ((mergesInto i log).map fun m => (m.patch, m.origin)).Sublist patches

def Merges (patches : List (Value × Option DocumentId)) (edit : Edit α) : Prop :=
  ∀ s, ∃ log, Applied s log (perform edit s).2 ∧ Follows log patches

namespace Merges
variable {patches later : List (Value × Option DocumentId)}

theorem bind {x : Edit α} {f : α → Edit β} (hx : Merges patches x) (hf : ∀ a, Merges later (f a)) :
    Merges (patches ++ later) (x >>= f) := by
  intro s
  obtain ⟨log,hlog,hfollows⟩ := hx s
  rw [perform_bind]
  cases hr : perform x s with
  | mk r t =>
    rw [hr] at hlog
    cases r with
    | error e => exact ⟨log, hlog, fun i => (hfollows i).trans (List.sublist_append_left _ _)⟩
    | ok a =>
      obtain ⟨log',hlog',hfollows'⟩ := hf a t
      refine ⟨log ++ log', hlog.trans hlog', ?_⟩
      intro i
      simpa [mergesInto] using (hfollows i).append (hfollows' i)

theorem forM {xs : List α} {f : α → Edit PUnit} {source : α → List (Value × Option DocumentId)}
    (h : ∀ x ∈ xs, Merges (source x) (f x)) : Merges (xs.flatMap source) (xs.forM f) := by
  induction xs with
  | nil => exact fun s => ⟨[], .nil s, fun _ => List.nil_sublist _⟩
  | cons x rest ih =>
    rw [List.forM, List.flatMap_cons]
    exact (h x List.mem_cons_self).bind fun _ => ih fun y hy => h y (List.mem_cons_of_mem _ hy)

theorem labelledEdit {label : String} {edit : Edit α} (h : Merges patches edit) :
    Merges patches (labelledEdit label edit) := by
  intro s
  rw [perform_labelledEdit]
  exact h s

end Merges

/-- A run over several documents merges the patch into those before the first that refuses it. -/
theorem applied_forM_applyAt (targets : List Nat) (s : Session) :
    ∃ done : List Nat, done.Sublist targets ∧ Applied s (done.map fun i => ⟨i, patch, origin⟩)
      (perform (targets.forM fun i => applyAt i patch origin) s).2 := by
  induction targets generalizing s with
  | nil => exact ⟨[], List.Sublist.refl _, .nil s⟩
  | cons i rest ih =>
    rw [List.forM, perform_bind, perform_applyAt_merged]
    cases hd : s.patchedAt i patch with
    | error e => exact ⟨[], List.nil_sublist _, .nil s⟩
    | ok data =>
      obtain ⟨done,hsub,hlog⟩ := ih (s.merged i data origin)
      exact ⟨i :: done, hsub.cons_cons i, .merge hd hlog⟩

theorem merges_forM_applyAt {targets : List Nat} (hn : targets.Nodup) :
    Merges [(patch, origin)] (targets.forM fun i => applyAt i patch origin) := by
  intro s
  obtain ⟨done,hsub,hlog⟩ := applied_forM_applyAt targets s
  refine ⟨_, hlog, ?_⟩
  intro i
  have hinto : mergesInto i (done.map fun i => ⟨i, patch, origin⟩) =
      (done.filter (· == i)).map fun i => ⟨i, patch, origin⟩ := List.filter_map ..
  -- No position is met twice, so that the merges into one document are the patch or nothing.
  have hcount : done.count i ≤ 1 := List.nodup_iff_count.mp (hn.sublist hsub) i
  rw [hinto, List.filter_beq, List.map_map, List.map_replicate]
  exact (List.replicate_sublist_replicate (n := 1) _).mpr hcount

theorem merges_apply : Merges [((splitPattern patch).1, origin)] (apply index patch origin) := by
  intro s
  cases hp : splitPattern patch with
  | mk rest pattern =>
    cases pattern with
    | none =>
      have hone : [index].Nodup := List.pairwise_singleton _ index
      rw [perform_apply_of_none hp]
      simpa [List.forM] using merges_forM_applyAt hone s
    | some pattern =>
      rw [perform_apply_of_some hp]
      split
      · exact ⟨[], .nil s, fun _ => List.nil_sublist _⟩
      · exact merges_forM_applyAt matching_nodup s

/-- What the documents of a layer or of a session offer: their data without the pattern, each to be
recorded under the identifier of its document. -/
def offered (documents : List Document) : List (Value × Option DocumentId) :=
  documents.map fun d => ((splitPattern d.data).1, some d.id)

theorem merges_forM_documents {documents : List Document} {edit : Document × Nat → Edit Unit}
    (h : ∀ p, Merges (offered [p.1]) (edit p)) :
    Merges (offered documents) (documents.zipIdx.forM edit) := by
  have hall : Merges (documents.zipIdx.flatMap fun p => offered [p.1]) (documents.zipIdx.forM edit) :=
    .forM fun p _ => h p
  have hfst : documents.zipIdx.map (·.1) = documents := List.zipIdx_map_fst 0 documents
  have hoffered : (documents.zipIdx.flatMap fun p => offered [p.1]) =
      offered (documents.zipIdx.map (·.1)) := by
    simp [offered, List.map_eq_flatMap, List.flatMap_assoc]
  rwa [hoffered, hfst] at hall

theorem merges_mergeSession {other : Session} :
    Merges (offered other.documents) (mergeSession other) :=
  merges_forM_documents fun _ => merges_apply

theorem merges_mergeDocuments {path : String} {documents : List Document} :
    Merges (offered documents) (mergeDocuments path documents) :=
  merges_forM_documents fun _ => merges_apply.labelledEdit

def offeredByLayers (first : DocumentId) (layers : List Layer) : List (Value × Option DocumentId) :=
  (numberedLayers first layers).flatMap fun (_, documents) => offered documents

theorem applied_mergeLayers (layers : List Layer) (s : Session) :
    ∃ log, Applied s log (perform (mergeLayers layers) s).2 ∧
      Follows log (offeredByLayers s.nextId layers) := by
  have hmerges : Merges (offeredByLayers s.nextId layers)
      ((numberedLayers s.nextId layers).forM fun (path, documents) => mergeDocuments path documents) :=
    .forM fun _ _ => merges_mergeDocuments
  obtain ⟨log,hlog,hfollows⟩ := hmerges { s with nextId := s.nextId + documentCount layers }
  exact ⟨log, .taken _ hlog, hfollows⟩

/-- A change to a session, or the taking of identifiers for documents elsewhere. -/
inductive Step where
  | patch (index : Nat) (patch : Value)
  | session (other : Session)
  | layer (path : String) (documents : List Document)
  | file (files : FileView) (path : String)
  | fileLayers (files : FileView) (path : String)
  | elsewhere (count : Nat)

namespace Step

def edit : Step → Edit Unit
  | .patch index v => applyPatch index v
  | .session other => mergeSession other
  | .layer path documents => mergeDocuments path documents
  | .file files path => mergeFile files path
  | .fileLayers files path => mergeFileLayers files path
  | .elsewhere count => do
    let _ ← takeIds count

def patches (s : Session) : Step → List (Value × Option DocumentId)
  | .patch _ v => [((splitPattern v.canonical).1, none)]
  | .session other => offered other.documents
  | .layer _ documents => offered documents
  | .file files path =>
    match loadLayer files s.registry path with
    | .ok loaded => offeredByLayers s.nextId [loaded]
    | .error _ => []
  | .fileLayers files path =>
    match loadChain files s.registry path with
    | .ok chain => offeredByLayers s.nextId chain
    | .error _ => []
  | .elsewhere _ => []

theorem applied (step : Step) (s : Session) :
    ∃ log, Applied s log (perform step.edit s).2 ∧ Follows log (step.patches s) := by
  have hnothing : ∃ log, Applied s log s ∧ Follows log [] :=
    ⟨[], .nil s, fun _ => List.nil_sublist _⟩
  cases step with
  | patch index v => exact merges_apply s
  | session other => exact merges_mergeSession s
  | layer path documents => exact merges_mergeDocuments s
  | file files path =>
    simp only [edit, mergeFile, patches, perform_bind, perform_get, perform_mk_pure]
    cases loadLayer files s.registry path with
    | error e => exact hnothing
    | ok layer => exact applied_mergeLayers [layer] s
  | fileLayers files path =>
    simp only [edit, mergeFileLayers, patches, perform_bind, perform_get, perform_mk_pure]
    cases loadChain files s.registry path with
    | error e => exact hnothing
    | ok layers => exact applied_mergeLayers layers s
  | elsewhere count => exact ⟨[], .taken count (.nil _), fun _ => List.nil_sublist _⟩

end Step

def run (s : Session) (steps : List Step) : Session :=
  steps.foldl (fun s step => (perform step.edit s).2) s

theorem applied_run (steps : List Step) (s : Session) : ∃ log, Applied s log (s.run steps) := by
  induction steps generalizing s with
  | nil => exact ⟨[], .nil s⟩
  | cons step rest ih =>
    obtain ⟨log,hlog,_⟩ := step.applied s
    obtain ⟨later,hlater⟩ := ih (perform step.edit s).2
    exact ⟨log ++ later, hlog.trans hlater⟩

/-- At any time of a run no two documents have one identifier. Whatever follows, the documents keep their
places and identifiers, and what is recorded with them stays at the front of it. One step adds exactly the
identifiers of what it merged into a document, in the order of these merges. -/
theorem run_history (registry : Registry) (earlier : List Step) :
    let s := (empty registry).run earlier
    s.ids.Nodup ∧
      (∀ later, s.ids <+: (s.run later).ids ∧
        ∀ i, s.parentsAt i <+: (s.run later).parentsAt i) ∧
      ∀ step : Step, ∃ log, Applied s log (s.run [step]) ∧ ∀ i,
        (s.run [step]).parentsAt i = s.parentsAt i ++ (mergesInto i log).filterMap (·.origin) ∧
        ((mergesInto i log).map fun m => (m.patch, m.origin)).Sublist (step.patches s) := by
  intro s
  refine ⟨?_, ?_, ?_⟩
  · obtain ⟨log,hlog⟩ := applied_run earlier (empty registry)
    have hempty : (empty registry).Numbered := ⟨List.nodup_nil, fun _ hid => nomatch hid⟩
    exact (hlog.numbered hempty).nodup
  · intro later
    obtain ⟨log,hlog⟩ := applied_run later s
    refine ⟨hlog.ids_isPrefix, ?_⟩
    intro i
    rw [hlog.parentsAt]
    exact List.prefix_append _ _
  · intro step
    obtain ⟨log,hlog,hfollows⟩ := step.applied s
    exact ⟨log, hlog, fun i => ⟨hlog.parentsAt, hfollows i⟩⟩

end LayeredConfig.Session
