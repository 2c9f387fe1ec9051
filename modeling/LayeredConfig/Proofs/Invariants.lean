import LayeredConfig.Proofs.Canonical
import LayeredConfig.Proofs.Growth

/-! # Invariants of sessions

A property that merging into one document keeps is kept by every change to a session, be it a success
or a failure half-way.
-/
namespace LayeredConfig
variable {σ α β : Type} {P : σ → Prop}

def Keeps (P : σ → Prop) (x : ExceptT Error (StateM σ) α) : Prop := ∀ s, P s → P (perform x s).2

namespace Keeps

theorem bind {x : ExceptT Error (StateM σ) α} {f : α → ExceptT Error (StateM σ) β} (hx : Keeps P x)
    (hf : ∀ a, Keeps P (f a)) : Keeps P (x >>= f) := by
  intro s hs
  have hp := hx s hs
  rw [perform_bind]
  cases hr : perform x s with
  | mk r t =>
    rw [hr] at hp
    cases r with
    | error e => exact hp
    | ok a => exact hf a t hp

theorem forM {xs : List α} {f : α → ExceptT Error (StateM σ) PUnit} (h : ∀ x ∈ xs, Keeps P (f x)) :
    Keeps P (xs.forM f) := by
  induction xs with
  | nil => exact fun _ hs => hs
  | cons x rest ih =>
    rw [List.forM]
    exact (h x List.mem_cons_self).bind fun _ => ih fun y hy => h y (List.mem_cons_of_mem _ hy)

end Keeps

namespace Session
variable {P : Session → Prop} {s : Session} {index : Nat} {patch data : Value}
variable {origin : Option DocumentId}

theorem keeps_apply (h : ∀ i, Keeps P (applyAt i (splitPattern patch).1 origin)) :
    Keeps P (apply index patch origin) := by
  intro s hs
  cases hp : splitPattern patch with
  | mk rest pattern =>
    rw [hp] at h
    cases pattern with
    | none =>
      rw [perform_apply_of_none hp]
      exact h index s hs
    | some pattern =>
      have hrun : Keeps P ((s.matching pattern).forM fun i => applyAt i rest origin) := .forM fun i _ => h i
      rw [perform_apply_of_some hp]
      split
      · exact hs
      · exact hrun s hs

theorem perform_labelledEdit {label : String} {edit : Edit α} :
    perform (labelledEdit label edit) s = (labelled label (perform edit s).1, (perform edit s).2) := by
  unfold perform labelledEdit
  simp only [ExceptT.run_mk, StateT.run_bind]
  cases edit.run.run s with
  | mk r t => cases r <;> rfl

theorem keeps_labelledEdit {label : String} {edit : Edit α} (h : Keeps P edit) :
    Keeps P (labelledEdit label edit) := by
  intro s hs
  rw [perform_labelledEdit]
  exact h s hs

structure MergeClosed (Q : Value → Prop) : Prop where
  null : Q .null
  merge {dst src data : Value} : Q dst → Q src → LayeredConfig.merge dst src = .ok data → Q data

namespace MergeClosed
variable {Q : Value → Prop}

theorem keeps_applyAt (h : MergeClosed Q) (hp : Q patch) :
    Keeps (fun s => ∀ d ∈ s.documents, Q d.data) (applyAt index patch origin) := by
  intro s hs
  rw [perform_applyAt_merged]
  cases hm : s.patchedAt index patch with
  | error e => exact hs
  | ok data =>
    have hread : ∀ i, Q (s.dataAt i) := by
      intro i
      rw [dataAt]
      cases hd : s.documents[i]? with
      | none => exact h.null
      | some d => exact hs d (List.mem_of_getElem? hd)
    intro d hd
    obtain ⟨i,hi⟩ := List.mem_iff_getElem?.mp hd
    have hdata : (s.merged index data origin).dataAt i = d.data := by simp only [dataAt, hi]; rfl
    rw [← hdata, dataAt_merged]
    split
    · exact h.merge (hread index) hp (merge_of_patchedAt hm)
    · exact hread i

/-- Of a patch only what is left without its pattern gets into documents. -/
theorem keeps_apply (h : MergeClosed Q) (hp : Q (splitPattern patch).1) :
    Keeps (fun s => ∀ d ∈ s.documents, Q d.data) (apply index patch origin) :=
  Session.keeps_apply fun _ => h.keeps_applyAt hp

theorem keeps_mergeSession {other : Session} (h : MergeClosed Q)
    (ho : ∀ d ∈ other.documents, Q (splitPattern d.data).1) :
    Keeps (fun s => ∀ d ∈ s.documents, Q d.data) (mergeSession other) := by
  refine .forM ?_
  intro p hp
  exact h.keeps_apply (ho p.1 (List.fst_mem_of_mem_zipIdx hp))

theorem keeps_mergeDocuments {path : String} {documents : List Document} (h : MergeClosed Q)
    (hd : ∀ d ∈ documents, Q (splitPattern d.data).1) :
    Keeps (fun s => ∀ d ∈ s.documents, Q d.data) (mergeDocuments path documents) := by
  refine .forM ?_
  intro p hp
  exact keeps_labelledEdit (h.keeps_apply (hd p.1 (List.fst_mem_of_mem_zipIdx hp)))

end MergeClosed

def Ordered (s : Session) : Prop := ∀ d ∈ s.documents, d.data.Ordered

namespace Ordered

theorem splitPattern (hp : patch.Ordered) : (splitPattern patch).1.Ordered := by
  cases patch with
  | map fields => exact hp.erase
  | _ => exact hp

end Ordered
end Session
end LayeredConfig
