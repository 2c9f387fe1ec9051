import LayeredConfig.Value.Basic

/-! # Fields as finite maps

Fields in ascending order are determined by their lookups. Insertion and deletion change the lookup of
one key and keep the order, so that nothing else needs to be known of how fields are stored.
-/
namespace LayeredConfig.Fields
variable {key k : String} {v w : Value} {fields gs : Fields}

@[simp] theorem get?_nil : get? key [] = none := rfl

theorem get?_cons : get? key ((k, v) :: fields) = if k = key then some v else get? key fields := rfl

theorem mem_of_get? (h : get? key fields = some v) : (key, v) ∈ fields := by
  induction fields with
  | nil => simp at h
  | cons p rest ih =>
    obtain ⟨l,x⟩ := p
    rw [get?_cons] at h
    split at h
    · next hl =>
      cases h
      rw [hl]
      exact List.mem_cons_self
    · exact List.mem_cons_of_mem _ (ih h)

theorem get?_eq_none_iff : get? key fields = none ↔ ∀ v, (key, v) ∉ fields := by
  induction fields with
  | nil => simp
  | cons p rest ih =>
    obtain ⟨l,x⟩ := p
    rw [get?_cons]
    by_cases hl : l = key
    · subst hl
      simp only [if_pos, reduceCtorEq, List.mem_cons, Prod.mk.injEq, true_and, not_or, false_iff]
      intro h
      exact (h x).1 rfl
    · simp only [if_neg hl, ih, List.mem_cons, Prod.mk.injEq, Ne.symm hl, false_and, false_or]

theorem forall_mem_cons {P : String → Value → Prop} :
    (∀ key w, (key, w) ∈ (k, v) :: fields → P key w) ↔ P k v ∧ ∀ key w, (key, w) ∈ fields → P key w := by
  constructor
  · intro h
    exact ⟨h k v List.mem_cons_self, fun key w hw => h key w (List.mem_cons_of_mem _ hw)⟩
  · rintro ⟨hv,hrest⟩ key w hw
    rcases List.mem_cons.mp hw with he | hw
    · cases he
      exact hv
    · exact hrest key w hw

namespace Ascending

theorem nil : Ascending [] := List.Pairwise.nil

theorem cons_iff : Ascending ((k, v) :: fields) ↔ (∀ p ∈ fields, k < p.1) ∧ Ascending fields :=
  List.pairwise_cons

theorem tail (h : Ascending ((k, v) :: fields)) : Ascending fields := (cons_iff.mp h).2

theorem lt_of_append (h : Ascending (fields ++ (key, v) :: gs)) : ∀ p ∈ fields, p.1 < key :=
  fun p hp => (List.pairwise_append.mp h).2.2 p hp _ List.mem_cons_self

/-- The key of the first field does not stand in the rest. -/
theorem get?_tail (h : Ascending ((k, v) :: fields)) : get? k fields = none :=
  get?_eq_none_iff.mpr fun _ hw => String.lt_irrefl k ((cons_iff.mp h).1 _ hw)

end Ascending

theorem get?_eq_some_iff (h : Ascending fields) : get? key fields = some v ↔ (key, v) ∈ fields := by
  refine ⟨mem_of_get?, ?_⟩
  intro hm
  induction fields with
  | nil => simp at hm
  | cons p rest ih =>
    obtain ⟨l,x⟩ := p
    rw [get?_cons]
    rcases List.mem_cons.mp hm with he | hm
    · cases he
      exact if_pos rfl
    · have hlt : l < key := (Ascending.cons_iff.mp h).1 _ hm
      have hne : l ≠ key := fun he => String.lt_irrefl key (he ▸ hlt)
      rw [if_neg hne]
      exact ih h.tail hm

@[simp] theorem get?_insert :
    get? k (insert key v fields) = if key = k then some v else get? k fields := by
  induction fields with
  | nil => rfl
  | cons p rest ih =>
    obtain ⟨l,x⟩ := p
    simp only [insert]
    by_cases hl : key = l
    · subst hl
      simp only [if_true, get?_cons]
      split <;> rfl
    · by_cases hlt : key < l
      · simp only [if_neg hl, if_pos hlt, get?_cons]
      · simp only [if_neg hl, if_neg hlt, get?_cons, ih]
        by_cases hk : l = k
        · have hkey : key ≠ k := fun he => hl (he.trans hk.symm)
          simp only [if_pos hk, if_neg hkey]
        · simp only [if_neg hk]

theorem get?_erase_of_ne (h : k ≠ key) : get? k (erase key fields) = get? k fields := by
  induction fields with
  | nil => rfl
  | cons p rest ih =>
    obtain ⟨l,x⟩ := p
    simp only [erase]
    by_cases hl : l = key
    · have hlk : l ≠ k := fun he => h (he.symm.trans hl)
      simp only [if_pos hl, get?_cons, if_neg hlk]
    · simp only [if_neg hl, get?_cons, ih]

theorem get?_erase_self (h : Ascending fields) : get? key (erase key fields) = none := by
  induction fields with
  | nil => rfl
  | cons p rest ih =>
    obtain ⟨l,x⟩ := p
    simp only [erase]
    by_cases hl : l = key
    · subst hl
      rw [if_pos rfl]
      exact h.get?_tail
    · rw [if_neg hl, get?_cons, if_neg hl]
      exact ih h.tail

theorem get?_erase (h : Ascending fields) :
    get? k (erase key fields) = if key = k then none else get? k fields := by
  split
  · next hk =>
    subst hk
    exact get?_erase_self h
  · next hk => exact get?_erase_of_ne (Ne.symm hk)

theorem erase_eq_self (h : get? key fields = none) : erase key fields = fields := by
  induction fields with
  | nil => rfl
  | cons p rest ih =>
    obtain ⟨l,x⟩ := p
    rw [get?_cons] at h
    split at h
    · cases h
    · next hl => simp only [erase, if_neg hl, ih h]

theorem mem_insert {p : String × Value} (h : p ∈ insert key v fields) :
    p = (key, v) ∨ p ∈ fields := by
  induction fields with
  | nil => exact Or.inl (List.mem_singleton.mp h)
  | cons q rest ih =>
    obtain ⟨l,x⟩ := q
    simp only [insert] at h
    split at h
    · rcases List.mem_cons.mp h with h | h
      · exact Or.inl h
      · exact Or.inr (List.mem_cons_of_mem _ h)
    · split at h
      · exact List.mem_cons.mp h
      · rcases List.mem_cons.mp h with h | h
        · exact Or.inr (h ▸ List.mem_cons_self)
        · exact (ih h).imp_right (List.mem_cons_of_mem _)

theorem erase_sublist : (erase key fields).Sublist fields := by
  induction fields with
  | nil => exact List.Sublist.refl _
  | cons p rest ih =>
    obtain ⟨l,x⟩ := p
    simp only [erase]
    split
    · exact List.sublist_cons_self _ _
    · exact ih.cons_cons _

theorem mem_erase {p : String × Value} (h : p ∈ erase key fields) : p ∈ fields :=
  erase_sublist.subset h

/-- A key stands once, so that deletion removes it. -/
theorem ne_of_mem_erase (h : Ascending fields) (hm : (k, v) ∈ erase key fields) : k ≠ key := by
  intro he
  subst he
  exact get?_eq_none_iff.mp (get?_erase_self h) v hm

theorem Ascending.erase (h : Ascending fields) : Ascending (erase key fields) :=
  List.Pairwise.sublist erase_sublist h

theorem Ascending.insert (h : Ascending fields) : Ascending (insert key v fields) := by
  induction fields with
  | nil => exact cons_iff.mpr ⟨by simp, Ascending.nil⟩
  | cons p rest ih =>
    obtain ⟨l,x⟩ := p
    obtain ⟨hl,hrest⟩ := cons_iff.mp h
    simp only [Fields.insert]
    split
    · next he =>
      subst he
      exact cons_iff.mpr ⟨hl, hrest⟩
    · next hne =>
      split
      · next hlt =>
        refine cons_iff.mpr ⟨?_, h⟩
        intro q hq
        rcases List.mem_cons.mp hq with rfl | hq
        · exact hlt
        · exact String.lt_trans hlt (hl q hq)
      · next hnlt =>
        refine cons_iff.mpr ⟨?_, ih hrest⟩
        intro q hq
        rcases mem_insert hq with rfl | hq
        · exact Std.lt_of_le_of_ne (String.not_lt.mp hnlt) (Ne.symm hne)
        · exact hl q hq

def put (key : String) (o : Option Value) (fields : Fields) : Fields :=
  o.elim (erase key fields) (insert key · fields)

theorem get?_put {o : Option Value} (h : Ascending fields) :
    get? k (put key o fields) = if key = k then o else get? k fields := by
  cases o with
  | none => exact get?_erase h
  | some v => exact get?_insert

theorem Ascending.put {o : Option Value} (h : Ascending fields) : Ascending (put key o fields) := by
  cases o with
  | none => exact h.erase
  | some v => exact h.insert

/-- Fields in ascending order that answer every lookup alike are the same. -/
theorem ext (hf : Ascending fields) (hg : Ascending gs)
    (h : ∀ key, get? key fields = get? key gs) : fields = gs := by
  induction fields generalizing gs with
  | nil =>
    cases gs with
    | nil => rfl
    | cons q gs =>
      obtain ⟨l,w⟩ := q
      simpa [get?_cons] using h l
  | cons p rest ih =>
    obtain ⟨k,v⟩ := p
    cases gs with
    | nil => simpa [get?_cons] using h k
    | cons q gs =>
      obtain ⟨l,w⟩ := q
      have hkl : k = l := by
        have hk : (k, v) ∈ (l, w) :: gs := mem_of_get? ((h k).symm.trans (if_pos rfl))
        have hl : (l, w) ∈ (k, v) :: rest := mem_of_get? ((h l).trans (if_pos rfl))
        rcases List.mem_cons.mp hk with hk | hk
        · exact congrArg Prod.fst hk
        · rcases List.mem_cons.mp hl with hl | hl
          · exact (congrArg Prod.fst hl).symm
          · have hlk := (Ascending.cons_iff.mp hg).1 _ hk
            exact absurd ((Ascending.cons_iff.mp hf).1 _ hl) (String.lt_asymm hlk)
      subst hkl
      have hv : v = w := by simpa [get?_cons] using h k
      have hrest : rest = gs := by
        refine ih hf.tail hg.tail ?_
        intro key
        by_cases hk : k = key
        · subst hk
          rw [hf.get?_tail, hg.get?_tail]
        · simpa only [get?_cons, if_neg hk] using h key
      rw [hv, hrest]

/-- A field that is taken out and put back stands where it stood. -/
theorem insert_erase (h : Ascending fields) (hv : get? key fields = some v) :
    insert key v (erase key fields) = fields := by
  refine ext h.erase.insert h ?_
  intro k
  rw [get?_insert, get?_erase h]
  by_cases hk : key = k
  · rw [if_pos hk, ← hk, hv]
  · rw [if_neg hk, if_neg hk]

theorem erase_insert (h : Ascending fields) (hn : get? key fields = none) :
    erase key (insert key v fields) = fields := by
  refine ext h.insert.erase h ?_
  intro k
  rw [get?_erase h.insert, get?_insert]
  by_cases hk : key = k
  · rw [if_pos hk, ← hk, hn]
  · rw [if_neg hk, if_neg hk]

theorem get?_append_cons (h : key ≠ k) :
    get? k (fields ++ (key, v) :: gs) = get? k (fields ++ (key, w) :: gs) := by
  induction fields with
  | nil => simp [get?_cons, h]
  | cons p rest ih =>
    obtain ⟨l,x⟩ := p
    simp only [List.cons_append, get?_cons, ih]

/-- A field stays among its neighbours when another is taken out. -/
theorem erase_append_cons (h : key ≠ k) (fields gs : Fields) :
    ∃ fields' gs' : Fields, ∀ v, erase k (fields ++ (key, v) :: gs) = fields' ++ (key, v) :: gs' := by
  induction fields with
  | nil => exact ⟨[], erase k gs, fun v => by simp [erase, h]⟩
  | cons p rest ih =>
    obtain ⟨l,x⟩ := p
    by_cases hl : l = k
    · exact ⟨rest, gs, fun v => by simp [erase, hl]⟩
    · obtain ⟨rest',gs',he⟩ := ih
      exact ⟨(l, x) :: rest', gs', fun v => by simp [erase, hl, he]⟩

/-- A field with a greater key than all others comes last. -/
theorem insert_last (h : ∀ p ∈ fields, p.1 < key) : insert key v fields = fields ++ [(key, v)] := by
  induction fields with
  | nil => rfl
  | cons p rest ih =>
    obtain ⟨l,x⟩ := p
    obtain ⟨hl,hrest⟩ := List.forall_mem_cons.mp h
    have hne : key ≠ l := fun he => String.lt_irrefl l (he ▸ hl)
    simp only [insert, if_neg hne, if_neg (String.lt_asymm hl), ih hrest, List.cons_append]

end LayeredConfig.Fields
