import LayeredConfig.Proofs.Encoders

/-! # What the built-in decoders give

A reader puts each field of a map in its place among those already read, so the values that it gives have
their keys in order. With the canonical form, which every decoder brings about, this is the contract of a
format.
-/
namespace LayeredConfig
variable {v : Value} {items acc : List Value} {fields : Fields} {fuel depth : Nat} {cs rest : List Char}

def Value.IsDecoded (v : Value) : Prop := ∃ u : Value, u.Ordered ∧ v = u.canonical

def Format.Canonicalizes (f : Format) : Prop := ∀ text vs, f.decode text = .ok vs → ∀ v ∈ vs, v.IsDecoded

def Registry.Canonicalizes (r : Registry) : Prop := ∀ p ∈ r.formats, p.2.Canonicalizes

theorem Registry.Canonicalizes.of_get {r : Registry} {name : String} {f : Format} (hr : r.Canonicalizes)
    (h : r.get name = .ok f) : f.Canonicalizes := by
  obtain ⟨p,hp,rfl⟩ := Registry.mem_of_get h
  exact hr p hp

theorem Value.isLeaf_of_integer? {i : Int} (h : Value.integer? i = some v) : v.isLeaf = true := by
  obtain ⟨n,_,rfl⟩ := Option.map_eq_some_iff.mp h
  rfl

namespace Json

structure ReadsOrdered (fuel : Nat) : Prop where
  value {depth : Nat} {cs rest : List Char} {v : Value} : readValue fuel depth cs = some (v, rest) → v.Ordered
  items {depth : Nat} {cs rest : List Char} {acc items : List Value} : (∀ v ∈ acc, v.Ordered) →
    readItems fuel depth acc cs = some (items, rest) → ∀ v ∈ items, v.Ordered
  fields {depth : Nat} {cs rest : List Char} {acc fields : Fields} : (Value.map acc).Ordered →
    readFields fuel depth acc cs = some (fields, rest) → (Value.map fields).Ordered

theorem readValue_ordered (ih : ReadsOrdered fuel) (h : readValue (fuel + 1) depth cs = some (v, rest)) :
    v.Ordered := by
  rw [readValue] at h
  split at h
  case h_4 =>
    obtain ⟨⟨text,_⟩,_,he⟩ := Option.map_eq_some_iff.mp h
    cases he
    trivial
  case h_5 =>
    split at h
    · cases h
    split at h
    · cases h
      trivial
    · obtain ⟨⟨items,_⟩,hread,he⟩ := Option.map_eq_some_iff.mp h
      cases he
      exact Value.ordered_list.mpr (ih.items (List.forall_mem_nil _) hread)
  case h_6 =>
    split at h
    · cases h
    split at h
    · cases h
      exact Value.ordered_map_nil
    · obtain ⟨⟨fields,_⟩,hread,he⟩ := Option.map_eq_some_iff.mp h
      cases he
      exact ih.fields Value.ordered_map_nil hread
  case h_7 =>
    obtain ⟨⟨n,_⟩,_,he⟩ := Option.map_eq_some_iff.mp h
    cases he
    trivial
  all_goals
    cases h
    trivial

theorem readItems_ordered (ih : ReadsOrdered fuel) (hacc : ∀ v ∈ acc, v.Ordered)
    (h : readItems (fuel + 1) depth acc cs = some (items, rest)) : ∀ v ∈ items, v.Ordered := by
  rw [readItems] at h
  obtain ⟨⟨v,cs'⟩,hread,h⟩ := Option.bind_eq_some_iff.mp h
  dsimp only at h
  have hall : ∀ w ∈ v :: acc, w.Ordered := List.forall_mem_cons.mpr ⟨ih.value hread, hacc⟩
  split at h
  · exact ih.items hall h
  · cases h
    exact fun w hw => hall w (List.mem_reverse.mp hw)
  · cases h

theorem readFields_ordered {acc : Fields} (ih : ReadsOrdered fuel) (hacc : (Value.map acc).Ordered)
    (h : readFields (fuel + 1) depth acc cs = some (fields, rest)) : (Value.map fields).Ordered := by
  rw [readFields] at h
  split at h
  · obtain ⟨⟨key,cs'⟩,_,h⟩ := Option.bind_eq_some_iff.mp h
    dsimp only at h
    split at h
    · obtain ⟨⟨v,cs''⟩,hread,h⟩ := Option.bind_eq_some_iff.mp h
      dsimp only at h
      have hinsert : (Value.map (Fields.insert key v acc)).Ordered := hacc.insert (ih.value hread)
      split at h
      · exact ih.fields hinsert h
      · cases h
        exact hinsert
      · cases h
    · cases h
  · cases h

theorem readsOrdered (fuel : Nat) : ReadsOrdered fuel := by
  induction fuel with
  | zero => exact ⟨fun h => (by cases h), fun _ h => (by cases h), fun _ h => (by cases h)⟩
  | succ fuel ih => exact ⟨readValue_ordered ih, readItems_ordered ih, readFields_ordered ih⟩

theorem readStream_ordered (h : readStream fuel cs = some items) : ∀ v ∈ items, v.Ordered := by
  induction fuel generalizing cs items with
  | zero => cases h
  | succ fuel ih =>
    rw [readStream] at h
    split at h
    · cases h
      exact List.forall_mem_nil _
    · obtain ⟨⟨v,rest⟩,hread,h⟩ := Option.bind_eq_some_iff.mp h
      dsimp only at h
      split at h
      · obtain ⟨vs,hvs,h⟩ := Option.bind_eq_some_iff.mp h
        cases h
        exact List.forall_mem_cons.mpr ⟨(readsOrdered _).value hread, ih hvs⟩
      · cases h

end Json

namespace Yaml
variable {α β : Type} {m n k : Nat} {b : β} {anchors : Anchors} {node : Linked}

theorem run_bind_eq_some_iff {x : Reading α} {f : α → Reading β} :
    (x >>= f).run n = some (b, k) ↔ ∃ a m, x.run n = some (a, m) ∧ (f a).run m = some (b, k) := by
  simp only [StateT.run_bind, Option.bind_eq_bind, Option.bind_eq_some_iff, Prod.exists]

/-- Each result of a walk through a list comes from one of its elements. -/
theorem mem_of_mapM {f : α → Reading β} {xs : List α} {ys : List β} (h : (xs.mapM f).run n = some (ys, k)) :
    ∀ y ∈ ys, ∃ x ∈ xs, ∃ i j, (f x).run i = some (y, j) := by
  induction xs generalizing n ys with
  | nil =>
    cases h
    exact List.forall_mem_nil _
  | cons x xs ih =>
    rw [List.mapM_cons] at h
    obtain ⟨y,m,hy,h⟩ := run_bind_eq_some_iff.mp h
    obtain ⟨rest,l,hrest,h⟩ := run_bind_eq_some_iff.mp h
    cases h
    refine List.forall_mem_cons.mpr ⟨⟨x, List.mem_cons_self, n, m, hy⟩, ?_⟩
    intro z hz
    obtain ⟨w,hw,hz⟩ := ih hrest z hz
    exact ⟨w, List.mem_cons_of_mem _ hw, hz⟩

theorem mem_of_mapM_option {f : α → Option β} {xs : List α} {ys : List β} (h : xs.mapM f = some ys) :
    ∀ y ∈ ys, ∃ x ∈ xs, f x = some y := by
  induction xs generalizing ys with
  | nil =>
    cases h
    exact List.forall_mem_nil _
  | cons x xs ih =>
    rw [List.mapM_cons] at h
    obtain ⟨y,hy,h⟩ := Option.bind_eq_some_iff.mp h
    obtain ⟨rest,hrest,h⟩ := Option.bind_eq_some_iff.mp h
    cases h
    refine List.forall_mem_cons.mpr ⟨⟨x, List.mem_cons_self, hy⟩, ?_⟩
    intro z hz
    obtain ⟨w,hw,hz⟩ := ih hrest z hz
    exact ⟨w, List.mem_cons_of_mem _ hw, hz⟩

theorem bareValue?_isLeaf {text : List Char} (h : bareValue? text = some v) : v.isLeaf = true := by
  rw [bareValue?] at h
  split at h
  case h_3 => exact Value.isLeaf_of_integer? h
  case h_4 x _ =>
    cases h
    cases x <;> rfl
  all_goals
    cases h
    rfl

theorem scalarValue?_isLeaf {tag : Option (List Char)} {bare : Bool} {text : List Char}
    (h : scalarValue? tag bare text = some v) : v.isLeaf = true := by
  rw [scalarValue?] at h
  split at h
  · split at h
    · exact bareValue?_isLeaf h
    · cases h
      rfl
  · split at h
    · cases h
      rfl
    split at h <;> cases h
    rfl
  · obtain ⟨i,_,hi⟩ := Option.bind_eq_some_iff.mp h
    exact Value.isLeaf_of_integer? hi
  · obtain ⟨x,_,rfl⟩ := Option.map_eq_some_iff.mp h
    cases x <;> rfl
  · split at h <;> cases h
    rfl
  · split at h <;> cases h
    rfl

theorem ofList_ordered {pairs : List (String × Value)} (h : ∀ p ∈ pairs, p.2.Ordered) :
    (Value.map (Fields.ofList pairs)).Ordered := by
  rw [Fields.ofList]
  refine List.foldlRecOn (motive := fun fields => (Value.map fields).Ordered) pairs _
    Value.ordered_map_nil ?_
  intro fields hf p hp
  exact hf.insert (h p hp)

theorem eq_some_of_run_getM {o : Option α} {a : α} (h : (o.getM : Reading α).run n = some (a, k)) : o = some a := by
  cases o with
  | none => cases h
  | some b =>
    cases h
    rfl

theorem readLinked_ordered (h : (readLinked anchors depth node).run n = some (v, k)) : v.Ordered := by
  induction depth generalizing node v n k with
  | zero =>
    rw [readLinked] at h
    obtain ⟨node,m,_,h⟩ := run_bind_eq_some_iff.mp h
    cases node with
    | scalar tag bare text =>
      exact Value.ordered_of_isLeaf (scalarValue?_isLeaf (eq_some_of_run_getM h))
    | _ => cases h
  | succ depth ih =>
    rw [readLinked] at h
    obtain ⟨node,m,_,h⟩ := run_bind_eq_some_iff.mp h
    cases node with
    | scalar tag bare text =>
      exact Value.ordered_of_isLeaf (scalarValue?_isLeaf (eq_some_of_run_getM h))
    | sequence tag items =>
      dsimp only at h
      split at h
      · cases h
      · rw [map_eq_pure_bind] at h
        obtain ⟨values,l,hvalues,h⟩ := run_bind_eq_some_iff.mp h
        cases h
        refine Value.ordered_list.mpr ?_
        intro v hv
        obtain ⟨item,_,i,j,hread⟩ := mem_of_mapM hvalues v hv
        exact ih hread
    | mapping tag fields =>
      dsimp only at h
      split at h
      · cases h
      · obtain ⟨pairs,l,hpairs,h⟩ := run_bind_eq_some_iff.mp h
        cases h
        refine ofList_ordered ?_
        intro p hp
        obtain ⟨⟨key,node⟩,_,i,j,hread⟩ := mem_of_mapM hpairs p hp
        obtain ⟨text,_,_,hread⟩ := run_bind_eq_some_iff.mp hread
        obtain ⟨v,_,hv,hread⟩ := run_bind_eq_some_iff.mp hread
        cases hread
        exact ih hv
    | _ => cases h

theorem documents?_ordered {text : String} (h : documents? text = some items) : ∀ v ∈ items, v.Ordered := by
  rw [documents?] at h
  obtain ⟨tokens,_,h⟩ := Option.bind_eq_some_iff.mp h
  obtain ⟨nodes,_,h⟩ := Option.bind_eq_some_iff.mp h
  split at h
  · cases h
    exact List.forall_mem_singleton.mpr trivial
  · intro v hv
    obtain ⟨node,_,hread⟩ := mem_of_mapM_option h v hv
    obtain ⟨⟨linked,anchors⟩,_,hread⟩ := Option.bind_eq_some_iff.mp hread
    obtain ⟨⟨w,_⟩,hw,hread⟩ := Option.bind_eq_some_iff.mp hread
    cases hread
    exact readLinked_ordered hw

end Yaml

namespace Toml
variable {key : String} {path : List String} {item : Item} {entries new : Entries} {change : Change}
variable {made origin : Origin}

inductive Item.Ordered : Item → Prop where
  | leaf {v : Value} : v.Ordered → Ordered (.leaf v)
  | table {entries : Entries} (origin : Origin) : (∀ key item, (key, item) ∈ entries → item.Ordered) →
      Ordered (.table origin entries)
  | tables {elements : List Entries} :
      (∀ entries ∈ elements, ∀ key item, (key, item) ∈ entries → item.Ordered) → Ordered (.tables elements)

namespace Entries

def Ordered (entries : Entries) : Prop := ∀ key item, (key, item) ∈ entries → item.Ordered

theorem Ordered.nil : Ordered [] := fun _ _ h => nomatch h

theorem mem_insert {p : String × Item} (h : p ∈ insert key item entries) : p = (key, item) ∨ p ∈ entries := by
  induction entries with
  | nil => exact Or.inl (List.mem_singleton.mp h)
  | cons q rest ih =>
    obtain ⟨k,i⟩ := q
    rw [insert] at h
    split at h
    · rcases List.mem_cons.mp h with h | h
      · exact Or.inl h
      · exact Or.inr (List.mem_cons_of_mem _ h)
    · rcases List.mem_cons.mp h with h | h
      · exact Or.inr (h ▸ List.mem_cons_self)
      · exact (ih h).imp_right (List.mem_cons_of_mem _)

theorem Ordered.insert (h : Ordered entries) (hi : item.Ordered) : Ordered (insert key item entries) := by
  intro k i hk
  rcases mem_insert hk with he | hk
  · cases he
    exact hi
  · exact h k i hk

theorem Ordered.lookup (h : Ordered entries) (hi : entries.lookup key = some item) : item.Ordered := by
  obtain ⟨before,after,rfl,_⟩ := List.lookup_eq_some_iff.mp hi
  exact h key item (by simp)

def KeepsOrder (change : Change) : Prop :=
  ∀ origin entries new, Ordered entries → change origin entries = some new → Ordered new

theorem keepsOrder_within (h : KeepsOrder change) : KeepsOrder (within made change path) := by
  -- Along the path, each table is put back with the one below it changed.
  induction path with
  | nil => exact h
  | cons key path ih =>
    intro origin entries new hentries hnew
    rw [within] at hnew
    split at hnew
    · obtain ⟨inner,hinner,rfl⟩ := Option.map_eq_some_iff.mp hnew
      exact hentries.insert (.table _ (ih _ _ _ .nil hinner))
    · cases hnew
    · next hlookup =>
      split at hnew
      · cases hnew
      · obtain ⟨inner,hinner,rfl⟩ := Option.map_eq_some_iff.mp hnew
        cases hentries.lookup hlookup with
        | table _ h => exact hentries.insert (.table _ (ih _ _ _ h hinner))
    · cases hnew
    · next hlookup =>
      obtain ⟨inner,hinner,rfl⟩ := Option.map_eq_some_iff.mp hnew
      cases hentries.lookup hlookup with
      | tables h =>
        obtain ⟨hlast,hbefore⟩ := List.forall_mem_cons.mp h
        exact hentries.insert (.tables (List.forall_mem_cons.mpr ⟨ih _ _ _ hlast hinner, hbefore⟩))

theorem keepsOrder_addField (hv : v.Ordered) : KeepsOrder (addField path key v) := by
  refine keepsOrder_within ?_
  intro origin entries new hentries hnew
  rw [define] at hnew
  split at hnew <;> cases hnew
  exact hentries.insert (.leaf hv)

theorem keepsOrder_openTable : KeepsOrder (openTable key) := by
  intro origin entries new hentries hnew
  rw [openTable] at hnew
  split at hnew
  · cases hnew
    exact hentries.insert (.table _ Ordered.nil)
  · next hlookup =>
    cases hnew
    cases hentries.lookup hlookup with
    | table _ h => exact hentries.insert (.table _ h)
  · cases hnew

theorem keepsOrder_openElement : KeepsOrder (openElement key) := by
  intro origin entries new hentries hnew
  rw [openElement] at hnew
  split at hnew
  · cases hnew
    exact hentries.insert (.tables (List.forall_mem_singleton.mpr Ordered.nil))
  · next hlookup =>
    cases hnew
    cases hentries.lookup hlookup with
    | tables h => exact hentries.insert (.tables (List.forall_mem_cons.mpr ⟨Ordered.nil, h⟩))
  · cases hnew

end Entries

theorem entriesFields_ordered (h : ∀ key item, (key, item) ∈ entries → item.value.Ordered) :
    (Value.map (entriesFields entries)).Ordered := by
  induction entries with
  | nil => exact Value.ordered_map_nil
  | cons p rest ih =>
    obtain ⟨key,item⟩ := p
    have hrest := ih fun k i hk => h k i (List.mem_cons_of_mem _ hk)
    exact hrest.insert (h key item List.mem_cons_self)

theorem elementValues_eq_map {elements : List Entries} :
    elementValues elements = elements.map fun entries => .map (entriesFields entries) := by
  induction elements with
  | nil => rfl
  | cons entries rest ih => rw [elementValues, ih, List.map_cons]

theorem Item.Ordered.value (h : item.Ordered) : item.value.Ordered := by
  induction h with
  | leaf hv => exact hv
  | table _ _ ih => exact entriesFields_ordered ih
  | tables _ ih =>
    rw [Item.value, elementValues_eq_map]
    refine Value.ordered_list.mpr ?_
    intro v hv
    obtain ⟨entries,hentries,rfl⟩ := List.mem_map.mp (List.mem_reverse.mp hv)
    exact entriesFields_ordered (ih entries hentries)

theorem Entries.Ordered.map_ordered (h : Ordered entries) : (Value.map (entriesFields entries)).Ordered :=
  entriesFields_ordered fun key item hi => (h key item hi).value

theorem scalar?_isLeaf (h : scalar? cs = some v) : v.isLeaf = true := by
  rw [scalar?] at h
  split at h
  · cases h
    rfl
  split at h
  · cases h
    rfl
  split at h
  · cases h
    rfl
  split at h
  · cases h
    rfl
  split at h
  · exact Value.isLeaf_of_integer? h
  · obtain ⟨x,_,rfl⟩ := Option.map_eq_some_iff.mp h
    rfl

structure ReadsOrdered (fuel : Nat) : Prop where
  value {depth : Nat} {cs rest : List Char} {v : Value} : readValue fuel depth cs = some (v, rest) → v.Ordered
  items {depth : Nat} {cs rest : List Char} {acc items : List Value} : (∀ v ∈ acc, v.Ordered) →
    readItems fuel depth acc cs = some (items, rest) → ∀ v ∈ items, v.Ordered
  entries {depth : Nat} {cs rest : List Char} {acc entries : Entries} : acc.Ordered →
    readEntries fuel depth acc cs = some (entries, rest) → entries.Ordered

theorem readValue_ordered (ih : ReadsOrdered fuel) (h : readValue (fuel + 1) depth cs = some (v, rest)) :
    v.Ordered := by
  rw [readValue.eq_def] at h
  dsimp only at h
  split at h
  · obtain ⟨⟨text,_⟩,_,he⟩ := Option.map_eq_some_iff.mp h
    cases he
    trivial
  split at h
  · cases h
  · cases h
  · obtain ⟨⟨items,_⟩,hread,he⟩ := Option.map_eq_some_iff.mp h
    cases he
    exact Value.ordered_list.mpr (ih.items (List.forall_mem_nil _) hread)
  · obtain ⟨⟨entries,_⟩,hread,he⟩ := Option.map_eq_some_iff.mp h
    cases he
    exact (ih.entries Entries.Ordered.nil hread).map_ordered
  · obtain ⟨w,hw,he⟩ := Option.map_eq_some_iff.mp h
    cases he
    exact Value.ordered_of_isLeaf (scalar?_isLeaf hw)

theorem readItems_ordered (ih : ReadsOrdered fuel) (hacc : ∀ v ∈ acc, v.Ordered)
    (h : readItems (fuel + 1) depth acc cs = some (items, rest)) : ∀ v ∈ items, v.Ordered := by
  rw [readItems] at h
  obtain ⟨cs',_,h⟩ := Option.bind_eq_some_iff.mp h
  split at h
  · cases h
    exact fun w hw => hacc w (List.mem_reverse.mp hw)
  · obtain ⟨⟨v,_⟩,hread,h⟩ := Option.bind_eq_some_iff.mp h
    have hall : ∀ w ∈ v :: acc, w.Ordered := List.forall_mem_cons.mpr ⟨ih.value hread, hacc⟩
    obtain ⟨_,_,h⟩ := Option.bind_eq_some_iff.mp h
    split at h
    · exact ih.items hall h
    · cases h
      exact fun w hw => hall w (List.mem_reverse.mp hw)
    · cases h

theorem readEntries_ordered (ih : ReadsOrdered fuel) (hentries : entries.Ordered)
    (h : readEntries (fuel + 1) depth entries cs = some (new, rest)) : new.Ordered := by
  rw [readEntries] at h
  obtain ⟨cs',_,h⟩ := Option.bind_eq_some_iff.mp h
  split at h
  · cases h
    exact hentries
  · obtain ⟨⟨path,key,_⟩,_,h⟩ := Option.bind_eq_some_iff.mp h
    obtain ⟨⟨v,_⟩,hread,h⟩ := Option.bind_eq_some_iff.mp h
    obtain ⟨grown,hgrown,h⟩ := Option.bind_eq_some_iff.mp h
    have hordered := Entries.keepsOrder_addField (ih.value hread) _ _ _ hentries hgrown
    obtain ⟨_,_,h⟩ := Option.bind_eq_some_iff.mp h
    split at h
    · exact ih.entries hordered h
    · cases h
      exact hordered
    · cases h

theorem readsOrdered (fuel : Nat) : ReadsOrdered fuel := by
  induction fuel with
  | zero => exact ⟨fun h => (by cases h), fun _ h => (by cases h), fun _ h => (by cases h)⟩
  | succ fuel ih => exact ⟨readValue_ordered ih, readItems_ordered ih, readEntries_ordered ih⟩

theorem readTable_ordered {header : List String} (hentries : entries.Ordered)
    (h : readTable fuel header entries cs = some new) : new.Ordered := by
  induction fuel generalizing header entries cs with
  | zero => cases h
  | succ fuel ih =>
    rw [readTable] at h
    obtain ⟨cs',_,h⟩ := Option.bind_eq_some_iff.mp h
    split at h
    · cases h
      exact hentries
    · obtain ⟨⟨path,key,_⟩,_,h⟩ := Option.bind_eq_some_iff.mp h
      obtain ⟨_,_,h⟩ := Option.bind_eq_some_iff.mp h
      obtain ⟨grown,hgrown,h⟩ := Option.bind_eq_some_iff.mp h
      exact ih (Entries.keepsOrder_within Entries.keepsOrder_openElement _ _ _ hentries hgrown) h
    · obtain ⟨⟨path,key,_⟩,_,h⟩ := Option.bind_eq_some_iff.mp h
      obtain ⟨_,_,h⟩ := Option.bind_eq_some_iff.mp h
      obtain ⟨grown,hgrown,h⟩ := Option.bind_eq_some_iff.mp h
      exact ih (Entries.keepsOrder_within Entries.keepsOrder_openTable _ _ _ hentries hgrown) h
    · obtain ⟨⟨path,key,_⟩,_,h⟩ := Option.bind_eq_some_iff.mp h
      obtain ⟨⟨v,_⟩,hread,h⟩ := Option.bind_eq_some_iff.mp h
      obtain ⟨grown,hgrown,h⟩ := Option.bind_eq_some_iff.mp h
      have hadd : Entries.KeepsOrder (Entries.addField path key v) :=
        Entries.keepsOrder_addField ((readsOrdered _).value hread)
      split at h
      · exact ih (Entries.keepsOrder_within hadd _ _ _ hentries hgrown) h
      · cases h

theorem value?_ordered {text : String} (h : value? text = some v) : v.Ordered := by
  obtain ⟨root,hroot,rfl⟩ := Option.map_eq_some_iff.mp h
  exact Entries.Ordered.map_ordered (readTable_ordered Entries.Ordered.nil hroot)

end Toml

theorem isDecoded_of_decoded {name : String} {values : Option (List Value)}
    (hv : ∀ vs, values = some vs → ∀ v ∈ vs, v.Ordered) (h : decoded name values = .ok items) :
    ∀ v ∈ items, v.IsDecoded := by
  rw [decoded.eq_def] at h
  split at h
  · cases h
    intro w hw
    obtain ⟨v,hmem,rfl⟩ := List.mem_map.mp hw
    exact ⟨v, hv _ rfl v hmem, rfl⟩
  · cases h

/-- The built-in decoders keep to the contract of a format. -/
theorem Format.IsBuiltIn.canonicalizes {f : Format} (hf : f.IsBuiltIn) : f.Canonicalizes := by
  intro text vs h
  cases hf with
  | json => exact isDecoded_of_decoded (fun _ hvs => Json.readStream_ordered hvs) h
  | prettyJson => exact isDecoded_of_decoded (fun _ hvs => Json.readStream_ordered hvs) h
  | yaml => exact isDecoded_of_decoded (fun _ hvs => Yaml.documents?_ordered hvs) h
  | toml =>
    refine isDecoded_of_decoded ?_ h
    intro values hvalues
    obtain ⟨v,hv,rfl⟩ := Option.map_eq_some_iff.mp hvalues
    exact List.forall_mem_singleton.mpr (Toml.value?_ordered hv)

theorem Registry.OnlyBuiltIn.canonicalizes {r : Registry} (h : r.OnlyBuiltIn) : r.Canonicalizes :=
  fun p hp => (h p hp).canonicalizes

end LayeredConfig
