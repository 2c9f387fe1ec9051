import LayeredConfig.Formats
import LayeredConfig.Proofs.Canonical
import LayeredConfig.Proofs.JsonScalars
import LayeredConfig.Proofs.Results

/-! # JSON texts and streams

`Spelled` is the grammar of the texts that are written: what stands between brackets, with any blanks before
elements and fields and after the colon. Both layouts are spellings, and the reader takes every spelling back
to its value, so it does not matter which layout a text is in. Documents in a stream are told apart by what
follows a number or a word; a line end is enough.
-/
namespace LayeredConfig.Json
variable {c : Char} {bs cs ds gap rest : List Char} {key : String} {v w : Value} {items acc : List Value}
variable {fields before : Fields} {fuel depth level : Nat}

def Blank (cs : List Char) : Prop := ∀ c ∈ cs, isBlank c = true

mutual

/-- Characters that spell a value. There are none for floats. -/
inductive Spelled : Value → List Char → Prop where
  | null : Spelled .null nullText
  | bool (b : Bool) : Spelled (.bool b) (boolText b)
  | integer (n : Integer) : Spelled (.number (.integer n)) (numberText (.integer n))
  | string (s : String) : Spelled (.string s) (quote s)
  | emptyList : Spelled (.list []) ['[', ']']
  | list {v : Value} {rest : List Value} {bs cs ds : List Char} :
      Blank bs → Spelled v cs → SpelledItems rest ds → Spelled (.list (v :: rest)) ('[' :: (bs ++ (cs ++ ds)))
  | emptyMap : Spelled (.map []) ['\x7b', '\x7d']
  | map {key : String} {v : Value} {rest : Fields} {bs gap cs ds : List Char} :
      Blank bs → Blank gap → Spelled v cs → SpelledFields rest ds →
      Spelled (.map ((key, v) :: rest)) ('\x7b' :: (bs ++ (quote key ++ ':' :: (gap ++ (cs ++ ds)))))

inductive SpelledItems : List Value → List Char → Prop where
  | nil {bs : List Char} : Blank bs → SpelledItems [] (bs ++ [']'])
  | cons {v : Value} {rest : List Value} {bs cs ds : List Char} :
      Blank bs → Spelled v cs → SpelledItems rest ds → SpelledItems (v :: rest) (',' :: (bs ++ (cs ++ ds)))

inductive SpelledFields : Fields → List Char → Prop where
  | nil {bs : List Char} : Blank bs → SpelledFields [] (bs ++ ['\x7d'])
  | cons {key : String} {v : Value} {rest : Fields} {bs gap cs ds : List Char} :
      Blank bs → Blank gap → Spelled v cs → SpelledFields rest ds →
      SpelledFields ((key, v) :: rest) (',' :: (bs ++ (quote key ++ ':' :: (gap ++ (cs ++ ds)))))

end

def FloatFree (v : Value) : Prop := ∀ x, ¬ (Value.number (.float x)).Inside v

theorem FloatFree.inside (h : FloatFree v) (hw : w.Inside v) : FloatFree w :=
  fun x hx => h x (hx.trans hw)

/-! ## Both layouts are spellings -/

theorem blank_nil : Blank [] := fun _ h => nomatch h

theorem blank_lineBreak : Blank (lineBreak level) := by
  intro c hc
  rcases List.mem_cons.mp hc with rfl | hc
  · rfl
  · rw [List.eq_of_mem_replicate hc]
    rfl

theorem compactItems_spelled (h : ∀ v ∈ items, Spelled v (compact v)) :
    SpelledItems items (compactItems items) := by
  induction items with
  | nil => exact .nil blank_nil
  | cons v rest ih =>
    obtain ⟨hv,hrest⟩ := List.forall_mem_cons.mp h
    exact .cons blank_nil hv (ih hrest)

theorem compactFields_spelled (h : ∀ key v, (key, v) ∈ fields → Spelled v (compact v)) :
    SpelledFields fields (compactFields fields) := by
  induction fields with
  | nil => exact .nil blank_nil
  | cons p rest ih =>
    obtain ⟨hv,hrest⟩ := Fields.forall_mem_cons.mp h
    exact .cons blank_nil blank_nil hv (ih hrest)

theorem compact_spelled (h : FloatFree v) : Spelled v (compact v) := by
  induction v with
  | null => exact .null
  | bool b => exact .bool b
  | number n =>
    cases n with
    | integer n => exact .integer n
    | float x => exact absurd .refl (h x)
  | string s => exact .string s
  | list items ih =>
    have hitems : ∀ v ∈ items, Spelled v (compact v) := fun v hv => ih v hv (h.inside (.item hv .refl))
    cases items with
    | nil => exact .emptyList
    | cons v rest =>
      obtain ⟨hv,hrest⟩ := List.forall_mem_cons.mp hitems
      exact .list blank_nil hv (compactItems_spelled hrest)
  | map fields ih =>
    have hfields : ∀ key v, (key, v) ∈ fields → Spelled v (compact v) :=
      fun key v hv => ih key v hv (h.inside (.field hv .refl))
    cases fields with
    | nil => exact .emptyMap
    | cons p rest =>
      obtain ⟨hv,hrest⟩ := Fields.forall_mem_cons.mp hfields
      exact .map blank_nil blank_nil hv (compactFields_spelled hrest)

theorem prettyItems_spelled (h : ∀ v ∈ items, Spelled v (pretty (level + 1) v)) :
    SpelledItems items (prettyItems level items) := by
  induction items with
  | nil => exact .nil blank_lineBreak
  | cons v rest ih =>
    obtain ⟨hv,hrest⟩ := List.forall_mem_cons.mp h
    rw [prettyItems, List.append_assoc]
    exact .cons blank_lineBreak hv (ih hrest)

theorem blank_space : Blank [' '] := List.forall_mem_singleton.mpr rfl

theorem prettyFields_spelled (h : ∀ key v, (key, v) ∈ fields → Spelled v (pretty (level + 1) v)) :
    SpelledFields fields (prettyFields level fields) := by
  induction fields with
  | nil => exact .nil blank_lineBreak
  | cons p rest ih =>
    obtain ⟨hv,hrest⟩ := Fields.forall_mem_cons.mp h
    rw [prettyFields, List.append_assoc]
    exact .cons blank_lineBreak blank_space hv (ih hrest)

theorem pretty_spelled (h : FloatFree v) : Spelled v (pretty level v) := by
  induction v generalizing level with
  | null => exact .null
  | bool b => exact .bool b
  | number n =>
    cases n with
    | integer n => exact .integer n
    | float x => exact absurd .refl (h x)
  | string s => exact .string s
  | list items ih =>
    have hitems : ∀ v ∈ items, Spelled v (pretty (level + 1) v) :=
      fun v hv => ih v hv (h.inside (.item hv .refl))
    cases items with
    | nil => exact .emptyList
    | cons v rest =>
      obtain ⟨hv,hrest⟩ := List.forall_mem_cons.mp hitems
      rw [pretty, List.append_assoc]
      exact .list blank_lineBreak hv (prettyItems_spelled hrest)
  | map fields ih =>
    have hfields : ∀ key v, (key, v) ∈ fields → Spelled v (pretty (level + 1) v) :=
      fun key v hv => ih key v hv (h.inside (.field hv .refl))
    cases fields with
    | nil => exact .emptyMap
    | cons p rest =>
      obtain ⟨hv,hrest⟩ := Fields.forall_mem_cons.mp hfields
      rw [pretty, List.append_assoc]
      exact .map blank_lineBreak blank_space hv (prettyFields_spelled hrest)

/-! ## Spellings are read back -/

theorem skipBlanks_append (hb : Blank bs) (hc : isBlank c = false) :
    skipBlanks (bs ++ c :: cs) = c :: cs := by
  rw [skipBlanks, List.dropWhile_append_of_pos hb, List.dropWhile_cons_of_neg (by simp [hc])]

/-- Blanks and the signs of lists and maps end a word. -/
theorem endsWord_append (hb : Blank bs) (h : endsWord rest = true) : endsWord (bs ++ rest) = true := by
  cases bs with
  | nil => exact h
  | cons b bs =>
    have hblank := hb b List.mem_cons_self
    simp [endsWord, hblank]

theorem SpelledItems.endsWord (h : SpelledItems items ds) : endsWord (ds ++ rest) = true := by
  cases h with
  | nil hb =>
    rw [List.append_assoc]
    exact endsWord_append hb rfl
  | cons => rfl

theorem SpelledFields.endsWord (h : SpelledFields fields ds) : endsWord (ds ++ rest) = true := by
  cases h with
  | nil hb =>
    rw [List.append_assoc]
    exact endsWord_append hb rfl
  | cons => rfl

theorem head_numberText (n : Integer) :
    ∃ c cs, numberText (.integer n) = c :: cs ∧ (c = '-' ∨ c.isDigit = true) := by
  rw [numberText, Int.toString_eq_repr, Int.repr_eq_if]
  split
  · rw [Nat.toList_repr]
    obtain ⟨c,cs,hcs⟩ := List.exists_cons_of_ne_nil (Nat.toDigits_ne_nil (n := n.val.toNat) (b := 10))
    exact ⟨c, cs, hcs, Or.inr (isDigit_of_mem_toDigits (hcs ▸ List.mem_cons_self))⟩
  · exact ⟨'-', _, by rw [String.toList_append]; rfl, Or.inl rfl⟩

/-- What a number begins with begins nothing else and is no blank. -/
theorem ne_of_number (h : c = '-' ∨ c.isDigit = true) :
    isBlank c = false ∧ c ∉ ['n', 't', 'f', '"', '[', ']', '\x7b'] := by
  rcases h with rfl | h
  · decide
  · have hne : ∀ d : Char, d.isDigit = false → c ≠ d := by
      rintro d hd rfl
      rw [h] at hd
      cases hd
    simp [isBlank, hne]

/-- A spelling begins with no blank and not with the end of a list. -/
theorem Spelled.head (h : Spelled v cs) : ∃ c tail, cs = c :: tail ∧ isBlank c = false ∧ c ≠ ']' := by
  cases h with
  | bool b => cases b <;> exact ⟨_, _, rfl, rfl, by decide⟩
  | integer n =>
    obtain ⟨c,tail,hc,hstart⟩ := head_numberText n
    obtain ⟨hblank,hne⟩ := ne_of_number hstart
    exact ⟨c, tail, hc, hblank, by simp_all⟩
  | _ => exact ⟨_, _, rfl, rfl, by decide⟩

/-- The reader takes each spelling of a value back to it, whatever follows, if it may nest as deeply. -/
def Reads (v : Value) : Prop :=
  ∀ {cs bs rest : List Char} {fuel depth : Nat}, Spelled v cs → Blank bs → endsWord rest = true →
    v.Ordered → v.height ≤ depth → 2 * cs.length < fuel →
    readValue fuel depth (bs ++ (cs ++ rest)) = some (v, rest)

theorem skipBlanks_quote (hb : Blank bs) :
    skipBlanks (bs ++ (quote key ++ rest)) = '"' :: ((quote key).tail ++ rest) :=
  skipBlanks_append hb rfl

theorem skipBlanks_sign (hc : isBlank c = false) : skipBlanks (c :: cs) = c :: cs := skipBlanks_append blank_nil hc

theorem readItems_of_spelled (hv : Reads v) (hitems : ∀ w ∈ items, Reads w) (hs : Spelled v cs)
    (hi : SpelledItems items ds) (hb : Blank bs) (ho : ∀ w ∈ v :: items, w.Ordered)
    (hd : ∀ w ∈ v :: items, w.height ≤ depth) (hf : 2 * (cs.length + ds.length) ≤ fuel) :
    readItems fuel depth acc (bs ++ (cs ++ (ds ++ rest))) = some (acc.reverse ++ v :: items, rest) := by
  induction items generalizing v cs ds bs acc fuel with
  | nil =>
    cases hi with
    | @nil last hlast =>
      rw [List.length_append, List.length_singleton] at hf
      obtain ⟨fuel,rfl⟩ : ∃ n, fuel = n + 1 := ⟨fuel - 1, by omega⟩
      have hread : readValue fuel depth (bs ++ (cs ++ (last ++ [']'] ++ rest))) =
          some (v, last ++ [']'] ++ rest) :=
        hv hs hb (SpelledItems.nil hlast).endsWord (ho v List.mem_cons_self) (hd v List.mem_cons_self) (by omega)
      have hskip : skipBlanks (last ++ [']'] ++ rest) = ']' :: rest := by
        rw [List.append_assoc]
        exact skipBlanks_append hlast rfl
      rw [readItems, hread]
      simp only [Option.bind_eq_bind, Option.bind_some, hskip]
      simp
  | cons w items ih =>
    cases hi with
    | @cons _ _ bs' cs' ds' hb' hs' hi' =>
      simp only [List.length_cons, List.length_append] at hf
      obtain ⟨fuel,rfl⟩ : ∃ n, fuel = n + 1 := ⟨fuel - 1, by omega⟩
      obtain ⟨hov,ho⟩ := List.forall_mem_cons.mp ho
      obtain ⟨hdv,hd⟩ := List.forall_mem_cons.mp hd
      obtain ⟨hw,hitems⟩ := List.forall_mem_cons.mp hitems
      -- The comma ends the element, should it be a number or a word.
      have hread : readValue fuel depth (bs ++ (cs ++ (',' :: (bs' ++ (cs' ++ ds')) ++ rest))) =
          some (v, ',' :: (bs' ++ (cs' ++ ds')) ++ rest) :=
        hv hs hb rfl hov hdv (by omega)
      have hrest : readItems fuel depth (v :: acc) (bs' ++ (cs' ++ (ds' ++ rest))) =
          some ((v :: acc).reverse ++ w :: items, rest) :=
        ih hw hitems hs' hi' hb' ho hd (by omega)
      have hskip : skipBlanks (',' :: (bs' ++ (cs' ++ ds')) ++ rest) = ',' :: (bs' ++ (cs' ++ (ds' ++ rest))) := by
        simp [skipBlanks, isBlank]
      rw [readItems, hread]
      simp only [Option.bind_eq_bind, Option.bind_some, hskip, hrest]
      simp

theorem readFields_of_spelled (hv : Reads v) (hfields : ∀ k w, (k, w) ∈ fields → Reads w) (hs : Spelled v cs)
    (hi : SpelledFields fields ds) (hb : Blank bs) (hg : Blank gap)
    (ha : Fields.Ascending (before ++ (key, v) :: fields))
    (ho : ∀ k w, (k, w) ∈ (key, v) :: fields → w.Ordered)
    (hd : ∀ k w, (k, w) ∈ (key, v) :: fields → w.height ≤ depth) (hf : 2 * (cs.length + ds.length) ≤ fuel) :
    readFields fuel depth before (bs ++ (quote key ++ ':' :: (gap ++ (cs ++ (ds ++ rest))))) =
      some (before ++ (key, v) :: fields, rest) := by
  induction fields generalizing key v cs ds bs gap before fuel with
  | nil =>
    cases hi with
    | @nil last hlast =>
      rw [List.length_append, List.length_singleton] at hf
      obtain ⟨fuel,rfl⟩ : ∃ n, fuel = n + 1 := ⟨fuel - 1, by omega⟩
      obtain ⟨hov,-⟩ := Fields.forall_mem_cons.mp ho
      obtain ⟨hdv,-⟩ := Fields.forall_mem_cons.mp hd
      have hread : readValue fuel depth (gap ++ (cs ++ (last ++ ['\x7d'] ++ rest))) =
          some (v, last ++ ['\x7d'] ++ rest) :=
        hv hs hg (SpelledFields.nil hlast).endsWord hov hdv (by omega)
      have hskip : skipBlanks (last ++ ['\x7d'] ++ rest) = '\x7d' :: rest := by
        rw [List.append_assoc]
        exact skipBlanks_append hlast rfl
      rw [readFields, skipBlanks_quote hb]
      simp only [readQuoted_quote, Option.bind_eq_bind, Option.bind_some, skipBlanks_sign (c := ':') rfl, hread, hskip,
        Fields.insert_last ha.lt_of_append]
  | cons p fields ih =>
    cases hi with
    | @cons key' v' _ bs' gap' cs' ds' hb' hg' hs' hi' =>
      simp only [List.length_cons, List.length_append] at hf
      obtain ⟨fuel,rfl⟩ : ∃ n, fuel = n + 1 := ⟨fuel - 1, by omega⟩
      obtain ⟨hov,ho⟩ := Fields.forall_mem_cons.mp ho
      obtain ⟨hdv,hd⟩ := Fields.forall_mem_cons.mp hd
      obtain ⟨hw,hfields⟩ := Fields.forall_mem_cons.mp hfields
      have hread : readValue fuel depth
          (gap ++ (cs ++ (',' :: (bs' ++ (quote key' ++ ':' :: (gap' ++ (cs' ++ ds')))) ++ rest))) =
          some (v, ',' :: (bs' ++ (quote key' ++ ':' :: (gap' ++ (cs' ++ ds')))) ++ rest) :=
        hv hs hg rfl hov hdv (by omega)
      have hrest : readFields fuel depth (before ++ [(key, v)])
          (bs' ++ (quote key' ++ ':' :: (gap' ++ (cs' ++ (ds' ++ rest))))) =
          some (before ++ [(key, v)] ++ (key', v') :: fields, rest) :=
        ih hw hfields hs' hi' hb' hg' (by simpa using ha) ho hd (by omega)
      have hskip : skipBlanks (',' :: (bs' ++ (quote key' ++ ':' :: (gap' ++ (cs' ++ ds')))) ++ rest) =
          ',' :: (bs' ++ (quote key' ++ ':' :: (gap' ++ (cs' ++ (ds' ++ rest))))) := by
        simp [skipBlanks, isBlank]
      rw [readFields, skipBlanks_quote hb]
      simp only [readQuoted_quote, Option.bind_eq_bind, Option.bind_some, skipBlanks_sign (c := ':') rfl, hread, hskip,
        Fields.insert_last ha.lt_of_append, hrest]
      simp

theorem reads_leaf (h : v.isLeaf = true) : Reads v := by
  intro cs bs rest fuel depth hs hb hr _ _ hf
  obtain ⟨fuel,rfl⟩ : ∃ n, fuel = n + 1 := ⟨fuel - 1, by omega⟩
  rw [readValue]
  cases hs with
  | null =>
    have hskip : skipBlanks (bs ++ (nullText ++ rest)) = 'n' :: 'u' :: 'l' :: 'l' :: rest :=
      skipBlanks_append hb rfl
    simp [hskip]
  | bool b =>
    cases b with
    | true =>
      have hskip : skipBlanks (bs ++ (boolText true ++ rest)) = 't' :: 'r' :: 'u' :: 'e' :: rest :=
        skipBlanks_append hb rfl
      simp [hskip]
    | false =>
      have hskip : skipBlanks (bs ++ (boolText false ++ rest)) = 'f' :: 'a' :: 'l' :: 's' :: 'e' :: rest :=
        skipBlanks_append hb rfl
      simp [hskip]
  | integer n =>
    obtain ⟨c,tail,hc,hstart⟩ := head_numberText n
    obtain ⟨hblank,hne⟩ := ne_of_number hstart
    have hread := readNumber_integer n hr
    rw [hc, List.cons_append] at hread ⊢
    rw [skipBlanks_append hb hblank]
    -- What a number begins with rules out all other cases of the reader.
    split
    case h_7 => rw [hread, Option.map_some]
    all_goals
      next he =>
        rw [(List.cons.inj he).1] at hne
        simp at hne
  | string s =>
    rw [skipBlanks_quote hb]
    simp only [readQuoted_quote, Option.map_some]
  | _ => cases h

theorem reads_list (h : ∀ v ∈ items, Reads v) : Reads (.list items) := by
  intro cs bs rest fuel depth hs hb _ ho hd hf
  obtain ⟨fuel,rfl⟩ : ∃ n, fuel = n + 1 := ⟨fuel - 1, by omega⟩
  rw [Value.height] at hd
  obtain ⟨depth,rfl⟩ : ∃ n, depth = n + 1 := ⟨depth - 1, by omega⟩
  rw [readValue]
  cases hs with
  | emptyList =>
    have hskip : skipBlanks (bs ++ (['[', ']'] ++ rest)) = '[' :: ']' :: rest := skipBlanks_append hb rfl
    simp only [hskip, skipBlanks_sign (c := ']') rfl]
  | @list v items bs' cs ds hb' hs' hi =>
    obtain ⟨hv,hitems⟩ := List.forall_mem_cons.mp h
    obtain ⟨c,tail,rfl,hblank,hc⟩ := hs'.head
    have hskip : skipBlanks (bs ++ ('[' :: (bs' ++ (c :: tail ++ ds)) ++ rest)) =
        '[' :: (bs' ++ c :: (tail ++ (ds ++ rest))) := by
      rw [List.cons_append, skipBlanks_append hb rfl]
      simp
    have hread : readItems fuel depth [] (c :: (tail ++ (ds ++ rest))) = some (v :: items, rest) :=
      readItems_of_spelled hv hitems hs' hi blank_nil (Value.ordered_list.mp ho)
        (fun w hw => Nat.le_trans (Value.height_le_of_mem hw) (Nat.le_of_succ_le_succ hd))
        (by simp only [List.length_cons, List.length_append] at hf ⊢; omega)
    simp only [hskip, skipBlanks_append hb' hblank]
    split
    · next he => exact absurd (List.cons.inj he).1 hc
    · rw [hread, Option.map_some]

theorem reads_map (h : ∀ key v, (key, v) ∈ fields → Reads v) : Reads (.map fields) := by
  intro cs bs rest fuel depth hs hb _ ho hd hf
  obtain ⟨fuel,rfl⟩ : ∃ n, fuel = n + 1 := ⟨fuel - 1, by omega⟩
  rw [Value.height] at hd
  obtain ⟨depth,rfl⟩ : ∃ n, depth = n + 1 := ⟨depth - 1, by omega⟩
  rw [readValue]
  cases hs with
  | emptyMap =>
    have hskip : skipBlanks (bs ++ (['\x7b', '\x7d'] ++ rest)) = '\x7b' :: '\x7d' :: rest :=
      skipBlanks_append hb rfl
    simp only [hskip, skipBlanks_sign (c := '\x7d') rfl]
  | @map key v fields bs' gap cs ds hb' hg hs' hi =>
    obtain ⟨hv,hfields⟩ := Fields.forall_mem_cons.mp h
    have hskip : skipBlanks (bs ++ ('\x7b' :: (bs' ++ (quote key ++ ':' :: (gap ++ (cs ++ ds)))) ++ rest)) =
        '\x7b' :: (bs' ++ (quote key ++ ':' :: (gap ++ (cs ++ (ds ++ rest))))) := by
      rw [List.cons_append, skipBlanks_append hb rfl]
      simp
    have hread : readFields fuel depth [] ('"' :: ((quote key).tail ++ ':' :: (gap ++ (cs ++ (ds ++ rest))))) =
        some ((key, v) :: fields, rest) :=
      readFields_of_spelled hv hfields hs' hi blank_nil hg ho.ascending (fun k w hw => ho.field hw)
        (fun k w hw => Nat.le_trans (Value.height_le_of_mem_fields hw) (Nat.le_of_succ_le_succ hd))
        (by simp only [List.length_cons, List.length_append] at hf ⊢; omega)
    simp only [hskip, skipBlanks_quote hb']
    split
    · next he => exact absurd (List.cons.inj he).1 (by decide)
    · rw [hread, Option.map_some]

/-- Every spelling of a value is read back. -/
theorem reads (v : Value) : Reads v := by
  induction v with
  | list items ih => exact reads_list ih
  | map fields ih => exact reads_map ih
  | _ => exact reads_leaf rfl

/-! ## Streams -/

inductive SpelledLines : List Value → List Char → Prop where
  | nil : SpelledLines [] []
  | cons {v : Value} {rest : List Value} {cs ds : List Char} :
      Spelled v cs → SpelledLines rest ds → SpelledLines (v :: rest) (cs ++ '\n' :: ds)

/-- The documents of a stream are read back. -/
theorem readStream_of_spelled (hs : SpelledLines items cs) (hb : Blank bs) (ho : ∀ v ∈ items, v.Ordered)
    (hd : ∀ v ∈ items, v.height ≤ depthLimit) (hf : bs.length + cs.length < fuel) :
    readStream fuel (bs ++ cs) = some items := by
  induction hs generalizing bs fuel with
  | nil =>
    obtain ⟨fuel,rfl⟩ : ∃ n, fuel = n + 1 := ⟨fuel - 1, by omega⟩
    have hskip : skipBlanks (bs ++ []) = [] := by
      rw [skipBlanks, List.dropWhile_append_of_pos hb, List.dropWhile_nil]
    simp only [readStream, hskip]
  | @cons v items cs ds hs _ ih =>
    obtain ⟨fuel,rfl⟩ : ∃ n, fuel = n + 1 := ⟨fuel - 1, by omega⟩
    obtain ⟨hov,ho⟩ := List.forall_mem_cons.mp ho
    obtain ⟨hdv,hd⟩ := List.forall_mem_cons.mp hd
    obtain ⟨c,tail,rfl,hblank,-⟩ := hs.head
    simp only [List.length_append, List.length_cons] at hf
    have hread : readValue (2 * (c :: (tail ++ '\n' :: ds)).length + 1) depthLimit (c :: (tail ++ '\n' :: ds)) =
        some (v, '\n' :: ds) :=
      reads v hs blank_nil rfl hov hdv (by simp only [List.length_cons, List.length_append]; omega)
    -- The line end after this document is a blank before the next.
    have hrest : readStream fuel ('\n' :: ds) = some items := by
      rw [← List.singleton_append]
      exact ih (List.forall_mem_singleton.mpr rfl) ho hd (by simp only [List.length_singleton]; omega)
    have hend : endsWord ('\n' :: ds) = true := rfl
    rw [readStream, List.cons_append, skipBlanks_append hb hblank]
    simp only [hread, Option.bind_eq_bind, Option.bind_some, hend, Bool.or_true, if_true, hrest]

theorem stream_spelled {layout : Value → List Char} (h : ∀ v ∈ items, Spelled v (layout v)) :
    SpelledLines items (stream (fun v => String.ofList (layout v)) items).toList := by
  have hlines : SpelledLines items (items.flatMap fun v => layout v ++ ['\n']) := by
    induction items with
    | nil => exact .nil
    | cons v items ih =>
      obtain ⟨hv,hitems⟩ := List.forall_mem_cons.mp h
      rw [List.flatMap_cons, List.append_assoc]
      exact .cons hv (ih hitems)
  rw [stream, String.toList_join]
  simpa [List.flatMap_map] using hlines

/-- Reading finds what is spelled line by line, in the values' canonical form. -/
theorem decoded_of_spelled {text : String} (hs : SpelledLines items text.toList) (ho : ∀ v ∈ items, v.Ordered)
    (hc : ∀ v ∈ items, v.canonical = v) (hd : ∀ v ∈ items, v.height ≤ depthLimit) :
    decoded "json" (documents? text) = .ok items := by
  have hread : documents? text = some items := readStream_of_spelled hs blank_nil ho hd (by simp)
  have hcanonical : items.map Value.canonical = items := by
    rw [List.map_congr_left hc, List.map_id']
  rw [hread, decoded, hcanonical]

/-- Documents in canonical form, without floats and nested as deeply as may be read, come back from a stream
in the same order, whichever layout they are written in and whichever of the two formats reads them. -/
theorem decode_encodeStream {writer reader : Format} {docs : List Value}
    (hw : writer ∈ [format, prettyFormat]) (hr : reader ∈ [format, prettyFormat])
    (h : ∀ v ∈ docs, v.Ordered ∧ v.canonical = v ∧ FloatFree v ∧ v.height < 128) :
    ∃ text, writer.encodeStream docs = .ok text ∧ reader.decode text = .ok docs := by
  have hread : ∀ input, reader.decode input = decoded "json" (documents? input) := by
    simp only [List.mem_cons, List.not_mem_nil, or_false] at hr
    rcases hr with rfl | rfl <;> exact fun _ => rfl
  have hback : ∀ layout : Value → List Char, (∀ v ∈ docs, Spelled v (layout v)) →
      reader.decode (stream (fun v => String.ofList (layout v)) docs) = .ok docs := fun layout hs => by
    rw [hread]
    exact decoded_of_spelled (stream_spelled hs) (fun v hv => (h v hv).1) (fun v hv => (h v hv).2.1)
      fun v hv => Nat.le_of_lt_succ (h v hv).2.2.2
  have hfree : ∀ v ∈ docs, FloatFree v := fun v hv => (h v hv).2.2.1
  simp only [List.mem_cons, List.not_mem_nil, or_false] at hw
  rcases hw with rfl | rfl
  · exact ⟨_, rfl, hback compact fun v hv => compact_spelled (hfree v hv)⟩
  · exact ⟨_, rfl, hback (pretty 0) fun v hv => pretty_spelled (hfree v hv)⟩

theorem decode_encodeStream_mixed :
    let low : Integer := ⟨-9223372036854775808, by decide, by decide⟩
    let high : Integer := ⟨18446744073709551615, by decide, by decide⟩
    let quoted := Value.string "a \"quoted\" \\ \t\u0001 é 🙂"
    let nested := Value.map [("", .list []), ("k", .list [.map [], quoted])]
    let docs := [Value.number (.integer low), .number (.integer high), .null, .bool true, quoted, nested]
    ∃ text, prettyFormat.encodeStream docs = .ok text ∧ format.decode text = .ok docs := by
  refine decode_encodeStream (by simp) (by simp) ?_
  intro v hv
  simp only [List.mem_cons, List.not_mem_nil, or_false] at hv
  have hfree : FloatFree v := fun x hx => by
    rw [Value.inside_iff_mem_parts] at hx
    rcases hv with rfl | rfl | rfl | rfl | rfl | rfl <;>
      simp [Value.parts, Value.partsOfItems, Value.partsOfFields] at hx
  rcases hv with rfl | rfl | rfl | rfl | rfl | rfl <;> exact ⟨by decide, rfl, hfree, by decide⟩

end LayeredConfig.Json
