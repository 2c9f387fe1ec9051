import LayeredConfig.Files.Path
import Mathlib.Data.List.TakeDrop
import Mathlib.Data.List.TakeWhile

/-! # File names in paths

Of the pieces of a path the last that says something is the file name, and the text before it is the directory.
A file name falls at its last dot into stem and extension, unless nothing stands before that dot. A name that is
put into the directory of a path is the file name of what results, and the directory is the same.
-/
namespace LayeredConfig.Path
variable {cs name base ext before after : List Char} {first voids reversed : List (List Char)}
variable {path directory : String}

/-! ## Pieces -/

theorem pieces_eq_splitOn : pieces cs = cs.splitOn '/' := by
  induction cs with
  | nil => rfl
  | cons c rest ih =>
    rw [pieces, List.splitOn_cons_eq_if_modifyHead, ih]
    by_cases hc : c = '/'
    · simp [hc]
    · obtain ⟨piece,more,hp⟩ := List.exists_cons_of_ne_nil (List.splitOn_ne_nil '/' rest)
      simp [hc, hp]

theorem pieces_append (cs rest : List Char) : pieces (cs ++ '/' :: rest) = pieces cs ++ pieces rest := by
  simp only [pieces_eq_splitOn, List.splitOn_append_cons_self]

theorem pieces_of_notMem (h : '/' ∉ cs) : pieces cs = [cs] := by
  rw [pieces_eq_splitOn, List.splitOn_eq_singleton h]

theorem notMem_of_mem_pieces (cs : List Char) : ∀ piece ∈ pieces cs, '/' ∉ piece := by
  induction cs with
  | nil => simp [pieces]
  | cons c rest ih =>
    rw [pieces]
    split
    · exact List.forall_mem_cons.mpr ⟨List.not_mem_nil, ih⟩
    · next hc =>
      obtain ⟨piece,more,hp⟩ := List.exists_cons_of_ne_nil (pieces_eq_splitOn ▸ List.splitOn_ne_nil '/' rest)
      rw [hp] at ih ⊢
      obtain ⟨hpiece,hmore⟩ := List.forall_mem_cons.mp ih
      refine List.forall_mem_cons.mpr ⟨?_, hmore⟩
      rw [List.mem_cons, not_or]
      exact ⟨Ne.symm hc, hpiece⟩

/-- Where something stands before a dot, there is more than the dot. -/
theorem not_isVoid_of_dot (hbase : base ≠ []) : isVoid (base ++ '.' :: ext) = false := by
  obtain ⟨c,cs,rfl⟩ := List.exists_cons_of_ne_nil hbase
  simp [isVoid]

theorem ne_nil_of_not_isVoid (h : isVoid name = false) : name ≠ [] := by
  rintro rfl
  cases h

theorem trimVoid_append (hvoids : ∀ piece ∈ voids, isVoid piece = true) (hname : isVoid name = false) :
    trimVoid (voids ++ name :: reversed) = name :: reversed := by
  induction voids with
  | nil => cases reversed with
    | nil => rfl
    | cons piece rest => simp [trimVoid, hname]
  | cons piece rest ih =>
    obtain ⟨hpiece,hrest⟩ := List.forall_mem_cons.mp hvoids
    obtain ⟨next,more,hne⟩ := List.exists_cons_of_ne_nil (List.append_ne_nil_of_right_ne_nil rest
      (List.cons_ne_nil name reversed))
    rw [List.cons_append, hne, trimVoid, if_pos hpiece, ← hne, ih hrest]
    exact List.cons_ne_nil next more

/-- What is trimmed is void, and what is left begins with a name or is the first piece of all. -/
theorem exists_voids (reversed : List (List Char)) :
    ∃ voids, reversed = voids ++ trimVoid reversed ∧ ∀ piece ∈ voids, isVoid piece = true := by
  induction reversed with
  | nil => exact ⟨[], rfl, nofun⟩
  | cons piece rest ih =>
    cases rest with
    | nil => exact ⟨[], rfl, nofun⟩
    | cons next more =>
      rw [trimVoid]
      · split
        · next hpiece =>
          obtain ⟨voids,hvoids,hall⟩ := ih
          exact ⟨piece :: voids, congrArg (piece :: ·) hvoids, List.forall_mem_cons.mpr ⟨hpiece, hall⟩⟩
        · exact ⟨[], rfl, nofun⟩
      · exact List.cons_ne_nil next more

theorem trimVoid_cases (reversed : List (List Char)) :
    trimVoid reversed = [] ∨ (∃ piece, trimVoid reversed = [piece]) ∨
      ∃ piece next more, trimVoid reversed = piece :: next :: more ∧ isVoid piece = false := by
  induction reversed with
  | nil => exact .inl rfl
  | cons piece rest ih =>
    cases rest with
    | nil => exact .inr (.inl ⟨piece, rfl⟩)
    | cons next more =>
      rw [trimVoid]
      · split
        · exact ih
        · next hpiece => exact .inr (.inr ⟨piece, next, more, rfl, by simpa using hpiece⟩)
      · exact List.cons_ne_nil next more

theorem trimVoid_trimVoid (reversed : List (List Char)) : trimVoid (trimVoid reversed) = trimVoid reversed := by
  rcases trimVoid_cases reversed with h | ⟨piece,h⟩ | ⟨piece,next,more,h,hpiece⟩
  · rw [h]
    rfl
  · rw [h]
    rfl
  · rw [h]
    exact trimVoid_append (List.forall_mem_nil (isVoid · = true)) hpiece

theorem join_eq_intercalate (h : reversed ≠ [[]]) : join reversed = ['/'].intercalate reversed := by
  match reversed with
  | [] => rfl
  | [[]] => exact absurd rfl h
  | [c :: cs] => simp [join]
  | piece :: next :: more =>
    have htail : ∀ pieces : List (List Char), pieces ≠ [] →
        pieces.flatMap ('/' :: ·) = '/' :: ['/'].intercalate pieces := by
      intro pieces
      induction pieces with
      | nil => exact (absurd rfl ·)
      | cons piece rest ih =>
        intro _
        cases rest with
        | nil => simp
        | cons next more =>
          rw [List.flatMap_cons, ih (List.cons_ne_nil next more), List.intercalate_cons_cons]
          simp
    rw [join, htail _ (List.cons_ne_nil next more), List.intercalate_cons_cons]
    · simp
    · simp

/-- The text of pieces is split into these again, the root apart, which is a slash between two empty pieces. -/
theorem pieces_join (hne : reversed ≠ []) (hroot : reversed ≠ [[]]) (h : ∀ piece ∈ reversed, '/' ∉ piece) :
    pieces (join reversed) = reversed := by
  rw [join_eq_intercalate hroot, pieces_eq_splitOn, List.splitOn_intercalate '/' h hne]

/-! ## Names inside directories -/

theorem toList_inside (hname : '/' ∉ name) : (inside directory (.ofList name)).toList =
    if directory = "" then name
    else if directory.toList.getLast? = some '/' then directory.toList ++ name
    else directory.toList ++ '/' :: name := by
  have hhead : name.head? ≠ some '/' := fun h => hname (List.mem_of_head? h)
  simp only [inside, String.toList_ofList, hhead, false_or]
  split
  · simp
  · split <;> simp

/-- Whatever the directory is, a name without slashes that is put into it is the last piece. -/
theorem exists_pieces_inside (directory : String) (hname : '/' ∉ name) :
    ∃ first, pieces (inside directory (.ofList name)).toList = first ++ [name] := by
  rw [toList_inside hname]
  split
  · exact ⟨[], pieces_of_notMem hname⟩
  · split
    · next hlast =>
      obtain ⟨cs,hcs⟩ := List.getLast?_eq_some_iff.mp hlast
      rw [hcs, List.append_assoc, List.singleton_append, pieces_append, pieces_of_notMem hname]
      exact ⟨_, rfl⟩
    · rw [pieces_append, pieces_of_notMem hname]
      exact ⟨_, rfl⟩

/-- A name that is put into a directory without void pieces at its end comes right after the pieces of this. -/
theorem pieces_inside (hslash : ∀ piece ∈ trimVoid reversed, '/' ∉ piece) (hname : '/' ∉ name) :
    pieces (inside (.ofList (join (trimVoid reversed).reverse)) (.ofList name)).toList =
      (trimVoid reversed).reverse ++ [name] := by
  have hplain : ∀ {directory : List (List Char)}, directory ≠ [] → directory ≠ [[]] →
      (∀ piece ∈ directory, '/' ∉ piece) → directory.getLast? ≠ some [] →
      pieces (inside (.ofList (join directory)) (.ofList name)).toList = directory ++ [name] := by
    intro directory hne hroot hslash hlast
    have hpieces := pieces_join hne hroot hslash
    rw [toList_inside hname, if_neg, if_neg, String.toList_ofList, pieces_append, hpieces,
      pieces_of_notMem hname]
    · rw [String.toList_ofList]
      intro hend
      -- a slash at the end would be followed by an empty piece
      obtain ⟨cs,hcs⟩ := List.getLast?_eq_some_iff.mp hend
      rw [hcs, pieces_append] at hpieces
      exact hlast (hpieces ▸ List.getLast?_concat)
    · intro hempty
      rw [← String.ofList_nil] at hempty
      rw [String.ofList_injective hempty] at hpieces
      exact hroot hpieces.symm
  rcases trimVoid_cases reversed with h | ⟨piece,h⟩ | ⟨piece,next,more,h,hpiece⟩
  · rw [h, toList_inside hname]
    exact pieces_of_notMem hname
  · rw [h] at hslash ⊢
    by_cases hempty : piece = []
    · subst hempty
      rw [toList_inside hname]
      exact (pieces_append [] name).trans (congrArg _ (pieces_of_notMem hname))
    · exact hplain (by simp) (by simpa using hempty) (by simpa using hslash) (by simpa using hempty)
  · rw [h] at hslash ⊢
    refine hplain (by simp) ?_ (fun p hp => hslash p (List.mem_reverse.mp hp)) ?_
    · intro hroot
      simpa using congrArg List.length hroot
    · rw [List.getLast?_reverse]
      simpa using ne_nil_of_not_isVoid hpiece

/-! ## The last name and the directory -/

theorem splitLast_of_pieces (hpieces : pieces path.toList = first ++ name :: voids)
    (hvoids : ∀ piece ∈ voids, isVoid piece = true) (hname : isVoid name = false) :
    splitLast path = some (name, first.reverse) := by
  have hreversed : (pieces path.toList).reverse = voids.reverse ++ name :: first.reverse := by
    rw [hpieces, List.reverse_append, List.reverse_cons, List.append_assoc, List.singleton_append]
  rw [splitLast, hreversed, trimVoid_append (fun p hp => hvoids p (List.mem_reverse.mp hp)) hname]
  cases name with
  | nil => cases hname
  | cons c cs => rfl

theorem pieces_of_splitLast (h : splitLast path = some (name, reversed)) : name ≠ [] ∧
    ∃ voids, pieces path.toList = reversed.reverse ++ name :: voids ∧ ∀ piece ∈ voids, isVoid piece = true := by
  obtain ⟨voids,hvoids,hall⟩ := exists_voids (pieces path.toList).reverse
  rw [splitLast] at h
  split at h
  · cases h
  · cases h
  · next piece rest hne htrim =>
    cases h
    rw [htrim] at hvoids
    refine ⟨hne, voids.reverse, ?_, fun p hp => hall p (List.mem_reverse.mp hp)⟩
    rw [← List.reverse_reverse (pieces path.toList), hvoids]
    simp

/-- A path has a file name where void pieces alone follow a name other than `..`. -/
theorem fileName?_eq_some_iff : fileName? path = some name ↔
    ∃ first voids, pieces path.toList = first ++ name :: voids ∧ (∀ piece ∈ voids, isVoid piece = true) ∧
      isVoid name = false ∧ name ≠ ['.', '.'] := by
  constructor
  · intro h
    obtain ⟨⟨last,rest⟩,hsplit,hlast⟩ := Option.bind_eq_some_iff.mp h
    obtain ⟨hne,voids,hpieces,hvoids⟩ := pieces_of_splitLast hsplit
    rw [ite_eq_iff] at hlast
    rcases hlast with ⟨_,he⟩ | ⟨hdots,he⟩
    · cases he
    · cases he
      rw [not_or] at hdots
      refine ⟨rest.reverse, voids, hpieces, hvoids, ?_, hdots.2⟩
      simp [isVoid, hne, hdots.1]
  · rintro ⟨first,voids,hpieces,hvoids,hname,hup⟩
    rw [fileName?, splitLast_of_pieces hpieces hvoids hname, Option.bind_some]
    refine if_neg (not_or.mpr ⟨?_, hup⟩)
    rintro rfl
    cases hname

theorem notMem_of_fileName? (h : fileName? path = some name) : '/' ∉ name := by
  obtain ⟨first,voids,hpieces,_⟩ := fileName?_eq_some_iff.mp h
  exact notMem_of_mem_pieces path.toList name (hpieces ▸ List.mem_append_right first List.mem_cons_self)

theorem exists_parent?_of_fileName? (h : fileName? path = some name) : ∃ directory, parent? path = some directory := by
  obtain ⟨parts,hsplit,_⟩ := Option.bind_eq_some_iff.mp h
  exact ⟨_, Option.map_eq_some_iff.mpr ⟨parts, hsplit, rfl⟩⟩

/-- A name that is put into the directory of a path stands in the same directory. -/
theorem parent?_inside (h : parent? path = some directory) (hslash : '/' ∉ name) (hname : isVoid name = false) :
    parent? (inside directory (.ofList name)) = some directory := by
  obtain ⟨⟨last,rest⟩,hsplit,rfl⟩ := Option.map_eq_some_iff.mp h
  obtain ⟨_,voids,hpieces,_⟩ := pieces_of_splitLast hsplit
  obtain ⟨more,hmore,_⟩ := exists_voids rest
  have hrest : ∀ piece ∈ trimVoid rest, '/' ∉ piece := by
    intro piece hpiece
    have hmem : piece ∈ rest := hmore ▸ List.mem_append_right more hpiece
    refine notMem_of_mem_pieces path.toList piece ?_
    rw [hpieces]
    exact List.mem_append_left _ (List.mem_reverse.mpr hmem)
  rw [parent?, splitLast_of_pieces (pieces_inside hrest hslash) nofun hname, Option.map_some]
  dsimp only
  rw [List.reverse_reverse, trimVoid_trimVoid]

/-- A name that is put into a directory is the file name of the path, unless it leads back from there. -/
theorem fileName?_inside (directory : String) (hslash : '/' ∉ name) (hname : isVoid name = false) :
    fileName? (inside directory (.ofList name)) = if name = ['.', '.'] then none else some name := by
  obtain ⟨first,hpieces⟩ := exists_pieces_inside directory hslash
  have hdot : name ≠ ['.'] := by
    rintro rfl
    cases hname
  rw [fileName?, splitLast_of_pieces hpieces nofun hname, Option.bind_some]
  simp only [hdot, false_or]

/-! ## Stem and extension -/

theorem splitDot_eq_some_iff : splitDot name = some (before, after) ↔ name = before ++ '.' :: after ∧ '.' ∉ after := by
  rw [splitDot, List.span_eq_takeWhile_dropWhile]
  constructor
  · intro h
    dsimp only at h
    split at h
    · cases h
    · next c rest hdrop =>
      cases h
      have hc : c = '.' := by
        have hhead := List.head_dropWhile_not (· ≠ '.') (hdrop ▸ List.cons_ne_nil c rest)
        simp only [hdrop, List.head_cons] at hhead
        simpa using hhead
      refine ⟨?_, fun hdot => ?_⟩
      · calc name = (name.reverse.takeWhile (· ≠ '.') ++ name.reverse.dropWhile (· ≠ '.')).reverse := by
              rw [List.takeWhile_append_dropWhile, List.reverse_reverse]
          _ = rest.reverse ++ '.' :: (name.reverse.takeWhile (· ≠ '.')).reverse := by
              rw [hdrop, hc, List.reverse_append, List.reverse_cons, List.append_assoc, List.singleton_append]
      · simpa using List.mem_takeWhile_imp (List.mem_reverse.mp hdot)
  · rintro ⟨rfl,hafter⟩
    have hreversed : (before ++ '.' :: after).reverse = after.reverse ++ '.' :: before.reverse := by simp
    have hpos : ∀ c ∈ after.reverse, decide (c ≠ '.') = true := by
      intro c hc
      refine decide_eq_true ?_
      rintro rfl
      exact hafter (List.mem_reverse.mp hc)
    rw [hreversed, List.takeWhile_append_of_pos hpos, List.dropWhile_append_of_pos hpos]
    simp

theorem splitDot_append (base : List Char) (hext : '.' ∉ ext) : splitDot (base ++ '.' :: ext) = some (base, ext) :=
  splitDot_eq_some_iff.mpr ⟨rfl, hext⟩

theorem splitDot_eq_none_iff : splitDot name = none ↔ '.' ∉ name := by
  rw [splitDot, List.span_eq_takeWhile_dropWhile]
  dsimp only
  split
  · next hdrop =>
    refine iff_of_true rfl fun hdot => ?_
    simpa using List.dropWhile_eq_nil_iff.mp hdrop '.' (List.mem_reverse.mpr hdot)
  · next c rest hdrop =>
    refine iff_of_false nofun fun hdot => ?_
    have hall : ∀ c ∈ name.reverse, decide (c ≠ '.') = true := by
      intro c hc
      refine decide_eq_true ?_
      rintro rfl
      exact hdot (List.mem_reverse.mp hc)
    rw [List.dropWhile_eq_nil_iff.mpr hall] at hdrop
    cases hdrop

theorem splitName_of_dot (hbase : base ≠ []) (hext : '.' ∉ ext) :
    splitName (base ++ '.' :: ext) = some (base, ext) := by
  rw [splitName, splitDot_append base hext, Option.filter_some, if_pos]
  simpa using hbase

/-- The stem ends before the last dot, if something stands there. -/
theorem stem?_of_dot (h : fileName? path = some (base ++ '.' :: ext)) (hbase : base ≠ []) (hext : '.' ∉ ext) :
    stem? path = some base := by
  rw [stem?, h, Option.map_some, splitName_of_dot hbase hext]
  rfl

theorem notMem_of_stem? {stem : List Char} (h : stem? path = some stem) : '/' ∉ stem := by
  obtain ⟨name,hname,rfl⟩ := Option.map_eq_some_iff.mp h
  have hslash := notMem_of_fileName? hname
  cases hsplit : splitName name with
  | none => exact hslash
  | some parts =>
    obtain ⟨before,after⟩ := parts
    obtain ⟨rfl,_⟩ := splitDot_eq_some_iff.mp (Option.filter_eq_some_iff.mp hsplit).1
    exact fun hmem => hslash (List.mem_append_left _ hmem)

/-- After the last dot stands the extension. -/
theorem extension?_of_dot (h : fileName? path = some (base ++ '.' :: ext)) (hbase : base ≠ []) (hext : '.' ∉ ext) :
    extension? path = some (.ofList (ext.map Char.toLower)) := by
  rw [extension?, h, Option.bind_some, splitName_of_dot hbase hext]
  rfl

/-- A name without dots, but perhaps one in the first place, has no extension. -/
theorem stem?_of_notMem (h : fileName? path = some name) (hdot : '.' ∉ name.tail) : stem? path = some name := by
  have hsplit : splitName name = none := by
    rw [splitName]
    cases hdots : splitDot name with
    | none => rfl
    | some parts =>
      obtain ⟨before,after⟩ := parts
      obtain ⟨rfl,_⟩ := splitDot_eq_some_iff.mp hdots
      cases before with
      | nil => rfl
      | cons c cs => exact absurd List.mem_append_cons_self hdot
  simp [stem?, h, hsplit]

theorem eq_of_toLower_eq {c d : Char} (h : c.toLower = d) (hd : d.val < 'a'.val) : c = d := by
  unfold Char.toLower at h
  split at h
  · next hupper =>
    subst h
    have hlow : 'A'.val ≤ c.val := hupper.1
    have hhigh : c.val ≤ 'Z'.val := hupper.2
    simp only [UInt32.lt_iff_toNat_lt, UInt32.le_iff_toNat_le, UInt32.toNat_add] at hd hlow hhigh
    change (c.val.toNat + 32) % 4294967296 < 97 at hd
    change 65 ≤ c.val.toNat at hlow
    change c.val.toNat ≤ 90 at hhigh
    omega
  · exact h

/-- An extension holds no dot and no slash. -/
theorem plain_of_extension? {ext : String} (h : extension? path = some ext) :
    (∃ name, fileName? path = some name) ∧ '.' ∉ ext.toList ∧ '/' ∉ ext.toList := by
  obtain ⟨⟨before,after⟩,hsplit,rfl⟩ := Option.map_eq_some_iff.mp h
  obtain ⟨name,hname,hsplit⟩ := Option.bind_eq_some_iff.mp hsplit
  obtain ⟨rfl,hdot⟩ := splitDot_eq_some_iff.mp (Option.filter_eq_some_iff.mp hsplit).1
  have hslash : '/' ∉ after := fun hmem =>
    notMem_of_fileName? hname (List.mem_append_right _ (List.mem_cons_of_mem _ hmem))
  rw [String.toList_ofList, List.mem_map, List.mem_map]
  refine ⟨⟨_, hname⟩, ?_, ?_⟩
  · rintro ⟨c,hc,he⟩
    exact hdot (eq_of_toLower_eq he (by decide) ▸ hc)
  · rintro ⟨c,hc,he⟩
    exact hslash (eq_of_toLower_eq he (by decide) ▸ hc)

end LayeredConfig.Path
