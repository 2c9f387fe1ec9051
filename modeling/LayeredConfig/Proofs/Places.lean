import LayeredConfig.Digits
import LayeredConfig.Files.Write
import LayeredConfig.Proofs.Results
import Mathlib.Data.List.Perm.Subperm
import Mathlib.Data.List.Nodup
import Mathlib.Data.List.Range

/-! # Places of a file tree

What stands where after a change to a tree, and where a path leads. A file that is moved to a path comes to
stand where the path then leads: only directories are passed on the way, and a change to a file leaves those as
they were.
-/
namespace LayeredConfig.FileTree
variable {t u : FileTree} {place q here there directory : Place} {bytes more : ByteArray} {path : String}
  {pieces before rest : List (List Char)} {piece : List Char}

theorem lookup_filter_ne (entries : List (Place × Entry)) (hne : q ≠ place) :
    (entries.filter (·.1 ≠ place)).lookup q = entries.lookup q := by
  induction entries with
  | nil => rfl
  | cons entry rest ih =>
    obtain ⟨p,e⟩ := entry
    by_cases hp : p = place
    · subst hp
      have hqp : (q == p) = false := by simpa using hne
      simpa [List.lookup_cons, hqp] using ih
    · simp only [ne_eq, hp, not_false_eq_true, decide_true, List.filter_cons_of_pos, List.lookup_cons, ih]

theorem entry?_insert (hplace : place ≠ []) (q : Place) :
    entry? (t.insert place bytes) q = if q = place then some (.file bytes) else t.entry? q := by
  by_cases hq : q = place
  · subst hq
    simp [ entry?, insert, hplace]
  · have hqp : (q == place) = false := by simpa using hq
    simp only [ entry?, insert, List.lookup_cons, hqp, lookup_filter_ne _ hq, if_neg hq]

theorem isDirectory_insert (hplace : place ≠ []) (q : Place) :
    (t.insert place bytes).isDirectory q = if q = place then false else t.isDirectory q := by
  rw [isDirectory, entry?_insert hplace]
  by_cases hq : q = place <;> simp [hq, isDirectory]

/-- A file that is put where nothing stood takes no directory away. -/
theorem isDirectory_insert_of_free (hplace : place ≠ []) (hfree : t.entry? place = none) (q : Place) :
    (t.insert place bytes).isDirectory q = t.isDirectory q := by
  rw [isDirectory_insert hplace]
  split
  · next hq => rw [hq, isDirectory, hfree]
  · rfl

theorem insert_insert : (t.insert place bytes).insert place more = t.insert place more := by
  simp [insert, List.filter_filter]

/-- A file that was put where nothing stood leaves nothing behind. -/
theorem erase_insert (hplace : place ≠ []) (hfree : t.entry? place = none) :
    (t.insert place bytes).erase place = t := by
  rw [ entry?, if_neg hplace, List.lookup_eq_none_iff] at hfree
  have hentries : t.entries.filter (·.1 ≠ place) = t.entries := by
    rw [List.filter_eq_self]
    intro entry hentry
    have hne : place ≠ entry.1 := by simpa using hfree entry hentry
    exact decide_eq_true hne.symm
  simp only [insert, erase, ne_eq, not_true_eq_false, decide_false, Bool.false_eq_true, not_false_eq_true,
    List.filter_cons_of_neg, List.filter_filter, Bool.and_self]
  exact congrArg (FileTree.mk · t.working) hentries

/-! ## Free places -/

theorem temporaryName_injective : Function.Injective temporaryName := by
  intro n m h
  exact Digits.toString_injective ((String.append_right_inj _).mp h)

theorem freePlace_ne_nil : t.freePlace directory ≠ [] := by simp [freePlace]

/-- Were all the names taken, there would be more entries than there are. -/
theorem entry?_freePlace : t.entry? (t.freePlace directory) = none := by
  cases hfind : (List.range (t.entries.length + 1)).find? fun n =>
      (t.entry? (directory ++ [temporaryName n])).isNone with
  | some n =>
    have hfree := List.find?_some hfind
    simpa [freePlace, hfind] using hfree
  | none =>
    exfalso
    let places := (List.range (t.entries.length + 1)).map fun n => directory ++ [temporaryName n]
    have hnodup : places.Nodup := by
      refine List.Nodup.map ?_ List.nodup_range
      intro n m h
      exact temporaryName_injective (by simpa using h)
    have hsubset : places ⊆ t.entries.map (·.1) := by
      intro p hp
      obtain ⟨n,hn,rfl⟩ := List.mem_map.mp hp
      have htaken := List.find?_eq_none.mp hfind n hn
      cases hlookup : t.entries.lookup (directory ++ [temporaryName n]) with
      | none => simp [ entry?, hlookup] at htaken
      | some entry =>
        obtain ⟨l,r,he,-⟩ := List.lookup_eq_some_iff.mp hlookup
        simp [he]
    have hlength := (hnodup.subperm hsubset).length_le
    simp only [places, List.length_map, List.length_range] at hlength
    omega

/-! ## Paths -/

theorem isDirectory_iff : t.isDirectory place = true ↔ t.entry? place = some .directory := by
  unfold isDirectory
  split <;> simp_all

theorem isDirectory_of_walk (hne : pieces ≠ []) (h : t.walk here pieces = .ok there) :
    t.isDirectory here = true := by
  cases pieces with
  | nil => exact absurd rfl hne
  | cons piece rest =>
    by_contra hd
    rw [Bool.not_eq_true] at hd
    simp [walk, hd] at h

/-- A way on from a directory starts there, in every tree that has the directories that are passed. -/
theorem walk_append (last : List Char) (hdirs : ∀ p, t.isDirectory p = true → u.isDirectory p = true)
    (h : t.walk here (pieces ++ [[]]) = .ok directory) :
    u.isDirectory directory = true ∧ u.walk here (pieces ++ [last]) = u.walk directory [last] := by
  have hhere : t.isDirectory here = true := isDirectory_of_walk (by simp) h
  induction pieces generalizing here with
  | nil =>
    simp only [List.nil_append, walk, hhere, Path.isVoid, Bool.not_true, Bool.false_eq_true, ↓reduceIte,
      decide_true, Bool.true_or, Except.ok.injEq] at h
    subst h
    exact ⟨hdirs here hhere, rfl⟩
  | cons piece rest ih =>
    have hhere' := hdirs here hhere
    simp only [List.cons_append, walk, hhere, hhere', Bool.not_true, Bool.false_eq_true, ↓reduceIte] at h ⊢
    split
    · next hvoid => simp only [hvoid, ↓reduceIte] at h; exact ih h (isDirectory_of_walk (by simp) h)
    · next hvoid =>
      simp only [hvoid, Bool.false_eq_true, ↓reduceIte] at h
      split
      · next hup => simp only [hup, ↓reduceIte] at h; exact ih h (isDirectory_of_walk (by simp) h)
      · next hup =>
        simp only [hup, ↓reduceIte] at h
        split at h
        · cases h
        · next hlong =>
          split at h
          · have hnext := isDirectory_of_walk (by simp) h
            have hentry : (u.entry? (here ++ [String.ofList piece])).isSome = true := by
              rw [isDirectory_iff.mp (hdirs _ hnext)]
              rfl
            simp only [hlong, hentry, ↓reduceIte]
            exact ih h hnext
          · cases h

def start (t : FileTree) : List (List Char) → Place
  | [] :: _ => []
  | _ => t.working

/-- The pieces that are walked along: an empty first piece only says that the way begins at the root. -/
def steps : List (List Char) → List (List Char)
  | [] :: rest => rest
  | pieces => pieces

theorem locatePieces_append (h : before ≠ [] ∨ piece ≠ []) :
    t.locatePieces (before ++ [piece]) = t.walk (t.start before) (steps before ++ [piece]) := by
  match before with
  | [] => cases piece with
    | nil => simp at h
    | cons c cs => rfl
  | [] :: [] => rfl
  | [] :: _ :: _ => rfl
  | (_ :: _) :: _ => rfl

/-- A path to which a file can be moved ends in a name, and the pieces before it lead to a directory. -/
theorem replaceable_eq_ok (h : t.replaceable path = .ok place) :
    ∃ before last directory, Path.pieces path.toList = before ++ [last] ∧
      Path.isVoid last = false ∧ last ≠ ['.', '.'] ∧
      (if before = [] then .ok t.working else t.locatePieces (before ++ [[]])) = .ok directory ∧
      directory ++ [String.ofList last] = place ∧ t.isDirectory place = false := by
  simp only [replaceable] at h
  cases hreversed : (Path.pieces path.toList).reverse with
  | nil => simp [hreversed] at h
  | cons last before =>
    have hpieces : Path.pieces path.toList = before.reverse ++ [last] := by
      rw [← List.reverse_reverse (Path.pieces path.toList), hreversed, List.reverse_cons]
    simp only [hreversed] at h
    split at h
    · cases h
    · next hlast =>
      cases hlast
      split at h
      · split at h
        · cases h
        · split at h <;> cases h
      · split at h
        · cases h
        · next hname =>
          simp only [Bool.or_eq_true, decide_eq_true_eq, not_or, Bool.not_eq_true] at hname
          have hdirectory : ∃ directory,
              (if before.reverse = [] then .ok t.working else t.locatePieces (before.reverse ++ [[]])) =
                  .ok directory ∧
                (if t.isDirectory (directory ++ [String.ofList last]) = true then
                    (.error .isADirectory : Except IoKind Place)
                  else .ok (directory ++ [String.ofList last])) = .ok place := by
            cases before <;> simpa [bind_eq_ok_iff] using h
          obtain ⟨directory,hdirectory,hplace⟩ := hdirectory
          split at hplace
          · cases hplace
          · next hd =>
            cases hplace
            exact ⟨_, last, directory, hpieces, hname.1, hname.2, hdirectory, rfl, by simpa using hd⟩
    · next hnil => cases hnil

/-- If a path can be looked at, the most that can happen on the way along it is that something is missing. -/
theorem inspect_eq_ok (h : t.inspect path = .ok ()) :
    path.toList.contains '\x00' = false ∧ path.utf8ByteSize ≤ pathLimit ∧
      ∀ kind, t.locatePieces (Path.pieces path.toList) = .error kind → kind = .notFound := by
  simp only [inspect, locate] at h
  by_cases hnul : path.toList.contains '\x00' = true
  · simp only [hnul, ↓reduceIte, reduceCtorEq] at h
  · by_cases hlong : pathLimit < path.utf8ByteSize
    · simp only [hnul, hlong, ↓reduceIte, reduceCtorEq] at h
    · refine ⟨by simpa using hnul, by omega, fun kind hkind => ?_⟩
      simp only [hnul, hlong, hkind, ↓reduceIte] at h
      cases kind <;> first | rfl | cases h

/-- Where a file is moved to by a path is where the path then leads, in every tree with the same directories. -/
theorem locate_of_replaceable (hi : t.inspect path = .ok ()) (hr : t.replaceable path = .ok place)
    (hworking : u.working = t.working) (hdirs : ∀ p, t.isDirectory p = true → u.isDirectory p = true)
    (hentry : (u.entry? place).isSome = true) : u.locate path = .ok place := by
  obtain ⟨before,last,directory,hpieces,hvoid,hup,hdirectory,rfl,-⟩ := replaceable_eq_ok hr
  obtain ⟨hnul,hlong,hfound⟩ := inspect_eq_ok hi
  have hlast : last ≠ [] := by
    rintro rfl
    cases hvoid
  rw [hpieces, locatePieces_append (.inr hlast)] at hfound
  -- a path that is a name alone starts in the working directory, which was looked at with it
  have hwalk : t.walk (t.start before) (steps before ++ [[]]) = .ok directory := by
    by_cases hbefore : before = []
    · subst hbefore
      have hworking : t.isDirectory t.working = true := by
        by_contra hd
        rw [Bool.not_eq_true] at hd
        simpa [walk, start, steps, hd] using hfound .notADirectory
      rw [← Except.ok.inj hdirectory]
      simp [walk, start, steps, hworking, Path.isVoid]
    · rw [← locatePieces_append (.inl hbefore)]
      simpa only [hbefore, if_false] using hdirectory
  have hstart : u.start before = t.start before := by
    unfold start
    split
    · rfl
    · exact hworking
  have hshort : ¬nameLimit < (String.ofList last).utf8ByteSize := by
    intro hname
    obtain ⟨hd,hw⟩ := walk_append last (fun _ => id) hwalk
    simpa [hw, walk, hd, hvoid, hup, hname] using hfound .invalidFilename
  obtain ⟨hd,hw⟩ := walk_append last hdirs hwalk
  rw [locate, hnul, if_neg (by simp), if_neg (by omega), hpieces, locatePieces_append (.inr hlast), hstart, hw]
  simp [walk, hd, hvoid, hup, hshort, hentry]

end LayeredConfig.FileTree
