import LayeredConfig.Proofs.Chains
import LayeredConfig.Proofs.FileNames
import LayeredConfig.Proofs.Places

/-! # Parents implied by names

A parent that is implied by the name of a layer has a shorter name: one part of the stem is left out. Where there are
no links the canonical path of a file ends in its own name, so a chain in which all parents are implied cannot come
back to a file.
-/
namespace LayeredConfig

namespace FileTree
variable {t : FileTree} {here place : Place} {name : List Char} {first voids : List (List Char)}
variable {path canonical : String}

theorem locatePieces_eq_walk (hname : name ≠ []) :
    t.locatePieces (first ++ name :: voids) = t.walk (t.start first) (steps first ++ name :: voids) := by
  match first with
  | [] => cases name with
    | nil => exact absurd rfl hname
    | cons c cs => rfl
  | [] :: [] => rfl
  | [] :: _ :: _ => rfl
  | (_ :: _) :: _ => rfl

theorem walk_voids (hvoids : ∀ piece ∈ voids, Path.isVoid piece = true) (h : t.walk here voids = .ok place) :
    place = here ∧ (voids ≠ [] → t.isDirectory here = true) := by
  induction voids with
  | nil =>
    cases h
    exact ⟨rfl, (absurd rfl ·)⟩
  | cons piece rest ih =>
    obtain ⟨hpiece,hrest⟩ := List.forall_mem_cons.mp hvoids
    have hhere := isDirectory_of_walk (List.cons_ne_nil piece rest) h
    simp only [walk, hhere, hpiece, Bool.not_true, Bool.false_eq_true, ↓reduceIte] at h
    exact ⟨(ih hrest h).1, fun _ => hhere⟩

/-- A way to what is no directory ends in a name. -/
theorem walk_name (hvoids : ∀ piece ∈ voids, Path.isVoid piece = true) (hname : Path.isVoid name = false)
    (hup : name ≠ ['.', '.']) (h : t.walk here (first ++ name :: voids) = .ok place)
    (hplace : t.isDirectory place = false) : ∃ there, place = there ++ [String.ofList name] := by
  induction first generalizing here with
  | nil =>
    have hhere := isDirectory_of_walk (List.cons_ne_nil name voids) h
    simp only [List.nil_append, walk, hhere, hname, hup, Bool.not_true, Bool.false_eq_true, ↓reduceIte] at h
    split at h
    · cases h
    · split at h
      · obtain ⟨rfl,_⟩ := walk_voids hvoids h
        exact ⟨here, rfl⟩
      · cases h
  | cons piece rest ih =>
    have hhere := isDirectory_of_walk (List.cons_ne_nil piece _) h
    simp only [List.cons_append, walk, hhere, Bool.not_true, Bool.false_eq_true, ↓reduceIte] at h
    split at h
    · exact ih h
    · split at h
      · exact ih h
      · split at h
        · cases h
        · split at h
          · exact ih h
          · cases h

theorem locate_of_isFile (h : t.isFile path = true) :
    ∃ place, t.locate path = .ok place ∧ t.isDirectory place = false := by
  rw [isFile] at h
  split at h
  · next place hlocate =>
    refine ⟨place, hlocate, ?_⟩
    split at h
    · next hentry =>
      rw [isDirectory, hentry]
    · cases h
  · cases h

theorem locatePieces_of_locate (h : t.locate path = .ok place) :
    t.locatePieces (Path.pieces path.toList) = .ok place := by
  rw [locate] at h
  split at h
  · cases h
  · split at h
    · cases h
    · exact h

theorem placePath_concat (there : Place) (name : String) :
    placePath (there ++ [name]) = String.join (there.map ("/" ++ ·)) ++ ("/" ++ name) := by
  rw [placePath, if_neg (by simp), List.map_append, String.join_append]
  simp

/-- The canonical path of a file has the same file name. -/
theorem fileName?_canonicalPath (hf : t.isFile path = true) (hname : Path.fileName? path = some name) :
    ∃ canonical, t.canonicalPath path = .ok canonical ∧ Path.fileName? canonical = some name := by
  obtain ⟨place,hlocate,hplace⟩ := locate_of_isFile hf
  refine ⟨placePath place, by rw [canonicalPath, hlocate]; rfl, ?_⟩
  obtain ⟨first,voids,hpieces,hvoids,hvoid,hup⟩ := Path.fileName?_eq_some_iff.mp hname
  have hwalk := locatePieces_of_locate hlocate
  rw [hpieces, locatePieces_eq_walk (Path.ne_nil_of_not_isVoid hvoid)] at hwalk
  obtain ⟨there,rfl⟩ := walk_name hvoids hvoid hup hwalk hplace
  rw [placePath_concat]
  refine Path.fileName?_eq_some_iff.mpr ⟨Path.pieces (String.join (there.map ("/" ++ ·))).toList, [], ?_, nofun, hvoid, hup⟩
  simp [Path.pieces_append, Path.pieces_of_notMem (Path.notMem_of_fileName? hname)]

end FileTree

variable {files : FileView} {registry : Registry} {path found start parent upper lower : String}
variable {seen loads : List String} {layer : Layer} {layers : List Layer} {r : Except Error (List Layer)}

/-- A file name is another with one more part before its extension, in the same directory. -/
structure Refines (upper lower : String) : Prop where
  directory : Path.parent? upper = Path.parent? lower
  stem : ∃ base part, Path.stem? lower = some base ∧ '.' ∉ part ∧ Path.stem? upper = some (base ++ '.' :: part)

def stemLength (path : String) : Nat := ((Path.stem? path).getD []).length

theorem Refines.stemLength_lt (h : Refines upper lower) : stemLength lower < stemLength upper := by
  obtain ⟨base,part,hlower,_,hupper⟩ := h.stem
  simp only [stemLength, hlower, hupper, Option.getD_some, List.length_append, List.length_cons]
  omega

/-- The first document in a file names a parent, or says that there is none. -/
def DeclaresParent (files : FileView) (registry : Registry) (path : String) : Prop :=
  ∃ format text values declared, layerFormat registry path = .ok format ∧ files.read path = .ok text ∧
    format.decode text = .ok values ∧ values.head?.bind (·.field? Directive.parent.key) = some declared

theorem parent_of_loadLayer (h : loadLayer files registry path = .ok layer)
    (hundeclared : ¬ DeclaresParent files registry path) : layer.parent = impliedParent files registry path := by
  obtain ⟨format,hformat,h⟩ := bind_eq_ok_iff.mp h
  obtain ⟨text,htext,h⟩ := bind_eq_ok_iff.mp h
  obtain ⟨values,hvalues,h⟩ := bind_eq_ok_iff.mp h
  obtain ⟨implied,hparent,h⟩ := bind_eq_ok_iff.mp h
  cases h
  rw [layerParent] at hparent
  split at hparent
  · next declared hdeclared =>
    exact absurd ⟨format, text, values, declared, hformat, withFile_eq_ok_iff.mp htext,
      withFile_eq_ok_iff.mp hvalues, hdeclared⟩ hundeclared
  · exact (Except.ok.inj hparent).symm

theorem fileName?_of_loadLayer (h : loadLayer files registry path = .ok layer) :
    ∃ name, Path.fileName? path = some name := by
  obtain ⟨format,hformat,_⟩ := bind_eq_ok_iff.mp h
  rw [layerFormat] at hformat
  split at hformat
  · next hext => exact (Path.plain_of_extension? hext).1
  · cases hformat

def Registry.NamesExtensions (registry : Registry) : Prop :=
  ∀ name ∈ registry.names, '.' ∉ name.toList ∧ '/' ∉ name.toList

theorem Registry.namesExtensions_builtIn : Registry.builtIn.NamesExtensions := by
  have hnames : Registry.builtIn.names = ["json", "json-pretty", "toml", "yaml", "yml"] := by rfl
  rw [NamesExtensions, hnames]
  decide

/-- A parent that is implied is a file beside the layer, with the last part of the stem left out. -/
theorem refines_of_impliedParent (hregistry : registry.NamesExtensions)
    (h : impliedParent files registry path = some parent) :
    files.isFile parent = true ∧ ((∃ name, Path.fileName? parent = some name) → Refines path parent) := by
  obtain ⟨stem,hstem,hsome⟩ := Option.bind_eq_some_iff.mp h
  obtain ⟨⟨base,part⟩,hsplit,hfind⟩ := Option.bind_eq_some_iff.mp hsome
  obtain ⟨rfl,hpart⟩ := Path.splitDot_eq_some_iff.mp hsplit
  obtain ⟨name,hname,_⟩ := Option.map_eq_some_iff.mp hstem
  obtain ⟨directory,hdirectory⟩ := Path.exists_parent?_of_fileName? hname
  dsimp only at hfind
  split at hfind
  · cases hfind
  · next hbase =>
    refine ⟨List.find?_some hfind, ?_⟩
    obtain ⟨ext,hext,hparent⟩ := List.mem_map.mp (List.mem_of_find?_eq_some hfind)
    have hplain : '.' ∉ ext.toList ∧ '/' ∉ ext.toList := by
      rcases List.mem_append.mp hext with hown | hnamed
      · exact (Path.plain_of_extension? (Option.mem_toList.mp hown)).2
      · exact hregistry ext hnamed
    have hbase : base ≠ [] := by simpa using hbase
    have hslash : '/' ∉ base ++ '.' :: ext.toList := by
      have hstem := Path.notMem_of_stem? hstem
      simp_all
    have hvoid : Path.isVoid (base ++ '.' :: ext.toList) = false := Path.not_isVoid_of_dot hbase
    have hcandidate : parent = Path.inside directory (.ofList (base ++ '.' :: ext.toList)) := by
      rw [← hparent, directoryOf, hdirectory, Option.getD_some]
      exact congrArg _ (String.toList_injective (by simp))
    rintro ⟨file,hfile⟩
    have hbaseExt : Path.fileName? parent = some (base ++ '.' :: ext.toList) := by
      rw [hcandidate, Path.fileName?_inside directory hslash hvoid] at hfile ⊢
      split at hfile
      · cases hfile
      · next hup => exact if_neg hup
    exact {
      directory := by rw [hcandidate, Path.parent?_inside hdirectory hslash hvoid, hdirectory]
      stem := ⟨base, part, Path.stem?_of_dot hbaseExt hbase hplain.1, hpart, hstem⟩ }

def Lengthening (layers : List Layer) : Prop := layers.IsChain fun lower upper => Refines upper.path lower.path

theorem Lengthening.stemLength_lt (h : Lengthening (layer :: layers)) :
    ∀ upper ∈ layers, stemLength layer.path < stemLength upper.path := by
  have hlengths : ((layer :: layers).map fun l => stemLength l.path).IsChain (· < ·) :=
    (List.isChain_map _).mpr (List.IsChain.imp (fun _ _ hr => hr.stemLength_lt) h)
  have hpairwise := hlengths.pairwise
  rw [List.map_cons, List.pairwise_cons] at hpairwise
  exact fun upper hupper => hpairwise.1 _ (List.mem_map_of_mem hupper)

structure ImpliedOnly (files : FileView) (registry : Registry) (start : String) : Prop where
  loads : ∀ n path, ancestor files registry n start = some path →
    ∃ found layer, findLayer files registry path = some found ∧ loadLayer files registry found = .ok layer
  undeclared : ∀ n path found, ancestor files registry n start = some path →
    findLayer files registry path = some found → ¬ DeclaresParent files registry found

theorem ImpliedOnly.next (h : ImpliedOnly files registry path) (hparent : parentOf files registry path = some parent) :
    ImpliedOnly files registry parent := by
  have hstep : ∀ n, ancestor files registry (n + 1) path = ancestor files registry n parent := by
    intro n
    rw [ancestor, hparent, Option.bind_some]
  exact {
    loads := fun n p hp => h.loads (n + 1) p (hstep n ▸ hp)
    undeclared := fun n p found hp => h.undeclared (n + 1) p found (hstep n ▸ hp) }

/-- A layer without a declared parent is followed by the layers along the links from the parent that it implies. -/
theorem ImpliedOnly.of_decode {format : Format} {text : String} {values : List Value}
    (hfind : findLayer files registry path = some found) (hformat : layerFormat registry found = .ok format)
    (hread : files.read found = .ok text) (hdecode : format.decode text = .ok values)
    (hvalues : values.head?.bind (·.field? Directive.parent.key) = none)
    (hnext : ∀ parent, impliedParent files registry found = some parent → ImpliedOnly files registry parent) :
    ImpliedOnly files registry path := by
  have hparent : layerParent files registry found values = .ok (impliedParent files registry found) := by
    rw [layerParent, hvalues]
  have hload := loadLayer_of_decode hformat hread hdecode hparent
  have hundeclared : ¬ DeclaresParent files registry found := by
    rintro ⟨format',text',values',declared,hformat',hread',hdecode',hdeclared⟩
    cases hformat.symm.trans hformat'
    cases hread.symm.trans hread'
    cases hdecode.symm.trans hdecode'
    cases hvalues.symm.trans hdeclared
  have hstep : ∀ n p, ancestor files registry (n + 1) path = some p →
      ∃ parent, ImpliedOnly files registry parent ∧ ancestor files registry n parent = some p := by
    intro n p hp
    obtain ⟨parent,hof,hp⟩ := Option.bind_eq_some_iff.mp hp
    obtain ⟨found',hfind',hof⟩ := Option.bind_eq_some_iff.mp hof
    cases hfind.symm.trans hfind'
    obtain ⟨_,_,hof⟩ := Option.bind_eq_some_iff.mp hof
    rw [hload] at hof
    exact ⟨parent, hnext parent hof, hp⟩
  constructor
  · intro n p hp
    cases n with
    | zero =>
      cases hp
      exact ⟨found, _, hfind, hload⟩
    | succ n =>
      obtain ⟨parent,himplied,hp⟩ := hstep n p hp
      exact himplied.loads n p hp
  · intro n p found' hp hfound'
    cases n with
    | zero =>
      cases hp
      cases hfind.symm.trans hfound'
      exact hundeclared
    | succ n =>
      obtain ⟨parent,himplied,hp⟩ := hstep n p hp
      exact himplied.undeclared n p found' hp hfound'

theorem findLayer_of_isFile (h : files.isFile path = true) : findLayer files registry path = some path := if_pos h

section FileTree
variable {t : FileTree} {canonical : String}

/-- A file that can be loaded has a canonical path with the same stem. -/
theorem stemLength_canonicalPath (hfind : findLayer t registry path = some found)
    (hload : loadLayer t registry found = .ok layer) :
    ∃ canonical, t.canonicalPath found = .ok canonical ∧ stemLength canonical = stemLength found := by
  obtain ⟨name,hname⟩ := fileName?_of_loadLayer hload
  obtain ⟨canonical,hcanonical,hsame⟩ := FileTree.fileName?_canonicalPath (isFile_of_findLayer hfind) hname
  exact ⟨canonical, hcanonical, by rw [stemLength, stemLength, Path.stem?, Path.stem?, hname, hsame]⟩

/-- The layers that were loaded have longer and longer names above the one that is loaded next, so that this one is
not among them. -/
theorem Climbs.lengthening (hregistry : registry.NamesExtensions) (h : Climbs t registry seen layers path loads r)
    (hpath : ImpliedOnly t registry path)
    (hseen : seen.map stemLength = layers.map fun l => stemLength l.path)
    (hlayers : ∀ found layer, findLayer t registry path = some found → loadLayer t registry found = .ok layer →
      Lengthening (layer :: layers)) :
    ∃ result, r = .ok result ∧ Lengthening result := by
  obtain ⟨located,bottom,hfound,hloaded⟩ := hpath.loads 0 _ rfl
  have hlengthening := hlayers located bottom hfound hloaded
  obtain ⟨canonical,hcanonical,hlength⟩ := stemLength_canonicalPath hfound hloaded
  induction h generalizing located bottom canonical with
  | missing hfind => cases hfind.symm.trans hfound
  | unresolved hfind hunresolved =>
    cases hfind.symm.trans hfound
    cases hunresolved.symm.trans hcanonical
  | again hl hmem =>
    cases hl.find.symm.trans hfound
    cases hl.canonical.symm.trans hcanonical
    have hmap := List.mem_map_of_mem (f := stemLength) hmem
    rw [hseen] at hmap
    obtain ⟨upper,hupper,hsame⟩ := List.mem_map.mp hmap
    have hlt := hlengthening.stemLength_lt upper hupper
    rw [path_of_loadLayer hloaded, hsame, hlength] at hlt
    exact absurd hlt (lt_irrefl _)
  | broken hl _ hload =>
    cases hl.find.symm.trans hfound
    cases hload.symm.trans hloaded
  | last hl _ hload =>
    cases hl.find.symm.trans hfound
    cases hload.symm.trans hloaded
    exact ⟨_, rfl, hlengthening⟩
  | @next seen _ layers path found _ parent layer _ hl _ hload hparent _ ih =>
    cases hl.find.symm.trans hfound
    cases hl.canonical.symm.trans hcanonical
    cases hload.symm.trans hloaded
    have himplied := parent_of_loadLayer hload (hpath.undeclared 0 path found rfl hfound)
    obtain ⟨hfile,hrefines⟩ := refines_of_impliedParent hregistry (himplied.symm.trans hparent)
    have hnext : parentOf t registry path = some parent := by
      rw [hl.parentOf, hload]
      exact hparent
    have hlayers : ∀ below base, findLayer t registry parent = some below → loadLayer t registry below = .ok base →
        Lengthening (base :: layer :: layers) := by
      intro below base hbelow hbase
      cases (findLayer_of_isFile hfile).symm.trans hbelow
      refine List.isChain_cons_cons.mpr ⟨?_, hlengthening⟩
      rw [path_of_loadLayer hbase, path_of_loadLayer hload]
      exact hrefines (fileName?_of_loadLayer hbase)
    obtain ⟨below,base,hbelow,hbase⟩ := (hpath.next hnext).loads 0 parent rfl
    obtain ⟨lowest,hlowest,hsame⟩ := stemLength_canonicalPath hbelow hbase
    refine ih (hpath.next hnext) ?_ hlayers below base hbelow hbase (hlayers below base hbelow hbase) lowest
      hlowest hsame
    rw [List.map_cons, List.map_cons, hseen, hlength, path_of_loadLayer hload]

/-- Where every layer that is reached can be loaded and declares no parent, the chain is loaded. From its oldest
layer on each has the name of the one before with one more part, in the same directory. -/
theorem loadChain_implied (t : FileTree) (start : String) (h : ImpliedOnly t .builtIn start) :
    ∃ layers, loadChain t .builtIn start = .ok layers ∧ Lengthening layers := by
  obtain ⟨loads,hclimbs⟩ : ∃ loads, Climbs t .builtIn [] [] start loads (loadChain t .builtIn start) :=
    loadChainFrom_climbs List.nodup_nil (List.nil_subset _) (by simp)
  exact hclimbs.lengthening Registry.namesExtensions_builtIn h rfl fun _ layer _ _ => List.isChain_singleton layer

/-- The name of the directory has a dot, and the extension of the start is in upper case. -/
theorem loadChain_implied_upperCase :
    let t : FileTree := ⟨[(["v1.2"], .directory), (["v1.2", "app.json"], .file "null".toUTF8),
      (["v1.2", "app.eu.yaml"], .file "null".toUTF8), (["v1.2", "app.eu.prod.JSON"], .file "null".toUTF8)], []⟩
    ImpliedOnly t .builtIn "v1.2/./app.eu.prod.JSON" ∧
      ∃ layers, loadChain t .builtIn "v1.2/./app.eu.prod.JSON" = .ok layers ∧ Lengthening layers ∧
        layers.map (·.path) = ["v1.2/app.json", "v1.2/app.eu.yaml", "v1.2/./app.eu.prod.JSON"] := by
  intro t
  have hjson : Json.format.decode "null" = .ok [.null] := by rfl
  have hyaml : Yaml.format.decode "null" = .ok [.null] := by rfl
  have hbase : ImpliedOnly t .builtIn "v1.2/app.json" :=
    .of_decode rfl rfl rfl hjson rfl (by rintro parent ⟨⟩)
  have heu : ImpliedOnly t .builtIn "v1.2/app.eu.yaml" :=
    .of_decode rfl rfl rfl hyaml rfl (by rintro parent ⟨⟩; exact hbase)
  have hprod : ImpliedOnly t .builtIn "v1.2/./app.eu.prod.JSON" :=
    .of_decode rfl rfl rfl hjson rfl (by rintro parent ⟨⟩; exact heu)
  obtain ⟨layers,hload,hlengthening⟩ := loadChain_implied t _ hprod
  have hchain : loadChain t .builtIn "v1.2/./app.eu.prod.JSON" = .ok [⟨"v1.2/app.json", none, [.null]⟩,
      ⟨"v1.2/app.eu.yaml", some "v1.2/app.json", [.null]⟩,
      ⟨"v1.2/./app.eu.prod.JSON", some "v1.2/app.eu.yaml", [.null]⟩] := by rfl
  cases hchain.symm.trans hload
  exact ⟨hprod, _, hload, hlengthening, rfl⟩

end FileTree
end LayeredConfig
