import Yaf.Exception
import Yaf.Loader.Autoload

namespace Yaf
open Base

/-- The globals `yaf_application_parse_option` sets before the default names. -/
structure PathGlobals where
  directory : Option Bytes
  ext : Bytes
  bootstrap : Option Bytes
  localLibrary : Option Bytes
  localNamespaces : Option Bytes
  viewExt : Bytes
  baseUri : Option Bytes
  deriving DecidableEq, Repr

/-- How a request starts. -/
def initialPaths : PathGlobals := ⟨none, lit "php", none, none, none, lit "phtml", none⟩

/-- The byte at a position from the start of a string is a slash. Behind its bytes stand its
terminator and whatever comes next in the memory. -/
def slashAt (behind val : Bytes) (pos : Nat) : Bool := (val ++ NUL :: behind)[pos]? == some slash

/-- A directory is copied, without its last byte when the byte looked at is a slash. -/
def copyDirectory (behind val : Bytes) (pos : Nat) : Bytes :=
  if slashAt behind val pos then val.take (val.length - 1) else val

/-- The test for `directory`. -/
def applicationDirectory (behind val : Bytes) : Bytes := copyDirectory behind val (val.length - 1)

/-- The two tests for `library` look one byte further. -/
def libraryDirectory (behind val : Bytes) : Bytes := copyDirectory behind val val.length

/-- The names of `library.namespace` as they are registered. -/
def namespaceList (src : Bytes) : Bytes :=
  (src.filter (· ≠ blank)).map fun c => if c = comma then colon else c

/-- An entry that is there and a string. -/
def stringEntry (t : Table Key Zval) (name : Bytes) : Option Bytes :=
  (Table.find? t (.name name)).bind Zval.string?

def applicationOption (conf : Table Key Zval) : Except Trigger (Table Key Zval) :=
  match (Table.find? conf (.name (lit "application"))).or
      (Table.find? conf (.name (lit "yaf"))) with
  | some (.array app) => .ok app
  | _ => .error ⟨.typeError, lit "Expected an array of application configure"⟩

/-- What is taken over from `library`: a path, or an array with a path and names. -/
def parseLibrary (behind : Bytes) (library : Option Zval) (g : PathGlobals) : PathGlobals :=
  match library with
  | some (.string val) => { g with localLibrary := some (libraryDirectory behind val) }
  | some (.array options) =>
    let g := match stringEntry options (lit "directory") with
      | some val => { g with localLibrary := some (libraryDirectory behind val) }
      | none => g
    match stringEntry options (lit "namespace") with
    | some (c :: src) =>
      let registered := registerNamespaceSingle g.localNamespaces (namespaceList (c :: src))
      { g with localNamespaces := some registered }
    | _ => g
  | _ => g

/-- The extension of views, out of the array `view`. -/
def parseViewExt (view : Option Zval) (g : PathGlobals) : PathGlobals :=
  match view with
  | some (.array options) => { g with viewExt := (stringEntry options (lit "ext")).getD g.viewExt }
  | _ => g

/-- `yaf_application_parse_option` up to the entries of `dispatcher`. -/
def applicationParsePaths (behind : Bytes) (conf : Table Key Zval) (g : PathGlobals) :
    Except Trigger PathGlobals := do
  let app ← applicationOption conf
  match (Table.find? app (.name (lit "directory"))).bind Zval.text? with
  | none => .error ⟨.startupFailed, lit "Expected a directory entry in application configures"⟩
  | some dir =>
    let g := { g with
      directory := some (applicationDirectory behind dir)
      ext := (stringEntry app (lit "ext")).getD g.ext
      bootstrap := (stringEntry app (lit "bootstrap")).or g.bootstrap }
    let g := parseLibrary behind (Table.find? app (.name (lit "library"))) g
    let g := parseViewExt (Table.find? app (.name (lit "view"))) g
    .ok { g with baseUri := (stringEntry app (lit "baseUri")).or g.baseUri }

/-- `yaf_loader_instance`. An instance that is there gets the paths that are given. -/
def loaderInstance (loader : Option Loader) (namespaces libraryPath globalPath : Option Bytes) :
    Option Loader :=
  match loader with
  | some loader =>
    some ⟨libraryPath.getD loader.library, globalPath.getD loader.globalLibrary, namespaces⟩
  | none =>
    match libraryPath.or globalPath, globalPath.or libraryPath with
    | some library, some globalLibrary => some ⟨library, globalLibrary, namespaces⟩
    | _, _ => none

/-- The loader `Yaf_Application::__construct` makes when a local library is configured. The setting
of the global library is a C string. -/
def applicationLoader (loader : Option Loader) (globalLibrary library : Bytes) (g : PathGlobals) :
    Option Loader :=
  loaderInstance loader g.localNamespaces (some library)
    (if cstr globalLibrary = [] then none else some (cstr globalLibrary))

/-- A path without the slash it ends in, if it does. -/
def withoutSlash (path : Bytes) : Bytes :=
  if path.getLast? = some slash then path.dropLast else path

/-- A configuration with a usable directory and with this path of the library. -/
structure LibraryOption (conf : Table Key Zval) (path : Bytes) : Prop where
  configured : ∃ app dir, applicationOption conf = .ok app ∧
    (Table.find? app (.name (lit "directory"))).bind Zval.text? = some dir ∧
      (Table.find? app (.name (lit "library")) = some (.string path) ∨
        ∃ options, Table.find? app (.name (lit "library")) = some (.array options) ∧
          stringEntry options (lit "directory") = some path)
  filled : path ≠ []

/-- The path below a library that a class file is looked for at, behind the slash. -/
def classPath (g : Globals) (file : Bytes) : Bytes :=
  (autoloadPath g.lowcasePath g.ext [] file).tail

/-- The file of a local class is looked for behind one slash. -/
def TriedBehind (directory : Bytes) (loader : Loader) : Prop :=
  ∀ (g : Globals) (turns : Nat) (file : Bytes), file ≠ [] → file.head? ≠ some underscore →
    (isLocalNamespace loader.namespaces (.own file) turns).1 = .ended true →
      libraryAutoload g loader turns (.own file) = .ok (directory ++ slash :: classPath g file) ∧
        directory.getLast? ≠ some slash ∧
          ((classPath g file).head? = some slash → file.head? = some slash)

/-- Whatever stands behind the configured string in the memory, the library is recorded without its
slash, and its classes are looked for behind one. -/
def LibraryKept (conf : Table Key Zval) (path : Bytes) : Prop :=
  ∀ behind g, ∃ g', applicationParsePaths behind conf g = .ok g' ∧
    g'.localLibrary = some (withoutSlash path) ∧
      ∀ loader globalLibrary loader',
        applicationLoader loader globalLibrary (withoutSlash path) g' = some loader' →
          TriedBehind (withoutSlash path) loader'

section
variable {behind path : Bytes}

/-- The byte behind a string is its terminator. -/
theorem libraryDirectory_eq (behind val : Bytes) : libraryDirectory behind val = val := by
  have hnul : slashAt behind val val.length = false := by
    rw [slashAt, Base.Buffer.getElem?_middle]
    decide
  rw [libraryDirectory, copyDirectory, hnul]
  rfl

/-- The last byte of a string decides about the directory. -/
theorem applicationDirectory_eq (behind : Bytes) {val : Bytes} (hne : val ≠ []) :
    applicationDirectory behind val = withoutSlash val := by
  have hpos := List.length_pos_iff.mpr hne
  have hbyte : (val ++ NUL :: behind)[val.length - 1]? = val.getLast? := by
    rw [List.getElem?_append_left (by omega), List.getLast?_eq_getElem?]
  rw [applicationDirectory, copyDirectory, slashAt, hbyte, withoutSlash, List.dropLast_eq_take]
  simp only [beq_iff_eq]

theorem parseLibrary_path {g : PathGlobals} {library : Option Zval}
    (h : library = some (.string path) ∨ ∃ options, library = some (.array options) ∧
      stringEntry options (lit "directory") = some path) :
    (parseLibrary behind library g).localLibrary = some (libraryDirectory behind path) := by
  rcases h with rfl | ⟨options, rfl, hdirectory⟩
  · rfl
  · rw [parseLibrary, hdirectory]
    dsimp only
    split <;> rfl

theorem parseViewExt_paths (view : Option Zval) (g : PathGlobals) :
    (parseViewExt view g).directory = g.directory ∧
      (parseViewExt view g).localLibrary = g.localLibrary := by
  unfold parseViewExt
  split <;> exact ⟨rfl, rfl⟩

/-- A usable configuration is parsed, and the path of its library is recorded as it is. -/
theorem applicationParsePaths_library {conf : Table Key Zval} (h : LibraryOption conf path)
    (behind : Bytes) (g : PathGlobals) :
    ∃ g', applicationParsePaths behind conf g = .ok g' ∧ g'.localLibrary = some path := by
  obtain ⟨app, dir, happ, hdir, hlibrary⟩ := h.configured
  rw [applicationParsePaths, happ, Base.ok_bind, hdir]
  refine ⟨_, rfl, ?_⟩
  dsimp only
  rw [(parseViewExt_paths _ _).2, parseLibrary_path hlibrary, libraryDirectory_eq]

theorem parseLibrary_directory (behind : Bytes) (library : Option Zval) (g : PathGlobals) :
    (parseLibrary behind library g).directory = g.directory := by
  unfold parseLibrary
  split
  · rfl
  · dsimp only
    split <;> split <;> rfl
  · rfl

/-- The directory is recorded without its slash. -/
theorem applicationParsePaths_directory {conf app : Table Key Zval} {dir : Bytes}
    (happ : applicationOption conf = .ok app)
    (hdir : (Table.find? app (.name (lit "directory"))).bind Zval.text? = some dir)
    (behind : Bytes) (g : PathGlobals) :
    ∃ g', applicationParsePaths behind conf g = .ok g' ∧ g'.directory =
      some (withoutSlash dir) := by
  have hne : dir ≠ [] := by
    obtain ⟨v, -, hv⟩ := Option.bind_eq_some_iff.mp hdir
    exact (Zval.text?_eq_some.mp hv).2
  rw [applicationParsePaths, happ, Base.ok_bind, hdir]
  refine ⟨_, rfl, ?_⟩
  dsimp only
  rw [(parseViewExt_paths _ _).1, parseLibrary_directory, applicationDirectory_eq behind hne]

theorem autoloadPath_classPath (g : Globals) (directory file : Bytes) :
    autoloadPath g.lowcasePath g.ext directory file = directory ++ slash :: classPath g file := by
  obtain ⟨x, -, hx⟩ := autoloadPath_asPath g.lowcasePath g.ext [] file
  rw [autoloadPath_directory, classPath, hx]
  rfl

/-- The path of a class starts with a slash only when its name does. -/
theorem head?_classPath {g : Globals} {file : Bytes} (h : (classPath g file).head? = some slash) :
    file.head? = some slash := by
  obtain ⟨x, hsame, hx⟩ := autoloadPath_asPath g.lowcasePath g.ext [] file
  rw [classPath, hx, List.nil_append, List.tail_cons] at h
  cases x with
  | nil => exact absurd (Option.some.inj h) (by decide : dot ≠ slash)
  | cons d x =>
    obtain rfl : d = slash := Option.some.inj h
    cases file with
    | nil => cases hsame
    | cons c s =>
      rw [SameCi, asPath] at hsame
      split at hsame
      · cases hsame
      · have hc : toLower c = slash := (List.cons.inj hsame).1.symm
        rw [(toLower_slash c).mp hc]
        rfl

theorem applicationLoader_library {loader : Option Loader} {globalLibrary library : Bytes}
    {g : PathGlobals} {loader' : Loader}
    (h : applicationLoader loader globalLibrary library g = some loader') :
    loader'.library = library := by
  unfold applicationLoader loaderInstance at h
  cases loader with
  | some old =>
    cases h
    rfl
  | none =>
    dsimp only at h
    split at h
    · rename_i hlibrary _
      cases h
      exact (Option.some.inj hlibrary).symm
    · cases h

/-- A local class is looked for in the library of the loader. -/
theorem triedBehind_library {loader : Loader} (hend : loader.library.getLast? ≠ some slash) :
    TriedBehind loader.library loader := by
  intro g turns file hne _ hlocal
  refine ⟨?_, hend, head?_classPath⟩
  rw [libraryAutoload]
  cases hsearch : isLocalNamespace loader.namespaces (.own file) turns with
  | mk found left =>
    rw [hsearch] at hlocal
    obtain rfl : found = .ended true := hlocal
    dsimp only
    obtain rfl : left = file := isLocalNamespace_ended hsearch
    rw [internalAutoload_eq g _ hne, autoloadPath_classPath]

end

/-- The library is recorded without its trailing slash exactly when it has none. -/
theorem library_slash_iff (conf : Table Key Zval) (path : Bytes) (h : LibraryOption conf path) :
    LibraryKept conf path ↔ path.getLast? ≠ some slash := by
  constructor
  · intro hkept hend
    obtain ⟨g', hparse, hstored, -⟩ := hkept [] initialPaths
    obtain ⟨g'', hparse', hpath⟩ := applicationParsePaths_library h [] initialPaths
    rw [hparse] at hparse'
    cases hparse'
    rw [hpath, withoutSlash, if_pos hend] at hstored
    have hlen := congrArg List.length (Option.some.inj hstored)
    have hpos := List.length_pos_iff.mpr h.filled
    rw [List.length_dropLast] at hlen
    omega
  · intro hend behind g
    have hsame : withoutSlash path = path := if_neg hend
    obtain ⟨g', hparse, hpath⟩ := applicationParsePaths_library h behind g
    rw [hsame]
    refine ⟨g', hparse, hpath, ?_⟩
    intro loader globalLibrary loader' hloader
    have hlibrary := applicationLoader_library hloader
    rw [← hlibrary] at hend ⊢
    exact triedBehind_library hend

def libraryConf (path : Bytes) : Table Key Zval :=
  [(.name (lit "application"), .array [(.name (lit "directory"), .string (lit "/app/")),
    (.name (lit "library"), .string path)])]

theorem libraryOption_conf {path : Bytes} (hne : path ≠ []) :
    LibraryOption (libraryConf path) path where
  configured := ⟨_, lit "/app/", rfl, rfl, Or.inl rfl⟩
  filled := hne

theorem library_slash_sample :
    LibraryKept (libraryConf (lit "/app/library")) (lit "/app/library") :=
  (library_slash_iff _ _ (libraryOption_conf (by decide))).mpr (by decide)

/-- The directory loses its slash and the library keeps it. -/
theorem library_slash_kept :
    LibraryOption (libraryConf (lit "/app/library/")) (lit "/app/library/") ∧
      (applicationParsePaths [] (libraryConf (lit "/app/library/")) initialPaths).toOption =
        some { initialPaths with
          directory := some (lit "/app"), localLibrary := some (lit "/app/library/") } ∧
        ¬LibraryKept (libraryConf (lit "/app/library/")) (lit "/app/library/") := by
  have hparse : (applicationParsePaths [] (libraryConf (lit "/app/library/"))
      initialPaths).toOption = some { initialPaths with
        directory := some (lit "/app"), localLibrary := some (lit "/app/library/") } := by
    decide
  refine ⟨libraryOption_conf (by decide), hparse, ?_⟩
  intro hkept
  obtain ⟨g', hg', hstored, -⟩ := hkept [] initialPaths
  rw [hg', Except.toOption, Option.some.injEq] at hparse
  subst hparse
  exact absurd hstored (by decide)

end Yaf
