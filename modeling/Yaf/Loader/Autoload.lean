import Yaf.Base.Checked
import Yaf.Dispatcher.World
import Yaf.Loader
import Yaf.Loader.Namespace
import Yaf.Php.Path
import Yaf.Route.RequestUri

namespace Yaf
open Base

inductive LoaderFault where
  /-- A character before the start of a name or behind its terminator is read. -/
  | outside
  /-- A length goes below zero. -/
  | underflow
  /-- There is no file name to read. -/
  | noName
  /-- The search for a local name leaves its list, or takes more turns. -/
  | search
  deriving DecidableEq, Repr

/-- `strncmp` from a position of a name on. -/
def strncmpAt (s : Bytes) (pos : Int) (t : Bytes) : Except LoaderFault Bool :=
  if pos < 0 ∨ (s.length : Int) < pos then .error .outside
  else .ok (strncmp (s.drop pos.toNat) t t.length)

/-- `yaf_loader_is_category`. -/
def loaderIsCategory (g : Globals) (class_ category : Bytes) : Except LoaderFault Bool :=
  let separator := g.nameSeparator
  if g.nameSuffix then
    if category.length < class_.length ∧
        strncmp (class_.drop (class_.length - category.length)) category category.length = true then
      if separator = [] then .ok true
      else strncmpAt class_ (class_.length - category.length - separator.length) separator
    else .ok false
  else
    if strncmp class_ category category.length then
      if separator = [] then .ok true
      else strncmpAt class_ category.length separator
    else .ok false

/-- The file name of a class with an affix: a copy of what stands before it, or behind it up to the
next NUL. -/
def affixFileName (g : Globals) (class_ category : Bytes) : Except LoaderFault Bytes :=
  let fileNameLen : Int := class_.length - g.nameSeparator.length - category.length
  if fileNameLen < 0 then .error .underflow
  else if g.nameSuffix then .ok (class_.take fileNameLen.toNat)
  else
    match estrdup class_ (category.length + g.nameSeparator.length) with
    | some fileName => .ok fileName
    | none => .error .outside

/-- The affixes in the order they are tested, with the directories for their classes. -/
def loaderAffixes : List (Bytes × Bytes) :=
  [(lit "Model", lit "models"), (lit "Plugin", lit "plugins"),
    (lit "Controller", lit "controllers")]

def affixedFile (g : Globals) (class_ : Bytes) :
    List (Bytes × Bytes) → Except LoaderFault (Option (Bytes × Bytes))
  | [] => .ok none
  | affix :: affixes => do
    let found ← loaderIsCategory g class_ affix.1
    if found then do
      let fileName ← affixFileName g class_ affix.1
      .ok (some (affix.2, fileName))
    else affixedFile g class_ affixes

/-- Every backslash becomes an underscore, up to the first NUL. -/
def unslashed (className : Bytes) : Bytes :=
  (cstr className).map (fun c => if c = backslash then underscore else c) ++
    className.drop (cstr className).length

/-- The class name as the autoloader goes on with it: a copy without backslashes, if it has one. -/
def plainArg (namespaces : Option Bytes) (className : ClassArg) : ClassArg :=
  if backslash ∈ cstr (askedFor namespaces className) then
    .own (unslashed (askedFor namespaces className))
  else className

/-- The loop of `yaf_internal_autoload` over what `q` goes through, with the characters since `p`.
Outside its memory it has no result. -/
def autoloadScan (piece : Bytes) : Bytes → Option (List Bytes × Bytes)
  | [] => none
  | c :: s =>
    if c = NUL then some ([], piece)
    else if c = underscore then (autoloadScan [] s).map fun p => (piece :: p.1, p.2)
    else autoloadScan (piece ++ [c]) s

/-- The first character is stepped over before any is tested. -/
def autoloadCut (fileName : Bytes) : Option (List Bytes × Bytes) :=
  match fileName ++ [NUL] with
  | [] => none
  | c :: s => autoloadScan [c] s

/-- `yaf_internal_autoload` with a directory: the path it imports. -/
def internalAutoload (g : Globals) (directory fileName : Bytes) : Except LoaderFault Bytes :=
  match autoloadCut fileName with
  | none => .error .outside
  | some (pieces, last) =>
    let dirs := slash :: pieces.flatMap fun p => p ++ [slash]
    let dirs := if g.lowcasePath then dirs.map toLower else dirs
    .ok (directory ++ dirs ++ cstr last ++ dot :: g.ext)

/-- The instance of the loader. -/
structure Loader where
  library : Bytes
  globalLibrary : Bytes
  namespaces : Option Bytes

/-- `yaf_internal_autoload` without a directory. The file name is put back by the search. -/
def libraryAutoload (g : Globals) (loader : Loader) (turns : Nat) (fileName : ClassArg) :
    Except LoaderFault Bytes :=
  match isLocalNamespace loader.namespaces fileName turns with
  | (.ended true, fileName) => internalAutoload g loader.library fileName
  | (.ended false, fileName) => internalAutoload g loader.globalLibrary fileName
  | _ => .error .search

/-- What the autoloader comes to: whether it warns of a reserved name, and the script it asks for.
-/
structure Autoload where
  reserved : Bool
  script : Option Bytes
  deriving DecidableEq, Repr

def loaderReserved (class_ : Bytes) : Bool := strncmp class_ (lit "Yaf_") 3

/-- The names that stand for models in compatible mode. -/
def isCompatibleModel (g : Globals) (class_ : Bytes) : Bool :=
  g.stCompatible && (strncmp class_ (lit "Dao_") 4 || strncmp class_ (lit "Service_") 8)

/-- A class of the application; without an application it is not asked for. -/
def applicationAutoload (g : Globals) (class_ directory fileName : Bytes) :
    Except LoaderFault Autoload :=
  match g.directory with
  | none => .ok ⟨loaderReserved class_, none⟩
  | some appDir => do
    let path ← internalAutoload g (cstr appDir ++ slash :: directory) fileName
    .ok ⟨loaderReserved class_, some path⟩

/-- A class with an affix is asked for in its directory, any other in a library. -/
def classAutoload (g : Globals) (loader : Loader) (turns : Nat) (className : ClassArg)
    (affixed : Option (Bytes × Bytes)) : Except LoaderFault Autoload :=
  let class_ := askedFor loader.namespaces className
  match affixed with
  | some (directory, fileName) => applicationAutoload g class_ directory fileName
  | none =>
    if isCompatibleModel g class_ then applicationAutoload g class_ (lit "models") class_
    else do
      let path ← libraryAutoload g loader turns className
      .ok ⟨loaderReserved class_, some path⟩

/-- `Yaf_Loader::autoload`, up to the import. -/
def loaderAutoload (g : Globals) (loader : Loader) (turns : Nat) (className : ClassArg) :
    Except LoaderFault Autoload :=
  if askedFor loader.namespaces className = [] then .error .noName
  else do
    let className := plainArg loader.namespaces className
    let affixed ← affixedFile g (askedFor loader.namespaces className) loaderAffixes
    classAutoload g loader turns className affixed

/-- The settings of an application in `/app` with the defaults of the ini entries, names apart. -/
def defaultGlobals (nameSuffix : Bool) (nameSeparator : Bytes) : Globals where
  directory := some (lit "/app")
  ext := lit "php"
  lowcasePath := false
  nameSuffix := nameSuffix
  nameSeparator := nameSeparator
  actionPrefer := false
  stCompatible := false
  forwardLimit := 5
  throwException := true
  catchException := false
  viewDirectory := none

/-- Two libraries and no local names. -/
def plainLoader : Loader := ⟨lit "/app/library", lit "/lib", none⟩

theorem length_unslashed (className : Bytes) :
    (unslashed className).length = className.length := by
  have hle := (cstr_front className).length_le
  simp only [unslashed, List.length_append, List.length_map, List.length_drop]
  omega

/-- The loop cuts at the underscores, with the characters before it on the first piece. -/
theorem autoloadScan_eq (piece s : Bytes) :
    autoloadScan piece (s ++ [NUL]) =
      some ((((cstr s).splitOn underscore).modifyHead (piece ++ ·)).dropLast,
        (((cstr s).splitOn underscore).modifyHead (piece ++ ·)).getLast?.getD []) := by
  induction s generalizing piece with
  | nil => simp [autoloadScan, cstr]
  | cons c s ih =>
    rw [List.cons_append, autoloadScan]
    by_cases hnul : c = NUL
    · simp [hnul, cstr]
    · have hcut : cstr (c :: s) = c :: cstr s := by simp [cstr, hnul]
      obtain ⟨t, ts, hsplit⟩ := List.exists_cons_of_ne_nil (List.splitOn_ne_nil underscore (cstr s))
      by_cases hunderscore : c = underscore
      · rw [if_neg hnul, if_pos hunderscore, ih [], hcut, hunderscore, splitOn_cons_self, hsplit]
        simp
      · rw [if_neg hnul, if_neg hunderscore, ih (piece ++ [c]), hcut,
          List.splitOn_cons_eq_if_modifyHead, if_neg (by simpa using hunderscore), hsplit]
        simp

/-- A file name that is not empty is read inside its memory, and the path is the one of its
pieces. -/
theorem internalAutoload_eq (g : Globals) (directory : Bytes) {fileName : Bytes}
    (hne : fileName ≠ []) :
    internalAutoload g directory fileName =
      .ok (autoloadPath g.lowcasePath g.ext directory fileName) := by
  obtain ⟨c, s, rfl⟩ := List.exists_cons_of_ne_nil hne
  obtain ⟨piece, pieces, hsplit, hpieces⟩ := autoloadPieces_cons c s
  have hcut : autoloadCut (c :: s) =
      some (((c :: piece) :: pieces).dropLast, ((c :: piece) :: pieces).getLast?.getD []) := by
    rw [autoloadCut, List.cons_append]
    dsimp only
    rw [autoloadScan_eq, hsplit]
    rfl
  rw [internalAutoload, hcut, autoloadPath, hpieces]

/-- The end of an empty name is stepped over. -/
theorem internalAutoload_nil (g : Globals) (directory : Bytes) :
    internalAutoload g directory [] = .error .outside := rfl

theorem unslashed_of_no_backslash {className : Bytes} (h : backslash ∉ cstr className) :
    unslashed className = className := by
  have hsame : (cstr className).map (fun c => if c = backslash then underscore else c) =
      cstr className := by
    refine (List.map_congr_left fun c hc => ?_).trans (List.map_id _)
    rw [if_neg fun hslash : c = backslash => h (hslash ▸ hc), id_eq]
  rw [unslashed, hsame]
  exact List.prefix_iff_eq_append.mp (cstr_front className)

/-- Copied or not, every backslash of the class name becomes an underscore. -/
theorem askedFor_plainArg (namespaces : Option Bytes) (className : ClassArg) :
    askedFor namespaces (plainArg namespaces className) =
      unslashed (askedFor namespaces className) := by
  unfold plainArg
  split
  · rfl
  · rename_i hno
    rw [unslashed_of_no_backslash hno]

theorem plainArg_own (namespaces : Option Bytes) (className : Bytes) :
    plainArg namespaces (.own className) = .own (unslashed className) := by
  by_cases hslash : backslash ∈ cstr className
  · exact if_pos hslash
  · rw [unslashed_of_no_backslash hslash]
    exact if_neg hslash

/-- A search that ends puts the class name back. -/
theorem isLocalNamespace_ended {namespaces : Option Bytes} {className : ClassArg} {left : Bytes}
    {turns : Nat} {found : Bool}
    (h : isLocalNamespace namespaces className turns = (.ended found, left)) :
    left = askedFor namespaces className := by
  unfold isLocalNamespace at h
  split at h
  · cases h
    rfl
  · rename_i list
    dsimp only at h
    split at h
    · cases h
      exact (cutClassName_spec (className.text list)).2.1
    · rename_i hno
      exact absurd (congrArg Prod.fst h) (hno found)

theorem libraryAutoload_error {g : Globals} {loader : Loader} {turns : Nat} {fileName : ClassArg}
    {fault : LoaderFault} (hne : askedFor loader.namespaces fileName ≠ [])
    (h : libraryAutoload g loader turns fileName = .error fault) : fault = .search := by
  unfold libraryAutoload at h
  split at h
  · rename_i left hended
    rw [isLocalNamespace_ended hended, internalAutoload_eq g _ hne] at h
    cases h
  · rename_i left hended
    rw [isLocalNamespace_ended hended, internalAutoload_eq g _ hne] at h
    cases h
  · cases h
    rfl

end Yaf
