import Yaf.Base.Segments
import Yaf.Php.Bytes

namespace Yaf
open Base

/-- The pieces of a class name: it is cut at every underscore up to its first NUL, but its first
character is stepped over without a look. -/
def autoloadPieces : Bytes → Bytes × List Bytes
  | [] => ([], [])
  | c :: s =>
    match (cstr s).splitOn underscore with
    | [] => ([c], [])
    | piece :: pieces => (c :: piece, pieces)

/-- `directory/Piece/Piece/Last.ext`, the path `yaf_internal_autoload` imports. All but the last
piece are lowered when asked for. The last one is read up to a NUL. -/
def autoloadPath (lowcasePath : Bool) (ext directory fileName : Bytes) : Bytes :=
  let (first, rest) := autoloadPieces fileName
  let pieces := first :: rest
  let dirs := slash :: pieces.dropLast.flatMap fun p => p ++ [slash]
  let dirs := if lowcasePath then dirs.map toLower else dirs
  directory ++ dirs ++ cstr (pieces.getLast?.getD []) ++ dot :: ext

/-- A class name read as a path: underscores become slashes, but not at the start. -/
def asPath : Bytes → Bytes
  | [] => []
  | c :: s =>
    if c = NUL ∧ underscore ∉ cstr s then []
    else c :: (cstr s).map fun d => if d = underscore then slash else d

/-- The two texts differ in the case of letters only. -/
def SameCi (s t : Bytes) : Prop := s.map toLower = t.map toLower

namespace SameCi

theorem refl (s : Bytes) : SameCi s s := rfl

theorem append {s s' t t' : Bytes} (hs : SameCi s s') (ht : SameCi t t') :
    SameCi (s ++ t) (s' ++ t') := by
  rw [SameCi, List.map_append, List.map_append, hs, ht]

theorem cons {s t : Bytes} (c : UInt8) (h : SameCi s t) : SameCi (c :: s) (c :: t) := by
  rw [SameCi, List.map_cons, List.map_cons, h]

theorem trans {s t u : Bytes} (h₁ : SameCi s t) (h₂ : SameCi t u) : SameCi s u := Eq.trans h₁ h₂

end SameCi

theorem toLower_toLower (c : UInt8) : toLower (toLower c) = toLower c := by
  unfold toLower
  grind

theorem toLower_toUpper (c : UInt8) : toLower (toUpper c) = toLower c := by
  unfold toLower toUpper
  grind

theorem toLower_same (s : Bytes) : SameCi (s.map toLower) s := by
  simp [SameCi, toLower_toLower, Function.comp_def]

theorem autoloadPieces_cons (c : UInt8) (s : Bytes) :
    ∃ piece pieces, (cstr s).splitOn underscore = piece :: pieces ∧
      autoloadPieces (c :: s) = (c :: piece, pieces) := by
  cases h : (cstr s).splitOn underscore with
  | nil => exact absurd h (List.splitOn_ne_nil _ _)
  | cons piece pieces => exact ⟨piece, pieces, rfl, by simp [autoloadPieces, h]⟩

/-- The pieces before the last and the last up to its NUL spell the name as a path. -/
theorem autoloadPieces_asPath (name : Bytes) :
    let pieces := (autoloadPieces name).1 :: (autoloadPieces name).2
    (pieces.dropLast.flatMap fun p => p ++ [slash]) ++ cstr (pieces.getLast?.getD []) =
      asPath name := by
  cases name with
  | nil => rfl
  | cons c s =>
    obtain ⟨piece, pieces, hsplit, hpieces⟩ := autoloadPieces_cons c s
    have hrep := intercalate_splitOn_replace underscore slash (cstr s)
    rw [hsplit] at hrep
    rw [hpieces]
    cases pieces with
    | nil =>
      have hno : underscore ∉ cstr s := by
        intro hm
        obtain ⟨t, u, htu⟩ := List.append_of_mem hm
        rw [htu, List.splitOn_append_cons_self] at hsplit
        have := congrArg List.length hsplit
        have ht := List.length_pos_iff.mpr (List.splitOn_ne_nil underscore t)
        have hu := List.length_pos_iff.mpr (List.splitOn_ne_nil underscore u)
        simp at this
        omega
      rw [List.splitOn_eq_singleton hno, List.cons.injEq] at hsplit
      obtain ⟨rfl, -⟩ := hsplit
      by_cases hc : c = NUL
      · rw [asPath, if_pos ⟨hc, hno⟩]
        simp [hc, cstr]
      · have hcs : cstr (c :: cstr s) = c :: cstr s :=
          cstr_of_no_nul (by simp [Ne.symm hc, nul_not_mem_cstr])
        have hmap : ((cstr s).map fun d => if d = underscore then slash else d) = cstr s := by
          rw [← hrep]
          simp
        simp [asPath, hc, hcs, hmap]
    | cons p ps =>
      have hlast : NUL ∉ (p :: ps).getLast?.getD [] := by
        intro hm
        rw [List.getLast?_eq_some_getLast (List.cons_ne_nil p ps), Option.getD_some] at hm
        refine nul_not_mem_cstr s (mem_of_mem_splitOn (a := underscore) ?_ hm)
        rw [hsplit]
        exact List.mem_cons_of_mem _ (List.getLast_mem _)
      have hus : underscore ∈ cstr s := by
        by_contra hno
        rw [List.splitOn_eq_singleton hno] at hsplit
        simp at hsplit
      have hjoin := flatMap_dropLast_append slash (List.cons_ne_nil (c :: piece) (p :: ps))
      rw [intercalate_cons_of_ne_nil slash (List.cons_ne_nil p ps)] at hjoin
      rw [intercalate_cons_of_ne_nil slash (List.cons_ne_nil p ps)] at hrep
      simp only [List.getLast?_cons_cons] at hjoin ⊢
      rw [cstr_of_no_nul hlast, hjoin, asPath, if_neg (by simp [hus]), ← hrep]
      simp

/-- The directory stands in front of the path. -/
theorem autoloadPath_directory (lowcasePath : Bool) (ext directory file : Bytes) :
    autoloadPath lowcasePath ext directory file =
      directory ++ autoloadPath lowcasePath ext [] file := by
  simp [autoloadPath, List.append_assoc]

/-- The imported path is the class name read as a path, up to the case of its letters. -/
theorem autoloadPath_asPath (lowcasePath : Bool) (ext directory name : Bytes) :
    ∃ x, SameCi x (asPath name) ∧
      autoloadPath lowcasePath ext directory name = directory ++ slash :: (x ++ dot :: ext) := by
  have hpath := autoloadPieces_asPath name
  simp only at hpath
  rw [← hpath]
  cases lowcasePath
  · exact ⟨_, SameCi.refl _, by simp [autoloadPath]⟩
  · refine ⟨_, SameCi.append (toLower_same _) (SameCi.refl _), ?_⟩
    simp [autoloadPath, (toLower_slash slash).mpr rfl]

end Yaf
