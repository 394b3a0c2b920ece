import Mathlib.Data.List.Nodup
import Yaf.Exception

namespace Yaf

/-- The code of a file, as far as importing goes. It goes on with what a call returned. -/
inductive FileCode where
  | done
  | exit
  | throw (code : Nat)
  | load (file : Bytes) (k : Bool → FileCode)

/-- What the engine makes of a file: a parse error throws. -/
inductive FileText where
  | unreadable
  | parseError
  | fatal
  | code (script : FileCode)

/-- The files: where `realpath` finds one, the name the engine records for an opened one, and what
is in it. And the library of the loader, none before the loader is there. -/
structure Files where
  realpath : Bytes → Bool
  openedPath : Bytes → Bytes
  text : Bytes → FileText
  library : Option Bytes

/-- The names recorded in `included_files`, and the files whose code was run, in order. -/
structure Included where
  files : List Bytes
  executed : List Bytes
  deriving DecidableEq, Repr

/-- What importing leaves. -/
structure Imported where
  ending : Ending Nat
  ret : Bool
  state : Included

section
variable (env : Files) (run : FileCode → Included → Ending Nat × Included)

/-- `yaf_loader_import`: the file is recorded before its code runs. -/
def yafLoaderImport (path : Bytes) (s : Included) : Imported :=
  if !env.realpath (cstr path) then ⟨.finished, false, s⟩
  else
    match env.text (cstr path) with
    | .unreadable => ⟨.finished, false, s⟩
    | .parseError => ⟨.thrown 0, false, s⟩
    | .fatal => ⟨.halted, false, s⟩
    | .code script =>
      let opened := env.openedPath (cstr path)
      let r := run script ⟨s.files.insert opened, s.executed ++ [opened]⟩
      ⟨r.1, true, r.2⟩

/-- The name a call asks for: a relative one is in the library. -/
def askedPath (file : Bytes) : Option Bytes :=
  if isAbsolutePath file then some file
  else env.library.map fun library => cstr library ++ slash :: cstr file

/-- `Yaf_Loader::import`: a name that is recorded is not imported again. -/
def Files.loaderImport (file : Bytes) (s : Included) : Imported :=
  if file.isEmpty then ⟨.finished, false, s⟩
  else
    match askedPath env file with
    | none => ⟨.finished, false, s⟩
    | some path =>
      if s.files.contains path then ⟨.finished, true, s⟩ else yafLoaderImport env run path s

/-- Runs the code of a file, whose imports run the code of files by `run`. -/
def runFile : FileCode → Included → Ending Nat × Included
  | .done, s => (.finished, s)
  | .exit, s => (.halted, s)
  | .throw code, s => (.thrown code, s)
  | .load file k, s =>
    let r := env.loaderImport run file s
    match r.ending with
    | .finished => runFile (k r.ret) r.state
    | e => (e, r.state)

end

/-- The engine, with files nested this deep at most. -/
def executeFiles (env : Files) : Nat → FileCode → Included → Ending Nat × Included
  | 0 => fun _ s => (.unfinished, s)
  | depth + 1 => runFile env (executeFiles env depth)

/-- Code that imports files by the names the engine records for them. -/
def FileCode.Settled (env : Files) : FileCode → Prop
  | .load file k =>
    (∀ path, askedPath env file = some path → env.openedPath (cstr path) = path) ∧
      ∀ ret, FileCode.Settled env (k ret)
  | _ => True

/-- All files that there are, each with settled code. -/
structure Files.Holds (env : Files) (files : List Bytes) : Prop where
  settled : ∀ path script, env.text path = .code script → FileCode.Settled env script
  listed : ∀ path script, env.text path = .code script → env.openedPath path ∈ files

/-- No file was run twice, and those that were are recorded. -/
structure Included.Once (s : Included) : Prop where
  nodup : s.executed.Nodup
  recorded : ∀ path ∈ s.executed, path ∈ s.files

namespace Included

/-- The files that are not recorded yet. -/
def left (files : List Bytes) (s : Included) : Nat :=
  (files.filter fun path => !s.files.contains path).length

/-- A run that runs no file twice, records more and more, and ends where fewer files than its bound
are left. -/
def Steady (env : Files) (files : List Bytes) (bound : Nat)
    (run : FileCode → Included → Ending Nat × Included) : Prop :=
  ∀ script s, FileCode.Settled env script → Once s →
    Once (run script s).2 ∧ s.files ⊆ (run script s).2.files ∧
      (left files s < bound → (run script s).1 ≠ .unfinished)

section steady
variable {env : Files} {files : List Bytes} {bound : Nat}
  {run : FileCode → Included → Ending Nat × Included} {s : Included} {path : Bytes}

theorem left_le {t : Included} (h : s.files ⊆ t.files) : t.left files ≤ s.left files := by
  apply List.Sublist.length_le
  apply List.monotone_filter_right
  intro path hp
  simp only [Bool.not_eq_true', List.contains_eq_mem, decide_eq_false_iff_not] at hp ⊢
  intro hm
  exact hp (h hm)

/-- Recording a file that was not recorded leaves fewer. -/
theorem left_insert (hin : path ∈ files) (hnew : path ∉ s.files) (executed : List Bytes) :
    left files ⟨s.files.insert path, executed⟩ < s.left files := by
  have hfilter : (files.filter fun p => !(s.files.insert path).contains p) =
      (files.filter fun p => !s.files.contains p).filter fun p => p ≠ path := by
    rw [List.filter_filter]
    apply List.filter_congr
    intro p _
    simp [List.mem_insert_iff]
  unfold left
  rw [hfilter, List.length_filter_lt_length_iff_exists]
  exact ⟨path, List.mem_filter.mpr ⟨hin, by simpa using hnew⟩, by simp⟩

theorem once_executed (once : s.Once) (hnew : path ∉ s.files) :
    Once ⟨s.files.insert path, s.executed ++ [path]⟩ := by
  refine ⟨?_, ?_⟩
  · have hn : path ∉ s.executed := by
      intro hm
      exact hnew (once.recorded path hm)
    rw [List.nodup_append]
    refine ⟨once.nodup, List.nodup_singleton path, ?_⟩
    intro a ha b hb he
    rw [List.mem_singleton] at hb
    exact hn (hb ▸ he ▸ ha)
  · intro p hp
    rcases List.mem_append.mp hp with hp | hp
    · exact List.mem_insert_of_mem (once.recorded p hp)
    · rw [List.mem_singleton.mp hp]
      exact List.mem_insert_self

/-- One import by a settled name: the file's code runs with fewer files left. -/
theorem steady_import (hf : env.Holds files) (steady : Steady env files bound run) {file : Bytes}
    (settled : ∀ path, askedPath env file = some path → env.openedPath (cstr path) = path)
    (once : s.Once) :
    (env.loaderImport run file s).state.Once ∧
      s.files ⊆ (env.loaderImport run file s).state.files ∧
      (s.left files < bound + 1 → (env.loaderImport run file s).ending ≠ .unfinished) := by
  have hstay : s.Once ∧ s.files ⊆ s.files := ⟨once, List.Subset.refl _⟩
  unfold Files.loaderImport
  split
  · exact ⟨hstay.1, hstay.2, fun _ => by simp⟩
  · cases hpath : askedPath env file with
    | none => exact ⟨hstay.1, hstay.2, fun _ => by simp⟩
    | some path =>
      simp only
      split
      · exact ⟨hstay.1, hstay.2, fun _ => by simp⟩
      · rename_i hnew
        have hnew' : path ∉ s.files := by simpa using hnew
        unfold yafLoaderImport
        split
        · exact ⟨hstay.1, hstay.2, fun _ => by simp⟩
        · cases htext : env.text (cstr path) with
          | unreadable => exact ⟨hstay.1, hstay.2, fun _ => by simp⟩
          | parseError => exact ⟨hstay.1, hstay.2, fun _ => by simp⟩
          | fatal => exact ⟨hstay.1, hstay.2, fun _ => by simp⟩
          | code script =>
            have hopened := settled path hpath
            have hin : path ∈ files := hopened ▸ hf.listed _ _ htext
            simp only [hopened]
            obtain ⟨honce, hgrow, hends⟩ :=
              steady script ⟨s.files.insert path, s.executed ++ [path]⟩
              (hf.settled _ _ htext) (once_executed once hnew')
            refine ⟨honce, ?_, ?_⟩
            · intro p hp
              exact hgrow (List.mem_insert_of_mem hp)
            · intro hleft
              apply hends
              have := left_insert hin hnew' (s.executed ++ [path])
              omega

/-- The induction is on the code; files recorded by an import stay recorded behind it. -/
theorem steady_runFile (hf : env.Holds files) (steady : Steady env files bound run) :
    Steady env files (bound + 1) (runFile env run) := by
  intro script
  induction script with
  | load file k ih =>
    intro s settled once
    obtain ⟨honce, hgrow, hends⟩ := steady_import hf steady settled.1 once
    rw [runFile]
    cases he : (env.loaderImport run file s).ending with
    | finished =>
      simp only
      obtain ⟨honce', hgrow', hends'⟩ := ih _ (env.loaderImport run file s).state
        (settled.2 _) honce
      refine ⟨honce', List.Subset.trans hgrow hgrow', ?_⟩
      intro hleft
      apply hends'
      exact Nat.lt_of_le_of_lt (left_le hgrow) hleft
    | unfinished =>
      refine ⟨honce, hgrow, ?_⟩
      intro hleft
      exact absurd he (hends hleft)
    | _ => exact ⟨honce, hgrow, fun _ => by simp⟩
  | _ =>
    intro s _ once
    exact ⟨once, List.Subset.refl _, fun _ => by simp [runFile]⟩

theorem steady_executeFiles (hf : env.Holds files) (depth : Nat) :
    Steady env files depth (executeFiles env depth) := by
  induction depth with
  | zero =>
    intro script s _ once
    exact ⟨once, List.Subset.refl _, fun hleft => absurd hleft (Nat.not_lt_zero _)⟩
  | succ depth ih => exact steady_runFile hf ih

end steady

/-- Files that import each other by the names the engine records, in whatever cycles, come to an
end, and none of them is run twice. -/
theorem imports_end_once {env : Files} {files : List Bytes} (hf : env.Holds files)
    {script : FileCode}
    (settled : FileCode.Settled env script) {s : Included} (once : s.Once) {depth : Nat}
    (enough : files.length < depth) :
    (executeFiles env depth script s).1 ≠ .unfinished ∧
      (executeFiles env depth script s).2.executed.Nodup := by
  obtain ⟨honce, -, hends⟩ := steady_executeFiles hf depth script s settled once
  refine ⟨hends ?_, honce.nodup⟩
  exact Nat.lt_of_le_of_lt (List.length_filter_le _ _) enough

/-- Two files that import each other. -/
def sampleFiles : Files where
  realpath _ := true
  openedPath path := path
  text path :=
    if path = lit "/lib/a.php" then .code (.load (lit "b.php") fun _ => .done)
    else if path = lit "/lib/b.php" then .code (.load (lit "/lib/a.php") fun _ => .done)
    else .unreadable
  library := some (lit "/lib")

theorem sampleFiles_settled {file path : Bytes} (hp : askedPath sampleFiles file = some path)
    {k : Bool → FileCode} (hk : ∀ ret, FileCode.Settled sampleFiles (k ret))
    (plain : cstr path = path) :
    FileCode.Settled sampleFiles (.load file k) := by
  refine ⟨?_, hk⟩
  intro path' hp'
  rw [hp] at hp'
  obtain rfl := Option.some.inj hp'
  exact plain

theorem sampleFiles_holds : sampleFiles.Holds [lit "/lib/a.php", lit "/lib/b.php"] := by
  have hkeep : ∀ path script, sampleFiles.text path = .code script →
      FileCode.Settled sampleFiles script ∧ path ∈ [lit "/lib/a.php", lit "/lib/b.php"] := by
    intro path script htext
    unfold sampleFiles at htext
    simp only at htext
    split at htext
    · rename_i hpath
      cases htext
      refine ⟨sampleFiles_settled rfl (fun _ => trivial) rfl, ?_⟩
      rw [hpath]
      exact List.mem_cons_self
    · split at htext
      · rename_i hpath
        cases htext
        refine ⟨sampleFiles_settled rfl (fun _ => trivial) rfl, ?_⟩
        rw [hpath]
        exact List.mem_cons_of_mem _ List.mem_cons_self
      · cases htext
  exact ⟨fun path script h => (hkeep path script h).1, fun path script h => (hkeep path script h).2⟩

theorem imports_end_once_cycle :
    (executeFiles sampleFiles 3 (.load (lit "/lib/a.php") fun _ => .done) ⟨[], []⟩).1 ≠
    .unfinished ∧
      (executeFiles sampleFiles 3 (.load (lit "/lib/a.php") fun _ => .done)
        ⟨[], []⟩).2.executed.Nodup := by
  have settled : FileCode.Settled sampleFiles (.load (lit "/lib/a.php") fun _ => .done) :=
    sampleFiles_settled rfl (fun _ => trivial) rfl
  have once : Once ⟨[], []⟩ := by
    refine ⟨List.nodup_nil, ?_⟩
    intro path hp
    cases hp
  exact imports_end_once sampleFiles_holds settled once (by decide)

end Included
end Yaf
