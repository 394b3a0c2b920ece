import Mathlib.Data.List.Induction

namespace Base
variable {α κ : Type} [DecidableEq α] {cr nl : α}

/-- Lines, each with its end behind it. -/
def writeLines (cr nl : α) (lines : List (List α)) : List α := lines.flatMap (· ++ [cr, nl])

/-- A line whose end may have two characters. -/
def lineText (cr : α) (line : List α) : List α :=
  if line.getLast? = some cr then line.dropLast else line

/-- Reads lines up to the first empty one, with what follows it. The line that is being read comes
first. -/
def readLines (cr nl : α) : List α → List α → List (List α) × List α
  | line, [] => ([line], [])
  | line, c :: s =>
    if c = nl then
      if lineText cr line = [] then ([], s)
      else (lineText cr line :: (readLines cr nl [] s).1, (readLines cr nl [] s).2)
    else readLines cr nl (line ++ [c]) s

theorem lineText_concat (line : List α) : lineText cr (line ++ [cr]) = line := by
  simp [lineText]

/-- A line without an end in it is read up to its end. -/
theorem readLines_line (cr : α) (line s : List α) {l : List α} (h : nl ∉ l) :
    readLines cr nl line (l ++ nl :: s) =
      if lineText cr (line ++ l) = [] then ([], s)
      else (lineText cr (line ++ l) :: (readLines cr nl [] s).1, (readLines cr nl [] s).2) := by
  induction l generalizing line with
  | nil => simp [readLines]
  | cons c l ih =>
    have hc : c ≠ nl := by
      intro he
      apply h
      simp [he]
    have hl : nl ∉ l := by
      intro hm
      exact h (List.mem_cons_of_mem c hm)
    rw [List.cons_append, readLines, if_neg hc, ih _ hl, List.append_assoc]
    rfl

/-- Lines that are not empty and hold no end are read back as they were written, up to the empty
line behind them, whatever comes next. -/
theorem readLines_writeLines (hcr : cr ≠ nl) {lines : List (List α)} (body : List α)
    (nonempty : ∀ l ∈ lines, l ≠ []) (plain : ∀ l ∈ lines, nl ∉ l) :
    readLines cr nl [] (writeLines cr nl lines ++ [cr, nl] ++ body) = (lines, body) := by
  induction lines with
  | nil =>
    have hn : nl ∉ [cr] := by simpa using hcr.symm
    have h := readLines_line cr [] body hn
    have hempty : lineText cr [cr] = [] := lineText_concat []
    rw [List.nil_append, if_pos hempty] at h
    exact h
  | cons l lines ih =>
    have hl : nl ∉ l ++ [cr] := by
      simp [plain l List.mem_cons_self, hcr.symm]
    have h := readLines_line cr [] (writeLines cr nl lines ++ [cr, nl] ++ body) hl
    rw [List.nil_append, lineText_concat, if_neg (nonempty l List.mem_cons_self),
      ih (fun l hl => nonempty l (List.mem_cons_of_mem _ hl))
        (fun l hl => plain l (List.mem_cons_of_mem _ hl))] at h
    rw [← h]
    simp [writeLines]

section names
variable {α : Type} [DecidableEq κ] (key : α → κ)

/-- A thing takes the place of those of its name. -/
def replaceNamed (xs : List α) (x : α) : List α := xs.filter (fun y => key y ≠ key x) ++ [x]

/-- A thing of this name is among them. -/
def hasNamed (k : κ) (xs : List α) : Bool := xs.any fun y => key y = k

/-- Of the things of a name the last one. -/
def lastOfEach : List α → List α
  | [] => []
  | x :: xs => if hasNamed key (key x) xs then lastOfEach xs else x :: lastOfEach xs

theorem hasNamed_cons (k : κ) (x : α) (xs : List α) :
    hasNamed key k (x :: xs) = (decide (key x = k) || hasNamed key k xs) := rfl

theorem hasNamed_iff {k : κ} {xs : List α} : hasNamed key k xs = true ↔ ∃ y ∈ xs, key y = k := by
  simp [hasNamed]

/-- Things that replace one another leave those whose names none of them has, and the last of each
of their own names. -/
theorem foldl_replaceNamed (acc xs : List α) :
    xs.foldl (replaceNamed key) acc =
      acc.filter (fun a => !hasNamed key (key a) xs) ++ lastOfEach key xs := by
  induction xs generalizing acc with
  | nil =>
    rw [lastOfEach, List.append_nil]
    exact (List.filter_eq_self.mpr fun _ _ => rfl).symm
  | cons x xs ih =>
    rw [List.foldl_cons, ih, replaceNamed, List.filter_append, List.filter_filter, lastOfEach,
      List.append_assoc]
    have hfront : (acc.filter fun a => !hasNamed key (key a) xs && decide (key a ≠ key x)) =
        acc.filter fun a => !hasNamed key (key a) (x :: xs) := by
      apply List.filter_congr
      intro a _
      rw [hasNamed_cons, Bool.not_or, Bool.and_comm, decide_not]
      simp [eq_comm]
    rw [hfront]
    congr 1
    rw [List.filter_cons]
    cases hx : hasNamed key (key x) xs with
    | true => rfl
    | false => rfl

/-- Of a name that has things at all, the last one is left. -/
theorem filter_lastOfEach (k : κ) (xs : List α) :
    (lastOfEach key xs).filter (fun x => key x = k) =
      (xs.filter fun x => key x = k).getLast?.toList := by
  induction xs with
  | nil => rfl
  | cons x xs ih =>
    rw [lastOfEach]
    by_cases hk : key x = k
    · subst hk
      rw [List.filter_cons, if_pos (decide_eq_true rfl)]
      cases hx : hasNamed key (key x) xs with
      | true =>
        obtain ⟨y, hy, he⟩ := (hasNamed_iff key).mp hx
        have hne : xs.filter (fun z => key z = key x) ≠ [] := by
          apply List.ne_nil_of_mem (a := y)
          rw [List.mem_filter]
          exact ⟨hy, by simpa using he⟩
        rw [if_pos rfl, ih, List.getLast?_cons_of_ne_nil hne]
      | false =>
        have hnil : xs.filter (fun z => key z = key x) = [] := by
          rw [List.filter_eq_nil_iff]
          intro y hy he
          have := (hasNamed_iff key).mpr ⟨y, hy, of_decide_eq_true he⟩
          rw [hx] at this
          cases this
        rw [if_neg Bool.false_ne_true, List.filter_cons, if_pos (decide_eq_true rfl), ih, hnil]
        rfl
    · have hdrop : ∀ ys, (x :: ys).filter (fun z => key z = k) = ys.filter fun z => key z = k := by
        intro ys
        rw [List.filter_cons, if_neg (by simpa using hk)]
      rw [hdrop]
      split
      · exact ih
      · rw [hdrop, ih]

end names
end Base
