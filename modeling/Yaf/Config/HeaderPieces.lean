import Yaf.Config.HeaderBuffer
import Yaf.Php.Path
import Yaf.Php.Strtok

namespace Yaf
open Base

def trimBlanks (s : Bytes) : Bytes := trimRight (· == blank) (s.dropWhile (· == blank))

/-- The pieces of a header between its colons, without the blanks around them. -/
def headerPieces (key : Bytes) : List Bytes := (key.splitOn colon).map trimBlanks

/-- The copy is not left, the first piece is the name, and the others that are not empty are the
parents, the last one first. -/
def HeaderCut (key : Bytes) : Prop :=
  ∃ name parents, headerBuffer key = some (name, parents) ∧
    (headerPieces key).head? = some name ∧
      parents.reverse = (headerPieces key).tail.filter (· ≠ [])

/-- The header is not a colon alone, nor only blanks and colons from a colon on, and in one with a
NUL no colon stands before the last other character. -/
structure HeaderFits (key : Bytes) : Prop where
  lone : key.dropWhile (· == blank) ≠ [colon]
  inside : ¬(key.head? = some colon ∧ 1 < key.length ∧ ∀ c ∈ key, blankOrColon c = true)
  cut : NUL ∈ key → colon ∉ trimRight blankOrColon (key.dropWhile (· == blank))

section
variable (s t : Bytes)

theorem trimBlanks_front : trimBlanks (blank :: s) = trimBlanks s := by
  rw [trimBlanks, List.dropWhile_cons_of_pos (by decide), trimBlanks]

theorem trimBlanks_back : trimBlanks (s ++ [blank]) = trimBlanks s := by
  rw [trimBlanks, trimBlanks, List.dropWhile_append]
  split
  · rename_i h
    rw [List.isEmpty_iff.mp h]
    decide
  · exact List.rdropWhile_concat_pos _ _ _ (by decide)

theorem headerPieces_colon : headerPieces (s ++ colon :: t) = headerPieces s ++ headerPieces t := by
  rw [headerPieces, List.splitOn_append_cons_self, List.map_append, headerPieces, headerPieces]

theorem headerPieces_front : headerPieces (blank :: s) = headerPieces s := by
  obtain ⟨init, last, head, tail, hone, hs, happ⟩ := splitOn_append colon [blank] s
  rw [List.splitOn_eq_singleton (by decide)] at hone
  obtain ⟨rfl, rfl⟩ : init = [] ∧ last = [blank] := by
    cases init with
    | nil => exact ⟨rfl, (List.cons.inj hone).1.symm⟩
    | cons _ init => simp at hone
  have happ : (blank :: s).splitOn colon = (blank :: head) :: tail := happ
  rw [headerPieces, headerPieces, happ, hs, List.map_cons, List.map_cons, trimBlanks_front]

theorem headerPieces_back : headerPieces (s ++ [blank]) = headerPieces s := by
  obtain ⟨init, last, head, tail, hs, hone, happ⟩ := splitOn_append colon s [blank]
  rw [List.splitOn_eq_singleton (by decide)] at hone
  obtain ⟨rfl, rfl⟩ := List.cons.inj hone
  rw [headerPieces, headerPieces, happ, hs, List.map_append, List.map_append, List.map_singleton,
    List.map_singleton, trimBlanks_back]

theorem headerPieces_nil : headerPieces [] = [[]] := by decide

theorem headerPieces_ne_nil : headerPieces s ≠ [] := by
  simp [headerPieces, List.splitOn_ne_nil]

theorem headerPieces_dropWhile : headerPieces (s.dropWhile (· == blank)) = headerPieces s := by
  induction s with
  | nil => rfl
  | cons c s ih =>
    rw [List.dropWhile_cons]
    split
    · rename_i hc
      rw [ih, beq_iff_eq.mp hc, headerPieces_front]
    · rfl

end

/-- The names among the pieces. -/
def pieceNames (s : Bytes) : List Bytes := (headerPieces s).filter (· ≠ [])

section
variable {s : Bytes} {run : Bytes}

theorem pieceNames_colon (s t : Bytes) :
    pieceNames (s ++ colon :: t) = pieceNames s ++ pieceNames t := by
  rw [pieceNames, headerPieces_colon, List.filter_append, pieceNames, pieceNames]

/-- What is trimmed holds no name. -/
theorem pieceNames_back (hrun : ∀ c ∈ run, blankOrColon c = true) :
    pieceNames (s ++ run) = pieceNames s ∧
      (headerPieces (s ++ run)).head? = (headerPieces s).head? ∧
      (headerPieces (s ++ run)).tail.filter (· ≠ []) = (headerPieces s).tail.filter (· ≠ []) := by
  induction run using List.reverseRecOn with
  | nil => simp
  | append_singleton run c ih =>
    obtain ⟨h₁, h₂, h₃⟩ := ih (fun d hd => hrun d (by simp [hd]))
    have hc : c = blank ∨ c = colon := by simpa [blankOrColon] using hrun c (by simp)
    rw [← List.append_assoc]
    rcases hc with rfl | rfl
    · rw [pieceNames, headerPieces_back]
      exact ⟨h₁, h₂, h₃⟩
    · have hne := headerPieces_ne_nil (s ++ run)
      rw [pieceNames_colon, headerPieces_colon, headerPieces_nil, List.tail_append_of_ne_nil hne,
        List.filter_append, ← h₂, ← h₃]
      refine ⟨?_, ?_, by simp⟩
      · rw [h₁]
        simp [pieceNames, headerPieces_nil]
      · obtain ⟨p, ps, hps⟩ := List.exists_cons_of_ne_nil hne
        simp [hps]

theorem pieceNames_front (s : Bytes) : pieceNames (s.dropWhile blankOrColon) = pieceNames s := by
  induction s with
  | nil => rfl
  | cons c s ih =>
    rw [List.dropWhile_cons]
    split
    · rename_i hc
      have hc : c = blank ∨ c = colon := by simpa [blankOrColon] using hc
      rw [ih]
      rcases hc with rfl | rfl
      · rw [pieceNames, pieceNames, headerPieces_front]
      · have hcolon := pieceNames_colon [] s
        simpa [pieceNames, headerPieces_nil] using hcolon.symm
    · rfl

end

/-- Empty, or with a last character that stops the trimming. -/
def Ends (s : Bytes) : Prop := ∀ c ∈ s.getLast?, blankOrColon c = false

theorem ends_trimRight (s : Bytes) : Ends (trimRight blankOrColon s) := by
  intro c hc
  exact getLast?_trimRight hc

theorem ends_back {s t : Bytes} (h : Ends (s ++ t)) : Ends t := by
  intro c hc
  apply h c
  rw [List.getLast?_append, Option.mem_def.mp hc]
  rfl

theorem Ends.dropWhile {s : Bytes} (he : Ends s) : Ends (s.dropWhile blankOrColon) := by
  obtain ⟨front, hfront⟩ : s.dropWhile blankOrColon <:+ s := List.dropWhile_suffix _
  rw [← hfront] at he
  exact ends_back he

theorem Ends.dropWhile_ne_nil {s : Bytes} (he : Ends s) (hne : s ≠ []) :
    s.dropWhile blankOrColon ≠ [] := by
  intro hnil
  have hall := List.dropWhile_eq_nil_iff.mp hnil
  have hsolid := he _ (List.getLast?_eq_some_getLast hne)
  rw [hall _ (List.getLast_mem hne)] at hsolid
  cases hsolid

/-- A text that ends so does not end in a colon. -/
theorem Ends.behind_colon {before t : Bytes} (he : Ends (before ++ colon :: t)) :
    t ≠ [] ∧ Ends t := by
  constructor
  · intro h
    have hsolid := he colon (by simp [h])
    cases hsolid
  · apply ends_back (s := before ++ [colon])
    simpa using he

theorem solid_ne_blank {c : UInt8} (h : blankOrColon c = false) : (c == blank) = false := by
  simp only [blankOrColon, Bool.or_eq_false_iff] at h
  exact h.1

theorem trimRight_eq_self {p : UInt8 → Bool} {s : Bytes} (h : ∀ c ∈ s.getLast?, p c = false) :
    trimRight p s = s := by
  rw [trimRight, List.rdropWhile_eq_self_iff]
  intro hne
  simp [h _ (List.getLast?_eq_some_getLast hne)]

/-- No blanks stand around a text that is trimmed. -/
theorem trimBlanks_eq_self {s : Bytes} (hs : s.head? ≠ some blank) (he : Ends s) :
    trimBlanks s = s := by
  have hdrop : s.dropWhile (· == blank) = s := by
    cases s with
    | nil => rfl
    | cons c s =>
      apply List.dropWhile_cons_of_neg
      intro hc
      exact hs (by rw [beq_iff_eq.mp hc]; rfl)
  rw [trimBlanks, hdrop]
  exact trimRight_eq_self fun c hc => solid_ne_blank (he c hc)

theorem starts_head? {s : Bytes} (hs : Starts s) : s.head? ≠ some blank := by
  intro h
  have := hs blank h
  cases this

theorem headerPieces_single {s : Bytes} (hc : colon ∉ s) (hs : s.head? ≠ some blank) (he : Ends s) :
    headerPieces s = [s] := by
  rw [headerPieces, List.splitOn_eq_singleton hc, List.map_singleton, trimBlanks_eq_self hs he]

/-- The text behind the last colon is one name. -/
theorem pieceNames_last {t : Bytes} (hc : colon ∉ t) (he : Ends t) (hne : t ≠ []) :
    pieceNames t = [(colon :: t).dropWhile blankOrColon] := by
  have hdrop : (colon :: t).dropWhile blankOrColon = t.dropWhile blankOrColon :=
    List.dropWhile_cons_of_pos rfl
  have hkept := he.dropWhile_ne_nil hne
  have hc' : colon ∉ t.dropWhile blankOrColon := fun h => hc ((List.dropWhile_sublist _).subset h)
  rw [hdrop, ← pieceNames_front, pieceNames,
    headerPieces_single hc' (starts_head? (starts_dropWhile t)) he.dropWhile]
  simp [hkept]

theorem trimRight_ne_nil {s : Bytes} (hs : Starts s) (hne : s ≠ []) :
    trimRight blankOrColon s ≠ [] := by
  intro h
  obtain ⟨c, hc, hsolid⟩ := exists_solid hs hne
  rw [List.rdropWhile_eq_nil_iff.mp h c hc] at hsolid
  cases hsolid

theorem pieceNames_trimRight (s : Bytes) :
    pieceNames (trimRight blankOrColon s) = pieceNames s ∧
      (headerPieces (trimRight blankOrColon s)).head? = (headerPieces s).head? ∧
      (headerPieces (trimRight blankOrColon s)).tail.filter (· ≠ []) =
        (headerPieces s).tail.filter (· ≠ []) := by
  have happend : trimRight blankOrColon s ++ s.rtakeWhile blankOrColon = s :=
    List.rdropWhile_append_rtakeWhile
  have hback := pieceNames_back (s := trimRight blankOrColon s)
    (fun c hc => List.mem_rtakeWhile_imp (p := blankOrColon) (l := s) hc)
  rw [happend] at hback
  exact ⟨hback.1.symm, hback.2.1.symm, hback.2.2.symm⟩

/-- The loop over the parents finds the names, the last one first. -/
theorem sectionParents_pieces (n : Nat) :
    ∀ {s : Bytes}, s.length ≤ n → Starts s → Ends s → s ≠ [] →
      (sectionParents n s).reverse = pieceNames s := by
  induction n with
  | zero =>
    intro s hn _ _ hne
    exact absurd (List.eq_nil_of_length_eq_zero (Nat.le_zero.mp hn)) hne
  | succ n ih =>
    intro s hn hs he hne
    by_cases hc : colon ∈ s
    · obtain ⟨before, t, rfl, ht⟩ := exists_last_colon hc
      have hb : Starts before := hs.front (List.prefix_append _ _)
      have hbne : before ≠ [] := by
        intro h
        have hsolid := hs colon (by rw [h]; rfl)
        cases hsolid
      obtain ⟨htne, het⟩ := he.behind_colon
      rw [sectionParents_last ht, List.reverse_cons, ih (length_trimRight_lt hn)
        (starts_trimRight hb) (ends_trimRight before) (trimRight_ne_nil hb hbne),
        (pieceNames_trimRight before).1, pieceNames_colon, pieceNames_last ht het htne]
    · rw [sectionParents_none hc, pieceNames, headerPieces_single hc (starts_head? hs) he]
      simp [hne]

theorem mem_dropWhile {p : UInt8 → Bool} {s : Bytes} {c : UInt8} (hp : p c = false) (hc : c ∈ s) :
    c ∈ s.dropWhile p := by
  rw [← List.takeWhile_append_dropWhile (p := p) (l := s), List.mem_append] at hc
  rcases hc with hc | hc
  · have := List.mem_takeWhile_imp hc
    rw [hp] at this
    cases this
  · exact hc

theorem colon_not_mem_piece {s piece : Bytes} (h : piece ∈ headerPieces s) : colon ∉ piece := by
  obtain ⟨raw, hraw, rfl⟩ := List.mem_map.mp h
  intro hc
  apply not_mem_of_mem_splitOn hraw
  exact (List.dropWhile_sublist _).subset ((List.rdropWhile_prefix _ _).subset hc)

/-- No parent holds a character the list does not hold. -/
theorem mem_sectionParents {c : UInt8} (n : Nat) :
    ∀ {s parent : Bytes}, parent ∈ sectionParents n s → c ∈ parent → c ∈ s := by
  induction n with
  | zero =>
    intro s parent h hc
    rw [sectionParents, List.mem_singleton] at h
    exact h ▸ hc
  | succ n ih =>
    intro s parent h hc
    by_cases hcolon : colon ∈ s
    · obtain ⟨before, t, rfl, ht⟩ := exists_last_colon hcolon
      rw [sectionParents_last ht, List.mem_cons] at h
      rcases h with rfl | h
      · exact List.mem_append_right _ ((List.dropWhile_sublist _).subset hc)
      · exact List.mem_append_left _ ((List.rdropWhile_prefix _ _).subset (ih h hc))
    · rw [sectionParents_none hcolon, List.mem_singleton] at h
      exact h ▸ hc

/-- The text before the first colon is the first piece. -/
theorem headerPieces_trimRight {before : Bytes} (hc : colon ∉ before)
    (hs : before.head? ≠ some blank) :
    (headerPieces before).head? = some (trimRight blankOrColon before) := by
  have hfree : colon ∉ trimRight blankOrColon before :=
    fun h => hc ((List.rdropWhile_prefix _ _).subset h)
  have hstart : (trimRight blankOrColon before).head? ≠ some blank :=
    fun h => hs (head?_of_front (List.rdropWhile_prefix _ _) h)
  rw [← (pieceNames_trimRight before).2.1,
    headerPieces_single hfree hstart (ends_trimRight before), List.head?_cons]

section
variable {text : Bytes} (hb : text.head? ≠ some blank) (he : Ends text)
include hb he

/-- Without a NUL behind a colon the trimmed header is cut into its pieces. -/
theorem trimmedHeader_pieces (hn : NUL ∈ text → colon ∉ text) :
    (headerPieces text).head? = some (trimmedHeader text).1 ∧
      (trimmedHeader text).2.reverse = (headerPieces text).tail.filter (· ≠ []) := by
  by_cases hc : colon ∈ text
  · have hcstr := cstr_of_no_nul (fun h => hn h hc)
    obtain ⟨before, t, rfl, hbefore⟩ := List.eq_append_cons_of_mem hc
    have hne : ∀ c ∈ before, (c != colon) = true := bne_of_not_mem hbefore
    have het : Ends (colon :: t) := ends_back he
    have hseg := het.dropWhile_ne_nil (by simp)
    have hfirst := headerPieces_trimRight hbefore
      (fun h => hb (head?_of_front (List.prefix_append _ _) h))
    have hsingle : headerPieces before = [trimBlanks before] := by
      rw [headerPieces, List.splitOn_eq_singleton hbefore, List.map_singleton]
    have hparents := sectionParents_pieces _ le_rfl (starts_dropWhile (colon :: t)) het.dropWhile
      hseg
    have hnames : pieceNames ((colon :: t).dropWhile blankOrColon) = pieceNames t := by
      rw [List.dropWhile_cons_of_pos (by rfl), pieceNames_front]
    rw [trimmedHeader, hcstr, if_pos hc, List.takeWhile_append_of_pos hne,
      List.dropWhile_append_of_pos hne, List.takeWhile_cons_of_neg (by simp),
      List.dropWhile_cons_of_neg (by simp), List.append_nil, headerPieces_colon, hsingle]
    rw [hsingle] at hfirst
    dsimp only
    rw [hparents, hnames]
    exact ⟨hfirst, rfl⟩
  · have hcstr : colon ∉ cstr text := fun h => hc ((List.takeWhile_prefix _).subset h)
    rw [trimmedHeader, if_neg hcstr, headerPieces_single hc hb he]
    simp

end

/-- Behind a NUL a colon is not seen. -/
theorem trimmedHeader_nul {text : Bytes} (hn : NUL ∈ text) (hc : colon ∈ text)
    (hname : (headerPieces text).head? = some (trimmedHeader text).1) :
    (trimmedHeader text).2.reverse ≠ (headerPieces text).tail.filter (· ≠ []) := by
  intro hparents
  by_cases hcut : colon ∈ cstr text
  · obtain ⟨before, t, hsplit, hbefore⟩ := List.eq_append_cons_of_mem hcut
    obtain ⟨rest, hrest⟩ : cstr text <+: text := List.takeWhile_prefix _
    have hnul := nul_not_mem_cstr text
    have htext : text = before ++ colon :: (t ++ rest) := by
      rw [← hrest, hsplit, List.append_assoc, List.cons_append]
    have hnulrest : NUL ∈ t ++ rest := by
      rw [htext, List.mem_append, List.mem_cons] at hn
      rcases hn with hn | hn | hn
      · exact absurd (by rw [hsplit]; simp [hn]) hnul
      · exact absurd hn (by decide)
      · exact hn
    obtain ⟨piece, hpiece, hmem⟩ := exists_mem_splitOn (show NUL ≠ colon by decide) hnulrest
    have hkept : NUL ∈ trimBlanks piece :=
      mem_trimRight (by decide) (mem_dropWhile (by decide) hmem)
    have hlisted : trimBlanks piece ∈ (headerPieces text).tail.filter (· ≠ []) := by
      rw [htext, headerPieces_colon, List.tail_append_of_ne_nil (headerPieces_ne_nil before),
        List.mem_filter]
      refine ⟨List.mem_append_right _ (List.mem_map_of_mem hpiece), ?_⟩
      simpa using List.ne_nil_of_mem hkept
    rw [← hparents, List.mem_reverse, trimmedHeader, if_pos hcut] at hlisted
    have hseg := mem_sectionParents _ hlisted hkept
    exact hnul ((List.dropWhile_sublist _).subset ((List.dropWhile_sublist _).subset hseg))
  · rw [trimmedHeader, if_neg hcut] at hname
    obtain ⟨ps, hps⟩ := List.head?_eq_some_iff.mp hname
    exact colon_not_mem_piece (s := text) (by rw [hps]; simp) hc

theorem sectionHeader_trimmed {key : Bytes} (hl : key.dropWhile (· == blank) ≠ [colon]) :
    sectionHeader key =
      if key.head? = some colon ∧ 1 < key.length ∧ key.all blankOrColon = true then none
      else some (trimmedHeader (trimRight blankOrColon (key.dropWhile (· == blank)))) := by
  have hhead := head?_dropWhile_blank key
  have hself : key.head? = some colon → key.dropWhile (· == blank) = key := by
    intro h
    obtain ⟨t, rfl⟩ := List.head?_eq_some_iff.mp h
    exact List.dropWhile_cons_of_neg (by decide)
  rw [sectionHeader_eq]
  dsimp only
  by_cases hlong : 1 < (key.dropWhile (· == blank)).length
  · rw [if_pos hlong]
    apply if_congr _ rfl rfl
    constructor
    · intro h
      obtain ⟨_, hnil, hlen⟩ := h
      have hsame : key.dropWhile (· == blank) = key :=
        (List.dropWhile_suffix _).eq_of_length hlen
      rw [hsame] at hlong hnil hhead
      have hall := List.rdropWhile_eq_nil_iff.mp hnil
      obtain ⟨c, t, rfl⟩ := List.exists_cons_of_ne_nil (l := key) (by
        intro h
        simp [h] at hlong)
      have hc : c = blank ∨ c = colon := by simpa [blankOrColon] using hall c (by simp)
      have hcolon : c = colon := hc.resolve_left (fun h => hhead (by rw [h]; rfl))
      exact ⟨by rw [hcolon]; rfl, hlong, List.all_eq_true.mpr hall⟩
    · intro h
      obtain ⟨hcolon, _, hall⟩ := h
      rw [hself hcolon] at hlong ⊢
      exact ⟨hlong, List.rdropWhile_eq_nil_iff.mpr (List.all_eq_true.mp hall), rfl⟩
  · have hsolid : ∀ c ∈ (key.dropWhile (· == blank)).getLast?, blankOrColon c = false := by
      generalize key.dropWhile (· == blank) = skey at hl hhead hlong
      intro c hc
      cases skey with
      | nil => cases hc
      | cons d skey =>
        obtain rfl : skey = [] := by simpa using hlong
        obtain rfl : d = c := by simpa using hc
        have hblank : d ≠ blank := fun h => hhead (by rw [h]; rfl)
        have hcolon : d ≠ colon := fun h => hl (by rw [h])
        simp [blankOrColon, hblank, hcolon]
    have hinside : ¬(key.head? = some colon ∧ 1 < key.length ∧ key.all blankOrColon = true) := by
      intro h
      obtain ⟨hcolon, hlen, _⟩ := h
      rw [hself hcolon] at hlong
      exact hlong hlen
    rw [if_neg hlong, if_neg (fun h => hlong h.1), if_neg hinside, trimRight_eq_self hsolid]

theorem header_cut_iff (key : Bytes) : HeaderCut key ↔ HeaderFits key := by
  have hfirst := headerPieces_dropWhile key
  have hhead := head?_dropWhile_blank key
  obtain ⟨-, hname, hrest⟩ := pieceNames_trimRight (key.dropWhile (· == blank))
  rw [hfirst] at hname hrest
  have hstart : (trimRight blankOrColon (key.dropWhile (· == blank))).head? ≠ some blank := by
    intro h
    exact hhead (head?_of_front (List.rdropWhile_prefix _ _) h)
  rw [HeaderCut, headerBuffer_eq, ← hname, ← hrest]
  constructor
  · intro h
    obtain ⟨name, parents, hheader, hn, hp⟩ := h
    have hlone : key.dropWhile (· == blank) ≠ [colon] := by
      intro h
      have hcolon : sectionHeader key = some ([], [[]]) := by
        have hempty : trimmedHeader [colon] = ([], [[]]) := by decide
        rw [sectionHeader_eq, h]
        simp [hempty]
      rw [hcolon, Option.some.injEq, Prod.mk.injEq] at hheader
      have hempty : [] ∈ parents.reverse := by simp [← hheader.2]
      rw [hp] at hempty
      simp at hempty
    rw [sectionHeader_trimmed hlone] at hheader
    split at hheader
    · cases hheader
    · rename_i hinside
      rw [List.all_eq_true] at hinside
      refine ⟨hlone, hinside, fun hnul hc => ?_⟩
      have hheader := Option.some.inj hheader
      have hkept : NUL ∈ trimRight blankOrColon (key.dropWhile (· == blank)) :=
        mem_trimRight (by decide) (mem_dropWhile (by decide) hnul)
      apply trimmedHeader_nul hkept hc
      · rw [hheader, hn]
      · rw [hheader, hp]
  · intro h
    have hinside := h.inside
    rw [← List.all_eq_true] at hinside
    rw [sectionHeader_trimmed h.lone, if_neg hinside]
    have hcut := trimmedHeader_pieces hstart (ends_trimRight _) (fun hnul => h.cut ?_)
    · exact ⟨_, _, rfl, hcut.1, hcut.2⟩
    · exact (List.dropWhile_sublist _).subset ((List.rdropWhile_prefix _ _).subset hnul)

/-- A header of colons alone is scanned out of its copy, and a lone colon inherits from the section
without a name. -/
theorem header_of_colons : ¬HeaderCut [colon, colon] ∧ ¬HeaderCut [colon] := by
  have hout : headerBuffer [colon, colon] = none := by
    rw [headerBuffer_eq]
    decide
  have hlone : headerBuffer [colon] = some ([], [[]]) := by
    rw [headerBuffer_eq]
    decide
  constructor
  · intro h
    obtain ⟨name, parents, hheader, _⟩ := h
    rw [hout] at hheader
    cases hheader
  · intro h
    obtain ⟨name, parents, hheader, _, hp⟩ := h
    obtain ⟨rfl, rfl⟩ : [] = name ∧ [[]] = parents := by simpa [hlone] using hheader
    revert hp
    decide

end Yaf
