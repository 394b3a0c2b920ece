import Yaf.Base.Buffer
import Yaf.Config.Ini

namespace Yaf
open Base

/-- The last colon is the one no other follows. -/
theorem strrchrColon_last {s t : Bytes} (ht : Yaf.colon ∉ t) :
    strrchrColon (s ++ Yaf.colon :: t) = some (s, Yaf.colon :: t) := by
  have hidx : (s ++ Yaf.colon :: t).reverse.idxOf Yaf.colon = t.length := by
    have : Yaf.colon ∉ t.reverse := by simpa using ht
    rw [List.reverse_append, List.reverse_cons, List.append_assoc, List.idxOf_append_of_notMem this]
    simp
  rw [strrchrColon, if_pos (by simp), hidx]
  have hlen : (s ++ Yaf.colon :: t).length - 1 - t.length = s.length := by
    simp only [List.length_append, List.length_cons]
    omega
  rw [hlen, List.take_left, List.drop_left]

/-- Trim around the separator at `last`, in a text that starts at `start`: backwards unless it
starts the text, then forwards. The answer is where the text behind it starts. -/
def clearSeparator (buf : Bytes) (start last : Nat) : Option (Bytes × Nat) :=
  let before := if start < last then (Buffer.clearBack blankOrColon NUL buf last).map Prod.fst
    else some buf
  before.bind fun buf => Buffer.clearFront blankOrColon NUL buf last

/-- The loop over the parents in the copy of a header, whose list starts at `seg`: the names it
looks up, `seg` itself last, and the copy it leaves. `none` stands for an access outside of it. -/
def parentsLoop : Nat → Bytes → Nat → Option (List Bytes × Bytes)
  | 0, _, _ => none
  | fuel + 1, buf, seg => do
    let text ← Buffer.text? NUL buf seg
    match strrchrColon text with
    | none => some ([text], buf)
    | some (before, _) =>
      let (buf, name) ← clearSeparator buf seg (seg + before.length)
      let parent ← Buffer.text? NUL buf name
      let (parents, buf) ← parentsLoop fuel buf seg
      some (parent :: parents, buf)

/-- The trimmed header at `skey`: the name it is stored under, and its parents. -/
def headerNames (buf : Bytes) (skey skeyLen : Nat) : Option (Bytes × List Bytes) := do
  let text ← Buffer.text? NUL buf skey
  if colon ∈ text then
    let (buf, seg) ← clearSeparator buf skey (skey + text.idxOf colon)
    let (parents, buf) ← parentsLoop buf.length buf seg
    let name ← Buffer.text? NUL buf skey
    some (name, parents)
  else if skey + skeyLen ≤ buf.length then some ((buf.drop skey).take skeyLen, [])
  else none

/-- What `yaf_config_ini_parser_cb` does in the copy of a header. -/
def headerBuffer (key : Bytes) : Option (Bytes × List Bytes) := do
  let (buf, skey) ← Buffer.clearFront (· == blank) NUL (key ++ [NUL]) 0
  let skeyLen := key.length - skey
  if 1 < skeyLen then
    let (buf, stop) ← Buffer.clearBack blankOrColon NUL buf (skey + skeyLen)
    headerNames buf skey (skeyLen - (skey + skeyLen - stop))
  else headerNames buf skey skeyLen

/-- Empty, or with a first character that stops the trimming. -/
def Starts (s : Bytes) : Prop := ∀ c ∈ s.head?, blankOrColon c = false

theorem starts_dropWhile (s : Bytes) : Starts (s.dropWhile blankOrColon) := by
  intro c hc
  have h := List.head?_dropWhile_not blankOrColon s
  rw [Option.mem_def.mp hc] at h
  simpa using h

theorem head?_of_front {s t : Bytes} {c : UInt8} (h : s <+: t) (hc : s.head? = some c) :
    t.head? = some c := by
  obtain ⟨rest, rfl⟩ := h
  rw [List.head?_append, hc]
  rfl

theorem Starts.front {s t : Bytes} (ht : Starts t) (h : s <+: t) : Starts s :=
  fun c hc => ht c (head?_of_front h hc)

/-- A text that starts with such a character keeps it. -/
theorem starts_trimRight {s : Bytes} (hs : Starts s) : Starts (trimRight blankOrColon s) :=
  hs.front (List.rdropWhile_prefix _ _)

/-- Trimming around a separator leaves no NUL where there was none. -/
theorem nul_not_mem_trimmed {before t : Bytes} (h : NUL ∉ before ++ colon :: t) :
    NUL ∉ trimRight blankOrColon before ∧ NUL ∉ (colon :: t).dropWhile blankOrColon := by
  constructor
  · intro hm
    exact h (List.mem_append_left _ ((List.rdropWhile_prefix _ _).subset hm))
  · intro hm
    exact h (List.mem_append_right _ ((List.dropWhile_sublist _).subset hm))

theorem exists_solid {s : Bytes} (hs : Starts s) (hne : s ≠ []) :
    ∃ c ∈ s, blankOrColon c = false := by
  obtain ⟨c, t, rfl⟩ := List.exists_cons_of_ne_nil hne
  exact ⟨c, by simp, hs c (by simp)⟩

/-- The last colon, with what is before and behind it. -/
theorem exists_last_colon {s : Bytes} (hs : colon ∈ s) :
    ∃ before t, s = before ++ colon :: t ∧ colon ∉ t := by
  obtain ⟨t, before, hrev, ht⟩ := List.eq_append_cons_of_mem (List.mem_reverse.mpr hs)
  refine ⟨before.reverse, t.reverse, ?_, by simpa using ht⟩
  rw [← List.reverse_reverse s, hrev]
  simp

theorem sectionParents_none {s : Bytes} (hs : colon ∉ s) (fuel : Nat) :
    sectionParents fuel s = [s] := by
  have hno : strrchrColon s = none := by simp [strrchrColon, hs]
  cases fuel <;> simp [sectionParents, hno]

theorem sectionParents_last {t : Bytes} (ht : colon ∉ t) (fuel : Nat) (before : Bytes) :
    sectionParents (fuel + 1) (before ++ colon :: t) =
      (colon :: t).dropWhile blankOrColon ::
        sectionParents fuel (trimRight blankOrColon before) := by
  rw [sectionParents, strrchrColon_last ht]

theorem length_trimRight_lt {n : Nat} {before t : Bytes}
    (h : (before ++ colon :: t).length ≤ n + 1) :
    (trimRight blankOrColon before).length ≤ n := by
  have hle : (trimRight blankOrColon before).length ≤ before.length :=
    (List.rdropWhile_prefix _ _).length_le
  simp only [List.length_append, List.length_cons] at h
  omega

/-- Fuel for the characters is enough. -/
theorem sectionParents_fuel (n : Nat) :
    ∀ {m : Nat} {s : Bytes}, s.length ≤ n → s.length ≤ m →
      sectionParents n s = sectionParents m s := by
  induction n with
  | zero =>
    intro m s hn _
    obtain rfl := List.eq_nil_of_length_eq_zero (Nat.le_zero.mp hn)
    rw [sectionParents_none (by simp), sectionParents_none (by simp)]
  | succ n ih =>
    intro m s hn hm
    by_cases hc : colon ∈ s
    · obtain ⟨before, t, rfl, ht⟩ := exists_last_colon hc
      obtain ⟨m, rfl⟩ := Nat.exists_eq_succ_of_ne_zero (show m ≠ 0 by simp at hm; omega)
      rw [sectionParents_last ht, sectionParents_last ht,
        ih (length_trimRight_lt hn) (length_trimRight_lt hm)]
    · rw [sectionParents_none hc, sectionParents_none hc]

/-- The separator behind a text, trimmed from both sides: at least its colon goes. -/
theorem clearSeparator_eq {before : Bytes} (hb : Starts before) (pre t post : Bytes) :
    ∃ k, clearSeparator (pre ++ (before ++ colon :: t ++ NUL :: post)) pre.length
        (pre.length + before.length) =
      some (pre ++ (trimRight blankOrColon before ++ NUL :: List.replicate k NUL) ++
          ((colon :: t).dropWhile blankOrColon ++ NUL :: post),
        (pre ++ (trimRight blankOrColon before ++ NUL :: List.replicate k NUL)).length) := by
  obtain ⟨j, hback, hlen⟩ : ∃ j, (if pre.length < pre.length + before.length then
        (Buffer.clearBack blankOrColon NUL (pre ++ (before ++ colon :: t ++ NUL :: post))
          (pre.length + before.length)).map Prod.fst
      else some (pre ++ (before ++ colon :: t ++ NUL :: post))) =
        some (pre ++ (trimRight blankOrColon before ++ List.replicate j NUL) ++
          (colon :: t ++ NUL :: post)) ∧
      pre.length + before.length =
        (pre ++ (trimRight blankOrColon before ++ List.replicate j NUL)).length := by
    by_cases hne : before = []
    · subst hne
      exact ⟨0, by simp [trimRight], by simp [trimRight]⟩
    · have hpos : pre.length < pre.length + before.length := by
        have := List.length_pos_iff.mpr hne
        omega
      have happend : before.rdropWhile blankOrColon ++ before.rtakeWhile blankOrColon = before :=
        List.rdropWhile_append_rtakeWhile
      refine ⟨(before.rtakeWhile blankOrColon).length, ?_, ?_⟩
      · rw [if_pos hpos, List.append_assoc before, Buffer.clearBack_text (exists_solid hb hne)]
        simp [trimRight]
      · have hlen := congrArg List.length happend
        simp only [List.length_append, List.length_replicate, trimRight] at hlen ⊢
        omega
  have htake : (colon :: t).takeWhile blankOrColon = colon :: t.takeWhile blankOrColon :=
    List.takeWhile_cons_of_pos rfl
  refine ⟨j + (t.takeWhile blankOrColon).length, ?_⟩
  have hfill : ∀ m, List.replicate j NUL ++ List.replicate (m + 1) NUL =
      NUL :: List.replicate (j + m) NUL := by
    intro m
    rw [← List.replicate_add, ← Nat.add_assoc, List.replicate_succ]
  rw [clearSeparator, hback]
  rw [Option.bind_some, hlen, Buffer.clearFront_text (show blankOrColon NUL = false from rfl),
    htake,
    List.length_cons, ← hfill]
  simp only [List.append_assoc, List.length_append, List.length_replicate, Nat.add_assoc]

/-- The loop looks up the parents, and leaves what is before the list alone. -/
theorem parentsLoop_eq (pre : Bytes) (n : Nat) :
    ∀ {s post : Bytes}, s.length ≤ n → NUL ∉ s → Starts s →
      ∃ after, parentsLoop (n + 1) (pre ++ (s ++ NUL :: post)) pre.length =
        some (sectionParents n s, pre ++ after) := by
  induction n with
  | zero =>
    intro s post hn hnul _
    obtain rfl := List.eq_nil_of_length_eq_zero (Nat.le_zero.mp hn)
    refine ⟨NUL :: post, ?_⟩
    rw [parentsLoop, Buffer.text?_middle hnul, sectionParents_none (by simp)]
    rfl
  | succ n ih =>
    intro s post hn hnul hs
    rw [parentsLoop, Buffer.text?_middle hnul]
    by_cases hc : colon ∈ s
    · obtain ⟨before, t, rfl, ht⟩ := exists_last_colon hc
      have hb : Starts before := hs.front (List.prefix_append _ _)
      obtain ⟨hkept, hname⟩ := nul_not_mem_trimmed hnul
      obtain ⟨k, hclear⟩ := clearSeparator_eq hb pre t post
      have hshape : pre ++ (trimRight blankOrColon before ++ NUL :: List.replicate k NUL) ++
          ((colon :: t).dropWhile blankOrColon ++ NUL :: post) =
          pre ++ (trimRight blankOrColon before ++ NUL :: (List.replicate k NUL ++
            ((colon :: t).dropWhile blankOrColon ++ NUL :: post))) := by simp
      obtain ⟨after, hrec⟩ := ih (length_trimRight_lt hn) hkept (starts_trimRight hb)
      refine ⟨after, ?_⟩
      rw [sectionParents_last ht]
      simp only [Option.bind_eq_bind, Option.bind_some, strrchrColon_last ht]
      rw [hclear, Option.bind_some, Buffer.text?_middle hname, Option.bind_some, hshape, hrec,
        Option.bind_some]
    · refine ⟨s ++ NUL :: post, ?_⟩
      have hno : strrchrColon s = none := by simp [strrchrColon, hc]
      rw [sectionParents_none hc]
      simp only [Option.bind_eq_bind, Option.bind_some, hno]

/-- A header trimmed at both ends: its name and its parents. -/
def trimmedHeader (text : Bytes) : Bytes × List Bytes :=
  if colon ∈ cstr text then
    let seg := ((cstr text).dropWhile (· != colon)).dropWhile blankOrColon
    (trimRight blankOrColon ((cstr text).takeWhile (· != colon)), sectionParents seg.length seg)
  else (text, [])

/-- Before its first colon a text that does not start with a blank starts with no colon either. -/
theorem starts_before_colon {text before t : Bytes} (ht : text.head? ≠ some blank)
    (hsplit : cstr text = before ++ colon :: t) (hc : colon ∉ before) : Starts before := by
  intro c hcb
  obtain ⟨before, rfl⟩ := List.head?_eq_some_iff.mp hcb
  have hfirst : (cstr text).head? = some c := by
    rw [hsplit]
    rfl
  have hblank : c ≠ blank := by
    intro h
    exact ht (h ▸ head?_of_front (List.takeWhile_prefix _) hfirst)
  have hcolon : c ≠ colon := by
    intro h
    exact hc (by simp [h])
  simp [blankOrColon, hblank, hcolon]

theorem headerNames_eq {text : Bytes} (ht : text.head? ≠ some blank) (pre post : Bytes) :
    headerNames (pre ++ (text ++ NUL :: post)) pre.length text.length =
      some (trimmedHeader text) := by
  have hnul := nul_not_mem_cstr text
  obtain ⟨post', hpost⟩ : ∃ post', text ++ NUL :: post = cstr text ++ NUL :: post' := by
    rcases cstr_split text with h | ⟨t, h⟩
    · exact ⟨post, by rw [← h]⟩
    · exact ⟨t ++ NUL :: post, by conv_lhs => rw [h, List.append_assoc, List.cons_append]⟩
  rw [headerNames, hpost, Buffer.text?_middle hnul, trimmedHeader]
  simp only [Option.bind_eq_bind, Option.bind_some]
  split
  · rename_i hc
    obtain ⟨before, t, hsplit, hbefore⟩ := List.eq_append_cons_of_mem hc
    have hb := starts_before_colon ht hsplit hbefore
    have hne : ∀ c ∈ before, (c != colon) = true := bne_of_not_mem hbefore
    have hidx : (cstr text).idxOf colon = before.length := by
      rw [hsplit, List.idxOf_append_of_notMem hbefore]
      simp
    have htake : (cstr text).takeWhile (· != colon) = before := by
      rw [hsplit, List.takeWhile_append_of_pos hne]
      simp
    have hdrop : (cstr text).dropWhile (· != colon) = colon :: t := by
      rw [hsplit, List.dropWhile_append_of_pos hne]
      simp
    rw [hsplit] at hnul
    obtain ⟨hname, hseg⟩ := nul_not_mem_trimmed hnul
    obtain ⟨k, hclear⟩ := clearSeparator_eq hb pre t post'
    rw [hidx, htake, hdrop, hsplit, hclear, Option.bind_some]
    dsimp only
    generalize hfront :
      pre ++ (trimRight blankOrColon before ++ NUL :: List.replicate k NUL) = front
    -- the copy is longer than the list, so the loop over the parents ends
    obtain ⟨n, hn⟩ := Nat.exists_eq_succ_of_ne_zero (show
      (front ++ ((colon :: t).dropWhile blankOrColon ++ NUL :: post')).length ≠ 0 by simp)
    have hfuel : ((colon :: t).dropWhile blankOrColon).length ≤ n := by
      have hlen := hn
      simp only [List.length_append, List.length_cons] at hlen
      omega
    obtain ⟨after, hloop⟩ := parentsLoop_eq front n hfuel hseg (starts_dropWhile _)
    have hshape : front ++ after = pre ++ (trimRight blankOrColon before ++
        NUL :: (List.replicate k NUL ++ after)) := by
      rw [← hfront]
      simp
    rw [hn, hloop, Option.bind_some]
    dsimp only
    rw [hshape, Buffer.text?_middle hname, Option.bind_some, sectionParents_fuel n hfuel le_rfl]
  · rename_i hc
    rw [if_pos, ← hpost, List.drop_left, List.take_left]
    rw [← hpost]
    simp only [List.length_append]
    omega

theorem sectionHeader_eq (key : Bytes) :
    sectionHeader key =
      let skey := key.dropWhile (· == blank)
      let trimmed := if 1 < skey.length then trimRight blankOrColon skey else skey
      if 1 < skey.length ∧ trimmed = [] ∧ skey.length = key.length then none
      else some (trimmedHeader trimmed) := by
  rw [sectionHeader]
  dsimp only
  generalize (if 1 < (key.dropWhile (· == blank)).length then
    trimRight blankOrColon (key.dropWhile (· == blank)) else key.dropWhile (· == blank)) = trimmed
  rw [trimmedHeader]
  split_ifs <;> rfl

theorem head?_dropWhile_blank (key : Bytes) :
    (key.dropWhile (· == blank)).head? ≠ some blank := by
  intro h
  have hnot := List.head?_dropWhile_not (· == blank) key
  rw [h] at hnot
  simp at hnot

/-- Behind a cleared blank a header of blanks and colons is trimmed to nothing. -/
theorem headerNames_blank {skey : Bytes} (hall : ∀ c ∈ skey, blankOrColon c = true) (n : Nat) :
    ((Buffer.clearBack blankOrColon NUL (List.replicate (n + 1) NUL ++ (skey ++ [NUL]))
        (n + 1 + skey.length)).bind fun p =>
      headerNames p.1 (n + 1) (skey.length - (n + 1 + skey.length - p.2))) =
        some (trimmedHeader []) := by
  have hrun := Buffer.clearBack_run (c := NUL) (z := NUL) rfl hall (List.replicate n NUL) [NUL]
  have hbuf : List.replicate (n + 1) NUL ++ (skey ++ [NUL]) =
      List.replicate n NUL ++ NUL :: (skey ++ [NUL]) := by
    rw [List.replicate_succ', List.append_assoc, List.singleton_append]
  have hrest : List.replicate n NUL ++ NUL :: (List.replicate skey.length NUL ++ [NUL]) =
      List.replicate (n + 1) NUL ++ ([] ++ NUL :: List.replicate skey.length NUL) := by
    rw [List.replicate_succ' (n := n), List.append_assoc, List.singleton_append, List.nil_append,
      ← List.replicate_succ', List.replicate_succ]
  have hend := @headerNames_eq [] (by simp) (List.replicate (n + 1) NUL)
    (List.replicate skey.length NUL)
  rw [List.length_replicate] at hrun hend
  rw [hbuf, hrun, Option.bind_some, hrest, Nat.add_sub_cancel_left, Nat.sub_self]
  exact hend

/-- Any other header loses its trailing blanks and colons. -/
theorem headerNames_trimmed {skey : Bytes} (hhead : skey.head? ≠ some blank)
    (hsome : ∃ c ∈ skey, blankOrColon c = false) (cleared : Bytes) :
    ((Buffer.clearBack blankOrColon NUL (cleared ++ (skey ++ [NUL]))
        (cleared.length + skey.length)).bind fun p =>
      headerNames p.1 cleared.length (skey.length - (cleared.length + skey.length - p.2))) =
        some (trimmedHeader (trimRight blankOrColon skey)) := by
  have hkept : (trimRight blankOrColon skey).head? ≠ some blank :=
    fun h => hhead (head?_of_front (List.rdropWhile_prefix _ _) h)
  have hend := headerNames_eq hkept cleared
    (List.replicate (skey.rtakeWhile blankOrColon).length NUL)
  have hle : (trimRight blankOrColon skey).length ≤ skey.length :=
    (List.rdropWhile_prefix _ _).length_le
  have hcount : skey.length - (cleared.length + skey.length -
      (cleared.length + (trimRight blankOrColon skey).length)) =
      (trimRight blankOrColon skey).length := by omega
  rw [Buffer.clearBack_text hsome, ← List.replicate_succ', List.replicate_succ, Option.bind_some]
  dsimp only
  rw [← trimRight, hcount, hend]

/-- The accesses in the copy of a header, one by one, come to what `sectionHeader` says. -/
theorem headerBuffer_eq (key : Bytes) : headerBuffer key = sectionHeader key := by
  have hfront := Buffer.clearFront_text (p := (· == blank)) (z := NUL) (by decide) [] key []
  rw [List.nil_append, List.nil_append, List.length_nil, Nat.zero_add] at hfront
  have hkey : key.takeWhile (· == blank) ++ key.dropWhile (· == blank) = key :=
    List.takeWhile_append_dropWhile
  have hhead := head?_dropWhile_blank key
  rw [headerBuffer, hfront, sectionHeader_eq]
  generalize key.takeWhile (· == blank) = blanks, key.dropWhile (· == blank) = skey at hkey hhead ⊢
  have hlen : key.length - blanks.length = skey.length := by
    rw [← hkey, List.length_append, Nat.add_sub_cancel_left]
  simp only [Option.bind_eq_bind, Option.bind_some, hlen]
  by_cases hlong : 1 < skey.length
  · rw [if_pos hlong, if_pos hlong]
    by_cases hall : ∀ c ∈ skey, blankOrColon c = true
    · have hnil : trimRight blankOrColon skey = [] := List.rdropWhile_eq_nil_iff.mpr hall
      rw [hnil]
      cases blanks with
      | nil =>
        have hout := Buffer.clearBack_outside (z := NUL) hall [NUL]
        have hsame : skey.length = key.length := by rw [← hkey, List.nil_append]
        rw [if_pos ⟨hlong, rfl, hsame⟩, List.length_nil, Nat.zero_add, List.replicate_zero,
          List.nil_append, hout, Option.bind_none]
      | cons c blanks =>
        -- the scan stops at a blank that was cleared
        have hshort : ¬skey.length = key.length := by
          rw [← hkey, List.length_append, List.length_cons]
          omega
        rw [if_neg (fun h => hshort h.2.2)]
        exact headerNames_blank hall blanks.length
    · have hsome : ∃ c ∈ skey, blankOrColon c = false := by simpa using hall
      have hne : trimRight blankOrColon skey ≠ [] := by
        intro h
        exact hall (List.rdropWhile_eq_nil_iff.mp h)
      have hend := headerNames_trimmed hhead hsome (List.replicate blanks.length NUL)
      rw [List.length_replicate] at hend
      rw [if_neg (fun h => hne h.2.1)]
      exact hend
  · rw [if_neg hlong, if_neg hlong, if_neg (fun h => hlong h.1)]
    have hend := headerNames_eq hhead (List.replicate blanks.length NUL) []
    rw [List.length_replicate] at hend
    exact hend

end Yaf
