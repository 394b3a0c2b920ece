import Yaf.Php.Pcre
import Yaf.Php.Url
import Yaf.Request.Language

namespace Yaf
open Base

def semicolon : UInt8 := 59

def blanks (n : Nat) : Bytes := List.replicate n blank

/-- A decimal between zero and one with at most three places. -/
structure QualityValue where
  whole : Bytes
  frac : Option Bytes
  whole_digits : ∀ c ∈ whole, isDigit c = true
  frac_digits : ∀ c ∈ frac.getD [], isDigit c = true
  places : (frac.getD []).length ≤ 3
  nonempty : whole ++ frac.getD [] ≠ []
  le_one : decimalValue whole (frac.getD []) ≤ 1

namespace QualityValue

def value (q : QualityValue) : ℚ := decimalValue q.whole (q.frac.getD [])

def text (q : QualityValue) : Bytes := q.whole ++ q.frac.elim [] (dot :: ·)

def zero : QualityValue where
  whole := [48]
  frac := none
  whole_digits := List.forall_mem_singleton.mpr rfl
  frac_digits := List.forall_mem_nil _
  places := by decide
  nonempty := by decide
  le_one := by decide +kernel

def half : QualityValue where
  whole := [48]
  frac := some [53]
  whole_digits := List.forall_mem_singleton.mpr rfl
  frac_digits := List.forall_mem_singleton.mpr rfl
  places := by decide
  nonempty := by decide
  le_one := by decide +kernel

def one : QualityValue where
  whole := [49]
  frac := none
  whole_digits := List.forall_mem_singleton.mpr rfl
  frac_digits := List.forall_mem_nil _
  places := by decide
  nonempty := by decide
  le_one := by decide +kernel

theorem value_zero : zero.value = 0 := by decide +kernel

theorem value_one : one.value = 1 := by decide +kernel

end QualityValue

/-- What follows a tag: a semicolon with blanks around it, and a weight. -/
structure Weighting where
  before : Nat
  after : Nat
  quality : QualityValue

def Weighting.text (w : Weighting) : Bytes :=
  blanks w.before ++ semicolon :: blanks w.after ++ qualityMark ++ w.quality.text

def isTagChar (c : UInt8) : Bool := Pcre.isAlnum c || c == 45

/-- An element of the header, with the blanks before and behind it. -/
structure LanguageElement where
  lead : Nat
  tag : Bytes
  weighting : Option Weighting
  trail : Nat
  tag_nonempty : tag ≠ []
  tag_chars : ∀ c ∈ tag, isTagChar c = true

namespace LanguageElement

/-- The element behind its leading blanks. -/
def segment (e : LanguageElement) : Bytes :=
  e.tag ++ (e.weighting.elim [] Weighting.text ++ blanks e.trail)

def text (e : LanguageElement) : Bytes := blanks e.lead ++ e.segment

/-- An element without a weight counts as one. -/
def weight (e : LanguageElement) : ℚ := e.weighting.elim 1 (·.quality.value)

/-- The blanks that get into the slice: those around the semicolon, or behind a bare tag. -/
def surplus (e : LanguageElement) : Nat := e.weighting.elim e.trail fun w => w.before + w.after

end LanguageElement

def languageHeader (es : List LanguageElement) : Bytes :=
  [comma].intercalate (es.map LanguageElement.text)

section
variable {F : Type}

/-- The doubles read the weights of the header, and tell two of them apart. -/
structure Doubles.Reads [LinearOrder F] (d : Doubles F) (round : ℚ → F) : Prop where
  zero : round 0 = d.zero
  one : round 1 = d.one
  strict : ∀ p q : QualityValue, p.value < q.value → round p.value < round q.value
  strtod : ∀ (q : QualityValue) (n : Nat), d.strtod (q.text ++ blanks n) = some (round q.value)

end

theorem mem_blanks {c : UInt8} {n : Nat} (h : c ∈ blanks n) : c = blank :=
  List.eq_of_mem_replicate h

theorem takeWhile_isDigit {s t : Bytes} (hs : ∀ c ∈ s, isDigit c = true)
    (ht : ∀ c ∈ t.head?, isDigit c = false) :
    (s ++ t).takeWhile isDigit = s ∧ (s ++ t).dropWhile isDigit = t := by
  rw [List.takeWhile_append_of_pos hs, List.dropWhile_append_of_pos hs]
  cases t with
  | nil => simp
  | cons c t =>
    have hc : isDigit c = false := ht c (by simp)
    simp [hc]

theorem head_blanks (n : Nat) : ∀ c ∈ (blanks n).head?, isDigit c = false := by
  intro c hc
  obtain rfl := mem_blanks (List.mem_of_mem_head? hc)
  rfl

theorem readDecimal_text (q : QualityValue) (n : Nat) :
    readDecimal (q.text ++ blanks n) = q.value := by
  unfold readDecimal QualityValue.text QualityValue.value
  cases hf : q.frac with
  | none =>
    obtain ⟨htake, hdrop⟩ := takeWhile_isDigit q.whole_digits (head_blanks n)
    simp only [Option.elim_none, List.append_nil, htake, hdrop, Option.getD_none]
    cases n <;> rfl
  | some frac =>
    have hdigits : ∀ c ∈ frac, isDigit c = true := by simpa [hf] using q.frac_digits
    have hdot : ∀ c ∈ (dot :: frac ++ blanks n).head?, isDigit c = false := by
      intro c hc
      obtain rfl : dot = c := by simpa using hc
      rfl
    obtain ⟨htake, hdrop⟩ := takeWhile_isDigit q.whole_digits hdot
    obtain ⟨hfrac, -⟩ := takeWhile_isDigit hdigits (head_blanks n)
    simp only [Option.elim_some, List.append_assoc, htake, hdrop, Option.getD_some]
    change decimalValue q.whole ((frac ++ blanks n).takeWhile isDigit) = _
    rw [hfrac]

theorem exactDoubles_reads : exactDoubles.Reads id where
  zero := rfl
  one := rfl
  strict := fun _ _ h => h
  strtod := fun q n => congrArg some (readDecimal_text q n)

/-- The first mark ends at the first equals sign. -/
theorem strstr_quality {s : Bytes} (hs : equalsSign ∉ s) (t : Bytes) :
    strstr (s ++ qualityMark ++ t) qualityMark = some (s, t) := by
  induction s with
  | nil => exact strstr_here t
  | cons c s ih =>
    obtain ⟨-, hrest⟩ := not_or.mp (List.mem_cons.not.mp hs)
    have hno : ¬qualityMark <+: c :: (s ++ qualityMark ++ t) := by
      intro hpre
      have hmark : qualityMark = [113, equalsSign] := by decide
      rw [hmark, List.cons_prefix_cons] at hpre
      cases s with
      | nil => simp [equalsSign] at hpre
      | cons d s =>
        have hd : equalsSign = d := by simpa using hpre.2
        exact hrest (hd ▸ List.mem_cons_self)
    rw [List.cons_append, List.cons_append, strstr, if_neg hno, ih hrest]
    rfl

theorem strstr_no_equals {s : Bytes} (hs : equalsSign ∉ s) : strstr s qualityMark = none := by
  apply strstr_eq_none.mpr
  intro hin
  exact hs (hin.subset (by decide))

theorem isTagChar_ne {c d : UInt8} (h : isTagChar c = true) (hd : isTagChar d = false) : c ≠ d := by
  intro he
  rw [he, hd] at h
  cases h

namespace QualityValue

theorem not_mem_text {d : UInt8} (q : QualityValue) (hd : isDigit d = false) (hdot : d ≠ dot) :
    d ∉ q.text := by
  intro hm
  have hno : ∀ s : Bytes, (∀ c ∈ s, isDigit c = true) → d ∉ s := by
    intro s hs hmem
    rw [hs d hmem] at hd
    cases hd
  have hfrac := hno _ q.frac_digits
  rw [text, List.mem_append] at hm
  rcases hm with hwhole | htail
  · exact hno _ q.whole_digits hwhole
  · cases hf : q.frac with
    | none => simp [hf] at htail
    | some frac =>
      rw [hf] at htail hfrac
      simp only [Option.elim_some, List.mem_cons] at htail
      rcases htail with rfl | hin
      · exact hdot rfl
      · exact hfrac hin

end QualityValue

namespace LanguageElement
variable (e : LanguageElement)

theorem not_mem_tag {d : UInt8} (hd : isTagChar d = false) : d ∉ e.tag := by
  intro hm
  exact isTagChar_ne (e.tag_chars d hm) hd rfl

/-- A character that is in none of the parts is not in the element. -/
theorem not_mem_text {d : UInt8} (htag : isTagChar d = false)
    (hd : d ≠ blank ∧ d ≠ semicolon ∧ d ≠ equalsSign ∧ d ≠ dot ∧ d ≠ 113) : d ∉ e.text := by
  obtain ⟨hblank, hsemi, hequals, hdot, hq⟩ := hd
  have hdigit : isDigit d = false := by
    cases h : isDigit d with
    | false => rfl
    | true => simp [isTagChar, Pcre.isAlnum, h] at htag
  have hblanks : ∀ n, d ∉ blanks n := by
    intro n hm
    exact hblank (mem_blanks hm)
  have hmark : d ∉ qualityMark := by
    have hlit : qualityMark = [113, equalsSign] := by decide
    simp [hlit, hq, hequals]
  have hweight : d ∉ e.weighting.elim [] Weighting.text := by
    cases e.weighting with
    | none => simp
    | some w =>
      simp [Weighting.text, hblanks, hsemi, hmark, w.quality.not_mem_text hdigit hdot]
  simp [text, segment, hblanks, hweight, e.not_mem_tag htag]

theorem text_nonempty : e.text ≠ [] := by
  simp [text, segment, e.tag_nonempty]

theorem skipBlanks_text : skipBlanks e.text = e.segment := by
  apply dropWhile_skip
  · intro c hc
    simp [mem_blanks hc]
  · obtain ⟨c, t, htag⟩ := List.exists_cons_of_ne_nil e.tag_nonempty
    have hc : c ≠ blank := isTagChar_ne (e.tag_chars c (by simp [htag])) (by decide)
    exact ⟨c, _, by rw [segment, htag]; rfl, by simpa using hc⟩

/-- Where the weight is found in an element, and how much of it stands before. -/
theorem strstr_segment_weighted {w : Weighting} (hw : e.weighting = some w) :
    strstr e.segment qualityMark =
      some (e.tag ++ blanks w.before ++ semicolon :: blanks w.after,
        w.quality.text ++ blanks e.trail) := by
  have hequals : equalsSign ∉ e.tag ++ blanks w.before ++ semicolon :: blanks w.after := by
    have hblanks : ∀ n, equalsSign ∉ blanks n := by
      intro n hm
      exact absurd (mem_blanks hm) (by decide)
    have htag := e.not_mem_tag (d := equalsSign) (by decide)
    simp [hblanks, htag, show equalsSign ≠ semicolon by decide]
  rw [← strstr_quality hequals, segment, hw]
  simp [Weighting.text]

theorem strstr_segment_bare (hw : e.weighting = none) : strstr e.segment qualityMark = none := by
  have hblanks : equalsSign ∉ blanks e.trail := by
    intro hm
    exact absurd (mem_blanks hm) (by decide)
  have htag := e.not_mem_tag (d := equalsSign) (by decide)
  apply strstr_no_equals
  simp [segment, hw, htag, hblanks]

theorem sliceLength_segment :
    (sliceLength e.segment).toNat = (e.tag.length + e.surplus) % 2 ^ 32 := by
  unfold sliceLength surplus
  cases hw : e.weighting with
  | none =>
    rw [e.strstr_segment_bare hw, UInt32.toNat_ofNat', segment, hw]
    simp [blanks]
  | some w =>
    have hlen : (e.tag ++ blanks w.before ++ semicolon :: blanks w.after).length =
        e.tag.length + (w.before + w.after) + 1 := by
      simp [blanks]
      omega
    rw [e.strstr_segment_weighted hw]
    dsimp only [Option.elim_some]
    rw [hlen, distance_toNat (by omega), Nat.add_sub_cancel]

theorem length_segment : e.tag.length + e.surplus ≤ e.segment.length := by
  unfold segment surplus
  cases e.weighting with
  | none => simp [blanks]
  | some w =>
    simp [Weighting.text, blanks]
    omega

/-- The slice is a front of the element, and it is the tag when it is as long. -/
theorem languageSlice_text :
    languageSlice e.text =
      .ok (e.segment.take ((e.tag.length + e.surplus) % 2 ^ 32)) := by
  have hle : (sliceLength e.segment).toNat ≤ e.segment.length := by
    rw [e.sliceLength_segment]
    exact le_trans (Nat.mod_le _ _) e.length_segment
  rw [languageSlice, e.skipBlanks_text, estrndup, if_pos hle, e.sliceLength_segment]

theorem take_segment_iff :
    e.segment.take ((e.tag.length + e.surplus) % 2 ^ 32) = e.tag ↔
      (e.tag.length + e.surplus) % 2 ^ 32 = e.tag.length := by
  constructor
  · intro h
    have hlen := congrArg List.length h
    have hle := le_trans (Nat.mod_le (e.tag.length + e.surplus) (2 ^ 32)) e.length_segment
    rw [List.length_take, Nat.min_eq_left hle] at hlen
    exact hlen
  · intro h
    rw [h, segment, List.take_left]

end LanguageElement

/-- The elements come out of the header as they were put in. -/
theorem strtok_languageHeader (es : List LanguageElement) :
    strtok comma (languageHeader es) = es.map LanguageElement.text := by
  have hfree : ∀ d : UInt8, isTagChar d = false →
      (d ≠ blank ∧ d ≠ semicolon ∧ d ≠ equalsSign ∧ d ≠ dot ∧ d ≠ 113) →
      ∀ s ∈ es.map LanguageElement.text, d ∉ s := by
    intro d htag hd s hs
    obtain ⟨e, -, rfl⟩ := List.mem_map.mp hs
    exact e.not_mem_text htag hd
  have hne : ∀ s ∈ es.map LanguageElement.text, s ≠ [] := by
    intro s hs
    obtain ⟨e, -, rfl⟩ := List.mem_map.mp hs
    exact e.text_nonempty
  have hcomma := hfree comma (by decide) (by decide)
  have hnul := hfree NUL (by decide) (by decide)
  unfold languageHeader
  generalize es.map LanguageElement.text = ss at hne hcomma hnul
  by_cases hss : ss = []
  · rw [hss]
    rfl
  · have hcut : NUL ∉ [comma].intercalate ss := not_mem_intercalate (by decide) hnul
    rw [strtok, cstr_of_no_nul hcut, List.splitOn_intercalate comma hcomma hss]
    exact List.filter_eq_self.mpr (by simpa using hne)

section
variable {F : Type} [LinearOrder F] {d : Doubles F} {round : ℚ → F}

theorem LanguageElement.exists_quality (e : LanguageElement) :
    ∃ q : QualityValue, q.value = e.weight := by
  unfold LanguageElement.weight
  cases e.weighting with
  | none => exact ⟨QualityValue.one, QualityValue.value_one⟩
  | some w => exact ⟨w.quality, rfl⟩

/-- The loop weighs an element as its text says. -/
theorem Doubles.Reads.elementWeight (hd : d.Reads round) (e : LanguageElement) :
    elementWeight d e.text = some (round e.weight) := by
  unfold Yaf.elementWeight LanguageElement.weight
  rw [e.skipBlanks_text]
  cases hw : e.weighting with
  | none =>
    rw [e.strstr_segment_bare hw]
    exact congrArg some hd.one.symm
  | some w =>
    rw [e.strstr_segment_weighted hw]
    exact hd.strtod w.quality e.trail

theorem Doubles.Reads.lt (hd : d.Reads round) {x e : LanguageElement} (h : x.weight < e.weight) :
    round x.weight < round e.weight := by
  obtain ⟨p, hp⟩ := x.exists_quality
  obtain ⟨q, hq⟩ := e.exists_quality
  rw [← hp, ← hq] at h ⊢
  exact hd.strict p q h

theorem Doubles.Reads.le (hd : d.Reads round) {x e : LanguageElement} (h : x.weight ≤ e.weight) :
    round x.weight ≤ round e.weight := by
  rcases lt_or_eq_of_le h with hlt | heq
  · exact le_of_lt (hd.lt hlt)
  · rw [heq]

theorem Doubles.Reads.pos (hd : d.Reads round) {e : LanguageElement} (h : 0 < e.weight) :
    d.zero < round e.weight := by
  obtain ⟨q, hq⟩ := e.exists_quality
  rw [← hd.zero, ← QualityValue.value_zero, ← hq]
  apply hd.strict
  rwa [QualityValue.value_zero, hq]

/-- Over the elements of a header the loop ends, with the slice of the first greatest one. -/
theorem languageLoop_header (hd : d.Reads round) {front rest : List LanguageElement}
    {e : LanguageElement} (hpos : 0 < e.weight) (hfront : ∀ x ∈ front, x.weight < e.weight)
    (hrest : ∀ x ∈ rest, x.weight ≤ e.weight) :
    languageLoop d (languageHeader (front ++ e :: rest)) =
      .ok ⟨round e.weight, some (e.segment.take ((e.tag.length + e.surplus) % 2 ^ 32))⟩ := by
  rw [languageLoop_eq, strtok_languageHeader, List.map_append, List.map_cons]
  have hends :
    ∃ r, (front.map LanguageElement.text ++ e.text :: rest.map LanguageElement.text).foldlM
      (Best.offer (elementWeight d) languageSlice) ⟨d.zero, none⟩ = .ok r := by
    apply (foldlM_offer_ok_iff _ _).mpr
    intro token hraises
    obtain ⟨before, after, w, hlist, -⟩ := hraises
    have hmem : token ∈ (front ++ e :: rest).map LanguageElement.text := by
      rw [List.map_append, List.map_cons, hlist]
      simp
    obtain ⟨x, -, rfl⟩ := List.mem_map.mp hmem
    exact ⟨_, x.languageSlice_text⟩
  obtain ⟨r, hr⟩ := hends
  have hbelow : Below (elementWeight d) (front.map LanguageElement.text) (round e.weight) := by
    intro token hmem v hv
    obtain ⟨x, hx, rfl⟩ := List.mem_map.mp hmem
    rw [hd.elementWeight x] at hv
    exact Option.some.inj hv ▸ hd.lt (hfront x hx)
  have hatMost : ∀ token ∈ rest.map LanguageElement.text, ∀ v,
      elementWeight d token = some v → v ≤ round e.weight := by
    intro token hmem v hv
    obtain ⟨x, hx, rfl⟩ := List.mem_map.mp hmem
    rw [hd.elementWeight x] at hv
    exact Option.some.inj hv ▸ hd.le (hrest x hx)
  obtain ⟨c, hc, rfl⟩ :=
    foldlM_offer_first (hd.elementWeight e) (hd.pos hpos) hbelow hatMost hr
  rw [e.languageSlice_text] at hc
  rw [hr, ← Except.ok.inj hc]

/-- The function returns this tag. -/
def ReturnsTag (d : Doubles F) (server : Table Key Zval) (lang : Zval) (tag : Bytes) : Prop :=
  (requestGetLanguage d server lang).map Prod.fst = .ok (some (.string tag))

theorem returnsTag_iff {server : Table Key Zval} {lang : Zval} {langs tag c : Bytes} {w : F}
    (hlang : lang.isString = false)
    (hlangs : (acceptLanguage server).bind Zval.text? = some langs)
    (hloop : languageLoop d langs = .ok ⟨w, some c⟩) :
    ReturnsTag d server lang tag ↔ c = tag := by
  have hget : requestGetLanguage d server lang = .ok (some (.string c), .string c) := by
    rw [requestGetLanguage, hlang, hlangs]
    dsimp only
    rw [hloop]
    rfl
  rw [ReturnsTag, hget]
  simp [Except.map]

/-- The first element of the greatest weight is returned without its blanks and semicolon exactly
when no blank gets into the slice, and the length fits in 32 bits. -/
theorem language_preferred_iff (hd : d.Reads round) {server : Table Key Zval} {lang : Zval}
    {front rest : List LanguageElement} {e : LanguageElement} (hlang : lang.isString = false)
    (hheader : acceptLanguage server = some (.string (languageHeader (front ++ e :: rest))))
    (hpos : 0 < e.weight) (hfront : ∀ x ∈ front, x.weight < e.weight)
    (hrest : ∀ x ∈ rest, x.weight ≤ e.weight) :
    ReturnsTag d server lang e.tag ↔ (e.tag.length + e.surplus) % 2 ^ 32 = e.tag.length := by
  have hne : languageHeader (front ++ e :: rest) ≠ [] := by
    intro hnil
    have htokens := strtok_languageHeader (front ++ e :: rest)
    rw [hnil, strtok_nil] at htokens
    simp at htokens
  have hlangs : (acceptLanguage server).bind Zval.text? =
      some (languageHeader (front ++ e :: rest)) := by
    rw [hheader]
    exact Zval.text?_eq_some.mpr ⟨rfl, hne⟩
  rw [returnsTag_iff hlang hlangs (languageLoop_header hd hpos hfront hrest), e.take_segment_iff]

end

theorem language_preferred_over_half :
    ReturnsTag exactDoubles
      [(.name (lit "HTTP_ACCEPT_LANGUAGE"), .string (lit "fr;q=0.5, en"))] .null (lit "en") := by
  let fr : LanguageElement := ⟨0, lit "fr", some ⟨0, 0, QualityValue.half⟩, 0, by decide,
    List.all_eq_true.mp (by decide)⟩
  let en : LanguageElement := ⟨1, lit "en", none, 0, by decide,
    List.all_eq_true.mp (by decide)⟩
  have htext : languageHeader ([fr] ++ en :: []) = lit "fr;q=0.5, en" := by decide
  have hheader : acceptLanguage
      [(.name (lit "HTTP_ACCEPT_LANGUAGE"), .string (lit "fr;q=0.5, en"))] =
      some (.string (languageHeader ([fr] ++ en :: []))) := by
    rw [htext]
    simp [acceptLanguage, requestQuery, Table.find?]
  have hless : ∀ x ∈ [fr], x.weight < en.weight := by
    intro x hx
    obtain rfl := List.mem_singleton.mp hx
    decide +kernel
  have hpos : 0 < en.weight := by decide
  exact (language_preferred_iff exactDoubles_reads rfl hheader hpos hless (by simp)).mpr (by decide)

/-- A blank behind the semicolon leaves the semicolon in the tag. -/
theorem blank_behind_semicolon :
    ∃ e : LanguageElement, e.tag = lit "en" ∧ languageHeader [e] = lit "en; q=0.5" ∧ 0 < e.weight ∧
      ¬ReturnsTag exactDoubles
        [(.name (lit "HTTP_ACCEPT_LANGUAGE"), .string (lit "en; q=0.5"))] .null e.tag := by
  let en : LanguageElement := ⟨0, lit "en", some ⟨0, 1, QualityValue.half⟩, 0, by decide,
    List.all_eq_true.mp (by decide)⟩
  have htext : languageHeader [en] = lit "en; q=0.5" := by decide
  have hpos : 0 < en.weight := by decide +kernel
  have hloop : languageLoop exactDoubles (languageHeader ([] ++ en :: [])) = _ :=
    languageLoop_header exactDoubles_reads hpos (by simp) (by simp)
  have hlangs : (acceptLanguage
      [(.name (lit "HTTP_ACCEPT_LANGUAGE"), .string (lit "en; q=0.5"))]).bind Zval.text? =
      some (languageHeader ([] ++ en :: [])) := by
    rw [List.nil_append, htext]
    simp only [acceptLanguage, requestQuery, Table.find?]
    rfl
  refine ⟨en, rfl, htext, hpos, ?_⟩
  rw [returnsTag_iff rfl hlangs hloop]
  decide

end Yaf
