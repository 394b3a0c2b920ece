import Yaf.Base.Segments
import Yaf.Php.Bytes

namespace Yaf
open Base

def questionMark : UInt8 := 63
def ampersand : UInt8 := 38
def equalsSign : UInt8 := 61
def hash : UInt8 := 35

/-- The value of a hexadecimal digit. -/
def hexDigit (c : UInt8) : Option UInt8 :=
  if 48 ≤ c && c ≤ 57 then some (c - 48)
  else if 65 ≤ c && c ≤ 70 then some (c - 55)
  else if 97 ≤ c && c ≤ 102 then some (c - 87)
  else none

/-- URL-decoding. A percent sign without two digits behind it stays. -/
def urlDecode : Bytes → Bytes
  | [] => []
  | 43 :: s => blank :: urlDecode s
  | 37 :: a :: b :: s =>
    match hexDigit a, hexDigit b with
    | some x, some y => (x * 16 + y) :: urlDecode s
    | _, _ => 37 :: urlDecode (a :: b :: s)
  | c :: s => c :: urlDecode s

/-- The query part of a URL: up to a hash, behind the first question mark. -/
def urlQuery (url : Bytes) : Bytes :=
  ((url.takeWhile (· != hash)).dropWhile (· != questionMark)).tail

/-- A piece of a query, cut at its first equals sign and decoded. -/
def decodePair (piece : Bytes) : Bytes × Bytes :=
  (urlDecode (piece.takeWhile (· != equalsSign)),
    urlDecode (piece.dropWhile (· != equalsSign)).tail)

/-- The pairs of a query, cut at the ampersands. An empty piece is no pair. -/
def decodePairs (query : Bytes) : List (Bytes × Bytes) :=
  ((query.splitOn ampersand).filter (· ≠ [])).map decodePair

def pairText (p : Bytes × Bytes) : Bytes := p.1 ++ equalsSign :: p.2

/-- `key=value&key=value`. -/
def queryText (pairs : List (Bytes × Bytes)) : Bytes :=
  [ampersand].intercalate (pairs.map pairText)

/-- A pair that is read as it is written. -/
structure PlainPair (p : Bytes × Bytes) : Prop where
  key : ampersand ∉ p.1 ∧ hash ∉ p.1
  equals : equalsSign ∉ p.1
  value : ampersand ∉ p.2 ∧ hash ∉ p.2
  decoded : urlDecode p.1 = p.1 ∧ urlDecode p.2 = p.2

section
variable {s t u k v : Bytes} {pairs : List (Bytes × Bytes)}

theorem length_urlDecode_le (s : Bytes) : (urlDecode s).length ≤ s.length := by
  induction s using urlDecode.induct with
  | case1 => exact Nat.le_refl _
  | case2 s ih =>
    rw [urlDecode, List.length_cons, List.length_cons]
    omega
  | case3 a b s x y ha hb ih =>
    rw [urlDecode, ha, hb]
    simp only [List.length_cons]
    omega
  | case4 a b s hno ih =>
    rw [urlDecode]
    split
    · rename_i x y ha hb
      exact absurd hb (hno x y ha)
    · simp only [List.length_cons] at ih ⊢
      omega
  | case5 c s hplus hpercent ih =>
    rw [urlDecode]
    · simp only [List.length_cons]
      omega
    · exact hplus
    · exact hpercent

/-- A text without a plus and a percent sign is not changed. -/
theorem urlDecode_of_not_mem (hplus : 43 ∉ s) (hpercent : 37 ∉ s) : urlDecode s = s := by
  induction s with
  | nil => rfl
  | cons c s ih =>
    simp only [List.mem_cons, not_or] at hplus hpercent
    rw [urlDecode, ih hplus.2 hpercent.2]
    · rintro rfl
      exact hplus.1 rfl
    · rintro _ _ _ rfl
      exact absurd rfl hpercent.1

/-- A text is not cut at its front when decoding leaves its length. -/
theorem eq_of_urlDecode_eq (hs : s <+: t) (h : urlDecode s = t) : s = t := by
  have hlen := length_urlDecode_le s
  rw [h] at hlen
  exact hs.eq_of_length_le hlen

theorem decodePairs_ampersand (s : Bytes) : decodePairs (ampersand :: s) = decodePairs s := by
  rw [decodePairs, splitOn_cons_self]
  rfl

theorem decodePairs_piece (hne : s ≠ []) (hs : ampersand ∉ s) :
    decodePairs s = [decodePair s] := by
  rw [decodePairs, List.splitOn_eq_singleton hs]
  simp [hne]

theorem decodePairs_cons (hne : s ≠ []) (hs : ampersand ∉ s) (t : Bytes) :
    decodePairs (s ++ ampersand :: t) = decodePair s :: decodePairs t := by
  rw [decodePairs, List.splitOn_append_cons_self_of_not_mem hs]
  simp [hne, decodePairs]

/-- Neither an ampersand nor a hash: inside a piece. -/
def insidePiece (c : UInt8) : Bool := c != ampersand && c != hash

/-- The query part of what is behind a question mark. -/
def untilHash (t : Bytes) : Bytes := t.takeWhile (· != hash)

theorem not_mem_of_insidePiece (h : ∀ c ∈ s, insidePiece c = true) :
    ampersand ∉ s ∧ hash ∉ s := by
  constructor
  · intro hm
    exact absurd (h _ hm) (by decide)
  · intro hm
    exact absurd (h _ hm) (by decide)

theorem insidePiece_of_not_mem (h : ampersand ∉ s ∧ hash ∉ s) :
    ∀ c ∈ s, insidePiece c = true := by
  intro c hc
  simp only [insidePiece, Bool.and_eq_true, bne_iff_ne, ne_eq]
  exact ⟨fun he => h.1 (he ▸ hc), fun he => h.2 (he ▸ hc)⟩

/-- What follows a piece. -/
def AtEnd (t : Bytes) : Prop := t = [] ∨ ∃ rest, t = ampersand :: rest ∨ t = hash :: rest

/-- The pairs of a text that starts with a piece. -/
theorem decodePairs_front (hne : s ≠ []) (hs : ∀ c ∈ s, insidePiece c = true) (ht : AtEnd t) :
    decodePairs (untilHash (s ++ t)) = decodePair s :: decodePairs (untilHash t) := by
  obtain ⟨hamp, hhash⟩ := not_mem_of_insidePiece hs
  have hcut : untilHash (s ++ t) = s ++ untilHash t := by
    rw [untilHash, List.takeWhile_append_of_pos (bne_of_not_mem hhash), untilHash]
  rw [hcut]
  rcases ht with rfl | ⟨rest, rfl | rfl⟩
  · rw [untilHash, List.takeWhile_nil, List.append_nil, decodePairs_piece hne hamp]
    rfl
  · have hrest : untilHash (ampersand :: rest) = ampersand :: untilHash rest := rfl
    rw [hrest, decodePairs_cons hne hamp, decodePairs_ampersand]
  · have hrest : untilHash (hash :: rest) = [] := rfl
    rw [hrest, List.append_nil, decodePairs_piece hne hamp]
    rfl

/-- A text that starts inside a piece is the piece and what follows it. -/
theorem front_piece {c : UInt8} (hc : insidePiece c = true) (t : Bytes) :
    ∃ u, c :: t = (c :: t).takeWhile insidePiece ++ u ∧
      (∀ d ∈ (c :: t).takeWhile insidePiece, insidePiece d = true) ∧
      decodePairs (untilHash (c :: t)) =
        decodePair ((c :: t).takeWhile insidePiece) :: decodePairs (untilHash u) := by
  have hinside : ∀ d ∈ (c :: t).takeWhile insidePiece, insidePiece d = true :=
    fun _ => List.mem_takeWhile_imp
  have hend : AtEnd ((c :: t).dropWhile insidePiece) := by
    cases hd : (c :: t).dropWhile insidePiece with
    | nil => exact Or.inl rfl
    | cons d u =>
      have hout : insidePiece d = false := by
        have h := List.head?_dropWhile_not insidePiece (c :: t)
        rw [hd] at h
        exact h
      refine Or.inr ⟨u, ?_⟩
      simp only [insidePiece, Bool.and_eq_false_iff, bne_eq_false_iff_eq] at hout
      rcases hout with rfl | rfl
      · exact Or.inl rfl
      · exact Or.inr rfl
  have hsplit : c :: t = (c :: t).takeWhile insidePiece ++ (c :: t).dropWhile insidePiece :=
    List.takeWhile_append_dropWhile.symm
  have hne : (c :: t).takeWhile insidePiece ≠ [] := by simp [hc]
  refine ⟨_, hsplit, hinside, ?_⟩
  rw [← decodePairs_front hne hinside hend, ← hsplit]

/-- The key of a piece is cut before the first equals sign. -/
theorem key_front {x y : Bytes} (h : s <+: x ++ equalsSign :: y) :
    s.takeWhile (· != equalsSign) <+: x := by
  apply prefix_of_prefix_sep ((List.takeWhile_prefix _).trans h)
  exact not_mem_takeWhile_bne equalsSign s

/-- The first key that is read is not longer than the text before the first equals sign. -/
theorem decoded_key_le {x y key value : Bytes} {ps : List (Bytes × Bytes)}
    (h : decodePairs (untilHash (x ++ equalsSign :: y)) = (key, value) :: ps) :
    key.length ≤ x.length := by
  have hpiece : ∀ {x c t}, x ++ equalsSign :: y = c :: t → insidePiece c = true →
      decodePairs (untilHash (c :: t)) = (key, value) :: ps → key.length ≤ x.length := by
    intro x c t hx hc h
    obtain ⟨u, hsplit, -, hdecode⟩ := front_piece hc t
    rw [hdecode] at h
    have hkey := congrArg Prod.fst (List.cons.inj h).1
    have hpre : (c :: t).takeWhile insidePiece <+: x ++ equalsSign :: y := by
      rw [hx]
      exact List.takeWhile_prefix _
    calc key.length = (urlDecode _).length := congrArg List.length hkey.symm
      _ ≤ _ := length_urlDecode_le _
      _ ≤ x.length := (key_front hpre).length_le
  induction x with
  | nil => exact hpiece rfl (by decide) h
  | cons c x ih =>
    cases hc : insidePiece c with
    | true => exact hpiece rfl hc h
    | false =>
      simp only [insidePiece, Bool.and_eq_false_iff, bne_eq_false_iff_eq] at hc
      rcases hc with rfl | rfl
      · have hcut : untilHash (ampersand :: x ++ equalsSign :: y) =
            ampersand :: untilHash (x ++ equalsSign :: y) := rfl
        rw [hcut, decodePairs_ampersand] at h
        exact Nat.le_succ_of_le (ih h)
      · have hcut : untilHash (hash :: x ++ equalsSign :: y) = [] := rfl
        rw [hcut] at h
        cases h

/-- What stands behind a pair. -/
def pairsTail (pairs : List (Bytes × Bytes)) : Bytes :=
  if pairs = [] then [] else ampersand :: queryText pairs

theorem queryText_cons (p : Bytes × Bytes) (pairs : List (Bytes × Bytes)) :
    queryText (p :: pairs) = p.1 ++ equalsSign :: (p.2 ++ pairsTail pairs) := by
  by_cases hnil : pairs = []
  · subst hnil
    simp [queryText, pairsTail, pairText, List.intercalate]
  · rw [queryText, List.map_cons, intercalate_cons_of_ne_nil ampersand (by simpa using hnil),
      ← queryText, pairsTail, if_neg hnil, pairText, List.append_assoc, List.cons_append]

theorem atEnd_pairsTail (pairs : List (Bytes × Bytes)) : AtEnd (pairsTail pairs) := by
  unfold pairsTail
  split
  · exact Or.inl rfl
  · exact Or.inr ⟨_, Or.inl rfl⟩

theorem decodePairs_pairsTail (pairs : List (Bytes × Bytes)) :
    decodePairs (untilHash (pairsTail pairs)) = decodePairs (untilHash (queryText pairs)) := by
  unfold pairsTail
  split
  · rename_i hnil
    rw [hnil]
    rfl
  · have hcut : untilHash (ampersand :: queryText pairs) =
        ampersand :: untilHash (queryText pairs) := rfl
    rw [hcut, decodePairs_ampersand]

/-- A plain pair is read back, and then what follows. -/
theorem decodePairs_plain {p : Bytes × Bytes} (hp : PlainPair p) (ht : AtEnd t) :
    decodePairs (untilHash (p.1 ++ equalsSign :: (p.2 ++ t))) =
      p :: decodePairs (untilHash t) := by
  have hinside : ∀ c ∈ p.1 ++ equalsSign :: p.2, insidePiece c = true := by
    intro c hc
    rcases List.mem_append.mp hc with hc | hc
    · exact insidePiece_of_not_mem hp.key c hc
    · rcases List.mem_cons.mp hc with rfl | hc
      · decide
      · exact insidePiece_of_not_mem hp.value c hc
  have hkey : ∀ c ∈ p.1, (c != equalsSign) = true := bne_of_not_mem hp.equals
  have hdecode : decodePair (p.1 ++ equalsSign :: p.2) = p := by
    rw [decodePair, List.takeWhile_append_of_pos hkey, List.dropWhile_append_of_pos hkey]
    simp [hp.decoded]
  have hfront := decodePairs_front (by simp) hinside ht
  rw [hdecode, List.append_assoc, List.cons_append] at hfront
  exact hfront

/-- A value is read up to its end at most. -/
theorem takeWhile_value (v : Bytes) (ht : AtEnd t) : (v ++ t).takeWhile insidePiece <+: v := by
  have hpre := List.takeWhile_prefix (l := v ++ t) insidePiece
  have hinside : ∀ c ∈ (v ++ t).takeWhile insidePiece, insidePiece c = true :=
    fun _ => List.mem_takeWhile_imp
  obtain ⟨hamp, hhash⟩ := not_mem_of_insidePiece hinside
  rcases ht with rfl | ⟨rest, rfl | rfl⟩
  · rwa [List.append_nil] at hpre ⊢
  · exact prefix_of_prefix_sep hpre hamp
  · exact prefix_of_prefix_sep hpre hhash

/-- A pair that is read back is plain, and the rest is read from behind it. -/
theorem plain_of_decoded {p : Bytes × Bytes} {pairs ps : List (Bytes × Bytes)} (hk : p.1 ≠ [])
    (h : decodePairs (untilHash (queryText (p :: pairs))) = p :: ps) :
    PlainPair p ∧ decodePairs (untilHash (queryText pairs)) = ps := by
  suffices hplain : PlainPair p by
    rw [queryText_cons, decodePairs_plain hplain (atEnd_pairsTail pairs)] at h
    rw [← decodePairs_pairsTail]
    exact ⟨hplain, (List.cons.inj h).2⟩
  obtain ⟨key, value⟩ := p
  rw [queryText_cons] at h
  dsimp only at hk h
  cases key with
  | nil => exact absurd rfl hk
  | cons c k =>
    cases hc : insidePiece c with
    | false =>
      simp only [insidePiece, Bool.and_eq_false_iff, bne_eq_false_iff_eq] at hc
      rcases hc with rfl | rfl
      · have hcut : untilHash (ampersand :: k ++ equalsSign :: (value ++ pairsTail pairs)) =
            ampersand :: untilHash (k ++ equalsSign :: (value ++ pairsTail pairs)) := rfl
        rw [hcut, decodePairs_ampersand] at h
        exact absurd (decoded_key_le h) (by simp)
      · have hcut : untilHash (hash :: k ++ equalsSign :: (value ++ pairsTail pairs)) = [] := rfl
        rw [hcut] at h
        cases h
    | true =>
      obtain ⟨u, -, hinside, hdecode⟩ :=
        front_piece hc (k ++ equalsSign :: (value ++ pairsTail pairs))
      rw [List.cons_append, hdecode] at h
      have hpair := (List.cons.inj h).1
      rw [← List.cons_append] at hpair hinside
      -- the key is read to its end, so nothing in it ends it
      have hkey := eq_of_urlDecode_eq (key_front (List.takeWhile_prefix _))
        (congrArg Prod.fst hpair)
      have hkeyIn : ∀ d ∈ c :: k, insidePiece d = true := by
        intro d hd
        rw [← hkey] at hd
        exact hinside d ((List.takeWhile_prefix _).subset hd)
      have hkeyNe : ∀ d ∈ c :: k, (d != equalsSign) = true := by
        intro d hd
        rw [← hkey] at hd
        exact bne_of_not_mem (not_mem_takeWhile_bne equalsSign _) d hd
      have hpiece : ((c :: k) ++ equalsSign :: (value ++ pairsTail pairs)).takeWhile insidePiece =
          (c :: k) ++ equalsSign :: (value ++ pairsTail pairs).takeWhile insidePiece := by
        rw [List.takeWhile_append_of_pos hkeyIn, List.takeWhile_cons_of_pos (by decide)]
      rw [hpiece, decodePair, List.takeWhile_append_of_pos hkeyNe,
        List.dropWhile_append_of_pos hkeyNe, Prod.mk.injEq] at hpair
      simp only [bne_self_eq_false, Bool.false_eq_true, not_false_eq_true,
        List.takeWhile_cons_of_neg, List.dropWhile_cons_of_neg, List.append_nil,
        List.tail_cons] at hpair
      have hshort := takeWhile_value value (atEnd_pairsTail pairs)
      have hvalue := eq_of_urlDecode_eq hshort hpair.2
      have hvalueIn : ∀ d ∈ value, insidePiece d = true := by
        intro d hd
        rw [← hvalue] at hd
        exact List.mem_takeWhile_imp hd
      refine ⟨not_mem_of_insidePiece hkeyIn, fun hm => ?_, not_mem_of_insidePiece hvalueIn,
        hpair.1, ?_⟩
      · exact absurd (hkeyNe _ hm) (by simp)
      · rw [hvalue] at hpair
        exact hpair.2

/-- Pairs whose keys are not empty are read back exactly when they are plain. -/
theorem decodePairs_queryText_iff (hkeys : ∀ p ∈ pairs, p.1 ≠ []) :
    decodePairs (untilHash (queryText pairs)) = pairs ↔ ∀ p ∈ pairs, PlainPair p := by
  induction pairs with
  | nil => simp [queryText, List.intercalate, untilHash, decodePairs]
  | cons p pairs ih =>
    have hrest := ih fun q hq => hkeys q (List.mem_cons_of_mem _ hq)
    rw [List.forall_mem_cons, ← hrest]
    constructor
    · intro h
      exact plain_of_decoded (hkeys p List.mem_cons_self) h
    · rintro ⟨hp, h⟩
      rw [queryText_cons, decodePairs_plain hp (atEnd_pairsTail pairs), decodePairs_pairsTail, h]

/-- Plain pairs in front are read back whatever follows. -/
theorem decodePairs_append {own : List (Bytes × Bytes)} (hown : ∀ p ∈ own, PlainPair p)
    (pairs : List (Bytes × Bytes)) : decodePairs (untilHash (queryText (own ++ pairs))) =
      own ++ decodePairs (untilHash (queryText pairs)) := by
  induction own with
  | nil => rfl
  | cons p own ih =>
    rw [List.cons_append, queryText_cons,
      decodePairs_plain (hown p List.mem_cons_self) (atEnd_pairsTail _), decodePairs_pairsTail,
      ih fun q hq => hown q (List.mem_cons_of_mem _ hq), List.cons_append]

end

end Yaf
