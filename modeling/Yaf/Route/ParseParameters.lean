import Yaf.Php.StrtokR
import Yaf.Route.MapParams

namespace Yaf
open Base

/-- What is stored for the token behind a key. -/
def tokenValue (t : Tokenizer) : Option Zval :=
  match t.token with
  | none => some .null
  | some value => do
    let s ← Buffer.text? NUL t.buf value
    if s.length ≠ 0 then some (.string s) else some .null

/-- The loop of `yaf_router_parse_parameters`, with the key as the last call left it. `strlen` of
the key is kept in 32 bits. `none` stands for an access outside the copy, or for no end in time. -/
def parseParametersLoop : Nat → Tokenizer → Table Key Zval → Option (Table Key Zval)
  | 0, _, _ => none
  | fuel + 1, t, params =>
    match t.token with
    | none => some params
    | some key => do
      let s ← Buffer.text? NUL t.buf key
      let keyLen := UInt32.ofNat s.length
      if keyLen ≠ 0 then
        let v ← phpStrtokR [slash] t.buf none t.last
        let val ← tokenValue v
        let params := Table.update params (.name ((v.buf.drop key).take keyLen.toNat)) val
        let next ← phpStrtokR [slash] v.buf none v.last
        parseParametersLoop fuel next params
      else
        let next ← phpStrtokR [slash] t.buf none t.last
        parseParametersLoop fuel next params

/-- `yaf_router_parse_parameters`, access by access in its copy of the text. -/
def parseParametersCopy (uri : Bytes) : Option (Table Key Zval) := do
  let copy := cstr uri ++ [NUL]
  let t ← phpStrtokR [slash] copy (some 0) none
  parseParametersLoop (copy.length + 1) t []

/-- The pieces of a text between its slashes, without the empty ones. -/
def uriPieces (uri : Bytes) : List Bytes := (uri.splitOn slash).filter (· ≠ [])

/-- Parsing gives the pieces in pairs from the left, a key at the place of its first pair and with
the value of its last. -/
def ParsesPairs (uri : Bytes) : Prop :=
  parseParametersCopy uri = some (Table.latest (tokenPairs (uriPieces uri)))

/-- What the path of a list of pairs gives back: keys apart, and texts a path can carry. -/
structure PathPairs (pairs : Table Bytes Bytes) : Prop where
  apart : (Table.keys pairs).Nodup
  filled : ∀ p ∈ pairs, p.1 ≠ [] ∧ p.2 ≠ []
  carried : ∀ p ∈ pairs, Carried p.1 ∧ Carried p.2

/-- The list comes back. -/
def ComesBack (pairs : Table Bytes Bytes) : Prop :=
  parseParametersCopy (pairsText pairs) = some (pairs.map fun p => (.name p.1, .string p.2))

variable {front buf : Bytes} {last : Option Nat} {key : Bytes}

/-- A token that the memory still holds is read back. -/
theorem text?_of_front {t : Bytes} (hnul : NUL ∉ t) (h : front ++ (t ++ [NUL]) <+: buf) :
    Buffer.text? NUL buf front.length = some t := by
  obtain ⟨post, rfl⟩ := h
  simpa using Buffer.text?_middle hnul front post

theorem take_of_front {t : Bytes} (h : front ++ (t ++ [NUL]) <+: buf) {n : Nat}
    (hn : n ≤ t.length) : (buf.drop front.length).take n = t.take n := by
  obtain ⟨post, rfl⟩ := h
  rw [List.append_assoc, List.drop_left, List.append_assoc, List.take_append_of_le_length hn]

theorem kept_le (key : Bytes) : (UInt32.ofNat key.length).toNat ≤ key.length := by
  rw [UInt32.toNat_ofNat']
  exact Nat.mod_le _ _

theorem uintPrefix_eq_nil : uintPrefix key = [] ↔ UInt32.ofNat key.length = 0 := by
  have hle := kept_le key
  rw [uintPrefix, List.take_eq_nil_iff, ← UInt32.toNat_inj, UInt32.toNat_zero]
  constructor
  · intro h
    rcases h with h | rfl
    · exact h
    · rfl
  · intro h
    exact Or.inl h

theorem tokenValue_token {v : Bytes} (hv : v ≠ []) (hnul : NUL ∉ v)
    (h : front ++ (v ++ [NUL]) <+: buf) :
    tokenValue ⟨some front.length, buf, last⟩ = some (.string v) := by
  rw [tokenValue]
  dsimp only
  rw [text?_of_front hnul h, Option.bind_eq_bind, Option.bind_some, if_pos (by simpa using hv)]

/-- A key whose length is kept as zero: the token behind it is the next key. -/
theorem parseParametersLoop_skip (fuel : Nat) {next : Tokenizer} (params : Table Key Zval)
    (hnul : NUL ∉ key) (hkey : front ++ (key ++ [NUL]) <+: buf) (hkept : uintPrefix key = [])
    (hnext : phpStrtokR [slash] buf none last = some next) :
    parseParametersLoop (fuel + 1) ⟨some front.length, buf, last⟩ params =
      parseParametersLoop fuel next params := by
  rw [parseParametersLoop]
  dsimp only
  rw [text?_of_front hnul hkey, Option.bind_eq_bind, Option.bind_some,
    if_neg (by simpa using uintPrefix_eq_nil.mp hkept), hnext]
  rfl

/-- Any other key is stored with the value behind it. -/
theorem parseParametersLoop_store (fuel : Nat) {v next : Tokenizer} {val : Zval}
    (params : Table Key Zval) (hnul : NUL ∉ key) (hkey : front ++ (key ++ [NUL]) <+: buf)
    (hkept : uintPrefix key ≠ []) (hv : phpStrtokR [slash] buf none last = some v)
    (hval : tokenValue v = some val) (hstill : front ++ (key ++ [NUL]) <+: v.buf)
    (hnext : phpStrtokR [slash] v.buf none v.last = some next) :
    parseParametersLoop (fuel + 1) ⟨some front.length, buf, last⟩ params =
      parseParametersLoop fuel next (Table.update params (.name (uintPrefix key)) val) := by
  have hne : UInt32.ofNat key.length ≠ 0 := fun h => hkept (uintPrefix_eq_nil.mpr h)
  rw [parseParametersLoop]
  dsimp only
  rw [text?_of_front hnul hkey, Option.bind_eq_bind, Option.bind_some, if_pos hne, hv]
  dsimp only [Option.bind_eq_bind, Option.bind_some]
  rw [hval, Option.bind_some, hnext, Option.bind_some, take_of_front hstill (kept_le key)]
  rfl

theorem parseParametersLoop_end {fuel : Nat} (hfuel : 0 < fuel) (params : Table Key Zval) :
    parseParametersLoop fuel ⟨none, buf, last⟩ params = some params := by
  cases fuel with
  | zero => cases hfuel
  | succ fuel => rfl

/-- The text walked over before a token stays as it is. -/
theorem Awaits.still {d : UInt8} {toks : List Bytes} {skipped t : Bytes}
    (h : Awaits d (front ++ skipped ++ t) buf last toks) : front <+: buf := by
  rw [Awaits, List.append_assoc] at h
  exact (List.prefix_append front _).trans h.1

/-- From a call on the loop stores the pairs of the tokens it awaits. -/
theorem parseParametersLoop_eq {segs : List Bytes} (hsegs : ∀ s ∈ segs, s ≠ [] ∧ NUL ∉ s)
    {fuel : Nat} (hfuel : segs.length < fuel) {t : Tokenizer}
    (h : phpStrtokR [slash] buf none last = some t) (ha : Awaits slash front buf last segs)
    (params : Table Key Zval) :
    parseParametersLoop fuel t params = some (Table.merge params (keptPairs segs)) := by
  obtain ⟨fuel, rfl⟩ := Nat.exists_eq_add_one.mpr (Nat.zero_lt_of_lt hfuel)
  induction segs using keptPairs.induct generalizing front buf last fuel t params with
  | case1 =>
    rw [phpStrtokR_nil slash_ne_nul ha] at h
    cases h
    rfl
  | case2 key hkept =>
    obtain ⟨skipped, buf', last', hcall, ha'⟩ := phpStrtokR_cons slash_ne_nul ha
    rw [hcall] at h
    cases h
    have hnext := phpStrtokR_nil slash_ne_nul ha'
    have hend : 0 < fuel := by simpa using hfuel
    have hnul := (hsegs key (by simp)).2
    rw [parseParametersLoop_skip fuel params hnul ha'.1 hkept hnext, parseParametersLoop_end hend,
      keptPairs, if_pos hkept, Table.merge_nil]
  | case3 key hkept =>
    obtain ⟨skipped, buf', last', hcall, ha'⟩ := phpStrtokR_cons slash_ne_nul ha
    rw [hcall] at h
    cases h
    have hv := phpStrtokR_nil slash_ne_nul ha'
    have hend : 0 < fuel := by simpa using hfuel
    have hnul := (hsegs key (by simp)).2
    rw [parseParametersLoop_store fuel params hnul ha'.1 hkept hv rfl ha'.1 rfl,
      parseParametersLoop_end hend, keptPairs, if_neg hkept, Table.merge_cons, Table.merge_nil]
  | case4 key value segs hkept ih =>
    obtain ⟨skipped, buf', last', hcall, ha'⟩ := phpStrtokR_cons slash_ne_nul ha
    rw [hcall] at h
    cases h
    obtain ⟨skipped', buf'', last'', hnext, -⟩ := phpStrtokR_cons slash_ne_nul ha'
    have hnul := (hsegs key (by simp)).2
    have hrest : ∀ s ∈ value :: segs, s ≠ [] ∧ NUL ∉ s :=
      fun s hs => hsegs s (List.mem_cons_of_mem _ hs)
    have hfuel' : (value :: segs).length < fuel := by simpa using hfuel
    obtain ⟨fuel, rfl⟩ := Nat.exists_eq_add_one.mpr (Nat.zero_lt_of_lt hfuel')
    rw [parseParametersLoop_skip _ params hnul ha'.1 hkept hnext, keptPairs, if_pos hkept]
    exact ih hrest hnext ha' params fuel hfuel'
  | case5 key value segs hkept ih =>
    obtain ⟨skipped, buf', last', hcall, ha'⟩ := phpStrtokR_cons slash_ne_nul ha
    rw [hcall] at h
    cases h
    obtain ⟨skipped', buf'', last'', hv, ha''⟩ := phpStrtokR_cons slash_ne_nul ha'
    have hnul := (hsegs key (by simp)).2
    obtain ⟨hvalue, hvnul⟩ := hsegs value (by simp)
    have hrest : ∀ s ∈ segs, s ≠ [] ∧ NUL ∉ s := fun s hs => hsegs s (by simp [hs])
    have hfuel' : segs.length < fuel := by
      simp only [List.length_cons] at hfuel
      omega
    obtain ⟨fuel, rfl⟩ := Nat.exists_eq_add_one.mpr (Nat.zero_lt_of_lt hfuel')
    have hval : tokenValue ⟨some _, buf'', last''⟩ = some (.string value) :=
      tokenValue_token hvalue hvnul ha''.1
    obtain ⟨next, hnext⟩ := phpStrtokR_inside slash_ne_nul ha''
    rw [parseParametersLoop_store _ params hnul ha'.1 hkept hv hval ha''.still hnext, keptPairs,
      if_neg hkept, Table.merge_cons]
    exact ih hrest hnext ha'' _ fuel hfuel'

theorem strtok_eq_uriPieces {uri : Bytes} (hnul : NUL ∉ uri) :
    strtok slash uri = uriPieces uri := by
  rw [strtok, cstr_of_no_nul hnul, uriPieces]

/-- The accesses in the copy of a text come to the pairs of its tokens, with the keys as kept. -/
theorem parseParametersCopy_eq {uri : Bytes} (hnul : NUL ∉ uri) :
    parseParametersCopy uri = some (Table.latest (keptPairs (uriPieces uri))) := by
  have hpieces := strtok_eq_uriPieces hnul
  have ha := awaits_start slash_ne_nul hnul
  have hsegs : ∀ s ∈ uriPieces uri, s ≠ [] ∧ NUL ∉ s := by
    intro s hs
    rw [← hpieces] at hs
    exact ⟨(mem_strtok hs).1, (mem_strtok hs).2.1⟩
  have hfuel : (uriPieces uri).length < (uri ++ [NUL]).length + 1 := by
    have hfilter : (uriPieces uri).length ≤ (uri.splitOn slash).length := List.length_filter_le _ _
    have hlen := length_splitOn_le slash uri
    rw [List.length_append, List.length_singleton]
    omega
  rw [hpieces] at ha
  obtain ⟨t, hcall⟩ := phpStrtokR_inside slash_ne_nul ha
  have hfirst : phpStrtokR [slash] (uri ++ [NUL]) (some 0) none = some t := hcall
  rw [parseParametersCopy, cstr_of_no_nul hnul, hfirst, Option.bind_eq_bind, Option.bind_some,
    parseParametersLoop_eq hsegs hfuel hcall ha, Table.merge_nil_eq_latest]

theorem mem_keys_latest {u : Table Key Zval} {k : Key} :
    k ∈ Table.keys (Table.latest u) ↔ k ∈ Table.keys u := by
  rw [← Table.merge_nil_eq_latest, Table.mem_keys_merge]
  simp

theorem parsesPairs_iff {uri : Bytes} (hnul : NUL ∉ uri) :
    ParsesPairs uri ↔ KeysFit (uriPieces uri) := by
  have hne : ∀ s ∈ uriPieces uri, s ≠ [] := by
    intro s hs
    simpa using (List.mem_filter.mp hs).2
  rw [ParsesPairs, parseParametersCopy_eq hnul, Option.some.injEq]
  constructor
  · intro h key hkey
    have hkept : .name key ∈ Table.keys (keptPairs (uriPieces uri)) := by
      rwa [← mem_keys_latest, h, mem_keys_latest]
    exact short_of_keptPairs hkept
  · intro h
    rw [keptPairs_of_fit hne h]

/-- What the routes merge into a request is what the copy is parsed to. -/
theorem parseParametersCopy_eq_router {uri : Bytes} (hnul : NUL ∉ uri) :
    parseParametersCopy uri = some (routerParseParameters uri) := by
  rw [parseParametersCopy_eq hnul, routerParseParameters, parseParametersGo_eq,
    strtok_eq_uriPieces hnul, Table.merge_nil_eq_latest]

theorem nul_not_mem_pairsText {pairs : Table Bytes Bytes}
    (h : ∀ p ∈ pairs, Carried p.1 ∧ Carried p.2) : NUL ∉ pairsText pairs := by
  intro hmem
  obtain ⟨p, hp, hmem⟩ := List.mem_flatMap.mp hmem
  have hns : NUL ≠ slash := slash_ne_nul.symm
  simp only [List.cons_append, List.mem_cons, List.mem_append, hns, false_or] at hmem
  exact hmem.elim (h p hp).1.nul (h p hp).2.nul

/-- The pieces of the path are the pairs again. -/
theorem tokenPairs_pairsText {pairs : Table Bytes Bytes} (h : PathPairs pairs) :
    tokenPairs (uriPieces (pairsText pairs)) = pairs.map fun p => (.name p.1, .string p.2) := by
  have hpieces := strtok_eq_uriPieces (nul_not_mem_pairsText h.carried)
  have hkeys : ∀ p ∈ pairs, p.1 ≠ [] := fun p hp => (h.filled p hp).1
  have hvalues : ∀ p ∈ pairs.dropLast, p.2 ≠ [] :=
    fun p hp => (h.filled p (List.dropLast_subset _ hp)).2
  rw [← hpieces, strtok_pairsText hkeys h.carried, tokenPairs_pairTokens hvalues, sentPairs]
  apply List.map_congr_left
  intro p hp
  rw [if_neg (h.filled p hp).2]

theorem comesBack_iff {pairs : Table Bytes Bytes} (h : PathPairs pairs) :
    ComesBack pairs ↔ ∀ p ∈ pairs, p.1.length < 2 ^ 32 := by
  have hkeys : Table.keys (pairs.map fun p => (Key.name p.1, Zval.string p.2)) =
      (Table.keys pairs).map Key.name := by
    simp [Table.keys]
  have hnodup : (Table.keys (pairs.map fun p => (Key.name p.1, Zval.string p.2))).Nodup := by
    rw [hkeys]
    exact h.apart.map fun _ _ hk => Key.name.inj hk
  have hparse := parsesPairs_iff (nul_not_mem_pairsText h.carried)
  rw [ParsesPairs, KeysFit, tokenPairs_pairsText h, ← Table.merge_nil_eq_latest,
    Table.merge_nil_left hnodup, ← ComesBack, hkeys] at hparse
  rw [hparse]
  constructor
  · intro hfit p hp
    exact hfit p.1 (List.mem_map_of_mem (List.mem_map_of_mem hp))
  · intro hfit key hkey
    obtain ⟨k, hk, he⟩ := List.mem_map.mp hkey
    obtain ⟨p, hp, rfl⟩ := List.mem_map.mp hk
    cases he
    exact hfit p hp

/-- A text parses to its pairs, and the path of a list of pairs to the list, exactly when 32 bits
hold the lengths of the keys. -/
theorem parameters_parsed_iff (uri : Bytes) (pairs : Table Bytes Bytes) :
    (NUL ∉ uri → (ParsesPairs uri ↔ KeysFit (uriPieces uri))) ∧
      (PathPairs pairs → (ComesBack pairs ↔ ∀ p ∈ pairs, p.1.length < 2 ^ 32)) :=
  ⟨parsesPairs_iff, comesBack_iff⟩

theorem parameters_parsed_sample :
    ParsesPairs (lit "/a/1//b/2/a") ∧ ComesBack [(lit "a", lit "1"), (lit "b", lit "2")] := by
  have hpieces : uriPieces (lit "/a/1//b/2/a") = [lit "a", lit "1", lit "b", lit "2", lit "a"] := by
    decide
  have hiff := parameters_parsed_iff (lit "/a/1//b/2/a") [(lit "a", lit "1"), (lit "b", lit "2")]
  constructor
  · apply (hiff.1 (by decide)).mpr
    intro key hkey
    rw [hpieces] at hkey
    simp only [tokenPairs, Table.keys_cons, Table.keys_nil, List.mem_cons, List.not_mem_nil,
      or_false, Key.name.injEq] at hkey
    rcases hkey with rfl | rfl | rfl
    · decide
    · decide
    · decide
  · apply (hiff.2 ?_).mpr
    · decide
    · constructor
      · decide
      · decide
      · intro p hp
        simp only [List.mem_cons, List.not_mem_nil, or_false] at hp
        rcases hp with rfl | rfl
        · exact ⟨⟨by decide, by decide⟩, ⟨by decide, by decide⟩⟩
        · exact ⟨⟨by decide, by decide⟩, ⟨by decide, by decide⟩⟩

/-- A text that is one key, of a length that is kept as zero. -/
theorem lone_key {s : Bytes} (hne : s ≠ []) (hs : Carried s) (hlen : s.length % 2 ^ 32 = 0) :
    parseParametersCopy s = some [] ∧ ¬ParsesPairs s := by
  have hpieces : uriPieces s = [s] := by
    rw [uriPieces, List.splitOn_eq_singleton hs.slash]
    simp [hne]
  have hkept : uintPrefix s = [] := by
    rw [uintPrefix, UInt32.toNat_ofNat', hlen, List.take_zero]
  have hparse := parseParametersCopy_eq hs.nul
  rw [hpieces, keptPairs, if_pos hkept] at hparse
  refine ⟨hparse, ?_⟩
  rw [ParsesPairs, hparse, hpieces, Option.some.injEq]
  intro h
  have hkey : .name s ∈ Table.keys (Table.latest (tokenPairs [s])) :=
    mem_keys_latest.mpr List.mem_cons_self
  rw [← h] at hkey
  cases hkey

/-- One piece of 2^32 bytes. -/
theorem long_key_passed_over :
    NUL ∉ List.replicate (2 ^ 32) (97 : UInt8) ∧
      parseParametersCopy (List.replicate (2 ^ 32) 97) = some [] ∧
        ¬ParsesPairs (List.replicate (2 ^ 32) 97) := by
  have hmem : ∀ c : UInt8, c ≠ 97 → c ∉ List.replicate (2 ^ 32) (97 : UInt8) :=
    fun c hc h => hc (List.eq_of_mem_replicate h)
  have hlen : (List.replicate (2 ^ 32) (97 : UInt8)).length = 2 ^ 32 := List.length_replicate
  have hne : List.replicate (2 ^ 32) (97 : UInt8) ≠ [] := by
    apply List.ne_nil_of_length_pos
    rw [hlen]
    decide
  refine ⟨hmem NUL (by decide), ?_⟩
  apply lone_key hne ⟨hmem NUL (by decide), hmem slash (by decide)⟩
  rw [hlen, Nat.mod_self]

end Yaf
