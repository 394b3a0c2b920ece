import Yaf.Base.Buffer
import Yaf.Php.Strtok

namespace Yaf
open Base

/-- What a call of `php_strtok_r` leaves: the token it returns, the memory and the pointer it keeps
for the next call. Pointers are positions, and `none` is the null pointer. -/
structure Tokenizer where
  token : Option Nat
  buf : Bytes
  last : Option Nat

/-- The NUL of the delimiters ends a token too. -/
def endsToken (delim : Bytes) (c : UInt8) : Bool := (delim ++ [NUL]).contains c

/-- `php_strtok_r`. The answer `none` stands for a read outside the memory. -/
def phpStrtokR (delim : Bytes) (buf : Bytes) (s last : Option Nat) : Option Tokenizer :=
  match s.or last with
  | none => some ⟨none, buf, none⟩
  | some s => do
    let tok ← Buffer.seek delim.contains buf s
    if buf[tok]? = some NUL then some ⟨none, buf, none⟩
    else
      let stop ← Buffer.seek (!endsToken delim ·) buf (tok + 1)
      if buf[stop]? = some NUL then some ⟨some tok, buf, none⟩
      else some ⟨some tok, buf.set stop NUL, some (stop + 1)⟩

/-- A text is delimiters and then nothing, a last token, or a token with more behind it. -/
inductive TokenCut (d : UInt8) : Bytes → List Bytes → Prop where
  | blank (ds : Bytes) (skipped : ∀ c ∈ ds, c = d) : TokenCut d ds []
  | last (ds : Bytes) (c : UInt8) (tok : Bytes) (skipped : ∀ c ∈ ds, c = d) (starts : c ≠ d)
      (free : d ∉ tok) : TokenCut d (ds ++ c :: tok) [c :: tok]
  | token (ds : Bytes) (c : UInt8) (tok rest : Bytes) (skipped : ∀ c ∈ ds, c = d) (starts : c ≠ d)
      (free : d ∉ tok) : TokenCut d (ds ++ c :: (tok ++ d :: rest)) ((c :: tok) :: strtok d rest)

variable {d : UInt8} {front buf s : Bytes} {last : Option Nat}

theorem TokenCut.cons {toks : List Bytes} (h : TokenCut d s toks) : TokenCut d (d :: s) toks := by
  have hds : ∀ ds : Bytes, (∀ c ∈ ds, c = d) → ∀ c ∈ d :: ds, c = d := by
    intro ds hall c hc
    rcases List.mem_cons.mp hc with rfl | hc
    · rfl
    · exact hall c hc
  cases h with
  | blank ds hall => exact .blank (d :: s) (hds s hall)
  | last ds c tok hall hc hfree => exact .last (d :: ds) c tok (hds ds hall) hc hfree
  | token ds c tok rest hall hc hfree => exact .token (d :: ds) c tok rest (hds ds hall) hc hfree

theorem tokenCut_strtok (hd : d ≠ NUL) (hs : NUL ∉ s) : TokenCut d s (strtok d s) := by
  induction s with
  | nil => exact .blank [] (by simp)
  | cons c s ih =>
    have hs' : NUL ∉ s := fun h => hs (List.mem_cons_of_mem _ h)
    by_cases hc : c = d
    · subst hc
      rw [strtok_cons hd]
      exact (ih hs').cons
    · by_cases hmem : d ∈ s
      · obtain ⟨rest, hrest⟩ := takeWhile_split hmem
        have hfree := not_mem_takeWhile_bne d s
        generalize s.takeWhile (· != d) = tok at hrest hfree
        subst hrest
        have hnul : NUL ∉ c :: tok := by
          intro h
          apply hs
          rw [← List.cons_append]
          exact List.mem_append_left _ h
        have hone : strtok d (c :: tok) = [c :: tok] := by
          rw [strtok_of_free hnul (by simp [Ne.symm hc, hfree]), if_neg (by simp)]
        rw [← List.cons_append, strtok_append hnul hd, hone]
        exact .token [] c tok rest (by simp) hc hfree
      · rw [strtok_of_free hs (by simp [Ne.symm hc, hmem]), if_neg (by simp)]
        exact .last [] c s (by simp) hc hmem

/-- Before the next call: `front` is behind it, and `toks` are the tokens to come. -/
def Awaits (d : UInt8) (front buf : Bytes) (last : Option Nat) (toks : List Bytes) : Prop :=
  front <+: buf ∧ ((last = none ∧ toks = []) ∨
    ∃ s post, NUL ∉ s ∧ buf = front ++ (s ++ NUL :: post) ∧ last = some front.length ∧
      TokenCut d s toks)

/-- The first call reads the copy from its start. -/
theorem awaits_start (hd : d ≠ NUL) (hs : NUL ∉ s) :
    Awaits d [] (s ++ [NUL]) (some 0) (strtok d s) :=
  ⟨List.nil_prefix, Or.inr ⟨s, [], hs, rfl, rfl, tokenCut_strtok hd hs⟩⟩

/-- With no token to come a call returns the null pointer and changes nothing. -/
theorem phpStrtokR_nil (hd : d ≠ NUL) (h : Awaits d front buf last []) :
    phpStrtokR [d] buf none last = some ⟨none, buf, none⟩ := by
  obtain ⟨-, h⟩ := h
  rcases h with ⟨rfl, -⟩ | ⟨s, post, hs, rfl, rfl, hcut⟩
  · rfl
  · cases hcut with
    | blank ds hall =>
      have hseek : Buffer.seek (List.contains [d]) (front ++ (s ++ NUL :: post)) front.length =
          some (front.length + s.length) :=
        Buffer.seek_run (by simpa using Ne.symm hd) (by simpa using hall) front post
      rw [phpStrtokR, Option.none_or]
      dsimp only
      rw [hseek]
      simp

theorem endsToken_iff {b : UInt8} : endsToken [d] b = true ↔ b = d ∨ b = NUL := by
  simp [endsToken]

/-- The walk from inside a token stops at what ends it. -/
theorem seek_end {tok : Bytes} {e : UInt8} (hnul : NUL ∉ tok) (hfree : d ∉ tok)
    (he : e = d ∨ e = NUL) (front post : Bytes) :
    Buffer.seek (!endsToken [d] ·) (front ++ tok ++ e :: post) front.length =
      some (front ++ tok).length := by
  have htok : ∀ b ∈ tok, (!endsToken [d] b) = true := by
    intro b hb
    have hne : ¬endsToken [d] b = true := by
      intro h
      rcases endsToken_iff.mp h with rfl | rfl
      · exact hfree hb
      · exact hnul hb
    simpa using hne
  have hend : (!endsToken [d] e) = false := by simpa using endsToken_iff.mpr he
  have hrun := Buffer.seek_run (p := (!endsToken [d] ·)) hend htok front post
  rwa [← List.append_assoc, ← List.length_append] at hrun

/-- The leading delimiters are skipped, and what ends the token is a NUL afterwards. -/
theorem phpStrtokR_token {ds tok : Bytes} {c e : UInt8} (hds : ∀ c ∈ ds, c = d) (hc : c ≠ d)
    (hnul : NUL ∉ c :: tok) (hfree : d ∉ tok) (he : e = d ∨ e = NUL) (front post : Bytes) :
    phpStrtokR [d] (front ++ (ds ++ c :: (tok ++ e :: post))) none (some front.length) =
      some ⟨some (front ++ ds).length, front ++ ds ++ (c :: tok ++ [NUL]) ++ post,
        if e = NUL then none else some (front ++ ds ++ (c :: tok ++ [NUL])).length⟩ := by
  have hskip : Buffer.seek (List.contains [d]) (front ++ (ds ++ c :: (tok ++ e :: post)))
      front.length = some (front.length + ds.length) :=
    Buffer.seek_run (by simpa using hc) (by simpa using hds) front (tok ++ e :: post)
  have hwalk :=
    seek_end (fun h => hnul (List.mem_cons_of_mem _ h)) hfree he (front ++ ds ++ [c]) post
  have hcn : some c ≠ some NUL := fun h => hnul (Option.some.inj h ▸ List.mem_cons_self)
  have hbuf :
    front ++ (ds ++ c :: (tok ++ e :: post)) = front ++ ds ++ [c] ++ tok ++ e :: post := by
    simp
  have hfirst : (front ++ ds ++ [c] ++ tok ++ e :: post)[(front ++ ds).length]? = some c := by
    simp
  rw [hbuf, ← List.length_append] at hskip
  rw [show (front ++ ds ++ [c]).length = (front ++ ds).length + 1 from List.length_append] at hwalk
  rw [phpStrtokR, Option.none_or, hbuf]
  dsimp only
  rw [hskip, Option.bind_eq_bind, Option.bind_some, hfirst, if_neg hcn, hwalk, Option.bind_some,
    Buffer.getElem?_middle, Buffer.set_middle]
  by_cases hn : e = NUL
  · subst hn
    simp
  · rw [if_neg (by simpa using hn), if_neg hn]
    simp [Nat.add_assoc]

/-- Otherwise it returns the next token, with a NUL behind it, and awaits the others. -/
theorem phpStrtokR_cons (hd : d ≠ NUL) {t : Bytes} {ts : List Bytes}
    (h : Awaits d front buf last (t :: ts)) :
    ∃ skipped buf' last',
      phpStrtokR [d] buf none last = some ⟨some (front ++ skipped).length, buf', last'⟩ ∧
        Awaits d (front ++ skipped ++ (t ++ [NUL])) buf' last' ts := by
  obtain ⟨-, h⟩ := h
  rcases h with ⟨-, h⟩ | ⟨s, post, hs, rfl, rfl, hcut⟩
  · cases h
  · cases hcut with
    | last ds c tok hall hc hfree =>
      have hnul : NUL ∉ c :: tok := fun h => hs (List.mem_append_right _ h)
      have hcall := phpStrtokR_token hall hc hnul hfree (Or.inr rfl) front post
      rw [if_pos rfl] at hcall
      exact ⟨ds, _, _, by simpa using hcall, List.prefix_append _ _, Or.inl ⟨rfl, rfl⟩⟩
    | token ds c tok rest hall hc hfree =>
      have hnul : NUL ∉ c :: tok := by
        intro h
        apply hs
        rw [← List.cons_append]
        exact List.mem_append_right _ (List.mem_append_left _ h)
      have hrest : NUL ∉ rest := by
        intro h
        apply hs
        simp [h]
      have hcall := phpStrtokR_token hall hc hnul hfree (Or.inl rfl) front (rest ++ NUL :: post)
      rw [if_neg hd] at hcall
      exact ⟨ds, _, _, by simpa using hcall, List.prefix_append _ _,
        Or.inr ⟨rest, post, hrest, rfl, rfl, tokenCut_strtok hd hrest⟩⟩

/-- No call reads outside the memory. -/
theorem phpStrtokR_inside (hd : d ≠ NUL) {toks : List Bytes} (h : Awaits d front buf last toks) :
    ∃ t, phpStrtokR [d] buf none last = some t := by
  cases toks with
  | nil => exact ⟨_, phpStrtokR_nil hd h⟩
  | cons tok toks =>
    obtain ⟨skipped, buf', last', hcall, -⟩ := phpStrtokR_cons hd h
    exact ⟨_, hcall⟩

end Yaf
