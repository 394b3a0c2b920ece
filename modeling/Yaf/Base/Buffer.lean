import Mathlib.Data.List.DropRight

namespace Base.Buffer

variable {α : Type} {p : α → Bool} {z c : α} {run : List α}

/-- Write `z` over the characters before position `n`, backwards, as long as they satisfy `p`. When
none is left the next one is read from outside the buffer. -/
def clearBack (p : α → Bool) (z : α) : List α → Nat → Option (List α × Nat)
  | _, 0 => none
  | buf, n + 1 =>
    match buf[n]? with
    | none => none
    | some c => if p c then clearBack p z (buf.set n z) n else some (buf, n + 1)

/-- The same from position `i` on, forwards. -/
def clearFront (p : α → Bool) (z : α) (buf : List α) (i : Nat) : Option (List α × Nat) :=
  match h : buf[i]? with
  | none => none
  | some c => if p c then clearFront p z (buf.set i z) (i + 1) else some (buf, i)
termination_by buf.length - i
decreasing_by
  have hlt := (List.getElem?_eq_some_iff.mp h).1
  rw [List.length_set]
  omega

/-- The first position from `i` on whose character does not satisfy `p`, when the buffer holds one.
-/
def seek (p : α → Bool) (buf : List α) (i : Nat) : Option Nat :=
  match h : buf[i]? with
  | none => none
  | some c => if p c then seek p buf (i + 1) else some i
termination_by buf.length - i
decreasing_by
  have hlt := (List.getElem?_eq_some_iff.mp h).1
  omega

theorem set_middle (pre post : List α) (d : α) :
    (pre ++ d :: post).set pre.length z = pre ++ z :: post := by
  rw [List.set_append_right _ _ (Nat.le_refl _), Nat.sub_self, List.set_cons_zero]

theorem getElem?_middle (pre post : List α) (d : α) : (pre ++ d :: post)[pre.length]? = some d := by
  simp

/-- The run behind a character that stops it is cleared. -/
theorem clearBack_run (hc : p c = false) (hrun : ∀ d ∈ run, p d = true) (pre post : List α) :
    clearBack p z (pre ++ c :: (run ++ post)) (pre.length + 1 + run.length) =
      some (pre ++ c :: (List.replicate run.length z ++ post), pre.length + 1) := by
  induction run using List.reverseRecOn generalizing post with
  | nil =>
    rw [List.length_nil, Nat.add_zero, clearBack, List.nil_append, getElem?_middle]
    simp [hc]
  | append_singleton run d ih =>
    have hd : p d = true := hrun d (by simp)
    have hshape : pre ++ c :: (run ++ [d] ++ post) = (pre ++ c :: run) ++ d :: post := by simp
    have hlen : pre.length + 1 + run.length = (pre ++ c :: run).length := by
      simp only [List.length_append, List.length_cons]
      omega
    rw [List.length_append, List.length_singleton, ← Nat.add_assoc, hshape, clearBack, hlen,
      getElem?_middle]
    simp only [hd, if_true]
    rw [set_middle, ← hlen, List.append_assoc, List.cons_append,
      ih (fun e he => hrun e (by simp [he])), List.replicate_succ', List.append_assoc,
      List.singleton_append]

/-- With nothing to stop it the run leaves the buffer. -/
theorem clearBack_outside (hrun : ∀ d ∈ run, p d = true) (post : List α) :
    clearBack p z (run ++ post) run.length = none := by
  induction run using List.reverseRecOn generalizing post with
  | nil => rfl
  | append_singleton run d ih =>
    have hd : p d = true := hrun d (by simp)
    rw [List.length_append, List.length_singleton, List.append_assoc, List.singleton_append,
      clearBack, getElem?_middle]
    simp only [hd, if_true]
    rw [set_middle]
    exact ih (fun e he => hrun e (by simp [he])) _

/-- The run before a character that stops it is cleared. -/
theorem clearFront_run (hc : p c = false) (hrun : ∀ d ∈ run, p d = true) (pre post : List α) :
    clearFront p z (pre ++ (run ++ c :: post)) pre.length =
      some (pre ++ (List.replicate run.length z ++ c :: post), pre.length + run.length) := by
  induction run generalizing pre with
  | nil =>
    rw [List.nil_append, clearFront, getElem?_middle]
    simp [hc]
  | cons d run ih =>
    have hd : p d = true := hrun d List.mem_cons_self
    have hstep := ih (fun e he => hrun e (List.mem_cons_of_mem _ he)) (pre ++ [z])
    simp only [List.append_assoc, List.singleton_append, List.length_append, List.length_singleton]
      at hstep
    rw [List.cons_append, clearFront, getElem?_middle]
    simp only [hd, if_true]
    rw [set_middle, hstep, List.length_cons, List.replicate_succ, List.cons_append,
      Nat.add_assoc, Nat.add_comm 1]

/-- Before a terminator the text loses its leading run. -/
theorem clearFront_text (hz : p z = false) (pre s post : List α) :
    clearFront p z (pre ++ (s ++ z :: post)) pre.length =
      some (pre ++ (List.replicate (s.takeWhile p).length z ++ (s.dropWhile p ++ z :: post)),
        pre.length + (s.takeWhile p).length) := by
  have hrun : ∀ d ∈ s.takeWhile p, p d = true := fun d hd => List.mem_takeWhile_imp hd
  conv_lhs => rw [← List.takeWhile_append_dropWhile (p := p) (l := s), List.append_assoc]
  cases hd : s.dropWhile p with
  | nil => exact clearFront_run hz hrun pre post
  | cons c t =>
    have hc : p c = false := by
      have h := List.head?_dropWhile_not p s
      rw [hd] at h
      simpa using h
    exact clearFront_run hc hrun pre (t ++ z :: post)

/-- A text with something to stop at loses its trailing run. -/
theorem clearBack_text {s : List α} (hs : ∃ d ∈ s, p d = false) (pre post : List α) :
    clearBack p z (pre ++ (s ++ post)) (pre.length + s.length) =
      some (pre ++ (s.rdropWhile p ++ (List.replicate (s.rtakeWhile p).length z ++ post)),
        pre.length + (s.rdropWhile p).length) := by
  have hne : s.rdropWhile p ≠ [] := by
    intro hnil
    obtain ⟨d, hd, hpd⟩ := hs
    have := List.rdropWhile_eq_nil_iff.mp hnil d hd
    rw [hpd] at this
    cases this
  have hlast : p ((s.rdropWhile p).getLast hne) = false := by
    simpa using List.rdropWhile_last_not p s hne
  obtain ⟨kept, c, hkept⟩ : ∃ kept c, s.rdropWhile p = kept ++ [c] ∧ p c = false :=
    ⟨_, _, (List.dropLast_append_getLast hne).symm, hlast⟩
  have hrun : ∀ d ∈ s.rtakeWhile p, p d = true := fun d hd => List.mem_rtakeWhile_imp hd
  have hsplit : s = kept ++ c :: s.rtakeWhile p := by
    have happend : s.rdropWhile p ++ s.rtakeWhile p = s := List.rdropWhile_append_rtakeWhile
    rw [hkept.1, List.append_assoc] at happend
    exact happend.symm
  have hlen : pre.length + s.length = (pre ++ kept).length + 1 + (s.rtakeWhile p).length := by
    conv_lhs => rw [hsplit]
    simp only [List.length_append, List.length_cons]
    omega
  have hbuf : pre ++ (s ++ post) = (pre ++ kept) ++ c :: (s.rtakeWhile p ++ post) := by
    conv_lhs => rw [hsplit]
    simp
  rw [hlen, hbuf, clearBack_run hkept.2 hrun, hkept.1]
  simp [Nat.add_assoc]

/-- The search stops behind the run. -/
theorem seek_run (hc : p c = false) (hrun : ∀ d ∈ run, p d = true) (pre post : List α) :
    seek p (pre ++ (run ++ c :: post)) pre.length = some (pre.length + run.length) := by
  induction run generalizing pre with
  | nil =>
    rw [List.nil_append, seek, getElem?_middle]
    simp [hc]
  | cons d run ih =>
    have hd : p d = true := hrun d List.mem_cons_self
    have hstep := ih (fun e he => hrun e (List.mem_cons_of_mem _ he)) (pre ++ [d])
    simp only [List.append_assoc, List.singleton_append, List.length_append, List.length_singleton]
      at hstep
    rw [List.cons_append, seek, getElem?_middle]
    simp only [hd, if_true]
    rw [hstep, List.length_cons, Nat.add_assoc, Nat.add_comm 1]

section
variable [DecidableEq α]

/-- The text from position `i` up to the first `z`, when there is one. -/
def text? (z : α) (buf : List α) (i : Nat) : Option (List α) :=
  if z ∈ buf.drop i then some ((buf.drop i).takeWhile (· != z)) else none

theorem text?_middle (hz : z ∉ run) (pre post : List α) :
    text? z (pre ++ (run ++ z :: post)) pre.length = some run := by
  have hrun : ∀ d ∈ run, (d != z) = true := by
    intro d hd
    apply bne_iff_ne.mpr
    intro he
    exact hz (he ▸ hd)
  rw [text?, List.drop_left, if_pos (by simp), List.takeWhile_append_of_pos hrun]
  simp

end

end Base.Buffer
