import Mathlib.Order.Lattice
import Yaf.Base.Checked

namespace Base
variable {α β ε F : Type} [LinearOrder F]

/-- The greatest weight so far and what was cut out for it. -/
structure Best (F β : Type) where
  top : F
  kept : Option β

/-- An item with a greater weight takes the place of the one before. An item without a weight is
passed over. -/
def Best.offer (weight : α → Option F) (cut : α → Except ε β) (best : Best F β) (a : α) :
    Except ε (Best F β) :=
  match weight a with
  | none => .ok best
  | some w => if best.top < w then (cut a).map fun c => ⟨w, some c⟩ else .ok best

/-- Every weight in the list is less. -/
def Below (weight : α → Option F) (l : List α) (w : F) : Prop :=
  ∀ e ∈ l, ∀ v, weight e = some v → v < w

/-- An item of the list that is kept when its turn comes. -/
def Raises (weight : α → Option F) (start : F) (l : List α) (a : α) : Prop :=
  ∃ front rest w, l = front ++ a :: rest ∧ weight a = some w ∧ start < w ∧ Below weight front w

section
variable {weight : α → Option F} {cut : α → Except ε β} {best : Best F β} {start w : F} {x a : α}
  {l : List α}

theorem offer_pass (h : ∀ v, weight x = some v → v ≤ best.top) :
    best.offer weight cut x = .ok best := by
  unfold Best.offer
  cases hw : weight x with
  | none => rfl
  | some v => exact if_neg (not_lt_of_ge (h v hw))

theorem offer_greater (hw : weight x = some w) (hlt : best.top < w) :
    best.offer weight cut x = (cut x).map fun c => ⟨w, some c⟩ := by
  unfold Best.offer
  rw [hw]
  exact if_pos hlt

theorem below_cons (w : F) :
    Below weight (x :: l) w ↔ (∀ v, weight x = some v → v < w) ∧ Below weight l w := by
  simp [Below]

theorem raises_nil : ¬Raises weight start [] a := by
  intro h
  obtain ⟨front, rest, w, hl, -⟩ := h
  simp at hl

theorem raises_cons_pass (h : ∀ v, weight x = some v → v ≤ start) :
    Raises weight start (x :: l) a ↔ Raises weight start l a := by
  constructor
  · intro hraises
    obtain ⟨front, rest, w, hl, hw, hlt, hbelow⟩ := hraises
    cases front with
    | nil =>
      obtain ⟨rfl, rfl⟩ := List.cons.inj hl
      exact absurd (h w hw) (not_le_of_gt hlt)
    | cons y front =>
      obtain ⟨rfl, rfl⟩ := List.cons.inj hl
      exact ⟨front, rest, w, rfl, hw, hlt, ((below_cons w).mp hbelow).2⟩
  · intro hraises
    obtain ⟨front, rest, w, rfl, hw, hlt, hbelow⟩ := hraises
    refine ⟨x :: front, rest, w, rfl, hw, hlt, (below_cons w).mpr ⟨?_, hbelow⟩⟩
    intro v hv
    exact lt_of_le_of_lt (h v hv) hlt

theorem raises_cons_greater (hw : weight x = some w) (hlt : start < w) :
    Raises weight start (x :: l) a ↔ a = x ∨ Raises weight w l a := by
  constructor
  · intro hraises
    obtain ⟨front, rest, u, hl, hu, -, hbelow⟩ := hraises
    cases front with
    | nil =>
      obtain ⟨rfl, rfl⟩ := List.cons.inj hl
      exact Or.inl rfl
    | cons y front =>
      obtain ⟨rfl, rfl⟩ := List.cons.inj hl
      obtain ⟨hhead, htail⟩ := (below_cons u).mp hbelow
      exact Or.inr ⟨front, rest, u, rfl, hu, hhead w hw, htail⟩
  · intro h
    rcases h with rfl | hraises
    · exact ⟨[], l, w, rfl, hw, hlt, by simp [Below]⟩
    · obtain ⟨front, rest, u, rfl, hu, hwu, hbelow⟩ := hraises
      refine ⟨x :: front, rest, u, rfl, hu, lt_trans hlt hwu, (below_cons u).mpr ⟨?_, hbelow⟩⟩
      intro v hv
      rw [hw] at hv
      exact Option.some.inj hv ▸ hwu

/-- The scan comes to its end when everything it keeps can be cut out. -/
theorem foldlM_offer_ok_iff (l : List α) (best : Best F β) :
    (∃ r, l.foldlM (Best.offer weight cut) best = .ok r) ↔
      ∀ a, Raises weight best.top l a → ∃ c, cut a = .ok c := by
  induction l generalizing best with
  | nil =>
    refine iff_of_true ⟨best, rfl⟩ ?_
    intro a ha
    exact absurd ha raises_nil
  | cons x l ih =>
    by_cases hpass : ∀ v, weight x = some v → v ≤ best.top
    · rw [foldlM_of_ok l (offer_pass hpass), ih best]
      simp only [raises_cons_pass hpass]
    · push Not at hpass
      obtain ⟨w, hw, hlt⟩ := hpass
      simp only [raises_cons_greater hw hlt, forall_eq_or_imp]
      cases hcut : cut x with
      | error e =>
        have hturn : best.offer weight cut x = .error e := by rw [offer_greater hw hlt, hcut]; rfl
        rw [foldlM_of_error l hturn]
        simp
      | ok c =>
        have hturn : best.offer weight cut x = .ok ⟨w, some c⟩ := by
          rw [offer_greater hw hlt, hcut]
          rfl
        rw [foldlM_of_ok l hturn, ih ⟨w, some c⟩]
        simp

/-- What is kept over a list of smaller weights is smaller. -/
theorem foldlM_offer_below {r : Best F β} (hbelow : Below weight l w) (htop : best.top < w)
    (hr : l.foldlM (Best.offer weight cut) best = .ok r) : r.top < w := by
  induction l generalizing best with
  | nil =>
    cases hr
    exact htop
  | cons x l ih =>
    obtain ⟨hhead, htail⟩ := (below_cons w).mp hbelow
    by_cases hpass : ∀ v, weight x = some v → v ≤ best.top
    · rw [foldlM_of_ok l (offer_pass hpass)] at hr
      exact ih htail htop hr
    · push Not at hpass
      obtain ⟨v, hv, hlt⟩ := hpass
      rw [List.foldlM_cons, offer_greater hv hlt] at hr
      cases hcut : cut x with
      | error e =>
        rw [hcut] at hr
        cases hr
      | ok c =>
        rw [hcut] at hr
        exact ih htail (hhead v hv) hr

theorem foldlM_offer_pass (h : ∀ e ∈ l, ∀ v, weight e = some v → v ≤ best.top) :
    l.foldlM (Best.offer weight cut) best = .ok best := by
  induction l with
  | nil => rfl
  | cons x l ih =>
    rw [foldlM_of_ok l (offer_pass (h x List.mem_cons_self))]
    exact ih fun e he => h e (List.mem_cons_of_mem _ he)

/-- The first item of the greatest weight is the one that is left. -/
theorem foldlM_offer_first {front rest : List α} {r : Best F β} (hw : weight a = some w)
    (htop : best.top < w) (hfront : Below weight front w)
    (hrest : ∀ e ∈ rest, ∀ v, weight e = some v → v ≤ w)
    (hr : (front ++ a :: rest).foldlM (Best.offer weight cut) best = .ok r) :
    ∃ c, cut a = .ok c ∧ r = ⟨w, some c⟩ := by
  rw [List.foldlM_append] at hr
  cases hmid : front.foldlM (Best.offer weight cut) best with
  | error e =>
    rw [hmid] at hr
    cases hr
  | ok mid =>
    have hlt : mid.top < w := foldlM_offer_below hfront htop hmid
    rw [hmid, ok_bind, List.foldlM_cons, offer_greater hw hlt] at hr
    cases hcut : cut a with
    | error e =>
      rw [hcut] at hr
      cases hr
    | ok c =>
      refine ⟨c, rfl, ?_⟩
      have hlast : rest.foldlM (Best.offer weight cut) ⟨w, some c⟩ =
          (.ok ⟨w, some c⟩ : Except ε (Best F β)) := foldlM_offer_pass hrest
      rw [hcut] at hr
      change rest.foldlM (Best.offer weight cut) ⟨w, some c⟩ = .ok r at hr
      rw [hlast] at hr
      exact (Except.ok.inj hr).symm

end

end Base
