import Yaf.Base.Along
import Yaf.Dispatcher.Own

namespace Yaf
open Base Base.Run

/-- What some events amount to adds up. -/
structure Grading (G : Nat → List Event → Prop) : Prop where
  nil : G 0 []
  append : ∀ {k l es fs}, G k es → G l fs → G (k + l) (es ++ fs)
  mono : ∀ {k l es}, k ≤ l → G k es → G l es

section
variable {γ : Type}

/-- Started in `P`, and as long as its events are of the kind `C` behind those that are in the log
already, the run `m` is the run `m'`, its events amount to `k`, and it returns into `Q`. -/
def Relies {ε α : Type} (C : List Event → Event → Prop) (G : Nat → List Event → Prop)
    (P : World γ → Prop) (k : Nat) (m m' : Run (World γ) ε α) (Q : α → World γ → Prop) : Prop :=
  ∀ w, ∃ es, Grew w es (m w).2 ∧
    (P w → Along C w.own es → m w = m' w ∧ G k es ∧ ∀ a, (m w).1 = .ok a → Q a (m w).2)

section
variable {ε α β : Type} {C : List Event → Event → Prop} {G : Nat → List Event → Prop}
  {P P' : World γ → Prop} {k l : Nat} {Q Q' : α → World γ → Prop}

theorem relies_pure (g : Grading G) {a : α} (h : ∀ w, P w → Q a w) :
    Relies C G P 0 (pure a : Run (World γ) ε α) (pure a) Q := by
  refine fun w => ⟨[], Grew.refl w, fun hP _ => ⟨rfl, g.nil, fun b hb => ?_⟩⟩
  cases hb
  exact h w hP

theorem relies_stop (g : Grading G) (e : ε) :
    Relies C G P 0 (Run.stop e : Run (World γ) ε α) (Run.stop e) Q := by
  refine fun w => ⟨[], Grew.refl w, fun _ _ => ⟨rfl, g.nil, fun b hb => ?_⟩⟩
  cases hb

theorem relies_get (g : Grading G) :
    Relies C G P 0 (Run.get : Run (World γ) ε (World γ)) Run.get fun a w => a = w ∧ P w := by
  refine fun w => ⟨[], Grew.refl w, fun hP _ => ⟨rfl, g.nil, fun b hb => ?_⟩⟩
  cases hb
  exact ⟨rfl, hP⟩

theorem relies_php (g : Grading G) :
    Relies C G P 0 (getPhp : Exec γ (Php γ)) getPhp fun _ => P := by
  refine fun w => ⟨[], Grew.refl w, fun hP _ => ⟨rfl, g.nil, fun b hb => ?_⟩⟩
  cases hb
  exact hP

theorem relies_request (g : Grading G) :
    Relies C G P 0 (getRequest : Exec γ Request) getRequest fun _ => P := by
  refine fun w => ⟨[], Grew.refl w, fun hP _ => ⟨rfl, g.nil, fun b hb => ?_⟩⟩
  cases hb
  exact hP

/-- It goes on from the state it has read. -/
theorem relies_reading {f f' : Php γ → Exec γ β} {Q : β → World γ → Prop}
    (h : ∀ php, Relies C G (fun w => php = w.php ∧ P w) k (f php) (f' php) Q) :
    Relies C G P k (getPhp >>= f) (getPhp >>= f') Q := by
  intro w
  obtain ⟨es, hgrew, h⟩ := h w.php w
  exact ⟨es, hgrew, fun hP => h ⟨rfl, hP⟩⟩

theorem relies_read {f f' : Php γ → Exec γ β} {Q : β → World γ → Prop}
    (h : ∀ php, Relies C G P k (f php) (f' php) Q) :
    Relies C G P k (getPhp >>= f) (getPhp >>= f') Q :=
  fun w => h w.php w

theorem relies_modify (g : Grading G) {f : World γ → World γ} {Q : Unit → World γ → Prop}
    (hf : ∀ w, Grew w [] (f w)) (h : ∀ w, P w → Q () (f w)) :
    Relies C G P 0 (Run.modify f : Run (World γ) ε Unit) (Run.modify f) Q := by
  refine fun w => ⟨[], hf w, fun hP _ => ⟨rfl, g.nil, fun b hb => ?_⟩⟩
  cases hb
  exact h w hP

theorem relies_update (g : Grading G) {f : Php γ → Php γ} {Q : Unit → World γ → Prop}
    (h : ∀ w, P w → Q () (w.update f)) : Relies C G P 0 (updatePhp f) (updatePhp f) Q := by
  refine fun w => ⟨[], grew_update w f, fun hP _ => ⟨rfl, g.nil, fun b hb => ?_⟩⟩
  cases hb
  exact h w hP

theorem relies_record {e : Event} (he : ∀ w : World γ, P w → C w.own e → G k [e])
    {Q : Unit → World γ → Prop} (h : ∀ w, P w → C w.own e → Q () (w.record e)) :
    Relies C G P k (Yaf.record e) (Yaf.record e) Q := by
  refine fun w => ⟨[e], grew_record w e, fun hP hC => ?_⟩
  have hCe : C w.own e := hC.head
  refine ⟨rfl, he w hP hCe, fun b hb => ?_⟩
  cases hb
  exact h w hP hCe

theorem Relies.bind (g : Grading G) {m m' : Run (World γ) ε α} {f f' : α → Run (World γ) ε β}
    {R : β → World γ → Prop} (hm : Relies C G P k m m' Q)
    (hf : ∀ a, Relies C G (Q a) l (f a) (f' a) R) :
    Relies C G P (k + l) (m >>= f) (m' >>= f') R := by
  intro w
  obtain ⟨es, hgrew, h⟩ := hm w
  cases hr : m w with
  | mk r w' =>
    rw [hr] at hgrew h
    cases r with
    | ok a =>
      obtain ⟨fs, hgrew', h'⟩ := hf a w'
      rw [bind_of_ok hr]
      refine ⟨es ++ fs, hgrew.trans hgrew', fun hP hC => ?_⟩
      obtain ⟨hsame, hes, hQ⟩ := h hP hC.left
      obtain ⟨hsame', hfs, hR⟩ := h' (hQ a rfl) (hgrew.2 ▸ hC.right)
      exact ⟨by rw [bind_of_ok hsame.symm, hsame'], g.append hes hfs, hR⟩
    | error e =>
      rw [bind_of_error hr]
      refine ⟨es, hgrew, fun hP hC => ?_⟩
      obtain ⟨hsame, hes, -⟩ := h hP hC
      exact ⟨(bind_of_error hsame.symm).symm, g.mono (Nat.le_add_right k l) hes, nofun⟩

theorem Relies.mono (g : Grading G) {m m' : Run (World γ) ε α} (h : Relies C G P k m m' Q)
    (hk : k ≤ l) (hP : ∀ w, P' w → P w) (hQ : ∀ a w, Q a w → Q' a w) :
    Relies C G P' l m m' Q' := by
  intro w
  obtain ⟨es, hgrew, h⟩ := h w
  refine ⟨es, hgrew, fun hP' hC => ?_⟩
  obtain ⟨hsame, hes, hq⟩ := h (hP w hP') hC
  exact ⟨hsame, g.mono hk hes, fun a ha => hQ a _ (hq a ha)⟩

/-- The events amount to something else as well. -/
theorem Relies.regrade {m m' : Run (World γ) ε α} (h : Relies C G P k m m' Q)
    (hG : ∀ es, G k es → G l es) : Relies C G P l m m' Q := by
  intro w
  obtain ⟨es, hgrew, h⟩ := h w
  refine ⟨es, hgrew, fun hP hC => ?_⟩
  obtain ⟨hsame, hes, hq⟩ := h hP hC
  exact ⟨hsame, hG es hes, hq⟩

theorem Relies.bind_left (g : Grading G) {m m' : Run (World γ) ε α} {f f' : α → Run (World γ) ε β}
    {R : β → World γ → Prop} (hm : Relies C G P k m m' Q)
    (hf : ∀ a, Relies C G (Q a) 0 (f a) (f' a) R) : Relies C G P k (m >>= f) (m' >>= f') R :=
  hm.bind g hf

theorem Relies.bind_right (g : Grading G) {m m' : Run (World γ) ε α}
    {f f' : α → Run (World γ) ε β} {R : β → World γ → Prop} (hm : Relies C G P 0 m m' Q)
    (hf : ∀ a, Relies C G (Q a) k (f a) (f' a) R) : Relies C G P k (m >>= f) (m' >>= f') R :=
  (hm.bind g hf).mono g (Nat.le_of_eq (Nat.zero_add k)) (fun _ h => h) fun _ _ h => h

/-- Code that is never reached. -/
theorem relies_never {m m' : Run (World γ) ε α} (hm : Within (Leaves fun _ => True) m)
    (h : ∀ w, ¬P w) : Relies C G P k m m' Q := by
  intro w
  obtain ⟨es, hgrew, -⟩ := hm w
  exact ⟨es, hgrew, fun hP => absurd hP (h w)⟩

theorem relies_lift {ε' : Type} {f : ε → ε'} {m m' : Run (World γ) ε α}
    (h : Relies C G P k m m' Q) : Relies C G P k (Run.lift f m) (Run.lift f m') Q := by
  intro w
  obtain ⟨es, hgrew, h⟩ := h w
  unfold Run.lift
  cases hr : m w with
  | mk r w' =>
    rw [hr] at hgrew h
    cases r with
    | ok a =>
      refine ⟨es, hgrew, fun hP hC => ?_⟩
      obtain ⟨hsame, hes, hq⟩ := h hP hC
      exact ⟨by rw [← hsame], hes, fun b hb => hq b (by simpa using hb)⟩
    | error e =>
      refine ⟨es, hgrew, fun hP hC => ?_⟩
      obtain ⟨hsame, hes, -⟩ := h hP hC
      exact ⟨by rw [← hsame], hes, nofun⟩

/-- A phase logs its end behind what its code does. -/
theorem relies_phase (g : Grading G) (hphase : ∀ run, G 0 [.phase run]) {p : Phase}
    {m m' : Exec γ Bool} {Q : Bool → World γ → Prop} (h : Relies C G P k m m' Q)
    (hQ : ∀ a w ended, Q a w → Q a (w.record (.phase ⟨p, ended⟩))) :
    Relies C G P k (phase p m) (phase p m') Q := by
  intro w
  obtain ⟨es, hgrew, h⟩ := h w
  unfold phase
  cases hr : m w with
  | mk r w' =>
    rw [hr] at hgrew h
    cases r with
    | ok a =>
      refine ⟨_, hgrew.trans (grew_record _ _), fun hP hC => ?_⟩
      obtain ⟨hsame, hes, hq⟩ := h hP hC.left
      refine ⟨by rw [← hsame], g.append hes (hphase _), fun b hb => hQ b w' _ (hq b ?_)⟩
      simpa using hb
    | error e =>
      refine ⟨_, hgrew.trans (grew_record _ _), fun hP hC => ?_⟩
      obtain ⟨hsame, hes, -⟩ := h hP hC.left
      exact ⟨by rw [← hsame], g.append hes (hphase _), nofun⟩

end

end

end Yaf
