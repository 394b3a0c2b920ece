import Yaf.Dispatcher.Runs

namespace Yaf
open Base Base.Run

/-- The log grows by events of this kind. -/
def Extends {γ : Type} (Ev : Event → Prop) (w w' : World γ) : Prop :=
  ∃ new, w'.log = w.log ++ new ∧ ∀ e ∈ new, Ev e.2

theorem extends_trail {γ : Type} (Ev : Event → Prop) :
    Trail (Extends Ev : World γ → World γ → Prop) Ev where
  refl w := ⟨[], by simp, by simp⟩
  trans := by
    rintro u v w ⟨es, hv, hes⟩ ⟨fs, hw, hfs⟩
    refine ⟨es ++ fs, by rw [hw, hv, List.append_assoc], ?_⟩
    intro e he
    rcases List.mem_append.mp he with he | he
    · exact hes e he
    · exact hfs e he
  php w p _ := ⟨[], by simp, by simp⟩
  record w e he := ⟨[(w.depth, e)], rfl, by simpa using he⟩

/-- A script is opened, or a controller made, for a declared module only, and the script is looked
for in the directory of that module. -/
def Gated : Event → Prop
  | .openScript entry directory path =>
    ∃ appDir module, entry.directory = some appDir ∧ entry.names.module = .string module ∧
      module ≠ [] ∧ (∃ declared ∈ entry.modules, equalsCi declared module = true) ∧
      directory = controllersDirectory appDir module (entry.defaultModule == module) ∧
      directory ++ [slash] <+: path
  | .newController entry _ =>
    ∃ module, entry.names.module = .string module ∧ module ≠ [] ∧
      ∃ declared ∈ entry.modules, equalsCi declared module = true
  | _ => True

theorem gate_eq_some {entry : HandleEntry} {module : Bytes} (h : entry.gate = some module) :
    entry.names.module = .string module ∧ module ≠ [] ∧
      ∃ declared ∈ entry.modules, equalsCi declared module = true := by
  unfold HandleEntry.gate at h
  split at h
  · simp at h
  · rename_i m hm
    split at h
    · rename_i hdeclared
      obtain rfl := Option.some.inj h
      obtain ⟨hs, hn⟩ := Zval.text?_eq_some.mp hm
      exact ⟨hs, hn, List.any_eq_true.mp hdeclared⟩
    · simp at h

theorem HandleEvent.gated {e : Event} (h : HandleEvent e) : Gated e := by
  cases h with
  | enter entry => trivial
  | script lowcasePath ext controller hd hg =>
    obtain ⟨hs, hn, hm⟩ := gate_eq_some hg
    refine ⟨_, _, hd, hs, hn, hm, rfl, ?_⟩
    obtain ⟨x, _, hpath⟩ := autoloadPath_asPath lowcasePath ext _ controller
    rw [hpath]
    exact ⟨x ++ dot :: ext, by simp⟩
  | controller name hg => exact ⟨_, gate_eq_some hg⟩

theorem HandlerEvent.gated {e : Event} (h : HandlerEvent e) : Gated e := by
  cases h with
  | handle h => exact h.gated
  | _ => trivial

theorem dispatch_gated {γ : Type} {call : Calls γ} {fuel : Nat}
    (hc : ∀ site, Within (Extends Gated) (call site)) :
    Within (Extends Gated) (dispatch call fuel) := by
  have t := extends_trail (γ := γ) Gated
  have hu : ∀ site, Within (Extends Gated) (userCall call site) :=
    userCall_closed t.closed.frames hc fun _ _ _ _ _ => trivial
  refine dispatch_within (R := Extends Gated) ?_ fun w w' h => h
  exact dispatchBody_within t hu (fun e h => h.gated) (fun _ => trivial) (fun _ => trivial)
    fun _ => exceptionHandler_within t hu (fun e h => h.gated) fun w => ⟨[], by simp, by simp⟩

/-- In no run of a PHP request, however deep its dispatches go, is a controller script opened or a
controller made but for a declared module. -/
theorem module_gate {γ : Type} (app : Site → Script γ) (fuel room : Nat) (main : Script γ)
    (w : World γ) :
    ∃ new, (phpRequest app fuel room main w).2.log = w.log ++ new ∧ ∀ e ∈ new, Gated e.2 :=
  phpRequest_within (extends_trail Gated) (fun _ _ => ⟨[], by simp, by simp⟩)
    (fun _ => dispatch_gated) room main w

end Yaf
