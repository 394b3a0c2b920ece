import Yaf.Base.Table
import Yaf.Php.Bytes

namespace Yaf
open Base

inductive BodyFlag where
  | replace
  | prepend
  | append
  deriving DecidableEq, Repr

/-- What `yaf_response_alter_body` makes of the text a segment holds. -/
def BodyFlag.combine (flag : BodyFlag) (obody body : Bytes) : Bytes :=
  match flag with
  | replace => body
  | prepend => body ++ obody
  | append => obody ++ body

/-- `YAF_RESPONSE_PROPERTY_NAME_DEFAULTBODY`, the segment that is meant without a name. -/
def defaultBody : Bytes := lit "content"

/-- The `_body` of a response. A name is taken as it is, an integer or not. -/
abbrev ResponseBody := Table Key Bytes

namespace ResponseBody

/-- `yaf_response_alter_body`. The empty text is taken for done before anything is looked up. -/
def alterBody (zbody : ResponseBody) (name : Option Bytes) (body : Bytes) (flag : BodyFlag) :
    ResponseBody :=
  if body = [] then zbody
  else
    match Table.find? zbody (.name (name.getD defaultBody)) with
    | none => Table.update zbody (.name (name.getD defaultBody)) body
    | some obody => Table.update zbody (.name (name.getD defaultBody)) (flag.combine obody body)

/-- `yaf_response_get_body` behind the method: nothing found is the empty text. -/
def getBody (zbody : ResponseBody) (name : Option Bytes) : Bytes :=
  (Table.find? zbody (.name (name.getD defaultBody))).getD []

/-- What `yaf_response_send` writes. -/
def send (zbody : ResponseBody) : Bytes := zbody.flatMap Prod.snd

end ResponseBody

/-- A call on a response. -/
inductive BodyCall where
  | setBody (body : Bytes) (name : Option Bytes)
  | appendBody (body : Bytes) (name : Option Bytes)
  | prependBody (body : Bytes) (name : Option Bytes)
  | clearBody (name : Option Bytes)
  deriving DecidableEq, Repr

namespace BodyCall

/-- The methods. `clearBody` without a name hands a pointer on that was never set. -/
def apply (zbody : ResponseBody) : BodyCall → Option ResponseBody
  | setBody body name => some (zbody.alterBody name body .replace)
  | appendBody body name => some (zbody.alterBody name body .append)
  | prependBody body name => some (zbody.alterBody name body .prepend)
  | clearBody (some name) => some (Table.erase zbody (.name name))
  | clearBody none => none

/-- The segment a call is on; a clear without a name is on all of them. -/
def touches (segment : Bytes) : BodyCall → Bool
  | setBody _ name => name.getD defaultBody = segment
  | appendBody _ name => name.getD defaultBody = segment
  | prependBody _ name => name.getD defaultBody = segment
  | clearBody (some name) => name = segment
  | clearBody none => true

/-- What a call makes of the text of its segment. -/
def combine (text : Bytes) : BodyCall → Bytes
  | setBody body _ => body
  | appendBody body _ => text ++ body
  | prependBody body _ => body ++ text
  | clearBody _ => []

def effect (segment text : Bytes) (call : BodyCall) : Bytes :=
  if call.touches segment then call.combine text else text

/-- A segment joins the others with the first call on it. -/
def insert (order : List Bytes) (segment : Bytes) : List Bytes :=
  if segment ∈ order then order else order ++ [segment]

/-- What a call means for the order of the segments. -/
def reorder (order : List Bytes) : BodyCall → List Bytes
  | setBody _ name => insert order (name.getD defaultBody)
  | appendBody _ name => insert order (name.getD defaultBody)
  | prependBody _ name => insert order (name.getD defaultBody)
  | clearBody (some name) => order.erase name
  | clearBody none => []

/-- The text of a segment after the calls. -/
def text (calls : List BodyCall) (segment : Bytes) : Bytes := calls.foldl (effect segment) []

/-- The segments after the calls, by their first insertion since they were last cleared. -/
def order (calls : List BodyCall) : List Bytes := calls.foldl reorder []

/-- A call that does not run into the early exit for the empty text, or only where it makes no
difference, and that has a name to clear. -/
def plain (order : List Bytes) : BodyCall → Bool
  | setBody body _ => body ≠ []
  | appendBody body name => body ≠ [] || name.getD defaultBody ∈ order
  | prependBody body name => body ≠ [] || name.getD defaultBody ∈ order
  | clearBody name => name.isSome

def plainFrom (order : List Bytes) : List BodyCall → Bool
  | [] => true
  | call :: calls => call.plain order && plainFrom (call.reorder order) calls

/-- The body is what the calls say. -/
structure Laws (calls : List BodyCall) (zbody : ResponseBody) : Prop where
  get : ∀ name : Option Bytes, zbody.getBody name = text calls (name.getD defaultBody)
  other : ∀ (call : BodyCall) (zbody' : ResponseBody), call.apply zbody = some zbody' →
    ∀ name : Option Bytes, call.touches (name.getD defaultBody) = false →
      zbody'.getBody name = zbody.getBody name
  sent : zbody.send = (order calls).flatMap (text calls)

/-- The body of a response against texts and an order of segments. -/
structure Agrees (zbody : ResponseBody) (text : Bytes → Bytes) (order : List Bytes) : Prop where
  keys : Table.keys zbody = order.map Key.name
  nodup : order.Nodup
  find : ∀ segment ∈ order, Table.find? zbody (.name segment) = some (text segment)
  rest : ∀ segment, segment ∉ order → text segment = []

section
variable {zbody zbody' : ResponseBody} {t : Bytes → Bytes} {segments : List Bytes} {call : BodyCall}

theorem Agrees.find_none (h : Agrees zbody t segments) {segment : Bytes} (hs : segment ∉ segments) :
    Table.find? zbody (.name segment) = none := by
  rw [Table.find?_eq_none, h.keys, List.mem_map]
  rintro ⟨s, hm, he⟩
  exact hs (Key.name.inj he ▸ hm)

theorem Agrees.getBody (h : Agrees zbody t segments) (name : Option Bytes) :
    zbody.getBody name = t (name.getD defaultBody) := by
  unfold ResponseBody.getBody
  by_cases hs : name.getD defaultBody ∈ segments
  · rw [h.find _ hs, Option.getD_some]
  · rw [h.find_none hs, h.rest _ hs, Option.getD_none]

theorem Agrees.send (h : Agrees zbody t segments) : zbody.send = segments.flatMap t := by
  have hvalues : ∀ (zbody : ResponseBody) (segments : List Bytes),
      Table.keys zbody = segments.map Key.name → segments.Nodup →
      (∀ segment ∈ segments, Table.find? zbody (.name segment) = some (t segment)) →
      zbody.flatMap Prod.snd = segments.flatMap t := by
    intro zbody
    induction zbody with
    | nil =>
      intro segments hk _ _
      rw [List.map_eq_nil_iff.mp hk.symm]
      rfl
    | cons p zbody ih =>
      intro segments hk hn hf
      obtain ⟨k, body⟩ := p
      cases segments with
      | nil => cases hk
      | cons segment segments =>
        rw [Table.keys_cons, List.map_cons, List.cons.injEq] at hk
        obtain ⟨hkey, hk⟩ := hk
        obtain rfl : k = .name segment := hkey
        obtain ⟨hnew, hn⟩ := List.nodup_cons.mp hn
        have hbody : body = t segment := by simpa [Table.find?] using hf segment List.mem_cons_self
        rw [List.flatMap_cons, List.flatMap_cons, hbody, ih segments hk hn ?_]
        intro s hs
        have hne : segment ≠ s := by
          rintro rfl
          exact hnew hs
        have := hf s (List.mem_cons_of_mem _ hs)
        rwa [Table.find?, if_neg (by simpa using hne)] at this
  exact hvalues zbody segments h.keys h.nodup h.find

/-- A segment of its own is written or joins the others. -/
theorem Agrees.update (h : Agrees zbody t segments) (segment body : Bytes) :
    Agrees (Table.update zbody (.name segment) body)
      (fun s => if segment = s then body else t s) (insert segments segment) := by
  have hfind : ∀ s, Table.find? (Table.update zbody (.name segment) body) (.name s) =
      if segment = s then some body else Table.find? zbody (.name s) := by
    intro s
    rw [Table.find?_update]
    by_cases hs : segment = s
    · simp [hs]
    · rw [if_neg (fun he => hs (Key.name.inj he).symm), if_neg hs]
  unfold insert
  by_cases hm : segment ∈ segments
  · rw [if_pos hm]
    refine ⟨?_, h.nodup, fun s hs => ?_, fun s hs => ?_⟩
    · rw [Table.keys_update_of_mem _ (h.keys ▸ List.mem_map_of_mem hm), h.keys]
    · rw [hfind]
      split
      · rfl
      · exact h.find s hs
    · rw [if_neg (fun he : segment = s => hs (he ▸ hm))]
      exact h.rest s hs
  · rw [if_neg hm]
    have hk : Key.name segment ∉ Table.keys zbody := Table.find?_eq_none.mp (h.find_none hm)
    refine ⟨?_, ?_, fun s hs => ?_, fun s hs => ?_⟩
    · rw [Table.update_of_not_mem _ hk]
      simp [Table.keys, ← h.keys]
    · refine List.nodup_append.mpr ⟨h.nodup, List.nodup_singleton _, ?_⟩
      rintro s hs r hr rfl
      exact hm (List.mem_singleton.mp hr ▸ hs)
    · rw [hfind]
      split
      · rfl
      · rename_i hne
        rcases List.mem_append.mp hs with hs | hs
        · exact h.find s hs
        · exact absurd (List.mem_singleton.mp hs).symm hne
    · rw [List.mem_append, List.mem_singleton, not_or] at hs
      rw [if_neg (Ne.symm hs.2)]
      exact h.rest s hs.1

theorem Agrees.erase (h : Agrees zbody t segments) (segment : Bytes) :
    Agrees (Table.erase zbody (.name segment)) (fun s => if segment = s then [] else t s)
      (segments.erase segment) := by
  have hinj : Function.Injective Key.name := fun _ _ => Key.name.inj
  refine ⟨?_, h.nodup.erase segment, fun s hs => ?_, fun s hs => ?_⟩
  · rw [Table.keys_erase, h.keys, List.map_erase hinj]
  · obtain ⟨hne, hs⟩ := (h.nodup.mem_erase_iff).mp hs
    rw [Table.find?_erase_other _ (fun he => hne (Key.name.inj he)), if_neg (Ne.symm hne)]
    exact h.find s hs
  · split
    · rfl
    · rename_i hne
      exact h.rest s fun hm => hs ((h.nodup.mem_erase_iff).mpr ⟨Ne.symm hne, hm⟩)

/-- A text that is not empty is put together with what the segment holds. -/
theorem alterBody_eq {name : Option Bytes} {body : Bytes} {flag : BodyFlag} (hb : body ≠ []) :
    zbody.alterBody name body flag =
      Table.update zbody (.name (name.getD defaultBody))
        (flag.combine (zbody.getBody name) body) := by
  rw [ResponseBody.alterBody, if_neg hb, ResponseBody.getBody]
  cases Table.find? zbody (.name (name.getD defaultBody)) with
  | none => cases flag <;> simp [BodyFlag.combine]
  | some obody => rfl

theorem Agrees.alter (h : Agrees zbody t segments) (name : Option Bytes) (flag : BodyFlag)
    {body : Bytes} (hb : body ≠ []) :
    Agrees (zbody.alterBody name body flag)
      (fun s => if name.getD defaultBody = s then flag.combine (t s) body else t s)
      (insert segments (name.getD defaultBody)) := by
  rw [alterBody_eq hb, h.getBody]
  have hup := h.update (name.getD defaultBody) (flag.combine (t (name.getD defaultBody)) body)
  refine ⟨hup.keys, hup.nodup, fun s hs => ?_, fun s hs => ?_⟩
  · rw [hup.find s hs]
    split
    · rename_i he
      rw [he]
    · rfl
  · have := hup.rest s hs
    split
    · rename_i he
      rw [← he]
      simpa [he] using this
    · rename_i hne
      simpa [hne] using this

/-- The empty text is not written, and changes nothing in a segment that is there. -/
theorem Agrees.alter_nil (h : Agrees zbody t segments) {name : Option Bytes} (flag : BodyFlag)
    (hf : flag ≠ .replace) (hm : name.getD defaultBody ∈ segments) :
    Agrees (zbody.alterBody name [] flag)
      (fun s => if name.getD defaultBody = s then flag.combine (t s) [] else t s)
      (insert segments (name.getD defaultBody)) := by
  have hsame : (fun s => if name.getD defaultBody = s then flag.combine (t s) [] else t s) = t := by
    funext s
    split
    · cases flag with
      | replace => exact absurd rfl hf
      | prepend => rfl
      | append => exact List.append_nil _
    · rfl
  rw [hsame, insert, if_pos hm, ResponseBody.alterBody, if_pos rfl]
  exact h

/-- One plain call. -/
theorem Agrees.apply (h : Agrees zbody t segments) (hp : call.plain segments = true) :
    ∃ zbody', call.apply zbody = some zbody' ∧
      Agrees zbody' (fun s => call.effect s (t s)) (call.reorder segments) := by
  cases call with
  | setBody body name =>
    refine ⟨_, rfl, ?_⟩
    simpa [effect, touches, combine, reorder, BodyFlag.combine] using
      h.alter name .replace (by simpa [plain] using hp)
  | appendBody body name =>
    refine ⟨_, rfl, ?_⟩
    simp only [effect, touches, combine, reorder, decide_eq_true_eq]
    by_cases hb : body = []
    · subst hb
      exact h.alter_nil .append (by simp) (by simpa [plain] using hp)
    · exact h.alter _ .append hb
  | prependBody body name =>
    refine ⟨_, rfl, ?_⟩
    simp only [effect, touches, combine, reorder, decide_eq_true_eq]
    by_cases hb : body = []
    · subst hb
      exact h.alter_nil .prepend (by simp) (by simpa [plain] using hp)
    · exact h.alter _ .prepend hb
  | clearBody name =>
    cases name with
    | none => cases hp
    | some name =>
      refine ⟨_, rfl, ?_⟩
      simpa [effect, touches, combine, reorder] using h.erase name

/-- A plain run. -/
theorem Agrees.run (calls : List BodyCall) :
    ∀ {zbody : ResponseBody} {t : Bytes → Bytes} {segments : List Bytes}, Agrees zbody t segments →
      plainFrom segments calls = true →
      ∃ zbody', calls.foldlM BodyCall.apply zbody = some zbody' ∧
        Agrees zbody' (fun s => calls.foldl (effect s) (t s)) (calls.foldl reorder segments) := by
  induction calls with
  | nil => exact fun h _ => ⟨_, rfl, h⟩
  | cons call calls ih =>
    intro zbody t segments h hp
    rw [plainFrom, Bool.and_eq_true] at hp
    obtain ⟨zbody₁, hstep, h₁⟩ := h.apply hp.1
    obtain ⟨zbody', hrun, h'⟩ := ih h₁ hp.2
    refine ⟨zbody', ?_, h'⟩
    rw [List.foldlM_cons, hstep]
    exact hrun

/-- A call on other segments. -/
theorem getBody_other {name : Option Bytes} (hstep : call.apply zbody = some zbody')
    (hn : call.touches (name.getD defaultBody) = false) :
    zbody'.getBody name = zbody.getBody name := by
  have halter : ∀ other body flag, other.getD defaultBody ≠ name.getD defaultBody →
      (zbody.alterBody other body flag).getBody name = zbody.getBody name := by
    intro other body flag hne
    have hkey : Key.name (name.getD defaultBody) ≠ .name (other.getD defaultBody) := fun he =>
      hne (Key.name.inj he).symm
    by_cases hb : body = []
    · rw [ResponseBody.alterBody, if_pos hb]
    · rw [alterBody_eq hb, ResponseBody.getBody, Table.find?_update_other _ _ hkey,
        ResponseBody.getBody]
  cases call with
  | setBody body other =>
    obtain rfl := Option.some.inj hstep
    exact halter other body _ (by simpa [touches] using hn)
  | appendBody body other =>
    obtain rfl := Option.some.inj hstep
    exact halter other body _ (by simpa [touches] using hn)
  | prependBody body other =>
    obtain rfl := Option.some.inj hstep
    exact halter other body _ (by simpa [touches] using hn)
  | clearBody other =>
    cases other with
    | none => cases hn
    | some other =>
      obtain rfl := Option.some.inj hstep
      have hne : other ≠ name.getD defaultBody := by simpa [touches] using hn
      rw [ResponseBody.getBody, Table.find?_erase_other _ (fun he => hne (Key.name.inj he).symm),
        ResponseBody.getBody]

end

/-- Over every plain run of calls the body of a response is what the calls say. -/
theorem body_laws (calls : List BodyCall) (hp : plainFrom [] calls = true) :
    ∃ zbody, calls.foldlM BodyCall.apply ([] : ResponseBody) = some zbody ∧ Laws calls zbody := by
  have hstart : Agrees [] (fun _ => []) [] := ⟨rfl, List.nodup_nil, by simp, fun _ _ => rfl⟩
  obtain ⟨zbody, hrun, h⟩ := hstart.run calls hp
  exact ⟨zbody, hrun, h.getBody, fun _ _ hstep _ hn => getBody_other hstep hn, h.send⟩

/-- A page whose footer is started over. -/
def pageCalls : List BodyCall := [
  .setBody (lit "ell") none,
  .appendBody (lit "o") none,
  .setBody (lit "x") (some (lit "footer")),
  .clearBody (some (lit "footer")),
  .prependBody (lit "H") none,
  .appendBody [] none]

theorem body_laws_sample :
    ∃ zbody, pageCalls.foldlM BodyCall.apply ([] : ResponseBody) = some zbody ∧
      Laws pageCalls zbody :=
  body_laws pageCalls (by decide)

/-- A text that is set to nothing stays. -/
def emptied : List BodyCall := [.setBody (lit "x") none, .setBody [] none]

theorem empty_body_ignored :
    ¬∃ zbody, emptied.foldlM BodyCall.apply ([] : ResponseBody) = some zbody ∧
      Laws emptied zbody := by
  rintro ⟨zbody, hrun, h⟩
  obtain rfl : [(Key.name defaultBody, lit "x")] = zbody := Option.some.inj hrun
  have hget := h.get none
  revert hget
  decide

end BodyCall

end Yaf
