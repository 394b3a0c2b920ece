import Mathlib.Logic.Function.Iterate
import Yaf.Php.Value

namespace Yaf
open Base

/-- An output buffer of the default handler, not chunked, with what its flags allow. -/
structure OutputBuffer where
  data : Bytes
  cleanable : Bool
  flushable : Bool
  removable : Bool
  deriving DecidableEq, Repr

/-- The output layer: the stack of buffers, the active one first, and what has left the engine. -/
structure Output where
  handlers : List OutputBuffer
  sent : Bytes
  deriving DecidableEq, Repr

/-- A buffer started with `PHP_OUTPUT_HANDLER_STDFLAGS`. -/
def stdBuffer : OutputBuffer := ⟨[], true, true, true⟩

namespace Output

/-- `php_output_write` -/
def write (o : Output) (s : Bytes) : Output :=
  match o.handlers with
  | [] => { o with sent := o.sent ++ s }
  | b :: bs => { o with handlers := { b with data := b.data ++ s } :: bs }

/-- `php_output_start_user` without a callback. -/
def phpOutputStartUser (o : Output) (b : OutputBuffer) : Output :=
  { o with handlers := b :: o.handlers }

/-- `php_output_end`, with whether it succeeded. -/
def phpOutputEnd (o : Output) : Bool × Output :=
  match o.handlers with
  | [] => (false, o)
  | b :: bs => if b.removable then (true, { o with handlers := bs }.write b.data) else (false, o)

/-- `php_output_discard` -/
def phpOutputDiscard (o : Output) : Bool × Output :=
  match o.handlers with
  | [] => (false, o)
  | b :: bs => if b.removable then (true, { o with handlers := bs }) else (false, o)

/-- `php_output_stack_pop` by force: a buffer goes to the one below, also one that cannot be
removed. -/
def phpOutputPop (o : Output) : Output :=
  match o.handlers with
  | [] => o
  | b :: bs => { o with handlers := bs }.write b.data

/-- `php_output_end_all` -/
def phpOutputEndAll (o : Output) : Output := phpOutputPop^[o.handlers.length] o

/-- `php_output_discard_all` -/
def phpOutputDiscardAll (o : Output) : Output := { o with handlers := [] }

/-- `php_output_get_contents` -/
def phpOutputGetContents (o : Output) : Option Bytes := o.handlers.head?.map OutputBuffer.data

/-- `php_output_flush`: the buffer stays, what is in it goes to the one below. -/
def phpOutputFlush (o : Output) : Bool × Output :=
  match o.handlers with
  | [] => (false, o)
  | b :: bs =>
    if b.flushable then
      let below := { o with handlers := bs }.write b.data
      (true, { below with handlers := { b with data := [] } :: below.handlers })
    else (false, o)

/-- `php_output_clean` -/
def phpOutputClean (o : Output) : Bool × Output :=
  match o.handlers with
  | [] => (false, o)
  | b :: bs =>
    if b.cleanable then (true, { o with handlers := { b with data := [] } :: bs }) else (false, o)

end Output

/-- What a script can do to the output. -/
inductive OutputCall where
  | echo (s : Bytes)
  | obStart (cleanable flushable removable : Bool)
  | obFlush
  | obClean
  | obEndFlush
  | obEndClean
  | obGetFlush
  | obGetClean
  | obGetContents
  | obGetLevel
  deriving DecidableEq, Repr

namespace OutputCall

/-- What the call returns, and what it makes of the output. -/
def apply (o : Output) : OutputCall → Zval × Output
  | echo s => (.null, o.write s)
  | obStart cleanable flushable removable =>
    (.bool true, o.phpOutputStartUser ⟨[], cleanable, flushable, removable⟩)
  | obFlush => (.bool o.phpOutputFlush.1, o.phpOutputFlush.2)
  | obClean => (.bool o.phpOutputClean.1, o.phpOutputClean.2)
  | obEndFlush => (.bool o.phpOutputEnd.1, o.phpOutputEnd.2)
  | obEndClean => (.bool o.phpOutputDiscard.1, o.phpOutputDiscard.2)
  | obGetFlush =>
    match o.phpOutputGetContents with
    | none => (.bool false, o)
    | some s => (.string s, o.phpOutputEnd.2)
  | obGetClean =>
    match o.phpOutputGetContents with
    | none => (.bool false, o)
    | some s => (.string s, o.phpOutputDiscard.2)
  | obGetContents =>
    match o.phpOutputGetContents with
    | none => (.bool false, o)
    | some s => (.string s, o)
  | obGetLevel => (.long o.handlers.length, o)

/-- How many buffers of its own a script has after the call. A call has no answer here that reaches
below them, or starts a buffer that cannot be removed. -/
def depth (own : Nat) : OutputCall → Option Nat
  | echo _ => some own
  | obStart _ _ removable => if removable then some (own + 1) else none
  | obFlush | obClean | obGetContents => if own = 0 then none else some own
  | obEndFlush | obEndClean | obGetFlush | obGetClean => if own = 0 then none else some (own - 1)
  | obGetLevel => none

end OutputCall

namespace Output

/-- Buffers of one's own on top of those that were there. -/
def under (own : List OutputBuffer) (o : Output) : Output :=
  { handlers := own ++ o.handlers, sent := o.sent }

/-- Buffers that can all be removed. -/
def Removable (own : List OutputBuffer) : Prop := ∀ b ∈ own, b.removable = true

@[simp] theorem under_nil (o : Output) : under [] o = o := rfl

theorem under_append (own own' : List OutputBuffer) (o : Output) :
    under own (under own' o) = under (own ++ own') o := by
  simp [under]

@[simp] theorem write_nil (o : Output) : o.write [] = o := by
  obtain ⟨handlers, sent⟩ := o
  cases handlers with
  | nil => simp [write]
  | cons b bs => simp [write]

@[simp] theorem write_write (o : Output) (s t : Bytes) :
    (o.write s).write t = o.write (s ++ t) := by
  obtain ⟨handlers, sent⟩ := o
  cases handlers with
  | nil => simp [write]
  | cons b bs => simp [write]

@[simp] theorem handlers_under_cons (b : OutputBuffer) (bs : List OutputBuffer) (o : Output) :
    (under (b :: bs) o).handlers = b :: (under bs o).handlers := rfl

/-- A write goes to one's own top buffer, or to what was there. -/
theorem write_under {own : List OutputBuffer} (h : Removable own) (s : Bytes) :
    ∃ own' t, (∀ o, (under own o).write s = under own' (o.write t)) ∧
      own'.length = own.length ∧ Removable own' := by
  cases own with
  | nil => exact ⟨[], s, fun _ => rfl, rfl, h⟩
  | cons b bs =>
    refine ⟨{ b with data := b.data ++ s } :: bs, [], ?_, rfl, ?_⟩
    · intro o
      rw [write_nil]
      rfl
    · intro c hc
      rcases List.mem_cons.mp hc with rfl | hc
      · exact h b List.mem_cons_self
      · exact h c (List.mem_cons_of_mem b hc)

end Output

namespace Output
variable {b : OutputBuffer} {bs : List OutputBuffer}

theorem Removable.tail (h : Removable (b :: bs)) : Removable bs := by
  intro c hc
  exact h c (List.mem_cons_of_mem b hc)

theorem Removable.cons (hb : b.removable = true) (h : Removable bs) : Removable (b :: bs) := by
  intro c hc
  rcases List.mem_cons.mp hc with rfl | hc
  · exact hb
  · exact h c hc

/-- When all buffers have ended, what was in them has left the engine, that of the lowest first. -/
theorem phpOutputEndAll_eq (o : Output) :
    o.phpOutputEndAll = ⟨[], o.sent ++ o.handlers.reverse.flatMap OutputBuffer.data⟩ := by
  obtain ⟨handlers, sent⟩ := o
  unfold phpOutputEndAll
  cases handlers with
  | nil => simp
  | cons b bs =>
    -- a pop adds to the buffer below, which is popped next
    induction bs generalizing b with
    | nil => simp [phpOutputPop, write]
    | cons c cs ih =>
      have hpop : phpOutputPop ⟨b :: c :: cs, sent⟩ =
          ⟨{ c with data := c.data ++ b.data } :: cs, sent⟩ := rfl
      rw [List.length_cons, Function.iterate_succ_apply, hpop]
      refine (ih { c with data := c.data ++ b.data }).trans ?_
      simp [List.flatMap_append]

theorem end_under (h : Removable (b :: bs)) (o : Output) :
    (under (b :: bs) o).phpOutputEnd = (true, (under bs o).write b.data) := by
  rw [phpOutputEnd, handlers_under_cons]
  simp only
  rw [if_pos (h b List.mem_cons_self)]
  rfl

theorem discard_under (h : Removable (b :: bs)) (o : Output) :
    (under (b :: bs) o).phpOutputDiscard = (true, under bs o) := by
  rw [phpOutputDiscard, handlers_under_cons]
  simp only
  rw [if_pos (h b List.mem_cons_self)]
  rfl

theorem contents_under (o : Output) : (under (b :: bs) o).phpOutputGetContents = some b.data := rfl

theorem flush_under (o : Output) :
    (under (b :: bs) o).phpOutputFlush =
      if b.flushable then (true, under [{ b with data := [] }] ((under bs o).write b.data))
      else (false, under (b :: bs) o) := rfl

theorem clean_under (o : Output) :
    (under (b :: bs) o).phpOutputClean =
      if b.cleanable then (true, under ({ b with data := [] } :: bs) o)
      else (false, under (b :: bs) o) := rfl

end Output

open Output in
/-- A call within one's own buffers does the same whatever lies below, and writes to it at most. -/
theorem OutputCall.apply_under {c : OutputCall} {own : List OutputBuffer} {d : Nat}
    (h : Removable own) (hd : c.depth own.length = some d) :
    ∃ v own' t, (∀ o, c.apply (under own o) = (v, under own' (o.write t))) ∧
      own'.length = d ∧ Removable own' := by
  cases c with
  | echo s =>
    obtain ⟨own', t, hw, hl, hr⟩ := write_under h s
    refine ⟨.null, own', t, ?_, hl.trans (Option.some.inj hd), hr⟩
    intro o
    rw [apply, hw]
  | obStart cleanable flushable removable =>
    rw [depth] at hd
    split at hd
    · rename_i hrem
      refine ⟨.bool true, ⟨[], cleanable, flushable, removable⟩ :: own, [], ?_,
        Option.some.inj hd, Removable.cons hrem h⟩
      intro o
      rw [write_nil]
      rfl
    · cases hd
  | obGetLevel => cases hd
  | obEndFlush =>
    cases own with
    | nil => cases hd
    | cons b bs =>
      obtain ⟨bs', t, hw, hl, hr⟩ := write_under h.tail b.data
      refine ⟨.bool true, bs', t, ?_, hl.trans (Option.some.inj hd), hr⟩
      intro o
      rw [apply, end_under h, hw]
  | obEndClean =>
    cases own with
    | nil => cases hd
    | cons b bs =>
      refine ⟨.bool true, bs, [], ?_, Option.some.inj hd, h.tail⟩
      intro o
      rw [apply, discard_under h, write_nil]
  | obGetFlush =>
    cases own with
    | nil => cases hd
    | cons b bs =>
      obtain ⟨bs', t, hw, hl, hr⟩ := write_under h.tail b.data
      refine ⟨.string b.data, bs', t, ?_, hl.trans (Option.some.inj hd), hr⟩
      intro o
      rw [apply, contents_under, end_under h, hw]
  | obGetClean =>
    cases own with
    | nil => cases hd
    | cons b bs =>
      refine ⟨.string b.data, bs, [], ?_, Option.some.inj hd, h.tail⟩
      intro o
      rw [apply, contents_under, discard_under h, write_nil]
  | obGetContents =>
    cases own with
    | nil => cases hd
    | cons b bs =>
      refine ⟨.string b.data, b :: bs, [], ?_, Option.some.inj hd, h⟩
      intro o
      rw [apply, contents_under, write_nil]
  | obFlush =>
    cases own with
    | nil => cases hd
    | cons b bs =>
      obtain ⟨bs', t, hw, hl, hr⟩ := write_under h.tail b.data
      have hb := h b List.mem_cons_self
      by_cases hf : b.flushable = true
      · refine ⟨.bool true, { b with data := [] } :: bs', t, ?_, ?_, Removable.cons hb hr⟩
        · intro o
          rw [apply, flush_under, if_pos hf, hw, under_append]
          rfl
        · rw [List.length_cons, hl]
          exact Option.some.inj hd
      · refine ⟨.bool false, b :: bs, [], ?_, Option.some.inj hd, h⟩
        intro o
        rw [apply, flush_under, if_neg hf, write_nil]
  | obClean =>
    cases own with
    | nil => cases hd
    | cons b bs =>
      have hb := h b List.mem_cons_self
      by_cases hc : b.cleanable = true
      · refine ⟨.bool true, { b with data := [] } :: bs, [], ?_, Option.some.inj hd,
          Removable.cons hb h.tail⟩
        intro o
        rw [apply, clean_under, if_pos hc, write_nil]
      · refine ⟨.bool false, b :: bs, [], ?_, Option.some.inj hd, h⟩
        intro o
        rw [apply, clean_under, if_neg hc, write_nil]

end Yaf
